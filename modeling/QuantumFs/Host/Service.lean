import QuantumFs.Host.Commit

/-! The operations of the host (`sync/host.rs`, `sync/host/filesystem.rs`,
`membership.rs`, `persistence.rs`): instructions of members, uploads, admissions
and kicks, the flush of a mailbox, acknowledgements, and opening a vault. -/
namespace QuantumFs.Host

open Lib Encoding Crypto Store

def maxBootstrapFrames : Nat := 100000
def maxBootstrapBytes : Nat := 64 * 1024 * 1024
def bootstrapFrameOverhead : Nat := 256
def recentOpsLimit : Nat := 2048

/-- One pass over the entries that are left: those whose parent is known become
links, the others wait. -/
structure LinkRound where
  directories : OrdSet FileId
  links : List ControlUpdate
  deferred : List Dirent

def linkOf (entry : Dirent) : ControlUpdate :=
  .link entry.parent entry.name entry.child entry.isDir

def LinkRound.visit (round : LinkRound) (entry : Dirent) : LinkRound :=
  if entry.parent ∈ round.directories then
    { round with
      directories := if entry.isDir then round.directories.insert entry.child else round.directories
      links := round.links ++ [linkOf entry] }
  else { round with deferred := round.deferred ++ [entry] }

/-- `fuel` bounds the passes; each one that continues links an entry. -/
def linkRounds : (fuel : Nat) → OrdSet FileId → List Dirent → Result (List ControlUpdate)
  | _, _, [] => pure []
  | 0, _, _ => .error (.state "replica tree is not rooted")
  | fuel + 1, directories, remaining => do
      let round := remaining.foldl LinkRound.visit ⟨directories, [], []⟩
      ensure (round.deferred.length ≠ remaining.length) (.state "replica tree is not rooted")
      let rest ← linkRounds fuel round.directories round.deferred
      pure (round.links ++ rest)

/-- Updates numbered upwards from `first`. -/
def numberRecords (first : Nat) : List ControlUpdate → Result (List ControlRecord)
  | updates => updates.zipIdx.mapM fun (update, offset) => do
      let id ← checkedAdd first offset (.state "bootstrap instruction id overflow")
      pure { id, update }

/-- One manifest and one link for everything in the vault. An empty vault with a
history still sends one record, which ends the snapshot. -/
def snapshotUpdates (root : FileId) (tree : DirectoryTree) (manifests : Map FileId Manifest)
    (through : Nat) : Result (List ControlUpdate) := do
  let entries := tree.dirents.filter fun entry => entry.name ≠ ""
  let links ← linkRounds entries.length ((∅ : OrdSet FileId).insert root) entries
  let updates := (Map.vals manifests).map ControlUpdate.newManifest ++ links
  pure (if updates = [] ∧ through ≠ 0 then [.add ⟨0⟩] else updates)

def snapshotRecords (root : FileId) (tree : DirectoryTree) (manifests : Map FileId Manifest)
    (through : Nat) : Result (List ControlRecord) := do
  let updates ← snapshotUpdates root tree manifests through
  ensure (updates.length ≤ through) (.state "bootstrap state exceeds instruction history")
  let first ← checkedAdd (through - updates.length) 1
    (.state "bootstrap state exceeds instruction history")
  numberRecords first updates

/-- A recipient with an empty replica rebuilds the state of the vault from these. -/
def bootstrapRecords (state : HostState) (through : Nat) : Result (List ControlRecord) :=
  snapshotRecords state.expectedRoot state.tree state.manifests through

section

variable [Primitives]

def noteRecentOp (env : HostEnv) (sender : PeerId) (idBefore : Nat) (host : HostService) :
    HostService :=
  if host.state.nextControl ≤ idBefore ∨ host.recentOps.getLast?.any (·.1 = idBefore) then host
  else
    let ring := if recentOpsLimit ≤ host.recentOps.length then host.recentOps.tail
      else host.recentOps
    { host with recentOps := ring ++ [(idBefore, sender, env.unixMillis)] }

/-- A manifest that is already current is accepted without a record. -/
def commitManifest (env : HostEnv) (manifest : Manifest) : Action Error HostService Unit := do
  Action.query HostService.requireRunning
  Action.query fun host => verifyTrusted host.keys host.state.members manifest
  Action.query fun host => validateReplica host.state.chunks manifest
  let host ← Action.get
  if host.state.manifests[manifest.fileId]? = some manifest then pure ()
  else commitVerified env (.newManifest manifest) (some manifest)

def dropMember (target : PeerId) (host : HostService) : HostService :=
  { host with
    presence := host.presence.erase target
    challenges := host.challenges.erase target
    disconnects := host.disconnects ++ [target] }

def kickWithCode (env : HostEnv) (target : PeerId) (code : Option JoinCode) :
    Action Error HostService PeerId := do
  Action.query HostService.requireRunning
  Action.query fun host => host.requireMember target
  let host ← Action.get
  Action.require (target ≠ host.state.hostId) (.invalidInput "cannot kick H")
  commitVerifiedWithCode env (.kick target) none code
  Action.modify (noteRecentOp env host.state.hostId host.state.nextControl)
  Action.modify (dropMember target)
  HostService.onKeys (KeyStore.discardPair env.keys target)
  pure target

def kick (env : HostEnv) (target : PeerId) : Action Error HostService PeerId :=
  kickWithCode env target none

def commitInstruction (env : HostEnv) : ControlUpdate → Action Error HostService Unit
  | .newManifest manifest => commitManifest env manifest
  | .kick target => do
      let _ ← kick env target
      pure ()
  | update => do
      Action.query HostService.requireRunning
      commitVerified env update none

/-- Which instructions a member may send; the host may send all of them. -/
def authorized (state : HostState) (sender : PeerId) : ControlUpdate → Bool
  | .newManifest manifest => manifest.writerId = sender
  | .link _ _ _ _ | .unlink _ _ | .rename _ _ _ _ => true
  | .add _ | .kick _ | .clear _ | .remove _ => sender = state.hostId

def fanOutControl (env : HostEnv) (sender : PeerId) (update : ControlUpdate) :
    Action Error HostService Unit := do
  Action.query HostService.requireRunning
  Action.query fun host => host.requireMember sender
  let host ← Action.get
  Action.require (authorized host.state sender update = true) .authenticationFailed
  commitInstruction env update
  Action.modify (noteRecentOp env sender host.state.nextControl)

def mkdir (env : HostEnv) (sender : PeerId) (path : String) : Action Error HostService FileId := do
  Action.query HostService.requireRunning
  Action.query fun host => host.requireMember sender
  let (parent, name) ← Action.query fun host => host.state.tree.resolveParent path
  let child ← Action.ofExcept (randomBytes env.fileId)
  fanOutControl env sender (.link parent name child true)
  pure child

def linkFile (env : HostEnv) (sender : PeerId) (path : String) (child : FileId) :
    Action Error HostService Unit := do
  Action.query HostService.requireRunning
  Action.query fun host => host.requireMember sender
  let (parent, name) ← Action.query fun host => host.state.tree.resolveParent path
  fanOutControl env sender (.link parent name child false)

def unlink (env : HostEnv) (sender : PeerId) (path : String) : Action Error HostService Unit := do
  Action.query HostService.requireRunning
  Action.query fun host => host.requireMember sender
  let (parent, name) ← Action.query fun host => host.state.tree.resolveParent path
  fanOutControl env sender (.unlink parent name)

def rename (env : HostEnv) (sender : PeerId) (source destination : String) :
    Action Error HostService Unit := do
  Action.query HostService.requireRunning
  Action.query fun host => host.requireMember sender
  let (srcParent, srcName) ← Action.query fun host => host.state.tree.resolveParent source
  let (dstParent, dstName) ← Action.query fun host => host.state.tree.resolveParent destination
  fanOutControl env sender (.rename srcParent srcName dstParent dstName)

def verifyWriterManifest (host : HostService) (sender : PeerId) (manifest : Manifest) :
    Result Unit := do
  host.requireRunning
  host.requireMember sender
  ensure (manifest.writerId = sender) .authenticationFailed
  verifyTrusted host.keys host.state.members manifest

def linksFile (fileId : FileId) : ControlUpdate → Bool
  | .link _ _ child false => child = fileId
  | _ => false

def stageBodies (env : HostEnv) (fileId : FileId) (bodies : List (Nat × Bytes)) :
    Action Error HostService Unit :=
  Action.forEach bodies fun (index, plaintext) => do
    let _ ← HostService.onChunks (ChunkStore.put env.files fileId index plaintext)
    pure ()

/-- All records of one save, prepared on a copy that writes no snapshot. -/
def stageUpload (env : HostEnv) (sender : PeerId) (manifest : Manifest) (bodies : Map Nat Bytes)
    (link : Option ControlUpdate) : Action Error HostService Unit := do
  stageBodies env manifest.fileId bodies.toList
  fanOutControl env sender (.newManifest manifest)
  match link with
  | none => pure ()
  | some update => fanOutControl env sender update

/-- Run a method on a copy of the service; keystore and data directory are shared. -/
def inTransaction (x : Action Error HostService Unit) : Action Error HostService HostState :=
  fun host =>
    let (result, transaction) := x { host with
      deferPersistence := true
      disconnects := []
      recentOps := []
      lastSeen := ∅ }
    (result.map fun _ => transaction.state,
      { host with keys := transaction.keys, disk := transaction.disk })

def reopenUnowned (owners : List (PeerId × Bool)) : Action Error HostService Unit :=
  Action.forEach owners fun (peer, ownedBefore) => do
    let host ← Action.get
    if ownedBefore then pure ()
    else HostService.onKeys (KeyStore.unblockLiveTraffic peer host.state.gateOwner)

def gateOwners (host : HostService) : Result (List (PeerId × Bool)) :=
  host.state.members.toList.mapM fun peer => do
    let owned ← host.keys.ownsLiveGate peer host.state.gateOwner
    pure (peer, owned)

def publishUpload (env : HostEnv) (sender : PeerId) (manifest : Manifest) (bodies : Map Nat Bytes)
    (link : Option ControlUpdate) : Action Error HostService Unit := do
  let staged ← inTransaction (stageUpload env sender manifest bodies link)
  publishState env staged

/-- The ids a published upload has consumed enter the operator ring. -/
def noteRecentOps (env : HostEnv) (sender : PeerId) (first : Nat) (host : HostService) :
    HostService :=
  (List.range' first (host.state.nextControl - first)).foldl
    (fun host id => noteRecentOp env sender id host) host

def commitWriterUpload (env : HostEnv) (sender : PeerId) (manifest : Manifest)
    (bodies : Map Nat Bytes) (link : Option ControlUpdate) : Action Error HostService Unit := do
  Action.query fun host => verifyWriterManifest host sender manifest
  Action.require (link.all (linksFile manifest.fileId) = true)
    (.invalidInput "upload link does not match file")
  refreshMailboxes
  let owners ← Action.query gateOwners
  let host ← Action.get
  Action.orElseUndo (publishUpload env sender manifest bodies link) (reopenUnowned owners)
  Action.modify (noteRecentOps env sender host.state.nextControl)

def nextVersion (manifests : Map FileId Manifest) (fileId : FileId) : Result Nat :=
  match manifests[fileId]? with
  | none => pure 1
  | some manifest => checkedAdd manifest.version.val 1 (.state "manifest version exhausted")

def addBody (fileId : FileId) (sizes : Nat × List ChunkId) (body : Bytes × Nat) :
    Result (Nat × List ChunkId) := do
  ensure (body.1.length ≤ maxChunkBytes) (.invalidInput "chunk exceeds 1 MiB")
  let size ← checkedAdd sizes.1 body.1.length (.invalidInput "file size overflow")
  pure (size, sizes.2 ++ [chunkId fileId body.2 body.1])

def signManifest (writer : KeyStore) (sender : PeerId) (fileId : FileId) (version : Nat)
    (bodies : List Bytes) : Result Manifest := do
  let (size, chunkIds) ← bodies.zipIdx.foldlM (addBody fileId) (0, [])
  let unsigned : Manifest :=
    { fileId
      chunkIds
      size := Fin.ofNat _ size
      writerId := sender
      version := Fin.ofNat _ version
      signature := [] }
  let key ← writer.signingKey
  let message ← manifestM unsigned
  pure { unsigned with signature := mlDsaSign key .manifest message }

def newLink (tree : DirectoryTree) (path : String) (existing : Option FileId) (fileId : FileId) :
    Result (Option ControlUpdate) :=
  match existing with
  | some _ => pure none
  | none => do
      let (parent, name) ← tree.resolveParent path
      pure (some (.link parent name fileId false))

/-- What a save of a path sends: `file_id`, signed manifest and link, decided on
the tree and the manifests at hand. -/
def prepareSave (env : HostEnv) (tree : DirectoryTree) (manifests : Map FileId Manifest)
    (writer : KeyStore) (sender : PeerId) (path : String) (bodies : List Bytes) :
    Result (FileId × Manifest × Option ControlUpdate) := do
  let _ ← tree.resolveParent path
  let existing := (tree.resolve path).toOption
  ensure (existing.all fun id => !tree.isDir id) (.invalidInput "cannot save a directory")
  let fileId ← match existing with
    | some id => pure id
    | none => randomBytes env.fileId
  let version ← nextVersion manifests fileId
  let manifest ← signManifest writer sender fileId version bodies
  let link ← newLink tree path existing fileId
  pure (fileId, manifest, link)

def indexed (bodies : List Bytes) : Map Nat Bytes :=
  bodies.zipIdx.foldl (fun map (body, index) => map.insert index body) ∅

def saveFile (env : HostEnv) (writer : KeyStore) (path : String) (bodies : List Bytes) :
    Action Error HostService FileId := do
  Action.query HostService.requireRunning
  let sender ← Action.ofExcept writer.peerId
  Action.query fun host => host.requireMember sender
  let (fileId, manifest, link) ← Action.query fun host =>
    prepareSave env host.state.tree host.state.manifests writer sender path bodies
  commitWriterUpload env sender manifest (indexed bodies) link
  pure fileId

def frameBytes (sizes : List Nat) : Result Nat :=
  sizes.foldlM (fun total size => checkedAdd total (size + bootstrapFrameOverhead)
    (.state "bootstrap byte count overflow")) 0

def recordSizes (records : List ControlRecord) : Result (List Nat) :=
  records.mapM fun record => do
    let encoded ← encodeControlRecord record
    pure encoded.length

def chunkSizes (state : HostState) : Result (List Nat) :=
  ((Map.vals state.manifests).flatMap Manifest.chunkIds).mapM fun chunkId => do
    let plaintext ← okOr (state.chunks.get chunkId) (.state "committed plaintext missing")
    pure plaintext.length

def budgetedRecords (staged : HostState) (through : Nat) : Result (List ControlRecord) := do
  let records ← bootstrapRecords staged through
  let chunks := ((Map.vals staged.manifests).map fun manifest => manifest.chunkIds.length).sum
  ensure (records.length + chunks ≤ maxBootstrapFrames) (.state "bootstrap exceeds frame budget")
  let records' ← recordSizes records
  let bodies ← chunkSizes staged
  let bytes ← frameBytes (records' ++ bodies)
  ensure (bytes ≤ maxBootstrapBytes) (.state "bootstrap exceeds byte budget")
  pure records

/-- Every slot of every manifest, in file order. -/
def manifestSlots (manifests : Map FileId Manifest) : List QueueContent :=
  (Map.vals manifests).flatMap fun manifest =>
    manifest.chunkIds.zipIdx.map fun (chunkId, index) => .chunk manifest.fileId index chunkId

def sealBootstrap (chunks : ChunkStore) (session : PairSession) (queuedAt : Nat)
    (contents : List QueueContent) : Action Error KeyStore (List Queued) :=
  contents.mapM fun content => do
    let envelope ← sealContent chunks session queuedAt content
    pure { envelope, content }

/-- Setting up an empty vault works before a pair exists; every frame of a
snapshot needs one. -/
def bootstrapQueue (env : HostEnv) (staged : HostState) (peer : PeerId)
    (records : List ControlRecord) : Action Error KeyStore (List Queued) := do
  let contents := records.map QueueContent.control ++ manifestSlots staged.manifests
  if contents = [] then
    let _ ← Action.ofExcept env.unixTime?
    pure []
  else
    let session ← Action.query fun keys => keys.currentSession peer
    let queuedAt ← Action.ofExcept env.unixTime?
    sealBootstrap staged.chunks session queuedAt contents

def stageMember (document : IdentityDocument) (state : HostState) : HostState :=
  { state with
    identityDocuments := state.identityDocuments.insert document.peerId document
    historicalMembers := state.historicalMembers.insert document.peerId
    members := state.members.insert document.peerId }

def withBootstrap (peer : PeerId) (queue : List Queued) (through : Nat) (staged : HostState) :
    HostState :=
  { staged with
    mailboxes := staged.mailboxes.insert peer queue
    bootstrapThrough := staged.bootstrapThrough.insert peer through }

/-- The snapshot is queued for the new member before it can see live traffic. -/
def bootstrapMember (env : HostEnv) (document : IdentityDocument) :
    Action Error HostService Unit := do
  let peer := document.peerId
  let staged ← Action.query fun host => archiveHost host.keys (stageMember document host.state)
  let through := staged.nextControl - 1
  let records ← Action.ofExcept (budgetedRecords staged through)
  let queue ← HostService.onKeys (bootstrapQueue env staged peer records)
  HostService.onKeys (KeyStore.blockLiveTraffic peer staged.gateOwner)
  Action.orElseUndo (publishState env (withBootstrap peer queue through staged))
    (HostService.onKeys (KeyStore.unblockLiveTraffic peer staged.gateOwner))

def addMember (env : HostEnv) (document : IdentityDocument) : Action Error HostService Unit := do
  Action.query HostService.requireRunning
  Action.ofExcept (verifyIdentity document)
  let host ← Action.get
  Action.require (document.peerId ∉ host.state.denied) .authenticationFailed
  if document.peerId ∈ host.state.members then pure ()
  else do
    HostService.onKeys (KeyStore.importPeer env.keys document)
    bootstrapMember env document

def adoptAdmission (metadata : VaultMetadata) (state : HostState) : HostState :=
  match state.admission with
  | some _ => state
  | none => { state with
      denied := OrdSet.extend state.denied metadata.denied
      admission := some metadata }

def attachAdmission (env : HostEnv) (metadata : VaultMetadata) :
    Action Error HostService Unit := do
  let host ← Action.get
  Action.require (metadata.vaultId.val = host.state.expectedRoot.val)
    (.invalidInput "vault admission root mismatch")
  Action.modify fun host => { host with admissionPath := true }
  Action.orElseUndo (do
      Action.require
        (∀ stored ∈ host.state.admission, stored.vaultId.val = host.state.expectedRoot.val)
        (.invalidInput "stored admission root mismatch")
      publishState env (adoptAdmission metadata host.state))
    (Action.modify fun now => { now with admissionPath := host.admissionPath })

def setAdmission (env : HostEnv) (metadata : VaultMetadata) : Action Error HostService Unit := do
  Action.query HostService.requireRunning
  let host ← Action.get
  Action.require (metadata.vaultId.val = host.state.expectedRoot.val ∧
      OrdSet.ofList metadata.members = host.state.members ∧ metadata.denied = host.state.denied)
    (.invalidInput "admission membership differs from replica")
  publishState env { host.state with admission := some metadata }

def heartbeat (env : HostEnv) (peer : PeerId) (ttl : Nat) : Action Error HostService Unit := do
  Action.query HostService.requireRunning
  Action.query fun host => host.requireMember peer
  let expires ← Action.ofExcept
    (checkedAdd (env.clock peer) ttl (.invalidInput "presence TTL overflow"))
  Action.modify fun host => { host with
    presence := host.presence.insert peer expires
    lastSeen := host.lastSeen.insert peer env.unixMillis }

def resealLive (session : PairSession) (recipient : PeerId) : Action Error HostService Unit :=
  fun host =>
    let (result, keys, pending) :=
      Action.updateEach (resealOnline session) (host.state.online[recipient]?.getD []) host.keys
    (result, { host with
      keys
      state := { host.state with online := host.state.online.insert recipient pending } })

/-- Hand out what waits for a live peer; from here on only the snapshot knows
that it is not acknowledged. -/
def takePending (env : HostEnv) (session : PairSession) (recipient : PeerId) :
    Action Error HostService (List ControlPacket) := do
  resealLive session recipient
  let host ← Action.get
  publishState env { host.state with online := host.state.online.erase recipient }
  pure ((host.state.online[recipient]?.getD []).map OnlineControl.packet)

def takeOnlineControl (env : HostEnv) (recipient : PeerId) :
    Action Error HostService (List ControlPacket) := do
  Action.query HostService.requireRunning
  Action.query fun host => host.requireMember recipient
  Action.query fun host => host.keys.requireLiveTraffic recipient
  let session ← Action.query fun host => host.keys.currentSession recipient
  let host ← Action.get
  if host.state.online[recipient]?.getD [] = [] then pure []
  else takePending env session recipient

def mailboxEnvelopes (state : HostState) (peer : PeerId) : List MailboxEnvelope :=
  (state.mailboxes[peer]?.getD []).map Queued.envelope

def replaceBody (recipient : PeerId) (fileId : FileId) (index : Nat) (entry : Queued)
    (state : HostState) : HostState :=
  let queue := (state.mailboxes[recipient]?.getD []).filter fun old =>
    otherSlot fileId index old.content
  { state with mailboxes := state.mailboxes.insert recipient (queue ++ [entry]) }

def queueSlot (env : HostEnv) (recipient : PeerId) (fileId : FileId) (index : Nat)
    (chunkId : ChunkId) : Action Error HostService Unit := do
  let session ← Action.query fun host => host.keys.currentSession recipient
  let plaintext ← Action.query fun host =>
    okOr (host.state.chunks.get chunkId) (.state "queued plaintext missing")
  let host ← Action.get
  HostService.onKeys (KeyStore.blockLiveTraffic recipient host.state.gateOwner)
  let frame ← HostService.onKeys (encryptAtSend session fileId index plaintext)
  let queuedAt ← Action.ofExcept env.unixTime?
  let envelope ← Action.ofExcept (chunkEnvelope frame queuedAt)
  let entry : Queued := { envelope, content := .chunk fileId index chunkId }
  Action.orElseUndo (publishState env (replaceBody recipient fileId index entry host.state))
    (reopenGates [recipient])

def appendMailbox (env : HostEnv) (recipient : PeerId) (fileId : FileId) (index : Nat) :
    Action Error HostService Unit := do
  Action.query HostService.requireRunning
  Action.query fun host => host.requireMember recipient
  let manifest ← Action.query fun host =>
    okOr host.state.manifests[fileId]? .authenticationFailed
  let chunkId ← Action.ofExcept (okOr manifest.chunkIds[index]? .authenticationFailed)
  refreshMailboxes
  queueSlot env recipient fileId index chunkId

def issueFlushChallenge (env : HostEnv) (recipient : PeerId) :
    Action Error HostService FlushChallenge := do
  Action.query HostService.requireRunning
  Action.query fun host => host.requireMember recipient
  let challenge ← Action.ofExcept (randomBytes env.challenge)
  Action.modify fun host => { host with challenges := host.challenges.insert recipient challenge }
  pure challenge

structure PreparedHostFlush where
  peerId : PeerId
  challenge : FlushChallenge
  envelopes : List MailboxEnvelope
  bootstrapThrough : Option Nat
deriving DecidableEq

def prepareFlush (peer : PeerId) (challenge : FlushChallenge) (signature : Bytes) :
    Action Error HostService PreparedHostFlush := do
  Action.query HostService.requireRunning
  Action.query fun host => host.requireMember peer
  let host ← Action.get
  Action.require (host.challenges[peer]? = some challenge) .authenticationFailed
  let identity ← Action.query fun host => host.keys.loadVerifiedPeer peer
  Action.ofExcept (mlDsaVerify identity.vk .flush (flushM challenge) signature)
  refreshMailboxes
  HostService.onKeys (KeyStore.blockLiveTraffic peer host.state.gateOwner)
  let host ← Action.get
  pure {
    peerId := peer
    challenge
    envelopes := mailboxEnvelopes host.state peer
    bootstrapThrough := host.state.bootstrapThrough[peer]? }

/-- The highest instruction of a drained mailbox, or the bootstrap it completed. -/
def flushedThrough (state : HostState) (peer : PeerId) : Nat :=
  max ((((state.mailbox peer).filterMap QueueContent.record?).map (·.id)).max?.getD 0)
    (state.bootstrapThroughOf peer)

def raiseAck (peer : PeerId) (through : Nat) (state : HostState) : HostState :=
  { state with ackedThrough :=
      state.ackedThrough.insert peer (max (state.ackedThroughOf peer) through) }

/-- A drained mailbox is gone, with the bootstrap it may have begun with. -/
def drainMailbox (peer : PeerId) (state : HostState) : HostState :=
  { raiseAck peer (flushedThrough state peer) state with
    mailboxes := state.mailboxes.erase peer
    bootstrapThrough := state.bootstrapThrough.erase peer }

def acknowledgeFlush (env : HostEnv) (peer : PeerId) (prepared : PreparedHostFlush) :
    Action Error HostService Unit := do
  Action.query HostService.requireRunning
  let host ← Action.get
  Action.require (prepared.peerId = peer ∧ host.challenges[peer]? = some prepared.challenge)
    .authenticationFailed
  Action.require (host.state.bootstrapThrough[peer]? = prepared.bootstrapThrough)
    (.state "bootstrap changed before flush acknowledgement")
  Action.require (mailboxEnvelopes host.state peer = prepared.envelopes)
    (.state "mailbox changed before flush acknowledgement")
  publishState env (drainMailbox peer host.state)
  Action.modify fun host => { host with challenges := host.challenges.erase peer }
  HostService.onKeys (KeyStore.unblockLiveTraffic peer host.state.gateOwner)

/-- Called after a member has applied the instruction `through`. -/
def acknowledgeApplied (env : HostEnv) (peer : PeerId) (through : Nat) :
    Action Error HostService Unit := do
  Action.query HostService.requireRunning
  Action.query fun host => host.requireMember peer
  let host ← Action.get
  Action.require (through < host.state.nextControl) (.invalidInput "ack exceeds host log")
  if through ≤ host.state.ackedThroughOf peer then pure ()
  else publishState env (raiseAck peer through host.state)

def historicalDocuments (state : HostState) : List IdentityDocument :=
  Map.vals state.identityDocuments

def freshState (hostId : PeerId) (members : OrdSet PeerId) (root : FileId) (gateOwner : Nat)
    (chunks : ChunkStore) : HostState where
  expectedRoot := root
  tree := DirectoryTree.new root
  ackedThrough := ∅
  hostId := hostId
  members := members
  denied := ∅
  historicalMembers := members
  identityDocuments := ∅
  bootstrapThrough := ∅
  chunks := chunks
  manifests := ∅
  log := []
  nextControl := 1
  mailboxes := ∅
  online := ∅
  gateOwner := gateOwner
  admission := none

def serviceOf (keys : KeyStore) (disk : Option DurableStore) (state : HostState) :
    HostService where
  keys := keys
  state := state
  disk := disk
  presence := ∅
  challenges := ∅
  running := true
  deferPersistence := false
  admissionPath := false
  disconnects := []
  recentOps := []
  lastSeen := ∅

def newInVault (env : HostEnv) (keys : KeyStore) (members : OrdSet PeerId) (chunks : ChunkStore)
    (root : FileId) : Result HostService := do
  let hostId ← keys.peerId
  ensure (hostId ∈ members) (.invalidInput "H must be a vault member")
  let gateOwner ← randomBytes env.gateOwner
  let state := freshState hostId members root gateOwner chunks
  pure (serviceOf keys none { state with
    chunks := { chunks with metadata := some state.metadata } })

def writerDocument (keys : KeyStore) (documents : Map PeerId IdentityDocument)
    (manifest : Manifest) : Result IdentityDocument :=
  match documents[manifest.writerId]? with
  | some document => pure document
  | none => documentOf keys manifest.writerId

/-- Every document and every manifest of a snapshot is checked before it is used. -/
def verifiedManifests (keys : KeyStore) (metadata : ReplicaMetadata) : Result Unit := do
  metadata.identityDocuments.toList.forM fun (peer, document) => do
    ensure (peer = document.peerId) .authenticationFailed
    verifyIdentity document
  (Map.vals metadata.manifests).forM fun manifest => do
    let writer ← writerDocument keys metadata.identityDocuments manifest
    verifyAccepted manifest writer

/-- Ciphertext is never loaded: a restored entry has no envelope yet. -/
def restoreEntry (hostId peer : PeerId) (content : QueueContent) : Queued where
  envelope :=
    { recipientId := peer, senderId := hostId, epoch := 0, seq := 0, queuedAt := 0, ciphertext := [] }
  content := content

def restoreState (hostId : PeerId) (gateOwner : Nat) (metadata : ReplicaMetadata)
    (tree : DirectoryTree) (chunks : ChunkStore) : HostState where
  expectedRoot := metadata.expectedRoot
  tree := tree
  ackedThrough := metadata.ackedThrough
  hostId := hostId
  members := metadata.members
  denied := metadata.denied
  historicalMembers := metadata.historicalMembers
  identityDocuments := metadata.identityDocuments
  bootstrapThrough := metadata.bootstrapThrough
  chunks := chunks
  manifests := metadata.manifests
  log := metadata.log
  nextControl := metadata.nextControl
  mailboxes := metadata.mailboxes.map fun peer queue => queue.map (restoreEntry hostId peer)
  online := ∅
  gateOwner := gateOwner
  admission := metadata.admission

/-- A peer with a queue takes no live traffic until it has drained it. -/
def gateMailboxes : Action Error HostService Unit := do
  let host ← Action.get
  Action.forEach host.state.mailboxes.toList fun (peer, queue) =>
    if queue = [] then pure ()
    else HostService.onKeys (KeyStore.blockLiveTraffic peer host.state.gateOwner)

def publishFresh (env : HostEnv) (fresh : Bool) : Action Error HostService Unit := do
  let host ← Action.get
  if fresh then publishState env host.state else pure ()

/-- Open the vault of a data directory under the keystore that holds its lock. -/
def openDurable (env : HostEnv) (keys : KeyStore) (disk : DurableStore) (root : FileId)
    (initialMembers : OrdSet PeerId) : Result HostService := do
  let (disk, stored, chunks) ← disk.open env.files root
  let hostId ← keys.peerId
  let metadata := stored.getD { ReplicaMetadata.new root with members := initialMembers }
  ensure (hostId ∈ metadata.members) .authenticationFailed
  verifiedManifests keys metadata
  let tree ← DirectoryTree.fromDirents root metadata.dirents
  let gateOwner ← randomBytes env.gateOwner
  let host := serviceOf keys (some disk)
    { restoreState hostId gateOwner metadata tree chunks with expectedRoot := root }
  let opened := (do gateMailboxes; publishFresh env stored.isNone) host
  opened.1.map fun _ => opened.2

def migrateOnline (state : HostState) (peer : PeerId) (updates : List OnlineControl) :
    Result HostState := do
  let migrated ← updates.mapM fun update =>
    queuedControl update.packet update.record update.queuedAt
  pure { state with
    mailboxes := state.mailboxes.insert peer (state.mailboxes[peer]?.getD [] ++ migrated) }

/-- A replacement service takes over the state of an earlier one in the same
process; undelivered live controls become queued catch-up. -/
def resume (keys : KeyStore) (disk : Option DurableStore) (state : HostState) :
    Result HostService := do
  let localId ← keys.peerId
  ensure (localId = state.hostId) .authenticationFailed
  let migrated ← state.online.toList.foldlM
    (fun state (peer, updates) => migrateOnline state peer updates) { state with online := ∅ }
  let resumed := (do gateMailboxes; refreshMailboxes) (serviceOf keys disk migrated)
  resumed.1.map fun _ => resumed.2

end

end QuantumFs.Host
