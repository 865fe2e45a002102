import QuantumFs.Host.Service

/-! The replica of a member (`MemberReplica` in `sync/host.rs`, with `membership.rs`,
`persistence.rs`, `eviction.rs` and `sync/pull.rs`). Every change is made on a staged copy,
which is written and then takes the place of the visible one. -/
namespace QuantumFs.Member

open Lib Encoding Crypto Store Host

/-- The part of a replica that a staged copy replaces. -/
structure StagedReplica where
  members : OrdSet PeerId
  denied : OrdSet PeerId
  historicalMembers : OrdSet PeerId
  identityDocuments : Map PeerId IdentityDocument
  tree : DirectoryTree
  chunks : ChunkStore
  /-- Only verified manifests enter this map. -/
  manifests : Map FileId Manifest
  controls : Map Nat ControlRecord
  log : List ControlRecord
  bootstrapThrough : Nat

/-- What a mailbox envelope turned out to hold. -/
inductive Opened where
  | control (record : ControlRecord)
  | chunk (fileId : FileId) (index : Nat) (plaintext : Bytes)
deriving DecidableEq

/-- The keystore and the data directory are shared with every clone, so they stand beside
the visible copy. -/
structure MemberReplica where
  keys : KeyStore
  hostId : PeerId
  expectedRoot : FileId
  disk : Option DurableStore
  state : StagedReplica
  receipts : List (MailboxEnvelope × Opened)
  onlineReceipts : List ControlPacket
  lastApplied : Nat

/-- What the world answers during one call. -/
structure MemberEnv where
  keys : KeyEnv
  files : FileEnv

namespace MemberReplica

def onKeys {α : Type} (x : Action Error KeyStore α) : Action Error MemberReplica α :=
  Action.zoom MemberReplica.keys (fun keys replica => { replica with keys }) x

/-- Work on a copy of some chunks; what it writes to the data directory stays there. -/
def onChunks {α : Type} (chunks : ChunkStore)
    (x : Action Error (Option DurableStore × ChunkStore) α) :
    Action Error MemberReplica (α × ChunkStore) := fun replica =>
  match x (replica.disk, chunks) with
  | (.ok a, disk, chunks) => (.ok (a, chunks), { replica with disk })
  | (.error error, disk, _) => (.error error, { replica with disk })

def withChunks (chunks : ChunkStore) (replica : MemberReplica) : MemberReplica :=
  { replica with state := { replica.state with chunks } }

end MemberReplica

section

variable [Primitives]

def archiveReplica (keys : KeyStore) (staged : StagedReplica) : Result StagedReplica := do
  let historicalMembers := OrdSet.extend staged.historicalMembers staged.members
  let identityDocuments ← archiveDocuments keys historicalMembers staged.identityDocuments
  requireWriterDocuments staged.manifests staged.log identityDocuments
  pure { staged with historicalMembers, identityDocuments }

def lastOf (lastApplied : Nat) (staged : StagedReplica) : Nat :=
  max ((staged.log.getLast?.map ControlRecord.id).getD lastApplied) staged.bootstrapThrough

def bootstrapPosition (keys : KeyStore) (through : Nat) : Result (Map PeerId Nat) :=
  if through = 0 then pure ∅
  else do
    let localId ← keys.peerId
    pure ((∅ : Map PeerId Nat).insert localId through)

def metadataFor (replica : MemberReplica) (staged : StagedReplica) : Result ReplicaMetadata := do
  let bootstrapThrough ← bootstrapPosition replica.keys staged.bootstrapThrough
  let last := lastOf replica.lastApplied staged
  let nextControl ← checkedAdd last 1 (.state "instruction ids exhausted")
  let localId ← replica.keys.peerId
  pure { ReplicaMetadata.new replica.expectedRoot with
    members := staged.members
    denied := staged.denied
    historicalMembers := staged.historicalMembers
    identityDocuments := staged.identityDocuments
    dirents := staged.tree.dirents
    manifests := staged.manifests
    log := staged.log
    bootstrapThrough
    nextControl
    ackedThrough := (∅ : Map PeerId Nat).insert localId last }

def discardKicked (env : MemberEnv) (kicked : List PeerId) : Action Error MemberReplica Unit :=
  Action.forEach kicked fun peer => MemberReplica.onKeys (KeyStore.discardPair env.keys peer)

def applyStaged (env : MemberEnv) (staged : StagedReplica) : Action Error MemberReplica Unit := do
  let replica ← Action.get
  let staged ← Action.ofExcept (archiveReplica replica.keys staged)
  let metadata ← Action.ofExcept (metadataFor replica staged)
  let (_, chunks) ← MemberReplica.onChunks staged.chunks
    (ChunkStore.persistMetadata env.files metadata)
  Action.modify fun replica => { replica with
    state := { staged with chunks }
    lastApplied := lastOf replica.lastApplied staged }
  discardKicked env (OrdSet.difference staged.denied replica.state.denied)

def addMembers (env : MemberEnv) (members : OrdSet PeerId) : Action Error MemberReplica Unit := do
  let replica ← Action.get
  Action.require (replica.hostId ∈ members) .authenticationFailed
  let localId ← Action.ofExcept replica.keys.peerId
  Action.require (localId ∈ members) .authenticationFailed
  let staged := replica.state
  applyStaged env { staged with
    members := (OrdSet.difference members staged.denied).foldl Std.ExtTreeSet.insert staged.members
    historicalMembers := OrdSet.extend staged.historicalMembers members }

def learnDocument (staged : StagedReplica) (document : IdentityDocument) : Result StagedReplica := do
  verifyIdentity document
  pure { staged with
    historicalMembers := staged.historicalMembers.insert document.peerId
    identityDocuments := staged.identityDocuments.insert document.peerId document }

def learnHistory (env : MemberEnv) (documents : List IdentityDocument) :
    Action Error MemberReplica Unit := do
  let replica ← Action.get
  if documents.all fun document =>
      replica.state.identityDocuments[document.peerId]? = some document then
    pure ()
  else do
    let staged ← Action.ofExcept (documents.foldlM learnDocument replica.state)
    applyStaged env staged

def reconcileMembers (env : MemberEnv) (members denied : OrdSet PeerId) :
    Action Error MemberReplica Unit := do
  let replica ← Action.get
  Action.require (replica.hostId ∈ members) .authenticationFailed
  let localId ← Action.ofExcept replica.keys.peerId
  Action.require (localId ∈ members ∧ OrdSet.isDisjoint members denied = true ∧
    replica.hostId ∉ denied) .authenticationFailed
  if replica.state.members = members ∧ replica.state.denied = denied then pure ()
  else do
    let staged := replica.state
    Action.require (OrdSet.isSubset staged.denied denied = true) .authenticationFailed
    applyStaged env { staged with
      members
      historicalMembers := OrdSet.extend staged.historicalMembers members
      denied }

/-- `verify_record_manifest`. -/
def verifyRecordManifest (keys : KeyStore) (members : OrdSet PeerId)
    (archive : Map PeerId IdentityDocument) (manifest : Manifest) : Result Unit := do
  ensure (manifest.writerId ∈ members) .authenticationFailed
  match archive[manifest.writerId]? with
  | some writer => verifyAccepted manifest writer
  | none => verifyTrusted keys members manifest

/-- A manifest of a snapshot is checked against the archived document of its writer. -/
def verifySnapshotManifest (archive : Map PeerId IdentityDocument) (manifest : Manifest) :
    Result Unit := do
  let writer ← okOr archive[manifest.writerId]? .authenticationFailed
  verifyAccepted manifest writer

/-- The authenticated history of the host supplies admissions before the retained record; a
later kick removes the writer again. -/
def admitWriter (staged : StagedReplica) (writer : PeerId) : StagedReplica :=
  if writer ∉ staged.denied ∧ writer ∈ staged.historicalMembers then
    { staged with members := staged.members.insert writer }
  else staged

def stageManifest (keys : KeyStore) (acceptedSnapshot : Bool) (manifest : Manifest)
    (staged : StagedReplica) : Result StagedReplica := do
  let staged := if acceptedSnapshot then staged else admitWriter staged manifest.writerId
  if acceptedSnapshot then verifySnapshotManifest staged.identityDocuments manifest
  else verifyRecordManifest keys staged.members staged.identityDocuments manifest
  pure { staged with manifests := staged.manifests.insert manifest.fileId manifest }

def stageKick (hostId target : PeerId) (staged : StagedReplica) : Result StagedReplica := do
  ensure (target ≠ hostId ∧ target ∈ staged.members) .authenticationFailed
  pure { staged with
    members := staged.members.erase target
    denied := staged.denied.insert target }

/-- The part of an instruction that is neither in the tree nor in the log. -/
def stageUpdate (keys : KeyStore) (hostId : PeerId) (acceptedSnapshot : Bool)
    (update : ControlUpdate) (staged : StagedReplica) : Result StagedReplica :=
  match update with
  | .newManifest manifest => stageManifest keys acceptedSnapshot manifest staged
  | .kick target => stageKick hostId target staged
  | _ => pure staged

def stageRemoved (removed : Option FileId) (staged : StagedReplica) : StagedReplica :=
  match removed with
  | none => staged
  | some fileId => { staged with
      chunks := staged.chunks.removeFile fileId
      manifests := staged.manifests.erase fileId }

def stageRecord (keys : KeyStore) (hostId : PeerId) (acceptedSnapshot : Bool)
    (record : ControlRecord) (staged : StagedReplica) : Result StagedReplica := do
  ensure (∀ last ∈ staged.controls.maxKey?, last < record.id)
    (.state "host instructions arrived out of order")
  validateLinkKind staged.manifests record.update
  let (tree, removed) ← applyTreeUpdate staged.tree record.update
  let staged ← stageUpdate keys hostId acceptedSnapshot record.update staged
  let staged := stageRemoved removed staged
  pure { staged with
    tree
    controls := staged.controls.insert record.id record
    log := staged.log ++ [record] }

/-- `stage_control_mode`: whether the instruction was new. -/
def stageControlMode (keys : KeyStore) (hostId : PeerId) (acceptedSnapshot : Bool)
    (record : ControlRecord) (staged : StagedReplica) : Result (StagedReplica × Bool) :=
  if record.id ≤ staged.bootstrapThrough then pure (staged, false)
  else match staged.controls[record.id]? with
    | some prior => do
        ensure (prior = record) .authenticationFailed
        pure (staged, false)
    | none => do
        let staged ← stageRecord keys hostId acceptedSnapshot record staged
        pure (staged, true)

def checkHeaderForSession (replica : MemberReplica) (header : PacketHeader) (session : PairSession) :
    Result Unit := do
  ensure (session.peerId = replica.hostId ∧ header.senderId = replica.hostId) .authenticationFailed
  let localId ← replica.keys.peerId
  ensure (header.receiverId = localId ∧ header.version = protocolVersion ∧
    header.epoch = session.epoch) .authenticationFailed

def openControl (session : PairSession) (packet : ControlPacket) :
    Action Error KeyStore ControlRecord := do
  let plaintext ← KeyStore.aeadOpen session.keyHandle (nonce packet.header .packet)
    (packetAad packet.header) packet.ciphertext
  Action.ofExcept (decodeControlRecord plaintext)

def applyControl (env : MemberEnv) (packet : ControlPacket) : Action Error MemberReplica Unit := do
  Action.query fun replica => replica.keys.requireLiveTraffic replica.hostId
  let session ← Action.query fun replica => replica.keys.currentSession replica.hostId
  Action.query fun replica => checkHeaderForSession replica packet.header session
  let replica ← Action.get
  if packet ∈ replica.onlineReceipts then pure ()
  else do
    let record ← MemberReplica.onKeys (openControl session packet)
    let replica ← Action.get
    let (staged, _) ← Action.ofExcept
      (stageControlMode replica.keys replica.hostId false record replica.state)
    applyStaged env staged
    Action.modify fun replica => { replica with onlineReceipts := replica.onlineReceipts ++ [packet] }

/-- `open_chunk`: the counter is spent before the content is compared with its slot. -/
def openChunk (session : PairSession) (frame : ChunkBodyFrame) (trusted : Manifest) :
    Action Error KeyStore Bytes := do
  let plaintext ← KeyStore.aeadOpen session.keyHandle (nonce frame.header .chunkBody)
    (chunkAad frame.header frame.fileId frame.index) frame.ciphertext
  Action.require (frame.fileId = trusted.fileId) .authenticationFailed
  let expected ← Action.ofExcept (okOr trusted.chunkIds[frame.index]? .authenticationFailed)
  Action.require (chunkId frame.fileId frame.index plaintext = expected) .authenticationFailed
  pure plaintext

structure FlushReport where
  controls : Nat
  chunksWritten : Nat
deriving DecidableEq

structure Batch where
  staged : StagedReplica
  controls : Nat
  lastPacket : Option Nat
  lastChunk : Option Nat
  bodies : List (FileId × Nat × Bytes)
  sawBootstrapEnd : Bool

structure PreparedReplicaFlush where
  peerId : PeerId
  hostId : PeerId
  baseControls : Map Nat ControlRecord
  staged : StagedReplica
  report : FlushReport

def headerOf (envelope : MailboxEnvelope) : PacketHeader where
  version := protocolVersion
  senderId := envelope.senderId
  receiverId := envelope.recipientId
  epoch := envelope.epoch
  seq := envelope.seq

def countEnvelope (frame : MailboxFrame) (seq : Nat) (batch : Batch) : Result Batch := do
  let previous := match frame with
    | .control _ => batch.lastPacket
    | .chunkBody _ _ _ => batch.lastChunk
  ensure (∀ last ∈ previous, last < seq) (.state "mailbox counters are not in queued order")
  pure (match frame with
    | .control _ => { batch with lastPacket := some seq }
    | .chunkBody _ _ _ => { batch with lastChunk := some seq })

def openFrame (session : PairSession) (staged : StagedReplica) (header : PacketHeader) :
    MailboxFrame → Action Error KeyStore Opened
  | .control ciphertext => do
      let record ← openControl session { header, ciphertext }
      pure (.control record)
  | .chunkBody fileId index ciphertext => do
      let trusted ← Action.ofExcept (okOr staged.manifests[fileId]? .authenticationFailed)
      let plaintext ← openChunk session { header, fileId, index, ciphertext } trusted
      pure (.chunk fileId index plaintext)

def receiptOf (receipts : List (MailboxEnvelope × Opened)) (envelope : MailboxEnvelope) :
    Option Opened :=
  (receipts.find? fun receipt => receipt.1 = envelope).map Prod.snd

/-- An envelope without a receipt is opened. Its plaintext is kept before anything that depends
on it is checked, since its counter is spent. -/
def openEnvelope (session : PairSession) (staged : StagedReplica) (envelope : MailboxEnvelope)
    (frame : MailboxFrame) : Action Error MemberReplica Opened := do
  let replica ← Action.get
  match receiptOf replica.receipts envelope with
  | some opened => pure opened
  | none => do
      let opened ← MemberReplica.onKeys (openFrame session staged (headerOf envelope) frame)
      Action.modify fun replica => { replica with
        receipts := replica.receipts ++ [(envelope, opened)] }
      pure opened

/-- A body must be in the slot that the staged manifest gives it. -/
def slotHolds (staged : StagedReplica) (fileId : FileId) (index : Nat) (plaintext : Bytes) : Bool :=
  (staged.manifests[fileId]?.bind fun manifest => manifest.chunkIds[index]?) =
    some (chunkId fileId index plaintext)

def stageOpened (keys : KeyStore) (hostId : PeerId) (installing : Option Nat) (batch : Batch) :
    Opened → Result Batch
  | .control record => do
      let acceptedSnapshot : Bool := installing.any fun through => record.id ≤ through
      let (staged, isNew) ← stageControlMode keys hostId acceptedSnapshot record batch.staged
      pure { batch with
        staged
        controls := if isNew then batch.controls + 1 else batch.controls
        sawBootstrapEnd := batch.sawBootstrapEnd || installing = some record.id }
  | .chunk fileId index plaintext => do
      ensure (slotHolds batch.staged fileId index plaintext = true) .authenticationFailed
      pure { batch with bodies := batch.bodies ++ [(fileId, index, plaintext)] }

def readEnvelope (session : PairSession) (installing : Option Nat) (batch : Batch)
    (envelope : MailboxEnvelope) : Action Error MemberReplica Batch := do
  Action.query fun replica => checkHeaderForSession replica (headerOf envelope) session
  let frame ← Action.ofExcept (decodeMailboxFrame envelope.ciphertext)
  let batch ← Action.ofExcept (countEnvelope frame envelope.seq batch)
  let opened ← openEnvelope session batch.staged envelope frame
  Action.query fun replica =>
    stageOpened replica.keys replica.hostId installing batch opened

/-- A bootstrap replaces a replica that has applied nothing. -/
def beginBootstrap (replica : MemberReplica) (bootstrapThrough : Option Nat) :
    Result (StagedReplica × Option Nat) :=
  match bootstrapThrough with
  | none => pure (replica.state, none)
  | some through =>
    if through = replica.state.bootstrapThrough then pure (replica.state, none)
    else do
      ensure (replica.state.bootstrapThrough < through ∧ replica.lastApplied ≤ through)
        .authenticationFailed
      ensure (replica.lastApplied = 0) .authenticationFailed
      pure ({ replica.state with
        tree := DirectoryTree.new replica.expectedRoot
        manifests := ∅
        controls := ∅
        log := [] }, some through)

def writeBody (env : MemberEnv) (staged : StagedReplica) (written : Nat)
    (body : FileId × Nat × Bytes) : Action Error (Option DurableStore × ChunkStore) Nat := do
  let (_, chunks) ← Action.get
  let (fileId, index, plaintext) := body
  if slotHolds staged fileId index plaintext = false ∨ staged.tree.isLinkedFile fileId = false ∨
      chunks.records.contains (chunkId fileId index plaintext) = true then
    pure written
  else do
    let _ ← ChunkStore.put env.files fileId index plaintext
    pure (written + 1)

def finishBatch (env : MemberEnv) (installing : Option Nat) (batch : Batch) :
    Action Error MemberReplica (StagedReplica × FlushReport) := do
  let (chunksWritten, chunks) ← MemberReplica.onChunks batch.staged.chunks
    (batch.bodies.foldlM (writeBody env batch.staged) 0)
  let report : FlushReport := { controls := batch.controls, chunksWritten }
  match installing with
  | none => pure ({ batch.staged with chunks }, report)
  | some through => do
      Action.require (batch.sawBootstrapEnd = true) .authenticationFailed
      pure ({ batch.staged with chunks, bootstrapThrough := through }, report)

def prepareMailboxForSession (env : MemberEnv) (envelopes : List MailboxEnvelope)
    (history : List IdentityDocument) (bootstrapThrough : Option Nat) (session : PairSession) :
    Action Error MemberReplica PreparedReplicaFlush := do
  let replica ← Action.get
  Action.require (session.peerId = replica.hostId) .authenticationFailed
  Action.modify fun replica => { replica with
    receipts := replica.receipts.filter fun receipt => receipt.1 ∈ envelopes }
  let (staged, installing) ← Action.ofExcept (beginBootstrap replica bootstrapThrough)
  let staged ← Action.ofExcept (history.foldlM learnDocument staged)
  let batch ← envelopes.foldlM (readEnvelope session installing)
    { staged
      controls := 0
      lastPacket := none
      lastChunk := none
      bodies := []
      sawBootstrapEnd := installing = some 0 }
  let (staged, report) ← finishBatch env installing batch
  let peerId ← Action.query fun replica => replica.keys.peerId
  pure {
    peerId
    hostId := replica.hostId
    baseControls := replica.state.controls
    staged
    report }

def commitPrepared (env : MemberEnv) (prepared : PreparedReplicaFlush) :
    Action Error MemberReplica FlushReport := do
  let replica ← Action.get
  let localId ← Action.ofExcept replica.keys.peerId
  Action.require (prepared.peerId = localId ∧ prepared.hostId = replica.hostId ∧
    prepared.baseControls = replica.state.controls)
    (.state "replica changed before prepared flush commit")
  applyStaged env prepared.staged
  pure prepared.report

def finishReceipts : Action Error MemberReplica Unit :=
  Action.modify fun replica => { replica with receipts := [] }

def persistCurrent (env : MemberEnv) : Action Error (Option DurableStore × ChunkStore) Unit := do
  let (_, chunks) ← Action.get
  match chunks.metadata with
  | none => pure ()
  | some metadata => ChunkStore.persistMetadata env.files metadata

/-- `accepts_chunk`: the current manifest of a linked file has the chunk in this slot. -/
def acceptsChunk (chunks : ChunkStore) (fileId : FileId) (index : Nat) (id : ChunkId) : Bool :=
  chunks.metadata.any fun metadata =>
    metadata.dirents.any (fun entry => entry.child = fileId ∧ entry.isDir = false) &&
      (metadata.manifests[fileId]?.bind fun manifest => manifest.chunkIds[index]?) = some id

/-- `InProcessPullCoordinator::accept`, the first pass: open what is not held yet. -/
def openPulled (trusted : Manifest) (chunks : ChunkStore) (staged : List (FileId × Nat × Bytes))
    (frame : ChunkBodyFrame) : Action Error KeyStore (List (FileId × Nat × Bytes)) := do
  Action.query fun keys => keys.requireLiveTraffic frame.header.senderId
  let session ← Action.query fun keys => keys.currentSession frame.header.senderId
  let plaintext ← openChunk session frame trusted
  let expected := chunkId frame.fileId frame.index plaintext
  if chunks.records.contains expected = true ∨
      staged.any (fun (fileId, index, plaintext) => chunkId fileId index plaintext = expected) then
    pure staged
  else pure (staged ++ [(frame.fileId, frame.index, plaintext)])

/-- The second pass: the slot is checked again before the chunk is stored. -/
def storePulled (env : MemberEnv) (current : ChunkStore) (count : Nat)
    (body : FileId × Nat × Bytes) : Action Error (Option DurableStore × ChunkStore) Nat := do
  let (_, next) ← Action.get
  let (fileId, index, plaintext) := body
  let id := chunkId fileId index plaintext
  if acceptsChunk current fileId index id = true ∧ next.records.contains id = false then do
    let _ ← ChunkStore.put env.files fileId index plaintext
    pure (count + 1)
  else pure count

def storeAllPulled (env : MemberEnv) (current : ChunkStore) (staged : List (FileId × Nat × Bytes)) :
    Action Error (Option DurableStore × ChunkStore) Nat := do
  let count ← staged.foldlM (storePulled env current) 0
  if count = 0 then pure 0
  else do
    persistCurrent env
    pure count

def acceptPulled (env : MemberEnv) (responses : List ChunkBodyFrame) (trusted : Manifest) :
    Action Error MemberReplica Nat := do
  let replica ← Action.get
  let current := replica.state.chunks
  let staged ← MemberReplica.onKeys (responses.foldlM (openPulled trusted current) [])
  let (count, chunks) ← MemberReplica.onChunks current (storeAllPulled env current staged)
  Action.modify (MemberReplica.withChunks chunks)
  pure count

def pinsFile (fileId : FileId) : QueueContent → Bool
  | .control _ => false
  | .chunk queued _ _ => queued = fileId

def evictChunks (env : MemberEnv) (fileId : FileId) :
    Action Error (Option DurableStore × ChunkStore) Unit := do
  Action.modify fun (disk, chunks) => (disk, chunks.removeFile fileId)
  let (_, chunks) ← Action.get
  let metadata ← Action.ofExcept (okOr chunks.metadata (.state "replica metadata is unavailable"))
  ChunkStore.persistMetadata env.files metadata

def evictFile (env : MemberEnv) (fileId : FileId) : Action Error MemberReplica Nat := do
  let replica ← Action.get
  let localId ← Action.ofExcept replica.keys.peerId
  Action.require (localId ≠ replica.hostId ∧ localId ∈ replica.state.members ∧
    replica.hostId ∈ replica.state.members) (.state "replica is not a live member with H")
  let _ ← Action.query fun replica => replica.keys.currentSession replica.hostId
  Action.query fun replica => replica.keys.requireLiveTraffic replica.hostId
  let metadata ← Action.ofExcept
    (okOr replica.state.chunks.metadata (.state "replica metadata is unavailable"))
  Action.require ((Map.vals metadata.mailboxes).flatten.any (pinsFile fileId) = false)
    (.state "mailbox pins file chunks")
  let (_, chunks) ← MemberReplica.onChunks replica.state.chunks (evictChunks env fileId)
  Action.modify (MemberReplica.withChunks chunks)
  pure ((Map.vals replica.state.chunks.records).filter fun record => record.fileId = fileId).length

def putBodies (env : MemberEnv) (fileId : FileId) (bodies : List (Bytes × Nat)) :
    Action Error (Option DurableStore × ChunkStore) Unit := do
  Action.forEach bodies fun (plaintext, index) => do
    let _ ← ChunkStore.put env.files fileId index plaintext
    pure ()
  persistCurrent env

/-- `JoinedPeer::store_local_bodies`: the writer keeps what it has uploaded. -/
def storeLocalBodies (env : MemberEnv) (manifest : Manifest) (bodies : List Bytes) :
    Action Error MemberReplica Unit := do
  let replica ← Action.get
  let (_, chunks) ← MemberReplica.onChunks replica.state.chunks
    (putBodies env manifest.fileId bodies.zipIdx)
  Action.modify (MemberReplica.withChunks chunks)

def newInVault (keys : KeyStore) (hostId : PeerId) (members : OrdSet PeerId) (chunks : ChunkStore)
    (root : FileId) : Result MemberReplica := do
  ensure (hostId ∈ members) .authenticationFailed
  let localId ← keys.peerId
  ensure (localId ∈ members) .authenticationFailed
  let replica : MemberReplica :=
    { keys
      hostId
      expectedRoot := root
      disk := none
      state :=
        { members
          denied := ∅
          historicalMembers := members
          identityDocuments := ∅
          tree := DirectoryTree.new root
          chunks
          manifests := ∅
          controls := ∅
          log := []
          bootstrapThrough := 0 }
      receipts := []
      onlineReceipts := []
      lastApplied := 0 }
  let metadata ← metadataFor replica replica.state
  pure (replica.withChunks { chunks with metadata := some metadata })

def restored (keys : KeyStore) (hostId localId : PeerId) (root : FileId) (disk : DurableStore)
    (metadata : ReplicaMetadata) (tree : DirectoryTree) (chunks : ChunkStore) : MemberReplica where
  keys := keys
  hostId := hostId
  expectedRoot := root
  disk := some disk
  state :=
    { members := metadata.members
      denied := metadata.denied
      historicalMembers := metadata.historicalMembers
      identityDocuments := metadata.identityDocuments
      tree
      chunks
      manifests := metadata.manifests
      controls := metadata.log.foldl (fun controls record => controls.insert record.id record) ∅
      log := metadata.log
      bootstrapThrough := metadata.bootstrapThrough[localId]?.getD 0 }
  receipts := []
  onlineReceipts := []
  lastApplied := metadata.ackedThrough[localId]?.getD 0

def applyFresh (env : MemberEnv) (fresh : Bool) : Action Error MemberReplica Unit := do
  let replica ← Action.get
  if fresh then applyStaged env replica.state else pure ()

def openDurable (env : MemberEnv) (keys : KeyStore) (disk : DurableStore) (root : FileId)
    (hostId : PeerId) (initialMembers : OrdSet PeerId) : Result MemberReplica := do
  let (disk, stored, chunks) ← disk.open env.files root
  let localId ← keys.peerId
  let metadata := stored.getD { ReplicaMetadata.new root with members := initialMembers }
  ensure (hostId ∈ metadata.members ∧ localId ∈ metadata.members) .authenticationFailed
  ensure (metadata.mailboxes = ∅) (.invalidInput "host replica cannot be opened as a member")
  verifiedManifests keys metadata
  let tree ← DirectoryTree.fromDirents root metadata.dirents
  let opened := applyFresh env stored.isNone
    (restored keys hostId localId root disk metadata tree chunks)
  opened.1.map fun _ => opened.2

end

end QuantumFs.Member
