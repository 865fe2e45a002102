import QuantumFs.Host.State

/-! How the host commits one instruction (`HostService::commit_verified_with_code`
in `sync/host.rs`, with `sync/host/filesystem.rs`, `membership.rs` and
`persistence.rs`): every recipient gets the record on its live queue or in its
mailbox, and nothing becomes visible before the snapshot is written. -/
namespace QuantumFs.Host

open Lib Encoding Crypto Store

def validateLinkKind (manifests : Map FileId Manifest) : ControlUpdate → Result Unit
  | .link _ _ child true => ensure (manifests.contains child = false)
      (.invalidInput "file manifest cannot become a directory")
  | _ => pure ()

def applyTreeUpdate (tree : DirectoryTree) :
    ControlUpdate → Result (DirectoryTree × Option FileId)
  | .newManifest manifest => do
      ensure (tree.isDir manifest.fileId = false) (.invalidInput "cannot save a directory as a file")
      pure (tree, none)
  | .kick _ => pure (tree, none)
  -- Deprecated in v1: it never creates an inode.
  | .add _ => pure (tree, none)
  | .clear fileId => pure (tree, some fileId)
  | .remove fileId => do
      let next ← tree.removeId fileId
      pure (next, some fileId)
  | .link parent name child isDir => do
      let next ← tree.link parent name child isDir
      pure (next, none)
  | .unlink parent name => do
      let (child, next) ← tree.unlink parent name
      pure (next, some child)
  | .rename srcParent srcName dstParent dstName => do
      let next ← tree.rename srcParent srcName dstParent dstName
      pure (next, none)

namespace HostService

variable (host : HostService)

def requireRunning : Result Unit := ensure (host.running = true) (.state "host is not running")

def requireMember (peer : PeerId) : Result Unit :=
  ensure (peer ∈ host.state.members) .authenticationFailed

def presenceOf (env : HostEnv) (peer : PeerId) : Result (Option Nat) := do
  host.requireRunning
  host.requireMember peer
  pure ((host.presence[peer]?.map fun expires => expires - env.clock peer).filter (0 < ·))

def onKeys {α : Type} (x : Action Error KeyStore α) : Action Error HostService α :=
  Action.zoom HostService.keys (fun keys host => { host with keys }) x

def onChunks {α : Type} (x : Action Error (Option DurableStore × ChunkStore) α) :
    Action Error HostService α :=
  Action.zoom (fun host => (host.disk, host.state.chunks))
    (fun (disk, chunks) host => { host with disk, state := { host.state with chunks } }) x

end HostService

section

variable [Primitives]

def verifySignature (vk : Bytes) (manifest : Manifest) : Result Unit := do
  let message ← manifestM manifest
  mlDsaVerify vk .manifest message manifest.signature

/-- The document of the local member, or the one of a known peer. -/
def documentOf (keys : KeyStore) (peer : PeerId) : Result IdentityDocument := do
  let localId ← keys.peerId
  if peer = localId then keys.identityDocument else keys.loadVerifiedPeer peer

/-- `TrustedManifest::verify`: the writer is a current member and has signed. -/
def verifyTrusted (keys : KeyStore) (members : OrdSet PeerId) (manifest : Manifest) :
    Result Unit := do
  ensure (manifest.writerId ∈ members) .authenticationFailed
  let writer ← documentOf keys manifest.writerId
  verifySignature writer.vk manifest

/-- `TrustedManifest::verify_accepted`: without the check of live membership. -/
def verifyAccepted (manifest : Manifest) (writer : IdentityDocument) : Result Unit := do
  verifyIdentity writer
  ensure (manifest.writerId = writer.peerId) .authenticationFailed
  verifySignature writer.vk manifest

def checkChunk (chunks : ChunkStore) (fileId : FileId) (size : Nat) (slot : ChunkId × Nat) :
    Result Nat := do
  let record ← okOr chunks.records[slot.1]? (.state "committed chunk missing on H")
  ensure (record.fileId = fileId ∧ record.index = slot.2 ∧
    chunkId fileId slot.2 record.plaintext = slot.1) .authenticationFailed
  checkedAdd size record.plaintext.length .authenticationFailed

/-- The host holds every chunk of the manifest, in its slot and with its bytes. -/
def validateReplica (chunks : ChunkStore) (manifest : Manifest) : Result Unit := do
  let size ← manifest.chunkIds.zipIdx.foldlM (checkChunk chunks manifest.fileId) 0
  ensure (size = manifest.size.val) .authenticationFailed

def memberDocument (keys : KeyStore) (peer : PeerId) : Result (Option IdentityDocument) := do
  let localId ← keys.peerId
  if peer = localId then
    let document ← keys.identityDocument
    pure (some document)
  else match keys.loadVerifiedPeer peer with
    | .ok document => pure (some document)
    | .error .keyUnavailable => pure none
    | .error error => .error error

def archiveDocument (keys : KeyStore) (archive : Map PeerId IdentityDocument) (peer : PeerId) :
    Result (Map PeerId IdentityDocument) := do
  -- Entries were verified when they were inserted or loaded.
  if archive.contains peer then pure archive
  else
    let document ← memberDocument keys peer
    match document with
    | none => pure archive
    | some document =>
      verifyIdentity document
      pure (archive.insert peer document)

def archiveDocuments (keys : KeyStore) (members : OrdSet PeerId)
    (archive : Map PeerId IdentityDocument) : Result (Map PeerId IdentityDocument) :=
  members.toList.foldlM (archiveDocument keys) archive

def logWriters (log : List ControlRecord) : List PeerId :=
  log.filterMap fun record =>
    match record.update with
    | .newManifest manifest => some manifest.writerId
    | _ => none

def requireWriterDocuments (manifests : Map FileId Manifest) (log : List ControlRecord)
    (documents : Map PeerId IdentityDocument) : Result Unit :=
  ensure (∀ writer ∈ (Map.vals manifests).map Manifest.writerId ++ logWriters log,
    documents.contains writer = true) .keyUnavailable

def archiveHost (keys : KeyStore) (staged : HostState) : Result HostState := do
  let historicalMembers := OrdSet.extend staged.historicalMembers staged.members
  let identityDocuments ← archiveDocuments keys historicalMembers staged.identityDocuments
  requireWriterDocuments staged.manifests staged.log identityDocuments
  pure { staged with historicalMembers, identityDocuments }

def logFloor (state : HostState) : Nat :=
  ((state.members.toList.map state.ackedThroughOf).min?).getD 0

def truncateLog (state : HostState) : HostState :=
  { state with log := state.log.filter fun record => logFloor state < record.id }

def refreshAdmission (state : HostState) : HostState :=
  { state with admission := state.admission.map fun admission => { admission with
      members := state.members.toList
      denied := state.denied } }

def persistState (env : HostEnv) (host : HostService) (metadata : ReplicaMetadata) :
    Action Error (Option DurableStore × ChunkStore) Unit :=
  if host.deferPersistence then
    Action.modify fun (disk, chunks) => (disk, { chunks with metadata := some metadata })
  else match host.admissionPath, metadata.admission with
    | true, some admission => do
        let _ ← Action.ofExcept (encodeVaultMetadata admission)
        ChunkStore.persistMetadataWithAdmission env.files metadata
    | _, _ => ChunkStore.persistMetadata env.files metadata

/-- The visibility boundary: no queue, log or member is assigned before the
snapshot has been written. -/
def publishState (env : HostEnv) (staged : HostState) : Action Error HostService Unit := do
  let host ← Action.get
  let archived ← Action.ofExcept (archiveHost host.keys staged)
  let next := truncateLog (refreshAdmission archived)
  fun host =>
    match persistState env host next.metadata (host.disk, next.chunks) with
    | (.ok (), disk, chunks) => (.ok (), { host with disk, state := { next with chunks } })
    | (.error error, disk, _) => (.error error, { host with disk })

def sealContent (chunks : ChunkStore) (session : PairSession) (queuedAt : Nat) :
    QueueContent → Action Error KeyStore MailboxEnvelope
  | .control record => do
      let packet ← sealControl session record
      Action.ofExcept (controlEnvelope packet queuedAt)
  | .chunk fileId index chunkId => do
      let plaintext ← Action.ofExcept
        (okOr (chunks.get chunkId) (.state "queued plaintext missing"))
      let frame ← encryptAtSend session fileId index plaintext
      Action.ofExcept (chunkEnvelope frame queuedAt)

/-- An envelope of an earlier epoch is sealed again under the current key. -/
def refreshEntry (chunks : ChunkStore) (session : PairSession) (entry : Queued) :
    Action Error KeyStore Queued :=
  if entry.envelope.epoch = session.epoch then pure entry
  else do
    let envelope ← sealContent chunks session entry.envelope.queuedAt entry.content
    pure { entry with envelope }

def refreshQueue (peer : PeerId) (queue : List Queued) : Action Error HostService Unit := do
  let owner ← Action.query fun host => pure host.state.gateOwner
  HostService.onKeys (KeyStore.blockLiveTraffic peer owner)
  let session ← Action.query fun host => host.keys.currentSession peer
  let stale := queue.any fun entry =>
    entry.envelope.epoch ≠ session.epoch && entry.content.isChunk
  let renewed := queue.any fun entry =>
    entry.envelope.epoch = session.epoch && entry.content.isChunk
  Action.query fun host =>
    if stale && !renewed then do
      let seq ← host.keys.nextOutboundSeq session.keyHandle .chunkBody
      ensure (seq = 1) (.state "new epoch was used before mailbox re-seal")
    else pure ()
  fun host =>
    let (result, keys, queue) :=
      Action.updateEach (refreshEntry host.state.chunks session) queue host.keys
    (result, { host with
      keys
      state := { host.state with mailboxes := host.state.mailboxes.insert peer queue } })

def refreshMailbox (peer : PeerId) : Action Error HostService Unit := do
  let host ← Action.get
  match host.state.mailboxes[peer]?.getD [] with
  | [] => pure ()
  | queue => refreshQueue peer queue

/-- Rebuild every frame of an earlier epoch under the current key of its peer. -/
def refreshMailboxes : Action Error HostService Unit := do
  Action.query HostService.requireRunning
  let host ← Action.get
  Action.forEach (host.state.mailboxes.toList.map Prod.fst) refreshMailbox

/-- The queues of a commit before it is applied, and the gates it has closed. -/
structure Outbox where
  keys : KeyStore
  queues : Map PeerId (List Queued)
  online : Map PeerId (List OnlineControl)
  blocked : List PeerId

def Outbox.onKeys {α : Type} (x : Action Error KeyStore α) : Action Error Outbox α :=
  Action.zoom Outbox.keys (fun keys outbox => { outbox with keys }) x

structure Commit where
  record : ControlRecord
  /-- The manifest of a `NewManifest` after its signature was checked. -/
  trusted : Option Manifest
  removed : Option FileId
  queuedAt : Nat

def resealOnline (session : PairSession) (entry : OnlineControl) :
    Action Error KeyStore OnlineControl :=
  if entry.packet.header.epoch = session.epoch then pure entry
  else do
    let packet ← sealControl session entry.record
    pure { entry with packet }

/-- Older undelivered controls get counters of the current epoch first, so their
order is kept when they move to a mailbox. -/
def resealPending (session : PairSession) (peer : PeerId) : Action Error Outbox Unit :=
  fun outbox =>
    match outbox.online[peer]? with
    | none => (.ok (), outbox)
    | some pending =>
      let (result, keys, pending) := Action.updateEach (resealOnline session) pending outbox.keys
      (result, { outbox with keys, online := outbox.online.insert peer pending })

def queuedControl (packet : ControlPacket) (record : ControlRecord) (queuedAt : Nat) :
    Result Queued := do
  let envelope ← controlEnvelope packet queuedAt
  pure { envelope, content := .control record }

/-- A body of another file, of a slot the manifest still has, or of a member
whose bootstrap is pending. -/
def keepsBody (current : Manifest) (bootstrapPending : Bool) : QueueContent → Bool
  | .chunk fileId index chunkId => fileId ≠ current.fileId || bootstrapPending ||
      current.chunkIds[index]? = some chunkId
  | .control _ => true

def otherSlot (fileId : FileId) (index : Nat) : QueueContent → Bool
  | .chunk other otherIndex _ => !(decide (other = fileId) && decide (otherIndex = index))
  | .control _ => true

def otherFile (fileId : FileId) : QueueContent → Bool
  | .chunk other _ _ => other ≠ fileId
  | .control _ => true

/-- A changed slot replaces the body queued for it, at the end of the queue. -/
def queueBody (chunks : ChunkStore) (session : PairSession) (current : Manifest)
    (prior : Option Manifest) (queuedAt : Nat) (queue : List Queued) (slot : ChunkId × Nat) :
    Action Error KeyStore (List Queued) :=
  if prior.any fun old => old.chunkIds[slot.2]? = some slot.1 then pure queue
  else do
    let plaintext ← Action.ofExcept
      (okOr (chunks.get slot.1) (.state "committed plaintext missing"))
    let frame ← encryptAtSend session current.fileId slot.2 plaintext
    let envelope ← Action.ofExcept (chunkEnvelope frame queuedAt)
    pure (queue.filter (fun entry => otherSlot current.fileId slot.2 entry.content) ++
      [{ envelope, content := .chunk current.fileId slot.2 slot.1 }])

def queueBodies (state : HostState) (session : PairSession) (peer : PeerId) (current : Manifest)
    (queuedAt : Nat) (queue : List Queued) : Action Error KeyStore (List Queued) :=
  let pending := state.bootstrapThrough.contains peer
  current.chunkIds.zipIdx.foldlM
    (queueBody state.chunks session current state.manifests[current.fileId]? queuedAt)
    (queue.filter fun entry => keepsBody current pending entry.content)

def queueManifest (state : HostState) (commit : Commit) (session : PairSession) (peer : PeerId)
    (queue : List Queued) : Action Error KeyStore (List Queued) :=
  match commit.record.update with
  | .newManifest _ => do
      let current ← Action.ofExcept (okOr commit.trusted (.state "missing verified commit"))
      queueBodies state session peer current commit.queuedAt queue
  | _ => pure queue

def dropRemoved (removed : Option FileId) (queue : List Queued) : List Queued :=
  match removed with
  | none => queue
  | some fileId => queue.filter fun entry => otherFile fileId entry.content

/-- The mailbox of a gated peer: what it had, its undelivered live controls, then
the record and the bodies it needs. -/
def queueOffline (state : HostState) (commit : Commit) (session : PairSession) (peer : PeerId)
    (packet : ControlPacket) : Action Error Outbox Unit := do
  let outbox ← Action.get
  let undelivered ← Action.ofExcept ((outbox.online[peer]?.getD []).mapM fun old =>
    queuedControl old.packet old.record old.queuedAt)
  let control ← Action.ofExcept (queuedControl packet commit.record commit.queuedAt)
  let queue := dropRemoved commit.removed
    (outbox.queues[peer]?.getD [] ++ undelivered ++ [control])
  let queue ← Outbox.onKeys (queueManifest state commit session peer queue)
  Action.modify fun outbox => { outbox with
    queues := outbox.queues.insert peer queue
    online := outbox.online.erase peer }

def queueOnline (commit : Commit) (peer : PeerId) (packet : ControlPacket) :
    Action Error Outbox Unit :=
  Action.modify fun outbox => { outbox with
    online := outbox.online.insert peer (outbox.online[peer]?.getD [] ++
      [{ packet, record := commit.record, queuedAt := commit.queuedAt }]) }

def closeGate (owner : Nat) (peer : PeerId) (live : Bool) : Action Error Outbox Unit :=
  if live then pure ()
  else do
    Outbox.onKeys (KeyStore.blockLiveTraffic peer owner)
    Action.modify fun outbox => { outbox with blocked := outbox.blocked ++ [peer] }

def queueFor (env : HostEnv) (host : HostService) (commit : Commit) (peer : PeerId) :
    Action Error Outbox Unit := do
  let present ← Action.ofExcept (host.presenceOf env peer)
  let open? ← Action.query fun outbox => pure (outbox.keys.requireLiveTraffic peer)
  let live := present.isSome && open?.isOk
  closeGate host.state.gateOwner peer live
  let session ← Action.query fun outbox => outbox.keys.currentSession peer
  resealPending session peer
  let packet ← Outbox.onKeys (sealControl session commit.record)
  if live then queueOnline commit peer packet
  else queueOffline host.state commit session peer packet

def kickedBy : ControlUpdate → Option PeerId
  | .kick target => some target
  | _ => none

def recipientsOf (state : HostState) (update : ControlUpdate) : List PeerId :=
  state.members.toList.filter fun peer =>
    decide (peer ≠ state.hostId) && decide (some peer ≠ kickedBy update)

/-- Gates that no queue needs are opened again when the commit fails. -/
def reopenGates (blocked : List PeerId) : Action Error HostService Unit :=
  Action.forEach blocked fun peer => do
    let host ← Action.get
    if host.state.mailboxes[peer]?.getD [] = [] then
      HostService.onKeys (KeyStore.unblockLiveTraffic peer host.state.gateOwner)
    else pure ()

/-- The queues as they are after every recipient has been served. -/
def prepareQueues (env : HostEnv) (commit : Commit) (recipients : List PeerId) :
    Action Error HostService Outbox := fun host =>
  let (result, outbox) := Action.forEach recipients (queueFor env host commit)
    { keys := host.keys
      queues := host.state.mailboxes
      online := host.state.online
      blocked := [] }
  let next := { host with keys := outbox.keys }
  match result with
  | .ok () => (.ok outbox, next)
  | .error error => Action.orElseUndo (Action.throw error) (reopenGates outbox.blocked) next

def randomBytes {α : Type} (bytes : Option α) : Result α :=
  okOr bytes (.state "OS entropy unavailable")

/-- A kick installs a new join code and leaves room for the ad that revokes the old one. -/
def rotateAdmission (env : HostEnv) (rotated : Option JoinCode) (admission : VaultMetadata) :
    Result VaultMetadata := do
  let joinCode ← match rotated with
    | some code => pure code
    | none => randomBytes env.joinCode
  let time ← env.unixTime?
  let after ← checkedAdd admission.issuedAt 1 (.state "ad timestamp exhausted")
  let issuedAt ← checkedAdd (max time after) 1 (.state "ad timestamp exhausted")
  pure { admission with joinCode, issuedAt }

def stageKick (env : HostEnv) (rotated : Option JoinCode) (target : PeerId) (staged : HostState) :
    Result HostState := do
  let admission ← staged.admission.mapM (rotateAdmission env rotated)
  pure { staged with
    members := staged.members.erase target
    ackedThrough := staged.ackedThrough.erase target
    bootstrapThrough := staged.bootstrapThrough.erase target
    mailboxes := staged.mailboxes.erase target
    online := staged.online.erase target
    denied := staged.denied.insert target
    admission }

def stageKicked (env : HostEnv) (rotated : Option JoinCode) (kicked : Option PeerId)
    (staged : HostState) : Result HostState :=
  match kicked with
  | none => pure staged
  | some target => stageKick env rotated target staged

def stageManifest (commit : Commit) (staged : HostState) : Result HostState :=
  match commit.record.update with
  | .newManifest manifest => do
      let trusted ← okOr commit.trusted (.state "missing trusted commit")
      pure { staged with manifests := staged.manifests.insert manifest.fileId trusted }
  | _ => pure staged

def stageRemoved (removed : Option FileId) (staged : HostState) : HostState :=
  match removed with
  | none => staged
  | some fileId => { staged with
      chunks := staged.chunks.removeFile fileId
      manifests := staged.manifests.erase fileId }

def stageCommit (env : HostEnv) (commit : Commit) (rotated : Option JoinCode)
    (tree : DirectoryTree) (next : Nat) (outbox : Outbox) (state : HostState) :
    Result HostState := do
  let staged ← stageManifest commit { state with tree }
  let staged := { stageRemoved commit.removed staged with
    mailboxes := outbox.queues
    online := outbox.online }
  let staged ← stageKicked env rotated (kickedBy commit.record.update) staged
  pure { staged with
    ackedThrough := staged.ackedThrough.insert staged.hostId commit.record.id
    log := staged.log ++ [commit.record]
    nextControl := next }

def applyCommit (env : HostEnv) (commit : Commit) (rotated : Option JoinCode)
    (tree : DirectoryTree) (next : Nat) (outbox : Outbox) : Action Error HostService Unit := do
  let staged ← Action.query fun host =>
    stageCommit env commit rotated tree next outbox host.state
  publishState env staged

def commitVerifiedWithCode (env : HostEnv) (update : ControlUpdate) (trusted : Option Manifest)
    (rotated : Option JoinCode) : Action Error HostService Unit := do
  Action.query fun host => validateLinkKind host.state.manifests update
  let (tree, removed) ← Action.query fun host => applyTreeUpdate host.state.tree update
  refreshMailboxes
  let host ← Action.get
  let next ← Action.ofExcept
    (checkedAdd host.state.nextControl 1 (.state "instruction ids exhausted"))
  let queuedAt ← Action.ofExcept env.unixTime?
  let commit : Commit :=
    { record := { id := host.state.nextControl, update }, trusted, removed, queuedAt }
  let recipients := recipientsOf host.state update
  -- Every pair is resolved before any queue is touched.
  Action.ofExcept (recipients.forM fun peer => do let _ ← host.keys.currentSession peer)
  let outbox ← prepareQueues env commit recipients
  Action.orElseUndo (applyCommit env commit rotated tree next outbox) (reopenGates outbox.blocked)

def commitVerified (env : HostEnv) (update : ControlUpdate) (trusted : Option Manifest) :
    Action Error HostService Unit :=
  commitVerifiedWithCode env update trusted none

end

end QuantumFs.Host
