import QuantumFs.Host.Service
import QuantumFs.Lib.Machine

/-! The host without its ciphertext. A commit, an admission or a flush is a step
between such contents; sealing, sealing again and the gates of the keystore never
show in them. -/
namespace QuantumFs.Host

open Lib Encoding Crypto Store

/-- The state of a host without the envelopes its queues are sealed in. -/
@[ext]
structure Content where
  expectedRoot : FileId
  tree : DirectoryTree
  ackedThrough : Map PeerId Nat
  hostId : PeerId
  members : OrdSet PeerId
  denied : OrdSet PeerId
  historicalMembers : OrdSet PeerId
  identityDocuments : Map PeerId IdentityDocument
  bootstrapThrough : Map PeerId Nat
  records : Map ChunkId ChunkRecord
  manifests : Map FileId Manifest
  log : List ControlRecord
  nextControl : Nat
  mailbox : PeerId → List QueueContent
  online : PeerId → List ControlRecord
  gateOwner : Nat
  admission : Option VaultMetadata

def HostState.content (state : HostState) : Content where
  expectedRoot := state.expectedRoot
  tree := state.tree
  ackedThrough := state.ackedThrough
  hostId := state.hostId
  members := state.members
  denied := state.denied
  historicalMembers := state.historicalMembers
  identityDocuments := state.identityDocuments
  bootstrapThrough := state.bootstrapThrough
  records := state.chunks.records
  manifests := state.manifests
  log := state.log
  nextControl := state.nextControl
  mailbox := state.mailbox
  online := state.onlineRecords
  gateOwner := state.gateOwner
  admission := state.admission

namespace Content

variable (c : Content)

def acked (peer : PeerId) : Nat := c.ackedThrough[peer]?.getD 0

def bootstrap (peer : PeerId) : Nat := c.bootstrapThrough[peer]?.getD 0

def covered (peer : PeerId) : Nat := max (c.acked peer) (c.bootstrap peer)

def floor : Nat := ((c.members.toList.map c.acked).min?).getD 0

def removeBodies (removed : Option FileId) (queue : List QueueContent) : List QueueContent :=
  match removed with
  | none => queue
  | some fileId => queue.filter (otherFile fileId)

def addBody (current : Manifest) (prior : Option Manifest) (queue : List QueueContent)
    (slot : ChunkId × Nat) : List QueueContent :=
  if prior.any fun old => old.chunkIds[slot.2]? = some slot.1 then queue
  else queue.filter (otherSlot current.fileId slot.2) ++ [.chunk current.fileId slot.2 slot.1]

def addBodies (current : Manifest) (prior : Option Manifest) (pending : Bool)
    (queue : List QueueContent) : List QueueContent :=
  current.chunkIds.zipIdx.foldl (addBody current prior) (queue.filter (keepsBody current pending))

/-- The mailbox of a gated peer after a commit, from what it and the live queue held. -/
def enqueue (record : ControlRecord) (removed : Option FileId) (peer : PeerId)
    (mailbox : List QueueContent) (online : List ControlRecord) : List QueueContent :=
  let queue := removeBodies removed
    (mailbox ++ online.map QueueContent.control ++ [.control record])
  match record.update with
  | .newManifest current =>
    addBodies current c.manifests[current.fileId]? (c.bootstrapThrough.contains peer) queue
  | _ => queue

def recipient (update : ControlUpdate) (peer : PeerId) : Prop :=
  peer ∈ c.members ∧ peer ≠ c.hostId ∧ some peer ≠ kickedBy update

instance (update : ControlUpdate) (peer : PeerId) : Decidable (c.recipient update peer) :=
  inferInstanceAs (Decidable (_ ∧ _ ∧ _))

def mailboxAfter (record : ControlRecord) (removed : Option FileId) (live : PeerId → Bool)
    (peer : PeerId) : List QueueContent :=
  if c.recipient record.update peer ∧ live peer = false then
    c.enqueue record removed peer (c.mailbox peer) (c.online peer)
  else if some peer = kickedBy record.update then []
  else c.mailbox peer

def onlineAfter (record : ControlRecord) (live : PeerId → Bool) (peer : PeerId) :
    List ControlRecord :=
  if c.recipient record.update peer then
    if live peer then c.online peer ++ [record] else []
  else if some peer = kickedBy record.update then []
  else c.online peer

def manifestsAfter (update : ControlUpdate) (removed : Option FileId) : Map FileId Manifest :=
  let manifests := match update with
    | .newManifest manifest => c.manifests.insert manifest.fileId manifest
    | _ => c.manifests
  match removed with
  | none => manifests
  | some fileId => manifests.erase fileId

def recordsAfter (removed : Option FileId) : Map ChunkId ChunkRecord :=
  match removed with
  | none => c.records
  | some fileId => c.records.filter fun _ record => record.fileId ≠ fileId

def dropMember (kicked : Option PeerId) : Content :=
  match kicked with
  | none => c
  | some target => { c with
      members := c.members.erase target
      ackedThrough := c.ackedThrough.erase target
      bootstrapThrough := c.bootstrapThrough.erase target
      denied := c.denied.insert target }

/-- One accepted instruction. `live` tells which recipients take live traffic, and
`admission` is the vault file, with a new code after a kick. -/
def commit (update : ControlUpdate) (live : PeerId → Bool) (admission : Option VaultMetadata) :
    Result Content := do
  validateLinkKind c.manifests update
  let (tree, removed) ← applyTreeUpdate c.tree update
  let next ← checkedAdd c.nextControl 1 (.state "instruction ids exhausted")
  let record : ControlRecord := { id := c.nextControl, update }
  let dropped := c.dropMember (kickedBy update)
  pure { dropped with
    tree
    ackedThrough := dropped.ackedThrough.insert c.hostId record.id
    records := c.recordsAfter removed
    manifests := c.manifestsAfter update removed
    log := c.log ++ [record]
    nextControl := next
    mailbox := c.mailboxAfter record removed live
    online := c.onlineAfter record live
    admission }

/-- The archive knows the writer of every manifest, and each new document in it
is a verified one of the keystore. -/
structure Archived [Primitives] (identity : IdentityDocument) (peers : Map PeerId IdentityDocument)
    (documents : Map PeerId IdentityDocument) : Prop where
  old : ∀ (peer : PeerId) (document : IdentityDocument),
    c.identityDocuments[peer]? = some document → documents[peer]? = some document
  new : ∀ (peer : PeerId) (document : IdentityDocument), documents[peer]? = some document →
    c.identityDocuments[peer]? = some document ∨ (verifyIdentity document = .ok () ∧
      ((peer = identity.peerId ∧ document = identity) ∨ peers[peer]? = some document))
  writers : ∀ (fileId : FileId) (manifest : Manifest), c.manifests[fileId]? = some manifest →
    documents.contains manifest.writerId = true

/-- The content that becomes visible, with the archived documents. -/
def settle (documents : Map PeerId IdentityDocument) : Content :=
  { c with
    historicalMembers := OrdSet.extend c.historicalMembers c.members
    identityDocuments := documents
    admission := c.admission.map fun admission =>
      { admission with members := c.members.toList, denied := c.denied }
    log := c.log.filter fun record => c.floor < record.id }

def Holds [Primitives] (manifest : Manifest) : Prop :=
  ∀ (index : Nat) (chunkId : ChunkId), manifest.chunkIds[index]? = some chunkId →
    ∃ plaintext, c.records[chunkId]? = some ⟨manifest.fileId, index, plaintext⟩ ∧
      Encoding.chunkId manifest.fileId index plaintext = chunkId

def bodySize (manifest : Manifest) : Nat :=
  (manifest.chunkIds.map fun chunkId =>
    (c.records[chunkId]?.map fun record => record.plaintext.length).getD 0).sum

end Content

/-- What an operation relies on besides the content: the verified documents of
the keystore, whether it has a pair with itself, the peers with an open flush
challenge, and the chunk files of the data directory, if there is one. -/
structure World where
  identity : IdentityDocument
  peers : Map PeerId IdentityDocument
  selfPaired : Bool
  challenged : PeerId → Bool
  files : Option (Map ChunkId Bytes)

def World.document (world : World) (peer : PeerId) : Option IdentityDocument :=
  if peer = world.identity.peerId then some world.identity else world.peers[peer]?

namespace Content

variable [Primitives] (world : World)

/-- The writer is a member and has signed, and the host holds the chunks. -/
structure AcceptsManifest (c : Content) (manifest : Manifest) : Prop where
  member : manifest.writerId ∈ c.members
  signed : ∃ document, world.document manifest.writerId = some document ∧
    verifySignature document.vk manifest = .ok ()
  held : c.Holds manifest
  size : c.bodySize manifest = manifest.size.val

def Accepts (c : Content) : ControlUpdate → Prop
  | .newManifest manifest => c.AcceptsManifest world manifest
  | .kick target => target ∈ c.members ∧ target ≠ c.hostId
  | _ => True

/-- What is staged for a new member: its document, and the bootstrap it starts from. -/
def withMember (c : Content) (document : IdentityDocument)
    (documents : Map PeerId IdentityDocument) (records : List ControlRecord) : Content :=
  { c with
    members := c.members.insert document.peerId
    historicalMembers := OrdSet.extend (c.historicalMembers.insert document.peerId)
      (c.members.insert document.peerId)
    identityDocuments := documents
    bootstrapThrough := c.bootstrapThrough.insert document.peerId (c.nextControl - 1)
    mailbox := fun peer =>
      if document.peerId = peer then
        records.map QueueContent.control ++ manifestSlots c.manifests
      else c.mailbox peer }

def raiseAck (c : Content) (peer : PeerId) (through : Nat) : Content :=
  { c with ackedThrough := c.ackedThrough.insert peer (max (c.acked peer) through) }

/-- The highest instruction queued for a peer, or the bootstrap it starts from. -/
def drainedThrough (c : Content) (peer : PeerId) : Nat :=
  max ((((c.mailbox peer).filterMap QueueContent.record?).map (·.id)).max?.getD 0)
    (c.bootstrap peer)

def drained (c : Content) (peer : PeerId) : Content :=
  { c.raiseAck peer (c.drainedThrough peer) with
    mailbox := fun other => if peer = other then [] else c.mailbox other
    bootstrapThrough := c.bootstrapThrough.erase peer }

def taken (c : Content) (peer : PeerId) : Content :=
  { c with online := fun other => if peer = other then [] else c.online other }

def appended (c : Content) (peer : PeerId) (fileId : FileId) (index : Nat) (chunkId : ChunkId) :
    Content :=
  { c with mailbox := fun other =>
      if peer = other then
        (c.mailbox peer).filter (otherSlot fileId index) ++ [.chunk fileId index chunkId]
      else c.mailbox other }

def stored (c : Content) (fileId : FileId) (index : Nat) (plaintext : Bytes) : Content :=
  { c with
    records := c.records.insert (chunkId fileId index plaintext) ⟨fileId, index, plaintext⟩ }

inductive Put : Content → Content → Prop
  | mk {c : Content} (fileId : FileId) (index : Nat) (plaintext : Bytes) :
      c.records[chunkId fileId index plaintext]? = none →
      (∀ files ∈ world.files, files[chunkId fileId index plaintext]? = some plaintext ∧
        plaintext.length ≤ maxChunkBytes) →
      Put c (c.stored fileId index plaintext)

def Idle (c : Content) (live : PeerId → Bool) : Prop := ∀ peer, live peer = true → c.mailbox peer = []

def Commits (update : ControlUpdate) (c next : Content) : Prop :=
  c.Accepts world update ∧ ∃ live admission staged documents, c.Idle live ∧
    admission.isSome = c.admission.isSome ∧ c.commit update live admission = .ok staged ∧
      staged.Archived world.identity world.peers documents ∧ next = staged.settle documents

/-- A manifest that is already current is accepted without a record. -/
def Adopts (manifest : Manifest) (c next : Content) : Prop :=
  (c.manifests[manifest.fileId]? = some manifest ∧ next = c) ∨
    Commits world (.newManifest manifest) c next

/-- The parts of one save: its chunks, its manifest, and the link of a new path. -/
def Uploads (manifest : Manifest) (link : Option ControlUpdate) (c next : Content) : Prop :=
  ∃ stored committed, Relation.ReflTransGen (Put world) c stored ∧
    Adopts world manifest stored committed ∧
    match link with
    | none => next = committed
    | some update => Commits world update committed next

inductive Move : Content → Content → Prop
  | keep {c : Content} : Move c c
  | commit {c staged : Content} {update : ControlUpdate} {live : PeerId → Bool}
      {admission : Option VaultMetadata} :
      c.Accepts world update → c.Idle live → admission.isSome = c.admission.isSome →
      c.commit update live admission = .ok staged → Move c staged
  | upload {c staged : Content} {manifest : Manifest} {link : Option ControlUpdate} :
      link.all (linksFile manifest.fileId) = true → Uploads world manifest link c staged →
      Move c staged
  | enrol {c : Content} {document : IdentityDocument} {documents : Map PeerId IdentityDocument}
      {records : List ControlRecord} :
      verifyIdentity document = .ok () → document.peerId ∉ c.denied →
      document.peerId ∉ c.members → world.peers[document.peerId]? = some document →
      Archived { c with identityDocuments := c.identityDocuments.insert document.peerId document }
        world.identity world.peers documents →
      snapshotRecords c.expectedRoot c.tree c.manifests (c.nextControl - 1) = .ok records →
      Move c (c.withMember document documents records)
  | acknowledge {c : Content} {peer : PeerId} {through : Nat} :
      peer ∈ c.members → through < c.nextControl → c.acked peer < through →
      Move c (c.raiseAck peer through)
  | drain {c : Content} (peer : PeerId) : world.challenged peer = true → Move c (c.drained peer)
  | take {c : Content} (peer : PeerId) : peer ∈ c.members → Move c (c.taken peer)
  | append {c : Content} {peer : PeerId} {fileId : FileId} {manifest : Manifest} {index : Nat}
      {chunkId : ChunkId} :
      peer ∈ c.members → (peer = world.identity.peerId → world.selfPaired = true) →
      c.manifests[fileId]? = some manifest → manifest.chunkIds[index]? = some chunkId →
      Move c (c.appended peer fileId index chunkId)
  | attach {c : Content} (metadata : VaultMetadata) : c.admission = none →
      Move c { c with
        denied := OrdSet.extend c.denied metadata.denied
        admission := some metadata }
  | admission {c : Content} (metadata : VaultMetadata) : Move c { c with admission := some metadata }

end Content

/-- The part of a service that a commit, an admission or a flush changes. -/
structure View where
  content : Content
  disk : Option DurableStore
  deferred : Bool
  identity : LocalIdentity
  peers : Map PeerId IdentityDocument
  selfPaired : Bool
  challenged : PeerId → Bool

def selfPaired (keys : KeyStore) : Bool := keys.pairs.contains keys.localId

def HostService.view (host : HostService) : View where
  content := host.state.content
  disk := host.disk
  deferred := host.deferPersistence
  identity := host.keys.identity
  peers := host.keys.peers
  selfPaired := selfPaired host.keys
  challenged := fun peer => host.challenges.contains peer

def View.world (v : View) : World where
  identity := v.identity.document
  peers := v.peers
  selfPaired := v.selfPaired
  challenged := v.challenged
  files := v.disk.map DurableStore.chunkFiles

/-- A settled state has become visible, after it was written if there is a data
directory. -/
inductive Published (v : View) (next : HostState) : View → Prop
  | deferred : v.deferred = true → Published v next { v with content := next.content }
  | memory : v.deferred = false → v.disk = none →
      Published v next { v with content := next.content }
  | saved {before after : DurableStore} : v.deferred = false → v.disk = some before →
      Saved before after next.metadata next.chunks.records →
      Published v next { v with
        content := { next.content with
          records := retained next.metadata next.chunks.records }
        disk := some after }

/-- A settled state may be on disk, but the service has not taken it over. -/
inductive Lost (v : View) (next : HostState) : View → Prop
  | mk {before after : DurableStore} : v.deferred = false → v.disk = some before →
      Spoiled before after next.metadata next.chunks.records →
      Lost v next { v with disk := some after }

/-- How an operation that moves the content by `R` can end. -/
inductive Outcome {α : Type} (R : Content → Prop) (v : View) : Result α → View → Prop
  | refused (error : Error) : Outcome R v (.error error) v
  | lost (error : Error) {next : HostState} {w : View} : R next.content → Lost v next w →
      Outcome R v (.error error) w
  | done (a : α) {next : HostState} {w : View} : R next.content → Published v next w →
      Outcome R v (.ok a) w

theorem Outcome.mono {α : Type} {R S : Content → Prop} {v w : View} {r : Result α}
    (h : Outcome R v r w) (imp : ∀ next, R next → S next) : Outcome S v r w := by
  cases h with
  | refused error => exact .refused error
  | lost error moved lost => exact .lost error (imp _ moved) lost
  | done a moved published => exact .done a (imp _ moved) published

theorem Outcome.error {α β : Type} {R : Content → Prop} {v w : View} {e : Error}
    (h : Outcome (α := α) R v (.error e) w) (other : Error) :
    Outcome (α := β) R v (.error other) w := by
  cases h with
  | refused _ => exact .refused other
  | lost _ moved lost => exact .lost other moved lost

theorem Outcome.published {α : Type} {R : Content → Prop} {v w : View} {a : α}
    (h : Outcome R v (.ok a) w) : ∃ next, R next.content ∧ Published v next w := by
  cases h with
  | done _ moved published => exact ⟨_, moved, published⟩

def Settles [Primitives] (v : View) (staged next : Content) : Prop :=
  ∃ documents, staged.Archived v.identity.document v.peers documents ∧
    next = staged.settle documents

def Steps [Primitives] (v : View) (next : Content) : Prop :=
  ∃ staged, Content.Move v.world v.content staged ∧ Settles v staged next

/-- Every document of a keystore verifies and is filed under its own id. -/
def SoundPeers [Primitives] (peers : Map PeerId IdentityDocument) : Prop :=
  ∀ (peer : PeerId) (document : IdentityDocument), peers[peer]? = some document →
    document.peerId = peer ∧ verifyIdentity document = .ok ()

/-- What an operation does beside the content: it imports or discards peers, writes
chunk files, and challenges members. -/
structure Beside [Primitives] (v w : View) : Prop where
  content : w.content = v.content
  deferred : w.deferred = v.deferred
  identity : w.identity = v.identity
  peers : SoundPeers v.peers → SoundPeers w.peers
  unpaired : v.selfPaired = false → w.selfPaired = false
  challenged : ∀ peer, w.challenged peer = true →
    v.challenged peer = true ∨ peer ∈ v.content.members
  disk : Option.Rel Stocked v.disk w.disk

inductive Effect [Primitives] (v : View) : View → Prop
  | beside {w : View} : Beside v w → Effect v w
  | steps {α : Type} {r : Result α} {u x w : View} : Beside v u → Outcome (Steps u) u r x →
      Beside x w → Effect v w

namespace Beside

variable [Primitives] {v u w : View}

theorem refl (v : View) : Beside v v where
  content := rfl
  deferred := rfl
  identity := rfl
  peers := id
  unpaired := id
  challenged := fun _ => .inl
  disk := Stocked.refl v.disk

theorem of_eq (h : w = v) : Beside v w := h ▸ refl v

theorem trans (first : Beside v u) (second : Beside u w) : Beside v w where
  content := second.content.trans first.content
  deferred := second.deferred.trans first.deferred
  identity := second.identity.trans first.identity
  peers := fun sound => second.peers (first.peers sound)
  unpaired := fun unpaired => second.unpaired (first.unpaired unpaired)
  challenged := fun peer again => by
    obtain before | member := second.challenged peer again
    · exact first.challenged peer before
    · exact .inr (first.content ▸ member)
  disk := Stocked.trans first.disk second.disk

end Beside

namespace Effect

variable [Primitives] {v u w : View}

theorem after (first : Beside v u) (h : Effect u w) : Effect v w := by
  cases h with
  | beside rest => exact .beside (first.trans rest)
  | steps before outcome rest => exact .steps (first.trans before) outcome rest

theorem before (h : Effect v u) (last : Beside u w) : Effect v w := by
  cases h with
  | beside rest => exact .beside (rest.trans last)
  | steps before outcome rest => exact .steps before outcome (rest.trans last)

theorem of_outcome {α : Type} {R : Content → Prop} {r : Result α} (h : Outcome R v r w)
    (imp : ∀ next, R next → Steps v next) : Effect v w :=
  .steps (.refl v) (h.mono imp) (.refl w)

theorem of_eq (h : w = v) : Effect v w := .beside (.of_eq h)

end Effect

end QuantumFs.Host
