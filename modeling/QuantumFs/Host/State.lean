import QuantumFs.Crypto.KeyStore
import QuantumFs.Store.Chunks

/-! The state of the host of one vault (`sync/host.rs`) and the snapshot that is
kept of it (`sync/host/persistence.rs`). -/
namespace QuantumFs.Host

open Lib Encoding Crypto Store

structure Queued where
  envelope : MailboxEnvelope
  content : QueueContent
deriving DecidableEq

structure OnlineControl where
  packet : ControlPacket
  record : ControlRecord
  queuedAt : Nat
deriving DecidableEq

structure HostState where
  expectedRoot : FileId
  tree : DirectoryTree
  ackedThrough : Map PeerId Nat
  hostId : PeerId
  members : OrdSet PeerId
  denied : OrdSet PeerId
  historicalMembers : OrdSet PeerId
  identityDocuments : Map PeerId IdentityDocument
  bootstrapThrough : Map PeerId Nat
  chunks : ChunkStore
  /-- Only verified manifests enter this map. -/
  manifests : Map FileId Manifest
  log : List ControlRecord
  nextControl : Nat
  mailboxes : Map PeerId (List Queued)
  online : Map PeerId (List OnlineControl)
  gateOwner : Nat
  admission : Option VaultMetadata

/-- The keystore and the data directory are shared with every clone of the
service, so they stand beside its state. -/
structure HostService where
  keys : KeyStore
  state : HostState
  disk : Option DurableStore
  presence : Map PeerId Nat
  challenges : Map PeerId FlushChallenge
  running : Bool
  deferPersistence : Bool
  /-- Whether a vault file is attached, which is replaced with each snapshot. -/
  admissionPath : Bool
  disconnects : List PeerId
  recentOps : List (Nat × PeerId × Nat)
  lastSeen : Map PeerId Nat

/-- What the world answers during one call: the clocks, entropy and files. -/
structure HostEnv where
  /-- The monotonic clock when the presence of a peer is read. -/
  clock : PeerId → Nat
  unixTime : Option Nat
  unixMillis : Nat
  fileId : Option FileId
  challenge : Option FlushChallenge
  joinCode : Option JoinCode
  gateOwner : Option Nat
  keys : KeyEnv
  files : FileEnv

def HostEnv.unixTime? (env : HostEnv) : Result Nat :=
  okOr env.unixTime (.state "clock predates Unix epoch")

namespace HostState

variable (state : HostState)

/-- What is queued for a peer, without the envelopes it is sealed in. -/
def mailbox (peer : PeerId) : List QueueContent :=
  (state.mailboxes[peer]?.getD []).map Queued.content

/-- The instructions that wait for a live peer. -/
def onlineRecords (peer : PeerId) : List ControlRecord :=
  (state.online[peer]?.getD []).map OnlineControl.record

def ackedThroughOf (peer : PeerId) : Nat := state.ackedThrough[peer]?.getD 0

def bootstrapThroughOf (peer : PeerId) : Nat := state.bootstrapThrough[peer]?.getD 0

/-- The position up to which a peer needs no instruction any more. -/
def covered (peer : PeerId) : Nat := max (state.ackedThroughOf peer) (state.bootstrapThroughOf peer)

/-- The log records above the position of a peer that its queue does not hold. -/
def missing (peer : PeerId) (queue : List QueueContent) : List ControlRecord :=
  state.log.filter fun record =>
    state.covered peer < record.id ∧ record.id ∉ (queue.filterMap QueueContent.record?).map (·.id)

/-- A packet that was handed out is not acknowledged: every instruction a peer
still needs stays recoverable from its persisted queue. -/
def mergeMissing (peer : PeerId) (queue : List QueueContent) : List QueueContent :=
  let missing := state.missing peer queue
  if missing = [] then queue
  else
    let controls := (queue.filterMap QueueContent.record? ++ missing).insertionSort
      fun a b => a.id ≤ b.id
    controls.map QueueContent.control ++ queue.filter QueueContent.isChunk

def persistedMailboxes : Map PeerId (List QueueContent) :=
  let queues := state.mailboxes.map fun _ queue => queue.map Queued.content
  let merged := (state.members.toList.filter (· ≠ state.hostId)).foldl
    (fun queues peer => queues.insert peer (state.mergeMissing peer (queues[peer]?.getD []))) queues
  merged.filter fun _ queue => queue ≠ []

def metadata : ReplicaMetadata where
  expectedRoot := state.expectedRoot
  dirents := state.tree.dirents
  members := state.members
  manifests := state.manifests
  log := state.log
  nextControl := state.nextControl
  mailboxes := state.persistedMailboxes
  ackedThrough := state.ackedThrough
  chunkIndex := ∅
  denied := state.denied
  admission := state.admission
  historicalMembers := state.historicalMembers
  identityDocuments := state.identityDocuments
  bootstrapThrough := state.bootstrapThrough

end HostState

section

variable [Primitives]

def sealControl (session : PairSession) (record : ControlRecord) :
    Action Error KeyStore ControlPacket := do
  let senderId ← Action.query KeyStore.peerId
  let seq ← Action.query fun keys => keys.nextOutboundSeq session.keyHandle .packet
  let header : PacketHeader :=
    { version := protocolVersion, senderId, receiverId := session.peerId, epoch := session.epoch, seq }
  let plaintext ← Action.ofExcept (encodeControlRecord record)
  let ciphertext ← KeyStore.aeadSeal session.keyHandle (nonce header .packet) (packetAad header)
    plaintext
  pure { header, ciphertext }

/-- File bytes are encrypted for one peer at the moment they are sent. -/
def encryptAtSend (session : PairSession) (fileId : FileId) (index : Nat) (plaintext : Bytes) :
    Action Error KeyStore ChunkBodyFrame := do
  let senderId ← Action.query KeyStore.peerId
  let seq ← Action.query fun keys => keys.nextOutboundSeq session.keyHandle .chunkBody
  let header : PacketHeader :=
    { version := protocolVersion, senderId, receiverId := session.peerId, epoch := session.epoch, seq }
  let ciphertext ← KeyStore.aeadSeal session.keyHandle (nonce header .chunkBody)
    (chunkAad header fileId index) plaintext
  pure { header, fileId, index, ciphertext }

end

def envelopeOf (header : PacketHeader) (queuedAt : Nat) (frame : MailboxFrame) :
    Result MailboxEnvelope := do
  let ciphertext ← encodeMailboxFrame frame
  pure {
    recipientId := header.receiverId
    senderId := header.senderId
    epoch := header.epoch
    seq := header.seq
    queuedAt
    ciphertext }

def controlEnvelope (packet : ControlPacket) (queuedAt : Nat) : Result MailboxEnvelope :=
  envelopeOf packet.header queuedAt (.control packet.ciphertext)

def chunkEnvelope (frame : ChunkBodyFrame) (queuedAt : Nat) : Result MailboxEnvelope :=
  envelopeOf frame.header queuedAt (.chunkBody frame.fileId frame.index frame.ciphertext)

end QuantumFs.Host
