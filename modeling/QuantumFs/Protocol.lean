import QuantumFs.Store.Tree

/-! The records that members and the host sign, encrypt, queue and log
(`protocol/`, `crypto/identity.rs`, `crypto/wrap.rs`, `sync/host.rs`). -/
namespace QuantumFs

open Lib

/-- A `u64` that is carried and never computed with. -/
abbrev U64 : Type := Fin (2 ^ 64)

/-- The public, self-certifying identity document exchanged by peers. -/
structure IdentityDocument where
  peerId : PeerId
  ek : Bytes
  vk : Bytes
  createdAt : U64
  signature : Bytes
deriving DecidableEq

structure WrapMessage where
  kemCt : Bytes
  wrapCt : Bytes
  epoch : Nat
  minId : PeerId
  maxId : PeerId
  signature : Bytes
deriving DecidableEq

def protocolVersion : UInt8 := 1

structure PacketHeader where
  version : UInt8
  senderId : PeerId
  receiverId : PeerId
  epoch : Nat
  seq : Nat
deriving DecidableEq

structure ControlPacket where
  header : PacketHeader
  ciphertext : Bytes
deriving DecidableEq

structure ChunkBodyFrame where
  header : PacketHeader
  fileId : FileId
  index : Nat
  ciphertext : Bytes
deriving DecidableEq

inductive Direction where
  | inbound
  | outbound
deriving DecidableEq

inductive PayloadType where
  | packet
  | chunkBody
deriving DecidableEq

structure Manifest where
  fileId : FileId
  chunkIds : List ChunkId
  size : U64
  writerId : PeerId
  version : U64
  signature : Bytes
deriving DecidableEq

inductive ControlUpdate where
  | newManifest (manifest : Manifest)
  | add (fileId : FileId)
  | kick (target : PeerId)
  | clear (fileId : FileId)
  | remove (fileId : FileId)
  | link (parent : FileId) (name : String) (child : FileId) (isDir : Bool)
  | unlink (parent : FileId) (name : String)
  | rename (srcParent : FileId) (srcName : String) (dstParent : FileId) (dstName : String)
deriving DecidableEq

structure ControlRecord where
  id : Nat
  update : ControlUpdate
deriving DecidableEq

inductive QueueContent where
  | control (record : ControlRecord)
  | chunk (fileId : FileId) (index : Nat) (chunkId : ChunkId)
deriving DecidableEq

def QueueContent.record? : QueueContent → Option ControlRecord
  | .control record => some record
  | .chunk _ _ _ => none

def QueueContent.isChunk : QueueContent → Bool
  | .control _ => false
  | .chunk _ _ _ => true

structure MailboxEnvelope where
  recipientId : PeerId
  senderId : PeerId
  epoch : Nat
  seq : Nat
  queuedAt : Nat
  ciphertext : Bytes
deriving DecidableEq

inductive MailboxFrame where
  | control (ciphertext : Bytes)
  | chunkBody (fileId : FileId) (index : Nat) (ciphertext : Bytes)
deriving DecidableEq

structure FlushChallenge where
  val : Fin (2 ^ 256)
deriving DecidableEq

/-- What `vault` holds next to the replica: the join code and the members the
host admits. -/
structure VaultMetadata where
  vaultId : VaultId
  joinCode : JoinCode
  issuedAt : Nat
  members : List PeerId
  denied : OrdSet PeerId
deriving DecidableEq

end QuantumFs
