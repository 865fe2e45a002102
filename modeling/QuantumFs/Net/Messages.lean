import QuantumFs.Protocol

/-! The messages of `net/`, `protocol/pull.rs` and `protocol/locate.rs`: what a
member and a host send each other, and what the directory stores. -/
namespace QuantumFs.Net

open Lib

/-- `SocketAddr` of the standard library: how an address is printed and parsed. -/
class SocketAddr (Addr : Type) where
  print : Addr → String
  parse : String → Option Addr

/-- The two loopback addresses at one port. -/
inductive Loopback where
  | v4
  | v6
deriving DecidableEq

instance : SocketAddr Loopback where
  print
    | .v4 => "127.0.0.1:4433"
    | .v6 => "[::1]:4433"
  parse := fun text =>
    if text = "127.0.0.1:4433" then some .v4
    else if text = "[::1]:4433" then some .v6
    else none

theorem Loopback.parse_print (addr : Loopback) :
    SocketAddr.parse (SocketAddr.print addr) = some addr := by
  cases addr
  · rfl
  · rfl

structure DirectoryAd (Addr : Type) where
  peerId : PeerId
  vaultId : VaultId
  addr : Addr
  ek : Bytes
  vk : Bytes
  issuedAt : U64
  signature : Bytes
deriving DecidableEq

structure DirForget where
  peerId : PeerId
  vaultId : VaultId
  joinCode : JoinCode
  issuedAt : U64
  signature : Bytes
deriving DecidableEq

structure DirectoryWatermark where
  peerId : PeerId
  vaultId : VaultId
  issuedAt : U64
  vk : Bytes
deriving DecidableEq

structure DirectoryState (Addr : Type) where
  ads : List (JoinCode × DirectoryAd Addr)
  watermarks : List DirectoryWatermark
deriving DecidableEq

structure JoinRequest where
  vaultId : VaultId
  joinCode : JoinCode
  document : IdentityDocument
  signature : Bytes
deriving DecidableEq

structure NetWelcome where
  vaultId : VaultId
  members : List IdentityDocument
  historical : List IdentityDocument
  denied : OrdSet PeerId
deriving DecidableEq

structure FlushOffer where
  challenge : FlushChallenge
  frameCount : Nat
  historical : List IdentityDocument
  bootstrapThrough : Option U64
deriving DecidableEq

inductive NetControl where
  | joinAccepted (vaultId : VaultId) (members historical : List IdentityDocument)
      (denied : OrdSet PeerId)
  | joinRejected (bound requested : VaultId)
  | admissionDenied
  | flushEnd (digest : Fin (2 ^ 256))
  | flushApplied (digest : Fin (2 ^ 256))
  | ready
  | heartbeat
  | heartbeatApplied (through : U64)
deriving DecidableEq

def maxPullChunkIds : Nat := 32

/-- `PullRequest::new` is the only way to a request, so its bound is part of it. -/
structure PullRequest where
  chunkIds : List ChunkId
  atMost : chunkIds.length ≤ maxPullChunkIds
deriving DecidableEq

def PullRequest.new (chunkIds : List ChunkId) : Result PullRequest :=
  if atMost : chunkIds.length ≤ maxPullChunkIds then .ok ⟨chunkIds, atMost⟩
  else .error (.invalidInput "pull request exceeds the 32 chunk identifier cap")

def maxHaveChunkIds : Nat := 32

def requireCount (count : Nat) : Result Unit :=
  ensure (1 ≤ count ∧ count ≤ maxHaveChunkIds)
    (.invalidInput "have query requires between 1 and 32 chunk identifiers")

structure HaveQuery where
  fileId : FileId
  chunkIds : List ChunkId
  counted : 1 ≤ chunkIds.length ∧ chunkIds.length ≤ maxHaveChunkIds
deriving DecidableEq

def HaveQuery.new (fileId : FileId) (chunkIds : List ChunkId) : Result HaveQuery :=
  if counted : 1 ≤ chunkIds.length ∧ chunkIds.length ≤ maxHaveChunkIds then
    .ok ⟨fileId, chunkIds, counted⟩
  else .error (.invalidInput "have query requires between 1 and 32 chunk identifiers")

structure HaveReply where
  fileId : FileId
  chunkIds : List ChunkId
  haveBitset : Bytes
deriving DecidableEq

structure Frame where
  kind : Nat
  payload : Bytes
deriving DecidableEq

namespace Frame

def maxBodyLen : Nat := 1024 * 1024
def minKind : Nat := 1
def maxKind : Nat := 14
def gcmPacketKind : Nat := 10
def gcmChunkKind : Nat := 11

def new (kind : Nat) (payload : Bytes) : Result Frame := do
  ensure (minKind ≤ kind ∧ kind ≤ maxKind) (.invalidInput "unknown TCP frame type")
  ensure (payload.length + 1 ≤ maxBodyLen) (.invalidInput "TCP frame body exceeds 1 MiB")
  pure { kind, payload }

end Frame

end QuantumFs.Net
