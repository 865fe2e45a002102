import QuantumFs.Encoding.Wire
import QuantumFs.Store.Replica

/-! The encoding of a replica snapshot. A snapshot that breaks one of the checks
here is never written. -/
namespace QuantumFs.Encoding

open Lib Store

def maxReplicaBytes : Nat := 16 * 1024 * 1024

def encodeVaultMetadata (metadata : VaultMetadata) : Result Bytes := do
  let members ← encodeSection encodePeerId metadata.members
  let denied ← encodeSection encodePeerId metadata.denied.toList
  let extension ← pushVariable (1 :: denied)
  pure (ascii "qfs/local/vault/" ++ [localFormatVersion] ++ idBytes metadata.vaultId.val ++
    toBE 16 metadata.joinCode.val.val ++ toBE 8 metadata.issuedAt ++ members ++ extension)

def encodeDirent (entry : Dirent) : Result Bytes := do
  let name ← pushVariable (utf8 entry.name)
  pure (idBytes entry.parent.val ++ name ++ idBytes entry.child.val ++
    [if entry.isDir then 1 else 0])

def encodeManifestEntry (entry : FileId × Manifest) : Result Bytes := do
  ensure (entry.2.fileId = entry.1) (.invalidInput "manifest map key does not match file id")
  let message ← manifestM entry.2
  let message ← pushVariable message
  let signature ← pushVariable entry.2.signature
  pure (message ++ signature)

def encodeLog : (previous : Option Nat) → List ControlRecord → Result Bytes
  | _, [] => pure []
  | previous, record :: rest => do
      ensure (∀ before ∈ previous, before < record.id)
        (.invalidInput "instruction log is not strictly ordered")
      let encoded ← encodeControlRecord record
      let encoded ← pushVariable encoded
      let rest ← encodeLog (some record.id) rest
      pure (encoded ++ rest)

def encodeQueueContent : QueueContent → Result Bytes
  | .control record => do
      let record ← encodeControlRecord record
      let record ← pushVariable record
      pure (0 :: record)
  | .chunk fileId index chunkId =>
      pure (1 :: (idBytes fileId.val ++ toBE 8 index ++ idBytes chunkId.val))

def encodeMailbox (entry : PeerId × List QueueContent) : Result Bytes := do
  let queue ← encodeSection encodeQueueContent entry.2
  pure (idBytes entry.1.val ++ queue)

def encodePosition (entry : PeerId × Nat) : Result Bytes :=
  pure (idBytes entry.1.val ++ toBE 8 entry.2)

def encodeChunkIndex (entry : ChunkId × FileId × Nat) : Result Bytes :=
  pure (idBytes entry.1.val ++ idBytes entry.2.1.val ++ toBE 8 entry.2.2)

def encodeAdmission : Option VaultMetadata → Result Bytes
  | none => pure [0]
  | some admission => do
      let metadata ← encodeVaultMetadata admission
      let metadata ← pushVariable metadata
      pure (1 :: metadata)

def encodeDocument (entry : PeerId × IdentityDocument) : Result Bytes := do
  ensure (entry.2.peerId = entry.1)
    (.invalidInput "identity document map key does not match peer id")
  let document ← encodeIdentity entry.2
  let document ← pushVariable document
  pure (idBytes entry.1.val ++ document)

def encodeBootstrap (metadata : ReplicaMetadata) (entry : PeerId × Nat) : Result Bytes := do
  ensure (entry.1 ∈ metadata.members ∧ entry.2 < metadata.nextControl)
    (.invalidInput "invalid replica bootstrap coverage")
  encodePosition entry

def encodeExtension (metadata : ReplicaMetadata) : Result Bytes := do
  let denied ← encodeSection encodePeerId metadata.denied.toList
  let admission ← encodeAdmission metadata.admission
  let historical ← encodeSection encodePeerId metadata.historicalMembers.toList
  let documents ← encodeSection encodeDocument metadata.identityDocuments.toList
  let bootstraps ← encodeSection (encodeBootstrap metadata) metadata.bootstrapThrough.toList
  pure (2 :: (denied ++ admission ++ historical ++ documents ++ bootstraps))

def encodeReplicaBody (metadata : ReplicaMetadata) : Result Bytes := do
  let tree ← DirectoryTree.fromDirents metadata.expectedRoot metadata.dirents
  let dirents ← encodeSection encodeDirent tree.dirents
  let members ← encodeSection encodePeerId metadata.members.toList
  let manifests ← encodeSection encodeManifestEntry metadata.manifests.toList
  let logLength ← pushLength metadata.log.length
  let log ← encodeLog none metadata.log
  let mailboxes ← encodeSection encodeMailbox metadata.mailboxes.toList
  let acks ← encodeSection encodePosition metadata.ackedThrough.toList
  let chunks ← encodeSection encodeChunkIndex metadata.chunkIndex.toList
  let extension ← encodeExtension metadata
  let extension ← pushVariable extension
  pure (idBytes metadata.expectedRoot.val ++ dirents ++ members ++ manifests ++ logLength ++ log ++
    toBE 8 metadata.nextControl ++ mailboxes ++ acks ++ chunks ++ extension)

def encodeReplica [Crypto.Primitives] (metadata : ReplicaMetadata) (generation : Nat) :
    Result Bytes := do
  let body ← encodeReplicaBody metadata
  ensure (body.length ≤ maxReplicaBytes) (.invalidInput "replica metadata is too large")
  let signed := ascii "qfs/local/replica/" ++ [localFormatVersion] ++ toBE 8 generation ++
    toBE 4 body.length ++ body
  let out := signed ++ idBytes (Crypto.sha256 signed)
  ensure (out.length ≤ maxReplicaBytes) (.invalidInput "replica metadata is too large")
  pure out

theorem fromDirents_of_encodeReplica [Crypto.Primitives] {metadata : ReplicaMetadata} {generation : Nat}
    {out : Bytes} (h : encodeReplica metadata generation = .ok out) :
    ∃ tree, DirectoryTree.fromDirents metadata.expectedRoot metadata.dirents = .ok tree := by
  obtain ⟨body, isBody, -⟩ := Result.bind_eq_ok.mp h
  obtain ⟨tree, loaded, -⟩ := Result.bind_eq_ok.mp isBody
  exact ⟨tree, loaded⟩

end QuantumFs.Encoding
