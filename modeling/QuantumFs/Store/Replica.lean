import QuantumFs.Protocol

/-! The snapshot a host or a member keeps of its vault (`store/replica.rs`).
Chunk plaintext and pairwise ciphertext stay outside of it. -/
namespace QuantumFs.Store

open Lib

structure ReplicaMetadata where
  expectedRoot : FileId
  dirents : List Dirent
  members : OrdSet PeerId
  manifests : Map FileId Manifest
  log : List ControlRecord
  nextControl : Nat
  mailboxes : Map PeerId (List QueueContent)
  ackedThrough : Map PeerId Nat
  chunkIndex : Map ChunkId (FileId × Nat)
  denied : OrdSet PeerId
  admission : Option VaultMetadata
  historicalMembers : OrdSet PeerId
  identityDocuments : Map PeerId IdentityDocument
  /-- A synthetic snapshot covers the controls of a recipient through this id,
  while its acknowledgement stays what it was. -/
  bootstrapThrough : Map PeerId Nat
deriving DecidableEq

namespace ReplicaMetadata

def new (expectedRoot : FileId) : ReplicaMetadata where
  expectedRoot := expectedRoot
  dirents := (DirectoryTree.new expectedRoot).dirents
  members := ∅
  manifests := ∅
  log := []
  nextControl := 1
  mailboxes := ∅
  ackedThrough := ∅
  chunkIndex := ∅
  denied := ∅
  admission := none
  historicalMembers := ∅
  identityDocuments := ∅
  bootstrapThrough := ∅

def queuedIds (metadata : ReplicaMetadata) : List ChunkId :=
  (Map.vals metadata.mailboxes).flatten.filterMap fun
    | .chunk _ _ chunkId => some chunkId
    | .control _ => none

/-- Chunk files stay while a manifest or an undrained mailbox refers to them. -/
def retainIds (metadata : ReplicaMetadata) : OrdSet ChunkId :=
  OrdSet.ofList
    ((Map.vals metadata.manifests).flatMap Manifest.chunkIds ++ metadata.queuedIds)

/-- What a start reads from the bytes of a snapshot: an empty tree gets its root, and an admission
record that names a member twice is refused. -/
def reread (metadata : ReplicaMetadata) : Result ReplicaMetadata := do
  let tree ← DirectoryTree.fromDirents metadata.expectedRoot metadata.dirents
  ensure (∀ admission ∈ metadata.admission, admission.members.Nodup)
    (.invalidInput "duplicate vault member")
  pure { metadata with dirents := tree.dirents }

/-- The snapshot with the root of its tree, where it has no entry at all. -/
def rooted (metadata : ReplicaMetadata) : ReplicaMetadata :=
  { metadata with dirents :=
      if metadata.dirents = [] then [DirectoryTree.rootDirent metadata.expectedRoot]
      else metadata.dirents }

theorem reread_eq_ok {metadata stored : ReplicaMetadata} : metadata.reread = .ok stored ↔
    ∃ tree, DirectoryTree.fromDirents metadata.expectedRoot metadata.dirents = .ok tree ∧
      (∀ admission ∈ metadata.admission, admission.members.Nodup) ∧
      { metadata with dirents := tree.dirents } = stored := by
  unfold reread
  simp only [Result.bind_eq_ok, ensure_eq_ok, pure, Except.pure, Except.ok.injEq]
  constructor
  · rintro ⟨tree, loaded, _, distinct, same⟩
    exact ⟨tree, loaded, distinct, same⟩
  · rintro ⟨tree, loaded, distinct, same⟩
    exact ⟨tree, loaded, (), distinct, same⟩

theorem mem_queuedIds {metadata : ReplicaMetadata} {chunkId : ChunkId} :
    chunkId ∈ metadata.queuedIds ↔ ∃ (peer : PeerId) (queue : List QueueContent),
      metadata.mailboxes[peer]? = some queue ∧
      ∃ fileId index, QueueContent.chunk fileId index chunkId ∈ queue := by
  unfold queuedIds
  rw [List.mem_filterMap]
  constructor
  · rintro ⟨content, mem, isChunk⟩
    obtain ⟨queue, queueMem, contentMem⟩ := List.mem_flatten.mp mem
    obtain ⟨peer, found⟩ := Map.mem_vals.mp queueMem
    cases content with
    | control record => simp at isChunk
    | chunk fileId index other =>
      obtain rfl : other = chunkId := by simpa using isChunk
      exact ⟨peer, queue, found, fileId, index, contentMem⟩
  · rintro ⟨peer, queue, found, fileId, index, mem⟩
    exact ⟨.chunk fileId index chunkId,
      List.mem_flatten.mpr ⟨queue, Map.mem_vals.mpr ⟨peer, found⟩, mem⟩, rfl⟩

end ReplicaMetadata

end QuantumFs.Store
