import QuantumFs.Lib.Action
import QuantumFs.Encoding.Replica

/-! Plaintext chunks and the data directory behind them (`store/chunks.rs`,
`store/durable.rs`). The directory is shared by every clone of a chunk store, so
it is passed beside the store. What a file operation answers is an argument, and
a replacement that reports an error may have happened or not. -/
namespace QuantumFs.Store

open Lib Encoding

def maxChunkBytes : Nat := 1024 * 1024

def maxStoreBytes : Nat := 16 * 1024 * 1024

structure ChunkRecord where
  fileId : FileId
  index : Nat
  plaintext : Bytes
deriving DecidableEq

/-- `MemoryChunkStore`. -/
structure ChunkStore where
  records : Map ChunkId ChunkRecord
  metadata : Option ReplicaMetadata

/-- The data directory of one vault and the handle that is open on it. The
snapshot is kept as the value that was encoded, and a start rereads it. -/
structure DurableStore where
  generation : Nat
  expectedRoot : FileId
  failed : Bool
  replicaFile : Option (Nat × ReplicaMetadata)
  chunkFiles : Map ChunkId Bytes

inductive WriteOutcome where
  | written
  | failed (replaced : Bool)
deriving DecidableEq

structure FileEnv where
  chunkWrites : ChunkId → WriteOutcome
  replicaWrite : WriteOutcome
  /-- The unreferenced chunk files that the cleanup removes. -/
  sweeps : ChunkId → Bool
  /-- Reading the data directory works. -/
  reads : Bool

namespace DurableStore

def writeChunkFile (outcome : WriteOutcome) (chunkId : ChunkId) (plaintext : Bytes) :
    Action Error DurableStore Unit := fun disk =>
  let files := disk.chunkFiles.insert chunkId plaintext
  match outcome with
  | .written => (.ok (), { disk with chunkFiles := files })
  | .failed true => (.error .io, { disk with failed := true, chunkFiles := files })
  | .failed false => (.error .io, { disk with failed := true })

def writeChunk (env : FileEnv) (chunkId : ChunkId) (plaintext : Bytes) :
    Action Error DurableStore Unit := do
  Action.require (plaintext.length ≤ maxChunkBytes) (.invalidInput "chunk exceeds 1 MiB")
  let disk ← Action.get
  Action.require (disk.failed = false) (.state "durable store is poisoned")
  match disk.chunkFiles[chunkId]? with
  | some existing =>
    Action.require (existing = plaintext) (.state "existing content-addressed chunk bytes differ")
  | none => writeChunkFile (env.chunkWrites chunkId) chunkId plaintext

def chunkIndex (metadata : ReplicaMetadata) (records : Map ChunkId ChunkRecord) :
    Map ChunkId (FileId × Nat) :=
  (records.filter fun chunkId _ => chunkId ∈ metadata.retainIds).map fun _ record =>
    (record.fileId, record.index)

/-- `sweep_directory`: files of retained chunks are never touched. -/
def sweep (removes : ChunkId → Bool) (records : Map ChunkId ChunkRecord) (disk : DurableStore) :
    DurableStore :=
  { disk with chunkFiles := disk.chunkFiles.filter fun chunkId _ =>
      records.contains chunkId || !removes chunkId }

/-- The atomic replacement of the snapshot; an error poisons the store. -/
def writeReplica (env : FileEnv) (generation : Nat) (metadata : ReplicaMetadata) :
    Action Error DurableStore Unit := fun disk =>
  match env.replicaWrite with
  | .written =>
    (.ok (), { disk with generation, replicaFile := some (generation, metadata) })
  | .failed true =>
    (.error .io, { disk with failed := true, replicaFile := some (generation, metadata) })
  | .failed false => (.error .io, { disk with failed := true })

/-- The snapshot that is stored for `metadata`, and the chunks kept with it. -/
def persist [Crypto.Primitives] (env : FileEnv) (metadata : ReplicaMetadata)
    (records : Map ChunkId ChunkRecord) :
    Action Error DurableStore (ReplicaMetadata × Map ChunkId ChunkRecord) := do
  let disk ← Action.get
  Action.require (disk.failed = false) (.state "durable store is poisoned")
  Action.require (metadata.expectedRoot = disk.expectedRoot)
    (.invalidInput "replica root differs from open store")
  let staged := { metadata with chunkIndex := chunkIndex metadata records }
  Action.require (∀ chunkId ∈ staged.queuedIds, records.contains chunkId = true)
    (.state "mailbox references a missing plaintext chunk")
  let generation ← Action.ofExcept
    (checkedAdd disk.generation 1 (.state "replica generation exhausted"))
  let encoded ← Action.ofExcept (encodeReplica staged generation)
  Action.require (encoded.length ≤ maxStoreBytes) (.invalidInput "replica snapshot is too large")
  writeReplica env generation staged
  let kept := records.filter fun chunkId _ => chunkId ∈ metadata.retainIds
  Action.modify fun disk => disk.sweep env.sweeps kept
  pure (staged, kept)

/-- The records that a snapshot indexes and whose files still hold their bytes. -/
def readRecords [Crypto.Primitives] (metadata : ReplicaMetadata) (files : Map ChunkId Bytes) :
    Map ChunkId ChunkRecord :=
  (metadata.chunkIndex.filter fun chunkId _ => chunkId ∈ metadata.retainIds).filterMap
    fun chunkId slot =>
      match files[chunkId]? with
      | none => none
      | some plaintext =>
        if plaintext.length ≤ maxChunkBytes ∧
            Encoding.chunkId slot.1 slot.2 plaintext = chunkId then
          some { fileId := slot.1, index := slot.2, plaintext }
        else none

/-- `DurableStore::open`, with the snapshot it found. A cleanup that fails is
an error here. -/
def «open» [Crypto.Primitives] (env : FileEnv) (expectedRoot : FileId) (disk : DurableStore) :
    Result (DurableStore × Option ReplicaMetadata × ChunkStore) := do
  ensure (env.reads = true) .io
  match disk.replicaFile with
  | none =>
    pure ({ disk with generation := 0, expectedRoot, failed := false }.sweep (fun _ => true) ∅, none,
      { records := ∅, metadata := none })
  | some (generation, written) =>
    ensure (written.expectedRoot = expectedRoot)
      (.state "replica belongs to a different vault root")
    let metadata ← written.reread
    let records := readRecords metadata disk.chunkFiles
    ensure (∀ chunkId ∈ metadata.queuedIds, records.contains chunkId = true)
      (.state "mailbox references an unavailable plaintext chunk")
    pure ({ disk with generation, expectedRoot, failed := false }.sweep (fun _ => true) records,
      some metadata, { records, metadata := some metadata })

end DurableStore

namespace ChunkStore

def get (store : ChunkStore) (chunkId : ChunkId) : Option Bytes :=
  store.records[chunkId]?.map ChunkRecord.plaintext

def removeFile (store : ChunkStore) (fileId : FileId) : ChunkStore where
  records := store.records.filter fun _ record => record.fileId ≠ fileId
  metadata := store.metadata.map fun metadata => { metadata with
    chunkIndex := metadata.chunkIndex.filter fun _ slot => slot.1 ≠ fileId }

/-- Store one plaintext under its content address, on disk first. -/
def put [Crypto.Primitives] (env : FileEnv) (fileId : FileId) (index : Nat) (plaintext : Bytes) :
    Action Error (Option DurableStore × ChunkStore) ChunkId := fun (disk, store) =>
  let chunkId := Encoding.chunkId fileId index plaintext
  let stored : ChunkStore := { store with
    records := store.records.insert chunkId { fileId, index, plaintext } }
  if store.records.contains chunkId then (.ok chunkId, disk, store)
  else match disk with
    | none => (.ok chunkId, none, stored)
    | some disk =>
      match DurableStore.writeChunk env chunkId plaintext disk with
      | (.ok (), disk) => (.ok chunkId, some disk, stored)
      | (.error error, disk) => (.error error, some disk, store)

def persistMetadata [Crypto.Primitives] (env : FileEnv) (metadata : ReplicaMetadata) :
    Action Error (Option DurableStore × ChunkStore) Unit := fun (disk, store) =>
  match disk with
  | none => (.ok (), none, { store with metadata := some metadata })
  | some disk =>
    match DurableStore.persist env metadata store.records disk with
    | (.ok (staged, kept), disk) => (.ok (), some disk, { records := kept, metadata := some staged })
    | (.error error, disk) => (.error error, some disk, store)

/-- With a vault file beside the snapshot; both are replaced together. -/
def persistMetadataWithAdmission [Crypto.Primitives] (env : FileEnv)
    (metadata : ReplicaMetadata) : Action Error (Option DurableStore × ChunkStore) Unit :=
  fun (disk, store) =>
    match disk, env.replicaWrite with
    | none, .written => (.ok (), none, { store with metadata := some metadata })
    | none, .failed _ => (.error .io, none, store)
    | some disk, _ => persistMetadata env metadata (some disk, store)

end ChunkStore

/-- The snapshot as it is stored, with the slots of its chunks. -/
def snapshotOf (metadata : ReplicaMetadata) (records : Map ChunkId ChunkRecord) :
    ReplicaMetadata :=
  { metadata with chunkIndex := DurableStore.chunkIndex metadata records }

def retained (metadata : ReplicaMetadata) (records : Map ChunkId ChunkRecord) :
    Map ChunkId ChunkRecord :=
  records.filter fun chunkId _ => chunkId ∈ metadata.retainIds

structure Saved (before after : DurableStore) (metadata : ReplicaMetadata)
    (records : Map ChunkId ChunkRecord) : Prop where
  alive : before.failed = false
  stillAlive : after.failed = false
  tree : ∃ tree, DirectoryTree.fromDirents metadata.expectedRoot metadata.dirents = .ok tree
  root : after.expectedRoot = before.expectedRoot
  sameRoot : metadata.expectedRoot = before.expectedRoot
  queued : ∀ chunkId ∈ metadata.queuedIds, records.contains chunkId = true
  file : after.replicaFile = some (after.generation, snapshotOf metadata records)
  files : ∀ chunkId : ChunkId, (retained metadata records).contains chunkId = true →
    after.chunkFiles[chunkId]? = before.chunkFiles[chunkId]?

/-- The replacement reported an error: it may have happened or not. -/
structure Spoiled (before after : DurableStore) (metadata : ReplicaMetadata)
    (records : Map ChunkId ChunkRecord) : Prop where
  alive : before.failed = false
  poisoned : after.failed = true
  tree : ∃ tree, DirectoryTree.fromDirents metadata.expectedRoot metadata.dirents = .ok tree
  root : after.expectedRoot = before.expectedRoot
  sameRoot : metadata.expectedRoot = before.expectedRoot
  queued : ∀ chunkId ∈ metadata.queuedIds, records.contains chunkId = true
  file : after.replicaFile = before.replicaFile ∨
    ∃ generation, after.replicaFile = some (generation, snapshotOf metadata records)
  files : after.chunkFiles = before.chunkFiles

structure Stocked (before after : DurableStore) : Prop where
  root : after.expectedRoot = before.expectedRoot
  generation : after.generation = before.generation
  replica : after.replicaFile = before.replicaFile
  alive : after.failed = false → before.failed = false
  files : ∀ (chunkId : ChunkId) (bytes : Bytes), before.chunkFiles[chunkId]? = some bytes →
    after.chunkFiles[chunkId]? = some bytes

theorem Stocked.refl (disk : Option DurableStore) : Option.Rel Stocked disk disk := by
  cases disk with
  | none => exact .none
  | some disk => exact .some ⟨rfl, rfl, rfl, id, fun _ _ h => h⟩

theorem Stocked.trans {before middle after : Option DurableStore}
    (first : Option.Rel Stocked before middle) (second : Option.Rel Stocked middle after) :
    Option.Rel Stocked before after := by
  cases first with
  | none =>
    cases second
    exact .none
  | some first =>
    cases second with
    | some second =>
      exact .some ⟨second.root.trans first.root, second.generation.trans first.generation,
        second.replica.trans first.replica, fun alive => first.alive (second.alive alive),
        fun id bytes h => second.files id bytes (first.files id bytes h)⟩

variable [Crypto.Primitives]

theorem DurableStore.persist_outcome (env : FileEnv) (metadata : ReplicaMetadata)
    (records : Map ChunkId ChunkRecord) (disk : DurableStore) :
    Action.Ensures (DurableStore.persist env metadata records) disk fun r after =>
      match r with
      | .ok (staged, kept) => staged = snapshotOf metadata records ∧
          kept = retained metadata records ∧ Saved disk after metadata records
      | .error _ => after = disk ∨ Spoiled disk after metadata records := by
  unfold DurableStore.persist
  refine .get ?_
  refine .require (fun _ => .inl rfl) fun alive => ?_
  refine .require (fun _ => .inl rfl) fun sameRoot => ?_
  refine .require (fun _ => .inl rfl) fun queued => ?_
  refine .ofExcept (fun _ _ => .inl rfl) fun generation _ => ?_
  refine .ofExcept (fun _ _ => .inl rfl) fun encoded isEncoded => ?_
  have tree := fromDirents_of_encodeReplica isEncoded
  refine .require (fun _ => .inl rfl) fun _ => ?_
  apply Action.Ensures.bind
  unfold DurableStore.writeReplica Action.Ensures
  split
  · refine ⟨rfl, rfl, alive, alive, tree, rfl, sameRoot, queued, rfl, fun chunkId kept => ?_⟩
    change (disk.chunkFiles.filter _)[chunkId]? = _
    rw [Map.get_filter]
    have keeps : (records.filter fun chunkId _ => decide (chunkId ∈ metadata.retainIds)).contains
        chunkId = true := kept
    simp only [keeps, Bool.true_or]
    cases disk.chunkFiles[chunkId]? <;> rfl
  · exact .inr ⟨alive, rfl, tree, rfl, sameRoot, queued, .inr ⟨generation, rfl⟩, rfl⟩
  · exact .inr ⟨alive, rfl, tree, rfl, sameRoot, queued, .inl rfl, rfl⟩

/-- What persisting does to the directory and the chunks, with or without one. -/
inductive PersistOutcome (metadata : ReplicaMetadata) (store : ChunkStore) :
    Option DurableStore → Result Unit → Option DurableStore × ChunkStore → Prop
  | kept {next : ChunkStore} : next.records = store.records →
      PersistOutcome metadata store none (.ok ()) (none, next)
  | saved {before after : DurableStore} {next : ChunkStore} :
      next.records = retained metadata store.records →
      Saved before after metadata store.records →
      PersistOutcome metadata store (some before) (.ok ()) (some after, next)
  | refused {disk : Option DurableStore} {next : ChunkStore} (error : Error) :
      PersistOutcome metadata store disk (.error error) (disk, next)
  | spoiled {before after : DurableStore} {next : ChunkStore} (error : Error) :
      Spoiled before after metadata store.records →
      PersistOutcome metadata store (some before) (.error error) (some after, next)

theorem ChunkStore.persistMetadata_outcome (env : FileEnv) (metadata : ReplicaMetadata)
    (disk : Option DurableStore) (store : ChunkStore) :
    Action.Ensures (ChunkStore.persistMetadata env metadata) (disk, store)
      (PersistOutcome metadata store disk) := by
  unfold Action.Ensures ChunkStore.persistMetadata
  cases disk with
  | none => exact .kept rfl
  | some disk =>
    have h := DurableStore.persist_outcome env metadata store.records disk
    unfold Action.Ensures at h
    dsimp only
    generalize DurableStore.persist env metadata store.records disk = outcome at h ⊢
    obtain ⟨r, after⟩ := outcome
    cases r with
    | ok result =>
      obtain ⟨_, kept, saved⟩ := h
      exact .saved kept saved
    | error e =>
      obtain same | spoiled := h
      · dsimp only at same ⊢
        rw [same]
        exact .refused e
      · exact .spoiled e spoiled

theorem ChunkStore.persistMetadataWithAdmission_outcome (env : FileEnv)
    (metadata : ReplicaMetadata) (disk : Option DurableStore) (store : ChunkStore) :
    Action.Ensures (ChunkStore.persistMetadataWithAdmission env metadata) (disk, store)
      (PersistOutcome metadata store disk) := by
  cases disk with
  | none =>
    unfold Action.Ensures ChunkStore.persistMetadataWithAdmission
    cases env.replicaWrite with
    | written => exact .kept rfl
    | failed _ => exact .refused .io
  | some disk => exact ChunkStore.persistMetadata_outcome env metadata (some disk) store

omit [Crypto.Primitives] in
private theorem stocked_insert {disk : DurableStore} {chunkId : ChunkId} (plaintext : Bytes)
    (missing : disk.chunkFiles[chunkId]? = none) (failed : Bool)
    (alive : failed = false → disk.failed = false) :
    Stocked disk { disk with failed, chunkFiles := disk.chunkFiles.insert chunkId plaintext } where
  root := rfl
  generation := rfl
  replica := rfl
  alive := alive
  files := fun other bytes found => by
    rw [Map.get_insert_ne _ _ fun same => by rw [← same, missing] at found; cases found]
    exact found

omit [Crypto.Primitives] in
theorem DurableStore.writeChunk_outcome (env : FileEnv) (chunkId : ChunkId) (plaintext : Bytes)
    (disk : DurableStore) :
    Action.Ensures (DurableStore.writeChunk env chunkId plaintext) disk fun r after =>
      Stocked disk after ∧ (r = .ok () → after.chunkFiles[chunkId]? = some plaintext ∧
        plaintext.length ≤ maxChunkBytes) := by
  have same : Stocked disk disk := ⟨rfl, rfl, rfl, id, fun _ _ h => h⟩
  unfold DurableStore.writeChunk
  refine .require (fun _ => ⟨same, nofun⟩) fun small => .get ?_
  refine .require (fun _ => ⟨same, nofun⟩) fun alive => ?_
  split
  · rename_i existing found
    unfold Action.Ensures Action.require
    split
    · rename_i equal
      exact ⟨same, fun _ => ⟨equal ▸ found, small⟩⟩
    · exact ⟨same, nofun⟩
  · rename_i missing
    unfold Action.Ensures DurableStore.writeChunkFile
    split
    · refine ⟨stocked_insert plaintext missing disk.failed id, fun _ => ⟨?_, small⟩⟩
      rw [Map.get_insert, if_pos rfl]
    · exact ⟨stocked_insert plaintext missing true nofun, nofun⟩
    · exact ⟨⟨rfl, rfl, rfl, nofun, fun _ _ h => h⟩, nofun⟩

theorem ChunkStore.put_outcome (env : FileEnv) (fileId : FileId) (index : Nat) (plaintext : Bytes)
    (disk : Option DurableStore) (store : ChunkStore) :
    Action.Ensures (ChunkStore.put env fileId index plaintext) (disk, store) fun r after =>
      Option.Rel Stocked disk after.1 ∧ (after.2 = store ∨
        (store.records[chunkId fileId index plaintext]? = none ∧
          (∀ files ∈ after.1.map DurableStore.chunkFiles,
            files[chunkId fileId index plaintext]? = some plaintext ∧
              plaintext.length ≤ maxChunkBytes) ∧
          after.2.records = store.records.insert (chunkId fileId index plaintext)
            { fileId, index, plaintext })) ∧
        (∀ id, r = .ok id → after.2.records.contains (chunkId fileId index plaintext) = true) := by
  unfold Action.Ensures ChunkStore.put
  dsimp only
  split
  · rename_i stored
    exact ⟨Stocked.refl disk, .inl rfl, fun _ _ => stored⟩
  rename_i unknown
  have missing : store.records[chunkId fileId index plaintext]? = none := by
    cases get : store.records[chunkId fileId index plaintext]? with
    | none => rfl
    | some record => exact absurd ((Map.contains_iff_get _ _).mpr ⟨record, get⟩) unknown
  have contained : (store.records.insert (chunkId fileId index plaintext)
      (⟨fileId, index, plaintext⟩ : ChunkRecord)).contains (chunkId fileId index plaintext) = true :=
    (Map.contains_iff_get _ _).mpr ⟨_, by rw [Map.get_insert, if_pos rfl]⟩
  cases disk with
  | none => exact ⟨.none, .inr ⟨missing, nofun, rfl⟩, fun _ _ => contained⟩
  | some disk =>
    have written := DurableStore.writeChunk_outcome env (chunkId fileId index plaintext) plaintext disk
    unfold Action.Ensures at written
    dsimp only
    generalize DurableStore.writeChunk env (chunkId fileId index plaintext) plaintext disk = outcome
      at written
    obtain ⟨r, after⟩ := outcome
    cases r with
    | ok _ =>
      refine ⟨.some written.1, .inr ⟨missing, fun files isFiles => ?_, rfl⟩, fun _ _ => contained⟩
      obtain rfl := Option.some.inj isFiles
      exact written.2 rfl
    | error e => exact ⟨.some written.1, .inl rfl, nofun⟩

theorem DurableStore.open_eq_ok {env : FileEnv} {disk opened : DurableStore} {root : FileId}
    {stored : Option ReplicaMetadata} {chunks : ChunkStore}
    (h : disk.open env root = .ok (opened, stored, chunks)) :
    disk.replicaFile.mapM (fun file => file.2.reread) = .ok stored ∧ opened.replicaFile = disk.replicaFile ∧
      chunks.metadata = stored := by
  unfold DurableStore.open at h
  obtain ⟨_, _, h⟩ := Result.bind_eq_ok.mp h
  cases file : disk.replicaFile with
  | none =>
    rw [file] at h
    simp only [pure, Except.pure, Except.ok.injEq, Prod.mk.injEq] at h
    obtain ⟨rfl, rfl, rfl⟩ := h
    exact ⟨rfl, rfl, rfl⟩
  | some snapshot =>
    rw [file] at h
    obtain ⟨_, _, h⟩ := Result.bind_eq_ok.mp h
    obtain ⟨metadata, isRead, h⟩ := Result.bind_eq_ok.mp h
    obtain ⟨_, _, h⟩ := Result.bind_eq_ok.mp h
    simp only [pure, Except.pure, Except.ok.injEq, Prod.mk.injEq] at h
    obtain ⟨rfl, rfl, rfl⟩ := h
    exact ⟨congrArg (Except.map some) isRead, rfl, rfl⟩

end QuantumFs.Store
