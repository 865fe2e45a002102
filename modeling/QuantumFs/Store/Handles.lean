import QuantumFs.Lib.Machine
import QuantumFs.Store.Chunks
import QuantumFs.Encoding.Snapshot

/-! The chunk stores that share one data directory. A clone of a store is a handle
with its own records: its chunks are written to disk when it puts them, and every
snapshot sweeps the files of the chunks that its own handle does not keep. -/
namespace QuantumFs.Store

open Lib Encoding

/-- `DurableStore::open` on the bytes of `replica.bin`. -/
def DurableStore.openBytes [Crypto.Primitives] (env : FileEnv) (expectedRoot : FileId) (bytes : Bytes)
    (disk : DurableStore) : Result (DurableStore × Option ReplicaMetadata × ChunkStore) := do
  ensure (env.reads = true) .io
  let (generation, metadata) ← decodeReplica bytes expectedRoot
  let records := readRecords metadata disk.chunkFiles
  ensure (∀ chunkId ∈ metadata.queuedIds, records.contains chunkId = true)
    (.state "mailbox references an unavailable plaintext chunk")
  pure ({ disk with generation, expectedRoot, failed := false }.sweep (fun _ => true) records,
    some metadata, { records, metadata := some metadata })

theorem DurableStore.open_eq_openBytes [Crypto.Primitives] {env : FileEnv} {disk : DurableStore}
    {generation : Nat} {written : ReplicaMetadata} {bytes : Bytes} (root : FileId)
    (isFile : disk.replicaFile = some (generation, written)) (fits : ReplicaFits written)
    (small : generation ≤ u64Max) (encoded : encodeReplica written generation = .ok bytes) :
    disk.open env root = disk.openBytes env root bytes := by
  unfold DurableStore.open openBytes
  rw [isFile, decodeReplica_written fits small encoded]
  dsimp only
  unfold ensure
  by_cases same : written.expectedRoot = root
  · rw [if_pos same]
    cases written.reread <;> rfl
  · rw [if_neg same]
    rfl

/-- One data directory, the handles on it, and what a start is expected to find there. -/
structure Handles where
  disk : DurableStore
  stores : List ChunkStore
  /-- The last snapshot that was completely persisted. -/
  persisted : Option ReplicaMetadata
  /-- The snapshot whose replacement failed or was interrupted. -/
  writing : Option ReplicaMetadata

/-- A crash during an operation is the operation with an error, followed by a start. -/
inductive HandleOp where
  | put (env : FileEnv) (handle : Nat) (fileId : FileId) (index : Nat) (plaintext : Bytes)
  | removeFile (handle : Nat) (fileId : FileId)
  | persist (env : FileEnv) (handle : Nat) (metadata : ReplicaMetadata)
  | persistWithAdmission (env : FileEnv) (handle : Nat) (metadata : ReplicaMetadata)
  | clone (handle : Nat)
  | drop (handle : Nat)
  | «open» (env : FileEnv)
  /-- A start that stops before its cleanup is complete. -/
  | openStopped (sweeps : ChunkId → Bool)

namespace Handles

def onHandle {α : Type} (handle : Nat) (x : Action Error (Option DurableStore × ChunkStore) α)
    (handles : Handles) : Option (Result α × Handles) :=
  match handles.stores[handle]? with
  | none => none
  | some store =>
    match x (some handles.disk, store) with
    | (r, disk, store) => some (r, { handles with
        disk := disk.getD handles.disk
        stores := handles.stores.set handle store })

/-- What is expected of the next start after a snapshot was to be stored. -/
def noteSnapshot (before : Handles) (handle : Nat) (metadata : ReplicaMetadata) :
    Result Unit × Handles → Handles
  | (.ok _, after) => { after with
      persisted := before.stores[handle]?.map fun store => snapshotOf metadata store.records
      writing := none }
  | (.error _, after) =>
    if before.disk.failed = true then after
    else { after with
      writing := before.stores[handle]?.map fun store => snapshotOf metadata store.records }

variable [Crypto.Primitives]

def foundRecords (disk : DurableStore) : Map ChunkId ChunkRecord :=
  match disk.replicaFile with
  | none => ∅
  | some (_, metadata) => DurableStore.readRecords metadata disk.chunkFiles

def exec : HandleOp → Handles → Handles
  | .put env handle fileId index plaintext, handles =>
    ((onHandle handle (ChunkStore.put env fileId index plaintext) handles).map Prod.snd).getD handles
  | .removeFile handle fileId, handles =>
    { handles with stores := handles.stores.modify handle (·.removeFile fileId) }
  | .persist env handle metadata, handles =>
    ((onHandle handle (ChunkStore.persistMetadata env metadata) handles).map
      (noteSnapshot handles handle metadata)).getD handles
  | .persistWithAdmission env handle metadata, handles =>
    ((onHandle handle (ChunkStore.persistMetadataWithAdmission env metadata) handles).map
      (noteSnapshot handles handle metadata)).getD handles
  | .clone handle, handles => { handles with stores := handles.stores ++ handles.stores[handle]?.toList }
  | .drop handle, handles => { handles with stores := handles.stores.eraseIdx handle }
  | .open env, handles =>
    match handles.disk.open env handles.disk.expectedRoot with
    | .ok (disk, _, chunks) => { disk, stores := [chunks],
                                 persisted := handles.disk.replicaFile.map Prod.snd, writing := none }
    | .error _ => { handles with stores := [] }
  | .openStopped sweeps, handles =>
    -- A snapshot that does not decode stops the start before its cleanup.
    match handles.disk.replicaFile.mapM fun file => file.2.reread with
    | .ok _ => { handles with
        disk := handles.disk.sweep sweeps (foundRecords handles.disk)
        stores := [] }
    | .error _ => { handles with stores := [] }

def machine : Machine Handles HandleOp := ⟨exec⟩

def Addressed (chunkId : ChunkId) (record : ChunkRecord) : Prop :=
  record.plaintext.length ≤ maxChunkBytes ∧
    Encoding.chunkId record.fileId record.index record.plaintext = chunkId

/-- Every chunk that the snapshot indexes has its file, and so have those in mailboxes. -/
structure Backed (metadata : ReplicaMetadata) (files : Map ChunkId Bytes) : Prop where
  indexed : ∀ (chunkId : ChunkId) (slot : FileId × Nat), metadata.chunkIndex[chunkId]? = some slot →
    chunkId ∈ metadata.retainIds ∧ ∃ bytes, files[chunkId]? = some bytes ∧
      Addressed chunkId ⟨slot.1, slot.2, bytes⟩
  queued : ∀ chunkId ∈ metadata.queuedIds, ∃ slot, metadata.chunkIndex[chunkId]? = some slot

structure Sound (handles : Handles) : Prop where
  readable : ∀ snapshot ∈ handles.disk.replicaFile, snapshot.2.reread = .ok snapshot.2.rooted
  root : ∀ snapshot ∈ handles.disk.replicaFile, snapshot.2.expectedRoot = handles.disk.expectedRoot
  backed : ∀ snapshot ∈ handles.disk.replicaFile, Backed snapshot.2 handles.disk.chunkFiles
  records : ∀ store ∈ handles.stores, ∀ (chunkId : ChunkId) (record : ChunkRecord),
    store.records[chunkId]? = some record → Addressed chunkId record
  settled : handles.disk.failed = false →
    handles.disk.replicaFile.map Prod.snd = handles.persisted
  torn : handles.disk.replicaFile.map Prod.snd = handles.persisted ∨
    handles.disk.replicaFile.map Prod.snd = handles.writing

/-- A start succeeds, finds the last complete snapshot or the one that was being
written, and takes over exactly the chunks it indexes, each with its file and its
hash. No other file is left. It reads the same from the bytes of the snapshot. -/
def Recoverable (handles : Handles) : Prop :=
  ∀ env : FileEnv, env.reads = true → ∃ opened stored chunks,
    handles.disk.open env handles.disk.expectedRoot = .ok (opened, stored, chunks) ∧
    (stored = handles.persisted.map ReplicaMetadata.rooted ∨
      stored = handles.writing.map ReplicaMetadata.rooted) ∧
    (∀ metadata ∈ stored, (∀ (chunkId : ChunkId) (slot : FileId × Nat),
        metadata.chunkIndex[chunkId]? = some slot → ∃ bytes,
          opened.chunkFiles[chunkId]? = some bytes ∧
          Encoding.chunkId slot.1 slot.2 bytes = chunkId ∧
          chunks.records[chunkId]? = some ⟨slot.1, slot.2, bytes⟩) ∧
      ∀ chunkId ∈ metadata.queuedIds, chunks.records.contains chunkId = true) ∧
    (∀ (chunkId : ChunkId) (record : ChunkRecord), chunks.records[chunkId]? = some record →
      ∃ metadata ∈ stored, metadata.chunkIndex[chunkId]? = some (record.fileId, record.index)) ∧
    (∀ (chunkId : ChunkId) (bytes : Bytes), opened.chunkFiles[chunkId]? = some bytes →
      chunks.records[chunkId]?.map ChunkRecord.plaintext = some bytes) ∧
    ∀ (generation : Nat) (written : ReplicaMetadata) (bytes : Bytes),
      handles.disk.replicaFile = some (generation, written) → ReplicaFits written →
      generation ≤ u64Max → encodeReplica written generation = .ok bytes →
      handles.disk.openBytes env handles.disk.expectedRoot bytes = .ok (opened, stored, chunks)

omit [Crypto.Primitives] in
theorem chunkIndex_eq_some {metadata : ReplicaMetadata} {records : Map ChunkId ChunkRecord}
    {chunkId : ChunkId} {slot : FileId × Nat} :
    (snapshotOf metadata records).chunkIndex[chunkId]? = some slot ↔
      ∃ record, (retained metadata records)[chunkId]? = some record ∧
        (record.fileId, record.index) = slot := by
  change ((records.filter _).map _)[chunkId]? = some slot ↔ _
  rw [Map.get_map, Option.map_eq_some_iff]
  rfl

omit [Crypto.Primitives] in
theorem retained_eq_some {metadata : ReplicaMetadata} {records : Map ChunkId ChunkRecord}
    {chunkId : ChunkId} {record : ChunkRecord} :
    (retained metadata records)[chunkId]? = some record ↔
      records[chunkId]? = some record ∧ chunkId ∈ metadata.retainIds := by
  unfold retained
  rw [Map.get_filter, Option.filter_eq_some_iff, decide_eq_true_eq]

/-- The chunks that a snapshot would index still have the bytes of their records on disk. -/
def Held (metadata : ReplicaMetadata) (records : Map ChunkId ChunkRecord)
    (files : Map ChunkId Bytes) : Prop :=
  ∀ entry ∈ (retained metadata records).toList, files[entry.1]? = some entry.2.plaintext

instance (metadata : ReplicaMetadata) (records : Map ChunkId ChunkRecord)
    (files : Map ChunkId Bytes) : Decidable (Held metadata records files) :=
  inferInstanceAs (Decidable (∀ entry ∈ _, _))

theorem Backed.of_held {metadata : ReplicaMetadata} {records : Map ChunkId ChunkRecord}
    {files : Map ChunkId Bytes}
    (addressed : ∀ (chunkId : ChunkId) (record : ChunkRecord), records[chunkId]? = some record →
      Addressed chunkId record)
    (queued : ∀ chunkId ∈ metadata.queuedIds, records.contains chunkId = true)
    (held : ∀ (chunkId : ChunkId) (record : ChunkRecord),
      (retained metadata records)[chunkId]? = some record → files[chunkId]? = some record.plaintext) :
    Backed (snapshotOf metadata records) files := by
  refine ⟨fun chunkId slot indexed => ?_, fun chunkId mem => ?_⟩
  · obtain ⟨record, kept, rfl⟩ := chunkIndex_eq_some.mp indexed
    obtain ⟨found, retains⟩ := retained_eq_some.mp kept
    exact ⟨retains, record.plaintext, held chunkId record kept, addressed chunkId record found⟩
  · obtain ⟨record, found⟩ := (Map.contains_iff_get _ _).mp (queued chunkId mem)
    have retains : chunkId ∈ metadata.retainIds := by
      unfold ReplicaMetadata.retainIds
      rw [OrdSet.mem_ofList]
      exact List.mem_append_right _ mem
    exact ⟨_, chunkIndex_eq_some.mpr ⟨record, retained_eq_some.mpr ⟨found, retains⟩, rfl⟩⟩

theorem readRecords_eq_some {metadata : ReplicaMetadata} {files : Map ChunkId Bytes}
    {chunkId : ChunkId} {record : ChunkRecord} :
    (DurableStore.readRecords metadata files)[chunkId]? = some record ↔
      metadata.chunkIndex[chunkId]? = some (record.fileId, record.index) ∧
        chunkId ∈ metadata.retainIds ∧ files[chunkId]? = some record.plaintext ∧
        Addressed chunkId record := by
  unfold DurableStore.readRecords Addressed
  rw [Map.get_filterMap, Map.get_filter, Option.bind_eq_some_iff]
  simp only [Option.filter_eq_some_iff, decide_eq_true_eq]
  constructor
  · rintro ⟨slot, ⟨indexed, retains⟩, read⟩
    split at read
    · cases read
    · rename_i plaintext file
      split at read
      · rename_i fits
        cases read
        exact ⟨indexed, retains, file, fits⟩
      · cases read
  · rintro ⟨indexed, retains, file, fits⟩
    refine ⟨_, ⟨indexed, retains⟩, ?_⟩
    rw [file]
    exact if_pos fits

theorem Backed.records {metadata : ReplicaMetadata} {files : Map ChunkId Bytes}
    (backed : Backed metadata files) {chunkId : ChunkId} {slot : FileId × Nat}
    (indexed : metadata.chunkIndex[chunkId]? = some slot) : ∃ bytes,
      files[chunkId]? = some bytes ∧ Addressed chunkId ⟨slot.1, slot.2, bytes⟩ ∧
        (DurableStore.readRecords metadata files)[chunkId]? = some ⟨slot.1, slot.2, bytes⟩ := by
  obtain ⟨retains, bytes, file, addressed⟩ := backed.indexed chunkId slot indexed
  exact ⟨bytes, file, addressed, readRecords_eq_some.mpr ⟨indexed, retains, file, addressed⟩⟩

omit [Crypto.Primitives] in
theorem reread_rooted {metadata : ReplicaMetadata} {tree : DirectoryTree}
    (loaded : DirectoryTree.fromDirents metadata.expectedRoot metadata.dirents = .ok tree)
    (distinct : ∀ admission ∈ metadata.admission, admission.members.Nodup) :
    metadata.reread = .ok metadata.rooted := by
  refine ReplicaMetadata.reread_eq_ok.mpr ⟨tree, loaded, distinct, ?_⟩
  unfold ReplicaMetadata.rooted
  by_cases absent : metadata.dirents = []
  · rw [DirectoryTree.fromDirents, if_pos absent] at loaded
    rw [if_pos absent, ← Except.ok.inj loaded]
    rfl
  · rw [if_neg absent, (DirectoryTree.dirents_of_fromDirents absent loaded).1]

theorem open_backed {env : FileEnv} {disk : DurableStore} (reads : env.reads = true)
    (readable : ∀ snapshot ∈ disk.replicaFile, snapshot.2.reread = .ok snapshot.2.rooted)
    (root : ∀ snapshot ∈ disk.replicaFile, snapshot.2.expectedRoot = disk.expectedRoot)
    (backed : ∀ snapshot ∈ disk.replicaFile, Backed snapshot.2 disk.chunkFiles) :
    ∃ generation chunks, disk.open env disk.expectedRoot =
      .ok ({ disk with generation, failed := false }.sweep (fun _ => true) (foundRecords disk),
        disk.replicaFile.map fun file => file.2.rooted, chunks) ∧ chunks.records = foundRecords disk := by
  unfold DurableStore.open foundRecords
  rw [show ensure (env.reads = true) Error.io = .ok () from ensure_eq_ok.mpr reads]
  cases file : disk.replicaFile with
  | none => exact ⟨0, _, rfl, rfl⟩
  | some snapshot =>
    obtain ⟨generation, metadata⟩ := snapshot
    rw [file] at readable root backed
    have queued : ∀ chunkId ∈ metadata.queuedIds,
        (DurableStore.readRecords metadata disk.chunkFiles).contains chunkId = true := by
      intro chunkId mem
      obtain ⟨slot, indexed⟩ := (backed _ rfl).queued chunkId mem
      obtain ⟨bytes, _, _, found⟩ := (backed _ rfl).records indexed
      exact (Map.contains_iff_get _ _).mpr ⟨_, found⟩
    refine ⟨generation, ⟨DurableStore.readRecords metadata disk.chunkFiles, some metadata.rooted⟩, ?_, rfl⟩
    refine Result.bind_eq_ok.mpr ⟨(), rfl, ?_⟩
    refine Result.bind_eq_ok.mpr ⟨(), ensure_eq_ok.mpr (root _ rfl), ?_⟩
    refine Result.bind_eq_ok.mpr ⟨_, readable _ rfl, ?_⟩
    exact Result.bind_eq_ok.mpr ⟨(), ensure_eq_ok.mpr queued, rfl⟩

omit [Crypto.Primitives] in
theorem get_sweep {disk : DurableStore} {sweeps : ChunkId → Bool}
    {records : Map ChunkId ChunkRecord} {chunkId : ChunkId} {record : ChunkRecord}
    (kept : records[chunkId]? = some record) :
    (disk.sweep sweeps records).chunkFiles[chunkId]? = disk.chunkFiles[chunkId]? := by
  change (disk.chunkFiles.filter _)[chunkId]? = _
  rw [Map.get_filter]
  have keeps : records.contains chunkId = true := (Map.contains_iff_get _ _).mpr ⟨record, kept⟩
  simp only [keeps, Bool.true_or]
  cases disk.chunkFiles[chunkId]? <;> rfl

theorem backed_sweep {metadata : ReplicaMetadata} {disk : DurableStore} {generation : Nat}
    (isFile : disk.replicaFile = some (generation, metadata))
    (backed : Backed metadata disk.chunkFiles) (sweeps : ChunkId → Bool) :
    Backed metadata (disk.sweep sweeps (foundRecords disk)).chunkFiles := by
  refine ⟨fun chunkId slot indexed => ?_, backed.queued⟩
  obtain ⟨bytes, file, addressed, found⟩ := backed.records indexed
  have kept : (foundRecords disk)[chunkId]? = some ⟨slot.1, slot.2, bytes⟩ := by
    unfold foundRecords
    rw [isFile]
    exact found
  exact ⟨(backed.indexed chunkId slot indexed).1, bytes, (get_sweep kept).trans file, addressed⟩

theorem foundRecords_eq_some {disk : DurableStore} {chunkId : ChunkId} {record : ChunkRecord}
    (found : (foundRecords disk)[chunkId]? = some record) :
    disk.chunkFiles[chunkId]? = some record.plaintext ∧ Addressed chunkId record ∧
      ∃ metadata ∈ disk.replicaFile.map Prod.snd,
        metadata.chunkIndex[chunkId]? = some (record.fileId, record.index) := by
  unfold foundRecords at found
  split at found
  · rw [show (∅ : Map ChunkId ChunkRecord)[chunkId]? = none from Std.ExtTreeMap.getElem?_empty] at found
    cases found
  · rename_i generation metadata isFile
    obtain ⟨indexed, _, file, addressed⟩ := readRecords_eq_some.mp found
    rw [isFile]
    exact ⟨file, addressed, metadata, rfl, indexed⟩

variable {handles : Handles}

theorem Sound.recoverable (sound : Sound handles) : Recoverable handles := by
  intro env reads
  obtain ⟨generation, chunks, opened, records⟩ :=
    open_backed reads sound.readable sound.root sound.backed
  have torn := sound.torn.imp (congrArg (Option.map ReplicaMetadata.rooted))
    (congrArg (Option.map ReplicaMetadata.rooted))
  rw [Option.map_map] at torn
  refine ⟨_, _, chunks, opened, torn, fun metadata isStored => ?_, ?_, ?_,
    fun _ _ _ isFile fits small encoded => ?_⟩
  · obtain ⟨⟨generation, same⟩, isFile, rfl⟩ := Option.map_eq_some_iff.mp isStored
    have backed := sound.backed _ isFile
    have found : ∀ (chunkId : ChunkId) (slot : FileId × Nat), same.chunkIndex[chunkId]? = some slot →
        ∃ bytes, handles.disk.chunkFiles[chunkId]? = some bytes ∧
          Addressed chunkId ⟨slot.1, slot.2, bytes⟩ ∧
          (foundRecords handles.disk)[chunkId]? = some ⟨slot.1, slot.2, bytes⟩ := by
      intro chunkId slot indexed
      obtain ⟨bytes, file, addressed, found⟩ := backed.records indexed
      refine ⟨bytes, file, addressed, ?_⟩
      unfold foundRecords
      rw [isFile]
      exact found
    refine ⟨fun chunkId slot indexed => ?_, fun chunkId mem => ?_⟩
    · obtain ⟨bytes, file, addressed, found⟩ := found chunkId slot indexed
      exact ⟨bytes, (get_sweep found).trans file, addressed.2, records ▸ found⟩
    · obtain ⟨slot, indexed⟩ := backed.queued chunkId mem
      obtain ⟨bytes, _, _, found⟩ := found chunkId slot indexed
      exact (Map.contains_iff_get _ _).mpr ⟨_, records ▸ found⟩
  · intro chunkId record found
    rw [records] at found
    obtain ⟨-, -, metadata, isWritten, indexed⟩ := foundRecords_eq_some found
    obtain ⟨file, isFile, rfl⟩ := Option.map_eq_some_iff.mp isWritten
    exact ⟨_, Option.map_eq_some_iff.mpr ⟨file, isFile, rfl⟩, indexed⟩
  · intro chunkId bytes file
    rw [records]
    change (handles.disk.chunkFiles.filter _)[chunkId]? = _ at file
    rw [Map.get_filter, Option.filter_eq_some_iff] at file
    obtain ⟨file, keeps⟩ := file
    rw [Bool.not_true, Bool.or_false] at keeps
    obtain ⟨record, found⟩ := (Map.contains_iff_get _ _).mp keeps
    rw [found, Option.map_some, ← (foundRecords_eq_some found).1, file]
  · rw [← DurableStore.open_eq_openBytes _ isFile fits small encoded, opened]

/-- No snapshot is stored whose admission record names a member twice, or that would index
a chunk whose file another handle has swept. -/
def Restorable (handles : Handles) : HandleOp → Prop
  | .persist _ handle metadata | .persistWithAdmission _ handle metadata =>
    handles.disk.failed = false → ∀ store ∈ handles.stores[handle]?,
      (∀ admission ∈ metadata.admission, admission.members.Nodup) ∧
        Held metadata store.records handles.disk.chunkFiles
  | _ => True

instance (handles : Handles) : (op : HandleOp) → Decidable (Restorable handles op)
  | .persist _ handle metadata | .persistWithAdmission _ handle metadata =>
    inferInstanceAs (Decidable (handles.disk.failed = false → ∀ store ∈ handles.stores[handle]?,
      (∀ admission ∈ metadata.admission, admission.members.Nodup) ∧
        Held metadata store.records handles.disk.chunkFiles))
  | .put .. | .removeFile .. | .clone _ | .drop _ | .open _ | .openStopped _ => .isTrue trivial

omit [Crypto.Primitives] in
theorem onHandle_eq_some {α : Type} {handle : Nat} {after : Result α × Handles}
    {x : Action Error (Option DurableStore × ChunkStore) α} (h : onHandle handle x handles = some after) :
    ∃ store, handles.stores[handle]? = some store ∧
      after = ((x (some handles.disk, store)).1, { handles with
        disk := (x (some handles.disk, store)).2.1.getD handles.disk
        stores := handles.stores.set handle (x (some handles.disk, store)).2.2 }) := by
  unfold onHandle at h
  split at h
  · cases h
  · rename_i store found
    exact ⟨store, found, (Option.some.inj h).symm⟩

/-- What a start needs to take over a snapshot from the directory. -/
structure Restores (disk : DurableStore) (metadata : ReplicaMetadata) : Prop where
  readable : metadata.reread = .ok metadata.rooted
  root : metadata.expectedRoot = disk.expectedRoot
  backed : Backed metadata disk.chunkFiles

theorem Sound.restores (sound : Sound handles) : ∀ snapshot ∈ handles.disk.replicaFile,
    Restores handles.disk snapshot.2 :=
  fun snapshot isFile => ⟨sound.readable snapshot isFile, sound.root snapshot isFile, sound.backed snapshot isFile⟩

theorem Sound.of_restores
    (restores : ∀ snapshot ∈ handles.disk.replicaFile, Restores handles.disk snapshot.2)
    (records : ∀ store ∈ handles.stores, ∀ (chunkId : ChunkId) (record : ChunkRecord),
      store.records[chunkId]? = some record → Addressed chunkId record)
    (settled : handles.disk.failed = false → handles.disk.replicaFile.map Prod.snd = handles.persisted)
    (torn : handles.disk.replicaFile.map Prod.snd = handles.persisted ∨
      handles.disk.replicaFile.map Prod.snd = handles.writing) : Sound handles where
  readable := fun snapshot isFile => (restores snapshot isFile).readable
  root := fun snapshot isFile => (restores snapshot isFile).root
  backed := fun snapshot isFile => (restores snapshot isFile).backed
  records := records
  settled := settled
  torn := torn

theorem Restores.of_held {metadata : ReplicaMetadata} {records : Map ChunkId ChunkRecord} {disk : DurableStore}
    (addressed : ∀ (chunkId : ChunkId) (record : ChunkRecord), records[chunkId]? = some record →
      Addressed chunkId record)
    (tree : ∃ tree, DirectoryTree.fromDirents metadata.expectedRoot metadata.dirents = .ok tree)
    (root : metadata.expectedRoot = disk.expectedRoot)
    (queued : ∀ chunkId ∈ metadata.queuedIds, records.contains chunkId = true)
    (distinct : ∀ admission ∈ metadata.admission, admission.members.Nodup)
    (held : ∀ (chunkId : ChunkId) (record : ChunkRecord), (retained metadata records)[chunkId]? = some record →
      disk.chunkFiles[chunkId]? = some record.plaintext) :
    Restores disk (snapshotOf metadata records) := by
  obtain ⟨tree, loaded⟩ := tree
  exact ⟨reread_rooted loaded distinct, root, .of_held addressed queued held⟩

theorem Sound.set (sound : Sound handles) {handle : Nat} {next : ChunkStore}
    (addressed : ∀ (chunkId : ChunkId) (record : ChunkRecord), next.records[chunkId]? = some record →
      Addressed chunkId record) : ∀ store ∈ handles.stores.set handle next,
      ∀ (chunkId : ChunkId) (record : ChunkRecord), store.records[chunkId]? = some record →
        Addressed chunkId record := by
  intro store mem
  obtain mem | rfl := List.mem_or_eq_of_mem_set mem
  · exact sound.records store mem
  · exact addressed

theorem Sound.put (sound : Sound handles) {store : ChunkStore} {handle : Nat}
    (found : handles.stores[handle]? = some store) (env : FileEnv) (fileId : FileId) (index : Nat)
    (plaintext : Bytes) :
    let outcome := ChunkStore.put env fileId index plaintext (some handles.disk, store)
    Sound { handles with
      disk := outcome.2.1.getD handles.disk
      stores := handles.stores.set handle outcome.2.2 } := by
  intro outcome
  obtain ⟨stocked, records, _⟩ := ChunkStore.put_outcome env fileId index plaintext
    (some handles.disk) store
  change Option.Rel Stocked (some handles.disk) outcome.2.1 at stocked
  generalize isDisk : outcome.2.1 = disk at stocked
  cases stocked with
  | @some _ disk stocked =>
    have known := sound.records store (List.mem_of_getElem? found)
    have restores : ∀ snapshot ∈ disk.replicaFile, Restores disk snapshot.2 := by
      intro snapshot isFile
      rw [stocked.replica] at isFile
      obtain ⟨readable, root, indexed, queued⟩ := sound.restores snapshot isFile
      refine ⟨readable, root.trans stocked.root.symm, fun chunkId slot isSlot => ?_, queued⟩
      obtain ⟨retains, bytes, file, addressed⟩ := indexed chunkId slot isSlot
      exact ⟨retains, bytes, stocked.files chunkId bytes file, addressed⟩
    refine .of_restores restores (sound.set fun chunkId record isRecord => ?_) (fun alive => ?_) ?_
    · obtain same | ⟨_, written, inserted⟩ := records
      · rw [show outcome.2.2 = store from same] at isRecord
        exact known chunkId record isRecord
      · rw [show outcome.2.2.records = _ from inserted, Map.get_insert] at isRecord
        split at isRecord
        · rename_i same
          obtain rfl := Option.some.inj isRecord
          have isWritten := written disk.chunkFiles (by
            change disk.chunkFiles ∈ outcome.2.1.map DurableStore.chunkFiles
            rw [isDisk]
            rfl)
          exact ⟨isWritten.2, same⟩
        · exact known chunkId record isRecord
    · change disk.replicaFile.map Prod.snd = _
      rw [stocked.replica]
      exact sound.settled (stocked.alive alive)
    · change disk.replicaFile.map Prod.snd = _ ∨ disk.replicaFile.map Prod.snd = _
      rw [stocked.replica]
      exact sound.torn

theorem Sound.persist (sound : Sound handles) {store : ChunkStore} {handle : Nat}
    (found : handles.stores[handle]? = some store) (env : FileEnv) {metadata : ReplicaMetadata}
    (restorable : handles.disk.failed = false →
      (∀ admission ∈ metadata.admission, admission.members.Nodup) ∧
        Held metadata store.records handles.disk.chunkFiles) :
    let outcome := ChunkStore.persistMetadata env metadata (some handles.disk, store)
    Sound (noteSnapshot handles handle metadata (outcome.1, { handles with
      disk := outcome.2.1.getD handles.disk
      stores := handles.stores.set handle outcome.2.2 })) := by
  have known := sound.records store (List.mem_of_getElem? found)
  have file : ∀ alive : handles.disk.failed = false, ∀ (chunkId : ChunkId) (record : ChunkRecord),
      (retained metadata store.records)[chunkId]? = some record →
        handles.disk.chunkFiles[chunkId]? = some record.plaintext :=
    fun alive chunkId record kept => (restorable alive).2 (chunkId, record) (Map.mem_toList.mpr kept)
  have isSnapshot : (handles.stores[handle]?.map fun store => snapshotOf metadata store.records) =
      some (snapshotOf metadata store.records) := by
    rw [found]
    rfl
  have result := DurableStore.persist_outcome env metadata store.records handles.disk
  unfold Action.Ensures at result
  unfold ChunkStore.persistMetadata
  dsimp only
  generalize DurableStore.persist env metadata store.records handles.disk = outcome at result ⊢
  obtain ⟨r, disk⟩ := outcome
  cases r with
  | ok staged =>
    obtain ⟨_, isKept, saved⟩ := result
    have written : Restores disk (snapshotOf metadata store.records) := by
      refine .of_held known saved.tree (saved.sameRoot.trans saved.root.symm) saved.queued
        (restorable saved.alive).1 fun chunkId record kept => ?_
      have keeps : (retained metadata store.records).contains chunkId = true :=
        (Map.contains_iff_get _ _).mpr ⟨record, kept⟩
      exact (saved.files chunkId keeps).trans (file saved.alive chunkId record kept)
    have restores : ∀ snapshot ∈ disk.replicaFile, Restores disk snapshot.2 := by
      intro snapshot isFile
      rw [saved.file] at isFile
      obtain rfl := Option.some.inj isFile
      exact written
    have settled := (congrArg (Option.map Prod.snd) saved.file).trans isSnapshot.symm
    refine .of_restores restores (sound.set fun chunkId record kept => ?_) (fun _ => settled) (.inl settled)
    change staged.2[chunkId]? = _ at kept
    rw [isKept] at kept
    exact known chunkId record (retained_eq_some.mp kept).1
  | error e =>
    have isSame : handles.stores.set handle store = handles.stores := by
      obtain ⟨inside, rfl⟩ := List.getElem?_eq_some_iff.mp found
      exact List.set_getElem_self inside
    unfold noteSnapshot
    dsimp only
    rw [isSame, Option.getD_some]
    obtain rfl | spoiled := result
    · split
      · exact sound
      · rename_i alive
        have settled := sound.settled (Bool.eq_false_iff.mpr alive)
        exact ⟨sound.readable, sound.root, sound.backed, sound.records, fun _ => settled, .inl settled⟩
    · have settled := sound.settled spoiled.alive
      rw [if_neg (by rw [spoiled.alive]; exact Bool.false_ne_true), isSnapshot]
      have files : disk.chunkFiles = handles.disk.chunkFiles := spoiled.files
      -- The old snapshot or the new one is there, and no chunk file was touched.
      have restores : ∀ snapshot ∈ disk.replicaFile, Restores disk snapshot.2 := by
        intro snapshot isFile
        obtain same | ⟨generation, isNew⟩ := spoiled.file
        · rw [same] at isFile
          obtain ⟨readable, root, backed⟩ := sound.restores snapshot isFile
          exact ⟨readable, root.trans spoiled.root.symm, by rw [files]; exact backed⟩
        · rw [isNew] at isFile
          obtain rfl := Option.some.inj isFile
          exact .of_held known spoiled.tree (spoiled.sameRoot.trans spoiled.root.symm) spoiled.queued
            (restorable spoiled.alive).1 (by rw [files]; exact file spoiled.alive)
      refine .of_restores restores sound.records (fun alive => ?_) ?_
      · rw [show disk.failed = true from spoiled.poisoned] at alive
        cases alive
      · change disk.replicaFile.map Prod.snd = _ ∨ disk.replicaFile.map Prod.snd = _
        obtain same | ⟨generation, isNew⟩ := spoiled.file
        · rw [same]
          exact .inl settled
        · rw [isNew]
          exact .inr rfl

theorem Sound.opened (sound : Sound handles) (env : FileEnv) :
    Sound (exec (.open env) handles) := by
  unfold exec
  dsimp only
  split
  · rename_i disk stored chunks opened
    have reads : env.reads = true := by
      unfold DurableStore.open at opened
      obtain ⟨_, reads, _⟩ := Result.bind_eq_ok.mp opened
      exact ensure_eq_ok.mp reads
    obtain ⟨generation, found, isOpened, records⟩ :=
      open_backed reads sound.readable sound.root sound.backed
    rw [opened] at isOpened
    obtain ⟨rfl, rfl, rfl⟩ : _ ∧ _ ∧ _ := by simpa using isOpened
    refine ⟨sound.readable, sound.root, fun snapshot isFile => ?_,
      fun store mem chunkId record isRecord => ?_, fun _ => rfl, .inl rfl⟩
    · have isFile : handles.disk.replicaFile = some snapshot := isFile
      have swept := backed_sweep isFile (sound.backed snapshot isFile) fun _ => true
      exact swept
    · obtain rfl := List.mem_singleton.mp mem
      rw [records] at isRecord
      exact (foundRecords_eq_some isRecord).2.1
  · exact ⟨sound.readable, sound.root, sound.backed, fun _ mem => absurd mem List.not_mem_nil,
      sound.settled, sound.torn⟩

theorem Sound.stopped (sound : Sound handles) (sweeps : ChunkId → Bool) :
    Sound (exec (.openStopped sweeps) handles) := by
  unfold exec
  dsimp only
  split
  · refine ⟨sound.readable, sound.root, fun snapshot isFile => ?_,
      fun _ mem => absurd mem List.not_mem_nil, sound.settled, sound.torn⟩
    have isFile : handles.disk.replicaFile = some snapshot := isFile
    have swept := backed_sweep isFile (sound.backed snapshot isFile) sweeps
    exact swept
  · exact ⟨sound.readable, sound.root, sound.backed, fun _ mem => absurd mem List.not_mem_nil,
      sound.settled, sound.torn⟩

theorem Sound.exec (sound : Sound handles) {op : HandleOp} (restorable : Restorable handles op) :
    Sound (exec op handles) := by
  cases op with
  | put env handle fileId index plaintext =>
    change Sound (((onHandle handle (ChunkStore.put env fileId index plaintext) handles).map
      Prod.snd).getD handles)
    cases outcome : onHandle handle (ChunkStore.put env fileId index plaintext) handles with
    | none => exact sound
    | some after =>
      obtain ⟨store, found, rfl⟩ := onHandle_eq_some outcome
      exact sound.put found env fileId index plaintext
  | removeFile handle fileId =>
    refine ⟨sound.readable, sound.root, sound.backed, fun store mem chunkId record isRecord => ?_,
      sound.settled, sound.torn⟩
    obtain ⟨i, isStore⟩ := List.mem_iff_getElem?.mp mem
    change (handles.stores.modify handle _)[i]? = _ at isStore
    rw [List.getElem?_modify] at isStore
    obtain ⟨before, isBefore, rfl⟩ := Option.map_eq_some_iff.mp isStore
    have known := sound.records before (List.mem_of_getElem? isBefore)
    split at isRecord
    · change (before.records.filter _)[chunkId]? = _ at isRecord
      rw [Map.get_filter, Option.filter_eq_some_iff] at isRecord
      exact known chunkId record isRecord.1
    · exact known chunkId record isRecord
  | persist env handle metadata =>
    change Sound (((onHandle handle (ChunkStore.persistMetadata env metadata) handles).map
      (noteSnapshot handles handle metadata)).getD handles)
    cases outcome : onHandle handle (ChunkStore.persistMetadata env metadata) handles with
    | none => exact sound
    | some after =>
      obtain ⟨store, found, rfl⟩ := onHandle_eq_some outcome
      exact sound.persist found env fun alive => restorable alive store found
  | persistWithAdmission env handle metadata =>
    change Sound (((onHandle handle (ChunkStore.persistMetadataWithAdmission env metadata)
      handles).map (noteSnapshot handles handle metadata)).getD handles)
    cases outcome : onHandle handle (ChunkStore.persistMetadataWithAdmission env metadata) handles with
    | none => exact sound
    | some after =>
      obtain ⟨store, found, rfl⟩ := onHandle_eq_some outcome
      have same : ChunkStore.persistMetadataWithAdmission env metadata (some handles.disk, store) =
          ChunkStore.persistMetadata env metadata (some handles.disk, store) := by
        unfold ChunkStore.persistMetadataWithAdmission
        cases env.replicaWrite <;> rfl
      rw [same]
      exact sound.persist found env fun alive => restorable alive store found
  | clone handle =>
    refine ⟨sound.readable, sound.root, sound.backed, fun store mem => ?_, sound.settled, sound.torn⟩
    obtain mem | mem := List.mem_append.mp mem
    · exact sound.records store mem
    · exact sound.records store (List.mem_of_getElem? (Option.mem_toList.mp mem))
  | drop handle =>
    exact ⟨sound.readable, sound.root, sound.backed,
      fun store mem => sound.records store (List.mem_of_mem_eraseIdx mem), sound.settled, sound.torn⟩
  | «open» env => exact sound.opened env
  | openStopped sweeps => exact sound.stopped sweeps

/-- Any number of handles on one data directory, and a crash anywhere: as long as each
snapshot that is stored decodes and has its chunks in the directory, the next start finds
the last complete one or the one that was being written, with all its chunks. -/
theorem durable_store_recovers (start : Handles) (sound : Sound start) (ops : List HandleOp)
    (restorable : machine.Along Restorable ops start) : machine.Throughout Recoverable ops start := by
  have invariant := machine.throughout_of_step (I := Sound)
    (fun _ _ sound restorable => sound.exec restorable) ops start sound restorable
  exact invariant.mono fun _ sound => sound.recoverable

end Handles

/-! A clone puts a chunk while the store it was cloned from stores a snapshot. -/

namespace Handles

local instance : Crypto.Primitives := Crypto.Primitives.plain

private def calmFiles : FileEnv := ⟨fun _ => .written, .written, fun _ => true, true⟩

private def emptyHandles : Handles where
  disk := ⟨0, ⟨1⟩, false, none, ∅⟩
  stores := [⟨∅, none⟩]
  persisted := none
  writing := none

private theorem emptyHandles_sound : Sound emptyHandles where
  readable := nofun
  root := nofun
  backed := nofun
  records := fun store mem chunkId record isRecord => by
    obtain rfl := List.mem_singleton.mp mem
    rw [show (∅ : Map ChunkId ChunkRecord)[chunkId]? = none from Std.ExtTreeMap.getElem?_empty]
      at isRecord
    cases isRecord
  settled := fun _ => rfl
  torn := .inl rfl

/-- A file of one chunk. -/
private def oneChunk : ReplicaMetadata :=
  { ReplicaMetadata.new ⟨1⟩ with manifests := (∅ : Map FileId Manifest).insert ⟨2⟩ {
      fileId := ⟨2⟩, chunkIds := [Encoding.chunkId ⟨2⟩ 0 [5]], size := 1, writerId := ⟨4⟩
      version := 1, signature := [] } }

private def sweptByOther : List HandleOp :=
  [.clone 0, .put calmFiles 1 ⟨2⟩ 0 [5], .persist calmFiles 0 (.new ⟨1⟩),
    .persist calmFiles 1 oneChunk]

/-- A start's chunk file and the snapshot's index entry, for one chunk. -/
private def startFinds (chunkId : ChunkId) (handles : Handles) :
    Option (Option Bytes × Option (Option (FileId × Nat))) :=
  (handles.disk.open calmFiles handles.disk.expectedRoot).toOption.map
    fun (opened, stored, _) => (opened.chunkFiles[chunkId]?, stored.map (·.chunkIndex[chunkId]?))

private theorem Recoverable.startFinds {handles : Handles} {chunkId : ChunkId} {slot : FileId × Nat}
    (recoverable : Recoverable handles) :
    Handles.startFinds chunkId handles ≠ some (none, some (some slot)) := by
  intro finds
  obtain ⟨opened, stored, chunks, isOpened, _, complete, _⟩ := recoverable calmFiles rfl
  unfold Handles.startFinds at finds
  rw [isOpened] at finds
  obtain ⟨swept, indexed⟩ := Prod.mk.inj (Option.some.inj finds)
  obtain ⟨metadata, isStored, indexed⟩ := Option.map_eq_some_iff.mp indexed
  obtain ⟨bytes, file, _⟩ := (complete metadata isStored).1 chunkId slot indexed
  rw [swept] at file
  cases file

/-- The chunk's file is swept by the other handle, and the clone's snapshot indexes it. -/
theorem durable_store_recovers_swept : Sound emptyHandles ∧
    ¬ machine.Throughout Recoverable sweptByOther emptyHandles := by
  refine ⟨emptyHandles_sound, fun throughout => ?_⟩
  have finds : startFinds (Encoding.chunkId ⟨2⟩ 0 [5]) (machine.run sweptByOther emptyHandles) =
      some (none, some (some (⟨2⟩, 0))) := by
    decide +kernel
  exact throughout.final.startFinds finds

theorem durable_store_recovers_clone :
    machine.Throughout Recoverable [.clone 0, .put calmFiles 1 ⟨2⟩ 0 [5],
      .persist calmFiles 1 oneChunk, .openStopped fun _ => true, .open calmFiles] emptyHandles :=
  durable_store_recovers _ emptyHandles_sound _ (by decide +kernel)

end Handles

end QuantumFs.Store
