import QuantumFs.Host.Refine
import QuantumFs.Member.Replica

/-! What applying a staged copy does to a replica and to its data directory. -/
namespace QuantumFs.Member

open Lib Encoding Crypto Store Host

variable [Primitives]

/-- A snapshot with the members and the denials of a staged copy. -/
def Snapshots (staged : StagedReplica) (metadata : ReplicaMetadata) : Prop :=
  metadata.members = staged.members ∧ metadata.denied = staged.denied

/-- What a staged copy shows once it is applied: documents of known peers are archived, and
chunks that no manifest refers to may go. -/
structure Applied (staged next : StagedReplica) : Prop where
  members : next.members = staged.members
  denied : next.denied = staged.denied
  historical : next.historicalMembers = OrdSet.extend staged.historicalMembers staged.members
  documents : ∀ (peer : PeerId) (document : IdentityDocument),
    staged.identityDocuments[peer]? = some document → next.identityDocuments[peer]? = some document
  tree : next.tree = staged.tree
  manifests : next.manifests = staged.manifests
  controls : next.controls = staged.controls
  log : next.log = staged.log
  bootstrap : next.bootstrapThrough = staged.bootstrapThrough
  cached : ∀ metadata, next.chunks.metadata = some metadata → Snapshots staged metadata
  old : ∀ (id : ChunkId) (record : ChunkRecord), next.chunks.records[id]? = some record →
    staged.chunks.records[id]? = some record
  needed : ∀ (fileId : FileId) (manifest : Manifest) (id : ChunkId),
    staged.manifests[fileId]? = some manifest → id ∈ manifest.chunkIds →
    next.chunks.records[id]? = staged.chunks.records[id]?

/-- What no operation on the visible copy changes. -/
def MemberReplica.frame (replica : MemberReplica) :
    PeerId × FileId × LocalIdentity × List (MailboxEnvelope × Opened) × List ControlPacket :=
  (replica.hostId, replica.expectedRoot, replica.keys.identity, replica.receipts,
    replica.onlineReceipts)

def snapshotIn (disk : Option DurableStore) : Option ReplicaMetadata :=
  (disk.bind fun disk => disk.replicaFile).map Prod.snd

/-- The snapshot that a restart would read. -/
def MemberReplica.stored (replica : MemberReplica) : Option ReplicaMetadata :=
  snapshotIn replica.disk

/-- How applying a staged copy can end. A copy that is shown has been written; one that is not
may have been written as well. -/
structure ApplyOutcome (staged : StagedReplica) (before : MemberReplica) (r : Result Unit)
    (after : MemberReplica) : Prop where
  frame : after.frame = before.frame
  durable : after.disk.isSome = before.disk.isSome
  shown : (r ≠ .ok () ∧ after.state = before.state ∧ after.lastApplied = before.lastApplied ∧
      (after.stored = before.stored ∨ ∃ metadata, after.stored = some metadata ∧
        Snapshots staged metadata)) ∨
    (Applied staged after.state ∧ after.lastApplied = lastOf before.lastApplied staged ∧
      (after.disk = none ∨ ∃ metadata, after.stored = some metadata ∧ Snapshots staged metadata))

theorem archiveReplica_eq_ok {keys : KeyStore} {staged archived : StagedReplica}
    (h : archiveReplica keys staged = .ok archived) :
    ∃ documents, archived = { staged with
        historicalMembers := OrdSet.extend staged.historicalMembers staged.members
        identityDocuments := documents } ∧
      ∀ (peer : PeerId) (document : IdentityDocument),
        staged.identityDocuments[peer]? = some document → documents[peer]? = some document := by
  unfold archiveReplica at h
  obtain ⟨documents, archive, h⟩ := Result.bind_eq_ok.mp h
  obtain ⟨_, _, h⟩ := Result.bind_eq_ok.mp h
  exact ⟨documents, (Except.ok.inj h).symm, (archive_loop _ archive).1⟩

omit [Primitives] in
theorem metadataFor_eq_ok {replica : MemberReplica} {staged : StagedReplica}
    {metadata : ReplicaMetadata} (h : metadataFor replica staged = .ok metadata) :
    Snapshots staged metadata ∧ metadata.manifests = staged.manifests ∧ metadata.mailboxes = ∅ := by
  unfold metadataFor at h
  obtain ⟨_, _, h⟩ := Result.bind_eq_ok.mp h
  obtain ⟨_, _, h⟩ := Result.bind_eq_ok.mp h
  obtain ⟨_, _, h⟩ := Result.bind_eq_ok.mp h
  obtain rfl := Except.ok.inj h
  exact ⟨⟨rfl, rfl⟩, rfl, rfl⟩

omit [Primitives] in
theorem mem_retainIds_of_manifest {metadata : ReplicaMetadata} {fileId : FileId}
    {manifest : Manifest} {id : ChunkId} (found : metadata.manifests[fileId]? = some manifest)
    (listed : id ∈ manifest.chunkIds) : id ∈ metadata.retainIds := by
  unfold ReplicaMetadata.retainIds
  rw [OrdSet.mem_ofList]
  refine List.mem_append_left _ (List.mem_flatMap.mpr ⟨manifest, ?_, listed⟩)
  exact Map.mem_vals.mpr ⟨fileId, found⟩

def MemberReplica.outside (replica : MemberReplica) :
    (PeerId × FileId × LocalIdentity × List (MailboxEnvelope × Opened) × List ControlPacket) ×
      Option DurableStore × StagedReplica × Nat :=
  (replica.frame, replica.disk, replica.state, replica.lastApplied)

omit [Primitives] in
theorem onKeys_outside {α : Type} {x : Action Error KeyStore α}
    (h : Action.Keeps KeyStore.identity x) :
    Action.Keeps MemberReplica.outside (MemberReplica.onKeys x) := by
  intro replica
  have same : (x replica.keys).2.identity = replica.keys.identity := h replica.keys
  change ((_, _, (x replica.keys).2.identity, _, _), _, _, _) = _
  rw [same]
  rfl

omit [Primitives] in
theorem persist_identity (ok : Bool) : Action.Keeps KeyStore.identity (KeyStore.persist ok) := by
  intro store
  unfold KeyStore.persist
  split <;> rfl

omit [Primitives] in
theorem discardPair_identity (env : KeyEnv) (peer : PeerId) :
    Action.Keeps KeyStore.identity (KeyStore.discardPair env peer) := by
  unfold KeyStore.discardPair
  exact .bind (.query _) fun _ => .bind (.modify fun _ => rfl) fun _ => persist_identity _

omit [Primitives] in
theorem discardKicked_outside (env : MemberEnv) (kicked : List PeerId) :
    Action.Keeps MemberReplica.outside (discardKicked env kicked) :=
  .forEach fun peer _ => onKeys_outside (discardPair_identity env.keys peer)

omit [Primitives] in
theorem onChunks_next {α β : Type} {chunks : ChunkStore}
    {x : Action Error (Option DurableStore × ChunkStore) α} {replica : MemberReplica}
    {f : α × ChunkStore → Action Error MemberReplica β} {Q : Result β → MemberReplica → Prop}
    {R : Result α → Option DurableStore × ChunkStore → Prop}
    (h : Action.Ensures x (replica.disk, chunks) R)
    (err : ∀ e disk next, R (.error e) (disk, next) → Q (.error e) { replica with disk })
    (ok : ∀ a disk next, R (.ok a) (disk, next) →
      Action.Ensures (f (a, next)) { replica with disk } Q) :
    Action.Ensures (MemberReplica.onChunks chunks x >>= f) replica Q := by
  have known : Action.Ensures (MemberReplica.onChunks chunks x) replica fun r t =>
      match r with
      | .ok (a, next) => ∃ disk, R (.ok a) (disk, next) ∧ t = { replica with disk }
      | .error e => ∃ disk next, R (.error e) (disk, next) ∧ t = { replica with disk } := by
    unfold Action.Ensures at h ⊢
    unfold MemberReplica.onChunks
    generalize x (replica.disk, chunks) = result at h
    obtain ⟨r, disk, next⟩ := result
    cases r with
    | ok a => exact ⟨disk, h, rfl⟩
    | error e => exact ⟨disk, next, h, rfl⟩
  refine .next known ?_ ?_
  · rintro e _ ⟨disk, next, known, rfl⟩
    exact err e disk next known
  · rintro ⟨a, next⟩ _ ⟨disk, known, rfl⟩
    exact ok a disk next known

section

variable {staged archived : StagedReplica} {metadata : ReplicaMetadata}
  {documents : Map PeerId IdentityDocument} {next : ChunkStore}

omit [Primitives] in
theorem applied_of_archived (isManifests : metadata.manifests = staged.manifests)
    (old : ∀ (peer : PeerId) (document : IdentityDocument),
      staged.identityDocuments[peer]? = some document → documents[peer]? = some document)
    (cached : ∀ metadata, next.metadata = some metadata → Snapshots staged metadata)
    (kept : next.records = staged.chunks.records ∨
      next.records = retained metadata staged.chunks.records) :
    Applied staged { staged with
      historicalMembers := OrdSet.extend staged.historicalMembers staged.members
      identityDocuments := documents
      chunks := next } where
  members := rfl
  denied := rfl
  historical := rfl
  documents := old
  tree := rfl
  manifests := rfl
  controls := rfl
  log := rfl
  bootstrap := rfl
  cached := cached
  old := by
    intro id record found
    change next.records[id]? = some record at found
    obtain same | swept := kept
    · exact same ▸ found
    · rw [swept, retained, Map.get_filter] at found
      exact (Option.filter_eq_some_iff.mp found).1
  needed := by
    intro fileId manifest id found listed
    change next.records[id]? = _
    obtain same | swept := kept
    · rw [same]
    · have isRetained := mem_retainIds_of_manifest (isManifests ▸ found) listed
      rw [swept, retained, Map.get_filter]
      cases staged.chunks.records[id]? with
      | none => rfl
      | some record => simp only [Option.filter_some, isRetained, decide_true, if_true]

end

omit [Primitives] in
theorem refused_snapshot {metadata : ReplicaMetadata} {store next : ChunkStore}
    {before after : Option DurableStore} {e : Error}
    (h : PersistOutcome metadata store before (.error e) (after, next)) :
    after.isSome = before.isSome ∧ (snapshotIn after = snapshotIn before ∨
      snapshotIn after = some (snapshotOf metadata store.records)) := by
  cases h with
  | refused _ => exact ⟨rfl, .inl rfl⟩
  | spoiled _ spoiled =>
    refine ⟨rfl, ?_⟩
    unfold snapshotIn
    simp only [Option.bind_some]
    obtain same | ⟨generation, written⟩ := spoiled.file
    · exact .inl (by rw [same])
    · exact .inr (by rw [written]; rfl)

omit [Primitives] in
theorem done_snapshot {metadata : ReplicaMetadata} {store next : ChunkStore}
    {before after : Option DurableStore}
    (h : PersistOutcome metadata store before (.ok ()) (after, next)) :
    after.isSome = before.isSome ∧ (next.records = store.records ∨
        next.records = retained metadata store.records) ∧
      (after = none ∨ snapshotIn after = some (snapshotOf metadata store.records)) := by
  cases h with
  | kept same => exact ⟨rfl, .inl same, .inl rfl⟩
  | saved kept saved =>
    refine ⟨rfl, .inr kept, .inr ?_⟩
    unfold snapshotIn
    simp only [Option.bind_some, saved.file, Option.map_some]

theorem persistMetadata_cached (env : FileEnv) (metadata : ReplicaMetadata)
    (disk : Option DurableStore) (chunks : ChunkStore) :
    Action.Ensures (ChunkStore.persistMetadata env metadata) (disk, chunks) fun r after =>
      (r ≠ .ok () ∧ after.2 = chunks) ∨
        ∃ chunkIndex, after.2.metadata = some { metadata with chunkIndex } := by
  unfold Action.Ensures ChunkStore.persistMetadata
  cases disk with
  | none => exact .inr ⟨metadata.chunkIndex, rfl⟩
  | some disk =>
    have outcome := DurableStore.persist_outcome env metadata chunks.records disk
    unfold Action.Ensures at outcome
    dsimp only
    generalize DurableStore.persist env metadata chunks.records disk = result at outcome ⊢
    obtain ⟨r, after⟩ := result
    cases r with
    | ok result =>
      obtain ⟨same, _⟩ := outcome
      exact .inr ⟨_, congrArg some same⟩
    | error e => exact .inl ⟨nofun, rfl⟩

theorem applyStaged_outcome (env : MemberEnv) (staged : StagedReplica) (replica : MemberReplica) :
    Action.Ensures (applyStaged env staged) replica (ApplyOutcome staged replica) := by
  have refused : ∀ e, ApplyOutcome staged replica (.error e) replica := fun e =>
    ⟨rfl, rfl, .inl ⟨nofun, rfl, rfl, .inl rfl⟩⟩
  unfold applyStaged
  refine .get (.ofExcept (fun e _ => refused e) fun archived isArchived => ?_)
  obtain ⟨documents, rfl, old⟩ := archiveReplica_eq_ok isArchived
  refine .ofExcept (fun e _ => refused e) fun metadata isMetadata => ?_
  obtain ⟨snapshots, manifests, mailboxes⟩ := metadataFor_eq_ok isMetadata
  have written : Snapshots staged (snapshotOf metadata staged.chunks.records) := snapshots
  refine onChunks_next ((ChunkStore.persistMetadata_outcome env.files metadata _ _).and
    (persistMetadata_cached env.files metadata _ _)) ?_ ?_
  · rintro e disk next ⟨outcome, -⟩
    obtain ⟨durable, stored⟩ := refused_snapshot outcome
    exact ⟨rfl, durable, .inl ⟨nofun, rfl, rfl, stored.imp_right fun same => ⟨_, same, written⟩⟩⟩
  · rintro _ disk next ⟨outcome, written | ⟨chunkIndex, isCached⟩⟩
    · exact absurd rfl written.1
    have cached : ∀ metadata, next.metadata = some metadata → Snapshots staged metadata := by
      intro other isOther
      obtain rfl := Option.some.inj (isOther.symm.trans isCached)
      exact snapshots
    obtain ⟨durable, kept, stored⟩ := done_snapshot outcome
    refine .modify ?_
    refine Action.Ensures.mono (.of_keeps (discardKicked_outside env _)) fun r t same => ?_
    have sameFrame : t.frame = replica.frame := congrArg Prod.fst same
    have sameDisk : t.disk = disk := congrArg (fun outside => outside.2.1) same
    have sameState := congrArg (fun outside => outside.2.2.1) same
    have sameLast : t.lastApplied = _ := congrArg (fun outside => outside.2.2.2) same
    refine ⟨sameFrame, sameDisk ▸ durable, .inr ⟨?_, sameLast, ?_⟩⟩
    · change t.state = _ at sameState
      rw [sameState]
      exact applied_of_archived manifests old cached kept
    · unfold MemberReplica.stored
      rw [sameDisk]
      exact stored.imp_right fun same => ⟨_, same, written⟩

end QuantumFs.Member
