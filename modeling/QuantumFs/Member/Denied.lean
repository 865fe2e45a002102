import QuantumFs.Member.Run

/-! Denied members on a replica. Every path that writes the members consults the denied set;
only a batch that was prepared before a denial forgets it. -/
namespace QuantumFs.Member

open Lib Encoding Crypto Store Host

variable [Primitives]

def StagedReplica.Apart (staged : StagedReplica) : Prop :=
  ∀ peer ∈ staged.members, peer ∉ staged.denied

/-- No denial is taken back, and no denied peer becomes a member. -/
structure Revokes (before after : StagedReplica) : Prop where
  denied : ∀ peer ∈ before.denied, peer ∈ after.denied
  apart : before.Apart → after.Apart

namespace Revokes

variable {first second third : StagedReplica}

omit [Primitives] in
theorem refl (staged : StagedReplica) : Revokes staged staged := ⟨fun _ known => known, id⟩

omit [Primitives] in
theorem trans (left : Revokes first second) (right : Revokes second third) : Revokes first third :=
  ⟨fun peer known => right.denied peer (left.denied peer known),
    fun apart => right.apart (left.apart apart)⟩

omit [Primitives] in
theorem of_eq (members : second.members = first.members) (denied : second.denied = first.denied) :
    Revokes first second := by
  refine ⟨fun peer known => denied ▸ known, fun apart peer isMember => ?_⟩
  rw [denied]
  exact apart peer (members ▸ isMember)

end Revokes

section

variable {keys : KeyStore} {hostId : PeerId} {acceptedSnapshot : Bool} {staged next : StagedReplica}

omit [Primitives] in
theorem admitWriter_revokes (staged : StagedReplica) (writer : PeerId) :
    Revokes staged (admitWriter staged writer) := by
  unfold admitWriter
  split
  · rename_i allowed
    refine ⟨fun _ known => known, fun apart peer isMember => ?_⟩
    obtain rfl | isMember := (OrdSet.mem_insert _ _ _).mp isMember
    · exact allowed.1
    · exact apart peer isMember
  · exact .refl _

theorem stageManifest_revokes {manifest : Manifest}
    (h : stageManifest keys acceptedSnapshot manifest staged = .ok next) : Revokes staged next := by
  unfold stageManifest at h
  have admitted : Revokes staged
      (if acceptedSnapshot then staged else admitWriter staged manifest.writerId) := by
    cases acceptedSnapshot with
    | true => exact .refl _
    | false => exact admitWriter_revokes _ _
  generalize (if acceptedSnapshot then staged else admitWriter staged manifest.writerId) = admittedTo
    at h admitted
  dsimp only at h
  split at h
  · obtain ⟨_, _, h⟩ := Result.bind_eq_ok.mp h
    obtain rfl := Except.ok.inj h
    exact admitted.trans (.of_eq rfl rfl)
  · obtain ⟨_, _, h⟩ := Result.bind_eq_ok.mp h
    obtain rfl := Except.ok.inj h
    exact admitted.trans (.of_eq rfl rfl)

omit [Primitives] in
theorem stageKick_revokes {target : PeerId} (h : stageKick hostId target staged = .ok next) :
    Revokes staged next := by
  unfold stageKick at h
  obtain ⟨_, _, h⟩ := Result.bind_eq_ok.mp h
  obtain rfl := Except.ok.inj h
  refine ⟨fun peer known => (OrdSet.mem_insert _ _ _).mpr (.inr known), fun apart peer isMember => ?_⟩
  obtain ⟨other, isMember⟩ := (OrdSet.mem_erase _ _ _).mp isMember
  intro isDenied
  obtain same | isDenied := (OrdSet.mem_insert _ _ _).mp isDenied
  · exact other same
  · exact apart peer isMember isDenied

theorem stageUpdate_revokes {update : ControlUpdate}
    (h : stageUpdate keys hostId acceptedSnapshot update staged = .ok next) :
    Revokes staged next := by
  unfold stageUpdate at h
  split at h
  · exact stageManifest_revokes h
  · exact stageKick_revokes h
  · obtain rfl := Except.ok.inj h
    exact .refl _

omit [Primitives] in
theorem stageRemoved_revokes (removed : Option FileId) (staged : StagedReplica) :
    Revokes staged (stageRemoved removed staged) := by
  cases removed with
  | none => exact .refl _
  | some fileId => exact .of_eq rfl rfl

theorem stageRecord_revokes {record : ControlRecord}
    (h : stageRecord keys hostId acceptedSnapshot record staged = .ok next) :
    Revokes staged next := by
  unfold stageRecord at h
  obtain ⟨_, _, h⟩ := Result.bind_eq_ok.mp h
  obtain ⟨_, _, h⟩ := Result.bind_eq_ok.mp h
  obtain ⟨⟨tree, removed⟩, _, h⟩ := Result.bind_eq_ok.mp h
  obtain ⟨updated, isUpdated, h⟩ := Result.bind_eq_ok.mp h
  obtain rfl := Except.ok.inj h
  exact ((stageUpdate_revokes isUpdated).trans (stageRemoved_revokes removed updated)).trans
    (.of_eq rfl rfl)

theorem stageControlMode_revokes {record : ControlRecord} {isNew : Bool}
    (h : stageControlMode keys hostId acceptedSnapshot record staged = .ok (next, isNew)) :
    Revokes staged next := by
  unfold stageControlMode at h
  split at h
  · obtain rfl := congrArg Prod.fst (Except.ok.inj h)
    exact .refl _
  split at h
  · obtain ⟨_, _, h⟩ := Result.bind_eq_ok.mp h
    obtain rfl := congrArg Prod.fst (Except.ok.inj h)
    exact .refl _
  · obtain ⟨staged, isStaged, h⟩ := Result.bind_eq_ok.mp h
    obtain rfl := congrArg Prod.fst (Except.ok.inj h)
    exact stageRecord_revokes isStaged

theorem learnDocument_revokes {document : IdentityDocument}
    (h : learnDocument staged document = .ok next) : Revokes staged next := by
  unfold learnDocument at h
  obtain ⟨_, _, h⟩ := Result.bind_eq_ok.mp h
  obtain rfl := Except.ok.inj h
  exact .of_eq rfl rfl

theorem learnDocuments_revokes {documents : List IdentityDocument} :
    ∀ {staged next : StagedReplica}, documents.foldlM learnDocument staged = .ok next →
      Revokes staged next := by
  induction documents with
  | nil =>
    intro staged next h
    obtain rfl := Except.ok.inj h
    exact .refl _
  | cons document documents ih =>
    intro staged next h
    rw [List.foldlM_cons] at h
    obtain ⟨learned, isLearned, h⟩ := Result.bind_eq_ok.mp h
    exact (learnDocument_revokes isLearned).trans (ih h)

end

section

variable {session : PairSession} {installing : Option Nat} {base : StagedReplica}

theorem stageOpened_revokes {keys : KeyStore} {hostId : PeerId} {batch next : Batch}
    {opened : Opened} (h : stageOpened keys hostId installing batch opened = .ok next) :
    Revokes batch.staged next.staged := by
  cases opened with
  | control record =>
    obtain ⟨⟨staged, isNew⟩, isStaged, h⟩ := Result.bind_eq_ok.mp h
    obtain rfl := Except.ok.inj h
    exact stageControlMode_revokes isStaged
  | chunk fileId index plaintext =>
    obtain ⟨_, _, h⟩ := Result.bind_eq_ok.mp h
    obtain rfl := Except.ok.inj h
    exact .refl _

omit [Primitives] in
theorem countEnvelope_staged {frame : MailboxFrame} {seq : Nat} {batch next : Batch}
    (h : countEnvelope frame seq batch = .ok next) : next.staged = batch.staged := by
  unfold countEnvelope at h
  obtain ⟨_, _, h⟩ := Result.bind_eq_ok.mp h
  obtain rfl := Except.ok.inj h
  cases frame <;> rfl

theorem readEnvelope_revokes {batch : Batch} {envelope : MailboxEnvelope} {replica : MemberReplica}
    (known : Revokes base batch.staged) :
    Action.Ensures (readEnvelope session installing batch envelope) replica
      (Action.Ends (fun next _ => Revokes base next.staged) fun _ _ => True) := by
  unfold readEnvelope
  refine .query (fun _ _ => True.intro) fun _ _ => .ofExcept (fun _ _ => True.intro) fun frame _ => ?_
  refine .ofExcept (fun _ _ => True.intro) fun counted isCounted => ?_
  refine .next (R := fun _ _ => True) True.intro (fun _ _ _ => True.intro) fun opened t _ => ?_
  unfold Action.Ensures
  rw [Action.query_apply]
  cases isNext : stageOpened t.keys t.hostId installing counted opened with
  | error e => exact True.intro
  | ok next =>
    refine known.trans ?_
    rw [← countEnvelope_staged isCounted]
    exact stageOpened_revokes isNext

omit [Primitives] in
theorem beginBootstrap_revokes {replica : MemberReplica} {bootstrapThrough : Option Nat}
    {staged : StagedReplica} (h : beginBootstrap replica bootstrapThrough = .ok (staged, installing)) :
    Revokes replica.state staged := by
  unfold beginBootstrap at h
  split at h
  · obtain rfl := congrArg Prod.fst (Except.ok.inj h)
    exact .refl _
  split at h
  · obtain rfl := congrArg Prod.fst (Except.ok.inj h)
    exact .refl _
  · obtain ⟨_, _, h⟩ := Result.bind_eq_ok.mp h
    obtain ⟨_, _, h⟩ := Result.bind_eq_ok.mp h
    obtain rfl := congrArg Prod.fst (Except.ok.inj h)
    exact .of_eq rfl rfl

theorem finishBatch_revokes {env : MemberEnv} {batch : Batch} {replica : MemberReplica}
    (known : Revokes base batch.staged) :
    Action.Ensures (finishBatch env installing batch) replica
      (Action.Ends (fun finished _ => Revokes base finished.1) fun _ _ => True) := by
  unfold finishBatch
  refine .next (R := fun _ _ => True) True.intro (fun _ _ _ => True.intro) ?_
  rintro ⟨chunksWritten, chunks⟩ t _
  cases installing with
  | none => exact .pure (known.trans (.of_eq rfl rfl))
  | some through =>
    exact .require (fun _ => True.intro) fun _ => .pure (known.trans (.of_eq rfl rfl))

theorem prepareMailboxForSession_revokes (env : MemberEnv) (envelopes : List MailboxEnvelope)
    (history : List IdentityDocument) (bootstrapThrough : Option Nat) (session : PairSession)
    (replica : MemberReplica) :
    Action.Ensures (prepareMailboxForSession env envelopes history bootstrapThrough session) replica
      fun r _ => ∀ prepared, r = .ok prepared → Revokes replica.state prepared.staged := by
  unfold prepareMailboxForSession
  refine .get (.require (fun _ => nofun) fun _ => .modify ?_)
  refine .ofExcept (fun _ _ => nofun) ?_
  rintro ⟨begun, installing⟩ isBegun
  refine .ofExcept (fun _ _ => nofun) fun learned isLearned => ?_
  have known : Revokes replica.state learned :=
    (beginBootstrap_revokes isBegun).trans (learnDocuments_revokes isLearned)
  refine .next (.foldlM (fun _ _ _ _ known => readEnvelope_revokes known) known)
    (fun _ _ _ => nofun) fun batch t known => ?_
  refine .next (finishBatch_revokes known) (fun _ _ _ => nofun) ?_
  rintro ⟨staged, report⟩ u known
  refine .query (fun _ _ => nofun) fun peerId _ => .pure ?_
  rintro _ ⟨⟩
  exact known

end

/-- Members and denied peers are apart, also in the snapshot, which may be newer. -/
structure MemberReplica.Sound (replica : MemberReplica) : Prop where
  apart : replica.state.Apart
  cached : ∀ metadata, replica.state.chunks.metadata = some metadata →
    Snapshots replica.state metadata
  stored : ∀ metadata, replica.stored = some metadata →
    (∀ peer ∈ replica.state.denied, peer ∈ metadata.denied) ∧
      ∀ peer ∈ metadata.members, peer ∉ metadata.denied
  durable : replica.disk.isSome = true → replica.stored.isSome = true

structure Guards (before after : MemberReplica) : Prop where
  sound : after.Sound
  denied : ∀ peer ∈ before.state.denied, peer ∈ after.state.denied

section

variable {before after : MemberReplica} {staged : StagedReplica}

omit [Primitives] in
theorem Guards.of_visible (sound : before.Sound) (same : after.visible = before.visible) :
    Guards before after := by
  have state : after.state = before.state := congrArg Visible.state same
  have stored : after.stored = before.stored := congrArg Visible.stored same
  have durable : after.disk.isSome = before.disk.isSome := congrArg Visible.durable same
  refine ⟨⟨state ▸ sound.apart, ?_, ?_, ?_⟩, fun peer known => state ▸ known⟩
  · rw [state]
    exact sound.cached
  · rw [state, stored]
    exact sound.stored
  · rw [durable, stored]
    exact sound.durable

omit [Primitives] in
theorem Snapshots.apart {metadata : ReplicaMetadata} (h : Snapshots staged metadata)
    (apart : staged.Apart) : ∀ peer ∈ metadata.members, peer ∉ metadata.denied := by
  intro peer isMember
  rw [h.2]
  exact apart peer (h.1 ▸ isMember)

omit [Primitives] in
theorem ApplyOutcome.guards {r : Result Unit} (sound : before.Sound)
    (revokes : Revokes before.state staged) (h : ApplyOutcome staged before r after) :
    Guards before after := by
  have apart := revokes.apart sound.apart
  obtain ⟨-, state, -, stored⟩ | ⟨applied, -, stored⟩ := h.shown
  · refine ⟨⟨state ▸ sound.apart, state ▸ sound.cached, ?_, ?_⟩, fun peer known => state ▸ known⟩
    · intro metadata isStored
      rw [state]
      obtain same | ⟨written, isWritten, snapshots⟩ := stored
      · exact sound.stored metadata (same ▸ isStored)
      · obtain rfl := Option.some.inj (isStored.symm.trans isWritten)
        refine ⟨fun peer known => ?_, snapshots.apart apart⟩
        rw [snapshots.2]
        exact revokes.denied peer known
    · rw [h.durable]
      intro isDurable
      obtain same | ⟨written, isWritten, -⟩ := stored
      · rw [same]
        exact sound.durable isDurable
      · rw [isWritten]
        rfl
  · have shown : Revokes before.state after.state :=
      revokes.trans (.of_eq applied.members applied.denied)
    refine ⟨⟨shown.apart sound.apart, ?_, ?_, ?_⟩, shown.denied⟩
    · intro metadata isCached
      obtain ⟨members, denied⟩ := applied.cached metadata isCached
      exact ⟨members.trans applied.members.symm, denied.trans applied.denied.symm⟩
    · intro metadata isStored
      obtain nothing | ⟨written, isWritten, snapshots⟩ := stored
      · unfold MemberReplica.stored at isStored
        rw [nothing] at isStored
        cases isStored
      · obtain rfl := Option.some.inj (isStored.symm.trans isWritten)
        refine ⟨fun peer known => ?_, snapshots.apart apart⟩
        rw [snapshots.2, ← applied.denied]
        exact known
    · intro isDurable
      obtain nothing | ⟨written, isWritten, -⟩ := stored
      · rw [nothing] at isDurable
        cases isDurable
      · rw [isWritten]
        rfl

theorem applyStaged_guards (env : MemberEnv) (sound : before.Sound)
    (revokes : Revokes before.state staged) :
    Action.Ensures (applyStaged env staged) before fun _ after => Guards before after :=
  (applyStaged_outcome env staged before).mono fun _ _ outcome => outcome.guards sound revokes

omit [Primitives] in
theorem Guards.refl (sound : before.Sound) : Guards before before := .of_visible sound rfl

end

section

variable {replica : MemberReplica}

omit [Primitives] in
theorem admitted_revokes (staged : StagedReplica) (members historicalMembers : OrdSet PeerId) :
    Revokes staged { staged with
      members := (OrdSet.difference members staged.denied).foldl Std.ExtTreeSet.insert staged.members
      historicalMembers } := by
  refine ⟨fun _ known => known, fun apart peer isMember => ?_⟩
  obtain isNew | isMember := (OrdSet.mem_foldl_insert _ _ _).mp isMember
  · exact ((OrdSet.mem_difference _ _ _).mp isNew).2
  · exact apart peer isMember

theorem addMembers_guards (env : MemberEnv) (members : OrdSet PeerId) (sound : replica.Sound) :
    Action.Ensures (addMembers env members) replica fun _ after => Guards replica after := by
  unfold addMembers
  refine .get (.require (fun _ => .refl sound) fun _ => ?_)
  refine .ofExcept (fun _ _ => .refl sound) fun _ _ => .require (fun _ => .refl sound) fun _ => ?_
  exact applyStaged_guards env sound (admitted_revokes _ _ _)

theorem learnHistory_guards (env : MemberEnv) (documents : List IdentityDocument)
    (sound : replica.Sound) :
    Action.Ensures (learnHistory env documents) replica fun _ after => Guards replica after := by
  unfold learnHistory
  refine .get (.ite (fun _ => .pure (.refl sound)) fun _ => ?_)
  refine .ofExcept (fun _ _ => .refl sound) fun staged isStaged => ?_
  exact applyStaged_guards env sound (learnDocuments_revokes isStaged)

theorem reconcileMembers_guards (env : MemberEnv) (members denied : OrdSet PeerId)
    (sound : replica.Sound) :
    Action.Ensures (reconcileMembers env members denied) replica
      fun _ after => Guards replica after := by
  unfold reconcileMembers
  refine .get (.require (fun _ => .refl sound) fun _ => ?_)
  refine .ofExcept (fun _ _ => .refl sound) fun _ _ => ?_
  refine .require (fun _ => .refl sound) fun allowed => .ite (fun _ => .pure (.refl sound)) fun _ => ?_
  refine .require (fun _ => .refl sound) fun grows => applyStaged_guards env sound ?_
  exact ⟨(OrdSet.isSubset_iff _ _).mp grows, fun _ => (OrdSet.isDisjoint_iff _ _).mp allowed.2.1⟩

theorem applyControl_guards (env : MemberEnv) (packet : ControlPacket) (sound : replica.Sound) :
    Action.Ensures (applyControl env packet) replica fun _ after => Guards replica after := by
  unfold applyControl
  refine .query (fun _ _ => .refl sound) fun _ _ => .query (fun _ _ => .refl sound) fun session _ => ?_
  refine .query (fun _ _ => .refl sound) fun _ _ => .get (.ite (fun _ => .pure (.refl sound)) fun _ => ?_)
  refine .keeps (onKeys_visible (openControl_identity session packet))
    (fun _ _ _ same => .of_visible sound same) fun record opened _ same => .get ?_
  have state : opened.state = replica.state := congrArg Visible.state same
  have guards : Guards replica opened := .of_visible sound same
  refine .ofExcept (fun _ _ => guards) ?_
  rintro ⟨staged, isNew⟩ isStaged
  refine .next (applyStaged_guards env guards.sound (stageControlMode_revokes isStaged))
    (fun _ _ applied => ?_) fun _ shown applied => ?_
  · exact ⟨applied.sound, fun peer known => applied.denied peer (guards.denied peer known)⟩
  · change Guards replica { shown with onlineReceipts := shown.onlineReceipts ++ [packet] }
    exact ⟨⟨applied.sound.apart, applied.sound.cached, applied.sound.stored,
      applied.sound.durable⟩, fun peer known => applied.denied peer (guards.denied peer known)⟩

theorem commitPrepared_guards (env : MemberEnv) (prepared : PreparedReplicaFlush)
    (sound : replica.Sound) (apart : prepared.staged.Apart)
    (current : ∀ peer ∈ replica.state.denied, peer ∈ prepared.staged.denied) :
    Action.Ensures (commitPrepared env prepared) replica fun _ after => Guards replica after := by
  unfold commitPrepared
  refine .get (.ofExcept (fun _ _ => .refl sound) fun _ _ => .require (fun _ => .refl sound) fun _ => ?_)
  exact .next (applyStaged_guards env sound ⟨current, fun _ => apart⟩) (fun _ _ applied => applied)
    fun _ _ applied => .pure applied

/-! Chunk operations write the snapshot that the chunks remember. -/

/-- A data directory and chunks whose snapshots have the members and denials of a copy. -/
structure Files (staged : StagedReplica) (disk : Option DurableStore)
    (files : Option DurableStore × ChunkStore) : Prop where
  cached : ∀ metadata, files.2.metadata = some metadata → Snapshots staged metadata
  durable : files.1.isSome = disk.isSome
  stored : snapshotIn files.1 = snapshotIn disk ∨
    ∃ metadata, snapshotIn files.1 = some metadata ∧ Snapshots staged metadata

variable {staged : StagedReplica} {disk : Option DurableStore}

theorem put_files (env : FileEnv) (fileId : FileId) (index : Nat) (plaintext : Bytes) :
    Action.Preserves (Files staged disk) (ChunkStore.put env fileId index plaintext) := by
  rintro ⟨before, chunks⟩ files
  have same := put_diskFrame env fileId index plaintext (before, chunks)
  have metadata := put_metadata env fileId index plaintext (before, chunks)
  generalize ChunkStore.put env fileId index plaintext (before, chunks) = result at same metadata
  obtain ⟨r, after, next⟩ := result
  have sameStored : snapshotIn after = snapshotIn before := congrArg Prod.fst same
  refine ⟨?_, (congrArg Prod.snd same).trans files.durable, ?_⟩
  · change ∀ written, next.metadata = some written → _
    rw [show next.metadata = chunks.metadata from metadata]
    exact files.cached
  · change snapshotIn after = _ ∨ _
    rw [sameStored]
    exact files.stored

theorem persistMetadata_files (env : FileEnv) {metadata : ReplicaMetadata}
    (snapshots : Snapshots staged metadata) :
    Action.Preserves (Files staged disk) (ChunkStore.persistMetadata env metadata) := by
  rintro ⟨before, chunks⟩ files
  have outcome := ChunkStore.persistMetadata_outcome env metadata before chunks
  have cached := persistMetadata_cached env metadata before chunks
  unfold Action.Ensures at outcome cached
  generalize ChunkStore.persistMetadata env metadata (before, chunks) = result at outcome cached
  obtain ⟨r, after, next⟩ := result
  have written : Snapshots staged (snapshotOf metadata chunks.records) := snapshots
  have isCached : ∀ other, next.metadata = some other → Snapshots staged other := by
    intro other isOther
    obtain ⟨-, same⟩ | ⟨chunkIndex, isNew⟩ := cached
    · exact files.cached other (same ▸ isOther)
    · obtain rfl := Option.some.inj (isOther.symm.trans isNew)
      exact snapshots
  cases r with
  | error e =>
    obtain ⟨durable, stored⟩ := refused_snapshot outcome
    refine ⟨isCached, durable.trans files.durable, ?_⟩
    obtain same | isNew := stored
    · change snapshotIn after = _ ∨ _
      rw [same]
      exact files.stored
    · exact .inr ⟨_, isNew, written⟩
  | ok _ =>
    obtain ⟨durable, -, stored⟩ := done_snapshot outcome
    refine ⟨isCached, durable.trans files.durable, ?_⟩
    obtain nothing | isNew := stored
    · refine .inl ?_
      have none : disk = none := by
        have noDisk := files.durable.symm.trans durable.symm
        rw [nothing] at noDisk
        exact Option.isSome_eq_false_iff.mp noDisk |> Option.isNone_iff_eq_none.mp
      rw [none, nothing]
    · exact .inr ⟨_, isNew, written⟩

theorem persistCurrent_files (env : MemberEnv) :
    Action.Preserves (Files staged disk) (persistCurrent env) := by
  refine .get_bind ?_
  rintro ⟨before, chunks⟩ files
  dsimp only
  cases isMetadata : chunks.metadata with
  | none => exact files
  | some metadata => exact persistMetadata_files env.files (files.cached metadata isMetadata) _ files

theorem storeAllPulled_files (env : MemberEnv) (current : ChunkStore)
    (pulled : List (FileId × Nat × Bytes)) :
    Action.Preserves (Files staged disk) (storeAllPulled env current pulled) := by
  refine .bind (.foldlM fun count body _ => ?_) fun count => ?_
  · refine .bind .get fun files => ?_
    exact .ite (fun _ => .bind (put_files _ _ _ _) fun _ => .pure _) fun _ => .pure _
  · exact .ite (fun _ => .pure _) fun _ => .bind (persistCurrent_files env) fun _ => .pure _

theorem evictChunks_files (env : MemberEnv) (fileId : FileId) :
    Action.Preserves (Files staged disk) (evictChunks env fileId) := by
  have removed : ∀ files, Files staged disk files →
      Files staged disk (files.1, files.2.removeFile fileId) := by
    rintro ⟨before, chunks⟩ files
    refine ⟨fun metadata isMetadata => ?_, files.durable, files.stored⟩
    obtain ⟨cached, isCached, rfl⟩ := Option.map_eq_some_iff.mp isMetadata
    exact files.cached cached isCached
  refine .bind (.modify removed) fun _ => .get_bind ?_
  rintro ⟨before, chunks⟩ files
  dsimp only
  cases isMetadata : chunks.metadata with
  | none => exact files
  | some metadata => exact persistMetadata_files env.files (files.cached metadata isMetadata) _ files

theorem putBodies_files (env : MemberEnv) (fileId : FileId) (bodies : List (Bytes × Nat)) :
    Action.Preserves (Files staged disk) (putBodies env fileId bodies) := by
  refine .bind (.forEach fun body _ => ?_) fun _ => persistCurrent_files env
  exact .bind (put_files _ _ _ _) fun _ => .pure _

omit [Primitives] in
theorem Files.guards {after : Option DurableStore} {next chunks : ChunkStore} (sound : replica.Sound)
    (files : Files replica.state replica.disk (after, next))
    (cached : ∀ metadata, chunks.metadata = some metadata → Snapshots replica.state metadata) :
    Guards replica { replica with disk := after, state := { replica.state with chunks } } := by
  refine ⟨⟨sound.apart, cached, fun metadata isStored => ?_, fun isDurable => ?_⟩,
    fun _ known => known⟩
  · obtain same | ⟨written, isWritten, snapshots⟩ := files.stored
    · exact sound.stored metadata (same.symm.trans isStored)
    · obtain rfl := Option.some.inj (isStored.symm.trans isWritten)
      refine ⟨fun peer known => ?_, snapshots.apart sound.apart⟩
      rw [snapshots.2]
      exact known
  · obtain same | ⟨written, isWritten, -⟩ := files.stored
    · change (snapshotIn after).isSome = true
      have durable : after.isSome = replica.disk.isSome := files.durable
      have kept : snapshotIn after = snapshotIn replica.disk := same
      rw [kept]
      exact sound.durable (durable ▸ isDurable)
    · change (snapshotIn after).isSome = true
      have isNew : snapshotIn after = some written := isWritten
      rw [isNew]
      rfl

omit [Primitives] in
theorem onChunks_guards {α β : Type} {x : Action Error (Option DurableStore × ChunkStore) α}
    {f : α × ChunkStore → Action Error MemberReplica β} (sound : replica.Sound)
    (h : Action.Preserves (Files replica.state replica.disk) x)
    (rest : ∀ a disk chunks,
      Guards replica (MemberReplica.withChunks chunks { replica with disk }) →
      Action.Ensures (f (a, chunks)) { replica with disk } fun _ after => Guards replica after) :
    Action.Ensures (MemberReplica.onChunks replica.state.chunks x >>= f) replica
      fun _ after => Guards replica after := by
  have initially : Files replica.state replica.disk (replica.disk, replica.state.chunks) :=
    ⟨sound.cached, rfl, .inl rfl⟩
  refine onChunks_next (R := fun _ after => Files replica.state replica.disk after)
    (h _ initially) ?_ ?_
  · exact fun e disk next files => files.guards sound sound.cached
  · exact fun a disk next files => rest a disk next (files.guards sound files.cached)

theorem acceptPulled_guards (env : MemberEnv) (responses : List ChunkBodyFrame)
    (trusted : Manifest) (sound : replica.Sound) :
    Action.Ensures (acceptPulled env responses trusted) replica
      fun _ after => Guards replica after := by
  unfold acceptPulled
  have opens : Action.Keeps KeyStore.identity
      (responses.foldlM (openPulled trusted replica.state.chunks) []) := by
    refine .foldlM fun staged frame => .bind (.query _) fun _ => .bind (.query _) fun _ => ?_
    exact .bind (openChunk_identity _ _ _) fun _ => .ite (.pure _) (.pure _)
  refine .get (.keeps (onKeys_visible opens) (fun _ _ _ same => .of_visible sound same)
    fun pulled opened _ same => ?_)
  have guards : Guards replica opened := .of_visible sound same
  have state : opened.state = replica.state := congrArg Visible.state same
  rw [← state]
  refine Action.Ensures.mono (R := fun _ after => Guards opened after)
    (onChunks_guards guards.sound (storeAllPulled_files env _ _) fun _ _ _ shown => ?_)
    fun _ t stored => ?_
  · exact .modify (.pure shown)
  · exact ⟨stored.sound, fun peer known => stored.denied peer (guards.denied peer known)⟩

theorem evictFile_guards (env : MemberEnv) (fileId : FileId) (sound : replica.Sound) :
    Action.Ensures (evictFile env fileId) replica fun _ after => Guards replica after := by
  unfold evictFile
  refine .get (.ofExcept (fun _ _ => .refl sound) fun _ _ => .require (fun _ => .refl sound) fun _ => ?_)
  refine .query (fun _ _ => .refl sound) fun _ _ => .query (fun _ _ => .refl sound) fun _ _ => ?_
  refine .ofExcept (fun _ _ => .refl sound) fun _ _ => .require (fun _ => .refl sound) fun _ => ?_
  exact onChunks_guards sound (evictChunks_files env fileId)
    fun _ _ _ shown => .modify (.pure shown)

theorem storeLocalBodies_guards (env : MemberEnv) (manifest : Manifest) (bodies : List Bytes)
    (sound : replica.Sound) :
    Action.Ensures (storeLocalBodies env manifest bodies) replica
      fun _ after => Guards replica after := by
  unfold storeLocalBodies
  exact .get (onChunks_guards sound (putBodies_files env manifest.fileId _) fun _ _ _ shown => shown)

theorem ReplicaOp.guards (op : ReplicaOp) (sound : replica.Sound) :
    Guards replica (replicas.exec op replica) := by
  have before : ∀ {α : Type} {x : Action Error MemberReplica α},
      Action.Ensures x replica (fun _ after => Guards replica after) →
        Action.Ensures (do let _ ← x) replica fun _ after => Guards replica after :=
    fun h => .next h (fun _ _ guards => guards) fun _ _ guards => .pure guards
  cases op with
  | addMembers env members => exact addMembers_guards env members sound
  | learnHistory env documents => exact learnHistory_guards env documents sound
  | reconcileMembers env members denied => exact reconcileMembers_guards env members denied sound
  | acceptPulled env responses trusted => exact before (acceptPulled_guards env responses trusted sound)
  | evictFile env fileId => exact before (evictFile_guards env fileId sound)
  | storeLocalBodies env manifest bodies => exact storeLocalBodies_guards env manifest bodies sound

end

/-- What a member starts from. -/
inductive Fresh : MemberReplica → Prop
  | memory {keys : KeyStore} {hostId : PeerId} {members : OrdSet PeerId} {root : FileId}
      {replica : MemberReplica} :
      newInVault keys hostId members ⟨∅, none⟩ root = .ok replica → Fresh replica
  | durable {env : MemberEnv} {keys : KeyStore} {disk : DurableStore} {root : FileId}
      {hostId : PeerId} {members : OrdSet PeerId} {replica : MemberReplica} :
      disk.replicaFile = none →
      openDurable env keys disk root hostId members = .ok replica → Fresh replica

theorem openDurable_eq_ok {env : MemberEnv} {keys : KeyStore} {disk : DurableStore} {root : FileId}
    {hostId : PeerId} {members : OrdSet PeerId} {replica : MemberReplica}
    (h : openDurable env keys disk root hostId members = .ok replica) :
    ∃ opened stored chunks localId tree, disk.open env.files root = .ok (opened, stored, chunks) ∧
      applyFresh env stored.isNone (restored keys hostId localId root opened
        (stored.getD { ReplicaMetadata.new root with members }) tree chunks) = (.ok (), replica) := by
  unfold openDurable at h
  obtain ⟨⟨opened, stored, chunks⟩, isOpened, h⟩ := Result.bind_eq_ok.mp h
  obtain ⟨localId, _, h⟩ := Result.bind_eq_ok.mp h
  obtain ⟨_, _, h⟩ := Result.bind_eq_ok.mp h
  obtain ⟨_, _, h⟩ := Result.bind_eq_ok.mp h
  obtain ⟨_, _, h⟩ := Result.bind_eq_ok.mp h
  obtain ⟨tree, _, h⟩ := Result.bind_eq_ok.mp h
  refine ⟨opened, stored, chunks, localId, tree, isOpened, ?_⟩
  generalize applyFresh env stored.isNone _ = result at h
  obtain ⟨r, last⟩ := result
  cases r with
  | error e => cases h
  | ok _ => exact Prod.ext rfl (Except.ok.inj h)

theorem openDurable_guards {env : MemberEnv} {keys : KeyStore} {disk : DurableStore} {root : FileId}
    {hostId : PeerId} {members : OrdSet PeerId} {before after : MemberReplica}
    (sound : before.Sound) (isDisk : before.disk = some disk)
    (h : openDurable env keys disk root hostId members = .ok after) : Guards before after := by
  obtain ⟨opened, stored, chunks, localId, tree, isOpened, applied⟩ := openDurable_eq_ok h
  obtain ⟨isStored, sameFile, isCached⟩ := DurableStore.open_eq_ok isOpened
  obtain ⟨written, isWritten⟩ := Option.isSome_iff_exists.mp
    (sound.durable (by rw [isDisk]; rfl))
  obtain ⟨grows, apart⟩ := sound.stored written isWritten
  have kept : snapshotIn (some opened) = some written := by
    unfold MemberReplica.stored snapshotIn at isWritten
    unfold snapshotIn
    rw [Option.bind_some, sameFile]
    rwa [isDisk] at isWritten
  obtain ⟨file, isFile, rfl⟩ := Option.map_eq_some_iff.mp kept
  rw [← sameFile, show opened.replicaFile = some file from isFile] at isStored
  obtain ⟨metadata, isRead, rfl⟩ := Result.mapM_some_eq_ok.mp isStored
  obtain ⟨tree, -, -, rfl⟩ := ReplicaMetadata.reread_eq_ok.mp isRead
  obtain rfl := congrArg Prod.snd applied
  refine ⟨⟨apart, ?_, ?_, ?_⟩, grows⟩
  · intro other isOther
    obtain rfl := Option.some.inj (isCached.symm.trans isOther)
    exact ⟨rfl, rfl⟩
  · intro other isOther
    obtain rfl := Option.some.inj (kept.symm.trans isOther)
    exact ⟨fun _ known => known, apart⟩
  · intro _
    exact congrArg Option.isSome kept

end QuantumFs.Member
