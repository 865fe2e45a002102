import QuantumFs.Host.Mirror
import QuantumFs.Member.Denied

/-! A member that starts from a snapshot (`prepare_mailbox_for_session`). Every record that it
stages is followed on its own tree and manifests, so the queue that waits for it at the host
makes its replica what the vault is now. -/
namespace QuantumFs.Member

open Lib Encoding Crypto Store Host

def StagedReplica.mirror (staged : StagedReplica) : Mirror := ⟨staged.tree, staged.manifests⟩

def Opened.record? : Opened → Option ControlRecord
  | .control record => some record
  | .chunk _ _ _ => none

/-- What the sender has put into an envelope. -/
def openedOf (chunks : ChunkStore) : QueueContent → Opened
  | .control record => .control record
  | .chunk fileId index chunkId => .chunk fileId index ((chunks.get chunkId).getD [])

theorem openedOf_record (chunks : ChunkStore) (content : QueueContent) :
    (openedOf chunks content).record? = content.record? := by
  cases content <;> rfl

variable [Primitives]

theorem stageUpdate_mirror {keys : KeyStore} {hostId : PeerId} {acceptedSnapshot : Bool}
    {update : ControlUpdate} {staged next : StagedReplica}
    (h : stageUpdate keys hostId acceptedSnapshot update staged = .ok next) :
    next.manifests = Mirror.learn staged.manifests update ∧ next.controls = staged.controls ∧
      next.log = staged.log ∧ next.bootstrapThrough = staged.bootstrapThrough := by
  cases update with
  | newManifest manifest =>
    change stageManifest keys acceptedSnapshot manifest staged = .ok next at h
    unfold stageManifest at h
    have admitted : ∀ shown : StagedReplica,
        shown = (if acceptedSnapshot then staged else admitWriter staged manifest.writerId) →
        shown.manifests = staged.manifests ∧ shown.controls = staged.controls ∧
          shown.log = staged.log ∧ shown.bootstrapThrough = staged.bootstrapThrough := by
      rintro _ rfl
      unfold admitWriter
      split
      · exact ⟨rfl, rfl, rfl, rfl⟩
      · split <;> exact ⟨rfl, rfl, rfl, rfl⟩
    have known := admitted _ rfl
    generalize (if acceptedSnapshot then staged else admitWriter staged manifest.writerId) = shown
      at h known
    dsimp only at h
    have shows : next = { shown with manifests := shown.manifests.insert manifest.fileId manifest } := by
      split at h
      · obtain ⟨_, _, h⟩ := Result.bind_eq_ok.mp h
        exact (Except.ok.inj h).symm
      · obtain ⟨_, _, h⟩ := Result.bind_eq_ok.mp h
        exact (Except.ok.inj h).symm
    obtain ⟨manifests, controls, log, bootstrap⟩ := known
    rw [shows]
    refine ⟨?_, controls, log, bootstrap⟩
    change shown.manifests.insert manifest.fileId manifest = _
    rw [manifests]
    rfl
  | kick target =>
    obtain ⟨_, _, h⟩ := Result.bind_eq_ok.mp h
    obtain rfl := Except.ok.inj h
    exact ⟨rfl, rfl, rfl, rfl⟩
  | _ =>
    obtain rfl := Except.ok.inj h
    exact ⟨rfl, rfl, rfl, rfl⟩

theorem stageRecord_follows {keys : KeyStore} {hostId : PeerId} {acceptedSnapshot : Bool}
    {record : ControlRecord} {staged next : StagedReplica}
    (h : stageRecord keys hostId acceptedSnapshot record staged = .ok next) :
    staged.mirror.follow record.update = .ok next.mirror ∧
      next.controls = staged.controls.insert record.id record ∧ next.log = staged.log ++ [record] ∧
      next.bootstrapThrough = staged.bootstrapThrough := by
  unfold stageRecord at h
  obtain ⟨_, _, h⟩ := Result.bind_eq_ok.mp h
  obtain ⟨_, _, h⟩ := Result.bind_eq_ok.mp h
  obtain ⟨⟨tree, removed⟩, applied, h⟩ := Result.bind_eq_ok.mp h
  obtain ⟨updated, isUpdated, h⟩ := Result.bind_eq_ok.mp h
  obtain rfl := Except.ok.inj h
  obtain ⟨manifests, controls, log, bootstrap⟩ := stageUpdate_mirror isUpdated
  have forgotten : (stageRemoved removed updated).manifests = Mirror.forget removed updated.manifests ∧
      (stageRemoved removed updated).controls = updated.controls ∧
      (stageRemoved removed updated).log = updated.log ∧
      (stageRemoved removed updated).bootstrapThrough = updated.bootstrapThrough := by
    cases removed <;> exact ⟨rfl, rfl, rfl, rfl⟩
  obtain ⟨removedManifests, removedControls, removedLog, removedBootstrap⟩ := forgotten
  refine ⟨Mirror.follow_eq_ok.mpr ⟨tree, removed, applied, ?_⟩, ?_, ?_,
    removedBootstrap.trans bootstrap⟩
  · unfold StagedReplica.mirror
    dsimp only
    rw [removedManifests, manifests]
  · dsimp only
    rw [removedControls, controls]
  · dsimp only
    rw [removedLog, log]

/-- A batch that began at an empty vault and has read these records. -/
structure Reads (root : FileId) (records : List ControlRecord) (staged : StagedReplica) : Prop where
  follows : (records.map ControlRecord.update).foldlM Mirror.follow (.empty root) = .ok staged.mirror
  known : ∀ id : Nat, staged.controls.contains id = true → id ∈ records.map ControlRecord.id
  log : staged.log = records
  start : staged.bootstrapThrough = 0

variable {root : FileId} {records : List ControlRecord} {staged next : StagedReplica}

theorem Reads.is_new (reads : Reads root records staged) (keys : KeyStore) (hostId : PeerId)
    (acceptedSnapshot : Bool) {record : ControlRecord}
    (fresh : record.id ∉ records.map ControlRecord.id) (pos : 0 < record.id) :
    stageControlMode keys hostId acceptedSnapshot record staged =
      (stageRecord keys hostId acceptedSnapshot record staged >>= fun next => pure (next, true)) := by
  unfold stageControlMode
  have above : ¬ record.id ≤ staged.bootstrapThrough := by
    rw [reads.start]
    omega
  have unknown : staged.controls[record.id]? = none := by
    cases found : staged.controls[record.id]? with
    | none => rfl
    | some prior => exact absurd (reads.known _ ((Map.contains_iff_get _ _).mpr ⟨prior, found⟩)) fresh
  rw [if_neg above, unknown]

theorem Reads.stage (reads : Reads root records staged) {keys : KeyStore} {hostId : PeerId}
    {acceptedSnapshot isNew : Bool} {record : ControlRecord}
    (fresh : record.id ∉ records.map ControlRecord.id) (pos : 0 < record.id)
    (h : stageControlMode keys hostId acceptedSnapshot record staged = .ok (next, isNew)) :
    Reads root (records ++ [record]) next := by
  rw [reads.is_new keys hostId acceptedSnapshot fresh pos] at h
  obtain ⟨after, isStaged, h⟩ := Result.bind_eq_ok.mp h
  obtain rfl := congrArg Prod.fst (Except.ok.inj h)
  obtain ⟨follows, controls, log, bootstrap⟩ := stageRecord_follows isStaged
  refine ⟨?_, fun id isKnown => ?_, ?_, bootstrap.trans reads.start⟩
  · rw [List.map_append, List.foldlM_append]
    refine Result.bind_eq_ok.mpr ⟨staged.mirror, reads.follows, ?_⟩
    rw [List.map_singleton, List.foldlM_cons, follows]
    rfl
  · rw [List.map_append, List.mem_append]
    obtain ⟨found, isFound⟩ := (Map.contains_iff_get _ _).mp isKnown
    rw [controls, Map.get_insert] at isFound
    split at isFound
    · rename_i same
      exact .inr (List.mem_singleton.mpr same.symm)
    · exact .inl (reads.known id ((Map.contains_iff_get _ _).mpr ⟨found, isFound⟩))
  · rw [log, reads.log]

def Keeps (before after : MemberReplica) : Prop :=
  ∀ envelope opened, receiptOf before.receipts envelope = some opened →
    receiptOf after.receipts envelope = some opened

omit [Primitives] in
theorem receiptOf_append {receipts : List (MailboxEnvelope × Opened)} {envelope : MailboxEnvelope}
    {opened : Opened} (h : receiptOf receipts envelope = some opened)
    (more : List (MailboxEnvelope × Opened)) : receiptOf (receipts ++ more) envelope = some opened := by
  unfold receiptOf at *
  obtain ⟨receipt, found, same⟩ := Option.map_eq_some_iff.mp h
  rw [List.find?_append, found]
  exact congrArg some same

omit [Primitives] in
theorem receiptOf_new {receipts : List (MailboxEnvelope × Opened)} {envelope : MailboxEnvelope}
    (h : receiptOf receipts envelope = none) (opened : Opened) :
    receiptOf (receipts ++ [(envelope, opened)]) envelope = some opened := by
  unfold receiptOf at *
  rw [List.find?_append, Option.map_eq_none_iff.mp h]
  simp

theorem openEnvelope_receipt (session : PairSession) (staged : StagedReplica)
    (envelope : MailboxEnvelope) (frame : MailboxFrame) (replica : MemberReplica) :
    Action.Ensures (openEnvelope session staged envelope frame) replica fun r t => Keeps replica t ∧
      ∀ opened, r = .ok opened → receiptOf t.receipts envelope = some opened := by
  unfold openEnvelope
  refine .get ?_
  split
  · rename_i opened found
    refine .pure ⟨fun _ _ known => known, ?_⟩
    rintro _ ⟨⟩
    exact found
  · rename_i missing
    have same : Action.Keeps MemberReplica.receipts
        (MemberReplica.onKeys (openFrame session staged (headerOf envelope) frame)) := fun _ => rfl
    refine .next (.of_keeps same) (fun e t kept => ⟨?_, fun _ never => ?_⟩) fun opened t kept => ?_
    · intro _ _ known
      rw [kept]
      exact known
    · cases never
    · refine .modify (.pure ⟨fun _ _ known => ?_, ?_⟩)
      · exact receiptOf_append (kept ▸ known) _
      · rintro _ ⟨⟩
        exact receiptOf_new (kept ▸ missing) opened

theorem readEnvelope_follows (session : PairSession) (installing : Option Nat) (batch : Batch)
    (envelope : MailboxEnvelope) (replica : MemberReplica) :
    Action.Ensures (readEnvelope session installing batch envelope) replica fun r t =>
      Keeps replica t ∧ ∀ after : Batch, r = .ok after → ∃ opened,
        receiptOf t.receipts envelope = some opened ∧ ∀ records, Reads root records batch.staged →
          (∀ record ∈ opened.record?, record.id ∉ records.map ControlRecord.id ∧ 0 < record.id) →
          Reads root (records ++ opened.record?.toList) after.staged := by
  have refused : ∀ e : Error, Keeps replica replica ∧ ∀ after : Batch,
      (.error e : Result Batch) = .ok after → ∃ opened,
        receiptOf replica.receipts envelope = some opened ∧ ∀ records, Reads root records batch.staged →
          (∀ record ∈ opened.record?, record.id ∉ records.map ControlRecord.id ∧ 0 < record.id) →
          Reads root (records ++ opened.record?.toList) after.staged := by
    intro e
    refine ⟨fun _ _ known => known, fun _ never => ?_⟩
    cases never
  unfold readEnvelope
  refine .query (fun e _ => refused e) fun _ _ => .ofExcept (fun e _ => refused e) fun frame _ => ?_
  refine .ofExcept (fun e _ => refused e) fun counted isCounted => ?_
  refine .next (openEnvelope_receipt session counted.staged envelope frame replica) ?_ ?_
  · rintro e t ⟨kept, -⟩
    refine ⟨kept, fun _ never => ?_⟩
    cases never
  · rintro opened t ⟨kept, receipt⟩
    unfold Action.Ensures
    rw [Action.query_apply]
    refine ⟨kept, fun after isAfter => ⟨opened, receipt opened rfl, fun records reads fresh => ?_⟩⟩
    rw [← countEnvelope_staged isCounted] at reads
    cases opened with
    | control record =>
      obtain ⟨⟨staged, isNew⟩, isStaged, h⟩ := Result.bind_eq_ok.mp isAfter
      obtain rfl := Except.ok.inj h
      obtain ⟨unseen, pos⟩ := fresh record rfl
      exact reads.stage unseen pos isStaged
    | chunk fileId index plaintext =>
      obtain ⟨_, _, h⟩ := Result.bind_eq_ok.mp isAfter
      obtain rfl := Except.ok.inj h
      change Reads root (records ++ []) _
      rw [List.append_nil]
      exact reads

omit [Primitives] in
theorem Keeps.trans {first second third : MemberReplica} (left : Keeps first second)
    (right : Keeps second third) : Keeps first third :=
  fun envelope opened known => right envelope opened (left envelope opened known)

def controlsOf (queue : List Queued) : List ControlRecord :=
  (queue.map Queued.content).filterMap QueueContent.record?

omit [Primitives] in
theorem controlsOf_cons (entry : Queued) (queue : List Queued) :
    controlsOf (entry :: queue) = entry.content.record?.toList ++ controlsOf queue := by
  unfold controlsOf
  rw [List.map_cons, List.filterMap_cons]
  cases entry.content <;> rfl

/-- Every envelope was opened to what it was sealed from. -/
def Delivered (chunks : ChunkStore) (queue : List Queued) (replica : MemberReplica) : Prop :=
  ∀ entry ∈ queue, receiptOf replica.receipts entry.envelope = some (openedOf chunks entry.content)

instance (chunks : ChunkStore) (queue : List Queued) (replica : MemberReplica) :
    Decidable (Delivered chunks queue replica) := inferInstanceAs (Decidable (∀ entry ∈ queue, _))

/-- Records in the order of their numbers, none of which is zero. -/
structure Numbered (records : List ControlRecord) : Prop where
  sorted : (records.map ControlRecord.id).Pairwise (· < ·)
  positive : ∀ record ∈ records, 0 < record.id

omit [Primitives] in
theorem Numbered.fresh {done later : List ControlRecord} {record : ControlRecord}
    (numbered : Numbered (done ++ record :: later)) :
    record.id ∉ done.map ControlRecord.id ∧ 0 < record.id := by
  obtain ⟨sorted, positive⟩ := numbered
  rw [List.map_append, List.pairwise_append] at sorted
  refine ⟨fun again => ?_, positive record (List.mem_append_right _ List.mem_cons_self)⟩
  exact lt_irrefl _ (sorted.2.2 record.id again record.id List.mem_cons_self)

theorem readQueue_follows (session : PairSession) (installing : Option Nat) (chunks : ChunkStore)
    (queue : List Queued) : ∀ (batch : Batch) (replica : MemberReplica),
      Action.Ensures ((queue.map Queued.envelope).foldlM (readEnvelope session installing) batch) replica
        fun r t => Keeps replica t ∧ ∀ final : Batch, r = .ok final → Delivered chunks queue t →
          ∀ records, Reads root records batch.staged → Numbered (records ++ controlsOf queue) →
            Reads root (records ++ controlsOf queue) final.staged := by
  induction queue with
  | nil =>
    intro batch replica
    refine .pure ⟨fun _ _ known => known, ?_⟩
    rintro _ ⟨⟩ _ records reads _
    change Reads root (records ++ []) _
    rw [List.append_nil]
    exact reads
  | cons entry queue ih =>
    intro batch replica
    rw [List.map_cons, List.foldlM_cons]
    refine .next (@readEnvelope_follows _ root session installing batch entry.envelope replica) ?_ ?_
    · rintro e t ⟨kept, -⟩
      refine ⟨kept, fun _ never => ?_⟩
      cases never
    · rintro after t ⟨kept, follows⟩
      obtain ⟨opened, receipt, follows⟩ := follows after rfl
      refine .mono (ih after t) fun r u outcome => ?_
      obtain ⟨keptLater, rest⟩ := outcome
      refine ⟨kept.trans keptLater, fun final isFinal delivered records reads numbered => ?_⟩
      have isOpened := (keptLater _ _ receipt).symm.trans (delivered entry List.mem_cons_self)
      obtain rfl := Option.some.inj isOpened
      rw [controlsOf_cons, ← openedOf_record chunks, ← List.append_assoc] at numbered ⊢
      refine rest final isFinal (fun other mem => delivered other (List.mem_cons_of_mem _ mem)) _ ?_ numbered
      refine follows records reads fun record isRecord => ?_
      rw [Option.mem_def] at isRecord
      rw [isRecord, List.append_assoc] at numbered
      exact numbered.fresh

omit [Primitives] in
theorem beginBootstrap_reads {replica : MemberReplica} {through : Nat} {installing : Option Nat}
    (blank : replica.state.bootstrapThrough = 0) (nonzero : through ≠ 0)
    (h : beginBootstrap replica (some through) = .ok (staged, installing)) :
    Reads replica.expectedRoot [] staged ∧ installing = some through := by
  unfold beginBootstrap at h
  dsimp only at h
  rw [blank, if_neg nonzero] at h
  obtain ⟨_, _, h⟩ := Result.bind_eq_ok.mp h
  obtain ⟨_, _, h⟩ := Result.bind_eq_ok.mp h
  obtain ⟨rfl, rfl⟩ := Prod.mk.inj (Except.ok.inj h)
  refine ⟨⟨rfl, fun id known => ?_, rfl, rfl⟩, rfl⟩
  rw [Std.ExtTreeMap.contains_empty] at known
  cases known

theorem learnDocuments_reads {documents : List IdentityDocument} : ∀ {staged next : StagedReplica},
    documents.foldlM learnDocument staged = .ok next → Reads root records staged →
      Reads root records next := by
  induction documents with
  | nil =>
    intro staged next h reads
    obtain rfl := Except.ok.inj h
    exact reads
  | cons document documents ih =>
    intro staged next h reads
    rw [List.foldlM_cons] at h
    obtain ⟨learned, isLearned, h⟩ := Result.bind_eq_ok.mp h
    obtain ⟨_, _, isLearned⟩ := Result.bind_eq_ok.mp isLearned
    obtain rfl := Except.ok.inj isLearned
    exact ih h ⟨reads.follows, reads.known, reads.log, reads.start⟩

omit [Primitives] in
theorem onChunks_receipts {α : Type} (chunks : ChunkStore)
    (x : Action Error (Option DurableStore × ChunkStore) α) :
    Action.Keeps MemberReplica.receipts (MemberReplica.onChunks chunks x) := by
  intro replica
  unfold MemberReplica.onChunks
  generalize x (replica.disk, chunks) = result
  obtain ⟨r, disk, next⟩ := result
  cases r <;> rfl

theorem finishBatch_installs (env : MemberEnv) (through : Nat) (batch : Batch) (replica : MemberReplica) :
    Action.Ensures (finishBatch env (some through) batch) replica fun r t =>
      t.receipts = replica.receipts ∧ ∀ finished, r = .ok finished →
        finished.1.mirror = batch.staged.mirror ∧ finished.1.log = batch.staged.log ∧
          finished.1.bootstrapThrough = through := by
  unfold finishBatch
  refine .next (.of_keeps (onChunks_receipts _ _)) (fun e t kept => ⟨kept, fun _ never => ?_⟩) ?_
  · cases never
  · rintro ⟨written, chunks⟩ t kept
    refine .require (fun _ => ⟨kept, fun _ never => ?_⟩) fun _ => .pure ⟨kept, ?_⟩
    · cases never
    · rintro _ ⟨⟩
      exact ⟨rfl, rfl, rfl⟩

theorem prepareMailbox_follows (env : MemberEnv) (history : List IdentityDocument)
    (session : PairSession) {through : Nat} (nonzero : through ≠ 0) (chunks : ChunkStore)
    (queue : List Queued) {replica : MemberReplica} (blank : replica.state.bootstrapThrough = 0) :
    Action.Ensures (prepareMailboxForSession env (queue.map Queued.envelope) history (some through) session)
      replica fun r t => ∀ prepared, r = .ok prepared → Delivered chunks queue t →
        Numbered (controlsOf queue) →
          ((controlsOf queue).map ControlRecord.update).foldlM Mirror.follow (.empty replica.expectedRoot) =
            .ok prepared.staged.mirror ∧ prepared.staged.log = controlsOf queue ∧
          prepared.staged.bootstrapThrough = through := by
  have never : ∀ {e : Error} {prepared : PreparedReplicaFlush} {p : Prop},
      (.error e : Result PreparedReplicaFlush) = .ok prepared → p := by
    intro e prepared p h
    cases h
  unfold prepareMailboxForSession
  refine .get (.require (fun _ _ h => never h) fun _ => .modify ?_)
  refine .ofExcept (fun _ _ _ h => never h) ?_
  rintro ⟨begun, installing⟩ isBegun
  obtain ⟨reads, rfl⟩ := beginBootstrap_reads blank nonzero isBegun
  refine .ofExcept (fun _ _ _ h => never h) fun learned isLearned => ?_
  have reads := learnDocuments_reads isLearned reads
  refine .next (@readQueue_follows _ replica.expectedRoot session (some through) chunks queue _ _)
    (fun _ _ _ _ h => never h) fun batch t outcome => ?_
  refine .next (finishBatch_installs env through batch t) (fun _ _ _ _ h => never h) ?_
  rintro ⟨staged, report⟩ u ⟨receipts, finished⟩
  refine .query (fun _ _ _ h => never h) fun peerId _ => .pure ?_
  rintro _ ⟨⟩ delivered numbered
  obtain ⟨mirror, log, bootstrap⟩ := finished _ rfl
  have arrived : Delivered chunks queue t := fun entry mem => receipts ▸ delivered entry mem
  have whole := outcome.2 batch rfl arrived [] reads numbered
  rw [List.nil_append] at whole
  dsimp only at mirror log bootstrap ⊢
  exact ⟨mirror ▸ whole.follows, log.trans whole.log, bootstrap⟩

theorem commitPrepared_shows (env : MemberEnv) (prepared : PreparedReplicaFlush) (replica : MemberReplica) :
    Action.Ensures (commitPrepared env prepared) replica fun r t => ∀ report, r = .ok report →
      t.state.tree = prepared.staged.tree ∧ t.state.manifests = prepared.staged.manifests ∧
        t.lastApplied = lastOf replica.lastApplied prepared.staged := by
  have never : ∀ {e : Error} {report : FlushReport} {p : Prop},
      (.error e : Result FlushReport) = .ok report → p := by
    intro e report p h
    cases h
  unfold commitPrepared
  refine .get (.ofExcept (fun _ _ _ h => never h) fun _ _ => .require (fun _ _ h => never h) fun _ => ?_)
  refine .next (applyStaged_outcome env prepared.staged replica) (fun _ _ _ _ h => never h) ?_
  rintro _ t outcome
  refine .pure fun _ _ => ?_
  obtain ⟨failed, -⟩ | ⟨applied, last, -⟩ := outcome.shown
  · exact absurd rfl failed
  · exact ⟨applied.tree, applied.manifests, last⟩

/-- At any time in any run of the host, for a member whose snapshot is still queued: whatever was
instructed, kicked, restarted or queued since, an empty replica that opens the queue to what was
sealed in it and accepts it has the tree and the manifests of the host, and once they are
committed it stands at the last instruction. -/
theorem bootstrap_converges {start : HostService} (fresh : Host.Fresh start) (ops : List HostOp) :
    let s := (machine.run ops start).state
    ∀ (peer : PeerId) (through : Nat), s.bootstrapThrough[peer]? = some through → through ≠ 0 →
      let queue := s.mailboxes[peer]?.getD []
      queue ≠ [] ∧
      ∀ (env : MemberEnv) (history : List IdentityDocument) (session : PairSession)
        (replica read : MemberReplica) (prepared : PreparedReplicaFlush),
        replica.expectedRoot = s.expectedRoot → replica.state.bootstrapThrough = 0 →
        prepareMailboxForSession env (queue.map Queued.envelope) history (some through) session replica =
          (.ok prepared, read) →
        Delivered s.chunks queue read →
        prepared.staged.tree = s.tree ∧ prepared.staged.manifests = s.manifests ∧
        ∀ (env : MemberEnv) (report : FlushReport) (after : MemberReplica),
          commitPrepared env prepared read = (.ok report, after) →
          after.state.tree = s.tree ∧ after.state.manifests = s.manifests ∧
            after.lastApplied = s.nextControl - 1 := by
  intro s peer through found nonzero queue
  have inv := (fresh.inv stable_mirrored.toSettled initially_mirrored).run stable_mirrored ops
  have sound : s.content.Sound := inv.sound
  have awaits : s.content.Awaits peer through := inv.holds.awaits peer through found nonzero
  have pending : s.content.pending peer = controlsOf queue :=
    (congrArg _ awaits.offline).trans (List.append_nil _)
  have numbered : Numbered (controlsOf queue) :=
    ⟨pending ▸ sound.order peer, pending ▸ awaits.positive⟩
  have last := awaits.last
  rw [pending] at last
  refine ⟨?_, ?_⟩
  · intro nothing
    rw [nothing] at last
    cases last
  intro env history session replica read prepared root blank isPrepared delivered
  have outcome := prepareMailbox_follows env history session nonzero s.chunks queue blank
  unfold Action.Ensures at outcome
  rw [isPrepared] at outcome
  obtain ⟨follows, log, bootstrap⟩ := outcome prepared rfl delivered numbered
  have same := awaits.follows
  rw [pending] at same
  rw [root] at follows
  have mirror : prepared.staged.mirror = s.content.mirror := Except.ok.inj (follows.symm.trans same)
  have tree : prepared.staged.tree = s.tree := congrArg Mirror.tree mirror
  have manifests : prepared.staged.manifests = s.manifests := congrArg Mirror.manifests mirror
  refine ⟨tree, manifests, fun env report after isCommitted => ?_⟩
  have shows := commitPrepared_shows env prepared read
  unfold Action.Ensures at shows
  rw [isCommitted] at shows
  obtain ⟨shownTree, shownManifests, position⟩ := shows report rfl
  refine ⟨shownTree.trans tree, shownManifests.trans manifests, ?_⟩
  have below : through < s.nextControl := by
    have below : s.bootstrapThrough[peer]?.getD 0 < s.nextControl := sound.bootstrap peer
    rw [found] at below
    exact below
  rw [position]
  unfold lastOf
  rw [log, bootstrap, ← List.getLast?_map, last]
  change max (s.nextControl - 1) through = s.nextControl - 1
  omega

/-- An update that the snapshot of a vault with these manifests can hold. -/
def Harmless (archive : Map PeerId IdentityDocument) (manifests : Map FileId Manifest) :
    ControlUpdate → Prop
  | .newManifest manifest => manifests.contains manifest.fileId = true ∧
      verifySnapshotManifest archive manifest = .ok ()
  | .link _ _ child true => manifests.contains child = false
  | .link _ _ _ false => True
  | .add _ => True
  | _ => False

variable {whole : Map FileId Manifest}

theorem stageRecord_accepts (keys : KeyStore) (hostId : PeerId) {record : ControlRecord} {mirror : Mirror}
    (harmless : Harmless staged.identityDocuments whole record.update)
    (within : ∀ fileId, staged.manifests.contains fileId = true → whole.contains fileId = true)
    (order : ∀ id : Nat, staged.controls.contains id = true → id < record.id)
    (follows : staged.mirror.follow record.update = .ok mirror) :
    ∃ next, stageRecord keys hostId true record staged = .ok next ∧
      next.identityDocuments = staged.identityDocuments := by
  obtain ⟨tree, removed, applied, -⟩ := Mirror.follow_eq_ok.mp follows
  have ordered : ∀ last ∈ staged.controls.maxKey?, last < record.id := by
    intro last isLast
    obtain ⟨mem, -⟩ := Std.ExtTreeMap.maxKey?_eq_some_iff_mem_and_forall.mp isLast
    exact order last (Std.ExtTreeMap.contains_iff_mem.mpr mem)
  have kind : validateLinkKind staged.manifests record.update = .ok () := by
    unfold validateLinkKind
    split
    · rename_i parent name child isLink
      rw [isLink] at harmless
      refine ensure_eq_ok.mpr (Bool.eq_false_iff.mpr fun known => ?_)
      have never : whole.contains child = false := harmless
      rw [within child known] at never
      cases never
    · rfl
  have updated : ∃ next, stageUpdate keys hostId true record.update staged = .ok next ∧
      next.identityDocuments = staged.identityDocuments := by
    generalize record.update = update at harmless
    cases update with
    | newManifest manifest =>
      obtain ⟨-, verified⟩ := harmless
      exact ⟨_, Result.bind_eq_ok.mpr ⟨(), verified, rfl⟩, rfl⟩
    | kick target => exact harmless.elim
    | _ => exact ⟨staged, rfl, rfl⟩
  obtain ⟨next, isNext, documents⟩ := updated
  refine ⟨_, Result.bind_eq_ok.mpr ⟨(), ensure_eq_ok.mpr ordered,
    Result.bind_eq_ok.mpr ⟨(), kind, Result.bind_eq_ok.mpr ⟨(tree, removed), applied,
      Result.bind_eq_ok.mpr ⟨next, isNext, rfl⟩⟩⟩⟩, ?_⟩
  rw [← documents]
  cases removed <;> rfl

theorem follow_within {archive : Map PeerId IdentityDocument} {mirror next : Mirror}
    {update : ControlUpdate} (harmless : Harmless archive whole update)
    (within : ∀ fileId, mirror.manifests.contains fileId = true → whole.contains fileId = true)
    (follows : mirror.follow update = .ok next) :
    ∀ fileId, next.manifests.contains fileId = true → whole.contains fileId = true := by
  obtain ⟨tree, removed, -, rfl⟩ := Mirror.follow_eq_ok.mp follows
  intro fileId known
  have learned : (Mirror.learn mirror.manifests update).contains fileId = true := by
    cases removed with
    | none => exact known
    | some gone =>
      obtain ⟨manifest, found⟩ := (Map.contains_iff_get _ _).mp known
      change ((Mirror.learn mirror.manifests update).erase gone)[fileId]? = some manifest at found
      rw [Map.get_erase] at found
      split at found
      · cases found
      · exact (Map.contains_iff_get _ _).mpr ⟨manifest, found⟩
  cases update with
  | newManifest manifest =>
    obtain ⟨found, isFound⟩ := (Map.contains_iff_get _ _).mp learned
    change (mirror.manifests.insert manifest.fileId manifest)[fileId]? = some found at isFound
    rw [Map.get_insert] at isFound
    split at isFound
    · rename_i same
      rw [← same]
      exact harmless.1
    · exact within fileId ((Map.contains_iff_get _ _).mpr ⟨found, isFound⟩)
  | _ => exact within fileId learned

theorem stageRecords_accepts (keys : KeyStore) (hostId : PeerId) {through : Nat}
    (records : List ControlRecord) : ∀ {done : List ControlRecord} {batch : Batch} {mirror : Mirror},
      Reads root done batch.staged → Numbered (done ++ records) →
      (∀ record ∈ records, record.id ≤ through ∧
        Harmless batch.staged.identityDocuments whole record.update) →
      (∀ fileId, batch.staged.manifests.contains fileId = true → whole.contains fileId = true) →
      (records.map ControlRecord.update).foldlM Mirror.follow batch.staged.mirror = .ok mirror →
      ∃ final, (records.map Opened.control).foldlM (stageOpened keys hostId (some through)) batch =
        .ok final ∧ Reads root (done ++ records) final.staged ∧ final.bodies = batch.bodies ∧
          final.controls = batch.controls + records.length ∧
          (batch.sawBootstrapEnd = true ∨ through ∈ records.map ControlRecord.id →
            final.sawBootstrapEnd = true) := by
  induction records with
  | nil =>
    intro done batch mirror reads _ _ _ _
    refine ⟨batch, rfl, (List.append_nil done).symm ▸ reads, rfl, rfl, ?_⟩
    rintro (saw | never)
    · exact saw
    · cases never
  | cons record records ih =>
    intro done batch mirror reads numbered allowed within follows
    obtain ⟨fresh, pos⟩ := numbered.fresh
    obtain ⟨bounded, harmless⟩ := allowed record List.mem_cons_self
    rw [List.map_cons, List.foldlM_cons] at follows
    obtain ⟨after, first, follows⟩ := Result.bind_eq_ok.mp follows
    have order : ∀ id : Nat, batch.staged.controls.contains id = true → id < record.id := by
      intro id known
      have sorted := numbered.sorted
      rw [List.map_append, List.pairwise_append] at sorted
      exact sorted.2.2 id (reads.known id known) record.id List.mem_cons_self
    obtain ⟨next, staged, documents⟩ := stageRecord_accepts keys hostId harmless within order first
    have mode : stageControlMode keys hostId true record batch.staged = .ok (next, true) := by
      rw [reads.is_new keys hostId true fresh pos]
      exact Result.bind_eq_ok.mpr ⟨next, staged, rfl⟩
    have readsNext := reads.stage fresh pos mode
    have same : next.mirror = after := by
      obtain ⟨followed, -⟩ := stageRecord_follows staged
      exact Except.ok.inj (followed.symm.trans first)
    have opened : stageOpened keys hostId (some through) batch (.control record) = .ok { batch with
        staged := next
        controls := batch.controls + 1
        sawBootstrapEnd := batch.sawBootstrapEnd || decide (some through = some record.id) } := by
      have accepted : (some through).any (fun through => decide (record.id ≤ through)) = true :=
        decide_eq_true bounded
      unfold stageOpened
      dsimp only
      rw [accepted]
      exact Result.bind_eq_ok.mpr ⟨(next, true), mode, rfl⟩
    have numberedNext : Numbered ((done ++ [record]) ++ records) := by
      rw [List.append_assoc]
      exact numbered
    have allowedNext : ∀ later ∈ records, later.id ≤ through ∧
        Harmless next.identityDocuments whole later.update :=
      fun later mem => documents.symm ▸ allowed later (List.mem_cons_of_mem _ mem)
    have withinNext : ∀ fileId, next.mirror.manifests.contains fileId = true →
        whole.contains fileId = true := same ▸ follow_within harmless within first
    have followsNext : (records.map ControlRecord.update).foldlM Mirror.follow next.mirror = .ok mirror :=
      same ▸ follows
    obtain ⟨final, isFinal, readsFinal, bodies, counted, ended⟩ := @ih (done ++ [record]) { batch with
        staged := next
        controls := batch.controls + 1
        sawBootstrapEnd := batch.sawBootstrapEnd || decide (some through = some record.id) } mirror
      readsNext numberedNext allowedNext withinNext followsNext
    refine ⟨final, ?_, ?_, bodies, ?_, ?_⟩
    · rw [List.map_cons, List.foldlM_cons, opened]
      exact isFinal
    · rwa [List.append_assoc] at readsFinal
    · rw [counted, List.length_cons]
      dsimp only
      omega
    · intro ends
      refine ended ?_
      rw [List.map_cons, List.mem_cons] at ends
      dsimp only
      rw [Bool.or_eq_true, decide_eq_true_eq, Option.some.injEq]
      obtain saw | here | later := ends
      · exact .inl (.inl saw)
      · exact .inl (.inr here)
      · exact .inr later

def Opened.body? : Opened → Option (FileId × Nat × Bytes)
  | .control _ => none
  | .chunk fileId index plaintext => some (fileId, index, plaintext)

theorem stageSlots_accepts (keys : KeyStore) (hostId : PeerId) {installing : Option Nat} {chunks : ChunkStore}
    (slots : List QueueContent) : ∀ {batch : Batch}, (∀ slot ∈ slots, ∃ fileId index plaintext,
      openedOf chunks slot = .chunk fileId index plaintext ∧
        slotHolds batch.staged fileId index plaintext = true) →
      (slots.map (openedOf chunks)).foldlM (stageOpened keys hostId installing) batch = .ok { batch with
        bodies := batch.bodies ++ (slots.map (openedOf chunks)).filterMap Opened.body? } := by
  induction slots with
  | nil =>
    intro batch _
    change Except.ok batch = _
    rw [List.map_nil, List.filterMap_nil, List.append_nil]
  | cons slot slots ih =>
    intro batch held
    obtain ⟨fileId, index, plaintext, isChunk, holds⟩ := held slot List.mem_cons_self
    have opened : stageOpened keys hostId installing batch (openedOf chunks slot) = .ok { batch with
        bodies := batch.bodies ++ [(fileId, index, plaintext)] } := by
      rw [isChunk]
      exact Result.bind_eq_ok.mpr ⟨(), ensure_eq_ok.mpr holds, rfl⟩
    rw [List.map_cons, List.foldlM_cons, opened]
    refine (@ih { batch with bodies := batch.bodies ++ [(fileId, index, plaintext)] } fun later mem =>
      held later (List.mem_cons_of_mem _ mem)).trans ?_
    rw [isChunk, List.filterMap_cons, List.append_assoc]
    rfl

theorem updatesOf_harmless {c : Content} (rebuildable : c.Rebuildable) {sorted : List Dirent}
    (perm : sorted.Perm c.tree.links) {archive : Map PeerId IdentityDocument}
    (vouched : ∀ manifest ∈ Map.vals c.manifests, verifySnapshotManifest archive manifest = .ok ())
    (through : Nat) : ∀ update ∈ updatesOf c.manifests sorted through,
      Harmless archive c.manifests update := by
  intro update mem
  have listed : ∀ update ∈ (Map.vals c.manifests).map ControlUpdate.newManifest ++ sorted.map linkOf,
      Harmless archive c.manifests update := by
    intro update mem
    obtain isManifest | isLink := List.mem_append.mp mem
    · obtain ⟨manifest, manifestMem, rfl⟩ := List.mem_map.mp isManifest
      obtain ⟨fileId, found⟩ := Map.mem_vals.mp manifestMem
      refine ⟨(Map.contains_iff_get _ _).mpr ⟨manifest, ?_⟩, vouched manifest manifestMem⟩
      rw [rebuildable.filed fileId manifest found]
      exact found
    · obtain ⟨entry, entryMem, rfl⟩ := List.mem_map.mp isLink
      obtain ⟨here, -⟩ := DirectoryTree.mem_links.mp (perm.mem_iff.mp entryMem)
      unfold linkOf
      cases isDir : entry.isDir with
      | false => exact True.intro
      | true =>
        refine Bool.eq_false_iff.mpr fun known => ?_
        obtain ⟨manifest, found⟩ := (Map.contains_iff_get _ _).mp known
        have isFile := rebuildable.files entry.child manifest found
        rw [DirectoryTree.isDir_iff.mpr (.inr ⟨entry, here, rfl, isDir⟩)] at isFile
        cases isFile
  unfold updatesOf at mem
  dsimp only at mem
  split at mem
  · obtain rfl := List.mem_singleton.mp mem
    exact True.intro
  · exact listed update mem

theorem openedOf_slot {c : Content} (available : c.Available) {chunks : ChunkStore}
    (stores : chunks.records = c.records) {fileId : FileId} {manifest : Manifest} {index : Nat}
    {id : ChunkId} (found : c.manifests[fileId]? = some manifest)
    (slot : manifest.chunkIds[index]? = some id) :
    ∃ plaintext, openedOf chunks (.chunk fileId index id) = .chunk fileId index plaintext ∧
      chunkId fileId index plaintext = id := by
  obtain ⟨plaintext, stored, addressed⟩ := available.held fileId manifest found index id slot
  rw [available.filed fileId manifest found] at stored addressed
  refine ⟨plaintext, ?_, addressed⟩
  unfold openedOf ChunkStore.get
  dsimp only
  rw [stores, stored]
  rfl

theorem manifestSlots_hold {c : Content} (available : c.Available) {chunks : ChunkStore}
    (stores : chunks.records = c.records) (manifests : staged.manifests = c.manifests) :
    ∀ slot ∈ manifestSlots c.manifests, ∃ fileId index plaintext,
      openedOf chunks slot = .chunk fileId index plaintext ∧
        slotHolds staged fileId index plaintext = true := by
  intro content mem
  have isChunk : ∃ fileId index id, content = .chunk fileId index id := by
    obtain ⟨manifest, _, mem⟩ := List.mem_flatMap.mp mem
    obtain ⟨slot, _, rfl⟩ := List.mem_map.mp mem
    exact ⟨_, _, _, rfl⟩
  obtain ⟨fileId, index, id, rfl⟩ := isChunk
  obtain ⟨key, manifest, found, isFile, slot⟩ := Content.mem_manifestSlots.mp mem
  obtain rfl := (available.filed key manifest found).symm.trans isFile
  obtain ⟨plaintext, opened, addressed⟩ := openedOf_slot available stores found slot
  refine ⟨_, index, plaintext, opened, decide_eq_true ?_⟩
  rw [manifests, found, addressed]
  exact slot

/-- In every reachable state of the host the snapshot can be made, and an empty replica whose archive
vouches for the manifests accepts it whole: it ends with the tree and the manifests of the host, has
seen the end of the snapshot, and has a body of the host for every slot. -/
theorem bootstrap_accepted {start : HostService} (fresh : Host.Fresh start) (ops : List HostOp) :
    let s := (machine.run ops start).state
    let through := s.nextControl - 1
    ∃ records, bootstrapRecords s through = .ok records ∧
      ∀ (keys : KeyStore) (hostId : PeerId) (history : List IdentityDocument) (replica : MemberReplica)
        (begun staged : StagedReplica) (installing : Option Nat), through ≠ 0 →
        replica.expectedRoot = s.expectedRoot → replica.state.bootstrapThrough = 0 →
        beginBootstrap replica (some through) = .ok (begun, installing) →
        history.foldlM learnDocument begun = .ok staged →
        (∀ manifest ∈ Map.vals s.manifests,
          verifySnapshotManifest staged.identityDocuments manifest = .ok ()) →
        let queue := (records.map QueueContent.control ++ manifestSlots s.manifests).map (openedOf s.chunks)
        ∃ final, queue.foldlM (stageOpened keys hostId installing) ⟨staged, 0, none, none, [], false⟩ =
            .ok final ∧
          final.staged.tree = s.tree ∧ final.staged.manifests = s.manifests ∧
          final.staged.log = records ∧ final.controls = records.length ∧
          final.sawBootstrapEnd = true ∧ final.bodies = queue.filterMap Opened.body? ∧
          ∀ (fileId : FileId) (manifest : Manifest) (index : Nat) (id : ChunkId),
            s.manifests[fileId]? = some manifest → manifest.chunkIds[index]? = some id →
            ∃ plaintext, (fileId, index, plaintext) ∈ final.bodies ∧
              chunkId fileId index plaintext = id := by
  intro s through
  have inv := (fresh.inv stable_mirrored.toSettled initially_mirrored).run stable_mirrored ops
  have available : s.content.Available :=
    ((fresh.inv stable_available.toSettled initially_available).run stable_available ops).holds
  have sound : s.content.Sound := inv.sound
  have rebuildable : s.content.Rebuildable := inv.holds.toRebuildable
  have next : 0 < s.nextControl := sound.log.next_pos
  have counted : s.content.manifests.size + s.content.tree.entries.size ≤ through + 1 := by
    have := rebuildable.counted
    change _ ≤ s.nextControl at this
    omega
  have small : through + 1 ≤ u64Max := by
    have : s.nextControl ≤ u64Max := rebuildable.small
    omega
  obtain ⟨sorted, records, perm, ordered, isSnapshot, updates⟩ :=
    snapshotRecords_ok sound.tree counted small
  rw [sound.root] at isSnapshot
  refine ⟨records, isSnapshot, ?_⟩
  intro keys hostId history replica begun staged installing nonzero root blank isBegun isLearned vouched queue
  obtain ⟨reads, rfl⟩ := beginBootstrap_reads blank nonzero isBegun
  have reads := learnDocuments_reads isLearned reads
  rw [root] at reads
  obtain ⟨first, firstPos, total, ids⟩ := Content.snapshotRecords_ids isSnapshot
  have inRange : ∀ record ∈ records, first ≤ record.id ∧ record.id ≤ through := by
    intro record mem
    have isId := List.mem_map_of_mem (f := ControlRecord.id) mem
    rw [ids, List.mem_range'_1] at isId
    omega
  have numbered : Numbered ([] ++ records) := by
    refine ⟨?_, fun record mem => ?_⟩
    · rw [List.nil_append, ids]
      exact List.pairwise_lt_range'
    · have := (inRange record mem).1
      omega
  have harmless := updatesOf_harmless rebuildable perm vouched through
  rw [← updates] at harmless
  have followed := rebuildable.snapshot sound perm ordered through
  rw [← updates] at followed
  have allowed : ∀ record ∈ records, record.id ≤ through ∧
      Harmless staged.identityDocuments s.manifests record.update :=
    fun record mem => ⟨(inRange record mem).2, harmless _ (List.mem_map_of_mem mem)⟩
  have start : staged.mirror = .empty s.expectedRoot := (Except.ok.inj reads.follows).symm
  have within : ∀ fileId, staged.manifests.contains fileId = true →
      s.manifests.contains fileId = true := by
    intro fileId known
    have none : staged.manifests = ∅ := congrArg Mirror.manifests start
    rw [none] at known
    rw [Std.ExtTreeMap.contains_empty] at known
    cases known
  obtain ⟨middle, isMiddle, readsMiddle, bodies, controls, ended⟩ :=
    @stageRecords_accepts _ s.expectedRoot s.manifests keys hostId through records []
      ⟨staged, 0, none, none, [], false⟩ s.content.mirror reads numbered allowed
      within (start ▸ followed)
  rw [List.nil_append] at readsMiddle
  have mirror : middle.staged.mirror = s.content.mirror :=
    Except.ok.inj (readsMiddle.follows.symm.trans followed)
  have manifests : middle.staged.manifests = s.manifests := congrArg Mirror.manifests mirror
  have nonempty : through ∈ records.map ControlRecord.id := by
    have some : 0 < records.length := by
      rw [← List.length_map ControlRecord.update, updates, List.length_pos_iff]
      exact updatesOf_ne_nil nonzero
    rw [ids, List.mem_range'_1]
    omega
  have controlsOnly : (records.map QueueContent.control).map (openedOf s.chunks) =
      records.map Opened.control := by
    rw [List.map_map]
    rfl
  have noBodies : (records.map Opened.control).filterMap Opened.body? = [] := by
    rw [List.filterMap_eq_nil_iff]
    intro opened mem
    obtain ⟨_, _, rfl⟩ := List.mem_map.mp mem
    rfl
  have accepted := @stageSlots_accepts _ keys hostId (some through) s.chunks (manifestSlots s.manifests)
    middle (manifestSlots_hold available rfl manifests)
  refine ⟨{ middle with bodies := middle.bodies ++
      ((manifestSlots s.manifests).map (openedOf s.chunks)).filterMap Opened.body? },
    ?_, congrArg Mirror.tree mirror, manifests, readsMiddle.log, controls.trans (Nat.zero_add _),
    ended (.inr nonempty), ?_, ?_⟩
  rotate_left
  · change middle.bodies ++ _ = queue.filterMap Opened.body?
    unfold queue
    rw [bodies, List.map_append, controlsOnly, List.filterMap_append, noBodies]
  · intro fileId manifest index id found slot
    obtain ⟨plaintext, opened, addressed⟩ := openedOf_slot available rfl found slot
    refine ⟨plaintext, List.mem_append_right _ (List.mem_filterMap.mpr
      ⟨.chunk fileId index plaintext, ?_, rfl⟩), addressed⟩
    rw [← opened]
    exact List.mem_map_of_mem (Content.mem_manifestSlots.mpr ⟨fileId, manifest, found,
      available.filed fileId manifest found, slot⟩)
  · unfold queue
    rw [List.map_append, List.foldlM_append, controlsOnly]
    exact Result.bind_eq_ok.mpr ⟨middle, isMiddle, accepted⟩

section

open NonceReuse (alice bob aliceStore knowing keyEnv firstWrap)

omit [Primitives]

def soleHost : HostService :=
  letI := Primitives.plain
  (Host.newInVault calmEnv (aliceStore 1) ((∅ : OrdSet PeerId).insert alice.document.peerId) ⟨∅, none⟩
    ⟨3⟩).toOption.get (by decide +kernel)

theorem soleHost_fresh : @Host.Fresh Primitives.plain soleHost :=
  letI := Primitives.plain
  .memory (by decide +kernel) (eq_ok_of_get _)

/-- Bob is admitted after one folder, and another one is made before he comes. -/
def admitsBob : List HostOp :=
  [.mkdir calmEnv alice.document.peerId "/docs", .addMember calmEnv bob.document,
    .mkdir { calmEnv with fileId := some ⟨8⟩ } alice.document.peerId "/more"]

def admitted : HostState := letI := Primitives.plain; (machine.run admitsBob soleHost).state

def bobQueue : List Queued := admitted.mailboxes[bob.document.peerId]?.getD []

def bobKeys : KeyStore :=
  letI := Primitives.plain
  (KeyStore.unwrap (keyEnv 0) alice.document.peerId firstWrap (knowing bob alice)).2

def openNewBob : Result MemberReplica :=
  letI := Primitives.plain
  Member.newInVault bobKeys alice.document.peerId
    (pairOf alice.document.peerId bob.document.peerId) ⟨∅, none⟩ ⟨3⟩

def newBob : MemberReplica := openNewBob.toOption.get (by decide +kernel)

def bobSession : PairSession :=
  letI := Primitives.plain
  (bobKeys.currentSession alice.document.peerId).toOption.get (by decide +kernel)

def bobReads : Result PreparedReplicaFlush × MemberReplica :=
  letI := Primitives.plain
  prepareMailboxForSession ⟨calmEnv.keys, calmEnv.files⟩ (bobQueue.map Queued.envelope) [] (some 1)
    bobSession newBob

theorem bobReads_done : letI := Primitives.plain
    bobReads.1.toOption.isSome = true ∧ Delivered admitted.chunks bobQueue bobReads.2 := by
  let := Primitives.plain
  unfold bobReads prepareMailboxForSession
  delta readEnvelope stageOpened stageControlMode stageRecord
  simp only [Std.ExtTreeMap.maxKey?_eq_getLast?_keys]
  decide +kernel

theorem bootstrap_converges_admitted :
    bobQueue.length = 2 ∧ admitted.tree.dirents.length = 3 ∧ ∃ prepared read,
      bobReads = (.ok prepared, read) ∧ prepared.staged.tree = admitted.tree ∧
        prepared.staged.manifests = admitted.manifests := by
  let := Primitives.plain
  have converged : ∀ {start : HostService} (_ : Host.Fresh start) (ops : List HostOp) (peer : PeerId)
      (env : MemberEnv) (session : PairSession) (replica : MemberReplica) {s : HostState}
      {queue : List Queued} {reads : Result PreparedReplicaFlush × MemberReplica},
      (machine.run ops start).state = s → s.mailboxes[peer]?.getD [] = queue →
      prepareMailboxForSession env (queue.map Queued.envelope) [] (some 1) session replica = reads →
      s.bootstrapThrough[peer]? = some 1 → replica.expectedRoot = s.expectedRoot →
      replica.state.bootstrapThrough = 0 → reads.1.toOption.isSome = true →
      Delivered s.chunks queue reads.2 → ∃ prepared read, reads = (.ok prepared, read) ∧
        prepared.staged.tree = s.tree ∧ prepared.staged.manifests = s.manifests := by
    intro start fresh ops peer env session replica s queue reads isState isQueue isReads found root blank
      isSome delivered
    subst isState isQueue
    have isRead : reads = (.ok (reads.1.toOption.get isSome), reads.2) :=
      Prod.ext (eq_ok_of_get isSome) rfl
    obtain ⟨-, converged⟩ := bootstrap_converges fresh ops peer 1 found Nat.one_ne_zero
    obtain ⟨tree, manifests, -⟩ := converged env [] session replica _ _ root blank
      (isReads.trans isRead) delivered
    exact ⟨_, _, isRead, tree, manifests⟩
  refine ⟨by decide +kernel, by decide +kernel, ?_⟩
  exact converged soleHost_fresh admitsBob bob.document.peerId ⟨calmEnv.keys, calmEnv.files⟩ bobSession
    newBob (by rw [admitted]) (by rw [bobQueue]) (by rw [bobReads]) (by decide +kernel)
    (by decide +kernel) (by decide +kernel) bobReads_done.1 bobReads_done.2

/-- Alice has saved one file. -/
def saved : HostState :=
  letI := Primitives.plain
  (machine.run [.saveFile calmEnv (aliceStore 1) "/notes" [[1, 2]]] soleHost).state

def bobBegun : StagedReplica × Option Nat :=
  (beginBootstrap newBob (some (saved.nextControl - 1))).toOption.get (by decide +kernel)

def bobLearned : StagedReplica :=
  letI := Primitives.plain
  ([alice.document].foldlM learnDocument bobBegun.1).toOption.get (by decide +kernel)

theorem bootstrap_accepted_saved :
    letI := Primitives.plain
    (Map.vals saved.manifests).length = 1 ∧ ∃ records,
      bootstrapRecords saved (saved.nextControl - 1) = .ok records ∧ ∃ final,
        ((records.map QueueContent.control ++ manifestSlots saved.manifests).map
          (openedOf saved.chunks)).foldlM (stageOpened bobKeys alice.document.peerId bobBegun.2)
            ⟨bobLearned, 0, none, none, [], false⟩ = .ok final ∧
          final.staged.tree = saved.tree ∧ final.staged.manifests = saved.manifests := by
  let := Primitives.plain
  have accepted : ∀ {start : HostService} (_ : Host.Fresh start) (ops : List HostOp) {s : HostState}
      (replica : MemberReplica) {begun : StagedReplica × Option Nat} {learned : StagedReplica}
      (keys : KeyStore) (hostId : PeerId) (history : List IdentityDocument),
      (machine.run ops start).state = s → s.nextControl - 1 ≠ 0 →
      replica.expectedRoot = s.expectedRoot → replica.state.bootstrapThrough = 0 →
      beginBootstrap replica (some (s.nextControl - 1)) = .ok begun →
      history.foldlM learnDocument begun.1 = .ok learned →
      (∀ manifest ∈ Map.vals s.manifests,
        verifySnapshotManifest learned.identityDocuments manifest = .ok ()) → ∃ records,
      bootstrapRecords s (s.nextControl - 1) = .ok records ∧ ∃ final,
        ((records.map QueueContent.control ++ manifestSlots s.manifests).map
          (openedOf s.chunks)).foldlM (stageOpened keys hostId begun.2)
            ⟨learned, 0, none, none, [], false⟩ = .ok final ∧
          final.staged.tree = s.tree ∧ final.staged.manifests = s.manifests := by
    intro start fresh ops s replica begun learned keys hostId history isState nonzero root blank isBegun
      isLearned vouched
    subst isState
    obtain ⟨records, isRecords, accepts⟩ := bootstrap_accepted fresh ops
    obtain ⟨final, isFinal, tree, manifests, -⟩ := accepts keys hostId history replica begun.1 learned
      begun.2 nonzero root blank isBegun isLearned vouched
    exact ⟨records, isRecords, final, isFinal, tree, manifests⟩
  refine ⟨by decide +kernel, ?_⟩
  exact accepted soleHost_fresh [.saveFile calmEnv (aliceStore 1) "/notes" [[1, 2]]] newBob bobKeys
    alice.document.peerId [alice.document] (by rw [saved]) (by decide +kernel) (by decide +kernel)
    (by decide +kernel) (by rw [bobBegun]; exact eq_ok_of_get _)
    (by rw [bobLearned]; exact eq_ok_of_get _) (by decide +kernel)

end

end QuantumFs.Member
