import QuantumFs.Host.Membership

/-! The acknowledgement of a flush. It drains exactly the batch that was prepared; but
it also passes over what was handed out live before and never acknowledged. -/
namespace QuantumFs.Host

open Lib Encoding Crypto Store

/-- A log record that the acknowledgement of a peer did not cover before, and covers now. -/
def Marked (before after : HostState) (peer : PeerId) (record : ControlRecord) : Prop :=
  record ∈ before.log ∧ before.ackedThroughOf peer < record.id ∧
    record.id ≤ after.ackedThroughOf peer

instance (before after : HostState) (peer : PeerId) (record : ControlRecord) :
    Decidable (Marked before after peer record) := inferInstanceAs (Decidable (_ ∧ _ ∧ _))

/-- A record that was handed out to a live peer and not acknowledged since, while a later
one waits in its mailbox. -/
def Overtaken (state : HostState) (peer : PeerId) (record : ControlRecord) : Prop :=
  record ∈ state.log ∧ state.ackedThroughOf peer < record.id ∧
    state.bootstrapThroughOf peer < record.id ∧ .control record ∉ state.mailbox peer ∧
    record ∉ state.onlineRecords peer ∧
    ∃ later, .control later ∈ state.mailbox peer ∧ record.id < later.id

theorem mem_mailbox_records {queue : List QueueContent} {record : ControlRecord} :
    record ∈ queue.filterMap QueueContent.record? ↔ .control record ∈ queue := by
  rw [List.mem_filterMap]
  constructor
  · rintro ⟨content, mem, isRecord⟩
    cases content with
    | control other =>
      obtain rfl := Option.some.inj isRecord
      exact mem
    | chunk _ _ _ => cases isRecord
  · exact fun mem => ⟨_, mem, rfl⟩

theorem exists_highest {records : List ControlRecord} {id : Nat} (positive : 0 < id)
    (h : id ≤ (records.map ControlRecord.id).max?.getD 0) : ∃ record ∈ records, id ≤ record.id := by
  cases highest : (records.map ControlRecord.id).max? with
  | none =>
    rw [highest, Option.getD_none] at h
    omega
  | some top =>
    rw [highest, Option.getD_some] at h
    obtain ⟨record, mem, rfl⟩ := List.mem_map.mp (List.max?_mem highest)
    exact ⟨record, mem, h⟩

theorem le_highest {records : List ControlRecord} {record : ControlRecord} (mem : record ∈ records) :
    record.id ≤ (records.map ControlRecord.id).max?.getD 0 := by
  cases highest : (records.map ControlRecord.id).max? with
  | none =>
    rw [List.max?_eq_none_iff, List.map_eq_nil_iff] at highest
    rw [highest] at mem
    cases mem
  | some top =>
    rw [Option.getD_some]
    exact (List.max?_eq_some_iff.mp highest).2 _ (List.mem_map_of_mem mem)

variable [Primitives]

theorem marked_iff {state after : HostState} (sound : state.content.Sound) {peer : PeerId}
    (acked : after.ackedThroughOf peer =
      max (state.ackedThroughOf peer) (flushedThrough state peer)) :
    (∀ record, Marked state after peer record → .control record ∈ state.mailbox peer ∨
      record.id ≤ state.bootstrapThroughOf peer) ↔ ∀ record, ¬ Overtaken state peer record := by
  constructor
  · rintro covered record ⟨logged, unacked, beyond, unqueued, _, later, queued, older⟩
    have bounded : later.id ≤ flushedThrough state peer :=
      le_max_of_le_left (le_highest (mem_mailbox_records.mpr queued))
    obtain inBatch | inBootstrap := covered record ⟨logged, unacked, by omega⟩
    · exact unqueued inBatch
    · omega
  · rintro ordered record ⟨logged, unacked, bounded⟩
    by_contra outside
    obtain ⟨unqueued, beyond⟩ := not_or.mp outside
    have queuedThrough : record.id ≤
        (((state.mailbox peer).filterMap QueueContent.record?).map (·.id)).max?.getD 0 := by
      unfold flushedThrough at acked
      omega
    obtain ⟨later, isLater, notAfter⟩ := exists_highest (by omega) queuedThrough
    have queued := mem_mailbox_records.mp isLater
    have member : peer ∈ state.members := by
      by_contra stranger
      have empty : state.mailbox peer = [] := (sound.outside peer stranger).1
      rw [empty] at queued
      cases queued
    refine ordered record ⟨logged, unacked, by omega, unqueued, fun online => ?_, later, queued, ?_⟩
    · -- Live records are newer than everything in the mailbox.
      have order := sound.order peer
      unfold Content.pending at order
      rw [List.map_append, List.pairwise_append] at order
      have less := order.2.2 later.id (List.mem_map_of_mem isLater) record.id
        (List.mem_map_of_mem online)
      omega
    · refine Nat.lt_of_le_of_ne notAfter fun same => unqueued ?_
      have laterLogged : later ∈ state.log := by
        refine sound.logged peer member later (List.mem_append_left _ isLater) ?_
        change max (state.ackedThroughOf peer) (state.bootstrapThroughOf peer) < later.id
        omega
      obtain rfl : record = later :=
        List.inj_on_of_nodup_map (Contiguous.sorted sound.log).nodup logged laterLogged same
      exact queued

theorem publishState_queues (env : HostEnv) (staged : HostState) (host : HostService) :
    Action.Ensures (publishState env staged) host fun r t => r = .ok () →
      t.state.mailboxes = staged.mailboxes ∧ t.state.ackedThrough = staged.ackedThrough := by
  unfold publishState
  refine .get (.ofExcept (fun _ _ => nofun) fun archived isArchived => ?_)
  obtain ⟨_, rfl, _⟩ := archiveHost_eq_ok isArchived
  unfold Action.Ensures
  dsimp only
  split
  · exact fun _ => ⟨rfl, rfl⟩
  · nofun

theorem acknowledgeFlush_done (env : HostEnv) (peer : PeerId) (prepared : PreparedHostFlush)
    (host : HostService) :
    Action.Ensures (acknowledgeFlush env peer prepared) host fun r t => r = .ok () →
      mailboxEnvelopes host.state peer = prepared.envelopes ∧
      host.state.bootstrapThrough[peer]? = prepared.bootstrapThrough ∧
      t.state.mailboxes = host.state.mailboxes.erase peer ∧
      t.state.ackedThroughOf peer =
        max (host.state.ackedThroughOf peer) (flushedThrough host.state peer) := by
  unfold acknowledgeFlush
  refine .query (fun _ _ => nofun) fun _ _ => .get ?_
  refine .require (fun _ => nofun) fun _ => .require (fun _ => nofun) fun sameBootstrap => ?_
  refine .require (fun _ => nofun) fun sameBatch => ?_
  refine .next (publishState_queues env _ host) (fun _ _ _ => nofun) fun _ t known => ?_
  obtain ⟨mailboxes, acked⟩ := known rfl
  refine .modify (fun _ => ⟨sameBatch, sameBootstrap, mailboxes, ?_⟩)
  change (t.state.ackedThrough[peer]?).getD 0 = _
  rw [acked]
  change ((host.state.ackedThrough.insert peer _)[peer]?).getD 0 = _
  rw [Map.get_insert, if_pos rfl]
  rfl

omit [Primitives] in
theorem acknowledgeFlush_refused [Primitives] (env : HostEnv) {peer : PeerId}
    {prepared : PreparedHostFlush} {host : HostService}
    (differs : mailboxEnvelopes host.state peer ≠ prepared.envelopes ∨
      host.state.bootstrapThrough[peer]? ≠ prepared.bootstrapThrough) :
    Refused (acknowledgeFlush env peer prepared) host := by
  refine .query fun _ _ => .get ?_
  refine Action.Ensures.require (fun _ => ⟨⟨_, rfl⟩, rfl⟩) fun _ => ?_
  refine Action.Ensures.require (fun _ => ⟨⟨_, rfl⟩, rfl⟩) fun sameBootstrap => ?_
  exact Refused.require fun sameBatch => differs.elim (· sameBatch) (· sameBootstrap)

/-- In every reachable state an acknowledgement drains exactly the prepared batch, or it fails and
changes nothing when the mailbox or the bootstrap differs from it. It marks only records of the
batch or of the bootstrap exactly when no record of the log was overtaken. -/
theorem flush_acknowledgement {start : HostService} (fresh : Fresh start) (ops : List HostOp)
    (env : HostEnv) (peer : PeerId) (prepared : PreparedHostFlush) :
    let host := machine.run ops start
    let after := (acknowledgeFlush env peer prepared host).2
    ((mailboxEnvelopes host.state peer ≠ prepared.envelopes ∨
      host.state.bootstrapThrough[peer]? ≠ prepared.bootstrapThrough) →
        (∃ e, (acknowledgeFlush env peer prepared host).1 = .error e) ∧ after = host) ∧
    ((acknowledgeFlush env peer prepared host).1 = .ok () →
      mailboxEnvelopes host.state peer = prepared.envelopes ∧
      after.state.mailboxes = host.state.mailboxes.erase peer ∧
      ((∀ record, Marked host.state after.state peer record →
        .control record ∈ host.state.mailbox peer ∨
          record.id ≤ host.state.bootstrapThroughOf peer) ↔
        ∀ record, ¬ Overtaken host.state peer record)) := by
  intro host after
  have sound := ((fresh.inv Stable.trivial.toSettled fun _ _ _ _ => True.intro).run
    Stable.trivial ops).sound
  refine ⟨fun differs => acknowledgeFlush_refused env differs, fun done => ?_⟩
  obtain ⟨sameBatch, _, mailboxes, acked⟩ := acknowledgeFlush_done env peer prepared host done
  exact ⟨sameBatch, mailboxes, marked_iff sound acked⟩

section

open NonceReuse (alice bob)

omit [Primitives] in
/-- The signature of Bob under the challenge of the sample environment. -/
def bobFlush : Bytes :=
  letI := Primitives.plain
  mlDsaSign bob.signingKey .flush (flushM ⟨9⟩)

/-- The clock after every presence has expired. -/
def lateEnv : HostEnv := { calmEnv with clock := fun _ => 100, fileId := some ⟨8⟩ }

/-- Bob asks for his mailbox. -/
def reconnects : List HostOp :=
  [.issueFlushChallenge lateEnv bob.document.peerId,
    .prepareFlush bob.document.peerId ⟨9⟩ bobFlush]

/-- Bob is live for the first directory, which is handed out to him, and gone for the second. -/
def handedOut : List HostOp :=
  [.heartbeat calmEnv bob.document.peerId 30, .mkdir calmEnv alice.document.peerId "/a",
    .takeOnlineControl calmEnv bob.document.peerId, .mkdir lateEnv alice.document.peerId "/b"]

omit [Primitives] in
/-- What Bob is offered after a run. -/
def offered (ops : List HostOp) : PreparedHostFlush :=
  letI := Primitives.plain
  let host := machine.run (ops ++ reconnects) aliceHost
  { peerId := bob.document.peerId
    challenge := ⟨9⟩
    envelopes := mailboxEnvelopes host.state bob.document.peerId
    bootstrapThrough := host.state.bootstrapThrough[bob.document.peerId]? }

/-- Bob is gone for the only directory. -/
def queuedOnly : List HostOp := [.mkdir lateEnv alice.document.peerId "/b"]

omit [Primitives] in
private theorem queuedOnly_queued :
    letI := Primitives.plain
    ∀ record ∈ (machine.run (queuedOnly ++ reconnects) aliceHost).state.log, .control record ∈
      (machine.run (queuedOnly ++ reconnects) aliceHost).state.mailbox bob.document.peerId := by
  decide +kernel

omit [Primitives] in
/-- A directory that was queued is the batch, and only it is marked. -/
theorem flush_acknowledgement_queued :
    letI := Primitives.plain
    let host := machine.run (queuedOnly ++ reconnects) aliceHost
    let outcome := acknowledgeFlush lateEnv bob.document.peerId (offered queuedOnly) host
    outcome.1 = .ok () ∧ outcome.2.state.ackedThroughOf bob.document.peerId = 1 ∧
      ∀ record, Marked host.state outcome.2.state bob.document.peerId record →
        .control record ∈ host.state.mailbox bob.document.peerId ∨
          record.id ≤ host.state.bootstrapThroughOf bob.document.peerId :=
  letI := Primitives.plain
  ⟨by decide +kernel, by decide +kernel,
    ((flush_acknowledgement aliceHost_fresh (queuedOnly ++ reconnects) lateEnv
      bob.document.peerId (offered queuedOnly)).2 (by decide +kernel)).2.2.mpr
      fun record overtaken => overtaken.2.2.2.1 (queuedOnly_queued record overtaken.1)⟩

omit [Primitives] in
/-- The first directory was handed out and lost; the flush of the second marks it. -/
theorem flush_marks_lost_record :
    letI := Primitives.plain
    let host := machine.run (handedOut ++ reconnects) aliceHost
    let outcome := acknowledgeFlush lateEnv bob.document.peerId (offered handedOut) host
    Fresh aliceHost ∧
      (prepareFlush bob.document.peerId ⟨9⟩ bobFlush host).1 = .ok (offered handedOut) ∧
      outcome.1 = .ok () ∧ outcome.2.state.log = [] ∧
      ∃ record, Marked host.state outcome.2.state bob.document.peerId record ∧
        .control record ∉ host.state.mailbox bob.document.peerId ∧
        ¬ record.id ≤ host.state.bootstrapThroughOf bob.document.peerId :=
  letI := Primitives.plain
  ⟨aliceHost_fresh, by decide +kernel, by decide +kernel, by decide +kernel,
    ⟨1, .link ⟨3⟩ "a" ⟨7⟩ true⟩, by decide +kernel, by decide +kernel, by decide +kernel⟩

end

end QuantumFs.Host
