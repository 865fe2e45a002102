import QuantumFs.Host.Run

/-! What a restart offers again. The snapshot queues the end of the log for every member,
whether a record waits, was handed out, or was lost on its way. -/
namespace QuantumFs.Host

open Lib Encoding Crypto Store

namespace Content

variable {c : Content}

theorem nodup_of_ids {records : List ControlRecord}
    (sorted : (records.map ControlRecord.id).Pairwise (· < ·)) : records.Nodup :=
  (List.pairwise_map.mp sorted).imp fun less same => absurd (congrArg ControlRecord.id same) (ne_of_lt less)

theorem eq_of_ids {records others : List ControlRecord}
    (sorted : (records.map ControlRecord.id).Pairwise (· < ·))
    (sorted' : (others.map ControlRecord.id).Pairwise (· < ·))
    (same : ∀ record, record ∈ records ↔ record ∈ others) : records = others := by
  have perm := (List.perm_ext_iff_of_nodup (nodup_of_ids sorted) (nodup_of_ids sorted')).mpr same
  have apart : ∀ a b : ControlRecord, a ∈ records → b ∈ others → a.id < b.id → b.id < a.id → a = b := by
    omega
  exact perm.eq_of_pairwise apart (List.pairwise_map.mp sorted) (List.pairwise_map.mp sorted')

variable [Primitives]

theorem Sound.mailbox_sorted (sound : c.Sound) (peer : PeerId) :
    ((c.controls peer).map ControlRecord.id).Pairwise (· < ·) :=
  (sound.order peer).sublist ((List.sublist_append_left _ _).map _)

theorem Sound.persisted_sorted (sound : c.Sound) (peer : PeerId) :
    (((c.persisted peer).filterMap QueueContent.record?).map ControlRecord.id).Pairwise (· < ·) := by
  unfold persisted
  split
  · exact sorted_merged sound.log (sound.mailbox_sorted peer)
  · exact sound.mailbox_sorted peer

theorem Sound.persisted_log (sound : c.Sound) {peer : PeerId} (member : peer ∈ c.members)
    (other : peer ≠ c.hostId) :
    ((c.persisted peer).filterMap QueueContent.record?).filter
        (fun record => c.covered peer < record.id) =
      c.log.filter fun record => c.covered peer < record.id := by
  have sorted := sound.persisted_sorted peer
  refine eq_of_ids (sorted.sublist (List.filter_sublist.map _))
    (sound.log.sorted.sublist (List.filter_sublist.map _)) fun record => ?_
  simp only [List.mem_filter, decide_eq_true_eq]
  refine and_congr_left fun above => ?_
  unfold persisted
  rw [if_pos ⟨member, other⟩, mem_controls_merged]
  have logged : ∀ queued ∈ c.controls peer, c.covered peer < queued.id → queued ∈ c.log :=
    fun queued mem => sound.logged peer member queued (List.mem_append_left _ mem)
  constructor
  · rintro (queued | isMissing)
    · exact logged record queued above
    · exact List.mem_of_mem_filter isMissing
  · intro mem
    by_cases queued : record.id ∈ (c.controls peer).map (·.id)
    · obtain ⟨twin, twinMem, same⟩ := List.mem_map.mp queued
      have twinLogged := logged twin twinMem (same ▸ above)
      have distinct : (c.log.map ControlRecord.id).Nodup := sound.log.sorted.imp fun less => ne_of_lt less
      exact .inl (List.inj_on_of_nodup_map distinct twinLogged mem same ▸ twinMem)
    · exact .inr (List.mem_filter.mpr ⟨mem, decide_eq_true ⟨above, queued⟩⟩)

end Content

variable [Primitives]

/-- In every reachable state the snapshot has, for every other member, each record of the log above
its position exactly once and in order, and every body that was queued; and the service that is
opened from it offers just that, with the tree, the manifests and the positions it had. -/
theorem unacknowledged_requeued {start : HostService} (fresh : Fresh start) (ops : List HostOp) :
    let s := (machine.run ops start).state
    (∀ peer ∈ s.members, peer ≠ s.hostId →
      let queue := s.metadata.mailboxes[peer]?.getD []
      let records := queue.filterMap QueueContent.record?
      records.filter (fun record => s.content.covered peer < record.id) =
        s.log.filter (fun record => s.content.covered peer < record.id) ∧
      (records.map ControlRecord.id).Pairwise (· < ·) ∧
      queue.filter QueueContent.isChunk = (s.mailbox peer).filter QueueContent.isChunk) ∧
    ∀ (env : HostEnv) (keys : KeyStore) (disk : DurableStore) (root : FileId)
      (members : OrdSet PeerId) (generation : Nat) (opened : HostService),
      disk.replicaFile = some (generation, snapshotOf s.metadata s.chunks.records) →
      keys.identity.document.peerId = s.hostId →
      openDurable env keys disk root members = .ok opened →
        (∀ peer, opened.state.mailbox peer = s.metadata.mailboxes[peer]?.getD [] ∧
          opened.state.onlineRecords peer = []) ∧
        opened.state.tree = s.tree ∧ opened.state.manifests = s.manifests ∧
        opened.state.log = s.log ∧ opened.state.nextControl = s.nextControl ∧
        opened.state.ackedThrough = s.ackedThrough ∧
        opened.state.bootstrapThrough = s.bootstrapThrough ∧
        opened.state.members = s.members ∧ opened.state.denied = s.denied := by
  intro s
  have inv := (fresh.inv Stable.trivial.toSettled fun _ _ _ _ => True.intro).run Stable.trivial ops
  have sound : s.content.Sound := inv.sound
  refine ⟨fun peer member other => ?_, ?_⟩
  · intro queue records
    have isQueue : queue = s.content.persisted peer := metadata_mailbox s peer
    have isRecords : records = (s.content.persisted peer).filterMap QueueContent.record? :=
      congrArg (List.filterMap QueueContent.record?) isQueue
    rw [isRecords, isQueue]
    refine ⟨sound.persisted_log member other, sound.persisted_sorted peer, ?_⟩
    unfold Content.persisted
    rw [if_pos ⟨member, other⟩, Content.chunks_merged]
    rfl
  · intro env keys disk root members generation opened file own isOpened
    obtain ⟨_, gateOwner, view⟩ := openDurable_of_snapshot sound.tree sound.root file own isOpened
    have content := congrArg View.content view
    refine ⟨fun peer => ⟨?_, congrFun (congrArg Content.online content) peer⟩, ?_⟩
    · rw [metadata_mailbox]
      exact congrFun (congrArg Content.mailbox content) peer
    · exact ⟨congrArg Content.tree content, congrArg Content.manifests content,
        congrArg Content.log content, congrArg Content.nextControl content,
        congrArg Content.ackedThrough content, congrArg Content.bootstrapThrough content,
        congrArg Content.members content, congrArg Content.denied content⟩

section

open NonceReuse (alice bob aliceStore)

private def handedOps : List HostOp :=
  [.heartbeat calmEnv bob.document.peerId 30000, .mkdir calmEnv alice.document.peerId "/docs",
    .takeOnlineControl calmEnv bob.document.peerId]

private def handedState : HostState := (@machine Primitives.plain).run handedOps aliceHost |>.state

/-- The data directory after the state was saved. -/
private def handedDisk : DurableStore where
  generation := 0
  expectedRoot := ⟨3⟩
  failed := false
  replicaFile := some (1, snapshotOf handedState.metadata handedState.chunks.records)
  chunkFiles := ∅

omit [Primitives] in
/-- Bob's record was handed out and is nowhere in memory but in the log; after a restart it waits for him. -/
theorem unacknowledged_requeued_taken :
    letI := Primitives.plain
    let peer := bob.document.peerId
    handedState.mailbox peer = [] ∧ handedState.onlineRecords peer = [] ∧ handedState.log.length = 1 ∧
      ((handedState.metadata.mailboxes[peer]?.getD []).filterMap QueueContent.record?).filter
          (fun record => handedState.content.covered peer < record.id) =
        handedState.log.filter (fun record => handedState.content.covered peer < record.id) ∧
      ∃ opened, openDurable calmEnv (aliceStore 1) handedDisk ⟨3⟩ ∅ = .ok opened ∧
        opened.state.mailbox peer = handedState.metadata.mailboxes[peer]?.getD [] ∧
        (opened.state.mailbox peer).filterMap QueueContent.record? = opened.state.log := by
  let := Primitives.plain
  obtain ⟨queued, reopened⟩ := unacknowledged_requeued aliceHost_fresh handedOps
  refine ⟨by decide +kernel, by decide +kernel, by decide +kernel, (queued _ (by decide +kernel) (by decide +kernel)).1, ?_⟩
  have opens : (openDurable calmEnv (aliceStore 1) handedDisk ⟨3⟩ ∅).toOption.isSome = true := by decide +kernel
  have isOpened := eq_ok_of_get opens
  obtain ⟨mailboxes, -, -, log, -⟩ := reopened calmEnv (aliceStore 1) handedDisk ⟨3⟩ ∅ 1 _ rfl (by decide +kernel) isOpened
  have waits : (handedState.metadata.mailboxes[bob.document.peerId]?.getD []).filterMap QueueContent.record? =
      handedState.log := by decide +kernel
  refine ⟨_, isOpened, (mailboxes _).1, ?_⟩
  rw [(mailboxes _).1, log]
  exact waits

end

end QuantumFs.Host
