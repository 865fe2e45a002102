import QuantumFs.Host.Invariant

/-! The snapshot of a host and what is read back from it. What was handed out but
not acknowledged is queued again. -/
namespace QuantumFs.Host

open Lib Encoding Crypto Store

namespace Content

variable (c : Content)

/-- The log records above the position of a peer that its queue does not hold. -/
def missing (peer : PeerId) (queue : List QueueContent) : List ControlRecord :=
  c.log.filter fun record =>
    c.covered peer < record.id ∧ record.id ∉ (queue.filterMap QueueContent.record?).map (·.id)

def merged (peer : PeerId) (queue : List QueueContent) : List QueueContent :=
  if c.missing peer queue = [] then queue
  else
    ((queue.filterMap QueueContent.record? ++ c.missing peer queue).insertionSort
      fun a b => a.id ≤ b.id).map QueueContent.control ++ queue.filter QueueContent.isChunk

def persisted (peer : PeerId) : List QueueContent :=
  if peer ∈ c.members ∧ peer ≠ c.hostId then c.merged peer (c.mailbox peer) else c.mailbox peer

def restored (records : Map ChunkId ChunkRecord) (gateOwner : Nat) : Content :=
  { c with
    mailbox := c.persisted
    online := fun _ => []
    records
    gateOwner }

def resumed : Content :=
  { c with
    mailbox := fun peer => c.mailbox peer ++ (c.online peer).map QueueContent.control
    online := fun _ => [] }

end Content

theorem metadata_mailbox (state : HostState) (peer : PeerId) :
    state.metadata.mailboxes[peer]?.getD [] = state.content.persisted peer := by
  have nodup : (state.members.toList.filter (· ≠ state.hostId)).Nodup :=
    (OrdSet.toList_nodup state.members).filter _
  unfold HostState.metadata HostState.persistedMailboxes
  dsimp only
  rw [Map.get_filter]
  have nonempty : ∀ queue : Option (List QueueContent),
      (queue.filter fun queue => decide (queue ≠ [])).getD [] = queue.getD [] := by
    intro queue
    cases queue with
    | none => rfl
    | some queue =>
      by_cases empty : queue = []
      · rw [empty]
        rfl
      · simp [Option.filter, empty]
  rw [nonempty, Map.getD_foldl_insert _ _ _ _ _ nodup, Map.get_map]
  have mailbox : (state.mailboxes[peer]?.map fun queue => queue.map Queued.content).getD [] =
      state.content.mailbox peer := by
    unfold HostState.content HostState.mailbox
    dsimp only
    cases state.mailboxes[peer]? <;> rfl
  rw [mailbox]
  unfold Content.persisted
  simp only [List.mem_filter, OrdSet.mem_toList, decide_eq_true_eq]
  rfl

namespace Content

variable {c : Content}

theorem controls_merged (c : Content) (peer : PeerId) (queue : List QueueContent) :
    (c.merged peer queue).filterMap QueueContent.record? =
      if c.missing peer queue = [] then queue.filterMap QueueContent.record?
      else (queue.filterMap QueueContent.record? ++ c.missing peer queue).insertionSort
        fun a b => a.id ≤ b.id := by
  unfold merged
  split
  · rfl
  · rw [List.filterMap_append, map_control_records]
    have chunks : (queue.filter QueueContent.isChunk).filterMap QueueContent.record? = [] := by
      rw [List.filterMap_eq_nil_iff]
      intro content mem
      cases content with
      | control record => cases (List.mem_filter.mp mem).2
      | chunk fileId index chunkId => rfl
    rw [chunks, List.append_nil]

theorem chunks_merged (c : Content) (peer : PeerId) (queue : List QueueContent) :
    (c.merged peer queue).filter QueueContent.isChunk = queue.filter QueueContent.isChunk := by
  unfold merged
  split
  · rfl
  · have controls : ∀ records : List ControlRecord,
        (records.map QueueContent.control).filter QueueContent.isChunk = [] := by
      intro records
      rw [List.filter_eq_nil_iff]
      intro content mem
      obtain ⟨record, _, rfl⟩ := List.mem_map.mp mem
      exact Bool.false_ne_true
    rw [List.filter_append, controls, List.nil_append, List.filter_filter]
    simp only [Bool.and_self]

theorem mem_controls_merged {peer : PeerId} {queue : List QueueContent} {record : ControlRecord} :
    record ∈ (c.merged peer queue).filterMap QueueContent.record? ↔
      record ∈ queue.filterMap QueueContent.record? ∨ record ∈ c.missing peer queue := by
  rw [controls_merged]
  split
  · rename_i none
    simp [none]
  · rw [List.mem_insertionSort, List.mem_append]

instance : IsTrans ControlRecord fun a b => a.id ≤ b.id := ⟨fun _ _ _ => Nat.le_trans⟩

instance : Std.Total fun a b : ControlRecord => a.id ≤ b.id := ⟨fun a b => Nat.le_total a.id b.id⟩

theorem sorted_merged {next : Nat} (log : Contiguous c.log next) {peer : PeerId}
    {queue : List QueueContent}
    (sorted : ((queue.filterMap QueueContent.record?).map ControlRecord.id).Pairwise (· < ·)) :
    (((c.merged peer queue).filterMap QueueContent.record?).map ControlRecord.id).Pairwise
      (· < ·) := by
  rw [controls_merged]
  split
  · exact sorted
  · generalize all : queue.filterMap QueueContent.record? ++ c.missing peer queue = records
    have distinct : (records.map ControlRecord.id).Nodup := by
      rw [← all, List.map_append, List.nodup_append]
      refine ⟨sorted.imp fun less => ne_of_lt less, ?_, ?_⟩
      · have sub : (c.missing peer queue).Sublist c.log := List.filter_sublist
        exact (log.sorted.sublist (sub.map _)).imp fun less => ne_of_lt less
      · intro id queued other isMissing same
        obtain ⟨record, mem, rfl⟩ := List.mem_map.mp isMissing
        have := (List.mem_filter.mp mem).2
        simp only [decide_eq_true_eq] at this
        exact this.2 (same ▸ queued)
    have ordered := List.pairwise_insertionSort (fun a b : ControlRecord => a.id ≤ b.id) records
    have permuted := List.perm_insertionSort (fun a b : ControlRecord => a.id ≤ b.id) records
    have distinct' : ((records.insertionSort fun a b => a.id ≤ b.id).map ControlRecord.id).Nodup :=
      (permuted.map _).nodup_iff.mpr distinct
    rw [List.pairwise_map]
    rw [List.Nodup, List.pairwise_map] at distinct'
    exact (ordered.and distinct').imp fun both => lt_of_le_of_ne both.1 both.2

variable [Primitives]

theorem Sound.restored (sound : c.Sound) {records : Map ChunkId ChunkRecord} {gateOwner : Nat}
    (addressed : ∀ (id : ChunkId) (record : ChunkRecord), records[id]? = some record →
      chunkId record.fileId record.index record.plaintext = id) :
    (c.restored records gateOwner).Sound := by
  have pending : ∀ peer, (c.restored records gateOwner).pending peer =
      (c.persisted peer).filterMap QueueContent.record? := fun _ => List.append_nil _
  have controlsSorted : ∀ peer, ((c.controls peer).map ControlRecord.id).Pairwise (· < ·) :=
    fun peer => (sound.order peer).sublist ((List.sublist_append_left _ _).map _)
  have source : ∀ peer, ∀ record ∈ (c.persisted peer).filterMap QueueContent.record?,
      record ∈ c.controls peer ∨ record ∈ c.log := by
    intro peer record mem
    unfold persisted at mem
    split at mem
    · obtain queued | isMissing := mem_controls_merged.mp mem
      · exact .inl queued
      · exact .inr (List.mem_of_mem_filter isMissing)
    · exact .inl mem
  exact { sound with
    outside := fun peer notMember => by
      refine ⟨?_, rfl⟩
      change c.persisted peer = []
      unfold persisted
      rw [if_neg fun both => notMember both.1]
      exact (sound.outside peer notMember).1
    order := fun peer => by
      rw [pending]
      unfold persisted
      split
      · exact sorted_merged sound.log (controlsSorted peer)
      · exact controlsSorted peer
    below := fun peer record mem => by
      rw [pending] at mem
      obtain queued | logged := source peer record mem
      · exact sound.below peer record (List.mem_append_left _ queued)
      · exact sound.log.below logged
    logged := fun peer member record mem above => by
      rw [pending] at mem
      obtain queued | logged := source peer record mem
      · exact sound.logged peer member record (List.mem_append_left _ queued) above
      · exact logged
    addressed := addressed }

theorem Sound.resumed (sound : c.Sound) : c.resumed.Sound := by
  have pending : c.resumed.pending = c.pending := by
    funext peer
    unfold Content.pending controls Content.resumed
    dsimp only
    rw [List.filterMap_append, map_control_records, List.append_nil]
  exact { sound with
    outside := fun peer notMember => by
      obtain ⟨mailbox, online⟩ := sound.outside peer notMember
      refine ⟨?_, rfl⟩
      change c.mailbox peer ++ (c.online peer).map QueueContent.control = []
      rw [mailbox, online]
      rfl
    order := fun peer => by rw [pending]; exact sound.order peer
    below := fun peer record mem => sound.below peer record (by rwa [pending] at mem)
    logged := fun peer member record mem above =>
      sound.logged peer member record (by rwa [pending] at mem) above }

end Content

variable [Primitives]

theorem readRecords_get (metadata : ReplicaMetadata) (files : Map ChunkId Bytes) (id : ChunkId) :
    (DurableStore.readRecords metadata files)[id]? =
      (metadata.chunkIndex[id]?.filter fun _ => decide (id ∈ metadata.retainIds)).bind
        fun slot => match files[id]? with
          | none => none
          | some plaintext =>
            if plaintext.length ≤ maxChunkBytes ∧ chunkId slot.1 slot.2 plaintext = id then
              some ⟨slot.1, slot.2, plaintext⟩
            else none := by
  unfold DurableStore.readRecords
  refine (Map.get_filterMap _ _ _).trans ?_
  exact congrArg (Option.bind · _) (Map.get_filter _ _ _)

theorem readRecords_snapshot {metadata : ReplicaMetadata} {records : Map ChunkId ChunkRecord}
    {files : Map ChunkId Bytes}
    (stored : ∀ (id : ChunkId) (record : ChunkRecord),
      (retained metadata records)[id]? = some record →
      files[id]? = some record.plaintext ∧ record.plaintext.length ≤ maxChunkBytes ∧
        chunkId record.fileId record.index record.plaintext = id) :
    DurableStore.readRecords (snapshotOf metadata records) files = retained metadata records := by
  refine Map.ext_get fun id => ?_
  rw [readRecords_get]
  have same : (snapshotOf metadata records).retainIds = metadata.retainIds := rfl
  have index : (snapshotOf metadata records).chunkIndex[id]? =
      (retained metadata records)[id]?.map fun record => (record.fileId, record.index) := by
    unfold snapshotOf DurableStore.chunkIndex retained
    dsimp only
    rw [Map.get_map]
  rw [same, index]
  cases found : (retained metadata records)[id]? with
  | none => rfl
  | some record =>
    obtain ⟨file, small, address⟩ := stored id record found
    unfold retained at found
    rw [Map.get_filter] at found
    have keeps := (Option.filter_eq_some_iff.mp found).2
    simp [Option.filter, keeps, file, small, address]

omit [Primitives] in
theorem gateMailboxes_keeps : Action.Keeps HostService.frame gateMailboxes := by
  unfold gateMailboxes
  refine .bind .get fun host => .forEach fun entry _ => ?_
  exact .ite (.pure _) (onKeys_keeps (blockLiveTraffic_keeps _ _))

omit [Primitives] in
theorem mailbox_restoreState (hostId : PeerId) (gateOwner : Nat) (metadata : ReplicaMetadata)
    (tree : DirectoryTree) (chunks : ChunkStore) (peer : PeerId) :
    (restoreState hostId gateOwner metadata tree chunks).mailbox peer =
      metadata.mailboxes[peer]?.getD [] := by
  unfold HostState.mailbox restoreState
  dsimp only
  rw [Map.get_map]
  cases metadata.mailboxes[peer]? with
  | none => rfl
  | some queue =>
    simp only [Option.map_some, Option.getD_some, List.map_map]
    exact List.map_id queue

omit [Primitives] in
theorem returned_eq_ok {run : Result Unit × HostService} {host : HostService}
    (h : run.1.map (fun _ => run.2) = .ok host) : run = (.ok (), host) := by
  obtain ⟨r, last⟩ := run
  cases r with
  | error e => cases h
  | ok _ => exact Prod.ext rfl (Except.ok.inj h)

theorem view_of_opened {env : HostEnv} {host opened : HostService}
    (h : (gateMailboxes >>= fun _ => publishFresh env false) host = (.ok (), opened)) :
    opened.view = host.view := by
  obtain ⟨_, gated, closed, rest⟩ := Action.bind_eq_ok.mp h
  have same : opened = gated := (congrArg Prod.snd rest).symm
  rw [same]
  exact view_of_frame (gateMailboxes_keeps.of_ok closed)

theorem openDurable_of_snapshot {env : HostEnv} {keys : KeyStore} {disk : DurableStore}
    {root : FileId} {members : OrdSet PeerId} {host : HostService} {saved : HostState}
    {generation : Nat} (valid : saved.tree.Valid)
    (rooted : saved.tree.expectedRoot = saved.expectedRoot)
    (file : disk.replicaFile = some (generation, snapshotOf saved.metadata saved.chunks.records))
    (own : keys.identity.document.peerId = saved.hostId)
    (h : openDurable env keys disk root members = .ok host) :
    root = saved.expectedRoot ∧ ∃ gateOwner, host.view = {
      content := saved.content.restored (DurableStore.readRecords
        (snapshotOf saved.metadata saved.chunks.records) disk.chunkFiles) gateOwner
      disk := some (DurableStore.sweep (fun _ => true) (DurableStore.readRecords
        (snapshotOf saved.metadata saved.chunks.records) disk.chunkFiles)
        { disk with generation, expectedRoot := root, failed := false })
      deferred := false
      identity := keys.identity
      peers := keys.peers
      selfPaired := selfPaired keys
      challenged := fun _ => false } := by
  unfold openDurable at h
  obtain ⟨⟨opened, stored, chunks⟩, isOpened, h⟩ := Result.bind_eq_ok.mp h
  obtain ⟨hostId, isHost, h⟩ := Result.bind_eq_ok.mp h
  obtain ⟨_, _, h⟩ := Result.bind_eq_ok.mp h
  obtain ⟨_, _, h⟩ := Result.bind_eq_ok.mp h
  obtain ⟨tree, isTree, h⟩ := Result.bind_eq_ok.mp h
  obtain ⟨gateOwner, _, h⟩ := Result.bind_eq_ok.mp h
  -- The directory is not empty, so the snapshot decides everything.
  unfold DurableStore.open at isOpened
  obtain ⟨_, _, isOpened⟩ := Result.bind_eq_ok.mp isOpened
  rw [file] at isOpened
  obtain ⟨_, sameRoot, isOpened⟩ := Result.bind_eq_ok.mp isOpened
  obtain ⟨metadata, isRead, isOpened⟩ := Result.bind_eq_ok.mp isOpened
  obtain ⟨_, _, isOpened⟩ := Result.bind_eq_ok.mp isOpened
  have sameRoot : saved.expectedRoot = root := ensure_eq_ok.mp sameRoot
  obtain ⟨read, isTreeRead, -, sameSnapshot⟩ := ReplicaMetadata.reread_eq_ok.mp isRead
  have back := DirectoryTree.fromDirents_dirents valid
  rw [rooted] at back
  obtain rfl : read = saved.tree := Except.ok.inj (isTreeRead.symm.trans back)
  obtain rfl : snapshotOf saved.metadata saved.chunks.records = metadata := sameSnapshot
  simp only [pure, Except.pure, Except.ok.injEq, Prod.mk.injEq] at isOpened
  obtain ⟨rfl, rfl, rfl⟩ := isOpened
  have sameTree : tree = saved.tree := by
    rw [sameRoot] at back
    exact Except.ok.inj (isTree.symm.trans back)
  obtain rfl : hostId = saved.hostId := (peerId_eq_ok isHost).trans own
  subst sameTree
  refine ⟨sameRoot.symm, gateOwner, ?_⟩
  refine (view_of_opened (returned_eq_ok h)).trans ?_
  have content : ∀ chunks : ChunkStore, HostState.content { restoreState saved.hostId gateOwner
      (snapshotOf saved.metadata saved.chunks.records) saved.tree chunks with
        expectedRoot := root } = saved.content.restored chunks.records gateOwner := by
    intro chunks
    refine Content.ext sameRoot.symm rfl rfl rfl rfl rfl rfl rfl rfl rfl rfl rfl rfl ?_ rfl rfl rfl
    funext peer
    exact (mailbox_restoreState saved.hostId gateOwner (snapshotOf saved.metadata _) saved.tree
      chunks peer).trans (metadata_mailbox saved peer)
  unfold HostService.view serviceOf
  simp only [Option.getD_some, Std.ExtTreeMap.contains_empty]
  rw [content, file]

omit [Primitives] in
private theorem migrateOnline_eq_ok {state next : HostState} {peer : PeerId}
    {updates : List OnlineControl} (h : migrateOnline state peer updates = .ok next) :
    ∃ mailboxes, next = { state with mailboxes } ∧ ∀ other, next.mailbox other =
      state.mailbox other ++ if peer = other then
        (updates.map OnlineControl.record).map QueueContent.control else [] := by
  obtain ⟨migrated, isMigrated, h⟩ := Result.bind_eq_ok.mp h
  obtain rfl := Except.ok.inj h
  refine ⟨_, rfl, fun other => ?_⟩
  have contents : migrated.map Queued.content =
      (updates.map OnlineControl.record).map QueueContent.control := by
    rw [Result.map_of_mapM (fun x y h => queuedControl_content h) isMigrated, List.map_map]
    rfl
  rw [mailbox_insert]
  split
  · rename_i same
    rw [List.map_append, contents, ← same]
    rfl
  · rw [List.append_nil]

omit [Primitives] in
private theorem migrateOnline_loop (entries : List (PeerId × List OnlineControl)) :
    ∀ {state next : HostState},
      entries.foldlM (fun state (peer, updates) => migrateOnline state peer updates) state =
        .ok next →
      ∃ mailboxes, next = { state with mailboxes } ∧ ∀ other, next.mailbox other =
        state.mailbox other ++ entries.flatMap fun entry => if entry.1 = other then
          (entry.2.map OnlineControl.record).map QueueContent.control else [] := by
  induction entries with
  | nil =>
    intro state next h
    obtain rfl := Except.ok.inj h
    exact ⟨state.mailboxes, rfl, fun other => (List.append_nil _).symm⟩
  | cons entry entries ih =>
    intro state next h
    obtain ⟨middle, first, rest⟩ := Result.bind_eq_ok.mp (by simpa only [List.foldlM_cons] using h)
    obtain ⟨_, rfl, firstMailbox⟩ := migrateOnline_eq_ok first
    obtain ⟨mailboxes, rfl, restMailbox⟩ := ih rest
    refine ⟨mailboxes, rfl, fun other => ?_⟩
    rw [restMailbox, firstMailbox, List.append_assoc, List.flatMap_cons]

theorem resume_view {keys : KeyStore} {disk : Option DurableStore} {state : HostState}
    {host : HostService} (h : resume keys disk state = .ok host) :
    keys.identity.document.peerId = state.hostId ∧ host.view = {
      content := state.content.resumed
      disk
      deferred := false
      identity := keys.identity
      peers := keys.peers
      selfPaired := selfPaired keys
      challenged := fun _ => false } := by
  unfold resume at h
  obtain ⟨localId, isLocal, h⟩ := Result.bind_eq_ok.mp h
  obtain ⟨_, same, h⟩ := Result.bind_eq_ok.mp h
  obtain ⟨migrated, isMigrated, h⟩ := Result.bind_eq_ok.mp h
  obtain ⟨mailboxes, rfl, mailbox⟩ := migrateOnline_loop _ isMigrated
  refine ⟨(peerId_eq_ok isLocal).symm.trans (ensure_eq_ok.mp same), ?_⟩
  have content : HostState.content { state with online := ∅, mailboxes } =
      state.content.resumed := by
    refine Content.ext rfl rfl rfl rfl rfl rfl rfl rfl rfl rfl rfl rfl rfl ?_ ?_ rfl rfl
    · funext peer
      refine (mailbox peer).trans ?_
      rw [Map.flatMap_key state.online peer fun other _ different => if_neg different]
      change _ = state.mailbox peer ++ (state.onlineRecords peer).map QueueContent.control
      unfold HostState.onlineRecords
      cases state.online[peer]? with
      | none => rfl
      | some updates =>
        rw [Option.map_some, Option.getD_some, if_pos rfl]
        rfl
    · funext peer
      change (((∅ : Map PeerId (List OnlineControl))[peer]?).getD []).map OnlineControl.record = []
      rw [Std.ExtTreeMap.getElem?_empty]
      rfl
  obtain ⟨_, gated, closed, refreshed⟩ := Action.bind_eq_ok.mp (returned_eq_ok h)
  rw [refreshMailboxes_keeps.of_ok refreshed, view_of_frame (gateMailboxes_keeps.of_ok closed)]
  unfold HostService.view serviceOf
  simp only [Std.ExtTreeMap.contains_empty]
  rw [content]

end QuantumFs.Host
