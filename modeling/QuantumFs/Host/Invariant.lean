import QuantumFs.Host.Uploads
import QuantumFs.Store.TreeInvariant

/-! What holds of the content of every host: the log has no gap, no position is
beyond it, and the queues of a peer are in the order of the log. -/
namespace QuantumFs.Host

open Lib Encoding Crypto Store

def Contiguous (log : List ControlRecord) (next : Nat) : Prop :=
  ∃ first, 1 ≤ first ∧ first + log.length = next ∧
    log.map ControlRecord.id = List.range' first log.length

namespace Contiguous

variable {log : List ControlRecord} {next : Nat}

theorem nil (h : 1 ≤ next) : Contiguous [] next := ⟨next, h, rfl, rfl⟩

theorem next_pos (h : Contiguous log next) : 1 ≤ next := by
  obtain ⟨first, pos, count, _⟩ := h
  omega

theorem append (h : Contiguous log next) (update : ControlUpdate) :
    Contiguous (log ++ [⟨next, update⟩]) (next + 1) := by
  obtain ⟨first, pos, count, ids⟩ := h
  refine ⟨first, pos, ?_, ?_⟩
  · rw [List.length_append, List.length_singleton]
    omega
  · rw [List.map_append, ids, List.length_append, List.length_singleton, List.range'_concat]
    simp [count]

theorem below (h : Contiguous log next) {record : ControlRecord} (mem : record ∈ log) :
    record.id < next := by
  obtain ⟨first, _, count, ids⟩ := h
  have := List.mem_map_of_mem (f := ControlRecord.id) mem
  rw [ids, List.mem_range'_1] at this
  omega

theorem sorted (h : Contiguous log next) : (log.map ControlRecord.id).Pairwise (· < ·) := by
  obtain ⟨first, _, _, ids⟩ := h
  rw [ids]
  exact List.pairwise_lt_range'

private theorem filter_ids (floor : Nat) (log : List ControlRecord) : ∀ first,
    log.map ControlRecord.id = List.range' first log.length →
    (log.filter fun record => floor < record.id).map ControlRecord.id =
      List.range' (max first (floor + 1)) (first + log.length - max first (floor + 1)) := by
  induction log with
  | nil =>
    intro first _
    simp
  | cons record log ih =>
    intro first ids
    rw [List.map_cons, List.length_cons, List.range'_succ, List.cons.injEq] at ids
    obtain ⟨isFirst, rest⟩ := ids
    have later := ih (first + 1) rest
    by_cases kept : floor < record.id
    · rw [List.filter_cons_of_pos (by simpa using kept), List.map_cons, later, isFirst,
        List.length_cons]
      have lower : max first (floor + 1) = first := by omega
      have upper : max (first + 1) (floor + 1) = first + 1 := by omega
      rw [lower, upper, show first + (log.length + 1) - first = log.length + 1 by omega,
        List.range'_succ, show first + 1 + log.length - (first + 1) = log.length by omega]
    · rw [List.filter_cons_of_neg (by simpa using kept), later, List.length_cons]
      have same : max (first + 1) (floor + 1) = max first (floor + 1) := by omega
      rw [same, show first + 1 + log.length = first + (log.length + 1) by omega]

theorem truncate (h : Contiguous log next) {floor : Nat} (bounded : floor < next) :
    Contiguous (log.filter fun record => floor < record.id) next := by
  obtain ⟨first, pos, count, ids⟩ := h
  have kept := filter_ids floor log first ids
  have length := congrArg List.length kept
  rw [List.length_map, List.length_range'] at length
  refine ⟨max first (floor + 1), by omega, by omega, ?_⟩
  rw [kept, length]

end Contiguous

namespace Content

variable (c : Content)

def controls (peer : PeerId) : List ControlRecord := (c.mailbox peer).filterMap QueueContent.record?

/-- Everything that waits for a peer, the mailbox before the live queue. -/
def pending (peer : PeerId) : List ControlRecord := c.controls peer ++ c.online peer

/-- The invariant of a content. -/
structure Sound [Primitives] : Prop where
  tree : c.tree.Valid
  root : c.tree.expectedRoot = c.expectedRoot
  log : Contiguous c.log c.nextControl
  acked : ∀ peer, c.acked peer < c.nextControl
  bootstrap : ∀ peer, c.bootstrap peer < c.nextControl
  host : c.hostId ∈ c.members
  outside : ∀ peer, peer ∉ c.members → c.mailbox peer = [] ∧ c.online peer = []
  order : ∀ peer, ((c.pending peer).map ControlRecord.id).Pairwise (· < ·)
  below : ∀ peer, ∀ record ∈ c.pending peer, record.id < c.nextControl
  logged : ∀ peer ∈ c.members, ∀ record ∈ c.pending peer, c.covered peer < record.id →
    record ∈ c.log
  addressed : ∀ (id : ChunkId) (record : ChunkRecord), c.records[id]? = some record →
    chunkId record.fileId record.index record.plaintext = id

/-- No acknowledgement is taken back, and a record leaves the log only when every
member has acknowledged it. -/
structure Follows (c next : Content) : Prop where
  acked : ∀ peer ∈ c.members, peer ∈ next.members → c.acked peer ≤ next.acked peer
  dropped : ∀ record ∈ c.log, record ∉ next.log → ∀ peer ∈ next.members,
    record.id ≤ next.acked peer

variable {c} {next : Content}

theorem Follows.refl (c : Content) : Follows c c :=
  ⟨fun _ _ _ => le_refl _, fun _ mem gone => absurd mem gone⟩

theorem Follows.trans {middle : Content} (first : Follows c middle) (second : Follows middle next)
    (members : ∀ peer ∈ next.members, peer ∈ middle.members) : Follows c next where
  acked := fun peer mem memNext =>
    (first.acked peer mem (members peer memNext)).trans
      (second.acked peer (members peer memNext) memNext)
  dropped := fun record mem gone peer memNext => by
    by_cases kept : record ∈ middle.log
    · exact second.dropped record kept gone peer memNext
    · exact (first.dropped record mem kept peer (members peer memNext)).trans
        (second.acked peer (members peer memNext) memNext)

private theorem filter_controls {keep : QueueContent → Bool}
    (controls : ∀ record, keep (.control record) = true) (queue : List QueueContent) :
    (queue.filter keep).filterMap QueueContent.record? = queue.filterMap QueueContent.record? := by
  induction queue with
  | nil => rfl
  | cons content queue ih =>
    cases content with
    | control record =>
      rw [List.filter_cons_of_pos (controls record)]
      simp only [List.filterMap_cons, QueueContent.record?, ih]
    | chunk fileId index chunkId =>
      by_cases kept : keep (.chunk fileId index chunkId) = true
      · rw [List.filter_cons_of_pos kept]
        simp only [List.filterMap_cons, QueueContent.record?, ih]
      · rw [List.filter_cons_of_neg kept, ih]
        rfl

private theorem removeBodies_controls (removed : Option FileId) (queue : List QueueContent) :
    (removeBodies removed queue).filterMap QueueContent.record? =
      queue.filterMap QueueContent.record? := by
  cases removed with
  | none => rfl
  | some fileId => exact filter_controls (fun _ => rfl) queue

private theorem addBody_controls (current : Manifest) (prior : Option Manifest)
    (queue : List QueueContent) (slot : ChunkId × Nat) :
    (addBody current prior queue slot).filterMap QueueContent.record? =
      queue.filterMap QueueContent.record? := by
  unfold addBody
  split
  · rfl
  · rw [List.filterMap_append, filter_controls (fun _ => rfl)]
    exact List.append_nil _

private theorem addBodies_controls (current : Manifest) (prior : Option Manifest) (pending : Bool)
    (queue : List QueueContent) :
    (addBodies current prior pending queue).filterMap QueueContent.record? =
      queue.filterMap QueueContent.record? := by
  unfold addBodies
  have loop : ∀ (slots : List (ChunkId × Nat)) (queue : List QueueContent),
      (slots.foldl (addBody current prior) queue).filterMap QueueContent.record? =
        queue.filterMap QueueContent.record? := by
    intro slots
    induction slots with
    | nil => exact fun _ => rfl
    | cons slot slots ih =>
      intro queue
      rw [List.foldl_cons, ih, addBody_controls]
  rw [loop, filter_controls (fun _ => rfl)]

theorem map_control_records (records : List ControlRecord) :
    (records.map QueueContent.control).filterMap QueueContent.record? = records := by
  rw [List.filterMap_map]
  exact List.filterMap_some

theorem enqueue_controls (c : Content) (record : ControlRecord) (removed : Option FileId)
    (peer : PeerId) (mailbox : List QueueContent) (online : List ControlRecord) :
    (c.enqueue record removed peer mailbox online).filterMap QueueContent.record? =
      mailbox.filterMap QueueContent.record? ++ online ++ [record] := by
  have queued : (removeBodies removed (mailbox ++ online.map QueueContent.control ++
      [.control record])).filterMap QueueContent.record? =
      mailbox.filterMap QueueContent.record? ++ online ++ [record] := by
    rw [removeBodies_controls, List.filterMap_append, List.filterMap_append, map_control_records]
    rfl
  unfold enqueue
  dsimp only
  split
  · rw [addBodies_controls, queued]
  · exact queued

theorem commit_eq_ok {update : ControlUpdate} {live : PeerId → Bool}
    {admission : Option VaultMetadata} {staged : Content}
    (h : c.commit update live admission = .ok staged) :
    ∃ tree removed, validateLinkKind c.manifests update = .ok () ∧
      applyTreeUpdate c.tree update = .ok (tree, removed) ∧ c.nextControl + 1 ≤ u64Max ∧
      staged = { c.dropMember (kickedBy update) with
        tree := tree
        ackedThrough := (c.dropMember (kickedBy update)).ackedThrough.insert c.hostId c.nextControl
        records := c.recordsAfter removed
        manifests := c.manifestsAfter update removed
        log := c.log ++ [⟨c.nextControl, update⟩]
        nextControl := c.nextControl + 1
        mailbox := c.mailboxAfter ⟨c.nextControl, update⟩ removed live
        online := c.onlineAfter ⟨c.nextControl, update⟩ live
        admission := admission } := by
  obtain ⟨_, kind, h⟩ := Result.bind_eq_ok.mp h
  obtain ⟨⟨tree, removed⟩, applied, h⟩ := Result.bind_eq_ok.mp h
  obtain ⟨next, counted, h⟩ := Result.bind_eq_ok.mp h
  obtain ⟨bounded, rfl⟩ := checkedAdd_eq_ok.mp counted
  exact ⟨tree, removed, kind, applied, bounded, (Except.ok.inj h).symm⟩

structure Committed (c : Content) (update : ControlUpdate) (staged : Content) : Prop where
  log : staged.log = c.log ++ [⟨c.nextControl, update⟩]
  next : staged.nextControl = c.nextControl + 1
  hostId : staged.hostId = c.hostId
  members : ∀ peer, peer ∈ staged.members ↔ peer ∈ c.members ∧ some peer ≠ kickedBy update
  acked : ∀ peer, staged.acked peer =
    if peer = c.hostId then c.nextControl
    else if some peer = kickedBy update then 0 else c.acked peer
  bootstrap : ∀ peer, staged.bootstrap peer =
    if some peer = kickedBy update then 0 else c.bootstrap peer
  pending : ∀ peer, staged.pending peer =
    if c.recipient update peer then c.pending peer ++ [⟨c.nextControl, update⟩]
    else if some peer = kickedBy update then [] else c.pending peer
  queues : ∀ peer, ¬ c.recipient update peer →
    staged.mailbox peer = (if some peer = kickedBy update then [] else c.mailbox peer) ∧
      staged.online peer = if some peer = kickedBy update then [] else c.online peer
  records : ∀ (id : ChunkId) (record : ChunkRecord), staged.records[id]? = some record →
    c.records[id]? = some record
  tree : ∃ removed, applyTreeUpdate c.tree update = .ok (staged.tree, removed)
  expectedRoot : staged.expectedRoot = c.expectedRoot

private theorem acked_insert (acks : Map PeerId Nat) (peer other : PeerId) (through : Nat) :
    (acks.insert peer through)[other]?.getD 0 =
      if other = peer then through else acks[other]?.getD 0 := by
  rw [Map.get_insert]
  by_cases same : peer = other
  · rw [if_pos same, if_pos same.symm]
    rfl
  · rw [if_neg same, if_neg (Ne.symm same)]

private theorem acked_erase (acks : Map PeerId Nat) (peer other : PeerId) :
    (acks.erase peer)[other]?.getD 0 =
      if some other = some peer then 0 else acks[other]?.getD 0 := by
  rw [Map.get_erase]
  by_cases same : peer = other
  · rw [if_pos same, if_pos (congrArg some same.symm)]
    rfl
  · rw [if_neg same, if_neg fun equal => same (Option.some.inj equal).symm]

theorem committed_of_ok {update : ControlUpdate} {live : PeerId → Bool}
    {admission : Option VaultMetadata} {staged : Content}
    (h : c.commit update live admission = .ok staged) : Committed c update staged := by
  obtain ⟨tree, removed, _, applied, _, rfl⟩ := commit_eq_ok h
  refine ⟨rfl, rfl, ?_, fun peer => ?_, fun peer => ?_, fun peer => ?_, fun peer => ?_,
    fun peer => ?_, fun id record found => ?_, ⟨removed, applied⟩, ?_⟩
  · cases kickedBy update <;> rfl
  · cases kickedBy update with
    | none => simp [dropMember]
    | some target =>
      simp only [dropMember, OrdSet.mem_erase, Option.some.injEq, Ne, eq_comm, and_comm]
  · rw [Content.acked, acked_insert]
    cases kickedBy update with
    | none => rfl
    | some target =>
      simp only [dropMember, acked_erase]
      rfl
  · cases kickedBy update with
    | none => rfl
    | some target =>
      simp only [Content.bootstrap, dropMember, acked_erase]
  · simp only [Content.pending, controls, mailboxAfter, onlineAfter]
    by_cases recipient : c.recipient update peer
    · have stays : some peer ≠ kickedBy update := recipient.2.2
      cases isLive : live peer with
      | true => simp [recipient, stays]
      | false => simp [recipient, enqueue_controls]
    · by_cases kicked : some peer = kickedBy update
      · simp [recipient, kicked]
      · simp [recipient, kicked]
  · intro notRecipient
    simp only [mailboxAfter, onlineAfter, notRecipient, false_and, if_false, and_self]
  · cases removed with
    | none => exact found
    | some fileId =>
      rw [recordsAfter, Map.get_filter] at found
      exact (Option.filter_eq_some_iff.mp found).1
  · cases kickedBy update <;> rfl

theorem floor_le (c : Content) {peer : PeerId} (member : peer ∈ c.members) :
    c.floor ≤ c.acked peer := by
  unfold Content.floor
  cases least : (c.members.toList.map c.acked).min? with
  | none => exact Nat.zero_le _
  | some floor =>
    have mem : c.acked peer ∈ c.members.toList.map c.acked :=
      List.mem_map_of_mem ((OrdSet.mem_toList _ _).mpr member)
    exact (List.min?_eq_some_iff.mp least).2 _ mem

variable [Primitives]

theorem Committed.covered_le {update : ControlUpdate} {staged : Content}
    (h : Committed c update staged) (sound : c.Sound) {peer : PeerId}
    (stays : some peer ≠ kickedBy update) : c.covered peer ≤ staged.covered peer := by
  have acked := sound.acked peer
  unfold Content.covered
  rw [h.acked, h.bootstrap, if_neg stays, if_neg stays]
  split <;> omega

omit [Primitives] in
theorem valid_applyTreeUpdate {tree next : DirectoryTree} {update : ControlUpdate}
    {removed : Option FileId} (valid : tree.Valid)
    (h : applyTreeUpdate tree update = .ok (next, removed)) :
    next.Valid ∧ next.expectedRoot = tree.expectedRoot := by
  cases update with
  | newManifest manifest =>
    obtain ⟨_, _, h⟩ := Result.bind_eq_ok.mp h
    cases h
    exact ⟨valid, rfl⟩
  | kick target =>
    cases h
    exact ⟨valid, rfl⟩
  | add fileId =>
    cases h
    exact ⟨valid, rfl⟩
  | clear fileId =>
    cases h
    exact ⟨valid, rfl⟩
  | remove fileId =>
    obtain ⟨after, ok, h⟩ := Result.bind_eq_ok.mp h
    cases h
    refine ⟨DirectoryTree.valid_removeId valid ok, ?_⟩
    obtain ⟨_, ⟨rfl, _⟩ | ⟨parent, name, unlinked⟩⟩ := DirectoryTree.removeId_cases valid ok
    · rfl
    · obtain ⟨_, _, _, _, _, _, rfl⟩ := (DirectoryTree.unlink_eq_ok valid).mp unlinked
      rfl
  | link parent name child isDir =>
    obtain ⟨after, ok, h⟩ := Result.bind_eq_ok.mp h
    cases h
    obtain ⟨_, rfl⟩ := DirectoryTree.link_eq_ok.mp ok
    exact ⟨DirectoryTree.valid_link valid ok, rfl⟩
  | unlink parent name =>
    obtain ⟨⟨child, after⟩, ok, h⟩ := Result.bind_eq_ok.mp h
    cases h
    refine ⟨DirectoryTree.valid_unlink valid ok, ?_⟩
    obtain ⟨_, _, _, _, _, _, rfl⟩ := (DirectoryTree.unlink_eq_ok valid).mp ok
    rfl
  | rename srcParent srcName dstParent dstName =>
    obtain ⟨after, ok, h⟩ := Result.bind_eq_ok.mp h
    cases h
    refine ⟨DirectoryTree.valid_rename valid ok, ?_⟩
    obtain rfl | ⟨_, _, _, _, _, rfl, _⟩ := DirectoryTree.rename_cases valid ok
    · rfl
    · rfl

theorem Sound.commit {update : ControlUpdate} {staged : Content} (sound : c.Sound)
    (accepts : ∀ target, kickedBy update = some target → target ≠ c.hostId)
    (h : Committed c update staged) : staged.Sound where
  tree := by
    obtain ⟨removed, applied⟩ := h.tree
    exact (valid_applyTreeUpdate sound.tree applied).1
  root := by
    obtain ⟨removed, applied⟩ := h.tree
    rw [(valid_applyTreeUpdate sound.tree applied).2, sound.root, h.expectedRoot]
  log := by
    rw [h.log, h.next]
    exact sound.log.append update
  acked := fun peer => by
    rw [h.acked, h.next]
    have := sound.acked peer
    have := sound.log.next_pos
    split
    · omega
    · split <;> omega
  bootstrap := fun peer => by
    rw [h.bootstrap, h.next]
    have := sound.bootstrap peer
    have := sound.log.next_pos
    split <;> omega
  host := by
    rw [h.hostId, h.members]
    exact ⟨sound.host, fun kicked => accepts _ kicked.symm rfl⟩
  outside := fun peer notMember => by
    have notRecipient : ¬ c.recipient update peer := fun recipient =>
      notMember ((h.members peer).mpr ⟨recipient.1, recipient.2.2⟩)
    obtain ⟨mailbox, online⟩ := h.queues peer notRecipient
    rw [mailbox, online]
    by_cases kicked : some peer = kickedBy update
    · rw [if_pos kicked, if_pos kicked]
      exact ⟨rfl, rfl⟩
    · rw [if_neg kicked, if_neg kicked]
      exact sound.outside peer fun member => notMember ((h.members peer).mpr ⟨member, kicked⟩)
  order := fun peer => by
    rw [h.pending]
    split
    · rw [List.map_append, List.pairwise_append]
      refine ⟨sound.order peer, List.pairwise_singleton _ _, fun id mem last isLast => ?_⟩
      obtain ⟨record, pending, rfl⟩ := List.mem_map.mp mem
      rw [List.map_singleton, List.mem_singleton] at isLast
      rw [isLast]
      exact sound.below peer record pending
    · split
      · exact List.Pairwise.nil
      · exact sound.order peer
  below := fun peer record mem => by
    rw [h.pending] at mem
    rw [h.next]
    split at mem
    · obtain old | new := List.mem_append.mp mem
      · exact Nat.lt_succ_of_lt (sound.below peer record old)
      · rw [List.mem_singleton.mp new]
        exact Nat.lt_succ_self _
    · split at mem
      · cases mem
      · exact Nat.lt_succ_of_lt (sound.below peer record mem)
  logged := fun peer member record mem above => by
    obtain ⟨member, stays⟩ := (h.members peer).mp member
    have older : record ∈ c.pending peer → record ∈ c.log := fun old =>
      sound.logged peer member record old ((h.covered_le sound stays).trans_lt above)
    rw [h.pending, if_neg stays] at mem
    rw [h.log, List.mem_append]
    split at mem
    · obtain old | new := List.mem_append.mp mem
      · exact .inl (older old)
      · exact .inr new
    · exact .inl (older mem)
  addressed := fun id record found => sound.addressed id record (h.records id record found)

theorem Follows.of_committed {update : ControlUpdate} {staged : Content} (sound : c.Sound)
    (h : Committed c update staged) : Follows c staged where
  acked := fun peer _ member => by
    have acked := sound.acked peer
    rw [h.acked, if_neg ((h.members peer).mp member).2]
    split <;> omega
  dropped := fun record mem gone => by
    rw [h.log] at gone
    exact absurd (List.mem_append_left _ mem) gone

theorem Sound.settle (sound : c.Sound) (documents : Map PeerId IdentityDocument) :
    (c.settle documents).Sound where
  tree := sound.tree
  root := sound.root
  log := sound.log.truncate ((c.floor_le sound.host).trans_lt (sound.acked _))
  acked := sound.acked
  bootstrap := sound.bootstrap
  host := sound.host
  outside := sound.outside
  order := sound.order
  below := sound.below
  logged := fun peer member record mem above => by
    have floor : c.floor < record.id :=
      (c.floor_le member).trans_lt ((Nat.le_max_left _ _).trans_lt above)
    exact List.mem_filter.mpr ⟨sound.logged peer member record mem above, by simpa using floor⟩
  addressed := sound.addressed

omit [Primitives] in
theorem Follows.of_settle (c : Content) (documents : Map PeerId IdentityDocument) :
    Follows c (c.settle documents) where
  acked := fun _ _ _ => le_refl _
  dropped := fun record mem gone peer member => by
    have low : ¬ c.floor < record.id := fun above =>
      gone (List.mem_filter.mpr ⟨mem, by simpa using above⟩)
    exact (Nat.le_of_not_lt low).trans (c.floor_le member)

theorem Sound.records (sound : c.Sound) {records : Map ChunkId ChunkRecord}
    (addressed : ∀ (id : ChunkId) (record : ChunkRecord), records[id]? = some record →
      chunkId record.fileId record.index record.plaintext = id) :
    Sound { c with records } :=
  { sound with addressed }

theorem Sound.put {world : World} (sound : c.Sound) (h : Put world c next) : next.Sound := by
  cases h with
  | mk fileId index plaintext _ _ =>
    refine sound.records fun id record found => ?_
    rw [Map.get_insert] at found
    split at found
    · rename_i same
      rw [← Option.some.inj found]
      exact same
    · exact sound.addressed id record found

theorem Sound.puts {world : World} (sound : c.Sound)
    (h : Relation.ReflTransGen (Put world) c next) : next.Sound := by
  induction h with
  | refl => exact sound
  | tail _ put ih => exact ih.put put

omit [Primitives] in
theorem puts_records [Primitives] {world : World} (h : Relation.ReflTransGen (Put world) c next) :
    ∃ records, next = { c with records } := by
  induction h with
  | refl => exact ⟨c.records, rfl⟩
  | tail _ put ih =>
    obtain ⟨records, rfl⟩ := ih
    cases put with
    | mk fileId index plaintext _ _ => exact ⟨_, rfl⟩

omit [Primitives] in
private theorem numberRecords_ids {first : Nat} (updates : List ControlUpdate) :
    ∀ {offset : Nat} {records : List ControlRecord},
      (updates.zipIdx offset).mapM (fun (update, offset) => do
        let id ← checkedAdd first offset (.state "bootstrap instruction id overflow")
        pure (⟨id, update⟩ : ControlRecord)) = .ok records →
      records.map ControlRecord.id = List.range' (first + offset) updates.length ∧
        records.map ControlRecord.update = updates := by
  induction updates with
  | nil =>
    intro offset records h
    cases h
    exact ⟨rfl, rfl⟩
  | cons update updates ih =>
    intro offset records h
    rw [List.zipIdx_cons, List.mapM_cons] at h
    obtain ⟨record, first', h⟩ := Result.bind_eq_ok.mp h
    obtain ⟨rest, others, h⟩ := Result.bind_eq_ok.mp h
    obtain ⟨id, counted, first'⟩ := Result.bind_eq_ok.mp first'
    cases first'
    cases h
    obtain ⟨_, rfl⟩ := checkedAdd_eq_ok.mp counted
    obtain ⟨ids, same⟩ := ih others
    refine ⟨?_, by rw [List.map_cons, same]⟩
    rw [List.map_cons, ids, List.length_cons, List.range'_succ]
    rfl

omit [Primitives] in
theorem snapshotRecords_ids {root : FileId} {tree : DirectoryTree}
    {manifests : Map FileId Manifest} {through : Nat} {records : List ControlRecord}
    (h : snapshotRecords root tree manifests through = .ok records) :
    ∃ first, 1 ≤ first ∧ first + records.length = through + 1 ∧
      records.map ControlRecord.id = List.range' first records.length := by
  obtain ⟨updates, _, h⟩ := Result.bind_eq_ok.mp h
  obtain ⟨_, enough, h⟩ := Result.bind_eq_ok.mp h
  obtain ⟨first, counted, h⟩ := Result.bind_eq_ok.mp h
  obtain ⟨_, rfl⟩ := checkedAdd_eq_ok.mp counted
  have enough : updates.length ≤ through := ensure_eq_ok.mp enough
  obtain ⟨ids, same⟩ := numberRecords_ids updates h
  have length : records.length = updates.length := by rw [← same, List.length_map]
  refine ⟨through - updates.length + 1, by omega, by omega, ?_⟩
  rw [ids, length]

theorem Sound.withMember (sound : c.Sound) {document : IdentityDocument}
    {documents : Map PeerId IdentityDocument} {records : List ControlRecord}
    (stranger : document.peerId ∉ c.members)
    (snapshot : snapshotRecords c.expectedRoot c.tree c.manifests (c.nextControl - 1) =
      .ok records) : (c.withMember document documents records).Sound := by
  have pos := sound.log.next_pos
  obtain ⟨first, firstPos, count, ids⟩ := snapshotRecords_ids snapshot
  have bounds : ∀ record ∈ records, record.id ≤ c.nextControl - 1 := by
    intro record mem
    have := List.mem_map_of_mem (f := ControlRecord.id) mem
    rw [ids, List.mem_range'_1] at this
    omega
  have pending : ∀ peer, (c.withMember document documents records).pending peer =
      if document.peerId = peer then records else c.pending peer := by
    intro peer
    unfold Content.pending controls Content.withMember
    dsimp only
    by_cases new : document.peerId = peer
    · have empty := (sound.outside peer (new ▸ stranger)).2
      rw [if_pos new, if_pos new, empty, List.filterMap_append, map_control_records]
      have slots : (manifestSlots c.manifests).filterMap QueueContent.record? = [] := by
        rw [List.filterMap_eq_nil_iff]
        intro content mem
        obtain ⟨manifest, _, mem⟩ := List.mem_flatMap.mp mem
        obtain ⟨slot, _, rfl⟩ := List.mem_map.mp mem
        rfl
      rw [slots, List.append_nil, List.append_nil]
    · rw [if_neg new, if_neg new]
  have bootstrap : ∀ peer, (c.withMember document documents records).bootstrap peer =
      if peer = document.peerId then c.nextControl - 1 else c.bootstrap peer :=
    fun peer => acked_insert _ _ _ _
  refine
    { tree := sound.tree
      root := sound.root
      log := sound.log
      acked := sound.acked
      bootstrap := fun peer => ?_
      host := (OrdSet.mem_insert _ _ _).mpr (.inr sound.host)
      outside := fun peer notMember => ?_
      order := fun peer => ?_
      below := fun peer record mem => ?_
      logged := fun peer member record mem above => ?_
      addressed := sound.addressed }
  · rw [bootstrap]
    have := sound.bootstrap peer
    change _ < c.nextControl
    split <;> omega
  · have different : document.peerId ≠ peer := fun same =>
      notMember ((OrdSet.mem_insert _ _ _).mpr (.inl same))
    have outsider : peer ∉ c.members := fun member =>
      notMember ((OrdSet.mem_insert _ _ _).mpr (.inr member))
    have := sound.outside peer outsider
    exact ⟨(if_neg different).trans this.1, this.2⟩
  · rw [pending]
    split
    · rw [ids]
      exact List.pairwise_lt_range'
    · exact sound.order peer
  · rw [pending] at mem
    change record.id < c.nextControl
    split at mem
    · have := bounds record mem
      omega
    · exact sound.below peer record mem
  · rw [pending] at mem
    unfold Content.covered at above
    rw [bootstrap] at above
    split at mem
    · rename_i new
      rw [if_pos new.symm] at above
      have := bounds record mem
      omega
    · rename_i old
      rw [if_neg (Ne.symm old)] at above
      obtain absurd | member := (OrdSet.mem_insert _ _ _).mp member
      · exact (old absurd).elim
      · exact sound.logged peer member record mem above

omit [Primitives] in
theorem Follows.of_withMember (c : Content) (document : IdentityDocument)
    (documents : Map PeerId IdentityDocument) (records : List ControlRecord) :
    Follows c (c.withMember document documents records) :=
  ⟨fun _ _ _ => le_refl _, fun _ mem gone => absurd mem gone⟩

omit [Primitives] in
theorem acked_raiseAck (c : Content) (peer other : PeerId) (through : Nat) :
    (c.raiseAck peer through).acked other =
      if other = peer then max (c.acked peer) through else c.acked other :=
  acked_insert _ _ _ _

theorem Sound.raiseAck (sound : c.Sound) (peer : PeerId) {through : Nat}
    (bounded : through < c.nextControl) : (c.raiseAck peer through).Sound :=
  { sound with
    acked := fun other => by
      rw [acked_raiseAck]
      have := sound.acked peer
      have := sound.acked other
      change _ < c.nextControl
      split <;> omega
    logged := fun other member record mem above => by
      refine sound.logged other member record mem (lt_of_le_of_lt ?_ above)
      unfold Content.covered
      rw [acked_raiseAck]
      change max _ _ ≤ max _ (c.bootstrap other)
      split
      · rename_i same
        subst same
        omega
      · exact le_refl _ }

omit [Primitives] in
theorem Follows.of_raiseAck (c : Content) (peer : PeerId) (through : Nat) :
    Follows c (c.raiseAck peer through) where
  acked := fun other _ _ => by
    rw [acked_raiseAck]
    split
    · rename_i same
      rw [same]
      exact Nat.le_max_left _ _
    · exact le_refl _
  dropped := fun _ mem gone => absurd mem gone

omit [Primitives] in
theorem drainedThrough_lt [Primitives] (sound : c.Sound) (peer : PeerId) :
    c.drainedThrough peer < c.nextControl := by
  have bootstrap := sound.bootstrap peer
  unfold Content.drainedThrough
  cases greatest : ((((c.mailbox peer).filterMap QueueContent.record?).map (·.id)).max?) with
  | none =>
    rw [Option.getD_none]
    omega
  | some id =>
    obtain ⟨record, mem, rfl⟩ := List.mem_map.mp (List.max?_mem greatest)
    have := sound.below peer record (List.mem_append_left _ mem)
    rw [Option.getD_some]
    omega

theorem Sound.drained (sound : c.Sound) (peer : PeerId) : (c.drained peer).Sound := by
  have raised := sound.raiseAck peer (drainedThrough_lt sound peer)
  have bootstrap : ∀ other, (c.drained peer).bootstrap other =
      if some other = some peer then 0 else c.bootstrap other := fun _ => acked_erase _ _ _
  have pending : ∀ other, (c.drained peer).pending other =
      if peer = other then c.online other else c.pending other := by
    intro other
    unfold Content.pending controls Content.drained
    dsimp only
    split <;> rfl
  have sublist : ∀ other, ((c.drained peer).pending other).Sublist (c.pending other) := by
    intro other
    rw [pending]
    split
    · exact List.sublist_append_right _ _
    · exact List.Sublist.refl _
  exact
    { tree := sound.tree
      root := sound.root
      log := sound.log
      acked := raised.acked
      bootstrap := fun other => by
        rw [bootstrap]
        have := sound.bootstrap other
        change _ < c.nextControl
        split <;> omega
      host := sound.host
      outside := fun other notMember => by
        obtain ⟨mailbox, online⟩ := sound.outside other notMember
        refine ⟨?_, online⟩
        unfold Content.drained
        dsimp only
        split
        · rfl
        · exact mailbox
      order := fun other => (sound.order other).sublist ((sublist other).map _)
      below := fun other record mem => sound.below other record ((sublist other).mem mem)
      logged := fun other member record mem above => by
        refine sound.logged other member record ((sublist other).mem mem) (lt_of_le_of_lt ?_ above)
        have acked : (c.drained peer).acked other =
            (c.raiseAck peer (c.drainedThrough peer)).acked other := rfl
        unfold Content.covered
        rw [acked, acked_raiseAck, bootstrap]
        have through : c.bootstrap peer ≤ c.drainedThrough peer := Nat.le_max_right _ _
        by_cases same : other = peer
        · subst same
          simp only [if_true]
          omega
        · rw [if_neg same, if_neg fun equal => same (Option.some.inj equal)]
      addressed := sound.addressed }

omit [Primitives] in
theorem Follows.of_drained (c : Content) (peer : PeerId) : Follows c (c.drained peer) :=
  ⟨(Follows.of_raiseAck c peer (c.drainedThrough peer)).acked, fun _ mem gone => absurd mem gone⟩

theorem Sound.taken (sound : c.Sound) (peer : PeerId) : (c.taken peer).Sound := by
  have sublist : ∀ other, ((c.taken peer).pending other).Sublist (c.pending other) := by
    intro other
    unfold Content.pending Content.taken
    dsimp only
    split
    · exact List.Sublist.append_left (List.nil_sublist _) _
    · exact List.Sublist.refl _
  exact { sound with
    outside := fun other notMember => by
      obtain ⟨mailbox, online⟩ := sound.outside other notMember
      refine ⟨mailbox, ?_⟩
      unfold Content.taken
      dsimp only
      split
      · rfl
      · exact online
    order := fun other => (sound.order other).sublist ((sublist other).map _)
    below := fun other record mem => sound.below other record ((sublist other).mem mem)
    logged := fun other member record mem above =>
      sound.logged other member record ((sublist other).mem mem) above }

theorem Sound.appended (sound : c.Sound) {peer : PeerId} (member : peer ∈ c.members)
    (fileId : FileId) (index : Nat) (id : ChunkId) :
    (c.appended peer fileId index id).Sound := by
  have pending : (c.appended peer fileId index id).pending = c.pending := by
    funext other
    unfold Content.pending controls Content.appended
    dsimp only
    split
    · rename_i same
      rw [List.filterMap_append, filter_controls (fun _ => rfl), same]
      simp [QueueContent.record?]
    · rfl
  exact { sound with
    outside := fun other notMember => by
      obtain ⟨mailbox, online⟩ := sound.outside other notMember
      refine ⟨?_, online⟩
      unfold Content.appended
      dsimp only
      rw [if_neg fun same : peer = other => notMember (same ▸ member)]
      exact mailbox
    order := fun other => by rw [pending]; exact sound.order other
    below := fun other record mem => sound.below other record (by rwa [pending] at mem)
    logged := fun other isMember record mem above =>
      sound.logged other isMember record (by rwa [pending] at mem) above }

omit [Primitives] in
theorem kicked_ne_host [Primitives] {world : World} {update : ControlUpdate}
    (accepts : c.Accepts world update) {target : PeerId} (kicked : kickedBy update = some target) :
    target ≠ c.hostId := by
  cases update with
  | kick other =>
    rw [← Option.some.inj kicked]
    exact accepts.2
  | _ => cases kicked

structure Advances (c next : Content) : Prop where
  follows : Follows c next
  members : ∀ peer ∈ next.members, peer ∈ c.members

omit [Primitives] in
theorem Advances.trans {middle : Content} (first : Advances c middle)
    (second : Advances middle next) : Advances c next :=
  ⟨first.follows.trans second.follows second.members,
    fun peer mem => first.members peer (second.members peer mem)⟩

omit [Primitives] in
theorem Advances.of_settle (c : Content) (documents : Map PeerId IdentityDocument) :
    Advances c (c.settle documents) := ⟨.of_settle c documents, fun _ mem => mem⟩

theorem Sound.commits {world : World} {update : ControlUpdate} (sound : c.Sound)
    (h : Commits world update c next) : next.Sound ∧ Advances c next := by
  obtain ⟨accepts, live, admission, staged, documents, _, _, committed, _, rfl⟩ := h
  have committed := committed_of_ok committed
  have staged := sound.commit (fun _ kicked => kicked_ne_host accepts kicked) committed
  refine ⟨staged.settle documents, Advances.trans ⟨.of_committed sound committed, ?_⟩
    (.of_settle _ documents)⟩
  exact fun peer member => ((committed.members peer).mp member).1

theorem Sound.uploads {world : World} {manifest : Manifest} {link : Option ControlUpdate}
    (sound : c.Sound) (h : Uploads world manifest link c next) :
    next.Sound ∧ Advances c next := by
  obtain ⟨stored, committed, puts, adopts, linked⟩ := h
  have storedSound := sound.puts puts
  have stored : Advances c stored := by
    obtain ⟨records, rfl⟩ := puts_records puts
    exact ⟨⟨fun _ _ _ => le_refl _, fun _ mem gone => absurd mem gone⟩, fun _ mem => mem⟩
  have committed : committed.Sound ∧ Advances c committed := by
    obtain ⟨_, rfl⟩ | commits := adopts
    · exact ⟨storedSound, stored⟩
    · obtain ⟨committedSound, advances⟩ := storedSound.commits commits
      exact ⟨committedSound, stored.trans advances⟩
  cases link with
  | none =>
    obtain rfl : next = _ := linked
    exact committed
  | some update =>
    obtain ⟨linkedSound, advances⟩ := committed.1.commits linked
    exact ⟨linkedSound, committed.2.trans advances⟩

theorem Sound.move {world : World} (sound : c.Sound) (h : Move world c next) :
    next.Sound ∧ Follows c next := by
  cases h with
  | keep => exact ⟨sound, .refl c⟩
  | commit accepts _ _ committed =>
    have committed := committed_of_ok committed
    exact ⟨sound.commit (fun _ kicked => kicked_ne_host accepts kicked) committed,
      .of_committed sound committed⟩
  | upload _ uploads =>
    obtain ⟨uploaded, advances⟩ := sound.uploads uploads
    exact ⟨uploaded, advances.follows⟩
  | enrol _ _ stranger _ _ snapshot =>
    exact ⟨sound.withMember stranger snapshot, .of_withMember _ _ _ _⟩
  | acknowledge _ bounded _ => exact ⟨sound.raiseAck _ bounded, .of_raiseAck _ _ _⟩
  | drain peer _ => exact ⟨sound.drained peer, .of_drained _ _⟩
  | take peer _ =>
    exact ⟨sound.taken peer, ⟨fun _ _ _ => le_refl _, fun _ mem gone => absurd mem gone⟩⟩
  | append member _ _ _ =>
    exact ⟨sound.appended member _ _ _,
      ⟨fun _ _ _ => le_refl _, fun _ mem gone => absurd mem gone⟩⟩
  | attach metadata _ =>
    exact ⟨{ sound with }, ⟨fun _ _ _ => le_refl _, fun _ mem gone => absurd mem gone⟩⟩
  | admission metadata =>
    exact ⟨{ sound with }, ⟨fun _ _ _ => le_refl _, fun _ mem gone => absurd mem gone⟩⟩

end Content

end QuantumFs.Host
