import QuantumFs.Host.Run

/-! The host can always deliver: it holds every chunk of every manifest and of
every queue, and a queue has at most one body for a slot. -/
namespace QuantumFs.Host

open Lib Encoding Crypto Store

def QueueContent.slot? : QueueContent → Option (FileId × Nat)
  | .control _ => none
  | .chunk fileId index _ => some (fileId, index)

namespace Content

def Changed (prior : Option Manifest) (slot : ChunkId × Nat) : Prop :=
  prior.any (fun old => old.chunkIds[slot.2]? = some slot.1) = false

theorem mem_addBody {current : Manifest} {prior : Option Manifest} {queue : List QueueContent}
    {slot : ChunkId × Nat} {content : QueueContent} :
    content ∈ addBody current prior queue slot ↔
      (Changed prior slot ∧ content = .chunk current.fileId slot.2 slot.1) ∨
        (content ∈ queue ∧ (Changed prior slot → otherSlot current.fileId slot.2 content = true)) := by
  unfold addBody Changed
  split
  · rename_i unchanged
    simp [unchanged]
  · rename_i changed
    have changed : prior.any (fun old => old.chunkIds[slot.2]? = some slot.1) = false := by
      simpa using changed
    simp only [List.mem_append, List.mem_filter, List.mem_singleton, changed, true_and, true_implies]
    tauto

theorem mem_addBodies_loop {current : Manifest} {prior : Option Manifest}
    {content : QueueContent} : ∀ {slots : List (ChunkId × Nat)} {queue : List QueueContent},
      (slots.map Prod.snd).Nodup →
      (content ∈ slots.foldl (addBody current prior) queue ↔
        (∃ slot ∈ slots, Changed prior slot ∧ content = .chunk current.fileId slot.2 slot.1) ∨
          (content ∈ queue ∧ ∀ slot ∈ slots, Changed prior slot →
            otherSlot current.fileId slot.2 content = true)) := by
  intro slots
  induction slots with
  | nil => simp
  | cons slot slots ih =>
    intro queue distinct
    obtain ⟨fresh, distinct⟩ := List.nodup_cons.mp distinct
    -- A later slot never replaces the body of this one.
    have stays : ∀ later ∈ slots,
        otherSlot current.fileId later.2 (.chunk current.fileId slot.2 slot.1) = true := by
      intro later mem
      have different : slot.2 ≠ later.2 := fun same => fresh (same ▸ List.mem_map_of_mem mem)
      simp [otherSlot, different]
    rw [List.foldl_cons, ih distinct, mem_addBody]
    simp only [List.mem_cons, exists_eq_or_imp, forall_eq_or_imp]
    constructor
    · rintro (later | ⟨⟨changed, rfl⟩ | ⟨mem, own⟩, others⟩)
      · exact .inl (.inr later)
      · exact .inl (.inl ⟨changed, rfl⟩)
      · exact .inr ⟨mem, own, others⟩
    · rintro ((⟨changed, rfl⟩ | later) | ⟨mem, own, others⟩)
      · exact .inr ⟨.inl ⟨changed, rfl⟩, fun later laterMem _ => stays later laterMem⟩
      · exact .inl later
      · exact .inr ⟨.inr ⟨mem, own⟩, others⟩

theorem zipIdx_distinct {α : Type} (xs : List α) : (xs.zipIdx.map Prod.snd).Nodup := by
  rw [List.zipIdx_map_snd]
  exact List.nodup_range'

theorem mem_addBodies {current : Manifest} {prior : Option Manifest} {pending : Bool}
    {queue : List QueueContent} {content : QueueContent} :
    content ∈ addBodies current prior pending queue ↔
      (∃ index chunkId, current.chunkIds[index]? = some chunkId ∧ Changed prior (chunkId, index) ∧
        content = .chunk current.fileId index chunkId) ∨
      (content ∈ queue ∧ keepsBody current pending content = true ∧
        ∀ index chunkId, current.chunkIds[index]? = some chunkId → Changed prior (chunkId, index) →
          otherSlot current.fileId index content = true) := by
  unfold addBodies
  rw [mem_addBodies_loop (zipIdx_distinct _), List.mem_filter, and_assoc]
  simp only [Prod.exists, Prod.forall, List.mem_zipIdx_iff_getElem?]
  constructor
  · rintro (⟨chunkId, index, slot, changed, same⟩ | ⟨mem, keeps, others⟩)
    · exact .inl ⟨index, chunkId, slot, changed, same⟩
    · exact .inr ⟨mem, keeps, fun index chunkId => others chunkId index⟩
  · rintro (⟨index, chunkId, slot, changed, same⟩ | ⟨mem, keeps, others⟩)
    · exact .inl ⟨chunkId, index, slot, changed, same⟩
    · exact .inr ⟨mem, keeps, fun chunkId index => others index chunkId⟩

def OnePerSlot (queue : List QueueContent) : Prop := (queue.filterMap QueueContent.slot?).Nodup

theorem OnePerSlot.filter {queue : List QueueContent} (h : OnePerSlot queue)
    (keep : QueueContent → Bool) : OnePerSlot (queue.filter keep) :=
  List.Nodup.sublist ((List.filter_sublist).filterMap _) h

theorem OnePerSlot.replace {queue : List QueueContent} (h : OnePerSlot queue) (fileId : FileId)
    (index : Nat) (chunkId : ChunkId) :
    OnePerSlot (queue.filter (otherSlot fileId index) ++ [.chunk fileId index chunkId]) := by
  unfold OnePerSlot
  rw [List.filterMap_append, List.nodup_append]
  refine ⟨h.filter _, List.nodup_singleton _, ?_⟩
  intro slot mem other isNew same
  obtain rfl : other = (fileId, index) := by simpa [QueueContent.slot?] using isNew
  obtain ⟨content, contentMem, isSlot⟩ := List.mem_filterMap.mp mem
  have kept := (List.mem_filter.mp contentMem).2
  cases content with
  | control record => cases isSlot
  | chunk file slotIndex id =>
    obtain ⟨rfl, rfl⟩ : file = fileId ∧ slotIndex = index := by
      simpa [QueueContent.slot?, same] using isSlot
    simp [otherSlot] at kept

theorem OnePerSlot.addBodies {queue : List QueueContent} (h : OnePerSlot queue)
    (current : Manifest) (prior : Option Manifest) (pending : Bool) :
    OnePerSlot (addBodies current prior pending queue) := by
  unfold Content.addBodies
  have loop : ∀ (slots : List (ChunkId × Nat)) (queue : List QueueContent), OnePerSlot queue →
      OnePerSlot (slots.foldl (addBody current prior) queue) := by
    intro slots
    induction slots with
    | nil => exact fun _ h => h
    | cons slot slots ih =>
      intro queue h
      refine ih _ ?_
      unfold addBody
      split
      · exact h
      · exact h.replace _ _ _
  exact loop _ _ (h.filter _)

theorem OnePerSlot.controls {queue : List QueueContent} (h : OnePerSlot queue)
    (records : List ControlRecord) : OnePerSlot (queue ++ records.map QueueContent.control) := by
  unfold OnePerSlot
  have none : (records.map QueueContent.control).filterMap QueueContent.slot? = [] := by
    rw [List.filterMap_eq_nil_iff]
    intro content mem
    obtain ⟨record, _, rfl⟩ := List.mem_map.mp mem
    rfl
  rw [List.filterMap_append, none, List.append_nil]
  exact h

variable [Primitives]

structure Available (c : Content) : Prop where
  filed : ∀ (fileId : FileId) (manifest : Manifest), c.manifests[fileId]? = some manifest →
    manifest.fileId = fileId
  held : ∀ (fileId : FileId) (manifest : Manifest), c.manifests[fileId]? = some manifest →
    c.Holds manifest
  sized : ∀ (fileId : FileId) (manifest : Manifest), c.manifests[fileId]? = some manifest →
    c.bodySize manifest = manifest.size.val
  queued : ∀ peer fileId index chunkId, .chunk fileId index chunkId ∈ c.mailbox peer →
    ∃ plaintext, c.records[chunkId]? = some ⟨fileId, index, plaintext⟩
  current : ∀ peer fileId index chunkId, .chunk fileId index chunkId ∈ c.mailbox peer →
    c.bootstrapThrough.contains peer = false →
    ∃ manifest, c.manifests[fileId]? = some manifest ∧ manifest.chunkIds[index]? = some chunkId
  slots : ∀ peer, OnePerSlot (c.mailbox peer)
  own : c.mailbox c.hostId = [] ∧ c.online c.hostId = []

variable {c next : Content}

omit [Primitives] in
theorem Holds.congr [Primitives] {manifest : Manifest} (h : c.Holds manifest)
    (same : ∀ id ∈ manifest.chunkIds, next.records[id]? = c.records[id]?) :
    next.Holds manifest := by
  intro index chunkId slot
  obtain ⟨plaintext, found, hash⟩ := h index chunkId slot
  exact ⟨plaintext, (same chunkId (List.mem_of_getElem? slot)).trans found, hash⟩

omit [Primitives] in
theorem bodySize_congr {manifest : Manifest}
    (same : ∀ id ∈ manifest.chunkIds, next.records[id]? = c.records[id]?) :
    next.bodySize manifest = c.bodySize manifest := by
  unfold bodySize
  congr 1
  exact List.map_congr_left fun id mem => by rw [same id mem]

theorem Available.records (available : c.Available) {records : Map ChunkId ChunkRecord}
    (same : ∀ id, c.Needs id → records[id]? = c.records[id]?) :
    Available { c with records } := by
  have listed : ∀ {fileId : FileId} {manifest : Manifest},
      c.manifests[fileId]? = some manifest → ∀ id ∈ manifest.chunkIds, records[id]? = c.records[id]? :=
    fun found id mem => same id (.inl ⟨_, _, found, mem⟩)
  exact { available with
    held := fun fileId manifest found => (available.held fileId manifest found).congr (listed found)
    sized := fun fileId manifest found =>
      (bodySize_congr (listed found)).trans (available.sized fileId manifest found)
    queued := fun peer fileId index chunkId mem => by
      obtain ⟨plaintext, found⟩ := available.queued peer fileId index chunkId mem
      exact ⟨plaintext, (same chunkId (.inr ⟨peer, fileId, index, mem⟩)).trans found⟩ }

theorem Available.put {world : World} (available : c.Available) (h : Put world c next) :
    next.Available := by
  cases h with
  | mk fileId index plaintext missing _ =>
    refine available.records fun id needs => Map.get_insert_ne _ _ fun same => ?_
    -- Whatever is referred to is stored already.
    have stored : ∃ record, c.records[id]? = some record := by
      obtain ⟨file, manifest, found, mem⟩ | ⟨peer, file, slot, mem⟩ := needs
      · obtain ⟨slot, isSlot⟩ := List.mem_iff_getElem?.mp mem
        obtain ⟨bytes, stored, _⟩ := available.held file manifest found slot id isSlot
        exact ⟨_, stored⟩
      · obtain ⟨bytes, stored⟩ := available.queued peer file slot id mem
        exact ⟨_, stored⟩
    obtain ⟨record, stored⟩ := stored
    rw [← same, missing] at stored
    cases stored

omit [Primitives] in
theorem mailboxAfter_cases [Primitives] (sound : c.Sound) (own : c.mailbox c.hostId = [])
    (update : ControlUpdate) {live : PeerId → Bool} (idle : c.Idle live)
    (removed : Option FileId) (peer : PeerId) :
    c.mailboxAfter ⟨c.nextControl, update⟩ removed live peer = [] ∨
      (c.recipient update peer ∧ c.mailboxAfter ⟨c.nextControl, update⟩ removed live peer =
        c.enqueue ⟨c.nextControl, update⟩ removed peer (c.mailbox peer) (c.online peer)) := by
  unfold mailboxAfter
  split
  · rename_i gated
    exact .inr ⟨gated.1, rfl⟩
  · rename_i notGated
    left
    split
    · rfl
    · rename_i notKicked
      by_cases member : peer ∈ c.members
      · by_cases isHost : peer = c.hostId
        · rw [isHost]
          exact own
        · refine idle peer (by_contra fun gated => notGated ⟨⟨member, isHost, notKicked⟩, ?_⟩)
          simpa using gated
      · exact (sound.outside peer member).1

omit [Primitives] in
private theorem mem_removeBodies {removed : Option FileId} {queue : List QueueContent}
    {fileId : FileId} {index : Nat} {chunkId : ChunkId} :
    QueueContent.chunk fileId index chunkId ∈ removeBodies removed queue ↔
      QueueContent.chunk fileId index chunkId ∈ queue ∧ removed ≠ some fileId := by
  cases removed with
  | none => simp [removeBodies]
  | some other =>
    rw [removeBodies, List.mem_filter]
    refine and_congr_right fun _ => ?_
    simpa [otherFile] using ne_comm

omit [Primitives] in
private theorem mem_queue_chunk {mailbox : List QueueContent} {online : List ControlRecord}
    {record : ControlRecord} {fileId : FileId} {index : Nat} {chunkId : ChunkId} :
    QueueContent.chunk fileId index chunkId ∈
      mailbox ++ online.map QueueContent.control ++ [.control record] ↔
      QueueContent.chunk fileId index chunkId ∈ mailbox := by
  simp

omit [Primitives] in
theorem mem_enqueue {record : ControlRecord} {removed : Option FileId} {peer : PeerId}
    {mailbox : List QueueContent} {online : List ControlRecord} {fileId : FileId} {index : Nat}
    {chunkId : ChunkId}
    (h : QueueContent.chunk fileId index chunkId ∈ c.enqueue record removed peer mailbox online) :
    (∃ current, record.update = .newManifest current ∧ fileId = current.fileId ∧
      current.chunkIds[index]? = some chunkId) ∨
    (QueueContent.chunk fileId index chunkId ∈ mailbox ∧ removed ≠ some fileId ∧
      ∀ current, record.update = .newManifest current → fileId = current.fileId →
        c.bootstrapThrough.contains peer = true ∨ current.chunkIds[index]? = some chunkId) := by
  unfold enqueue at h
  dsimp only at h
  split at h
  · rename_i current isManifest
    obtain ⟨slot, id, isSlot, _, same⟩ | ⟨mem, keeps, _⟩ := mem_addBodies.mp h
    · obtain ⟨rfl, rfl, rfl⟩ := QueueContent.chunk.inj same
      exact .inl ⟨current, isManifest, rfl, isSlot⟩
    · obtain ⟨mem, kept⟩ := mem_removeBodies.mp mem
      refine .inr ⟨mem_queue_chunk.mp mem, kept, fun other isOther sameFile => ?_⟩
      obtain rfl := ControlUpdate.newManifest.inj (isManifest.symm.trans isOther)
      simpa [keepsBody, sameFile] using keeps
  · rename_i notManifest
    obtain ⟨mem, kept⟩ := mem_removeBodies.mp h
    exact .inr ⟨mem_queue_chunk.mp mem, kept, fun other isOther => absurd isOther (notManifest other)⟩

omit [Primitives] in
theorem OnePerSlot.enqueue {record : ControlRecord} {removed : Option FileId} {peer : PeerId}
    {mailbox : List QueueContent} (h : OnePerSlot mailbox) (online : List ControlRecord) :
    OnePerSlot (c.enqueue record removed peer mailbox online) := by
  have queue : OnePerSlot (removeBodies removed
      (mailbox ++ online.map QueueContent.control ++ [.control record])) := by
    have queue := (h.controls online).controls [record]
    cases removed with
    | none => exact queue
    | some fileId => exact queue.filter _
  unfold Content.enqueue
  dsimp only
  split
  · exact queue.addBodies _ _ _
  · exact queue

omit [Primitives] in
theorem manifestsAfter_eq_some {update : ControlUpdate} {removed : Option FileId}
    {fileId : FileId} {manifest : Manifest} :
    (c.manifestsAfter update removed)[fileId]? = some manifest ↔ removed ≠ some fileId ∧
      ((update = .newManifest manifest ∧ manifest.fileId = fileId) ∨
        (c.manifests[fileId]? = some manifest ∧
          ∀ new, update = .newManifest new → new.fileId ≠ fileId)) := by
  have inserted : (c.manifestsAfter update none)[fileId]? = some manifest ↔
      (update = .newManifest manifest ∧ manifest.fileId = fileId) ∨
        (c.manifests[fileId]? = some manifest ∧
          ∀ new, update = .newManifest new → new.fileId ≠ fileId) := by
    unfold manifestsAfter
    cases update with
    | newManifest new =>
      dsimp only
      rw [Map.get_insert]
      by_cases same : new.fileId = fileId
      · simp only [same, if_true, Option.some.injEq, ControlUpdate.newManifest.injEq]
        constructor
        · rintro rfl
          exact .inl ⟨rfl, same⟩
        · rintro (⟨rfl, _⟩ | ⟨_, other⟩)
          · rfl
          · exact absurd same (other new rfl)
      · simp only [same, if_false, ControlUpdate.newManifest.injEq]
        constructor
        · exact fun found => .inr ⟨found, fun other isOther => isOther ▸ same⟩
        · rintro (⟨rfl, isFile⟩ | ⟨found, _⟩)
          · exact absurd isFile same
          · exact found
    | _ => simp
  cases removed with
  | none => simpa using inserted
  | some other =>
    change ((c.manifestsAfter update none).erase other)[fileId]? = some manifest ↔ _
    rw [Map.get_erase]
    by_cases same : other = fileId
    · simp [same]
    · simp [same, inserted]

omit [Primitives] in
theorem recordsAfter_eq_some {removed : Option FileId} {id : ChunkId} {record : ChunkRecord}
    (found : c.records[id]? = some record) (kept : removed ≠ some record.fileId) :
    (c.recordsAfter removed)[id]? = some record := by
  cases removed with
  | none => exact found
  | some fileId =>
    unfold recordsAfter
    rw [Map.get_filter, found, Option.filter_some, if_pos]
    have other : record.fileId ≠ fileId := fun same => kept (congrArg some same.symm)
    simpa using other

omit [Primitives] in
theorem applyTreeUpdate_manifest {tree next : DirectoryTree} {manifest : Manifest}
    {removed : Option FileId} (h : applyTreeUpdate tree (.newManifest manifest) = .ok (next, removed)) :
    removed = none := by
  obtain ⟨_, _, h⟩ := Result.bind_eq_ok.mp h
  exact (congrArg Prod.snd (Except.ok.inj h)).symm

theorem Available.commit {world : World} {staged : Content} {update : ControlUpdate}
    {live : PeerId → Bool} {admission : Option VaultMetadata} (available : c.Available)
    (sound : c.Sound) (accepts : c.Accepts world update) (idle : c.Idle live)
    (h : c.commit update live admission = .ok staged) : staged.Available := by
  obtain ⟨tree, removed, _, applied, _, rfl⟩ := commit_eq_ok h
  have kept : ∀ {manifest : Manifest}, update = .newManifest manifest → removed = none := by
    rintro manifest rfl
    exact applyTreeUpdate_manifest applied
  -- The slots of a manifest that stays have their chunks.
  have held : ∀ {fileId : FileId} {manifest : Manifest}, c.manifests[fileId]? = some manifest →
      removed ≠ some fileId → ∀ id ∈ manifest.chunkIds, (c.recordsAfter removed)[id]? = c.records[id]? := by
    intro fileId manifest found other id mem
    obtain ⟨slot, isSlot⟩ := List.mem_iff_getElem?.mp mem
    obtain ⟨plaintext, stored, _⟩ := available.held fileId manifest found slot id isSlot
    rw [stored]
    exact recordsAfter_eq_some stored (available.filed fileId manifest found ▸ other)
  have mailbox := mailboxAfter_cases sound available.own.1 update idle removed
  have bootstrap : ∀ peer, c.recipient update peer →
      (c.dropMember (kickedBy update)).bootstrapThrough.contains peer = false →
      c.bootstrapThrough.contains peer = false := by
    intro peer recipient none
    unfold dropMember at none
    split at none
    · exact none
    · rename_i target isKicked
      have other : ¬ target = peer := fun same => recipient.2.2 (by rw [isKicked, same])
      simpa [Std.ExtTreeMap.contains_erase, other] using none
  have recordsOf : ∀ manifest : Manifest, update = .newManifest manifest →
      c.recordsAfter removed = c.records := fun manifest isManifest => by rw [kept isManifest]; rfl
  -- A queued body is a slot of the new manifest, or it was queued before.
  have body : ∀ {peer : PeerId} {fileId : FileId} {index : Nat} {chunkId : ChunkId},
      .chunk fileId index chunkId ∈ c.mailboxAfter ⟨c.nextControl, update⟩ removed live peer →
      c.recipient update peer ∧
      ((∃ current, update = .newManifest current ∧ fileId = current.fileId ∧
        current.chunkIds[index]? = some chunkId) ∨
      (.chunk fileId index chunkId ∈ c.mailbox peer ∧ removed ≠ some fileId ∧
        ∀ current, update = .newManifest current → fileId = current.fileId →
          c.bootstrapThrough.contains peer = true ∨ current.chunkIds[index]? = some chunkId)) := by
    intro peer fileId index chunkId mem
    obtain empty | ⟨recipient, same⟩ := mailbox peer
    · rw [empty] at mem
      cases mem
    · rw [same] at mem
      exact ⟨recipient, mem_enqueue mem⟩
  constructor
  case filed =>
    intro fileId manifest found
    obtain ⟨_, ⟨_, same⟩ | ⟨found, _⟩⟩ := manifestsAfter_eq_some.mp found
    · exact same
    · exact available.filed fileId manifest found
  case held =>
    intro fileId manifest found
    obtain ⟨stays, ⟨rfl, _⟩ | ⟨found, _⟩⟩ := manifestsAfter_eq_some.mp found
    · exact (AcceptsManifest.held accepts).congr fun id _ =>
        congrArg (·[id]?) (recordsOf manifest rfl)
    · exact (available.held fileId manifest found).congr (held found stays)
  case sized =>
    intro fileId manifest found
    obtain ⟨stays, ⟨rfl, _⟩ | ⟨found, _⟩⟩ := manifestsAfter_eq_some.mp found
    · exact (bodySize_congr fun id _ => congrArg (·[id]?) (recordsOf manifest rfl)).trans
        (AcceptsManifest.size accepts)
    · exact (bodySize_congr (held found stays)).trans (available.sized fileId manifest found)
  case queued =>
    intro peer fileId index chunkId mem
    obtain ⟨_, ⟨current, rfl, rfl, slot⟩ | ⟨mem, stays, _⟩⟩ := body mem
    · obtain ⟨plaintext, stored, _⟩ := AcceptsManifest.held accepts index chunkId slot
      exact ⟨plaintext, (congrArg (·[chunkId]?) (recordsOf current rfl)).trans stored⟩
    · obtain ⟨plaintext, stored⟩ := available.queued peer fileId index chunkId mem
      exact ⟨plaintext, recordsAfter_eq_some stored stays⟩
  case current =>
    intro peer fileId index chunkId mem settled
    obtain ⟨recipient, ⟨current, rfl, rfl, slot⟩ | ⟨mem, stays, replaced⟩⟩ := body mem
    · have stays : removed ≠ some current.fileId := by
        rw [kept rfl]
        nofun
      exact ⟨current, manifestsAfter_eq_some.mpr ⟨stays, .inl ⟨rfl, rfl⟩⟩, slot⟩
    · have pending := bootstrap peer recipient settled
      obtain ⟨manifest, found, slot⟩ := available.current peer fileId index chunkId mem pending
      by_cases isNew : ∃ new, update = .newManifest new ∧ fileId = new.fileId
      · obtain ⟨new, isUpdate, sameFile⟩ := isNew
        obtain set | slot := replaced new isUpdate sameFile
        · rw [pending] at set
          cases set
        · exact ⟨new, manifestsAfter_eq_some.mpr ⟨stays, .inl ⟨isUpdate, sameFile.symm⟩⟩, slot⟩
      · refine ⟨manifest, manifestsAfter_eq_some.mpr ⟨stays, .inr ⟨found, ?_⟩⟩, slot⟩
        exact fun new isUpdate sameFile => isNew ⟨new, isUpdate, sameFile.symm⟩
  case slots =>
    intro peer
    change OnePerSlot (c.mailboxAfter ⟨c.nextControl, update⟩ removed live peer)
    obtain empty | ⟨_, same⟩ := mailbox peer
    · rw [empty]
      exact List.nodup_nil
    · rw [same]
      exact (available.slots peer).enqueue _
  case own =>
    have notRecipient : ¬ c.recipient update c.hostId := fun recipient => recipient.2.1 rfl
    have sameHost : (c.dropMember (kickedBy update)).hostId = c.hostId := by
      unfold dropMember
      split <;> rfl
    dsimp only
    rw [sameHost]
    refine ⟨(mailbox c.hostId).resolve_right fun h => notRecipient h.1, ?_⟩
    unfold onlineAfter
    rw [if_neg notRecipient]
    split
    · rfl
    · exact available.own.2

theorem Available.requeue (available : c.Available) (records : next.records = c.records)
    (manifests : next.manifests = c.manifests)
    (bodies : ∀ peer fileId index chunkId, .chunk fileId index chunkId ∈ next.mailbox peer →
      (.chunk fileId index chunkId ∈ c.mailbox peer ∧
        (next.bootstrapThrough.contains peer = false → c.bootstrapThrough.contains peer = false)) ∨
      ∃ manifest, c.manifests[fileId]? = some manifest ∧ manifest.chunkIds[index]? = some chunkId)
    (slots : ∀ peer, OnePerSlot (next.mailbox peer))
    (own : next.mailbox next.hostId = [] ∧ next.online next.hostId = []) : next.Available := by
  constructor
  case filed =>
    rw [manifests]
    exact available.filed
  case held =>
    rw [manifests]
    exact fun fileId manifest found =>
      (available.held fileId manifest found).congr fun id _ => congrArg (·[id]?) records
  case sized =>
    rw [manifests]
    exact fun fileId manifest found => (bodySize_congr fun id _ => congrArg (·[id]?) records).trans
      (available.sized fileId manifest found)
  case queued =>
    intro peer fileId index chunkId mem
    rw [records]
    obtain ⟨mem, _⟩ | ⟨manifest, found, slot⟩ := bodies peer fileId index chunkId mem
    · exact available.queued peer fileId index chunkId mem
    · obtain ⟨plaintext, stored, _⟩ := available.held fileId manifest found index chunkId slot
      rw [available.filed fileId manifest found] at stored
      exact ⟨plaintext, stored⟩
  case current =>
    intro peer fileId index chunkId mem settled
    rw [manifests]
    obtain ⟨mem, pending⟩ | current := bodies peer fileId index chunkId mem
    · exact available.current peer fileId index chunkId mem (pending settled)
    · exact current
  case slots => exact slots
  case own => exact own

theorem Available.drain (available : c.Available) (peer : PeerId) : (c.drained peer).Available := by
  refine available.requeue rfl rfl ?_ ?_ ?_
  · intro other fileId index chunkId mem
    change _ ∈ if peer = other then [] else c.mailbox other at mem
    split at mem
    · cases mem
    · rename_i different
      refine .inl ⟨mem, fun settled => ?_⟩
      change (c.bootstrapThrough.erase peer).contains other = false at settled
      simpa [Std.ExtTreeMap.contains_erase, different] using settled
  · intro other
    change OnePerSlot (if peer = other then [] else c.mailbox other)
    split
    · exact List.nodup_nil
    · exact available.slots other
  · refine ⟨?_, available.own.2⟩
    change (if peer = c.hostId then [] else c.mailbox c.hostId) = []
    split
    · rfl
    · exact available.own.1

theorem Available.take (available : c.Available) (peer : PeerId) : (c.taken peer).Available := by
  refine { available with own := ⟨available.own.1, ?_⟩ }
  change (if peer = c.hostId then [] else c.online c.hostId) = []
  split
  · rfl
  · exact available.own.2

theorem Available.append (available : c.Available) {peer : PeerId} {fileId : FileId}
    {manifest : Manifest} {index : Nat} {chunkId : ChunkId} (notHost : peer ≠ c.hostId)
    (found : c.manifests[fileId]? = some manifest)
    (slot : manifest.chunkIds[index]? = some chunkId) :
    (c.appended peer fileId index chunkId).Available := by
  refine available.requeue rfl rfl ?_ ?_ ?_
  · intro other file otherIndex id mem
    change _ ∈ (if peer = other then (c.mailbox peer).filter (otherSlot fileId index) ++
      [.chunk fileId index chunkId] else c.mailbox other) at mem
    split at mem
    · rename_i same
      obtain old | new := List.mem_append.mp mem
      · exact .inl ⟨same ▸ (List.mem_filter.mp old).1, fun settled => settled⟩
      · obtain ⟨rfl, rfl, rfl⟩ := QueueContent.chunk.inj (List.mem_singleton.mp new)
        exact .inr ⟨manifest, found, slot⟩
    · exact .inl ⟨mem, fun settled => settled⟩
  · intro other
    change OnePerSlot (if peer = other then (c.mailbox peer).filter (otherSlot fileId index) ++
      [.chunk fileId index chunkId] else c.mailbox other)
    split
    · exact (available.slots peer).replace _ _ _
    · exact available.slots other
  · refine ⟨?_, available.own.2⟩
    change (if peer = c.hostId then _ else c.mailbox c.hostId) = []
    rw [if_neg notHost]
    exact available.own.1

omit [Primitives] in
theorem mem_manifestSlots {manifests : Map FileId Manifest} {fileId : FileId} {index : Nat}
    {chunkId : ChunkId} : .chunk fileId index chunkId ∈ manifestSlots manifests ↔
      ∃ (key : FileId) (manifest : Manifest), manifests[key]? = some manifest ∧
        manifest.fileId = fileId ∧ manifest.chunkIds[index]? = some chunkId := by
  unfold manifestSlots
  rw [List.mem_flatMap]
  constructor
  · rintro ⟨manifest, mem, isSlot⟩
    obtain ⟨key, found⟩ := Map.mem_vals.mp mem
    obtain ⟨⟨id, slot⟩, slotMem, same⟩ := List.mem_map.mp isSlot
    obtain ⟨isFile, rfl, rfl⟩ := QueueContent.chunk.inj same
    exact ⟨key, manifest, found, isFile, List.mem_zipIdx_iff_getElem?.mp slotMem⟩
  · rintro ⟨key, manifest, found, rfl, slot⟩
    refine ⟨manifest, Map.mem_vals.mpr ⟨key, found⟩, List.mem_map.mpr ⟨(chunkId, index), ?_, rfl⟩⟩
    exact List.mem_zipIdx_iff_getElem?.mpr slot

omit [Primitives] in
theorem onePerSlot_manifestSlots {manifests : Map FileId Manifest}
    (filed : ∀ (fileId : FileId) (manifest : Manifest), manifests[fileId]? = some manifest →
      manifest.fileId = fileId) : OnePerSlot (manifestSlots manifests) := by
  have slots : (manifestSlots manifests).filterMap QueueContent.slot? =
      (Map.vals manifests).flatMap fun manifest =>
        manifest.chunkIds.zipIdx.map fun slot => (manifest.fileId, slot.2) := by
    unfold manifestSlots
    rw [List.filterMap_flatMap]
    refine List.flatMap_congr fun manifest _ => ?_
    rw [List.filterMap_map]
    exact congrFun List.filterMap_eq_map _
  have distinct : ((Map.vals manifests).map Manifest.fileId).Nodup := by
    have same : (Map.vals manifests).map Manifest.fileId = manifests.toList.map Prod.fst := by
      unfold Map.vals
      rw [List.map_map]
      exact List.map_congr_left fun entry mem => filed _ _ (Map.mem_toList.mp mem)
    rw [same, List.Nodup, List.pairwise_map]
    exact (Map.toList_sorted manifests).imp fun less => ne_of_lt less
  unfold OnePerSlot
  rw [slots, List.nodup_flatMap]
  constructor
  · intro manifest _
    have indices := zipIdx_distinct manifest.chunkIds
    rw [List.Nodup, List.pairwise_map] at indices ⊢
    exact indices.imp fun different same => different (Prod.mk.inj same).2
  · rw [List.Nodup, List.pairwise_map] at distinct
    refine distinct.imp fun different => ?_
    intro slot left right
    obtain ⟨_, _, rfl⟩ := List.mem_map.mp left
    obtain ⟨_, _, same⟩ := List.mem_map.mp right
    exact different (congrArg Prod.fst same).symm

theorem Available.enrol (available : c.Available) (sound : c.Sound) {document : IdentityDocument}
    {documents : Map PeerId IdentityDocument} {records : List ControlRecord}
    (stranger : document.peerId ∉ c.members) :
    (c.withMember document documents records).Available := by
  refine available.requeue rfl rfl ?_ ?_ ?_
  · intro peer fileId index chunkId mem
    change _ ∈ (if document.peerId = peer then
      records.map QueueContent.control ++ manifestSlots c.manifests else c.mailbox peer) at mem
    split at mem
    · obtain control | slot := List.mem_append.mp mem
      · obtain ⟨_, _, same⟩ := List.mem_map.mp control
        cases same
      · obtain ⟨key, manifest, found, isFile, isSlot⟩ := mem_manifestSlots.mp slot
        obtain rfl := (available.filed key manifest found).symm.trans isFile
        exact .inr ⟨manifest, found, isSlot⟩
    · rename_i other
      refine .inl ⟨mem, fun settled => ?_⟩
      change (c.bootstrapThrough.insert document.peerId _).contains peer = false at settled
      simpa [Std.ExtTreeMap.contains_insert, other] using settled
  · intro peer
    change OnePerSlot (if document.peerId = peer then
      records.map QueueContent.control ++ manifestSlots c.manifests else c.mailbox peer)
    split
    · have none : (records.map QueueContent.control).filterMap QueueContent.slot? = [] := by
        rw [List.filterMap_eq_nil_iff]
        intro content mem
        obtain ⟨record, _, rfl⟩ := List.mem_map.mp mem
        rfl
      unfold OnePerSlot
      rw [List.filterMap_append, none, List.nil_append]
      exact onePerSlot_manifestSlots available.filed
    · exact available.slots peer
  · refine ⟨?_, available.own.2⟩
    change (if document.peerId = c.hostId then _ else c.mailbox c.hostId) = []
    have notHost : document.peerId ≠ c.hostId := fun same => stranger (by rw [same]; exact sound.host)
    rw [if_neg notHost]
    exact available.own.1

theorem Available.resumed (available : c.Available) : c.resumed.Available := by
  refine available.requeue rfl rfl ?_ ?_ ?_
  · intro peer fileId index chunkId mem
    obtain old | control := List.mem_append.mp mem
    · exact .inl ⟨old, fun settled => settled⟩
    · obtain ⟨_, _, same⟩ := List.mem_map.mp control
      cases same
  · exact fun peer => (available.slots peer).controls _
  · refine ⟨?_, rfl⟩
    change c.mailbox c.hostId ++ (c.online c.hostId).map QueueContent.control = []
    rw [available.own.1, available.own.2]
    rfl

omit [Primitives] in
theorem OnePerSlot.of_chunks {queue other : List QueueContent} (h : OnePerSlot queue)
    (same : other.filter QueueContent.isChunk = queue.filter QueueContent.isChunk) :
    OnePerSlot other := by
  have chunks : ∀ queue : List QueueContent, (queue.filter QueueContent.isChunk).filterMap
      QueueContent.slot? = queue.filterMap QueueContent.slot? := by
    intro queue
    rw [List.filterMap_filter]
    refine List.filterMap_congr fun content _ => ?_
    cases content <;> rfl
  unfold OnePerSlot at h ⊢
  rw [← chunks, same, chunks]
  exact h

theorem Available.restored (available : c.Available) {records : Map ChunkId ChunkRecord}
    (retains : c.Retains records) (gateOwner : Nat) : (c.restored records gateOwner).Available := by
  have requeued : Available { c with mailbox := c.persisted, online := fun _ => [], gateOwner } := by
    refine available.requeue rfl rfl ?_ ?_ ?_
    · intro peer fileId index chunkId mem
      exact .inl ⟨mem_persisted_chunk.mp mem, fun settled => settled⟩
    · intro peer
      refine (available.slots peer).of_chunks ?_
      change (c.persisted peer).filter QueueContent.isChunk = _
      unfold persisted
      split
      · exact chunks_merged c peer _
      · rfl
    · refine ⟨?_, rfl⟩
      change c.persisted c.hostId = []
      unfold persisted
      rw [if_neg fun member => member.2 rfl]
      exact available.own.1
  refine requeued.records fun id needs => retains.needed id ?_
  obtain listed | ⟨peer, fileId, index, mem⟩ := needs
  · exact .inl listed
  · exact .inr ⟨peer, fileId, index, mem_persisted_chunk.mp mem⟩

end Content

variable [Primitives]

theorem stable_available : Stable nobody Content.Available where
  outside := fun _ isBarred => isBarred.elim
  put := fun _ available put => available.put put
  commit := fun _ sound available accepts idle _ committed =>
    available.commit sound accepts idle committed
  settle := fun _ _ available _ => { available with }
  enrol := fun _ sound available _ _ stranger _ _ => available.enrol sound stranger
  acknowledge := fun _ available _ _ _ => { available with }
  drain := fun _ available _ => available.drain _
  take := fun peer _ available => available.take peer
  append := fun _ available _ notHost found slot => available.append notHost found slot
  attach := fun _ _ available _ => { available with }
  admission := fun _ _ available => { available with }
  retain := fun _ available retains => available.records retains.needed
  resumed := fun _ available => available.resumed
  restored := fun gateOwner _ available retains => available.restored retains gateOwner

theorem initially_available : Initially Content.Available := by
  intro hostId members historical root gateOwner _
  have none : ∀ {fileId : FileId} {manifest : Manifest},
      ((∅ : Map FileId Manifest)[fileId]?) = some manifest → False := by
    intro fileId manifest found
    rw [Std.ExtTreeMap.getElem?_empty] at found
    cases found
  exact
    { filed := fun _ _ found => (none found).elim
      held := fun _ _ found => (none found).elim
      sized := fun _ _ found => (none found).elim
      queued := fun _ _ _ _ mem => absurd mem List.not_mem_nil
      current := fun _ _ _ _ mem => absurd mem List.not_mem_nil
      slots := fun _ => List.nodup_nil
      own := ⟨rfl, rfl⟩ }

/-- What a lookup of plaintext that is not there returns. -/
abbrev plaintextMissing : Error := .state "queued plaintext missing"

omit [Primitives] in
private theorem lock_fine (keys : KeyStore) : keys.lock ≠ .error plaintextMissing := by
  simp [KeyStore.lock, plaintextMissing]

omit [Primitives] in
private theorem peerId_fine (keys : KeyStore) : keys.peerId ≠ .error plaintextMissing := by
  simp [KeyStore.peerId, lock_fine, pure, Except.pure]

omit [Primitives] in
private theorem currentSession_fine (keys : KeyStore) (peer : PeerId) :
    keys.currentSession peer ≠ .error plaintextMissing := by
  simp [KeyStore.currentSession, KeyStore.innerSession, lock_fine, pure, Except.pure]

omit [Primitives] in
private theorem nextOutboundSeq_fine (keys : KeyStore) (handle : PairKeyHandle)
    (payloadType : PayloadType) : keys.nextOutboundSeq handle payloadType ≠ .error plaintextMissing := by
  have counter : ∀ state : PairKeyState,
      state.nextOutboundSeq payloadType ≠ .error plaintextMissing := by
    intro state
    unfold PairKeyState.nextOutboundSeq checkedAdd
    split
    · split <;> simp [plaintextMissing]
    · nofun
  simp [KeyStore.nextOutboundSeq, lock_fine, counter]

omit [Primitives] in
private theorem pushVariable_fine (bytes : Bytes) : pushVariable bytes ≠ .error plaintextMissing := by
  unfold pushVariable pushLength
  split <;> simp [plaintextMissing, pure, Except.pure]

omit [Primitives] in
private theorem encodeControlRecord_fine (record : ControlRecord) :
    encodeControlRecord record ≠ .error plaintextMissing := by
  have manifest : ∀ manifest : Manifest, manifestM manifest ≠ .error plaintextMissing := by
    intro manifest
    unfold manifestM pushLength
    split <;> simp [plaintextMissing, pure, Except.pure]
  have update : encodeControlUpdate record.update ≠ .error plaintextMissing := by
    unfold encodeControlUpdate
    split <;> simp [manifest, pushVariable_fine, pure, Except.pure]
  simp [encodeControlRecord, update, pure, Except.pure]

omit [Primitives] in
private theorem envelopeOf_fine (header : PacketHeader) (queuedAt : Nat) (frame : MailboxFrame) :
    envelopeOf header queuedAt frame ≠ .error plaintextMissing := by
  have encoded : encodeMailboxFrame frame ≠ .error plaintextMissing := by
    unfold encodeMailboxFrame
    split <;> simp [pushVariable_fine, pure, Except.pure]
  simp [envelopeOf, encoded, pure, Except.pure]

private theorem aeadSeal_fine (handle : PairKeyHandle) (nonce aad plaintext : Bytes) :
    Action.Avoids plaintextMissing (KeyStore.aeadSeal handle nonce aad plaintext) := by
  have decoded : decodeAad aad ≠ .error plaintextMissing := by
    have payload : ∀ length, aadPayloadType length ≠ .error plaintextMissing := by
      intro length
      unfold aadPayloadType
      split <;> simp [plaintextMissing]
    simp [decodeAad, payload, plaintextMissing, pure, Except.pure]
  have header : ∀ localId (state : PairKeyState) header payloadType,
      state.validateHeader localId header payloadType nonce .outbound ≠ .error plaintextMissing := by
    intro localId state header payloadType
    simp [PairKeyState.validateHeader, plaintextMissing, pure, Except.pure]
  unfold KeyStore.aeadSeal
  refine .bind (.query peerId_fine) fun _ => .bind (.ofExcept decoded) fun _ => ?_
  unfold KeyStore.withPairState
  refine .bind (.query lock_fine) fun _ => .bind .get fun store => ?_
  refine .bind (.require (by simp [plaintextMissing])) fun _ => ?_
  refine .bind (.ofExcept (by simp [plaintextMissing])) fun _ => .zoom ?_
  unfold KeyStore.sealState
  refine .bind .get fun state => .bind (.ofExcept (header _ _ _ _)) fun _ => ?_
  unfold PairKeyState.reserveSend
  refine .bind (.bind .get fun _ => .bind (.require (by simp [plaintextMissing])) fun _ => ?_)
    fun _ => .pure _
  exact .modify _

theorem sealContent_avoids {chunks : ChunkStore} {content : QueueContent}
    (present : ∀ fileId index chunkId, content = .chunk fileId index chunkId →
      ∃ plaintext, chunks.get chunkId = some plaintext) (session : PairSession) (queuedAt : Nat) :
    Action.Avoids plaintextMissing (sealContent chunks session queuedAt content) := by
  cases content with
  | control record =>
    unfold sealContent sealControl
    refine .bind (.bind (.query peerId_fine) fun _ => ?_) fun _ => .ofExcept (envelopeOf_fine _ _ _)
    refine .bind (.query fun _ => nextOutboundSeq_fine _ _ _) fun _ => ?_
    refine .bind (.ofExcept (encodeControlRecord_fine record)) fun _ => ?_
    exact .bind (aeadSeal_fine _ _ _ _) fun _ => .pure _
  | chunk fileId index chunkId =>
    obtain ⟨plaintext, found⟩ := present fileId index chunkId rfl
    unfold sealContent encryptAtSend
    refine .bind (.ofExcept (by simp [found])) fun _ => ?_
    refine .bind (.bind (.query peerId_fine) fun _ => ?_) fun _ => .ofExcept (envelopeOf_fine _ _ _)
    refine .bind (.query fun _ => nextOutboundSeq_fine _ _ _) fun _ => ?_
    exact .bind (aeadSeal_fine _ _ _ _) fun _ => .pure _

private theorem refreshQueue_avoids {host : HostService} {peer : PeerId} {queue : List Queued}
    (present : ∀ entry ∈ queue, ∀ fileId index chunkId,
      entry.content = .chunk fileId index chunkId →
        ∃ plaintext, host.state.chunks.get chunkId = some plaintext) :
    (refreshQueue peer queue host).1 ≠ .error plaintextMissing := by
  refine (?_ : Action.Ensures (refreshQueue peer queue) host fun r _ => r ≠ .error plaintextMissing)
  have gate : Action.Avoids plaintextMissing
      (HostService.onKeys (KeyStore.blockLiveTraffic peer host.state.gateOwner)) :=
    .zoom (.bind (.query lock_fine) fun _ => .modify _)
  have keeps : Action.Keeps HostService.state
      (HostService.onKeys (KeyStore.blockLiveTraffic peer host.state.gateOwner)) := fun _ => rfl
  unfold refreshQueue
  refine .query (fun _ failed => by cases failed) fun owner isOwner => ?_
  obtain rfl := Except.ok.inj isOwner
  refine .keeps keeps (fun e t failed _ => ?_) fun _ gated _ same => ?_
  · have fine := gate host
    rwa [failed] at fine
  refine .query (fun e failed same => ?_) fun session _ => ?_
  · exact currentSession_fine _ _ (failed.trans (congrArg _ (Except.error.inj same)))
  refine .query (fun e failed => ?_) fun _ _ => ?_
  · rw [← failed]
    split
    · simp [nextOutboundSeq_fine]
    · simp [pure, Except.pure]
  · refine Action.updateEach_avoids (fun entry mem => ?_) gated.keys
    rw [same]
    unfold refreshEntry
    split
    · exact .pure _
    · exact .bind (sealContent_avoids (present entry mem) _ _) fun _ => .pure _

theorem refreshMailboxes_avoids {host : HostService} (available : host.state.content.Available) :
    (refreshMailboxes host).1 ≠ .error plaintextMissing := by
  refine (?_ : Action.Ensures refreshMailboxes host fun r _ => r ≠ .error plaintextMissing)
  unfold refreshMailboxes
  refine .query (fun e failed => ?_) fun _ _ => .get ?_
  · rw [← failed]
    simp [HostService.requireRunning]
  refine Action.Avoids.forEach_of_keeps refreshMailbox_keeps (v := host.view) ?_ _ host rfl
  intro peer t same
  have same : t.state.content = host.state.content := congrArg View.content same
  refine (?_ : Action.Ensures (refreshMailbox peer) t fun r _ => r ≠ .error plaintextMissing)
  unfold refreshMailbox
  refine .get ?_
  split
  · exact .pure (by simp)
  · refine refreshQueue_avoids fun entry mem fileId index chunkId isChunk => ?_
    have queued : .chunk fileId index chunkId ∈ t.state.content.mailbox peer :=
      List.mem_map.mpr ⟨entry, mem, isChunk⟩
    rw [same] at queued
    obtain ⟨plaintext, found⟩ := available.queued peer fileId index chunkId queued
    rw [← same] at found
    exact ⟨plaintext, congrArg (Option.map ChunkRecord.plaintext) found⟩

/-- `InProcessPullCoordinator::serve`: a requested chunk that is not held is left out. -/
def serve (chunks : ChunkStore) (request : List ChunkId) (requester : PeerId) :
    Action Error KeyStore (List ChunkBodyFrame) := do
  Action.query fun keys => keys.requireLiveTraffic requester
  let session ← Action.query fun keys => keys.currentSession requester
  (request.filterMap fun chunkId => chunks.records[chunkId]?).mapM fun record =>
    encryptAtSend session record.fileId record.index record.plaintext

omit [Primitives] in
private theorem forall₂_stored {chunks : ChunkStore} {request : List ChunkId} :
    ∀ {frames : List ChunkBodyFrame},
      (∀ id ∈ request, ∃ record, chunks.records[id]? = some record) →
      List.Forall₂ (fun record (frame : ChunkBodyFrame) =>
        record = ⟨frame.fileId, frame.index, record.plaintext⟩)
        (request.filterMap fun id => chunks.records[id]?) frames →
      List.Forall₂ (fun id (frame : ChunkBodyFrame) => ∃ plaintext,
        chunks.records[id]? = some ⟨frame.fileId, frame.index, plaintext⟩) request frames := by
  induction request with
  | nil =>
    intro frames _ sealed
    cases sealed
    exact .nil
  | cons id request ih =>
    intro frames stored sealed
    obtain ⟨record, found⟩ := stored id List.mem_cons_self
    rw [List.filterMap_cons_some found] at sealed
    obtain _ | ⟨isFrame, rest⟩ := sealed
    refine .cons ⟨record.plaintext, ?_⟩
      (ih (fun later mem => stored later (List.mem_cons_of_mem _ mem)) rest)
    rw [found, ← isFrame]

theorem serve_forall₂ {host : HostService} (available : host.state.content.Available)
    {request : List ChunkId} {requester : PeerId} {frames : List ChunkBodyFrame}
    {keys after : KeyStore}
    (listed : ∀ id ∈ request, ∃ (fileId : FileId) (manifest : Manifest),
      host.state.manifests[fileId]? = some manifest ∧ id ∈ manifest.chunkIds)
    (h : serve host.state.chunks request requester keys = (.ok frames, after)) :
    List.Forall₂ (fun id (frame : ChunkBodyFrame) => ∃ plaintext,
      host.state.chunks.records[id]? = some ⟨frame.fileId, frame.index, plaintext⟩) request frames := by
  obtain ⟨_, _, _, h⟩ := Action.bind_eq_ok.mp h
  obtain ⟨session, _, _, h⟩ := Action.bind_eq_ok.mp h
  refine forall₂_stored ?_ (Action.mapM_forall₂ ?_ h)
  · intro id mem
    obtain ⟨fileId, manifest, found, isId⟩ := listed id mem
    obtain ⟨index, slot⟩ := List.mem_iff_getElem?.mp isId
    obtain ⟨plaintext, stored, _⟩ := available.held fileId manifest found index id slot
    exact ⟨_, stored⟩
  · intro record _ frame _ done
    obtain ⟨_, _, _, done⟩ := Action.bind_eq_ok.mp done
    obtain ⟨_, _, _, done⟩ := Action.bind_eq_ok.mp done
    obtain ⟨_, _, _, done⟩ := Action.bind_eq_ok.mp done
    cases done
    rfl

omit [Primitives] in
private theorem chunkSizes_eq_ok {state : HostState}
    (present : ∀ (fileId : FileId) (manifest : Manifest), state.manifests[fileId]? = some manifest →
      ∀ id ∈ manifest.chunkIds, ∃ plaintext, state.chunks.get id = some plaintext) :
    chunkSizes state = .ok (((Map.vals state.manifests).flatMap Manifest.chunkIds).map fun id =>
      ((state.chunks.get id).map List.length).getD 0) := by
  refine Result.mapM_eq_ok.mpr (List.forall₂_map_right_iff.mpr
    (List.forall₂_same.mpr fun id mem => ?_))
  obtain ⟨manifest, isManifest, slot⟩ := List.mem_flatMap.mp mem
  obtain ⟨fileId, found⟩ := Map.mem_vals.mp isManifest
  obtain ⟨plaintext, found⟩ := present fileId manifest found id slot
  rw [found]
  rfl

theorem bootstrap_available {host : HostService} (available : host.state.content.Available)
    {keys : KeyStore} {document : IdentityDocument} {staged : HostState}
    (h : archiveHost keys (stageMember document host.state) = .ok staged) :
    (∃ sizes, chunkSizes staged = .ok sizes) ∧
    ∀ session queuedAt (records : List ControlRecord), Action.Avoids plaintextMissing (sealBootstrap staged.chunks session
      queuedAt (records.map QueueContent.control ++ manifestSlots staged.manifests)) := by
  obtain ⟨documents, _, h⟩ := Result.bind_eq_ok.mp h
  obtain ⟨_, _, h⟩ := Result.bind_eq_ok.mp h
  obtain rfl := Except.ok.inj h
  have present : ∀ (fileId : FileId) (manifest : Manifest),
      host.state.manifests[fileId]? = some manifest → ∀ id ∈ manifest.chunkIds,
      ∃ plaintext, host.state.chunks.get id = some plaintext := by
    intro fileId manifest found id mem
    obtain ⟨index, slot⟩ := List.mem_iff_getElem?.mp mem
    obtain ⟨plaintext, stored, _⟩ := available.held fileId manifest found index id slot
    exact ⟨plaintext, congrArg (Option.map ChunkRecord.plaintext) stored⟩
  refine ⟨⟨_, chunkSizes_eq_ok present⟩, ?_⟩
  intro session queuedAt records
  refine Action.mapM_avoids fun content mem => ?_
  refine .bind (sealContent_avoids ?_ _ _) fun _ => .pure _
  rintro fileId index id rfl
  obtain control | slot := List.mem_append.mp mem
  · obtain ⟨_, _, same⟩ := List.mem_map.mp control
    cases same
  · obtain ⟨key, manifest, found, _, isSlot⟩ := Content.mem_manifestSlots.mp slot
    exact present key manifest found id (List.mem_of_getElem? isSlot)

/-- In every reachable state the host holds every chunk of its manifests and of its queues,
and a queue has at most one body for a slot, one of the current manifest unless a bootstrap
is pending. So sealing a mailbox again, serving a pull and admitting a member find the
plaintext they look up. -/
theorem plaintext_available {start : HostService} (fresh : Fresh start) (ops : List HostOp) :
    let host := machine.run ops start
    (∀ (fileId : FileId) (manifest : Manifest), host.state.manifests[fileId]? = some manifest →
      (∀ (index : Nat) (id : ChunkId), manifest.chunkIds[index]? = some id →
        ∃ plaintext, host.state.chunks.records[id]? = some ⟨fileId, index, plaintext⟩ ∧
          chunkId fileId index plaintext = id) ∧
      (manifest.chunkIds.map fun id =>
        ((host.state.chunks.get id).map List.length).getD 0).sum = manifest.size.val) ∧
    (∀ peer fileId index id, .chunk fileId index id ∈ host.state.mailbox peer →
      (∃ plaintext, host.state.chunks.records[id]? = some ⟨fileId, index, plaintext⟩) ∧
      (host.state.bootstrapThrough.contains peer = false → ∃ manifest,
        host.state.manifests[fileId]? = some manifest ∧ manifest.chunkIds[index]? = some id)) ∧
    (∀ peer, ((host.state.mailbox peer).filterMap QueueContent.slot?).Nodup) ∧
    (refreshMailboxes host).1 ≠ .error plaintextMissing ∧
    (∀ request requester keys frames after,
      (∀ id ∈ request, ∃ (fileId : FileId) (manifest : Manifest),
        host.state.manifests[fileId]? = some manifest ∧ id ∈ manifest.chunkIds) →
      serve host.state.chunks request requester keys = (.ok frames, after) →
      List.Forall₂ (fun id (frame : ChunkBodyFrame) => ∃ plaintext,
        host.state.chunks.records[id]? = some ⟨frame.fileId, frame.index, plaintext⟩)
        request frames) ∧
    ∀ keys document staged, archiveHost keys (stageMember document host.state) = .ok staged →
      (∃ sizes, chunkSizes staged = .ok sizes) ∧
      ∀ session queuedAt (records : List ControlRecord) (store : KeyStore),
        (sealBootstrap staged.chunks session queuedAt
          (records.map QueueContent.control ++ manifestSlots staged.manifests) store).1 ≠
            .error plaintextMissing := by
  intro host
  have available : host.state.content.Available :=
    ((fresh.inv stable_available.toSettled initially_available).run stable_available ops).holds
  refine ⟨fun fileId manifest found => ⟨?_, ?_⟩, fun peer fileId index id queued => ⟨?_, ?_⟩,
    available.slots, refreshMailboxes_avoids available,
    fun _ _ _ _ _ listed served => serve_forall₂ available listed served,
    fun _ _ _ archived => bootstrap_available available archived⟩
  · intro index id slot
    obtain ⟨plaintext, stored, hash⟩ := available.held fileId manifest found index id slot
    rw [available.filed fileId manifest found] at stored hash
    exact ⟨plaintext, stored, hash⟩
  · have sized := available.sized fileId manifest found
    unfold Content.bodySize at sized
    rw [← sized]
    congr 1
    refine List.map_congr_left fun id _ => ?_
    unfold ChunkStore.get
    rw [Option.map_map]
    rfl
  · exact available.queued peer fileId index id queued
  · exact available.current peer fileId index id queued

section

open NonceReuse (alice bob aliceStore)

omit [Primitives] in
/-- Bob's mailbox holds the link, the manifest and the chunk of a file that Alice has saved. -/
theorem plaintext_available_save :
    letI := Primitives.plain
    let host := machine.run [.saveFile calmEnv (aliceStore 1) "/notes" [[1, 2]]] aliceHost
    (Map.vals host.state.manifests).length = 1 ∧
      (host.state.mailbox bob.document.peerId).length = 3 ∧
      (refreshMailboxes host).1 ≠ .error plaintextMissing :=
  letI := Primitives.plain
  ⟨by decide +kernel, by decide +kernel, (plaintext_available aliceHost_fresh _).2.2.2.1⟩

end

end QuantumFs.Host
