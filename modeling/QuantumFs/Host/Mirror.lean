import QuantumFs.Host.Bootstrap

/-! What the queue of a new member makes of an empty vault. The records of the snapshot make
the vault as it was when the member was admitted, and every later instruction waits behind
them, so at any time the queue makes the vault as it is. -/
namespace QuantumFs.Host

open Lib Encoding Crypto Store DirectoryTree

@[ext]
structure Mirror where
  tree : DirectoryTree
  manifests : Map FileId Manifest

namespace Mirror

def empty (root : FileId) : Mirror := ⟨DirectoryTree.new root, ∅⟩

/-- The manifests after an instruction, before a removed file is taken out. -/
def learn (manifests : Map FileId Manifest) : ControlUpdate → Map FileId Manifest
  | .newManifest manifest => manifests.insert manifest.fileId manifest
  | _ => manifests

def forget (removed : Option FileId) (manifests : Map FileId Manifest) : Map FileId Manifest :=
  match removed with
  | none => manifests
  | some fileId => manifests.erase fileId

def follow (mirror : Mirror) (update : ControlUpdate) : Result Mirror := do
  let (tree, removed) ← applyTreeUpdate mirror.tree update
  pure ⟨tree, forget removed (learn mirror.manifests update)⟩

theorem follow_eq_ok {mirror next : Mirror} {update : ControlUpdate} :
    mirror.follow update = .ok next ↔ ∃ tree removed,
      applyTreeUpdate mirror.tree update = .ok (tree, removed) ∧
        next = ⟨tree, forget removed (learn mirror.manifests update)⟩ := by
  unfold follow
  rw [Result.bind_eq_ok]
  constructor
  · rintro ⟨⟨tree, removed⟩, applied, h⟩
    exact ⟨tree, removed, applied, (Except.ok.inj h).symm⟩
  · rintro ⟨tree, removed, applied, rfl⟩
    exact ⟨(tree, removed), applied, rfl⟩

theorem follow_manifests {root : FileId} (manifests : List Manifest)
    (files : ∀ manifest ∈ manifests, manifest.fileId ≠ root) : ∀ before : Map FileId Manifest,
      (manifests.map ControlUpdate.newManifest).foldlM follow ⟨DirectoryTree.new root, before⟩ =
        .ok ⟨DirectoryTree.new root, manifests.foldl
          (fun known manifest => known.insert manifest.fileId manifest) before⟩ := by
  induction manifests with
  | nil => exact fun _ => rfl
  | cons manifest manifests ih =>
    intro before
    have isFile : (DirectoryTree.new root).isDir manifest.fileId = false := by
      rw [Bool.eq_false_iff]
      intro isDir
      obtain isRoot | ⟨entry, mem, isChild, _⟩ := isDir_iff.mp isDir
      · exact files manifest List.mem_cons_self isRoot
      · obtain rfl := ((part_new (valid_new root)).2 entry).mp mem
        exact files manifest List.mem_cons_self isChild.symm
    have followed : follow ⟨DirectoryTree.new root, before⟩ (.newManifest manifest) =
        .ok ⟨DirectoryTree.new root, before.insert manifest.fileId manifest⟩ := by
      refine follow_eq_ok.mpr ⟨_, none, ?_, rfl⟩
      exact Result.bind_eq_ok.mpr ⟨(), ensure_eq_ok.mpr isFile, rfl⟩
    rw [List.map_cons, List.foldlM_cons, followed]
    exact ih (fun manifest mem => files manifest (List.mem_cons_of_mem _ mem)) _

theorem follow_links (manifests : Map FileId Manifest) (entries : List Dirent) :
    ∀ {tree whole : DirectoryTree}, entries.foldlM linkEntry tree = .ok whole →
      (entries.map linkOf).foldlM follow ⟨tree, manifests⟩ = .ok ⟨whole, manifests⟩ := by
  induction entries with
  | nil =>
    intro tree whole done
    cases done
    rfl
  | cons entry entries ih =>
    intro tree whole done
    rw [List.foldlM_cons] at done
    obtain ⟨next, linked, done⟩ := Result.bind_eq_ok.mp done
    have followed : follow ⟨tree, manifests⟩ (linkOf entry) = .ok ⟨next, manifests⟩ :=
      follow_eq_ok.mpr ⟨next, none, Result.bind_eq_ok.mpr ⟨next, linked, rfl⟩, rfl⟩
    rw [List.map_cons, List.foldlM_cons, followed]
    exact ih done

theorem foldl_vals {manifests : Map FileId Manifest}
    (filed : ∀ (fileId : FileId) (manifest : Manifest), manifests[fileId]? = some manifest →
      manifest.fileId = fileId) :
    (Map.vals manifests).foldl (fun known manifest => known.insert manifest.fileId manifest) ∅ =
      manifests := by
  have entered : ∀ (list : List Manifest) (known : Map FileId Manifest) (fileId : FileId),
      (∀ a ∈ list, ∀ b ∈ list, a.fileId = b.fileId → a = b) → ∀ manifest,
        (list.foldl (fun known manifest => known.insert manifest.fileId manifest) known)[fileId]? =
          some manifest ↔ (manifest ∈ list ∧ manifest.fileId = fileId) ∨
            (known[fileId]? = some manifest ∧ ∀ other ∈ list, other.fileId ≠ fileId) := by
    intro list
    induction list with
    | nil => simp
    | cons first list ih =>
      intro known fileId apart manifest
      have rest := ih (known.insert first.fileId first) fileId
        (fun a aMem b bMem => apart a (List.mem_cons_of_mem _ aMem) b (List.mem_cons_of_mem _ bMem))
      rw [List.foldl_cons, rest, Map.get_insert]
      by_cases same : first.fileId = fileId
      · rw [if_pos same]
        constructor
        · rintro (⟨mem, isFile⟩ | ⟨isFirst, _⟩)
          · exact .inl ⟨List.mem_cons_of_mem _ mem, isFile⟩
          · obtain rfl := Option.some.inj isFirst
            exact .inl ⟨List.mem_cons_self, same⟩
        · rintro (⟨mem, isFile⟩ | ⟨_, never⟩)
          · have isFirst := apart first List.mem_cons_self manifest mem (same.trans isFile.symm)
            by_cases again : ∃ other ∈ list, other.fileId = fileId
            · obtain ⟨other, otherMem, otherFile⟩ := again
              have isOther := apart first List.mem_cons_self other (List.mem_cons_of_mem _ otherMem)
                (same.trans otherFile.symm)
              exact .inl ⟨isFirst.symm.trans isOther ▸ otherMem, isFile⟩
            · exact .inr ⟨congrArg some isFirst, fun other mem isFile => again ⟨other, mem, isFile⟩⟩
          · exact absurd same (never first List.mem_cons_self)
      · rw [if_neg same, List.forall_mem_cons, List.mem_cons]
        refine or_congr (and_congr_left fun isFile => ?_) (and_congr_right fun _ => ?_)
        · exact ⟨.inr, fun mem => mem.resolve_left fun isFirst => same (isFirst ▸ isFile)⟩
        · exact ⟨fun others => ⟨same, others⟩, And.right⟩
  refine Map.ext_get fun fileId => Option.ext fun manifest => ?_
  rw [entered]
  · rw [Std.ExtTreeMap.getElem?_empty]
    constructor
    · rintro (⟨mem, rfl⟩ | ⟨never, _⟩)
      · obtain ⟨key, found⟩ := Map.mem_vals.mp mem
        rw [filed key manifest found]
        exact found
      · cases never
    · exact fun found => .inl ⟨Map.mem_vals.mpr ⟨fileId, found⟩, filed fileId manifest found⟩
  · intro a aMem b bMem same
    obtain ⟨key, foundA⟩ := Map.mem_vals.mp aMem
    obtain ⟨other, foundB⟩ := Map.mem_vals.mp bMem
    obtain rfl : key = other := (filed key a foundA).symm.trans (same.trans (filed other b foundB))
    exact Option.some.inj (foundA.symm.trans foundB)

end Mirror

namespace Content

def mirror (c : Content) : Mirror := ⟨c.tree, c.manifests⟩

variable {c : Content}

theorem Rebuildable.snapshot [Primitives] (rebuildable : c.Rebuildable) (sound : c.Sound)
    {sorted : List Dirent} (perm : sorted.Perm c.tree.links)
    (ordered : LinkOrder ((∅ : OrdSet FileId).insert c.tree.expectedRoot) sorted) (through : Nat) :
    (updatesOf c.manifests sorted through).foldlM Mirror.follow (.empty c.expectedRoot) =
      .ok c.mirror := by
  have linked := rebuild sound.tree perm ordered
  rw [sound.root] at linked
  have files : ∀ manifest ∈ Map.vals c.manifests, manifest.fileId ≠ c.expectedRoot := by
    intro manifest mem isRoot
    obtain ⟨fileId, found⟩ := Map.mem_vals.mp mem
    have isFile := rebuildable.files fileId manifest found
    rw [← rebuildable.filed fileId manifest found, isRoot, ← sound.root,
      isDir_iff.mpr (.inl rfl)] at isFile
    cases isFile
  have known := Mirror.follow_manifests (Map.vals c.manifests) files ∅
  rw [Mirror.foldl_vals rebuildable.filed] at known
  have whole : ((Map.vals c.manifests).map ControlUpdate.newManifest ++ sorted.map linkOf).foldlM
      Mirror.follow (.empty c.expectedRoot) = .ok c.mirror := by
    rw [List.foldlM_append]
    exact Result.bind_eq_ok.mpr ⟨_, known, Mirror.follow_links c.manifests sorted linked⟩
  unfold updatesOf
  dsimp only
  split
  · rename_i nothing
    rw [nothing.1] at whole
    rw [← Except.ok.inj whole]
    rfl
  · exact whole

structure Awaits (c : Content) (peer : PeerId) (through : Nat) : Prop where
  member : peer ∈ c.members
  other : peer ≠ c.hostId
  offline : c.online peer = []
  positive : ∀ record ∈ c.pending peer, 0 < record.id
  last : ((c.pending peer).map ControlRecord.id).getLast? = some (c.nextControl - 1)
  logged : ∀ record ∈ c.log, through < record.id → record ∈ c.pending peer
  follows : ((c.pending peer).map ControlRecord.update).foldlM Mirror.follow
    (.empty c.expectedRoot) = .ok c.mirror

/-- The vault can be rebuilt, and it is what every snapshot that waits becomes. -/
structure Mirrored (c : Content) : Prop extends c.Rebuildable where
  awaits : ∀ (peer : PeerId) (through : Nat), c.bootstrapThrough[peer]? = some through →
    through ≠ 0 → c.Awaits peer through

theorem Awaits.waiting {peer : PeerId} {through : Nat} (awaits : c.Awaits peer through) :
    c.controls peer ≠ [] := by
  intro nothing
  have last := awaits.last
  unfold pending at last
  rw [nothing, awaits.offline] at last
  cases last

theorem commit_follow {staged : Content} {update : ControlUpdate} {live : PeerId → Bool}
    {admission : Option VaultMetadata} (h : c.commit update live admission = .ok staged) :
    c.mirror.follow update = .ok staged.mirror := by
  obtain ⟨tree, removed, _, applied, _, rfl⟩ := commit_eq_ok h
  refine Mirror.follow_eq_ok.mpr ⟨tree, removed, applied, ?_⟩
  cases removed <;> cases update <;> rfl

theorem commit_offline {staged : Content} {update : ControlUpdate} {live : PeerId → Bool}
    {admission : Option VaultMetadata} (idle : c.Idle live)
    (h : c.commit update live admission = .ok staged) {peer : PeerId}
    (recipient : c.recipient update peer) (waiting : c.controls peer ≠ []) : staged.online peer = [] := by
  obtain ⟨tree, removed, _, applied, _, rfl⟩ := commit_eq_ok h
  have gated : live peer = false := by
    rw [Bool.eq_false_iff]
    intro isLive
    apply waiting
    unfold controls
    rw [idle peer isLive]
    rfl
  dsimp only
  unfold onlineAfter
  rw [if_pos recipient, gated]
  rfl

theorem Awaits.commit {staged : Content} {update : ControlUpdate} {live : PeerId → Bool}
    {admission : Option VaultMetadata} {peer : PeerId} {through : Nat} (awaits : c.Awaits peer through)
    (next : 0 < c.nextControl) (idle : c.Idle live) (h : c.commit update live admission = .ok staged)
    (stays : some peer ≠ kickedBy update) : staged.Awaits peer through := by
  have committed := committed_of_ok h
  have recipient : c.recipient update peer := ⟨awaits.member, awaits.other, stays⟩
  have offline := commit_offline idle h recipient awaits.waiting
  have pending := committed.pending peer
  rw [if_pos recipient] at pending
  refine ⟨(committed.members peer).mpr ⟨awaits.member, stays⟩, committed.hostId ▸ awaits.other,
    offline, fun record mem => ?_, ?_, fun record mem above => ?_, ?_⟩
  · rw [pending] at mem
    obtain old | new := List.mem_append.mp mem
    · exact awaits.positive record old
    · rw [List.mem_singleton.mp new]
      exact next
  · rw [pending, committed.next, List.map_append]
    exact List.getLast?_concat
  · rw [pending]
    rw [committed.log] at mem
    obtain old | new := List.mem_append.mp mem
    · exact List.mem_append_left _ (awaits.logged record old above)
    · exact List.mem_append_right _ new
  · rw [pending, committed.expectedRoot, List.map_append, List.foldlM_append]
    refine Result.bind_eq_ok.mpr ⟨c.mirror, awaits.follows, ?_⟩
    rw [List.map_singleton, List.foldlM_cons, commit_follow h]
    rfl

theorem commit_bootstrap {staged : Content} {update : ControlUpdate} {live : PeerId → Bool}
    {admission : Option VaultMetadata} (h : c.commit update live admission = .ok staged)
    {peer : PeerId} {through : Nat} (found : staged.bootstrapThrough[peer]? = some through) :
    some peer ≠ kickedBy update ∧ c.bootstrapThrough[peer]? = some through := by
  obtain ⟨tree, removed, _, applied, _, rfl⟩ := commit_eq_ok h
  dsimp only at found
  cases kicked : kickedBy update with
  | none =>
    rw [kicked] at found
    exact ⟨Option.some_ne_none peer, found⟩
  | some target =>
    rw [kicked] at found
    change (c.bootstrapThrough.erase target)[peer]? = some through at found
    rw [Map.get_erase] at found
    split at found
    · cases found
    · rename_i different
      exact ⟨fun same => different (Option.some.inj same).symm, found⟩

theorem Mirrored.enrol [Primitives] (mirrored : c.Mirrored) (sound : c.Sound)
    {document : IdentityDocument} {documents : Map PeerId IdentityDocument}
    {records : List ControlRecord} (stranger : document.peerId ∉ c.members)
    (snapshot : snapshotRecords c.expectedRoot c.tree c.manifests (c.nextControl - 1) = .ok records) :
    (c.withMember document documents records).Mirrored := by
  have pos := sound.log.next_pos
  have small := mirrored.small
  refine ⟨{ mirrored.toRebuildable with }, fun peer through found nonzero => ?_⟩
  change (c.bootstrapThrough.insert document.peerId (c.nextControl - 1))[peer]? = _ at found
  rw [Map.get_insert] at found
  split at found
  · rename_i new
    obtain rfl := Option.some.inj found
    have counted : c.manifests.size + c.tree.entries.size ≤ c.nextControl - 1 + 1 := by
      have := mirrored.counted
      omega
    obtain ⟨sorted, rebuilt, perm, ordered, isSnapshot, updates⟩ :=
      snapshotRecords_ok sound.tree counted (by omega)
    rw [sound.root, snapshot] at isSnapshot
    obtain rfl := Except.ok.inj isSnapshot
    have outside := sound.outside peer (new ▸ stranger)
    have mailbox : (c.withMember document documents records).controls peer = records := by
      change (if document.peerId = peer then
        records.map QueueContent.control ++ manifestSlots c.manifests
        else c.mailbox peer).filterMap QueueContent.record? = records
      rw [if_pos new, List.filterMap_append, map_control_records]
      have slots : (manifestSlots c.manifests).filterMap QueueContent.record? = [] := by
        rw [List.filterMap_eq_nil_iff]
        intro content mem
        obtain ⟨manifest, _, mem⟩ := List.mem_flatMap.mp mem
        obtain ⟨slot, _, rfl⟩ := List.mem_map.mp mem
        rfl
      rw [slots, List.append_nil]
    have pending : (c.withMember document documents records).pending peer = records := by
      unfold Content.pending
      rw [mailbox]
      exact (congrArg _ outside.2).trans (List.append_nil _)
    obtain ⟨first, firstPos, total, ids⟩ := snapshotRecords_ids snapshot
    refine ⟨(OrdSet.mem_insert _ _ _).mpr (.inl new), ?_, outside.2, fun record mem => ?_, ?_, ?_, ?_⟩
    · rintro rfl
      exact stranger (new ▸ sound.host)
    · rw [pending] at mem
      have isId := List.mem_map_of_mem (f := ControlRecord.id) mem
      rw [ids, List.mem_range'_1] at isId
      omega
    · have some : 0 < records.length := by
        rw [← List.length_map ControlRecord.update, updates, List.length_pos_iff]
        exact updatesOf_ne_nil nonzero
      have isLast : first + records.length - 1 = c.nextControl - 1 := by omega
      have nonempty : records.length ≠ 0 := by omega
      rw [pending, ids, List.getLast?_range', if_neg nonempty, isLast]
      rfl
    · intro record mem above
      have below := sound.log.below mem
      omega
    · rw [pending, updates]
      exact mirrored.snapshot sound perm ordered _
  · rename_i other
    have awaits := mirrored.awaits peer through found nonzero
    have controls : (c.withMember document documents records).controls peer = c.controls peer := by
      change (if document.peerId = peer then _ else c.mailbox peer).filterMap _ = _
      rw [if_neg other]
      rfl
    have pending : (c.withMember document documents records).pending peer = c.pending peer :=
      congrArg (· ++ c.online peer) controls
    refine ⟨(OrdSet.mem_insert _ _ _).mpr (.inr awaits.member), awaits.other, awaits.offline,
      ?_, ?_, ?_, ?_⟩
    · rw [pending]
      exact awaits.positive
    · rw [pending]
      exact awaits.last
    · rw [pending]
      exact awaits.logged
    · rw [pending]
      exact awaits.follows

theorem controls_appended (c : Content) (peer : PeerId) (fileId : FileId) (index : Nat)
    (chunkId : ChunkId) : (c.appended peer fileId index chunkId).controls = c.controls := by
  funext other
  unfold controls appended
  dsimp only
  split
  · rename_i same
    have kept : ∀ queue : List QueueContent, (queue.filter (otherSlot fileId index)).filterMap
        QueueContent.record? = queue.filterMap QueueContent.record? := by
      intro queue
      rw [List.filterMap_filter]
      refine List.filterMap_congr fun content _ => ?_
      cases content with
      | control record => rfl
      | chunk fileId index chunkId => exact ite_self _
    rw [List.filterMap_append, kept, same]
    exact List.append_nil _
  · rfl

theorem Awaits.step {next : Content} {peer : PeerId} {through : Nat} (awaits : c.Awaits peer through)
    (member : peer ∈ next.members) (hostId : next.hostId = c.hostId)
    (controls : next.controls peer = c.controls peer) (offline : next.online peer = [])
    (log : ∀ record ∈ next.log, record ∈ c.log) (last : next.nextControl = c.nextControl)
    (root : next.expectedRoot = c.expectedRoot)
    (mirror : next.mirror = c.mirror) : next.Awaits peer through := by
  have pending : next.pending peer = c.pending peer := by
    unfold pending
    rw [controls, offline, awaits.offline]
  refine ⟨member, hostId ▸ awaits.other, offline, ?_, ?_, fun record mem above => ?_, ?_⟩
  · rw [pending]
    exact awaits.positive
  · rw [pending, last]
    exact awaits.last
  · rw [pending]
    exact awaits.logged record (log record mem) above
  · rw [pending, root, mirror]
    exact awaits.follows

theorem Awaits.persisted {peer : PeerId} {through : Nat} (awaits : c.Awaits peer through)
    (found : c.bootstrapThrough[peer]? = some through) : c.persisted peer = c.mailbox peer := by
  have covered : through ≤ c.covered peer := by
    unfold covered bootstrap
    rw [found]
    exact Nat.le_max_right _ _
  have nothing : c.missing peer (c.mailbox peer) = [] := by
    unfold missing
    rw [List.filter_eq_nil_iff]
    intro record mem absent
    obtain ⟨above, absent⟩ := of_decide_eq_true absent
    have queued := awaits.logged record mem (covered.trans_lt above)
    unfold pending at queued
    rw [awaits.offline, List.append_nil] at queued
    exact absent (List.mem_map_of_mem queued)
  unfold Content.persisted
  rw [if_pos ⟨awaits.member, awaits.other⟩]
  unfold merged
  rw [if_pos nothing]

end Content

variable [Primitives]

theorem stable_mirrored : Stable nobody Content.Mirrored where
  outside := fun _ isBarred => isBarred.elim
  put := fun _ mirrored put => by
    cases put with
    | mk fileId index plaintext _ _ =>
      refine ⟨{ mirrored.toRebuildable with }, fun peer through found nonzero => ?_⟩
      have awaits := mirrored.awaits peer through found nonzero
      exact awaits.step awaits.member rfl rfl awaits.offline (fun _ mem => mem) rfl rfl rfl
  commit := fun _ sound mirrored _ idle _ committed => by
    refine ⟨mirrored.toRebuildable.commit sound committed, fun peer through found nonzero => ?_⟩
    obtain ⟨stays, before⟩ := Content.commit_bootstrap committed found
    exact (mirrored.awaits peer through before nonzero).commit sound.log.next_pos idle committed stays
  settle := fun _ _ mirrored _ => by
    refine ⟨{ mirrored.toRebuildable with }, fun peer through found nonzero => ?_⟩
    have awaits := mirrored.awaits peer through found nonzero
    exact awaits.step awaits.member rfl rfl awaits.offline
      (fun _ mem => List.mem_of_mem_filter mem) rfl rfl rfl
  enrol := fun _ sound mirrored _ _ stranger _ snapshot => mirrored.enrol sound stranger snapshot
  acknowledge := fun _ mirrored _ _ _ => by
    refine ⟨{ mirrored.toRebuildable with }, fun peer through found nonzero => ?_⟩
    have awaits := mirrored.awaits peer through found nonzero
    exact awaits.step awaits.member rfl rfl awaits.offline (fun _ mem => mem) rfl rfl rfl
  drain := fun {c drained} _ mirrored _ => by
    refine ⟨{ mirrored.toRebuildable with }, fun peer through found nonzero => ?_⟩
    change (c.bootstrapThrough.erase drained)[peer]? = some through at found
    rw [Map.get_erase] at found
    split at found
    · cases found
    · rename_i other
      have awaits := mirrored.awaits peer through found nonzero
      refine awaits.step awaits.member rfl ?_ awaits.offline (fun _ mem => mem) rfl rfl rfl
      exact congrArg (List.filterMap QueueContent.record?) (if_neg other)
  take := fun {c} taken _ mirrored => by
    refine ⟨{ mirrored.toRebuildable with }, fun peer through found nonzero => ?_⟩
    have awaits := mirrored.awaits peer through found nonzero
    refine awaits.step awaits.member rfl rfl ?_ (fun _ mem => mem) rfl rfl rfl
    change (if taken = peer then [] else c.online peer) = []
    rw [awaits.offline, ite_self]
  append := fun {c appended fileId _ index chunkId} _ mirrored _ _ _ _ => by
    refine ⟨{ mirrored.toRebuildable with }, fun peer through found nonzero => ?_⟩
    have awaits := mirrored.awaits peer through found nonzero
    refine awaits.step awaits.member rfl ?_ awaits.offline (fun _ mem => mem) rfl rfl rfl
    exact congrFun (Content.controls_appended c appended fileId index chunkId) peer
  attach := fun _ _ mirrored _ => by
    refine ⟨{ mirrored.toRebuildable with }, fun peer through found nonzero => ?_⟩
    have awaits := mirrored.awaits peer through found nonzero
    exact awaits.step awaits.member rfl rfl awaits.offline (fun _ mem => mem) rfl rfl rfl
  admission := fun _ _ mirrored => by
    refine ⟨{ mirrored.toRebuildable with }, fun peer through found nonzero => ?_⟩
    have awaits := mirrored.awaits peer through found nonzero
    exact awaits.step awaits.member rfl rfl awaits.offline (fun _ mem => mem) rfl rfl rfl
  retain := fun _ mirrored _ => by
    refine ⟨{ mirrored.toRebuildable with }, fun peer through found nonzero => ?_⟩
    have awaits := mirrored.awaits peer through found nonzero
    exact awaits.step awaits.member rfl rfl awaits.offline (fun _ mem => mem) rfl rfl rfl
  resumed := fun {c} _ mirrored => by
    refine ⟨{ mirrored.toRebuildable with }, fun peer through found nonzero => ?_⟩
    have awaits := mirrored.awaits peer through found nonzero
    refine awaits.step awaits.member rfl ?_ rfl (fun _ mem => mem) rfl rfl rfl
    change (c.mailbox peer ++ (c.online peer).map QueueContent.control).filterMap _ = _
    rw [awaits.offline]
    exact congrArg (List.filterMap QueueContent.record?) (List.append_nil _)
  restored := fun _ _ mirrored _ => by
    refine ⟨{ mirrored.toRebuildable with }, fun peer through found nonzero => ?_⟩
    have awaits := mirrored.awaits peer through found nonzero
    refine awaits.step awaits.member rfl ?_ rfl (fun _ mem => mem) rfl rfl rfl
    exact congrArg (List.filterMap QueueContent.record?) (awaits.persisted found)

omit [Primitives] in
theorem initially_mirrored : Initially Content.Mirrored := by
  intro hostId members historical root gateOwner host
  refine ⟨initially_rebuildable historical root gateOwner host, fun peer through found _ => ?_⟩
  change ((∅ : Map PeerId Nat)[peer]?) = some through at found
  rw [Std.ExtTreeMap.getElem?_empty] at found
  cases found

end QuantumFs.Host
