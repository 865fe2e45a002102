import QuantumFs.Client.Selection

/-! A delete of a vault task (`node/vault.rs`, `delete_nodes`) while nobody else acts: which unlinks it plans, and
when the tree takes all of them. -/
namespace QuantumFs.Client

open Lib Store DirectoryTree

structure Pruned (tree left : DirectoryTree) : Prop where
  valid : Valid left
  root : left.expectedRoot = tree.expectedRoot
  subset : ∀ entry ∈ left.dirents, entry ∈ tree.dirents

variable {tree left : DirectoryTree}

theorem pruned_self (valid : Valid tree) : Pruned tree tree := ⟨valid, rfl, fun _ mem => mem⟩

theorem Pruned.chain (pruned : Pruned tree left) (valid : Valid tree) {id : FileId} {chain : List Dirent}
    (way : Chain left id chain) : Chain tree id chain := by
  refine way.congr pruned.root.symm fun entry mem => ?_
  have there := way.mem_dirents mem
  rw [(entryOf_eq_some valid.childUnique).mpr ⟨pruned.subset entry there, rfl⟩]
  exact ((entryOf_eq_some pruned.valid.childUnique).mpr ⟨there, rfl⟩).symm

theorem mem_eraseEntry_child (valid : Valid left) {entry other : Dirent} (mem : entry ∈ left.dirents) :
    other ∈ (left.eraseEntry entry).dirents ↔ other ∈ left.dirents ∧ other.child ≠ entry.child := by
  rw [mem_eraseEntry valid]
  refine and_congr_right fun there => not_congr ⟨fun same => ?_, fun same => ?_⟩
  · have get := (mem_dirents_iff_get valid).mp there
    rw [same, (mem_dirents_iff_get valid).mp mem] at get
    rw [Option.some.inj get]
  · rw [valid.childUnique there mem same]

theorem Pruned.erase (pruned : Pruned tree left) {entry : Dirent} (mem : entry ∈ left.dirents) (named : entry.name ≠ "")
    (empty : ∀ other ∈ left.dirents, other.parent ≠ entry.child) : Pruned tree (left.eraseEntry entry) := by
  refine ⟨valid_eraseEntry pruned.valid mem named empty, pruned.root, fun other there => ?_⟩
  exact pruned.subset other ((mem_eraseEntry pruned.valid).mp there).1

section

variable {entry : Dirent} {above : List Dirent}

theorem utf8ByteSize_chain (entry : Dirent) (above : List Dirent) :
    (vaultPath (namesOf (entry :: above))).utf8ByteSize = pathBytes (entry :: above) + 1 := by
  rw [utf8ByteSize_vaultPath, pathLength_namesOf]
  rw [namesOf_cons]
  exact List.append_ne_nil_of_right_ne_nil _ (List.cons_ne_nil _ _)

theorem entry_of_planned (valid : Valid tree) (pruned : Pruned tree left) (mem : entry ∈ tree.dirents)
    (way : Chain tree entry.child (entry :: above)) (up : Chain tree entry.parent above) {parent : FileId} {name : String}
    (resolved : left.resolveParent (vaultPath (namesOf (entry :: above))) = .ok (parent, name)) {other : Dirent}
    (there : other ∈ left.dirents) (key : other.key = direntKey parent name) :
    pathBytes (entry :: above) < maxPathBytes ∧ other = entry := by
  have size := utf8ByteSize_chain entry above
  have storable := storable_namesOf valid way
  rw [namesOf_cons] at resolved size storable
  obtain ⟨short, parents, rfl⟩ := (resolveParent_vaultPath storable).mp resolved
  dsimp only at parents
  obtain ⟨chain, down, names⟩ := chain_of_resolveFrom pruned.valid
    (fun name inside => (storable_iff.mp (storable_namesOf valid up name inside)).1.1)
    (resolveFrom_of_resolveParents parents)
  have here := resolveFrom_chain valid (pruned.chain valid down)
  rw [← names, resolveFrom_chain valid up] at here
  refine ⟨by omega, ?_⟩
  have get := (mem_dirents_iff_get valid).mp (pruned.subset other there)
  rw [key, ← Except.ok.inj here] at get
  exact Option.some.inj (get.symm.trans ((mem_dirents_iff_get valid).mp mem))

theorem resolveParent_planned (valid : Valid tree) (pruned : Pruned tree left) (there : entry ∈ left.dirents)
    (named : entry.name ≠ "") (way : Chain tree entry.child (entry :: above)) (short : pathBytes (entry :: above) < maxPathBytes) :
    left.resolveParent (vaultPath (namesOf (entry :: above))) = .ok (entry.parent, entry.name) := by
  obtain ⟨rest, up, down⟩ := chain_parent pruned.valid there named
  obtain ⟨-, rfl⟩ := List.cons.inj ((pruned.chain valid down).unique way)
  have size := utf8ByteSize_chain entry rest
  refine resolveParent_of_denotes pruned.valid there down up (by omega) ((denotes_iff ?_).mpr (.inr rfl))
  rw [namesOf_cons]
  exact List.append_ne_nil_of_right_ne_nil _ (List.cons_ne_nil _ _)

theorem carry_unlink [Lowercase] {nodes : List Node} {host next : HostTree} (valid : Valid tree)
    (pruned : Pruned tree host.tree) (mem : entry ∈ tree.dirents) (named : entry.name ≠ "")
    (way : Chain tree entry.child (entry :: above)) (up : Chain tree entry.parent above) :
    carry nodes host (.unlink (vaultPath (namesOf (entry :: above)))) = some next ↔
      pathBytes (entry :: above) < maxPathBytes ∧ entry ∈ host.tree.dirents ∧
        (∀ other ∈ host.tree.dirents, other.parent ≠ entry.child) ∧
          next = { host with tree := host.tree.eraseEntry entry } := by
  constructor
  · intro carried
    unfold carry Task.step at carried
    dsimp only at carried
    cases resolved : host.tree.resolveParent (vaultPath (namesOf (entry :: above))) with
    | error _ =>
      rw [resolved] at carried
      cases carried
    | ok place =>
      obtain ⟨parent, name⟩ := place
      rw [resolved] at carried
      obtain ⟨⟨child, after⟩, unlinked, same⟩ := Result.bind_eq_ok.mp (Result.toOption_eq_some carried)
      obtain rfl := Except.ok.inj same
      obtain ⟨other, there, key, -, empty, -, rfl⟩ := (unlink_eq_ok pruned.valid).mp unlinked
      obtain ⟨short, rfl⟩ := entry_of_planned valid pruned mem way up resolved there key
      exact ⟨short, there, empty, rfl⟩
  · rintro ⟨short, there, empty, rfl⟩
    have unlinked := (unlink_eq_ok pruned.valid).mpr ⟨entry, there, rfl, named, empty, rfl, rfl⟩
    unfold carry Task.step
    dsimp only
    rw [resolveParent_planned valid pruned there named way short]
    change (host.apply (.unlink entry.parent entry.name)).toOption = _
    unfold HostTree.apply
    dsimp only
    rw [unlinked]
    rfl

end

/-- What can be unlinked from what is left, one id after another. -/
structure Removable (tree left : DirectoryTree) (ids : List FileId) : Prop where
  nodup : ids.Nodup
  linked : ∀ id ∈ ids, ∃ entry ∈ left.dirents, entry.child = id
  short : ∀ id ∈ ids, ∀ chain, Chain tree id chain → pathBytes chain < maxPathBytes
  later : ∀ before id after, ids = before ++ id :: after → ∀ entry ∈ left.dirents, entry.parent = id → entry.child ∈ before

theorem removable_cons (pruned : Pruned tree left) {entry : Dirent} {above : List Dirent}
    (way : Chain tree entry.child (entry :: above)) (there : entry ∈ left.dirents) {ids : List FileId} :
    Removable tree left (entry.child :: ids) ↔
      (pathBytes (entry :: above) < maxPathBytes ∧ ∀ other ∈ left.dirents, other.parent ≠ entry.child) ∧
        Removable tree (left.eraseEntry entry) ids := by
  have kept : ∀ {other : Dirent}, other ∈ (left.eraseEntry entry).dirents ↔
      other ∈ left.dirents ∧ other.child ≠ entry.child := mem_eraseEntry_child pruned.valid there
  constructor
  · intro removable
    obtain ⟨fresh, nodup⟩ := List.nodup_cons.mp removable.nodup
    refine ⟨⟨removable.short _ List.mem_cons_self _ way, fun other mem below => ?_⟩, nodup, fun id mem => ?_,
      fun id mem => removable.short id (List.mem_cons_of_mem _ mem), fun before id after split other mem below => ?_⟩
    · exact List.not_mem_nil (removable.later [] _ ids rfl other mem below)
    · obtain ⟨other, otherMem, rfl⟩ := removable.linked id (List.mem_cons_of_mem _ mem)
      exact ⟨other, kept.mpr ⟨otherMem, fun same => fresh (same ▸ mem)⟩, rfl⟩
    · obtain ⟨old, different⟩ := kept.mp mem
      have sooner := removable.later (entry.child :: before) id after (by rw [split, List.cons_append]) other old below
      exact (List.mem_cons.mp sooner).resolve_left different
  · rintro ⟨⟨short, empty⟩, removable⟩
    refine ⟨List.nodup_cons.mpr ⟨fun mem => ?_, removable.nodup⟩, fun id mem => ?_, fun id mem chain way' => ?_,
      fun before id after split other mem below => ?_⟩
    · obtain ⟨other, otherMem, same⟩ := removable.linked _ mem
      exact (kept.mp otherMem).2 same
    · obtain rfl | mem := List.mem_cons.mp mem
      · exact ⟨entry, there, rfl⟩
      · obtain ⟨other, otherMem, same⟩ := removable.linked _ mem
        exact ⟨other, (kept.mp otherMem).1, same⟩
    · obtain rfl | mem := List.mem_cons.mp mem
      · rwa [way'.unique way]
      · exact removable.short id mem chain way'
    · cases before with
      | nil =>
        obtain ⟨rfl, -⟩ := List.cons.inj split
        exact absurd below (empty other mem)
      | cons first before =>
        obtain ⟨rfl, rest⟩ := List.cons.inj split
        by_cases same : other.child = entry.child
        · exact same ▸ List.mem_cons_self
        · exact List.mem_cons_of_mem _ (removable.later before id after rest other (kept.mpr ⟨mem, same⟩) below)

section

variable [Lowercase] {vaultName : String}

def unlinks (nodes : List Node) (ids : List FileId) : List Job := ids.map fun id => .unlink (pathOf nodes id)

structure Unlinked (ids : List FileId) (host final : HostTree) : Prop where
  root : final.tree.expectedRoot = host.tree.expectedRoot
  bodies : final.bodies = host.bodies
  entries : ∀ entry, entry ∈ final.tree.dirents ↔ entry ∈ host.tree.dirents ∧ entry.child ∉ ids

theorem carryAll_unlinks (valid : Valid tree) {ids : List FileId}
    (listed : ∀ id ∈ ids, id ≠ tree.expectedRoot ∧ Listed tree vaultName id) {host : HostTree}
    (pruned : Pruned tree host.tree) :
    ((∃ final, carryAll (walk tree vaultName) host (unlinks (walk tree vaultName) ids) = (true, final)) ↔
        Removable tree host.tree ids) ∧
      ∀ final, carryAll (walk tree vaultName) host (unlinks (walk tree vaultName) ids) = (true, final) →
        Unlinked ids host final := by
  induction ids generalizing host with
  | nil =>
    refine ⟨⟨fun _ => ⟨List.nodup_nil, by simp, by simp, fun before id after split => ?_⟩, fun _ => ⟨host, rfl⟩⟩, ?_⟩
    · exact absurd split.symm (List.append_ne_nil_of_right_ne_nil _ (List.cons_ne_nil _ _))
    · rintro final same
      obtain ⟨-, rfl⟩ := Prod.mk.inj same
      exact ⟨rfl, rfl, fun entry => by simp⟩
  | cons id ids ih =>
    obtain ⟨below, here⟩ := listed id List.mem_cons_self
    obtain ⟨entry, mem, named, rfl⟩ := entry_of_listed valid here below
    obtain ⟨above, up, way⟩ := chain_parent valid mem named
    rw [show unlinks (walk tree vaultName) (entry.child :: ids) =
      .unlink (vaultPath (namesOf (entry :: above))) :: unlinks (walk tree vaultName) ids by
        rw [← pathOf_chain valid way here]
        rfl]
    unfold carryAll
    cases carried : carry (walk tree vaultName) host (.unlink (vaultPath (namesOf (entry :: above)))) with
    | none =>
      refine ⟨⟨by simp, fun removable => ?_⟩, by simp⟩
      obtain ⟨other, there, same⟩ := removable.linked _ List.mem_cons_self
      obtain rfl := valid.childUnique (pruned.subset other there) mem same
      obtain ⟨⟨short, empty⟩, -⟩ := (removable_cons pruned way there).mp removable
      rw [(carry_unlink valid pruned mem named way up).mpr ⟨short, there, empty, rfl⟩] at carried
      cases carried
    | some next =>
      obtain ⟨short, there, empty, rfl⟩ := (carry_unlink valid pruned mem named way up).mp carried
      obtain ⟨iff, left⟩ := @ih (fun id mem => listed id (List.mem_cons_of_mem _ mem))
        { host with tree := host.tree.eraseEntry entry } (pruned.erase there named empty)
      refine ⟨?_, fun final done => ?_⟩
      · rw [removable_cons pruned way there]
        exact iff.trans (and_iff_right ⟨short, empty⟩).symm
      · obtain ⟨root, bodies, entries⟩ := left final done
        refine ⟨root, bodies, fun other => ?_⟩
        rw [entries, mem_eraseEntry_child pruned.valid there, List.mem_cons, not_or, and_assoc]

end

def Topmost (tree : DirectoryTree) (ids : List FileId) (id : FileId) : Prop :=
  ∀ other ∈ ids, Below tree id other → other = id

/-- The selected ids that `delete_nodes` starts from. -/
def deletionRoots (nodes : List Node) (ids : List FileId) : List FileId :=
  ids.filter fun id => !(ids.any fun other => other ≠ id && isDescendant nodes id other)

/-- The ids that `delete_nodes` takes the paths of, in turn. -/
def planned (nodes : List Node) (ids : List FileId) : List FileId :=
  (deletionRoots nodes ids).flatMap fun id => (subtree nodes id).reverse

theorem filterM_ok {α : Type} {ε : Type} {list : List α} {test : α → Except ε Bool} {pass : α → Bool}
    (passes : ∀ item ∈ list, test item = .ok (pass item)) : list.filterM test = .ok (list.filter pass) := by
  have general : ∀ done, List.filterAuxM test list done = .ok ((list.filter pass).reverse ++ done) := by
    induction list with
    | nil => exact fun _ => rfl
    | cons item list ih =>
      intro done
      unfold List.filterAuxM
      rw [passes item List.mem_cons_self]
      refine (ih (fun other mem => passes other (List.mem_cons_of_mem _ mem)) _).trans ?_
      cases here : pass item with
      | true => simp [here]
      | false => simp [here]
  unfold List.filterM
  rw [general]
  simp [bind, Except.bind, pure, Except.pure]

theorem split_flatMap {α β : Type} {f : α → List β} {list : List α} {before after : List β} {item : β}
    (split : list.flatMap f = before ++ item :: after) :
    ∃ source ∈ list, ∃ front back, f source = front ++ item :: back ∧ front ⊆ before := by
  induction list generalizing before with
  | nil => exact absurd split.symm (List.append_ne_nil_of_right_ne_nil _ (List.cons_ne_nil _ _))
  | cons first list ih =>
    rw [List.flatMap_cons] at split
    obtain ⟨middle, isBefore, rest⟩ | ⟨middle, isFirst, rest⟩ := List.append_eq_append_iff.mp split
    · obtain ⟨source, mem, front, back, isSource, within⟩ := ih rest
      refine ⟨source, List.mem_cons_of_mem _ mem, front, back, isSource, fun other inside => ?_⟩
      rw [isBefore]
      exact List.mem_append_right _ (within inside)
    · cases middle with
      | nil =>
        obtain ⟨source, mem, front, back, isSource, within⟩ := @ih [] rest.symm
        exact ⟨source, List.mem_cons_of_mem _ mem, front, back, isSource, fun other inside =>
          absurd (within inside) List.not_mem_nil⟩
      | cons next middle =>
        obtain ⟨rfl, -⟩ := List.cons.inj rest
        exact ⟨first, List.mem_cons_self, before, middle, isFirst, fun _ inside => inside⟩

theorem below_linear {id one other : FileId} (first : Below tree id one) (second : Below tree id other) :
    Below tree one other ∨ Below tree other one := by
  obtain ⟨chain, way, passes⟩ := first
  obtain ⟨chain', way', passes'⟩ := second
  obtain rfl := way'.unique way
  clear way'
  induction way with
  | root => cases passes
  | @step id entry above below found up ih =>
    have whole : Chain tree id (entry :: above) := .step below found up
    obtain ⟨-, rfl⟩ := entryOf_mem found
    rw [List.map_cons, List.mem_cons] at passes passes'
    obtain rfl | later := passes
    · exact .inl ⟨_, whole, by rwa [List.map_cons, List.mem_cons]⟩
    · obtain rfl | later' := passes'
      · exact .inr ⟨_, whole, List.mem_cons_of_mem _ later⟩
      · exact ih later' later

section

variable {vaultName : String} {ids : List FileId}

section

variable (valid : Valid tree) (listed : ∀ id ∈ ids, id ≠ tree.expectedRoot ∧ Listed tree vaultName id)

include valid listed

theorem mem_deletionRoots {id : FileId} :
    id ∈ deletionRoots (walk tree vaultName) ids ↔ id ∈ ids ∧ Topmost tree ids id := by
  unfold deletionRoots Topmost
  rw [List.mem_filter]
  refine and_congr_right fun mem => ?_
  obtain ⟨below, here⟩ := listed id mem
  obtain ⟨entry, there, named, rfl⟩ := entry_of_listed valid here below
  simp only [Bool.not_eq_true', List.any_eq_false, Bool.and_eq_true, decide_eq_true_eq, not_and]
  refine forall₂_congr fun other otherMem => ?_
  rw [isDescendant_iff valid there named here (listed other otherMem).1, below_entry valid there named]
  tauto

theorem plan_delete [Lowercase] : plan (walk tree vaultName) tree.expectedRoot (.deleteNodes ids) =
    .ok (unlinks (walk tree vaultName) (planned (walk tree vaultName) ids)) := by
  have roots : ids.filterM (deletionRoot (walk tree vaultName) tree.expectedRoot ids) =
      .ok (deletionRoots (walk tree vaultName) ids) := by
    refine filterM_ok fun id mem => ?_
    obtain ⟨below, here⟩ := listed id mem
    obtain ⟨entry, there, named, rfl⟩ := entry_of_listed valid here below
    obtain ⟨node, found, shows⟩ := find_entry valid there named here
    unfold deletionRoot requireNode
    rw [if_neg below, found]
    change (if node.parent.isNone = true then _ else _) = _
    rw [shows.2.1]
    rfl
  have paths : ∀ id ∈ deletionRoots (walk tree vaultName) ids,
      pathsBelow (walk tree vaultName) id = (subtree (walk tree vaultName) id).reverse.map (pathOf (walk tree vaultName)) := by
    intro id mem
    obtain ⟨below, here⟩ := listed id ((mem_deletionRoots valid listed).mp mem).1
    unfold pathsBelow
    rw [← List.filterMap_eq_map]
    refine List.filterMap_congr fun low inside => ?_
    obtain ⟨there, -⟩ := (mem_subtree valid here below).mp (List.mem_reverse.mp inside)
    obtain ⟨node, nodeMem, rfl⟩ := List.mem_map.mp there
    unfold pathOf
    rw [Function.comp_apply, find_node valid nodeMem]
    rfl
  unfold plan
  dsimp only
  rw [roots]
  change Except.ok _ = Except.ok _
  unfold unlinks planned
  rw [List.map_flatMap, List.map_flatMap]
  congr 1
  refine List.flatMap_congr fun id mem => ?_
  rw [paths id mem, List.map_map]
  rfl

theorem mem_planned_of_root {id root : FileId} (isRoot : root ∈ deletionRoots (walk tree vaultName) ids) :
    id ∈ (subtree (walk tree vaultName) root).reverse ↔ Listed tree vaultName id ∧ Below tree id root := by
  obtain ⟨below, here⟩ := listed root ((mem_deletionRoots valid listed).mp isRoot).1
  rw [List.mem_reverse]
  exact mem_subtree valid here below

omit listed in
theorem topmost_above {id : FileId} {chain : List Dirent} (way : Chain tree id chain)
    (selected : ∃ top ∈ ids, Below tree id top) : ∃ top ∈ ids, Topmost tree ids top ∧ Below tree id top := by
  induction way with
  | root =>
    obtain ⟨top, -, chain, way, passes⟩ := selected
    obtain rfl := way.unique .root
    cases passes
  | @step id entry above below found up ih =>
    obtain ⟨mem, rfl⟩ := entryOf_mem found
    have named : entry.name ≠ "" := fun none => below ((valid.child_eq_root mem).mpr none)
    by_cases higher : ∃ top ∈ ids, Below tree entry.parent top
    · obtain ⟨top, topMem, topmost, passes⟩ := ih higher
      exact ⟨top, topMem, topmost, (below_entry valid mem named).mpr (.inr passes)⟩
    · obtain ⟨top, topMem, passes⟩ := selected
      obtain rfl | passes := (below_entry valid mem named).mp passes
      · refine ⟨_, topMem, fun other otherMem passes => ?_, (below_entry valid mem named).mpr (.inl rfl)⟩
        obtain same | passes := (below_entry valid mem named).mp passes
        · exact same.symm
        · exact absurd ⟨other, otherMem, passes⟩ higher
      · exact absurd ⟨top, topMem, passes⟩ higher

theorem mem_planned {id : FileId} : id ∈ planned (walk tree vaultName) ids ↔
    Listed tree vaultName id ∧ ∃ top ∈ ids, Below tree id top := by
  unfold planned
  rw [List.mem_flatMap]
  constructor
  · rintro ⟨root, isRoot, inside⟩
    obtain ⟨here, passes⟩ := (mem_planned_of_root valid listed isRoot).mp inside
    exact ⟨here, root, ((mem_deletionRoots valid listed).mp isRoot).1, passes⟩
  · rintro ⟨here, selected⟩
    obtain ⟨top, topMem, chain, way, passes⟩ := selected
    obtain ⟨root, rootMem, topmost, below⟩ := topmost_above valid way ⟨top, topMem, chain, way, passes⟩
    have isRoot := (mem_deletionRoots valid listed).mpr ⟨rootMem, topmost⟩
    exact ⟨root, isRoot, (mem_planned_of_root valid listed isRoot).mpr ⟨here, below⟩⟩

theorem nodup_planned : (planned (walk tree vaultName) ids).Nodup ↔ (deletionRoots (walk tree vaultName) ids).Nodup := by
  unfold planned
  rw [List.nodup_flatMap]
  have each : ∀ root ∈ deletionRoots (walk tree vaultName) ids, (subtree (walk tree vaultName) root).reverse.Nodup := by
    intro root isRoot
    obtain ⟨below, here⟩ := listed root ((mem_deletionRoots valid listed).mp isRoot).1
    exact List.nodup_reverse.mpr (listing_subtree valid here below).nodup
  rw [and_iff_right each]
  refine List.Pairwise.iff_of_mem fun {one other} isRoot isRoot' => ?_
  obtain ⟨oneMem, topmost⟩ := (mem_deletionRoots valid listed).mp isRoot
  obtain ⟨otherMem, topmost'⟩ := (mem_deletionRoots valid listed).mp isRoot'
  constructor
  · rintro disjoint rfl
    obtain ⟨below, here⟩ := listed one oneMem
    obtain ⟨entry, there, named, rfl⟩ := entry_of_listed valid here below
    have own := (mem_planned_of_root valid listed isRoot).mpr ⟨here, (below_entry valid there named).mpr (.inl rfl)⟩
    exact disjoint own own
  · intro different low inside inside'
    obtain ⟨-, passes⟩ := (mem_planned_of_root valid listed isRoot).mp inside
    obtain ⟨-, passes'⟩ := (mem_planned_of_root valid listed isRoot').mp inside'
    obtain higher | higher := below_linear passes passes'
    · exact different (topmost other otherMem higher).symm
    · exact different (topmost' one oneMem higher)

theorem planned_later {before after : List FileId} {id : FileId}
    (split : planned (walk tree vaultName) ids = before ++ id :: after) {entry : Dirent} (mem : entry ∈ tree.dirents)
    (named : entry.name ≠ "") (inside : entry.parent = id) (here : Listed tree vaultName entry.child) :
    entry.child ∈ before := by
  obtain ⟨root, isRoot, front, back, block, within⟩ := split_flatMap split
  obtain ⟨below, rootHere⟩ := listed root ((mem_deletionRoots valid listed).mp isRoot).1
  have listing := listing_subtree valid rootHere below
  have order : subtree (walk tree vaultName) root = back.reverse ++ id :: front.reverse := by
    rw [← List.reverse_reverse (subtree (walk tree vaultName) root), block, List.reverse_append, List.reverse_cons,
      List.append_assoc, List.singleton_append]
  have child := (mem_childIds valid).mpr ⟨here, entry, mem, named, rfl, inside⟩
  exact within (List.mem_reverse.mp (listing.later _ _ _ order _ child))

end

end

/-- All that is planned is taken, and leaves the tree without what is selected and what is below it. -/
def DeletesExactly [Lowercase] (host : HostTree) (vaultName : String) (ids : List FileId) : Prop :=
  ∃ jobs, plan (walk host.tree vaultName) host.tree.expectedRoot (.deleteNodes ids) = .ok jobs ∧
    ∃ final, carryAll (walk host.tree vaultName) host jobs = (true, final) ∧
      final.tree.expectedRoot = host.tree.expectedRoot ∧ final.bodies = host.bodies ∧
        ∀ entry, entry ∈ final.tree.dirents ↔
          entry ∈ host.tree.dirents ∧ ¬ ∃ id ∈ ids, Below host.tree entry.child id

/-- What a delete relies on: an id comes once unless another selected one is above it, and what is below a selected
one is listed and has a path that the tree reads with its leading slash. -/
structure Deletable (tree : DirectoryTree) (vaultName : String) (ids : List FileId) : Prop where
  once : ∀ id ∈ ids, Topmost tree ids id → ids.count id = 1
  listed : ∀ entry ∈ tree.dirents, (∃ id ∈ ids, Below tree entry.child id) → Listed tree vaultName entry.child
  short : ∀ entry ∈ tree.dirents, (∃ id ∈ ids, Below tree entry.child id) →
    ∀ chain, Chain tree entry.child chain → pathBytes chain < maxPathBytes

theorem nodup_deletionRoots (valid : Valid tree) {vaultName : String} {ids : List FileId}
    (listed : ∀ id ∈ ids, id ≠ tree.expectedRoot ∧ Listed tree vaultName id) :
    (deletionRoots (walk tree vaultName) ids).Nodup ↔ ∀ id ∈ ids, Topmost tree ids id → ids.count id = 1 := by
  have counted : ∀ {id : FileId}, id ∈ deletionRoots (walk tree vaultName) ids →
      (deletionRoots (walk tree vaultName) ids).count id = ids.count id := by
    intro id isRoot
    exact List.count_filter (List.mem_filter.mp isRoot).2
  rw [List.nodup_iff_count_le_one]
  constructor
  · intro few id mem topmost
    have isRoot := (mem_deletionRoots valid listed).mpr ⟨mem, topmost⟩
    have least := List.count_pos_iff.mpr mem
    have most := few id
    rw [counted isRoot] at most
    omega
  · intro once id
    by_cases isRoot : id ∈ deletionRoots (walk tree vaultName) ids
    · obtain ⟨mem, topmost⟩ := (mem_deletionRoots valid listed).mp isRoot
      rw [counted isRoot, once id mem topmost]
    · rw [List.count_eq_zero_of_not_mem isRoot]
      exact Nat.zero_le 1

theorem removable_planned (valid : Valid tree) {vaultName : String} {ids : List FileId}
    (listed : ∀ id ∈ ids, id ≠ tree.expectedRoot ∧ Listed tree vaultName id) :
    Removable tree tree (planned (walk tree vaultName) ids) ↔ Deletable tree vaultName ids := by
  have nodup := (nodup_planned valid listed).trans (nodup_deletionRoots valid listed)
  constructor
  · intro removable
    -- what is below something planned is planned: the way down from it is, entry after entry
    have closed : ∀ {id : FileId} {chain : List Dirent}, Chain tree id chain → (∃ top ∈ ids, Below tree id top) →
        id ∈ planned (walk tree vaultName) ids := by
      intro id chain way
      induction way with
      | root =>
        rintro ⟨top, -, chain, way, passes⟩
        obtain rfl := way.unique .root
        cases passes
      | @step id entry above below found up ih =>
        rintro ⟨top, topMem, passes⟩
        obtain ⟨mem, rfl⟩ := entryOf_mem found
        have named : entry.name ≠ "" := fun none => below ((valid.child_eq_root mem).mpr none)
        obtain rfl | passes := (below_entry valid mem named).mp passes
        · refine (mem_planned valid listed).mpr ⟨(listed _ topMem).2, _, topMem, ?_⟩
          exact (below_entry valid mem named).mpr (.inl rfl)
        · obtain ⟨before, after, split⟩ := List.append_of_mem (ih ⟨top, topMem, passes⟩)
          rw [split]
          exact List.mem_append_left _ (removable.later before _ after split entry mem rfl)
    refine ⟨nodup.mp removable.nodup, fun entry mem selected => ?_, fun entry mem selected => ?_⟩
    · obtain ⟨chain, way, -⟩ := valid.reachable mem
      exact ((mem_planned valid listed).mp (closed way selected)).1
    · obtain ⟨chain, way, -⟩ := valid.reachable mem
      exact removable.short _ (closed way selected)
  · intro deletable
    have entry_of : ∀ {id : FileId}, id ∈ planned (walk tree vaultName) ids →
        ∃ entry ∈ tree.dirents, entry.name ≠ "" ∧ entry.child = id := by
      intro id mem
      obtain ⟨here, top, -, chain, way, passes⟩ := (mem_planned valid listed).mp mem
      refine entry_of_listed valid here fun isRoot => ?_
      subst isRoot
      obtain rfl := way.unique .root
      cases passes
    refine ⟨nodup.mpr deletable.once, fun id mem => ?_, fun id mem => ?_, fun before id after split entry mem inside => ?_⟩
    · obtain ⟨entry, there, -, isChild⟩ := entry_of mem
      exact ⟨entry, there, isChild⟩
    · obtain ⟨entry, there, -, rfl⟩ := entry_of mem
      exact deletable.short entry there ((mem_planned valid listed).mp mem).2
    · have idMem : id ∈ planned (walk tree vaultName) ids := by
        rw [split]
        exact List.mem_append_right _ List.mem_cons_self
      obtain ⟨-, top, topMem, passes⟩ := (mem_planned valid listed).mp idMem
      by_cases nameless : entry.name = ""
      · -- the root is inside itself, and nothing selected is above it
        rw [valid.nameless mem nameless] at inside
        subst inside
        obtain ⟨chain, way, passes⟩ := passes
        obtain rfl := way.unique .root
        cases passes
      · have selected : ∃ top ∈ ids, Below tree entry.child top :=
          ⟨top, topMem, (below_entry valid mem nameless).mpr (.inr (inside ▸ passes))⟩
        exact planned_later valid listed split mem nameless inside (deletable.listed entry mem selected)

theorem unlinked_planned [Lowercase] {host : HostTree} (valid : Valid host.tree) {vaultName : String} {ids : List FileId}
    (listed : ∀ id ∈ ids, id ≠ host.tree.expectedRoot ∧ Listed host.tree vaultName id) :
    ((∃ final, carryAll (walk host.tree vaultName) host
        (unlinks (walk host.tree vaultName) (planned (walk host.tree vaultName) ids)) = (true, final)) ↔
          Deletable host.tree vaultName ids) ∧
      ∀ final, carryAll (walk host.tree vaultName) host
        (unlinks (walk host.tree vaultName) (planned (walk host.tree vaultName) ids)) = (true, final) →
          Unlinked (planned (walk host.tree vaultName) ids) host final := by
  rw [← removable_planned valid listed]
  refine carryAll_unlinks valid (fun id mem => ?_) (pruned_self valid)
  obtain ⟨here, top, -, chain, way, passes⟩ := (mem_planned valid listed).mp mem
  refine ⟨?_, here⟩
  rintro rfl
  obtain rfl := way.unique .root
  cases passes

theorem deletable_of_exact [Lowercase] {host : HostTree} (valid : Valid host.tree) {vaultName : String} {ids : List FileId}
    (listed : ∀ id ∈ ids, id ≠ host.tree.expectedRoot ∧ Listed host.tree vaultName id)
    (exact' : DeletesExactly host vaultName ids) : Deletable host.tree vaultName ids := by
  obtain ⟨jobs, isPlan, final, done, -⟩ := exact'
  rw [plan_delete valid listed] at isPlan
  cases isPlan
  exact (unlinked_planned valid listed).1.mp ⟨final, done⟩

theorem exact_of_deletable [Lowercase] {host : HostTree} (valid : Valid host.tree) {vaultName : String} {ids : List FileId}
    (listed : ∀ id ∈ ids, id ≠ host.tree.expectedRoot ∧ Listed host.tree vaultName id)
    (deletable : Deletable host.tree vaultName ids) : DeletesExactly host vaultName ids := by
  obtain ⟨taken, left⟩ := unlinked_planned valid listed
  obtain ⟨final, done⟩ := taken.mpr deletable
  obtain ⟨root, bodies, entries⟩ := left final done
  refine ⟨_, plan_delete valid listed, final, done, root, bodies, fun entry => ?_⟩
  rw [entries, mem_planned valid listed]
  refine and_congr_right fun mem => not_congr ⟨And.right, fun selected => ⟨?_, selected⟩⟩
  exact deletable.listed entry mem selected

theorem delete_rounds [Lowercase] {fleet : Fleet} {i : Nat} {vaultName : String} {ids : List FileId}
    (valid : Valid fleet.host.tree)
    (idle : fleet.tasks i = ⟨fleet.host.tree, walk fleet.host.tree vaultName, [], none⟩)
    (listed : ∀ id ∈ ids, id ≠ fleet.host.tree.expectedRoot ∧ Listed fleet.host.tree vaultName id)
    (deletable : Deletable fleet.host.tree vaultName ids) :
    ∃ n, ∀ entry, entry ∈ ((fun fleet => fleet.round i)^[n] (fleet.exec (.begin i (.deleteNodes ids)))).host.tree.dirents ↔
      entry ∈ fleet.host.tree.dirents ∧ ¬ ∃ id ∈ ids, Below fleet.host.tree entry.child id := by
  obtain ⟨jobs, isPlan, final, done, -, -, entries⟩ := exact_of_deletable valid listed deletable
  have isJobs := isPlan
  rw [plan_delete valid listed] at isJobs
  have single : ∀ job ∈ jobs, job.Single := by
    cases isJobs
    intro job mem
    obtain ⟨id, -, rfl⟩ := List.mem_map.mp mem
    trivial
  refine ⟨jobs.length, fun entry => ?_⟩
  rw [command_rounds single idle isPlan, done]
  exact entries entry

/-- A delete removes what is selected exactly when no id is planned twice, all below the selection is listed, and no
path there has the full length. -/
theorem delete_exact_iff [Lowercase] (host : HostTree) (valid : Valid host.tree) (vaultName : String) (ids : List FileId)
    (listed : ∀ id ∈ ids, id ≠ host.tree.expectedRoot ∧ Listed host.tree vaultName id) :
    DeletesExactly host vaultName ids ↔ Deletable host.tree vaultName ids :=
  ⟨deletable_of_exact valid listed, exact_of_deletable valid listed⟩

theorem listed_inside (valid : Valid tree) {vaultName : String} (few : folderCount tree ≤ walkGuard) {entry : Dirent}
    (mem : entry ∈ tree.dirents) (named : entry.name ≠ "") (below : entry.parent ≠ tree.expectedRoot)
    (listed : Listed tree vaultName entry.parent) : Listed tree vaultName entry.child := by
  obtain ⟨node, there, isParent⟩ := List.mem_map.mp listed
  obtain ⟨stack, placed⟩ := placed_walk valid vaultName
  obtain ⟨above, up, visible, -⟩ := placed.nodes node there
  rw [isParent] at up
  obtain ⟨node', there', shows⟩ := visible_walk valid few vaultName mem named up fun step inside => by
    obtain rfl | inside := List.mem_cons.mp inside
    · unfold isSidecar
      simp [below]
    · exact visible step inside
  exact List.mem_map.mpr ⟨node', there', shows.1⟩

theorem deletable_of_nodup (valid : Valid tree) {vaultName : String} {ids : List FileId}
    (few : folderCount tree ≤ walkGuard) (nodup : ids.Nodup)
    (listed : ∀ id ∈ ids, id ≠ tree.expectedRoot ∧ Listed tree vaultName id)
    (short : ∀ entry ∈ tree.dirents, ∀ chain, Chain tree entry.child chain → pathBytes chain < maxPathBytes) :
    Deletable tree vaultName ids := by
  refine ⟨fun id mem _ => List.count_eq_one_of_mem nodup mem, fun entry mem selected => ?_, fun entry mem _ => short entry mem⟩
  have general : ∀ {id : FileId} {chain : List Dirent}, Chain tree id chain → (∃ top ∈ ids, Below tree id top) →
      id ≠ tree.expectedRoot ∧ Listed tree vaultName id := by
    intro id chain way
    induction way with
    | root =>
      rintro ⟨top, -, chain, way, passes⟩
      obtain rfl := way.unique .root
      cases passes
    | @step id entry above below found up ih =>
      rintro ⟨top, topMem, passes⟩
      obtain ⟨mem, rfl⟩ := entryOf_mem found
      have named : entry.name ≠ "" := fun none => below ((valid.child_eq_root mem).mpr none)
      obtain rfl | passes := (below_entry valid mem named).mp passes
      · exact listed _ topMem
      · obtain ⟨notRoot, here⟩ := ih ⟨top, topMem, passes⟩
        exact ⟨below, listed_inside valid few mem named notRoot here⟩
  obtain ⟨chain, way, -⟩ := valid.reachable mem
  exact (general way selected).2

section

private def shelf : HostTree :=
  ⟨treeMachine.run [.link ⟨0⟩ "notes" ⟨1⟩ true, .link ⟨1⟩ "x" ⟨2⟩ false] (DirectoryTree.new ⟨0⟩), fun _ => none⟩

private theorem shelf_valid : Valid shelf.tree := (Reachable.run _ _).valid

private theorem shelf_listed (vaultName : String) : ∀ id ∈ [⟨1⟩, ⟨2⟩], id ≠ shelf.tree.expectedRoot ∧ Listed shelf.tree vaultName id := by
  have shown : ∀ entry ∈ shelf.tree.dirents, entry.name ≠ "" → Listed shelf.tree vaultName entry.child := fun _ =>
    listed_of_few shelf_valid (by decide +kernel) (by decide +kernel)
  intro id mem
  obtain rfl | rfl := by simpa using mem
  · exact ⟨by decide +kernel, shown ⟨⟨0⟩, "notes", ⟨1⟩, true⟩ (by decide +kernel) (by decide)⟩
  · exact ⟨by decide +kernel, shown ⟨⟨1⟩, "x", ⟨2⟩, false⟩ (by decide +kernel) (by decide)⟩

/-- A folder and the file in it. -/
theorem delete_exact_shelf : @DeletesExactly ⟨id⟩ shelf "Vault" [⟨2⟩, ⟨1⟩] := by
  have listed : ∀ id ∈ [⟨2⟩, ⟨1⟩], id ≠ shelf.tree.expectedRoot ∧ Listed shelf.tree "Vault" id := fun id mem =>
    shelf_listed "Vault" id (by simpa [or_comm] using mem)
  refine (@delete_exact_iff ⟨id⟩ shelf shelf_valid "Vault" [⟨2⟩, ⟨1⟩] listed).mpr ?_
  refine deletable_of_nodup shelf_valid (by decide +kernel) (by decide) listed fun entry mem chain way => ?_
  have lengths : ∀ entry ∈ shelf.tree.dirents, pathLen shelf.tree entry.child = .ok 0 ∨
      pathLen shelf.tree entry.child = .ok 5 ∨ pathLen shelf.tree entry.child = .ok 7 := by decide +kernel
  obtain length | length | length := lengths entry mem
  all_goals
    obtain ⟨chain', way', bytes, -⟩ := pathLen_eq_ok.mp length
    rw [way.unique way', ← bytes]
    decide

/-- A folder that is selected twice. -/
theorem delete_repeated : ¬ ∀ [Lowercase] (host : HostTree) (vaultName : String) (ids : List FileId),
    Reachable host.tree → (∀ id ∈ ids, id ≠ host.tree.expectedRoot ∧ Listed host.tree vaultName id) →
      DeletesExactly host vaultName ids := by
  intro always
  have listed : ∀ id ∈ [⟨1⟩, ⟨1⟩], id ≠ shelf.tree.expectedRoot ∧ Listed shelf.tree "Vault" id := fun id mem =>
    shelf_listed "Vault" id (by simp at mem ⊢; exact .inl mem)
  have deletable := @deletable_of_exact ⟨id⟩ shelf shelf_valid "Vault" _ listed
    (@always ⟨id⟩ shelf "Vault" _ (Reachable.run _ _) listed)
  have once := deletable.once ⟨1⟩ List.mem_cons_self fun other mem _ => by simpa using mem
  exact absurd once (by decide)

end

end QuantumFs.Client
