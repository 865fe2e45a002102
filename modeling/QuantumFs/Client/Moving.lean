import QuantumFs.Client.Deletion
import QuantumFs.Client.UniqueNames
import QuantumFs.Store.Relocation

/-! A move of a vault task (`node/vault.rs`, `move_nodes`) while nobody else acts: which selections it accepts, and
when the host takes all of its renames. -/
namespace QuantumFs.Client

open Lib Store DirectoryTree

variable {tree moved : DirectoryTree} {vaultName : String} {target : FileId} {way done : List Dirent}

theorem vaultPath_end {names : List String} {name : String} (storable : Storable name) :
    (vaultPath (names ++ [name])).toList.rdropWhile (· = '/') = (vaultPath (names ++ [name])).toList := by
  obtain ⟨⟨notEmpty, -⟩, -, noSlash, -⟩ := storable_iff.mp storable
  obtain ⟨front, last, isName⟩ : ∃ front last, name.toList = front ++ [last] := by
    have some : name.toList ≠ [] := fun none => notEmpty (String.toList_eq_nil_iff.mp none)
    exact ⟨_, _, (List.dropLast_append_getLast some).symm⟩
  have chars : (vaultPath (names ++ [name])).toList = (names.flatMap fun other => '/' :: other.toList) ++ '/' :: front ++ [last] := by
    unfold vaultPath
    rw [if_neg (List.append_ne_nil_of_right_ne_nil _ (List.cons_ne_nil _ _)), String.toList_ofList, List.flatMap_append,
      List.flatMap_singleton, isName, List.append_assoc, List.cons_append]
  rw [chars, List.rdropWhile_concat_neg]
  simp only [decide_eq_true_eq]
  rintro rfl
  exact noSlash (by rw [isName]; exact List.mem_append_right _ List.mem_cons_self)

theorem childPath_vaultPath {names : List String} (storable : ∀ other ∈ names, Storable other) (name : String) :
    childPath (vaultPath names) name = vaultPath (names ++ [name]) := by
  have whole : vaultPath (names ++ [name]) = String.ofList ((names.flatMap fun other => '/' :: other.toList) ++ '/' :: name.toList) := by
    unfold vaultPath
    rw [if_neg (List.append_ne_nil_of_right_ne_nil _ (List.cons_ne_nil _ _)), List.flatMap_append, List.flatMap_singleton]
  cases names using List.reverseRecOn with
  | nil => simp [childPath, vaultPath]
  | append_singleton front last =>
    have kept := @vaultPath_end front last (storable last (List.mem_append_right _ List.mem_cons_self))
    have chars : (vaultPath (front ++ [last])).toList = (front ++ [last]).flatMap fun other => '/' :: other.toList := by
      unfold vaultPath
      rw [if_neg (List.append_ne_nil_of_right_ne_nil _ (List.cons_ne_nil _ _)), String.toList_ofList]
    have other : vaultPath (front ++ [last]) ≠ "/" := by
      intro same
      rw [same] at kept
      exact absurd kept (by decide)
    unfold childPath
    rw [if_neg other, kept, whole, chars]

section

variable (valid : Valid tree) (up : Chain tree target way) (movable : ∀ other ∈ done, Movable tree target way other)
  (relocated : Relocated tree target done moved) (validMoved : Valid moved)

include valid movable relocated validMoved in
theorem resolveParents_relocated {folder parent : FileId} {above : List Dirent} (h : Chain tree folder above)
    (isDir : tree.isDir folder = true) :
    moved.resolveParents moved.expectedRoot (namesOf above) = .ok parent ↔ (∀ step ∈ above, step ∉ done) ∧ parent = folder := by
  constructor
  · intro parents
    obtain ⟨chain, h', names⟩ := chain_of_resolveFrom validMoved
      (fun name inside => (storable_iff.mp (storable_namesOf valid h name inside)).1.1)
      (resolveFrom_of_resolveParents parents)
    obtain ⟨same, kept⟩ := same_way valid movable relocated validMoved h h' (names_of_namesOf names.symm)
    exact ⟨kept, same⟩
  · rintro ⟨kept, rfl⟩
    exact resolveParents_chain validMoved (relocated.chain_kept valid h kept) (relocated.isDir.mpr isDir)

end

/-- What the next rename of a plan needs when the entries of `done` have been moved. -/
structure NextTaken (tree : DirectoryTree) (target : FileId) (way done : List Dirent) (entry : Dirent) : Prop where
  order : ∀ other ∈ done, ¬ Below tree entry.parent other.child
  source : ∀ chain, Chain tree entry.child chain → pathBytes chain < maxPathBytes
  place : pathBytes (entry :: way) < maxPathBytes
  vacant : tree.entries[direntKey target entry.name]? = none
  fits : Fits tree way done entry

section

variable [Lowercase] {nodes : List Node} {host next : HostTree}

theorem carry_rename (valid : Valid tree) (up : Chain tree target way) (isDir : tree.isDir target = true)
    (movable : ∀ other ∈ done, Movable tree target way other) {entry : Dirent} (mine : Movable tree target way entry)
    (apart : ∀ other ∈ done, other.name ≠ entry.name) (relocated : Relocated tree target done host.tree)
    (validMoved : Valid host.tree) {above : List Dirent} (h : Chain tree entry.child (entry :: above))
    (h' : Chain tree entry.parent above) (names : List String) :
    carry nodes host (.rename (vaultPath (namesOf (entry :: above))) ⟨vaultPath (namesOf way), entry.name, names⟩) = some next ↔
      NextTaken tree target way done entry ∧
        next = { host with tree := (host.tree.eraseEntry entry).insertEntry (entry.into target) } := by
  have fresh : entry ∉ done := fun mem => apart entry mem rfl
  have storable := storable_namesOf valid h
  rw [namesOf_cons] at storable
  have storable' : ∀ other ∈ namesOf way ++ [entry.name], Storable other := by
    intro other mem
    obtain old | new := List.mem_append.mp mem
    · exact storable_namesOf valid up other old
    · exact storable other (List.mem_append_right _ new)
  have path : Target.path ⟨vaultPath (namesOf way), entry.name, names⟩ = vaultPath (namesOf way ++ [entry.name]) :=
    childPath_vaultPath (storable_namesOf valid up) entry.name
  have size := utf8ByteSize_chain entry above
  have size' := utf8ByteSize_chain entry way
  rw [namesOf_cons] at size size'
  have source : ∀ place, host.tree.resolveParent (vaultPath (namesOf above ++ [entry.name])) = .ok place ↔
      pathBytes (entry :: above) < maxPathBytes ∧ (∀ step ∈ above, step ∉ done) ∧ place = (entry.parent, entry.name) := by
    intro place
    rw [resolveParent_vaultPath storable, resolveParents_relocated valid movable relocated validMoved h' (valid.parentDir mine.mem),
      size, Prod.ext_iff, and_assoc, Nat.succ_le_iff]
  have goal : ∀ place, host.tree.resolveParent (vaultPath (namesOf way ++ [entry.name])) = .ok place ↔
      pathBytes (entry :: way) < maxPathBytes ∧ place = (target, entry.name) := by
    intro place
    rw [resolveParent_vaultPath storable', resolveParents_relocated valid movable relocated validMoved up isDir,
      size', Prod.ext_iff, Nat.succ_le_iff, and_iff_right (aside_of_movable movable)]
  have order : (∀ step ∈ above, step ∉ done) ↔ ∀ other ∈ done, ¬ Below tree entry.parent other.child := by
    constructor
    · rintro kept other mem ⟨chain, h'', passes⟩
      obtain rfl := h''.unique h'
      obtain ⟨step, inside, same⟩ := List.mem_map.mp passes
      exact kept step inside (valid.childUnique (h'.mem_dirents inside) (movable other mem).mem same ▸ mem)
    · intro none step inside mem
      exact none step mem ⟨above, h', List.mem_map_of_mem inside⟩
  have taken := fun after => @rename_relocated tree host.tree after target way done valid up isDir movable entry mine fresh
    apart relocated validMoved
  rw [namesOf_cons]
  constructor
  · intro carried
    unfold carry Task.step at carried
    dsimp only at carried
    rw [path] at carried
    cases resolved : host.tree.resolveParent (vaultPath (namesOf above ++ [entry.name])) with
    | error _ =>
      rw [resolved] at carried
      cases carried
    | ok place =>
      cases resolved' : host.tree.resolveParent (vaultPath (namesOf way ++ [entry.name])) with
      | error _ =>
        rw [resolved, resolved'] at carried
        cases carried
      | ok place' =>
        obtain ⟨short, kept, rfl⟩ := (source place).mp resolved
        obtain ⟨short', rfl⟩ := (goal place').mp resolved'
        rw [resolved, resolved'] at carried
        obtain ⟨after, renamed, same⟩ := Result.bind_eq_ok.mp (Result.toOption_eq_some carried)
        obtain rfl := Except.ok.inj same
        obtain ⟨vacant, fits, rfl⟩ := (taken after).mp renamed
        exact ⟨⟨order.mp kept, fun chain way' => way'.unique h ▸ short, short', vacant, fits⟩, rfl⟩
  · rintro ⟨ready, rfl⟩
    have renamed := (taken _).mpr ⟨ready.vacant, ready.fits, rfl⟩
    unfold carry Task.step
    dsimp only
    rw [path, (source _).mpr ⟨ready.source _ h, order.mpr ready.order, rfl⟩, (goal _).mpr ⟨ready.place, rfl⟩]
    change (host.apply (.rename entry.parent entry.name target entry.name)).toOption = _
    unfold HostTree.apply
    dsimp only
    rw [renamed]
    rfl

end

/-- The selected entries that are not in the target yet. -/
def movers (tree : DirectoryTree) (target : FileId) (ids : List FileId) : List Dirent :=
  (ids.filterMap tree.entryOf).filter fun entry => entry.parent ≠ target

/-- The renames of a plan, each with the names it took into account. -/
def renames (nodes : List Node) (folder : String) : List String → List Dirent → List Job
  | _, [] => []
  | names, entry :: entries =>
    .rename (pathOf nodes entry.child) ⟨folder, entry.name, names⟩ :: renames nodes folder (names ++ [entry.name]) entries

theorem renames_cons (nodes : List Node) (folder : String) (names : List String) (entry : Dirent) (entries : List Dirent) :
    renames nodes folder names (entry :: entries) =
      .rename (pathOf nodes entry.child) ⟨folder, entry.name, names⟩ :: renames nodes folder (names ++ [entry.name]) entries :=
  rfl

theorem movers_cons (valid : Valid tree) {entry : Dirent} (mem : entry ∈ tree.dirents) (ids : List FileId) :
    movers tree target (entry.child :: ids) =
      if entry.parent = target then movers tree target ids else entry :: movers tree target ids := by
  unfold movers
  rw [List.filterMap_cons, (entryOf_eq_some valid.childUnique).mpr ⟨mem, rfl⟩, List.filter_cons]
  by_cases same : entry.parent = target
  · simp [same]
  · simp [same]

theorem mem_movers (valid : Valid tree) {ids : List FileId} {entry : Dirent} :
    entry ∈ movers tree target ids ↔ entry ∈ tree.dirents ∧ entry.child ∈ ids ∧ entry.parent ≠ target := by
  unfold movers
  rw [List.mem_filter, List.mem_filterMap, decide_eq_true_eq, ← and_assoc]
  refine and_congr_left fun _ => ?_
  constructor
  · rintro ⟨id, mem, found⟩
    obtain ⟨there, rfl⟩ := entryOf_mem found
    exact ⟨there, mem⟩
  · rintro ⟨there, mem⟩
    exact ⟨_, mem, (entryOf_eq_some valid.childUnique).mpr ⟨there, rfl⟩⟩

theorem isDescendant_target (valid : Valid tree) (listed : Listed tree vaultName target) {id : FileId}
    (notRoot : id ≠ tree.expectedRoot) :
    (id = target ∨ isDescendant (walk tree vaultName) target id = true) ↔ Below tree target id := by
  by_cases isRoot : target = tree.expectedRoot
  · subst isRoot
    have alone : isDescendant (walk tree vaultName) tree.expectedRoot id = false := by
      unfold isDescendant
      rw [parentOf_root valid]
      rfl
    rw [alone]
    refine ⟨fun same => absurd (same.resolve_right Bool.false_ne_true) notRoot, ?_⟩
    rintro ⟨chain, h, passes⟩
    obtain rfl := h.unique .root
    cases passes
  · obtain ⟨entry, mem, named, rfl⟩ := entry_of_listed valid listed isRoot
    rw [isDescendant_iff valid mem named listed notRoot, below_entry valid mem named, eq_comm]

section

variable [Lowercase]

theorem taken_eq_false {names : List String} {name : String} :
    taken names name = false ↔ ∀ other ∈ names, lower other ≠ lower name := by
  unfold taken
  simp only [List.any_eq_false, decide_eq_true_eq]

theorem collisionWith_eq_ok {names : List String} {node : Node} :
    collisionWith names node = .ok () ↔ taken names node.name = false := by
  unfold collisionWith
  cases taken names node.name with
  | true => exact ⟨nofun, nofun⟩
  | false => exact ⟨fun _ => rfl, fun _ => rfl⟩

/-- What a selection is checked for, after the names that are taken. -/
structure Checked (tree : DirectoryTree) (target : FileId) (names : List String) (entries : List Dirent) : Prop where
  apart : ∀ entry ∈ entries, ¬ Below tree target entry.child
  free : ∀ entry ∈ entries, ∀ other ∈ names, lower other ≠ lower entry.name
  distinct : entries.Pairwise fun one other => lower one.name ≠ lower other.name

theorem checked_cons {names : List String} {entry : Dirent} {entries : List Dirent} :
    Checked tree target names (entry :: entries) ↔
      ¬ Below tree target entry.child ∧ taken names entry.name = false ∧ Checked tree target (names ++ [entry.name]) entries := by
  rw [taken_eq_false]
  constructor
  · rintro ⟨apart, free, distinct⟩
    obtain ⟨first, distinct⟩ := List.pairwise_cons.mp distinct
    obtain ⟨here, apart⟩ := List.forall_mem_cons.mp apart
    obtain ⟨free', free⟩ := List.forall_mem_cons.mp free
    refine ⟨here, free', apart, fun other mem name nameMem => ?_, distinct⟩
    obtain old | new := List.mem_append.mp nameMem
    · exact free other mem name old
    · rw [List.mem_singleton.mp new]
      exact first other mem
  · rintro ⟨here, free', apart, free, distinct⟩
    refine ⟨List.forall_mem_cons.mpr ⟨here, apart⟩, List.forall_mem_cons.mpr ⟨free', fun other mem name nameMem => ?_⟩,
      List.pairwise_cons.mpr ⟨fun other mem => ?_, distinct⟩⟩
    · exact free other mem name (List.mem_append_left _ nameMem)
    · exact free other mem entry.name (List.mem_append_right _ (List.mem_singleton.mpr rfl))

theorem planMoves_eq_ok (valid : Valid tree) (listed : Listed tree vaultName target) {folder : String} {ids : List FileId}
    {names : List String} {jobs : List Job} :
    planMoves (walk tree vaultName) target folder ids names = .ok jobs ↔
      (∀ id ∈ ids, id ≠ tree.expectedRoot ∧ Listed tree vaultName id) ∧ Checked tree target names (movers tree target ids) ∧
        jobs = renames (walk tree vaultName) folder names (movers tree target ids) := by
  induction ids generalizing names jobs with
  | nil =>
    unfold planMoves
    refine ⟨fun same => ?_, fun known => congrArg Except.ok known.2.2.symm⟩
    obtain rfl := Except.ok.inj same
    exact ⟨by simp, ⟨by simp [movers], by simp [movers], .nil⟩, rfl⟩
  | cons id ids ih =>
    unfold planMoves
    rw [except_bind_ok]
    constructor
    · rintro ⟨node, found, rest⟩
      obtain ⟨nodeMem, rfl⟩ := (requireNode_eq_ok valid).mp found
      cases parent : node.parent with
      | none =>
        rw [parent] at rest
        cases rest
      | some parentId =>
        rw [parent] at rest
        dsimp only at rest
        obtain ⟨none, -⟩ | ⟨entry, mem, named, -, shows⟩ := (projected_walk nodeMem).source
        · rw [none] at parent
          cases parent
        · obtain rfl : entry.parent = parentId := Option.some.inj (shows.2.1.symm.trans parent)
          have notRoot : node.id ≠ tree.expectedRoot := fun isRoot => named ((valid.child_eq_root mem).mp (shows.1 ▸ isRoot))
          have here : node.id ≠ tree.expectedRoot ∧ Listed tree vaultName node.id := ⟨notRoot, List.mem_map_of_mem nodeMem⟩
          rw [shows.1, movers_cons valid mem]
          by_cases inside : entry.parent = target
          · rw [if_pos inside] at rest
            rw [if_pos inside]
            obtain ⟨listed', checked, same⟩ := ih.mp rest
            exact ⟨List.forall_mem_cons.mpr ⟨shows.1 ▸ here, listed'⟩, checked, same⟩
          · rw [if_neg inside] at rest
            rw [if_neg inside]
            rw [shows.1] at notRoot rest
            by_cases below : entry.child = target ∨ isDescendant (walk tree vaultName) target entry.child = true
            · rw [if_pos below] at rest
              cases rest
            · rw [if_neg below] at rest
              obtain ⟨_, free, rest⟩ := except_bind_ok.mp rest
              obtain ⟨later, isLater, same⟩ := except_bind_ok.mp rest
              cases same
              rw [shows.2.2.1] at isLater ⊢
              obtain ⟨listed', checked, same⟩ := ih.mp isLater
              rw [collisionWith_eq_ok, shows.2.2.1] at free
              refine ⟨List.forall_mem_cons.mpr ⟨shows.1 ▸ here, listed'⟩, checked_cons.mpr ⟨?_, free, checked⟩, ?_⟩
              · rwa [isDescendant_target valid listed notRoot] at below
              · rw [renames_cons, ← same, ← shows.1, pathOf_node valid nodeMem]
    · rintro ⟨listed', checked, rfl⟩
      obtain ⟨⟨notRoot, here⟩, others⟩ := List.forall_mem_cons.mp listed'
      obtain ⟨node, nodeMem, rfl⟩ := List.mem_map.mp here
      obtain ⟨-, isRoot⟩ | ⟨entry, mem, named, -, shows⟩ := (projected_walk nodeMem).source
      · exact absurd isRoot notRoot
      · refine ⟨node, (requireNode_eq_ok valid).mpr ⟨nodeMem, rfl⟩, ?_⟩
        rw [shows.2.1]
        dsimp only
        rw [shows.1, movers_cons valid mem] at checked ⊢
        rw [shows.1] at notRoot
        by_cases inside : entry.parent = target
        · rw [if_pos inside] at checked ⊢
          rw [if_pos inside]
          exact ih.mpr ⟨others, checked, rfl⟩
        · rw [if_neg inside] at checked ⊢
          rw [if_neg inside]
          obtain ⟨outside, free, checked⟩ := checked_cons.mp checked
          rw [← isDescendant_target valid listed notRoot] at outside
          rw [if_neg outside]
          refine except_bind_ok.mpr ⟨(), collisionWith_eq_ok.mpr (by rwa [shows.2.2.1]), ?_⟩
          rw [shows.2.2.1]
          refine except_bind_ok.mpr ⟨_, ih.mpr ⟨others, checked, rfl⟩, ?_⟩
          rw [renames_cons, ← shows.1, pathOf_node valid nodeMem]
          rfl

end

theorem requireFolder_eq_ok (valid : Valid tree) {folder : String} :
    requireFolder (walk tree vaultName) target = .ok folder ↔
      Listed tree vaultName target ∧ tree.isDir target = true ∧ folder = pathOf (walk tree vaultName) target := by
  have kind : ∀ node ∈ walk tree vaultName, node.isDir = tree.isDir node.id := by
    intro node mem
    obtain ⟨stack, placed⟩ := placed_walk valid vaultName
    obtain ⟨chain, h, -, -, ends⟩ := placed.nodes node mem
    rw [Bool.eq_iff_iff]
    cases chain with
    | nil =>
      have isRoot : node.id = tree.expectedRoot := by
        generalize node.id = id at h
        cases h
        rfl
      rw [isRoot]
      exact ⟨fun _ => isDir_iff.mpr (.inl rfl), fun _ => ends.2.2⟩
    | cons entry above =>
      obtain ⟨child, -, -, dir⟩ := ends
      have there := h.mem_dirents List.mem_cons_self
      rw [dir]
      constructor
      · intro isDir
        exact isDir_iff.mpr (.inr ⟨entry, there, child.symm, isDir⟩)
      · intro isDir
        generalize node.id = id at h isDir
        cases h with
        | step below found _ => exact holder_isDir valid below isDir found
  unfold requireFolder
  rw [except_bind_ok]
  constructor
  · rintro ⟨node, found, rest⟩
    obtain ⟨mem, rfl⟩ := (requireNode_eq_ok valid).mp found
    split at rest
    · rename_i isDir
      cases rest
      exact ⟨List.mem_map_of_mem mem, (kind node mem).symm.trans isDir, (pathOf_node valid mem).symm⟩
    · cases rest
  · rintro ⟨listed, isDir, rfl⟩
    obtain ⟨node, mem, rfl⟩ := List.mem_map.mp listed
    refine ⟨node, (requireNode_eq_ok valid).mpr ⟨mem, rfl⟩, ?_⟩
    rw [pathOf_node valid mem, if_pos ((kind node mem).trans isDir)]
    rfl

theorem mem_childNames (valid : Valid tree) {name : String} :
    name ∈ childNames (walk tree vaultName) target none ↔ ∃ entry ∈ tree.dirents, entry.name ≠ "" ∧
      entry.parent = target ∧ Listed tree vaultName entry.child ∧ entry.name = name := by
  unfold childNames
  rw [List.mem_map]
  constructor
  · rintro ⟨node, mem, rfl⟩
    obtain ⟨there, isParent, -⟩ := mem_siblings.mp mem
    obtain ⟨none, -⟩ | ⟨entry, entryMem, named, -, shows⟩ := (projected_walk there).source
    · rw [none] at isParent
      cases isParent
    · exact ⟨entry, entryMem, named, Option.some.inj (shows.2.1.symm.trans isParent),
        shows.1 ▸ List.mem_map_of_mem there, shows.2.2.1.symm⟩
  · rintro ⟨entry, entryMem, named, rfl, listed, rfl⟩
    obtain ⟨above, -, way⟩ := chain_parent valid entryMem named
    obtain ⟨node, there, shows, -⟩ := node_of_entry valid way listed
    exact ⟨node, mem_siblings.mpr ⟨there, shows.2.1, Option.some_ne_none _⟩, shows.2.2.1⟩

section

variable [Lowercase]

/-- The selections that `move_nodes` accepts. -/
structure Selectable (tree : DirectoryTree) (vaultName : String) (ids : List FileId) (target : FileId) : Prop where
  folder : Listed tree vaultName target ∧ tree.isDir target = true
  listed : ∀ id ∈ ids, id ≠ tree.expectedRoot ∧ Listed tree vaultName id
  apart : ∀ entry ∈ movers tree target ids, ¬ Below tree target entry.child
  free : ∀ entry ∈ movers tree target ids, ∀ other ∈ tree.dirents, other.name ≠ "" → other.parent = target →
    Listed tree vaultName other.child → lower other.name ≠ lower entry.name
  distinct : (movers tree target ids).Pairwise fun one other => lower one.name ≠ lower other.name

theorem plan_move_eq_ok (valid : Valid tree) {ids : List FileId} {jobs : List Job} :
    plan (walk tree vaultName) tree.expectedRoot (.moveNodes ids target) = .ok jobs ↔
      Selectable tree vaultName ids target ∧
        jobs = renames (walk tree vaultName) (pathOf (walk tree vaultName) target)
          (childNames (walk tree vaultName) target none) (movers tree target ids) := by
  unfold plan
  dsimp only
  rw [except_bind_ok]
  constructor
  · rintro ⟨folder, isFolder, planned⟩
    obtain ⟨listed, isDir, rfl⟩ := (requireFolder_eq_ok valid).mp isFolder
    obtain ⟨selected, checked, same⟩ := (planMoves_eq_ok valid listed).mp planned
    refine ⟨⟨⟨listed, isDir⟩, selected, checked.apart, fun entry mem other there named inside here => ?_,
      checked.distinct⟩, same⟩
    exact checked.free entry mem _ ((mem_childNames valid).mpr ⟨other, there, named, inside, here, rfl⟩)
  · rintro ⟨selectable, same⟩
    obtain ⟨listed, isDir⟩ := selectable.folder
    refine ⟨_, (requireFolder_eq_ok valid).mpr ⟨listed, isDir, rfl⟩, ?_⟩
    refine (planMoves_eq_ok valid listed).mpr ⟨selectable.listed, ⟨selectable.apart, fun entry mem name nameMem => ?_,
      selectable.distinct⟩, same⟩
    obtain ⟨other, there, named, inside, here, rfl⟩ := (mem_childNames valid).mp nameMem
    exact selectable.free entry mem other there named inside here

end

theorem forall_split_cons {α : Type} {first : α} {rest : List α} {p : List α → α → Prop} :
    (∀ before item after, first :: rest = before ++ item :: after → p before item) ↔
      p [] first ∧ ∀ before item after, rest = before ++ item :: after → p (first :: before) item := by
  constructor
  · intro all
    exact ⟨all [] first rest rfl, fun before item after split => all (first :: before) item after (by rw [split]; rfl)⟩
  · rintro ⟨here, later⟩ before item after split
    cases before with
    | nil =>
      obtain ⟨rfl, -⟩ := List.cons.inj split
      exact here
    | cons other before =>
      obtain ⟨rfl, rest⟩ := List.cons.inj split
      exact later before item after rest

theorem pairwise_iff_split {α : Type} {r : α → α → Prop} {list : List α} :
    list.Pairwise r ↔ ∀ before item after, list = before ++ item :: after → ∀ other ∈ before, r other item := by
  constructor
  · rintro pairwise before item after rfl other mem
    exact (List.pairwise_append.mp pairwise).2.2 other mem item List.mem_cons_self
  · intro all
    induction list with
    | nil => exact .nil
    | cons first rest ih =>
      obtain ⟨-, later⟩ := forall_split_cons.mp all
      refine List.pairwise_cons.mpr ⟨fun item mem => ?_, ih fun before item after split other inside => ?_⟩
      · obtain ⟨before, after, split⟩ := List.append_of_mem mem
        exact later before item after split first List.mem_cons_self
      · exact later before item after split other (List.mem_cons_of_mem _ inside)

/-- What a plan needs for all of its renames: nothing is moved after what it is in, the paths with their leading slashes
are short enough before and after, and nothing that is not shown has the name at the target. -/
structure Transferable (tree : DirectoryTree) (target : FileId) (entries : List Dirent) : Prop where
  order : entries.Pairwise fun earlier later => ¬ Below tree later.parent earlier.child
  source : ∀ entry ∈ entries, ∀ chain, Chain tree entry.child chain → pathBytes chain < maxPathBytes
  place : ∀ entry ∈ entries, ∀ way, Chain tree target way → pathBytes (entry :: way) < maxPathBytes
  vacant : ∀ entry ∈ entries, tree.entries[direntKey target entry.name]? = none
  fits : ∀ entry ∈ entries, ∀ way, Chain tree target way → Fits tree way entries entry

theorem chain_rest {id : FileId} {front above : List Dirent} {entry : Dirent} (h : Chain tree id (front ++ entry :: above)) :
    Chain tree entry.parent above := by
  induction front generalizing id with
  | nil =>
    cases h with
    | step _ _ above => exact above
  | cons first front ih =>
    cases h with
    | step _ _ above => exact ih above

theorem transferable_iff (up : Chain tree target way) {entries : List Dirent} :
    (∀ before entry after, entries = before ++ entry :: after → NextTaken tree target way before.reverse entry) ↔
      Transferable tree target entries := by
  constructor
  · intro taken
    have each : ∀ entry ∈ entries, ∃ before after, entries = before ++ entry :: after ∧
        NextTaken tree target way before.reverse entry := by
      intro entry mem
      obtain ⟨before, after, split⟩ := List.append_of_mem mem
      exact ⟨before, after, split, taken before entry after split⟩
    refine ⟨pairwise_iff_split.mpr fun before entry after split other mem => ?_, fun entry mem => ?_,
      fun entry mem way' up' => ?_, fun entry mem => ?_, fun entry mem way' up' => ?_⟩
    · exact (taken before entry after split).order other (List.mem_reverse.mpr mem)
    · obtain ⟨_, _, _, next⟩ := each entry mem
      exact next.source
    · obtain ⟨_, _, _, next⟩ := each entry mem
      exact up'.unique up ▸ next.place
    · obtain ⟨_, _, _, next⟩ := each entry mem
      exact next.vacant
    · obtain ⟨before, after, split, next⟩ := each entry mem
      obtain rfl := up'.unique up
      intro id front above h kept
      refine next.fits id front above h fun step inside old => kept step inside ?_
      rw [split]
      exact List.mem_append_left _ (List.mem_reverse.mp old)
  · intro transferable before entry after split
    have mem : entry ∈ entries := by
      rw [split]
      exact List.mem_append_right _ List.mem_cons_self
    refine ⟨fun other inside => ?_, transferable.source entry mem, transferable.place entry mem way up,
      transferable.vacant entry mem, fun id front above h kept => ?_⟩
    · exact pairwise_iff_split.mp transferable.order before entry after split other (List.mem_reverse.mp inside)
    · refine transferable.fits entry mem way up id front above h fun step inside old => ?_
      -- what is inside the entry has been moved before it
      rw [split] at old
      obtain sooner | here := List.mem_append.mp old
      · exact kept step inside (List.mem_reverse.mpr sooner)
      · obtain rfl | later := List.mem_cons.mp here
        · have nodup := h.children_nodup
          rw [List.map_append] at nodup
          exact (List.nodup_append.mp nodup).2.2 _ (List.mem_map_of_mem inside) _
            (List.mem_map_of_mem List.mem_cons_self) rfl
        · obtain ⟨outer, inner, rfl⟩ := List.append_of_mem inside
          have order := transferable.order
          rw [split] at order
          refine (List.pairwise_cons.mp (List.pairwise_append.mp order).2.1).1 step later ?_
          rw [List.append_assoc, List.cons_append] at h
          exact ⟨_, chain_rest h, List.mem_map_of_mem (List.mem_append_right _ List.mem_cons_self)⟩

section

variable [Lowercase]

theorem carryAll_renames (valid : Valid tree) (up : Chain tree target way) (isDir : tree.isDir target = true)
    (listed : Listed tree vaultName target) {entries : List Dirent}
    (mine : ∀ entry ∈ entries, Movable tree target way entry ∧ Listed tree vaultName entry.child)
    (distinct : entries.Pairwise fun one other => one.name ≠ other.name) {done : List Dirent}
    (movable : ∀ other ∈ done, Movable tree target way other)
    (apart : ∀ entry ∈ entries, ∀ other ∈ done, other.name ≠ entry.name) {host : HostTree} (names : List String)
    (relocated : Relocated tree target done host.tree) (validMoved : Valid host.tree) :
    ((∃ final, carryAll (walk tree vaultName) host (renames (walk tree vaultName) (pathOf (walk tree vaultName) target)
        names entries) = (true, final)) ↔
      ∀ before entry after, entries = before ++ entry :: after → NextTaken tree target way (before.reverse ++ done) entry) ∧
    ∀ final, carryAll (walk tree vaultName) host (renames (walk tree vaultName) (pathOf (walk tree vaultName) target)
        names entries) = (true, final) →
      Relocated tree target (entries.reverse ++ done) final.tree ∧ final.bodies = host.bodies := by
  induction entries generalizing done host names with
  | nil =>
    refine ⟨⟨fun _ before entry after split => ?_, fun _ => ⟨host, rfl⟩⟩, ?_⟩
    · exact absurd split.symm (List.append_ne_nil_of_right_ne_nil _ (List.cons_ne_nil _ _))
    · rintro final same
      obtain ⟨-, rfl⟩ := Prod.mk.inj same
      exact ⟨relocated, rfl⟩
  | cons entry entries ih =>
    obtain ⟨⟨own, here⟩, mine⟩ := List.forall_mem_cons.mp mine
    obtain ⟨apart', apart⟩ := List.forall_mem_cons.mp apart
    obtain ⟨first, distinct⟩ := List.pairwise_cons.mp distinct
    obtain ⟨above, h', h⟩ := chain_parent valid own.mem own.named
    have taken := fun next => @carry_rename tree target way done _ (walk tree vaultName) host next valid up isDir movable entry
      own apart' relocated validMoved above h h' names
    have splits := @forall_split_cons Dirent entry entries fun before entry => NextTaken tree target way (before.reverse ++ done) entry
    rw [splits, renames_cons, pathOf_chain valid h here, pathOf_chain valid up listed]
    rw [pathOf_chain valid up listed] at ih
    unfold carryAll
    cases carried : carry (walk tree vaultName) host
        (.rename (vaultPath (namesOf (entry :: above))) ⟨vaultPath (namesOf way), entry.name, names⟩) with
    | none =>
      refine ⟨⟨by simp, fun ready => ?_⟩, by simp⟩
      rw [(taken _).mpr ⟨ready.1, rfl⟩] at carried
      cases carried
    | some next =>
      obtain ⟨ready, rfl⟩ := (taken next).mp carried
      have fresh : entry ∉ done := fun mem => apart' entry mem rfl
      have renamed := (@rename_relocated tree host.tree _ target way done valid up isDir movable entry own fresh apart'
        relocated validMoved).mpr ⟨ready.vacant, ready.fits, rfl⟩
      have vacant := (vacant_iff valid apart' relocated validMoved movable).mpr ready.vacant
      obtain ⟨iff, left⟩ := @ih mine distinct (entry :: done) (List.forall_mem_cons.mpr ⟨own, movable⟩)
        (fun other mem => List.forall_mem_cons.mpr ⟨first other mem, apart other mem⟩)
        { host with tree := (host.tree.eraseEntry entry).insertEntry (entry.into target) } (names ++ [entry.name])
        (relocated_cons valid relocated validMoved own.mem fresh vacant) (valid_rename validMoved renamed)
      have order : ∀ before : List Dirent, (entry :: before).reverse ++ done = before.reverse ++ entry :: done := by
        intro before
        rw [List.reverse_cons, List.append_assoc, List.singleton_append]
      simp only [order, List.reverse_nil, List.nil_append]
      exact ⟨iff.trans (and_iff_right ready).symm, left⟩

/-- `move_nodes` while nobody else acts: whether it succeeds, and what the host has then. -/
def moveNodes (host : HostTree) (vaultName : String) (ids : List FileId) (target : FileId) : Bool × HostTree :=
  match plan (walk host.tree vaultName) host.tree.expectedRoot (.moveNodes ids target) with
  | .ok jobs => carryAll (walk host.tree vaultName) host jobs
  | .error _ => (false, host)

/-- A move of a selection that is accepted succeeds and puts each selected node into the target; one that fails leaves
the tree as it is. -/
structure MovesWhole (host : HostTree) (vaultName : String) (ids : List FileId) (target : FileId) : Prop where
  accepted : ∀ jobs, plan (walk host.tree vaultName) host.tree.expectedRoot (.moveNodes ids target) = .ok jobs →
    (moveNodes host vaultName ids target).1 = true
  moved : (moveNodes host vaultName ids target).1 = true →
    (moveNodes host vaultName ids target).2.tree.expectedRoot = host.tree.expectedRoot ∧
      (moveNodes host vaultName ids target).2.bodies = host.bodies ∧
        ∀ entry, entry ∈ (moveNodes host vaultName ids target).2.tree.dirents ↔
          ∃ old ∈ host.tree.dirents, entry = if old.child ∈ ids then old.into target else old
  unchanged : (moveNodes host vaultName ids target).1 = false → (moveNodes host vaultName ids target).2 = host

omit [Lowercase] in
theorem relocate_movers (valid : Valid tree) {ids : List FileId} {old : Dirent} (mem : old ∈ tree.dirents)
    {entries : List Dirent} (same : ∀ entry, entry ∈ entries ↔ entry ∈ movers tree target ids) :
    relocate target entries old = if old.child ∈ ids then old.into target else old := by
  have moves : old ∈ entries ↔ old.child ∈ ids ∧ old.parent ≠ target := by
    rw [same, mem_movers valid]
    exact and_iff_right mem
  by_cases selected : old.child ∈ ids
  · rw [if_pos selected]
    by_cases inside : old.parent = target
    · rw [relocate_of_not_mem fun moved => (moves.mp moved).2 inside, ← inside]
      rfl
    · exact relocate_of_mem (moves.mpr ⟨selected, inside⟩)
  · rw [if_neg selected]
    exact relocate_of_not_mem fun moved => selected (moves.mp moved).1

theorem moveNodes_selectable {host : HostTree} (valid : Valid host.tree) {ids : List FileId}
    (selectable : Selectable host.tree vaultName ids target) :
    ((moveNodes host vaultName ids target).1 = true ↔ Transferable host.tree target (movers host.tree target ids)) ∧
      ((moveNodes host vaultName ids target).1 = true →
        Relocated host.tree target (movers host.tree target ids).reverse (moveNodes host vaultName ids target).2.tree ∧
          (moveNodes host vaultName ids target).2.bodies = host.bodies) := by
  obtain ⟨listed, isDir⟩ := selectable.folder
  obtain ⟨node, there, isTarget⟩ := List.mem_map.mp listed
  obtain ⟨stack, placed⟩ := placed_walk valid vaultName
  obtain ⟨way, up, -⟩ := placed.nodes node there
  rw [isTarget] at up
  have mine : ∀ entry ∈ movers host.tree target ids, Movable host.tree target way entry ∧ Listed host.tree vaultName entry.child := by
    intro entry mem
    obtain ⟨entryMem, selected, away⟩ := (mem_movers valid).mp mem
    obtain ⟨notRoot, here⟩ := selectable.listed _ selected
    refine ⟨⟨entryMem, fun none => notRoot ((valid.child_eq_root entryMem).mpr none), away, fun inside => ?_⟩, here⟩
    exact selectable.apart entry mem ⟨way, up, List.mem_map_of_mem inside⟩
  have distinct := selectable.distinct.imp fun {one other} different => fun same : one.name = other.name =>
    different (congrArg lower same)
  obtain ⟨taken, left⟩ := @carryAll_renames host.tree vaultName target way _ valid up isDir listed _ mine distinct []
    (List.forall_mem_nil _) (fun _ _ => List.forall_mem_nil _) host (childNames (walk host.tree vaultName) target none)
    (relocated_none _ _) valid
  simp only [List.append_nil] at taken left
  rw [transferable_iff up] at taken
  have result : moveNodes host vaultName ids target = carryAll (walk host.tree vaultName) host
      (renames (walk host.tree vaultName) (pathOf (walk host.tree vaultName) target)
        (childNames (walk host.tree vaultName) target none) (movers host.tree target ids)) := by
    unfold moveNodes
    rw [(plan_move_eq_ok valid).mpr ⟨selectable, rfl⟩]
  rw [result]
  refine ⟨Iff.trans ⟨fun done => ⟨_, Prod.ext done rfl⟩, ?_⟩ taken, fun done => left _ (Prod.ext done rfl)⟩
  rintro ⟨final, done⟩
  rw [done]

theorem transferable_of_whole {host : HostTree} (valid : Valid host.tree) {ids : List FileId}
    (whole : MovesWhole host vaultName ids target) (selectable : Selectable host.tree vaultName ids target) :
    Transferable host.tree target (movers host.tree target ids) :=
  (moveNodes_selectable valid selectable).1.mp (whole.accepted _ ((plan_move_eq_ok valid).mpr ⟨selectable, rfl⟩))

theorem whole_of_transferable {host : HostTree} (valid : Valid host.tree) {ids : List FileId}
    (transferable : Selectable host.tree vaultName ids target → Transferable host.tree target (movers host.tree target ids)) :
    MovesWhole host vaultName ids target := by
  have refused : ¬ Selectable host.tree vaultName ids target → moveNodes host vaultName ids target = (false, host) := by
    intro not
    unfold moveNodes
    cases planned : plan (walk host.tree vaultName) host.tree.expectedRoot (.moveNodes ids target) with
    | error _ => rfl
    | ok jobs => exact absurd ((plan_move_eq_ok valid).mp planned).1 not
  by_cases selectable : Selectable host.tree vaultName ids target
  · obtain ⟨taken, left⟩ := moveNodes_selectable valid selectable
    have done := taken.mpr (transferable selectable)
    refine ⟨fun _ _ => done, fun _ => ?_, fun failed => ?_⟩
    · obtain ⟨relocated, bodies⟩ := left done
      refine ⟨relocated.root, bodies, fun entry => ?_⟩
      rw [relocated.entries]
      refine exists_congr fun old => and_congr_right fun mem => ?_
      rw [relocate_movers valid mem fun entry => List.mem_reverse]
    · rw [done] at failed
      cases failed
  · refine ⟨fun jobs planned => absurd ((plan_move_eq_ok valid).mp planned).1 selectable, fun done => ?_, fun _ => ?_⟩
    · rw [refused selectable] at done
      cases done
    · rw [refused selectable]

/-- A move is all or nothing exactly when the selections it accepts can be moved as a whole. -/
theorem move_whole_iff (host : HostTree) (valid : Valid host.tree) (vaultName : String) (ids : List FileId)
    (target : FileId) : MovesWhole host vaultName ids target ↔
      (Selectable host.tree vaultName ids target → Transferable host.tree target (movers host.tree target ids)) :=
  ⟨transferable_of_whole valid, whole_of_transferable valid⟩

theorem move_rounds {fleet : Fleet} {i : Nat} {ids : List FileId} (valid : Valid fleet.host.tree)
    (idle : fleet.tasks i = ⟨fleet.host.tree, walk fleet.host.tree vaultName, [], none⟩) :
    ∃ n, ((fun fleet => fleet.round i)^[n] (fleet.exec (.begin i (.moveNodes ids target)))).host =
      (moveNodes fleet.host vaultName ids target).2 := by
  unfold moveNodes
  cases planned : plan (walk fleet.host.tree vaultName) fleet.host.tree.expectedRoot (.moveNodes ids target) with
  | error _ =>
    refine ⟨0, ?_⟩
    change (fleet.start i (.moveNodes ids target)).host = fleet.host
    unfold Fleet.start
    rw [idle]
    dsimp only
    rw [planned]
  | ok jobs =>
    have single : ∀ names entries, ∀ job ∈ renames (walk fleet.host.tree vaultName) (pathOf (walk fleet.host.tree vaultName) target)
        names entries, job.Single := by
      intro names entries
      induction entries generalizing names with
      | nil => exact nofun
      | cons entry entries ih => exact List.forall_mem_cons.mpr ⟨trivial, ih _⟩
    obtain ⟨-, rfl⟩ := (plan_move_eq_ok valid).mp planned
    exact ⟨_, command_rounds (single _ _) idle planned⟩

omit [Lowercase] in
theorem pathBytes_append_le (front : List Dirent) (entry : Dirent) (above way : List Dirent) :
    pathBytes (front ++ entry :: way) ≤ pathBytes (front ++ entry :: above) + pathBytes way + 1 := by
  simp only [pathBytes, List.map_append, List.map_cons, List.sum_append, List.sum_cons, List.length_append, List.length_cons]
  omega

omit [Lowercase] in
theorem transferable_of_short (valid : Valid tree)
    (short : ∀ entry ∈ tree.dirents, ∀ chain, Chain tree entry.child chain → pathBytes chain ≤ 2047) {entries : List Dirent}
    (within : ∀ entry ∈ entries, entry ∈ tree.dirents ∧ entry.name ≠ "")
    (order : entries.Pairwise fun earlier later => ¬ Below tree later.parent earlier.child)
    (vacant : ∀ entry ∈ entries, tree.entries[direntKey target entry.name]? = none) : Transferable tree target entries := by
  have every : ∀ {id : FileId} {chain : List Dirent}, Chain tree id chain → pathBytes chain ≤ 2047 := by
    intro id chain h
    cases h with
    | root => decide
    | step below found above =>
      obtain ⟨mem, rfl⟩ := entryOf_mem found
      exact short _ mem _ (.step below found above)
  have limit : maxPathBytes = 4096 := rfl
  refine ⟨order, fun entry mem chain h => ?_, fun entry mem way up => ?_, vacant, fun entry mem way up id front above h _ => ?_⟩
  · have bytes := every h
    omega
  · obtain ⟨there, named⟩ := within entry mem
    obtain ⟨above, -, h⟩ := chain_parent valid there named
    have bytes := every h
    have bytes' := every up
    have sum := pathBytes_append_le [] entry above way
    rw [List.nil_append, List.nil_append] at sum
    omega
  · have bytes := every h
    have bytes' := every up
    have sum := pathBytes_append_le front entry above way
    omega

end

section

private def desk : HostTree :=
  ⟨treeMachine.run [.link ⟨0⟩ "notes" ⟨1⟩ true, .link ⟨1⟩ "x" ⟨2⟩ false, .link ⟨0⟩ "box" ⟨3⟩ true] (DirectoryTree.new ⟨0⟩),
    fun _ => none⟩

private theorem desk_valid : Valid desk.tree := (Reachable.run _ _).valid

private theorem desk_root : desk.tree.expectedRoot = ⟨0⟩ := by decide +kernel

/-- The file, and then the folder that it was in. -/
theorem move_whole_desk : @MovesWhole ⟨id⟩ desk "Vault" [⟨2⟩, ⟨1⟩] ⟨3⟩ := by
  refine (@move_whole_iff ⟨id⟩ desk desk_valid "Vault" [⟨2⟩, ⟨1⟩] ⟨3⟩).mpr fun _ => ?_
  have moves : movers desk.tree ⟨3⟩ [⟨2⟩, ⟨1⟩] = [⟨⟨1⟩, "x", ⟨2⟩, false⟩, ⟨⟨0⟩, "notes", ⟨1⟩, true⟩] := by decide +kernel
  rw [moves]
  refine transferable_of_short desk_valid (fun entry mem chain h => ?_) (by decide +kernel) ?_ (by decide +kernel)
  · have lengths : ∀ entry ∈ desk.tree.dirents, pathLen desk.tree entry.child = .ok 0 ∨ pathLen desk.tree entry.child = .ok 3 ∨
        pathLen desk.tree entry.child = .ok 5 ∨ pathLen desk.tree entry.child = .ok 7 := by decide +kernel
    obtain length | length | length | length := lengths entry mem
    all_goals
      obtain ⟨chain', h', bytes, -⟩ := pathLen_eq_ok.mp length
      rw [h.unique h', ← bytes]
      decide
  · refine List.pairwise_pair.mpr ?_
    rintro ⟨chain, h, passes⟩
    rw [show (⟨0⟩ : FileId) = desk.tree.expectedRoot from desk_root.symm] at h
    obtain rfl := h.unique .root
    cases passes

/-- The folder first: then the path of the file leads nowhere. -/
theorem move_half_applied : ¬ ∀ [Lowercase] (host : HostTree) (vaultName : String) (ids : List FileId) (target : FileId),
    Reachable host.tree → MovesWhole host vaultName ids target := by
  intro always
  have whole := @always ⟨id⟩ desk "Vault" [⟨1⟩, ⟨2⟩] ⟨3⟩ (Reachable.run _ _)
  have shown : ∀ entry ∈ desk.tree.dirents, entry.name ≠ "" → Listed desk.tree "Vault" entry.child := fun _ =>
    listed_of_few desk_valid (by decide +kernel) (by decide +kernel)
  have moves : movers desk.tree ⟨3⟩ [⟨1⟩, ⟨2⟩] = [⟨⟨0⟩, "notes", ⟨1⟩, true⟩, ⟨⟨1⟩, "x", ⟨2⟩, false⟩] := by decide +kernel
  have box : Chain desk.tree ⟨3⟩ [⟨⟨0⟩, "box", ⟨3⟩, true⟩] :=
    .step (by decide +kernel) (by decide +kernel) (desk_root ▸ .root)
  have selectable : @Selectable ⟨id⟩ desk.tree "Vault" [⟨1⟩, ⟨2⟩] ⟨3⟩ := by
    refine @Selectable.mk ⟨id⟩ _ _ _ _ ⟨shown ⟨⟨0⟩, "box", ⟨3⟩, true⟩ (by decide +kernel) (by decide), by decide +kernel⟩
      (fun id mem => ?_) ?_ ?_ ?_
    · obtain rfl | rfl := by simpa using mem
      · exact ⟨by decide +kernel, shown ⟨⟨0⟩, "notes", ⟨1⟩, true⟩ (by decide +kernel) (by decide)⟩
      · exact ⟨by decide +kernel, shown ⟨⟨1⟩, "x", ⟨2⟩, false⟩ (by decide +kernel) (by decide)⟩
    · rintro entry mem ⟨chain, h, passes⟩
      obtain rfl := h.unique box
      exact absurd passes ((by decide +kernel : ∀ entry ∈ movers desk.tree ⟨3⟩ [⟨1⟩, ⟨2⟩], entry.child ∉ [(⟨3⟩ : FileId)]) entry mem)
    · have empty : ∀ other ∈ desk.tree.dirents, other.name ≠ "" → other.parent ≠ ⟨3⟩ := by decide +kernel
      exact fun _ _ other there named inside => absurd inside (empty other there named)
    · rw [moves]
      exact List.pairwise_pair.mpr (show "notes" ≠ "x" by decide)
  have transferable := @transferable_of_whole "Vault" ⟨3⟩ ⟨id⟩ desk desk_valid _ whole selectable
  rw [moves] at transferable
  refine List.pairwise_pair.mp transferable.order ⟨[⟨⟨0⟩, "notes", ⟨1⟩, true⟩], ?_, by decide⟩
  exact .step (by decide +kernel) (by decide +kernel) (desk_root ▸ .root)

end

end QuantumFs.Client
