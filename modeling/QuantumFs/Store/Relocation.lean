import QuantumFs.Store.TreeRun

/-! Renames that take entries of a tree to one directory, each under its own name: what the tree is after some of
them, and when it takes the next. -/
namespace QuantumFs.Store

open Lib

namespace DirectoryTree

variable {tree : DirectoryTree}

theorem isDescendantLoop_of_chain {candidate : FileId} {chain : List Dirent} (h : Chain tree candidate chain)
    {ancestor : FileId} (fuel : Nat) (enough : chain.length < fuel) :
    tree.isDescendantLoop fuel candidate ancestor = true ↔ ancestor ∈ chain.map Dirent.child := by
  induction h generalizing fuel with
  | root =>
    obtain ⟨fuel, rfl⟩ : ∃ n, fuel = n + 1 := ⟨fuel - 1, by omega⟩
    simp [isDescendantLoop]
  | @step child entry rest below found _ ih =>
    obtain ⟨fuel, rfl⟩ : ∃ n, fuel = n + 1 := ⟨fuel - 1, by omega⟩
    rw [List.length_cons] at enough
    have rest := ih fuel (by omega)
    obtain ⟨-, rfl⟩ := entryOf_mem found
    unfold isDescendantLoop
    rw [if_neg below, found, List.map_cons, List.mem_cons]
    by_cases same : entry.child = ancestor
    · simp [same]
    · rw [if_neg same, or_iff_right (Ne.symm same)]
      exact rest

theorem isDescendant_iff_chain {candidate : FileId} {chain : List Dirent} (h : Chain tree candidate chain)
    {ancestor : FileId} : tree.isDescendant candidate ancestor = true ↔ ancestor ∈ chain.map Dirent.child := by
  have few := h.length_le
  exact isDescendantLoop_of_chain h _ (by omega)

end DirectoryTree

def Dirent.into (target : FileId) (entry : Dirent) : Dirent := { entry with parent := target }

/-- Where an entry is after those of `done` have been moved. -/
def relocate (target : FileId) (done : List Dirent) (entry : Dirent) : Dirent :=
  if entry ∈ done then entry.into target else entry

section

variable {target : FileId} {done : List Dirent} {entry : Dirent}

@[simp] theorem into_child : (entry.into target).child = entry.child := rfl
@[simp] theorem into_name : (entry.into target).name = entry.name := rfl

theorem relocate_of_mem (mem : entry ∈ done) : relocate target done entry = entry.into target := if_pos mem

theorem relocate_of_not_mem (other : entry ∉ done) : relocate target done entry = entry := if_neg other

@[simp] theorem relocate_child : (relocate target done entry).child = entry.child := by
  unfold relocate
  split <;> rfl

@[simp] theorem relocate_name : (relocate target done entry).name = entry.name := by
  unfold relocate
  split <;> rfl

@[simp] theorem relocate_isDir : (relocate target done entry).isDir = entry.isDir := by
  unfold relocate
  split <;> rfl

end

namespace DirectoryTree

variable {tree moved next : DirectoryTree} {target : FileId} {way : List Dirent} {done : List Dirent}

/-- The tree after the entries of `done` have been moved. -/
structure Relocated (tree : DirectoryTree) (target : FileId) (done : List Dirent) (moved : DirectoryTree) : Prop where
  root : moved.expectedRoot = tree.expectedRoot
  entries : ∀ entry, entry ∈ moved.dirents ↔ ∃ old ∈ tree.dirents, entry = relocate target done old

theorem relocated_none (tree : DirectoryTree) (target : FileId) : Relocated tree target [] tree := by
  refine ⟨rfl, fun entry => ⟨fun mem => ⟨entry, mem, rfl⟩, ?_⟩⟩
  rintro ⟨old, mem, rfl⟩
  exact mem

namespace Relocated

variable (valid : Valid tree) (relocated : Relocated tree target done moved)

include valid relocated

theorem childUnique {one other : Dirent} (mem : one ∈ moved.dirents) (mem' : other ∈ moved.dirents)
    (same : one.child = other.child) : one = other := by
  obtain ⟨old, there, rfl⟩ := (relocated.entries one).mp mem
  obtain ⟨old', there', rfl⟩ := (relocated.entries other).mp mem'
  rw [relocate_child, relocate_child] at same
  rw [valid.childUnique there there' same]

theorem entryOf {id : FileId} {entry : Dirent} (found : tree.entryOf id = some entry) :
    moved.entryOf id = some (relocate target done entry) := by
  obtain ⟨mem, rfl⟩ := entryOf_mem found
  refine (entryOf_eq_some (relocated.childUnique valid)).mpr ⟨(relocated.entries _).mpr ⟨entry, mem, rfl⟩, ?_⟩
  exact relocate_child

omit valid in
theorem isDir {id : FileId} : moved.isDir id = true ↔ tree.isDir id = true := by
  rw [isDir_iff, isDir_iff, relocated.root]
  refine or_congr_right ⟨?_, ?_⟩
  · rintro ⟨entry, mem, isChild, isDir⟩
    obtain ⟨old, there, rfl⟩ := (relocated.entries entry).mp mem
    exact ⟨old, there, relocate_child.symm.trans isChild, relocate_isDir.symm.trans isDir⟩
  · rintro ⟨old, there, isChild, isDir⟩
    exact ⟨_, (relocated.entries _).mpr ⟨old, there, rfl⟩, relocate_child.trans isChild, relocate_isDir.trans isDir⟩

theorem chain_kept {id : FileId} {chain : List Dirent} (h : Chain tree id chain) (kept : ∀ step ∈ chain, step ∉ done) :
    Chain moved id chain := by
  refine h.congr relocated.root fun entry mem => ?_
  have found := (entryOf_eq_some valid.childUnique).mpr ⟨h.mem_dirents mem, rfl⟩
  rw [relocated.entryOf valid found, found, relocate_of_not_mem (kept entry mem)]

theorem chain_moved (up : Chain tree target way) (aside : ∀ step ∈ way, step ∉ done) {id : FileId}
    {front above : List Dirent} {entry : Dirent} (h : Chain tree id (front ++ entry :: above)) (mem : entry ∈ done)
    (kept : ∀ step ∈ front, step ∉ done) : Chain moved id (front ++ entry.into target :: way) := by
  induction front generalizing id with
  | nil =>
    cases h with
    | step below found _ =>
      refine .step (by rwa [relocated.root]) ?_ (relocated.chain_kept valid up aside)
      rw [relocated.entryOf valid found, relocate_of_mem mem]
  | cons first front ih =>
    cases h with
    | step below found above =>
      refine .step (by rwa [relocated.root]) ?_ (ih above fun step inside => kept step (List.mem_cons_of_mem _ inside))
      rw [relocated.entryOf valid found, relocate_of_not_mem (kept first List.mem_cons_self)]

end Relocated

theorem exists_first {α : Type} (p : α → Prop) (list : List α) :
    (∀ item ∈ list, ¬ p item) ∨ ∃ front item back, list = front ++ item :: back ∧ p item ∧ ∀ other ∈ front, ¬ p other := by
  induction list with
  | nil => exact .inl nofun
  | cons first list ih =>
    by_cases here : p first
    · exact .inr ⟨[], first, list, rfl, here, nofun⟩
    · obtain none | ⟨front, item, back, rfl, holds, before⟩ := ih
      · exact .inl (List.forall_mem_cons.mpr ⟨here, none⟩)
      · exact .inr ⟨first :: front, item, back, rfl, holds, List.forall_mem_cons.mpr ⟨here, before⟩⟩

theorem rename_into_eq_ok (valid : Valid tree) {entry : Dirent} (mem : entry ∈ tree.dirents) (named : entry.name ≠ "")
    (away : entry.parent ≠ target) :
    tree.rename entry.parent entry.name target entry.name = .ok next ↔
      tree.isDir target = true ∧ tree.entries[direntKey target entry.name]? = none ∧
        ¬ (entry.isDir = true ∧ tree.isDescendant target entry.child = true) ∧
          next = (tree.eraseEntry entry).insertEntry (entry.into target) ∧ next.validateGraph = .ok () := by
  have get := (mem_dirents_iff_get valid).mp mem
  have different : direntKey entry.parent entry.name ≠ direntKey target entry.name := fun same =>
    away (direntKey_inj.mp same).1
  simp only [rename, Result.bind_eq_ok, ensure_eq_ok, if_neg different, okOr_eq_ok]
  constructor
  · rintro ⟨_, _, _, _, _, isDir, _, vacant, other, found, _, _, _, outside, _, graph, same⟩
    obtain rfl := Option.some.inj (get.symm.trans found)
    obtain rfl := Except.ok.inj same
    exact ⟨isDir, vacant, outside, rfl, graph⟩
  · rintro ⟨isDir, vacant, outside, rfl, graph⟩
    exact ⟨(), valid.named mem named, (), valid.named mem named, (), isDir, (), vacant, entry, get, (), named, (),
      outside, (), graph, rfl⟩

/-- What moves to the target: not what is there or on the way to it. -/
structure Movable (tree : DirectoryTree) (target : FileId) (way : List Dirent) (entry : Dirent) : Prop where
  mem : entry ∈ tree.dirents
  named : entry.name ≠ ""
  away : entry.parent ≠ target
  aside : entry ∉ way

/-- What is below the entry and has not been moved from there has a path that is short enough at the target. -/
def Fits (tree : DirectoryTree) (way done : List Dirent) (entry : Dirent) : Prop :=
  ∀ id front above, Chain tree id (front ++ entry :: above) → (∀ step ∈ front, step ∉ done) →
    pathBytes (front ++ entry :: way) ≤ maxPathBytes

theorem pathBytes_into (front : List Dirent) (entry : Dirent) (way : List Dirent) :
    pathBytes (front ++ entry.into target :: way) = pathBytes (front ++ entry :: way) := by
  simp [pathBytes]

theorem relocated_cons (valid : Valid tree) (relocated : Relocated tree target done moved) (validMoved : Valid moved)
    {entry : Dirent} (mem : entry ∈ tree.dirents) (fresh : entry ∉ done)
    (vacant : moved.entries[direntKey target entry.name]? = none) :
    Relocated tree target (entry :: done) ((moved.eraseEntry entry).insertEntry (entry.into target)) := by
  have here : entry ∈ moved.dirents := (relocated.entries _).mpr ⟨entry, mem, (relocate_of_not_mem fresh).symm⟩
  have erased : (moved.eraseEntry entry).entries[(entry.into target).key]? = none := by
    unfold eraseEntry
    rw [Map.get_erase]
    split
    · rfl
    · exact vacant
  refine ⟨relocated.root, fun other => ?_⟩
  rw [mem_insertEntry erased, mem_eraseEntry validMoved]
  constructor
  · rintro (rfl | ⟨there, different⟩)
    · exact ⟨entry, mem, (relocate_of_mem List.mem_cons_self).symm⟩
    · obtain ⟨old, oldMem, rfl⟩ := (relocated.entries other).mp there
      refine ⟨old, oldMem, ?_⟩
      have other : old ≠ entry := by
        rintro rfl
        rw [relocate_of_not_mem fresh] at different
        exact different rfl
      unfold relocate
      simp [other]
  · rintro ⟨old, oldMem, rfl⟩
    by_cases same : old = entry
    · subst same
      exact .inl (relocate_of_mem List.mem_cons_self)
    · have kept : relocate target (entry :: done) old = relocate target done old := by
        unfold relocate
        simp [same]
      rw [kept]
      have there : relocate target done old ∈ moved.dirents := (relocated.entries _).mpr ⟨old, oldMem, rfl⟩
      refine .inr ⟨there, fun sameKey => same ?_⟩
      have get := (mem_dirents_iff_get validMoved).mp there
      rw [sameKey, (mem_dirents_iff_get validMoved).mp here] at get
      refine valid.childUnique oldMem mem ?_
      rw [Option.some.inj get, relocate_child]

section

variable (valid : Valid tree) (up : Chain tree target way) (isDir : tree.isDir target = true)
  (movable : ∀ other ∈ done, Movable tree target way other) {entry : Dirent} (mine : Movable tree target way entry)
  (fresh : entry ∉ done) (apart : ∀ other ∈ done, other.name ≠ entry.name)

include movable in
theorem aside_of_movable : ∀ step ∈ way, step ∉ done := fun step inside mem => (movable step mem).aside inside

include valid apart in
theorem vacant_iff (relocated : Relocated tree target done moved) (validMoved : Valid moved)
    (movable : ∀ other ∈ done, Movable tree target way other) :
    moved.entries[direntKey target entry.name]? = none ↔ tree.entries[direntKey target entry.name]? = none := by
  constructor
  · intro vacant
    by_contra some
    obtain ⟨other, found⟩ := Option.ne_none_iff_exists'.mp some
    have mem := mem_dirents.mpr ⟨_, found⟩
    have key := valid.keyed found
    have stays : other ∉ done := fun inside => (movable other inside).away (direntKey_inj.mp key).1.symm
    have there : other ∈ moved.dirents := (relocated.entries _).mpr ⟨other, mem, (relocate_of_not_mem stays).symm⟩
    rw [key, (mem_dirents_iff_get validMoved).mp there] at vacant
    cases vacant
  · intro vacant
    by_contra some
    obtain ⟨other, found⟩ := Option.ne_none_iff_exists'.mp some
    have key := validMoved.keyed found
    obtain ⟨old, mem, rfl⟩ := (relocated.entries other).mp (mem_dirents.mpr ⟨_, found⟩)
    have name : old.name = entry.name := relocate_name.symm.trans (direntKey_inj.mp key).2.symm
    by_cases inside : old ∈ done
    · exact apart old inside name
    · rw [relocate_of_not_mem inside] at key
      rw [key, (mem_dirents_iff_get valid).mp mem] at vacant
      cases vacant

include valid up movable mine fresh in
theorem validateGraph_relocated (relocated : Relocated tree target done moved) (validMoved : Valid moved)
    (isDir : tree.isDir target = true) (relocated' : Relocated tree target (entry :: done) next) :
    next.validateGraph = .ok () ↔ Fits tree way done entry := by
  have aside : ∀ step ∈ way, step ∉ entry :: done := by
    intro step inside mem
    obtain rfl | mem := List.mem_cons.mp mem
    · exact mine.aside inside
    · exact (movable step mem).aside inside
  rw [validateGraph_eq_ok]
  constructor
  · intro graph id front above h kept
    have nodup := h.children_nodup
    have kept' : ∀ step ∈ front, step ∉ entry :: done := by
      intro step inside mem
      obtain rfl | mem := List.mem_cons.mp mem
      · rw [List.map_append] at nodup
        exact (List.nodup_append.mp nodup).2.2 _ (List.mem_map_of_mem inside) _
          (List.mem_map_of_mem List.mem_cons_self) rfl
      · exact kept step inside mem
    have h' := relocated'.chain_moved valid up aside h List.mem_cons_self kept'
    -- the chain starts with the entry of the id, which the graph check has looked at
    obtain ⟨first, rest, whole⟩ : ∃ first rest, front ++ entry.into target :: way = first :: rest := by
      cases front with
      | nil => exact ⟨_, _, rfl⟩
      | cons first front => exact ⟨_, _, rfl⟩
    have mem : first ∈ next.dirents := h'.mem_dirents (by rw [whole]; exact List.mem_cons_self)
    have isChild : first.child = id ∧ id ≠ next.expectedRoot := by
      rw [whole] at h'
      cases h' with
      | step below found _ => exact ⟨(entryOf_mem found).2, below⟩
    have named : first.name ≠ "" := by
      obtain ⟨old, oldMem, rfl⟩ := (relocated'.entries first).mp mem
      rw [relocate_name]
      intro none
      rw [relocate_child, relocated'.root] at isChild
      exact isChild.2 (isChild.1 ▸ (valid.child_eq_root oldMem).mpr none)
    obtain ⟨-, chain, h'', short⟩ := graph first mem named
    rw [isChild.1] at h''
    rw [h''.unique h', pathBytes_into] at short
    exact short
  · intro fits other mem named
    obtain ⟨old, oldMem, rfl⟩ := (relocated'.entries other).mp mem
    constructor
    · rw [relocated'.isDir]
      by_cases inside : old ∈ entry :: done
      · rw [relocate_of_mem inside]
        exact isDir
      · rw [relocate_of_not_mem inside]
        exact valid.parentDir oldMem
    · rw [relocate_child]
      obtain ⟨chain, h, short⟩ := valid.reachable oldMem
      obtain none | ⟨front, first, above, rfl, firstMem, before⟩ := exists_first (· ∈ entry :: done) chain
      · exact ⟨chain, relocated'.chain_kept valid h none, short⟩
      · refine ⟨_, relocated'.chain_moved valid up aside h firstMem before, ?_⟩
        rw [pathBytes_into]
        have before' : ∀ step ∈ front, step ∉ done := fun step inside mem =>
          before step inside (List.mem_cons_of_mem _ mem)
        obtain rfl | firstMem := List.mem_cons.mp firstMem
        · exact fits _ front above h before'
        · -- it was moved before, so the tree before had it at the same place
          obtain ⟨chain', h', short'⟩ := validMoved.reachable ((relocated.entries _).mpr ⟨old, oldMem, rfl⟩)
          rw [relocate_child] at h'
          have same := h'.unique (relocated.chain_moved valid up (aside_of_movable movable) h firstMem before')
          rwa [same, pathBytes_into] at short'

include valid up isDir movable mine fresh apart in
theorem rename_relocated (relocated : Relocated tree target done moved) (validMoved : Valid moved) :
    moved.rename entry.parent entry.name target entry.name = .ok next ↔
      tree.entries[direntKey target entry.name]? = none ∧ Fits tree way done entry ∧
        next = (moved.eraseEntry entry).insertEntry (entry.into target) := by
  have here : entry ∈ moved.dirents := (relocated.entries _).mpr ⟨entry, mine.mem, (relocate_of_not_mem fresh).symm⟩
  rw [rename_into_eq_ok validMoved here mine.named mine.away, relocated.isDir, and_iff_right isDir,
    vacant_iff valid apart relocated validMoved movable]
  refine and_congr_right fun vacant => ?_
  have outside : ¬ (entry.isDir = true ∧ moved.isDescendant target entry.child = true) := by
    rintro ⟨-, below⟩
    have passes := (isDescendant_iff_chain (relocated.chain_kept valid up (aside_of_movable movable))).mp below
    obtain ⟨step, inside, same⟩ := List.mem_map.mp passes
    exact mine.aside (valid.childUnique (up.mem_dirents inside) mine.mem same ▸ inside)
  have relocated' := relocated_cons valid relocated validMoved mine.mem fresh
    ((vacant_iff valid apart relocated validMoved movable).mpr vacant)
  rw [and_iff_right outside, and_comm]
  constructor
  · rintro ⟨graph, rfl⟩
    exact ⟨(validateGraph_relocated valid up movable mine fresh relocated validMoved isDir relocated').mp graph, rfl⟩
  · rintro ⟨fits, rfl⟩
    exact ⟨(validateGraph_relocated valid up movable mine fresh relocated validMoved isDir relocated').mpr fits, rfl⟩

include valid movable in
theorem same_way (relocated : Relocated tree target done moved) (validMoved : Valid moved) {id : FileId}
    {chain : List Dirent} (h : Chain tree id chain) {id' : FileId} {chain' : List Dirent} (h' : Chain moved id' chain')
    (names : chain'.map Dirent.name = chain.map Dirent.name) : id' = id ∧ ∀ step ∈ chain, step ∉ done := by
  induction h generalizing id' chain' with
  | root =>
    cases h' with
    | root => exact ⟨relocated.root, nofun⟩
    | step _ _ _ => cases names
  | @step child entry rest below found above ih =>
    obtain ⟨mem, rfl⟩ := entryOf_mem found
    cases h' with
    | root => cases names
    | @step _ entry' rest' below' found' above' =>
      obtain ⟨mem', rfl⟩ := entryOf_mem found'
      obtain ⟨name, names⟩ := List.cons.inj names
      obtain ⟨parent, kept⟩ := ih above' names
      obtain ⟨old, oldMem, rfl⟩ := (relocated.entries entry').mp mem'
      rw [relocate_name] at name
      have here : ¬ old ∈ done ∧ old = entry := by
        by_cases inside : old ∈ done
        · -- it would stand at the target beside an entry of its name
          rw [relocate_of_mem inside] at mem' parent
          have stays : entry ∉ done := fun inside' => (movable entry inside').away parent.symm
          have there : entry ∈ moved.dirents := (relocated.entries _).mpr ⟨entry, mem, (relocate_of_not_mem stays).symm⟩
          have key : (old.into target).key = entry.key := direntKey_inj.mpr ⟨parent, name⟩
          have get := (mem_dirents_iff_get validMoved).mp mem'
          rw [key, (mem_dirents_iff_get validMoved).mp there] at get
          have same : entry = old.into target := Option.some.inj get
          refine absurd inside (valid.childUnique oldMem mem ?_ ▸ stays)
          rw [same, into_child]
        · rw [relocate_of_not_mem inside] at parent
          have key : old.key = entry.key := direntKey_inj.mpr ⟨parent, name⟩
          have get := (mem_dirents_iff_get valid).mp oldMem
          rw [key, (mem_dirents_iff_get valid).mp mem] at get
          exact ⟨inside, (Option.some.inj get).symm⟩
      obtain ⟨stays, rfl⟩ := here
      exact ⟨relocate_child, List.forall_mem_cons.mpr ⟨stays, kept⟩⟩

end

end DirectoryTree

end QuantumFs.Store
