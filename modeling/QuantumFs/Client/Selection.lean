import QuantumFs.Client.WireTree
import QuantumFs.Client.Alone
import QuantumFs.Lib.LevelOrder

/-! What the lookups of a vault task (`node/vault.rs`, `is_descendant` and `subtree`) say of a tree, when the
nodes are those of the walk. -/
namespace QuantumFs.Client

open Lib Store DirectoryTree

/-- The walk has come to the node. -/
def Listed (tree : DirectoryTree) (vaultName : String) (id : FileId) : Prop := id ∈ (walk tree vaultName).map Node.id

instance (tree : DirectoryTree) (vaultName : String) (id : FileId) : Decidable (Listed tree vaultName id) :=
  inferInstanceAs (Decidable (_ ∈ _))

variable {tree : DirectoryTree} {vaultName : String}

theorem find_node (valid : Valid tree) {node : Node} (mem : node ∈ walk tree vaultName) :
    (walk tree vaultName).find? (·.id = node.id) = some node := by
  cases found : (walk tree vaultName).find? (·.id = node.id) with
  | none =>
    have other := List.find?_eq_none.mp found node mem
    simp at other
  | some other =>
    have same : other.id = node.id := by simpa using List.find?_some found
    have inj := List.inj_on_of_nodup_map (nodup_walk valid vaultName) (List.mem_of_find?_eq_some found) mem same
    rw [inj]

theorem listed_root (tree : DirectoryTree) (vaultName : String) : Listed tree vaultName tree.expectedRoot := by
  have starts := walkLoop_starts tree walkGuard [(tree.expectedRoot, [])] [⟨tree.expectedRoot, none, vaultName, true, "/"⟩]
  exact List.mem_map.mpr ⟨_, starts.subset List.mem_cons_self, rfl⟩

theorem node_of_entry (valid : Valid tree) {entry : Dirent} {above : List Dirent} (way : Chain tree entry.child (entry :: above)) (listed : Listed tree vaultName entry.child) :
    ∃ node ∈ walk tree vaultName, node.Shows entry ∧ node.path = vaultPath (namesOf (entry :: above)) := by
  obtain ⟨node, there, isChild⟩ := List.mem_map.mp listed
  obtain ⟨stack, placed⟩ := placed_walk valid vaultName
  obtain ⟨chain, way', -, path, ends⟩ := placed.nodes node there
  rw [isChild] at way'
  obtain rfl := way'.unique way
  exact ⟨node, there, ends, path⟩

theorem entry_of_listed (valid : Valid tree) {id : FileId} (listed : Listed tree vaultName id)
    (below : id ≠ tree.expectedRoot) : ∃ entry ∈ tree.dirents, entry.name ≠ "" ∧ entry.child = id := by
  obtain ⟨node, there, rfl⟩ := List.mem_map.mp listed
  obtain ⟨stack, placed⟩ := placed_walk valid vaultName
  obtain ⟨chain, way, -⟩ := placed.nodes node there
  generalize node.id = id at way below
  cases way with
  | root => exact absurd rfl below
  | step _ found _ =>
    obtain ⟨mem, rfl⟩ := entryOf_mem found
    exact ⟨_, mem, fun none => below ((valid.child_eq_root mem).mpr none), rfl⟩

theorem find_entry (valid : Valid tree) {entry : Dirent} (mem : entry ∈ tree.dirents) (named : entry.name ≠ "")
    (listed : Listed tree vaultName entry.child) :
    ∃ node, (walk tree vaultName).find? (·.id = entry.child) = some node ∧ node.Shows entry := by
  obtain ⟨above, -, way⟩ := chain_parent valid mem named
  obtain ⟨node, there, shows, -⟩ := node_of_entry valid way listed
  exact ⟨node, shows.1 ▸ find_node valid there, shows⟩

theorem listed_parent (valid : Valid tree) {entry : Dirent} (mem : entry ∈ tree.dirents) (named : entry.name ≠ "")
    (listed : Listed tree vaultName entry.child) : Listed tree vaultName entry.parent := by
  obtain ⟨above, -, way⟩ := chain_parent valid mem named
  obtain ⟨node, there, shows, -⟩ := node_of_entry valid way listed
  obtain ⟨stack, placed⟩ := placed_walk valid vaultName
  exact RollUp.above_mem placed.first there shows.2.1

theorem parentOf_entry (valid : Valid tree) {entry : Dirent} (mem : entry ∈ tree.dirents) (named : entry.name ≠ "")
    (listed : Listed tree vaultName entry.child) : parentOf (walk tree vaultName) entry.child = some entry.parent := by
  obtain ⟨node, found, shows⟩ := find_entry valid mem named listed
  unfold parentOf
  rw [found]
  exact shows.2.1

theorem parentOf_root (valid : Valid tree) : parentOf (walk tree vaultName) tree.expectedRoot = none := by
  obtain ⟨node, there, isRoot⟩ := List.mem_map.mp (listed_root tree vaultName)
  obtain ⟨stack, placed⟩ := placed_walk valid vaultName
  obtain ⟨chain, way, -, -, ends⟩ := placed.nodes node there
  unfold parentOf
  rw [← isRoot, find_node valid there]
  rw [isRoot] at way
  obtain rfl := way.unique .root
  exact ends.1

def pathOf (nodes : List Node) (id : FileId) : String := ((nodes.find? (·.id = id)).map (·.path)).getD ""

theorem pathOf_node (valid : Valid tree) {node : Node} (mem : node ∈ walk tree vaultName) :
    pathOf (walk tree vaultName) node.id = node.path := by
  unfold pathOf
  rw [find_node valid mem]
  rfl

theorem pathOf_chain (valid : Valid tree) {id : FileId} {chain : List Dirent} (h : Chain tree id chain)
    (listed : Listed tree vaultName id) : pathOf (walk tree vaultName) id = vaultPath (namesOf chain) := by
  obtain ⟨node, there, rfl⟩ := List.mem_map.mp listed
  obtain ⟨stack, placed⟩ := placed_walk valid vaultName
  obtain ⟨chain', h', -, path, -⟩ := placed.nodes node there
  rw [pathOf_node valid there, path, h'.unique h]

theorem requireNode_eq_ok (valid : Valid tree) {id : FileId} {node : Node} :
    requireNode (walk tree vaultName) id = .ok node ↔ node ∈ walk tree vaultName ∧ node.id = id := by
  unfold requireNode
  constructor
  · intro found
    split at found
    · rename_i other isNode
      cases found
      exact ⟨List.mem_of_find?_eq_some isNode, by simpa using List.find?_some isNode⟩
    · cases found
  · rintro ⟨mem, rfl⟩
    rw [find_node valid mem]

theorem listed_of_few (valid : Valid tree) (few : folderCount tree ≤ walkGuard)
    (plain : ∀ entry ∈ tree.dirents, isSidecar tree entry = false) {entry : Dirent} (mem : entry ∈ tree.dirents)
    (named : entry.name ≠ "") : Listed tree vaultName entry.child := by
  obtain ⟨node, there, shows⟩ := mem_walk valid few
    (fun other otherMem hidden => absurd (hidden.symm.trans (plain other otherMem)) Bool.noConfusion)
    vaultName mem named (plain entry mem)
  exact List.mem_map.mpr ⟨node, there, shows.1⟩

theorem below_self {id : FileId} {entry : Dirent} {above : List Dirent} (way : Chain tree id (entry :: above)) :
    Below tree id id := by
  refine ⟨_, way, ?_⟩
  cases way with
  | step _ found _ => exact List.mem_map.mpr ⟨entry, List.mem_cons_self, (entryOf_mem found).2⟩

theorem below_entry (valid : Valid tree) {entry : Dirent} (mem : entry ∈ tree.dirents) (named : entry.name ≠ "")
    {other : FileId} : Below tree entry.child other ↔ entry.child = other ∨ Below tree entry.parent other := by
  obtain ⟨above, up, way⟩ := chain_parent valid mem named
  constructor
  · rintro ⟨chain, way', passes⟩
    obtain rfl := way'.unique way
    rw [List.map_cons, List.mem_cons] at passes
    exact passes.imp Eq.symm fun passes => ⟨above, up, passes⟩
  · rintro (rfl | ⟨chain, up', passes⟩)
    · exact below_self way
    · obtain rfl := up'.unique up
      exact ⟨_, way, List.mem_cons_of_mem _ passes⟩

theorem length_chain_le (valid : Valid tree) {id : FileId} {chain : List Dirent} (way : Chain tree id chain)
    (short : pathBytes chain ≤ maxPathBytes) : chain.length ≤ maxPathBytes := by
  have named : ∀ step ∈ chain, 0 < step.name.utf8ByteSize := by
    intro step inside
    have storable := storable_namesOf valid way step.name
      (List.mem_map.mpr ⟨step, List.mem_reverse.mpr inside, rfl⟩)
    refine Nat.pos_of_ne_zero fun none => (storable_iff.mp storable).1.1 ?_
    exact String.utf8ByteSize_eq_zero_iff.mp none
  have sum := List.length_le_sum_of_one_le (chain.map fun step => step.name.utf8ByteSize) fun size mem => by
    obtain ⟨step, inside, rfl⟩ := List.mem_map.mp mem
    exact named step inside
  rw [List.length_map] at sum
  unfold pathBytes at short
  omega

theorem isDescendantLoop_iff (valid : Valid tree) {id : FileId} {chain : List Dirent} (way : Chain tree id chain)
    (listed : Listed tree vaultName id) {other : FileId} (guard : Nat) (enough : chain.length < guard) :
    isDescendantLoop (walk tree vaultName) other guard (some id) = true ↔
      other = tree.expectedRoot ∨ Below tree id other := by
  induction way generalizing guard with
  | root =>
    obtain ⟨guard, rfl⟩ : ∃ n, guard = n + 1 := ⟨guard - 1, by omega⟩
    have alone : ¬ Below tree tree.expectedRoot other := by
      rintro ⟨chain, way, passes⟩
      obtain rfl := way.unique .root
      cases passes
    have last : isDescendantLoop (walk tree vaultName) other guard none = false := by cases guard <;> rfl
    unfold isDescendantLoop
    rw [parentOf_root valid, last]
    simp [alone, eq_comm]
  | @step id entry above below found up ih =>
    obtain ⟨guard, rfl⟩ : ∃ n, guard = n + 1 := ⟨guard - 1, by omega⟩
    rw [List.length_cons] at enough
    obtain ⟨mem, rfl⟩ := entryOf_mem found
    have named : entry.name ≠ "" := fun none => below ((valid.child_eq_root mem).mpr none)
    have rest := ih (listed_parent valid mem named listed) guard (by omega)
    unfold isDescendantLoop
    rw [parentOf_entry valid mem named listed, Bool.or_eq_true, rest, below_entry valid mem named, decide_eq_true_eq]
    tauto

theorem isDescendant_iff (valid : Valid tree) {entry : Dirent} (mem : entry ∈ tree.dirents) (named : entry.name ≠ "")
    (listed : Listed tree vaultName entry.child) {other : FileId} (notRoot : other ≠ tree.expectedRoot) :
    isDescendant (walk tree vaultName) entry.child other = true ↔ Below tree entry.parent other := by
  obtain ⟨above, up, way⟩ := chain_parent valid mem named
  obtain ⟨chain, way', short⟩ := valid.reachable mem
  obtain rfl := way'.unique way
  have few := length_chain_le valid way short
  rw [List.length_cons] at few
  have limit : maxPathBytes = 4096 := rfl
  unfold isDescendant
  rw [parentOf_entry valid mem named listed,
    isDescendantLoop_iff valid up (listed_parent valid mem named listed) 4097 (by omega)]
  exact or_iff_right notRoot

def childIds (nodes : List Node) (folder : FileId) : List FileId :=
  (nodes.filter fun node => node.parent = some folder).map Node.id

theorem subtree_eq_visit (nodes : List Node) (id : FileId) :
    subtree nodes id = LevelOrder.visit (childIds nodes) (nodes.length + 1) 0 [id] := by
  have general : ∀ fuel index out, subtreeLoop nodes fuel index out = LevelOrder.visit (childIds nodes) fuel index out := by
    intro fuel
    induction fuel with
    | zero => exact fun _ _ => rfl
    | succ fuel ih =>
      intro index out
      unfold subtreeLoop LevelOrder.visit
      cases out[index]? with
      | none => rfl
      | some current => exact ih _ _
  exact general _ _ _

theorem mem_childIds (valid : Valid tree) {folder id : FileId} :
    id ∈ childIds (walk tree vaultName) folder ↔
      Listed tree vaultName id ∧ ∃ entry ∈ tree.dirents, entry.name ≠ "" ∧ entry.child = id ∧ entry.parent = folder := by
  unfold childIds
  simp only [List.mem_map, List.mem_filter, decide_eq_true_eq]
  constructor
  · rintro ⟨node, ⟨there, isParent⟩, rfl⟩
    refine ⟨List.mem_map_of_mem there, ?_⟩
    obtain ⟨none, -⟩ | ⟨entry, mem, named, -, shows⟩ := (projected_walk there).source
    · rw [none] at isParent
      cases isParent
    · exact ⟨entry, mem, named, shows.1.symm, Option.some.inj (shows.2.1.symm.trans isParent)⟩
  · rintro ⟨listed, entry, mem, named, rfl, rfl⟩
    obtain ⟨above, -, way⟩ := chain_parent valid mem named
    obtain ⟨node, there, shows, -⟩ := node_of_entry valid way listed
    exact ⟨node, ⟨there, shows.2.1⟩, shows.1⟩

section

variable {top : FileId}

theorem reached_iff (valid : Valid tree) (listed : Listed tree vaultName top) (below : top ≠ tree.expectedRoot) {id : FileId} :
    LevelOrder.Reached (childIds (walk tree vaultName)) top id ↔ Listed tree vaultName id ∧ Below tree id top := by
  constructor
  · intro reached
    induction reached with
    | refl =>
      obtain ⟨entry, mem, named, rfl⟩ := entry_of_listed valid listed below
      exact ⟨listed, (below_entry valid mem named).mpr (.inl rfl)⟩
    | tail _ isChild ih =>
      obtain ⟨here, entry, mem, named, rfl, rfl⟩ := (mem_childIds valid).mp isChild
      exact ⟨here, (below_entry valid mem named).mpr (.inr ih.2)⟩
  · rintro ⟨here, chain, way, passes⟩
    induction way with
    | root => cases passes
    | @step id entry above notRoot found up ih =>
      obtain ⟨mem, rfl⟩ := entryOf_mem found
      have named : entry.name ≠ "" := fun none => notRoot ((valid.child_eq_root mem).mpr none)
      rw [List.map_cons, List.mem_cons] at passes
      obtain rfl | passes := passes
      · exact .refl
      · refine .tail (ih (listed_parent valid mem named here) passes) ?_
        exact (mem_childIds valid).mpr ⟨here, entry, mem, named, rfl, rfl⟩

theorem not_below_parent (valid : Valid tree) {entry : Dirent} (mem : entry ∈ tree.dirents) (named : entry.name ≠ "") :
    ¬ Below tree entry.parent entry.child := by
  obtain ⟨above, up, way⟩ := chain_parent valid mem named
  rintro ⟨chain, up', passes⟩
  obtain rfl := up'.unique up
  exact (List.nodup_cons.mp way.children_nodup).1 passes

theorem rooted_walk (valid : Valid tree) (listed : Listed tree vaultName top) (below : top ≠ tree.expectedRoot) :
    LevelOrder.Rooted (childIds (walk tree vaultName)) top := by
  refine ⟨fun folder => ?_, ?_, ?_⟩
  · exact (nodup_walk valid vaultName).sublist (List.filter_sublist.map _)
  · intro above other low isChild isChild'
    obtain ⟨-, entry, mem, -, rfl, rfl⟩ := (mem_childIds valid).mp isChild
    obtain ⟨-, entry', mem', -, same, rfl⟩ := (mem_childIds valid).mp isChild'
    rw [valid.childUnique mem' mem same]
  · intro above reached isChild
    obtain ⟨-, entry, mem, named, rfl, rfl⟩ := (mem_childIds valid).mp isChild
    exact not_below_parent valid mem named ((reached_iff valid listed below).mp reached).2

theorem listing_subtree (valid : Valid tree) (listed : Listed tree vaultName top) (below : top ≠ tree.expectedRoot) :
    LevelOrder.Listing (childIds (walk tree vaultName)) top (subtree (walk tree vaultName) top) := by
  have size : ((walk tree vaultName).map Node.id).length = (walk tree vaultName).length := List.length_map _
  rw [subtree_eq_visit, ← size]
  refine LevelOrder.listing_visit (rooted_walk valid listed below) fun id reached => ?_
  exact ((reached_iff valid listed below).mp reached).1

theorem mem_subtree (valid : Valid tree) (listed : Listed tree vaultName top) (below : top ≠ tree.expectedRoot) {id : FileId} :
    id ∈ subtree (walk tree vaultName) top ↔ Listed tree vaultName id ∧ Below tree id top :=
  ((listing_subtree valid listed below).mem_iff id).trans (reached_iff valid listed below)

end

end QuantumFs.Client
