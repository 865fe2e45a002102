import QuantumFs.Store.TreeInvariant
import QuantumFs.Lib.Text

/-! What a vault task shows of its replica (`node/vault.rs`, `walk`) and the names it
accepts (`fs_state.rs`). The file with the settings is an entry of the tree like any
other; only the walk leaves it out. -/
namespace QuantumFs.Client

open Lib Store DirectoryTree

def sidecarName : String := ".qfs-meta.json"

def maxNameLength : Nat := 255

def compoundExtensions : List String :=
  ["tar.gz", "tar.bz2", "tar.xz", "d.ts", "min.js", "min.css", "min.map"]

def nameError (name : String) : Option String :=
  if Text.trim name.toList = [] then some "Name can't be empty"
  else if '/' ∈ name.toList ∨ ':' ∈ name.toList ∨ '\\' ∈ name.toList then
    some "Names can't contain / : or \\"
  else if maxNameLength < name.toList.length then some "Name is too long"
  else none

/-- `str::to_lowercase`. -/
class Lowercase where
  lower : String → String

export Lowercase (lower)

def splitName [Lowercase] (name : String) : String × String :=
  let chars := name.toList
  match compoundExtensions.find? fun compound =>
      compound.toList.length + 1 < chars.length && ('.' :: compound.toList).isSuffixOf (lower name).toList with
  | some compound =>
    let cut := chars.length - compound.toList.length - 1
    (String.ofList (chars.take cut), String.ofList (chars.drop (cut + 1)))
  | none =>
    let extension := chars.reverse.takeWhile (· ≠ '.')
    let dot := chars.length - extension.length - 1
    if extension.length < chars.length ∧ 0 < dot ∧ extension ≠ [] then
      (String.ofList (chars.take dot), String.ofList extension.reverse)
    else (name, "")

def joinName (base ext : String) : String := if ext = "" then base else base ++ "." ++ ext

/-- The stem of `stem copy`. -/
def stripCopyWord (text : Text) : Option Text :=
  if text.length < 4 then none
  else
    let head := text.take (text.length - 4)
    if (text.drop (text.length - 4)).map Char.toLower ≠ ['c', 'o', 'p', 'y'] then none
    else if head.getLast?.any Text.isBlank then some (Text.trimEnd head) else none

/-- The stem of `stem copy` or `stem copy n`, and the number. -/
def parseCopySuffix (base : Text) : Option (Text × Option Nat) :=
  let digits := (base.reverse.takeWhile Char.isDigit).reverse
  let head := base.take (base.length - digits.length)
  let numbered := if digits ≠ [] ∧ head.getLast?.any Text.isBlank then
    (stripCopyWord (Text.trimEnd head)).map fun stem => (stem, Text.parseU32 digits) else none
  numbered <|> (stripCopyWord base).map fun stem => (stem, none)

def copyName (root ext : String) (n : Nat) : String :=
  joinName (if n = 1 then root ++ " copy" else root ++ " copy " ++ String.ofList (Text.decimal n)) ext

section

variable [Lowercase]

def taken (existing : List String) (name : String) : Bool := existing.any fun other => lower other = lower name

/-- One more candidate than there are names; with all of them taken the loop goes on. -/
def uniqueNameLoop (existing : List String) (root ext : String) : Nat → Nat → Option String
  | 0, _ => none
  | fuel + 1, n =>
    let n := (n + 1) % 2 ^ 32
    if taken existing (copyName root ext n) then uniqueNameLoop existing root ext fuel n
    else some (copyName root ext n)

/-- A free name after the scheme of the Finder. -/
def uniqueName (existing : List String) (desired : String) : Option String :=
  if taken existing desired then
    let (base, ext) := splitName desired
    let (root, n) := match parseCopySuffix base.toList with
      | some (root, number) => (String.ofList root, number.getD 1)
      | none => (base, 0)
    uniqueNameLoop existing root ext (existing.length + 1) n
  else some desired

theorem uniqueName_free {existing : List String} {desired name : String}
    (h : uniqueName existing desired = some name) : taken existing name = false := by
  have loop : ∀ fuel root ext n, uniqueNameLoop existing root ext fuel n = some name →
      taken existing name = false := by
    intro fuel root ext
    induction fuel with
    | zero =>
      intro n h
      cases h
    | succ fuel ih =>
      intro n h
      unfold uniqueNameLoop at h
      dsimp only at h
      split at h
      · exact ih _ h
      · rename_i free
        cases h
        exact Bool.not_eq_true _ ▸ free
  unfold uniqueName at h
  split at h
  · exact loop _ _ _ _ h
  · rename_i free
    cases h
    exact Bool.not_eq_true _ ▸ free

end

def vaultPath (components : List String) : String :=
  if components = [] then "/" else String.ofList (components.flatMap fun name => '/' :: name.toList)

def childPath (parent name : String) : String :=
  if parent = "/" then String.ofList ('/' :: name.toList)
  else String.ofList (parent.toList.rdropWhile (· = '/') ++ '/' :: name.toList)

def sidecarPath : String := childPath "/" sidecarName

structure Node where
  id : FileId
  parent : Option FileId
  name : String
  isDir : Bool
  path : String
deriving DecidableEq

def walkGuard : Nat := 100000

section

variable (tree : DirectoryTree)

def childrenOf (folder : FileId) : List Dirent :=
  (tree.dirents.filter fun entry => entry.name ≠ "" ∧ entry.parent = folder).mergeSort
    fun a b => a.name ≤ b.name

def isSidecar (entry : Dirent) : Bool := entry.parent = tree.expectedRoot && entry.name = sidecarName

def shownIn (folder : FileId) : List Dirent :=
  (childrenOf tree folder).reverse.filter fun entry => !isSidecar tree entry

def nodeOf (above : List String) (entry : Dirent) : Node where
  id := entry.child
  parent := some entry.parent
  name := entry.name
  isDir := entry.isDir
  path := vaultPath (above ++ [entry.name])

def walkLoop : Nat → List (FileId × List String) → List Node → List Node
  | 0, _, out => out
  | _ + 1, [], out => out
  | guard + 1, (folder, above) :: stack, out =>
    let list := shownIn tree folder
    let folders := (list.filter (·.isDir)).map fun entry => (entry.child, above ++ [entry.name])
    walkLoop guard (folders.reverse ++ stack) (out ++ list.map (nodeOf above))

def walk (vaultName : String) : List Node :=
  walkLoop tree walkGuard [(tree.expectedRoot, [])] [⟨tree.expectedRoot, none, vaultName, true, "/"⟩]

/-- The root counts as one of them. -/
def folderCount : Nat := (tree.dirents.filter (·.isDir)).length

end

variable {tree : DirectoryTree}

def Node.Shows (node : Node) (entry : Dirent) : Prop :=
  node.id = entry.child ∧ node.parent = some entry.parent ∧ node.name = entry.name ∧
    node.isDir = entry.isDir

theorem mem_shownIn {folder : FileId} {entry : Dirent} :
    entry ∈ shownIn tree folder ↔
      entry ∈ tree.dirents ∧ entry.name ≠ "" ∧ entry.parent = folder ∧ isSidecar tree entry = false := by
  unfold shownIn childrenOf
  simp only [List.mem_filter, List.mem_reverse, List.mem_mergeSort, decide_eq_true_eq,
    Bool.not_eq_true', and_assoc]

theorem nodup_shownIn (valid : Valid tree) (folder : FileId) :
    ((shownIn tree folder).map Dirent.child).Nodup := by
  have entries : (shownIn tree folder).Nodup := by
    have dirents : tree.dirents.Nodup :=
      (dirents_sorted valid).imp fun less same => by
        rw [same] at less
        exact lt_irrefl _ less
    refine List.Nodup.filter _ (List.nodup_reverse.mpr ?_)
    exact (List.mergeSort_perm _ _).nodup_iff.mpr (dirents.filter _)
  refine entries.map_on fun a aMem b bMem same => ?_
  exact valid.childUnique (mem_shownIn.mp aMem).1 (mem_shownIn.mp bMem).1 same

/-- How far the walk is: folders it has listed, folders on the stack, and what is shown. -/
structure Walked (tree : DirectoryTree) (listed stack : List FileId) (out : List Node) : Prop where
  nodup : (stack ++ listed).Nodup
  root : tree.expectedRoot ∈ stack ++ listed
  found : ∀ folder ∈ stack ++ listed, folder = tree.expectedRoot ∨
    ∃ entry ∈ tree.dirents, entry.child = folder ∧ entry.isDir = true ∧ entry.parent ∈ listed
  closed : ∀ entry ∈ tree.dirents, entry.name ≠ "" → isSidecar tree entry = false →
    entry.parent ∈ listed →
      (∃ node ∈ out, node.Shows entry) ∧ (entry.isDir = true → entry.child ∈ stack ++ listed)

theorem Walked.length_le (valid : Valid tree) {listed stack : List FileId} {out : List Node}
    (walked : Walked tree listed stack out) : (stack ++ listed).length ≤ folderCount tree := by
  have within : stack ++ listed ⊆ (tree.dirents.filter (·.isDir)).map Dirent.child := by
    intro folder mem
    obtain rfl | ⟨entry, entryMem, rfl, dir, -⟩ := walked.found folder mem
    · exact List.mem_map.mpr ⟨_, List.mem_filter.mpr ⟨rootDirent_mem valid, rfl⟩, rfl⟩
    · exact List.mem_map.mpr ⟨entry, List.mem_filter.mpr ⟨entryMem, dir⟩, rfl⟩
  calc (stack ++ listed).length ≤ ((tree.dirents.filter (·.isDir)).map Dirent.child).length :=
        (walked.nodup.subperm within).length_le
    _ = folderCount tree := List.length_map _

theorem Walked.step (valid : Valid tree) {folder : FileId} {listed stack : List FileId} {out : List Node}
    (walked : Walked tree listed (folder :: stack) out) (above : List String) :
    Walked tree (folder :: listed)
      ((((shownIn tree folder).filter (·.isDir)).map Dirent.child).reverse ++ stack)
      (out ++ (shownIn tree folder).map (nodeOf above)) := by
  have fresh : folder ∉ stack ++ listed := (List.nodup_cons.mp walked.nodup).1
  have moved : ∀ {id : FileId} {pushed : List FileId}, id ∈ folder :: stack ++ listed →
      id ∈ pushed ++ stack ++ folder :: listed := by
    intro id pushed mem
    simp only [List.mem_append, List.mem_cons] at mem ⊢
    tauto
  have pushed : ∀ {id : FileId},
      id ∈ (((shownIn tree folder).filter (·.isDir)).map Dirent.child).reverse ↔
        ∃ entry ∈ shownIn tree folder, entry.isDir = true ∧ entry.child = id := by
    intro id
    simp only [List.mem_reverse, List.mem_map, List.mem_filter, and_assoc]
  refine ⟨?_, moved walked.root, fun id mem => ?_, fun entry mem named shown below => ?_⟩
  · have own : ((((shownIn tree folder).filter (·.isDir)).map Dirent.child).reverse).Nodup := by
      refine List.nodup_reverse.mpr ((nodup_shownIn valid folder).sublist ?_)
      exact List.filter_sublist.map _
    have rest : (stack ++ folder :: listed).Nodup := List.perm_middle.nodup_iff.mpr walked.nodup
    rw [List.append_assoc]
    refine List.nodup_append.mpr ⟨own, rest, fun id pushedMem other otherMem same => ?_⟩
    subst same
    obtain ⟨entry, entryMem, _, rfl⟩ := pushed.mp pushedMem
    obtain ⟨mem, named, parent, _⟩ := mem_shownIn.mp entryMem
    have old : entry.child ∈ folder :: stack ++ listed := List.perm_middle.mem_iff.mp otherMem
    obtain isRoot | ⟨holder, holderMem, same, _, above⟩ := walked.found _ old
    · exact named ((valid.child_eq_root mem).mp isRoot)
    · rw [valid.childUnique holderMem mem same, parent] at above
      exact fresh (List.mem_append_right _ above)
  · simp only [List.mem_append, List.mem_cons] at mem
    obtain (new | old) | rfl | old := mem
    · obtain ⟨entry, entryMem, dir, rfl⟩ := pushed.mp new
      obtain ⟨mem, _, parent, _⟩ := mem_shownIn.mp entryMem
      exact .inr ⟨entry, mem, rfl, dir, parent ▸ List.mem_cons_self⟩
    all_goals
      refine (walked.found _ (by simp [*])).imp_right ?_
      rintro ⟨entry, mem, same, dir, above⟩
      exact ⟨entry, mem, same, dir, List.mem_cons_of_mem _ above⟩
  · obtain here | earlier := List.mem_cons.mp below
    · have listedHere : entry ∈ shownIn tree folder := mem_shownIn.mpr ⟨mem, named, here, shown⟩
      refine ⟨⟨nodeOf above entry, ?_, rfl, rfl, rfl, rfl⟩, fun dir => ?_⟩
      · exact List.mem_append_right _ (List.mem_map_of_mem listedHere)
      · rw [List.append_assoc]
        exact List.mem_append_left _ (pushed.mpr ⟨entry, listedHere, dir, rfl⟩)
    · obtain ⟨⟨node, nodeMem, shows⟩, dirs⟩ := walked.closed entry mem named shown earlier
      exact ⟨⟨node, List.mem_append_left _ nodeMem, shows⟩, fun dir => moved (dirs dir)⟩

theorem walkLoop_lists (valid : Valid tree) (few : folderCount tree ≤ walkGuard) :
    ∀ (guard : Nat) (stack : List (FileId × List String)) (out : List Node) (listed : List FileId),
      Walked tree listed (stack.map Prod.fst) out → listed.length + guard = walkGuard →
        ∃ listed, Walked tree listed [] (walkLoop tree guard stack out) := by
  intro guard
  induction guard with
  | zero =>
    intro stack out listed walked size
    have all := walked.length_le valid
    have empty : stack = [] := by
      rw [List.length_append, List.length_map] at all
      exact List.eq_nil_of_length_eq_zero (by omega)
    subst empty
    exact ⟨listed, walked⟩
  | succ guard ih =>
    intro stack out listed walked size
    cases stack with
    | nil => exact ⟨listed, walked⟩
    | cons top stack =>
      obtain ⟨folder, above⟩ := top
      have step := walked.step valid above
      refine ih _ _ (folder :: listed) ?_ (by rw [List.length_cons]; omega)
      rw [List.map_append, List.map_reverse, List.map_map]
      exact step

/-- No node is shown twice: each comes from a folder that has been listed once. -/
structure Listing (tree : DirectoryTree) (listed : List FileId) (out : List Node) : Prop where
  nodup : (out.map Node.id).Nodup
  source : ∀ node ∈ out, node.id = tree.expectedRoot ∨
    ∃ entry ∈ tree.dirents, entry.child = node.id ∧ entry.parent ∈ listed

theorem Listing.step (valid : Valid tree) {folder : FileId} {listed : List FileId} {out : List Node}
    (listing : Listing tree listed out) (fresh : folder ∉ listed) (above : List String) :
    Listing tree (folder :: listed) (out ++ (shownIn tree folder).map (nodeOf above)) := by
  have ids : ((shownIn tree folder).map (nodeOf above)).map Node.id =
      (shownIn tree folder).map Dirent.child := List.map_map
  refine ⟨?_, fun node mem => ?_⟩
  · rw [List.map_append, ids]
    refine List.nodup_append.mpr ⟨listing.nodup, nodup_shownIn valid folder, ?_⟩
    intro id oldMem other newMem same
    subst same
    obtain ⟨node, nodeMem, rfl⟩ := List.mem_map.mp oldMem
    obtain ⟨entry, entryMem, same⟩ := List.mem_map.mp newMem
    obtain ⟨mem, named, parent, _⟩ := mem_shownIn.mp entryMem
    obtain isRoot | ⟨holder, holderMem, child, above⟩ := listing.source node nodeMem
    · exact named ((valid.child_eq_root mem).mp (same.trans isRoot))
    · rw [valid.childUnique holderMem mem (child.trans same.symm), parent] at above
      exact fresh above
  · obtain old | new := List.mem_append.mp mem
    · refine (listing.source node old).imp_right ?_
      rintro ⟨entry, mem, child, above⟩
      exact ⟨entry, mem, child, List.mem_cons_of_mem _ above⟩
    · obtain ⟨entry, entryMem, rfl⟩ := List.mem_map.mp new
      obtain ⟨mem, _, parent, _⟩ := mem_shownIn.mp entryMem
      exact .inr ⟨entry, mem, rfl, parent ▸ List.mem_cons_self⟩

theorem nodup_walkLoop (valid : Valid tree) :
    ∀ (guard : Nat) (stack : List (FileId × List String)) (out : List Node) (listed : List FileId),
      Walked tree listed (stack.map Prod.fst) out → Listing tree listed out →
        ((walkLoop tree guard stack out).map Node.id).Nodup := by
  intro guard
  induction guard with
  | zero => exact fun _ _ _ _ listing => listing.nodup
  | succ guard ih =>
    intro stack out listed walked listing
    cases stack with
    | nil => exact listing.nodup
    | cons top stack =>
      obtain ⟨folder, above⟩ := top
      have fresh : folder ∉ listed := fun mem =>
        (List.nodup_cons.mp walked.nodup).1 (List.mem_append_right _ mem)
      refine ih _ _ (folder :: listed) ?_ (listing.step valid fresh above)
      rw [List.map_append, List.map_reverse, List.map_map]
      exact walked.step valid above

theorem walked_root (tree : DirectoryTree) (out : List Node) : Walked tree [] [tree.expectedRoot] out := by
  refine ⟨List.nodup_singleton _, List.mem_singleton.mpr rfl, fun folder mem => ?_, nofun⟩
  exact .inl (List.mem_singleton.mp mem)

theorem nodup_walk (valid : Valid tree) (vaultName : String) :
    ((walk tree vaultName).map Node.id).Nodup := by
  refine nodup_walkLoop valid walkGuard _ _ [] (walked_root tree _) ⟨List.nodup_singleton _, ?_⟩
  intro node mem
  obtain rfl := List.mem_singleton.mp mem
  exact .inl rfl

theorem walk_lists (valid : Valid tree) (few : folderCount tree ≤ walkGuard) (vaultName : String) :
    ∃ listed, Walked tree listed [] (walk tree vaultName) :=
  walkLoop_lists valid few walkGuard _ _ [] (walked_root tree _) (Nat.zero_add _)

def Visible (tree : DirectoryTree) (chain : List Dirent) : Prop := ∀ step ∈ chain, isSidecar tree step = false

theorem holder_isDir (valid : Valid tree) {child : FileId} {holder : Dirent} (below : child ≠ tree.expectedRoot)
    (dir : tree.isDir child = true) (found : tree.entryOf child = some holder) : holder.isDir = true := by
  obtain ⟨holderMem, rfl⟩ := entryOf_mem found
  obtain isRoot | ⟨other, otherMem, same, otherDir⟩ := isDir_iff.mp dir
  · exact absurd isRoot below
  · rwa [← valid.childUnique otherMem holderMem same]

theorem listed_of_visible (valid : Valid tree) {listed : List FileId} {out : List Node}
    (walked : Walked tree listed [] out) {child : FileId} {chain : List Dirent} (above : Chain tree child chain)
    (visible : Visible tree chain) (dir : tree.isDir child = true) : child ∈ listed := by
  induction above with
  | root => exact walked.root
  | @step child holder rest below found above ih =>
    have holderDir := holder_isDir valid below dir found
    obtain ⟨holderMem, rfl⟩ := entryOf_mem found
    have holderNamed : holder.name ≠ "" := fun none => below ((valid.child_eq_root holderMem).mpr none)
    have parent := ih (fun step mem => visible step (List.mem_cons_of_mem _ mem)) (valid.parentDir holderMem)
    exact (walked.closed holder holderMem holderNamed (visible holder List.mem_cons_self) parent).2 holderDir

theorem visible_walk (valid : Valid tree) (few : folderCount tree ≤ walkGuard) (vaultName : String) {entry : Dirent}
    (mem : entry ∈ tree.dirents) (named : entry.name ≠ "") {above : List Dirent} (chain : Chain tree entry.parent above)
    (visible : Visible tree (entry :: above)) : ∃ node ∈ walk tree vaultName, node.Shows entry := by
  obtain ⟨listed, walked⟩ := walk_lists valid few vaultName
  have parent := listed_of_visible valid walked chain (fun step mem => visible step (List.mem_cons_of_mem _ mem))
    (valid.parentDir mem)
  exact (walked.closed entry mem named (visible entry List.mem_cons_self) parent).1

theorem chain_dirs (valid : Valid tree) {folder : FileId} {chain : List Dirent} (above : Chain tree folder chain)
    (dir : tree.isDir folder = true) : ∀ step ∈ chain, step.isDir = true := by
  induction above with
  | root => exact fun _ mem => absurd mem List.not_mem_nil
  | @step child holder rest below found above ih =>
    intro step mem
    obtain rfl | mem := List.mem_cons.mp mem
    · exact holder_isDir valid below dir found
    · exact ih (valid.parentDir (entryOf_mem found).1) step mem

theorem chain_of_entry (valid : Valid tree) {entry : Dirent} (mem : entry ∈ tree.dirents) (named : entry.name ≠ "")
    {child : FileId} {chain : List Dirent} (h : Chain tree child chain) (isChild : entry.child = child) :
    ∃ rest, chain = entry :: rest ∧ Chain tree entry.parent rest := by
  cases h with
  | root => exact absurd ((valid.child_eq_root mem).mp isChild) named
  | step _ found above =>
    obtain rfl := Option.some.inj (((entryOf_eq_some valid.childUnique).mpr ⟨mem, isChild⟩).symm.trans found)
    exact ⟨_, rfl, above⟩

theorem chain_parent (valid : Valid tree) {entry : Dirent} (mem : entry ∈ tree.dirents) (named : entry.name ≠ "") :
    ∃ above, Chain tree entry.parent above ∧ Chain tree entry.child (entry :: above) := by
  obtain ⟨chain, way, _⟩ := valid.reachable mem
  obtain ⟨above, rfl, chain⟩ := chain_of_entry valid mem named way rfl
  exact ⟨above, chain, way⟩

theorem mem_walk (valid : Valid tree) (few : folderCount tree ≤ walkGuard)
    (file : ∀ entry ∈ tree.dirents, isSidecar tree entry = true → entry.isDir = false)
    (vaultName : String) {entry : Dirent} (mem : entry ∈ tree.dirents) (named : entry.name ≠ "")
    (shown : isSidecar tree entry = false) :
    ∃ node ∈ walk tree vaultName, node.Shows entry := by
  obtain ⟨above, chain, way⟩ := chain_parent valid mem named
  refine visible_walk valid few vaultName mem named chain fun step inside => ?_
  obtain rfl | held := List.mem_cons.mp inside
  · exact shown
  · have dir := chain_dirs valid chain (valid.parentDir mem) step held
    by_contra hidden
    have isFile := file step (way.mem_dirents inside) (by simpa using hidden)
    rw [isFile] at dir
    cases dir

def Slashed (path : String) : Prop := ∃ rest, path.toList = '/' :: rest

theorem slashed_vaultPath (components : List String) : Slashed (vaultPath components) := by
  unfold vaultPath Slashed
  cases components with
  | nil => exact ⟨[], rfl⟩
  | cons name rest =>
    rw [if_neg (List.cons_ne_nil _ _), String.toList_ofList]
    exact ⟨_, rfl⟩

theorem vaultPath_eq_sidecarPath {components : List String} (h : vaultPath components = sidecarPath) :
    components = [sidecarName] := by
  have chars := congrArg String.toList h
  unfold vaultPath at chars
  cases components with
  | nil => exact absurd chars (by decide)
  | cons name rest =>
    rw [if_neg (List.cons_ne_nil _ _), String.toList_ofList] at chars
    have tail : name.toList ++ rest.flatMap (fun name => '/' :: name.toList) = sidecarName.toList :=
      (List.cons.inj chars).2
    cases rest with
    | nil =>
      rw [List.flatMap_nil, List.append_nil] at tail
      rw [String.toList_injective tail]
    | cons next rest =>
      have slash : '/' ∈ sidecarName.toList := by
        rw [← tail]
        simp
      exact absurd slash (by decide)

/-- What a node of the walk is, and that its path is not the path of the hidden file. -/
structure Projected (tree : DirectoryTree) (node : Node) : Prop where
  source : node.parent = none ∧ node.id = tree.expectedRoot ∨
    ∃ entry ∈ tree.dirents, entry.name ≠ "" ∧ isSidecar tree entry = false ∧ node.Shows entry
  slashed : Slashed node.path
  visible : node.path ≠ sidecarPath

theorem projected_nodeOf {folder : FileId} {above : List String}
    (root : folder ≠ tree.expectedRoot → above ≠ []) {entry : Dirent} (mem : entry ∈ shownIn tree folder) :
    Projected tree (nodeOf above entry) := by
  obtain ⟨mem, named, parent, shown⟩ := mem_shownIn.mp mem
  refine ⟨.inr ⟨entry, mem, named, shown, rfl, rfl, rfl, rfl⟩, slashed_vaultPath _, fun same => ?_⟩
  have only := vaultPath_eq_sidecarPath same
  cases above with
  | nil =>
    have here : folder = tree.expectedRoot := by
      by_contra other
      exact root other rfl
    have hidden : isSidecar tree entry = true := by
      unfold isSidecar
      rw [parent, here, (List.cons.inj only).1]
      simp
    rw [hidden] at shown
    cases shown
  | cons first above => simp at only

theorem projected_walkLoop {guard : Nat} :
    ∀ {stack : List (FileId × List String)} {out : List Node},
      (∀ top ∈ stack, top.1 ≠ tree.expectedRoot → top.2 ≠ []) → (∀ node ∈ out, Projected tree node) →
        ∀ node ∈ walkLoop tree guard stack out, Projected tree node := by
  induction guard with
  | zero => exact fun _ known => known
  | succ guard ih =>
    intro stack out stacked known
    cases stack with
    | nil => exact known
    | cons top stack =>
      obtain ⟨folder, above⟩ := top
      refine ih (fun top mem => ?_) fun node mem => ?_
      · obtain new | old := List.mem_append.mp mem
        · obtain ⟨entry, _, rfl⟩ := List.mem_map.mp (List.mem_reverse.mp new)
          exact fun _ => List.append_ne_nil_of_right_ne_nil _ (List.cons_ne_nil _ _)
        · exact stacked top (List.mem_cons_of_mem _ old)
      · obtain old | new := List.mem_append.mp mem
        · exact known node old
        · obtain ⟨entry, listed, rfl⟩ := List.mem_map.mp new
          exact projected_nodeOf (stacked (folder, above) List.mem_cons_self) listed

theorem projected_walk {vaultName : String} {node : Node} (mem : node ∈ walk tree vaultName) :
    Projected tree node := by
  refine projected_walkLoop (fun top mem => ?_) (fun node mem => ?_) node mem
  · obtain rfl := List.mem_singleton.mp mem
    exact fun other => absurd rfl other
  · obtain rfl := List.mem_singleton.mp mem
    refine ⟨.inl ⟨rfl, rfl⟩, ⟨[], ?_⟩, ?_⟩
    · change "/".toList = ['/']
      decide
    · change "/" ≠ sidecarPath
      decide

theorem resolveParents_root (valid : Valid tree) :
    ∀ {components : List String} {folder : FileId}, (∀ name ∈ components, name ≠ "") →
      tree.resolveParents folder components = .ok tree.expectedRoot →
        components = [] ∧ folder = tree.expectedRoot := by
  intro components
  induction components with
  | nil => exact fun _ h => ⟨rfl, Except.ok.inj h⟩
  | cons name components ih =>
    intro folder named h
    simp only [resolveParents, Result.bind_eq_ok, okOr_eq_ok] at h
    obtain ⟨entry, found, _, _, h⟩ := h
    obtain ⟨_, child⟩ := ih (fun name mem => named name (List.mem_cons_of_mem _ mem)) h
    have key := valid.keyed found
    have nameless := (valid.child_eq_root (mem_dirents.mpr ⟨_, found⟩)).mp child
    rw [← (direntKey_inj.mp key).2] at nameless
    exact absurd nameless (named name List.mem_cons_self)

theorem pathComponents_slashed {path : String} {rest : List Char} (slashed : path.toList = '/' :: rest)
    {components : List String} (h : pathComponents path = .ok components) :
    (∀ name ∈ components, name ≠ "") ∧
      (components = [] ∨ components = (rest.splitOn '/').map String.ofList) := by
  simp only [pathComponents, Result.bind_eq_ok, slashed] at h
  obtain ⟨_, _, _, _, _, _, h⟩ := h
  split at h
  · cases h
    exact ⟨by simp, .inl rfl⟩
  · obtain ⟨_, checked, same⟩ := Result.bind_eq_ok.mp h
    cases same
    refine ⟨fun name mem => ?_, .inr rfl⟩
    exact ne_empty_of_validateName (Result.forM_eq_ok.mp checked name mem)

theorem path_eq_sidecarPath (valid : Valid tree) {path : String} (slashed : Slashed path)
    (h : tree.resolveParent path = .ok (tree.expectedRoot, sidecarName)) : path = sidecarPath := by
  obtain ⟨rest, slashed⟩ := slashed
  simp only [resolveParent, Result.bind_eq_ok, okOr_eq_ok] at h
  obtain ⟨components, split, name, last, parent, parents, same⟩ := h
  cases same
  obtain ⟨named, shape⟩ := pathComponents_slashed slashed split
  obtain ⟨none, _⟩ := resolveParents_root valid
    (fun name mem => named name (List.dropLast_subset _ mem)) parents
  have only : components = [sidecarName] := by
    rw [← List.dropLast_append_getLast? _ last, none]
    rfl
  obtain empty | shape := shape
  · rw [empty] at only
    cases only
  · rw [only] at shape
    have pieces : rest.splitOn '/' = [sidecarName.toList] := by
      cases pieces : rest.splitOn '/' with
      | nil =>
        rw [pieces] at shape
        cases shape
      | cons piece pieces =>
        rw [pieces] at shape
        obtain ⟨first, none⟩ := List.cons.inj shape
        rw [List.map_eq_nil_iff.mp none.symm, first, String.toList_ofList]
    have joined : ['/'].intercalate (rest.splitOn '/') = rest := List.intercalate_splitOn '/'
    rw [pieces] at joined
    refine String.toList_injective ?_
    rw [slashed, ← joined]
    decide

end QuantumFs.Client
