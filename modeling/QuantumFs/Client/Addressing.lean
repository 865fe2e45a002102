import QuantumFs.Store.TreeRun
import QuantumFs.Client.Projection

/-! The path of an entry, as the client writes it with a leading slash and as the tree reads it. -/
namespace QuantumFs.Client

open Lib Store DirectoryTree

def joined (names : List String) : List Char := ['/'].intercalate (names.map String.toList)

def relativePath (names : List String) : String := String.ofList (joined names)

/-- What the tree accepts as one component. -/
def Storable (name : String) : Prop := validateName name = .ok ()

instance (name : String) : Decidable (Storable name) := inferInstanceAs (Decidable (_ = _))

theorem storable_iff {name : String} : Storable name ↔
    (name ≠ "" ∧ name ≠ "." ∧ name ≠ "..") ∧ name.utf8ByteSize ≤ maxComponentBytes ∧
      '/' ∉ name.toList ∧ '\\' ∉ name.toList ∧ '\x00' ∉ name.toList ∧ hasDrivePrefix name = false := by
  unfold Storable
  simp only [validateName, Result.bind_eq_ok, ensure_eq_ok, not_or, Bool.not_eq_true]
  constructor
  · rintro ⟨_, a, _, b, c⟩
    exact ⟨a, b, c⟩
  · rintro ⟨a, b, c⟩
    exact ⟨(), a, (), b, c⟩

theorem joined_cons (name : String) {names : List String} (more : names ≠ []) :
    joined (name :: names) = name.toList ++ '/' :: joined names := by
  unfold joined
  rw [List.map_cons, List.intercalate_cons_of_ne_nil (by simpa using more), List.append_assoc]
  rfl

theorem vaultPath_eq {names : List String} (some : names ≠ []) :
    vaultPath names = String.ofList ('/' :: joined names) := by
  unfold vaultPath
  rw [if_neg some]
  congr 1
  induction names with
  | nil => exact absurd rfl some
  | cons name names ih =>
    cases names with
    | nil => simp [joined]
    | cons next names =>
      rw [joined_cons name (List.cons_ne_nil _ _), List.flatMap_cons, ih (List.cons_ne_nil _ _)]
      rfl

theorem splitOn_joined {names : List String} (some : names ≠ []) (storable : ∀ name ∈ names, Storable name) :
    ((joined names).splitOn '/').map String.ofList = names := by
  have plain : ∀ chars ∈ names.map String.toList, '/' ∉ chars := by
    intro chars mem
    obtain ⟨name, isName, rfl⟩ := List.mem_map.mp mem
    exact (storable_iff.mp (storable name isName)).2.2.1
  unfold joined
  rw [List.splitOn_intercalate '/' plain (by simpa using some), List.map_map]
  exact (List.map_congr_left fun name _ => String.ofList_toList).trans (List.map_id _)

theorem joined_splitOn (chars : List Char) :
    joined ((chars.splitOn '/').map String.ofList) = chars := by
  unfold joined
  rw [List.map_map]
  have same : (chars.splitOn '/').map (String.toList ∘ String.ofList) = chars.splitOn '/' :=
    (List.map_congr_left fun part _ => String.toList_ofList).trans (List.map_id _)
  rw [same, List.intercalate_splitOn]

theorem mem_joined {names : List String} {c : Char} (mem : c ∈ joined names) :
    c = '/' ∨ ∃ name ∈ names, c ∈ name.toList := by
  induction names with
  | nil => exact nomatch mem
  | cons name names ih =>
    by_cases last : names = []
    · subst last
      exact .inr ⟨name, List.mem_cons_self, by simpa [joined] using mem⟩
    · rw [joined_cons name last] at mem
      obtain here | slash | later := by simpa only [List.mem_append, List.mem_cons] using mem
      · exact .inr ⟨name, List.mem_cons_self, here⟩
      · exact .inl slash
      · obtain slash | ⟨other, isOther, within⟩ := ih later
        · exact .inl slash
        · exact .inr ⟨other, List.mem_cons_of_mem _ isOther, within⟩

theorem joined_head {names : List String} (present : names ≠ []) (storable : ∀ name ∈ names, Storable name) :
    joined names ≠ [] ∧ (joined names).head? ≠ some '/' ∧ hasDrivePrefix (relativePath names) = false := by
  cases names with
  | nil => exact absurd rfl present
  | cons name names =>
    obtain ⟨⟨notEmpty, -⟩, -, noSlash, -, -, noDrive⟩ := storable_iff.mp (storable name List.mem_cons_self)
    obtain ⟨tail, shape⟩ : ∃ tail, joined (name :: names) = name.toList ++ tail ∧
        (tail = [] ∨ ∃ rest, tail = '/' :: rest) := by
      by_cases last : names = []
      · exact ⟨[], by simp [last, joined], .inl rfl⟩
      · exact ⟨_, joined_cons name last, .inr ⟨_, rfl⟩⟩
    unfold relativePath
    rw [shape.1]
    unfold hasDrivePrefix at noDrive ⊢
    rw [String.toList_ofList]
    cases chars : name.toList with
    | nil => exact absurd (String.toList_eq_nil_iff.mp chars) notEmpty
    | cons first others =>
      rw [chars] at noSlash noDrive
      refine ⟨List.cons_ne_nil _ _, fun same => ?_, ?_⟩
      · exact noSlash (Option.some.inj same ▸ List.mem_cons_self)
      · cases others with
        | cons second others => exact noDrive
        | nil =>
          obtain rfl | ⟨rest, rfl⟩ := shape.2
          · rfl
          · exact Bool.and_false _

def Denotes (path : String) (names : List String) : Prop :=
  path.toList = joined names ∨ path.toList = '/' :: joined names

theorem denotes_storable {path : String} {names : List String} (written : Denotes path names)
    (storable : ∀ name ∈ names, Storable name) : '\x00' ∉ path.toList ∧ '\\' ∉ path.toList := by
  have within : ∀ c ∈ path.toList, c = '/' ∨ ∃ name ∈ names, c ∈ name.toList := by
    intro c mem
    obtain same | same := written
    · exact mem_joined (same ▸ mem)
    · rw [same] at mem
      obtain rfl | mem := List.mem_cons.mp mem
      · exact .inl rfl
      · exact mem_joined mem
  constructor
  · intro mem
    obtain slash | ⟨name, isName, inside⟩ := within _ mem
    · cases slash
    · exact (storable_iff.mp (storable name isName)).2.2.2.2.1 inside
  · intro mem
    obtain slash | ⟨name, isName, inside⟩ := within _ mem
    · cases slash
    · exact (storable_iff.mp (storable name isName)).2.2.2.1 inside

def stripped : List Char → List Char
  | '/' :: rest => rest
  | chars => chars

theorem stripped_or (chars : List Char) : chars = stripped chars ∨ chars = '/' :: stripped chars := by
  unfold stripped
  split
  · exact .inr rfl
  · exact .inl rfl

theorem stripped_of_denotes {path : String} {names : List String} (written : Denotes path names)
    (unslashed : (joined names).head? ≠ some '/') : stripped path.toList = joined names := by
  obtain same | same := written
  · rw [same]
    unfold stripped
    split
    · rename_i slashed
      rw [slashed] at unslashed
      exact absurd rfl unslashed
    · rfl
  · rw [same]
    rfl

theorem pathComponents_def (path : String) : pathComponents path = (do
    ensure (path.utf8ByteSize ≤ maxPathBytes) (.invalidInput "path exceeds 4096 bytes")
    ensure (¬ ('\x00' ∈ path.toList ∨ '\\' ∈ path.toList))
      (.invalidInput "path contains a forbidden character")
    ensure (¬ ((stripped path.toList).head? = some '/' ∨
      hasDrivePrefix (String.ofList (stripped path.toList)) = true)) (.invalidInput "path is not vault-relative")
    if stripped path.toList = [] then
      pure []
    else
      let components := ((stripped path.toList).splitOn '/').map String.ofList
      components.forM validateName
      pure components) := rfl

theorem pathComponents_eq_ok {path : String} {names : List String} (present : names ≠ []) :
    pathComponents path = .ok names ↔
      path.utf8ByteSize ≤ maxPathBytes ∧ (∀ name ∈ names, Storable name) ∧ Denotes path names := by
  rw [pathComponents_def]
  simp only [Result.bind_eq_ok, ensure_eq_ok]
  constructor
  · rintro ⟨_, short, _, _, _, _, read⟩
    split at read
    · cases read
      exact absurd rfl present
    · obtain ⟨_, checked, same⟩ := Result.bind_eq_ok.mp read
      obtain rfl := Except.ok.inj same
      refine ⟨short, Result.forM_eq_ok.mp checked, ?_⟩
      unfold Denotes
      rw [joined_splitOn]
      exact stripped_or path.toList
  · rintro ⟨short, storable, written⟩
    obtain ⟨nonempty, unslashed, noDrive⟩ := joined_head present storable
    obtain ⟨noNul, noBackslash⟩ := denotes_storable written storable
    refine ⟨(), short, (), not_or.mpr ⟨noNul, noBackslash⟩, ?_⟩
    rw [stripped_of_denotes written unslashed]
    refine ⟨(), not_or.mpr ⟨unslashed, Bool.eq_false_iff.mp noDrive⟩, ?_⟩
    rw [if_neg nonempty, splitOn_joined present storable]
    exact Result.bind_eq_ok.mpr ⟨(), Result.forM_eq_ok.mpr storable, rfl⟩

theorem denotes_iff {path : String} {names : List String} (present : names ≠ []) :
    Denotes path names ↔ path = relativePath names ∨ path = vaultPath names := by
  unfold Denotes
  rw [vaultPath_eq present, relativePath, ← String.toList_inj, ← String.toList_inj, String.toList_ofList,
    String.toList_ofList]

def pathLength (names : List String) : Nat :=
  (names.map String.utf8ByteSize).sum + (names.length - 1)

theorem utf8ByteSize_relativePath (names : List String) :
    (relativePath names).utf8ByteSize = pathLength names := by
  unfold relativePath pathLength
  induction names with
  | nil => rfl
  | cons name names ih =>
    by_cases last : names = []
    · subst last
      simp [joined]
    · have some : 0 < names.length := List.length_pos_of_ne_nil last
      rw [joined_cons name last, String.ofList_append, String.utf8ByteSize_append, String.ofList_toList,
        String.ofList_cons, String.utf8ByteSize_append, ih]
      have slash : (String.singleton '/').utf8ByteSize = 1 := by decide
      rw [slash, List.map_cons, List.sum_cons, List.length_cons]
      omega

theorem utf8ByteSize_vaultPath {names : List String} (present : names ≠ []) :
    (vaultPath names).utf8ByteSize = pathLength names + 1 := by
  rw [vaultPath_eq present, String.ofList_cons, String.utf8ByteSize_append]
  have slash : (String.singleton '/').utf8ByteSize = 1 := by decide
  have rest := utf8ByteSize_relativePath names
  unfold relativePath at rest
  rw [slash, rest, Nat.add_comm]

variable {tree : DirectoryTree}

/-- The components of a chain, from the root down. -/
def namesOf (chain : List Dirent) : List String := chain.reverse.map Dirent.name

theorem namesOf_cons (entry : Dirent) (rest : List Dirent) : namesOf (entry :: rest) = namesOf rest ++ [entry.name] := by
  unfold namesOf
  rw [List.reverse_cons, List.map_append]
  rfl

theorem pathLength_namesOf (chain : List Dirent) : pathLength (namesOf chain) = pathBytes chain := by
  unfold pathLength pathBytes namesOf
  rw [List.map_map, List.map_reverse, List.sum_reverse, List.length_map, List.length_reverse]
  rfl

theorem resolveFrom_append (current : FileId) (above : List String) (name : String) :
    tree.resolveFrom current (above ++ [name]) = (do
      let parent ← tree.resolveFrom current above
      let entry ← okOr tree.entries[direntKey parent name]? (.state "path does not exist")
      pure entry.child) := by
  induction above generalizing current with
  | nil => rfl
  | cons first above ih =>
    rw [List.cons_append, resolveFrom, resolveFrom, bind_assoc]
    simp only [ih]

theorem chain_entry (valid : Valid tree) {child : FileId} {entry : Dirent} (found : tree.entryOf child = some entry) :
    tree.entries[direntKey entry.parent entry.name]? = some entry ∧ entry.child = child := by
  obtain ⟨mem, isChild⟩ := entryOf_mem found
  exact ⟨(mem_dirents_iff_get valid).mp mem, isChild⟩

theorem resolveFrom_chain (valid : Valid tree) {child : FileId} {chain : List Dirent}
    (h : Chain tree child chain) : tree.resolveFrom tree.expectedRoot (namesOf chain) = .ok child := by
  induction h with
  | root => rfl
  | step _ found _ ih =>
    obtain ⟨get, isChild⟩ := chain_entry valid found
    rw [namesOf_cons, resolveFrom_append, ih, ← isChild]
    exact Result.bind_eq_ok.mpr ⟨_, rfl, Result.bind_eq_ok.mpr ⟨_, okOr_eq_ok.mpr get, rfl⟩⟩

theorem chain_of_resolveFrom (valid : Valid tree) {names : List String} (named : ∀ name ∈ names, name ≠ "")
    {child : FileId} (resolved : tree.resolveFrom tree.expectedRoot names = .ok child) :
    ∃ chain, Chain tree child chain ∧ names = namesOf chain := by
  induction names using List.reverseRecOn generalizing child with
  | nil =>
    obtain rfl := Except.ok.inj resolved
    exact ⟨[], .root, rfl⟩
  | append_singleton above name ih =>
    rw [resolveFrom_append] at resolved
    obtain ⟨parent, up, resolved⟩ := Result.bind_eq_ok.mp resolved
    obtain ⟨entry, found, same⟩ := Result.bind_eq_ok.mp resolved
    obtain rfl := Except.ok.inj same
    obtain ⟨chain, above, names⟩ := ih (fun other mem => named other (List.mem_append_left _ mem)) up
    have get := okOr_eq_ok.mp found
    have mem := DirectoryTree.mem_dirents.mpr ⟨_, get⟩
    obtain ⟨rfl, rfl⟩ := direntKey_inj.mp (valid.keyed get)
    have below : entry.child ≠ tree.expectedRoot := by
      intro root
      exact named entry.name (List.mem_append_right _ List.mem_cons_self) ((valid.child_eq_root mem).mp root)
    refine ⟨entry :: chain, .step below ?_ above, ?_⟩
    · exact (entryOf_eq_some valid.childUnique).mpr ⟨mem, rfl⟩
    · rw [namesOf_cons, names]

theorem resolveParents_append (current : FileId) (above : List String) (name : String) :
    tree.resolveParents current (above ++ [name]) = (do
      let parent ← tree.resolveParents current above
      let entry ← okOr tree.entries[direntKey parent name]? (.state "parent path does not exist")
      ensure (entry.isDir = true) (.state "path parent is not a directory")
      pure entry.child) := by
  induction above generalizing current with
  | nil => rfl
  | cons first above ih =>
    rw [List.cons_append, resolveParents, resolveParents, bind_assoc]
    simp only [ih, bind_assoc]

theorem resolveParents_chain (valid : Valid tree) {child : FileId} {chain : List Dirent}
    (h : Chain tree child chain) (isDir : tree.isDir child = true) :
    tree.resolveParents tree.expectedRoot (namesOf chain) = .ok child := by
  induction h with
  | root => rfl
  | @step child entry rest below found _ ih =>
    obtain ⟨get, isChild⟩ := chain_entry valid found
    have mem := DirectoryTree.mem_dirents.mpr ⟨_, get⟩
    have directory : entry.isDir = true := by
      obtain root | ⟨other, isOther, sameChild, isDir⟩ := isDir_iff.mp isDir
      · exact absurd root below
      · rwa [valid.childUnique mem isOther (isChild.trans sameChild.symm)]
    rw [namesOf_cons, resolveParents_append, ih (valid.parentDir mem), ← isChild]
    refine Result.bind_eq_ok.mpr ⟨_, rfl, Result.bind_eq_ok.mpr ⟨_, okOr_eq_ok.mpr get, ?_⟩⟩
    exact Result.bind_eq_ok.mpr ⟨(), ensure_eq_ok.mpr directory, rfl⟩

theorem resolveFrom_of_resolveParents {names : List String} {current last : FileId}
    (found : tree.resolveParents current names = .ok last) : tree.resolveFrom current names = .ok last := by
  induction names generalizing current with
  | nil => exact found
  | cons name names ih =>
    simp only [resolveParents, Result.bind_eq_ok, okOr_eq_ok] at found
    obtain ⟨entry, here, _, _, found⟩ := found
    exact Result.bind_eq_ok.mpr ⟨entry, okOr_eq_ok.mpr here, ih found⟩

theorem names_of_namesOf {chain chain' : List Dirent} (same : namesOf chain' = namesOf chain) :
    chain'.map Dirent.name = chain.map Dirent.name := by
  unfold namesOf at same
  rw [List.map_reverse, List.map_reverse] at same
  exact List.reverse_injective same

theorem resolveParent_vaultPath {names : List String} {name : String} (storable : ∀ other ∈ names ++ [name], Storable other)
    {place : FileId × String} : tree.resolveParent (vaultPath (names ++ [name])) = .ok place ↔
      (vaultPath (names ++ [name])).utf8ByteSize ≤ maxPathBytes ∧
        tree.resolveParents tree.expectedRoot names = .ok place.1 ∧ place.2 = name := by
  have present : names ++ [name] ≠ [] := List.append_ne_nil_of_right_ne_nil _ (List.cons_ne_nil _ _)
  unfold resolveParent
  constructor
  · intro resolved
    obtain ⟨components, read, resolved⟩ := Result.bind_eq_ok.mp resolved
    obtain ⟨last, isLast, resolved⟩ := Result.bind_eq_ok.mp resolved
    obtain ⟨folder, parents, same⟩ := Result.bind_eq_ok.mp resolved
    obtain rfl := Except.ok.inj same
    have some : components ≠ [] := by
      rintro rfl
      cases okOr_eq_ok.mp isLast
    obtain ⟨short, -⟩ := (pathComponents_eq_ok some).mp read
    have own := (pathComponents_eq_ok present).mpr ⟨short, storable, (denotes_iff present).mpr (.inr rfl)⟩
    obtain rfl := Except.ok.inj (read.symm.trans own)
    rw [List.dropLast_concat] at parents
    rw [List.getLast?_concat] at isLast
    exact ⟨short, parents, (Option.some.inj (okOr_eq_ok.mp isLast)).symm⟩
  · rintro ⟨short, parents, last⟩
    have own := (pathComponents_eq_ok present).mpr ⟨short, storable, (denotes_iff present).mpr (.inr rfl)⟩
    rw [own]
    refine Result.bind_eq_ok.mpr ⟨_, rfl, Result.bind_eq_ok.mpr ⟨name, ?_, ?_⟩⟩
    · rw [List.getLast?_concat]
      rfl
    · rw [List.dropLast_concat, parents, ← last]
      rfl

/-- A tree after any calls, whether it started empty or was loaded. -/
inductive Reachable : DirectoryTree → Prop
  | new (root : FileId) : Reachable (DirectoryTree.new root)
  | loaded {root : FileId} {entries : List Dirent} {tree : DirectoryTree} :
      fromDirents root entries = .ok tree → Reachable tree
  | performed {tree : DirectoryTree} (op : TreeOp) : Reachable tree → Reachable (op.perform tree).2

theorem Reachable.valid (reachable : Reachable tree) : Valid tree := by
  induction reachable with
  | new root => exact valid_new root
  | @loaded root entries tree loaded =>
    by_cases none : entries = []
    · unfold fromDirents at loaded
      rw [if_pos none] at loaded
      exact Except.ok.inj loaded ▸ valid_new root
    · exact (valid_of_fromDirents none loaded).1
  | performed op _ ih => exact (perform_valid ih op).1

theorem Reachable.run (root : FileId) (ops : List TreeOp) : Reachable (treeMachine.run ops (DirectoryTree.new root)) := by
  refine treeMachine.run_invariant (I := Reachable) (fun tree op known => ?_) ops _ (.new root)
  exact .performed op known

/-- Both of its paths lead to an entry, no other one does, and they name where it is. -/
structure Addressable (tree : DirectoryTree) (entry : Dirent) (names : List String) : Prop where
  resolves : ∀ path, tree.resolve path = .ok entry.child ↔ path = relativePath names ∨ path = vaultPath names
  parent : ∀ path, path = relativePath names ∨ path = vaultPath names →
    tree.resolveParent path = .ok (entry.parent, entry.name)

section

variable {entry : Dirent} {chain : List Dirent}

theorem storable_namesOf (valid : Valid tree) {child : FileId} (h : Chain tree child chain) :
    ∀ name ∈ namesOf chain, Storable name := by
  induction h with
  | root => exact nofun
  | @step child entry rest below found _ ih =>
    intro name mem
    rw [namesOf_cons] at mem
    obtain above | here := List.mem_append.mp mem
    · exact ih name above
    · obtain ⟨isLinked, isChild⟩ := entryOf_mem found
      obtain rfl := List.mem_singleton.mp here
      refine valid.named isLinked fun nameless => below ?_
      rw [← isChild]
      exact (valid.child_eq_root isLinked).mpr nameless

theorem resolve_iff (valid : Valid tree) {child : FileId} (h : Chain tree child chain) (present : namesOf chain ≠ [])
    (path : String) : tree.resolve path = .ok child ↔
      path.utf8ByteSize ≤ maxPathBytes ∧ (path = relativePath (namesOf chain) ∨ path = vaultPath (namesOf chain)) := by
  rw [← denotes_iff present]
  constructor
  · intro resolved
    obtain ⟨components, read, resolved⟩ := Result.bind_eq_ok.mp resolved
    have some : components ≠ [] := by
      rintro rfl
      obtain rfl := Except.ok.inj resolved
      exact present (congrArg namesOf (h.unique .root))
    obtain ⟨short, storable, written⟩ := (pathComponents_eq_ok some).mp read
    obtain ⟨other, h', rfl⟩ := chain_of_resolveFrom valid
      (fun name mem => (storable_iff.mp (storable name mem)).1.1) resolved
    exact ⟨short, h'.unique h ▸ written⟩
  · rintro ⟨short, written⟩
    exact Result.bind_eq_ok.mpr ⟨_, (pathComponents_eq_ok present).mpr ⟨short, storable_namesOf valid h, written⟩,
      resolveFrom_chain valid h⟩

theorem resolveParent_of_denotes (valid : Valid tree) (mem : entry ∈ tree.dirents)
    (h : Chain tree entry.child (entry :: chain)) (above : Chain tree entry.parent chain) {path : String}
    (short : path.utf8ByteSize ≤ maxPathBytes) (written : Denotes path (namesOf (entry :: chain))) :
    tree.resolveParent path = .ok (entry.parent, entry.name) := by
  have storable := storable_namesOf valid h
  rw [namesOf_cons] at storable written
  have present : namesOf chain ++ [entry.name] ≠ [] := List.append_ne_nil_of_right_ne_nil _ (List.cons_ne_nil _ _)
  have read := (pathComponents_eq_ok present).mpr ⟨short, storable, written⟩
  unfold resolveParent
  rw [read]
  change (do
    let name ← okOr (namesOf chain ++ [entry.name]).getLast? (.invalidInput "root has no parent")
    let parent ← tree.resolveParents tree.expectedRoot (namesOf chain ++ [entry.name]).dropLast
    pure (parent, name)) = _
  rw [List.getLast?_concat, List.dropLast_concat, resolveParents_chain valid above (valid.parentDir mem)]
  rfl

theorem addressable_iff {tree : DirectoryTree} (reachable : Reachable tree) {entry : Dirent}
    (mem : entry ∈ tree.dirents) (named : entry.name ≠ "") {chain : List Dirent}
    (h : Chain tree entry.child chain) :
    Addressable tree entry (namesOf chain) ↔ pathBytes chain < maxPathBytes := by
  have valid := reachable.valid
  obtain ⟨rest, rfl, above⟩ := chain_of_entry valid mem named h rfl
  have present : namesOf (entry :: rest) ≠ [] := by
    rw [namesOf_cons]
    exact List.append_ne_nil_of_right_ne_nil _ (List.cons_ne_nil _ _)
  have plain := utf8ByteSize_relativePath (namesOf (entry :: rest))
  have slashed := utf8ByteSize_vaultPath present
  rw [pathLength_namesOf] at plain slashed
  constructor
  · intro addressable
    have short := ((resolve_iff valid h present _).mp ((addressable.resolves _).mpr (.inr rfl))).1
    omega
  · intro short
    have fits : ∀ path, path = relativePath (namesOf (entry :: rest)) ∨ path = vaultPath (namesOf (entry :: rest)) →
        path.utf8ByteSize ≤ maxPathBytes := by
      rintro path (rfl | rfl)
      · omega
      · omega
    refine ⟨fun path => ?_, fun path written => ?_⟩
    · rw [resolve_iff valid h present, and_iff_right_of_imp (fits path)]
    · exact resolveParent_of_denotes valid mem h above (fits path written) ((denotes_iff present).mpr written)

/-- Every linked entry has a path that the limit of the tree admits. The leading slash counts when a
path is read, so an entry is reached unless its path is as long as the limit. -/
theorem linked_entry_addressable {tree : DirectoryTree} (reachable : Reachable tree) {entry : Dirent}
    (mem : entry ∈ tree.dirents) (named : entry.name ≠ "") :
    ∃ chain, Chain tree entry.child chain ∧ pathBytes chain ≤ maxPathBytes ∧
      (Addressable tree entry (namesOf chain) ↔ pathBytes chain < maxPathBytes) := by
  obtain ⟨chain, h, short⟩ := reachable.valid.reachable mem
  exact ⟨chain, h, short, addressable_iff reachable mem named h⟩

end

section

private def nested (sizes : List Nat) : DirectoryTree :=
  treeMachine.run (sizes.zipIdx.map fun (size, level) =>
    .link ⟨Fin.ofNat _ level⟩ (String.ofList (List.replicate size 'a')) ⟨Fin.ofNat _ (level + 1)⟩ true)
    (DirectoryTree.new ⟨0⟩)

private theorem nested_reachable (sizes : List Nat) : Reachable (nested sizes) := Reachable.run _ _

/-- Two directories, one in the other. -/
theorem linked_entry_addressable_nested :
    Addressable (nested [3, 2]) ⟨⟨1⟩, "aa", ⟨2⟩, true⟩ ["aaa", "aa"] := by
  obtain ⟨chain, h, -, reached⟩ := @linked_entry_addressable _ (nested_reachable [3, 2])
    ⟨⟨1⟩, "aa", ⟨2⟩, true⟩ (by decide +kernel) (by decide +kernel)
  have root : (nested [3, 2]).expectedRoot = ⟨0⟩ := by decide +kernel
  have way : Chain (nested [3, 2]) ⟨2⟩ [⟨⟨1⟩, "aa", ⟨2⟩, true⟩, ⟨⟨0⟩, "aaa", ⟨1⟩, true⟩] :=
    .step (by decide +kernel) (by decide +kernel) (.step (by decide +kernel) (by decide +kernel) (root ▸ .root))
  obtain rfl := h.unique way
  exact reached.mpr (by decide +kernel)

/-- Twenty-four directories, one in the other, around an entry whose path has 4096 bytes. -/
theorem linked_entry_unreachable :
    ¬ ∀ tree, Reachable tree → ∀ entry ∈ tree.dirents, entry.name ≠ "" → ∀ chain,
      Chain tree entry.child chain → Addressable tree entry (namesOf chain) := by
  intro always
  obtain ⟨tree, reachable, length⟩ : ∃ tree, Reachable tree ∧ pathLen tree ⟨25⟩ = .ok 4096 :=
    ⟨nested (List.replicate 24 167 ++ [64]), nested_reachable _, by decide +kernel⟩
  obtain ⟨chain, h, bytes, -⟩ := pathLen_eq_ok.mp length
  generalize (⟨25⟩ : FileId) = child at h
  cases h with
  | root => cases bytes
  | @step _ entry rest below found above =>
    obtain ⟨mem, child⟩ := entryOf_mem found
    have h : Chain tree entry.child (entry :: rest) := child.symm ▸ .step below found above
    have named : entry.name ≠ "" := fun same => below (child ▸ (reachable.valid.child_eq_root mem).mpr same)
    have reached := (addressable_iff reachable mem named h).mp (always tree reachable entry mem named _ h)
    exact absurd reached (by rw [← bytes]; decide)

end

end QuantumFs.Client
