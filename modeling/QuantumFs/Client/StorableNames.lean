import QuantumFs.Client.Addressing
import QuantumFs.Client.UniqueNames

/-! The names that the client accepts or makes up against those that the tree of the host stores
(`name_error` and `unique_name` beside `validate_name`). -/
namespace QuantumFs.Client

open Lib Store DirectoryTree

theorem utf8ByteSize_ofList (text : Text) : (String.ofList text).utf8ByteSize = Text.byteLength text := by
  rw [String.utf8ByteSize_ofList]
  unfold Text.byteLength
  induction text with
  | nil => rfl
  | cons c text ih => simp [ih, Nat.add_comm]

theorem hasDrivePrefix_of_not_mem {name : String} (plain : ':' ∉ name.toList) : hasDrivePrefix name = false := by
  unfold hasDrivePrefix
  split
  · rename_i letter colon rest chars
    rw [chars] at plain
    have other : colon ≠ ':' := fun same => plain (by simp [same])
    rw [beq_false_of_ne other, Bool.and_false]
  · rfl

theorem nameError_eq_none {name : String} : nameError name = none ↔ Text.trim name.toList ≠ [] ∧
    ('/' ∉ name.toList ∧ ':' ∉ name.toList ∧ '\\' ∉ name.toList) ∧ name.toList.length ≤ maxNameLength := by
  unfold nameError
  split
  · rename_i blank
    exact iff_of_false nofun fun kept => kept.1 blank
  · rename_i visible
    split
    · rename_i illegal
      refine iff_of_false nofun fun kept => ?_
      obtain ⟨noSlash, noColon, noBackslash⟩ := kept.2.1
      exact illegal.elim noSlash (Or.rec noColon noBackslash)
    · rename_i legal
      simp only [not_or] at legal
      split
      · rename_i long
        exact iff_of_false nofun fun kept => absurd kept.2.2 (not_le.mpr long)
      · rename_i short
        exact iff_of_true rfl ⟨visible, legal, not_lt.mp short⟩

theorem storable_of_nameError {name : String} (accepted : nameError name = none) :
    Storable name ↔ name ≠ "." ∧ name ≠ ".." ∧ '\x00' ∉ name.toList ∧ name.utf8ByteSize ≤ maxComponentBytes := by
  obtain ⟨visible, ⟨noSlash, noColon, noBackslash⟩, -⟩ := nameError_eq_none.mp accepted
  have notEmpty : name ≠ "" := by
    rintro rfl
    exact visible rfl
  rw [storable_iff]
  simp only [notEmpty, noSlash, noBackslash, hasDrivePrefix_of_not_mem noColon, ne_eq, not_false_eq_true,
    true_and, and_true]
  tauto

section

variable [Lowercase]

/-- What the names of copies start with, and the number they count from. -/
def copyOrigin (desired : String) : String × Nat :=
  match parseCopySuffix (splitName desired).1.toList with
  | some (root, number) => (String.ofList root, number.getD 1)
  | none => ((splitName desired).1, 0)

/-- The name of a copy under a number. -/
def candidate (desired : String) (number : Nat) : String :=
  copyName (copyOrigin desired).1 (splitName desired).2 number

theorem uniqueName_def (existing : List String) (desired : String) :
    uniqueName existing desired = if taken existing desired then
      uniqueNameLoop existing (copyOrigin desired).1 (splitName desired).2 (existing.length + 1)
        (copyOrigin desired).2
    else some desired := by
  unfold uniqueName copyOrigin
  generalize splitName desired = parts
  obtain ⟨base, ext⟩ := parts
  rcases parsed : parseCopySuffix base.toList with _ | ⟨root, number⟩
  · simp only [parsed]
  · simp only [parsed]

theorem uniqueNameLoop_eq_some {existing : List String} {root ext name : String} {fuel n : Nat}
    (h : uniqueNameLoop existing root ext fuel n = some name) :
    ∃ steps, name = copyName root ext ((n + 1 + steps) % 2 ^ 32) ∧ taken existing name = false ∧
      ∀ step < steps, taken existing (copyName root ext ((n + 1 + step) % 2 ^ 32)) = true := by
  induction fuel generalizing n with
  | zero => cases h
  | succ fuel ih =>
    unfold uniqueNameLoop at h
    dsimp only at h
    split at h
    · rename_i isTaken
      obtain ⟨steps, same, free, before⟩ := ih h
      have shift : ∀ step, ((n + 1) % 2 ^ 32 + 1 + step) % 2 ^ 32 = (n + 1 + (step + 1)) % 2 ^ 32 := by
        intro step
        omega
      refine ⟨steps + 1, ?_, free, fun step below => ?_⟩
      · rw [same, shift]
      · cases step with
        | zero => exact isTaken
        | succ step =>
          rw [← shift]
          exact before step (by omega)
    · rename_i free
      cases h
      exact ⟨0, rfl, Bool.not_eq_true _ ▸ free, by simp⟩

omit [Lowercase] in
theorem parseU32_lt {text : Text} {value : Nat} (h : Text.parseU32 text = some value) : value < 2 ^ 32 := by
  unfold Text.parseU32 at h
  simpa using (Option.filter_eq_some_iff.mp h).2

omit [Lowercase] in
theorem parseCopySuffix_lt {base stem : Text} {value : Nat}
    (h : parseCopySuffix base = some (stem, some value)) : value < 2 ^ 32 := by
  unfold parseCopySuffix at h
  dsimp only at h
  obtain numbered | ⟨_, plain⟩ := Option.or_eq_some_iff.mp (Option.or_eq_orElse.trans h)
  · obtain ⟨_, found⟩ := Option.ite_none_right_eq_some.mp numbered
    obtain ⟨_, _, same⟩ := Option.map_eq_some_iff.mp found
    exact parseU32_lt (Prod.mk.inj same).2
  · obtain ⟨_, _, same⟩ := Option.map_eq_some_iff.mp plain
    exact nomatch (Prod.mk.inj same).2

theorem copyOrigin_lt (desired : String) : (copyOrigin desired).2 < 2 ^ 32 := by
  unfold copyOrigin
  split
  · rename_i root number parsed
    cases number with
    | none => exact (by decide : 1 < 2 ^ 32)
    | some value => exact parseCopySuffix_lt parsed
  · exact (by decide : 0 < 2 ^ 32)

theorem splitName_parts (name : String) : (splitName name).1.toList <+: name.toList ∧
    (splitName name).2.toList ⊆ name.toList := by
  unfold splitName
  dsimp only
  split
  · rw [String.toList_ofList, String.toList_ofList]
    exact ⟨List.take_prefix _ _, List.drop_subset _ _⟩
  · split
    · rw [String.toList_ofList, String.toList_ofList]
      refine ⟨List.take_prefix _ _, fun c mem => ?_⟩
      exact List.mem_reverse.mp (List.takeWhile_subset _ (List.mem_reverse.mp mem))
    · exact ⟨List.prefix_refl _, by simp⟩

theorem splitName_undotted {name : String} (plain : '.' ∉ name.toList) (lowered : '.' ∉ (lower name).toList) :
    splitName name = (name, "") := by
  have noCompound : (compoundExtensions.find? fun compound => compound.toList.length + 1 < name.toList.length &&
      ('.' :: compound.toList).isSuffixOf (lower name).toList) = none := by
    refine List.find?_eq_none.mpr fun compound _ ends => ?_
    have suffix := List.isSuffixOf_iff_suffix.mp (Bool.and_eq_true_iff.mp ends).2
    exact lowered (suffix.subset List.mem_cons_self)
  have whole : name.toList.reverse.takeWhile (· ≠ '.') = name.toList.reverse := by
    rw [List.takeWhile_eq_self_iff]
    exact fun c mem => decide_eq_true fun same => plain (same ▸ List.mem_reverse.mp mem)
  unfold splitName
  dsimp only
  rw [noCompound]
  dsimp only
  rw [whole, if_neg fun inside => absurd inside.1 (by simp)]

theorem copyOrigin_begins (desired : String) : (copyOrigin desired).1.toList <+: desired.toList := by
  have base := (splitName_parts desired).1
  unfold copyOrigin
  split
  · rename_i parsed
    rw [String.toList_ofList]
    exact (parseCopySuffix_begins parsed).trans base
  · exact base

omit [Lowercase] in
theorem utf8ByteSize_decimal (n : Nat) : (String.ofList (Text.decimal n)).utf8ByteSize = (Text.decimal n).length := by
  rw [utf8ByteSize_ofList]
  unfold Text.byteLength
  have single : ∀ c ∈ Text.decimal n, c.utf8Size = 1 := by
    intro c mem
    have digit := Nat.isDigit_of_mem_toDigits (by decide) (by decide) mem
    simp only [Char.isDigit, Bool.and_eq_true, decide_eq_true_eq] at digit
    have small : c.val ≤ 0x7f := UInt32.le_trans digit.2 (by decide : '9'.val ≤ 0x7f)
    exact if_pos small
  rw [List.map_congr_left single, List.map_const', List.sum_replicate, smul_eq_mul, mul_one]

def suffixBytes (n : Nat) : Nat := if n = 1 then 5 else 6 + (Text.decimal n).length

omit [Lowercase] in
theorem utf8ByteSize_copyName (root ext : String) (n : Nat) : (copyName root ext n).utf8ByteSize =
    root.utf8ByteSize + suffixBytes n + if ext = "" then 0 else 1 + ext.utf8ByteSize := by
  have stem : (if n = 1 then root ++ " copy" else
      root ++ " copy " ++ String.ofList (Text.decimal n)).utf8ByteSize = root.utf8ByteSize + suffixBytes n := by
    unfold suffixBytes
    split
    · rw [String.utf8ByteSize_append]
      rfl
    · rw [String.utf8ByteSize_append, String.utf8ByteSize_append, utf8ByteSize_decimal, Nat.add_assoc]
      rfl
  unfold copyName joinName
  split
  · exact stem
  · rw [String.utf8ByteSize_append, String.utf8ByteSize_append, stem, Nat.add_assoc]
    rfl

omit [Lowercase] in
theorem suffixBytes_mono {n m : Nat} (positive : 0 < n) (le : n ≤ m) : suffixBytes n ≤ suffixBytes m := by
  have length : (Text.decimal n).length ≤ (Text.decimal m).length :=
    (Nat.length_toDigits_le_iff (by decide) Nat.length_toDigits_pos).mpr
      (lt_of_le_of_lt le ((Nat.length_toDigits_le_iff (by decide) Nat.length_toDigits_pos).mp le_rfl))
  unfold suffixBytes
  split
  · split <;> omega
  · rename_i notOne
    rw [if_neg (by omega)]
    omega

omit [Lowercase] in
theorem copyName_shape (root ext : String) (n : Nat) : ∃ rest,
    (copyName root ext n).toList = root.toList ++ ' ' :: 'c' :: rest ∧
      ∀ c ∈ rest, c ∈ ext.toList ∨ c ∈ " copy.".toList ∨ c.isDigit = true := by
  have stem : ∃ rest, (if n = 1 then root ++ " copy" else
      root ++ " copy " ++ String.ofList (Text.decimal n)).toList = root.toList ++ ' ' :: 'c' :: rest ∧
      ∀ c ∈ rest, c ∈ " copy.".toList ∨ c.isDigit = true := by
    split
    · exact ⟨"opy".toList, String.toList_append .., fun c mem => .inl ((by decide : "opy".toList ⊆ " copy.".toList) mem)⟩
    · refine ⟨"opy ".toList ++ Text.decimal n, by simp, fun c mem => ?_⟩
      obtain word | digit := List.mem_append.mp mem
      · exact .inl ((by decide : "opy ".toList ⊆ " copy.".toList) word)
      · exact .inr (Nat.isDigit_of_mem_toDigits (by decide) (by decide) digit)
  obtain ⟨rest, same, within⟩ := stem
  unfold copyName joinName
  split
  · exact ⟨rest, same, fun c mem => .inr (within c mem)⟩
  · refine ⟨rest ++ '.' :: ext.toList, ?_, fun c mem => ?_⟩
    · rw [String.toList_append, String.toList_append, same]
      simp
    · obtain before | dot | after := by simpa only [List.mem_append, List.mem_cons] using mem
      · exact .inr (within c before)
      · exact .inr (.inl (dot ▸ by decide))
      · exact .inl after

theorem storable_candidate {desired : String} (storable : Storable desired) (n : Nat) :
    Storable (candidate desired n) ↔ (candidate desired n).utf8ByteSize ≤ maxComponentBytes := by
  obtain ⟨-, -, noSlash, noBackslash, noNul, noDrive⟩ := storable_iff.mp storable
  obtain ⟨rest, shape, within⟩ := copyName_shape (copyOrigin desired).1 (splitName desired).2 n
  have root := copyOrigin_begins desired
  have absent : ∀ c, c ∉ desired.toList → c ∉ " copy.".toList → c.isDigit = false → c ∉ (candidate desired n).toList := by
    intro c notIn notWord notDigit mem
    rw [candidate, shape] at mem
    obtain inRoot | space | letter | mem := by simpa only [List.mem_append, List.mem_cons] using mem
    · exact notIn (root.subset inRoot)
    · exact notWord (space ▸ by decide)
    · exact notWord (letter ▸ by decide)
    · obtain inExt | word | digit := within c mem
      · exact notIn ((splitName_parts desired).2 inExt)
      · exact notWord word
      · rw [notDigit] at digit
        exact nomatch digit
  have lettered : 'c' ∈ (candidate desired n).toList := by
    rw [candidate, shape]
    simp
  have named : candidate desired n ≠ "" ∧ candidate desired n ≠ "." ∧ candidate desired n ≠ ".." := by
    refine ⟨?_, ?_, ?_⟩
    all_goals
      intro same
      rw [same] at lettered
      exact absurd lettered (by decide)
  have drive : hasDrivePrefix (candidate desired n) = false := by
    unfold hasDrivePrefix at noDrive ⊢
    rw [candidate, shape]
    obtain ⟨tail, whole⟩ := root
    rw [← whole] at noDrive
    match chars : (copyOrigin desired).1.toList with
    | [] => rfl
    | [_] => exact Bool.and_false _
    | _ :: _ :: _ =>
      rw [chars] at noDrive
      exact noDrive
  rw [storable_iff]
  exact ⟨fun h => h.2.1, fun fits => ⟨named, fits, absent _ noSlash (by decide) (by decide),
    absent _ noBackslash (by decide) (by decide), absent _ noNul (by decide) (by decide), drive⟩⟩

/-- A number that a copy can get: above the one its original carries, or, when those are all taken,
from zero again. -/
def Offered (existing : List String) (desired : String) (number : Nat) : Prop :=
  (copyOrigin desired).2 < number ∧ number < 2 ^ 32 ∨
    (∀ other, (copyOrigin desired).2 < other → other < 2 ^ 32 → taken existing (candidate desired other) = true) ∧
      (number = 0 ∨ number ≤ (copyOrigin desired).2 ∧ taken existing (candidate desired 0) = true)

/-- The folder has a free name for a copy that is short enough. -/
def Roomy (existing : List String) (desired : String) : Prop :=
  ∃ number, Offered existing desired number ∧ taken existing (candidate desired number) = false ∧
    (candidate desired number).utf8ByteSize ≤ maxComponentBytes

theorem candidate_mono (desired : String) {n m : Nat} (positive : 0 < n) (le : n ≤ m) :
    (candidate desired n).utf8ByteSize ≤ (candidate desired m).utf8ByteSize := by
  have suffix := suffixBytes_mono positive le
  unfold candidate
  rw [utf8ByteSize_copyName, utf8ByteSize_copyName]
  omega

omit [Lowercase] in
theorem counted_up {isTaken : Nat → Bool} {n steps : Nat} (origin : n < 2 ^ 32)
    (free : isTaken ((n + 1 + steps) % 2 ^ 32) = false)
    (before : ∀ step < steps, isTaken ((n + 1 + step) % 2 ^ 32) = true) :
    (n + 1 + steps < 2 ^ 32 ∧ ∀ other, n < other → other < n + 1 + steps → isTaken other = true) ∨
      ∃ number ≤ n, (n + 1 + steps) % 2 ^ 32 = number ∧ (∀ other, n < other → other < 2 ^ 32 → isTaken other = true) ∧
        ∀ other < number, isTaken other = true := by
  have passed : ∀ step other, (n + 1 + step) % 2 ^ 32 = other → step < steps → isTaken other = true := by
    rintro step _ rfl below
    exact before step below
  by_cases near : n + 1 + steps < 2 ^ 32
  · refine .inl ⟨near, fun other above below => passed (other - (n + 1)) other ?_ (by omega)⟩
    rw [Nat.mod_eq_of_lt (by omega)]
    omega
  · have once : steps < 2 ^ 32 := by
      by_contra many
      have again := before (steps - 2 ^ 32) (by omega)
      have same : (n + 1 + (steps - 2 ^ 32)) % 2 ^ 32 = (n + 1 + steps) % 2 ^ 32 := by omega
      rw [same, free] at again
      exact nomatch again
    refine .inr ⟨n + 1 + steps - 2 ^ 32, by omega, by omega, fun other above below => ?_, fun other below => ?_⟩
    · exact passed (other - (n + 1)) other (by omega) (by omega)
    · exact passed (other + 2 ^ 32 - (n + 1)) other (by omega) (by omega)

theorem uniqueName_least {existing : List String} {desired name : String} (isTaken : taken existing desired = true)
    (h : uniqueName existing desired = some name) :
    ∃ number, name = candidate desired number ∧ Offered existing desired number ∧
      taken existing (candidate desired number) = false ∧
      ∀ other, Offered existing desired other → taken existing (candidate desired other) = false →
        number = 0 ∧ other = 0 ∨ 0 < number ∧ number ≤ other := by
  rw [uniqueName_def, if_pos isTaken] at h
  obtain ⟨steps, rfl, free, before⟩ := uniqueNameLoop_eq_some h
  have contradiction : ∀ {name}, taken existing name = true → taken existing name = false → False :=
    fun isTaken isFree => Bool.false_ne_true (isFree.symm.trans isTaken)
  obtain ⟨near, below⟩ | ⟨number, small, same, above, below⟩ :=
    @counted_up (fun number => taken existing (candidate desired number)) _ _ (copyOrigin_lt desired) free before
  · have same := Nat.mod_eq_of_lt near
    rw [same] at free ⊢
    refine ⟨_, rfl, .inl ⟨by omega, near⟩, free, ?_⟩
    rintro other (⟨larger, _⟩ | ⟨all, _⟩) isFree
    · refine .inr ⟨by omega, not_lt.mp fun less => ?_⟩
      exact contradiction (below other larger less) isFree
    · exact (contradiction (all _ (by omega) near) free).elim
  · rw [same] at free ⊢
    refine ⟨number, rfl, .inr ⟨above, ?_⟩, free, ?_⟩
    · obtain zero | positive := Nat.eq_zero_or_pos number
      · exact .inl zero
      · exact .inr ⟨small, below 0 positive⟩
    · rintro other (⟨larger, less⟩ | ⟨_, rfl | ⟨_, zero⟩⟩) isFree
      · exact (contradiction (above other larger less) isFree).elim
      · obtain isZero | positive := Nat.eq_zero_or_pos number
        · exact .inl ⟨isZero, rfl⟩
        · exact (contradiction (below 0 positive) isFree).elim
      · refine .inr ⟨Nat.pos_of_ne_zero fun isZero => ?_, not_lt.mp fun less => ?_⟩
        · exact contradiction zero (isZero ▸ free)
        · exact contradiction (below other less) isFree

theorem storable_uniqueName {existing : List String} {desired name : String} (storable : Storable desired)
    (h : uniqueName existing desired = some name) :
    Storable name ↔ taken existing desired = false ∨ Roomy existing desired := by
  cases isTaken : taken existing desired with
  | false =>
    rw [uniqueName_def, if_neg (by rw [isTaken]; exact Bool.false_ne_true)] at h
    cases h
    exact iff_of_true storable (.inl rfl)
  | true =>
    obtain ⟨number, rfl, offered, free, least⟩ := uniqueName_least isTaken h
    rw [storable_candidate storable, or_iff_right Bool.true_eq_false.mp]
    constructor
    · exact fun fits => ⟨number, offered, free, fits⟩
    · rintro ⟨other, isOffered, isFree, fits⟩
      obtain ⟨rfl, rfl⟩ | ⟨positive, le⟩ := least other isOffered isFree
      · exact fits
      · exact (candidate_mono desired positive le).trans fits

end

/-- Which of the names that the client lets through are stored: a typed name that is no dot name, has
no null character and at most 255 bytes, and the name of a copy of an entry where the folder has a
free one of at most 255 bytes. -/
theorem accepted_names_storable [Lowercase] (typed : String) (tree : DirectoryTree) (reachable : Reachable tree) :
    (nameError typed = none →
      (Storable typed ↔ typed ≠ "." ∧ typed ≠ ".." ∧ '\x00' ∉ typed.toList ∧ typed.utf8ByteSize ≤ maxComponentBytes)) ∧
    ∀ entry ∈ tree.dirents, entry.name ≠ "" →
      ∀ (existing : List String) (name : String), uniqueName existing entry.name = some name →
        (Storable name ↔ taken existing entry.name = false ∨ Roomy existing entry.name) := by
  refine ⟨storable_of_nameError, ?_⟩
  intro entry mem named existing name unique
  exact storable_uniqueName (reachable.valid.named mem named) unique

section

local instance copiesLowercase : Lowercase := ⟨fun name => String.ofList (name.toList.map Char.toLower)⟩

/-- A typed name and a copy of a copy. -/
theorem accepted_names_storable_copy : Storable "notes.txt" ∧ Storable "x copy 3.txt" := by
  have both := accepted_names_storable "notes.txt" _
    (Reachable.run ⟨0⟩ [.link ⟨0⟩ "x copy 2.txt" ⟨1⟩ false])
  refine ⟨(both.1 (by decide +kernel)).mpr (by decide +kernel), ?_⟩
  refine (both.2 ⟨⟨0⟩, "x copy 2.txt", ⟨1⟩, false⟩ (by decide +kernel) (by decide +kernel) ["x copy 2.txt"] _
    (by decide +kernel)).mpr
    (.inr ⟨3, .inl (by decide +kernel), by decide +kernel, by decide +kernel⟩)

/-- The check of the client lets the name `.` pass, and a name of 255 bytes has a longer copy. -/
theorem accepted_names_refused :
    let long := String.ofList (List.replicate 255 'a')
    (nameError "." = none ∧ ¬ Storable ".") ∧
      Storable long ∧ ∃ name, uniqueName [long] long = some name ∧ ¬ Storable name := by
  intro long
  have chars : long.toList = List.replicate 255 'a' := String.toList_ofList
  have lowered (name : String) : (lower name).toList = name.toList.map Char.toLower := String.toList_ofList
  have apart {c : Char} (other : c ≠ 'a') : c ∉ long.toList := fun mem =>
    other (List.eq_of_mem_replicate (chars ▸ mem))
  have bytes : long.utf8ByteSize = 255 := by
    rw [utf8ByteSize_ofList]
    decide +kernel
  have accepted : nameError long = none := by
    refine nameError_eq_none.mpr ⟨?_, ⟨apart (by decide), apart (by decide), apart (by decide)⟩, ?_⟩
    · rw [chars]
      decide +kernel
    · rw [chars, List.length_replicate]
      decide
  have storable : Storable long := by
    have notDots {name : String} (dotted : '.' ∈ name.toList) : long ≠ name := by
      rintro rfl
      exact apart (by decide) dotted
    exact (storable_of_nameError accepted).mpr ⟨notDots (by decide), notDots (by decide), apart (by decide), bytes.le⟩
  have found : uniqueName [long] long = some (long ++ " copy") := by
    have split : splitName long = (long, "") := splitName_undotted (apart (by decide)) (by
      rw [lowered, chars]
      decide +kernel)
    have noSuffix : parseCopySuffix long.toList = none := by
      rw [chars]
      decide +kernel
    have free : taken [long] (long ++ " copy") = false := by
      refine List.any_eq_false.mpr fun other mem same => ?_
      have lengths := congrArg (fun name => name.toList.length) (of_decide_eq_true same)
      simp only [lowered, List.length_map, List.mem_singleton.mp mem, String.toList_append, List.length_append] at lengths
      exact absurd lengths (by simp)
    have itself : taken [long] long = true := List.any_eq_true.mpr ⟨long, List.mem_singleton_self _, decide_eq_true rfl⟩
    have first : copyName long "" 1 = long ++ " copy" := rfl
    unfold uniqueName
    rw [if_pos itself, split]
    dsimp only
    rw [noSuffix]
    unfold uniqueNameLoop
    dsimp only
    rw [Nat.mod_eq_of_lt (by decide), first, if_neg (by rw [free]; exact Bool.false_ne_true)]
  refine ⟨⟨by decide +kernel, by decide +kernel⟩, storable, _, found, fun stored => ?_⟩
  have fits := (storable_iff.mp stored).2.1
  rw [String.utf8ByteSize_append, bytes] at fits
  exact absurd fits (by decide)

end

end QuantumFs.Client
