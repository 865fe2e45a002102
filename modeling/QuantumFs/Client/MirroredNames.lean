import QuantumFs.Client.PathNames
import QuantumFs.Client.StorableNames

/-! The naming rules of the client (`fs_state.rs`) and of its web view (`lib/path.ts`) beside each
other, on the two encodings of a text. -/
namespace QuantumFs.Client.Path

open Lib Pattern

def Narrow (p : Nat → Bool) : Prop := ∀ n, p n = true → (n < 0xD800 ∨ 0xDFFF < n) ∧ n < 0x10000

theorem narrow_utf16Char {p : Nat → Bool} (narrow : Narrow p) {c : Char} {unit : UInt16}
    (mem : unit ∈ Text.utf16Char c) : p unit.toNat = p c.toNat := by
  obtain ⟨single, same, -, number⟩ | ⟨wide, high, low, pair, halfHigh, halfLow, -⟩ := Text.utf16Char_cases c
  · rw [same, List.mem_singleton] at mem
    rw [mem, number]
  · have notHere : p c.toNat = false := Bool.eq_false_iff.mpr fun here => absurd (narrow _ here).2 (not_lt.mpr wide)
    have half : Text.whole unit = false := by
      rw [pair, List.mem_pair] at mem
      obtain rfl | rfl := mem
      · exact halfHigh
      · exact halfLow
    rw [notHere, Bool.eq_false_iff]
    intro here
    unfold Text.whole at half
    rw [Bool.or_eq_false_iff, decide_eq_false_iff_not, decide_eq_false_iff_not] at half
    exact (narrow _ here).1.elim half.1 half.2

theorem forall_utf16 {p : Nat → Bool} (narrow : Narrow p) {text : Text} (value : Bool) :
    (∀ unit ∈ Text.utf16 text, p unit.toNat = value) ↔ ∀ c ∈ text, p c.toNat = value := by
  constructor
  · intro all c mem
    obtain ⟨unit, first⟩ := List.exists_mem_of_ne_nil _ (Text.utf16Char_ne_nil c)
    rw [← narrow_utf16Char narrow first]
    exact all unit (List.mem_flatMap.mpr ⟨c, mem, first⟩)
  · intro all unit mem
    obtain ⟨c, among, mem⟩ := List.mem_flatMap.mp mem
    rw [narrow_utf16Char narrow mem]
    exact all c among

theorem narrow_space : Narrow space := by
  intro n here
  unfold space at here
  simp only [Bool.or_eq_true, Bool.and_eq_true, decide_eq_true_eq, List.contains_eq_mem, List.mem_cons,
    List.not_mem_nil, or_false] at here
  omega

theorem narrow_lineTerminator : Narrow lineTerminator := by
  intro n here
  unfold lineTerminator at here
  simp only [decide_eq_true_eq, List.contains_eq_mem, List.mem_cons, List.not_mem_nil, or_false] at here
  omega

theorem narrow_digitNumber : Narrow digitNumber := by
  intro n here
  unfold digitNumber at here
  rw [Bool.and_eq_true, decide_eq_true_eq, decide_eq_true_eq] at here
  omega

theorem narrow_eq {c : Char} (ascii : c.toNat < 128) : Narrow (· == c.toNat) := by
  intro n here
  rw [beq_iff_eq] at here
  omega

theorem narrow_letterNumber {c : Char} (ascii : c.toNat < 128) : Narrow (letterNumber c) := by
  intro n here
  unfold letterNumber at here
  rw [Bool.or_eq_true, beq_iff_eq, beq_iff_eq] at here
  omega

theorem mem_units {c : Char} (ascii : c.toNat < 128) {text : Text} :
    UInt16.ofNat c.toNat ∈ Text.utf16 text ↔ c ∈ text := by
  have number : (UInt16.ofNat c.toNat).toNat = c.toNat := UInt16.toNat_ofNat_of_lt' (by change _ < 65536; omega)
  have absent := not_congr (@forall_utf16 _ (narrow_eq ascii) text false)
  simp only [beq_eq_false_iff_ne, ne_eq, not_forall, not_not, exists_prop] at absent
  constructor
  · intro mem
    obtain ⟨d, among, same⟩ := absent.mp ⟨_, mem, number⟩
    exact Char.toNat_inj.mp same ▸ among
  · intro mem
    obtain ⟨unit, among, same⟩ := absent.mpr ⟨c, mem, rfl⟩
    have isUnit : UInt16.ofNat c.toNat = unit := UInt16.toNat_inj.mp (number.trans same.symm)
    exact isUnit ▸ among

theorem trim_eq_nil {α : Type} {p : α → Bool} {items : List α} :
    ((items.dropWhile p).reverse.dropWhile p).reverse = [] ↔ ∀ x ∈ items, p x = true := by
  rw [List.reverse_eq_nil_iff, List.dropWhile_eq_nil_iff]
  constructor
  · intro all x mem
    rw [← List.takeWhile_append_dropWhile (p := p) (l := items)] at mem
    obtain taken | dropped := List.mem_append.mp mem
    · exact List.mem_takeWhile_imp taken
    · exact all x (List.mem_reverse.mpr dropped)
  · intro all x mem
    exact all x ((List.dropWhile_suffix p).subset (List.mem_reverse.mp mem))

/-- What makes the two checks of a name agree: the same names are blank, and those that are not,
and have no illegal character, are too long in characters as in code units. -/
def SameCheck (name : String) : Prop :=
  ((∀ c ∈ name.toList, rustSpace c.toNat = true) ↔ ∀ c ∈ name.toList, space c.toNat = true) ∧
    ((∃ c ∈ name.toList, space c.toNat = false) → (∀ c ∈ illegalNameChars, c ∉ name.toList) →
      (maxNameLength < name.toList.length ↔ maxNameLength < (units name).length))

theorem nameError_def (name : String) : nameError name =
    if ∀ c ∈ name.toList, rustSpace c.toNat = true then some "Name can't be empty"
    else if ∃ c ∈ illegalNameChars, c ∈ name.toList then some "Names can't contain / : or \\"
    else if maxNameLength < name.toList.length then some "Name is too long"
    else none := by
  have blank : Text.trim name.toList = [] ↔ ∀ c ∈ name.toList, rustSpace c.toNat = true := by
    unfold Text.trim
    rw [trim_eq_nil]
    simp only [isBlank_eq]
  have illegal : ('/' ∈ name.toList ∨ ':' ∈ name.toList ∨ '\\' ∈ name.toList) ↔
      ∃ c ∈ illegalNameChars, c ∈ name.toList := by
    simp [illegalNameChars]
  unfold nameError
  rw [if_congr blank rfl (if_congr illegal rfl rfl)]

theorem validateName_def (name : String) : validateName (units name) =
    if ∀ c ∈ name.toList, space c.toNat = true then some "Name can't be empty"
    else if ∃ c ∈ illegalNameChars, c ∈ name.toList then some "Names can't contain / : or \\"
    else if maxNameLength < (units name).length then some "Name is too long"
    else none := by
  have blank : (trim (units name)).length = 0 ↔ ∀ c ∈ name.toList, space c.toNat = true := by
    rw [List.length_eq_zero_iff]
    unfold trim
    rw [trim_eq_nil]
    exact forall_utf16 narrow_space true
  have illegal : (illegalNameChars.any fun illegal => (units name).contains (UInt16.ofNat illegal.toNat)) = true ↔
      ∃ c ∈ illegalNameChars, c ∈ name.toList := by
    have ascii : ∀ c ∈ illegalNameChars, c.toNat < 128 := by simp [illegalNameChars]
    rw [List.any_eq_true]
    refine exists_congr fun c => and_congr_right fun mem => ?_
    rw [List.contains_iff_mem]
    exact mem_units (ascii c mem)
  unfold validateName
  rw [if_congr blank rfl (if_congr illegal rfl rfl)]

theorem checks_agree {blank blank' illegal long long' : Prop} [Decidable blank] [Decidable blank'] [Decidable illegal]
    [Decidable long] [Decidable long'] {first second third : String} (other : first ≠ second) (last : first ≠ third) :
    ((if blank then some first else if illegal then some second else if long then some third else none) =
      if blank' then some first else if illegal then some second else if long' then some third else none) ↔
        (blank ↔ blank') ∧ (¬blank' → ¬illegal → (long ↔ long')) := by
  by_cases here : blank
  · by_cases there : blank'
    · simp [here, there]
    · by_cases illegal <;> by_cases long' <;> simp [*]
  · by_cases there : blank'
    · by_cases illegal <;> by_cases long <;> simp [other.symm, last.symm, *]
    · by_cases illegal <;> by_cases long <;> by_cases long' <;> simp [*]

theorem nameError_eq_validateName (name : String) : nameError name = validateName (units name) ↔ SameCheck name := by
  have visible : (∃ c ∈ name.toList, space c.toNat = false) ↔ ¬∀ c ∈ name.toList, space c.toNat = true := by
    simp
  have legal : (∀ c ∈ illegalNameChars, c ∉ name.toList) ↔ ¬∃ c ∈ illegalNameChars, c ∈ name.toList := by
    simp
  rw [nameError_def, validateName_def]
  unfold SameCheck
  rw [visible, legal]
  exact checks_agree (by decide) (by decide)

theorem units_append (left right : String) : units (left ++ right) = units left ++ units right := by
  unfold units
  rw [String.toList_append, Text.utf16_append]

theorem units_ofList (text : Text) : units (String.ofList text) = Text.utf16 text := by
  unfold units
  rw [String.toList_ofList]

theorem units_inj {left right : String} : units left = units right ↔ left = right := by
  unfold units
  rw [Text.utf16_inj, String.toList_inj]

def unitOf (c : Char) : UInt16 := UInt16.ofNat c.toNat

theorem utf16Char_ascii {c : Char} (ascii : c.toNat < 128) : Text.utf16Char c = [unitOf c] :=
  if_pos (ascii.trans (by decide))

theorem utf16_basic {text : Text} (basic : ∀ c ∈ text, c.toNat < 0x10000) : Text.utf16 text = text.map unitOf := by
  unfold Text.utf16
  rw [List.map_eq_flatMap]
  exact List.flatMap_congr fun c mem => if_pos (basic c mem)

theorem utf16_ascii {text : Text} (ascii : ∀ c ∈ text, c.toNat < 128) : Text.utf16 text = text.map unitOf :=
  utf16_basic fun c mem => (ascii c mem).trans (by decide)

theorem unitOf_toNat {c : Char} (basic : c.toNat < 0x10000) : (unitOf c).toNat = c.toNat :=
  UInt16.toNat_ofNat_of_lt' basic

theorem length_utf16_ascii {text : Text} (ascii : ∀ c ∈ text, c.toNat < 128) :
    (Text.utf16 text).length = text.length := by
  rw [utf16_ascii ascii, List.length_map]

theorem utf16_eq_nil {text : Text} : Text.utf16 text = [] ↔ text = [] := by
  rw [← Text.utf16_nil, Text.utf16_inj]

theorem whole_ascii {text : Text} (ascii : ∀ c ∈ text, c.toNat < 128) :
    ∀ unit ∈ Text.utf16 text, Text.whole unit = true := by
  intro unit mem
  rw [utf16_ascii ascii] at mem
  obtain ⟨c, among, rfl⟩ := List.mem_map.mp mem
  have small := ascii c among
  unfold Text.whole
  rw [unitOf_toNat (by omega), Bool.or_eq_true, decide_eq_true_eq]
  exact .inl (by omega)

theorem suffix_utf16 {word text : Text} (ascii : ∀ c ∈ word, c.toNat < 128) :
    Text.utf16 word <:+ Text.utf16 text ↔ word <:+ text := by
  constructor
  · rintro ⟨before, same⟩
    obtain ⟨front, rfl, -⟩ := Text.utf16_split same.symm (whole_ascii ascii)
    exact ⟨front, by rw [Text.utf16_inj.mp (Text.utf16_charOf (whole_ascii ascii))]⟩
  · rintro ⟨front, rfl⟩
    exact ⟨Text.utf16 front, (Text.utf16_append _ _).symm⟩

theorem oneSigma_ascii {c : Char} : (oneSigma c).toNat < 128 ↔ c.toNat < 128 := by
  unfold oneSigma
  split
  · rename_i same
    subst same
    exact iff_of_false (by decide) (by decide)
  · rfl

theorem map_oneSigma_ascii {text : Text} (ascii : ∀ c ∈ text, c.toNat < 128) : text.map oneSigma = text := by
  refine (List.map_congr_left fun c mem => ?_).trans (List.map_id text)
  refine if_neg fun same => ?_
  subst same
  exact absurd (ascii _ mem) (by decide)

theorem compound_ascii : ∀ compound ∈ compoundExtensions, ∀ c ∈ '.' :: compound.toList, c.toNat < 128 ∧ c ≠ 'k' := by
  simp [compoundExtensions]

theorem units_compound {compound : String} (among : compound ∈ compoundExtensions) :
    (units compound).length = compound.toList.length :=
  length_utf16_ascii fun c mem => (compound_ascii compound among c (List.mem_cons_of_mem _ mem)).1

theorem dot_split {text : Text} (dotted : '.' ∈ text) : ∃ front back, text = front ++ '.' :: back ∧ '.' ∉ back := by
  obtain ⟨back, front, same, absent⟩ := List.eq_append_cons_of_mem (List.mem_reverse.mpr dotted)
  refine ⟨front.reverse, back.reverse, ?_, fun mem => absent (List.mem_reverse.mp mem)⟩
  rw [← List.reverse_reverse text, same]
  simp

theorem takeWhile_dot {front back : Text} (last : '.' ∉ back) :
    (front ++ '.' :: back).reverse.takeWhile (· ≠ '.') = back.reverse := by
  rw [List.reverse_append, List.reverse_cons, List.append_assoc, List.takeWhile_append_of_pos]
  · rw [List.singleton_append, List.takeWhile_cons_of_neg (by decide), List.append_nil]
  · intro c mem
    exact decide_eq_true fun same => last (same ▸ List.mem_reverse.mp mem)

theorem lastIndexOf_dot {front back : Units} {unit : UInt16} (last : unit ∉ back) :
    lastIndexOf unit (front ++ unit :: back) = some front.length := by
  have found : (front ++ unit :: back).reverse.idxOf? unit = some back.length := by
    rw [List.reverse_append, List.reverse_cons, List.append_assoc, List.singleton_append, List.idxOf?,
      List.findIdx?_append, List.findIdx?_eq_none_iff.mpr, List.findIdx?_cons]
    · simp
    · intro other mem
      rw [beq_eq_false_iff_ne]
      exact fun same => last (same ▸ List.mem_reverse.mp mem)
  unfold lastIndexOf
  rw [found, Option.map_some, List.length_append, List.length_cons]
  congr 1
  omega

theorem lastIndexOf_none {name : Units} {unit : UInt16} (absent : unit ∉ name) : lastIndexOf unit name = none := by
  unfold lastIndexOf
  rw [Option.map_eq_none_iff, List.idxOf?, List.findIdx?_eq_none_iff]
  intro other mem
  rw [beq_eq_false_iff_ne]
  exact fun same => absent (same ▸ List.mem_reverse.mp mem)

section

variable [UnicodeLowercase]

theorem mapping_suffix {word text : Text} (ascii : ∀ c ∈ word, c.toNat < 128 ∧ c ≠ 'k')
    (ends : word <:+ (text.flatMap UnicodeLowercase.mapping).map oneSigma) :
    ∃ front tail, text = front ++ tail ∧ tail.length = word.length ∧ ∀ c ∈ tail, c.toNat < 128 := by
  induction word using List.reverseRecOn generalizing text with
  | nil => exact ⟨text, [], (List.append_nil _).symm, rfl, nofun⟩
  | append_singleton word c ih =>
    obtain ⟨small, notK⟩ := ascii c (by simp)
    obtain rfl | ⟨text, x, rfl⟩ := List.eq_nil_or_concat' text
    · exact absurd (List.suffix_nil.mp ends) (by simp)
    · rw [List.flatMap_append, List.flatMap_singleton, List.map_append] at ends
      by_cases plain : x.toNat < 128
      · rw [UnicodeLowercase.mapping_ascii x plain, List.map_singleton] at ends
        obtain ⟨before, same⟩ := ends
        rw [← List.append_assoc, List.append_singleton_inj] at same
        obtain ⟨front, tail, rfl, size, all⟩ := ih (fun d mem => ascii d (List.mem_append_left _ mem)) ⟨before, same.1⟩
        refine ⟨front, tail ++ [x], List.append_assoc _ _ _, ?_, fun d mem => ?_⟩
        · rw [List.length_append, List.length_append, size, List.length_singleton, List.length_singleton]
        · obtain old | new := List.mem_append.mp mem
          · exact all d old
          · exact List.mem_singleton.mp new ▸ plain
      · -- the last character comes from one that is not of ASCII: only the Kelvin sign could give a letter
        exfalso
        by_cases kelvin : x = '\u212a'
        · rw [kelvin, UnicodeLowercase.mapping_kelvin] at ends
          obtain ⟨before, same⟩ := ends
          rw [← List.append_assoc, List.map_singleton, List.append_singleton_inj] at same
          exact notK (same.2.trans (by decide))
        · obtain ⟨front, last, spelled, wide⟩ := UnicodeLowercase.mapping_other x (not_lt.mp plain) kelvin
          rw [spelled, List.map_append, List.map_singleton, ← List.append_assoc] at ends
          obtain ⟨before, same⟩ := ends
          rw [← List.append_assoc, List.append_singleton_inj] at same
          rw [same.2, oneSigma_ascii] at small
          omega

theorem lower_suffix {word : Text} {name : String} (ascii : ∀ c ∈ word, c.toNat < 128 ∧ c ≠ 'k')
    (ends : word <:+ (lower name).toList) :
    ∃ front tail, name.toList = front ++ tail ∧ tail.length = word.length ∧ ∀ c ∈ tail, c.toNat < 128 := by
  refine mapping_suffix ascii ?_
  rw [← UnicodeLowercase.lower_mapping, ← map_oneSigma_ascii fun c mem => (ascii c mem).1]
  obtain ⟨front, same⟩ := ends
  exact ⟨front.map oneSigma, by rw [← same, List.map_append]⟩

theorem compound_split {name compound : String} (among : compound ∈ compoundExtensions)
    (ends : '.' :: compound.toList <:+ (lower name).toList) : ∃ front tail, name.toList = front ++ tail ∧
      tail.length = compound.toList.length + 1 ∧ ∀ c ∈ tail, c.toNat < 128 :=
  lower_suffix (compound_ascii compound among) ends

theorem compound_condition (name : String) {compound : String} (among : compound ∈ compoundExtensions) :
    (0 < ((units name).length : Int) - (units compound).length - 1 &&
        (units ("." ++ compound)).isSuffixOf (lowerUnits (units name)) : Bool) =
      (compound.toList.length + 1 < name.toList.length && ('.' :: compound.toList).isSuffixOf (lower name).toList) := by
  have suffix : (units ("." ++ compound)).isSuffixOf (lowerUnits (units name)) =
      ('.' :: compound.toList).isSuffixOf (lower name).toList := by
    rw [Bool.eq_iff_iff, List.isSuffixOf_iff_suffix, List.isSuffixOf_iff_suffix, UnicodeLowercase.lowerUnits_units]
    unfold units
    rw [String.toList_append]
    exact suffix_utf16 fun c mem => (compound_ascii compound among c mem).1
  rw [suffix]
  cases ends : ('.' :: compound.toList).isSuffixOf (lower name).toList with
  | false => rw [Bool.and_false, Bool.and_false]
  | true =>
    obtain ⟨front, tail, split, size, ascii⟩ := compound_split among (List.isSuffixOf_iff_suffix.mp ends)
    have length : (units name).length = (Text.utf16 front).length + (compound.toList.length + 1) := by
      unfold units
      rw [split, Text.utf16_append, List.length_append, length_utf16_ascii ascii, size]
    have empty : (Text.utf16 front).length = 0 ↔ front.length = 0 := by
      rw [List.length_eq_zero_iff, List.length_eq_zero_iff, utf16_eq_nil]
    rw [Bool.and_true, Bool.and_true, length, units_compound among, split, List.length_append, size, decide_eq_decide]
    omega

theorem splitName_units (name : String) :
    splitName (units name) = (units (Client.splitName name).1, units (Client.splitName name).2) := by
  unfold splitName Client.splitName
  dsimp only
  rw [List.find?_congr fun compound mem => compound_condition name mem]
  cases found : compoundExtensions.find? fun compound => compound.toList.length + 1 < name.toList.length &&
      ('.' :: compound.toList).isSuffixOf (lower name).toList with
  | some compound =>
    have among := List.mem_of_find?_eq_some found
    have ends := List.find?_some found
    obtain ⟨front, tail, split, size, ascii⟩ :=
      compound_split among (List.isSuffixOf_iff_suffix.mp (Bool.and_eq_true_iff.mp ends).2)
    obtain ⟨c, tail, rfl⟩ := List.exists_cons_of_length_pos (Nat.lt_of_lt_of_eq (Nat.succ_pos _) size.symm)
    have here : name.toList.length - compound.toList.length - 1 = front.length := by
      rw [split, List.length_append, size]
      omega
    have there : (units name).length - (units compound).length - 1 = (Text.utf16 front).length := by
      rw [units_compound among]
      unfold units
      rw [split, Text.utf16_append, List.length_append, length_utf16_ascii ascii, size]
      omega
    dsimp only
    rw [here, there, units_ofList, units_ofList]
    unfold units
    rw [split, Text.utf16_append, Text.utf16_cons, utf16Char_ascii (ascii c List.mem_cons_self), List.take_left,
      List.take_left, List.drop_append, List.drop_append]
    simp
  | none =>
    dsimp only
    by_cases dotted : '.' ∈ name.toList
    · obtain ⟨front, back, split, last⟩ := dot_split dotted
      have lastUnit : UInt16.ofNat '.'.toNat ∉ Text.utf16 back := fun mem => last ((mem_units (by decide)).mp mem)
      have whole : units name = Text.utf16 front ++ UInt16.ofNat '.'.toNat :: Text.utf16 back := by
        unfold units
        rw [split, Text.utf16_append, Text.utf16_cons, utf16Char_ascii (by decide)]
        rfl
      rw [whole, lastIndexOf_dot lastUnit, split, takeWhile_dot last]
      have dot : (front ++ '.' :: back).length - back.reverse.length - 1 = front.length := by
        rw [List.length_append, List.length_cons, List.length_reverse]
        omega
      have edge : ((Text.utf16 front).length = 0 ∨ (Text.utf16 front).length =
          (Text.utf16 front ++ UInt16.ofNat '.'.toNat :: Text.utf16 back).length - 1) ↔ front = [] ∨ back = [] := by
        rw [List.length_append, List.length_cons, List.length_eq_zero_iff, utf16_eq_nil]
        refine or_congr_right ?_
        rw [← utf16_eq_nil, ← List.length_eq_zero_iff]
        omega
      have inside : (back.reverse.length < (front ++ '.' :: back).length ∧ 0 < front.length ∧ back.reverse ≠ []) ↔
          ¬(front = [] ∨ back = []) := by
        rw [not_or, List.length_reverse, List.length_append, List.length_cons, List.length_pos_iff,
          List.reverse_ne_nil_iff]
        exact and_iff_right (by omega)
      dsimp only
      rw [dot, if_congr edge rfl rfl, if_congr inside rfl rfl]
      by_cases edges : front = [] ∨ back = []
      · rw [if_pos edges, if_neg (not_not.mpr edges), ← whole]
        rfl
      · rw [if_neg edges, if_pos edges, units_ofList, units_ofList, List.take_left, List.take_left,
          List.reverse_reverse, List.drop_append]
        simp
    · have absent : UInt16.ofNat '.'.toNat ∉ units name := fun mem => dotted ((mem_units (by decide)).mp mem)
      have all : name.toList.reverse.takeWhile (· ≠ '.') = name.toList.reverse := by
        rw [List.takeWhile_eq_self_iff]
        exact fun c mem => decide_eq_true fun same => dotted (same ▸ List.mem_reverse.mp mem)
      rw [lastIndexOf_none absent, all, if_neg fun inside => absurd inside.1 (by simp)]
      rfl

end

end QuantumFs.Client.Path
