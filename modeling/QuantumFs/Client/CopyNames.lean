import QuantumFs.Client.UniqueNames
import QuantumFs.Lib.Pattern

/-! What it is for a name to carry the suffix of a copy, under a notion of white space, and that
the scanner of `fs_state.rs` finds it. -/
namespace QuantumFs.Client

open Lib Pattern

structure CopySyntax (α : Type) where
  space : α → Bool
  digit : α → Bool
  letters : List (α → Bool)
  space_digit : ∀ x, space x = true → digit x = false
  letter_solid : ∀ letter ∈ letters, ∀ x, letter x = true → space x = false ∧ digit x = false
  spelled : letters ≠ []

variable {α : Type}

/-- `text` is `stem copy`, or `stem copy digits`. -/
inductive CopyShape (s : CopySyntax α) : List α → List α → Option (List α) → Prop
  | plain {stem gap word : List α} (ends : EndsOff s.space stem) (blank : Run s.space gap)
      (spells : Spells s.letters word) : CopyShape s (stem ++ gap ++ word) stem none
  | numbered {stem gap word between digits : List α} (ends : EndsOff s.space stem) (blank : Run s.space gap)
      (spells : Spells s.letters word) (again : Run s.space between) (number : Run s.digit digits) :
      CopyShape s (stem ++ gap ++ word ++ between ++ digits) stem (some digits)

theorem spells_ne_nil {s : CopySyntax α} {word : List α} (spells : Spells s.letters word) : word ≠ [] := by
  rintro rfl
  exact s.spelled (List.length_eq_zero_iff.mp (List.Forall₂.length_eq spells))

theorem spells_solid {s : CopySyntax α} {word : List α} (spells : Spells s.letters word) {x : α} (mem : x ∈ word) :
    s.space x = false ∧ s.digit x = false := by
  obtain ⟨letter, among, met⟩ := spells.exists_letter mem
  exact s.letter_solid letter among x met

theorem spells_endsOff {s : CopySyntax α} {word : List α} (spells : Spells s.letters word) (front : List α) :
    EndsOff s.space (front ++ word) ∧ EndsOff s.digit (front ++ word) := by
  have solid (x : α) (last : x ∈ (front ++ word).getLast?) : s.space x = false ∧ s.digit x = false := by
    rw [List.getLast?_append_of_ne_nil _ (spells_ne_nil spells)] at last
    exact spells_solid spells (List.mem_of_getLast? last)
  exact ⟨fun x last => (solid x last).1, fun x last => (solid x last).2⟩

theorem stem_unique {s : CopySyntax α} {stem stem' gap gap' word word' : List α}
    (same : stem ++ gap ++ word = stem' ++ gap' ++ word') (ends : EndsOff s.space stem) (ends' : EndsOff s.space stem')
    (blank : Run s.space gap) (blank' : Run s.space gap') (spells : Spells s.letters word)
    (spells' : Spells s.letters word') : stem = stem' := by
  have size : word.length = word'.length :=
    (List.Forall₂.length_eq spells).symm.trans (List.Forall₂.length_eq spells')
  exact (run_unique (List.append_inj_left' same size) ends ends' blank.2 blank'.2).1

theorem CopyShape.unique {s : CopySyntax α} {text stem stem' : List α} {digits digits' : Option (List α)}
    (shape : CopyShape s text stem digits) (shape' : CopyShape s text stem' digits') : stem = stem' ∧ digits = digits' := by
  generalize same : text = text' at shape'
  cases shape with
  | plain ends blank spells =>
    cases shape' with
    | plain ends' blank' spells' => exact ⟨stem_unique same ends ends' blank blank' spells spells', rfl⟩
    | numbered ends' blank' spells' again' number' =>
      -- the last character is a letter on one side and a digit on the other
      have none := (run_unique ((List.append_nil _).trans same) (spells_endsOff spells _).2
        (again'.endsOff s.space_digit _) nofun number'.2).2
      exact absurd none.symm number'.1
  | numbered ends blank spells again number =>
    cases shape' with
    | plain ends' blank' spells' =>
      have none := (run_unique (same.trans (List.append_nil _).symm) (again.endsOff s.space_digit _)
        (spells_endsOff spells' _).2 number.2 nofun).2
      exact absurd none number.1
    | numbered ends' blank' spells' again' number' =>
      obtain ⟨rest, digits⟩ := run_unique same (again.endsOff s.space_digit _) (again'.endsOff s.space_digit _)
        number.2 number'.2
      obtain ⟨rest, -⟩ := run_unique rest (spells_endsOff spells _).1 (spells_endsOff spells' _).1 again.2 again'.2
      exact ⟨stem_unique rest ends ends' blank blank' spells spells', congrArg some digits⟩

def digitNumber (n : Nat) : Bool := 48 ≤ n && n ≤ 57

def letterNumber (letter : Char) (n : Nat) : Bool := n == letter.toNat || n + 32 == letter.toNat

def copyLetters : List Char := ['c', 'o', 'p', 'y']

theorem copyLetters_range : ∀ c ∈ copyLetters, 97 ≤ c.toNat ∧ c.toNat ≤ 122 := by simp [copyLetters]

/-- Digits and letters are those of ASCII; what white space is differs. -/
def copySyntax (number : α → Nat) (space : Nat → Bool) (apart : ∀ n, 48 ≤ n → n ≤ 122 → space n = false) :
    CopySyntax α where
  space x := space (number x)
  digit x := digitNumber (number x)
  letters := copyLetters.map fun letter x => letterNumber letter (number x)
  space_digit x blank := by
    rw [Bool.eq_false_iff]
    intro digit
    rw [digitNumber, Bool.and_eq_true, decide_eq_true_eq, decide_eq_true_eq] at digit
    rw [apart _ digit.1 (digit.2.trans (by decide))] at blank
    cases blank
  letter_solid letter mem x spelled := by
    obtain ⟨c, among, rfl⟩ := List.mem_map.mp mem
    obtain ⟨low, high⟩ := copyLetters_range c among
    change letterNumber c (number x) = true at spelled
    rw [letterNumber, Bool.or_eq_true, beq_iff_eq, beq_iff_eq] at spelled
    refine ⟨apart _ (by omega) (by omega), ?_⟩
    rw [digitNumber, Bool.and_eq_false_iff, decide_eq_false_iff_not, decide_eq_false_iff_not]
    omega
  spelled := List.cons_ne_nil _ _

/-- `char::is_whitespace` -/
def rustSpace (n : Nat) : Bool :=
  (9 ≤ n && n ≤ 13) || (0x2000 ≤ n && n ≤ 0x200A) ||
    [0x20, 0x85, 0xA0, 0x1680, 0x2028, 0x2029, 0x202F, 0x205F, 0x3000].contains n

theorem rustSpace_apart : ∀ n, 48 ≤ n → n ≤ 122 → rustSpace n = false := by
  intro n low high
  unfold rustSpace
  simp only [Bool.or_eq_false_iff, Bool.and_eq_false_iff, decide_eq_false_iff_not, List.contains_eq_mem,
    List.mem_cons, List.not_mem_nil, or_false]
  omega

theorem isBlank_eq (c : Char) : Text.isBlank c = rustSpace c.toNat := by
  rw [Bool.eq_iff_iff]
  unfold Text.isBlank rustSpace
  simp only [Bool.or_eq_true, Bool.and_eq_true, decide_eq_true_eq, UInt32.le_iff_toNat_le, List.contains_eq_mem,
    List.mem_cons, List.not_mem_nil, or_false, ← UInt32.toNat_inj]
  rfl

theorem isDigit_eq (c : Char) : c.isDigit = digitNumber c.toNat := by
  rw [Bool.eq_iff_iff]
  unfold Char.isDigit digitNumber
  simp only [Bool.and_eq_true, decide_eq_true_eq, ge_iff_le, UInt32.le_iff_toNat_le]
  rfl

theorem toNat_toLower (c : Char) : c.toLower.toNat = if 65 ≤ c.toNat ∧ c.toNat ≤ 90 then c.toNat + 32 else c.toNat := by
  have upper : ('A'.val ≤ c.val ∧ c.val ≤ 'Z'.val) ↔ 65 ≤ c.toNat ∧ c.toNat ≤ 90 := by
    rw [UInt32.le_iff_toNat_le, UInt32.le_iff_toNat_le]
    exact Iff.rfl
  unfold Char.toLower
  split
  · rename_i inside
    rw [if_pos (upper.mp inside)]
    change (c.val + 32).toNat = c.toNat + 32
    rw [UInt32.toNat_add]
    exact Nat.mod_eq_of_lt (by have := (upper.mp inside).2; change c.toNat + 32 < _; omega)
  · rename_i outside
    rw [if_neg (not_congr upper |>.mp outside)]

theorem toLower_eq_iff {c letter : Char} (range : 97 ≤ letter.toNat ∧ letter.toNat ≤ 122) :
    c.toLower = letter ↔ letterNumber letter c.toNat = true := by
  rw [letterNumber, Bool.or_eq_true, beq_iff_eq, beq_iff_eq, ← Char.toNat_inj, toNat_toLower]
  split <;> omega

def rustSyntax : CopySyntax Char := copySyntax Char.toNat rustSpace rustSpace_apart

theorem rustSyntax_space : rustSyntax.space = Text.isBlank := funext fun c => (isBlank_eq c).symm

theorem rustSyntax_digit : rustSyntax.digit = Char.isDigit := funext fun c => (isDigit_eq c).symm

theorem spells_iff_toLower {word : Text} : Spells rustSyntax.letters word ↔ word.map Char.toLower = copyLetters := by
  have range := copyLetters_range
  unfold Spells rustSyntax copySyntax
  dsimp only
  rw [List.forall₂_map_left_iff, eq_comm, ← List.forall₂_eq_eq_eq, List.forall₂_map_right_iff]
  generalize copyLetters = letters at range
  induction letters generalizing word with
  | nil => cases word <;> simp
  | cons letter letters ih =>
    cases word with
    | nil => simp
    | cons c word =>
      have later := @ih word fun c mem => range c (List.mem_cons_of_mem _ mem)
      have first : letterNumber letter c.toNat = true ↔ letter = c.toLower :=
        (toLower_eq_iff (range letter List.mem_cons_self)).symm.trans eq_comm
      constructor
      · rintro (_ | ⟨spelled, rest⟩)
        exact .cons (first.mp spelled) (later.mp rest)
      · rintro (_ | ⟨spelled, rest⟩)
        exact .cons (first.mpr spelled) (later.mpr rest)

theorem blank_end {text : Text} (blank : text.getLast?.any Text.isBlank = true) :
    ∃ gap, text = Text.trimEnd text ++ gap ∧ Run rustSyntax.space gap ∧ EndsOff rustSyntax.space (Text.trimEnd text) := by
  rw [rustSyntax_space]
  obtain ⟨gap, split, all⟩ := rdropWhile_split Text.isBlank text
  have ends := rdropWhile_endsOff Text.isBlank text
  refine ⟨gap, split, ⟨?_, all⟩, ends⟩
  rintro rfl
  rw [List.append_nil] at split
  obtain ⟨c, last, meets⟩ := Option.any_eq_true _ _ |>.mp blank
  rw [split] at last
  rw [ends c last] at meets
  cases meets

theorem stripCopyWord_iff {text stem : Text} : stripCopyWord text = some stem ↔
    ∃ gap word, text = stem ++ gap ++ word ∧ EndsOff rustSyntax.space stem ∧ Run rustSyntax.space gap ∧
      Spells rustSyntax.letters word := by
  unfold stripCopyWord
  dsimp only
  constructor
  · intro h
    split at h
    · cases h
    · split at h
      · cases h
      · rename_i spelled
        obtain ⟨blank, same⟩ := Option.ite_none_right_eq_some.mp h
        cases same
        obtain ⟨gap, split, run, ends⟩ := blank_end blank
        refine ⟨gap, text.drop (text.length - 4), ?_, ends, run, spells_iff_toLower.mpr (not_not.mp spelled)⟩
        rw [← split, List.take_append_drop]
  · rintro ⟨gap, word, rfl, ends, blank, spells⟩
    have spelled := spells_iff_toLower.mp spells
    have size : word.length = 4 := (List.length_map Char.toLower).symm.trans (congrArg List.length spelled)
    have cut : (stem ++ gap ++ word).length - 4 = (stem ++ gap).length := by
      rw [List.length_append, size, Nat.add_sub_cancel]
    rw [if_neg (by rw [List.length_append, size]; omega), cut, List.take_left, List.drop_left,
      if_neg fun other => other spelled]
    rw [rustSyntax_space] at ends blank
    obtain ⟨c, last⟩ := Option.ne_none_iff_exists'.mp fun none => blank.1 (List.getLast?_eq_none_iff.mp none)
    have isBlank : (stem ++ gap).getLast?.any Text.isBlank = true := by
      rw [List.getLast?_append_of_ne_nil _ blank.1, last]
      exact blank.2 c (List.mem_of_getLast? last)
    rw [if_pos isBlank]
    exact congrArg some (rdropWhile_run ends blank.2)

theorem getLast?_any_run {p : Char → Bool} {front back : Text} (run : Run p back) :
    (front ++ back).getLast?.any p = true := by
  obtain ⟨c, last⟩ := Option.ne_none_iff_exists'.mp fun none => run.1 (List.getLast?_eq_none_iff.mp none)
  rw [List.getLast?_append_of_ne_nil _ run.1, last]
  exact run.2 c (List.mem_of_getLast? last)

theorem trailing_digits {front back : Text} (ends : EndsOff Char.isDigit front)
    (all : ∀ c ∈ back, c.isDigit = true) : ((front ++ back).reverse.takeWhile Char.isDigit).reverse = back := by
  rw [List.reverse_append, List.takeWhile_append_of_pos fun c mem => all c (List.mem_reverse.mp mem),
    List.reverse_append, List.reverse_reverse]
  rw [List.append_left_eq_self, List.reverse_eq_nil_iff]
  cases chars : front.reverse with
  | nil => rfl
  | cons c rest =>
    refine List.takeWhile_cons_of_neg ?_
    rw [ends c (by rw [List.getLast?_eq_head?_reverse, chars]; rfl)]
    exact Bool.false_ne_true

theorem parseCopySuffix_split {front back : Text} (ends : EndsOff Char.isDigit front)
    (all : ∀ c ∈ back, c.isDigit = true) : parseCopySuffix (front ++ back) =
      ((if back ≠ [] ∧ front.getLast?.any Text.isBlank then
        (stripCopyWord (Text.trimEnd front)).map fun stem => (stem, Text.parseU32 back) else none) <|>
      (stripCopyWord (front ++ back)).map fun stem => (stem, none)) := by
  unfold parseCopySuffix
  dsimp only
  rw [trailing_digits ends all, List.length_append, Nat.add_sub_cancel, List.take_left]

theorem parseCopySuffix_iff {base stem : Text} {number : Option Nat} : parseCopySuffix base = some (stem, number) ↔
    ∃ digits, CopyShape rustSyntax base stem digits ∧ number = digits.bind Text.parseU32 := by
  constructor
  · intro h
    obtain ⟨back, split, all⟩ := rdropWhile_split Char.isDigit base
    have ends := rdropWhile_endsOff Char.isDigit base
    generalize base.rdropWhile Char.isDigit = front at split ends
    subst split
    rw [parseCopySuffix_split ends all] at h
    obtain numbered | ⟨-, plain⟩ := Option.or_eq_some_iff.mp (Option.or_eq_orElse.trans h)
    · obtain ⟨⟨some, blank⟩, found⟩ := Option.ite_none_right_eq_some.mp numbered
      obtain ⟨stem', stripped, same⟩ := Option.map_eq_some_iff.mp found
      cases same
      obtain ⟨gap, word, rest, ends, run, spells⟩ := stripCopyWord_iff.mp stripped
      obtain ⟨between, whole, again, -⟩ := blank_end blank
      refine ⟨back, ?_, rfl⟩
      rw [whole, rest]
      exact .numbered ends run spells again ⟨some, fun c mem => by rw [rustSyntax_digit]; exact all c mem⟩
    · obtain ⟨stem', found, same⟩ := Option.map_eq_some_iff.mp plain
      cases same
      obtain ⟨gap, word, whole, ends, run, spells⟩ := stripCopyWord_iff.mp found
      refine ⟨none, ?_, rfl⟩
      rw [whole]
      exact .plain ends run spells
  · rintro ⟨digits, shape, rfl⟩
    cases shape with
    | @plain _ gap word ends blank spells =>
      have off := (spells_endsOff spells (stem ++ gap)).2
      rw [rustSyntax_digit] at off
      have parsed := @parseCopySuffix_split _ [] off nofun
      rw [List.append_nil] at parsed
      rw [parsed, if_neg fun both => both.1 rfl, stripCopyWord_iff.mpr ⟨gap, word, rfl, ends, blank, spells⟩]
      rfl
    | @numbered _ gap word between digits ends blank spells again number =>
      have off := again.endsOff rustSyntax.space_digit (stem ++ gap ++ word)
      have solid := (spells_endsOff spells (stem ++ gap)).1
      have found := stripCopyWord_iff.mpr ⟨gap, word, rfl, ends, blank, spells⟩
      rw [rustSyntax_digit] at off number
      rw [rustSyntax_space] at again solid
      rw [parseCopySuffix_split off number.2, if_pos ⟨number.1, getLast?_any_run again⟩, Text.trimEnd,
        rdropWhile_run solid again.2, found]
      rfl

end QuantumFs.Client
