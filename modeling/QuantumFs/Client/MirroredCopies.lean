import QuantumFs.Client.MirroredNames

/-! The suffix of a copy in the two encodings, and the names that both sides make up. -/
namespace QuantumFs.Client.Path

open Lib Pattern

section

variable {α : Type} {s : CopySyntax α} {dot : α → Bool}

inductive CopyTail (s : CopySyntax α) : List α → Option (List α) → Prop
  | plain {gap word : List α} (blank : Run s.space gap) (spells : Spells s.letters word) :
      CopyTail s (gap ++ word) none
  | numbered {gap word between digits : List α} (blank : Run s.space gap) (spells : Spells s.letters word)
      (again : Run s.space between) (number : Run s.digit digits) :
      CopyTail s (gap ++ (word ++ (between ++ digits))) (some digits)

theorem CopyTail.shape {stem tail : List α} {digits : Option (List α)} (after : CopyTail s tail digits)
    (ends : EndsOff s.space stem) : CopyShape s (stem ++ tail) stem digits := by
  cases after with
  | plain blank spells =>
    rw [← List.append_assoc]
    exact .plain ends blank spells
  | numbered blank spells again number =>
    simp only [← List.append_assoc]
    exact .numbered ends blank spells again number

theorem shape_tail {text stem : List α} {digits : Option (List α)} (shape : CopyShape s text stem digits) :
    EndsOff s.space stem ∧ ∃ tail, text = stem ++ tail ∧ CopyTail s tail digits := by
  cases shape with
  | plain ends blank spells => exact ⟨ends, _, List.append_assoc _ _ _, .plain blank spells⟩
  | numbered ends blank spells again number =>
    exact ⟨ends, _, by simp only [List.append_assoc], .numbered blank spells again number⟩

theorem CopyTail.widen {tail front : List α} {digits : Option (List α)} (after : CopyTail s tail digits)
    (blank : ∀ x ∈ front, s.space x = true) : CopyTail s (front ++ tail) digits := by
  have wide {gap : List α} (run : Run s.space gap) : Run s.space (front ++ gap) :=
    ⟨List.append_ne_nil_of_right_ne_nil _ run.1, fun x mem => (List.mem_append.mp mem).elim (blank x) (run.2 x)⟩
  cases after with
  | plain run spells =>
    rw [← List.append_assoc]
    exact .plain (wide run) spells
  | numbered run spells again number =>
    rw [← List.append_assoc]
    exact .numbered (wide run) spells again number

theorem atEnd_eq_some {stem rest : List α} {digits : Option (List α)} {result : List α × Option (List α)} :
    atEnd stem digits rest = some result ↔ rest = [] ∧ (stem, digits) = result := by
  unfold atEnd
  rw [Option.ite_none_right_eq_some, List.isEmpty_iff, Option.some_inj]

theorem afterStem_sound {stem rest : List α} {result : List α × Option (List α)} (h : afterStem s stem rest = some result) :
    result.1 = stem ∧ CopyTail s rest result.2 := by
  obtain ⟨gap, rest, rfl, blank, h⟩ := (reads_greedily s.space).sound h
  obtain ⟨word, rest, rfl, spells, h⟩ := (reads_word s.letters).sound h
  obtain numbered | ⟨-, plain⟩ := Option.or_eq_some_iff.mp h
  · obtain ⟨between, rest, rfl, again, h⟩ := (reads_greedily s.space).sound numbered
    obtain ⟨digits, rest, rfl, number, h⟩ := (reads_greedily s.digit).sound h
    obtain ⟨rfl, rfl⟩ := atEnd_eq_some.mp h
    rw [List.append_nil]
    exact ⟨rfl, .numbered blank spells again number⟩
  · obtain ⟨rfl, rfl⟩ := atEnd_eq_some.mp plain
    rw [List.append_nil]
    exact ⟨rfl, .plain blank spells⟩

theorem afterStem_complete {rest : List α} {digits : Option (List α)} (stem : List α) (after : CopyTail s rest digits) :
    afterStem s stem rest ≠ none := by
  cases after with
  | @plain gap word blank spells =>
    refine (reads_greedily s.space).complete blank ?_
    rw [← List.append_nil word]
    refine (reads_word s.letters).complete spells (or_ne_none.mpr (.inr ?_))
    exact Option.some_ne_none _
  | @numbered gap word between digits blank spells again number =>
    refine (reads_greedily s.space).complete blank ?_
    refine (reads_word s.letters).complete spells (or_ne_none.mpr (.inl ?_))
    refine (reads_greedily s.space).complete again ?_
    rw [← List.append_nil digits]
    refine (reads_greedily s.digit).complete number ?_
    exact Option.some_ne_none _

theorem copySuffix_iff {text stem : List α} {digits : Option (List α)} : copySuffix s dot text = some (stem, digits) ↔
    CopyShape s text stem digits ∧ ∀ x ∈ stem, dot x = true := by
  have sound {result : List α × Option (List α)} (h : copySuffix s dot text = some result) :
      CopyShape s text result.1 result.2 ∧ ∀ x ∈ result.1, dot x = true := by
    obtain ⟨taken, rest, rfl, all, goes, least⟩ := lazilyFrom_eq_some h
    obtain ⟨rfl, after⟩ := afterStem_sound goes
    refine ⟨after.shape fun x last => ?_, all⟩
    -- a stem that ends in white space is not the shortest one
    by_contra blank
    rw [Bool.not_eq_false] at blank
    have split := (List.dropLast_append_getLast? x last).symm
    have wide : CopyTail s ([x] ++ rest) result.2 := after.widen fun y mem => List.mem_singleton.mp mem ▸ blank
    exact afterStem_complete _ wide (least _ [x] split (List.cons_ne_nil _ _))
  constructor
  · exact sound
  · rintro ⟨shape, all⟩
    obtain ⟨ends, tail, rfl, after⟩ := shape_tail shape
    have some : copySuffix s dot (stem ++ tail) ≠ none := (reads_lazily dot).complete all (afterStem_complete _ after)
    obtain ⟨result, found⟩ := Option.ne_none_iff_exists'.mp some
    have unique := shape.unique (sound found).1
    rw [found, unique.1, unique.2]

theorem CopyTail.map {α β : Type} {number : α → Nat} {number' : β → Nat} {f : α → β} {tail : List α}
    {digits : Option (List α)} (after : CopyTail (pathSyntax number) tail digits)
    (same : ∀ x ∈ tail, number' (f x) = number x) :
    CopyTail (pathSyntax number') (tail.map f) (digits.map (List.map f)) := by
  have run {p : Nat → Bool} {part : List α} (among : part ⊆ tail) (run : Run (fun x => p (number x)) part) :
      Run (fun y => p (number' y)) (part.map f) := by
    refine ⟨fun none => run.1 (List.map_eq_nil_iff.mp none), fun y mem => ?_⟩
    obtain ⟨x, here, rfl⟩ := List.mem_map.mp mem
    change p (number' (f x)) = true
    rw [same x (among here)]
    exact run.2 x here
  have spell {part : List α} (among : part ⊆ tail) (spells : Spells (pathSyntax number).letters part) :
      Spells (pathSyntax number').letters (part.map f) := by
    unfold Spells pathSyntax copySyntax at spells ⊢
    dsimp only at spells ⊢
    rw [List.forall₂_map_left_iff] at spells ⊢
    rw [List.forall₂_map_right_iff]
    generalize copyLetters = letters at spells
    induction spells with
    | nil => exact .nil
    | @cons letter x letters part first _ ih =>
      refine .cons ?_ (ih fun y mem => among (List.mem_cons_of_mem _ mem))
      change letterNumber letter (number' (f x)) = true
      rw [same x (among List.mem_cons_self)]
      exact first
  cases after with
  | plain blank spells =>
    rw [List.map_append]
    exact .plain (@run space _ (List.subset_append_left _ _) blank) (spell (List.subset_append_right _ _) spells)
  | numbered blank spells again number =>
    simp only [List.map_append]
    refine .numbered (@run space _ ?_ blank) (spell ?_ spells) (@run space _ ?_ again) (@run digitNumber _ ?_ number) <;>
      · intro x mem
        simp [mem]

theorem CopyTail.narrow {α : Type} {number : α → Nat} {tail : List α} {digits : Option (List α)}
    (after : CopyTail (pathSyntax number) tail digits) :
    ∀ x ∈ tail, (number x < 0xD800 ∨ 0xDFFF < number x) ∧ number x < 0x10000 := by
  have run {p : Nat → Bool} (narrow : Narrow p) {part : List α} (run : Run (fun x => p (number x)) part) :
      ∀ x ∈ part, (number x < 0xD800 ∨ 0xDFFF < number x) ∧ number x < 0x10000 :=
    fun x mem => narrow _ (run.2 x mem)
  have spell {part : List α} (spells : Spells (pathSyntax number).letters part) :
      ∀ x ∈ part, (number x < 0xD800 ∨ 0xDFFF < number x) ∧ number x < 0x10000 := by
    intro x mem
    obtain ⟨letter, among, met⟩ := spells.exists_letter mem
    obtain ⟨c, listed, rfl⟩ := List.mem_map.mp among
    have ascii := (copyLetters_range c listed).2
    exact narrow_letterNumber (by omega) _ met
  cases after with
  | plain blank spells =>
    exact fun x mem => (List.mem_append.mp mem).elim (run narrow_space blank x) (spell spells x)
  | numbered blank spells again number =>
    intro x mem
    simp only [List.mem_append] at mem
    obtain mem | mem | mem | mem := mem
    · exact run narrow_space blank x mem
    · exact spell spells x mem
    · exact run narrow_space again x mem
    · exact run narrow_digitNumber number x mem

theorem endsOff_utf16 (stem : Text) : EndsOff (pathSyntax UInt16.toNat).space (Text.utf16 stem) ↔
    EndsOff (pathSyntax Char.toNat).space stem := by
  obtain rfl | ⟨front, c, rfl⟩ := List.eq_nil_or_concat' stem
  · exact iff_of_true nofun nofun
  · obtain ⟨unit, last⟩ := Option.ne_none_iff_exists'.mp fun none =>
      Text.utf16Char_ne_nil c (List.getLast?_eq_none_iff.mp none)
    have end' : (Text.utf16 (front ++ [c])).getLast? = some unit := by
      rw [Text.utf16_append, Text.utf16_cons, Text.utf16_nil, List.append_nil,
        List.getLast?_append_of_ne_nil _ (Text.utf16Char_ne_nil c), last]
    have same : space unit.toNat = space c.toNat := narrow_utf16Char narrow_space (List.mem_of_getLast? last)
    unfold EndsOff
    rw [end', List.getLast?_concat]
    simp only [Option.mem_some_iff, forall_eq']
    change space unit.toNat = false ↔ space c.toNat = false
    rw [same]

theorem copySuffixUnits_iff {base : Text} {stemUnits : Units} {digitUnits : Option Units} :
    copySuffixUnits (Text.utf16 base) = some (stemUnits, digitUnits) ↔
      ∃ stem digits, CopyShape (pathSyntax Char.toNat) base stem digits ∧
        (∀ c ∈ stem, lineTerminator c.toNat = false) ∧ stemUnits = Text.utf16 stem ∧ digitUnits = digits.map Text.utf16 := by
  have oneLine (stem : Text) : (∀ unit ∈ Text.utf16 stem, (!lineTerminator unit.toNat) = true) ↔
      ∀ c ∈ stem, lineTerminator c.toNat = false := by
    simp only [Bool.not_eq_true']
    exact forall_utf16 narrow_lineTerminator false
  unfold copySuffixUnits
  rw [copySuffix_iff]
  constructor
  · rintro ⟨shape, all⟩
    obtain ⟨ends, tail, split, after⟩ := shape_tail shape
    have plain : ∀ unit ∈ tail, Text.whole unit = true := by
      intro unit mem
      unfold Text.whole
      rw [Bool.or_eq_true, decide_eq_true_eq, decide_eq_true_eq]
      exact (after.narrow unit mem).1
    obtain ⟨front, rfl, rfl⟩ := Text.utf16_split split plain
    have chars := after.map fun unit mem => Text.toNat_charOf (plain unit mem)
    refine ⟨front, _, chars.shape ((endsOff_utf16 front).mp ends), (oneLine front).mp all, rfl, ?_⟩
    rw [Option.map_map]
    cases digitUnits with
    | none => rfl
    | some digits =>
      have among : digits ⊆ tail := by
        cases after
        intro x mem
        simp [mem]
      exact congrArg some (Text.utf16_charOf fun unit mem => plain unit (among mem)).symm
  · rintro ⟨stem, digits, shape, all, rfl, rfl⟩
    obtain ⟨ends, tail, rfl, after⟩ := shape_tail shape
    have basic : ∀ c ∈ tail, c.toNat < 0x10000 := fun c mem => (after.narrow c mem).2
    have units := after.map fun c mem => unitOf_toNat (basic c mem)
    have encoded : digits.map (List.map unitOf) = digits.map Text.utf16 := by
      cases digits with
      | none => rfl
      | some digits =>
        have among : digits ⊆ tail := by
          cases after
          intro x mem
          simp [mem]
        exact congrArg some (utf16_basic fun c mem => basic c (among mem)).symm
    rw [← utf16_basic basic, encoded] at units
    rw [Text.utf16_append]
    exact ⟨units.shape ((endsOff_utf16 stem).mpr ends), (oneLine stem).mpr all⟩

end

/-- The suffix of a copy is the same under both notions of white space, and its stem is one line. -/
def SameSuffix (base : Text) : Prop :=
  ∀ stem digits, CopyShape rustSyntax base stem digits ↔
    CopyShape (pathSyntax Char.toNat) base stem digits ∧ ∀ c ∈ stem, lineTerminator c.toNat = false

def numberOf (digits : Text) : Nat := digits.foldl (fun value c => value * 10 + (c.toNat - '0'.toNat)) 0

theorem shape_digits {base stem digits : Text} {space : Nat → Bool} {apart : ∀ n, 48 ≤ n → n ≤ 122 → space n = false}
    (shape : CopyShape (copySyntax Char.toNat space apart) base stem (some digits)) :
    Run Char.isDigit digits := by
  cases shape with
  | numbered _ _ _ _ number => exact ⟨number.1, fun c mem => (isDigit_eq c).trans (number.2 c mem)⟩

theorem parseU32_digits {digits : Text} (number : Run Char.isDigit digits) :
    Text.parseU32 digits = if numberOf digits < 2 ^ 32 then some (numberOf digits) else none := by
  have noSign : digits.head? ≠ some '+' := fun sign =>
    absurd (number.2 '+' (List.mem_of_head? sign)) (by decide)
  unfold Text.parseU32 Text.parseU64
  dsimp only
  rw [if_neg noSign, if_pos ⟨number.1, List.all_eq_true.mpr number.2⟩]
  change (if numberOf digits < 2 ^ 64 then some (numberOf digits) else none).filter _ = _
  by_cases small : numberOf digits < 2 ^ 32
  · rw [if_pos (small.trans (by decide)), if_pos small]
    exact Option.filter_eq_some_iff.mpr ⟨rfl, decide_eq_true small⟩
  · rw [if_neg small]
    split
    · exact Option.filter_eq_none_iff.mpr fun value same => by
        cases same
        simpa using small
    · rfl

theorem toNumber_utf16 {digits : Text} (number : ∀ c ∈ digits, c.isDigit = true) :
    toNumber (Text.utf16 digits) = Double.ofNat (numberOf digits) := by
  have basic : ∀ c ∈ digits, c.toNat < 0x10000 := fun c mem =>
    (narrow_digitNumber c.toNat ((isDigit_eq c).symm.trans (number c mem))).2
  unfold toNumber numberOf
  rw [utf16_basic basic, List.foldl_map]
  congr 1
  refine List.foldl_ext _ _ _ fun value c mem => ?_
  rw [unitOf_toNat (basic c mem)]
  rfl

theorem digits_unique {α : Type} {number : α → Nat} {space space' : Nat → Bool}
    {apart : ∀ n, 48 ≤ n → n ≤ 122 → space n = false} {apart' : ∀ n, 48 ≤ n → n ≤ 122 → space' n = false}
    {text stem stem' : List α} {digits digits' : Option (List α)}
    (shape : CopyShape (copySyntax number space apart) text stem digits)
    (shape' : CopyShape (copySyntax number space' apart') text stem' digits') : digits = digits' := by
  generalize same : text = text' at shape'
  -- the text without its digits ends in a letter or in white space of either kind
  have lettered {front word : List α} (spells : Spells (copySyntax number space apart).letters word) :
      EndsOff (fun x => digitNumber (number x)) (front ++ word) := (spells_endsOff spells front).2
  have blank {front between : List α} (run : Run (copySyntax number space apart).space between) :
      EndsOff (fun x => digitNumber (number x)) (front ++ between) :=
    run.endsOff (copySyntax number space apart).space_digit front
  have blank' {front between : List α} (run : Run (copySyntax number space' apart').space between) :
      EndsOff (fun x => digitNumber (number x)) (front ++ between) :=
    run.endsOff (copySyntax number space' apart').space_digit front
  cases shape with
  | plain _ _ spells =>
    cases shape' with
    | plain => rfl
    | numbered _ _ _ again number =>
      exact absurd (run_unique ((List.append_nil _).trans same) (lettered spells) (blank' again) nofun number.2).2.symm
        number.1
  | numbered _ _ _ again number =>
    cases shape' with
    | plain _ _ spells =>
      exact absurd (run_unique (same.trans (List.append_nil _).symm) (blank again) (lettered spells) number.2 nofun).2
        number.1
    | numbered _ _ _ again' number' =>
      exact congrArg some (run_unique same (blank again) (blank' again') number.2 number'.2).2

theorem joinName_units (base ext : String) : joinName (units base) (units ext) = units (Client.joinName base ext) := by
  unfold joinName Client.joinName
  have empty : units ext = [] ↔ ext = "" := by
    rw [← units_inj]
    exact Iff.rfl
  rw [if_congr empty rfl rfl]
  split
  · rfl
  · rw [units_append, units_append]

theorem copyName_units (root ext : String) {n : Nat} (small : n < 2 ^ 52) :
    copyName (units root) (units ext) (some n) = units (Client.copyName root ext n) := by
  unfold copyName Client.copyName
  rw [← joinName_units, Double.toText_of_lt small, if_congr (Option.some_inj (a := n)) rfl rfl]
  congr 1
  split
  · rw [units_append]
  · rw [units_append, units_append, units_ofList (Text.decimal n)]

theorem toText_ne_copy {number : Double} : Double.toText number ≠ ['c', 'o', 'p', 'y'] := by
  intro same
  obtain digit | word | sign := @Double.mem_toText number 'c' (by rw [same]; exact List.mem_cons_self)
  · exact absurd digit (by decide)
  · exact absurd word (by decide)
  · exact absurd sign (by decide)

theorem toText_no_space {number : Double} : ' ' ∉ Double.toText number := by
  intro mem
  obtain digit | word | sign := Double.mem_toText mem
  · exact absurd digit (by decide)
  · exact absurd word (by decide)
  · exact absurd sign (by decide)

theorem copyStem_inj {root root' : Text} {r : Nat} {x : Double} (small : r < 2 ^ 32)
    (same : root ++ (if r = 1 then " copy".toList else " copy ".toList ++ Text.decimal r) =
      root' ++ (if x = some 1 then " copy".toList else " copy ".toList ++ Double.toText x)) :
    root = root' ∧ x = some r := by
  have number : Text.decimal r = Double.toText (some r) := (Double.toText_of_lt (small.trans (by decide))).symm
  have plain (root : Text) : root ++ " copy".toList = root ++ ' ' :: ['c', 'o', 'p', 'y'] := rfl
  have numbered (root number : Text) : root ++ (" copy ".toList ++ number) =
      (root ++ [' ', 'c', 'o', 'p', 'y']) ++ ' ' :: number := by simp
  have word : ' ' ∉ ['c', 'o', 'p', 'y'] := by decide
  rw [number] at same
  split at same
  · rename_i one
    subst one
    split at same
    · rename_i one
      exact ⟨List.append_cancel_right same, one⟩
    · rw [plain, numbered] at same
      exact absurd (last_split same word toText_no_space).2.symm toText_ne_copy
  · split at same
    · rw [plain, numbered] at same
      exact absurd (last_split same toText_no_space word).2 toText_ne_copy
    · rw [numbered, numbered] at same
      obtain ⟨fronts, numbers⟩ := last_split same toText_no_space toText_no_space
      exact ⟨List.append_cancel_right fronts,
        @Double.eq_of_toText x r 32 (by decide) small (numbers.symm.trans number.symm)⟩

theorem joinName_inj {base base' ext : Units} (same : joinName base ext = joinName base' ext) : base = base' := by
  unfold joinName at same
  split at same
  · exact same
  · exact List.append_cancel_right (List.append_cancel_right same)

theorem copyName_inj {root root' ext : String} {r : Nat} {x : Double} (small : r < 2 ^ 32)
    (same : units (Client.copyName root ext r) = copyName (units root') (units ext) x) : root = root' ∧ x = some r := by
  unfold Client.copyName copyName at same
  rw [← joinName_units] at same
  have stems := joinName_inj same
  have here : units (if r = 1 then root ++ " copy" else root ++ " copy " ++ String.ofList (Text.decimal r)) =
      Text.utf16 (root.toList ++ if r = 1 then " copy".toList else " copy ".toList ++ Text.decimal r) := by
    unfold units
    split <;> simp
  have there : (if x = some 1 then units root' ++ units " copy" else
      units root' ++ units " copy " ++ Text.utf16 (Double.toText x)) =
        Text.utf16 (root'.toList ++ if x = some 1 then " copy".toList else " copy ".toList ++ Double.toText x) := by
    unfold units
    split <;> simp
  rw [here, there, Text.utf16_inj] at stems
  obtain ⟨roots, number⟩ := copyStem_inj small stems
  exact ⟨String.toList_inj.mp roots, number⟩

def copyPart (n : Nat) : Text := if n = 1 then " copy".toList else " copy ".toList ++ Text.decimal n

theorem copyName_toList (root ext : String) (n : Nat) : (Client.copyName root ext n).toList =
    root.toList ++ copyPart n ++ if ext = "" then [] else '.' :: ext.toList := by
  unfold Client.copyName Client.joinName copyPart
  split <;> split <;> simp

theorem toLower_decimal {c : Char} {n : Nat} (mem : c ∈ Text.decimal n) : c.toNat < 128 ∧ c.toLower = c := by
  have digit := Text.isDigit_of_mem_decimal mem
  rw [isDigit_eq, digitNumber, Bool.and_eq_true, decide_eq_true_eq, decide_eq_true_eq] at digit
  rw [← Char.toNat_inj, toNat_toLower, if_neg (by omega)]
  exact ⟨by omega, rfl⟩

theorem succ_iterate_large {v r : Nat} {steps : Nat} (large : 2 ^ 32 ≤ v) (h : Double.succ^[steps] (some v) = some r) :
    2 ^ 32 ≤ r := by
  induction steps generalizing v with
  | zero => exact Option.some.inj h ▸ large
  | succ steps ih =>
    rw [Function.iterate_succ_apply] at h
    cases next : Double.succ (some v) with
    | none =>
      rw [next, Function.iterate_fixed rfl] at h
      cases h
    | some next' =>
      rw [next] at h
      exact ih (@Double.le_of_succ v 32 _ (by decide) large next) h

theorem succ_iterate {v : Double} {r steps : Nat} (small : r < 2 ^ 32) (h : Double.succ^[steps] v = some r) :
    v = some (r - steps) ∧ steps ≤ r := by
  cases v with
  | none =>
    rw [Function.iterate_fixed rfl] at h
    cases h
  | some v =>
    have low : v < 2 ^ 32 := by
      by_contra large
      exact absurd (succ_iterate_large (not_lt.mp large) h) (not_le.mpr small)
    have reached : r = v + steps := by
      induction steps generalizing v with
      | zero => exact (Option.some.inj h).symm
      | succ steps ih =>
        rw [Function.iterate_succ_apply, Double.succ_of_lt (by omega)] at h
        have next : v + 1 < 2 ^ 32 := by
          by_contra large
          exact absurd (succ_iterate_large (not_lt.mp large) h) (not_le.mpr small)
        have := ih (v + 1) h next
        omega
    exact ⟨by rw [reached, Nat.add_sub_cancel], by omega⟩

section

variable [UnicodeLowercase]

theorem taken_units (existing : List String) (name : String) :
    taken (existing.map units) (units name) = Client.taken existing name := by
  unfold taken Client.taken
  rw [List.any_map]
  congr 1
  funext other
  rw [Function.comp_apply, UnicodeLowercase.lowerUnits_units, UnicodeLowercase.lowerUnits_units, decide_eq_decide]
  exact units_inj

theorem uniqueNameLoop_copy {existing : List Units} {root ext name : Units} {fuel : Nat} {n : Double}
    (h : uniqueNameLoop existing root ext fuel n = some name) :
    ∃ steps, name = copyName root ext (Double.succ^[steps + 1] n) := by
  induction fuel generalizing n with
  | zero => cases h
  | succ fuel ih =>
    unfold uniqueNameLoop at h
    dsimp only at h
    split at h
    · obtain ⟨steps, same⟩ := ih h
      exact ⟨steps + 1, same⟩
    · cases h
      exact ⟨0, rfl⟩

theorem uniqueNameLoop_units {existing : List String} {root ext : String} {fuel n number : Nat} (above : n < number)
    (small : number < 2 ^ 32) (free : Client.taken existing (Client.copyName root ext number) = false) :
    uniqueNameLoop (existing.map units) (units root) (units ext) fuel (some n) =
      (Client.uniqueNameLoop existing root ext fuel n).map units := by
  induction fuel generalizing n with
  | zero => rfl
  | succ fuel ih =>
    unfold uniqueNameLoop Client.uniqueNameLoop
    dsimp only
    rw [Double.succ_of_lt (by omega), copyName_units root ext (by omega), taken_units, Nat.mod_eq_of_lt (by omega)]
    split
    · rename_i isTaken
      have other : n + 1 ≠ number := by
        rintro rfl
        rw [free] at isTaken
        cases isTaken
      exact ih (by omega)
    · rfl

def folded (text : Text) : Text := (text.flatMap UnicodeLowercase.mapping).map oneSigma

theorem folded_append (left right : Text) : folded (left ++ right) = folded left ++ folded right := by
  unfold folded
  rw [List.flatMap_append, List.map_append]

theorem folded_kept {text : Text} (kept : ∀ c ∈ text, c.toNat < 128 ∧ c.toLower = c) : folded text = text := by
  have single : ∀ c ∈ text, UnicodeLowercase.mapping c = [c] := fun c mem => by
    rw [UnicodeLowercase.mapping_ascii c (kept c mem).1, (kept c mem).2]
  unfold folded
  rw [List.flatMap_congr single, List.flatMap_singleton']
  exact map_oneSigma_ascii fun c mem => (kept c mem).1

theorem folded_of_lower {left right : String} (same : lower left = lower right) :
    folded left.toList = folded right.toList := by
  unfold folded
  rw [← UnicodeLowercase.lower_mapping, ← UnicodeLowercase.lower_mapping, same]

theorem folded_copyPart (n : Nat) : folded (copyPart n) = copyPart n := by
  have word : ∀ c ∈ " copy ".toList, c.toNat < 128 ∧ c.toLower = c := by simp
  refine folded_kept fun c mem => ?_
  unfold copyPart at mem
  split at mem
  · exact word c ((by decide : " copy".toList ⊆ " copy ".toList) mem)
  · exact (List.mem_append.mp mem).elim (word c) toLower_decimal

theorem lower_copyName {root ext : String} {a b : Nat}
    (same : lower (Client.copyName root ext a) = lower (Client.copyName root ext b)) : a = b := by
  have folds := folded_of_lower same
  simp only [copyName_toList, folded_append, folded_copyPart] at folds
  have parts := List.append_cancel_left (List.append_cancel_right folds)
  unfold copyPart at parts
  split at parts
  · split at parts
    · omega
    · exact absurd (congrArg List.length parts) (by simp)
  · split at parts
    · exact absurd (congrArg List.length parts) (by simp)
    · exact Text.decimal_inj (List.append_cancel_left parts)

end

end QuantumFs.Client.Path
