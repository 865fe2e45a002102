import QuantumFs.Client.MirroredCopies

/-! Where the naming rules of the client and of its web view agree. -/
namespace QuantumFs.Client.Path

open Lib Pattern

section

variable {α : Type} {number : α → Nat} {space space' : Nat → Bool} {apart : ∀ n, 48 ≤ n → n ≤ 122 → space n = false}
  {apart' : ∀ n, 48 ≤ n → n ≤ 122 → space' n = false}

theorem shape_respace {text stem : List α} {digits : Option (List α)}
    (shape : CopyShape (copySyntax number space apart) text stem digits)
    (same : ∀ x ∈ text, space (number x) = space' (number x)) :
    CopyShape (copySyntax number space' apart') text stem digits := by
  have run {part : List α} (among : part ⊆ text) (run : Run (copySyntax number space apart).space part) :
      Run (copySyntax number space' apart').space part :=
    ⟨run.1, fun x mem => (same x (among mem)).symm.trans (run.2 x mem)⟩
  have off {part : List α} (among : part ⊆ text) (ends : EndsOff (copySyntax number space apart).space part) :
      EndsOff (copySyntax number space' apart').space part :=
    fun x last => (same x (among (List.mem_of_getLast? last))).symm.trans (ends x last)
  cases shape with
  | plain ends blank spells =>
    refine .plain (off ?_ ends) (run ?_ blank) spells <;>
      · intro x mem
        simp [mem]
  | numbered ends blank spells again digits =>
    refine .numbered (off ?_ ends) (run ?_ blank) spells (run ?_ again) digits <;>
      · intro x mem
        simp [mem]

end

/-- No character that one side takes for white space and the other does not, and no end of a line. -/
def Ordinary (text : Text) : Prop :=
  ∀ c ∈ text, rustSpace c.toNat = space c.toNat ∧ lineTerminator c.toNat = false

instance (text : Text) : Decidable (Ordinary text) := List.decidableBAll _ text

theorem shape_begins {α : Type} {s : CopySyntax α} {text stem : List α} {digits : Option (List α)}
    (shape : CopyShape s text stem digits) : stem <+: text ∧ stem ≠ text := by
  obtain ⟨-, tail, rfl, after⟩ := shape_tail shape
  refine ⟨List.prefix_append _ _, fun same => ?_⟩
  have none : tail = [] := List.self_eq_append_right.mp same
  cases after with
  | plain blank => exact blank.1 (List.append_eq_nil_iff.mp none).1
  | numbered blank => exact blank.1 (List.append_eq_nil_iff.mp none).1

theorem sameSuffix_of_ordinary {base : Text} (ordinary : Ordinary base) : SameSuffix base := by
  intro stem digits
  constructor
  · intro shape
    exact ⟨shape_respace shape fun c mem => (ordinary c mem).1,
      fun c mem => (ordinary c ((shape_begins shape).1.subset mem)).2⟩
  · rintro ⟨shape, -⟩
    exact shape_respace shape fun c mem => (ordinary c mem).1.symm

theorem sameSuffix_of_shapes {base stem : Text} {digits : Option Text} (rust : CopyShape rustSyntax base stem digits)
    (web : CopyShape (pathSyntax Char.toNat) base stem digits) (line : ∀ c ∈ stem, lineTerminator c.toNat = false) :
    SameSuffix base := by
  intro stem' digits'
  constructor
  · intro shape
    obtain ⟨rfl, rfl⟩ := rust.unique shape
    exact ⟨web, line⟩
  · rintro ⟨shape, -⟩
    obtain ⟨rfl, rfl⟩ := web.unique shape
    exact rust

/-- What the names of the copies of `base` start with, and the number that they count from. -/
inductive Origin (base : Text) : Text → Nat → Prop
  | bare (plain : ∀ stem digits, ¬CopyShape rustSyntax base stem digits) : Origin base base 0
  | copy {stem : Text} (shape : CopyShape rustSyntax base stem none) : Origin base stem 1
  | numbered {stem digits : Text} (shape : CopyShape rustSyntax base stem (some digits)) :
      Origin base stem (numberOf digits)

theorem origin_of_parse {base stem : Text} {n : Nat} (parsed : parseCopySuffix base = some (stem, some n)) :
    Origin base stem n := by
  obtain ⟨digits, shape, same⟩ := parseCopySuffix_iff.mp parsed
  cases digits with
  | none => cases same
  | some digits =>
    rw [Option.bind_some, parseU32_digits (shape_digits shape)] at same
    obtain ⟨-, same⟩ := Option.ite_none_right_eq_some.mp same.symm
    exact Option.some.inj same ▸ .numbered shape

section

variable [UnicodeLowercase]

theorem uniqueNameLoop_none {existing : List String} {root ext : String} {fuel n : Nat}
    (h : Client.uniqueNameLoop existing root ext fuel n = none) {number : Nat} (above : n < number)
    (near : number ≤ n + fuel) (small : number < 2 ^ 32) :
    Client.taken existing (Client.copyName root ext number) = true := by
  induction fuel generalizing n with
  | zero => omega
  | succ fuel ih =>
    unfold Client.uniqueNameLoop at h
    dsimp only at h
    rw [Nat.mod_eq_of_lt (by omega)] at h
    split at h
    · rename_i isTaken
      obtain rfl | later := Nat.eq_or_lt_of_le (Nat.succ_le_of_lt above)
      · exact isTaken
      · exact ih h later (by omega)
    · cases h

theorem taken_few {existing : List String} {root ext : String} {numbers : List Nat} (distinct : numbers.Nodup)
    (all : ∀ number ∈ numbers, Client.taken existing (Client.copyName root ext number) = true) :
    numbers.length ≤ existing.length := by
  let names := numbers.map fun number => lower (Client.copyName root ext number)
  have different : names.Nodup := distinct.map fun _ _ same => lower_copyName same
  have within : names ⊆ existing.map lower := by
    intro name mem
    obtain ⟨number, among, rfl⟩ := List.mem_map.mp mem
    have isTaken := all number among
    unfold Client.taken at isTaken
    obtain ⟨other, listed, same⟩ := List.any_eq_true.mp isTaken
    exact List.mem_map.mpr ⟨other, listed, of_decide_eq_true same⟩
  have fits := (different.subperm within).length_le
  rwa [List.length_map, List.length_map] at fits

theorem uniqueNameLoop_finds {existing : List String} {root ext : String} {n number : Nat} (above : n < number)
    (small : number < 2 ^ 32) (free : Client.taken existing (Client.copyName root ext number) = false) :
    ∃ name, Client.uniqueNameLoop existing root ext (existing.length + 1) n = some name := by
  rw [← Option.ne_none_iff_exists']
  intro none
  have far : n + (existing.length + 1) < number := by
    by_contra near
    rw [uniqueNameLoop_none none above (not_lt.mp near) small] at free
    cases free
  have few := @taken_few _ existing root ext (List.range' (n + 1) (existing.length + 1)) List.nodup_range'
    fun other mem => by
      rw [List.mem_range'_1] at mem
      exact uniqueNameLoop_none none (by omega) (by omega) (by omega)
  rw [List.length_range'] at few
  omega

/-- What the web view has the names of copies start with, and the number it counts from. -/
def copyOrigin (desired : Units) : Units × Double :=
  match copySuffixUnits (splitName desired).1 with
  | some (root, digits) => (root, (digits.map toNumber).getD (some 1))
  | none => ((splitName desired).1, some 0)

theorem uniqueName_def (rounds : Nat) (existing : List Units) (desired : Units) :
    uniqueName rounds existing desired = if taken existing desired then
      uniqueNameLoop existing (copyOrigin desired).1 (splitName desired).2 rounds (copyOrigin desired).2
    else some desired := by
  unfold uniqueName copyOrigin
  generalize splitName desired = parts
  obtain ⟨base, ext⟩ := parts
  rcases suffix : copySuffixUnits base with _ | ⟨root, digits⟩
  · simp only [suffix]
  · simp only [suffix]

def baseOf (name : String) : Text := (Client.splitName name).1.toList

theorem copyOrigin_rust {name : String} {stem : Text} {digits : Option Text}
    (shape : CopyShape rustSyntax (baseOf name) stem digits) :
    Client.copyOrigin name = (String.ofList stem, (digits.bind Text.parseU32).getD 1) := by
  unfold Client.copyOrigin
  rw [← baseOf, parseCopySuffix_iff.mpr ⟨digits, shape, rfl⟩]

theorem copyOrigin_rust_none {name : String} (none : ∀ stem digits, ¬CopyShape rustSyntax (baseOf name) stem digits) :
    Client.copyOrigin name = ((Client.splitName name).1, 0) := by
  have noSuffix : parseCopySuffix (baseOf name) = .none := Option.eq_none_iff_forall_ne_some.mpr fun found same =>
    have ⟨digits, shape, _⟩ := parseCopySuffix_iff.mp same
    none _ digits shape
  unfold Client.copyOrigin
  rw [← baseOf, noSuffix]

theorem splitName_base (name : String) : (splitName (units name)).1 = Text.utf16 (baseOf name) := by
  rw [splitName_units]
  rfl

theorem copyOrigin_web {name : String} {stem : Text} {digits : Option Text}
    (shape : CopyShape (pathSyntax Char.toNat) (baseOf name) stem digits)
    (line : ∀ c ∈ stem, lineTerminator c.toNat = false) :
    copyOrigin (units name) = (Text.utf16 stem, (digits.map fun digits => Double.ofNat (numberOf digits)).getD (some 1)) := by
  unfold copyOrigin
  rw [splitName_base, copySuffixUnits_iff.mpr ⟨stem, digits, shape, line, rfl, rfl⟩]
  cases digits with
  | none => rfl
  | some digits =>
    dsimp only [Option.map_some, Option.getD_some]
    rw [toNumber_utf16 (shape_digits shape).2]

theorem copyOrigin_web_none {name : String} (none : ∀ stem digits,
    CopyShape (pathSyntax Char.toNat) (baseOf name) stem digits → ¬∀ c ∈ stem, lineTerminator c.toNat = false) :
    copyOrigin (units name) = (Text.utf16 (baseOf name), some 0) := by
  have noSuffix : copySuffixUnits (Text.utf16 (baseOf name)) = .none :=
    Option.eq_none_iff_forall_ne_some.mpr fun found same =>
      have ⟨_, digits, shape, line, _⟩ := copySuffixUnits_iff.mp same
      none _ digits shape line
  unfold copyOrigin
  rw [splitName_base, noSuffix]

theorem Origin.rust {name : String} {root : Text} {n : Nat} (origin : Origin (baseOf name) root n) (small : n < 2 ^ 32) :
    Client.copyOrigin name = (String.ofList root, n) := by
  cases origin with
  | bare plain =>
    rw [copyOrigin_rust_none plain]
    unfold baseOf
    rw [String.ofList_toList]
  | copy shape =>
    rw [copyOrigin_rust shape]
    rfl
  | numbered shape =>
    rw [copyOrigin_rust shape, Option.bind_some, parseU32_digits (shape_digits shape), if_pos small]
    rfl

theorem Origin.web {name : String} {root : Text} {n : Nat} (origin : Origin (baseOf name) root n) (small : n < 2 ^ 32)
    (suffix : SameSuffix (baseOf name)) : copyOrigin (units name) = (Text.utf16 root, some n) := by
  cases origin with
  | bare plain =>
    exact copyOrigin_web_none fun stem digits shape line => plain stem digits ((suffix stem digits).mpr ⟨shape, line⟩)
  | copy shape =>
    obtain ⟨shape, line⟩ := (suffix _ _).mp shape
    rw [copyOrigin_web shape line]
    rfl
  | numbered shape =>
    obtain ⟨shape, line⟩ := (suffix _ _).mp shape
    rw [copyOrigin_web shape line]
    dsimp only [Option.map_some, Option.getD_some]
    rw [Double.ofNat_of_lt (small.trans (by decide))]

theorem origin_of_same {name : String} {number : Nat} (small : number < 2 ^ 32)
    (h : copyOrigin (units name) = (units (Client.copyOrigin name).1, some number)) :
    SameSuffix (baseOf name) ∧ ∃ root, Origin (baseOf name) root number := by
  by_cases read : ∃ stem digits, CopyShape (pathSyntax Char.toNat) (baseOf name) stem digits ∧
      ∀ c ∈ stem, lineTerminator c.toNat = false
  · obtain ⟨stem, digits, web, line⟩ := read
    rw [copyOrigin_web web line, Prod.mk.injEq] at h
    obtain ⟨roots, counted⟩ := h
    by_cases carried : ∃ stem digits, CopyShape rustSyntax (baseOf name) stem digits
    · obtain ⟨stem', digits', rust⟩ := carried
      rw [copyOrigin_rust rust, units_ofList, Text.utf16_inj] at roots
      subst roots
      obtain rfl := digits_unique web rust
      refine ⟨sameSuffix_of_shapes rust web line, stem, ?_⟩
      cases digits with
      | none =>
        cases counted
        exact .copy rust
      | some digits =>
        dsimp only [Option.map_some, Option.getD_some] at counted
        have fits : numberOf digits < 2 ^ 32 := by
          by_contra large
          exact absurd (@Double.le_of_ofNat _ 32 _ (by decide) (not_lt.mp large) counted) (not_le.mpr small)
        rw [Double.ofNat_of_lt (fits.trans (by decide))] at counted
        exact Option.some.inj counted ▸ .numbered rust
    · rw [copyOrigin_rust_none fun stem digits rust => carried ⟨stem, digits, rust⟩] at roots
      exact absurd (Text.utf16_inj.mp roots) (shape_begins web).2
  · rw [copyOrigin_web_none fun stem digits web line => read ⟨stem, digits, web, line⟩, Prod.mk.injEq] at h
    obtain ⟨roots, counted⟩ := h
    have plain : ∀ stem digits, ¬CopyShape rustSyntax (baseOf name) stem digits := by
      intro stem digits rust
      rw [copyOrigin_rust rust, units_ofList, Text.utf16_inj] at roots
      exact (shape_begins rust).2 roots.symm
    refine ⟨fun stem digits => iff_of_false (plain stem digits) fun web => read ⟨stem, digits, web⟩, baseOf name, ?_⟩
    cases counted
    exact .bare plain

/-- What makes a name that is taken lead to the same free one: its suffix is read alike, and below
`2 ^ 32` and above the number that it carries there is one that is free. -/
def SameUnique (existing : List String) (name : String) : Prop :=
  Client.taken existing name = true → SameSuffix (baseOf name) ∧ ∃ root n number, Origin (baseOf name) root n ∧
    n < number ∧ number < 2 ^ 32 ∧
    Client.taken existing (Client.copyName (String.ofList root) (Client.splitName name).2 number) = false

/-- Both sides find the same fault in a name, split it alike, and make the same free name of it. -/
structure Agrees (existing : List String) (name : String) : Prop where
  error : nameError name = validateName (units name)
  split : splitName (units name) = (units (Client.splitName name).1, units (Client.splitName name).2)
  unique : ∃ made, Client.uniqueName existing name = some made ∧
    ∃ rounds, uniqueName rounds (existing.map units) (units name) = some (units made)

theorem uniqueName_of_same {existing : List String} {name : String} (same : SameUnique existing name) :
    ∃ made, Client.uniqueName existing name = some made ∧
      ∃ rounds, uniqueName rounds (existing.map units) (units name) = some (units made) := by
  simp only [Client.uniqueName_def, uniqueName_def, taken_units]
  cases isTaken : Client.taken existing name with
  | false => exact ⟨name, if_neg Bool.false_ne_true, 0, if_neg Bool.false_ne_true⟩
  | true =>
    obtain ⟨suffix, root, n, number, origin, above, small, free⟩ := same isTaken
    obtain ⟨made, found⟩ := uniqueNameLoop_finds above small free
    have below := above.trans small
    rw [if_pos rfl, origin.rust below, found]
    refine ⟨made, rfl, existing.length + 1, ?_⟩
    rw [if_pos rfl, origin.web below suffix, splitName_units, ← units_ofList, uniqueNameLoop_units above small free,
      found, Option.map_some]

theorem copyOrigin_root (name : String) : ∃ root, (copyOrigin (units name)).1 = units root := by
  unfold copyOrigin
  split
  · rename_i root digits found
    rw [splitName_base] at found
    obtain ⟨stem, -, -, -, same, -⟩ := copySuffixUnits_iff.mp found
    exact ⟨String.ofList stem, same.trans (units_ofList stem).symm⟩
  · exact ⟨(Client.splitName name).1, splitName_base name⟩

theorem same_of_uniqueName {existing : List String} {name made : String} {rounds : Nat}
    (rust : Client.uniqueName existing name = some made)
    (web : uniqueName rounds (existing.map units) (units name) = some (units made)) : SameUnique existing name := by
  intro isTaken
  rw [Client.uniqueName_def, if_pos isTaken] at rust
  rw [uniqueName_def, taken_units, if_pos isTaken, splitName_units] at web
  dsimp only at web
  obtain ⟨steps, same, free, -⟩ := uniqueNameLoop_eq_some rust
  obtain ⟨steps', same'⟩ := uniqueNameLoop_copy web
  obtain ⟨root, isRoot⟩ := copyOrigin_root name
  have small : ((Client.copyOrigin name).2 + 1 + steps) % 2 ^ 32 < 2 ^ 32 := Nat.mod_lt _ (by decide)
  generalize ((Client.copyOrigin name).2 + 1 + steps) % 2 ^ 32 = number at same small
  rw [same, isRoot] at same'
  obtain ⟨roots, reached⟩ := copyName_inj small same'
  obtain ⟨start, counted⟩ := succ_iterate small reached
  have whole : copyOrigin (units name) = (units (Client.copyOrigin name).1, some (number - (steps' + 1))) := by
    rw [← start, roots, ← isRoot]
  obtain ⟨suffix, origin⟩ := origin_of_same (by omega) whole
  obtain ⟨root', origin⟩ := origin
  refine ⟨suffix, root', _, number, origin, by omega, small, ?_⟩
  have rustOrigin := origin.rust (by omega)
  rw [rustOrigin] at same
  rw [← same]
  exact free

/-- The rules of the client and of the web view agree on a name and the names beside it just when the
name is blank, or too long, on both sides or on neither, and, where it is taken, both read the same
suffix of a copy from it and can count to a free number of 32 bits. -/
theorem names_agree (existing : List String) (name : String) :
    Agrees existing name ↔ SameCheck name ∧ SameUnique existing name := by
  constructor
  · rintro ⟨error, -, made, rust, rounds, web⟩
    exact ⟨(nameError_eq_validateName name).mp error, same_of_uniqueName rust web⟩
  · rintro ⟨check, unique⟩
    exact ⟨(nameError_eq_validateName name).mpr check, splitName_units name, uniqueName_of_same unique⟩

end

def asciiMapping (c : Char) : Text := if c.toNat < 128 then [c.toLower] else if c = '\u212a' then ['k'] else [c]

def asciiUnit (unit : UInt16) : UInt16 :=
  if 65 ≤ unit.toNat ∧ unit.toNat ≤ 90 then unit + 32 else if unit.toNat = 0x212A then 107 else unit

theorem asciiUnit_utf16Char (c : Char) : (Text.utf16Char c).map asciiUnit = Text.utf16 (asciiMapping c) := by
  by_cases ascii : c.toNat < 128
  · have lowered : c.toLower.toNat < 128 := by
      rw [toNat_toLower]
      split <;> omega
    have mapped : asciiMapping c = [c.toLower] := if_pos ascii
    have same : asciiUnit (unitOf c) = unitOf c.toLower := by
      rw [← UInt16.toNat_inj, unitOf_toNat (lowered.trans (by decide)), toNat_toLower]
      unfold asciiUnit
      rw [unitOf_toNat (ascii.trans (by decide))]
      split
      · rw [UInt16.toNat_add, unitOf_toNat (ascii.trans (by decide))]
        exact Nat.mod_eq_of_lt (by change c.toNat + 32 < _; omega)
      · rw [if_neg (by omega), unitOf_toNat (ascii.trans (by decide))]
    rw [mapped, Text.utf16_cons, utf16Char_ascii ascii, utf16Char_ascii lowered, Text.utf16_nil, List.map_singleton,
      same]
    rfl
  · by_cases kelvin : c = '\u212a'
    · subst kelvin
      decide
    · have mapped : asciiMapping c = [c] := (if_neg ascii).trans (if_neg kelvin)
      have notKelvin : c.toNat ≠ 0x212A := fun same => kelvin (Char.toNat_inj.mp same)
      rw [mapped, Text.utf16_cons, Text.utf16_nil, List.append_nil]
      refine (List.map_congr_left fun unit mem => ?_).trans (List.map_id _)
      have narrow : Narrow fun n => n < 128 || n == 0x212A := by
        intro n here
        rw [Bool.or_eq_true, decide_eq_true_eq, beq_iff_eq] at here
        omega
      have other := narrow_utf16Char narrow mem
      have outside : (decide (c.toNat < 128) || c.toNat == 0x212A) = false :=
        Bool.or_eq_false_iff.mpr ⟨decide_eq_false ascii, beq_false_of_ne notKelvin⟩
      rw [outside, Bool.or_eq_false_iff, decide_eq_false_iff_not, beq_eq_false_iff_ne] at other
      unfold asciiUnit
      rw [if_neg (by omega), if_neg other.2]
      rfl

section

local instance asciiLowercase : UnicodeLowercase where
  lower name := String.ofList (name.toList.flatMap asciiMapping)
  lowerUnits name := name.map asciiUnit
  mapping := asciiMapping
  lowerUnits_units name := by
    rw [units_ofList]
    unfold units Text.utf16
    rw [List.map_flatMap, List.flatMap_assoc]
    exact List.flatMap_congr fun c _ => asciiUnit_utf16Char c
  lower_mapping name := by rw [String.toList_ofList]
  mapping_ascii c ascii := if_pos ascii
  mapping_kelvin := by decide
  mapping_other c wide other := ⟨[], c, (if_neg (not_lt.mpr wide)).trans (if_neg other), wide⟩

/-- A copy of a copy gets the same name on both sides. -/
theorem names_agree_copy : Agrees ["x copy 2.txt"] "x copy 2.txt" := by
  have base : baseOf "x copy 2.txt" = "x copy 2".toList := by decide +kernel
  refine (names_agree _ _).mpr ⟨(nameError_eq_validateName _).mp (by decide +kernel), fun _ => ?_⟩
  rw [base]
  exact ⟨sameSuffix_of_ordinary (by decide), ['x'], 2, 3, origin_of_parse (by decide +kernel), by decide, by decide,
    by decide +kernel⟩

/-- The client counts 128 characters where the web view counts 256 code units. -/
theorem names_differ : ¬∀ (existing : List String) (name : String), Agrees existing name := by
  intro all
  have fault := (all [] (String.ofList (List.replicate 128 '😀'))).error
  unfold nameError at fault
  rw [String.toList_ofList, units_ofList] at fault
  revert fault
  decide +kernel

end

end QuantumFs.Client.Path
