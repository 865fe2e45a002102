import Mathlib

/-! Text as a list of characters: lines, fields and blanks, as the standard
library of the program reads them. -/
namespace QuantumFs.Lib

abbrev Text := List Char

namespace Text

/-- The characters with the property `White_Space`. -/
def isBlank (c : Char) : Bool :=
  (9 ≤ c.val && c.val ≤ 13) || (0x2000 ≤ c.val && c.val ≤ 0x200A) ||
    [0x20, 0x85, 0xA0, 0x1680, 0x2028, 0x2029, 0x202F, 0x205F, 0x3000].contains c.val

def trim (text : Text) : Text :=
  ((text.dropWhile isBlank).reverse.dropWhile isBlank).reverse

def trimEnd (text : Text) : Text := text.rdropWhile isBlank

def stripPrefix (start text : Text) : Option Text :=
  if start.isPrefixOf text = true then some (text.drop start.length) else none

def byteLength (text : Text) : Nat := (text.map Char.utf8Size).sum

def splitOnce (separator : Char) : Text → Option (Text × Text)
  | [] => none
  | c :: text =>
    if c = separator then some ([], text)
    else (splitOnce separator text).map fun (before, after) => (c :: before, after)

def endLine (line : Text) : Text := if line.getLast? = some '\r' then line.dropLast else line

def linesFrom (line : Text) : Text → List Text
  | [] => if line = [] then [] else [line]
  | c :: text =>
    if c = '\n' then endLine line :: linesFrom [] text else linesFrom (line ++ [c]) text

def lines (text : Text) : List Text := linesFrom [] text

/-- The lines as a buffered reader returns them, each with its line feed. -/
def chunksFrom (line : Text) : Text → List Text
  | [] => if line = [] then [] else [line]
  | c :: text =>
    if c = '\n' then (line ++ ['\n']) :: chunksFrom [] text else chunksFrom (line ++ [c]) text

def wordsFrom (word : Text) : Text → List Text
  | [] => if word = [] then [] else [word]
  | c :: text =>
    if isBlank c = true then
      if word = [] then wordsFrom [] text else word :: wordsFrom [] text
    else wordsFrom (word ++ [c]) text

def splitWhitespace (text : Text) : List Text := wordsFrom [] text

def joinWith (separator : Char) : List Text → Text
  | [] => []
  | [text] => text
  | text :: texts => text ++ separator :: joinWith separator texts

def oneLine (text : Text) : Text := text.map fun c => if c = '\n' ∨ c = '\r' then ' ' else c

def decimal (value : Nat) : Text := Nat.toDigits 10 value

def hex (bytes : List UInt8) : Text :=
  bytes.flatMap fun byte => [Nat.digitChar (byte.toNat / 16), Nat.digitChar (byte.toNat % 16)]

def parseU64 (text : Text) : Option Nat :=
  let digits := if text.head? = some '+' then text.tail else text
  if digits ≠ [] ∧ digits.all Char.isDigit = true then
    let value := digits.foldl (fun value c => value * 10 + (c.toNat - '0'.toNat)) 0
    if value < 2 ^ 64 then some value else none
  else none

def parseU32 (text : Text) : Option Nat := (parseU64 text).filter (· < 2 ^ 32)

/-- A text of one word. -/
def Solid (text : Text) : Prop := text ≠ [] ∧ ∀ c ∈ text, isBlank c = false

instance (text : Text) : Decidable (Solid text) :=
  decidable_of_iff (text ≠ [] ∧ text.all (fun c => !isBlank c) = true) (by simp [Solid])

theorem trim_of_solid {text : Text} (solid : ∀ c ∈ text, isBlank c = false) : trim text = text := by
  have kept : ∀ {chars : Text}, (∀ c ∈ chars, isBlank c = false) → chars.dropWhile isBlank = chars := by
    intro chars solid
    cases chars with
    | nil => rfl
    | cons c chars => rw [List.dropWhile_cons, if_neg (by rw [solid c List.mem_cons_self]; decide)]
  unfold trim
  rw [kept solid, kept fun c mem => solid c (List.mem_reverse.mp mem), List.reverse_reverse]

theorem trim_trim (text : Text) : trim (trim text) = trim text := by
  have front : (trim text).dropWhile isBlank = trim text := by
    obtain ⟨rest, whole⟩ : trim text <+: text.dropWhile isBlank := List.rdropWhile_prefix isBlank _
    have again := List.dropWhile_idempotent isBlank text
    rw [← whole] at again
    cases first : trim text with
    | nil => rfl
    | cons c chars =>
      rw [first, List.cons_append] at again
      rw [List.dropWhile_cons_of_neg fun blank => ?_]
      rw [List.dropWhile_cons_of_pos blank] at again
      have shorter := (List.dropWhile_suffix (l := chars ++ rest) isBlank).length_le
      rw [again] at shorter
      exact absurd shorter (Nat.not_succ_le_self _)
  change ((trim text).dropWhile isBlank).rdropWhile isBlank = trim text
  rw [front]
  exact List.rdropWhile_idempotent isBlank _

theorem splitOnce_append {separator : Char} {before : Text} (absent : separator ∉ before)
    (after : Text) : splitOnce separator (before ++ separator :: after) = some (before, after) := by
  induction before with
  | nil => exact if_pos rfl
  | cons c before ih =>
    obtain ⟨different, absent⟩ := List.ne_and_not_mem_of_not_mem_cons absent
    rw [List.cons_append, splitOnce, if_neg different.symm, ih absent]
    rfl

theorem linesFrom_append {text : Text} (single : '\n' ∉ text) (line rest : Text) :
    linesFrom line (text ++ '\n' :: rest) = endLine (line ++ text) :: linesFrom [] rest := by
  induction text generalizing line with
  | nil =>
    rw [List.nil_append, linesFrom, if_pos rfl, List.append_nil]
  | cons c text ih =>
    obtain ⟨different, single⟩ := List.ne_and_not_mem_of_not_mem_cons single
    rw [List.cons_append, linesFrom, if_neg different.symm, ih single, List.append_assoc]
    rfl

theorem endLine_of_not_mem {line : Text} (absent : '\r' ∉ line) : endLine line = line := by
  refine if_neg fun last => absent ?_
  exact List.mem_of_getLast? last

theorem lines_append {line : Text} (single : '\n' ∉ line) (plain : '\r' ∉ line) (rest : Text) :
    lines (line ++ '\n' :: rest) = line :: lines rest := by
  unfold lines
  rw [linesFrom_append single, List.nil_append, endLine_of_not_mem plain]

theorem not_mem_oneLine {c : Char} (isBreak : c = '\n' ∨ c = '\r') (text : Text) : c ∉ oneLine text := by
  intro mem
  obtain ⟨other, _, same⟩ := List.mem_map.mp mem
  split at same
  · subst same
    revert isBreak
    decide
  · rename_i plain
    exact plain (same ▸ isBreak)

theorem not_mem_decimal {c : Char} (digit : c.isDigit = false) (value : Nat) : c ∉ decimal value := by
  intro mem
  rw [Nat.isDigit_of_mem_toDigits (by decide) (by decide) mem] at digit
  cases digit

theorem not_mem_hex {c : Char} (other : ∀ digit < 16, Nat.digitChar digit ≠ c) (bytes : List UInt8) :
    c ∉ hex bytes := by
  intro mem
  obtain ⟨byte, _, mem⟩ := List.mem_flatMap.mp mem
  have small : byte.toNat < 256 := byte.toNat_lt
  rw [List.mem_pair] at mem
  obtain rfl | rfl := mem
  · exact other _ (by omega) rfl
  · exact other _ (by omega) rfl

theorem digitChar_inj : ∀ a < 16, ∀ b < 16, Nat.digitChar a = Nat.digitChar b → a = b := by decide

theorem hex_inj {bytes other : List UInt8} (same : hex bytes = hex other) : bytes = other := by
  induction bytes generalizing other with
  | nil =>
    cases other with
    | nil => rfl
    | cons byte other => cases same
  | cons byte bytes ih =>
    cases other with
    | nil => cases same
    | cons byte' other =>
      unfold hex at same ih
      rw [List.flatMap_cons, List.flatMap_cons] at same
      obtain ⟨high, rest⟩ := List.cons.inj same
      obtain ⟨low, rest⟩ := List.cons.inj rest
      have small : byte.toNat < 256 := byte.toNat_lt
      have small' : byte'.toNat < 256 := byte'.toNat_lt
      have quotient := digitChar_inj _ (by omega) _ (by omega) high
      have remainder := digitChar_inj _ (Nat.mod_lt _ (by decide)) _ (Nat.mod_lt _ (by decide)) low
      have equal : byte = byte' := UInt8.toNat_inj.mp (by omega)
      rw [equal, ih rest]

theorem wordsFrom_append {word : Text} (solid : ∀ c ∈ word, isBlank c = false) (open' text : Text) :
    wordsFrom open' (word ++ text) = wordsFrom (open' ++ word) text := by
  induction word generalizing open' with
  | nil => rw [List.nil_append, List.append_nil]
  | cons c word ih =>
    have isSolid := solid c List.mem_cons_self
    rw [List.cons_append, wordsFrom, if_neg (by simp [isSolid]),
      ih fun c mem => solid c (List.mem_cons_of_mem _ mem), List.append_assoc]
    rfl

theorem splitWhitespace_append {word : Text} (solid : Solid word) (text : Text) :
    splitWhitespace (word ++ ' ' :: text) = word :: splitWhitespace text := by
  unfold splitWhitespace
  rw [wordsFrom_append solid.2, List.nil_append, wordsFrom, if_pos (by decide), if_neg solid.1]

theorem splitWhitespace_of_solid {word : Text} (solid : Solid word) :
    splitWhitespace word = [word] := by
  unfold splitWhitespace
  rw [← List.append_nil word, wordsFrom_append solid.2, List.nil_append, wordsFrom, if_neg solid.1,
    List.append_nil]

/-- The words of a row are read back, and what follows them is split into its own words. -/
theorem splitWhitespace_joinWith {words : List Text} (solid : ∀ word ∈ words, Solid word)
    (last : Text) : splitWhitespace (joinWith ' ' (words ++ [last])) = words ++ splitWhitespace last := by
  induction words with
  | nil => rfl
  | cons word words ih =>
    have ih := ih fun word mem => solid word (List.mem_cons_of_mem _ mem)
    have joined : joinWith ' ' (word :: words ++ [last]) = word ++ ' ' :: joinWith ' ' (words ++ [last]) := by
      cases words <;> rfl
    rw [joined, splitWhitespace_append (solid word List.mem_cons_self), ih, List.cons_append]

theorem mem_wordsFrom {word : Text} {text start : Text} (plain : ∀ c ∈ start, isBlank c = false)
    (mem : word ∈ wordsFrom start text) : Solid word := by
  induction text generalizing start with
  | nil =>
    unfold wordsFrom at mem
    split at mem
    · cases mem
    · rename_i some
      obtain rfl := List.mem_singleton.mp mem
      exact ⟨some, plain⟩
  | cons c text ih =>
    unfold wordsFrom at mem
    split at mem
    · split at mem
      · exact ih (fun _ mem => absurd mem List.not_mem_nil) mem
      · rename_i some
        obtain rfl | mem := List.mem_cons.mp mem
        · exact ⟨some, plain⟩
        · exact ih (fun _ mem => absurd mem List.not_mem_nil) mem
    · rename_i isSolid
      refine ih (fun other mem => ?_) mem
      obtain mem | mem := List.mem_append.mp mem
      · exact plain other mem
      · obtain rfl := List.mem_singleton.mp mem
        simpa using isSolid

theorem mem_splitWhitespace {word text : Text} (mem : word ∈ splitWhitespace text) : Solid word :=
  mem_wordsFrom (fun _ mem => absurd mem List.not_mem_nil) mem

theorem wordsFrom_blank {c : Char} (blank : isBlank c = true) (text start : Text) :
    wordsFrom start (text ++ [c]) = wordsFrom start text := by
  induction text generalizing start with
  | nil =>
    change (if isBlank c = true then if start = [] then [] else [start] else wordsFrom (start ++ [c]) []) =
      if start = [] then [] else [start]
    rw [if_pos blank]
  | cons other text ih =>
    rw [List.cons_append, wordsFrom, ih, ih, wordsFrom]

theorem splitWhitespace_trimEnd (text : Text) : splitWhitespace (trimEnd text) = splitWhitespace text := by
  induction text using List.reverseRecOn with
  | nil => rfl
  | append_singleton text c ih =>
    unfold trimEnd at ih ⊢
    rw [List.rdropWhile_concat]
    split
    · rename_i blank
      rw [ih]
      exact (wordsFrom_blank blank text []).symm
    · rfl

theorem trimEnd_append {word : Text} (solid : Solid word) (text : Text) :
    trimEnd (word ++ text) = word ++ trimEnd text := by
  induction text using List.reverseRecOn with
  | nil =>
    have last := List.getLast_mem solid.1
    unfold trimEnd
    rw [List.append_nil, List.rdropWhile_nil, List.append_nil, List.rdropWhile_eq_self_iff]
    intro some
    rw [solid.2 _ (List.getLast_mem some)]
    decide
  | append_singleton text c ih =>
    unfold trimEnd at ih ⊢
    rw [← List.append_assoc, List.rdropWhile_concat, List.rdropWhile_concat]
    split
    · exact ih
    · rw [List.append_assoc]

theorem chunksFrom_append {text : Text} (single : '\n' ∉ text) (line rest : Text) :
    chunksFrom line (text ++ '\n' :: rest) = (line ++ text ++ ['\n']) :: chunksFrom [] rest := by
  induction text generalizing line with
  | nil => rw [List.nil_append, chunksFrom, if_pos rfl, List.append_nil]
  | cons c text ih =>
    obtain ⟨different, single⟩ := List.ne_and_not_mem_of_not_mem_cons single
    rw [List.cons_append, chunksFrom, if_neg different.symm, ih single, List.append_assoc line]
    rfl

theorem chunksFrom_joinWith {lines : List Text} (some : lines ≠ []) (single : ∀ line ∈ lines, '\n' ∉ line) :
    chunksFrom [] (joinWith '\n' lines ++ ['\n']) = lines.map (· ++ ['\n']) := by
  induction lines with
  | nil => exact absurd rfl some
  | cons line lines ih =>
    have isSingle := single line List.mem_cons_self
    cases lines with
    | nil => exact chunksFrom_append isSingle [] []
    | cons next lines =>
      have ih := ih (List.cons_ne_nil _ _) fun line mem => single line (List.mem_cons_of_mem _ mem)
      change chunksFrom [] ((line ++ '\n' :: joinWith '\n' (next :: lines)) ++ ['\n']) = _
      rw [List.append_assoc, List.cons_append, chunksFrom_append isSingle, ih]
      rfl

theorem parseU64_lt {text : Text} {value : Nat} (h : parseU64 text = some value) : value < 2 ^ 64 := by
  unfold parseU64 at h
  obtain ⟨_, h⟩ := Option.ite_none_right_eq_some.mp h
  obtain ⟨small, same⟩ := Option.ite_none_right_eq_some.mp h
  exact Option.some.inj same ▸ small

theorem decimal_ne_nil (value : Nat) : decimal value ≠ [] := Nat.toDigits_ne_nil

theorem decimal_inj {left right : Nat} (same : decimal left = decimal right) : left = right := by
  rw [← @Nat.ofDigitChars_ten_toDigits left, ← @Nat.ofDigitChars_ten_toDigits right]
  exact congrArg (fun digits => Nat.ofDigitChars 10 digits 0) same

theorem isDigit_of_mem_decimal {c : Char} {value : Nat} (mem : c ∈ decimal value) : c.isDigit = true :=
  Nat.isDigit_of_mem_toDigits (by decide) (by decide) mem

theorem isBlank_of_isDigit {c : Char} (digit : c.isDigit = true) : isBlank c = false := by
  simp only [Char.isDigit, Bool.and_eq_true, decide_eq_true_eq, UInt32.le_iff_toNat_le] at digit
  obtain ⟨low, high⟩ := digit
  change 48 ≤ c.val.toNat at low
  change c.val.toNat ≤ 57 at high
  unfold isBlank
  simp only [Bool.or_eq_false_iff, Bool.and_eq_false_iff, decide_eq_false_iff_not,
    UInt32.le_iff_toNat_le, List.contains_eq_mem, List.mem_cons, List.not_mem_nil, or_false,
    ← UInt32.toNat_inj]
  refine ⟨⟨.inr ?_, .inl ?_⟩, ?_⟩
  · change ¬ c.val.toNat ≤ 13
    omega
  · change ¬ 8192 ≤ c.val.toNat
    omega
  · simp only [UInt32.reduceToNat]
    omega

theorem solid_decimal (value : Nat) : Solid (decimal value) :=
  ⟨decimal_ne_nil value, fun _ mem => isBlank_of_isDigit (isDigit_of_mem_decimal mem)⟩

theorem solid_hex {bytes : List UInt8} (some : bytes ≠ []) : Solid (hex bytes) := by
  have plain : ∀ digit < 16, isBlank (Nat.digitChar digit) = false := by decide
  refine ⟨fun none => some ?_, fun c mem => ?_⟩
  · cases bytes with
    | nil => rfl
    | cons byte bytes => cases none
  · obtain ⟨byte, _, mem⟩ := List.mem_flatMap.mp mem
    have small : byte.toNat < 256 := byte.toNat_lt
    rw [List.mem_pair] at mem
    obtain rfl | rfl := mem
    · exact plain _ (by omega)
    · exact plain _ (by omega)

theorem parseU64_decimal (value : Nat) :
    parseU64 (decimal value) = if value < 2 ^ 64 then some value else none := by
  have noSign : (decimal value).head? ≠ some '+' := by
    intro sign
    have digit := isDigit_of_mem_decimal (List.mem_of_head? sign)
    revert digit
    decide
  have digits : (decimal value).all Char.isDigit = true :=
    List.all_eq_true.mpr fun c mem => isDigit_of_mem_decimal mem
  have read : (decimal value).foldl (fun value c => value * 10 + (c.toNat - '0'.toNat)) 0 = value := by
    have step : (fun value (c : Char) => value * 10 + (c.toNat - '0'.toNat)) =
        fun value c => 10 * value + (c.toNat - '0'.toNat) := by
      funext value c
      rw [Nat.mul_comm]
    rw [step, ← Nat.ofDigitChars_eq_foldl]
    exact Nat.ofDigitChars_ten_toDigits
  unfold parseU64
  rw [if_neg noSign, if_pos ⟨decimal_ne_nil value, digits⟩, read]

theorem parseU32_decimal (value : Nat) :
    parseU32 (decimal value) = if value < 2 ^ 32 then some value else none := by
  unfold parseU32
  rw [parseU64_decimal]
  by_cases small : value < 2 ^ 32
  · rw [if_pos (by omega), Option.filter_some, if_pos small, if_pos (decide_eq_true small)]
  · rw [if_neg small]
    split
    · exact Option.filter_eq_none_iff.mpr fun other mem => by
        obtain rfl := Option.some.inj mem
        simpa using small
    · rfl

end Text

end QuantumFs.Lib
