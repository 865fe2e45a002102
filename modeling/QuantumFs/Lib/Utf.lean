import QuantumFs.Lib.Text

/-! The two encodings of a text: bytes in UTF-8 and code units in UTF-16. -/
namespace QuantumFs.Lib.Text

def utf8 (text : Text) : List UInt8 := text.flatMap String.utf8EncodeChar

theorem length_utf8 (text : Text) : (utf8 text).length = byteLength text := by
  unfold utf8 byteLength
  rw [List.length_flatMap]
  simp only [String.length_utf8EncodeChar]

@[simp] theorem utf8_append (left right : Text) : utf8 (left ++ right) = utf8 left ++ utf8 right :=
  List.flatMap_append

theorem utf8EncodeChar_ascii {c : Char} (ascii : c.toNat < 128) :
    String.utf8EncodeChar c = [UInt8.ofNat c.toNat] := by
  unfold String.utf8EncodeChar
  have small : c.val.toNat ≤ 127 := Nat.le_of_lt_succ ascii
  simp only [small, if_true]
  rfl

theorem utf8EncodeChar_wide {c : Char} (wide : 128 ≤ c.toNat) {byte : UInt8}
    (mem : byte ∈ String.utf8EncodeChar c) : 128 ≤ byte.toNat := by
  have large : ¬ c.val.toNat ≤ 127 := by
    change ¬ c.toNat ≤ 127
    omega
  unfold String.utf8EncodeChar at mem
  simp only [large, if_false] at mem
  split_ifs at mem
  all_goals
    simp only [List.mem_cons, List.not_mem_nil, or_false] at mem
    repeat
      obtain rfl | mem := mem
      · rw [UInt8.toNat_ofNat']
        omega

/-- A text whose bytes are all those of ASCII characters has one character for each. -/
theorem eq_map_of_utf8 {text : Text} (ascii : ∀ byte ∈ utf8 text, byte.toNat < 128) :
    (∀ c ∈ text, c.toNat < 128) ∧ utf8 text = text.map fun c => UInt8.ofNat c.toNat := by
  have plain : ∀ c ∈ text, c.toNat < 128 := by
    intro c mem
    by_contra wide
    obtain ⟨byte, first⟩ := List.exists_mem_of_ne_nil _ (String.utf8EncodeChar_ne_nil (c := c))
    have low := ascii byte (List.mem_flatMap.mpr ⟨c, mem, first⟩)
    have high := utf8EncodeChar_wide (Nat.le_of_not_lt wide) first
    omega
  refine ⟨plain, ?_⟩
  unfold utf8
  rw [List.flatMap_congr fun c mem => utf8EncodeChar_ascii (plain c mem), List.map_eq_flatMap]

def utf16Char (c : Char) : List UInt16 :=
  if c.toNat < 0x10000 then [UInt16.ofNat c.toNat]
  else [UInt16.ofNat (0xD800 + (c.toNat - 0x10000) / 0x400), UInt16.ofNat (0xDC00 + (c.toNat - 0x10000) % 0x400)]

def utf16 (text : Text) : List UInt16 := text.flatMap utf16Char

def whole (unit : UInt16) : Bool := unit.toNat < 0xD800 || 0xDFFF < unit.toNat

def charOf (unit : UInt16) : Char := Char.ofNat unit.toNat

@[simp] theorem utf16_append (left right : Text) : utf16 (left ++ right) = utf16 left ++ utf16 right :=
  List.flatMap_append

@[simp] theorem utf16_cons (c : Char) (text : Text) : utf16 (c :: text) = utf16Char c ++ utf16 text := rfl

@[simp] theorem utf16_nil : utf16 [] = [] := rfl

theorem toNat_range (c : Char) : c.toNat < 0x110000 ∧ ¬(0xD800 ≤ c.toNat ∧ c.toNat ≤ 0xDFFF) := by
  obtain below | ⟨above, below⟩ := c.valid
  · change c.toNat < 0xD800 at below
    omega
  · change 0xDFFF < c.toNat at above
    change c.toNat < 0x110000 at below
    omega

/-- A character is one unit of its own number, or two units that are none by themselves. -/
theorem utf16Char_cases (c : Char) : (∃ unit, utf16Char c = [unit] ∧ whole unit = true ∧ unit.toNat = c.toNat) ∨
    0x10000 ≤ c.toNat ∧ ∃ high low, utf16Char c = [high, low] ∧ whole high = false ∧ whole low = false ∧
      c.toNat = (high.toNat - 0xD800) * 0x400 + (low.toNat - 0xDC00) + 0x10000 := by
  have range := toNat_range c
  unfold utf16Char whole
  split
  · rename_i small
    have number : (UInt16.ofNat c.toNat).toNat = c.toNat := UInt16.toNat_ofNat_of_lt' small
    refine .inl ⟨_, rfl, ?_, number⟩
    rw [number, Bool.or_eq_true, decide_eq_true_eq, decide_eq_true_eq]
    omega
  · rename_i large
    have high : (UInt16.ofNat (0xD800 + (c.toNat - 0x10000) / 0x400)).toNat = 0xD800 + (c.toNat - 0x10000) / 0x400 :=
      UInt16.toNat_ofNat_of_lt' (by change _ < 65536; omega)
    have low : (UInt16.ofNat (0xDC00 + (c.toNat - 0x10000) % 0x400)).toNat = 0xDC00 + (c.toNat - 0x10000) % 0x400 :=
      UInt16.toNat_ofNat_of_lt' (by change _ < 65536; omega)
    refine .inr ⟨not_lt.mp large, _, _, rfl, ?_, ?_, ?_⟩
    · rw [high, Bool.or_eq_false_iff, decide_eq_false_iff_not, decide_eq_false_iff_not]
      omega
    · rw [low, Bool.or_eq_false_iff, decide_eq_false_iff_not, decide_eq_false_iff_not]
      omega
    · rw [high, low]
      omega

theorem charOf_of_toNat {unit : UInt16} {c : Char} (same : unit.toNat = c.toNat) : charOf unit = c := by
  unfold charOf
  rw [same, Char.ofNat_toNat]

theorem toNat_charOf {unit : UInt16} (isWhole : whole unit = true) : (charOf unit).toNat = unit.toNat := by
  unfold whole at isWhole
  rw [Bool.or_eq_true, decide_eq_true_eq, decide_eq_true_eq] at isWhole
  have small : unit.toNat < 65536 := unit.toNat_lt
  have valid : unit.toNat.isValidChar := isWhole.imp (fun low => low) fun high => ⟨high, by omega⟩
  unfold charOf Char.ofNat
  rw [dif_pos valid]
  rfl

theorem utf16_charOf {units : List UInt16} (plain : ∀ unit ∈ units, whole unit = true) :
    utf16 (units.map charOf) = units := by
  have single : ∀ unit ∈ units, utf16Char (charOf unit) = [unit] := by
    intro unit mem
    unfold utf16Char
    rw [toNat_charOf (plain unit mem), if_pos unit.toNat_lt, UInt16.ofNat_toNat]
  unfold utf16
  rw [List.flatMap_map, List.flatMap_congr single, List.flatMap_singleton']

theorem utf16Char_ne_nil (c : Char) : utf16Char c ≠ [] := by
  obtain ⟨unit, same, -⟩ | ⟨-, high, low, same, -⟩ := utf16Char_cases c <;> simp [same]

theorem utf16_inj {left right : Text} : utf16 left = utf16 right ↔ left = right := by
  refine ⟨fun same => ?_, fun same => same ▸ rfl⟩
  induction left generalizing right with
  | nil =>
    cases right with
    | nil => rfl
    | cons d right => exact absurd (List.append_eq_nil_iff.mp same.symm).1 (utf16Char_ne_nil d)
  | cons c left ih =>
    cases right with
    | nil => exact absurd (List.append_eq_nil_iff.mp same).1 (utf16Char_ne_nil c)
    | cons d right =>
      rw [utf16_cons, utf16_cons] at same
      obtain ⟨unit, single, isWhole, number⟩ | ⟨-, high, low, pair, half, -, number⟩ := utf16Char_cases c
      · obtain ⟨other, single', -, number'⟩ | ⟨-, high, low, pair, half, -⟩ := utf16Char_cases d
        · rw [single, single'] at same
          obtain ⟨rfl, rest⟩ := List.cons.inj same
          rw [ih rest, ← charOf_of_toNat number, ← charOf_of_toNat number']
        · rw [single, pair] at same
          rw [(List.cons.inj same).1, half] at isWhole
          cases isWhole
      · obtain ⟨other, single', isWhole, -⟩ | ⟨-, high', low', pair', -, -, number'⟩ := utf16Char_cases d
        · rw [pair, single'] at same
          rw [(List.cons.inj same).1, isWhole] at half
          cases half
        · rw [pair, pair'] at same
          simp only [List.cons_append, List.nil_append, List.cons.injEq] at same
          obtain ⟨rfl, rfl, rest⟩ := same
          rw [ih rest, Char.toNat_inj.mp (number.trans number'.symm)]

/-- Whole units at the end of an encoded text are its last characters. -/
theorem utf16_split {text : Text} {before after : List UInt16} (h : utf16 text = before ++ after)
    (plain : ∀ unit ∈ after, whole unit = true) : ∃ front, text = front ++ after.map charOf ∧ utf16 front = before := by
  induction text generalizing before with
  | nil =>
    obtain ⟨rfl, rfl⟩ := List.append_eq_nil_iff.mp h.symm
    exact ⟨[], rfl, rfl⟩
  | cons c text ih =>
    cases before with
    | nil =>
      -- nothing stands before: all units are whole
      refine ⟨[], utf16_inj.mp ?_, rfl⟩
      rw [h, List.nil_append, List.nil_append, utf16_charOf plain]
    | cons first before =>
      rw [utf16_cons] at h
      obtain ⟨unit, single, -⟩ | ⟨-, high, low, pair, -, half, -⟩ := utf16Char_cases c
      · rw [single, List.singleton_append, List.cons_append, List.cons.injEq] at h
        obtain ⟨rfl, rest⟩ := h
        obtain ⟨front, same, encoded⟩ := ih rest
        exact ⟨c :: front, congrArg (c :: ·) same, by rw [utf16_cons, single, encoded]; rfl⟩
      · simp only [pair, List.cons_append, List.nil_append, List.cons.injEq] at h
        obtain ⟨rfl, rest⟩ := h
        cases before with
        | nil =>
          have isWhole := plain low (by rw [← List.nil_append after, ← rest]; exact List.mem_cons_self)
          rw [half] at isWhole
          cases isWhole
        | cons second before =>
          rw [List.cons_append, List.cons.injEq] at rest
          obtain ⟨rfl, rest⟩ := rest
          obtain ⟨front, same, encoded⟩ := ih rest
          exact ⟨c :: front, congrArg (c :: ·) same, by rw [utf16_cons, pair, encoded]; rfl⟩

end QuantumFs.Lib.Text
