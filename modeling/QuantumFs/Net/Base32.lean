import QuantumFs.Lib.Digits
import QuantumFs.Lib.Utf
import QuantumFs.Net.ShortCode

/-! Join codes and vault ids as text (`net/mod.rs`): Base32 in upper case, without padding.
The last character has bits to spare, and they have to be zero. -/
namespace QuantumFs.Net

open Lib Encoding Crypto Host

def encodeBase32Step (state : Nat × Nat × Text) (byte : UInt8) : Nat × Nat × Text :=
  let (bits, available, output) := state
  let bits := (bits * 256 + byte.toNat) % 2 ^ 16
  let available := available + 8
  let digit := fun available => ShortCode.letter (UInt8.ofNat (bits / 2 ^ available % 32))
  if available < 10 then (bits, available - 5, output ++ [digit (available - 5)])
  else (bits, available - 10, output ++ [digit (available - 5), digit (available - 10)])

def encodeBase32 (bytes : Bytes) : Text :=
  let (bits, available, output) := bytes.foldl encodeBase32Step (0, 0, [])
  if available ≠ 0 then
    output ++ [ShortCode.letter (UInt8.ofNat (bits * 2 ^ (5 - available) % 2 ^ 16 % 32))]
  else output

/-- `BASE32`. -/
def base32 : Bytes := Text.utf8 ShortCode.alphabet

def decodeBase32Step (state : Nat × Nat × Bytes) (byte : UInt8) : Result (Nat × Nat × Bytes) := do
  let (bits, available, output) := state
  let digit ← okOr (base32.findIdx? (· = byte)) (.invalidInput "invalid Base32 character")
  let bits := (bits * 32 + digit) % 2 ^ 16
  let available := available + 5
  if 8 ≤ available then
    pure (bits, available - 8, output ++ [UInt8.ofNat (bits / 2 ^ (available - 8))])
  else pure (bits, available, output)

def decodeBase32 (value : Text) : Result Bytes := do
  let (bits, available, output) ← (Text.utf8 value).foldlM decodeBase32Step (0, 0, [])
  ensure (¬ (available ≠ 0 ∧ bits % 2 ^ available ≠ 0))
    (.invalidInput "non-canonical Base32 trailing bits")
  pure output

/-- The two `from_str`: so many characters for so many bytes. -/
def fromBase32 (characters size : Nat) (malformed wrongSize : String) (value : Text) : Result Bytes := do
  ensure (¬ (Text.byteLength value ≠ characters ∨
      (Text.utf8 value).all (base32.contains ·) = false)) (.invalidInput malformed)
  let decoded ← decodeBase32 value
  ensure (decoded.length = size) (.invalidInput wrongSize)
  pure decoded

def JoinCode.text (code : JoinCode) : Text := encodeBase32 (toBE 16 code.val.val)

def JoinCode.fromStr (value : Text) : Result JoinCode := do
  let bytes ← fromBase32 26 16 "join code must be 26 uppercase RFC 4648 Base32 characters"
    "join code must encode exactly 16 bytes" value
  pure ⟨Fin.ofNat (2 ^ 128) (ofBE bytes)⟩

def VaultId.text (vaultId : VaultId) : Text := encodeBase32 (toBE 32 vaultId.val.val)

def VaultId.fromStr (value : Text) : Result VaultId := do
  let bytes ← fromBase32 52 32 "vault id must be 52 uppercase RFC 4648 Base32 characters"
    "vault id must encode exactly 32 bytes" value
  pure ⟨Fin.ofNat (2 ^ 256) (ofBE bytes)⟩

example : JoinCode.text ⟨2 ^ 128 - 1⟩ = "77777777777777777777777774".toList := by decide +kernel

def digit (c : Char) : Nat := ShortCode.alphabet.idxOf c

/-- The number a text stands for. -/
def numberOf (text : Text) : Nat := digitsValue 32 (text.map digit)

theorem digit_letter (byte : UInt8) : digit (ShortCode.letter byte) = byte.toNat % 32 := by
  have all : ∀ n < 32, ShortCode.alphabet.idxOf (ShortCode.letter (UInt8.ofNat n)) = n := by decide
  have same : ShortCode.letter byte = ShortCode.letter (UInt8.ofNat (byte.toNat % 32)) := by
    unfold ShortCode.letter
    congr 2
    rw [UInt8.toNat_ofNat']
    omega
  unfold digit
  rw [same]
  exact all _ (Nat.mod_lt _ (by decide))

theorem digit_lt {c : Char} (known : c ∈ ShortCode.alphabet) : digit c < 32 :=
  List.idxOf_lt_length_of_mem known

theorem letter_digit {c : Char} (known : c ∈ ShortCode.alphabet) :
    ShortCode.letter (UInt8.ofNat (digit c)) = c := by
  have small := digit_lt known
  have position : (UInt8.ofNat (digit c)).toNat % 32 = digit c := by
    rw [UInt8.toNat_ofNat']
    omega
  unfold ShortCode.letter
  simp only [position]
  exact List.getElem_idxOf (List.idxOf_lt_length_of_mem known)

theorem numberOf_concat (text : Text) (c : Char) :
    numberOf (text ++ [c]) = numberOf text * 32 + digit c := by
  unfold numberOf
  rw [List.map_append]
  exact digitsValue_concat _ _ _

theorem numberOf_inj {left right : Text} (length : left.length = right.length)
    (leftKnown : ∀ c ∈ left, c ∈ ShortCode.alphabet) (rightKnown : ∀ c ∈ right, c ∈ ShortCode.alphabet)
    (value : numberOf left = numberOf right) : left = right := by
  have below : ∀ {text : Text}, (∀ c ∈ text, c ∈ ShortCode.alphabet) → ∀ d ∈ text.map digit, d < 32 := by
    intro text known d mem
    obtain ⟨c, inside, rfl⟩ := List.mem_map.mp mem
    exact digit_lt (known c inside)
  have digits := digitsValue_inj (by decide) (by simpa using length) (below leftKnown) (below rightKnown) value
  have back : ∀ {text : Text}, (∀ c ∈ text, c ∈ ShortCode.alphabet) →
      (text.map digit).map (fun d => ShortCode.letter (UInt8.ofNat d)) = text := by
    intro text known
    rw [List.map_map]
    exact (List.map_congr_left fun c mem => letter_digit (known c mem)).trans (List.map_id' text)
  rw [← back leftKnown, ← back rightKnown, digits]

theorem ofBE_concat (bytes : Bytes) (byte : UInt8) : ofBE (bytes ++ [byte]) = ofBE bytes * 256 + byte.toNat := by
  induction bytes with
  | nil => simp [ofBE]
  | cons first bytes ih =>
    rw [List.cons_append, ofBE, ih, ofBE, List.length_append, List.length_singleton, Nat.pow_succ]
    ring

theorem bytes_inj {left right : Bytes} (length : left.length = right.length)
    (value : ofBE left = ofBE right) : left = right := by
  rw [← toBE_ofBE left, ← toBE_ofBE right, length, value]

/-- How far the encoder is after `count` bytes that stand for a number. -/
structure Packed (number count : Nat) (state : Nat × Nat × Text) : Prop where
  bits : state.1 = number % 2 ^ 16
  room : state.2.1 < 5
  length : 5 * state.2.2.length + state.2.1 = 8 * count
  letters : ∀ c ∈ state.2.2, c ∈ ShortCode.alphabet
  value : numberOf state.2.2 = number / 2 ^ state.2.1

theorem numberOf_emit {number shift : Nat} {text : Text} (enough : shift + 5 ≤ 16)
    (value : numberOf text = number / 2 ^ (shift + 5)) :
    numberOf (text ++ [ShortCode.letter (UInt8.ofNat (number % 2 ^ 16 / 2 ^ shift % 32))]) =
      number / 2 ^ shift := by
  have digits := truncated_digit number enough
  have width : (2 : Nat) ^ 5 = 32 := rfl
  rw [width] at digits
  rw [numberOf_concat, digit_letter, UInt8.toNat_ofNat', value, digits, ← shifted_digit number shift 5]
  omega

theorem letters_emit {text : Text} (letters : ∀ c ∈ text, c ∈ ShortCode.alphabet) (byte : UInt8) :
    ∀ c ∈ text ++ [ShortCode.letter byte], c ∈ ShortCode.alphabet := by
  intro c mem
  obtain mem | mem := List.mem_append.mp mem
  · exact letters c mem
  · obtain rfl := List.mem_singleton.mp mem
    exact ShortCode.letter_mem _

theorem Packed.step {number count : Nat} {state : Nat × Nat × Text} (packed : Packed number count state)
    (byte : UInt8) : Packed (number * 256 + byte.toNat) (count + 1) (encodeBase32Step state byte) := by
  obtain ⟨bits, available, output⟩ := state
  obtain ⟨isBits, room, length, letters, value⟩ := packed
  dsimp only at isBits room length letters value
  have small : byte.toNat < 256 := byte.toNat_lt
  have low : (bits * 256 + byte.toNat) % 2 ^ 16 = (number * 256 + byte.toNat) % 2 ^ 16 := by
    rw [isBits]
    omega
  have above : numberOf output = (number * 256 + byte.toNat) / 2 ^ (available + 8 - 5 + 5) := by
    have shift : available + 8 - 5 + 5 = 8 + available := by omega
    rw [value, shift, Nat.pow_add, ← Nat.div_div_eq_div_mul]
    congr 1
    omega
  unfold encodeBase32Step
  dsimp only
  rw [low]
  have first := numberOf_emit (by omega) above
  have known := letters_emit letters
  split
  · refine ⟨rfl, ?_, ?_, known _, first⟩
    · dsimp only
      omega
    · simp only [List.length_append, List.length_singleton]
      omega
  · have shift : available + 8 - 5 = available + 8 - 10 + 5 := by omega
    rw [shift] at first
    have second := numberOf_emit (by omega) first
    rw [← shift, List.append_assoc] at second
    refine ⟨rfl, ?_, ?_, ?_, second⟩
    · dsimp only
      omega
    · simp only [List.length_append, List.length_cons, List.length_nil]
      omega
    · have both := fun one other => letters_emit (known one) other
      simp only [List.append_assoc] at both
      exact both _ _

theorem encodeBase32_spec (bytes : Bytes) :
    (∀ c ∈ encodeBase32 bytes, c ∈ ShortCode.alphabet) ∧ ∃ padding < 5,
      5 * (encodeBase32 bytes).length = 8 * bytes.length + padding ∧
        numberOf (encodeBase32 bytes) = ofBE bytes * 2 ^ padding := by
  have packed : Packed (ofBE bytes) bytes.length (bytes.foldl encodeBase32Step (0, 0, [])) := by
    induction bytes using List.reverseRecOn with
    | nil => exact ⟨rfl, by decide, rfl, fun c mem => absurd mem List.not_mem_nil, rfl⟩
    | append_singleton bytes byte ih =>
      rw [List.foldl_append, ofBE_concat, List.length_append]
      exact ih.step byte
  unfold encodeBase32
  generalize bytes.foldl encodeBase32Step (0, 0, []) = state at packed
  obtain ⟨bits, available, output⟩ := state
  obtain ⟨isBits, room, length, letters, value⟩ := packed
  dsimp only at isBits room length letters value ⊢
  split
  · refine ⟨letters_emit letters _, 5 - available, by omega, ?_, ?_⟩
    · rw [List.length_append, List.length_singleton]
      omega
    · rw [numberOf_concat, digit_letter, UInt8.toNat_ofNat', value, isBits]
      generalize ofBE bytes = number
      interval_cases available <;> omega
  · rename_i done
    obtain rfl : available = 0 := by omega
    exact ⟨letters, 0, by decide, length, by simpa using value⟩

theorem alphabet_ascii : (∀ c ∈ ShortCode.alphabet, c.toNat < 128) ∧
    base32 = ShortCode.alphabet.map fun c => UInt8.ofNat c.toNat :=
  Text.eq_map_of_utf8 (by decide +kernel)

theorem findIdx_base32 {c : Char} (known : c ∈ ShortCode.alphabet) :
    base32.findIdx? (· = UInt8.ofNat c.toNat) = some (digit c) := by
  have all : ∀ n < 32, base32.findIdx? (· = UInt8.ofNat (ShortCode.letter (UInt8.ofNat n)).toNat) = some n := by
    rw [alphabet_ascii.2]
    decide
  have found := all _ (digit_lt known)
  rwa [letter_digit known] at found

/-- How far the decoder is after `count` characters that stand for a number. -/
structure Unpacked (number count : Nat) (state : Nat × Nat × Bytes) : Prop where
  bits : state.1 = number % 2 ^ 16
  room : state.2.1 < 8
  length : 8 * state.2.2.length + state.2.1 = 5 * count
  value : ofBE state.2.2 = number / 2 ^ state.2.1

theorem Unpacked.step {number count : Nat} {state : Nat × Nat × Bytes} (unpacked : Unpacked number count state)
    {c : Char} (known : c ∈ ShortCode.alphabet) :
    ∃ next, decodeBase32Step state (UInt8.ofNat c.toNat) = .ok next ∧
      Unpacked (number * 32 + digit c) (count + 1) next := by
  obtain ⟨bits, available, output⟩ := state
  obtain ⟨isBits, room, length, value⟩ := unpacked
  dsimp only at isBits room length value
  have small := digit_lt known
  have low : (bits * 32 + digit c) % 2 ^ 16 = (number * 32 + digit c) % 2 ^ 16 := by
    rw [isBits]
    omega
  have above : ofBE output = (number * 32 + digit c) / 2 ^ (available + 5) := by
    rw [value, Nat.add_comm available, Nat.pow_add, ← Nat.div_div_eq_div_mul]
    congr 1
    omega
  generalize number * 32 + digit c = next at low above
  have run : decodeBase32Step (bits, available, output) (UInt8.ofNat c.toNat) =
      if 8 ≤ available + 5 then
        .ok (next % 2 ^ 16, available + 5 - 8, output ++ [UInt8.ofNat (next % 2 ^ 16 / 2 ^ (available + 5 - 8))])
      else .ok (next % 2 ^ 16, available + 5, output) := by
    unfold decodeBase32Step
    simp only [findIdx_base32 known, okOr]
    rw [← low]
    rfl
  rw [run]
  split
  · refine ⟨_, rfl, rfl, ?_, ?_, ?_⟩
    · dsimp only
      omega
    · simp only [List.length_append, List.length_singleton]
      omega
    · have shift : available + 5 = available + 5 - 8 + 8 := by omega
      have digits := truncated_digit next (show available + 5 - 8 + 8 ≤ 16 by omega)
      rw [shift] at above
      dsimp only
      rw [ofBE_concat, above, UInt8.toNat_ofNat', digits]
      exact shifted_digit _ _ _
  · refine ⟨_, rfl, rfl, ?_, ?_, above⟩
    · dsimp only
      omega
    · dsimp only
      omega

theorem decodeBase32_spec {text : Text} (letters : ∀ c ∈ text, c ∈ ShortCode.alphabet) :
    ∃ padding < 8, ∃ bytes, 8 * bytes.length + padding = 5 * text.length ∧
      ofBE bytes = numberOf text / 2 ^ padding ∧
      decodeBase32 text = if numberOf text % 2 ^ padding = 0 then .ok bytes
        else .error (.invalidInput "non-canonical Base32 trailing bits") := by
  have unpacked : ∃ state, (Text.utf8 text).foldlM decodeBase32Step (0, 0, []) = .ok state ∧
      Unpacked (numberOf text) text.length state := by
    induction text using List.reverseRecOn with
    | nil => exact ⟨_, rfl, rfl, by decide, rfl, rfl⟩
    | append_singleton text c ih =>
      obtain ⟨state, fold, unpacked⟩ := ih fun c mem => letters c (List.mem_append_left _ mem)
      obtain ⟨next, step, unpacked⟩ := unpacked.step (letters c (List.mem_append_right _ List.mem_cons_self))
      refine ⟨next, ?_, ?_⟩
      · have last := letters c (List.mem_append_right _ List.mem_cons_self)
        have one : Text.utf8 [c] = [UInt8.ofNat c.toNat] := by
          unfold Text.utf8
          rw [List.flatMap_singleton, Text.utf8EncodeChar_ascii (alphabet_ascii.1 c last)]
        rw [Text.utf8_append, List.foldlM_append, fold, one]
        exact Result.bind_eq_ok.mpr ⟨state, rfl, Result.bind_eq_ok.mpr ⟨next, step, rfl⟩⟩
      · rw [numberOf_concat, List.length_append]
        exact unpacked
  obtain ⟨⟨bits, available, output⟩, fold, isBits, room, length, value⟩ := unpacked
  dsimp only at isBits room length value
  refine ⟨available, room, output, length, value, ?_⟩
  unfold decodeBase32
  rw [fold]
  have kept : bits % 2 ^ available = numberOf text % 2 ^ available := by
    rw [isBits, Nat.mod_mod_of_dvd _ (Nat.pow_dvd_pow 2 (by omega))]
  rw [← kept]
  change (ensure (¬ (available ≠ 0 ∧ bits % 2 ^ available ≠ 0)) _ >>= fun _ => pure output) = _
  unfold ensure
  by_cases zero : bits % 2 ^ available = 0
  · rw [if_pos zero, if_pos fun nonzero => nonzero.2 zero]
    rfl
  · have some : available ≠ 0 := by
      rintro rfl
      exact zero (Nat.mod_one bits)
    rw [if_neg zero, if_neg (not_not.mpr ⟨some, zero⟩)]
    rfl

theorem decodeBase32_encode (bytes : Bytes) : decodeBase32 (encodeBase32 bytes) = .ok bytes := by
  obtain ⟨letters, padding, small, length, value⟩ := encodeBase32_spec bytes
  obtain ⟨spare, room, decoded, size, number, decode⟩ := decodeBase32_spec letters
  obtain ⟨rfl, same⟩ : spare = padding ∧ decoded.length = bytes.length := by omega
  rw [decode, value, Nat.mul_mod_left, if_pos rfl]
  rw [value, Nat.mul_div_cancel _ (Nat.two_pow_pos spare)] at number
  exact congrArg Except.ok (bytes_inj same number)

theorem encodeBase32_decode {text : Text} {bytes : Bytes} (letters : ∀ c ∈ text, c ∈ ShortCode.alphabet)
    (short : 5 * text.length < 8 * bytes.length + 5) (decoded : decodeBase32 text = .ok bytes) :
    encodeBase32 bytes = text := by
  obtain ⟨spare, room, out, size, number, decode⟩ := decodeBase32_spec letters
  obtain ⟨known, padding, small, length, value⟩ := encodeBase32_spec bytes
  rw [decode] at decoded
  split at decoded
  · rename_i zero
    obtain rfl := Except.ok.inj decoded
    obtain ⟨rfl, same⟩ : spare = padding ∧ (encodeBase32 out).length = text.length := by omega
    refine numberOf_inj same known letters ?_
    rw [value, number, Nat.div_mul_cancel (Nat.dvd_of_mod_eq_zero zero)]
  · cases decoded

theorem utf8_of_letters {text : Text} (letters : ∀ c ∈ text, c ∈ ShortCode.alphabet) :
    (∀ byte ∈ Text.utf8 text, byte ∈ base32) ∧ Text.byteLength text = text.length := by
  have printed : Text.utf8 text = text.map fun c => UInt8.ofNat c.toNat := by
    unfold Text.utf8
    rw [List.flatMap_congr fun c mem => Text.utf8EncodeChar_ascii (alphabet_ascii.1 c (letters c mem)),
      List.map_eq_flatMap]
  refine ⟨fun byte mem => ?_, ?_⟩
  · rw [printed] at mem
    obtain ⟨c, inside, rfl⟩ := List.mem_map.mp mem
    rw [alphabet_ascii.2]
    exact List.mem_map_of_mem (letters c inside)
  · rw [← Text.length_utf8, printed, List.length_map]

theorem letters_of_utf8 {text : Text} (known : ∀ byte ∈ Text.utf8 text, byte ∈ base32) :
    (∀ c ∈ text, c ∈ ShortCode.alphabet) ∧ Text.byteLength text = text.length := by
  have low : ∀ byte ∈ base32, byte.toNat < 128 := by
    rw [alphabet_ascii.2]
    intro byte mem
    obtain ⟨c, known, rfl⟩ := List.mem_map.mp mem
    have ascii := alphabet_ascii.1 c known
    rw [UInt8.toNat_ofNat']
    omega
  obtain ⟨ascii, printed⟩ := Text.eq_map_of_utf8 fun byte mem => low byte (known byte mem)
  refine ⟨fun c mem => ?_, by rw [← Text.length_utf8, printed, List.length_map]⟩
  have inside := known (UInt8.ofNat c.toNat) (printed ▸ List.mem_map_of_mem mem)
  rw [alphabet_ascii.2] at inside
  obtain ⟨other, isLetter, same⟩ := List.mem_map.mp inside
  have value := congrArg UInt8.toNat same
  rw [UInt8.toNat_ofNat', UInt8.toNat_ofNat', Nat.mod_eq_of_lt (Nat.lt_trans (alphabet_ascii.1 other isLetter) (by decide)),
    Nat.mod_eq_of_lt (Nat.lt_trans (ascii c mem) (by decide))] at value
  exact Char.toNat_inj.mp value ▸ isLetter

theorem fromBase32_eq_ok {characters size : Nat} {malformed wrongSize : String} {value : Text}
    {bytes : Bytes} (fits : 8 * size ≤ 5 * characters ∧ 5 * characters < 8 * size + 5) :
    fromBase32 characters size malformed wrongSize value = .ok bytes ↔
      bytes.length = size ∧ value = encodeBase32 bytes := by
  unfold fromBase32
  constructor
  · intro h
    obtain ⟨_, formed, h⟩ := Result.bind_eq_ok.mp h
    obtain ⟨decoded, decode, h⟩ := Result.bind_eq_ok.mp h
    obtain ⟨_, sized, h⟩ := Result.bind_eq_ok.mp h
    have formed := not_or.mp (ensure_eq_ok.mp formed)
    have sized := ensure_eq_ok.mp sized
    cases h
    have known := List.all_eq_true.mp (Bool.not_eq_false _ ▸ formed.2)
    have letters := letters_of_utf8 fun byte mem => List.contains_iff_mem.mp (known byte mem)
    have characters := not_not.mp formed.1
    rw [letters.2] at characters
    exact ⟨sized, (encodeBase32_decode letters.1 (by omega) decode).symm⟩
  · rintro ⟨sized, rfl⟩
    obtain ⟨letters, padding, small, length, -⟩ := encodeBase32_spec bytes
    have printed := utf8_of_letters letters
    refine Result.bind_eq_ok.mpr ⟨(), ensure_eq_ok.mpr (not_or.mpr ⟨not_not.mpr ?_, ?_⟩), ?_⟩
    · rw [printed.2]
      omega
    · rw [Bool.not_eq_false, List.all_eq_true]
      exact fun byte mem => List.contains_iff_mem.mpr (printed.1 byte mem)
    · exact Result.bind_eq_ok.mpr ⟨bytes, decodeBase32_encode bytes,
        Result.bind_eq_ok.mpr ⟨(), ensure_eq_ok.mpr sized, rfl⟩⟩

theorem fromBase32_eq_value (width : Nat) {characters size : Nat} {malformed wrongSize : String} {text : Text}
    [NeZero (2 ^ width)] (same : 256 ^ size = 2 ^ width)
    (fits : 8 * size ≤ 5 * characters ∧ 5 * characters < 8 * size + 5) (value : Fin (2 ^ width)) :
    (∃ bytes, fromBase32 characters size malformed wrongSize text = .ok bytes ∧
      Fin.ofNat (2 ^ width) (ofBE bytes) = value) ↔ text = encodeBase32 (toBE size value.val) := by
  constructor
  · rintro ⟨bytes, read, rfl⟩
    obtain ⟨length, rfl⟩ := (fromBase32_eq_ok fits).mp read
    have small : ofBE bytes < 2 ^ width := by
      rw [← same, ← length]
      exact ofBE_lt bytes
    rw [Fin.val_ofNat, Nat.mod_eq_of_lt small, ← length, toBE_ofBE]
  · rintro rfl
    refine ⟨_, (fromBase32_eq_ok fits).mpr ⟨length_toBE _ _, rfl⟩, Fin.ext ?_⟩
    rw [Fin.val_ofNat, ofBE_toBE (lt_of_lt_of_eq value.isLt same.symm), Nat.mod_eq_of_lt value.isLt]

theorem joinCode_fromStr {text : Text} {code : JoinCode} :
    JoinCode.fromStr text = .ok code ↔ text = JoinCode.text code := by
  obtain ⟨value⟩ := code
  unfold JoinCode.fromStr JoinCode.text
  simp only [Result.bind_eq_ok, pure, Except.pure, Except.ok.injEq, JoinCode.mk.injEq]
  exact fromBase32_eq_value 128 (by norm_num) (by decide) value

theorem vaultId_fromStr {text : Text} {vaultId : VaultId} :
    VaultId.fromStr text = .ok vaultId ↔ text = VaultId.text vaultId := by
  obtain ⟨value⟩ := vaultId
  unfold VaultId.fromStr VaultId.text
  simp only [Result.bind_eq_ok, pure, Except.pure, Except.ok.injEq, VaultId.mk.injEq]
  exact fromBase32_eq_value 256 (by norm_num) (by decide) value

theorem numberOf_encode {size padding : Nat} (small : padding < 5) (whole : 5 ∣ 8 * size + padding) (value : Nat)
    (fits : value < 256 ^ size) : numberOf (encodeBase32 (toBE size value)) = value * 2 ^ padding := by
  obtain ⟨-, spare, room, length, number⟩ := encodeBase32_spec (toBE size value)
  rw [length_toBE] at length
  obtain rfl : spare = padding := by omega
  rw [number, ofBE_toBE fits]

/-- The printed text of a code is the only one that is read as the code. -/
theorem base32_canonical :
    (∀ code : JoinCode, JoinCode.fromStr (JoinCode.text code) = .ok code) ∧
      (∀ vaultId : VaultId, VaultId.fromStr (VaultId.text vaultId) = .ok vaultId) ∧
      (∀ (text : Text) (code : JoinCode), JoinCode.fromStr text = .ok code ↔ text = JoinCode.text code) ∧
      (∀ (text : Text) (vaultId : VaultId),
        VaultId.fromStr text = .ok vaultId ↔ text = VaultId.text vaultId) ∧
      (∀ code : JoinCode, numberOf (JoinCode.text code) = code.val.val * 2 ^ 2) ∧
      (∀ vaultId : VaultId, numberOf (VaultId.text vaultId) = vaultId.val.val * 2 ^ 4) := by
  refine ⟨fun code => joinCode_fromStr.mpr rfl, fun vaultId => vaultId_fromStr.mpr rfl,
    fun text code => joinCode_fromStr, fun text vaultId => vaultId_fromStr, fun code => ?_, fun vaultId => ?_⟩
  · exact numberOf_encode (by decide) (by decide) _ (lt_of_lt_of_eq code.val.isLt (by norm_num))
  · exact numberOf_encode (by decide) (by decide) _ (lt_of_lt_of_eq vaultId.val.isLt (by norm_num))

end QuantumFs.Net
