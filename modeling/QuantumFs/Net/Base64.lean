import QuantumFs.Lib.Utf

/-! Standard Base64 with padding (`net/profiles.rs`). The last digit before the padding has bits to
spare, and they have to be zero. -/
namespace QuantumFs.Net

open Lib

/-- `BASE64` -/
def base64 : List UInt8 :=
  "ABCDEFGHIJKLMNOPQRSTUVWXYZabcdefghijklmnopqrstuvwxyz0123456789+/".toList.map fun c => UInt8.ofNat c.toNat

def padding64 : UInt8 := UInt8.ofNat '='.toNat

def letter64 (digit : Nat) : UInt8 := base64.getD digit 0

/-- Four digits for a chunk of at most three bytes, those past its end being padding. -/
def encodeChunk (chunk : List UInt8) : List UInt8 :=
  let block := fun index => (chunk.getD index 0).toNat
  let bits := block 0 * 2 ^ 16 + block 1 * 2 ^ 8 + block 2
  (List.range 4).map fun index =>
    if index ≤ chunk.length then letter64 (bits / 2 ^ (18 - index * 6) % 64) else padding64

def encodeChunks : List UInt8 → List UInt8
  | [] => []
  | [a] => encodeChunk [a]
  | [a, b] => encodeChunk [a, b]
  | a :: b :: c :: rest => encodeChunk [a, b, c] ++ encodeChunks rest

def encodeBase64 (bytes : List UInt8) : Text := (encodeChunks bytes).map fun unit => Char.ofNat unit.toNat

/-- What the next digit does to the bits, their number, and the bytes so far. -/
def pushDigit (state : Nat × Nat × List UInt8) (digit : Nat) : Nat × Nat × List UInt8 :=
  let (bits, available, output) := state
  let bits := bits * 64 % 2 ^ 32 + digit
  let available := available + 6
  if 8 ≤ available then (bits, available - 8, output ++ [UInt8.ofNat (bits / 2 ^ (available - 8))])
  else (bits, available, output)

def decodeBase64Step (state : Nat × Nat × List UInt8) (byte : UInt8) : Option (Nat × Nat × List UInt8) :=
  (base64.findIdx? (· = byte)).map (pushDigit state)

def decodeBase64 (value : Text) : Option (List UInt8) :=
  let units := Text.utf8 value
  if units = [] ∨ units.length % 4 ≠ 0 then none
  else
    let padding := (units.reverse.takeWhile (· = padding64)).length
    if 2 < padding then none
    else do
      let (bits, available, output) ← (units.take (units.length - padding)).foldlM decodeBase64Step (0, 0, [])
      if available ≠ 0 ∧ bits % 2 ^ available ≠ 0 then none else some output

def digitsOf : List UInt8 → List Nat
  | [] => []
  | [a] => [a.toNat / 4, a.toNat % 4 * 16]
  | [a, b] => [a.toNat / 4, a.toNat % 4 * 16 + b.toNat / 16, b.toNat % 16 * 4]
  | a :: b :: c :: rest =>
    [a.toNat / 4, a.toNat % 4 * 16 + b.toNat / 16, b.toNat % 16 * 4 + c.toNat / 64, c.toNat % 64] ++ digitsOf rest

/-- The bytes that are full, and the bits to spare with their number. -/
def bytesOf : List Nat → List UInt8
  | d :: e :: f :: g :: rest =>
    [UInt8.ofNat (d * 4 + e / 16), UInt8.ofNat (e * 16 + f / 4), UInt8.ofNat (f * 64 + g)] ++ bytesOf rest
  | [d, e, f] => [UInt8.ofNat (d * 4 + e / 16), UInt8.ofNat (e * 16 + f / 4)]
  | [d, e] => [UInt8.ofNat (d * 4 + e / 16)]
  | _ => []

def spareOf : List Nat → Nat × Nat
  | _ :: _ :: _ :: _ :: rest => spareOf rest
  | [_, _, f] => (f % 4, 2)
  | [_, e] => (e % 16, 4)
  | _ => (0, 0)

def paddingOf (bytes : List UInt8) : Nat := (3 - bytes.length % 3) % 3

theorem digitsOf_lt (bytes : List UInt8) : ∀ digit ∈ digitsOf bytes, digit < 64 := by
  fun_induction digitsOf bytes with
  | case1 => nofun
  | case2 a =>
    have := a.toNat_lt
    simp only [List.forall_mem_cons]
    exact ⟨by omega, by omega, nofun⟩
  | case3 a b =>
    have := a.toNat_lt
    have := b.toNat_lt
    simp only [List.forall_mem_cons]
    exact ⟨by omega, by omega, by omega, nofun⟩
  | case4 a b c rest ih =>
    have := a.toNat_lt
    have := b.toNat_lt
    have := c.toNat_lt
    simp only [List.cons_append, List.nil_append, List.forall_mem_cons]
    exact ⟨by omega, by omega, by omega, by omega, ih⟩

theorem bytesOf_digitsOf (bytes : List UInt8) : bytesOf (digitsOf bytes) = bytes ∧ (spareOf (digitsOf bytes)).1 = 0 := by
  have same {byte : UInt8} {n : Nat} (h : n % 256 = byte.toNat) : UInt8.ofNat n = byte := by
    rw [← UInt8.toNat_inj, UInt8.toNat_ofNat']
    exact h
  fun_induction digitsOf bytes with
  | case1 => exact ⟨rfl, rfl⟩
  | case2 a =>
    have := a.toNat_lt
    unfold bytesOf spareOf
    rw [@same a _ (by omega)]
    exact ⟨rfl, by dsimp only; omega⟩
  | case3 a b =>
    have := a.toNat_lt
    have := b.toNat_lt
    unfold bytesOf spareOf
    rw [@same a _ (by omega), @same b _ (by omega)]
    exact ⟨rfl, by dsimp only; omega⟩
  | case4 a b c rest ih =>
    have := a.toNat_lt
    have := b.toNat_lt
    have := c.toNat_lt
    simp only [List.cons_append, List.nil_append, bytesOf, spareOf]
    rw [@same a _ (by omega), @same b _ (by omega), @same c _ (by omega), ih.1]
    exact ⟨rfl, ih.2⟩

theorem digitsOf_bytesOf {digits : List Nat} (small : ∀ digit ∈ digits, digit < 64) (whole : digits.length % 4 ≠ 1)
    (none : (spareOf digits).1 = 0) : digitsOf (bytesOf digits) = digits ∧
      paddingOf (bytesOf digits) = (4 - digits.length % 4) % 4 ∧ (digits ≠ [] → bytesOf digits ≠ []) := by
  fun_induction bytesOf digits with
  | case1 d e f g rest ih =>
    simp only [List.forall_mem_cons] at small
    simp only [List.length_cons] at whole
    obtain ⟨sameDigits, samePadding, -⟩ := ih small.2.2.2.2 (by omega) none
    unfold paddingOf at samePadding ⊢
    simp only [List.cons_append, List.nil_append, digitsOf, UInt8.toNat_ofNat', List.length_cons, sameDigits]
    refine ⟨?_, by omega, nofun⟩
    congr 1
    · omega
    congr 1
    · omega
    congr 1
    · omega
    congr 1
    omega
  | case2 d e f =>
    simp only [List.forall_mem_cons] at small
    simp only [spareOf] at none
    simp only [digitsOf, UInt8.toNat_ofNat']
    refine ⟨?_, rfl, nofun⟩
    congr 1
    · omega
    congr 1
    · omega
    congr 1
    omega
  | case3 d e =>
    simp only [List.forall_mem_cons] at small
    simp only [spareOf] at none
    simp only [digitsOf, UInt8.toNat_ofNat']
    refine ⟨?_, rfl, nofun⟩
    congr 1
    · omega
    congr 1
    omega
  | case4 digits notFour notThree notTwo =>
    match digits with
    | [] => exact ⟨rfl, rfl, absurd rfl⟩
    | [d] => exact absurd rfl whole
    | [d, e] => exact absurd rfl (notTwo d e)
    | [d, e, f] => exact absurd rfl (notThree d e f)
    | d :: e :: f :: g :: rest => exact absurd rfl (notFour d e f g rest)

def shifted (bits digit : Nat) : Nat := bits * 64 % 2 ^ 32 + digit

theorem foldl_two (bits : Nat) (output : List UInt8) (d e : Nat) :
    [d, e].foldl pushDigit (bits, 0, output) =
      (shifted (shifted bits d) e, 4, output ++ [UInt8.ofNat (d * 4 + e / 16)]) := by
  change (_, _, output ++ [UInt8.ofNat (shifted (shifted bits d) e / 2 ^ 4)]) = _
  have same : UInt8.ofNat (shifted (shifted bits d) e / 2 ^ 4) = UInt8.ofNat (d * 4 + e / 16) := by
    rw [← UInt8.toNat_inj, UInt8.toNat_ofNat', UInt8.toNat_ofNat']
    unfold shifted
    omega
  rw [same]
  rfl

theorem foldl_three (bits : Nat) (output : List UInt8) (d e f : Nat) :
    [d, e, f].foldl pushDigit (bits, 0, output) = (shifted (shifted (shifted bits d) e) f, 2,
      output ++ [UInt8.ofNat (d * 4 + e / 16), UInt8.ofNat (e * 16 + f / 4)]) := by
  change pushDigit ([d, e].foldl pushDigit (bits, 0, output)) f = _
  rw [foldl_two]
  generalize shifted bits d = bits
  change (_, _, output ++ [UInt8.ofNat (d * 4 + e / 16)] ++ [UInt8.ofNat (shifted (shifted bits e) f / 2 ^ 2)]) = _
  have same : UInt8.ofNat (shifted (shifted bits e) f / 2 ^ 2) = UInt8.ofNat (e * 16 + f / 4) := by
    rw [← UInt8.toNat_inj, UInt8.toNat_ofNat', UInt8.toNat_ofNat']
    unfold shifted
    omega
  rw [same, List.append_assoc]
  rfl

theorem foldl_four (bits : Nat) (output : List UInt8) (d e f g : Nat) :
    ∃ bits', [d, e, f, g].foldl pushDigit (bits, 0, output) = (bits', 0,
      output ++ [UInt8.ofNat (d * 4 + e / 16), UInt8.ofNat (e * 16 + f / 4), UInt8.ofNat (f * 64 + g)]) := by
  refine ⟨shifted (shifted (shifted (shifted bits d) e) f) g, ?_⟩
  change pushDigit ([d, e, f].foldl pushDigit (bits, 0, output)) g = _
  rw [foldl_three]
  generalize shifted (shifted bits d) e = bits
  change (_, _, output ++ [UInt8.ofNat (d * 4 + e / 16), UInt8.ofNat (e * 16 + f / 4)] ++
    [UInt8.ofNat (shifted (shifted bits f) g / 2 ^ 0)]) = _
  have same : UInt8.ofNat (shifted (shifted bits f) g / 2 ^ 0) = UInt8.ofNat (f * 64 + g) := by
    rw [← UInt8.toNat_inj, UInt8.toNat_ofNat', UInt8.toNat_ofNat']
    unfold shifted
    omega
  rw [same, List.append_assoc]
  rfl

theorem foldl_pushDigit {digits : List Nat} (whole : digits.length % 4 ≠ 1)
    (bits : Nat) (output : List UInt8) : ∃ last, digits.foldl pushDigit (bits, 0, output) =
      (last, (spareOf digits).2, output ++ bytesOf digits) ∧ last % 2 ^ (spareOf digits).2 = (spareOf digits).1 := by
  fun_induction bytesOf digits generalizing bits output with
  | case1 d e f g rest ih =>
    obtain ⟨bits', group⟩ := foldl_four bits output d e f g
    obtain ⟨last, run, spare⟩ := ih (by simp only [List.length_cons] at whole; omega) bits' _
    refine ⟨last, ?_, spare⟩
    change rest.foldl pushDigit ([d, e, f, g].foldl pushDigit (bits, 0, output)) = _
    rw [group, run, List.append_assoc]
    rfl
  | case2 d e f =>
    refine ⟨_, foldl_three bits output d e f, ?_⟩
    change shifted _ f % 2 ^ 2 = f % 4
    unfold shifted
    omega
  | case3 d e =>
    refine ⟨_, foldl_two bits output d e, ?_⟩
    change shifted _ e % 2 ^ 4 = e % 16
    unfold shifted
    omega
  | case4 digits notFour notThree notTwo =>
    match digits with
    | [] => exact ⟨bits, by simp [spareOf], Nat.mod_one bits⟩
    | [d] => exact absurd rfl whole
    | [d, e] => exact absurd rfl (notTwo d e)
    | [d, e, f] => exact absurd rfl (notThree d e f)
    | d :: e :: f :: g :: rest => exact absurd rfl (notFour d e f g rest)

theorem letter64_spec : ∀ digit < 64, base64.findIdx? (· = letter64 digit) = some digit ∧ (letter64 digit).toNat < 128 ∧
    letter64 digit ≠ padding64 := by
  decide +kernel

theorem findIdx_base64 {byte : UInt8} {digit : Nat} (found : base64.findIdx? (· = byte) = some digit) :
    digit < 64 ∧ byte = letter64 digit := by
  obtain ⟨inside, same, -⟩ := List.findIdx?_eq_some_iff_getElem.mp found
  refine ⟨inside, ?_⟩
  unfold letter64
  rw [List.getD_eq_getElem _ _ inside]
  exact (of_decide_eq_true same).symm

theorem encodeChunks_eq (bytes : List UInt8) : encodeChunks bytes =
    (digitsOf bytes).map letter64 ++ List.replicate (paddingOf bytes) padding64 := by
  fun_induction encodeChunks bytes with
  | case1 => rfl
  | case2 a =>
    have := a.toNat_lt
    have first : (a.toNat * 2 ^ 16 + 0 * 2 ^ 8 + 0) / 2 ^ 18 % 64 = a.toNat / 4 := by omega
    have second : (a.toNat * 2 ^ 16 + 0 * 2 ^ 8 + 0) / 2 ^ 12 % 64 = a.toNat % 4 * 16 := by omega
    change [letter64 _, letter64 _, padding64, padding64] = [letter64 _, letter64 _, padding64, padding64]
    rw [← first, ← second]
    rfl
  | case3 a b =>
    have := a.toNat_lt
    have := b.toNat_lt
    have first : (a.toNat * 2 ^ 16 + b.toNat * 2 ^ 8 + 0) / 2 ^ 18 % 64 = a.toNat / 4 := by omega
    have second : (a.toNat * 2 ^ 16 + b.toNat * 2 ^ 8 + 0) / 2 ^ 12 % 64 = a.toNat % 4 * 16 + b.toNat / 16 := by omega
    have third : (a.toNat * 2 ^ 16 + b.toNat * 2 ^ 8 + 0) / 2 ^ 6 % 64 = b.toNat % 16 * 4 := by omega
    change [letter64 _, letter64 _, letter64 _, padding64] = [letter64 _, letter64 _, letter64 _, padding64]
    rw [← first, ← second, ← third]
    rfl
  | case4 a b c rest ih =>
    have := a.toNat_lt
    have := b.toNat_lt
    have := c.toNat_lt
    have first : (a.toNat * 2 ^ 16 + b.toNat * 2 ^ 8 + c.toNat) / 2 ^ 18 % 64 = a.toNat / 4 := by omega
    have second : (a.toNat * 2 ^ 16 + b.toNat * 2 ^ 8 + c.toNat) / 2 ^ 12 % 64 = a.toNat % 4 * 16 + b.toNat / 16 := by omega
    have third : (a.toNat * 2 ^ 16 + b.toNat * 2 ^ 8 + c.toNat) / 2 ^ 6 % 64 = b.toNat % 16 * 4 + c.toNat / 64 := by omega
    have fourth : (a.toNat * 2 ^ 16 + b.toNat * 2 ^ 8 + c.toNat) / 2 ^ 0 % 64 = c.toNat % 64 := by omega
    have missing : paddingOf (a :: b :: c :: rest) = paddingOf rest := by
      unfold paddingOf
      simp only [List.length_cons]
      omega
    rw [digitsOf, ih, missing, List.map_append, List.append_assoc]
    congr 1
    change [letter64 _, letter64 _, letter64 _, letter64 _] = [letter64 _, letter64 _, letter64 _, letter64 _]
    rw [← first, ← second, ← third, ← fourth]
    rfl

theorem length_digitsOf (bytes : List UInt8) : (digitsOf bytes).length % 4 ≠ 1 ∧
    ((digitsOf bytes).length + paddingOf bytes) % 4 = 0 ∧ (bytes ≠ [] → digitsOf bytes ≠ []) := by
  fun_induction digitsOf bytes with
  | case1 => exact ⟨by decide, rfl, fun some => absurd rfl some⟩
  | case2 a => exact ⟨by simp, by simp [paddingOf], nofun⟩
  | case3 a b => exact ⟨by simp, by simp [paddingOf], nofun⟩
  | case4 a b c rest ih =>
    unfold paddingOf at ih ⊢
    simp only [List.length_append, List.length_cons, List.length_nil]
    exact ⟨by omega, by omega, nofun⟩

theorem encodeChunks_ascii (bytes : List UInt8) : ∀ unit ∈ encodeChunks bytes, unit.toNat < 128 := by
  intro unit mem
  rw [encodeChunks_eq] at mem
  obtain mem | mem := List.mem_append.mp mem
  · obtain ⟨digit, among, rfl⟩ := List.mem_map.mp mem
    exact (letter64_spec digit (digitsOf_lt bytes digit among)).2.1
  · rw [List.eq_of_mem_replicate mem]
    decide

theorem utf8_encodeBase64 (bytes : List UInt8) : Text.utf8 (encodeBase64 bytes) = encodeChunks bytes := by
  unfold Text.utf8 encodeBase64
  rw [List.flatMap_map]
  refine (List.flatMap_congr fun unit mem => ?_).trans (List.flatMap_singleton' _)
  have small := encodeChunks_ascii bytes unit mem
  have same : (Char.ofNat unit.toNat).toNat = unit.toNat := by
    rw [Char.toNat_ofNat, if_pos (.inl (by omega))]
  rw [Text.utf8EncodeChar_ascii (by rw [same]; exact small), same, UInt8.ofNat_toNat]

theorem foldlM_letters {digits : List Nat} (small : ∀ digit ∈ digits, digit < 64) (state : Nat × Nat × List UInt8) :
    (digits.map letter64).foldlM decodeBase64Step state = some (digits.foldl pushDigit state) := by
  induction digits generalizing state with
  | nil => rfl
  | cons digit digits ih =>
    obtain ⟨low, small⟩ := List.forall_mem_cons.mp small
    rw [List.map_cons, List.foldlM_cons, decodeBase64Step, (letter64_spec digit low).1, Option.map_some,
      List.foldl_cons, ← ih small]
    rfl

theorem letters_of_foldlM {units : List UInt8} {state last : Nat × Nat × List UInt8}
    (h : units.foldlM decodeBase64Step state = some last) :
    ∃ digits : List Nat, (∀ digit ∈ digits, digit < 64) ∧ units = digits.map letter64 := by
  induction units generalizing state with
  | nil => exact ⟨[], nofun, rfl⟩
  | cons unit units ih =>
    rw [List.foldlM_cons] at h
    obtain ⟨next, step, rest⟩ := Option.bind_eq_some_iff.mp h
    obtain ⟨digit, found, -⟩ := Option.map_eq_some_iff.mp step
    obtain ⟨low, rfl⟩ := findIdx_base64 found
    obtain ⟨digits, small, rfl⟩ := ih rest
    exact ⟨digit :: digits, List.forall_mem_cons.mpr ⟨low, small⟩, rfl⟩

theorem takeWhile_padding {digits : List Nat} (small : ∀ digit ∈ digits, digit < 64) (n : Nat) :
    ((digits.map letter64 ++ List.replicate n padding64).reverse.takeWhile (· = padding64)).length = n := by
  rw [List.reverse_append, List.reverse_replicate, List.takeWhile_append_of_pos fun unit mem => by
    simp [List.eq_of_mem_replicate mem]]
  have none : (digits.map letter64).reverse.takeWhile (· = padding64) = [] := by
    cases last : (digits.map letter64).reverse with
    | nil => rfl
    | cons unit units =>
      have mem : unit ∈ digits.map letter64 := List.mem_reverse.mp (by rw [last]; exact List.mem_cons_self)
      obtain ⟨digit, among, rfl⟩ := List.mem_map.mp mem
      exact List.takeWhile_cons_of_neg (by simpa using (letter64_spec digit (small digit among)).2.2)
  rw [none, List.append_nil, List.length_replicate]

theorem padding_split (units : List UInt8) : ∃ front,
    units = front ++ List.replicate (units.reverse.takeWhile (· = padding64)).length padding64 ∧
      units.take (units.length - (units.reverse.takeWhile (· = padding64)).length) = front := by
  have signs : units.reverse.takeWhile (· = padding64) =
      List.replicate (units.reverse.takeWhile (· = padding64)).length padding64 := by
    refine List.eq_replicate_of_mem fun unit mem => ?_
    have sign := List.mem_takeWhile_imp mem
    exact of_decide_eq_true sign
  have split : units = (units.reverse.dropWhile (· = padding64)).reverse ++
      List.replicate (units.reverse.takeWhile (· = padding64)).length padding64 := by
    rw [← List.reverse_replicate, ← signs, ← List.reverse_append, List.takeWhile_append_dropWhile, List.reverse_reverse]
  refine ⟨_, split, ?_⟩
  generalize (units.reverse.takeWhile (· = padding64)).length = n at split ⊢
  generalize (units.reverse.dropWhile (· = padding64)).reverse = front at split ⊢
  rw [split, List.length_append, List.length_replicate, Nat.add_sub_cancel, List.take_left]

theorem decodeBase64_eq {value : Text} {digits : List Nat} {n : Nat} (small : ∀ digit ∈ digits, digit < 64)
    (written : Text.utf8 value = digits.map letter64 ++ List.replicate n padding64) (some : digits ≠ [])
    (filled : (digits.length + n) % 4 = 0) (few : n ≤ 2) :
    decodeBase64 value = if (spareOf digits).1 = 0 then .some (bytesOf digits) else none := by
  have size : (digits.map letter64 ++ List.replicate n padding64).length = digits.length + n := by simp
  have present : ¬(digits.map letter64 ++ List.replicate n padding64 = [] ∨
      (digits.map letter64 ++ List.replicate n padding64).length % 4 ≠ 0) := by
    rw [size]
    refine not_or.mpr ⟨fun none => some ?_, not_not.mpr filled⟩
    exact List.map_eq_nil_iff.mp (List.append_eq_nil_iff.mp none).1
  obtain ⟨last, run, spare⟩ := @foldl_pushDigit digits (by omega) 0 []
  have cut : (digits.map letter64 ++ List.replicate n padding64).take (digits.length + n - n) = digits.map letter64 := by
    rw [Nat.add_sub_cancel]
    exact List.take_left' (List.length_map ..)
  unfold decodeBase64
  dsimp only
  rw [written, if_neg present, takeWhile_padding small, if_neg (by omega), size, cut, foldlM_letters small, run]
  change (if (spareOf digits).2 ≠ 0 ∧ last % 2 ^ (spareOf digits).2 ≠ 0 then none else _) = _
  rw [spare]
  by_cases zero : (spareOf digits).1 = 0
  · rw [if_neg fun both => both.2 zero, if_pos zero, List.nil_append]
  · have room : (spareOf digits).2 ≠ 0 := by
      intro nothing
      rw [nothing, pow_zero, Nat.mod_one] at spare
      exact zero spare.symm
    rw [if_pos ⟨room, zero⟩, if_neg zero]

theorem decodeBase64_eq_some {value : Text} {bytes : List UInt8} :
    decodeBase64 value = some bytes ↔ bytes ≠ [] ∧ value = encodeBase64 bytes := by
  constructor
  · intro decoded
    have kept := decoded
    unfold decodeBase64 at decoded
    dsimp only at decoded
    obtain ⟨present, decoded⟩ := Option.ite_none_left_eq_some.mp decoded
    obtain ⟨few, decoded⟩ := Option.ite_none_left_eq_some.mp decoded
    obtain ⟨last, run, -⟩ := Option.bind_eq_some_iff.mp decoded
    obtain ⟨digits, small, same⟩ := letters_of_foldlM run
    obtain ⟨some, whole⟩ := not_or.mp present
    obtain ⟨front, written, cut⟩ := padding_split (Text.utf8 value)
    obtain rfl := cut.symm.trans same
    generalize ((Text.utf8 value).reverse.takeWhile (· = padding64)).length = n at few written
    have filled : (digits.length + n) % 4 = 0 := by
      have size := congrArg List.length written
      rw [List.length_append, List.length_map, List.length_replicate] at size
      omega
    have more : digits ≠ [] := by
      rintro rfl
      rw [List.map_nil, List.nil_append] at written
      have size := congrArg List.length written
      rw [List.length_replicate] at size
      simp only [List.length_nil, Nat.zero_add] at filled
      refine some (List.length_eq_zero_iff.mp ?_)
      omega
    rw [decodeBase64_eq small written more filled (by omega)] at kept
    obtain ⟨none, same⟩ := Option.ite_none_right_eq_some.mp kept
    obtain rfl := Option.some.inj same
    obtain ⟨back, missing, nonempty⟩ := digitsOf_bytesOf small (by omega) none
    refine ⟨nonempty more, ?_⟩
    have signs : n = paddingOf (bytesOf digits) := by omega
    have units : Text.utf8 value = encodeChunks (bytesOf digits) := by
      rw [written, encodeChunks_eq, back, signs]
    obtain ⟨ascii, chars⟩ := Text.eq_map_of_utf8 fun unit mem => encodeChunks_ascii _ unit (units ▸ mem)
    unfold encodeBase64
    rw [← units, chars, List.map_map]
    refine ((List.map_congr_left fun c mem => ?_).trans (List.map_id value)).symm
    have small := ascii c mem
    change Char.ofNat (UInt8.ofNat c.toNat).toNat = c
    rw [UInt8.toNat_ofNat', Nat.mod_eq_of_lt (by omega), Char.ofNat_toNat]
  · rintro ⟨some, rfl⟩
    obtain ⟨whole, filled, more⟩ := length_digitsOf bytes
    have few : paddingOf bytes ≤ 2 := by
      unfold paddingOf
      omega
    obtain ⟨same, none⟩ := bytesOf_digitsOf bytes
    rw [decodeBase64_eq (digitsOf_lt bytes) ((utf8_encodeBase64 bytes).trans (encodeChunks_eq bytes)) (more some) filled few,
      if_pos none, same]

end QuantumFs.Net
