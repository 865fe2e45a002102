import QuantumFs.Host.Commit
import QuantumFs.Lib.Text

/-! Six characters that a human can type (`net/short_code.rs`). A short code only
stands for a join code, which is derived from it. -/
namespace QuantumFs.Net.ShortCode

open Lib Encoding Crypto Host

def shortLen : Nat := 6

def alphabet : Text :=
  ['A', 'B', 'C', 'D', 'E', 'F', 'G', 'H', 'I', 'J', 'K', 'L', 'M', 'N', 'O', 'P', 'Q',
   'R', 'S', 'T', 'U', 'V', 'W', 'X', 'Y', 'Z', '2', '3', '4', '5', '6', '7']

def domain : Bytes := ascii "qfs/v1/short-code/"

def letter (byte : UInt8) : Char :=
  alphabet.get ⟨byte.toNat % 32, Nat.lt_of_lt_of_eq (Nat.mod_lt _ (by decide)) rfl⟩

def generate (random : Option (Fin shortLen → UInt8)) : Result Text := do
  let bytes ← randomBytes random
  pure (List.ofFn fun i => letter (bytes i))

def foldedUppercase : List (Nat × Text) :=
  [(0x00DF, ['S', 'S']), (0x0131, ['I']), (0x017F, ['S']), (0xFB00, ['F', 'F']),
   (0xFB01, ['F', 'I']), (0xFB02, ['F', 'L']), (0xFB03, ['F', 'F', 'I']),
   (0xFB04, ['F', 'F', 'L']), (0xFB05, ['S', 'T']), (0xFB06, ['S', 'T'])]

/-- Upper case, as far as it is ASCII: every other character stays outside of the
alphabet either way. -/
def toUppercase (c : Char) : Text :=
  if 'a' ≤ c ∧ c ≤ 'z' then [Char.ofNat (c.toNat - 32)]
  else (foldedUppercase.lookup c.toNat).getD [c]

def normalize (value : Text) : Option Text :=
  let upper := (Text.trim value).flatMap toUppercase
  if Text.byteLength upper = shortLen ∧ upper.all (alphabet.contains ·) = true then some upper
  else none

variable [Primitives]

def derive (short : Text) : Result JoinCode := do
  let normalized ← okOr (normalize short)
    (.invalidInput "short code must be 6 characters from A-Z2-7")
  let digest := sha256 (domain ++ normalized.map fun c => UInt8.ofNat c.toNat)
  pure ⟨⟨digest.val / 2 ^ 128, Nat.div_lt_of_lt_mul digest.isLt⟩⟩

omit [Primitives] in
theorem alphabet_plain : ∀ c ∈ alphabet,
    Text.isBlank c = false ∧ toUppercase c = [c] ∧ c.utf8Size = 1 ∧ c ≠ '\n' ∧ c ≠ '\r' := by
  intro c mem
  simp only [alphabet, List.mem_cons, List.not_mem_nil, or_false] at mem
  repeat
    obtain rfl | mem := mem
    · decide

omit [Primitives] in
theorem letter_mem (byte : UInt8) : letter byte ∈ alphabet := List.get_mem _ _

omit [Primitives] in
theorem normalize_of_canonical {short : Text} (size : short.length = shortLen)
    (letters : ∀ c ∈ short, c ∈ alphabet) : normalize short = some short := by
  have upper : short.flatMap toUppercase = short := by
    calc short.flatMap toUppercase = short.flatMap fun c => [c] := by
          exact List.flatMap_congr fun c mem => (alphabet_plain c (letters c mem)).2.1
      _ = short := List.flatMap_singleton' short
  have bytes : Text.byteLength short = short.length := by
    unfold Text.byteLength
    rw [List.map_congr_left fun c mem => (alphabet_plain c (letters c mem)).2.2.1,
      List.map_const', List.sum_replicate_nat, mul_one]
  unfold normalize
  rw [Text.trim_of_solid fun c mem => (alphabet_plain c (letters c mem)).1, upper]
  have known : short.all (alphabet.contains ·) = true := by
    rw [List.all_eq_true]
    exact fun c mem => List.contains_iff_mem.mpr (letters c mem)
  exact if_pos ⟨bytes.trans size, known⟩

def Canonical (short : Text) : Prop := short.length = shortLen ∧ ∀ c ∈ short, c ∈ alphabet

end QuantumFs.Net.ShortCode
