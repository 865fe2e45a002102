import Mathlib

/-! Fixed-width big-endian integers as byte lists. -/
namespace QuantumFs.Lib

abbrev Bytes : Type := List UInt8

instance neZero_two_pow_64 : NeZero (2 ^ 64) := inferInstance

instance neZero_two_pow_128 : NeZero (2 ^ 128) := inferInstance

instance neZero_two_pow_256 : NeZero (2 ^ 256) := inferInstance

/-- The low `width` bytes of a number, most significant first. -/
def toBE : Nat → Nat → Bytes
  | 0, _ => []
  | width + 1, value => UInt8.ofNat (value / 256 ^ width) :: toBE width value

def ofBE : Bytes → Nat
  | [] => 0
  | byte :: rest => byte.toNat * 256 ^ rest.length + ofBE rest

@[simp] theorem length_toBE (width value : Nat) : (toBE width value).length = width := by
  induction width with
  | zero => rfl
  | succ width ih => simp [toBE, ih]

theorem ofBE_toBE_mod (width value : Nat) : ofBE (toBE width value) = value % 256 ^ width := by
  induction width with
  | zero => simp [toBE, ofBE, Nat.mod_one]
  | succ width ih =>
    have hsplit : value % 256 ^ (width + 1) =
        value % 256 ^ width + 256 ^ width * (value / 256 ^ width % 256) := by
      rw [Nat.pow_succ, Nat.mod_mul]
    rw [toBE, ofBE, ih, length_toBE, UInt8.toNat_ofNat', hsplit, Nat.add_comm, Nat.mul_comm]

theorem ofBE_toBE {width value : Nat} (h : value < 256 ^ width) :
    ofBE (toBE width value) = value := by
  rw [ofBE_toBE_mod, Nat.mod_eq_of_lt h]

theorem ofBE_lt (bytes : Bytes) : ofBE bytes < 256 ^ bytes.length := by
  induction bytes with
  | nil => simp [ofBE]
  | cons byte rest ih =>
    have hbyte : byte.toNat < 256 := byte.toNat_lt
    rw [ofBE, List.length_cons, Nat.pow_succ]
    nlinarith

theorem toBE_add_mul (width value high : Nat) :
    toBE width (high * 256 ^ width + value) = toBE width value := by
  induction width generalizing high with
  | zero => rfl
  | succ width ih =>
    rw [toBE, toBE]
    have hsplit : high * 256 ^ (width + 1) + value = high * 256 * 256 ^ width + value := by ring
    rw [hsplit, ih]
    congr 1
    rw [Nat.mul_comm (high * 256), Nat.mul_add_div (by positivity)]
    apply UInt8.toNat_inj.mp
    rw [UInt8.toNat_ofNat', UInt8.toNat_ofNat']
    omega

theorem toBE_ofBE (bytes : Bytes) : toBE bytes.length (ofBE bytes) = bytes := by
  induction bytes with
  | nil => rfl
  | cons byte rest ih =>
    rw [List.length_cons, toBE, ofBE, toBE_add_mul, ih]
    congr 1
    rw [Nat.mul_comm, Nat.mul_add_div (by positivity), Nat.div_eq_of_lt (ofBE_lt rest)]
    simp

end QuantumFs.Lib
