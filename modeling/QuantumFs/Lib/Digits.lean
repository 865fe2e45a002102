import Mathlib

/-! Numbers as lists of digits, most significant first, and the digits a shifted
accumulator gives out. -/
namespace QuantumFs.Lib

def digitsValue (base : Nat) (digits : List Nat) : Nat :=
  digits.foldl (fun value digit => value * base + digit) 0

theorem digitsValue_concat (base : Nat) (digits : List Nat) (digit : Nat) :
    digitsValue base (digits ++ [digit]) = digitsValue base digits * base + digit := by
  unfold digitsValue
  rw [List.foldl_append]
  rfl

theorem digitsValue_eq_ofDigits (base : Nat) (digits : List Nat) :
    digitsValue base digits = Nat.ofDigits base digits.reverse := by
  induction digits using List.reverseRecOn with
  | nil => rfl
  | append_singleton digits digit ih =>
    rw [digitsValue_concat, ih, List.reverse_concat, Nat.ofDigits_cons, Nat.mul_comm, Nat.add_comm]

theorem digitsValue_inj {base : Nat} (large : 1 < base) {left right : List Nat}
    (length : left.length = right.length) (leftDigits : ∀ digit ∈ left, digit < base)
    (rightDigits : ∀ digit ∈ right, digit < base)
    (value : digitsValue base left = digitsValue base right) : left = right := by
  rw [digitsValue_eq_ofDigits, digitsValue_eq_ofDigits] at value
  apply List.reverse_injective
  exact Nat.ofDigits_inj_of_len_eq large (by simpa using length)
    (fun digit mem => leftDigits digit (List.mem_reverse.mp mem))
    (fun digit mem => rightDigits digit (List.mem_reverse.mp mem)) value

theorem shifted_digit (value shift width : Nat) :
    value / 2 ^ (shift + width) * 2 ^ width + value / 2 ^ shift % 2 ^ width = value / 2 ^ shift := by
  rw [Nat.pow_add, ← Nat.div_div_eq_div_mul]
  exact Nat.div_add_mod' _ _

/-- An accumulator that keeps enough of its low bits gives out the digits of the whole number. -/
theorem truncated_digit (value : Nat) {shift width size : Nat} (enough : shift + width ≤ size) :
    value % 2 ^ size / 2 ^ shift % 2 ^ width = value / 2 ^ shift % 2 ^ width := by
  have split : 2 ^ size = 2 ^ shift * 2 ^ (size - shift) := by
    rw [← Nat.pow_add]
    congr 1
    omega
  rw [split, Nat.mod_mul_right_div_self, Nat.mod_mod_of_dvd]
  exact Nat.pow_dvd_pow 2 (by omega)

end QuantumFs.Lib
