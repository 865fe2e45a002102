import QuantumFs.Lib.Text

/-! Whole numbers as doubles: 53 bits are kept, the rest is rounded to the nearest, and a number is
written with the fewest digits that are read as the same number. -/
namespace QuantumFs.Lib

/-- The nearest number of 53 bits and zeros; of two of them the even one. -/
def roundDouble (value : Nat) : Nat :=
  let step := 2 ^ (Nat.size value - 53)
  let quotient := value / step
  let rest := value % step
  (if 2 * rest < step ∨ 2 * rest = step ∧ quotient % 2 = 0 then quotient else quotient + 1) * step

/-- A number that is not negative; `none` is infinity. -/
abbrev Double : Type := Option Nat

namespace Double

/-- From `2 ^ 1024` on a number is infinite. -/
def exponentBound : Nat := 1024

def ofNat (value : Nat) : Double := if roundDouble value < 2 ^ exponentBound then some (roundDouble value) else none

/-- `n + 1` -/
def succ (number : Double) : Double := number.bind fun value => ofNat (value + 1)

/-- The multiple of `10 ^ zeros` next to `value` that is rounded to it; of two of them the nearer, and of
two equally near the one with an even last digit. -/
def multiple (value zeros : Nat) : Option Nat :=
  let below := value / 10 ^ zeros
  let fits (digits : Nat) : Bool := 0 < digits && ofNat (digits * 10 ^ zeros) == some value
  let before := value - below * 10 ^ zeros
  let after := (below + 1) * 10 ^ zeros - value
  if fits below && (!fits (below + 1) || before < after || before == after && below % 2 == 0) then
    some (below * 10 ^ zeros)
  else if fits (below + 1) then some ((below + 1) * 10 ^ zeros)
  else none

/-- The number that is written for `value`: as many zeros at its end as there can be. -/
def shortest (value : Nat) : Nat :=
  ((List.range ((Text.decimal value).length + 1)).reverse.findSome? (multiple value)).getD value

def toText : Double → Text
  | none => "Infinity".toList
  | some value =>
    let digits := Text.decimal (shortest value)
    if digits.length ≤ 21 then digits
    else
      let exponent := "e+".toList ++ Text.decimal (digits.length - 1)
      match digits.rdropWhile (· = '0') with
      | [] => exponent
      | [digit] => digit :: exponent
      | digit :: more => digit :: '.' :: more ++ exponent

end Double

example : Double.toText (Double.ofNat (2 ^ 60)) = "1152921504606847000".toList := by decide +kernel

example : Double.toText (Double.ofNat (10 ^ 23)) = "1e+23".toList := by decide +kernel

theorem roundDouble_of_lt {value : Nat} (small : value < 2 ^ 53) : roundDouble value = value := by
  have size : Nat.size value - 53 = 0 := Nat.sub_eq_zero_of_le (Nat.size_le.mpr small)
  unfold roundDouble
  rw [size]
  simp [Nat.mod_one]

theorem le_roundDouble {value bits : Nat} (exact : bits ≤ 52) (large : 2 ^ bits ≤ value) :
    2 ^ bits ≤ roundDouble value := by
  by_cases small : value < 2 ^ 53
  · rw [roundDouble_of_lt small]
    exact large
  · have wide : 53 < Nat.size value := Nat.lt_size.mpr (not_lt.mp small)
    have top : 2 ^ (Nat.size value - 1) ≤ value := Nat.lt_size.mp (by omega)
    have quotient : 2 ^ 52 ≤ value / 2 ^ (Nat.size value - 53) := by
      rw [Nat.le_div_iff_mul_le (by positivity), ← Nat.pow_add]
      rwa [show 52 + (Nat.size value - 53) = Nat.size value - 1 by omega]
    have kept : 2 ^ 52 ≤ roundDouble value := by
      unfold roundDouble
      refine (quotient.trans ?_).trans (Nat.le_mul_of_pos_right _ (by positivity))
      split <;> omega
    exact (Nat.pow_le_pow_right (by decide) exact).trans kept

namespace Double

theorem ofNat_of_lt {value : Nat} (small : value < 2 ^ 53) : ofNat value = some value := by
  unfold ofNat
  rw [roundDouble_of_lt small]
  exact if_pos (small.trans (Nat.pow_lt_pow_right (by decide) (by decide)))

theorem le_of_ofNat {value bits number : Nat} (exact : bits ≤ 52) (large : 2 ^ bits ≤ value)
    (h : ofNat value = some number) : 2 ^ bits ≤ number := by
  obtain ⟨-, same⟩ := Option.ite_none_right_eq_some.mp h
  exact Option.some.inj same ▸ le_roundDouble exact large

theorem succ_of_lt {value : Nat} (small : value + 1 < 2 ^ 53) : succ (some value) = some (value + 1) := by
  unfold succ
  rw [Option.bind_some, ofNat_of_lt small]

theorem le_of_succ {value bits number : Nat} (exact : bits ≤ 52) (large : 2 ^ bits ≤ value)
    (h : succ (some value) = some number) : 2 ^ bits ≤ number := by
  unfold succ at h
  rw [Option.bind_some] at h
  exact le_of_ofNat exact (large.trans (Nat.le_succ value)) h

theorem ofNat_shortest (value : Nat) : shortest value = value ∨ ofNat (shortest value) = some value := by
  unfold shortest
  cases found : (List.range ((Text.decimal value).length + 1)).reverse.findSome? (multiple value) with
  | none => exact .inl rfl
  | some digits =>
    right
    obtain ⟨zeros, -, chosen⟩ := List.exists_of_findSome?_eq_some found
    have fits {digits : Nat} (h : (0 < digits && ofNat (digits * 10 ^ zeros) == some value) = true) :
        ofNat (digits * 10 ^ zeros) = some value := eq_of_beq (Bool.and_eq_true_iff.mp h).2
    unfold multiple at chosen
    dsimp only at chosen
    split at chosen
    · rename_i below
      cases chosen
      exact fits (Bool.and_eq_true_iff.mp below).1
    · obtain ⟨above, same⟩ := Option.ite_none_right_eq_some.mp chosen
      cases same
      exact fits above

theorem shortest_of_lt {value : Nat} (small : value < 2 ^ 52) : shortest value = value := by
  obtain same | read := ofNat_shortest value
  · exact same
  · have low : shortest value < 2 ^ 52 := by
      by_contra large
      exact absurd (le_of_ofNat le_rfl (not_lt.mp large) read) (not_le.mpr small)
    rw [ofNat_of_lt (low.trans (by decide))] at read
    exact Option.some.inj read

theorem le_shortest {value bits : Nat} (exact : bits ≤ 52) (large : 2 ^ bits ≤ value) : 2 ^ bits ≤ shortest value := by
  obtain same | read := ofNat_shortest value
  · rwa [same]
  · by_contra low
    have small : shortest value < 2 ^ 53 :=
      (not_le.mp low).trans_le (Nat.pow_le_pow_right (by decide) (exact.trans (by decide)))
    rw [ofNat_of_lt small] at read
    exact low (large.trans_eq (Option.some.inj read).symm)

theorem toText_of_lt {value : Nat} (small : value < 2 ^ 52) : toText (some value) = Text.decimal value := by
  have length : (Text.decimal value).length ≤ 21 :=
    (Nat.length_toDigits_le_iff (by decide) (by decide)).mpr (small.trans (by decide))
  unfold toText
  dsimp only
  rw [shortest_of_lt small, if_pos length]

/-- How a number is written: its digits, some of them with an exponent, or the word for infinity. -/
theorem toText_cases (number : Double) : toText number = "Infinity".toList ∨
    ∃ value, number = some value ∧ (toText number = Text.decimal (shortest value) ∨
      ∃ digits : Text, (∀ c ∈ digits, c.isDigit = true ∨ c = '.') ∧
        toText number = digits ++ "e+".toList ++ Text.decimal ((Text.decimal (shortest value)).length - 1)) := by
  cases number with
  | none => exact .inl rfl
  | some value =>
    refine .inr ⟨value, rfl, ?_⟩
    unfold toText
    dsimp only
    split
    · exact .inl rfl
    · right
      have all : ∀ c ∈ (Text.decimal (shortest value)).rdropWhile (· = '0'), c.isDigit = true := fun c mem =>
        Text.isDigit_of_mem_decimal ((List.rdropWhile_prefix _ _).subset mem)
      split
      · exact ⟨[], nofun, rfl⟩
      · rename_i digit same
        rw [same] at all
        exact ⟨[digit], fun c mem => .inl (all c mem), rfl⟩
      · rename_i digit more _ same
        rw [same] at all
        refine ⟨digit :: '.' :: more, fun c mem => ?_, by simp⟩
        obtain rfl | rfl | mem := by simpa only [List.mem_cons] using mem
        · exact .inl (all _ List.mem_cons_self)
        · exact .inr rfl
        · exact .inl (all c (List.mem_cons_of_mem _ mem))

theorem mem_toText {number : Double} {c : Char} (mem : c ∈ toText number) :
    c.isDigit = true ∨ c ∈ "Infinity".toList ∨ c ∈ ".e+".toList := by
  obtain word | ⟨value, -, plain | ⟨digits, all, spelled⟩⟩ := toText_cases number
  · exact .inr (.inl (word ▸ mem))
  · exact .inl (Text.isDigit_of_mem_decimal (plain ▸ mem))
  · rw [spelled, List.mem_append, List.mem_append] at mem
    obtain (digit | sign) | exponent := mem
    · obtain digit | rfl := all c digit
      · exact .inl digit
      · exact .inr (.inr (by decide))
    · exact .inr (.inr (List.mem_cons_of_mem _ sign))
    · exact .inl (Text.isDigit_of_mem_decimal exponent)

/-- A number that is written as a small whole number is that number. -/
theorem eq_of_toText {number : Double} {value bits : Nat} (exact : bits ≤ 52) (small : value < 2 ^ bits)
    (h : toText number = Text.decimal value) : number = some value := by
  have digits : ∀ c ∈ toText number, c.isDigit = true := fun c mem => Text.isDigit_of_mem_decimal (h ▸ mem)
  obtain word | ⟨other, rfl, plain | ⟨front, -, spelled⟩⟩ := toText_cases number
  · exact absurd (digits 'I' (by rw [word]; decide)) (by decide)
  · have same : shortest other = value := Text.decimal_inj (plain.symm.trans h)
    by_cases low : other < 2 ^ bits
    · rw [shortest_of_lt (low.trans_le (Nat.pow_le_pow_right (by decide) exact))] at same
      rw [same]
    · have large := le_shortest exact (not_lt.mp low)
      rw [same] at large
      exact absurd small (not_lt.mpr large)
  · exact absurd (digits 'e' (by rw [spelled]; simp)) (by decide)

end Double

end QuantumFs.Lib
