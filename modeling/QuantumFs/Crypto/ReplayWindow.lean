import QuantumFs.Ids

/-! The sliding window over received counters (`protocol/packet.rs`): 1024 bits in
sixteen words, bit `d` standing for the counter `d` below the highest seen. -/
namespace QuantumFs.Crypto

def replayWindowSize : Nat := 1024

structure ReplayWindowState where
  highestSeen : Option Nat
  seen : Vector (BitVec 64) 16
deriving DecidableEq

namespace ReplayWindowState

def empty : ReplayWindowState where
  highestSeen := none
  seen := Vector.replicate 16 0

def bitIsSet (seen : Vector (BitVec 64) 16) (distance : Nat) : Bool :=
  (seen[distance / 64]?.getD 0).getLsbD (distance % 64)

def setBit (seen : Vector (BitVec 64) 16) (distance : Nat) : Vector (BitVec 64) 16 :=
  seen.setIfInBounds (distance / 64)
    ((seen[distance / 64]?.getD 0) ||| (1#64 <<< (distance % 64)))

def shift (seen : Vector (BitVec 64) 16) (advance : Nat) : Vector (BitVec 64) 16 :=
  if replayWindowSize ≤ advance then
    Vector.replicate 16 0
  else
    (List.range (replayWindowSize - advance)).foldl
      (fun shifted old => if bitIsSet seen old then setBit shifted (old + advance) else shifted)
      (Vector.replicate 16 0)

def check (window : ReplayWindowState) (seq : Nat) : Result Unit :=
  match window.highestSeen with
  | none => .ok ()
  | some highest =>
    if highest < seq then
      .ok ()
    else
      ensure (¬ (replayWindowSize ≤ highest - seq ∨ bitIsSet window.seen (highest - seq) = true))
        .replayRejected

def accept (window : ReplayWindowState) (seq : Nat) : Result ReplayWindowState := do
  window.check seq
  match window.highestSeen with
  | none => pure ⟨some seq, setBit window.seen 0⟩
  | some highest =>
    if highest < seq then
      pure ⟨some seq, setBit (shift window.seen (seq - highest)) 0⟩
    else
      pure ⟨some highest, setBit window.seen (highest - seq)⟩

theorem bitIsSet_replicate (distance : Nat) :
    bitIsSet (Vector.replicate 16 0) distance = false := by
  unfold bitIsSet
  rw [Vector.getElem?_replicate]
  split <;> simp

theorem bitIsSet_setBit (seen : Vector (BitVec 64) 16) {distance : Nat}
    (small : distance < replayWindowSize) (other : Nat) :
    bitIsSet (setBit seen distance) other = (decide (other = distance) || bitIsSet seen other) := by
  unfold replayWindowSize at small
  have word : distance / 64 < 16 := by omega
  unfold bitIsSet setBit
  rw [Vector.getElem?_setIfInBounds]
  by_cases same : distance / 64 = other / 64
  · have offset : other % 64 < 64 := by omega
    rw [if_pos same, if_pos word]
    simp only [Option.getD_some, BitVec.getLsbD_or, BitVec.getLsbD_shiftLeft, BitVec.getLsbD_one]
    have eq : (other = distance) ↔ other % 64 = distance % 64 := by omega
    rw [← same, Bool.or_comm]
    congr 1
    by_cases h : other % 64 = distance % 64
    · simp [eq.mpr h]
      omega
    · have different : other ≠ distance := fun he => h (eq.mp he)
      simp only [different, decide_false]
      by_cases below : other % 64 < distance % 64
      · simp [below]
      · have : ¬ (other % 64 - distance % 64 = 0) := by omega
        simp [this]
  · have different : other ≠ distance := fun he => same (by rw [he])
    rw [if_neg same]
    simp [different]

private theorem bitIsSet_foldl (seen : Vector (BitVec 64) 16) (advance : Nat) :
    ∀ (olds : List Nat) (shifted : Vector (BitVec 64) 16),
      (∀ old ∈ olds, old + advance < replayWindowSize) → ∀ distance,
      bitIsSet (olds.foldl (fun shifted old =>
          if bitIsSet seen old then setBit shifted (old + advance) else shifted) shifted) distance =
        (bitIsSet shifted distance ||
          decide (∃ old ∈ olds, bitIsSet seen old = true ∧ distance = old + advance)) := by
  intro olds
  induction olds with
  | nil => simp
  | cons old olds ih =>
    intro shifted inside distance
    rw [List.foldl_cons, ih _ fun other mem => inside other (by simp [mem])]
    have small := inside old (by simp)
    by_cases set : bitIsSet seen old = true
    · rw [if_pos set, bitIsSet_setBit _ small]
      simp only [List.mem_cons, exists_eq_or_imp, set, true_and]
      by_cases here : distance = old + advance <;> simp [here]
    · rw [if_neg set]
      simp [set]

theorem bitIsSet_shift (seen : Vector (BitVec 64) 16) (advance distance : Nat) :
    bitIsSet (shift seen advance) distance = true ↔
      distance < replayWindowSize ∧ advance ≤ distance ∧
        bitIsSet seen (distance - advance) = true := by
  unfold shift
  split
  · rename_i far
    rw [bitIsSet_replicate]
    simp only [Bool.false_eq_true, false_iff]
    omega
  · rename_i near
    rw [bitIsSet_foldl _ _ _ _ (fun old mem => by have := List.mem_range.mp mem; omega),
      bitIsSet_replicate]
    simp only [Bool.false_or, decide_eq_true_eq, List.mem_range]
    constructor
    · rintro ⟨old, small, set, rfl⟩
      exact ⟨by omega, by omega, by rwa [Nat.add_sub_cancel]⟩
    · rintro ⟨small, far, set⟩
      exact ⟨distance - advance, by omega, set, by omega⟩

theorem accept_eq_ok {window next : ReplayWindowState} {seq : Nat} :
    window.accept seq = .ok next → window.check seq = .ok () := by
  intro h
  obtain ⟨_, checked, _⟩ := Result.bind_eq_ok.mp h
  exact checked

/-- The counters the window has recorded: the highest one, and those whose bit
is still set. Everything further below is refused without looking. -/
def Refused (window : ReplayWindowState) (seq : Nat) : Prop :=
  ∃ highest, window.highestSeen = some highest ∧ seq ≤ highest ∧
    (replayWindowSize ≤ highest - seq ∨ bitIsSet window.seen (highest - seq) = true)

theorem check_eq_ok {window : ReplayWindowState} {seq : Nat} :
    window.check seq = .ok () ↔ ¬ window.Refused seq := by
  unfold check Refused
  cases window.highestSeen with
  | none => simp
  | some highest =>
    by_cases above : highest < seq
    · simp [above]
    · have below : seq ≤ highest := by omega
      simp [above, below]

theorem refused_accept {window next : ReplayWindowState} {seq : Nat}
    (h : window.accept seq = .ok next) (other : Nat) (refused : window.Refused other ∨ other = seq) :
    next.Refused other := by
  simp only [accept, Result.bind_eq_ok] at h
  obtain ⟨_, checked, h⟩ := h
  cases highestSeen : window.highestSeen with
  | none =>
    rw [highestSeen] at h
    obtain rfl : _ = next := Except.ok.inj h
    obtain ⟨highest, some, _⟩ | rfl := refused
    · rw [highestSeen] at some
      cases some
    · exact ⟨other, rfl, le_refl _, .inr (by
        rw [bitIsSet_setBit _ (by decide)]
        simp)⟩
  | some highest =>
    rw [highestSeen] at h
    simp only at h
    split at h
    · rename_i above
      obtain rfl : _ = next := Except.ok.inj h
      refine ⟨seq, rfl, ?_⟩
      obtain ⟨highest', some, below, far⟩ | rfl := refused
      · obtain rfl : highest = highest' := Option.some.inj (highestSeen.symm.trans some)
        refine ⟨by omega, ?_⟩
        by_cases gone : replayWindowSize ≤ seq - other
        · exact .inl gone
        · refine .inr ?_
          rw [bitIsSet_setBit _ (by decide), Bool.or_eq_true]
          refine .inr ((bitIsSet_shift _ _ _).mpr ⟨by omega, by omega, ?_⟩)
          have distance : seq - other - (seq - highest) = highest - other := by omega
          rw [distance]
          exact far.resolve_left (by omega)
      · exact ⟨le_refl _, .inr (by rw [bitIsSet_setBit _ (by decide)]; simp)⟩
    · rename_i notAbove
      obtain rfl : _ = next := Except.ok.inj h
      have inside : highest - seq < replayWindowSize := by
        by_contra far
        exact check_eq_ok.mp checked
          ⟨highest, highestSeen, by omega, .inl (by omega)⟩
      refine ⟨highest, rfl, ?_⟩
      obtain ⟨highest', some, below, far⟩ | rfl := refused
      · obtain rfl : highest = highest' := Option.some.inj (highestSeen.symm.trans some)
        refine ⟨below, far.imp_right fun set => ?_⟩
        rw [bitIsSet_setBit _ inside, set, Bool.or_true]
      · exact ⟨by omega, .inr (by rw [bitIsSet_setBit _ inside]; simp)⟩

end ReplayWindowState

end QuantumFs.Crypto
