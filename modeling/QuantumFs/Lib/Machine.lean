import Mathlib

/-! Runs of a deterministic machine: a list of operations executed in order. A
nondeterministic system is a machine whose operations carry every choice. -/
namespace QuantumFs.Lib

structure Machine (σ ω : Type) where
  exec : ω → σ → σ

namespace Machine

variable {σ ω : Type} (M : Machine σ ω)

def run : List ω → σ → σ
  | [], s => s
  | op :: ops, s => run ops (M.exec op s)

/-- Each operation of the run meets `P` in the state it is executed in. -/
def Along (P : σ → ω → Prop) : List ω → σ → Prop
  | [], _ => True
  | op :: ops, s => P s op ∧ Along P ops (M.exec op s)

/-- `Q` holds in every state the run passes through, its ends included. -/
def Throughout (Q : σ → Prop) : List ω → σ → Prop
  | [], s => Q s
  | op :: ops, s => Q s ∧ Throughout Q ops (M.exec op s)

instance instDecidableAlong {P : σ → ω → Prop} [∀ s op, Decidable (P s op)] :
    ∀ (ops : List ω) (s : σ), Decidable (M.Along P ops s)
  | [], _ => .isTrue trivial
  | op :: ops, s =>
    have : Decidable (M.Along P ops (M.exec op s)) := instDecidableAlong ops (M.exec op s)
    inferInstanceAs (Decidable (P s op ∧ M.Along P ops (M.exec op s)))

instance instDecidableThroughout {Q : σ → Prop} [∀ s, Decidable (Q s)] :
    ∀ (ops : List ω) (s : σ), Decidable (M.Throughout Q ops s)
  | [], s => inferInstanceAs (Decidable (Q s))
  | op :: ops, s =>
    have : Decidable (M.Throughout Q ops (M.exec op s)) := instDecidableThroughout ops (M.exec op s)
    inferInstanceAs (Decidable (Q s ∧ M.Throughout Q ops (M.exec op s)))

@[simp] theorem run_cons (op : ω) (ops : List ω) (s : σ) :
    M.run (op :: ops) s = M.run ops (M.exec op s) := rfl

theorem run_append (ops more : List ω) (s : σ) :
    M.run (ops ++ more) s = M.run more (M.run ops s) := by
  induction ops generalizing s with
  | nil => rfl
  | cons op ops ih => exact ih (M.exec op s)

theorem along_append {P : σ → ω → Prop} (ops more : List ω) (s : σ) :
    M.Along P (ops ++ more) s ↔ M.Along P ops s ∧ M.Along P more (M.run ops s) := by
  induction ops generalizing s with
  | nil => exact (and_iff_right trivial).symm
  | cons op ops ih => exact (and_congr_right fun _ => ih (M.exec op s)).trans and_assoc.symm

/-- The invariant rule: what every step under `P` preserves holds throughout a
run whose steps all meet `P`. -/
theorem throughout_of_step {P : σ → ω → Prop} {I : σ → Prop}
    (step : ∀ s op, I s → P s op → I (M.exec op s)) :
    ∀ (ops : List ω) (s : σ), I s → M.Along P ops s → M.Throughout I ops s := by
  intro ops
  induction ops with
  | nil => exact fun s h _ => h
  | cons op ops ih =>
    intro s h along
    exact ⟨h, ih _ (step s op h along.1) along.2⟩

theorem along_of_step {P Q : σ → ω → Prop} {I : σ → Prop}
    (step : ∀ s op, I s → P s op → I (M.exec op s) ∧ Q s op) :
    ∀ (ops : List ω) (s : σ), I s → M.Along P ops s → M.Along Q ops s := by
  intro ops
  induction ops with
  | nil => exact fun _ _ _ => trivial
  | cons op ops ih =>
    intro s h along
    obtain ⟨next, shown⟩ := step s op h along.1
    exact ⟨shown, ih _ next along.2⟩

theorem Throughout.mono {M : Machine σ ω} {I Q : σ → Prop} (h : ∀ s, I s → Q s) :
    ∀ {ops : List ω} {s : σ}, M.Throughout I ops s → M.Throughout Q ops s := by
  intro ops
  induction ops with
  | nil => exact fun hs => h _ hs
  | cons op ops ih => exact fun hs => ⟨h _ hs.1, ih hs.2⟩

theorem Throughout.final {M : Machine σ ω} {Q : σ → Prop} :
    ∀ {ops : List ω} {s : σ}, M.Throughout Q ops s → Q (M.run ops s) := by
  intro ops
  induction ops with
  | nil => exact fun hs => hs
  | cons op ops ih => exact fun hs => ih hs.2

theorem run_invariant {I : σ → Prop} (step : ∀ s op, I s → I (M.exec op s))
    (ops : List ω) (s : σ) (h : I s) : I (M.run ops s) := by
  induction ops generalizing s with
  | nil => exact h
  | cons op ops ih => exact ih _ (step s op h)

end Machine

end QuantumFs.Lib
