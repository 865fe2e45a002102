import Mathlib

/-! A keyed view that follows its source through a queue: changes of single keys, and
reports of what the source looked like when they were sent. -/
namespace QuantumFs.Lib

structure Delta (κ ν : Type) where
  key : κ
  value : Option ν

namespace Delta

variable {κ ν : Type} [DecidableEq κ]

def applyAll (deltas : List (Delta κ ν)) (view : κ → Option ν) : κ → Option ν :=
  deltas.foldl (fun view delta => Function.update view delta.key delta.value) view

theorem applyAll_of_agreeing {deltas : List (Delta κ ν)} {key : κ} {value : Option ν}
    (agree : ∀ delta ∈ deltas, delta.key = key → delta.value = value) {view : κ → Option ν}
    (touched : (∃ delta ∈ deltas, delta.key = key) ∨ view key = value) : applyAll deltas view key = value := by
  induction deltas generalizing view with
  | nil =>
    obtain ⟨_, mem, _⟩ | same := touched
    · cases mem
    · exact same
  | cons delta deltas ih =>
    have rest := fun other mem => agree other (List.mem_cons_of_mem delta mem)
    by_cases here : delta.key = key
    · refine ih rest (.inr ?_)
      change Function.update view delta.key delta.value key = value
      rw [← here, Function.update_self]
      exact agree delta List.mem_cons_self here
    · refine ih rest (touched.imp ?_ fun same => ?_)
      · rintro ⟨other, mem, isKey⟩
        obtain rfl | mem := List.mem_cons.mp mem
        · exact absurd isKey here
        · exact ⟨other, mem, isKey⟩
      · change Function.update view delta.key delta.value key = value
        rw [Function.update_of_ne (Ne.symm here)]
        exact same

/-- Deltas that tell every difference between two views, and no other value, lead from the
one to the other. -/
theorem applyAll_eq {deltas : List (Delta κ ν)} {old new : κ → Option ν}
    (agree : ∀ delta ∈ deltas, delta.value = new delta.key)
    (complete : ∀ key, old key ≠ new key → ∃ delta ∈ deltas, delta.key = key) : applyAll deltas old = new := by
  funext key
  refine applyAll_of_agreeing (fun delta mem isKey => isKey ▸ agree delta mem) ?_
  by_cases same : old key = new key
  · exact .inr same
  · exact .inl (complete key same)

end Delta

inductive FeedItem (κ ν : Type) where
  | change (deltas : List (Delta κ ν))
  | report (holds : (κ → Option ν) → Prop)

variable {κ ν : Type} [DecidableEq κ]

/-- The messages lead from a view to a view, and each report is true where it stands. -/
def Conveys : List (FeedItem κ ν) → (κ → Option ν) → (κ → Option ν) → Prop
  | [], start, finish => start = finish
  | .change deltas :: items, start, finish => Conveys items (Delta.applyAll deltas start) finish
  | .report holds :: items, start, finish => holds start ∧ Conveys items start finish

theorem Conveys.change {items : List (FeedItem κ ν)} {start finish : κ → Option ν}
    (conveys : Conveys items start finish) (deltas : List (Delta κ ν)) :
    Conveys (items ++ [.change deltas]) start (Delta.applyAll deltas finish) := by
  induction items generalizing start with
  | nil => exact congrArg (Delta.applyAll deltas) conveys
  | cons item items ih =>
    cases item with
    | change other => exact ih conveys
    | report holds => exact ⟨conveys.1, ih conveys.2⟩

theorem Conveys.report {items : List (FeedItem κ ν)} {start finish : κ → Option ν}
    (conveys : Conveys items start finish) {holds : (κ → Option ν) → Prop} (truth : holds finish) :
    Conveys (items ++ [.report holds]) start finish := by
  induction items generalizing start with
  | nil => exact ⟨conveys ▸ truth, conveys⟩
  | cons item items ih =>
    cases item with
    | change other => exact ih conveys
    | report holds => exact ⟨conveys.1, ih conveys.2⟩

end QuantumFs.Lib
