import Mathlib

/-! Documents that are changed one field at a time, and what it means that a document shows
the last change of each field. -/
namespace QuantumFs.Lib

/-- Changes `ε` of documents `δ`, each of one field. -/
structure Editing (δ ε φ : Type) where
  field : ε → φ
  apply : ε → δ → δ
  Shown : ε → δ → Prop
  shown_apply : ∀ change document, Shown change (apply change document)
  shown_other : ∀ change other document, field change ≠ field other →
    Shown change document → Shown change (apply other document)

namespace Editing

variable {δ ε φ : Type} (E : Editing δ ε φ)

def applyAll (changes : List ε) (document : δ) : δ :=
  changes.foldl (fun document change => E.apply change document) document

@[simp] theorem applyAll_cons (change : ε) (changes : List ε) (document : δ) :
    E.applyAll (change :: changes) document = E.applyAll changes (E.apply change document) := rfl

theorem applyAll_append (changes more : List ε) (document : δ) :
    E.applyAll (changes ++ more) document = E.applyAll more (E.applyAll changes document) :=
  List.foldl_append

theorem apply_other {α : Type} (get : δ → α) (mine : ε → Prop)
    (keeps : ∀ change document, ¬ mine change → get (E.apply change document) = get document)
    {changes : List ε} (others : ∀ change ∈ changes, ¬ mine change) (document : δ) :
    get (E.applyAll changes document) = get document := by
  induction changes generalizing document with
  | nil => rfl
  | cons change changes ih =>
    rw [applyAll_cons, ih (fun more mem => others more (List.mem_cons_of_mem change mem))]
    exact keeps change document (others change List.mem_cons_self)

/-- Every change is in the document, unless a later one is of the same field. -/
def Reflects (changes : List ε) (document : δ) : Prop :=
  ∀ before change after, changes = before ++ change :: after →
    (∀ later ∈ after, E.field later ≠ E.field change) → E.Shown change document

theorem reflects_nil (document : δ) : E.Reflects [] document := by
  intro before change after split
  simp at split

theorem Reflects.snoc {changes : List ε} {document : δ} (reflects : E.Reflects changes document)
    (change : ε) : E.Reflects (changes ++ [change]) (E.apply change document) := by
  intro before earlier after split others
  obtain rfl | ⟨middle, last, rfl⟩ := List.eq_nil_or_concat after
  · obtain ⟨rfl, same⟩ := List.append_inj' split rfl
    obtain rfl := List.head_eq_of_cons_eq same
    exact E.shown_apply change document
  · rw [List.concat_eq_append] at split others
    rw [← List.cons_append, ← List.append_assoc] at split
    obtain ⟨isChanges, same⟩ := List.append_inj' split rfl
    obtain rfl := List.head_eq_of_cons_eq same
    have shown := reflects before earlier middle isChanges
      fun later mem => others later (List.mem_append_left _ mem)
    exact E.shown_other earlier change document
      (others change (List.mem_append_right _ List.mem_cons_self)).symm shown

theorem Reflects.append {changes : List ε} {document : δ} (reflects : E.Reflects changes document)
    (more : List ε) : E.Reflects (changes ++ more) (E.applyAll more document) := by
  induction more generalizing changes document with
  | nil => rwa [List.append_nil]
  | cons change more ih =>
    have next := ih (reflects.snoc E change)
    rwa [List.append_assoc] at next

end Editing

end QuantumFs.Lib
