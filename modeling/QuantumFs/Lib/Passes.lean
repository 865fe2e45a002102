import Mathlib

/-! Passes over items that wait for one another. An item is taken as soon as what it needs is
known, and what it gives is known from then on; the others wait for the next pass. -/
namespace QuantumFs.Lib.Passes

variable {σ α κ : Type} (has : σ → κ → Bool) (learn : σ → α → σ) (needs : α → κ)

/-- One pass: what is known after it, what was taken, and what still waits. -/
def pass : σ → List α → σ × List α × List α
  | known, [] => (known, [], [])
  | known, item :: rest =>
    if has known (needs item) = true then
      let (known, taken, waiting) := pass (learn known item) rest
      (known, item :: taken, waiting)
    else
      let (known, taken, waiting) := pass known rest
      (known, taken, item :: waiting)

/-- Passes until nothing waits. Each one that continues has taken an item. -/
def passes : (fuel : Nat) → σ → List α → Option (List α)
  | _, _, [] => some []
  | 0, _, _ :: _ => none
  | fuel + 1, known, item :: rest =>
    let (known, taken, waiting) := pass has learn needs known (item :: rest)
    if taken = [] then none
    else (passes fuel known waiting).map fun later => taken ++ later

def Ordered : σ → List α → Prop
  | _, [] => True
  | known, item :: rest => has known (needs item) = true ∧ Ordered (learn known item) rest

/-- What an item needs is known from the start, or given by an item of which the same holds. -/
inductive Grounded (gives : α → κ → Prop) (known : σ) (items : List α) : α → Prop
  | start {item : α} (h : has known (needs item) = true) : Grounded gives known items item
  | after {item before : α} (mem : before ∈ items) (h : gives before (needs item))
      (grounded : Grounded gives known items before) : Grounded gives known items item

/-- Nothing that is known is forgotten, and what an item gives is known after it. -/
structure Lawful (gives : α → κ → Prop) : Prop where
  keeps : ∀ (known : σ) (item : α) (k : κ), has known k = true → has (learn known item) k = true
  learns : ∀ (known : σ) (item : α) (k : κ), gives item k → has (learn known item) k = true

variable {has learn needs}

theorem Ordered.append {known : σ} {first later : List α} (h : Ordered has learn needs known first)
    (h' : Ordered has learn needs (first.foldl learn known) later) :
    Ordered has learn needs known (first ++ later) := by
  induction first generalizing known with
  | nil => exact h'
  | cons item first ih => exact ⟨h.1, ih h.2 h'⟩

variable (has learn needs) in
/-- A pass only sorts the items into those it takes, in a possible order, and the rest. -/
theorem pass_spec (known : σ) (items : List α) :
    (pass has learn needs known items).1 = (pass has learn needs known items).2.1.foldl learn known ∧
    Ordered has learn needs known (pass has learn needs known items).2.1 ∧
    ((pass has learn needs known items).2.1 ++ (pass has learn needs known items).2.2).Perm items := by
  induction items generalizing known with
  | nil => exact ⟨rfl, trivial, List.Perm.refl _⟩
  | cons item rest ih =>
    unfold pass
    by_cases ready : has known (needs item) = true
    · rw [if_pos ready]
      obtain ⟨last, ordered, perm⟩ := ih (learn known item)
      exact ⟨last, ⟨ready, ordered⟩, perm.cons item⟩
    · rw [if_neg ready]
      obtain ⟨last, ordered, perm⟩ := ih known
      exact ⟨last, ordered, List.perm_middle.trans (perm.cons item)⟩

section

variable {gives : α → κ → Prop} (lawful : Lawful has learn gives)

include lawful

theorem Lawful.has_foldl {known : σ} {items : List α} {k : κ} (h : has known k = true) :
    has (items.foldl learn known) k = true := by
  induction items generalizing known with
  | nil => exact h
  | cons item items ih => exact ih (lawful.keeps _ _ _ h)

theorem Lawful.has_given {known : σ} {items : List α} {item : α} {k : κ} (mem : item ∈ items)
    (h : gives item k) : has (items.foldl learn known) k = true := by
  induction items generalizing known with
  | nil => cases mem
  | cons other items ih =>
    obtain rfl | mem := List.mem_cons.mp mem
    · have given : has (learn known item) k = true := lawful.learns known item k h
      rw [List.foldl_cons]
      exact lawful.has_foldl given
    · exact ih mem

variable (learn) in
omit lawful in
theorem pass_takes {known : σ} {items : List α} {item : α} (mem : item ∈ items)
    (ready : has known (needs item) = true) : (pass has learn needs known items).2.1 ≠ [] := by
  induction items generalizing known with
  | nil => cases mem
  | cons other rest ih =>
    unfold pass
    by_cases here : has known (needs other) = true
    · rw [if_pos here]
      exact List.cons_ne_nil _ _
    · rw [if_neg here]
      obtain rfl | mem := List.mem_cons.mp mem
      · exact absurd ready here
      · exact ih mem ready

theorem Grounded.ready {known : σ} {taken waiting items : List α} {item : α}
    (split : ∀ other ∈ items, other ∈ taken ∨ other ∈ waiting) (mem : item ∈ waiting)
    (grounded : Grounded has needs gives known items item) :
    ∃ first ∈ waiting, has (taken.foldl learn known) (needs first) = true := by
  induction grounded with
  | start h => exact ⟨_, mem, lawful.has_foldl h⟩
  | after before h _ ih =>
    obtain old | later := split _ before
    · exact ⟨_, mem, lawful.has_given old h⟩
    · exact ih later

/-- If every item is grounded, the passes take all of them, each after what it needs. -/
theorem passes_eq_some {known : σ} {items : List α}
    (grounded : ∀ item ∈ items, Grounded has needs gives known items item) :
    ∃ sorted, passes has learn needs items.length known items = some sorted ∧
      sorted.Perm items ∧ Ordered has learn needs known sorted := by
  -- What has been taken before a pass is kept aside.
  suffices h : ∀ (fuel : Nat) (taken waiting : List α), waiting.length ≤ fuel →
      (taken ++ waiting).Perm items → ∃ later,
        passes has learn needs fuel (taken.foldl learn known) waiting = some later ∧
          later.Perm waiting ∧ Ordered has learn needs (taken.foldl learn known) later by
    exact h items.length [] items (le_refl _) (List.Perm.refl _)
  intro fuel
  induction fuel with
  | zero =>
    intro taken waiting bound _
    obtain rfl := List.length_eq_zero_iff.mp (Nat.le_zero.mp bound)
    exact ⟨[], rfl, List.Perm.refl _, trivial⟩
  | succ fuel ih =>
    intro taken waiting bound perm
    cases waiting with
    | nil => exact ⟨[], rfl, List.Perm.refl _, trivial⟩
    | cons item rest =>
      have inItems : item ∈ items := perm.mem_iff.mp (List.mem_append_right _ List.mem_cons_self)
      obtain ⟨first, firstMem, ready⟩ := (grounded item inItems).ready lawful
        (fun other mem => List.mem_append.mp (perm.mem_iff.mpr mem)) List.mem_cons_self
      have takes := pass_takes learn firstMem ready
      obtain ⟨last, ordered, sorts⟩ := pass_spec has learn needs (taken.foldl learn known) (item :: rest)
      unfold passes
      generalize pass has learn needs (taken.foldl learn known) (item :: rest) = result
        at takes last ordered sorts
      obtain ⟨after, more, left⟩ := result
      dsimp only at takes last ordered sorts ⊢
      rw [if_neg takes, last, ← List.foldl_append]
      have shorter : left.length ≤ fuel := by
        have total := sorts.length_eq
        have some := List.length_pos_iff.mpr takes
        rw [List.length_append] at total
        omega
      have rest : ((taken ++ more) ++ left).Perm items := by
        rw [List.append_assoc]
        exact (sorts.append_left taken).trans perm
      obtain ⟨later, done, permLater, orderedLater⟩ := ih (taken ++ more) left shorter rest
      rw [done]
      refine ⟨more ++ later, rfl, (permLater.append_left more).trans sorts, ordered.append ?_⟩
      rwa [List.foldl_append] at orderedLater

end

end QuantumFs.Lib.Passes
