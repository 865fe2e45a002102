import Mathlib

/-! Totals that a pass from the last item of a list to the first adds up: each item hands what it has
to its parent, which stands before it. -/
namespace QuantumFs.Lib.RollUp

variable {α κ M : Type} [DecidableEq κ] [AddCommMonoid M] (key : α → κ) (parent : α → Option κ)

def addUp (totals : κ → M) (item : α) : κ → M :=
  match parent item with
  | some above => Function.update totals above (totals above + totals (key item))
  | none => totals

def rollUp (items : List α) (totals : κ → M) : κ → M := items.reverse.foldl (addUp key parent) totals

def ParentsFirst (items : List α) : Prop :=
  ∀ before item after, items = before ++ item :: after → ∀ above, parent item = some above → above ∈ before.map key

def Link (items : List α) (low high : κ) : Prop := ∃ item ∈ items, key item = low ∧ parent item = some high

/-- `high` is `low` itself, or is reached from it by way of parents. -/
def Under (items : List α) : κ → κ → Prop := Relation.ReflTransGen (Link key parent items)

variable {key parent} {items : List α} {last : α}

theorem rollUp_concat (totals : κ → M) :
    rollUp key parent (items ++ [last]) totals = rollUp key parent items (addUp key parent totals last) := by
  unfold rollUp
  rw [List.reverse_append]
  rfl

omit [DecidableEq κ] in
theorem ParentsFirst.front (first : ParentsFirst key parent (items ++ [last])) : ParentsFirst key parent items := by
  intro before item after split above isAbove
  refine first before item (after ++ [last]) ?_ above isAbove
  rw [split, List.append_assoc, List.cons_append]

omit [DecidableEq κ] in
theorem ParentsFirst.append {more : List α} (first : ParentsFirst key parent items)
    (held : ∀ item ∈ more, ∀ above, parent item = some above → above ∈ items.map key) :
    ParentsFirst key parent (items ++ more) := by
  intro before item after split above isAbove
  obtain ⟨middle, isBefore, isMore⟩ | ⟨middle, isItems, isAfter⟩ := List.append_eq_append_iff.mp split
  · have mem : item ∈ more := isMore ▸ List.mem_append_right _ List.mem_cons_self
    rw [isBefore, List.map_append]
    exact List.mem_append_left _ (held item mem above isAbove)
  · cases middle with
    | nil =>
      rw [List.nil_append] at isAfter
      rw [List.append_nil] at isItems
      rw [← isItems]
      exact held item (isAfter ▸ List.mem_cons_self) above isAbove
    | cons next middle =>
      obtain ⟨rfl, -⟩ := List.cons.inj isAfter
      exact first before item middle isItems above isAbove

omit [DecidableEq κ] in
theorem ParentsFirst.map {β ι : Type} {key' : β → ι} {parent' : β → Option ι} {image : α → β}
    (first : ParentsFirst key parent items) (rename : κ → ι) (keys : ∀ item, key' (image item) = rename (key item))
    (parents : ∀ item, parent' (image item) = (parent item).map rename) :
    ParentsFirst key' parent' (items.map image) := by
  intro before item after split above isAbove
  obtain ⟨front, back, rfl, rfl, isBack⟩ := List.map_eq_append_iff.mp split
  obtain ⟨source, rest, rfl, rfl, rfl⟩ := List.map_eq_cons_iff.mp isBack
  rw [parents] at isAbove
  obtain ⟨above', isAbove', rfl⟩ := Option.map_eq_some_iff.mp isAbove
  obtain ⟨held, mem, rfl⟩ := List.mem_map.mp (first front source rest rfl above' isAbove')
  exact List.mem_map.mpr ⟨image held, List.mem_map_of_mem mem, keys held⟩

omit [DecidableEq κ] in
theorem under_map {β : Type} {key' : β → κ} {parent' : β → Option κ} {image : α → β}
    (keys : ∀ item, key' (image item) = key item) (parents : ∀ item, parent' (image item) = parent item) :
    Under key' parent' (items.map image) = Under key parent items := by
  unfold Under
  congr 1
  funext low high
  unfold Link
  simp only [List.mem_map, exists_exists_and_eq_and, keys, parents]

theorem rollUp_leaf (totals : κ → M) {top : κ} (leaf : ∀ item ∈ items, parent item ≠ some top) :
    rollUp key parent items totals top = totals top := by
  induction items using List.reverseRecOn generalizing totals with
  | nil => rfl
  | append_singleton items last ih =>
    rw [rollUp_concat, ih _ fun item mem => leaf item (List.mem_append_left _ mem)]
    have other := leaf last (List.mem_append_right _ List.mem_cons_self)
    unfold addUp
    cases above : parent last with
    | none => rfl
    | some above' =>
      refine Function.update_of_ne (fun same => other ?_) _ _
      rw [above, same]

omit [DecidableEq κ] in
theorem above_mem (first : ParentsFirst key parent items) {item : α} (mem : item ∈ items) {above : κ}
    (isAbove : parent item = some above) : above ∈ items.map key := by
  obtain ⟨before, after, rfl⟩ := List.append_of_mem mem
  rw [List.map_append]
  exact List.mem_append_left _ (first before item after rfl above isAbove)

section

variable (nodup : ((items ++ [last]).map key).Nodup) (first : ParentsFirst key parent (items ++ [last]))

include nodup

omit [DecidableEq κ] in
theorem last_fresh : key last ∉ items.map key := by
  rw [List.map_append, List.map_singleton] at nodup
  exact fun mem => (List.nodup_append.mp nodup).2.2 _ mem _ (List.mem_singleton.mpr rfl) rfl

include first

omit [DecidableEq κ] in
theorem under_front {low top : κ} (mem : low ∈ items.map key) :
    Under key parent (items ++ [last]) low top ↔ Under key parent items low top := by
  constructor
  · intro under
    induction under using Relation.ReflTransGen.head_induction_on with
    | refl => exact .refl
    | @head low next link _ ih =>
      obtain ⟨item, there, rfl, isAbove⟩ := link
      obtain old | new := List.mem_append.mp there
      · exact .head ⟨item, old, rfl, isAbove⟩ (ih (above_mem first.front old isAbove))
      · rw [List.mem_singleton.mp new] at mem
        exact absurd mem (last_fresh nodup)
  · intro under
    refine Relation.ReflTransGen.mono (fun low high link => ?_) _ _ under
    obtain ⟨item, there, isLow, isAbove⟩ := link
    exact ⟨item, List.mem_append_left _ there, isLow, isAbove⟩

omit [DecidableEq κ] in
theorem under_last {top : κ} (mem : top ∈ items.map key) :
    Under key parent (items ++ [last]) (key last) top ↔ ∃ above, parent last = some above ∧ Under key parent items above top := by
  constructor
  · intro under
    obtain same | ⟨next, ⟨item, there, isLow, isAbove⟩, rest⟩ := Relation.ReflTransGen.cases_head under
    · exact absurd (same ▸ mem) (last_fresh nodup)
    · obtain old | new := List.mem_append.mp there
      · exact absurd (isLow ▸ List.mem_map_of_mem old) (last_fresh nodup)
      · obtain rfl := List.mem_singleton.mp new
        exact ⟨next, isAbove, (under_front nodup first (first items item [] rfl next isAbove)).mp rest⟩
  · rintro ⟨above, isAbove, under⟩
    refine .head ⟨last, List.mem_append_right _ List.mem_cons_self, rfl, isAbove⟩ ?_
    exact (under_front nodup first (first items last [] rfl above isAbove)).mpr under

end

theorem sum_update (totals : κ → M) (place : κ) (more : M) {keys : List κ} (nodup : keys.Nodup) :
    (keys.map (Function.update totals place (totals place + more))).sum =
      (keys.map totals).sum + if place ∈ keys then more else 0 := by
  induction keys with
  | nil => simp
  | cons first keys ih =>
    obtain ⟨fresh, nodup⟩ := List.nodup_cons.mp nodup
    rw [List.map_cons, List.map_cons, List.sum_cons, List.sum_cons, ih nodup]
    by_cases here : first = place
    · subst here
      rw [Function.update_self, if_neg fresh, if_pos List.mem_cons_self, add_zero]
      abel
    · have moved : place ∈ first :: keys ↔ place ∈ keys := by simp [Ne.symm here]
      simp only [Function.update_of_ne here, moved]
      abel

open Classical in
theorem rollUp_eq_sum (nodup : (items.map key).Nodup) (first : ParentsFirst key parent items) (totals : κ → M) {top : κ}
    (mem : top ∈ items.map key) :
    rollUp key parent items totals top =
      (((items.map key).filter fun low => Under key parent items low top).map totals).sum := by
  induction items using List.reverseRecOn generalizing totals with
  | nil => cases mem
  | append_singleton items last ih =>
    have nodupFront : (items.map key).Nodup := by
      rw [List.map_append] at nodup
      exact (List.nodup_append.mp nodup).1
    rw [rollUp_concat]
    have front : (items.map key).filter (fun low => Under key parent (items ++ [last]) low top) =
        (items.map key).filter fun low => Under key parent items low top :=
      List.filter_congr fun low there => by rw [under_front nodup first there]
    rw [List.map_append, List.filter_append, front, List.map_append, List.sum_append, List.map_singleton]
    rw [List.map_append, List.map_singleton] at mem
    obtain old | new := List.mem_append.mp mem
    · rw [ih nodupFront first.front _ old, List.filter_singleton, under_last nodup first old]
      unfold addUp
      cases above : parent last with
      | none => simp
      | some above' =>
        have held : above' ∈ items.map key := first items last [] rfl above' above
        dsimp only
        rw [sum_update _ _ _ (nodupFront.filter _)]
        congr 1
        by_cases under : Under key parent items above' top
        · simp [held, under]
        · simp [under]
    · obtain rfl := List.mem_singleton.mp new
      have fresh := last_fresh nodup
      have noChild : ∀ item ∈ items, parent item ≠ some (key last) := fun item there isAbove =>
        fresh (above_mem first.front there isAbove)
      have none : (items.map key).filter (fun low => Under key parent items low (key last)) = [] := by
        rw [List.filter_eq_nil_iff]
        intro low there under
        have reached := of_decide_eq_true under
        obtain same | ⟨next, -, ⟨item, held, -, isAbove⟩⟩ := Relation.ReflTransGen.cases_tail reached
        · exact fresh (same ▸ there)
        · exact noChild item held isAbove
      have self : Under key parent (items ++ [last]) (key last) (key last) := .refl
      rw [rollUp_leaf _ noChild, none, List.filter_singleton]
      unfold addUp
      cases above : parent last with
      | none => simp [self]
      | some above' =>
        have other : key last ≠ above' := by
          intro same
          exact fresh (same ▸ first items last [] rfl above' above)
        simp [self, Function.update_of_ne other]

end QuantumFs.Lib.RollUp
