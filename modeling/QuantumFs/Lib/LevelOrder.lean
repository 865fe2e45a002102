import Mathlib

/-! What is reached from a node of a forest, listed level after level. -/
namespace QuantumFs.Lib.LevelOrder

variable {α : Type} (children : α → List α)

/-- The nodes listed so far are looked at in turn, and the children of each are appended. -/
def visit : Nat → Nat → List α → List α
  | 0, _, out => out
  | fuel + 1, index, out =>
    match out[index]? with
    | none => out
    | some current => visit fuel (index + 1) (out ++ children current)

def Reached : α → α → Prop := Relation.ReflTransGen fun above low => low ∈ children above

/-- Nothing is twice a child, and `top` is not reached again. -/
structure Rooted (top : α) : Prop where
  once : ∀ above, (children above).Nodup
  single : ∀ {above other low : α}, low ∈ children above → low ∈ children other → above = other
  fresh : ∀ {above : α}, Reached children top above → top ∉ children above

/-- The list when the nodes before `index` have been looked at. -/
structure Visited (top : α) (index : Nat) (out : List α) : Prop where
  shape : out = top :: (out.take index).flatMap children
  nodup : out.Nodup
  reached : ∀ low ∈ out, Reached children top low
  earlier : ∀ before low after, out = before ++ low :: after → low = top ∨ ∃ above ∈ before, low ∈ children above

structure Listing (top : α) (out : List α) : Prop where
  nodup : out.Nodup
  mem_iff : ∀ low, low ∈ out ↔ Reached children top low
  later : ∀ before above after, out = before ++ above :: after → ∀ low ∈ children above, low ∈ after

variable {children} {top : α}

theorem visited_top : Visited children top 0 [top] := by
  refine ⟨rfl, List.nodup_singleton _, fun low mem => ?_, fun before low after split => ?_⟩
  · obtain rfl := List.mem_singleton.mp mem
    exact .refl
  · have mem : low ∈ before ++ low :: after := List.mem_append_right _ List.mem_cons_self
    rw [← split] at mem
    exact .inl (List.mem_singleton.mp mem)

theorem split_at {out : List α} {index : Nat} {current : α} (here : out[index]? = some current) :
    out = out.take index ++ current :: out.drop (index + 1) := by
  obtain ⟨bound, isCurrent⟩ := List.getElem?_eq_some_iff.mp here
  rw [← isCurrent, ← List.drop_eq_getElem_cons bound, List.take_append_drop]

theorem Visited.step (rooted : Rooted children top) {index : Nat} {out : List α}
    (visited : Visited children top index out) {current : α} (here : out[index]? = some current) :
    Visited children top (index + 1) (out ++ children current) := by
  have split := split_at here
  have mem : current ∈ out := by
    rw [split]
    exact List.mem_append_right _ List.mem_cons_self
  have bound : index < out.length := (List.getElem?_eq_some_iff.mp here).1
  have looked : (out ++ children current).take (index + 1) = out.take index ++ [current] := by
    rw [List.take_append_of_le_length bound, List.take_add_one, here]
    rfl
  have unlooked : current ∉ out.take index := by
    have nodup := visited.nodup
    rw [split] at nodup
    exact fun before => (List.nodup_append.mp nodup).2.2 _ before _ List.mem_cons_self rfl
  refine ⟨?_, ?_, fun low lowMem => ?_, fun before low after lowSplit => ?_⟩
  · rw [looked, List.flatMap_append, List.flatMap_singleton, ← List.cons_append, ← visited.shape]
  · refine List.nodup_append.mpr ⟨visited.nodup, rooted.once current, fun low old other new same => ?_⟩
    subst same
    rw [visited.shape] at old
    obtain rfl | old := List.mem_cons.mp old
    · exact rooted.fresh (visited.reached current mem) new
    · obtain ⟨above, aboveMem, isChild⟩ := List.mem_flatMap.mp old
      exact unlooked (rooted.single isChild new ▸ aboveMem)
  · obtain old | new := List.mem_append.mp lowMem
    · exact visited.reached low old
    · exact (visited.reached current mem).tail new
  · obtain ⟨middle, isBefore, isNew⟩ | ⟨middle, isOut, isAfter⟩ := List.append_eq_append_iff.mp lowSplit
    · refine .inr ⟨current, ?_, ?_⟩
      · rw [isBefore]
        exact List.mem_append_left _ mem
      · rw [isNew]
        exact List.mem_append_right _ List.mem_cons_self
    · cases middle with
      | nil =>
        rw [List.append_nil] at isOut
        refine .inr ⟨current, isOut ▸ mem, ?_⟩
        rw [← List.nil_append (children current), ← isAfter]
        exact List.mem_cons_self
      | cons first middle =>
        obtain ⟨rfl, -⟩ := List.cons.inj isAfter
        exact visited.earlier before low middle isOut

theorem visited_visit (rooted : Rooted children top) {all : List α} (within : ∀ low, Reached children top low → low ∈ all)
    (fuel : Nat) {index : Nat} {out : List α} (visited : Visited children top index out) (bound : index ≤ out.length)
    (enough : index + fuel = all.length + 1) :
    Visited children top (visit children fuel index out).length (visit children fuel index out) := by
  induction fuel generalizing index out with
  | zero =>
    have few := (visited.nodup.subperm fun low mem => within low (visited.reached low mem)).length_le
    omega
  | succ fuel ih =>
    unfold visit
    cases here : out[index]? with
    | none =>
      have last : index = out.length := by
        have := List.getElem?_eq_none_iff.mp here
        omega
      exact last ▸ visited
    | some current =>
      have inside : index < out.length := (List.getElem?_eq_some_iff.mp here).1
      refine ih (visited.step rooted here) ?_ (by omega)
      rw [List.length_append]
      omega

theorem Visited.listing (rooted : Rooted children top) {out : List α} (visited : Visited children top out.length out) :
    Listing children top out := by
  have shape := visited.shape
  rw [List.take_length] at shape
  have closed : ∀ above ∈ out, ∀ low ∈ children above, low ∈ out := by
    intro above mem low isChild
    rw [shape]
    exact List.mem_cons_of_mem _ (List.mem_flatMap.mpr ⟨above, mem, isChild⟩)
  refine ⟨visited.nodup, fun low => ⟨visited.reached low, fun reached => ?_⟩, fun before above after split low isChild => ?_⟩
  · induction reached with
    | refl =>
      rw [shape]
      exact List.mem_cons_self
    | tail _ isChild ih => exact closed _ ih _ isChild
  · have nodup := visited.nodup
    rw [split] at nodup
    obtain ⟨-, others, apart⟩ := List.nodup_append.mp nodup
    have mem : above ∈ out := by
      rw [split]
      exact List.mem_append_right _ List.mem_cons_self
    have alone : above ∉ before := fun there => apart _ there _ List.mem_cons_self rfl
    have notTop : low ≠ top := by
      rintro rfl
      exact rooted.fresh (visited.reached above mem) isChild
    have lowMem := closed above mem low isChild
    rw [split] at lowMem
    obtain sooner | here := List.mem_append.mp lowMem
    · -- its parent would come before it
      obtain ⟨front, back, isBefore⟩ := List.append_of_mem sooner
      have lowSplit : out = front ++ low :: (back ++ above :: after) := by
        rw [split, isBefore, List.append_assoc, List.cons_append]
      obtain isTop | ⟨other, otherMem, isChild'⟩ := visited.earlier _ _ _ lowSplit
      · exact absurd isTop notTop
      · obtain rfl := rooted.single isChild isChild'
        refine absurd ?_ alone
        rw [isBefore]
        exact List.mem_append_left _ otherMem
    · obtain rfl | later := List.mem_cons.mp here
      · obtain isTop | ⟨other, otherMem, isChild'⟩ := visited.earlier _ _ _ split
        · exact absurd isTop notTop
        · exact absurd (rooted.single isChild isChild' ▸ otherMem) alone
      · exact later

theorem listing_visit (rooted : Rooted children top) {all : List α} (within : ∀ low, Reached children top low → low ∈ all) :
    Listing children top (visit children (all.length + 1) 0 [top]) :=
  (visited_visit rooted within _ visited_top (Nat.zero_le _) (Nat.zero_add _)).listing rooted

end QuantumFs.Lib.LevelOrder
