import Mathlib

/-! Ordered maps and sets over linearly ordered keys. The standard lemmas speak
of `compare`; these restate lookups with equality of keys. -/
namespace QuantumFs.Lib

instance (priority := low) lawfulEqOrd {κ : Type} [LinearOrder κ] : Std.LawfulEqOrd κ where
  eq_of_compare := fun h => compare_eq_iff_eq.mp h

instance transCmp_compare {κ : Type} [LinearOrder κ] : Std.TransCmp (compare : κ → κ → Ordering) :=
  inferInstance

abbrev Map (κ β : Type) [Ord κ] : Type := Std.ExtTreeMap κ β compare

abbrev OrdSet (κ : Type) [Ord κ] : Type := Std.ExtTreeSet κ compare

variable {κ β γ : Type} [LinearOrder κ]

namespace Map

instance [DecidableEq β] : DecidableEq (Map κ β) := fun a b =>
  decidable_of_iff (a.toList = b.toList) Std.ExtTreeMap.toList_inj

variable (m : Map κ β) (k a : κ) (v : β)

theorem get_insert : (m.insert k v)[a]? = if k = a then some v else m[a]? := by
  rw [Std.ExtTreeMap.getElem?_insert]
  simp only [compare_eq_iff_eq]

theorem get_insert_ne {k a : κ} (h : k ≠ a) : (m.insert k v)[a]? = m[a]? := by
  simp [get_insert, h]

theorem get_erase : (m.erase k)[a]? = if k = a then none else m[a]? := by
  rw [Std.ExtTreeMap.getElem?_erase]
  simp only [compare_eq_iff_eq]

theorem get_erase_ne {k a : κ} (h : k ≠ a) : (m.erase k)[a]? = m[a]? := by
  simp [get_erase, h]

theorem get_filter (f : κ → β → Bool) : (m.filter f)[a]? = m[a]?.filter (f a) :=
  Std.ExtTreeMap.getElem?_filter'

theorem get_map (f : κ → β → γ) : (m.map f)[a]? = m[a]?.map (f a) :=
  Std.ExtTreeMap.getElem?_map

theorem get_filterMap (f : κ → β → Option γ) : (m.filterMap f)[a]? = m[a]?.bind (f a) :=
  Std.ExtTreeMap.getElem?_filterMap'

theorem mem_iff_get : a ∈ m ↔ ∃ v, m[a]? = some v := by
  rw [← Std.ExtTreeMap.isSome_getElem?_iff_mem, Option.isSome_iff_exists]

theorem contains_iff_get : m.contains a = true ↔ ∃ v, m[a]? = some v := by
  rw [Std.ExtTreeMap.contains_iff_mem, mem_iff_get]

theorem mem_toList {m : Map κ β} {k : κ} {v : β} : (k, v) ∈ m.toList ↔ m[k]? = some v :=
  Std.ExtTreeMap.mem_toList_iff_getElem?_eq_some

/-- Iteration visits the values in the order of their keys. -/
def vals : List β := m.toList.map Prod.snd

theorem mem_vals {m : Map κ β} {v : β} : v ∈ vals m ↔ ∃ k : κ, m[k]? = some v := by
  constructor
  · intro h
    obtain ⟨⟨k, w⟩, hmem, hw⟩ := List.mem_map.mp h
    exact ⟨k, by rw [← hw]; exact mem_toList.mp hmem⟩
  · rintro ⟨k, hk⟩
    exact List.mem_map.mpr ⟨(k, v), mem_toList.mpr hk, rfl⟩

theorem toList_sorted : m.toList.Pairwise fun x y => x.1 < y.1 :=
  (Std.ExtTreeMap.ordered_keys_toList (t := m)).imp fun h => compare_lt_iff_lt.mp h

theorem toList_nodup : m.toList.Nodup :=
  (toList_sorted m).imp fun less same => less.ne (congrArg Prod.fst same)

theorem toList_insert {k : κ} (fresh : m[k]? = none) :
    (m.insert k v).toList.Perm ((k, v) :: m.toList) := by
  have absent : (k, v) ∉ m.toList := fun mem => by simp [mem_toList.mp mem] at fresh
  refine (List.perm_ext_iff_of_nodup (toList_nodup _)
    (List.nodup_cons.mpr ⟨absent, toList_nodup m⟩)).mpr ?_
  rintro ⟨other, w⟩
  rw [List.mem_cons, mem_toList, mem_toList, get_insert, Prod.mk.injEq]
  by_cases same : k = other
  · subst same
    simp [fresh, eq_comm]
  · simp [same, Ne.symm same]

theorem sum_vals_insert (f : β → Nat) {k : κ} (fresh : m[k]? = none) :
    ((vals (m.insert k v)).map f).sum = f v + ((vals m).map f).sum := by
  have perm := (((toList_insert m v fresh).map Prod.snd).map f).sum_eq
  simpa [vals] using perm

/-- Keys below a bound, as many as the bound, are all the numbers below it. -/
theorem contains_of_size {m : Map Nat β} {n : Nat} (below : ∀ k, m.contains k = true → k < n)
    (full : m.size = n) (k : Nat) : m.contains k = true ↔ k < n := by
  refine ⟨below k, fun small => ?_⟩
  have keys : m.keys.toFinset ⊆ Finset.range n := by
    intro j mem
    rw [List.mem_toFinset, Std.ExtTreeMap.mem_keys, ← Std.ExtTreeMap.contains_iff_mem] at mem
    exact Finset.mem_range.mpr (below j mem)
  have card : m.keys.toFinset.card = n := by
    rw [List.toFinset_card_of_nodup Std.ExtTreeMap.nodup_keys, Std.ExtTreeMap.length_keys, full]
  have all := Finset.eq_of_subset_of_card_le keys (by simp [card])
  have mem : k ∈ m.keys.toFinset := all ▸ Finset.mem_range.mpr small
  rwa [List.mem_toFinset, Std.ExtTreeMap.mem_keys, ← Std.ExtTreeMap.contains_iff_mem] at mem

theorem ext_get {m₁ m₂ : Map κ β} (h : ∀ k : κ, m₁[k]? = m₂[k]?) : m₁ = m₂ :=
  Std.ExtTreeMap.ext_getElem? (fun k => h k)

theorem filter_insert (f : κ → β → Bool) : (m.insert k v).filter f =
    if f k v then (m.filter f).insert k v else (m.filter f).erase k := by
  apply ext_get
  intro a
  rw [get_filter, get_insert]
  split
  · rename_i same
    subst same
    split <;> simp_all
  · rename_i other
    split <;> simp [get_insert, get_erase, other]

theorem filter_erase (f : κ → β → Bool) : (m.erase k).filter f = (m.filter f).erase k := by
  apply ext_get
  intro a
  rw [get_filter, get_erase, get_erase, get_filter]
  split <;> simp

theorem filter_comm (f g : κ → β → Bool) : (m.filter g).filter f = (m.filter f).filter g := by
  apply ext_get
  intro a
  simp only [get_filter, Option.filter_filter, Bool.and_comm]

theorem ofList_toList : Std.ExtTreeMap.ofList m.toList compare = m := by
  apply ext_get
  intro k
  have distinct : m.toList.Pairwise fun x y => ¬ compare x.1 y.1 = .eq :=
    (toList_sorted m).imp fun less same => less.ne (compare_eq_iff_eq.mp same)
  cases found : m[k]? with
  | some v =>
    have same : compare k k = .eq := compare_eq_iff_eq.mpr rfl
    exact Std.ExtTreeMap.getElem?_ofList_of_mem same distinct (mem_toList.mpr found)
  | none =>
    apply Std.ExtTreeMap.getElem?_ofList_of_contains_eq_false
    rw [← Bool.not_eq_true, List.contains_iff_mem, List.mem_map]
    rintro ⟨⟨key, v⟩, mem, rfl⟩
    have := mem_toList.mp mem
    rw [found] at this
    cases this

private theorem flatMap_pair {pick : κ × β → List γ} {a : κ} {v : β}
    (other : ∀ k v, k ≠ a → pick (k, v) = []) :
    ∀ {entries : List (κ × β)}, entries.Pairwise (fun x y => x.1 < y.1) → (a, v) ∈ entries →
      entries.flatMap pick = pick (a, v) := by
  intro entries
  induction entries with
  | nil => exact fun _ mem => absurd mem List.not_mem_nil
  | cons entry entries ih =>
    intro sorted mem
    obtain ⟨first, sorted⟩ := List.pairwise_cons.mp sorted
    rw [List.flatMap_cons]
    obtain rfl | later := List.mem_cons.mp mem
    · have others : entries.flatMap pick = [] := by
        rw [List.flatMap_eq_nil_iff]
        exact fun next nextMem => other next.1 next.2 (first next nextMem).ne'
      rw [others, List.append_nil]
    · rw [other entry.1 entry.2 (first _ later).ne, List.nil_append]
      exact ih sorted later

theorem flatMap_key {pick : κ × β → List γ} (other : ∀ k v, k ≠ a → pick (k, v) = []) :
    m.toList.flatMap pick = (m[a]?.map fun v => pick (a, v)).getD [] := by
  cases found : m[a]? with
  | some v => exact flatMap_pair other (toList_sorted m) (mem_toList.mpr found)
  | none =>
    rw [Option.map_none, Option.getD_none, List.flatMap_eq_nil_iff]
    intro entry mem
    refine other entry.1 entry.2 fun same => ?_
    have := mem_toList.mp (show (entry.1, entry.2) ∈ m.toList from mem)
    rw [same, found] at this
    cases this

/-- A loop that rewrites the entries of distinct keys rewrites each one once. -/
theorem getD_foldl_insert (f : κ → β → β) (default : β) :
    ∀ (keys : List κ) (m : Map κ β) (a : κ), keys.Nodup →
      (keys.foldl (fun m k => m.insert k (f k (m[k]?.getD default))) m)[a]?.getD default =
        if a ∈ keys then f a (m[a]?.getD default) else m[a]?.getD default := by
  intro keys
  induction keys with
  | nil => exact fun _ _ _ => rfl
  | cons key keys ih =>
    intro m a nodup
    obtain ⟨fresh, nodup⟩ := List.nodup_cons.mp nodup
    rw [List.foldl_cons, ih _ a nodup, get_insert]
    by_cases same : key = a
    · subst same
      simp [fresh]
    · simp [same, Ne.symm same]

end Map

namespace OrdSet

instance : DecidableEq (OrdSet κ) := fun a b =>
  decidable_of_iff (a.toList = b.toList) Std.ExtTreeSet.toList_inj

variable (s t : OrdSet κ) (k a : κ)

@[simp] theorem mem_insert : a ∈ s.insert k ↔ k = a ∨ a ∈ s := by
  rw [Std.ExtTreeSet.mem_insert, compare_eq_iff_eq]

@[simp] theorem mem_erase : a ∈ s.erase k ↔ k ≠ a ∧ a ∈ s := by
  rw [Std.ExtTreeSet.mem_erase, Ne, compare_eq_iff_eq]

@[simp] theorem mem_toList : a ∈ s.toList ↔ a ∈ s := Std.ExtTreeSet.mem_toList

@[simp] theorem not_mem_empty : a ∉ (∅ : OrdSet κ) := Std.ExtTreeSet.not_mem_empty

theorem toList_sorted : s.toList.Pairwise fun x y => x < y :=
  (Std.ExtTreeSet.ordered_toList (t := s)).imp fun h => compare_lt_iff_lt.mp h

theorem toList_nodup : s.toList.Nodup := (toList_sorted s).imp fun h => ne_of_lt h

theorem ext_mem {s t : OrdSet κ} (h : ∀ a, a ∈ s ↔ a ∈ t) : s = t :=
  Std.ExtTreeSet.ext_mem h

/-- `extend` with the elements of another set. -/
def extend : OrdSet κ := t.toList.foldl Std.ExtTreeSet.insert s

theorem mem_foldl_insert (xs : List κ) (s : OrdSet κ) :
    a ∈ xs.foldl Std.ExtTreeSet.insert s ↔ a ∈ xs ∨ a ∈ s := by
  induction xs generalizing s with
  | nil => simp
  | cons x xs ih =>
    rw [List.foldl_cons, ih, mem_insert, List.mem_cons]
    tauto

@[simp] theorem mem_extend : a ∈ extend s t ↔ a ∈ t ∨ a ∈ s := by
  unfold extend
  rw [mem_foldl_insert, mem_toList]

/-- `is_subset` and `is_disjoint` of the source. -/
def isSubset : Bool := s.toList.all fun a => a ∈ t

def isDisjoint : Bool := s.toList.all fun a => a ∉ t

theorem isSubset_iff : isSubset s t = true ↔ ∀ a ∈ s, a ∈ t := by
  simp [isSubset, List.all_eq_true]

theorem isDisjoint_iff : isDisjoint s t = true ↔ ∀ a ∈ s, a ∉ t := by
  simp [isDisjoint, List.all_eq_true]

/-- The elements of one set outside another, as `difference`. -/
def difference : List κ := s.toList.filter fun a => a ∉ t

@[simp] theorem mem_difference : a ∈ difference s t ↔ a ∈ s ∧ a ∉ t := by
  simp [difference]

def ofList (xs : List κ) : OrdSet κ := xs.foldl Std.ExtTreeSet.insert ∅

@[simp] theorem mem_ofList (xs : List κ) : a ∈ ofList xs ↔ a ∈ xs := by
  unfold ofList
  rw [mem_foldl_insert]
  simp

end OrdSet

end QuantumFs.Lib
