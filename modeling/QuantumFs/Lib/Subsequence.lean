import Mathlib.Data.List.Basic
import Mathlib.Data.List.Range
import Mathlib.Tactic.Common

/-! Where a list lands in another one when each of its items is taken at the first place that is
left for it, and the runs of neighbours among such places. -/
namespace QuantumFs.Lib

variable {α : Type*}

section

variable [DecidableEq α]

/-- The first place from `cursor` on that holds `wanted`, and what comes after it. -/
def seek (wanted : α) : List α → Nat → Option (Nat × List α)
  | [], _ => none
  | item :: rest, cursor => if item = wanted then some (cursor, rest) else seek wanted rest (cursor + 1)

/-- The places where the items of a list land, one after the other. -/
def landings : List α → List α → Nat → Option (List Nat)
  | [], _, _ => some []
  | wanted :: query, items, cursor =>
    match seek wanted items cursor with
    | none => none
    | some (found, rest) => (landings query rest (found + 1)).map (found :: ·)

theorem seek_skip {wanted : α} {skipped : List α} (absent : wanted ∉ skipped) (items : List α) (cursor : Nat) :
    seek wanted (skipped ++ items) cursor = seek wanted items (cursor + skipped.length) := by
  induction skipped generalizing cursor with
  | nil => rfl
  | cons item skipped ih =>
    obtain ⟨other, absent⟩ := not_or.mp fun either => absent (List.mem_cons.mpr either)
    rw [List.cons_append, seek, if_neg (Ne.symm other), ih absent, List.length_cons,
      show cursor + 1 + skipped.length = cursor + (skipped.length + 1) by omega]

theorem seek_here (wanted : α) (items : List α) (cursor : Nat) :
    seek wanted (wanted :: items) cursor = some (cursor, items) := if_pos rfl

theorem seek_eq_none {wanted : α} {items : List α} {cursor : Nat} : seek wanted items cursor = none ↔ wanted ∉ items := by
  induction items generalizing cursor with
  | nil => simp [seek]
  | cons item items ih =>
    rw [seek, List.mem_cons, not_or]
    split
    · rename_i same
      exact iff_of_false nofun fun both => both.1 same.symm
    · rename_i other
      rw [ih]
      exact (and_iff_right (Ne.symm other)).symm

/-- What is found comes after items that are none of those that are wanted. -/
theorem seek_eq_some {wanted : α} {items rest : List α} {cursor found : Nat}
    (h : seek wanted items cursor = some (found, rest)) :
    ∃ skipped, items = skipped ++ wanted :: rest ∧ wanted ∉ skipped ∧ found = cursor + skipped.length := by
  have mem : wanted ∈ items := by
    by_contra absent
    rw [seek_eq_none.mpr absent] at h
    cases h
  obtain ⟨skipped, after, rfl, absent⟩ := List.eq_append_cons_of_mem mem
  rw [seek_skip absent, seek_here] at h
  cases h
  exact ⟨skipped, rfl, absent, rfl⟩

/-- Taking the first place that is left misses no way to fit a list into another. -/
theorem landings_isSome {query items : List α} {cursor : Nat} :
    (landings query items cursor).isSome ↔ query.Sublist items := by
  induction query generalizing items cursor with
  | nil => exact iff_of_true rfl (List.nil_sublist items)
  | cons wanted query ih =>
    unfold landings
    cases found : seek wanted items cursor with
    | none => exact iff_of_false nofun fun fits => seek_eq_none.mp found (fits.subset List.mem_cons_self)
    | some place =>
      obtain ⟨place, rest⟩ := place
      obtain ⟨skipped, rfl, absent, -⟩ := seek_eq_some found
      dsimp only
      rw [Option.isSome_map, ih]
      constructor
      · exact fun fits => (fits.cons_cons wanted).trans (List.sublist_append_right ..)
      · intro fits
        clear found
        induction skipped with
        | nil => exact List.cons_sublist_cons.mp fits
        | cons item skipped again =>
          obtain ⟨other, absent⟩ := not_or.mp fun either => absent (List.mem_cons.mpr either)
          obtain later | ⟨same, -⟩ := List.cons_sublist_cons'.mp fits
          · exact again absent later
          · exact absurd same other

/-- A list lands in itself without a gap, and what is wanted next after it. -/
theorem landings_append (front query items : List α) (cursor : Nat) :
    landings (front ++ query) (front ++ items) cursor =
      (landings query items (cursor + front.length)).map (List.range' cursor front.length ++ ·) := by
  induction front generalizing cursor with
  | nil => simp
  | cons item front ih =>
    rw [List.cons_append, List.cons_append, landings, seek_here, List.length_cons, List.range'_succ]
    dsimp only
    rw [ih, Option.map_map, show cursor + 1 + front.length = cursor + (front.length + 1) by omega]
    rfl

theorem landings_skip {wanted : α} {skipped : List α} (absent : wanted ∉ skipped) (query items : List α) (cursor : Nat) :
    landings (wanted :: query) (skipped ++ items) cursor = landings (wanted :: query) items (cursor + skipped.length) := by
  rw [landings, seek_skip absent]
  rfl

/-- The places go up from `cursor` on, hold what is wanted, and follow one another or something else. -/
structure Lands (items query : List α) (cursor : Nat) (places : List Nat) : Prop where
  increasing : places.Pairwise (· < ·)
  inside : ∀ i ∈ places, cursor ≤ i ∧ i < items.length
  holds : places.map (items[·]?) = query.map some
  first : ∀ i ∈ places, i = cursor ∨ i - 1 ∈ places ∨ items[i - 1]? ≠ items[i]?

theorem lands_of_landings {query front rest : List α} {places : List Nat}
    (h : landings query rest front.length = some places) : Lands (front ++ rest) query front.length places := by
  induction query generalizing front rest places with
  | nil =>
    cases h
    exact ⟨List.Pairwise.nil, nofun, rfl, nofun⟩
  | cons wanted query ih =>
    unfold landings at h
    split at h
    · cases h
    · rename_i found after sought
      obtain ⟨skipped, rfl, absent, rfl⟩ := seek_eq_some sought
      obtain ⟨later, landed, rfl⟩ := Option.map_eq_some_iff.mp h
      have size : (front ++ skipped ++ [wanted]).length = front.length + skipped.length + 1 := by
        rw [List.length_append, List.length_append, List.length_singleton]
      have next := @ih (front ++ skipped ++ [wanted]) after later (by rwa [size])
      have whole : front ++ skipped ++ [wanted] ++ after = front ++ (skipped ++ wanted :: after) := by simp
      rw [whole, size] at next
      have here : (front ++ (skipped ++ wanted :: after))[front.length + skipped.length]? = some wanted := by simp
      refine ⟨List.pairwise_cons.mpr ⟨fun i mem => ?_, next.increasing⟩, ?_, ?_, ?_⟩
      · have := (next.inside i mem).1
        omega
      · rw [List.forall_mem_cons]
        refine ⟨⟨by omega, by simp⟩, fun i mem => ?_⟩
        have := next.inside i mem
        omega
      · rw [List.map_cons, List.map_cons, here, next.holds]
      · rw [List.forall_mem_cons]
        constructor
        · obtain rfl | ⟨before, last, rfl⟩ := List.eq_nil_or_concat skipped
          · exact .inl rfl
          · refine .inr (.inr ?_)
            rw [here]
            have previous : (front ++ (before.concat last ++ wanted :: after))[front.length + (before.concat last).length - 1]? =
                some last := by
              rw [List.concat_eq_append, List.length_append, List.length_singleton,
                show front.length + (before.length + 1) - 1 = front.length + before.length by omega]
              simp
            rw [previous]
            rintro ⟨⟩
            exact absent (by simp)
        · intro i mem
          obtain rfl | among | other := next.first i mem
          · exact .inr (.inl (by simp))
          · exact .inr (.inl (List.mem_cons_of_mem _ among))
          · exact .inr (.inr other)

end

def joinRun (runs : List (Nat × Nat)) (i : Nat) : List (Nat × Nat) :=
  match runs.getLast? with
  | some (start, stop) => if stop = i then runs.dropLast ++ [(start, i + 1)] else runs ++ [(i, i + 1)]
  | none => runs ++ [(i, i + 1)]

def runsOf (places : List Nat) : List (Nat × Nat) := places.foldl joinRun []

def spread (run : Nat × Nat) : List Nat := List.range' run.1 (run.2 - run.1)

/-- Runs that are not empty and do not touch, and together make up `places`. -/
structure Runs (places : List Nat) (runs : List (Nat × Nat)) : Prop where
  spread : runs.flatMap spread = places
  apart : runs.Pairwise fun run next => run.2 < next.1
  proper : ∀ run ∈ runs, run.1 < run.2

theorem mem_spread {run : Nat × Nat} {i : Nat} : i ∈ spread run ↔ run.1 ≤ i ∧ i < run.2 := by
  unfold spread
  rw [List.mem_range'_1]
  omega

theorem joinRun_concat (runs : List (Nat × Nat)) (start stop i : Nat) : joinRun (runs ++ [(start, stop)]) i =
    if stop = i then runs ++ [(start, i + 1)] else runs ++ [(start, stop)] ++ [(i, i + 1)] := by
  unfold joinRun
  rw [List.getLast?_concat, List.dropLast_concat]

theorem Runs.join {places : List Nat} {runs : List (Nat × Nat)} {i : Nat} (parts : Runs places runs)
    (above : ∀ j ∈ places, j < i) : Runs (places ++ [i]) (joinRun runs i) := by
  obtain ⟨whole, apart, proper⟩ := parts
  obtain rfl | ⟨front, ⟨start, stop⟩, rfl⟩ := List.eq_nil_or_concat runs
  · subst whole
    refine ⟨?_, List.pairwise_singleton _ _, fun run mem => ?_⟩
    · change List.range' i (i + 1 - i) ++ [] = [i]
      rw [Nat.add_sub_cancel_left]
      rfl
    · rw [List.mem_singleton.mp mem]
      exact Nat.lt_succ_self i
  · rw [List.concat_eq_append] at *
    rw [List.flatMap_append, List.flatMap_singleton] at whole
    obtain ⟨apart, -, before⟩ := List.pairwise_append.mp apart
    have filled : start < stop := proper (start, stop) (by simp)
    have below : stop - 1 < i := above (stop - 1) (by
      rw [← whole, List.mem_append, mem_spread]
      exact .inr ⟨by dsimp only; omega, by dsimp only; omega⟩)
    rw [joinRun_concat]
    split
    · rename_i touches
      subst touches
      refine ⟨?_, List.pairwise_append.mpr ⟨apart, List.pairwise_singleton _ _, fun run mem next isNext => ?_⟩, ?_⟩
      · rw [← whole, List.flatMap_append, List.flatMap_singleton, List.append_assoc]
        unfold QuantumFs.Lib.spread
        dsimp only
        rw [show stop + 1 - start = stop - start + 1 by omega, List.range'_concat,
          show start + 1 * (stop - start) = stop by omega]
      · rw [List.mem_singleton.mp isNext]
        exact before run mem (start, stop) (List.mem_singleton_self _)
      · intro run mem
        obtain mem | mem := List.mem_append.mp mem
        · exact proper run (List.mem_append_left _ mem)
        · rw [List.mem_singleton.mp mem]
          exact Nat.lt_succ_of_lt filled
    · rename_i gap
      refine ⟨?_, List.pairwise_append.mpr ⟨?_, List.pairwise_singleton _ _, fun run mem next isNext => ?_⟩, ?_⟩
      · rw [List.flatMap_append, List.flatMap_append, List.flatMap_singleton, whole, List.flatMap_singleton]
        unfold QuantumFs.Lib.spread
        dsimp only
        rw [Nat.add_sub_cancel_left]
        rfl
      · exact List.pairwise_append.mpr ⟨apart, List.pairwise_singleton _ _, before⟩
      · rw [List.mem_singleton.mp isNext]
        dsimp only
        obtain mem | mem := List.mem_append.mp mem
        · have := before run mem (start, stop) (List.mem_singleton_self _)
          dsimp only at this
          omega
        · rw [List.mem_singleton.mp mem]
          dsimp only
          omega
      · intro run mem
        obtain mem | mem := List.mem_append.mp mem
        · exact proper run mem
        · rw [List.mem_singleton.mp mem]
          exact Nat.lt_succ_self i

theorem runs_runsOf {places : List Nat} (increasing : places.Pairwise (· < ·)) : Runs places (runsOf places) := by
  induction places using List.reverseRecOn with
  | nil => exact ⟨rfl, List.Pairwise.nil, nofun⟩
  | append_singleton places i ih =>
    obtain ⟨increasing, -, above⟩ := List.pairwise_append.mp increasing
    unfold runsOf
    rw [List.foldl_concat]
    exact (ih increasing).join fun j mem => above j mem i (List.mem_singleton_self i)

theorem Runs.gap {places : List Nat} {runs : List (Nat × Nat)} (parts : Runs places runs) {run : Nat × Nat}
    (mem : run ∈ runs) : run.1 = 0 ∨ run.1 - 1 ∉ places := by
  refine or_iff_not_imp_left.mpr fun positive among => ?_
  rw [← parts.spread] at among
  obtain ⟨other, mem', inside⟩ := List.mem_flatMap.mp among
  have both := List.Pairwise.forall_of_forall_of_flip (R := fun run other : Nat × Nat => run = other ∨ run.2 < other.1 ∨ other.2 < run.1)
    (fun run _ => .inl rfl) (parts.apart.imp fun before => .inr (.inl before))
    (parts.apart.imp fun before => .inr (.inr before))
  have proper := parts.proper run mem
  rw [mem_spread] at inside
  obtain rfl | before | after := both mem mem' <;> omega

theorem runsOf_range' (runs : List (Nat × Nat)) (start stop n : Nat) :
    (List.range' stop n).foldl joinRun (runs ++ [(start, stop)]) = runs ++ [(start, stop + n)] := by
  induction n generalizing stop with
  | zero => rfl
  | succ n ih => rw [List.range'_succ, List.foldl_cons, joinRun_concat, if_pos rfl, ih, show stop + 1 + n = stop + (n + 1) by omega]

theorem runsOf_one {start n : Nat} (positive : 0 < n) : runsOf (List.range' start n) = [(start, start + n)] := by
  obtain ⟨m, rfl⟩ := Nat.exists_eq_succ_of_ne_zero positive.ne'
  rw [List.range'_succ]
  exact (runsOf_range' [] start (start + 1) m).trans (by rw [Nat.add_right_comm]; rfl)

theorem runsOf_two {n start m : Nat} (filled : 0 < n) (apart : n < start) (positive : 0 < m) :
    runsOf (List.range' 0 n ++ List.range' start m) = [(0, n), (start, start + m)] := by
  obtain ⟨k, rfl⟩ := Nat.exists_eq_succ_of_ne_zero positive.ne'
  have first : (List.range' 0 n).foldl joinRun [] = [] ++ [(0, n)] := (runsOf_one filled).trans (by rw [Nat.zero_add]; rfl)
  unfold runsOf
  rw [List.foldl_append, first, List.range'_succ, List.foldl_cons, joinRun_concat, if_neg apart.ne, runsOf_range',
    Nat.add_right_comm]
  rfl

def slice (items : List α) (run : Nat × Nat) : List α := (items.take run.2).drop run.1

theorem length_slice {items : List α} {run : Nat × Nat} (inside : run.2 ≤ items.length) :
    (slice items run).length = run.2 - run.1 := by
  unfold slice
  rw [List.length_drop, List.length_take, Nat.min_eq_left inside]

theorem slice_split (items : List α) {run : Nat × Nat} (ordered : run.1 ≤ run.2) :
    items.take run.1 ++ slice items run ++ items.drop run.2 = items := by
  have front : items.take run.1 = (items.take run.2).take run.1 := by rw [List.take_take, Nat.min_eq_left ordered]
  unfold slice
  rw [front, List.take_append_drop, List.take_append_drop]

theorem head_slice {items : List α} {run : Nat × Nat} (proper : run.1 < run.2) : (slice items run).head? = items[run.1]? := by
  unfold slice
  rw [List.head?_drop, List.getElem?_take, if_pos proper]

theorem map_spread {items : List α} {run : Nat × Nat} (inside : run.2 ≤ items.length) :
    (spread run).map (items[·]?) = (slice items run).map some := by
  refine List.ext_getElem? fun i => ?_
  unfold spread slice
  rw [List.getElem?_map, List.getElem?_map, List.getElem?_drop, List.getElem?_take]
  by_cases near : i < run.2 - run.1
  · have here : items[run.1 + i]? = some items[run.1 + i] := List.getElem?_eq_getElem (by omega)
    rw [List.getElem?_range' near, if_pos (by omega), Option.map_some, Nat.one_mul, here]
    rfl
  · rw [List.getElem?_eq_none (by rw [List.length_range']; omega), if_neg (by omega)]
    rfl

end QuantumFs.Lib
