import QuantumFs.Client.PathNames
import QuantumFs.Lib.Subsequence
import QuantumFs.Lib.Pattern

/-! The scorer of the search (`lib/search/fuzzy.ts`), which looks for places in the lower-cased
target and reports them as places of the target itself. -/
namespace QuantumFs.Client.Search

open Lib
open QuantumFs.Client.Path (Units units)

class UnitLowercase where
  toLowerCase : Units → Units

export UnitLowercase (toLowerCase)

/-- `runs` are the matched runs as `[start, end)` index pairs into the original target. -/
structure FuzzyResult where
  score : Int
  runs : List (Nat × Nat)
deriving DecidableEq

def separators : Units := units " ._-/"

def scoreExact : Int := 100
def scorePrefix : Int := 60
def scoreBoundary : Int := 40
def scoreRun : Int := 12
def scoreAfterSeparator : Int := 6
def penaltySkip : Int := 2
def penaltyPerUnmatched : Int := 1
def maxSkipped : Nat := 20

def isSeparator (ch : UInt16) : Bool := separators.contains ch

def isUpper (ch : UInt16) : Bool := 65 ≤ ch.toNat && ch.toNat ≤ 90

def isLowerOrDigit (ch : UInt16) : Bool := (97 ≤ ch.toNat && ch.toNat ≤ 122) || (48 ≤ ch.toNat && ch.toNat ≤ 57)

/-- What a match at place `i` of the target adds for itself; there may be no such place. -/
def placeScore (target : Units) (i : Nat) : Int :=
  let prev := if 0 < i then target[i - 1]? else none
  let afterSeparator := prev.any isSeparator
  let camelBoundary := prev.any isLowerOrDigit && target[i]?.any isUpper
  (if i = 0 ∨ afterSeparator ∨ camelBoundary then scoreBoundary else 0) +
    if afterSeparator then scoreAfterSeparator else 0

/-- The score and the number of units stepped over, after those of the places before. -/
def scorePlaces (target : Units) : Option Nat → List Nat → Int × Nat → Int × Nat
  | _, [], total => total
  | previous, i :: indices, (score, skipped) =>
    let score := score + placeScore target i
    scorePlaces target (some i) indices <|
      match previous with
      | none => (score, skipped)
      | some before =>
        let gap := i - before - 1
        if gap = 0 then (score + scoreRun, skipped) else (score, skipped + gap)

def scoreOf (q t target : Units) (indices : List Nat) : Int :=
  let whole := if q = t then scoreExact else if q.isPrefixOf t then scorePrefix else 0
  let (score, skipped) := scorePlaces target none indices (whole, indices.headD 0)
  score - penaltySkip * min skipped maxSkipped - penaltyPerUnmatched * ((t.length : Int) - q.length)

def fuzzyMatch [UnitLowercase] (query target : Units) : Option FuzzyResult :=
  let q := toLowerCase query
  let t := toLowerCase target
  if q.length = 0 then some ⟨0, []⟩
  else if t.length < q.length then none
  else (landings q t 0).map fun indices => ⟨scoreOf q t target indices, runsOf indices⟩

def high (unit : UInt16) : Bool := 0xD800 ≤ unit.toNat && unit.toNat ≤ 0xDBFF

def low (unit : UInt16) : Bool := 0xDC00 ≤ unit.toNat && unit.toNat ≤ 0xDFFF

/-- The numbers of the characters, and of the halves of characters that stand alone. -/
def codePoints : Units → List Nat
  | [] => []
  | [unit] => [unit.toNat]
  | unit :: next :: rest =>
    if high unit && low next then
      (0x10000 + (unit.toNat - 0xD800) * 0x400 + (next.toNat - 0xDC00)) :: codePoints rest
    else unit.toNat :: codePoints (next :: rest)

/-- Lower case consists of characters that are their own lower case wherever they stand, as are the
halves of characters. -/
class CodePointLowercase extends UnitLowercase where
  stable : Nat → Prop
  stable_lowered : ∀ text, ∀ point ∈ codePoints (toLowerCase text), stable point
  lowered_stable : ∀ text, (∀ point ∈ codePoints text, stable point) → toLowerCase text = text
  stable_half : ∀ point, 0xD800 ≤ point → point ≤ 0xDFFF → stable point

def Apart (front back : Units) : Prop := ∀ unit ∈ front.getLast?, ∀ next ∈ back.head?, ¬(high unit && low next) = true

theorem codePoints_append {front back : Units} (apart : Apart front back) :
    codePoints (front ++ back) = codePoints front ++ codePoints back := by
  fun_induction codePoints front with
  | case1 => rfl
  | case2 unit =>
    cases back with
    | nil => rfl
    | cons next rest =>
      rw [List.singleton_append, codePoints, if_neg (apart unit rfl next rfl)]
      rfl
  | case3 unit next rest pair ih =>
    have later : Apart rest back := by
      intro last isLast
      refine apart last ?_
      rw [List.getLast?_cons_cons]
      cases rest with
      | nil => cases isLast
      | cons => exact isLast
    rw [List.cons_append, List.cons_append, codePoints, if_pos pair, ih later]
    rfl
  | case4 unit next rest single ih =>
    have later : Apart (next :: rest) back := by
      intro last isLast
      refine apart last ?_
      rw [List.getLast?_cons_cons]
      exact isLast
    rw [List.cons_append, List.cons_append, codePoints, if_neg single, ← List.cons_append, ih later]
    rfl

theorem not_low_of_high {unit : UInt16} (isHigh : high unit = true) : low unit = false := by
  unfold high at isHigh
  unfold low
  rw [Bool.and_eq_true, decide_eq_true_eq, decide_eq_true_eq] at isHigh
  rw [Bool.and_eq_false_iff, decide_eq_false_iff_not]
  omega

section

variable [CodePointLowercase]

open CodePointLowercase (stable)

def Settled (text : Units) : Prop := ∀ point ∈ codePoints text, stable point

theorem settled_lowered (text : Units) : Settled (toLowerCase text) := CodePointLowercase.stable_lowered text

theorem Settled.lowered {text : Units} (settled : Settled text) : toLowerCase text = text :=
  CodePointLowercase.lowered_stable text settled

theorem Settled.append {front back : Units} (settled : Settled front) (settled' : Settled back) (apart : Apart front back) :
    Settled (front ++ back) := by
  intro point mem
  rw [codePoints_append apart] at mem
  exact (List.mem_append.mp mem).elim (settled point) (settled' point)

theorem Settled.split {front back : Units} (settled : Settled (front ++ back)) : Settled front ∧ Settled back := by
  by_cases apart : Apart front back
  · unfold Settled at settled
    rw [codePoints_append apart] at settled
    exact ⟨fun point mem => settled point (List.mem_append_left _ mem),
      fun point mem => settled point (List.mem_append_right _ mem)⟩
  · unfold Apart at apart
    push Not at apart
    obtain ⟨unit, isLast, next, isNext, pair⟩ := apart
    obtain ⟨isHigh, isLow⟩ := Bool.and_eq_true_iff.mp pair
    obtain ⟨older, rfl⟩ : ∃ older, front = older ++ [unit] := ⟨_, (List.dropLast_append_getLast? unit isLast).symm⟩
    obtain ⟨newer, rfl⟩ : ∃ newer, back = next :: newer := by
      cases back with
      | nil => cases isNext
      | cons first newer => exact ⟨newer, by rw [Option.some.inj isNext]⟩
    have before (rest : Units) : Apart older (unit :: rest) := by
      intro last _ first isFirst both
      obtain rfl := Option.some.inj isFirst
      rw [not_low_of_high isHigh, Bool.and_false] at both
      cases both
    have after : codePoints (next :: newer) = next.toNat :: codePoints newer := by
      cases newer with
      | nil => rfl
      | cons other rest =>
        rw [codePoints, if_neg]
        intro both
        have := not_low_of_high (Bool.and_eq_true_iff.mp both).1
        rw [isLow] at this
        cases this
    unfold Settled at settled
    rw [List.append_assoc, List.singleton_append, codePoints_append (before _), codePoints, if_pos pair] at settled
    have half (unit : UInt16) (either : high unit = true ∨ low unit = true) : stable unit.toNat := by
      unfold high low at either
      rw [Bool.and_eq_true, Bool.and_eq_true, decide_eq_true_eq, decide_eq_true_eq, decide_eq_true_eq,
        decide_eq_true_eq] at either
      exact CodePointLowercase.stable_half _ (by omega) (by omega)
    constructor
    · intro point mem
      rw [codePoints_append (before [])] at mem
      obtain mem | mem := List.mem_append.mp mem
      · exact settled point (List.mem_append_left _ mem)
      · rw [List.mem_singleton.mp mem]
        exact half unit (.inl isHigh)
    · intro point mem
      rw [after] at mem
      obtain rfl | mem := List.mem_cons.mp mem
      · exact half next (.inr isLow)
      · exact settled point (List.mem_append_right _ (List.mem_cons_of_mem _ mem))

end

/-- A match is found just where the lower-cased query is a subsequence of the lower-cased target; its
runs are in order and do not touch, are inside the target, and are as long as the query and spell it. -/
structure Sound [UnitLowercase] (query target : Units) : Prop where
  found : (fuzzyMatch query target).isSome ↔ (toLowerCase query).Sublist (toLowerCase target)
  apart : ∀ result ∈ fuzzyMatch query target, result.runs.Pairwise fun run next => run.2 < next.1
  inside : ∀ result ∈ fuzzyMatch query target, ∀ run ∈ result.runs, run.1 < run.2 ∧ run.2 ≤ target.length
  lengths : ∀ result ∈ fuzzyMatch query target,
    (result.runs.map fun run => run.2 - run.1).sum = (toLowerCase query).length
  spelled : ∀ result ∈ fuzzyMatch query target,
    result.runs.flatMap (fun run => toLowerCase (slice target run)) = toLowerCase query

/-- Lower-casing makes the target no longer, and each part of it that does not come after a unit like
its first one is lower-cased by itself as it is in the target. -/
def LowersInPlace [UnitLowercase] (target : Units) : Prop :=
  let t := toLowerCase target
  t.length ≤ target.length ∧ ∀ start stop, start < stop → stop ≤ t.length →
    (start = 0 ∨ t[start - 1]? ≠ t[start]?) → toLowerCase (slice target (start, stop)) = slice t (start, stop)

section

variable [UnitLowercase] {query target : Units}

theorem fuzzyMatch_eq_some {result : FuzzyResult} (h : fuzzyMatch query target = some result) :
    ∃ places, landings (toLowerCase query) (toLowerCase target) 0 = some places ∧ result.runs = runsOf places := by
  unfold fuzzyMatch at h
  dsimp only at h
  split at h
  · rename_i empty
    cases h
    rw [List.length_eq_zero_iff.mp empty]
    exact ⟨[], rfl, rfl⟩
  · split at h
    · cases h
    · obtain ⟨places, landed, rfl⟩ := Option.map_eq_some_iff.mp h
      exact ⟨places, landed, rfl⟩

theorem fuzzyMatch_isSome : (fuzzyMatch query target).isSome ↔ (toLowerCase query).Sublist (toLowerCase target) := by
  unfold fuzzyMatch
  dsimp only
  split
  · rename_i empty
    rw [List.length_eq_zero_iff.mp empty]
    exact iff_of_true rfl (List.nil_sublist _)
  · split
    · rename_i longer
      exact iff_of_false Bool.false_ne_true fun fits => absurd fits.length_le (Nat.not_le_of_lt longer)
    · rw [Option.isSome_map, landings_isSome]

theorem fuzzyMatch_runs {places : List Nat} (landed : landings (toLowerCase query) (toLowerCase target) 0 = some places) :
    ∃ result, fuzzyMatch query target = some result ∧ result.runs = runsOf places := by
  obtain ⟨result, found⟩ := Option.isSome_iff_exists.mp
    (fuzzyMatch_isSome.mpr (landings_isSome.mp (Option.isSome_iff_exists.mpr ⟨places, landed⟩)))
  obtain ⟨places', landed', same⟩ := fuzzyMatch_eq_some found
  rw [landed] at landed'
  cases landed'
  exact ⟨result, found, same⟩

theorem lands_of_query {places : List Nat} (landed : landings (toLowerCase query) (toLowerCase target) 0 = some places) :
    Lands (toLowerCase target) (toLowerCase query) 0 places := @lands_of_landings _ _ _ [] _ _ landed

theorem run_inside {places : List Nat} (landed : landings (toLowerCase query) (toLowerCase target) 0 = some places)
    {run : Nat × Nat} (mem : run ∈ runsOf places) : run.2 ≤ (toLowerCase target).length := by
  have lands := lands_of_query landed
  have parts := runs_runsOf lands.increasing
  have proper := parts.proper run mem
  have last : run.2 - 1 ∈ places := by
    rw [← parts.spread, List.mem_flatMap]
    exact ⟨run, mem, mem_spread.mpr (by omega)⟩
  have := (lands.inside _ last).2
  omega

theorem runs_spell {places : List Nat} (landed : landings (toLowerCase query) (toLowerCase target) 0 = some places) :
    (runsOf places).flatMap (slice (toLowerCase target)) = toLowerCase query := by
  have lands := lands_of_query landed
  have parts := runs_runsOf lands.increasing
  have whole : ((runsOf places).flatMap (slice (toLowerCase target))).map some = (toLowerCase query).map some := by
    rw [← lands.holds, ← parts.spread, List.map_flatMap, List.map_flatMap, parts.spread]
    exact (List.flatMap_congr fun run mem => map_spread (run_inside landed mem)).symm
  exact (List.map_injective_iff.mpr (Option.some_injective _)) whole

theorem runs_length {places : List Nat} (landed : landings (toLowerCase query) (toLowerCase target) 0 = some places) :
    ((runsOf places).map fun run => run.2 - run.1).sum = (toLowerCase query).length := by
  rw [← runs_spell landed, List.length_flatMap]
  exact congrArg List.sum (List.map_congr_left fun run mem => (length_slice (run_inside landed mem)).symm)

theorem sound_of_lowersInPlace (lowers : LowersInPlace target) (query : Units) : Sound query target := by
  obtain ⟨shorter, inPlace⟩ := lowers
  refine ⟨fuzzyMatch_isSome, ?_, ?_, ?_, ?_⟩ <;>
    intro result found <;>
    obtain ⟨places, landed, same⟩ := fuzzyMatch_eq_some found <;>
    rw [same]
  · exact (runs_runsOf (lands_of_query landed).increasing).apart
  · exact fun run mem => ⟨(runs_runsOf (lands_of_query landed).increasing).proper run mem,
      (run_inside landed mem).trans shorter⟩
  · exact runs_length landed
  · rw [← runs_spell landed]
    refine List.flatMap_congr fun run mem => ?_
    have lands := lands_of_query landed
    have parts := runs_runsOf lands.increasing
    have proper := parts.proper run mem
    have starts : run.1 ∈ places := by
      rw [← parts.spread, List.mem_flatMap]
      exact ⟨run, mem, mem_spread.mpr (by omega)⟩
    refine inPlace run.1 run.2 proper (run_inside landed mem) ?_
    obtain first | before | other := lands.first run.1 starts
    · exact .inl first
    · exact (parts.gap mem).imp_right fun gap => absurd before gap
    · exact .inr other

end

section

variable [CodePointLowercase] {target : Units}

theorem front_spelled (sound : ∀ query, Sound query target) {front rest : Units} (some : front ≠ [])
    (whole : toLowerCase target = front ++ rest) :
    front.length ≤ target.length ∧ toLowerCase (slice target (0, front.length)) = front := by
  have settled : Settled front := (Settled.split (whole ▸ settled_lowered target)).1
  have landed : landings (toLowerCase front) (toLowerCase target) 0 = .some (List.range' 0 front.length) := by
    have next := landings_append front [] rest 0
    rw [List.append_nil] at next
    rw [settled.lowered, whole, next]
    exact congrArg Option.some (List.append_nil _)
  have runs := @runsOf_one 0 front.length (List.length_pos_iff.mpr some)
  rw [Nat.zero_add] at runs
  obtain ⟨result, found, same⟩ := fuzzyMatch_runs landed
  have inside := (sound front).inside result found
  have spelled := (sound front).spelled result found
  rw [same, runs] at inside spelled
  rw [settled.lowered, List.flatMap_singleton] at spelled
  exact ⟨(inside _ (List.mem_singleton_self _)).2, spelled⟩

omit [CodePointLowercase] in
theorem apart_front (front part : Units) : ∃ older halves, front = older ++ halves ∧ Apart older part ∧
    ∀ unit ∈ halves, ∀ first ∈ part.head?, unit ≠ first := by
  by_cases lowFirst : ∃ first ∈ part.head?, low first = true
  · obtain ⟨first, isFirst, isLow⟩ := lowFirst
    obtain ⟨halves, split, all⟩ := rdropWhile_split high front
    refine ⟨_, halves, split, ?_, ?_⟩
    · intro unit isLast next isNext both
      rw [rdropWhile_endsOff high front unit isLast, Bool.false_and] at both
      cases both
    · rintro unit mem next isNext rfl
      obtain rfl := Option.some.inj (isFirst.symm.trans isNext)
      rw [not_low_of_high (all _ mem)] at isLow
      cases isLow
  · refine ⟨front, [], (List.append_nil front).symm, ?_, nofun⟩
    intro unit _ next isNext both
    exact lowFirst ⟨next, isNext, (Bool.and_eq_true_iff.mp both).2⟩

theorem part_spelled (sound : ∀ query, Sound query target) {front part rest : Units} {before first : UInt16}
    (isFirst : part.head? = some first) (other : before ≠ first)
    (whole : toLowerCase target = front ++ [before] ++ part ++ rest) :
    toLowerCase (slice target (front.length + 1, front.length + 1 + part.length)) = part := by
  obtain ⟨older, halves, rfl, apart, notFirst⟩ := apart_front front part
  obtain ⟨others, rfl⟩ : ∃ others, part = first :: others := by
    cases part with
    | nil => cases isFirst
    | cons head others => exact ⟨others, by rw [Option.some.inj isFirst]⟩
  have parts := Settled.split (whole ▸ settled_lowered target)
  have settledOlder : Settled older := by
    have front := (Settled.split parts.1).1
    rw [List.append_assoc] at front
    exact (Settled.split front).1
  have settled : Settled (older ++ first :: others) := settledOlder.append (Settled.split parts.1).2 apart
  have absent : first ∉ halves ++ [before] := by
    intro mem
    obtain mem | mem := List.mem_append.mp mem
    · exact notFirst first mem first rfl rfl
    · exact other (List.mem_singleton.mp mem).symm
  have size : (older ++ halves).length + 1 = older.length + (halves ++ [before]).length := by
    rw [List.length_append, List.length_append, List.length_singleton, Nat.add_assoc]
  rw [size]
  have landed : landings (toLowerCase (older ++ first :: others)) (toLowerCase target) 0 =
      .some (List.range' 0 older.length ++ List.range' (older.length + (halves ++ [before]).length) (first :: others).length) := by
    have regroup : older ++ halves ++ [before] ++ first :: others ++ rest =
        older ++ ((halves ++ [before]) ++ (first :: others ++ rest)) := by simp
    have last := landings_append (first :: others) [] rest (0 + older.length + (halves ++ [before]).length)
    rw [List.append_nil] at last
    rw [settled.lowered, whole, regroup, landings_append, landings_skip absent, last, Nat.zero_add]
    dsimp only [landings, Option.map_some]
    rw [List.append_nil]
  have positive : 0 < (halves ++ [before]).length := by simp
  obtain ⟨result, found, same⟩ := fuzzyMatch_runs landed
  have spelled := (sound _).spelled result found
  rw [same, settled.lowered] at spelled
  by_cases empty : older = []
  · subst empty
    rw [List.length_nil, List.range'_zero, List.nil_append, runsOf_one (List.length_pos_of_mem List.mem_cons_self),
      List.flatMap_singleton] at spelled
    exact spelled
  · have filled := List.length_pos_iff.mpr empty
    rw [runsOf_two filled (by omega) (List.length_pos_of_mem List.mem_cons_self), List.flatMap_cons,
      List.flatMap_singleton] at spelled
    have wholeOlder : toLowerCase target = older ++ (halves ++ [before] ++ first :: others ++ rest) := by
      rw [whole]
      simp
    rw [(front_spelled sound empty wholeOlder).2] at spelled
    exact List.append_cancel_left spelled

theorem lowersInPlace_of_sound (sound : ∀ query, Sound query target) : LowersInPlace target := by
  unfold LowersInPlace
  dsimp only
  constructor
  · by_cases empty : toLowerCase target = []
    · rw [empty]
      exact Nat.zero_le _
    · exact (front_spelled sound empty (List.append_nil _).symm).1
  · intro start stop proper inside starts
    generalize same : toLowerCase target = t at *
    have size := @length_slice _ t (start, stop) inside
    have cut := @slice_split _ t (start, stop) proper.le
    dsimp only at size cut
    have some : slice t (start, stop) ≠ [] := List.length_pos_iff.mp (by omega)
    cases start with
    | zero =>
      rw [List.take_zero, List.nil_append] at cut
      have spelled := (front_spelled sound some (same.trans cut.symm)).2
      rwa [size, Nat.sub_zero] at spelled
    | succ k =>
      obtain other := starts.resolve_left (Nat.succ_ne_zero k)
      have here : t[k]? = .some t[k] := List.getElem?_eq_getElem (by omega)
      have next : t[k + 1]? = .some t[k + 1] := List.getElem?_eq_getElem (by omega)
      rw [Nat.add_sub_cancel, here, next] at other
      rw [List.take_add_one, here, Option.toList_some] at cut
      have isFirst := (@head_slice _ t (k + 1, stop) proper).trans next
      have spelled := part_spelled sound isFirst (fun equal => other (congrArg Option.some equal)) (same.trans cut.symm)
      rw [List.length_take_of_le (by omega), size, show k + 1 + (stop - (k + 1)) = stop by omega] at spelled
      exact spelled

/-- Matching is right for every query just where the target is lower-cased in place. -/
theorem fuzzy_sound (target : Units) : (∀ query, Sound query target) ↔ LowersInPlace target :=
  ⟨lowersInPlace_of_sound, sound_of_lowersInPlace⟩

end

theorem mem_codePoints {text : Units} {point : Nat} (mem : point ∈ codePoints text) :
    0x10000 ≤ point ∨ ∃ unit ∈ text, point = unit.toNat := by
  fun_induction codePoints text with
  | case1 => cases mem
  | case2 unit => exact .inr ⟨unit, List.mem_singleton_self unit, List.mem_singleton.mp mem⟩
  | case3 unit next rest pair ih =>
    obtain same | mem := List.mem_cons.mp mem
    · rw [same, Nat.add_assoc]
      exact .inl (Nat.le_add_right _ _)
    · exact (ih mem).imp_right fun ⟨unit, among, same⟩ => ⟨unit, by simp [among], same⟩
  | case4 unit next rest single ih =>
    obtain rfl | mem := List.mem_cons.mp mem
    · exact .inr ⟨unit, List.mem_cons_self, rfl⟩
    · exact (ih mem).imp_right fun ⟨unit, among, same⟩ => ⟨unit, List.mem_cons_of_mem _ among, same⟩

theorem codePoints_mem {text : Units} {unit : UInt16} (mem : unit ∈ text) (notHigh : high unit = false)
    (notLow : low unit = false) : unit.toNat ∈ codePoints text := by
  fun_induction codePoints text with
  | case1 => cases mem
  | case2 other => rw [List.mem_singleton.mp mem]; exact List.mem_singleton_self _
  | case3 first next rest pair ih =>
    obtain ⟨isHigh, isLow⟩ := Bool.and_eq_true_iff.mp pair
    obtain rfl | mem := List.mem_cons.mp mem
    · rw [isHigh] at notHigh
      cases notHigh
    · obtain rfl | mem := List.mem_cons.mp mem
      · rw [isLow] at notLow
        cases notLow
      · exact List.mem_cons_of_mem _ (ih mem)
  | case4 first next rest single ih =>
    obtain rfl | mem := List.mem_cons.mp mem
    · exact List.mem_cons_self
    · exact List.mem_cons_of_mem _ (ih mem)

def Capital (n : Nat) : Prop := 65 ≤ n ∧ n ≤ 90 ∨ n = 0x130

def smallUnits (unit : UInt16) : Units :=
  if unit.toNat = 0x130 then [0x69, 0x307] else if 65 ≤ unit.toNat ∧ unit.toNat ≤ 90 then [unit + 32] else [unit]

theorem smallUnits_small {unit small : UInt16} (mem : small ∈ smallUnits unit) : ¬Capital small.toNat := by
  unfold Capital
  unfold smallUnits at mem
  split at mem
  · rw [List.mem_cons, List.mem_singleton] at mem
    obtain rfl | rfl := mem <;> decide
  · split at mem
    · rw [List.mem_singleton.mp mem, UInt16.toNat_add, Nat.mod_eq_of_lt (by change unit.toNat + 32 < _; omega)]
      change ¬(65 ≤ unit.toNat + 32 ∧ unit.toNat + 32 ≤ 90 ∨ unit.toNat + 32 = 0x130)
      omega
    · rw [List.mem_singleton.mp mem]
      omega

section

local instance dottedLowercase : CodePointLowercase where
  toLowerCase text := text.flatMap smallUnits
  stable point := ¬Capital point
  stable_lowered text point mem := by
    obtain large | ⟨small, among, rfl⟩ := mem_codePoints mem
    · unfold Capital
      omega
    · obtain ⟨unit, -, mem⟩ := List.mem_flatMap.mp among
      exact smallUnits_small mem
  lowered_stable text all := by
    refine (List.flatMap_congr fun unit mem => ?_).trans (List.flatMap_singleton' text)
    have kept : ¬Capital unit.toNat := by
      intro capital
      unfold Capital at capital
      refine all unit.toNat (codePoints_mem mem ?_ ?_) capital
      · unfold high
        rw [Bool.and_eq_false_iff, decide_eq_false_iff_not]
        omega
      · unfold low
        rw [Bool.and_eq_false_iff, decide_eq_false_iff_not]
        omega
    unfold Capital at kept
    unfold smallUnits
    rw [if_neg (by omega), if_neg (by omega)]
  stable_half point least most := by
    unfold Capital
    omega

/-- The lower case of `İ` has two characters, so that what comes after it is reported one place too far. -/
theorem fuzzy_shifted : (fuzzyMatch (units "x") (units "İx")).map FuzzyResult.runs = some [(2, 3)] ∧
    ¬Sound (units "x") (units "İx") := by
  have found : (fuzzyMatch (units "x") (units "İx")).map FuzzyResult.runs = some [(2, 3)] := by decide +kernel
  refine ⟨found, fun sound => ?_⟩
  obtain ⟨result, matched, runs⟩ := Option.map_eq_some_iff.mp found
  have inside := (sound.inside result matched (2, 3) (runs ▸ List.mem_singleton_self _)).2
  exact absurd inside (by decide)

end

structure Segment where
  text : Units
  hit : Bool
deriving DecidableEq

/-- The loop of `highlightRanges`, over the ranges that are left, and the segment after them. -/
def highlightFrom (text : Units) (cursor : Nat) : List (Int × Int) → List Segment
  | [] => if cursor < text.length then [⟨text.drop cursor, false⟩] else []
  | (rawStart, rawEnd) :: ranges =>
    let start := (max (cursor : Int) (min rawStart text.length)).toNat
    let stop := (max (start : Int) (min rawEnd text.length)).toNat
    if stop ≤ start then highlightFrom text cursor ranges
    else
      (if cursor < start then [⟨slice text (cursor, start), false⟩] else []) ++
        ⟨slice text (start, stop), true⟩ :: highlightFrom text stop ranges

def highlightRanges (text : Units) (ranges : List (Int × Int)) : List Segment :=
  highlightFrom text 0 (ranges.mergeSort fun a b => a.1 ≤ b.1)

def clamp (text : Units) (place : Int) : Nat := (max 0 (min place text.length)).toNat

def covered (text : Units) (ranges : List (Int × Int)) (place : Nat) : Bool :=
  ranges.any fun range => clamp text range.1 ≤ place ∧ place < clamp text range.2

/-- The units of the segments, each with whether it is lit. -/
def painted (segments : List Segment) : List (UInt16 × Bool) :=
  segments.flatMap fun segment => segment.text.map (·, segment.hit)

def lit (text : Units) (hit : Nat → Bool) (place : Nat) : List (UInt16 × Bool) :=
  (text.zipIdx place).map fun unit => (unit.1, hit unit.2)

theorem lit_append (front back : Units) (hit : Nat → Bool) (place : Nat) :
    lit (front ++ back) hit place = lit front hit place ++ lit back hit (place + front.length) := by
  unfold lit
  rw [List.zipIdx_append, List.map_append]

theorem lit_congr {text : Units} {hit other : Nat → Bool} {place : Nat}
    (same : ∀ i, place ≤ i → i < place + text.length → hit i = other i) : lit text hit place = lit text other place := by
  refine List.map_congr_left fun unit mem => ?_
  rw [same unit.2 (List.le_snd_of_mem_zipIdx mem) (List.snd_lt_add_of_mem_zipIdx mem)]

theorem lit_const (text : Units) (hit : Bool) (place : Nat) : lit text (fun _ => hit) place = text.map (·, hit) := by
  calc lit text (fun _ => hit) place
      = ((text.zipIdx place).map Prod.fst).map (·, hit) := by rw [List.map_map]; rfl
    _ = text.map (·, hit) := by rw [List.zipIdx_map_fst]

theorem painted_append (front back : List Segment) : painted (front ++ back) = painted front ++ painted back :=
  List.flatMap_append

theorem painted_cons (segment : Segment) (rest : List Segment) :
    painted (segment :: rest) = segment.text.map (·, segment.hit) ++ painted rest := List.flatMap_cons

theorem covered_cons (text : Units) (rawStart rawEnd : Int) (ranges : List (Int × Int)) (place : Nat) :
    covered text ((rawStart, rawEnd) :: ranges) place =
      (decide (clamp text rawStart ≤ place ∧ place < clamp text rawEnd) || covered text ranges place) := List.any_cons

theorem not_covered {text : Units} {ranges : List (Int × Int)} {place : Nat}
    (early : ∀ range ∈ ranges, place < clamp text range.1) : covered text ranges place = false := by
  refine List.any_eq_false.mpr fun range mem => ?_
  have := early range mem
  simp only [decide_eq_true_iff]
  omega

theorem clamp_mono {text : Units} {place other : Int} (le : place ≤ other) : clamp text place ≤ clamp text other := by
  unfold clamp
  omega

theorem drop_slice (text : Units) {cursor stop : Nat} (ordered : cursor ≤ stop) :
    text.drop cursor = slice text (cursor, stop) ++ text.drop stop := by
  have split := @slice_split _ text (cursor, stop) ordered
  rw [List.append_assoc] at split
  exact List.append_cancel_left ((List.take_append_drop cursor text).trans split.symm)

variable {text : Units} {cursor start stop : Nat}

theorem painted_gap (ordered : cursor ≤ start) :
    painted (if cursor < start then [⟨slice text (cursor, start), false⟩] else []) =
      (slice text (cursor, start)).map (·, false) := by
  split
  · exact List.flatMap_singleton ..
  · rw [show cursor = start by omega]
    simp [painted, slice]

theorem painted_rest : painted (if cursor < text.length then [⟨text.drop cursor, false⟩] else []) =
    (text.drop cursor).map (·, false) := by
  split
  · exact List.flatMap_singleton ..
  · rw [List.drop_eq_nil_of_le (by omega)]
    rfl

theorem painted_highlightFrom {ranges : List (Int × Int)} (inside : cursor ≤ text.length)
    (sorted : ranges.Pairwise fun a b => a.1 ≤ b.1) :
    painted (highlightFrom text cursor ranges) = lit (text.drop cursor) (covered text ranges) cursor := by
  induction ranges generalizing cursor with
  | nil =>
    unfold highlightFrom
    rw [painted_rest, ← lit_const _ _ cursor]
    rfl
  | cons range ranges ih =>
    obtain ⟨rawStart, rawEnd⟩ := range
    obtain ⟨least, sorted⟩ := List.pairwise_cons.mp sorted
    unfold highlightFrom
    extract_lets start stop
    have startsAt : start = max cursor (clamp text rawStart) := by unfold start clamp; omega
    have stopsAt : stop = max start (clamp text rawEnd) := by unfold stop clamp; omega
    have most : clamp text rawEnd ≤ text.length := by unfold clamp; omega
    clear_value start stop
    by_cases empty : stop ≤ start
    · rw [if_pos empty, ih inside sorted]
      refine lit_congr fun i after _ => ?_
      rw [covered_cons, decide_eq_false (by omega), Bool.false_or]
    · have before : lit (slice text (cursor, start)) (covered text ((rawStart, rawEnd) :: ranges)) cursor =
          (slice text (cursor, start)).map (·, false) := by
        rw [← lit_const _ _ cursor]
        refine lit_congr fun i after early => ?_
        rw [length_slice (by dsimp only; omega)] at early
        refine not_covered fun range mem => ?_
        have later : clamp text rawStart ≤ clamp text range.1 := by
          obtain rfl | mem := List.mem_cons.mp mem
          · exact Nat.le_refl _
          · exact clamp_mono (least range mem)
        omega
      have within : lit (slice text (start, stop)) (covered text ((rawStart, rawEnd) :: ranges)) start =
          (slice text (start, stop)).map (·, true) := by
        rw [← lit_const _ _ start]
        refine lit_congr fun i after early => ?_
        rw [length_slice (by dsimp only; omega)] at early
        rw [covered_cons, decide_eq_true (by omega), Bool.true_or]
      have beyond : lit (text.drop stop) (covered text ((rawStart, rawEnd) :: ranges)) stop =
          lit (text.drop stop) (covered text ranges) stop := by
        refine lit_congr fun i after _ => ?_
        rw [covered_cons, decide_eq_false (by omega), Bool.false_or]
      rw [if_neg empty, painted_append, painted_cons, painted_gap (by omega), ih (by omega) sorted,
        drop_slice text (show cursor ≤ start by omega), drop_slice text (show start ≤ stop by omega), lit_append, lit_append,
        length_slice (by dsimp only; omega), length_slice (by dsimp only; omega)]
      dsimp only
      rw [show cursor + (start - cursor) = start by omega, show start + (stop - start) = stop by omega, before, within, beyond]

theorem filled_highlightFrom (text : Units) (cursor : Nat) (ranges : List (Int × Int)) :
    ∀ segment ∈ highlightFrom text cursor ranges, segment.text ≠ [] := by
  intro segment mem
  rw [← List.length_pos_iff]
  induction ranges generalizing cursor with
  | nil =>
    unfold highlightFrom at mem
    split at mem
    · rw [List.mem_singleton.mp mem, List.length_drop]
      omega
    · cases mem
  | cons range ranges ih =>
    unfold highlightFrom at mem
    extract_lets start stop at mem
    by_cases empty : stop ≤ start
    · rw [if_pos empty] at mem
      exact ih cursor mem
    · rw [if_neg empty, List.mem_append, List.mem_cons] at mem
      obtain gap | rfl | rest := mem
      · split at gap
        · rw [List.mem_singleton.mp gap, length_slice (by dsimp only; omega)]
          dsimp only
          omega
        · cases gap
      · rw [length_slice (by dsimp only; omega)]
        dsimp only
        omega
      · exact ih stop rest

theorem texts_of_painted (segments : List Segment) : segments.flatMap Segment.text = (painted segments).map Prod.fst := by
  unfold painted
  rw [List.map_flatMap]
  refine List.flatMap_congr fun segment _ => ?_
  rw [List.map_map]
  exact (List.map_id _).symm

/-- Highlighting keeps the text, has no empty segment and lights just what the ranges cover. -/
theorem highlightRanges_exact (text : Units) (ranges : List (Int × Int)) :
    (∀ segment ∈ highlightRanges text ranges, segment.text ≠ []) ∧
      (highlightRanges text ranges).flatMap Segment.text = text ∧
      painted (highlightRanges text ranges) = lit text (covered text ranges) 0 := by
  have sorted : (ranges.mergeSort fun a b => a.1 ≤ b.1).Pairwise fun a b => a.1 ≤ b.1 := by
    have ordered := @List.pairwise_mergeSort _ (fun a b : Int × Int => decide (a.1 ≤ b.1)) (by simp; omega) (by simp; omega) ranges
    simpa using ordered
  have same : covered text (ranges.mergeSort fun a b => a.1 ≤ b.1) = covered text ranges := by
    funext place
    exact (List.mergeSort_perm ranges _).any_eq
  have exact : painted (highlightRanges text ranges) = lit text (covered text ranges) 0 := by
    unfold highlightRanges
    rw [painted_highlightFrom (Nat.zero_le _) sorted, same, List.drop_zero]
  refine ⟨filled_highlightFrom text 0 _, ?_, exact⟩
  rw [texts_of_painted, exact, lit, List.map_map]
  exact List.zipIdx_map_fst 0 text

end QuantumFs.Client.Search
