import Mathlib

/-! Patterns that backtrack: each takes something from the front of its input and hands it on with
the rest; where what follows fails, it takes something else. -/
namespace QuantumFs.Lib

variable {α β : Type}

def Run (p : α → Bool) (items : List α) : Prop := items ≠ [] ∧ ∀ x ∈ items, p x = true

def EndsOff (p : α → Bool) (items : List α) : Prop := ∀ x ∈ items.getLast?, p x = false

theorem rdropWhile_run {p : α → Bool} {front back : List α} (ends : EndsOff p front) (all : ∀ x ∈ back, p x = true) :
    (front ++ back).rdropWhile p = front := by
  unfold List.rdropWhile
  rw [List.reverse_append, List.dropWhile_append_of_pos fun x mem => all x (List.mem_reverse.mp mem)]
  rw [List.reverse_eq_iff]
  cases chars : front.reverse with
  | nil => rfl
  | cons x rest =>
    refine List.dropWhile_cons_of_neg ?_
    rw [ends x (by rw [List.getLast?_eq_head?_reverse, chars]; rfl)]
    exact Bool.false_ne_true

theorem rdropWhile_endsOff (p : α → Bool) (items : List α) : EndsOff p (items.rdropWhile p) := by
  intro x last
  have some : items.rdropWhile p ≠ [] := fun none => by simp [none] at last
  have off := List.rdropWhile_last_not p items some
  rw [List.getLast?_eq_some_getLast some] at last
  rw [Option.some.inj last] at off
  exact Bool.not_eq_true _ ▸ off

theorem rdropWhile_split (p : α → Bool) (items : List α) :
    ∃ back, items = items.rdropWhile p ++ back ∧ ∀ x ∈ back, p x = true := by
  refine ⟨(items.reverse.takeWhile p).reverse, ?_, fun x mem => List.mem_takeWhile_imp (List.mem_reverse.mp mem)⟩
  rw [List.rdropWhile, ← List.reverse_append, List.takeWhile_append_dropWhile, List.reverse_reverse]

theorem Run.endsOff {p q : α → Bool} {items : List α} (run : Run p items) (apart : ∀ x, p x = true → q x = false)
    (front : List α) : EndsOff q (front ++ items) := by
  intro x last
  rw [List.getLast?_append_of_ne_nil _ run.1] at last
  exact apart x (run.2 x (List.mem_of_getLast? last))

theorem run_unique {p : α → Bool} {front front' back back' : List α} (same : front ++ back = front' ++ back')
    (ends : EndsOff p front) (ends' : EndsOff p front') (all : ∀ x ∈ back, p x = true)
    (all' : ∀ x ∈ back', p x = true) : front = front' ∧ back = back' := by
  have fronts : front = front' := by rw [← rdropWhile_run ends all, same, rdropWhile_run ends' all']
  exact ⟨fronts, List.append_cancel_left (fronts ▸ same)⟩

theorem last_split [DecidableEq α] {x : α} {front front' back back' : List α}
    (same : front ++ x :: back = front' ++ x :: back') (absent : x ∉ back) (absent' : x ∉ back') :
    front = front' ∧ back = back' := by
  have ends (front : List α) : EndsOff (· != x) (front ++ [x]) := by
    intro y last
    rw [List.getLast?_concat] at last
    rw [bne_eq_false_iff_eq]
    exact (Option.some.inj last).symm
  have others {back : List α} (absent : x ∉ back) : ∀ y ∈ back, (y != x) = true := fun y mem =>
    bne_iff_ne.mpr fun same => absent (same ▸ mem)
  rw [List.append_cons, List.append_cons front'] at same
  obtain ⟨fronts, backs⟩ := run_unique same (ends front) (ends front') (others absent) (others absent')
  exact ⟨(List.append_singleton_inj.mp fronts).1, backs⟩

abbrev Pattern (α β : Type) : Type := (List α → List α → Option β) → List α → Option β

namespace Pattern

def lazilyFrom (p : α → Bool) (next : List α → List α → Option β) (taken : List α) : List α → Option β
  | [] => next taken []
  | x :: rest => (next taken (x :: rest)).or (if p x then lazilyFrom p next (taken ++ [x]) rest else none)

/-- As few elements as possible: `*?`. -/
def lazily (p : α → Bool) : Pattern α β := fun next => lazilyFrom p next []

def greedilyFrom (p : α → Bool) (next : List α → List α → Option β) (taken : List α) : List α → Option β
  | [] => next taken []
  | x :: rest => if p x then (greedilyFrom p next (taken ++ [x]) rest).or (next taken (x :: rest)) else next taken (x :: rest)

/-- As many elements as possible, and at least one: `+`. -/
def greedily (p : α → Bool) : Pattern α β := fun next input =>
  match input with
  | [] => none
  | x :: rest => if p x then greedilyFrom p next [x] rest else none

def word (letters : List (α → Bool)) : Pattern α β := fun next input =>
  let taken := input.take letters.length
  if taken.length = letters.length ∧ (letters.zip taken).all (fun (letter, x) => letter x) then
    next taken (input.drop letters.length)
  else none

/-- A pattern takes what has a shape: nothing else, and, wherever something follows, something. -/
structure Reads (pattern : Pattern α β) (shape : List α → Prop) : Prop where
  sound : ∀ {next input result}, pattern next input = some result →
    ∃ taken rest, input = taken ++ rest ∧ shape taken ∧ next taken rest = some result
  complete : ∀ {next taken rest}, shape taken → next taken rest ≠ none → pattern next (taken ++ rest) ≠ none

theorem or_ne_none {first second : Option β} : first.or second ≠ none ↔ first ≠ none ∨ second ≠ none := by
  rw [ne_eq, Option.or_eq_none_iff, not_and_or]

theorem lazilyFrom_eq_some {p : α → Bool} {next : List α → List α → Option β} {start input : List α} {result : β}
    (h : lazilyFrom p next start input = some result) :
    ∃ taken rest, input = taken ++ rest ∧ (∀ x ∈ taken, p x = true) ∧ next (start ++ taken) rest = some result ∧
      ∀ front back, taken = front ++ back → back ≠ [] → next (start ++ front) (back ++ rest) = none := by
  induction input generalizing start with
  | nil =>
    refine ⟨[], [], rfl, nofun, by rw [List.append_nil]; exact h, fun front back split some => ?_⟩
    exact absurd (List.append_eq_nil_iff.mp split.symm).2 some
  | cons x input ih =>
    obtain here | ⟨never, later⟩ := Option.or_eq_some_iff.mp h
    · refine ⟨[], x :: input, rfl, nofun, by rw [List.append_nil]; exact here, fun front back split some => ?_⟩
      exact absurd (List.append_eq_nil_iff.mp split.symm).2 some
    · obtain ⟨meets, later⟩ := Option.ite_none_right_eq_some.mp later
      obtain ⟨taken, rest, rfl, all, goes, least⟩ := ih later
      rw [List.append_assoc, List.singleton_append] at goes
      refine ⟨x :: taken, rest, rfl, List.forall_mem_cons.mpr ⟨meets, all⟩, goes, fun front back split some => ?_⟩
      cases front with
      | nil =>
        rw [List.nil_append] at split
        rw [← split, List.append_nil]
        exact never
      | cons y front =>
        rw [List.cons_append, List.cons.injEq] at split
        obtain ⟨rfl, split⟩ := split
        have none := least front back split some
        rwa [List.append_assoc, List.singleton_append] at none

theorem lazilyFrom_ne_none {p : α → Bool} {next : List α → List α → Option β} {taken rest : List α} (start : List α)
    (all : ∀ x ∈ taken, p x = true) (goes : next (start ++ taken) rest ≠ none) :
    lazilyFrom p next start (taken ++ rest) ≠ none := by
  induction taken generalizing start with
  | nil =>
    rw [List.append_nil] at goes
    cases rest with
    | nil => exact goes
    | cons x rest => exact or_ne_none.mpr (.inl goes)
  | cons x taken ih =>
    obtain ⟨meets, all⟩ := List.forall_mem_cons.mp all
    refine or_ne_none.mpr (.inr ?_)
    rw [if_pos meets]
    refine ih (start ++ [x]) all ?_
    rwa [List.append_assoc, List.singleton_append]

theorem reads_lazily (p : α → Bool) : Reads (lazily p : Pattern α β) fun taken => ∀ x ∈ taken, p x = true where
  sound h := by
    obtain ⟨taken, rest, same, all, goes, -⟩ := lazilyFrom_eq_some h
    exact ⟨taken, rest, same, all, goes⟩
  complete all goes := lazilyFrom_ne_none [] all goes

theorem greedilyFrom_eq_some {p : α → Bool} {next : List α → List α → Option β} {start input : List α} {result : β}
    (h : greedilyFrom p next start input = some result) :
    ∃ taken rest, input = taken ++ rest ∧ (∀ x ∈ taken, p x = true) ∧ next (start ++ taken) rest = some result := by
  induction input generalizing start with
  | nil => exact ⟨[], [], rfl, nofun, by rw [List.append_nil]; exact h⟩
  | cons x input ih =>
    have stops (goes : next start (x :: input) = some result) : ∃ taken rest, x :: input = taken ++ rest ∧
        (∀ x ∈ taken, p x = true) ∧ next (start ++ taken) rest = some result :=
      ⟨[], x :: input, rfl, nofun, by rw [List.append_nil]; exact goes⟩
    unfold greedilyFrom at h
    split at h
    · rename_i meets
      obtain later | ⟨-, here⟩ := Option.or_eq_some_iff.mp h
      · obtain ⟨taken, rest, rfl, all, goes⟩ := ih later
        rw [List.append_assoc, List.singleton_append] at goes
        exact ⟨x :: taken, rest, rfl, List.forall_mem_cons.mpr ⟨meets, all⟩, goes⟩
      · exact stops here
    · exact stops h

theorem greedilyFrom_ne_none {p : α → Bool} {next : List α → List α → Option β} {taken rest : List α}
    (start : List α) (all : ∀ x ∈ taken, p x = true) (goes : next (start ++ taken) rest ≠ none) :
    greedilyFrom p next start (taken ++ rest) ≠ none := by
  induction taken generalizing start with
  | nil =>
    rw [List.append_nil] at goes
    cases rest with
    | nil => exact goes
    | cons x rest =>
      rw [List.nil_append, greedilyFrom]
      split
      · exact or_ne_none.mpr (.inr goes)
      · exact goes
  | cons x taken ih =>
    obtain ⟨meets, all⟩ := List.forall_mem_cons.mp all
    rw [List.cons_append, greedilyFrom, if_pos meets]
    refine or_ne_none.mpr (.inl (ih (start ++ [x]) all ?_))
    rwa [List.append_assoc, List.singleton_append]

theorem reads_greedily (p : α → Bool) :
    Reads (greedily p : Pattern α β) (Run p) where
  sound {next input result} h := by
    cases input with
    | nil => cases h
    | cons x input =>
      obtain ⟨meets, h⟩ := Option.ite_none_right_eq_some.mp h
      obtain ⟨taken, rest, rfl, all, goes⟩ := greedilyFrom_eq_some h
      exact ⟨x :: taken, rest, rfl, ⟨List.cons_ne_nil _ _, List.forall_mem_cons.mpr ⟨meets, all⟩⟩, goes⟩
  complete {next taken rest} shape goes := by
    cases taken with
    | nil => exact absurd rfl shape.1
    | cons x taken =>
      obtain ⟨meets, all⟩ := List.forall_mem_cons.mp shape.2
      change (if p x then greedilyFrom p next [x] (taken ++ rest) else none) ≠ none
      rw [if_pos meets]
      exact greedilyFrom_ne_none [x] all goes

def Spells (letters : List (α → Bool)) (taken : List α) : Prop := List.Forall₂ (fun letter x => letter x = true) letters taken

theorem spells_iff {letters : List (α → Bool)} {taken : List α} : Spells letters taken ↔
    taken.length = letters.length ∧ (letters.zip taken).all (fun (letter, x) => letter x) = true := by
  unfold Spells
  rw [List.forall₂_iff_zip, List.all_eq_true]
  exact and_congr ⟨Eq.symm, Eq.symm⟩ ⟨fun all pair mem => all mem, fun all _ _ mem => all _ mem⟩

theorem Spells.exists_letter {letters : List (α → Bool)} {taken : List α} (spells : Spells letters taken) {x : α}
    (mem : x ∈ taken) : ∃ letter ∈ letters, letter x = true := by
  unfold Spells at spells
  induction spells with
  | nil => cases mem
  | @cons letter y letters taken first _ ih =>
    obtain rfl | later := List.mem_cons.mp mem
    · exact ⟨letter, List.mem_cons_self, first⟩
    · obtain ⟨letter, among, met⟩ := ih later
      exact ⟨letter, List.mem_cons_of_mem _ among, met⟩

theorem reads_word (letters : List (α → Bool)) : Reads (word letters : Pattern α β) (Spells letters) where
  sound {next input result} h := by
    obtain ⟨spelled, goes⟩ := Option.ite_none_right_eq_some.mp h
    exact ⟨_, _, (List.take_append_drop _ _).symm, spells_iff.mpr spelled, goes⟩
  complete {next taken rest} spells goes := by
    have size := (spells_iff.mp spells).1
    unfold word
    rw [← size, List.take_left, List.drop_left, size, if_pos (spells_iff.mp spells)]
    exact goes

end Pattern

end QuantumFs.Lib
