import QuantumFs.Lib.Action

/-! Programs on stored data. Every operation is atomic and takes what becomes of
it from a schedule: it happens, it reports an error, or the machine stops right
before or after it. An error can be handled; nothing runs after a stop. -/
namespace QuantumFs.Lib

/-- What becomes of one operation. -/
inductive Fault where
  | none
  | refused
  /-- It happened and an error was reported. -/
  | unreported
  /-- The machine stopped before it. -/
  | lost
  /-- The machine stopped after it. -/
  | last
deriving DecidableEq

inductive Halt (ε : Type) where
  | crash
  | error (e : ε)
deriving DecidableEq

/-- Stored data and the faults to come; without any left, everything works. -/
structure World (δ : Type) where
  disk : δ
  faults : List Fault

abbrev Program (ε δ α : Type) : Type := Action (Halt ε) (World δ) α

namespace Program

variable {ε δ η α β : Type}

def change (e : ε) (f : δ → δ) : Program ε δ Unit := fun world =>
  match world.faults with
  | [] => (.ok (), ⟨f world.disk, []⟩)
  | .none :: faults => (.ok (), ⟨f world.disk, faults⟩)
  | .refused :: faults => (.error (.error e), ⟨world.disk, faults⟩)
  | .unreported :: faults => (.error (.error e), ⟨f world.disk, faults⟩)
  | .lost :: faults => (.error .crash, ⟨world.disk, faults⟩)
  | .last :: faults => (.error .crash, ⟨f world.disk, faults⟩)

def fail (e : ε) : Program ε δ α := Action.throw (.error e)

def compute : Except ε α → Program ε δ α
  | .ok a => pure a
  | .error e => fail e

def require (p : Prop) [Decidable p] (e : ε) : Program ε δ Unit :=
  Action.require p (.error e)

/-- Read the stored data; reading can fail like a change. -/
def read (e : ε) (look : δ → Except ε α) : Program ε δ α := do
  change e id
  let world ← Action.get
  compute (look world.disk)

def onError (x : Program ε δ α) (handle : ε → Program ε δ α) : Program ε δ α := fun world =>
  match x world with
  | (.error (.error e), next) => handle e next
  | outcome => outcome

def within (get : δ → η) (put : η → δ → δ) (x : Program ε η α) : Program ε δ α := fun world =>
  ((x ⟨get world.disk, world.faults⟩).1,
    ⟨put (x ⟨get world.disk, world.faults⟩).2.disk world.disk,
      (x ⟨get world.disk, world.faults⟩).2.faults⟩)

/-- The stored data after a run under a schedule. -/
def diskAfter (x : Program ε δ α) (faults : List Fault) (disk : δ) : δ := (x ⟨disk, faults⟩).2.disk

/-- Whether and how a run under a schedule ends. -/
def resultOf (x : Program ε δ α) (faults : List Fault) (disk : δ) : Except (Halt ε) α :=
  (x ⟨disk, faults⟩).1

/-- One run after another, each under its own schedule and from what the one
before it left. -/
def diskAfterAll (x : Program ε δ α) : List (List Fault) → δ → δ
  | [], disk => disk
  | faults :: later, disk => diskAfterAll x later (x.diskAfter faults disk)

theorem read_quiet {e : ε} {look : δ → Except ε α} {disk : δ} {a : α} (h : look disk = .ok a) :
    read e look ⟨disk, []⟩ = (.ok a, ⟨disk, []⟩) := by
  change compute (look disk) ⟨disk, []⟩ = _
  rw [h]
  rfl

/-- Whatever the faults, the program ends as `Q` says. -/
def Ends (x : Program ε δ α) (disk : δ) (Q : Except (Halt ε) α → δ → Prop) : Prop :=
  ∀ faults, Q (x.resultOf faults disk) (x.diskAfter faults disk)

namespace Ends

variable {x : Program ε δ α} {f : α → Program ε δ β} {disk : δ} {Q : Except (Halt ε) β → δ → Prop}

theorem mono {P Q : Except (Halt ε) α → δ → Prop} (h : Ends x disk P)
    (imp : ∀ r next, P r next → Q r next) : Ends x disk Q :=
  fun faults => imp _ _ (h faults)

theorem pure {a : α} {Q : Except (Halt ε) α → δ → Prop} (h : Q (.ok a) disk) :
    Ends (Pure.pure a : Program ε δ α) disk Q := fun _ => h

theorem fail {e : ε} {Q : Except (Halt ε) α → δ → Prop} (h : Q (.error (.error e)) disk) :
    Ends (Program.fail e : Program ε δ α) disk Q := fun _ => h

theorem bind (h : Ends x disk fun r next => match r with
    | .ok a => Ends (f a) next Q
    | .error stop => Q (.error stop) next) : Ends (x >>= f) disk Q := by
  intro faults
  have first := h faults
  unfold resultOf diskAfter at first ⊢
  rw [Action.bind_apply]
  generalize x ⟨disk, faults⟩ = outcome at first ⊢
  obtain ⟨r, next⟩ := outcome
  cases r with
  | ok a => exact first next.faults
  | error stop => exact first

theorem change {e : ε} {g : δ → δ} {Q : Except (Halt ε) Unit → δ → Prop} (ok : Q (.ok ()) (g disk))
    (undone : ∀ stop, Q (.error stop) disk) (done : ∀ stop, Q (.error stop) (g disk)) :
    Ends (Program.change e g) disk Q := by
  intro faults
  unfold resultOf diskAfter Program.change
  dsimp only
  split
  · exact ok
  · exact ok
  · exact undone _
  · exact done _
  · exact undone _
  · exact done _

theorem change_bind {e : ε} {g : δ → δ} {f : Unit → Program ε δ β}
    (undone : ∀ stop, Q (.error stop) disk) (done : ∀ stop, Q (.error stop) (g disk))
    (ok : Ends (f ()) (g disk) Q) : Ends (Program.change e g >>= f) disk Q :=
  bind (change ok undone done)

theorem compute {y : Except ε α} {Q : Except (Halt ε) α → δ → Prop}
    (err : ∀ e, y = .error e → Q (.error (.error e)) disk) (ok : ∀ a, y = .ok a → Q (.ok a) disk) :
    Ends (Program.compute y) disk Q := by
  cases y with
  | ok a => exact pure (ok a rfl)
  | error e => exact fail (err e rfl)

theorem compute_bind {y : Except ε α} (err : ∀ stop, Q (.error stop) disk)
    (ok : ∀ a, y = .ok a → Ends (f a) disk Q) : Ends (Program.compute y >>= f) disk Q :=
  bind (compute (fun _ _ => err _) ok)

theorem require {p : Prop} [Decidable p] {e : ε} {f : Unit → Program ε δ β}
    (err : ∀ stop, Q (.error stop) disk) (ok : p → Ends (f ()) disk Q) :
    Ends (Program.require p e >>= f) disk Q := by
  apply bind
  intro faults
  unfold resultOf diskAfter Program.require Action.require
  by_cases h : p
  · rw [if_pos h]
    exact ok h
  · rw [if_neg h]
    exact err _

theorem read_bind {e : ε} {look : δ → Except ε α} (err : ∀ stop, Q (.error stop) disk)
    (ok : ∀ a, look disk = .ok a → Ends (f a) disk Q) : Ends (Program.read e look >>= f) disk Q := by
  unfold Program.read
  rw [bind_assoc]
  refine change_bind err err ?_
  intro faults
  exact compute_bind err ok faults

theorem onError {handle : ε → Program ε δ α} {Q : Except (Halt ε) α → δ → Prop}
    (h : Ends x disk fun r next => match r with
      | .error (.error e) => Ends (handle e) next Q
      | outcome => Q outcome next) : Ends (Program.onError x handle) disk Q := by
  intro faults
  have first := h faults
  unfold resultOf diskAfter at first ⊢
  unfold Program.onError
  generalize x ⟨disk, faults⟩ = outcome at first ⊢
  obtain ⟨r, next⟩ := outcome
  cases r with
  | ok a => exact first
  | error stop =>
    cases stop with
    | crash => exact first
    | error e => exact first next.faults

theorem within {get : δ → η} {put : η → δ → δ} {y : Program ε η α}
    {Q : Except (Halt ε) α → δ → Prop}
    (h : Ends y (get disk) fun r part => Q r (put part disk)) :
    Ends (Program.within get put y) disk Q := fun faults => h faults

theorem all {I : δ → Prop} (step : ∀ disk, I disk → Ends x disk fun _ next => I next) :
    ∀ (schedules : List (List Fault)) (disk : δ), I disk → I (x.diskAfterAll schedules disk) := by
  intro schedules
  induction schedules with
  | nil => exact fun _ known => known
  | cons faults later ih => exact fun disk known => ih _ (step disk known faults)

end Ends

/-- Whatever the faults, the program ends as `Q` says. Without any, it succeeds
provided that `p` holds. -/
structure Finishes (p : Prop) (x : Program ε δ α) (disk : δ) (Q : Except (Halt ε) α → δ → Prop) :
    Prop where
  ends : Ends x disk Q
  quiet : p → ∃ a next, x ⟨disk, []⟩ = (.ok a, ⟨next, []⟩)

namespace Finishes

variable {p : Prop} {x : Program ε δ α} {f : α → Program ε δ β} {disk : δ}
  {Q : Except (Halt ε) β → δ → Prop}

theorem succeeds {Q : Except (Halt ε) α → δ → Prop} (h : Finishes p x disk Q) (holds : p) :
    ∃ a next, x ⟨disk, []⟩ = (.ok a, ⟨next, []⟩) ∧ Q (.ok a) next := by
  obtain ⟨a, next, done⟩ := h.quiet holds
  have ends := h.ends []
  unfold resultOf diskAfter at ends
  rw [done] at ends
  exact ⟨a, next, done, ends⟩

theorem mono {P Q : Except (Halt ε) α → δ → Prop} (h : Finishes p x disk P)
    (imp : ∀ r next, P r next → Q r next) : Finishes p x disk Q := ⟨h.ends.mono imp, h.quiet⟩

theorem weaken {q : Prop} {Q : Except (Halt ε) α → δ → Prop} (h : Finishes p x disk Q)
    (imp : q → p) : Finishes q x disk Q := ⟨h.ends, fun holds => h.quiet (imp holds)⟩

theorem pure {a : α} {Q : Except (Halt ε) α → δ → Prop} (h : Q (.ok a) disk) :
    Finishes p (Pure.pure a : Program ε δ α) disk Q := ⟨.pure h, fun _ => ⟨a, disk, rfl⟩⟩

theorem fail {e : ε} {Q : Except (Halt ε) α → δ → Prop} (h : Q (.error (.error e)) disk)
    (never : ¬ p) : Finishes p (Program.fail e : Program ε δ α) disk Q :=
  ⟨.fail h, fun holds => absurd holds never⟩

theorem bind (h : Finishes p x disk fun r next => match r with
    | .ok a => Finishes p (f a) next Q
    | .error stop => Q (.error stop) next) : Finishes p (x >>= f) disk Q := by
  refine ⟨.bind (h.ends.mono fun r next done => ?_), fun holds => ?_⟩
  · cases r with
    | ok a => exact done.ends
    | error stop => exact done
  · obtain ⟨a, next, first, rest⟩ := h.succeeds holds
    obtain ⟨b, last, second⟩ := rest.quiet holds
    exact ⟨b, last, (Action.bind_ok first).trans second⟩

theorem next {R : Except (Halt ε) α → δ → Prop} (h : Finishes p x disk R)
    (err : ∀ stop next, R (.error stop) next → Q (.error stop) next)
    (ok : ∀ a next, R (.ok a) next → Finishes p (f a) next Q) : Finishes p (x >>= f) disk Q := by
  refine bind (h.mono fun r next known => ?_)
  cases r with
  | ok a => exact ok a next known
  | error stop => exact err stop next known

theorem change {e : ε} {g : δ → δ} {Q : Except (Halt ε) Unit → δ → Prop}
    (undone : ∀ stop, Q (.error stop) disk) (done : ∀ stop, Q (.error stop) (g disk))
    (ok : Q (.ok ()) (g disk)) : Finishes p (Program.change e g) disk Q :=
  ⟨.change ok undone done, fun _ => ⟨(), g disk, rfl⟩⟩

theorem change_bind {e : ε} {g : δ → δ} {f : Unit → Program ε δ β}
    (undone : ∀ stop, Q (.error stop) disk) (done : ∀ stop, Q (.error stop) (g disk))
    (ok : Finishes p (f ()) (g disk) Q) : Finishes p (Program.change e g >>= f) disk Q :=
  bind (change undone done ok)

theorem compute_bind {y : Except ε α} (works : p → ∃ a, y = .ok a) (err : ∀ stop, Q (.error stop) disk)
    (ok : ∀ a, y = .ok a → Finishes p (f a) disk Q) :
    Finishes p (Program.compute y >>= f) disk Q := by
  cases y with
  | ok a => exact bind (pure (ok a rfl))
  | error e =>
    refine bind (fail (err _) fun holds => ?_)
    obtain ⟨a, same⟩ := works holds
    cases same

theorem require {q : Prop} [Decidable q] {e : ε} {f : Unit → Program ε δ β} (works : p → q)
    (err : ∀ stop, Q (.error stop) disk) (ok : q → Finishes p (f ()) disk Q) :
    Finishes p (Program.require q e >>= f) disk Q := by
  refine ⟨.require err fun h => (ok h).ends, fun holds => ?_⟩
  obtain ⟨a, next, rest⟩ := (ok (works holds)).quiet holds
  exact ⟨a, next, (Action.bind_ok ((Action.require_eq_ok _ _ _ _).mpr ⟨works holds, rfl⟩)).trans rest⟩

theorem read_bind {e : ε} {look : δ → Except ε α} (works : p → ∃ a, look disk = .ok a)
    (err : ∀ stop, Q (.error stop) disk) (ok : ∀ a, look disk = .ok a → Finishes p (f a) disk Q) :
    Finishes p (Program.read e look >>= f) disk Q := by
  refine ⟨.read_bind err fun a found => (ok a found).ends, fun holds => ?_⟩
  obtain ⟨a, found⟩ := works holds
  obtain ⟨b, next, rest⟩ := (ok a found).quiet holds
  exact ⟨b, next, (Action.bind_ok (read_quiet found)).trans rest⟩

theorem within {get : δ → η} {put : η → δ → δ} {y : Program ε η α}
    {Q : Except (Halt ε) α → δ → Prop}
    (h : Finishes p y (get disk) fun r part => Q r (put part disk)) :
    Finishes p (Program.within get put y) disk Q := by
  refine ⟨.within h.ends, fun holds => ?_⟩
  obtain ⟨a, next, done⟩ := h.quiet holds
  refine ⟨a, put next disk, ?_⟩
  unfold Program.within
  dsimp only
  rw [done]

end Finishes

end Program

end QuantumFs.Lib
