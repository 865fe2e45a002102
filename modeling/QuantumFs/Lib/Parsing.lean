import QuantumFs.Lib.Action

/-! Readers over a list of symbols: actions whose state is what is left to read.
`Reads` follows a reader through the front of its input, `ReadsAll` to the end
of it; the rules of both run a reader field by field. -/
namespace QuantumFs.Lib

variable {ε β α γ : Type}

/-- The reader takes `out` off the front of any input and returns `x`. -/
def Reads (read : Action ε (List β) α) (out : List β) (x : α) : Prop :=
  ∀ rest, read (out ++ rest) = (.ok x, rest)

/-- The reader takes the whole of `out` and returns `x`. -/
def ReadsAll (read : Action ε (List β) α) (out : List β) (x : α) : Prop :=
  read out = (.ok x, [])

namespace Reads

variable {read : Action ε (List β) α} {next : α → Action ε (List β) γ} {out front back : List β}
  {x : α} {y : γ}

theorem all (h : Reads read out x) : ReadsAll read out x := by
  have := h []
  rwa [List.append_nil] at this

theorem pure (x : α) : Reads (Pure.pure x : Action ε (List β) α) [] x := fun _ => rfl

theorem bind (first : Reads read front x) (second : Reads (next x) back y) :
    Reads (read >>= next) (front ++ back) y := by
  intro rest
  rw [List.append_assoc, Action.bind_ok (first _)]
  exact second rest

theorem last (first : Reads read front x) (second : Reads (next x) [] y) :
    Reads (read >>= next) front y := by
  have := bind first second
  rwa [List.append_nil] at this

theorem map (first : Reads read front x) (f : α → γ) :
    Reads (read >>= fun x => Pure.pure (f x)) front (f x) := last first (pure (f x))

theorem require {p : Prop} [Decidable p] {e : ε} {next : Unit → Action ε (List β) γ} (h : p)
    (second : Reads (next ()) back y) : Reads (Action.require p e >>= next) back y := by
  intro rest
  rw [Action.bind_ok ((Action.require_eq_ok p e _ _).mpr ⟨h, rfl⟩)]
  exact second rest

theorem ofExcept {z : Except ε α} (h : z = .ok x) (second : Reads (next x) back y) :
    Reads (Action.ofExcept z >>= next) back y := by
  intro rest
  rw [Action.bind_ok (Action.ofExcept_eq_ok.mpr ⟨h, rfl⟩)]
  exact second rest

theorem unique {x' : α} (h : Reads read out x) (h' : Reads read out x') : x = x' := by
  have same := (h []).symm.trans (h' [])
  simpa using same

end Reads

namespace ReadsAll

variable {read : Action ε (List β) α} {next : α → Action ε (List β) γ} {front back out : List β}
  {x : α} {y : γ}

theorem bind (first : Reads read front x) (second : ReadsAll (next x) back y) :
    ReadsAll (read >>= next) (front ++ back) y := by
  unfold ReadsAll
  rw [Action.bind_ok (first _)]
  exact second

/-- The reader is at the end of its input when the rest of the method runs. -/
theorem then_nil (first : ReadsAll read out x) (second : ReadsAll (next x) [] y) :
    ReadsAll (read >>= next) out y := by
  unfold ReadsAll
  rw [Action.bind_ok first]
  exact second

theorem pure (x : α) : ReadsAll (Pure.pure x : Action ε (List β) α) [] x := rfl

theorem require {p : Prop} [Decidable p] {e : ε} {next : Unit → Action ε (List β) γ} (h : p)
    (second : ReadsAll (next ()) back y) : ReadsAll (Action.require p e >>= next) back y := by
  unfold ReadsAll
  rw [Action.bind_ok ((Action.require_eq_ok p e _ _).mpr ⟨h, rfl⟩)]
  exact second

theorem ofExcept {z : Except ε α} (h : z = .ok x) (second : ReadsAll (next x) back y) :
    ReadsAll (Action.ofExcept z >>= next) back y := by
  unfold ReadsAll
  rw [Action.bind_ok (Action.ofExcept_eq_ok.mpr ⟨h, rfl⟩)]
  exact second

theorem get {next : List β → Action ε (List β) γ} (second : ReadsAll (next back) back y) :
    ReadsAll (Action.get >>= next) back y := second

theorem result (h : ReadsAll read out x) : (read out).1 = .ok x := by
  rw [h]

end ReadsAll

/-- The reader fails on any input that starts with `out`. -/
def Fails (read : Action ε (List β) α) (out : List β) (e : ε) : Prop :=
  ∀ rest, (read (out ++ rest)).1 = .error e

namespace Fails

variable {read : Action ε (List β) α} {next : α → Action ε (List β) γ} {front back out : List β}
  {x : α} {e : ε}

theorem result (h : Fails read out e) : (read out).1 = .error e := by
  have := h []
  rwa [List.append_nil] at this

theorem first (h : Fails read front e) : Fails (read >>= next) front e := by
  intro rest
  rw [Action.bind_error (Prod.ext (h rest) rfl)]

theorem append (h : Fails read front e) (back : List β) : Fails read (front ++ back) e := by
  intro rest
  rw [List.append_assoc]
  exact h _

theorem later (first : Reads read front x) (second : Fails (next x) back e) :
    Fails (read >>= next) (front ++ back) e := by
  intro rest
  rw [List.append_assoc, Action.bind_ok (first _)]
  exact second rest

theorem require {p : Prop} [Decidable p] {e' : ε} {next : Unit → Action ε (List β) γ} (h : p)
    (second : Fails (next ()) back e) : Fails (Action.require p e' >>= next) back e := by
  intro rest
  rw [Action.bind_ok ((Action.require_eq_ok p e' _ _).mpr ⟨h, rfl⟩)]
  exact second rest

theorem refused {p : Prop} [Decidable p] {next : Unit → Action ε (List β) γ} (h : ¬p)
    (out : List β) : Fails (Action.require p e >>= next) out e := by
  unfold Action.require
  rw [if_neg h]
  exact fun _ => rfl

theorem ofExcept {z : Except ε α} (h : z = .ok x) (second : Fails (next x) back e) :
    Fails (Action.ofExcept z >>= next) back e := by
  intro rest
  rw [Action.bind_ok (Action.ofExcept_eq_ok.mpr ⟨h, rfl⟩)]
  exact second rest

end Fails

/-- Read one element after the other; each reader sees the elements before it. -/
def collect (read : List α → Action ε (List β) α) : List α → Nat → Action ε (List β) (List α)
  | done, 0 => pure done
  | done, n + 1 => do
      let x ← read done
      collect read (done ++ [x]) n

/-- The elements come back in order when each is read after those before it. -/
theorem Reads.collect {read : List α → Action ε (List β) α} {writes : α → List β → Prop}
    {elements : List α} {parts : List (List β)} (written : List.Forall₂ writes elements parts) :
    ∀ {done : List α}, (∀ before x after part, elements = before ++ x :: after → writes x part →
      Reads (read (done ++ before)) part x) →
      Reads (Lib.collect read done elements.length) parts.flatten (done ++ elements) := by
  induction written with
  | nil =>
    intro done _
    rw [List.append_nil]
    exact Reads.pure done
  | @cons x part elements parts head tail ih =>
    intro done each
    have first := each [] x elements part rfl head
    rw [List.append_nil] at first
    have rest : Reads (Lib.collect read (done ++ [x]) elements.length) parts.flatten
        (done ++ [x] ++ elements) := by
      apply ih
      intro before y after other split written
      rw [List.append_assoc]
      exact each (x :: before) y after other (congrArg (x :: ·) split) written
    rw [List.append_assoc] at rest
    exact Reads.bind first rest

end QuantumFs.Lib
