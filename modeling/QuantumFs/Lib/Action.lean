import Mathlib

/-! Methods on a mutable receiver that return a result. An error leaves behind
the receiver as far as the method had changed it, so a rollback is explicit
code and never a property of the monad. -/
namespace QuantumFs.Lib

/-- A method on `&mut self` that can fail. -/
def Action (ε σ α : Type) : Type := σ → Except ε α × σ

namespace Action

variable {ε σ τ α β : Type}

instance : Monad (Action ε σ) where
  pure a := fun s => (.ok a, s)
  bind x f := fun s =>
    match x s with
    | (.ok a, t) => f a t
    | (.error e, t) => (.error e, t)

private theorem bind_assoc_apply {γ : Type} (x : Action ε σ α) (f : α → Action ε σ β)
    (g : β → Action ε σ γ) : x >>= f >>= g = x >>= fun a => f a >>= g := by
  funext s
  change (match (match x s with | (.ok a, t) => f a t | (.error e, t) => (.error e, t)) with
    | (.ok b, t) => g b t | (.error e, t) => (.error e, t)) =
      match x s with | (.ok a, t) => (f a >>= g) t | (.error e, t) => (.error e, t)
  generalize x s = outcome
  obtain ⟨r, t⟩ := outcome
  cases r <;> rfl

instance : LawfulMonad (Action ε σ) := by
  refine LawfulMonad.mk' _ ?_ (fun _ _ => rfl) bind_assoc_apply
  intro α x
  funext s
  change (match x s with | (.ok a, t) => (Except.ok a, t) | (.error e, t) => (.error e, t)) = x s
  generalize x s = outcome
  obtain ⟨r, t⟩ := outcome
  cases r <;> rfl

/-- Lift a computation that neither reads nor changes the receiver. -/
def ofExcept (x : Except ε α) : Action ε σ α := fun s => (x, s)

def get : Action ε σ σ := fun s => (.ok s, s)

def modify (f : σ → σ) : Action ε σ Unit := fun s => (.ok (), f s)

def throw (e : ε) : Action ε σ α := fun s => (.error e, s)

/-- Read the receiver with a fallible query. -/
def query (f : σ → Except ε α) : Action ε σ α := fun s => (f s, s)

def require (p : Prop) [Decidable p] (e : ε) : Action ε σ Unit :=
  if p then pure () else throw e

def zoom (get : σ → τ) (put : τ → σ → σ) (x : Action ε τ α) : Action ε σ α := fun s =>
  ((x (get s)).1, put (x (get s)).2 s)

/-- Run to the end and return the outcome as a value. -/
def attempt (x : Action ε σ α) : Action ε σ (Except ε α) := fun s => (.ok (x s).1, (x s).2)

def forEach : List α → (α → Action ε σ Unit) → Action ε σ Unit
  | [], _ => pure ()
  | x :: xs, body => do
      body x
      forEach xs body

/-- `iter_mut`: replace every element in place; an error leaves the rest as it was. -/
def updateEach (f : α → Action ε σ α) : List α → σ → Except ε Unit × σ × List α
  | [], s => (.ok (), s, [])
  | x :: xs, s =>
    match f x s with
    | (.ok y, t) =>
      let rest := updateEach f xs t
      (rest.1, rest.2.1, y :: rest.2.2)
    | (.error e, t) => (.error e, t, x :: xs)

/-- Undo what the first method did to shared state when it fails, and fail with
its error. -/
def orElseUndo (x : Action ε σ α) (undo : Action ε σ Unit) : Action ε σ α := do
  let outcome ← attempt x
  match outcome with
  | .ok a => pure a
  | .error e => do
      undo
      throw e

@[simp] theorem pure_apply (a : α) (s : σ) : (pure a : Action ε σ α) s = (.ok a, s) := rfl

theorem bind_apply (x : Action ε σ α) (f : α → Action ε σ β) (s : σ) :
    (x >>= f) s = match x s with
      | (.ok a, t) => f a t
      | (.error e, t) => (.error e, t) := rfl

theorem bind_ok {x : Action ε σ α} {f : α → Action ε σ β} {s t : σ} {a : α}
    (h : x s = (.ok a, t)) : (x >>= f) s = f a t := by
  rw [bind_apply, h]

theorem bind_error {x : Action ε σ α} {f : α → Action ε σ β} {s t : σ} {e : ε}
    (h : x s = (.error e, t)) : (x >>= f) s = (.error e, t) := by
  rw [bind_apply, h]

@[simp] theorem ofExcept_apply (x : Except ε α) (s : σ) :
    (ofExcept x : Action ε σ α) s = (x, s) := rfl

@[simp] theorem get_apply (s : σ) : (get : Action ε σ σ) s = (.ok s, s) := rfl

@[simp] theorem modify_apply (f : σ → σ) (s : σ) :
    (modify f : Action ε σ Unit) s = (.ok (), f s) := rfl

@[simp] theorem throw_apply (e : ε) (s : σ) : (throw e : Action ε σ α) s = (.error e, s) := rfl

@[simp] theorem query_apply (f : σ → Except ε α) (s : σ) :
    (query f : Action ε σ α) s = (f s, s) := rfl

@[simp] theorem zoom_apply (g : σ → τ) (p : τ → σ → σ) (x : Action ε τ α) (s : σ) :
    zoom g p x s = ((x (g s)).1, p (x (g s)).2 s) := rfl

@[simp] theorem attempt_apply (x : Action ε σ α) (s : σ) :
    attempt x s = (.ok (x s).1, (x s).2) := rfl

theorem require_eq_ok (p : Prop) [Decidable p] (e : ε) (s t : σ) :
    (require p e : Action ε σ Unit) s = (.ok (), t) ↔ p ∧ t = s := by
  unfold require
  split
  · rename_i hp
    simp [hp, eq_comm]
  · rename_i hp
    simp [hp]

theorem bind_eq_ok {x : Action ε σ α} {f : α → Action ε σ β} {s t : σ} {b : β} :
    (x >>= f) s = (.ok b, t) ↔ ∃ a u, x s = (.ok a, u) ∧ f a u = (.ok b, t) := by
  rw [bind_apply]
  constructor
  · intro h
    split at h
    · rename_i a u hx
      exact ⟨a, u, hx, h⟩
    · simp at h
  · rintro ⟨a, u, hx, hf⟩
    rw [hx]
    exact hf

theorem ofExcept_eq_ok {x : Except ε α} {s t : σ} {a : α} :
    (ofExcept x : Action ε σ α) s = (.ok a, t) ↔ x = .ok a ∧ t = s := by
  simp [eq_comm]

theorem zoom_eq_ok {g : σ → τ} {p : τ → σ → σ} {x : Action ε τ α} {s t : σ} {a : α} :
    zoom g p x s = (.ok a, t) ↔ ∃ u, x (g s) = (.ok a, u) ∧ t = p u s := by
  constructor
  · intro h
    rw [zoom_apply, Prod.mk.injEq] at h
    exact ⟨(x (g s)).2, Prod.ext h.1 rfl, h.2.symm⟩
  · rintro ⟨u, hx, rfl⟩
    simp [hx]

/-- The method leaves the observation `f` of its receiver as it was, whatever
its outcome. -/
def Keeps (f : σ → β) (x : Action ε σ α) : Prop := ∀ s, f (x s).2 = f s

namespace Keeps

variable {f : σ → τ}

theorem of_ok {x : Action ε σ α} (h : Keeps f x) {s t : σ} {a : α} (hx : x s = (.ok a, t)) :
    f t = f s := by
  have := h s
  rwa [hx] at this

theorem map (g : τ → β) {x : Action ε σ α} (h : Keeps f x) : Keeps (fun s => g (f s)) x :=
  fun s => congrArg g (h s)

theorem pure (a : α) : Keeps (ε := ε) f (Pure.pure a : Action ε σ α) := fun _ => rfl

theorem ofExcept (x : Except ε α) : Keeps f (Action.ofExcept x : Action ε σ α) := fun _ => rfl

theorem query (g : σ → Except ε α) : Keeps f (Action.query g) := fun _ => rfl

theorem bind {x : Action ε σ α} {g : α → Action ε σ β} (hx : Keeps f x)
    (hg : ∀ a, Keeps f (g a)) : Keeps f (x >>= g) := by
  intro s
  rw [bind_apply]
  have h := hx s
  split
  · rename_i a t hxs
    rw [hg a t]
    rwa [hxs] at h
  · rename_i e t hxs
    rwa [hxs] at h

theorem require (p : Prop) [Decidable p] (e : ε) : Keeps f (Action.require p e) := by
  intro s
  unfold Action.require
  split <;> rfl

theorem forEach {xs : List α} {body : α → Action ε σ Unit} (h : ∀ x ∈ xs, Keeps f (body x)) :
    Keeps f (Action.forEach xs body) := by
  induction xs with
  | nil => exact Keeps.pure ()
  | cons x xs ih =>
    exact Keeps.bind (h x (by simp)) fun _ => ih fun y hy => h y (by simp [hy])

theorem foldlM {body : β → α → Action ε σ β} {xs : List α} (h : ∀ b x, Keeps f (body b x)) :
    ∀ {b : β}, Keeps f (xs.foldlM body b) := by
  induction xs with
  | nil => exact Keeps.pure _
  | cons x xs ih =>
    intro b
    rw [List.foldlM_cons]
    exact Keeps.bind (h b x) fun _ => ih

theorem mapM {body : α → Action ε σ β} {xs : List α} (h : ∀ x, Keeps f (body x)) :
    Keeps f (xs.mapM body) := by
  induction xs with
  | nil => exact Keeps.pure _
  | cons x xs ih =>
    rw [List.mapM_cons]
    exact Keeps.bind (h x) fun _ => Keeps.bind ih fun _ => Keeps.pure _

theorem modify {g : σ → σ} (h : ∀ s, f (g s) = f s) : Keeps (ε := ε) f (Action.modify g) := h

theorem get : Keeps (ε := ε) f (Action.get : Action ε σ σ) := fun _ => rfl

theorem ite {p : Prop} [Decidable p] {x y : Action ε σ α} (hx : Keeps f x) (hy : Keeps f y) :
    Keeps f (if p then x else y) := by
  split
  · exact hx
  · exact hy

theorem orElseUndo {x : Action ε σ α} {undo : Action ε σ Unit} (hx : Keeps f x)
    (hundo : Keeps f undo) : Keeps f (Action.orElseUndo x undo) := by
  unfold Action.orElseUndo
  refine bind (fun s => hx s) fun outcome => ?_
  cases outcome with
  | ok a => exact pure a
  | error e => exact bind hundo fun _ => fun _ => rfl

end Keeps

def Preserves (I : σ → Prop) (x : Action ε σ α) : Prop := ∀ s, I s → I (x s).2

namespace Preserves

variable {I : σ → Prop}

theorem pure (a : α) : Preserves I (Pure.pure a : Action ε σ α) := fun _ known => known

theorem ofExcept (x : Except ε α) : Preserves I (Action.ofExcept x : Action ε σ α) :=
  fun _ known => known

theorem query (g : σ → Except ε α) : Preserves I (Action.query g) := fun _ known => known

theorem get : Preserves I (Action.get : Action ε σ σ) := fun _ known => known

theorem modify {g : σ → σ} (h : ∀ s, I s → I (g s)) :
    Preserves I (Action.modify g : Action ε σ Unit) := h

theorem require (p : Prop) [Decidable p] (e : ε) : Preserves I (Action.require p e) := by
  intro s known
  unfold Action.require
  split <;> exact known

theorem bind {x : Action ε σ α} {f : α → Action ε σ β} (hx : Preserves I x)
    (hf : ∀ a, Preserves I (f a)) : Preserves I (x >>= f) := by
  intro s known
  rw [bind_apply]
  have first := hx s known
  generalize x s = result at first
  obtain ⟨r, t⟩ := result
  cases r with
  | ok a => exact hf a t first
  | error e => exact first

theorem get_bind {f : σ → Action ε σ β} (h : ∀ s, I s → I (f s s).2) :
    Preserves I (Action.get >>= f) := h

theorem ite {p : Prop} [Decidable p] {x y : Action ε σ α} (hx : p → Preserves I x)
    (hy : ¬ p → Preserves I y) : Preserves I (if p then x else y) := by
  split
  · rename_i h
    exact hx h
  · rename_i h
    exact hy h

theorem forEach {xs : List α} {body : α → Action ε σ Unit}
    (h : ∀ x ∈ xs, Preserves I (body x)) : Preserves I (Action.forEach xs body) := by
  induction xs with
  | nil => exact pure ()
  | cons x xs ih =>
    refine bind (h x List.mem_cons_self) fun _ => ih fun y mem => ?_
    exact h y (List.mem_cons_of_mem _ mem)

theorem foldlM {body : β → α → Action ε σ β} {xs : List α}
    (h : ∀ b, ∀ x ∈ xs, Preserves I (body b x)) : ∀ {b : β}, Preserves I (xs.foldlM body b) := by
  induction xs with
  | nil => exact pure _
  | cons x xs ih =>
    intro b
    rw [List.foldlM_cons]
    refine bind (h b x List.mem_cons_self) fun _ => ih fun b y mem => ?_
    exact h b y (List.mem_cons_of_mem _ mem)

end Preserves

def Avoids (e : ε) (x : Action ε σ α) : Prop := ∀ s, (x s).1 ≠ .error e

namespace Avoids

variable {e : ε}

theorem pure (a : α) : Avoids e (Pure.pure a : Action ε σ α) := nofun

theorem ofExcept {x : Except ε α} (h : x ≠ .error e) :
    Avoids e (Action.ofExcept x : Action ε σ α) := fun _ => h

theorem query {g : σ → Except ε α} (h : ∀ s, g s ≠ .error e) : Avoids e (Action.query g) := h

theorem modify (g : σ → σ) : Avoids e (Action.modify g) := nofun

theorem get : Avoids e (Action.get : Action ε σ σ) := nofun

theorem require {p : Prop} [Decidable p] {other : ε} (h : other ≠ e) :
    Avoids e (Action.require p other : Action ε σ Unit) := by
  intro s
  unfold Action.require
  split
  · nofun
  · exact fun same => h (Except.error.inj same)

theorem bind {x : Action ε σ α} {f : α → Action ε σ β} (hx : Avoids e x)
    (hf : ∀ a, Avoids e (f a)) : Avoids e (x >>= f) := by
  intro s
  rw [bind_apply]
  have first := hx s
  split
  · exact hf _ _
  · rename_i outcome
    rw [outcome] at first
    exact fun same => first (congrArg Except.error (Except.error.inj same))

theorem zoom {g : σ → τ} {p : τ → σ → σ} {x : Action ε τ α} (h : Avoids e x) :
    Avoids e (Action.zoom g p x) := fun s => h (g s)

theorem forEach_of_keeps {body : α → Action ε σ Unit} {obs : σ → τ}
    (keeps : ∀ x, Keeps obs (body x)) {v : τ}
    (step : ∀ x s, obs s = v → (body x s).1 ≠ .error e) (xs : List α) :
    ∀ s, obs s = v → (forEach xs body s).1 ≠ .error e := by
  induction xs with
  | nil => nofun
  | cons x xs ih =>
    intro s known
    change ((body x >>= fun _ => forEach xs body) s).1 ≠ _
    rw [bind_apply]
    have first := step x s known
    have same := keeps x s
    generalize body x s = result at first same
    obtain ⟨r, t⟩ := result
    cases r with
    | ok _ => exact ih t (same.trans known)
    | error other => exact first

end Avoids

theorem updateEach_map {f : α → Action ε σ α} {g : α → β}
    (h : ∀ x s y t, f x s = (.ok y, t) → g y = g x) (xs : List α) (s : σ) :
    (updateEach f xs s).2.2.map g = xs.map g := by
  induction xs generalizing s with
  | nil => rfl
  | cons x xs ih =>
    unfold updateEach
    generalize outcome : f x s = result
    obtain ⟨r, t⟩ := result
    cases r with
    | ok y => simp only [List.map_cons, h x s y t outcome, ih]
    | error e => rfl

theorem updateEach_avoids {f : α → Action ε σ α} {e : ε} {xs : List α}
    (h : ∀ x ∈ xs, Avoids e (f x)) (s : σ) : (updateEach f xs s).1 ≠ .error e := by
  induction xs generalizing s with
  | nil => nofun
  | cons x xs ih =>
    unfold updateEach
    have first := h x List.mem_cons_self s
    generalize f x s = result at first ⊢
    obtain ⟨r, t⟩ := result
    cases r with
    | ok y => exact ih (fun later mem => h later (List.mem_cons_of_mem _ mem)) t
    | error other => exact fun same => first (congrArg Except.error (Except.error.inj same))

theorem updateEach_keeps {f : α → Action ε σ α} {obs : σ → τ} (h : ∀ x, Keeps obs (f x))
    (xs : List α) (s : σ) : obs (updateEach f xs s).2.1 = obs s := by
  induction xs generalizing s with
  | nil => rfl
  | cons x xs ih =>
    unfold updateEach
    have first := h x s
    generalize f x s = result at first ⊢
    obtain ⟨r, t⟩ := result
    cases r with
    | ok y => exact (ih t).trans first
    | error e => exact first

theorem mapM_forall₂ {f : α → Action ε σ β} {R : α → β → Prop}
    (h : ∀ x s y t, f x s = (.ok y, t) → R x y) {xs : List α} :
    ∀ {ys : List β} {s t : σ}, xs.mapM f s = (.ok ys, t) → List.Forall₂ R xs ys := by
  induction xs with
  | nil =>
    intro ys s t done
    cases done
    exact .nil
  | cons x xs ih =>
    intro ys s t done
    rw [List.mapM_cons] at done
    obtain ⟨y, _, first, done⟩ := bind_eq_ok.mp done
    obtain ⟨rest, _, others, done⟩ := bind_eq_ok.mp done
    cases done
    exact .cons (h x _ y _ first) (ih others)

theorem mapM_avoids {f : α → Action ε σ β} {e : ε} {xs : List α} (h : ∀ x ∈ xs, Avoids e (f x)) :
    Avoids e (xs.mapM f) := by
  induction xs with
  | nil => exact .pure _
  | cons x xs ih =>
    rw [List.mapM_cons]
    refine .bind (h x List.mem_cons_self) fun _ => ?_
    exact .bind (ih fun later mem => h later (List.mem_cons_of_mem _ mem)) fun _ => .pure _

/-- The outcome of `x` from `s`, result and receiver together, satisfies `Q`. The rules
run a method statement by statement. -/
def Ensures (x : Action ε σ α) (s : σ) (Q : Except ε α → σ → Prop) : Prop := Q (x s).1 (x s).2

def Ends (ok : α → σ → Prop) (error : ε → σ → Prop) : Except ε α → σ → Prop
  | .ok a, s => ok a s
  | .error e, s => error e s

namespace Ensures

variable {x : Action ε σ α} {f : α → Action ε σ β} {s : σ} {Q : Except ε β → σ → Prop}

theorem bind (h : Ensures x s fun r t => match r with
    | .ok a => Ensures (f a) t Q
    | .error e => Q (.error e) t) : Ensures (x >>= f) s Q := by
  unfold Ensures at h ⊢
  rw [bind_apply]
  generalize x s = outcome at h ⊢
  obtain ⟨r, t⟩ := outcome
  cases r with
  | ok a => exact h
  | error e => exact h

theorem ofExcept {y : Except ε α} (err : ∀ e, y = .error e → Q (.error e) s)
    (ok : ∀ a, y = .ok a → Ensures (f a) s Q) : Ensures (Action.ofExcept y >>= f) s Q := by
  apply bind
  unfold Ensures
  rw [ofExcept_apply]
  cases y with
  | ok a => exact ok a rfl
  | error e => exact err e rfl

theorem query {g : σ → Except ε α} (err : ∀ e, g s = .error e → Q (.error e) s)
    (ok : ∀ a, g s = .ok a → Ensures (f a) s Q) : Ensures (Action.query g >>= f) s Q := by
  apply bind
  unfold Ensures
  rw [query_apply]
  cases h : g s with
  | ok a => exact ok a h
  | error e => exact err e h

theorem require {p : Prop} [Decidable p] {e : ε} {f : Unit → Action ε σ β}
    (err : ¬ p → Q (.error e) s) (ok : p → Ensures (f ()) s Q) :
    Ensures (Action.require p e >>= f) s Q := by
  apply bind
  unfold Ensures Action.require
  by_cases h : p
  · rw [if_pos h]
    exact ok h
  · rw [if_neg h]
    exact err h

theorem get {f : σ → Action ε σ β} (h : Ensures (f s) s Q) : Ensures (Action.get >>= f) s Q :=
  bind h

theorem modify {g : σ → σ} {f : Unit → Action ε σ β} (h : Ensures (f ()) (g s) Q) :
    Ensures (Action.modify g >>= f) s Q :=
  bind h

theorem mono {R : Except ε α → σ → Prop} (h : Ensures x s R) {Q : Except ε α → σ → Prop}
    (imp : ∀ r t, R r t → Q r t) : Ensures x s Q := imp _ _ h

theorem pure {a : α} {Q : Except ε α → σ → Prop} (h : Q (.ok a) s) :
    Ensures (Pure.pure a : Action ε σ α) s Q := h

theorem throw {e : ε} {Q : Except ε α → σ → Prop} (h : Q (.error e) s) :
    Ensures (Action.throw e : Action ε σ α) s Q := h

theorem and {P Q : Except ε α → σ → Prop} (first : Ensures x s P) (second : Ensures x s Q) :
    Ensures x s fun r t => P r t ∧ Q r t := ⟨first, second⟩

theorem of_keeps {obs : σ → τ} (h : Keeps obs x) : Ensures x s fun _ t => obs t = obs s := h s

theorem keeps {obs : σ → τ} (h : Keeps obs x)
    (err : ∀ e t, x s = (.error e, t) → obs t = obs s → Q (.error e) t)
    (ok : ∀ a t, x s = (.ok a, t) → obs t = obs s → Ensures (f a) t Q) :
    Ensures (x >>= f) s Q := by
  apply bind
  unfold Ensures
  have same := h s
  generalize outcome : x s = result at same
  obtain ⟨r, t⟩ := result
  cases r with
  | ok a => exact ok a t outcome same
  | error e => exact err e t outcome same

theorem ite {p : Prop} [Decidable p] {x y : Action ε σ α} {Q : Except ε α → σ → Prop}
    (hx : p → Ensures x s Q) (hy : ¬ p → Ensures y s Q) : Ensures (if p then x else y) s Q := by
  split
  · rename_i h
    exact hx h
  · rename_i h
    exact hy h

theorem next {R : Except ε α → σ → Prop} (h : Ensures x s R)
    (err : ∀ e t, R (.error e) t → Q (.error e) t)
    (ok : ∀ a t, R (.ok a) t → Ensures (f a) t Q) : Ensures (x >>= f) s Q := by
  refine bind (mono h fun r t known => ?_)
  cases r with
  | ok a => exact ok a t known
  | error e => exact err e t known

theorem zoom {g : σ → τ} {p : τ → σ → σ} {y : Action ε τ α} {R : Except ε α → τ → Prop}
    (h : Ensures y (g s) R) (err : ∀ e u, R (.error e) u → Q (.error e) (p u s))
    (ok : ∀ a u, R (.ok a) u → Ensures (f a) (p u s) Q) : Ensures (Action.zoom g p y >>= f) s Q := by
  have known : Ensures (Action.zoom g p y) s fun r t => ∃ u, R r u ∧ t = p u s := ⟨_, h, rfl⟩
  refine next known ?_ ?_
  · rintro e _ ⟨u, known, rfl⟩
    exact err e u known
  · rintro a _ ⟨u, known, rfl⟩
    exact ok a u known

theorem orElseUndo {undo : Action ε σ Unit} {Q : Except ε α → σ → Prop}
    (h : Ensures x s fun r t => match r with
      | .ok a => Q (.ok a) t
      | .error e => Ensures undo t fun r u => match r with
        | .ok _ => Q (.error e) u
        | .error e => Q (.error e) u) :
    Ensures (Action.orElseUndo x undo) s Q := by
  rw [Ensures] at h
  unfold Action.orElseUndo
  apply bind
  rw [Ensures, attempt_apply]
  generalize x s = outcome at h ⊢
  obtain ⟨r, t⟩ := outcome
  cases r with
  | ok a => exact h
  | error e =>
    refine bind (mono h fun r u done => ?_)
    cases r with
    | ok _ => exact done
    | error e => exact done

/-- A loop with an accumulator: what each round keeps holds at its end. -/
theorem foldlM {body : β → α → Action ε σ β} {I : β → σ → Prop} {E : ε → σ → Prop} {xs : List α}
    (step : ∀ b s, ∀ x ∈ xs, I b s → Ensures (body b x) s (Ends I E)) :
    ∀ {b : β} {s : σ}, I b s → Ensures (xs.foldlM body b) s (Ends I E) := by
  induction xs with
  | nil => exact fun known => known
  | cons x xs ih =>
    intro b s known
    rw [List.foldlM_cons]
    refine bind (mono (step b s x List.mem_cons_self known) fun r t first => ?_)
    cases r with
    | ok b => exact ih (fun b s x mem => step b s x (List.mem_cons_of_mem _ mem)) first
    | error e => exact first

/-- A loop that visits each key once, each round touching only its own key. -/
theorem forEach_local [DecidableEq α] {body : α → Action ε σ Unit} {look : σ → α → τ}
    {R : α → τ → τ → Prop} (I : σ → Prop)
    (step : ∀ x s, I s → Ensures (body x) s fun r t => I t ∧ (r = .ok () →
      (∀ y, y ≠ x → look t y = look s y) ∧ R x (look s x) (look t x))) :
    ∀ {xs : List α} {s : σ}, xs.Nodup → I s → Ensures (Action.forEach xs body) s fun r t =>
      I t ∧ (r = .ok () → ∀ y, if y ∈ xs then R y (look s y) (look t y)
        else look t y = look s y) := by
  intro xs
  induction xs with
  | nil =>
    refine fun _ inv => ⟨inv, fun _ y => ?_⟩
    rw [if_neg List.not_mem_nil]
    rfl
  | cons x xs ih =>
    intro s nodup inv
    obtain ⟨fresh, nodup⟩ := List.nodup_cons.mp nodup
    refine bind (mono (step x s inv) fun r t first => ?_)
    cases r with
    | error e => exact ⟨first.1, nofun⟩
    | ok _ =>
      refine mono (ih nodup first.1) fun r u rest => ⟨rest.1, fun ok y => ?_⟩
      obtain ⟨others, own⟩ := first.2 rfl
      have later := rest.2 ok y
      by_cases same : y = x
      · subst same
        rw [if_neg fresh] at later
        simpa [later] using own
      · simp only [List.mem_cons, same, false_or]
        rwa [others y same] at later

end Ensures

end Action

end QuantumFs.Lib
