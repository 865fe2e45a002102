import QuantumFs.Lib.BigEndian
import QuantumFs.Lib.Collections

/-! Identifiers, counters and the error type shared by every module of the
backend. Identifiers are 32 raw bytes ordered as unsigned big-endian numbers. -/
namespace QuantumFs

open Lib

structure PeerId where
  val : Fin (2 ^ 256)
deriving DecidableEq

structure FileId where
  val : Fin (2 ^ 256)
deriving DecidableEq

structure ChunkId where
  val : Fin (2 ^ 256)
deriving DecidableEq

instance : LinearOrder PeerId := LinearOrder.lift' PeerId.val fun a b h => by
  cases a; cases b; simpa using h

instance : LinearOrder FileId := LinearOrder.lift' FileId.val fun a b h => by
  cases a; cases b; simpa using h

instance : LinearOrder ChunkId := LinearOrder.lift' ChunkId.val fun a b h => by
  cases a; cases b; simpa using h

/-- The raw bytes of an identifier on the wire and on disk. -/
def idBytes (value : Fin (2 ^ 256)) : Bytes := toBE 32 value.val

@[simp] theorem length_idBytes (value : Fin (2 ^ 256)) : (idBytes value).length = 32 := by
  simp [idBytes]

structure VaultId where
  val : Fin (2 ^ 256)
deriving DecidableEq

structure JoinCode where
  val : Fin (2 ^ 128)
deriving DecidableEq

instance : LinearOrder VaultId := LinearOrder.lift' VaultId.val fun a b h => by
  cases a; cases b; simpa using h

instance : LinearOrder JoinCode := LinearOrder.lift' JoinCode.val fun a b h => by
  cases a; cases b; simpa using h

inductive Error where
  | notImplemented (operation : String)
  | invalidInput (message : String)
  | authenticationFailed
  | keyUnavailable
  | state (message : String)
  | replayRejected
  | epochConflict (retryEpoch : Nat)
  | vaultSessionConflict (peerId : PeerId) (bound requested : VaultId)
  | io
deriving DecidableEq

abbrev Result (α : Type) : Type := Except Error α

/-- The largest `u64`; counters are naturals and every addition is checked. -/
def u64Max : Nat := 2 ^ 64 - 1

/-- `checked_add` on `u64`, with the error the caller raises on overflow. -/
def checkedAdd (left right : Nat) (overflow : Error) : Result Nat :=
  if left + right ≤ u64Max then .ok (left + right) else .error overflow

theorem checkedAdd_eq_ok {left right result : Nat} {overflow : Error} :
    checkedAdd left right overflow = .ok result ↔
      left + right ≤ u64Max ∧ result = left + right := by
  unfold checkedAdd
  split
  · rename_i h
    simp [h, eq_comm]
  · rename_i h
    simp [h]

/-- `Result` guards: the error is returned unless the condition holds. -/
def ensure (p : Prop) [Decidable p] (error : Error) : Result Unit :=
  if p then .ok () else .error error

@[simp] theorem ensure_eq_ok {p : Prop} [Decidable p] {error : Error} {u : Unit} :
    ensure p error = .ok u ↔ p := by
  unfold ensure
  split <;> simp_all

theorem ensure_bind {α : Type} {p : Prop} [Decidable p] {error : Error} {next : Unit → Result α}
    (h : p) : (ensure p error >>= next) = next () := by
  rw [show ensure p error = .ok () from ensure_eq_ok.mpr h]
  rfl

/-- `ok_or`: a missing value is an error. -/
def okOr {α : Type} (value : Option α) (error : Error) : Result α :=
  match value with
  | some a => .ok a
  | none => .error error

@[simp] theorem okOr_eq_ok {α : Type} {value : Option α} {error : Error} {a : α} :
    okOr value error = .ok a ↔ value = some a := by
  cases value <;> simp [okOr]

theorem Result.bind_eq_ok {α β : Type} {x : Result α} {f : α → Result β} {b : β} :
    (x >>= f) = .ok b ↔ ∃ a, x = .ok a ∧ f a = .ok b := by
  cases x <;> simp [bind, Except.bind]

@[simp] theorem Result.bind_eq_error {α β : Type} {x : Result α} {f : α → Result β} {e : Error} :
    (x >>= f) = .error e ↔ x = .error e ∨ ∃ a, x = .ok a ∧ f a = .error e := by
  cases x <;> simp [bind, Except.bind]

@[simp] theorem ensure_eq_error {p : Prop} [Decidable p] {error e : Error} :
    ensure p error = .error e ↔ ¬ p ∧ error = e := by
  unfold ensure
  split <;> simp_all

@[simp] theorem okOr_eq_error {α : Type} {value : Option α} {error e : Error} :
    okOr value error = .error e ↔ value = none ∧ error = e := by
  cases value <;> simp [okOr]

theorem Result.mapM_some_eq_ok {α β : Type} {f : α → Result β} {x : α} {y : Option β} :
    (some x).mapM f = .ok y ↔ ∃ b, f x = .ok b ∧ some b = y := by
  change (f x >>= fun b => Except.ok (some b)) = .ok y ↔ _
  simp only [Result.bind_eq_ok, Except.ok.injEq]

theorem Result.forM_eq_ok {α : Type} {f : α → Result Unit} {xs : List α} :
    xs.forM f = .ok () ↔ ∀ x ∈ xs, f x = .ok () := by
  induction xs with
  | nil => simp [pure, Except.pure]
  | cons x xs ih =>
    change (f x >>= fun _ => xs.forM f) = .ok () ↔ _
    rw [Result.bind_eq_ok, List.forall_mem_cons, ← ih]
    exact ⟨fun ⟨_, hx, hxs⟩ => ⟨hx, hxs⟩, fun ⟨hx, hxs⟩ => ⟨(), hx, hxs⟩⟩

theorem Result.mapM_eq_ok {α β : Type} {f : α → Result β} {xs : List α} {ys : List β} :
    xs.mapM f = .ok ys ↔ List.Forall₂ (fun x y => f x = .ok y) xs ys := by
  induction xs generalizing ys with
  | nil => cases ys <;> simp [pure, Except.pure]
  | cons x xs ih =>
    rw [List.mapM_cons]
    simp only [Result.bind_eq_ok, pure, Except.pure]
    cases ys with
    | nil => simp
    | cons y ys =>
      simp only [List.forall₂_cons, ← ih, Except.ok.injEq, List.cons.injEq]
      constructor
      · rintro ⟨_, hx, _, hxs, rfl, rfl⟩
        exact ⟨hx, hxs⟩
      · rintro ⟨hx, hxs⟩
        exact ⟨y, hx, ys, hxs, rfl, rfl⟩

theorem Result.toOption_eq_some {α : Type} {r : Result α} {a : α} (h : r.toOption = some a) :
    r = .ok a := by
  cases r with
  | ok b => exact congrArg Except.ok (Option.some.inj h)
  | error e => cases h

theorem Result.mem_mapM_eq_ok {α β : Type} {f : α → Result β} {xs : List α} {ys : List β} {y : β}
    (h : xs.mapM f = .ok ys) (mem : y ∈ ys) : ∃ x ∈ xs, f x = .ok y := by
  have pairs := Result.mapM_eq_ok.mp h
  clear h
  induction pairs with
  | nil => cases mem
  | @cons x z xs ys first _ ih =>
    obtain rfl | mem := List.mem_cons.mp mem
    · exact ⟨x, List.mem_cons_self, first⟩
    · obtain ⟨x, inside, ok⟩ := ih mem
      exact ⟨x, List.mem_cons_of_mem _ inside, ok⟩

theorem Result.of_mem_mapM_eq_ok {α β : Type} {f : α → Result β} {xs : List α} {ys : List β} {x : α}
    (h : xs.mapM f = .ok ys) (mem : x ∈ xs) : ∃ y ∈ ys, f x = .ok y := by
  have pairs := Result.mapM_eq_ok.mp h
  clear h
  induction pairs with
  | nil => cases mem
  | @cons z y xs ys first _ ih =>
    obtain rfl | mem := List.mem_cons.mp mem
    · exact ⟨y, List.mem_cons_self, first⟩
    · obtain ⟨y, inside, ok⟩ := ih mem
      exact ⟨y, List.mem_cons_of_mem _ inside, ok⟩

theorem Result.exists_mapM {α β : Type} {f : α → Result β} {xs : List α} :
    (∃ ys, xs.mapM f = .ok ys) ↔ ∀ x ∈ xs, ∃ y, f x = .ok y := by
  constructor
  · rintro ⟨ys, ok⟩ x mem
    obtain ⟨y, -, step⟩ := Result.of_mem_mapM_eq_ok ok mem
    exact ⟨y, step⟩
  · intro each
    simp only [Result.mapM_eq_ok]
    induction xs with
    | nil => exact ⟨[], .nil⟩
    | cons x xs ih =>
      obtain ⟨y, step⟩ := each x List.mem_cons_self
      obtain ⟨ys, rest⟩ := ih fun x' mem => each x' (List.mem_cons_of_mem _ mem)
      exact ⟨y :: ys, .cons step rest⟩

theorem Result.foldlM_preserves {α σ : Type} {f : σ → α → Result σ} {I : σ → Prop}
    (step : ∀ s x t, I s → f s x = .ok t → I t) :
    ∀ {xs : List α} {s t : σ}, I s → xs.foldlM f s = .ok t → I t := by
  intro xs
  induction xs with
  | nil =>
    intro s t known done
    cases done
    exact known
  | cons x xs ih =>
    intro s t known fold
    rw [List.foldlM_cons] at fold
    obtain ⟨next, first, rest⟩ := Result.bind_eq_ok.mp fold
    exact ih (step s x next known first) rest

theorem Result.map_of_mapM {α β γ : Type} {f : α → Result β} {g : β → γ} {k : α → γ}
    (h : ∀ x y, f x = .ok y → g y = k x) {xs : List α} {ys : List β}
    (ok : xs.mapM f = .ok ys) : ys.map g = xs.map k := by
  have pairs := Result.mapM_eq_ok.mp ok
  induction pairs with
  | nil => rfl
  | cons step _ ih => simp only [List.map_cons, h _ _ step, ih (Result.mapM_eq_ok.mpr ‹_›)]

end QuantumFs
