import QuantumFs.Client.Commands

/-! A command whose jobs are each one update, run while no other task acts: the replica of the task is
the tree of the host each time it sends. -/
namespace QuantumFs.Client

open Lib Store DirectoryTree

def Job.Single : Job → Prop
  | .rename .. | .unlink _ => True
  | _ => False

section

variable [Lowercase]

def carry (nodes : List Node) (host : HostTree) (job : Job) : Option HostTree :=
  match (Task.mk host.tree nodes [] none).step host.tree.expectedRoot [] job with
  | some (.send flight) => (host.apply flight.update).toOption
  | _ => none

/-- The jobs in turn until one fails; whether none did, and what the host has then. -/
def carryAll (nodes : List Node) : HostTree → List Job → Bool × HostTree
  | host, [] => (true, host)
  | host, job :: jobs =>
    match carry nodes host job with
    | some next => carryAll nodes next jobs
    | none => (false, host)

/-- A task sends its next update and hears what the host has made of it. -/
def Fleet.round (fleet : Fleet) (i : Nat) : Fleet :=
  (fleet.exec (.work i fleet.host.tree.expectedRoot [])).exec (.commit i true true)

theorem step_single {job : Job} (single : job.Single) (task : Task) (child : FileId) (bodies : Content) :
    task.step child bodies job = none ∨
      ∃ update beside, task.step child bodies job = some (.send ⟨update, beside, false, []⟩) := by
  cases job with
  | unlink path =>
    cases found : (task.replica.resolveParent path).toOption with
    | none => simp [Task.step, found]
    | some place => simp [Task.step, found]
  | rename source target =>
    cases found : (task.replica.resolveParent source).toOption with
    | none => simp [Task.step, found]
    | some place =>
      cases found' : (task.replica.resolveParent target.path).toOption with
      | none => simp [Task.step, found, found']
      | some place' => simp [Task.step, found, found']
  | _ => exact single.elim

theorem carry_round {fleet : Fleet} {i : Nat} {nodes : List Node} {job : Job} {jobs : List Job} (single : job.Single)
    (alone : fleet.tasks i = ⟨fleet.host.tree, nodes, job :: jobs, none⟩) :
    match carry nodes fleet.host job with
    | some host => (fleet.round i).host = host ∧ (fleet.round i).tasks i = ⟨host.tree, nodes, jobs, none⟩
    | none => (fleet.round i).host = fleet.host ∧ (fleet.round i).tasks i = ⟨fleet.host.tree, nodes, [], none⟩ := by
  have same : (Task.mk fleet.host.tree nodes (job :: jobs) none).step fleet.host.tree.expectedRoot [] job =
      (Task.mk fleet.host.tree nodes [] none).step fleet.host.tree.expectedRoot [] job := by
    cases job <;> rfl
  unfold Fleet.round carry
  obtain stuck | ⟨update, beside, sent⟩ :=
    step_single single ⟨fleet.host.tree, nodes, [], none⟩ fleet.host.tree.expectedRoot []
  · rw [stuck]
    have worked : (fleet.tasks i).work fleet.host.tree.expectedRoot [] = ⟨fleet.host.tree, nodes, [], none⟩ := by
      rw [alone]
      unfold Task.work
      dsimp only
      rw [same, stuck]
    simp [Fleet.exec, Fleet.commit, Fleet.put, worked]
  · rw [sent]
    have worked : (fleet.tasks i).work fleet.host.tree.expectedRoot [] =
        ⟨fleet.host.tree, nodes, [], some ⟨update, beside, false, jobs⟩⟩ := by
      rw [alone]
      unfold Task.work
      dsimp only
      rw [same, sent]
      rfl
    simp only [Fleet.exec, Fleet.commit, Fleet.put, Fleet.outcome, worked, Function.update_self, ↓reduceIte]
    cases (fleet.host.apply update).toOption with
    | none => exact ⟨rfl, Function.update_self ..⟩
    | some host => exact ⟨rfl, Function.update_self ..⟩

theorem carryAll_rounds {i : Nat} {nodes : List Node} {jobs : List Job} (single : ∀ job ∈ jobs, job.Single) :
    ∀ {fleet : Fleet}, fleet.tasks i = ⟨fleet.host.tree, nodes, jobs, none⟩ →
      ((fun fleet => fleet.round i)^[jobs.length] fleet).host = (carryAll nodes fleet.host jobs).2 := by
  have idle : ∀ (n : Nat) {fleet : Fleet}, fleet.tasks i = ⟨fleet.host.tree, nodes, [], none⟩ →
      ((fun fleet => fleet.round i)^[n] fleet).host = fleet.host := by
    intro n
    induction n with
    | zero => exact fun _ => rfl
    | succ n ih =>
      intro fleet alone
      have still : (fleet.round i).host = fleet.host ∧ (fleet.round i).tasks i = fleet.tasks i := by
        simp [Fleet.round, Fleet.exec, Fleet.commit, Fleet.put, alone, Task.work]
      rw [Function.iterate_succ_apply, ih (by rw [still.2, alone, still.1]), still.1]
  induction jobs with
  | nil =>
    intro fleet _
    rfl
  | cons job jobs ih =>
    intro fleet alone
    have step := carry_round (single job List.mem_cons_self) alone
    rw [List.length_cons, Function.iterate_succ_apply]
    unfold carryAll
    cases carried : carry nodes fleet.host job with
    | none =>
      rw [carried] at step
      rw [idle jobs.length (by rw [step.2, step.1]), step.1]
    | some host =>
      rw [carried] at step
      rw [ih (fun other mem => single other (List.mem_cons_of_mem _ mem)) (by rw [step.2, step.1]), step.1]

theorem command_rounds {fleet : Fleet} {i : Nat} {nodes : List Node} {command : Command} {jobs : List Job}
    (single : ∀ job ∈ jobs, job.Single) (idle : fleet.tasks i = ⟨fleet.host.tree, nodes, [], none⟩)
    (isPlan : plan nodes fleet.host.tree.expectedRoot command = .ok jobs) :
    ((fun fleet => fleet.round i)^[jobs.length] (fleet.exec (.begin i command))).host =
      (carryAll nodes fleet.host jobs).2 := by
  have begun : fleet.exec (.begin i command) = fleet.put i ⟨fleet.host.tree, nodes, jobs, none⟩ := by
    unfold Fleet.exec Fleet.start
    dsimp only
    rw [idle]
    dsimp only
    rw [isPlan]
  rw [begun, carryAll_rounds single (Function.update_self ..)]
  rfl

end

end QuantumFs.Client
