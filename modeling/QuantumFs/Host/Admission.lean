import QuantumFs.Host.Effects
import QuantumFs.Host.Restart

/-! What the operations that set a join code leave as the admission of a vault.
A code that was published stays, whatever fails after it. -/
namespace QuantumFs.Host

open Lib Encoding Crypto Store

variable [Primitives]

def HostState.admissionOf (state : HostState) (admission : VaultMetadata) : VaultMetadata :=
  { admission with members := state.members.toList, denied := state.denied }

theorem publishState_admission (env : HostEnv) (staged : HostState) (host : HostService) :
    Action.Ensures (publishState env staged) host fun r t =>
      match r with
      | .ok _ => t.state.admission = staged.admission.map staged.admissionOf ∧
          t.state.members = staged.members ∧ t.state.expectedRoot = staged.expectedRoot ∧
          t.running = host.running ∧ t.keys = host.keys
      | .error _ => t.state = host.state ∧ t.running = host.running ∧ t.keys = host.keys := by
  unfold publishState
  refine .get (.ofExcept (fun _ _ => ⟨rfl, rfl, rfl⟩) fun archived archivedOk => ?_)
  obtain ⟨documents, rfl, _⟩ := archiveHost_eq_ok archivedOk
  unfold Action.Ensures
  dsimp only
  generalize persistState env host _ _ = result
  obtain ⟨r, disk, chunks⟩ := result
  cases r with
  | ok _ => exact ⟨rfl, rfl, rfl, rfl, rfl⟩
  | error _ => exact ⟨rfl, rfl, rfl⟩

theorem setAdmission_admission (env : HostEnv) (metadata : VaultMetadata) (host : HostService) :
    Action.Ensures (setAdmission env metadata) host fun r t =>
      match r with
      | .ok _ => t.state.admission = some (host.state.admissionOf metadata) ∧
          t.state.members = host.state.members ∧
          t.state.expectedRoot = host.state.expectedRoot ∧
          metadata.vaultId.val = host.state.expectedRoot.val ∧ t.running = true ∧
          t.keys = host.keys
      | .error _ => t.state = host.state ∧ t.running = host.running ∧ t.keys = host.keys := by
  unfold setAdmission
  refine .query (fun _ _ => ⟨rfl, rfl, rfl⟩) fun _ running => .get ?_
  refine .require (fun _ => ⟨rfl, rfl, rfl⟩) fun known => ?_
  refine (publishState_admission env _ host).mono fun r t outcome => ?_
  cases r with
  | ok _ =>
    obtain ⟨admission, members, root, same, keys⟩ := outcome
    exact ⟨admission, members, root, known.1, same.trans (ensure_eq_ok.mp running), keys⟩
  | error _ => exact outcome

theorem Effect.identity {v w : View} (h : Effect v w) : w.identity = v.identity := by
  cases h with
  | beside rest => exact rest.identity
  | steps before outcome rest =>
    refine rest.identity.trans (Eq.trans ?_ before.identity)
    cases outcome with
    | refused => rfl
    | lost _ _ lost =>
      cases lost
      rfl
    | done _ _ published => cases published <;> rfl

omit [Primitives] in
theorem stageCommit_kick {env : HostEnv} {commit : Commit} {rotated : Option JoinCode}
    {tree : DirectoryTree} {next : Nat} {outbox : Outbox} {state staged : HostState}
    {target : PeerId} (isKick : commit.record.update = .kick target)
    (h : stageCommit env commit rotated tree next outbox state = .ok staged) :
    state.admission.mapM (rotateAdmission env rotated) = .ok staged.admission ∧
      staged.members = state.members.erase target ∧ staged.expectedRoot = state.expectedRoot := by
  unfold stageCommit at h
  obtain ⟨withManifest, isManifest, h⟩ := Result.bind_eq_ok.mp h
  obtain ⟨dropped, isDropped, h⟩ := Result.bind_eq_ok.mp h
  obtain rfl := Except.ok.inj h
  unfold stageManifest at isManifest
  rw [isKick] at isManifest isDropped
  obtain rfl := Except.ok.inj isManifest
  obtain ⟨admission, isAdmission, isDropped⟩ := Result.bind_eq_ok.mp isDropped
  obtain rfl := Except.ok.inj isDropped
  have removed : ∀ (fileId : Option FileId) (before : HostState),
      (stageRemoved fileId before).admission = before.admission ∧
        (stageRemoved fileId before).members = before.members ∧
        (stageRemoved fileId before).expectedRoot = before.expectedRoot := by
    intro fileId before
    unfold stageRemoved
    split <;> exact ⟨rfl, rfl, rfl⟩
  obtain ⟨same, members, root⟩ := removed commit.removed { state with tree }
  dsimp only at isAdmission same members root ⊢
  rw [same] at isAdmission
  rw [members, root]
  exact ⟨isAdmission, rfl, rfl⟩

structure Kicked (env : HostEnv) (code : JoinCode) (target : PeerId) (before after : HostState) :
    Prop where
  members : after.members = before.members.erase target
  root : after.expectedRoot = before.expectedRoot
  admission : ∀ old ∈ before.admission, ∃ now new, env.unixTime = some now ∧
    after.admission = some new ∧ new.vaultId = old.vaultId ∧ new.joinCode = code ∧
    new.issuedAt = max now (old.issuedAt + 1) + 1 ∧ new.issuedAt ≤ u64Max

structure Unadmitted (before after : HostState) : Prop where
  members : after.members = before.members
  root : after.expectedRoot = before.expectedRoot
  admission : after.admission = before.admission

omit [Primitives] in
theorem Unadmitted.of_content {before after : HostState} (h : after.content = before.content) :
    Unadmitted before after :=
  ⟨congrArg Content.members h, congrArg Content.expectedRoot h, congrArg Content.admission h⟩

omit [Primitives] in
theorem rotateAdmission_eq_ok {env : HostEnv} {code : JoinCode} {old new : VaultMetadata}
    (h : rotateAdmission env (some code) old = .ok new) : ∃ now, env.unixTime = some now ∧
      new.vaultId = old.vaultId ∧ new.joinCode = code ∧
      new.issuedAt = max now (old.issuedAt + 1) + 1 ∧ new.issuedAt ≤ u64Max := by
  unfold rotateAdmission at h
  obtain ⟨chosen, same, h⟩ := Result.bind_eq_ok.mp h
  obtain ⟨now, time, h⟩ := Result.bind_eq_ok.mp h
  obtain ⟨after, first, h⟩ := Result.bind_eq_ok.mp h
  obtain ⟨issuedAt, second, h⟩ := Result.bind_eq_ok.mp h
  obtain rfl := Except.ok.inj h
  obtain rfl := Except.ok.inj same
  obtain ⟨_, rfl⟩ := checkedAdd_eq_ok.mp first
  obtain ⟨bounded, rfl⟩ := checkedAdd_eq_ok.mp second
  exact ⟨now, okOr_eq_ok.mp time, rfl, rfl, rfl, bounded⟩

theorem commitVerifiedWithCode_kick (env : HostEnv) (target : PeerId) (code : JoinCode)
    (host : HostService) :
    Action.Ensures (commitVerifiedWithCode env (.kick target) none (some code)) host fun r t =>
      idleView t.keys = idleView host.keys ∧
      match r with
      | .ok _ => Kicked env code target host.state t.state
      | .error _ => Unadmitted host.state t.state := by
  have unchanged : ∀ {t : HostService}, t.idle = host.idle →
      idleView t.keys = idleView host.keys ∧ Unadmitted host.state t.state := fun same =>
    ⟨congrArg Prod.snd same, .of_content (congrArg (fun idle => idle.1.content) same)⟩
  unfold commitVerifiedWithCode
  refine .query (fun _ _ => unchanged rfl) fun _ _ => ?_
  refine .query (fun _ _ => unchanged rfl) fun (tree, removed) _ => ?_
  refine .keeps refreshMailboxes_idle (fun _ _ _ same => unchanged same) fun _ fresh _ same => ?_
  refine .get (.ofExcept (fun _ _ => unchanged same) fun next _ => ?_)
  refine .ofExcept (fun _ _ => unchanged same) fun queuedAt _ => ?_
  refine .ofExcept (fun _ _ => unchanged same) fun _ _ => ?_
  have honest : Commit.Honest ⟨⟨fresh.state.nextControl, .kick target⟩, none, removed, queuedAt⟩ :=
    fun _ absurd => by cases absurd
  refine .bind ((prepareQueues_outcome env honest (recipientsOf_nodup _ _) fresh).mono
    fun r prepared queued => ?_)
  obtain ⟨keys, before⟩ := unchanged ((idle_of_frame queued.1).trans same)
  cases r with
  | error e => exact ⟨keys, before⟩
  | ok outbox =>
    have published : Action.Ensures (applyCommit env
        ⟨⟨fresh.state.nextControl, .kick target⟩, none, removed, queuedAt⟩ (some code) tree next
        outbox) prepared fun r t => t.keys = prepared.keys ∧
          match r with
          | .ok _ => Kicked env code target host.state t.state
          | .error _ => Unadmitted host.state t.state := by
      unfold applyCommit
      refine .query (fun _ _ => ⟨rfl, before⟩) fun staged isStaged => ?_
      obtain ⟨admission, members, root⟩ := stageCommit_kick rfl isStaged
      refine (publishState_admission env staged prepared).mono fun r t outcome => ?_
      cases r with
      | error _ =>
        refine ⟨outcome.2.2, ?_⟩
        rw [show t.state = prepared.state from outcome.1]
        exact before
      | ok _ =>
        obtain ⟨stored, kept, sameRoot, _, sameKeys⟩ := outcome
        refine ⟨sameKeys, ?_, (sameRoot.trans root).trans before.root, fun old known => ?_⟩
        · rw [kept, members, before.members]
        · rw [before.admission, Option.mem_def.mp known] at admission
          obtain ⟨new, isNew, admission⟩ := Result.bind_eq_ok.mp admission
          obtain ⟨now, time, vault, joinCode, issuedAt, bounded⟩ := rotateAdmission_eq_ok isNew
          have found : staged.admission = some new := (Except.ok.inj admission).symm
          rw [found] at stored
          exact ⟨now, _, time, stored, vault, joinCode, issuedAt, bounded⟩
    refine .orElseUndo (published.mono fun r t outcome => ?_)
    obtain ⟨sameKeys, outcome⟩ := outcome
    have idle : idleView t.keys = idleView host.keys := sameKeys ▸ keys
    cases r with
    | ok _ => exact ⟨idle, outcome⟩
    | error e =>
      have reopened := reopenGates_keeps outbox.blocked t
      unfold Action.Ensures
      generalize reopenGates outbox.blocked t = result at reopened ⊢
      obtain ⟨r, after⟩ := result
      dsimp only at reopened ⊢
      have kept : after.state = t.state := state_of_frame reopened
      have idle := (keys_of_frame reopened).trans idle
      cases r with
      | ok _ => exact ⟨idle, kept ▸ outcome⟩
      | error other => exact ⟨idle, kept ▸ outcome⟩

omit [Primitives] in
theorem discardPair_healthy (env : KeyEnv) (peer : PeerId) (keys : KeyStore) :
    Action.Ensures (KeyStore.discardPair env peer) keys fun r t =>
      match r with
      | .ok _ => t.failed = false
      | .error _ => ¬ (env.persists = true ∧ keys.failed = false) := by
  unfold KeyStore.discardPair
  refine .query (fun _ locked healthy => ?_) fun _ locked => .modify ?_
  · rw [KeyStore.lock, ensure, if_pos healthy.2] at locked
    cases locked
  · have alive : keys.failed = false := ensure_eq_ok.mp locked
    unfold Action.Ensures KeyStore.persist
    cases saved : env.persists with
    | true => exact alive
    | false => exact fun healthy => Bool.false_ne_true healthy.1

theorem kickWithCode_admission (env : HostEnv) (target : PeerId) (code : JoinCode)
    (host : HostService) :
    Action.Ensures (kickWithCode env target (some code)) host fun r t =>
      match r with
      | .ok kicked => kicked = target ∧ t.keys.failed = false ∧
          Kicked env code target host.state t.state
      | .error _ => Unadmitted host.state t.state ∨
          (¬ (env.keys.persists = true ∧ host.keys.failed = false) ∧
            Kicked env code target host.state t.state) := by
  have unchanged : Unadmitted host.state host.state := ⟨rfl, rfl, rfl⟩
  unfold kickWithCode
  refine .query (fun _ _ => .inl unchanged) fun _ _ => ?_
  refine .query (fun _ _ => .inl unchanged) fun _ _ => .get ?_
  refine .require (fun _ => .inl unchanged) fun _ => ?_
  refine .next (commitVerifiedWithCode_kick env target code host) (fun _ _ kept => .inl kept.2)
    fun _ t committed => ?_
  obtain ⟨keys, kicked⟩ := committed
  have noted : (noteRecentOp env host.state.hostId host.state.nextControl t).state = t.state ∧
      (noteRecentOp env host.state.hostId host.state.nextControl t).keys = t.keys := by
    unfold noteRecentOp
    split <;> exact ⟨rfl, rfl⟩
  have alive : t.keys.failed = host.keys.failed :=
    show (idleView t.keys).failed = (idleView host.keys).failed from congrArg KeyStore.failed keys
  have sameKeys : (dropMember target (noteRecentOp env host.state.hostId host.state.nextControl
      t)).keys = t.keys := noted.2
  refine .modify (.modify (.zoom (discardPair_healthy env.keys target _)
    (fun _ _ broken => .inr ?_) fun _ _ healthy => .pure ⟨rfl, healthy, ?_⟩))
  · rw [sameKeys, alive] at broken
    refine ⟨broken, ?_⟩
    rw [show (dropMember target _).state = _ from noted.1]
    exact kicked
  · rw [show (dropMember target _).state = _ from noted.1]
    exact kicked

end QuantumFs.Host
