import QuantumFs.Client.Settings

/-! When the settings of a vault converge. As long as the host takes each write from a member
that has the file as the host holds it, every copy is the content of a record, versions tell records
apart, and a change is only overwritten by a later one. -/
namespace QuantumFs.Client

open Lib

namespace Settings

/-- The content of the file at the host. -/
def current (settings : Settings) : Sidecar := contentAt settings.log settings.log.length

def Quiet (settings : Settings) : Prop :=
  ∀ who, (settings.tasks who).writing = none ∧ (settings.tasks who).late = []

/-- The changes of the commands that returned success, in the order in which the host took them. -/
def succeeded (settings : Settings) : List SettingsChange :=
  (settings.log.filter Saved.succeeded).flatMap Saved.changes

/-- Copies that are up to date are equal to the file, which shows the last change of every field
and the published entry of every member. -/
def Agreed (settings : Settings) : Prop :=
  settings.Quiet →
    (∀ who, (settings.tasks who).seen = settings.log.length → (settings.tasks who).checked = settings.log.length →
      (settings.tasks who).sidecar = settings.current) ∧
    settingsEditing.Reflects settings.succeeded settings.current ∧
    ∀ who mine, (settings.tasks who).published = some mine → settings.current.members[who]? = some mine

end Settings

/-- The host takes a write only while its command waits for it, from a member whose copy is the file
as the host holds it, and with a higher version; and the answer comes alone and is a success. -/
def OneWriter (settings : Settings) : SettingsEvent → Prop
  | .accept who =>
    match (settings.tasks who).late, (settings.tasks who).writing with
    | write :: _, _ => settings.Refused write
    | [], none => True
    | [], some write =>
      write.taken = none → ¬ settings.Refused write →
        (settings.tasks who).sidecar = settings.current ∧
          versionAt settings.log settings.log.length < write.version
  | .finish who through projected =>
    ∀ write ∈ (settings.tasks who).writing, ∀ position ∈ write.taken,
      SettingsTask.advance settings.log through (max (settings.tasks who).seen position) = position ∧
        write.purpose.answered projected = true
  | .fail who => ∀ write ∈ (settings.tasks who).writing, write.taken = none
  | _ => True

section

variable {log : List Saved}

theorem manifestAt_append {position : Nat} (inside : position ≤ log.length) (saved : Saved) :
    manifestAt (log ++ [saved]) position = manifestAt log position := by
  cases position with
  | zero => rfl
  | succ index => exact List.getElem?_append_left inside

theorem manifestAt_last (saved : Saved) : manifestAt (log ++ [saved]) (log.length + 1) = some saved :=
  List.getElem?_concat_length

theorem versionAt_append {position : Nat} (inside : position ≤ log.length) (saved : Saved) :
    versionAt (log ++ [saved]) position = versionAt log position := by
  unfold versionAt
  rw [manifestAt_append inside]

theorem contentAt_append {position : Nat} (inside : position ≤ log.length) (saved : Saved) :
    contentAt (log ++ [saved]) position = contentAt log position := by
  unfold contentAt
  rw [manifestAt_append inside]

theorem versionAt_last (saved : Saved) : versionAt (log ++ [saved]) (log.length + 1) = saved.version := by
  unfold versionAt
  rw [manifestAt_last]
  rfl

theorem contentAt_last (saved : Saved) : contentAt (log ++ [saved]) (log.length + 1) = saved.content := by
  unfold contentAt
  rw [manifestAt_last]
  rfl

theorem eq_zero_of_manifest {position : Nat} (found : manifestAt log position = none) (inside : position ≤ log.length) :
    position = 0 := by
  cases position with
  | zero => rfl
  | succ index =>
    have outside := List.getElem?_eq_none_iff.mp found
    omega

theorem versionAt_of_manifest {position : Nat} {saved : Saved} (found : manifestAt log position = some saved) :
    versionAt log position = saved.version := by
  unfold versionAt
  rw [found]
  rfl

/-- Nothing of a record but whether its command has succeeded is different. -/
structure SameRecords (log other : List Saved) : Prop where
  length : other.length = log.length
  version : ∀ position, versionAt other position = versionAt log position
  content : ∀ position, contentAt other position = contentAt log position
  changes : other.flatMap Saved.changes = log.flatMap Saved.changes

theorem sameRecords_modify (log : List Saved) (index : Nat) :
    SameRecords log (log.modify index fun saved => { saved with succeeded := true }) := by
  have same : ∀ {α : Type} (f : Saved → α), (∀ saved : Saved, f { saved with succeeded := true } = f saved) →
      (log.modify index fun saved => { saved with succeeded := true }).map f = log.map f := by
    intro α f same
    apply List.ext_getElem?
    intro place
    rw [List.getElem?_map, List.getElem?_modify, List.getElem?_map]
    cases log[place]? with
    | none => rfl
    | some saved =>
      by_cases here : index = place
      · simp [here, same]
      · simp [here]
  have found : ∀ {α : Type} (f : Saved → α), (∀ saved : Saved, f { saved with succeeded := true } = f saved) →
      ∀ position, (manifestAt (log.modify index fun saved => { saved with succeeded := true }) position).map f =
        (manifestAt log position).map f := by
    intro α f isSame position
    cases position with
    | zero => rfl
    | succ place =>
      change ((log.modify index _)[place]?).map f = (log[place]?).map f
      rw [← List.getElem?_map, ← List.getElem?_map, same f isSame]
  constructor
  · exact List.length_modify ..
  · exact fun position => congrArg (·.getD 0) (found Saved.version (fun _ => rfl) position)
  · exact fun position => congrArg (·.getD Sidecar.default) (found Saved.content (fun _ => rfl) position)
  · rw [List.flatMap_def, List.flatMap_def, same Saved.changes fun _ => rfl]

end

/-- Where the records start that have the own entry as it is now. -/
def SettingsTask.since (task : SettingsTask) : Nat :=
  (task.writing.bind Write.taken).getD task.seen

/-- What a task sends. Only a sync touches the own entry, and nothing touches that of another. -/
structure Writes (log : List Saved) (who : String) (task : SettingsTask) (write : Write) : Prop where
  next : write.next = settingsEditing.applyAll write.changes task.sidecar
  owned : ∀ change ∈ write.changes, change.OwnedBy who
  version : 0 < write.version
  member : (∃ mine, write.purpose = .sync mine ∧ write.next.members[who]? = some mine) ∨
    (∀ mine, write.purpose ≠ .sync mine) ∧ write.next.members = task.sidecar.members
  taken : ∀ position, write.taken = some position →
    task.seen < position ∧ position ≤ log.length ∧ contentAt log position = write.next

structure InStep (log : List Saved) (who : String) (task : SettingsTask) : Prop where
  seen : task.seen ≤ log.length
  read : ∃ position ≤ task.seen, task.sidecarVersion = versionAt log position ∧
    (position = task.seen → task.sidecar = contentAt log position)
  checked : task.checked ≤ task.seen
  isChecked : task.checked = task.seen → versionAt log task.seen = task.sidecarVersion
  kept : ∀ mine, task.published = some mine → task.sidecar.members[who]? = some mine
  own : task.writing.bind Write.taken = none → ∀ mine, task.sidecar.members[who]? = some mine →
    (contentAt log log.length).members[who]? = some mine
  stable : ∀ position, task.since ≤ position → position ≤ log.length →
    (contentAt log position).members[who]? = (contentAt log log.length).members[who]?
  writing : ∀ write, task.writing = some write → Writes log who task write

structure Shared (settings : Settings) : Prop where
  task : ∀ who, InStep settings.log who (settings.tasks who)
  increasing : ∀ earlier later, earlier < later → later ≤ settings.log.length →
    versionAt settings.log earlier < versionAt settings.log later
  reflects : settingsEditing.Reflects (settings.log.flatMap Saved.changes) settings.current
  ended : ∀ index saved, settings.log[index]? = some saved → saved.succeeded = true ∨
    ∃ who, (settings.tasks who).writing.bind Write.taken = some (index + 1)

theorem InStep.upToDate {log : List Saved} {who : String} {task : SettingsTask} (inStep : InStep log who task)
    (increasing : ∀ earlier later, earlier < later → later ≤ log.length → versionAt log earlier < versionAt log later)
    (same : versionAt log task.seen = task.sidecarVersion) : task.sidecar = contentAt log task.seen := by
  obtain ⟨position, within, isVersion, isContent⟩ := inStep.read
  obtain less | rfl := Nat.lt_or_eq_of_le within
  · have := increasing position task.seen less inStep.seen
    omega
  · exact isContent rfl

theorem Shared.agreed {settings : Settings} (shared : Shared settings) : settings.Agreed := by
  intro quiet
  have idle : ∀ who, (settings.tasks who).writing = none := fun who => (quiet who).1
  refine ⟨fun who isSeen isChecked => ?_, ?_, fun who mine published => ?_⟩
  · have inStep := shared.task who
    have same := inStep.isChecked (isChecked.trans isSeen.symm)
    rw [inStep.upToDate shared.increasing same, isSeen]
    rfl
  · have all : settings.log.filter Saved.succeeded = settings.log := by
      apply List.filter_eq_self.mpr
      intro saved mem
      obtain ⟨index, found⟩ := List.mem_iff_getElem?.mp mem
      obtain succeeded | ⟨who, taken⟩ := shared.ended index saved found
      · exact succeeded
      · rw [idle who] at taken
        cases taken
    unfold Settings.succeeded
    rw [all]
    exact shared.reflects
  · have inStep := shared.task who
    refine inStep.own ?_ mine (inStep.kept mine published)
    rw [idle who]
    rfl

theorem shared_new : Shared Settings.new where
  task _ := {
    seen := Nat.le_refl 0
    read := ⟨0, Nat.le_refl 0, rfl, fun _ => rfl⟩
    checked := Nat.le_refl 0
    isChecked _ := rfl
    kept := nofun
    own _ mine found := found
    stable := by
      intro position _ inside
      obtain rfl := Nat.le_zero.mp inside
      rfl
    writing := nofun }
  increasing := by
    intro earlier later less inside
    change later ≤ 0 at inside
    omega
  reflects := settingsEditing.reflects_nil _
  ended := nofun

theorem Shared.set {settings : Settings} (shared : Shared settings) {who : String} {task : SettingsTask}
    (inStep : InStep settings.log who task)
    (waits : ∀ position, (settings.tasks who).writing.bind Write.taken = some position →
      task.writing.bind Write.taken = some position) : Shared (settings.setTask who task) where
  task other := by
    by_cases same : other = who
    · subst same
      change InStep settings.log other (Function.update settings.tasks other task other)
      rw [Function.update_self]
      exact inStep
    · change InStep settings.log other (Function.update settings.tasks who task other)
      rw [Function.update_of_ne same]
      exact shared.task other
  increasing := shared.increasing
  reflects := shared.reflects
  ended index saved found := by
    refine (shared.ended index saved found).imp_right ?_
    rintro ⟨other, taken⟩
    refine ⟨other, ?_⟩
    change (Function.update settings.tasks who task other).writing.bind Write.taken = _
    by_cases same : other = who
    · subst same
      rw [Function.update_self]
      exact waits _ taken
    · rw [Function.update_of_ne same]
      exact taken

theorem Shared.idly {settings : Settings} (shared : Shared settings) {who : String} {step : SettingsTask → SettingsTask}
    (steps : ∀ task, task.writing = none → InStep settings.log who task → InStep settings.log who (step task)) :
    Shared (settings.idly who step) := by
  unfold Settings.idly
  split
  · rename_i idle
    have idle := Option.isNone_iff_eq_none.mp idle
    apply shared.set (steps _ idle (shared.task who))
    intro position taken
    rw [idle] at taken
    cases taken
  · exact shared

section

variable {log : List Saved} {who : String} {task : SettingsTask}

theorem InStep.advance (inStep : InStep log who task) (idle : task.writing = none) (through : Nat) :
    InStep log who { task with seen := SettingsTask.advance log through task.seen } := by
  have further : task.seen ≤ SettingsTask.advance log through task.seen := Nat.le_max_left ..
  have inside : SettingsTask.advance log through task.seen ≤ log.length :=
    Nat.max_le.mpr ⟨inStep.seen, Nat.min_le_right ..⟩
  obtain ⟨position, within, isVersion, isContent⟩ := inStep.read
  have isSince : task.since = task.seen := by
    unfold SettingsTask.since
    rw [idle]
    rfl
  constructor
  · exact inside
  · refine ⟨position, within.trans further, isVersion, fun same => isContent ?_⟩
    change position = SettingsTask.advance log through task.seen at same
    omega
  · exact inStep.checked.trans further
  · intro same
    change task.checked = SettingsTask.advance log through task.seen at same
    have := inStep.checked
    have isSeen : SettingsTask.advance log through task.seen = task.seen := by omega
    change versionAt log (SettingsTask.advance log through task.seen) = task.sidecarVersion
    rw [isSeen]
    exact inStep.isChecked (same.trans isSeen)
  · exact inStep.kept
  · exact inStep.own
  · intro position after
    apply inStep.stable
    rw [isSince]
    refine further.trans (le_trans ?_ after)
    unfold SettingsTask.since
    rw [idle]
    exact Nat.le_refl _
  · intro write isWrite
    exact absurd (isWrite.symm.trans idle) nofun

theorem since_of_idle (idle : task.writing = none) : task.since = task.seen := by
  unfold SettingsTask.since
  rw [idle]
  rfl

theorem InStep.entryAt (inStep : InStep log who task) (idle : task.writing = none) (through : Nat) :
    (contentAt log (SettingsTask.advance log through task.seen)).members[who]? =
      (contentAt log log.length).members[who]? := by
  apply inStep.stable
  · rw [since_of_idle idle]
    exact Nat.le_max_left ..
  · exact Nat.max_le.mpr ⟨inStep.seen, Nat.min_le_right ..⟩

theorem InStep.checkedHere (inStep : InStep log who task) (idle : task.writing = none)
    (same : versionAt log task.seen = task.sidecarVersion) : InStep log who { task with checked := task.seen } where
  seen := inStep.seen
  read := inStep.read
  checked := Nat.le_refl _
  isChecked _ := same
  kept := inStep.kept
  own := inStep.own
  stable := inStep.stable
  writing _ isWrite := absurd (isWrite.symm.trans idle) nofun

theorem InStep.refresh (inStep : InStep log who task) (idle : task.writing = none) (assembled : Option Nat) :
    InStep log who (SettingsTask.refreshSidecar log assembled task) := by
  unfold SettingsTask.refreshSidecar
  cases found : manifestAt log task.seen with
  | none =>
    have start := eq_zero_of_manifest found inStep.seen
    obtain ⟨position, within, isVersion, _⟩ := inStep.read
    have isStart : position = task.seen := by omega
    exact inStep.checkedHere idle (isStart ▸ isVersion.symm)
  | some trusted =>
    have isTrusted := versionAt_of_manifest found
    dsimp only
    split
    · rename_i same
      exact inStep.checkedHere idle (isTrusted.trans same)
    cases assembled with
    | none => exact inStep
    | some through =>
      have entry := inStep.entryAt idle through
      have next := inStep.advance idle through
      constructor
      · exact next.seen
      · exact ⟨task.seen, Nat.le_max_left .., isTrusted.symm, fun same => congrArg (contentAt log) same.symm⟩
      · exact Nat.le_max_left ..
      · intro same
        exact (congrArg (versionAt log) same).symm.trans isTrusted
      · intro mine published
        exact entry.trans (inStep.own (by rw [idle]; rfl) mine (inStep.kept mine published))
      · intro _ mine found
        exact entry.symm.trans found
      · exact next.stable
      · intro write isWrite
        exact absurd (isWrite.symm.trans idle) nofun

def SettingsTask.core (task : SettingsTask) : Nat × Sidecar × Nat × Option Write × Nat × Option SidecarMember :=
  (task.seen, task.sidecar, task.sidecarVersion, task.writing, task.checked, task.published)

theorem InStep.of_core {other : SettingsTask} (inStep : InStep log who task) (same : other.core = task.core) :
    InStep log who other := by
  obtain ⟨isSeen, isSidecar, isVersion, isWriting, isChecked, isPublished⟩ :
      other.seen = task.seen ∧ other.sidecar = task.sidecar ∧ other.sidecarVersion = task.sidecarVersion ∧
        other.writing = task.writing ∧ other.checked = task.checked ∧ other.published = task.published := by
    simpa only [SettingsTask.core, Prod.mk.injEq] using same
  have isSince : other.since = task.since := by
    unfold SettingsTask.since
    rw [isWriting, isSeen]
  constructor
  · exact isSeen ▸ inStep.seen
  · rw [isSeen, isVersion, isSidecar]
    exact inStep.read
  · rw [isSeen, isChecked]
    exact inStep.checked
  · rw [isSeen, isChecked, isVersion]
    exact inStep.isChecked
  · rw [isPublished, isSidecar]
    exact inStep.kept
  · rw [isWriting, isSidecar]
    exact inStep.own
  · rw [isSince]
    exact inStep.stable
  · intro write isWrite
    have writes := inStep.writing write (isWriting ▸ isWrite)
    constructor
    · exact isSidecar ▸ writes.next
    · exact writes.owned
    · exact writes.version
    · exact isSidecar ▸ writes.member
    · exact isSeen ▸ writes.taken

theorem InStep.spawn (inStep : InStep log who task) (idle : task.writing = none) (profile : Profile)
    (serverId rootId : String) (initialMeta : Option String) :
    InStep log who (.spawn task.seen task.late profile serverId rootId initialMeta) where
  seen := inStep.seen
  read := ⟨0, Nat.zero_le _, rfl, fun _ => rfl⟩
  checked := Nat.zero_le _
  isChecked start := (congrArg (versionAt log) start).symm
  kept := nofun
  own _ mine found := absurd found nofun
  stable := by
    intro position after
    apply inStep.stable
    rw [since_of_idle idle]
    exact after
  writing := nofun

theorem saveVersion_pos {version : Nat} (h : task.saveVersion log = .ok version) : 0 < version := by
  unfold SettingsTask.saveVersion at h
  split at h
  · cases h
    exact Nat.one_pos
  · obtain ⟨_, rfl⟩ := checkedAdd_eq_ok.mp h
    exact Nat.succ_pos _

theorem InStep.writeSidecar {next : Sidecar} {changes : List SettingsChange} {purpose : Purpose}
    (inStep : InStep log who task) (idle : task.writing = none)
    (isNext : next = settingsEditing.applyAll changes task.sidecar)
    (owned : ∀ change ∈ changes, change.OwnedBy who)
    (member : (∃ mine, purpose = .sync mine ∧ next.members[who]? = some mine) ∨
      (∀ mine, purpose ≠ .sync mine) ∧ next.members = task.sidecar.members) :
    InStep log who (task.writeSidecar log next changes purpose) := by
  unfold SettingsTask.writeSidecar
  split
  · split
    · rename_i version isVersion
      constructor
      · exact inStep.seen
      · exact inStep.read
      · exact inStep.checked
      · exact inStep.isChecked
      · exact inStep.kept
      · exact fun _ => inStep.own (by rw [idle]; rfl)
      · intro position after
        apply inStep.stable
        rw [since_of_idle idle]
        exact after
      · rintro write ⟨⟩
        exact ⟨isNext, owned, saveVersion_pos isVersion, member, nofun⟩
    · exact inStep
  · exact inStep

theorem InStep.sync (inStep : InStep log who task) (idle : task.writing = none) (now : Nat) :
    InStep log who (task.syncSidecar log who now) := by
  unfold SettingsTask.syncSidecar
  split
  case isFalse => exact inStep
  split
  case isTrue => exact inStep
  have opens : (task.openSidecar who now).2.1 =
      settingsEditing.applyAll (task.openSidecar who now).2.2 task.sidecar ∧
      (task.openSidecar who now).2.1.members = task.sidecar.members ∧
      ∀ change ∈ (task.openSidecar who now).2.2, change.OwnedBy who := by
    unfold SettingsTask.openSidecar
    split
    · exact ⟨rfl, rfl, nofun⟩
    · split
      · refine ⟨rfl, rfl, ?_⟩
        intro change mem
        simp only [List.mem_cons, List.not_mem_nil, or_false] at mem
        obtain rfl | rfl := mem <;> trivial
      · exact ⟨rfl, rfl, nofun⟩
  generalize task.openSidecar who now = result at opens
  obtain ⟨initialMeta, next, opened⟩ := result
  obtain ⟨isNext, members, owned⟩ := opens
  dsimp only at isNext members owned ⊢
  have inStep : InStep log who { task with initialMeta } := inStep.of_core rfl
  split
  · rename_i isMine
    split
    · have inMemory : task.sidecar.members[who]? = some task.mine := members ▸ isMine
      constructor
      · exact inStep.seen
      · exact inStep.read
      · exact inStep.checked
      · exact inStep.isChecked
      · rintro mine ⟨⟩
        exact inMemory
      · exact inStep.own
      · exact inStep.stable
      · intro write isWrite
        exact absurd (isWrite.symm.trans idle) nofun
    · exact inStep.writeSidecar idle isNext owned (.inl ⟨_, rfl, isMine⟩)
  · apply inStep.writeSidecar idle
    · rw [Editing.applyAll_append, ← isNext]
      rfl
    · intro change mem
      obtain mem | mem := List.mem_append.mp mem
      · exact owned change mem
      · obtain rfl := List.mem_singleton.mp mem
        rfl
    · refine .inl ⟨_, rfl, ?_⟩
      rw [Map.get_insert, if_pos rfl]

theorem planSettings_eq {command : SettingsCommand} {next : Sidecar} (h : task.planSettings who command = .ok next) :
    next = settingsEditing.applyAll (task.changesOf who command) task.sidecar ∧
      next.members = task.sidecar.members ∧ ∀ change ∈ task.changesOf who command, change.OwnedBy who := by
  cases command with
  | renameRoot name =>
    change task.renameRoot name = _ at h
    unfold SettingsTask.renameRoot at h
    dsimp only at h
    split at h
    · cases h
      refine ⟨rfl, rfl, ?_⟩
      intro change mem
      obtain rfl := List.mem_singleton.mp mem
      trivial
    · cases h
  | setNodeColor nodeId color =>
    change task.setNodeColor nodeId color = _ at h
    unfold SettingsTask.setNodeColor at h
    cases known : task.requireEntry nodeId with
    | error => rw [known] at h; cases h
    | ok =>
    rw [known] at h
    have single : ∀ change ∈ task.changesOf who (.setNodeColor nodeId color), change.OwnedBy who := by
      intro change mem
      obtain rfl := List.mem_singleton.mp mem
      trivial
    cases color <;> cases h <;> exact ⟨rfl, rfl, single⟩
  | setAccess nodeId inherit entries =>
    change task.setAccess who nodeId inherit entries = _ at h
    unfold SettingsTask.setAccess at h
    cases known : task.requireEntry nodeId with
    | error => rw [known] at h; cases h
    | ok =>
    rw [known] at h
    have single : ∀ change ∈ task.changesOf who (.setAccess nodeId inherit entries), change.OwnedBy who := by
      intro change mem
      obtain rfl := List.mem_singleton.mp mem
      trivial
    cases inherit <;> cases h <;> exact ⟨rfl, rfl, single⟩
  | updateVaultMeta patch =>
    change task.updateVaultMeta patch = _ at h
    unfold SettingsTask.updateVaultMeta at h
    obtain ⟨name, description, serverId, autoCleanup, pct⟩ := patch
    split at h
    · cases h
    split at h
    · cases h
    cases h
    refine ⟨?_, rfl, ?_⟩
    · cases name <;> cases description <;> cases autoCleanup <;> cases pct <;> rfl
    · intro change mem
      simp only [SettingsTask.changesOf, List.mem_append, Option.mem_toList,
        Option.map_eq_some_iff] at mem
      obtain ((⟨_, _, rfl⟩ | ⟨_, _, rfl⟩) | ⟨_, _, rfl⟩) | ⟨_, _, rfl⟩ := mem <;> trivial

theorem InStep.command (inStep : InStep log who task) (idle : task.writing = none) (command : SettingsCommand) :
    InStep log who (SettingsTask.command log who command task) := by
  unfold SettingsTask.command
  split
  · rename_i next isNext
    obtain ⟨same, members, owned⟩ := planSettings_eq isNext
    refine inStep.writeSidecar idle same owned (.inr ⟨?_, members⟩)
    cases command <;> nofun
  · exact inStep

theorem entry_applyAll {changes : List SettingsChange} (owned : ∀ change ∈ changes, change.OwnedBy who)
    {other : String} (apart : other ≠ who) (document : Sidecar) :
    (settingsEditing.applyAll changes document).members[other]? = document.members[other]? := by
  refine settingsEditing.apply_other (fun document => document.members[other]?)
    (fun change => ∃ value, change = .member other value) ?_ ?_ document
  · intro change document isOther
    cases change with
    | color nodeId value => cases value <;> rfl
    | access nodeId entries => cases entries <;> rfl
    | member peer value =>
      exact Map.get_insert_ne _ _ fun same => isOther ⟨value, same ▸ rfl⟩
    | _ => rfl
  · rintro change mem ⟨value, rfl⟩
    exact apart (owned _ mem)

theorem InStep.extend (inStep : InStep log who task) (saved : Saved)
    (entry : saved.content.members[who]? = (contentAt log log.length).members[who]?) :
    InStep (log ++ [saved]) who task := by
  have length : (log ++ [saved]).length = log.length + 1 := List.length_append
  have isLast : contentAt (log ++ [saved]) (log ++ [saved]).length = saved.content := by
    rw [length, contentAt_last]
  obtain ⟨position, within, isVersion, isContent⟩ := inStep.read
  constructor
  · rw [length]
    exact inStep.seen.trans (Nat.le_succ _)
  · have inside := within.trans inStep.seen
    refine ⟨position, within, ?_, ?_⟩
    · rw [versionAt_append inside]
      exact isVersion
    · rw [contentAt_append inside]
      exact isContent
  · exact inStep.checked
  · rw [versionAt_append inStep.seen]
    exact inStep.isChecked
  · exact inStep.kept
  · intro untaken mine found
    rw [isLast, entry]
    exact inStep.own untaken mine found
  · intro position after inside
    rw [isLast]
    rw [length] at inside
    obtain inside | rfl := Nat.le_or_eq_of_le_succ inside
    · rw [contentAt_append inside, entry]
      exact inStep.stable position after inside
    · rw [contentAt_last]
  · intro write isWrite
    have writes := inStep.writing write isWrite
    refine { writes with taken := fun position taken => ?_ }
    obtain ⟨later, inside, isNext⟩ := writes.taken position taken
    refine ⟨later, ?_, ?_⟩
    · rw [length]
      exact inside.trans (Nat.le_succ _)
    · rw [contentAt_append inside]
      exact isNext

theorem InStep.taken {write : Write} (inStep : InStep log who task) (isWrite : task.writing = some write) :
    InStep (log ++ [⟨write.version, write.next, write.changes, false⟩]) who
      { task with writing := some { write with taken := some (log.length + 1) } } := by
  have length : (log ++ [(⟨write.version, write.next, write.changes, false⟩ : Saved)]).length = log.length + 1 :=
    List.length_append
  have writes := inStep.writing write isWrite
  obtain ⟨position, within, isVersion, isContent⟩ := inStep.read
  constructor
  · rw [length]
    exact inStep.seen.trans (Nat.le_succ _)
  · have inside := within.trans inStep.seen
    refine ⟨position, within, ?_, ?_⟩
    · rw [versionAt_append inside]
      exact isVersion
    · rw [contentAt_append inside]
      exact isContent
  · exact inStep.checked
  · rw [versionAt_append inStep.seen]
    exact inStep.isChecked
  · exact inStep.kept
  · nofun
  · intro position after inside
    change log.length + 1 ≤ position at after
    have isLast : position = log.length + 1 := by omega
    rw [isLast, length]
  · rintro other ⟨⟩
    refine ⟨writes.next, writes.owned, writes.version, writes.member, ?_⟩
    rintro position ⟨⟩
    exact ⟨Nat.lt_succ_of_le inStep.seen, length.ge, contentAt_last _⟩

theorem InStep.finish {write : Write} {position through : Nat} (inStep : InStep log who task)
    (isWrite : task.writing = some write) (taken : write.taken = some position)
    (alone : SettingsTask.advance log through (max task.seen position) = position) (projected : List String) :
    InStep log who (task.finish log write position through projected) := by
  have writes := inStep.writing write isWrite
  obtain ⟨later, inside, isNext⟩ := writes.taken position taken
  have isSince : task.since = position := by
    unfold SettingsTask.since
    rw [isWrite, Option.bind_some, taken]
    rfl
  have done : ∀ published, (∀ mine, published = some mine → write.next.members[who]? = some mine) →
      InStep log who { task with
        sidecar := write.next
        sidecarVersion := versionAt log position
        seen := position
        writing := none
        published } := by
    intro published kept
    constructor
    · exact inside
    · exact ⟨position, Nat.le_refl _, rfl, fun _ => isNext.symm⟩
    · exact inStep.checked.trans later.le
    · intro same
      have := inStep.checked
      change task.checked = position at same
      omega
    · exact kept
    · intro _ mine found
      rw [← inStep.stable position isSince.le inside, isNext]
      exact found
    · intro place after
      exact inStep.stable place (isSince.trans_le after)
    · nofun
  unfold SettingsTask.finish
  rw [alone]
  obtain ⟨mine, isSync, isMine⟩ | ⟨notSync, members⟩ := writes.member
  · rw [isSync]
    refine (done (some mine) ?_).of_core rfl
    rintro _ ⟨⟩
    exact isMine
  · have old := done task.published fun mine published => members ▸ inStep.kept mine published
    cases isPurpose : write.purpose with
    | sync mine => exact absurd isPurpose (notSync mine)
    | access => exact old
    | settle nodeId => exact old.of_core rfl

theorem InStep.giveUp {write : Write} (inStep : InStep log who task) (isWrite : task.writing = some write)
    (untaken : write.taken = none) (late : List Write) : InStep log who { task with writing := none, late } where
  seen := inStep.seen
  read := inStep.read
  checked := inStep.checked
  isChecked := inStep.isChecked
  kept := inStep.kept
  own _ := inStep.own (by rw [isWrite, Option.bind_some, untaken])
  stable := by
    have isSince : task.since = task.seen := by
      unfold SettingsTask.since
      rw [isWrite, Option.bind_some, untaken]
      rfl
    exact isSince ▸ inStep.stable
  writing := nofun

theorem InStep.of_records {other : List Saved} (inStep : InStep log who task) (same : SameRecords log other) :
    InStep other who task where
  seen := same.length ▸ inStep.seen
  read := by
    simp only [same.version, same.content]
    exact inStep.read
  checked := inStep.checked
  isChecked := by
    rw [same.version]
    exact inStep.isChecked
  kept := inStep.kept
  own := by
    rw [same.length, same.content]
    exact inStep.own
  stable := by
    simp only [same.length, same.content]
    exact inStep.stable
  writing write isWrite := by
    have writes := inStep.writing write isWrite
    refine { writes with taken := ?_ }
    simp only [same.length, same.content]
    exact writes.taken

end

theorem Shared.accept {settings : Settings} (shared : Shared settings) {who : String}
    (careful : OneWriter settings (.accept who)) : Shared (settings.accept who) := by
  unfold Settings.accept
  unfold OneWriter at careful
  dsimp only at careful ⊢
  split
  · rename_i write late isLate
    rw [isLate] at careful
    have refused : (settings.setTask who { settings.tasks who with late }).Refused write := careful
    rw [if_pos refused]
    exact shared.set ((shared.task who).of_core rfl) fun _ taken => taken
  rename_i isLate
  split
  · exact shared
  rename_i write isWrite
  rw [isLate, isWrite] at careful
  split
  · exact shared
  rename_i takes
  obtain ⟨notTaken, accepted⟩ := not_or.mp takes
  have untaken : write.taken = none := Option.not_isSome_iff_eq_none.mp notTaken
  obtain ⟨isCurrent, newer⟩ := careful untaken accepted
  have inStep := shared.task who
  have writes := inStep.writing write isWrite
  have length : (settings.log ++ [(⟨write.version, write.next, write.changes, false⟩ : Saved)]).length =
      settings.log.length + 1 := List.length_append
  constructor
  · intro other
    by_cases same : other = who
    · subst same
      change InStep _ other (Function.update settings.tasks other _ other)
      rw [Function.update_self]
      have taken := inStep.taken isWrite
      rw [← length] at taken
      exact taken
    · change InStep _ other (Function.update settings.tasks who _ other)
      rw [Function.update_of_ne same]
      apply (shared.task other).extend
      change write.next.members[other]? = settings.current.members[other]?
      rw [writes.next, entry_applyAll writes.owned same, isCurrent]
  · intro earlier later less inside
    change later ≤ (settings.log ++ [_]).length at inside
    rw [length] at inside
    change versionAt (settings.log ++ [_]) earlier < versionAt (settings.log ++ [_]) later
    obtain inside | rfl := Nat.le_or_eq_of_le_succ inside
    · rw [versionAt_append (less.le.trans inside), versionAt_append inside]
      exact shared.increasing earlier later less inside
    · have before : earlier ≤ settings.log.length := Nat.le_of_lt_succ less
      rw [versionAt_append before, versionAt_last]
      obtain less | rfl := Nat.lt_or_eq_of_le before
      · exact (shared.increasing earlier _ less (Nat.le_refl _)).trans newer
      · exact newer
  · change settingsEditing.Reflects ((settings.log ++ [_]).flatMap Saved.changes)
      (contentAt (settings.log ++ [_]) (settings.log ++ [_]).length)
    rw [length, contentAt_last, List.flatMap_append, List.flatMap_singleton]
    change settingsEditing.Reflects (_ ++ write.changes) write.next
    rw [writes.next, isCurrent]
    exact shared.reflects.append settingsEditing write.changes
  · intro index saved found
    change (settings.log ++ [_])[index]? = some saved at found
    obtain inside | outside := Nat.lt_or_ge index settings.log.length
    · rw [List.getElem?_append_left inside] at found
      refine (shared.ended index saved found).imp_right ?_
      rintro ⟨other, taken⟩
      have apart : other ≠ who := by
        rintro rfl
        rw [isWrite, Option.bind_some, untaken] at taken
        cases taken
      refine ⟨other, ?_⟩
      change (Function.update settings.tasks who _ other).writing.bind Write.taken = _
      rw [Function.update_of_ne apart]
      exact taken
    · have isLast : index = settings.log.length := by
        have bound := (List.getElem?_eq_some_iff.mp found).1
        rw [length] at bound
        omega
      refine .inr ⟨who, ?_⟩
      change (Function.update settings.tasks who _ who).writing.bind Write.taken = _
      rw [Function.update_self, isLast]
      exact congrArg some length

theorem Shared.finish {settings : Settings} (shared : Shared settings) {who : String} {through : Nat}
    {projected : List String} (careful : OneWriter settings (.finish who through projected)) :
    Shared (settings.finish who through projected) := by
  unfold Settings.finish
  dsimp only
  split
  · exact shared
  rename_i write isWrite
  split
  · exact shared
  rename_i position taken
  obtain ⟨alone, answered⟩ := careful write isWrite position taken
  rw [if_pos answered]
  have finished := (shared.task who).finish isWrite taken alone projected
  obtain ⟨later, inside, _⟩ := ((shared.task who).writing write isWrite).taken position taken
  have same := sameRecords_modify settings.log (position - 1)
  have frame : ∀ other, other ≠ who → ((settings.setTask who
      ((settings.tasks who).finish settings.log write position through projected)).succeed position).tasks other =
        settings.tasks other := fun other apart => Function.update_of_ne apart _ _
  constructor
  · intro other
    by_cases isWho : other = who
    · subst isWho
      change InStep _ other (Function.update settings.tasks other _ other)
      rw [Function.update_self]
      exact finished.of_records same
    · rw [frame other isWho]
      exact (shared.task other).of_records same
  · intro earlier later less inside
    change versionAt (settings.log.modify _ _) earlier < versionAt (settings.log.modify _ _) later
    rw [same.version, same.version]
    exact shared.increasing earlier later less (same.length ▸ inside)
  · change settingsEditing.Reflects ((settings.log.modify _ _).flatMap Saved.changes)
      (contentAt (settings.log.modify _ _) (settings.log.modify _ _).length)
    rw [same.changes, same.length, same.content]
    exact shared.reflects
  · intro index saved found
    change (settings.log.modify _ _)[index]? = some saved at found
    rw [List.getElem?_modify] at found
    by_cases here : position - 1 = index
    · obtain ⟨old, _, rfl⟩ := Option.map_eq_some_iff.mp found
      left
      rw [if_pos here]
    · obtain ⟨old, isOld, rfl⟩ := Option.map_eq_some_iff.mp found
      rw [if_neg here]
      refine (shared.ended index old isOld).imp_right ?_
      rintro ⟨other, waits⟩
      have apart : other ≠ who := by
        rintro rfl
        rw [isWrite, Option.bind_some, taken, Option.some_inj] at waits
        omega
      exact ⟨other, (frame other apart).symm ▸ waits⟩

theorem Shared.exec {settings : Settings} (shared : Shared settings) (event : SettingsEvent)
    (careful : OneWriter settings event) : Shared (settings.exec event) := by
  cases event with
  | spawn who profile serverId rootId initialMeta =>
    unfold Settings.exec
    exact shared.idly fun task idle inStep => inStep.spawn idle profile serverId rootId initialMeta
  | join who | leave who | profileChanged who profile | project who entries =>
    unfold Settings.exec
    exact shared.idly fun task _ inStep => inStep.of_core rfl
  | deliver who through =>
    unfold Settings.exec
    refine shared.idly fun task idle inStep => ?_
    split
    · exact inStep.advance idle through
    · exact inStep
  | refresh who assembled =>
    unfold Settings.exec
    exact shared.idly fun task idle inStep => inStep.refresh idle assembled
  | sync who now =>
    unfold Settings.exec
    exact shared.idly fun task idle inStep => inStep.sync idle now
  | command who command =>
    unfold Settings.exec
    exact shared.idly fun task idle inStep => inStep.command idle command
  | accept who => exact shared.accept careful
  | lose who => exact shared.set ((shared.task who).of_core rfl) fun _ taken => taken
  | finish who through projected => exact shared.finish careful
  | fail who =>
    change Shared (settings.fail who)
    unfold Settings.fail
    dsimp only
    split
    · exact shared
    · rename_i write isWrite
      have untaken := careful write isWrite
      apply shared.set ((shared.task who).giveUp isWrite untaken _)
      intro position taken
      rw [isWrite, Option.bind_some, untaken] at taken
      cases taken

def SettingsEvent.who : SettingsEvent → String
  | .spawn who _ _ _ _ | .join who | .leave who | .profileChanged who _ | .project who _ | .deliver who _
  | .refresh who _ | .sync who _ | .command who _ | .accept who | .lose who | .finish who _ _ | .fail who => who

theorem setTask_tasks {settings : Settings} {who other : String} (apart : who ≠ other) (task : SettingsTask) :
    (settings.setTask who task).tasks other = settings.tasks other := Function.update_of_ne apart.symm _ _

theorem idly_tasks {settings : Settings} {who other : String} (apart : who ≠ other)
    (step : SettingsTask → SettingsTask) : (settings.idly who step).tasks other = settings.tasks other := by
  unfold Settings.idly
  split
  · exact setTask_tasks apart _
  · rfl

theorem exec_tasks {settings : Settings} {other : String} (event : SettingsEvent) (apart : event.who ≠ other) :
    (settings.exec event).tasks other = settings.tasks other := by
  cases event with
  | accept who =>
    change (settings.accept who).tasks other = _
    unfold Settings.accept
    dsimp only
    split
    · split <;> exact setTask_tasks apart _
    · split
      · rfl
      · split
        · rfl
        · exact setTask_tasks apart _
  | finish who through projected =>
    change (settings.finish who through projected).tasks other = _
    unfold Settings.finish
    dsimp only
    split
    · rfl
    · split
      · rfl
      · split <;> exact setTask_tasks apart _
  | fail who =>
    change (settings.fail who).tasks other = _
    unfold Settings.fail
    dsimp only
    split
    · rfl
    · exact setTask_tasks apart _
  | lose who => exact setTask_tasks apart _
  | _ => exact idly_tasks apart _

theorem run_tasks {other : String} {events : List SettingsEvent} (apart : ∀ event ∈ events, event.who ≠ other)
    (settings : Settings) : (settingsMachine.run events settings).tasks other = settings.tasks other := by
  induction events generalizing settings with
  | nil => rfl
  | cons event events ih =>
    rw [Machine.run_cons, ih fun later mem => apart later (List.mem_cons_of_mem event mem)]
    exact exec_tasks event (apart event List.mem_cons_self)

/-- Settings converge in every run in which one member writes at a time. -/
theorem settings_converge (events : List SettingsEvent)
    (careful : settingsMachine.Along OneWriter events Settings.new) :
    settingsMachine.Throughout Settings.Agreed events Settings.new :=
  (settingsMachine.throughout_of_step (fun _ event shared careful => shared.exec event careful)
    events Settings.new shared_new careful).mono fun _ shared => shared.agreed

section

/-! Two members that write one after the other, and two that write at once. -/

private def settingsProfile (name : String) : Profile := ⟨"me_" ++ name, name, "coral", name, 8⟩

/-- The creator opens the file, and the other member adds its entry. -/
private def writesInTurn : List SettingsEvent :=
  [.spawn "a" (settingsProfile "a") "s" "root_v" (some "Vault"), .join "a", .sync "a" 1, .accept "a", .finish "a" 1 [],
    .spawn "b" (settingsProfile "b") "s" "root_v" none, .join "b", .deliver "b" 1, .refresh "b" (some 1),
    .sync "b" 2, .accept "b", .finish "b" 2 [], .deliver "a" 2, .refresh "a" (some 2)]

/-- The creator renames the vault while the other member colors a folder. -/
private def writesAtOnce : List SettingsEvent :=
  writesInTurn ++ [.project "a" ["root_v"], .project "b" ["root_v", "n"],
    .command "a" (.renameRoot "Other"), .command "b" (.setNodeColor "n" (some .coral)), .accept "a", .accept "b",
    .finish "a" 3 ["root_v"], .finish "b" 4 ["root_v", "n"], .deliver "a" 4, .refresh "a" (some 4),
    .refresh "b" (some 4)]

theorem settings_converge_in_turn : settingsMachine.Throughout Settings.Agreed writesInTurn Settings.new := by
  refine settings_converge writesInTurn ⟨trivial, trivial, trivial, fun _ _ => ⟨?_, ?_⟩, ?_, trivial, trivial,
    trivial, trivial, trivial, fun _ _ => ⟨?_, ?_⟩, ?_, trivial, trivial, trivial⟩
  · decide +kernel
  · decide +kernel
  · unfold OneWriter
    decide +kernel
  · decide +kernel
  · decide +kernel
  · unfold OneWriter
    decide +kernel

theorem settings_converge_not : ¬ (settingsMachine.run writesAtOnce Settings.new).Agreed := by
  intro agreed
  have quiet : (settingsMachine.run writesAtOnce Settings.new).Quiet := by
    intro who
    by_cases isA : who = "a"
    · subst isA
      constructor <;> decide +kernel
    by_cases isB : who = "b"
    · subst isB
      constructor <;> decide +kernel
    rw [run_tasks]
    · exact ⟨rfl, rfl⟩
    · intro event mem
      have known : event.who = "a" ∨ event.who = "b" := by
        revert event
        decide +kernel
      rintro rfl
      exact known.elim isA isB
  have same := (agreed quiet).1 "a" (by decide +kernel) (by decide +kernel)
  exact absurd same (by decide +kernel)

end

end QuantumFs.Client
