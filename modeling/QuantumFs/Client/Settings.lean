import QuantumFs.Client.Commands
import QuantumFs.Client.Workspace
import QuantumFs.Lib.LastWrite

/-! The settings of a vault, `/.qfs-meta.json` (`node/vault.rs`). Every member keeps a copy
of the document and writes the whole of it back; the host takes any manifest whose record it can
apply, and hands them on in the order in which it took them. -/
namespace QuantumFs.Client

open Lib

structure SidecarMember where
  name : String
  color : String
  clientId : String
  contributionBytes : Nat
deriving DecidableEq

inductive AccessLevel where
  | viewer
  | editor
deriving DecidableEq

structure AccessEntry where
  peerId : String
  level : AccessLevel
deriving DecidableEq

structure Sidecar where
  v : Nat
  name : String
  description : String
  createdAt : Nat
  createdBy : String
  autoCleanup : Bool
  cleanupThresholdPct : Nat
  colors : Map String FolderColor
  access : Map String (List AccessEntry)
  members : Map String SidecarMember
deriving DecidableEq

def Sidecar.default : Sidecar where
  v := 1
  name := ""
  description := ""
  createdAt := 0
  createdBy := ""
  autoCleanup := true
  cleanupThresholdPct := 85
  colors := ∅
  access := ∅
  members := ∅

inductive SettingsField where
  | name
  | description
  | created
  | autoCleanup
  | cleanupThresholdPct
  | color (nodeId : String)
  | access (nodeId : String)
  | member (peer : String)

inductive SettingsChange where
  | name (name : String)
  | description (description : String)
  | created (createdAt : Nat) (createdBy : String)
  | autoCleanup (autoCleanup : Bool)
  | cleanupThresholdPct (pct : Nat)
  | color (nodeId : String) (color : Option FolderColor)
  | access (nodeId : String) (entries : Option (List AccessEntry))
  | member (peer : String) (member : SidecarMember)

namespace SettingsChange

def field : SettingsChange → SettingsField
  | .name _ => .name
  | .description _ => .description
  | .created _ _ => .created
  | .autoCleanup _ => .autoCleanup
  | .cleanupThresholdPct _ => .cleanupThresholdPct
  | .color nodeId _ => .color nodeId
  | .access nodeId _ => .access nodeId
  | .member peer _ => .member peer

def apply : SettingsChange → Sidecar → Sidecar
  | .name value, document => { document with name := value }
  | .description value, document => { document with description := value }
  | .created createdAt createdBy, document => { document with v := 1, createdAt, createdBy }
  | .autoCleanup value, document => { document with autoCleanup := value }
  | .cleanupThresholdPct value, document => { document with cleanupThresholdPct := value }
  | .color nodeId (some value), document => { document with colors := document.colors.insert nodeId value }
  | .color nodeId none, document => { document with colors := document.colors.erase nodeId }
  | .access nodeId (some entries), document => { document with access := document.access.insert nodeId entries }
  | .access nodeId none, document => { document with access := document.access.erase nodeId }
  | .member peer value, document => { document with members := document.members.insert peer value }

def Shown : SettingsChange → Sidecar → Prop
  | .name value, document => document.name = value
  | .description value, document => document.description = value
  | .created createdAt createdBy, document =>
    document.v = 1 ∧ document.createdAt = createdAt ∧ document.createdBy = createdBy
  | .autoCleanup value, document => document.autoCleanup = value
  | .cleanupThresholdPct value, document => document.cleanupThresholdPct = value
  | .color nodeId value, document => document.colors[nodeId]? = value
  | .access nodeId entries, document => document.access[nodeId]? = entries
  | .member peer value, document => document.members[peer]? = some value

theorem shown_apply (change : SettingsChange) (document : Sidecar) : change.Shown (change.apply document) := by
  cases change with
  | created createdAt createdBy => exact ⟨rfl, rfl, rfl⟩
  | color nodeId value => cases value <;> simp [Shown, apply]
  | access nodeId entries => cases entries <;> simp [Shown, apply]
  | member peer value => simp [Shown, apply]
  | _ => rfl

theorem shown_other (change other : SettingsChange) (document : Sidecar) (apart : change.field ≠ other.field)
    (shown : change.Shown document) : change.Shown (other.apply document) := by
  cases other with
  | color nodeId value =>
    cases change with
    | color node _ =>
      have ne : nodeId ≠ node := fun same => apart (same ▸ rfl)
      cases value <;> simpa [Shown, apply, Map.get_insert, Map.get_erase, ne] using shown
    | _ => cases value <;> exact shown
  | access nodeId entries =>
    cases change with
    | access node _ =>
      have ne : nodeId ≠ node := fun same => apart (same ▸ rfl)
      cases entries <;> simpa [Shown, apply, Map.get_insert, Map.get_erase, ne] using shown
    | _ => cases entries <;> exact shown
  | member peer value =>
    cases change with
    | member other _ =>
      have ne : peer ≠ other := fun same => apart (same ▸ rfl)
      simpa [Shown, apply, Map.get_insert, ne] using shown
    | _ => exact shown
  | _ =>
    cases change with
    | color _ _ | access _ _ | member _ _ => exact shown
    | _ => first | exact shown | exact absurd rfl apart

/-- The member entries of peers other than `own` are left alone. -/
def OwnedBy (own : String) : SettingsChange → Prop
  | .member other _ => other = own
  | _ => True

end SettingsChange

def settingsEditing : Editing Sidecar SettingsChange SettingsField where
  field := SettingsChange.field
  apply := SettingsChange.apply
  Shown := SettingsChange.Shown
  shown_apply := SettingsChange.shown_apply
  shown_other := SettingsChange.shown_other

/-- A manifest of the file that the host took, with its content. What was changed, and whether
the command has returned success, is kept for the statements only. -/
structure Saved where
  version : Nat
  content : Sidecar
  changes : List SettingsChange
  succeeded : Bool

/-- The manifest that a replica has after so many of the records. -/
def manifestAt (log : List Saved) : Nat → Option Saved
  | 0 => none
  | seen + 1 => log[seen]?

def versionAt (log : List Saved) (seen : Nat) : Nat := ((manifestAt log seen).map Saved.version).getD 0

def contentAt (log : List Saved) (seen : Nat) : Sidecar :=
  ((manifestAt log seen).map Saved.content).getD Sidecar.default

inductive Purpose where
  | sync (mine : SidecarMember)
  /-- The answer comes from what is in memory. -/
  | access
  /-- The tree is projected again, and the node is looked up in it. -/
  | settle (nodeId : Option String)

structure Write where
  next : Sidecar
  version : Nat
  /-- The replica has no such file yet, so the upload ends in a new link. -/
  creates : Bool
  changes : List SettingsChange
  purpose : Purpose
  /-- The number of its record, once the host has taken it. -/
  taken : Option Nat

structure Profile where
  peerId : String
  name : String
  color : String
  clientId : String
  contributionBytes : Nat

/-- The part of a vault task that is about the settings, and how many records of the file its
replica has. `checked` and `published` are for the statements only: where the last complete
`refresh_sidecar` started, and the own entry as of when `sidecar_pending` was cleared. -/
structure SettingsTask where
  connected : Bool
  profile : Profile
  serverId : String
  rootId : String
  entries : List String
  initialMeta : Option String
  sidecar : Sidecar
  sidecarVersion : Nat
  sidecarPending : Bool
  seen : Nat
  writing : Option Write
  /-- Writes that the task has given up while they were on their way. -/
  late : List Write
  checked : Nat
  published : Option SidecarMember

/-- A task that was just spawned over the replica of an earlier one. -/
def SettingsTask.spawn (seen : Nat) (late : List Write) (profile : Profile) (serverId rootId : String)
    (initialMeta : Option String) : SettingsTask where
  connected := false
  profile := profile
  serverId := serverId
  rootId := rootId
  entries := []
  initialMeta := initialMeta
  sidecar := Sidecar.default
  sidecarVersion := 0
  sidecarPending := false
  seen := seen
  writing := none
  late := late
  checked := 0
  published := none

namespace SettingsTask

/-- `through` bounds how far the records come that arrive. -/
def advance (log : List Saved) (through seen : Nat) : Nat := max seen (min through log.length)

/-- `assembled` is `none` when the chunk is not there and could not be pulled; else it says how
far the replica has come when the file is read. -/
def refreshSidecar (log : List Saved) (assembled : Option Nat) (task : SettingsTask) : SettingsTask :=
  match manifestAt log task.seen with
  | none => { task with checked := task.seen }
  | some trusted =>
    if trusted.version = task.sidecarVersion then { task with checked := task.seen }
    else match assembled with
      | none => task
      | some through =>
        let seen := advance log through task.seen
        { task with
          sidecar := contentAt log seen
          sidecarVersion := trusted.version
          seen
          checked := task.seen }

/-- `save_file` counts from the manifest on the replica. -/
def saveVersion (log : List Saved) (task : SettingsTask) : Result Nat :=
  match manifestAt log task.seen with
  | none => .ok 1
  | some trusted => checkedAdd trusted.version 1 (.state "manifest version exhausted")

/-- `write_sidecar` up to where the upload is sent. -/
def writeSidecar (log : List Saved) (next : Sidecar) (changes : List SettingsChange) (purpose : Purpose)
    (task : SettingsTask) : SettingsTask :=
  if task.connected then
    match task.saveVersion log with
    | .ok version =>
      { task with
        writing := some ⟨next, version, (manifestAt log task.seen).isNone, changes, purpose, none⟩ }
    | .error _ => task
  else task

def mine (task : SettingsTask) : SidecarMember :=
  ⟨task.profile.name, task.profile.color, task.profile.clientId, task.profile.contributionBytes⟩

def openSidecar (own : String) (now : Nat) (task : SettingsTask) : Option String × Sidecar × List SettingsChange :=
  match task.initialMeta with
  | none => (none, task.sidecar, [])
  | some name =>
    if task.sidecar.createdAt = 0 then
      (some name, { task.sidecar with v := 1, name, createdAt := now, createdBy := own },
        [.name name, .created now own])
    else (none, task.sidecar, [])

def syncSidecar (log : List Saved) (own : String) (now : Nat) (task : SettingsTask) : SettingsTask :=
  if task.connected then
    if (manifestAt log task.seen).isNone ∧ task.initialMeta.isNone then task
    else
      let (initialMeta, next, opened) := task.openSidecar own now
      let task := { task with initialMeta }
      if next.members[own]? = some task.mine then
        if opened = [] then { task with sidecarPending := false, published := some task.mine }
        else task.writeSidecar log next opened (.sync task.mine)
      else
        task.writeSidecar log { next with members := next.members.insert own task.mine }
          (opened ++ [.member own task.mine]) (.sync task.mine)
  else task

end SettingsTask

structure VaultMetaPatch where
  name : Option String
  description : Option String
  serverId : Option String
  autoCleanup : Option Bool
  cleanupThresholdPct : Option Nat

inductive SettingsCommand where
  | renameRoot (name : String)
  | setNodeColor (nodeId : String) (color : Option FolderColor)
  | setAccess (nodeId : String) (inherit : Bool) (entries : List AccessEntry)
  | updateVaultMeta (patch : VaultMetaPatch)

def vaultNameFits (name : String) : Bool := !name.isEmpty && name.length ≤ 40

namespace SettingsTask

def requireEntry (nodeId : String) (task : SettingsTask) : Except String Unit :=
  if nodeId ∈ task.entries then .ok () else .error ("Unknown node: " ++ nodeId)

/-- The canonical id of the user stands for this vault's peer. -/
def stored (own : String) (task : SettingsTask) (peerId : String) : String :=
  if peerId = task.profile.peerId then own else peerId

/-- The creator is left out, and so is a peer that was listed before. -/
def accessEntries (creator : String) (stored : String → String) : List String → List AccessEntry → List AccessEntry
  | _, [] => []
  | known, entry :: entries =>
    let peerId := stored entry.peerId
    if peerId = creator ∨ peerId ∈ known then accessEntries creator stored known entries
    else ⟨peerId, entry.level⟩ :: accessEntries creator stored (peerId :: known) entries

def renameRoot (name : String) (task : SettingsTask) : Except String Sidecar :=
  let name := trimmed name
  if vaultNameFits name then .ok { task.sidecar with name } else .error "Invalid vault name"

def setNodeColor (nodeId : String) (color : Option FolderColor) (task : SettingsTask) : Except String Sidecar := do
  task.requireEntry nodeId
  match color with
  | some color => pure { task.sidecar with colors := task.sidecar.colors.insert nodeId color }
  | none => pure { task.sidecar with colors := task.sidecar.colors.erase nodeId }

def setAccess (own nodeId : String) (inherit : Bool) (entries : List AccessEntry) (task : SettingsTask) :
    Except String Sidecar := do
  task.requireEntry nodeId
  if inherit then pure { task.sidecar with access := task.sidecar.access.erase nodeId }
  else
    let entries := accessEntries task.sidecar.createdBy (task.stored own) [] entries
    pure { task.sidecar with access := task.sidecar.access.insert nodeId entries }

def updateVaultMeta (patch : VaultMetaPatch) (task : SettingsTask) : Except String Sidecar :=
  if patch.serverId.any (· ≠ task.serverId) then .error "Vaults cannot move between servers"
  else if patch.name.any fun name => !vaultNameFits (trimmed name) then .error "Invalid vault name"
  else .ok { task.sidecar with
    name := (patch.name.map trimmed).getD task.sidecar.name
    description := patch.description.getD task.sidecar.description
    autoCleanup := patch.autoCleanup.getD task.sidecar.autoCleanup
    cleanupThresholdPct :=
      (patch.cleanupThresholdPct.map fun pct => max 1 (min pct 100)).getD task.sidecar.cleanupThresholdPct }

def planSettings (own : String) (task : SettingsTask) : SettingsCommand → Except String Sidecar
  | .renameRoot name => task.renameRoot name
  | .setNodeColor nodeId color => task.setNodeColor nodeId color
  | .setAccess nodeId inherit entries => task.setAccess own nodeId inherit entries
  | .updateVaultMeta patch => task.updateVaultMeta patch

def changesOf (own : String) (task : SettingsTask) : SettingsCommand → List SettingsChange
  | .renameRoot name => [.name (trimmed name)]
  | .setNodeColor nodeId color => [.color nodeId color]
  | .setAccess nodeId inherit entries =>
    [.access nodeId (if inherit then none
      else some (accessEntries task.sidecar.createdBy (task.stored own) [] entries))]
  | .updateVaultMeta patch =>
    (patch.name.map fun name => SettingsChange.name (trimmed name)).toList ++
      (patch.description.map SettingsChange.description).toList ++
      (patch.autoCleanup.map SettingsChange.autoCleanup).toList ++
      (patch.cleanupThresholdPct.map fun pct => SettingsChange.cleanupThresholdPct (max 1 (min pct 100))).toList

def purposeOf (task : SettingsTask) : SettingsCommand → Purpose
  | .renameRoot _ => .settle (some task.rootId)
  | .setNodeColor nodeId _ => .settle (some nodeId)
  | .setAccess _ _ _ => .access
  | .updateVaultMeta _ => .settle none

def command (log : List Saved) (own : String) (command : SettingsCommand) (task : SettingsTask) : SettingsTask :=
  match task.planSettings own command with
  | .ok next => task.writeSidecar log next (task.changesOf own command) (task.purposeOf command)
  | .error _ => task

def finish (log : List Saved) (write : Write) (position through : Nat) (projected : List String)
    (task : SettingsTask) : SettingsTask :=
  let seen := advance log through (max task.seen position)
  let task := { task with
    sidecar := write.next
    sidecarVersion := versionAt log seen
    seen
    writing := none }
  match write.purpose with
  | .sync mine => { task with initialMeta := none, sidecarPending := false, published := some mine }
  | .access => task
  | .settle _ => { task with entries := projected }

end SettingsTask

/-- Whether the command returns success after a successful write. -/
def Purpose.answered (projected : List String) : Purpose → Bool
  | .sync _ | .access => true
  | .settle nodeId => nodeId.all fun nodeId => nodeId ∈ projected

/-- `log` are the manifests of the file in the order in which the host took them. Members go by
the hex of their peer. -/
structure Settings where
  log : List Saved
  tasks : String → SettingsTask

inductive SettingsEvent where
  /-- The task of a member is spawned; `initialMeta` is given to the creator of the vault. -/
  | spawn (who : String) (profile : Profile) (serverId rootId : String) (initialMeta : Option String)
  | join (who : String)
  | leave (who : String)
  | profileChanged (who : String) (profile : Profile)
  | project (who : String) (entries : List String)
  /-- Records arrive at a member. -/
  | deliver (who : String) (through : Nat)
  | refresh (who : String) (assembled : Option Nat)
  | sync (who : String) (now : Nat)
  | command (who : String) (command : SettingsCommand)
  /-- The host takes the next upload of a member. -/
  | accept (who : String)
  /-- The uploads of a connection that was given up do not reach the host. -/
  | lose (who : String)
  | finish (who : String) (through : Nat) (projected : List String)
  | fail (who : String)

namespace Settings

def setTask (who : String) (task : SettingsTask) (settings : Settings) : Settings :=
  { settings with tasks := Function.update settings.tasks who task }

/-- A task does one thing at a time: while a write is on its way it waits. -/
def idly (who : String) (step : SettingsTask → SettingsTask) (settings : Settings) : Settings :=
  if (settings.tasks who).writing.isNone then settings.setTask who (step (settings.tasks who)) else settings

def Refused (write : Write) (settings : Settings) : Prop := write.creates = true ∧ settings.log ≠ []

instance (write : Write) (settings : Settings) : Decidable (settings.Refused write) :=
  inferInstanceAs (Decidable (_ ∧ _))

def take (write : Write) (settings : Settings) : Settings :=
  { settings with log := settings.log ++ [⟨write.version, write.next, write.changes, false⟩] }

def accept (who : String) (settings : Settings) : Settings :=
  let task := settings.tasks who
  match task.late with
  | write :: late =>
    let settings := settings.setTask who { task with late }
    if settings.Refused write then settings else settings.take write
  | [] =>
    match task.writing with
    | none => settings
    | some write =>
      if write.taken.isSome ∨ settings.Refused write then settings
      else
        let settings := settings.take write
        settings.setTask who { task with writing := some { write with taken := some settings.log.length } }

def succeed (position : Nat) (settings : Settings) : Settings :=
  { settings with log := settings.log.modify (position - 1) fun saved => { saved with succeeded := true } }

def finish (who : String) (through : Nat) (projected : List String) (settings : Settings) : Settings :=
  let task := settings.tasks who
  match task.writing with
  | none => settings
  | some write =>
    match write.taken with
    | none => settings
    | some position =>
      let settings' := settings.setTask who (task.finish settings.log write position through projected)
      if write.purpose.answered projected then settings'.succeed position else settings'

def fail (who : String) (settings : Settings) : Settings :=
  let task := settings.tasks who
  match task.writing with
  | none => settings
  | some write =>
    settings.setTask who { task with
      writing := none
      late := if write.taken.isNone then task.late ++ [write] else task.late }

def exec : SettingsEvent → Settings → Settings
  | .spawn who profile serverId rootId initialMeta => idly who fun task =>
    .spawn task.seen task.late profile serverId rootId initialMeta
  | .join who => idly who fun task => { task with connected := true, sidecarPending := true }
  | .leave who => idly who fun task => { task with connected := false }
  | .profileChanged who profile => idly who fun task => { task with profile, sidecarPending := true }
  | .project who entries => idly who fun task => { task with entries }
  | .deliver who through => fun settings =>
    settings.idly who fun task =>
      if task.connected then { task with seen := SettingsTask.advance settings.log through task.seen } else task
  | .refresh who assembled => fun settings => settings.idly who (SettingsTask.refreshSidecar settings.log assembled)
  | .sync who now => fun settings => settings.idly who (SettingsTask.syncSidecar settings.log who now)
  | .command who command => fun settings => settings.idly who (SettingsTask.command settings.log who command)
  | .accept who => accept who
  | .lose who => fun settings => settings.setTask who { settings.tasks who with late := [] }
  | .finish who through projected => finish who through projected
  | .fail who => fail who

/-- A vault with no settings file, before any member has started. -/
def new : Settings where
  log := []
  tasks _ := .spawn 0 [] ⟨"", "", "", "", 0⟩ "" "" none

end Settings

def settingsMachine : Machine Settings SettingsEvent where
  exec := Settings.exec

end QuantumFs.Client
