import QuantumFs.Net.AdminText

/-! The root loop of the desktop client (`node/mod.rs`): the servers it lists, the
`STATUS` it caches for each, and what the tasks of the vaults are handed of it. -/
namespace QuantumFs.Net

open Lib Crypto

/-- A code the host printed: the short form when it is one, and the code itself. -/
def resolveJoinCode [Primitives] (text : Text) : Option (Option Text × JoinCode) :=
  match ShortCode.normalize text with
  | some short => (ShortCode.derive short).toOption.map fun code => (some short, code)
  | none => (JoinCode.fromStr (Text.trim text)).toOption.map fun code => (none, code)

namespace AdminStatus

def vault (status : AdminStatus) (vaultHex : Text) : Option AdminVault :=
  status.vaults.find? (·.vault = vaultHex)

def membersOf (status : AdminStatus) (vaultHex : Text) : List AdminMember :=
  status.members.filter (·.vault = vaultHex)

end AdminStatus

end QuantumFs.Net

namespace QuantumFs.Client

open Lib Net Crypto

def adminFailuresBeforeOffline : Nat := 2

def defaultCapacityBytes : Nat := 137438953472

def unauthorized : Text := "That server rejected the connect string".toList

def unreachable : Text := "Could not reach that server".toList

structure AdminTarget where
  addr : Text
  token : Text

structure ServerRecord where
  id : Text
  name : Text
  address : Text
  token : Option Text
  hostPeerId : Option Text
  directoryAddr : Option Text
  capacityBytes : Nat
  online : Bool

inductive VaultRole where
  | owner
  | member

structure VaultRecord where
  vaultId : Text
  serverId : Text
  joinCode : Text
  name : Text
  role : VaultRole
  directoryAddr : Text
  joinedOnce : Bool

structure VaultSnapshot where
  joinCode : Text
  quotaBytes : Nat
  usedBytes : Nat
  memberCount : Nat
  createdMs : Nat
  creator : Option Text
  members : List AdminMember

inductive VaultReq where
  | admin (target : Option AdminTarget)
  | status (snapshot : VaultSnapshot)

/-- A running vault task: `sent` is all that went down its channel. -/
structure Live where
  record : VaultRecord
  sent : List VaultReq

structure RootState where
  servers : List ServerRecord
  vaults : List Live
  statuses : Text → Option AdminStatus
  adminFailures : Text → Nat

def serverIdFor (address : Text) : Text :=
  ['s', 'r', 'v', '_'] ++ address.map fun c => if c = ':' ∨ c = '.' then '_' else c

/-- The address and the token of a connect string `IP:PORT/TOKEN`. -/
def connectString (address : Text) : Text × Option Text :=
  let raw := Text.trim address
  match raw.findIdx? (· = '/') with
  | some slash =>
    if Text.trim (raw.drop (slash + 1)) ≠ [] then
      (Text.trim (raw.take slash), some (Text.trim (raw.drop (slash + 1))))
    else (raw.rdropWhile (· = '/'), none)
  | none => (raw, none)

inductive Dial where
  | refused (message : Text)
  | answered (status : AdminStatus)

def numbersMatch (previous : Option AdminStatus) (next : AdminStatus) : Bool :=
  match previous with
  | none => false
  | some previous =>
    previous.vaults.length = next.vaults.length && previous.members.length = next.members.length &&
      (previous.vaults.zip next.vaults).all (fun (a, b) =>
        a.vault = b.vault && a.usedBytes = b.usedBytes && a.quotaBytes = b.quotaBytes &&
          a.memberCount = b.memberCount && a.onlineCount = b.onlineCount && a.joinCode = b.joinCode) &&
      (previous.members.zip next.members).all fun (a, b) =>
        a.peer = b.peer && a.online = b.online && a.queuedOps = b.queuedOps

def ServerRecord.answered (record : ServerRecord) (status : AdminStatus) : ServerRecord :=
  { record with
    online := true
    hostPeerId := some status.server.hostPeer
    directoryAddr := some status.server.directoryAddr
    capacityBytes := status.server.capacityBytes }

def sameServer (record previous : ServerRecord) : Bool :=
  previous.id = record.id || (record.hostPeerId.isSome && previous.hostPeerId = record.hostPeerId)

/-- A record takes over what the entry of the same host already has. -/
def ServerRecord.upgrade (record previous : ServerRecord) (name : Text) : ServerRecord :=
  { record with
    id := previous.id
    name := if Text.trim name = [] ∧ previous.name ≠ [] then previous.name else record.name
    hostPeerId := record.hostPeerId <|> previous.hostPeerId
    directoryAddr := record.directoryAddr <|> previous.directoryAddr }

namespace RootState

variable (root : RootState)

def adminTarget (record : ServerRecord) : AdminTarget := ⟨record.address, record.token.getD []⟩

def pushAdminTargets : RootState := { root with
  vaults := root.vaults.map fun live => { live with
    sent := live.sent ++ [.admin ((root.servers.find? (·.id = live.record.serverId)).map adminTarget)] } }

/-- `opens` is whether the identity of the vault opens. -/
def startVault (record : VaultRecord) (opens : Bool) : RootState :=
  if opens then { root with vaults := root.vaults ++ [⟨record, []⟩] } else root

/-- `statuses.insert`, with the failures of the server forgotten. -/
def putStatus (serverId : Text) : Option AdminStatus → RootState
  | some status => { root with
      statuses := Function.update root.statuses serverId (some status)
      adminFailures := Function.update root.adminFailures serverId 0 }
  | none => root

def addServer (Addr : Type) [SocketAddr Addr] (name address : Text) (dial : Dial) :
    Except Text RootState :=
  let (addr, token) := connectString address
  match (SocketAddr.parse (String.ofList addr) : Option Addr) with
  | none => .error "Invalid server address".toList
  | some _ =>
    match dial with
    | .refused message => .error (if token.isSome then message else unreachable)
    | .answered answer =>
      let status := token.map fun _ => answer
      let record : ServerRecord :=
        { id := serverIdFor addr, name := if Text.trim name = [] then addr else Text.trim name
          address := addr, token, hostPeerId := none, directoryAddr := none
          capacityBytes := defaultCapacityBytes, online := false }
      let record := (status.map (record.answered)).getD record
      match root.servers.find? (sameServer record) with
      | some previous =>
        let upgraded := record.upgrade previous name
        let servers := root.servers.replaceF fun other =>
          if sameServer record other then some upgraded else none
        .ok ({ root with servers }.putStatus upgraded.id status).pushAdminTargets
      | none =>
        let servers := root.servers ++ [record]
        .ok ({ root with servers }.putStatus record.id status).pushAdminTargets

def advertisedBy (adminAddr hostPeer : Text) (record : ServerRecord) : Bool :=
  record.id = serverIdFor adminAddr || record.hostPeerId = some hostPeer

def refresh (adminAddr hostPeer directoryAddr : Text) (status : Option AdminStatus)
    (record : ServerRecord) : ServerRecord :=
  let record := { record with
    hostPeerId := some hostPeer
    directoryAddr := if record.directoryAddr.getD [] = [] then some directoryAddr else record.directoryAddr }
  match status with
  | some status =>
    let address := if record.token.isNone then adminAddr else record.address
    { record with address }.answered status
  | none => record

/-- The id the record of the vault must carry is the second part. -/
def ensureServer (adminAddr hostPeer directoryAddr : Text) (status : Option AdminStatus) :
    RootState × Text :=
  let known := advertisedBy adminAddr hostPeer
  let servers := if root.servers.any known then root.servers else root.servers ++
    [{ id := serverIdFor adminAddr, name := adminAddr, address := adminAddr, token := none
       hostPeerId := some hostPeer, directoryAddr := some directoryAddr
       capacityBytes := defaultCapacityBytes, online := false }]
  let serverId := ((servers.find? known).map (·.id)).getD (serverIdFor adminAddr)
  let servers := servers.replaceF fun record =>
    if known record then some (refresh adminAddr hostPeer directoryAddr status record) else none
  ({ root with servers }.putStatus serverId status, serverId)

section

variable [Primitives]

def createVault (server : ServerRecord) (name vaultHex replyCode : Text) (opens : Bool) : RootState :=
  match resolveJoinCode replyCode with
  | none => root
  | some (_, code) =>
    let directoryAddr := ((root.statuses server.id).map (·.server.directoryAddr) <|>
      server.directoryAddr).getD []
    root.startVault ⟨vaultHex, server.id, JoinCode.text code, Text.trim name, .owner, directoryAddr, false⟩
      opens

/-- The vault an advertisement led to, with what its host answered to the probe. -/
def joinVault (adminAddr hostPeer directoryAddr : Text) (probe : Option AdminStatus)
    (vaultHex : Text) (code : JoinCode) (opens : Bool) : RootState :=
  let (root, serverId) := root.ensureServer adminAddr hostPeer directoryAddr probe
  (root.startVault ⟨vaultHex, serverId, JoinCode.text code, [], .member, directoryAddr, false⟩
    opens).pushAdminTargets

end

def dropVault (vaultHex : Text) : RootState := { root with
  vaults := root.vaults.eraseP (·.record.vaultId = vaultHex) }

end RootState

def snapshotOf (status : AdminStatus) (vaultId : Text) (numbers : AdminVault) : VaultSnapshot where
  joinCode := numbers.joinCode
  quotaBytes := numbers.quotaBytes
  usedBytes := numbers.usedBytes
  memberCount := numbers.memberCount
  createdMs := numbers.createdMs
  creator := numbers.creator
  members := status.membersOf vaultId

section

variable [Primitives]

def Live.handed (status : AdminStatus) (live : Live) : Live :=
  match status.vault live.record.vaultId with
  | none => live
  | some numbers =>
    { record := match resolveJoinCode numbers.joinCode with
        | some (_, code) => { live.record with joinCode := JoinCode.text code }
        | none => live.record
      sent := live.sent ++ [.status (snapshotOf status live.record.vaultId numbers)] }

def RootState.applyAdmin (root : RootState) (serverId : Text) : Except Text AdminStatus → RootState
  | .ok status =>
    -- An answer whose numbers are the cached ones is not handed on.
    let vaults := if numbersMatch (root.statuses serverId) status then root.vaults
      else root.vaults.map fun live =>
        if live.record.serverId = serverId then live.handed status else live
    let servers := root.servers.replaceF fun record =>
      if record.id = serverId then some (record.answered status) else none
    ({ root with servers, vaults }.putStatus serverId (some status)).pushAdminTargets
  | .error message =>
    if message = unauthorized then
      let cleared := (root.servers.find? (·.id = serverId)).any (·.token.isSome)
      let servers := root.servers.replaceF fun record =>
        if record.id = serverId then some { record with token := none } else none
      if cleared then { root with servers }.pushAdminTargets else { root with servers }
    else
      let failures := min (root.adminFailures serverId + 1) (2 ^ 32 - 1)
      let root := { root with adminFailures := Function.update root.adminFailures serverId failures }
      let servers := root.servers.replaceF fun record =>
        if record.id = serverId then some { record with online := false } else none
      if adminFailuresBeforeOffline ≤ failures then
        { root with servers, statuses := Function.update root.statuses serverId none }
      else root

end

def vaultNumbers (vault : AdminVault) : Text × Nat × Nat × Nat × Nat × Text :=
  (vault.vault, vault.usedBytes, vault.quotaBytes, vault.memberCount, vault.onlineCount, vault.joinCode)

def memberNumbers (member : AdminMember) : Text × Bool × Nat :=
  (member.peer, member.online, member.queuedOps)

private theorem zip_all_iff {α β : Type} [DecidableEq β] (f : α → β) (same : α × α → Bool)
    (known : ∀ a b, same (a, b) = true ↔ f a = f b) :
    ∀ (left right : List α), left.length = right.length →
      ((left.zip right).all same = true ↔ left.map f = right.map f) := by
  intro left
  induction left with
  | nil =>
    intro right size
    cases right with
    | nil => exact ⟨fun _ => rfl, fun _ => rfl⟩
    | cons b right => cases size
  | cons a left ih =>
    intro right size
    cases right with
    | nil => cases size
    | cons b right =>
      have ih := ih right (Nat.succ.inj size)
      simp only [List.zip_cons_cons, List.all_cons, Bool.and_eq_true, List.map_cons, List.cons.injEq,
        known, ih]

theorem numbersMatch_iff {previous next : AdminStatus} :
    numbersMatch (some previous) next = true ↔
      previous.vaults.map vaultNumbers = next.vaults.map vaultNumbers ∧
        previous.members.map memberNumbers = next.members.map memberNumbers := by
  have vaults := zip_all_iff vaultNumbers
    (fun (a, b) => a.vault = b.vault && a.usedBytes = b.usedBytes &&
      a.quotaBytes = b.quotaBytes && a.memberCount = b.memberCount &&
      a.onlineCount = b.onlineCount && a.joinCode = b.joinCode)
    (fun a b => by simp [vaultNumbers, and_assoc]) previous.vaults next.vaults
  have members := zip_all_iff memberNumbers
    (fun (a, b) => a.peer = b.peer && a.online = b.online && a.queuedOps = b.queuedOps)
    (fun a b => by simp [memberNumbers, and_assoc]) previous.members next.members
  unfold numbersMatch
  simp only [Bool.and_eq_true, decide_eq_true_eq]
  constructor
  · rintro ⟨⟨⟨vaultSize, memberSize⟩, sameVaults⟩, sameMembers⟩
    exact ⟨(vaults vaultSize).mp sameVaults, (members memberSize).mp sameMembers⟩
  · rintro ⟨sameVaults, sameMembers⟩
    have vaultSize : previous.vaults.length = next.vaults.length := by
      simpa using congrArg List.length sameVaults
    have memberSize : previous.members.length = next.members.length := by
      simpa using congrArg List.length sameMembers
    exact ⟨⟨⟨vaultSize, memberSize⟩, (vaults vaultSize).mpr sameVaults⟩, (members memberSize).mpr sameMembers⟩

/-- The member rows stand vault by vault, as many as the row of each vault says. -/
def Grouped (status : AdminStatus) : Prop :=
  status.members.map (·.vault) =
    status.vaults.flatMap fun vault => List.replicate vault.memberCount vault.vault

instance (status : AdminStatus) : Decidable (Grouped status) :=
  inferInstanceAs (Decidable (_ = _))

theorem grouped_reports (server : AdminServer) (reports : List VaultReport) :
    Grouped ⟨server, reports.map VaultReport.readVault, reports.flatMap fun report =>
      report.members.map (VaultReport.readMember report.line.vaultId)⟩ := by
  unfold Grouped
  simp only [List.map_flatMap, List.flatMap_map, List.map_map]
  refine List.flatMap_congr fun report _ => ?_
  exact List.map_const'

theorem vault_of_numbers {previous next : AdminStatus}
    (same : previous.vaults.map vaultNumbers = next.vaults.map vaultNumbers) (vaultHex : Text) :
    (previous.vault vaultHex).map vaultNumbers = (next.vault vaultHex).map vaultNumbers := by
  have find : ∀ status : AdminStatus, (status.vault vaultHex).map vaultNumbers =
      (status.vaults.map vaultNumbers).find? (·.1 = vaultHex) := by
    intro status
    rw [List.find?_map]
    rfl
  rw [find, find, same]

theorem members_of_numbers {previous next : AdminStatus} (grouped : Grouped previous)
    (groupedNext : Grouped next) (same : numbersMatch (some previous) next = true) (vaultHex : Text) :
    (previous.membersOf vaultHex).map memberNumbers = (next.membersOf vaultHex).map memberNumbers := by
  obtain ⟨sameVaults, sameMembers⟩ := numbersMatch_iff.mp same
  have owners : previous.members.map (·.vault) = next.members.map (·.vault) := by
    have counts : ∀ status : AdminStatus,
        (status.vaults.flatMap fun vault => List.replicate vault.memberCount vault.vault) =
          (status.vaults.map vaultNumbers).flatMap fun numbers =>
            List.replicate numbers.2.2.2.1 numbers.1 := by
      intro status
      rw [List.flatMap_map]
      rfl
    rw [grouped, groupedNext, counts, counts, sameVaults]
  have rows : previous.members.map (fun member => (member.vault, memberNumbers member)) =
      next.members.map fun member => (member.vault, memberNumbers member) := by
    have zipped : ∀ members : List AdminMember,
        members.map (fun member => (member.vault, memberNumbers member)) =
          (members.map (·.vault)).zip (members.map memberNumbers) :=
      fun members => List.zip_map'.symm
    rw [zipped, zipped, owners, sameMembers]
  have pick : ∀ status : AdminStatus, (status.membersOf vaultHex).map memberNumbers =
      ((status.members.map fun member => (member.vault, memberNumbers member)).filter
        (·.1 = vaultHex)).map Prod.snd := by
    intro status
    rw [List.filter_map, List.map_map]
    rfl
  rw [pick, pick, rows]

def VaultReq.snapshot? : VaultReq → Option VaultSnapshot
  | .status snapshot => some snapshot
  | .admin _ => none

/-- The newest snapshot that went down the channel. -/
def Live.latest (live : Live) : Option VaultSnapshot := (live.sent.filterMap VaultReq.snapshot?).getLast?

/-- The snapshot carries the numbers of a vault row and of its member rows. -/
structure VaultSnapshot.Shows (snapshot : VaultSnapshot) (status : AdminStatus) (numbers : AdminVault) :
    Prop where
  joinCode : snapshot.joinCode = numbers.joinCode
  quotaBytes : snapshot.quotaBytes = numbers.quotaBytes
  usedBytes : snapshot.usedBytes = numbers.usedBytes
  memberCount : snapshot.memberCount = numbers.memberCount
  members : snapshot.members.map memberNumbers = (status.membersOf numbers.vault).map memberNumbers

section

variable [Primitives]

/-- The task is up to date with an answer that mentions its vault. -/
def Sees (status : AdminStatus) (live : Live) : Prop :=
  ∀ numbers, status.vault live.record.vaultId = some numbers →
    (∃ snapshot, live.latest = some snapshot ∧ snapshot.Shows status numbers) ∧
      ∀ short code, resolveJoinCode numbers.joinCode = some (short, code) →
        live.record.joinCode = JoinCode.text code

theorem sees_of_matching {previous next : AdminStatus} (grouped : Grouped previous)
    (groupedNext : Grouped next) (same : numbersMatch (some previous) next = true) {live : Live}
    (sees : Sees previous live) : Sees next live := by
  intro numbers listed
  have sameVault := vault_of_numbers (numbersMatch_iff.mp same).1 live.record.vaultId
  rw [listed, Option.map_some] at sameVault
  obtain ⟨old, oldListed, sameNumbers⟩ := Option.map_eq_some_iff.mp sameVault
  obtain ⟨⟨snapshot, latest, shows⟩, code⟩ := sees old oldListed
  simp only [vaultNumbers, Prod.mk.injEq] at sameNumbers
  obtain ⟨vault, used, quota, count, _, joinCode⟩ := sameNumbers
  refine ⟨⟨snapshot, latest, ?_⟩, joinCode ▸ code⟩
  refine ⟨shows.joinCode.trans joinCode, shows.quotaBytes.trans quota, shows.usedBytes.trans used,
    shows.memberCount.trans count, ?_⟩
  rw [shows.members, vault]
  exact members_of_numbers grouped groupedNext same numbers.vault

theorem sees_handed (status : AdminStatus) (live : Live) : Sees status (live.handed status) := by
  unfold Live.handed
  cases listed : status.vault live.record.vaultId with
  | none =>
    intro numbers found
    rw [listed] at found
    cases found
  | some row =>
    have owner : row.vault = live.record.vaultId := by simpa using List.find?_some listed
    intro numbers found
    have same : status.vault live.record.vaultId = some numbers := by
      revert found
      dsimp only
      split <;> exact id
    rw [listed] at same
    obtain rfl := Option.some.inj same
    constructor
    · refine ⟨snapshotOf status live.record.vaultId row, ?_, rfl, rfl, rfl, rfl, ?_⟩
      · unfold Live.latest
        rw [List.filterMap_append]
        exact List.getLast?_concat
      · rw [owner]
        rfl
    · intro short code resolved
      dsimp only
      rw [resolved]

theorem handed_key (status : AdminStatus) (live : Live) :
    (live.handed status).record.serverId = live.record.serverId ∧
      (live.handed status).record.vaultId = live.record.vaultId := by
  unfold Live.handed
  split
  · exact ⟨rfl, rfl⟩
  · dsimp only
    split <;> exact ⟨rfl, rfl⟩

theorem Sees.congr {status : AdminStatus} {live moved : Live} (record : moved.record = live.record)
    (latest : moved.latest = live.latest) (sees : Sees status live) : Sees status moved := by
  unfold Sees
  rw [record, latest]
  exact sees

theorem sees_of_unlisted {status : AdminStatus} {live : Live}
    (unlisted : ¬ (status.vault live.record.vaultId).isSome = true) : Sees status live := by
  intro numbers listed
  rw [listed] at unlisted
  exact absurd rfl unlisted

end

namespace RootState

/-- Every vault folder of the disk, with whether its identity opens. -/
def load (servers : List ServerRecord) (records : List (VaultRecord × Bool)) : RootState :=
  records.foldl (fun root entry => root.startVault entry.1 entry.2)
    ⟨servers, [], fun _ => none, fun _ => 0⟩

end RootState

/-- What the root loop does between two awaits. -/
inductive RootOp where
  | added (name address : Text) (dial : Dial)
  | created (server : ServerRecord) (name vaultHex replyCode : Text) (opens : Bool)
  | joined (adminAddr hostPeer directoryAddr : Text) (probe : Option AdminStatus) (vaultHex : Text)
      (code : JoinCode) (opens : Bool)
  | dropped (vaultHex : Text)
  | polled (serverId : Text) (answer : Except Text AdminStatus)

def Live.key (live : Live) : Text × Text := (live.record.serverId, live.record.vaultId)

def Live.listed (live : Live) (status : AdminStatus) : Bool := (status.vault live.record.vaultId).isSome

/-- The tasks that a step without an answer leaves behind the cached `STATUS`: the
numbers of a task that runs have moved, or a task starts that the cache lists. -/
def leftBehind (before after : RootState) : List (Text × Text) :=
  let moved := before.vaults.filter fun live =>
    (after.statuses live.record.serverId).any fun status =>
      live.listed status && !numbersMatch (before.statuses live.record.serverId) status
  let started := (after.vaults.drop before.vaults.length).filter fun live =>
    (after.statuses live.record.serverId).any live.listed
  (moved ++ started).map Live.key

/-- The root loop together with the tasks that are behind the cache. -/
structure Monitored where
  root : RootState
  behind : List (Text × Text)

/-- Every answer is grouped as a host prints it, and one with the numbers of the cached
`STATUS` finds no task that is behind. -/
def Calm (m : Monitored) : RootOp → Prop
  | .added _ _ (.answered status) => Grouped status
  | .joined _ _ _ probe _ _ _ => ∀ status ∈ probe, Grouped status
  | .polled serverId (.ok status) => Grouped status ∧
    (numbersMatch (m.root.statuses serverId) status = true → ∀ live ∈ m.root.vaults,
      live.record.serverId = serverId → live.listed status = true → live.key ∉ m.behind)
  | .added _ _ (.refused _) | .created .. | .dropped .. | .polled _ (.error _) => True

/-- A step that hands no snapshot to anyone: the tasks that run keep what they have,
and others may start. -/
def Extended (before after : RootState) : Prop :=
  ∃ (again : Live → Live) (started : List Live), after.vaults = before.vaults.map again ++ started ∧
    ∀ live, (again live).record = live.record ∧ (again live).latest = live.latest

theorem Extended.refl (root : RootState) : Extended root root :=
  ⟨id, [], by rw [List.map_id, List.append_nil], fun _ => ⟨rfl, rfl⟩⟩

theorem Extended.trans {first second third : RootState} (before : Extended first second)
    (after : Extended second third) : Extended first third := by
  obtain ⟨again, started, vaults, kept⟩ := before
  obtain ⟨later, more, moreVaults, moreKept⟩ := after
  refine ⟨later ∘ again, started.map later ++ more, ?_, fun live => ?_⟩
  · rw [moreVaults, vaults, List.map_append, List.map_map, List.append_assoc]
  · exact ⟨(moreKept _).1.trans (kept live).1, (moreKept _).2.trans (kept live).2⟩

theorem latest_admin (live : Live) (target : Option AdminTarget) :
    ({ live with sent := live.sent ++ [.admin target] } : Live).latest = live.latest := by
  unfold Live.latest
  rw [List.filterMap_append]
  exact congrArg List.getLast? (List.append_nil _)

theorem extended_pushAdminTargets (root : RootState) : Extended root root.pushAdminTargets :=
  ⟨_, [], (List.append_nil _).symm, fun live => ⟨rfl, latest_admin live _⟩⟩

theorem extended_startVault (root : RootState) (record : VaultRecord) (opens : Bool) :
    Extended root (root.startVault record opens) := by
  unfold RootState.startVault
  split
  · exact ⟨id, [⟨record, []⟩], by rw [List.map_id], fun _ => ⟨rfl, rfl⟩⟩
  · exact .refl root

theorem statuses_load (servers : List ServerRecord) (records : List (VaultRecord × Bool)) :
    (RootState.load servers records).statuses = fun _ => none := by
  unfold RootState.load
  generalize start : (⟨servers, [], fun _ => none, fun _ => 0⟩ : RootState) = root
  have none : root.statuses = fun _ => none := by rw [← start]
  clear start
  induction records generalizing root with
  | nil => exact none
  | cons entry records ih =>
    refine ih _ ?_
    change (root.startVault entry.1 entry.2).statuses = _
    unfold RootState.startVault
    split <;> exact none

section

variable {root : RootState}

theorem grouped_putStatus (known : ∀ serverId status, root.statuses serverId = some status → Grouped status)
    {answer : Option AdminStatus} (grouped : ∀ status ∈ answer, Grouped status)
    (servers : List ServerRecord) (serverId : Text) :
    ∀ other status, ({ root with servers }.putStatus serverId answer).statuses other = some status →
      Grouped status := by
  intro other status cached
  cases answer with
  | none => exact known other status cached
  | some fresh =>
    change Function.update root.statuses serverId (some fresh) other = some status at cached
    by_cases same : other = serverId
    · rw [same, Function.update_self] at cached
      exact grouped status cached
    · rw [Function.update_of_ne same] at cached
      exact known other status cached

theorem vaults_putStatus (serverId : Text) (answer : Option AdminStatus) :
    (root.putStatus serverId answer).vaults = root.vaults := by
  cases answer <;> rfl

theorem extended_putStatus (servers : List ServerRecord) (serverId : Text) (answer : Option AdminStatus) :
    Extended root ({ root with servers }.putStatus serverId answer) :=
  ⟨id, [], by rw [vaults_putStatus, List.map_id, List.append_nil], fun _ => ⟨rfl, rfl⟩⟩

theorem addServer_eq_ok {Addr : Type} [SocketAddr Addr] {name address : Text} {dial : Dial}
    {after : RootState} (h : root.addServer Addr name address dial = .ok after) :
    ∃ servers serverId answer, dial = .answered answer ∧
      after = ({ root with servers }.putStatus serverId
        ((connectString address).2.map fun _ => answer)).pushAdminTargets := by
  unfold RootState.addServer at h
  dsimp only at h
  split at h
  · cases h
  · split at h
    · cases h
    · rename_i answer
      split at h
      · cases h
        exact ⟨_, _, answer, rfl, rfl⟩
      · cases h
        exact ⟨_, _, answer, rfl, rfl⟩

theorem extended_ensureServer (adminAddr hostPeer directoryAddr : Text) (answer : Option AdminStatus) :
    Extended root (root.ensureServer adminAddr hostPeer directoryAddr answer).1 :=
  extended_putStatus _ _ _

end

section

variable [Primitives] (Addr : Type) [SocketAddr Addr]

def RootOp.exec (root : RootState) : RootOp → RootState
  | .added name address dial => (root.addServer Addr name address dial).toOption.getD root
  | .created server name vaultHex replyCode opens => root.createVault server name vaultHex replyCode opens
  | .joined adminAddr hostPeer directoryAddr probe vaultHex code opens =>
    root.joinVault adminAddr hostPeer directoryAddr probe vaultHex code opens
  | .dropped vaultHex => root.dropVault vaultHex
  | .polled serverId answer => root.applyAdmin serverId answer

def rootLoop : Machine RootState RootOp := ⟨fun op root => op.exec Addr root⟩

def monitor : Machine Monitored RootOp where
  exec op m :=
    let root := op.exec Addr m.root
    ⟨root, match op with
      | .polled serverId (.ok status) =>
        if numbersMatch (m.root.statuses serverId) status then m.behind
        else m.behind.filter (·.1 ≠ serverId)
      | .polled _ (.error _) | .dropped _ => m.behind
      | .added .. | .created .. | .joined .. => m.behind ++ leftBehind m.root root⟩

theorem monitor_root (ops : List RootOp) (m : Monitored) :
    ((monitor Addr).run ops m).root = (rootLoop Addr).run ops m.root := by
  induction ops generalizing m with
  | nil => rfl
  | cons op ops ih => exact ih _

/-- Who is not behind has seen the cached `STATUS`. -/
structure UpToDate (m : Monitored) : Prop where
  grouped : ∀ serverId status, m.root.statuses serverId = some status → Grouped status
  seen : ∀ live ∈ m.root.vaults, live.key ∉ m.behind →
    ∀ status, m.root.statuses live.record.serverId = some status → Sees status live

theorem UpToDate.extend {m : Monitored} (inv : UpToDate m) {after : RootState}
    (extended : Extended m.root after)
    (grouped : ∀ serverId status, after.statuses serverId = some status → Grouped status) :
    UpToDate ⟨after, m.behind ++ leftBehind m.root after⟩ := by
  refine ⟨grouped, fun live mem ahead status cached => ?_⟩
  obtain ⟨again, started, vaults, kept⟩ := extended
  by_cases listed : live.listed status = true
  case neg => exact sees_of_unlisted listed
  unfold leftBehind at ahead
  rw [vaults] at mem
  simp only [List.map_append, List.mem_append, not_or] at ahead
  obtain mem | mem := List.mem_append.mp mem
  · -- It ran before: unless its numbers are the old ones, it is behind.
    obtain ⟨old, oldMem, rfl⟩ := List.mem_map.mp mem
    obtain ⟨record, latest⟩ := kept old
    have sameKey : (again old).key = old.key := by
      unfold Live.key
      rw [record]
    rw [record] at cached
    have sameListed : old.listed status = true := by
      rw [← listed]
      unfold Live.listed
      rw [record]
    have same : numbersMatch (m.root.statuses old.record.serverId) status = true := by
      by_contra moved
      refine ahead.2.1 (sameKey ▸ List.mem_map_of_mem (List.mem_filter.mpr ⟨oldMem, ?_⟩))
      rw [cached, Option.any_some, sameListed, Bool.true_and, Bool.not_eq_true', ← Bool.not_eq_true]
      exact moved
    cases previous : m.root.statuses old.record.serverId with
    | none =>
      rw [previous] at same
      cases same
    | some earlier =>
      rw [previous] at same
      have sees := inv.seen old oldMem (sameKey ▸ ahead.1) earlier previous
      have now := sees_of_matching (inv.grouped _ _ previous) (grouped _ _ cached) same sees
      exact now.congr record latest
  · -- It has just started, and the cache lists it.
    refine absurd (List.mem_map_of_mem (List.mem_filter.mpr ⟨?_, ?_⟩)) ahead.2.2
    · have size : m.root.vaults.length = (m.root.vaults.map again).length := (List.length_map _).symm
      rw [vaults, size, List.drop_left]
      exact mem
    · rw [cached]
      exact listed

private theorem extended_exec (op : RootOp) (root : RootState)
    (known : ∀ serverId status, root.statuses serverId = some status → Grouped status)
    (started : ∀ serverId answer, op ≠ .polled serverId answer) (kept : ∀ vaultHex, op ≠ .dropped vaultHex)
    {behind : List (Text × Text)} (calm : Calm ⟨root, behind⟩ op) :
    Extended root (op.exec Addr root) ∧
      ∀ serverId status, (op.exec Addr root).statuses serverId = some status → Grouped status := by
  cases op with
  | added name address dial =>
    change Extended root ((root.addServer Addr name address dial).toOption.getD root) ∧
      ∀ serverId status, ((root.addServer Addr name address dial).toOption.getD root).statuses serverId =
        some status → Grouped status
    cases added : root.addServer Addr name address dial with
    | error _ => exact ⟨.refl root, known⟩
    | ok after =>
      obtain ⟨servers, serverId, answer, rfl, rfl⟩ := addServer_eq_ok added
      have grouped : ∀ status ∈ (connectString address).2.map (fun _ => answer), Grouped status := by
        intro status mem
        obtain ⟨_, _, rfl⟩ := Option.map_eq_some_iff.mp mem
        exact calm
      exact ⟨(extended_putStatus servers serverId _).trans (extended_pushAdminTargets _),
        grouped_putStatus known grouped servers serverId⟩
  | created server name vaultHex replyCode opens =>
    change Extended root (root.createVault server name vaultHex replyCode opens) ∧
      ∀ serverId status, (root.createVault server name vaultHex replyCode opens).statuses serverId =
        some status → Grouped status
    unfold RootState.createVault
    split
    · exact ⟨.refl root, known⟩
    · refine ⟨extended_startVault root _ opens, ?_⟩
      unfold RootState.startVault
      split <;> exact known
  | joined adminAddr hostPeer directoryAddr probe vaultHex code opens =>
    refine ⟨((extended_ensureServer adminAddr hostPeer directoryAddr probe).trans
      (extended_startVault _ _ opens)).trans (extended_pushAdminTargets _), ?_⟩
    change ∀ serverId status, (RootState.startVault (root.ensureServer adminAddr hostPeer directoryAddr
      probe).1 _ opens).statuses serverId = some status → Grouped status
    unfold RootState.startVault
    split <;> exact grouped_putStatus known calm _ _
  | dropped vaultHex => exact absurd rfl (kept vaultHex)
  | polled serverId answer => exact absurd rfl (started serverId answer)

omit [SocketAddr Addr] in
theorem vaults_applyAdmin {root : RootState} {serverId : Text} {status : AdminStatus} {live : Live}
    (mem : live ∈ (root.applyAdmin serverId (.ok status)).vaults) :
    ∃ old ∈ root.vaults, live.key = old.key ∧
      if numbersMatch (root.statuses serverId) status = true ∨ old.record.serverId ≠ serverId then
        live.record = old.record ∧ live.latest = old.latest
      else live.record = (old.handed status).record ∧ live.latest = (old.handed status).latest := by
  unfold RootState.applyAdmin at mem
  obtain ⟨moved, found, rfl⟩ := List.mem_map.mp mem
  dsimp only [RootState.putStatus] at found
  split at found
  · rename_i same
    refine ⟨moved, found, rfl, ?_⟩
    rw [if_pos (.inl same)]
    exact ⟨rfl, latest_admin moved _⟩
  · rename_i fresh
    obtain ⟨old, oldMem, rfl⟩ := List.mem_map.mp found
    by_cases here : old.record.serverId = serverId
    · simp only [if_pos here]
      obtain ⟨server, vault⟩ := handed_key status old
      refine ⟨old, oldMem, Prod.ext server vault, ?_⟩
      rw [if_neg (not_or.mpr ⟨fresh, not_not_intro here⟩)]
      exact ⟨rfl, latest_admin _ _⟩
    · simp only [if_neg here]
      refine ⟨old, oldMem, rfl, ?_⟩
      rw [if_pos (.inr here)]
      exact ⟨rfl, latest_admin _ _⟩

variable {Addr}

theorem UpToDate.polled {m : Monitored} (inv : UpToDate m) {serverId : Text} {status : AdminStatus}
    (grouped : Grouped status) :
    UpToDate ((monitor Addr).exec (.polled serverId (.ok status)) m) := by
  refine ⟨fun other cached found => ?_, fun live mem ahead cached found => ?_⟩
  · change Function.update m.root.statuses serverId (some status) other = some cached at found
    by_cases same : other = serverId
    · rw [same, Function.update_self] at found
      exact Option.some.inj found ▸ grouped
    · rw [Function.update_of_ne same] at found
      exact inv.grouped other cached found
  · change Function.update m.root.statuses serverId (some status) live.record.serverId = some cached at found
    obtain ⟨old, oldMem, sameKey, outcome⟩ := vaults_applyAdmin mem
    have server : live.record.serverId = old.record.serverId := congrArg Prod.fst sameKey
    rw [server] at found
    rw [sameKey] at ahead
    by_cases here : old.record.serverId = serverId
    · rw [here, Function.update_self] at found
      obtain rfl := Option.some.inj found
      by_cases same : numbersMatch (m.root.statuses serverId) status = true
      · rw [if_pos (.inl same)] at outcome
        refine Sees.congr outcome.1 outcome.2 ?_
        change old.key ∉ (if numbersMatch (m.root.statuses serverId) status = true then m.behind
          else _) at ahead
        rw [if_pos same] at ahead
        cases previous : m.root.statuses serverId with
        | none =>
          rw [previous] at same
          cases same
        | some earlier =>
          rw [previous] at same
          have sees := inv.seen old oldMem ahead earlier (here ▸ previous)
          exact sees_of_matching (inv.grouped _ _ previous) grouped same sees
      · rw [if_neg (not_or.mpr ⟨same, not_not_intro here⟩)] at outcome
        exact (sees_handed status old).congr outcome.1 outcome.2
    · rw [Function.update_of_ne here] at found
      rw [if_pos (.inr here)] at outcome
      refine Sees.congr outcome.1 outcome.2 (inv.seen old oldMem (fun behind => ahead ?_) cached found)
      change old.key ∈ (if numbersMatch (m.root.statuses serverId) status = true then m.behind
        else m.behind.filter (·.1 ≠ serverId))
      split
      · exact behind
      · exact List.mem_filter.mpr ⟨behind, decide_eq_true here⟩

theorem UpToDate.failed {m : Monitored} (inv : UpToDate m) (serverId message : Text) :
    UpToDate ((monitor Addr).exec (.polled serverId (.error message)) m) := by
  have step : ((∃ servers, (m.root.applyAdmin serverId (.error message)).vaults =
      ({ m.root with servers } : RootState).pushAdminTargets.vaults) ∨
        (m.root.applyAdmin serverId (.error message)).vaults = m.root.vaults) ∧
      ∀ other status, (m.root.applyAdmin serverId (.error message)).statuses other = some status →
        m.root.statuses other = some status := by
    unfold RootState.applyAdmin
    dsimp only
    split
    · split
      · exact ⟨.inl ⟨_, rfl⟩, fun _ _ cached => cached⟩
      · exact ⟨.inr rfl, fun _ _ cached => cached⟩
    · split
      · refine ⟨.inr rfl, fun other status cached => ?_⟩
        change Function.update m.root.statuses serverId none other = some status at cached
        by_cases same : other = serverId
        · rw [same, Function.update_self] at cached
          cases cached
        · rwa [Function.update_of_ne same] at cached
      · exact ⟨.inr rfl, fun _ _ cached => cached⟩
  obtain ⟨vaults, statuses⟩ := step
  refine ⟨fun other status cached => inv.grouped other status (statuses other status cached), ?_⟩
  intro live mem ahead status cached
  obtain ⟨servers, vaults⟩ | vaults := vaults
  · obtain ⟨old, oldMem, rfl⟩ := List.mem_map.mp (vaults ▸ mem)
    refine Sees.congr ?_ (latest_admin old _) (inv.seen old oldMem ahead status (statuses _ _ cached))
    rfl
  · exact inv.seen live (vaults ▸ mem) ahead status (statuses _ _ cached)

theorem UpToDate.exec {m : Monitored} (inv : UpToDate m) (op : RootOp) (calm : Calm m op) :
    UpToDate ((monitor Addr).exec op m) := by
  cases op with
  | polled serverId answer =>
    cases answer with
    | ok status => exact inv.polled calm.1
    | error message => exact inv.failed serverId message
  | dropped vaultHex =>
    exact ⟨inv.grouped, fun live mem => inv.seen live (List.mem_of_mem_eraseP mem)⟩
  | added name address dial =>
    obtain ⟨extended, grouped⟩ := extended_exec Addr (.added name address dial) m.root inv.grouped
      nofun nofun calm
    exact inv.extend extended grouped
  | created server name vaultHex replyCode opens =>
    obtain ⟨extended, grouped⟩ := extended_exec Addr (.created server name vaultHex replyCode opens)
      m.root inv.grouped nofun nofun calm
    exact inv.extend extended grouped
  | joined adminAddr hostPeer directoryAddr probe vaultHex code opens =>
    obtain ⟨extended, grouped⟩ := extended_exec Addr
      (.joined adminAddr hostPeer directoryAddr probe vaultHex code opens) m.root inv.grouped
      nofun nofun calm
    exact inv.extend extended grouped

theorem UpToDate.run {ops : List RootOp} {m : Monitored} (inv : UpToDate m)
    (calm : (monitor Addr).Along Calm ops m) : UpToDate ((monitor Addr).run ops m) :=
  ((monitor Addr).throughout_of_step (fun _ op inv calm => inv.exec op calm) ops m inv calm).final

theorem UpToDate.answered {m : Monitored} (inv : UpToDate m) {serverId : Text} {status : AdminStatus}
    (calm : Calm m (.polled serverId (.ok status))) :
    ∀ live ∈ (m.root.applyAdmin serverId (.ok status)).vaults, live.record.serverId = serverId →
      Sees status live := by
  intro live mem here
  have after : UpToDate ((monitor Loopback).exec (.polled serverId (.ok status)) m) := inv.polled calm.1
  by_cases listed : live.listed status = true
  case neg => exact sees_of_unlisted listed
  refine after.seen live mem (fun behind => ?_) status ?_
  · obtain ⟨old, oldMem, sameKey, -⟩ := vaults_applyAdmin mem
    rw [sameKey] at behind
    have server : old.record.serverId = serverId := (congrArg Prod.fst sameKey).symm.trans here
    have vault : live.record.vaultId = old.record.vaultId := congrArg Prod.snd sameKey
    change old.key ∈ (if numbersMatch (m.root.statuses serverId) status = true then m.behind
      else m.behind.filter (·.1 ≠ serverId)) at behind
    split at behind
    · rename_i same
      refine calm.2 same old oldMem server ?_ behind
      unfold Live.listed at listed ⊢
      rwa [← vault]
    · exact of_decide_eq_true (List.mem_filter.mp behind).2 server
  · change Function.update m.root.statuses serverId (some status) live.record.serverId = some status
    rw [here, Function.update_self]

variable (Addr)

theorem upToDate_load (servers : List ServerRecord) (records : List (VaultRecord × Bool)) :
    UpToDate ⟨RootState.load servers records, []⟩ := by
  have none : (RootState.load servers records).statuses = fun _ => Option.none :=
    statuses_load servers records
  refine ⟨fun serverId status cached => ?_, fun live _ _ status cached => ?_⟩
  · change (RootState.load servers records).statuses serverId = some status at cached
    rw [none] at cached
    cases cached
  · change (RootState.load servers records).statuses live.record.serverId = some status at cached
    rw [none] at cached
    cases cached

/-- Every task that an answer mentions has been handed its numbers, as long as no answer
with the numbers of the cached `STATUS` finds a task behind it. -/
theorem answer_reaches_tasks (servers : List ServerRecord) (records : List (VaultRecord × Bool))
    (ops : List RootOp) (serverId : Text) (status : AdminStatus)
    (calm : (monitor Addr).Along Calm (ops ++ [.polled serverId (.ok status)])
      ⟨RootState.load servers records, []⟩) :
    ∀ live ∈ ((rootLoop Addr).run (ops ++ [.polled serverId (.ok status)])
        (RootState.load servers records)).vaults,
      live.record.serverId = serverId → Sees status live := by
  obtain ⟨before, last⟩ := ((monitor Addr).along_append ops _ _).mp calm
  have inv := (upToDate_load servers records).run before
  have answered := inv.answered last.1
  rw [monitor_root] at answered
  rw [Machine.run_append]
  exact answered

end

section

/-! One vault, and a host that answers the same twice. -/

local instance : Primitives := Primitives.plain

private def hostOne : Text := ['h']
private def vaultOne : Text := ['v']
private def cardAddr : Text := ['1', '0', ':', '1']

private def cardStatus : AdminStatus where
  server := ⟨hostOne, [], [], 0, []⟩
  vaults := [⟨vaultOne, [], 64, 0, 1, 1, 7, none⟩]
  members := [⟨vaultOne, ['o'], true, 5, 0⟩]

private def cardRecord : VaultRecord :=
  ⟨vaultOne, serverIdFor cardAddr, [], [], .member, [], true⟩

private def cardAnswer : RootOp := .polled (serverIdFor cardAddr) (.ok cardStatus)

theorem answer_reaches_tasks_loaded :
    ∃ live ∈ ((rootLoop Loopback).run [cardAnswer, cardAnswer] (RootState.load [] [(cardRecord, true)])).vaults,
      live.record.serverId = serverIdFor cardAddr ∧ Sees cardStatus live := by
  have calm : (monitor Loopback).Along Calm [cardAnswer, cardAnswer] ⟨RootState.load [] [(cardRecord, true)], []⟩ := by
    refine ⟨⟨rfl, fun same => absurd same (by decide)⟩, ⟨rfl, ?_⟩, trivial⟩
    -- The second answer repeats the first, and no task is behind it.
    intro _ live _ _ _ late
    cases late
  refine ⟨_, List.mem_singleton.mpr rfl, rfl, ?_⟩
  exact answer_reaches_tasks Loopback [] [(cardRecord, true)] [cardAnswer] (serverIdFor cardAddr) cardStatus
    calm _ (List.mem_singleton.mpr rfl) rfl

/-- A task that starts with the `STATUS` of the probe gets nothing of an answer that repeats it. -/
theorem answer_reaches_tasks_joined :
    Grouped cardStatus ∧ ∃ live ∈ ((rootLoop Loopback).run
        [.joined cardAddr hostOne cardAddr (some cardStatus) vaultOne ⟨0⟩ true,
          .polled (serverIdFor cardAddr) (.ok cardStatus)] (RootState.load [] [])).vaults,
      live.record.serverId = serverIdFor cardAddr ∧ live.listed cardStatus = true ∧
        live.latest = none ∧ ¬ Sees cardStatus live := by
  refine ⟨rfl, _, List.mem_singleton.mpr rfl, rfl, rfl, rfl, fun sees => ?_⟩
  obtain ⟨⟨_, latest, _⟩, _⟩ := sees _ rfl
  cases latest

end

end QuantumFs.Client
