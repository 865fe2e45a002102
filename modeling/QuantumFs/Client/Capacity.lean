import QuantumFs.Client.Settings
import QuantumFs.Client.Status

/-! What a server and a vault can hold (`node/mod.rs`, `node/vault.rs`): the disk of the host, and what
the members lend, each client once. -/
namespace QuantumFs.Client.Capacity

open Lib Net

/-- `iter().sum()`, and nothing when it does not fit. -/
def checkedSum (values : List Nat) : Option Nat :=
  values.foldlM (fun total value => if total + value ≤ u64Max then some (total + value) else none) 0

def saturatingAdd (left right : Nat) : Nat := min u64Max (left + right)

/-- The host and the members of the replica, once there is one, and what the task knows of its members. -/
structure Task where
  replica : Option (PeerId × OrdSet PeerId)
  selfPeer : PeerId
  clientId : String
  profile : Profile
  sidecar : Sidecar

namespace Task

variable (task : Task)

def hexPeer (peer : PeerId) : String := String.ofList (Text.hex (idBytes peer.val))

def lender (peer : PeerId) : Option (String × Nat) :=
  if task.replica.map Prod.fst = some peer then none
  else
    let entry :=
      if peer = task.selfPeer then some (task.clientId, task.profile.contributionBytes)
      else match task.sidecar.members[hexPeer peer]? with
        | some entry => if entry.clientId ≠ "" then some (entry.clientId, entry.contributionBytes) else none
        | none => none
    entry.filter fun (client, bytes) => client ≠ "" && bytes ≠ 0

def peers : OrdSet PeerId := ((task.replica.map Prod.snd).getD ∅).insert task.selfPeer

end Task

def collect (entries : List (String × Nat)) (seen : Map String Nat) : Map String Nat :=
  entries.foldl (fun seen (client, bytes) => seen.insert client bytes) seen

def Task.contributions (task : Task) : List (String × Nat) :=
  (collect (task.peers.toList.filterMap task.lender) ∅).toList

/-- What a vault task reports about itself; each client is in it once. -/
structure LocalNumbers where
  memberCount : Nat
  usedBytes : Nat
  name : Text
  contributions : List (String × Nat)
  distinct : (contributions.map Prod.fst).Nodup

structure Live where
  record : VaultRecord
  numbers : LocalNumbers

structure RootState where
  servers : List ServerRecord
  vaults : List Live
  statuses : Text → Option AdminStatus

inductive Role where
  | owner
  | member

structure Vault where
  id : Text
  serverId : Text
  name : Text
  memberCount : Nat
  usedBytes : Nat
  quotaBytes : Nat
  capacityBytes : Nat
  role : Role

structure Server where
  id : Text
  name : Text
  address : Text
  peerId : Text
  online : Bool
  capacityBytes : Nat
  vaults : List Vault

def serverCapacity (status : Option AdminStatus) (record : ServerRecord) : Nat :=
  match status with
  | some status => status.server.capacityBytes
  | none => if 0 < record.capacityBytes then record.capacityBytes else defaultCapacityBytes

def hosted (vaults : List Live) (serverId : Text) : List Live := vaults.filter (·.record.serverId = serverId)

def serverContributions (vaults : List Live) (serverId : Text) : Option Nat :=
  let seen := (hosted vaults serverId).foldl (fun seen live => collect live.numbers.contributions seen) ∅
  checkedSum (Map.vals seen)

def Live.quota (live : Live) (status : Option AdminStatus) : Nat :=
  ((status.bind (·.vault live.record.vaultId)).map AdminVault.quotaBytes).getD 0

/-- The card of a vault. -/
def Live.card (live : Live) (record : ServerRecord) (status : Option AdminStatus) : Option Vault := do
  let numbers := status.bind (·.vault live.record.vaultId)
  let lent ← checkedSum (live.numbers.contributions.map Prod.snd)
  pure {
    id := live.record.vaultId
    serverId := record.id
    name :=
      if live.record.name ≠ [] then live.record.name
      else if live.numbers.name ≠ [] then live.numbers.name
      else "Vault".toList
    memberCount := (numbers.map AdminVault.memberCount).getD (max live.numbers.memberCount 1)
    usedBytes := (numbers.map AdminVault.usedBytes).getD live.numbers.usedBytes
    quotaBytes := live.quota status
    capacityBytes := saturatingAdd (live.quota status) lent
    role := match live.record.role with
      | .owner => .owner
      | .member => .member }

namespace RootState

variable (root : RootState)

def serverCapacityFor (record : ServerRecord) : Option Nat := do
  let lent ← serverContributions root.vaults record.id
  pure (saturatingAdd (serverCapacity (root.statuses record.id) record) lent)

/-- The card of a server, with the vaults we belong to on it. -/
def card (record : ServerRecord) : Option Server := do
  let status := root.statuses record.id
  let capacity ← root.serverCapacityFor record
  let vaults ← (hosted root.vaults record.id).mapM fun live => live.card record status
  pure {
    id := record.id
    name := record.name
    address := record.address
    peerId := record.hostPeerId.getD []
    online := record.online
    capacityBytes := capacity
    vaults }

/-- `servers`: every known host. -/
def cards : Option (List Server) := root.servers.mapM root.card

end RootState

theorem checkedSum_eq (values : List Nat) :
    checkedSum values = if values.sum ≤ u64Max then some values.sum else none := by
  have summed : ∀ start ≤ u64Max, values.foldlM
      (fun total value => if total + value ≤ u64Max then some (total + value) else none) start =
      if start + values.sum ≤ u64Max then some (start + values.sum) else none := by
    induction values with
    | nil =>
      intro start fits
      rw [List.sum_nil, Nat.add_zero, if_pos fits]
      rfl
    | cons value values ih =>
      intro start _
      rw [List.foldlM_cons, List.sum_cons, ← Nat.add_assoc]
      by_cases fits : start + value ≤ u64Max
      · rw [if_pos fits]
        exact ih _ fits
      · rw [if_neg fits, if_neg (by omega)]
        rfl
  unfold checkedSum
  rw [summed 0 (Nat.zero_le _), Nat.zero_add]

theorem checkedSum_of_le {values : List Nat} (fits : values.sum ≤ u64Max) : checkedSum values = some values.sum := by
  rw [checkedSum_eq, if_pos fits]

theorem collect_append (front back : List (String × Nat)) (seen : Map String Nat) :
    collect (front ++ back) seen = collect back (collect front seen) := List.foldl_append

theorem get_collect_of_not_mem {entries : List (String × Nat)} {client : String} (other : client ∉ entries.map Prod.fst)
    (seen : Map String Nat) : (collect entries seen)[client]? = seen[client]? := by
  induction entries generalizing seen with
  | nil => rfl
  | cons entry entries ih =>
    rw [List.map_cons, List.mem_cons, not_or] at other
    exact (ih other.2 _).trans (Map.get_insert_ne _ _ (Ne.symm other.1))

theorem get_collect {entries : List (String × Nat)} {client : String} {bytes : Nat} {seen : Map String Nat}
    (found : (collect entries seen)[client]? = some bytes) :
    (client, bytes) ∈ entries ∨ (client ∉ entries.map Prod.fst ∧ seen[client]? = some bytes) := by
  induction entries generalizing seen with
  | nil => exact .inr ⟨List.not_mem_nil, found⟩
  | cons entry entries ih =>
    obtain mem | ⟨other, found⟩ := ih found
    · exact .inl (List.mem_cons_of_mem _ mem)
    · rw [Map.get_insert] at found
      split at found
      · rename_i same
        obtain rfl := Option.some.inj found
        exact .inl (same ▸ List.mem_cons_self)
      · rename_i different
        refine .inr ⟨?_, found⟩
        rw [List.map_cons, List.mem_cons, not_or]
        exact ⟨Ne.symm different, other⟩

theorem collected {entries : List (String × Nat)} {client : String} (mem : client ∈ entries.map Prod.fst)
    (seen : Map String Nat) : ∃ bytes, (collect entries seen)[client]? = some bytes := by
  induction entries generalizing seen with
  | nil => cases mem
  | cons entry entries ih =>
    by_cases later : client ∈ entries.map Prod.fst
    · exact ih later _
    · obtain rfl := (List.mem_cons.mp mem).resolve_right later
      exact ⟨entry.2, (get_collect_of_not_mem later _).trans ((Map.get_insert _ ..).trans (if_pos rfl))⟩

theorem get_collect_of_nodup {entries : List (String × Nat)} (distinct : (entries.map Prod.fst).Nodup) {client : String}
    {bytes : Nat} (mem : (client, bytes) ∈ entries) (seen : Map String Nat) :
    (collect entries seen)[client]? = some bytes := by
  obtain ⟨front, back, rfl⟩ := List.append_of_mem mem
  rw [List.map_append, List.map_cons, List.nodup_append] at distinct
  have other : client ∉ back.map Prod.fst := (List.nodup_cons.mp distinct.2.1).1
  rw [collect_append]
  exact (get_collect_of_not_mem other _).trans ((Map.get_insert _ ..).trans (if_pos rfl))

namespace Task

variable (task : Task)

theorem contributions_distinct : (task.contributions.map Prod.fst).Nodup := by
  unfold Task.contributions List.Nodup
  rw [List.pairwise_map]
  exact (Map.toList_sorted _).imp fun before => ne_of_lt before

end Task

def LocalNumbers.told (numbers : LocalNumbers) (name : Text) (task : Task) : LocalNumbers :=
  { numbers with name, contributions := task.contributions, distinct := task.contributions_distinct }

/-- The entries of all vaults of a server. -/
def listed (vaults : List Live) (serverId : Text) : List (String × Nat) :=
  (hosted vaults serverId).flatMap fun live => live.numbers.contributions

def clients (vaults : List Live) (serverId : Text) : Finset String := ((listed vaults serverId).map Prod.fst).toFinset

/-- Every client lends what some vault of the server lists for it. -/
def Reads (vaults : List Live) (serverId : Text) (lends : String → Nat) : Prop :=
  ∀ client ∈ clients vaults serverId, (client, lends client) ∈ listed vaults serverId

/-- No client is listed with two amounts. -/
def Agreed (vaults : List Live) (serverId : Text) : Prop :=
  ∀ client first second, (client, first) ∈ listed vaults serverId → (client, second) ∈ listed vaults serverId →
    first = second

/-- The capacities of a server and of its vaults are what the host provides and what the clients lend,
up to the maximum, in whatever order the vaults are listed and whatever the host provides. -/
def WellDefined (vaults : List Live) (serverId : Text) : Prop :=
  ∀ (root : RootState) (record : ServerRecord), root.vaults.Perm vaults → record.id = serverId →
    ∀ lends, Reads vaults serverId lends → ∃ card, root.card record = some card ∧
      card.capacityBytes =
        min u64Max
          (serverCapacity (root.statuses serverId) record + ∑ client ∈ clients vaults serverId, lends client) ∧
      card.vaults.map (fun vault => (vault.id, vault.capacityBytes)) = (hosted root.vaults serverId).map fun live =>
        (live.record.vaultId, min u64Max
          (live.quota (root.statuses serverId) + (live.numbers.contributions.map Prod.snd).sum))

variable {vaults order : List Live} {serverId : Text}

theorem mem_clients {client : String} :
    client ∈ clients vaults serverId ↔ ∃ bytes, (client, bytes) ∈ listed vaults serverId := by
  unfold clients
  rw [List.mem_toFinset, List.mem_map]
  constructor
  · rintro ⟨⟨_, bytes⟩, mem, rfl⟩
    exact ⟨bytes, mem⟩
  · rintro ⟨bytes, mem⟩
    exact ⟨_, mem, rfl⟩

theorem listed_perm (same : order.Perm vaults) : (listed order serverId).Perm (listed vaults serverId) :=
  (same.filter _).flatMap_right _

theorem clients_perm (same : order.Perm vaults) : clients order serverId = clients vaults serverId :=
  List.toFinset_eq_of_perm _ _ ((listed_perm same).map _)

theorem serverContributions_eq (vaults : List Live) (serverId : Text) :
    serverContributions vaults serverId = checkedSum (Map.vals (collect (listed vaults serverId) ∅)) := by
  have flat : ∀ (lives : List Live) (seen : Map String Nat),
      lives.foldl (fun seen live => collect live.numbers.contributions seen) seen =
        collect (lives.flatMap fun live => live.numbers.contributions) seen := by
    intro lives
    induction lives with
    | nil => exact fun _ => rfl
    | cons live lives ih =>
      intro seen
      rw [List.foldl_cons, List.flatMap_cons, collect_append, ih]
  unfold serverContributions listed
  rw [flat]

theorem sum_vals {lends : String → Nat}
    (reads : ∀ client bytes, (collect (listed vaults serverId) ∅)[client]? = some bytes → lends client = bytes) :
    (Map.vals (collect (listed vaults serverId) ∅)).sum = ∑ client ∈ clients vaults serverId, lends client := by
  generalize isSeen : collect (listed vaults serverId) ∅ = seen at *
  have keys : (seen.toList.map Prod.fst).toFinset = clients vaults serverId := by
    ext client
    rw [List.mem_toFinset, List.mem_map, mem_clients]
    constructor
    · rintro ⟨⟨_, bytes⟩, mem, rfl⟩
      have found := Map.mem_toList.mp mem
      rw [← isSeen] at found
      obtain entry | ⟨_, absent⟩ := get_collect found
      · exact ⟨bytes, entry⟩
      · rw [Std.ExtTreeMap.getElem?_empty] at absent
        cases absent
    · rintro ⟨bytes, mem⟩
      obtain ⟨last, found⟩ := collected (List.mem_map_of_mem (f := Prod.fst) mem) ∅
      rw [isSeen] at found
      exact ⟨(client, last), Map.mem_toList.mpr found, rfl⟩
  have nodup : (seen.toList.map Prod.fst).Nodup :=
    List.pairwise_map.mpr ((Map.toList_sorted _).imp fun before => ne_of_lt before)
  rw [← keys, List.sum_toFinset _ nodup, List.map_map]
  refine congrArg List.sum (List.map_congr_left fun entry mem => ?_)
  exact (reads entry.1 entry.2 (Map.mem_toList.mp mem)).symm

/-- What the map has for each client, of the vaults in the order they are listed. -/
def current (vaults : List Live) (serverId : Text) (client : String) : Nat :=
  ((collect (listed vaults serverId) ∅)[client]?).getD 0

theorem current_listed {client : String} (mem : client ∈ clients vaults serverId) :
    (client, current vaults serverId client) ∈ listed vaults serverId := by
  obtain ⟨bytes, entry⟩ := mem_clients.mp mem
  obtain ⟨last, found⟩ := collected (List.mem_map_of_mem (f := Prod.fst) entry) ∅
  unfold current
  rw [found, Option.getD_some]
  refine (get_collect found).resolve_right fun absent => ?_
  rw [Std.ExtTreeMap.getElem?_empty] at absent
  cases absent.2

/-- What the clients of a server lend, by what the map has for each. -/
def total (vaults : List Live) (serverId : Text) : Nat :=
  ∑ client ∈ clients vaults serverId, current vaults serverId client

theorem serverContributions_total (vaults : List Live) (serverId : Text) :
    serverContributions vaults serverId =
      if total vaults serverId ≤ u64Max then some (total vaults serverId) else none := by
  have summed : (Map.vals (collect (listed vaults serverId) ∅)).sum = total vaults serverId :=
    sum_vals fun client bytes found => by rw [current, found, Option.getD_some]
  rw [serverContributions_eq, checkedSum_eq, summed]

theorem exists_order {client : String} {bytes : Nat} (entry : (client, bytes) ∈ listed vaults serverId) :
    ∃ order : List Live, order.Perm vaults ∧ current order serverId client = bytes := by
  obtain ⟨live, mem, among⟩ := List.mem_flatMap.mp entry
  obtain ⟨isLive, isHosted⟩ := List.mem_filter.mp mem
  obtain ⟨front, back, rfl⟩ := List.append_of_mem isLive
  refine ⟨front ++ back ++ [live], ?_, ?_⟩
  · rw [List.append_assoc]
    exact (List.perm_append_singleton live back).append_left front
  · have own : hosted [live] serverId = [live] := List.filter_cons_of_pos isHosted
    have last : listed (front ++ back ++ [live]) serverId =
        listed (front ++ back) serverId ++ live.numbers.contributions := by
      unfold listed
      rw [hosted, List.filter_append, List.flatMap_append, ← hosted, ← hosted, own, List.flatMap_singleton]
    unfold current
    rw [last, collect_append, get_collect_of_nodup live.numbers.distinct among, Option.getD_some]

theorem card_capacity {root : RootState} {record : ServerRecord} {card : Server} (h : root.card record = some card) :
    ∃ lent, serverContributions root.vaults record.id = some lent ∧
      card.capacityBytes = saturatingAdd (serverCapacity (root.statuses record.id) record) lent := by
  obtain ⟨capacity, counted, h⟩ := Option.bind_eq_some_iff.mp h
  obtain ⟨cards, _, h⟩ := Option.bind_eq_some_iff.mp h
  obtain ⟨lent, summed, counted⟩ := Option.bind_eq_some_iff.mp counted
  obtain rfl := Option.some.inj h
  exact ⟨lent, summed, (Option.some.inj counted).symm⟩

/-- A server that provides nothing of its own. -/
def bareRecord (serverId : Text) : ServerRecord := ⟨serverId, [], [], none, none, none, 0, false⟩

def bareStatus : AdminStatus := ⟨⟨[], [], [], 0, []⟩, [], []⟩

theorem reads_current (same : order.Perm vaults) : Reads vaults serverId (current order serverId) := by
  intro client mem
  rw [← clients_perm same] at mem
  exact (listed_perm same).mem_iff.mp (current_listed mem)

theorem WellDefined.sums (defined : WellDefined vaults serverId) (same : order.Perm vaults) {lends : String → Nat}
    (reads : Reads vaults serverId lends) :
    total order serverId ≤ u64Max ∧
      total order serverId = min u64Max (∑ client ∈ clients vaults serverId, lends client) := by
  obtain ⟨card, isCard, capacity, _⟩ :=
    defined ⟨[], order, fun _ => some bareStatus⟩ (bareRecord serverId) same rfl lends reads
  obtain ⟨lent, summed, shown⟩ := card_capacity isCard
  change serverContributions order serverId = some lent at summed
  rw [serverContributions_total] at summed
  split at summed
  · rename_i fits
    obtain rfl := Option.some.inj summed
    rw [shown] at capacity
    change min u64Max (0 + _) = min u64Max (0 + _) at capacity
    exact ⟨fits, by omega⟩
  · cases summed

theorem WellDefined.agreed (defined : WellDefined vaults serverId) : Agreed vaults serverId := by
  -- With the larger amount last in the list, the smaller one gives another sum.
  have ordered : ∀ client less more, (client, less) ∈ listed vaults serverId →
      (client, more) ∈ listed vaults serverId → ¬less < more := by
    intro client less more small large lt
    obtain ⟨order, same, last⟩ := exists_order large
    have isClient : client ∈ clients vaults serverId := mem_clients.mpr ⟨less, small⟩
    have reads : Reads vaults serverId (Function.update (current order serverId) client less) := by
      intro other mem
      by_cases isSame : other = client
      · rw [isSame, Function.update_self]
        exact small
      · rw [Function.update_of_ne isSame]
        exact reads_current same other mem
    obtain ⟨fits, sums⟩ := defined.sums same reads
    have smaller : ∑ other ∈ clients vaults serverId, Function.update (current order serverId) client less other <
        total order serverId := by
      rw [total, clients_perm same]
      refine Finset.sum_lt_sum (fun other _ => ?_) ⟨client, isClient, ?_⟩
      · by_cases isSame : other = client
        · rw [isSame, Function.update_self, last]
          exact lt.le
        · rw [Function.update_of_ne isSame]
      · rw [Function.update_self, last]
        exact lt
    omega
  intro client first second one two
  have := ordered client first second one two
  have := ordered client second first two one
  omega

theorem Agreed.sum_eq (agreed : Agreed vaults serverId) {lends others : String → Nat}
    (reads : Reads vaults serverId lends) (same : Reads vaults serverId others) :
    ∑ client ∈ clients vaults serverId, lends client = ∑ client ∈ clients vaults serverId, others client :=
  Finset.sum_congr rfl fun client mem => agreed client _ _ (reads client mem) (same client mem)

theorem Agreed.contributions_le (agreed : Agreed vaults serverId) {lends : String → Nat}
    (reads : Reads vaults serverId lends) {live : Live} (mem : live ∈ hosted vaults serverId) :
    (live.numbers.contributions.map Prod.snd).sum ≤ ∑ client ∈ clients vaults serverId, lends client := by
  have entries : ∀ entry ∈ live.numbers.contributions, entry ∈ listed vaults serverId :=
    fun entry among => List.mem_flatMap.mpr ⟨live, mem, among⟩
  have amounts : live.numbers.contributions.map Prod.snd = (live.numbers.contributions.map Prod.fst).map lends := by
    rw [List.map_map]
    refine List.map_congr_left fun entry among => ?_
    have isClient : entry.1 ∈ clients vaults serverId := mem_clients.mpr ⟨entry.2, entries entry among⟩
    exact agreed entry.1 _ _ (entries entry among) (reads entry.1 isClient)
  rw [amounts, ← List.sum_toFinset _ live.numbers.distinct]
  refine Finset.sum_le_sum_of_subset fun client isClient => ?_
  obtain ⟨entry, among, rfl⟩ := List.mem_map.mp (List.mem_toFinset.mp isClient)
  exact mem_clients.mpr ⟨entry.2, entries entry among⟩

theorem mapM_map {α β γ : Type} {f : α → Option β} {g : β → γ} {shown : α → γ} {items : List α}
    (h : ∀ item ∈ items, ∃ result, f item = some result ∧ g result = shown item) :
    ∃ results, items.mapM f = some results ∧ results.map g = items.map shown := by
  induction items with
  | nil => exact ⟨[], rfl, rfl⟩
  | cons item items ih =>
    obtain ⟨result, found, same⟩ := h item List.mem_cons_self
    obtain ⟨results, rest, others⟩ := ih fun item mem => h item (List.mem_cons_of_mem _ mem)
    refine ⟨result :: results, ?_, ?_⟩
    · rw [List.mapM_cons, found, rest]
      rfl
    · rw [List.map_cons, List.map_cons, same, others]

/-- The capacities of a server and of its vaults are well defined just when no client is listed with two amounts
in its vaults, and the amounts of the clients add up to a number of 64 bits. -/
theorem capacity_wellDefined_iff (vaults : List Live) (serverId : Text) :
    WellDefined vaults serverId ↔ Agreed vaults serverId ∧
      ∀ lends, Reads vaults serverId lends → ∑ client ∈ clients vaults serverId, lends client ≤ u64Max := by
  constructor
  · intro defined
    refine ⟨defined.agreed, fun lends reads => ?_⟩
    rw [defined.agreed.sum_eq reads (reads_current (.refl _))]
    exact (defined.sums (.refl _) reads).1
  · rintro ⟨agreed, fits⟩ root record same rfl lends reads
    have summed : total root.vaults record.id = ∑ client ∈ clients vaults record.id, lends client := by
      rw [total, clients_perm same]
      exact agreed.sum_eq (reads_current same) reads
    have contributions : serverContributions root.vaults record.id =
        some (∑ client ∈ clients vaults record.id, lends client) := by
      rw [serverContributions_total, summed, if_pos (fits lends reads)]
    have among : ∀ live ∈ hosted root.vaults record.id, live ∈ hosted vaults record.id :=
      fun live mem => (same.filter _).mem_iff.mp mem
    have each : ∀ live ∈ hosted root.vaults record.id, ∃ vault,
        live.card record (root.statuses record.id) = some vault ∧ (vault.id, vault.capacityBytes) =
          (live.record.vaultId, min u64Max
            (live.quota (root.statuses record.id) + (live.numbers.contributions.map Prod.snd).sum)) := by
      intro live mem
      unfold Live.card
      rw [checkedSum_of_le ((agreed.contributions_le reads (among live mem)).trans (fits lends reads))]
      exact ⟨_, rfl, rfl⟩
    obtain ⟨cards, drawn, shown⟩ := mapM_map each
    have isCard : root.card record = some {
        id := record.id
        name := record.name
        address := record.address
        peerId := record.hostPeerId.getD []
        online := record.online
        capacityBytes := saturatingAdd (serverCapacity (root.statuses record.id) record)
          (∑ client ∈ clients vaults record.id, lends client)
        vaults := cards } := by
      unfold RootState.card RootState.serverCapacityFor
      rw [contributions]
      dsimp only
      rw [drawn]
      rfl
    exact ⟨_, isCard, rfl, shown⟩

theorem cards_of_wellDefined {root : RootState}
    (defined : ∀ record ∈ root.servers, WellDefined root.vaults record.id) :
    ∃ cards, root.cards = some cards ∧ cards.map Server.capacityBytes = root.servers.map fun record =>
      min u64Max (serverCapacity (root.statuses record.id) record + total root.vaults record.id) := by
  refine mapM_map fun record mem => ?_
  obtain ⟨card, isCard, capacity, _⟩ := defined record mem root record (.refl _) rfl _ (reads_current (.refl _))
  exact ⟨card, isCard, capacity⟩

/-- A vault of Alice on the server of a host, with what its members state in the settings. -/
def memberVault (vaultId : Text) (members : List (Fin (2 ^ 256) × Nat)) : Live where
  record := ⟨vaultId, "s".toList, [], [], .member, [], true⟩
  numbers := LocalNumbers.told ⟨1, 0, [], [], .nil⟩ [] {
    replica := some (⟨0⟩, OrdSet.ofList (members.map fun member => ⟨member.1⟩))
    selfPeer := ⟨1⟩
    clientId := "alice"
    profile := ⟨"", "", "", "alice", 1073741824⟩
    sidecar := { Sidecar.default with members := members.foldl (fun entries (peer, bytes) =>
      entries.insert (Task.hexPeer ⟨peer⟩) ⟨"", "", Task.hexPeer ⟨peer⟩, bytes⟩) ∅ } }

/-- Bob and Carol each state that they lend `2 ^ 63` bytes, and the sum does not fit; where Bob states one byte in
one vault and two in the other, the vault that is listed last decides. -/
theorem capacity_not_wellDefined :
    let large := [memberVault "v".toList [(2, 2 ^ 63), (3, 2 ^ 63)]]
    let one := memberVault "v".toList [(2, 1)]
    let two := memberVault "w".toList [(2, 2)]
    let root (vaults : List Live) : RootState := ⟨[], vaults, fun _ => some bareStatus⟩
    (root large).card (bareRecord "s".toList) = none ∧ ¬WellDefined large "s".toList ∧
      ((root [one, two]).card (bareRecord "s".toList)).map Server.capacityBytes = some 1073741826 ∧
      ((root [two, one]).card (bareRecord "s".toList)).map Server.capacityBytes = some 1073741825 := by
  intro large one two root
  have overflows : ((root large).card (bareRecord "s".toList)).isNone = true := by decide +kernel
  refine ⟨Option.isNone_iff_eq_none.mp overflows, fun defined => ?_, by decide +kernel, by decide +kernel⟩
  obtain ⟨card, isCard, _⟩ := defined (root large) (bareRecord "s".toList) (.refl _) rfl _ (reads_current (.refl _))
  rw [isCard] at overflows
  cases overflows

end QuantumFs.Client.Capacity
