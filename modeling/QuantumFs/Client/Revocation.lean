import QuantumFs.Client.Projection
import QuantumFs.Client.Status

/-! When a vault task gives its vault up (`node/vault.rs`): the attempts to join, the
refusals it counts, what stands for a membership of the past, and the `STATUS` it asks for. -/
namespace QuantumFs.Client

open Lib Net Crypto Store

class AdminAddr (Addr : Type) extends NumericAddr Addr where
  withPort : Addr → Nat → Addr

def reconnectBackoff : Nat := 1000

def maxReconnectBackoff : Nat := 5000

def refusalsBeforeRevoked : Nat := 3

def handshakesBeforeReset : Nat := 2

def maxHistory : Nat := 2000

def adminPortOffset : Nat := 1000

def u32Max : Nat := 2 ^ 32 - 1

structure VaultCache where
  shortCode : Text
  hostAddr : Text
  hostPeerId : Text
  hostEk : Bytes
  hostVk : Bytes
  adIssuedAt : U64
  adSignature : Bytes
deriving DecidableEq

inductive HistoryKind where
  | created
  | renamed
  | moved
  | modified
  | duplicated
  | colored
  | access
  | deleted
  | downloaded
deriving DecidableEq

structure HistoryEvent where
  nodeId : FileId
  kind : HistoryKind
deriving DecidableEq

/-- The replica on disk; `settings` is the version of the settings file and the name of the
vault in it. -/
structure Replicated where
  tree : DirectoryTree
  version : FileId → U64
  settings : Option (U64 × String)

def Replicated.new (root : FileId) : Replicated := ⟨DirectoryTree.new root, fun _ => 0, none⟩

/-- `replica` is `none` until it is opened for the first time. -/
structure VaultFolder where
  history : List HistoryEvent
  records : List FileId
  cache : VaultCache
  replica : Option Replicated

def VaultFolder.empty : VaultFolder := ⟨[], [], ⟨[], [], [], [], [], 0, []⟩, none⟩

def hexDigit (c : Char) : Option Nat :=
  if '0' ≤ c ∧ c ≤ '9' then some (c.toNat - '0'.toNat)
  else if 'a' ≤ c ∧ c ≤ 'f' then some (c.toNat - 'a'.toNat + 10)
  else if 'A' ≤ c ∧ c ≤ 'F' then some (c.toNat - 'A'.toNat + 10)
  else none

def unhexBytes : Text → Option Bytes
  | [] => some []
  | [_] => none
  | high :: low :: rest => do
    let high ← hexDigit high
    let low ← hexDigit low
    let rest ← unhexBytes rest
    pure (UInt8.ofNat (high * 16 + low) :: rest)

def unhex32 (text : Text) : Option (Fin (2 ^ 256)) :=
  if text.length = 64 then (unhexBytes text).map fun bytes => Fin.ofNat (2 ^ 256) (ofBE bytes) else none

structure Shape where
  parent : Option FileId
  name : String
  isDir : Bool
  version : U64
deriving DecidableEq

structure VaultNode where
  record : VaultRecord
  rootFile : FileId
  selfPeer : PeerId
  admin : Option AdminTarget
  snapshot : VaultSnapshot
  cache : VaultCache
  opened : Bool
  connected : Bool
  nextConnect : Nat
  backoff : Nat
  handshakeFailures : Nat
  refusals : Nat
  lastRefusal : Option Nat
  wasMember : Bool
  sidecarName : String
  sidecarVersion : U64
  shapes : List (FileId × Shape)
  records : List FileId
  history : List HistoryEvent
  hydrated : Bool
  stopped : Bool
  revoked : Bool

inductive JoinAnswer where
  | joined
  | authenticationFailed
  | failed
deriving DecidableEq

inductive Attempt where
  | joined
  | refused
  | failed
deriving DecidableEq

/-- What the world answers during one attempt; `received` is what the host sent of the vault. -/
structure Answers (Addr : Type) where
  now : Nat
  unixTime : Option U64
  configured : Option Addr
  lookup : Addr → JoinCode → Option (Option (DirectoryAd Addr))
  opens : Bool
  join : DirectoryAd Addr → JoinCode → JoinAnswer
  received : Option Replicated
  status : AdminTarget → Option AdminStatus

namespace VaultNode

variable (node : VaultNode)

def spawn (record : VaultRecord) (admin : Option AdminTarget) (rootFile : FileId) (selfPeer : PeerId)
    (folder : VaultFolder) : VaultNode where
  record := record
  rootFile := rootFile
  selfPeer := selfPeer
  admin := admin
  snapshot := ⟨[], 0, 0, 0, 0, none, []⟩
  cache := folder.cache
  opened := false
  connected := false
  nextConnect := 0
  backoff := reconnectBackoff
  handshakeFailures := 0
  refusals := 0
  lastRefusal := none
  wasMember := !folder.history.isEmpty
  sidecarName := ""
  sidecarVersion := 0
  shapes := []
  records := folder.records
  history := folder.history
  hydrated := false
  stopped := false
  revoked := false

def vaultName : String :=
  if node.sidecarName ≠ "" then node.sidecarName
  else if node.record.name ≠ [] then String.ofList node.record.name
  else "Vault"

def log (event : HistoryEvent) : VaultNode :=
  let history := node.history ++ [event]
  { node with history := history.drop (history.length - maxHistory) }

/-- Every node with its shape; the root alone before the replica is open. -/
def rows (replica : Option Replicated) : List (FileId × Shape) :=
  match node.opened, replica with
  | true, some replica =>
    (walk replica.tree node.vaultName).map fun shown =>
      (shown.id, ⟨shown.parent, shown.name, shown.isDir, if shown.isDir then 0 else replica.version shown.id⟩)
  | _, _ => [(node.rootFile, ⟨none, node.vaultName, true, 0⟩)]

def classify (row : FileId × Shape) : Option HistoryEvent :=
  match node.shapes.lookup row.1 with
  | none => if row.1 ∈ node.records then none else some ⟨row.1, .created⟩
  | some old =>
    if old = row.2 then none
    else if old.parent ≠ row.2.parent then some ⟨row.1, .moved⟩
    else if old.name ≠ row.2.name then some ⟨row.1, .renamed⟩
    else if old.version ≠ row.2.version then some ⟨row.1, .modified⟩
    else none

def goneFrom (rows : List (FileId × Shape)) : List HistoryEvent :=
  let gone := node.shapes.filter fun old => !(rows.map Prod.fst).contains old.1
  let sorted := gone.mergeSort fun a b => a.2.name < b.2.name || (a.2.name = b.2.name && a.1 ≤ b.1)
  sorted.filterMap fun old => old.2.parent.map fun parent => ⟨parent, .deleted⟩

def project (replica : Option Replicated) : VaultNode :=
  let rows := node.rows replica
  let events := rows.filterMap node.classify ++ node.goneFrom rows
  let known := node.records ++ (rows.map Prod.fst).filter fun id => !node.records.contains id
  let logged := if node.hydrated then events.foldl log node else node
  { logged with
    shapes := rows
    records := if node.opened then known.filter fun id => (rows.map Prod.fst).contains id else known
    hydrated := node.hydrated || node.opened }

def rememberShort (short : Text) : VaultNode :=
  if node.cache.shortCode = short then node else { node with cache := { node.cache with shortCode := short } }

section

variable {Addr : Type} [AdminAddr Addr]

def remember (ad : DirectoryAd Addr) : VaultNode :=
  let addr := (SocketAddr.print ad.addr).toList
  let peer := idText ad.peerId.val
  if node.cache.hostAddr = addr ∧ node.cache.hostPeerId = peer ∧ node.cache.adIssuedAt = ad.issuedAt then node
  else
    { node with
      cache :=
        { node.cache with
          hostAddr := addr
          hostPeerId := peer
          hostEk := ad.ek
          hostVk := ad.vk
          adIssuedAt := ad.issuedAt
          adSignature := ad.signature } }

def parseAddr (Addr : Type) [AdminAddr Addr] (text : Text) : Option Addr := SocketAddr.parse (String.ofList text)

def adminTargetNow (Addr : Type) [AdminAddr Addr] : Option AdminTarget :=
  match node.admin with
  | some target => some target
  | none =>
    (parseAddr Addr node.cache.hostAddr).map fun addr =>
      let port := min (NumericAddr.port addr + adminPortOffset) 65535
      ⟨(SocketAddr.print (AdminAddr.withPort addr port)).toList, []⟩

variable [Primitives]

def verifies (ad : DirectoryAd Addr) : Option U64 → Bool
  | some now => (ad.verify now).toOption.isSome
  | none => false

def cachedAd (unixTime : Option U64) : Option (DirectoryAd Addr) :=
  if node.cache.hostAddr = [] then none
  else do
    let addr ← parseAddr Addr node.cache.hostAddr
    let peer ← unhex32 node.cache.hostPeerId
    let ad : DirectoryAd Addr :=
      { peerId := ⟨peer⟩
        vaultId := ⟨node.rootFile.val⟩
        addr := addr
        ek := node.cache.hostEk
        vk := node.cache.hostVk
        issuedAt := node.cache.adIssuedAt
        signature := node.cache.adSignature }
    if verifies ad unixTime then some ad else none

/-- The directory first, the last advertisement that verified second. -/
def resolveAd (answers : Answers Addr) (code : JoinCode) : Option (DirectoryAd Addr) × VaultNode :=
  let directory := (parseAddr Addr node.record.directoryAddr).or answers.configured
  match directory.bind fun addr => answers.lookup addr code with
  | some (some ad) =>
    if verifies ad answers.unixTime ∧ ad.vaultId.val = node.rootFile.val then (some ad, node.remember ad)
    else (node.cachedAd answers.unixTime, node)
  | _ => (node.cachedAd answers.unixTime, node)

def candidates : List Text := [node.snapshot.joinCode, node.record.joinCode, node.cache.shortCode]

def joinWith (answers : Answers Addr) (code : JoinCode) : Attempt × VaultNode :=
  match node.resolveAd answers code with
  | (none, node) => (.failed, node)
  | (some ad, node) =>
    if node.opened = false ∧ answers.opens = false then (.failed, node)
    else
      let node := { node with opened := true }
      match answers.join ad code with
      | .joined => (.joined, { node with connected := true })
      | .authenticationFailed => (.refused, node)
      | .failed =>
        let failures := min (node.handshakeFailures + 1) u32Max
        (.failed, { node with handshakeFailures := if handshakesBeforeReset ≤ failures then 0 else failures })

def attemptJoin (answers : Answers Addr) : Attempt × VaultNode :=
  match node.candidates.findSome? resolveJoinCode with
  | none => (.failed, node)
  | some (short, code) => (short.elim node node.rememberShort).joinWith answers code

/-- The host still serves the vault, lists members, and this peer is not one of them. -/
def servesWithout (status : AdminStatus) : Bool :=
  (status.vault node.record.vaultId).isSome && !(status.membersOf node.record.vaultId).isEmpty &&
    !(status.membersOf node.record.vaultId).any (·.peer = idText node.selfPeer.val)

def membershipGone (answers : Answers Addr) : Bool :=
  node.wasMember && ((node.adminTargetNow Addr).bind answers.status).any node.servesWithout

end

def countRefusal (now : Nat) : VaultNode :=
  if node.lastRefusal.any fun last => now - last < reconnectBackoff then node
  else { node with lastRefusal := some now, refusals := min (node.refusals + 1) u32Max }

def revoke : VaultNode := { node with stopped := true, revoked := true }

def connect {Addr : Type} [AdminAddr Addr] [Primitives] (answers : Answers Addr) : VaultNode :=
  if node.connected ∨ answers.now < node.nextConnect then node
  else
    let (attempt, node) := node.attemptJoin answers
    let node := { node with nextConnect := answers.now + node.backoff }
    match attempt with
    | .joined =>
      { node with
        backoff := reconnectBackoff
        nextConnect := answers.now + reconnectBackoff
        handshakeFailures := 0
        refusals := 0
        lastRefusal := none
        wasMember := true }
    | .refused =>
      let node := { node with backoff := min (node.backoff * 2) maxReconnectBackoff }.countRefusal answers.now
      let starved := (node.adminTargetNow Addr).isNone
      if node.membershipGone answers ∨ (starved ∧ refusalsBeforeRevoked ≤ node.refusals ∧ node.wasMember) then
        node.revoke
      else node
    | .failed =>
      let node := { node with backoff := min (node.backoff * 2) maxReconnectBackoff }
      if node.membershipGone answers then node.revoke else node

def applySnapshot [Primitives] (snapshot : VaultSnapshot) : VaultNode :=
  let listed := snapshot.members.any (·.peer = idText node.selfPeer.val)
  let node := { node with snapshot := snapshot, wasMember := node.wasMember || listed }
  (ShortCode.normalize snapshot.joinCode).elim node node.rememberShort

def handle [Primitives] : VaultReq → VaultNode
  | .admin target => { node with admin := target }
  | .status snapshot => node.applySnapshot snapshot

def refreshSidecar (replica : Option Replicated) : VaultNode :=
  match node.opened, replica.bind (·.settings) with
  | true, some (version, name) =>
    if version = node.sidecarVersion then node else { node with sidecarName := name, sidecarVersion := version }
  | _, _ => node

/-- What a command leaves behind that the host took the updates of. -/
def command (entries : List HistoryEvent) (sidecar : Option (U64 × String)) (up : Bool) : VaultNode :=
  if node.connected then
    let node := entries.foldl log node
    let node := sidecar.elim node fun written => { node with sidecarName := written.2, sidecarVersion := written.1 }
    { node with connected := up }
  else node

def dropSession (now : Nat) : VaultNode :=
  { node with connected := false, backoff := reconnectBackoff, nextConnect := now + reconnectBackoff }

end VaultNode

/-- One vault on one machine; `admitted` is whether the host ever let this peer in. -/
structure Site where
  vaultHex : Text
  selfPeer : PeerId
  folder : VaultFolder
  node : Option VaultNode
  admitted : Bool

def Site.new (vaultHex : Text) (selfPeer : PeerId) : Site := ⟨vaultHex, selfPeer, VaultFolder.empty, none, false⟩

inductive SiteEvent (Addr : Type) where
  | letIn
  | spawn (record : VaultRecord) (admin : Option AdminTarget)
  | request (req : VaultReq)
  | connect (answers : Answers Addr)
  | receive (replica : Replicated)
  | command (entries : List HistoryEvent) (sidecar : Option (U64 × String)) (up : Bool)
  | refresh
  | project
  | drop (now : Nat)
  | save (history records cache : Bool)
  | exit
  | crash
  /-- The folder was moved aside: the next process makes itself a new identity. -/
  | forget (selfPeer : PeerId)

namespace Site

variable (site : Site)

def act (step : VaultNode → VaultNode) : Site :=
  match site.node with
  | some node => if node.stopped then site else { site with node := some (step node) }
  | none => site

def save (history records cache : Bool) : Site :=
  match site.node with
  | some node =>
    { site with
      folder :=
        { site.folder with
          history := if history then node.history else site.folder.history
          records := if records then node.records else site.folder.records
          cache := if cache then node.cache else site.folder.cache } }
  | none => site

def keep (replica : Replicated) : Site := { site with folder := { site.folder with replica := some replica } }

/-- The replica as it is after the attempt: created when it was opened, then what came in. -/
def opened (node : VaultNode) (received : Option Replicated) : Site :=
  if node.opened then
    site.keep (received.getD (site.folder.replica.getD (Replicated.new node.rootFile)))
  else site

variable {Addr : Type} [AdminAddr Addr] [Primitives]

def exec : SiteEvent Addr → Site
  | .letIn => { site with admitted := true }
  | .spawn record admin =>
    match site.node, unhex32 site.vaultHex with
    | none, some root =>
      if record.vaultId = site.vaultHex then
        { site with node := some ((VaultNode.spawn record admin ⟨root⟩ site.selfPeer site.folder).project none) }
      else site
    | _, _ => site
  | .request req => site.act (·.handle req)
  | .connect answers =>
    match site.node with
    | some node =>
      if node.stopped then site
      else
        let node := node.connect answers
        { site.opened node answers.received with node := some node }
    | none => site
  | .receive replica =>
    match site.node with
    | some node => if node.connected then site.keep replica else site
    | none => site
  | .command entries sidecar up => site.act (·.command entries sidecar up)
  | .refresh => site.act (·.refreshSidecar site.folder.replica)
  | .project => site.act (·.project site.folder.replica)
  | .drop now => site.act (·.dropSession now)
  | .save history records cache => site.save history records cache
  | .exit => { site.save true true true with node := none }
  | .crash => { site with node := none }
  | .forget selfPeer =>
    match site.node with
    | none => Site.new site.vaultHex selfPeer
    | some _ => site

/-- Whether the running task has called `revoke`. -/
def revoked : Bool := site.node.any VaultNode.revoked

end Site

def siteMachine (Addr : Type) [AdminAddr Addr] [Primitives] : Machine Site (SiteEvent Addr) :=
  ⟨fun event site => site.exec event⟩

/-- The vault is served, has members, and the peer is not among them. -/
def Evidence (status : AdminStatus) (vaultHex : Text) (peer : PeerId) : Prop :=
  (status.vault vaultHex).isSome ∧ status.membersOf vaultHex ≠ [] ∧
    ∀ member ∈ status.membersOf vaultHex, member.peer ≠ idText peer.val

/-- A join that succeeds, contents of the vault and a list with this peer in it come only
from a host that let the peer in. -/
def Honest {Addr : Type} (site : Site) : SiteEvent Addr → Prop
  | .request (.status snapshot) =>
    (∃ member ∈ snapshot.members, member.peer = idText site.selfPeer.val) → site.admitted = true
  | .connect answers =>
    ((∃ ad code, answers.join ad code = .joined) ∨ answers.received ≠ none) → site.admitted = true
  | _ => True

namespace VaultNode

variable {node : VaultNode}

theorem rememberShort_eq (node : VaultNode) (short : Text) : ∃ cache, node.rememberShort short = { node with cache := cache } := by
  unfold rememberShort
  split
  · exact ⟨node.cache, rfl⟩
  · exact ⟨_, rfl⟩

theorem countRefusal_eq (node : VaultNode) (now : Nat) : ∃ refusals last,
    node.countRefusal now = { node with refusals := refusals, lastRefusal := last } := by
  unfold countRefusal
  split
  · exact ⟨node.refusals, node.lastRefusal, rfl⟩
  · exact ⟨_, _, rfl⟩

theorem servesWithout_iff {status : AdminStatus} :
    node.servesWithout status = true ↔ Evidence status node.record.vaultId node.selfPeer := by
  unfold servesWithout Evidence
  simp only [Bool.and_eq_true, Bool.not_eq_true', List.isEmpty_eq_false_iff, List.any_eq_false,
    decide_eq_true_eq, and_assoc]

section

variable {Addr : Type} [AdminAddr Addr]

theorem remember_eq (ad : DirectoryAd Addr) : ∃ cache, node.remember ad = { node with cache := cache } := by
  unfold remember
  dsimp only
  split
  · exact ⟨node.cache, rfl⟩
  · exact ⟨_, rfl⟩

theorem hostAddr_remember (ad : DirectoryAd Addr) :
    (node.remember ad).cache.hostAddr = (SocketAddr.print ad.addr).toList := by
  unfold remember
  dsimp only
  split
  · rename_i same
    exact same.1
  · rfl

theorem adminTargetNow_of_parses {addr : Addr} (h : parseAddr Addr node.cache.hostAddr = some addr) :
    (node.adminTargetNow Addr).isSome := by
  unfold adminTargetNow
  split
  · rfl
  · rw [h]
    rfl

theorem membershipGone_evidence {answers : Answers Addr} (gone : node.membershipGone answers = true) :
    node.wasMember = true ∧ ∃ target status, node.adminTargetNow Addr = some target ∧
      answers.status target = some status ∧ Evidence status node.record.vaultId node.selfPeer := by
  unfold membershipGone at gone
  rw [Bool.and_eq_true, Option.any_eq_true] at gone
  obtain ⟨member, status, answered, without⟩ := gone
  obtain ⟨target, asked, answered⟩ := Option.bind_eq_some_iff.mp answered
  exact ⟨member, target, status, asked, answered, servesWithout_iff.mp without⟩

variable [Primitives]

theorem resolveAd_eq (node : VaultNode) (answers : Answers Addr) (code : JoinCode) :
    ∃ cache, (node.resolveAd answers code).2 = { node with cache := cache } := by
  unfold resolveAd
  dsimp only
  split
  · split
    · exact remember_eq _
    · exact ⟨node.cache, rfl⟩
  · exact ⟨node.cache, rfl⟩

theorem adminTargetNow_of_resolveAd (parses : ∀ addr : Addr, SocketAddr.parse (SocketAddr.print addr) = some addr)
    {answers : Answers Addr} {code : JoinCode} {ad : DirectoryAd Addr} {next : VaultNode}
    (h : node.resolveAd answers code = (some ad, next)) : (next.adminTargetNow Addr).isSome := by
  have cached : ∀ {unixTime}, node.cachedAd unixTime = some ad → (node.adminTargetNow Addr).isSome := by
    intro unixTime found
    unfold cachedAd at found
    obtain ⟨_, found⟩ := Option.ite_none_left_eq_some.mp found
    obtain ⟨addr, parsed, _⟩ := Option.bind_eq_some_iff.mp found
    exact adminTargetNow_of_parses parsed
  unfold resolveAd at h
  dsimp only at h
  split at h
  · split at h
    · obtain ⟨_, rfl⟩ := Prod.mk.inj h
      rename_i found _ _ _
      have parsed : parseAddr Addr (node.remember found).cache.hostAddr = some found.addr := by
        unfold parseAddr
        rw [hostAddr_remember, String.ofList_toList]
        exact parses found.addr
      exact adminTargetNow_of_parses parsed
    · obtain ⟨found, rfl⟩ := Prod.mk.inj h
      exact cached found
  · obtain ⟨found, rfl⟩ := Prod.mk.inj h
    exact cached found

structure Tried (node : VaultNode) (answers : Answers Addr) (result : Attempt × VaultNode) : Prop where
  kept : ∃ cache opened failures connected, result.2 =
    { node with cache := cache, opened := opened, handshakeFailures := failures, connected := connected } ∧
      (result.1 = .joined ∨ connected = node.connected)
  joined : result.1 = .joined → ∃ ad code, answers.join ad code = .joined

theorem tried_joinWith (node : VaultNode) (answers : Answers Addr) (code : JoinCode) :
    node.Tried answers (node.joinWith answers code) := by
  obtain ⟨cache, kept⟩ := resolveAd_eq node answers code
  unfold joinWith
  split
  · rename_i next found
    rw [found] at kept
    exact ⟨⟨cache, _, _, _, kept, .inr rfl⟩, nofun⟩
  · rename_i ad next found
    rw [found] at kept
    dsimp only at kept
    subst kept
    split
    · exact ⟨⟨cache, _, _, _, rfl, .inr rfl⟩, nofun⟩
    · dsimp only
      split
      · rename_i joined
        exact ⟨⟨cache, _, _, _, rfl, .inl rfl⟩, fun _ => ⟨ad, code, joined⟩⟩
      · exact ⟨⟨cache, _, _, _, rfl, .inr rfl⟩, nofun⟩
      · exact ⟨⟨cache, _, _, _, rfl, .inr rfl⟩, nofun⟩

theorem tried_attemptJoin (node : VaultNode) (answers : Answers Addr) : node.Tried answers (node.attemptJoin answers) := by
  unfold attemptJoin
  split
  · exact ⟨⟨_, _, _, _, rfl, .inr rfl⟩, nofun⟩
  · rename_i short code _
    obtain ⟨cache, started⟩ : ∃ cache, short.elim node node.rememberShort = { node with cache := cache } := by
      cases short with
      | none => exact ⟨node.cache, rfl⟩
      | some short => exact rememberShort_eq node short
    rw [started]
    have tried := tried_joinWith { node with cache := cache } answers code
    exact ⟨tried.kept, tried.joined⟩

theorem adminTargetNow_of_refused (parses : ∀ addr : Addr, SocketAddr.parse (SocketAddr.print addr) = some addr)
    {answers : Answers Addr} (refused : (node.attemptJoin answers).1 = .refused) :
    ((node.attemptJoin answers).2.adminTargetNow Addr).isSome := by
  unfold attemptJoin at refused ⊢
  split at refused
  · cases refused
  · unfold joinWith at refused ⊢
    split at refused
    · cases refused
    · rename_i ad next found
      have target := adminTargetNow_of_resolveAd parses found
      split at refused
      · cases refused
      · rename_i opens
        rw [if_neg opens]
        dsimp only at refused ⊢
        split at refused
        · cases refused
        · exact target
        · cases refused

theorem connect_revoked (parses : ∀ addr : Addr, SocketAddr.parse (SocketAddr.print addr) = some addr)
    {answers : Answers Addr} (before : node.revoked = false) (after : (node.connect answers).revoked = true) :
    (node.attemptJoin answers).1 ≠ .joined ∧ node.wasMember = true ∧
      ∃ target status, (node.attemptJoin answers).2.adminTargetNow Addr = some target ∧
        answers.status target = some status ∧ Evidence status node.record.vaultId node.selfPeer := by
  have starved : (node.attemptJoin answers).1 = .refused →
      ((node.attemptJoin answers).2.adminTargetNow Addr).isSome := adminTargetNow_of_refused parses
  obtain ⟨⟨cache, opened, failures, connected, kept, _⟩, _⟩ := tried_attemptJoin node answers
  unfold connect at after
  split at after
  · rw [before] at after
    cases after
  · generalize node.attemptJoin answers = result at kept starved after
    obtain ⟨attempt, next⟩ := result
    dsimp only at kept starved after ⊢
    subst kept
    cases attempt with
    | joined =>
      rw [before] at after
      cases after
    | refused =>
      dsimp only at after
      obtain ⟨refusals, last, counted⟩ := countRefusal_eq
        { node with
          cache := cache
          opened := opened
          handshakeFailures := failures
          connected := connected
          nextConnect := answers.now + node.backoff
          backoff := min (node.backoff * 2) maxReconnectBackoff } answers.now
      rw [counted] at after
      split at after
      · rename_i gone
        refine ⟨nofun, ?_⟩
        obtain gone | ⟨alone, _⟩ := gone
        · exact membershipGone_evidence gone
        · obtain ⟨target, asked⟩ := Option.isSome_iff_exists.mp (starved rfl)
          cases asked.symm.trans (Option.isNone_iff_eq_none.mp alone)
      · rw [before] at after
        cases after
    | failed =>
      dsimp only at after
      split at after
      · rename_i gone
        exact ⟨nofun, membershipGone_evidence gone⟩
      · rw [before] at after
        cases after

end

def rootRow (node : VaultNode) : FileId × Shape := (node.rootFile, ⟨none, node.vaultName, true, 0⟩)

structure Stranger (node : VaultNode) : Prop where
  history : node.history = []
  disconnected : node.connected = false
  wasMember : node.wasMember = false
  unnamed : node.sidecarName = ""
  shapes : node.shapes = [node.rootRow]

theorem walkLoop_nil (tree : DirectoryTree) (guard : Nat) (out : List Node) : walkLoop tree guard [] out = out := by
  cases guard with
  | zero => rfl
  | succ guard => rfl

theorem shownIn_new (root folder : FileId) : shownIn (DirectoryTree.new root) folder = [] := by
  refine List.eq_nil_iff_forall_not_mem.mpr fun entry mem => ?_
  obtain ⟨mem, named, _⟩ := mem_shownIn.mp mem
  obtain ⟨key, held⟩ := DirectoryTree.mem_dirents.mp mem
  have held : ((∅ : Map DirentKey Dirent).insert (direntKey root "")
      (DirectoryTree.rootDirent root))[key]? = some entry := held
  rw [Map.get_insert] at held
  split at held
  · cases held
    exact named rfl
  · rw [Std.ExtTreeMap.getElem?_empty] at held
    cases held

theorem walk_new (root : FileId) (name : String) :
    walk (DirectoryTree.new root) name = [⟨root, none, name, true, "/"⟩] := by
  have root : (DirectoryTree.new root).expectedRoot = root := rfl
  unfold walk walkGuard
  rw [walkLoop, root, shownIn_new]
  exact walkLoop_nil _ _ _

theorem rows_new (node : VaultNode) {replica : Option Replicated}
    (bare : ∀ r, replica = some r → r = Replicated.new node.rootFile) : node.rows replica = [node.rootRow] := by
  unfold rows
  split
  · rename_i replica _
    rw [bare replica rfl]
    change (walk (DirectoryTree.new node.rootFile) node.vaultName).map _ = _
    rw [walk_new]
    rfl
  · rfl

theorem Stranger.project {node : VaultNode} (stranger : node.Stranger) {replica : Option Replicated}
    (bare : ∀ r, replica = some r → r = Replicated.new node.rootFile) : (node.project replica).Stranger := by
  have rows := node.rows_new bare
  have silent : [node.rootRow].filterMap node.classify ++ node.goneFrom [node.rootRow] = [] := by
    have known : node.classify node.rootRow = none := by
      have same : [node.rootRow].lookup node.rootRow.1 = some node.rootRow.2 := List.lookup_cons_self
      unfold classify
      rw [stranger.shapes, same]
      exact if_pos rfl
    have gone : node.goneFrom [node.rootRow] = [] := by
      have stays : ([node.rootRow].filter fun old => !([node.rootRow].map Prod.fst).contains old.1) = [] := by
        simp only [List.map_cons, List.map_nil, List.contains_cons, BEq.rfl, Bool.true_or, Bool.not_true,
          List.filter_cons, Bool.false_eq_true, ↓reduceIte, List.filter_nil]
      unfold goneFrom
      rw [stranger.shapes]
      dsimp only
      rw [stays, List.mergeSort_nil]
      rfl
    rw [gone, List.filterMap_cons, known]
    rfl
  unfold VaultNode.project
  dsimp only
  rw [rows, silent]
  have same : (if node.hydrated = true then List.foldl log node [] else node) = node := by
    split <;> rfl
  rw [same]
  exact ⟨stranger.history, stranger.disconnected, stranger.wasMember, stranger.unnamed, rfl⟩

/-- The vault and the identity are those of the task from its start to its end. -/
structure SameVault (node next : VaultNode) : Prop where
  record : next.record = node.record
  selfPeer : next.selfPeer = node.selfPeer
  rootFile : next.rootFile = node.rootFile

structure Continues (node next : VaultNode) : Prop extends SameVault node next where
  revoked : next.revoked = node.revoked

theorem SameVault.refl (node : VaultNode) : node.SameVault node := ⟨rfl, rfl, rfl⟩

theorem Continues.refl (node : VaultNode) : node.Continues node := ⟨.refl node, rfl⟩

theorem continues_logs (events : List HistoryEvent) (node : VaultNode) : node.Continues (events.foldl log node) := by
  induction events generalizing node with
  | nil => exact .refl node
  | cons event events ih =>
    have first : node.Continues (node.log event) := by
      unfold log
      exact ⟨⟨rfl, rfl, rfl⟩, rfl⟩
    have rest := ih (node.log event)
    rw [List.foldl_cons]
    exact ⟨⟨rest.record.trans first.record, rest.selfPeer.trans first.selfPeer,
      rest.rootFile.trans first.rootFile⟩, rest.revoked.trans first.revoked⟩

theorem continues_project (node : VaultNode) (replica : Option Replicated) : node.Continues (node.project replica) := by
  unfold project
  dsimp only
  split
  · have logs := continues_logs ((node.rows replica).filterMap node.classify ++ node.goneFrom (node.rows replica)) node
    exact ⟨⟨logs.record, logs.selfPeer, logs.rootFile⟩, logs.revoked⟩
  · exact ⟨⟨rfl, rfl, rfl⟩, rfl⟩

theorem continues_command (node : VaultNode) (entries : List HistoryEvent) (sidecar : Option (U64 × String))
    (up : Bool) : node.Continues (node.command entries sidecar up) := by
  unfold command
  split
  · have logs := continues_logs entries node
    cases sidecar with
    | none => exact ⟨⟨logs.record, logs.selfPeer, logs.rootFile⟩, logs.revoked⟩
    | some written => exact ⟨⟨logs.record, logs.selfPeer, logs.rootFile⟩, logs.revoked⟩
  · exact .refl node

theorem continues_refreshSidecar (node : VaultNode) (replica : Option Replicated) :
    node.Continues (node.refreshSidecar replica) := by
  unfold refreshSidecar
  split
  · split
    · exact .refl node
    · exact ⟨⟨rfl, rfl, rfl⟩, rfl⟩
  · exact .refl node

theorem spawn_stranger (record : VaultRecord) (admin : Option AdminTarget) (root : FileId) (peer : PeerId)
    {folder : VaultFolder} (history : folder.history = []) :
    ((spawn record admin root peer folder).project none).Stranger := by
  have first : ∀ node : VaultNode, node.hydrated = false → node.history = [] → node.connected = false →
      node.wasMember = false → node.sidecarName = "" → (node.project none).Stranger := by
    intro node early history disconnected was unnamed
    have rows : node.rows none = [node.rootRow] := node.rows_new nofun
    unfold project
    dsimp only
    rw [early, rows]
    exact ⟨history, disconnected, was, unnamed, rfl⟩
  refine first (spawn record admin root peer folder) rfl history rfl ?_ rfl
  unfold spawn
  rw [history]
  rfl

section

variable [Primitives]

theorem applySnapshot_eq (node : VaultNode) (snapshot : VaultSnapshot) : ∃ cache,
    node.applySnapshot snapshot =
      { node with
        snapshot := snapshot
        wasMember := node.wasMember || snapshot.members.any (·.peer = idText node.selfPeer.val)
        cache := cache } := by
  unfold applySnapshot
  dsimp only
  cases ShortCode.normalize snapshot.joinCode with
  | none => exact ⟨node.cache, rfl⟩
  | some short => exact rememberShort_eq _ short

theorem continues_handle (node : VaultNode) (req : VaultReq) : node.Continues (node.handle req) := by
  cases req with
  | admin target => exact ⟨⟨rfl, rfl, rfl⟩, rfl⟩
  | status snapshot =>
    obtain ⟨cache, same⟩ := applySnapshot_eq node snapshot
    change node.Continues (node.applySnapshot snapshot)
    rw [same]
    exact ⟨⟨rfl, rfl, rfl⟩, rfl⟩

theorem connect_eq {Addr : Type} [AdminAddr Addr] (node : VaultNode) (answers : Answers Addr) :
    node.SameVault (node.connect answers) ∧
      ((∀ ad code, answers.join ad code ≠ .joined) → node.Stranger → (node.connect answers).Stranger) := by
  obtain ⟨⟨cache, opened, failures, connected, kept, same⟩, joined⟩ := tried_attemptJoin node answers
  unfold connect
  split
  · exact ⟨.refl node, fun _ stranger => stranger⟩
  · generalize node.attemptJoin answers = result at kept same joined ⊢
    obtain ⟨attempt, next⟩ := result
    dsimp only at kept same joined ⊢
    subst kept
    cases attempt with
    | joined =>
      refine ⟨⟨rfl, rfl, rfl⟩, fun never => ?_⟩
      obtain ⟨ad, code, isJoined⟩ := joined rfl
      exact absurd isJoined (never ad code)
    | refused =>
      obtain ⟨refusals, last, counted⟩ := countRefusal_eq
        { node with
          cache := cache
          opened := opened
          handshakeFailures := failures
          connected := connected
          nextConnect := answers.now + node.backoff
          backoff := min (node.backoff * 2) maxReconnectBackoff } answers.now
      have same := same.resolve_left nofun
      subst same
      dsimp only
      rw [counted]
      split
      · exact ⟨⟨rfl, rfl, rfl⟩, fun _ stranger => ⟨stranger.1, stranger.2, stranger.3, stranger.4, stranger.5⟩⟩
      · exact ⟨⟨rfl, rfl, rfl⟩, fun _ stranger => ⟨stranger.1, stranger.2, stranger.3, stranger.4, stranger.5⟩⟩
    | failed =>
      have same := same.resolve_left nofun
      subst same
      dsimp only
      split
      · exact ⟨⟨rfl, rfl, rfl⟩, fun _ stranger => ⟨stranger.1, stranger.2, stranger.3, stranger.4, stranger.5⟩⟩
      · exact ⟨⟨rfl, rfl, rfl⟩, fun _ stranger => ⟨stranger.1, stranger.2, stranger.3, stranger.4, stranger.5⟩⟩

end

end VaultNode

/-- The folder and the task of a peer that was never let in know nothing of the vault. -/
structure Site.Coherent (site : Site) : Prop where
  history : site.admitted = false → site.folder.history = []
  replica : site.admitted = false → ∀ r, site.folder.replica = some r →
    ∀ root, unhex32 site.vaultHex = some root → r = Replicated.new ⟨root⟩
  vault : ∀ node, site.node = some node → node.record.vaultId = site.vaultHex ∧
    node.selfPeer = site.selfPeer ∧ unhex32 site.vaultHex = some node.rootFile.val
  stranger : site.admitted = false → ∀ node, site.node = some node → node.Stranger

namespace Site.Coherent

variable {site : Site}

theorem bare (coherent : site.Coherent) {node : VaultNode} (running : site.node = some node)
    (unknown : site.admitted = false) : ∀ r, site.folder.replica = some r → r = Replicated.new node.rootFile :=
  fun r held => coherent.replica unknown r held node.rootFile.val (coherent.vault node running).2.2

theorem running (coherent : site.Coherent) {node next : VaultNode} (running : site.node = some node)
    (same : node.SameVault next) (stranger : site.admitted = false → next.Stranger) :
    Coherent { site with node := some next } where
  history := coherent.history
  replica := coherent.replica
  vault := by
    intro other isNext
    cases isNext
    rw [same.record, same.selfPeer, same.rootFile]
    exact coherent.vault node running
  stranger := by
    intro unknown other isNext
    cases isNext
    exact stranger unknown

theorem act (coherent : site.Coherent) {step : VaultNode → VaultNode} (same : ∀ node : VaultNode, node.Continues (step node))
    (stranger : site.admitted = false → ∀ node, site.node = some node → node.Stranger → (step node).Stranger) :
    (site.act step).Coherent := by
  unfold Site.act
  split
  · rename_i node isRunning
    split
    · exact coherent
    · exact coherent.running isRunning (same node).toSameVault fun unknown =>
        stranger unknown node isRunning (coherent.stranger unknown node isRunning)
  · exact coherent

theorem stopped (coherent : site.Coherent) : Coherent { site with node := none } where
  history := coherent.history
  replica := coherent.replica
  vault := fun _ h => nomatch h
  stranger := fun _ _ h => nomatch h

theorem save (coherent : site.Coherent) (history records cache : Bool) :
    (site.save history records cache).Coherent := by
  unfold Site.save
  split
  · rename_i node isRunning
    refine ⟨fun unknown => ?_, coherent.replica, coherent.vault, coherent.stranger⟩
    dsimp only
    split
    · exact (coherent.stranger unknown node isRunning).history
    · exact coherent.history unknown
  · exact coherent

theorem kept (coherent : site.Coherent) {replica : Replicated}
    (bare : site.admitted = false → ∀ root, unhex32 site.vaultHex = some root → replica = Replicated.new ⟨root⟩) :
    (site.keep replica).Coherent where
  history := coherent.history
  replica := by
    intro unknown r held
    cases held
    exact bare unknown
  vault := coherent.vault
  stranger := coherent.stranger

variable {Addr : Type} [AdminAddr Addr] [Primitives]

theorem connect (coherent : site.Coherent) {answers : Answers Addr}
    (honest : ((∃ ad code, answers.join ad code = .joined) ∨ answers.received ≠ none) → site.admitted = true)
    {node : VaultNode} (isRunning : site.node = some node) :
    Coherent { site.opened (node.connect answers) answers.received with node := some (node.connect answers) } := by
  obtain ⟨same, stranger⟩ := node.connect_eq answers
  have never : site.admitted = false → ∀ ad code, answers.join ad code ≠ .joined := by
    intro unknown ad code joined
    rw [honest (.inl ⟨ad, code, joined⟩)] at unknown
    cases unknown
  have next := coherent.running isRunning same fun unknown =>
    stranger (never unknown) (coherent.stranger unknown node isRunning)
  unfold Site.opened
  split
  · refine next.kept fun unknown root isRoot => ?_
    have nothing : answers.received = none := by
      by_contra received
      rw [honest (.inr received)] at unknown
      cases unknown
    have own : (node.connect answers).rootFile = ⟨root⟩ := by
      rw [same.rootFile]
      have vault := (coherent.vault node isRunning).2.2
      rw [isRoot] at vault
      cases vault
      rfl
    rw [nothing, own]
    cases held : site.folder.replica with
    | none => rfl
    | some r => exact coherent.replica unknown r held root isRoot
  · exact next

theorem exec (coherent : site.Coherent) (event : SiteEvent Addr) (honest : Honest site event) :
    (site.exec event).Coherent := by
  cases event with
  | letIn => exact ⟨nofun, nofun, coherent.vault, nofun⟩
  | spawn record admin =>
    change (match site.node, unhex32 site.vaultHex with
      | none, some root => _
      | _, _ => site : Site).Coherent
    split
    · rename_i root _ isRoot
      split
      · rename_i isVault
        have same := VaultNode.continues_project (VaultNode.spawn record admin ⟨root⟩ site.selfPeer site.folder) none
        refine ⟨coherent.history, coherent.replica, fun node isNode => ?_, fun unknown node isNode => ?_⟩
        · cases isNode
          rw [same.record, same.selfPeer, same.rootFile]
          exact ⟨isVault, rfl, isRoot⟩
        · cases isNode
          exact VaultNode.spawn_stranger record admin ⟨root⟩ site.selfPeer (coherent.history unknown)
      · exact coherent
    · exact coherent
  | request req =>
    refine coherent.act (·.continues_handle req) fun unknown node isRunning stranger => ?_
    cases req with
    | admin target => exact ⟨stranger.1, stranger.2, stranger.3, stranger.4, stranger.5⟩
    | status snapshot =>
      obtain ⟨cache, same⟩ := node.applySnapshot_eq snapshot
      have unlisted : snapshot.members.any (·.peer = idText node.selfPeer.val) = false := by
        rw [(coherent.vault node isRunning).2.1, List.any_eq_false]
        intro member mem isOwn
        rw [honest ⟨member, mem, of_decide_eq_true isOwn⟩] at unknown
        cases unknown
      change (node.applySnapshot snapshot).Stranger
      rw [same, unlisted, stranger.wasMember]
      exact ⟨stranger.1, stranger.2, rfl, stranger.4, stranger.5⟩
  | connect answers =>
    change (match site.node with
      | some node => _
      | none => site : Site).Coherent
    split
    · rename_i node isRunning
      split
      · exact coherent
      · exact coherent.connect honest isRunning
    · exact coherent
  | receive replica =>
    change (match site.node with
      | some node => _
      | none => site : Site).Coherent
    split
    · rename_i node isRunning
      split
      · rename_i up
        refine coherent.kept fun unknown => ?_
        rw [(coherent.stranger unknown node isRunning).disconnected] at up
        cases up
      · exact coherent
    · exact coherent
  | command entries sidecar up =>
    refine coherent.act (·.continues_command entries sidecar up) fun _ node _ stranger => ?_
    unfold VaultNode.command
    rw [if_neg (stranger.disconnected ▸ Bool.false_ne_true)]
    exact stranger
  | refresh =>
    refine coherent.act (·.continues_refreshSidecar site.folder.replica) fun unknown node isRunning stranger => ?_
    have nothing : site.folder.replica.bind (·.settings) = none := by
      cases held : site.folder.replica with
      | none => rfl
      | some r =>
        rw [coherent.bare isRunning unknown r held]
        rfl
    unfold VaultNode.refreshSidecar
    split
    · rename_i held
      rw [nothing] at held
      cases held
    · exact stranger
  | project =>
    exact coherent.act (·.continues_project site.folder.replica) fun unknown node isRunning stranger =>
      stranger.project (coherent.bare isRunning unknown)
  | drop now =>
    exact coherent.act (fun _ => ⟨⟨rfl, rfl, rfl⟩, rfl⟩) fun _ node _ stranger =>
      ⟨stranger.1, rfl, stranger.3, stranger.4, stranger.5⟩
  | save history records cache => exact coherent.save history records cache
  | exit => exact (coherent.save true true true).stopped
  | crash => exact coherent.stopped
  | forget selfPeer =>
    change (match site.node with
      | none => _
      | some _ => site : Site).Coherent
    split
    · exact ⟨fun _ => rfl, fun _ _ h => (nomatch h), fun _ h => (nomatch h), fun _ _ h => (nomatch h)⟩
    · exact coherent

end Site.Coherent

theorem coherent_new (vaultHex : Text) (selfPeer : PeerId) : (Site.new vaultHex selfPeer).Coherent :=
  ⟨fun _ => rfl, fun _ _ h => (nomatch h), fun _ h => (nomatch h), fun _ _ h => (nomatch h)⟩

theorem revoked_of_running {site : Site} {node : VaultNode} (isRunning : site.node = some node) :
    site.revoked = node.revoked := by
  unfold Site.revoked
  rw [isRunning]
  rfl

theorem revoked_act (site : Site) {step : VaultNode → VaultNode}
    (same : ∀ node : VaultNode, node.Continues (step node)) : (site.act step).revoked = site.revoked := by
  unfold Site.act
  split
  · rename_i node isRunning
    split
    · rfl
    · rw [revoked_of_running isRunning]
      exact (same node).revoked
  · rfl

theorem revoked_save (site : Site) (history records cache : Bool) :
    (site.save history records cache).revoked = site.revoked := by
  unfold Site.save
  split
  · rfl
  · rfl

section

variable {Addr : Type} [AdminAddr Addr] [Primitives]

/-- What a step that gives the vault up rests on: the peer was let in once, and the failed
attempt got a `STATUS` from the host that lists others and not this peer. -/
def Vouched (site : Site) (event : SiteEvent Addr) : Prop :=
  site.revoked = false → (site.exec event).revoked = true →
    site.admitted = true ∧ ∃ node answers target status, site.node = some node ∧ event = .connect answers ∧
      (node.attemptJoin answers).1 ≠ .joined ∧
        (node.attemptJoin answers).2.adminTargetNow Addr = some target ∧
          answers.status target = some status ∧ Evidence status site.vaultHex site.selfPeer

theorem Site.Coherent.vouched (parses : ∀ addr : Addr, SocketAddr.parse (SocketAddr.print addr) = some addr)
    {site : Site} (coherent : site.Coherent) (event : SiteEvent Addr) : Vouched site event := by
  intro before after
  have unchanged : (site.exec event).revoked = site.revoked → False := by
    intro same
    rw [same, before] at after
    cases after
  cases event with
  | connect answers =>
    unfold Site.exec at after
    dsimp only at after
    split at after
    · rename_i node isRunning
      have alive : node.revoked = false := (revoked_of_running isRunning).symm.trans before
      split at after
      · rw [before] at after
        cases after
      · obtain ⟨failed, was, target, status, asked, answered, evidence⟩ := node.connect_revoked parses alive after
        obtain ⟨vault, own, _⟩ := coherent.vault node isRunning
        rw [vault, own] at evidence
        refine ⟨?_, node, answers, target, status, isRunning, rfl, failed, asked, answered, evidence⟩
        by_contra unknown
        have stranger := coherent.stranger (Bool.eq_false_iff.mpr unknown) node isRunning
        rw [stranger.wasMember] at was
        cases was
    · rw [before] at after
      cases after
  | letIn => exact (unchanged rfl).elim
  | spawn record admin =>
    unfold Site.exec at after
    dsimp only at after
    split at after
    · split at after
      · rename_i root _ _ _
        have continues := VaultNode.continues_project
          (VaultNode.spawn record admin ⟨root⟩ site.selfPeer site.folder) none
        cases after.symm.trans continues.revoked
      · rw [before] at after
        cases after
    · rw [before] at after
      cases after
  | request req => exact (unchanged (revoked_act site (·.continues_handle req))).elim
  | receive replica =>
    unfold Site.exec at after
    dsimp only at after
    split at after
    · split at after
      · cases before.symm.trans after
      · cases before.symm.trans after
    · cases before.symm.trans after
  | command entries sidecar up =>
    exact (unchanged (revoked_act site (·.continues_command entries sidecar up))).elim
  | refresh => exact (unchanged (revoked_act site (·.continues_refreshSidecar site.folder.replica))).elim
  | project => exact (unchanged (revoked_act site (·.continues_project site.folder.replica))).elim
  | drop now => exact (unchanged (revoked_act site fun _ => ⟨⟨rfl, rfl, rfl⟩, rfl⟩)).elim
  | save history records cache => exact (unchanged (revoked_save site history records cache)).elim
  | exit => cases after
  | crash => cases after
  | forget selfPeer =>
    unfold Site.exec at after
    dsimp only at after
    split at after
    · cases after
    · rw [before] at after
      cases after

/-- However a run went, a vault is given up on evidence only. -/
theorem revocation_has_evidence (parses : ∀ addr : Addr, SocketAddr.parse (SocketAddr.print addr) = some addr)
    (vaultHex : Text) (selfPeer : PeerId) (events : List (SiteEvent Addr)) (event : SiteEvent Addr)
    (honest : (siteMachine Addr).Along Honest events (Site.new vaultHex selfPeer)) :
    Vouched ((siteMachine Addr).run events (Site.new vaultHex selfPeer)) event :=
  ((siteMachine Addr).throughout_of_step (fun _ event coherent honest => coherent.exec event honest) events
    (Site.new vaultHex selfPeer) (coherent_new vaultHex selfPeer) honest).final.vouched parses event

end

section

/-! A member that is on the host's list, and then is not. -/

local instance : Primitives := Primitives.plain

local instance : AdminAddr Loopback := ⟨fun addr _ => addr⟩

private def lostVault : Text := List.replicate 64 '0'

private def lostTarget : AdminTarget := ⟨['a'], []⟩

private def listedBy (peer : PeerId) : AdminMember := ⟨lostVault, idText peer.val, true, 0, 0⟩

private def membership : List (SiteEvent Loopback) :=
  [.letIn, .spawn ⟨lostVault, [], [], [], .member, [], true⟩ (some lostTarget),
    .request (.status ⟨[], 0, 0, 1, 0, none, [listedBy ⟨1⟩]⟩)]

private def lastAnswers : Answers Loopback where
  now := 0
  unixTime := none
  configured := none
  lookup := fun _ _ => none
  opens := true
  join := fun _ _ => .failed
  received := none
  status := fun _ => some ⟨⟨[], [], [], 0, []⟩, [⟨lostVault, [], 0, 0, 1, 0, 0, none⟩], [listedBy ⟨2⟩]⟩

theorem revocation_has_evidence_removed :
    let site := (siteMachine Loopback).run membership (Site.new lostVault ⟨1⟩)
    site.revoked = false ∧ (site.exec (.connect lastAnswers)).revoked = true ∧
      Vouched site (.connect lastAnswers) := by
  refine ⟨by decide +kernel, by decide +kernel, ?_⟩
  exact revocation_has_evidence Loopback.parse_print lostVault ⟨1⟩ membership (.connect lastAnswers)
    ⟨trivial, trivial, fun _ => rfl, trivial⟩

end

end QuantumFs.Client
