import QuantumFs.Host.Run
import QuantumFs.Net.ShortCode
import QuantumFs.Net.Vaults

/-! The admin port of a host (`net/admin.rs`), as far as join codes go: creating a
vault, rotating its code, kicking a member, and the status that shows the short
code. The short code is kept in a file beside the vault, apart from the join
code it stands for. -/
namespace QuantumFs.Net

open Lib Encoding Crypto Host

structure AppMeta where
  quota : Nat
  createdMs : Nat
  creator : Text
  short : Text
deriving DecidableEq

namespace AppMeta

def unset : AppMeta where
  quota := 0
  createdMs := 0
  creator := ['-']
  short := []

def quotaKey : Text := ['q', 'u', 'o', 't', 'a']
def createdKey : Text := ['c', 'r', 'e', 'a', 't', 'e', 'd', '_', 'm', 's']
def creatorKey : Text := ['c', 'r', 'e', 'a', 't', 'o', 'r']
def shortKey : Text := ['s', 'h', 'o', 'r', 't']

def readLine (found : AppMeta) (line : Text) : AppMeta :=
  match Text.splitOnce '=' line with
  | none => found
  | some (key, value) =>
    if key = quotaKey then { found with quota := (Text.parseU64 (Text.trim value)).getD 0 }
    else if key = createdKey then { found with createdMs := (Text.parseU64 (Text.trim value)).getD 0 }
    else if key = creatorKey then { found with creator := Text.oneLine (Text.trim value) }
    else if key = shortKey then
      { found with short := (ShortCode.normalize (Text.trim value)).getD [] }
    else found

def read (text : Text) : AppMeta := (Text.lines text).foldl readLine unset

def field (key value : Text) : Text := key ++ '=' :: value ++ ['\n']

def write (found : AppMeta) : Text :=
  field quotaKey (Text.decimal found.quota) ++ field createdKey (Text.decimal found.createdMs) ++
    field creatorKey found.creator ++ field shortKey found.short

theorem readLine_short (found : AppMeta) {short : Text} (canonical : ShortCode.Canonical short) :
    (readLine found (shortKey ++ '=' :: short)).short = short := by
  have solid : ∀ c ∈ short, Text.isBlank c = false := fun c mem =>
    (ShortCode.alphabet_plain c (canonical.2 c mem)).1
  unfold readLine
  rw [Text.splitOnce_append (by decide)]
  dsimp only
  rw [if_neg (by decide), if_neg (by decide), if_neg (by decide), if_pos rfl,
    Text.trim_of_solid solid, ShortCode.normalize_of_canonical canonical.1 canonical.2]
  rfl

theorem readLine_creator {found : AppMeta} (line : Text)
    (plain : '\n' ∉ found.creator ∧ '\r' ∉ found.creator) :
    '\n' ∉ (readLine found line).creator ∧ '\r' ∉ (readLine found line).creator := by
  unfold readLine
  split
  · exact plain
  · split_ifs
    · exact plain
    · exact plain
    · exact ⟨Text.not_mem_oneLine (.inl rfl) _, Text.not_mem_oneLine (.inr rfl) _⟩
    · exact plain
    · exact plain

theorem read_creator (text : Text) :
    '\n' ∉ (read text).creator ∧ '\r' ∉ (read text).creator := by
  unfold read
  have start : '\n' ∉ unset.creator ∧ '\r' ∉ unset.creator := by decide
  generalize unset = found at start ⊢
  generalize Text.lines text = lines
  induction lines generalizing found with
  | nil => exact start
  | cons line lines ih => exact ih _ (readLine_creator line start)

theorem lines_field {key value : Text} (key' : '\n' ∉ key ∧ '\r' ∉ key)
    (value' : '\n' ∉ value ∧ '\r' ∉ value) (rest : Text) :
    Text.lines (field key value ++ rest) = (key ++ '=' :: value) :: Text.lines rest := by
  unfold field
  rw [List.append_assoc, List.singleton_append]
  refine Text.lines_append ?_ ?_ rest
  · simp [key'.1, value'.1]
  · simp [key'.2, value'.2]

theorem read_write_short {found : AppMeta} (creator : '\n' ∉ found.creator ∧ '\r' ∉ found.creator)
    (canonical : ShortCode.Canonical found.short) : (read (write found)).short = found.short := by
  have digits : ∀ value, '\n' ∉ Text.decimal value ∧ '\r' ∉ Text.decimal value := fun value =>
    ⟨Text.not_mem_decimal (by decide) value, Text.not_mem_decimal (by decide) value⟩
  have short : '\n' ∉ found.short ∧ '\r' ∉ found.short :=
    ⟨fun mem => (ShortCode.alphabet_plain _ (canonical.2 _ mem)).2.2.2.1 rfl,
      fun mem => (ShortCode.alphabet_plain _ (canonical.2 _ mem)).2.2.2.2 rfl⟩
  unfold read write
  rw [List.append_assoc, List.append_assoc, lines_field (by decide) (digits _),
    lines_field (by decide) (digits _), lines_field (by decide) creator,
    ← List.append_nil (field shortKey found.short), lines_field (by decide) short]
  exact readLine_short _ canonical

end AppMeta

/-- A directory under `vaults`. -/
structure VaultDirectory where
  /-- It holds a `vault` or a `replica.bin`. -/
  occupied : Bool
  appMeta : Option Text

/-- The served vaults and the directories of the vaults. A vault of the old layout
is served without one. -/
structure AdminHost where
  set : VaultSet
  directories : Map VaultId VaultDirectory

/-- What the machine, the network and the file system answer during one command. -/
structure AdminEnv (Addr : Type) where
  host : HostEnv
  addr : Addr
  /-- The host was given a directory to advertise at. -/
  directory : Bool
  put : Result Unit
  forget : Result Unit
  random : Option (Fin ShortCode.shortLen → UInt8)
  vaultId : Option VaultId
  directoryMade : Store.WriteOutcome
  admissionWrite : Store.WriteOutcome
  metaWrite : Store.WriteOutcome
  /-- Paths can be looked up. -/
  probes : Bool
  metaReads : Bool

inductive VaultCode where
  | hidden
  | long (code : JoinCode)
  | short (text : Text)
deriving DecidableEq

structure VaultLine where
  vaultId : VaultId
  code : VaultCode
  quota : Nat
  members : Nat
  createdMs : Nat
  creator : Text

def VaultSet.withKeys (keys : KeyStore) (set : VaultSet) : VaultSet := { set with keys }

namespace AdminHost

def readMeta (readable : Bool) (vaultId : VaultId) (host : AdminHost) : AppMeta :=
  match host.directories[vaultId]?.bind VaultDirectory.appMeta with
  | none => .unset
  | some text => if readable then .read text else .unset

/-- A file of a directory is replaced, which can be reported as failed. -/
def writeFile (outcome : Store.WriteOutcome) (vaultId : VaultId)
    (change : VaultDirectory → VaultDirectory) : Action Error AdminHost Unit := fun host =>
  let directory := host.directories[vaultId]?.getD { occupied := false, appMeta := none }
  let next := { host with directories := host.directories.insert vaultId (change directory) }
  match outcome with
  | .written => (.ok (), next)
  | .failed true => (.error .io, next)
  | .failed false => (.error .io, host)

def writeMeta (outcome : Store.WriteOutcome) (vaultId : VaultId) (found : AppMeta) :
    Action Error AdminHost Unit :=
  writeFile outcome vaultId fun directory => { directory with appMeta := some found.write }

def onSet {α : Type} (x : Action Error VaultSet α) : Action Error AdminHost α :=
  Action.zoom AdminHost.set (fun set host => { host with set }) x

def hostedVault (vaultId : VaultId) (host : AdminHost) : Result VaultHost :=
  okOr host.set.vaults[vaultId]? (.invalidInput "unknown vault")

/-- The short code this host minted when there is one, else the join code itself. -/
def vaultCode (found : AppMeta) (admission : VaultMetadata) (authorized : Bool) : VaultCode :=
  if authorized = false then .hidden
  else if found.short = [] then .long admission.joinCode
  else .short found.short

section

variable {Addr : Type} (env : AdminEnv Addr)

def statusLine (authorized : Bool) (host : AdminHost) (vault : VaultHost) : Result VaultLine := do
  let admission ← VaultHost.admission vault.host
  let found := host.readMeta env.metaReads admission.vaultId
  pure {
    vaultId := admission.vaultId
    code := vaultCode found admission authorized
    quota := found.quota
    members := vault.host.state.members.size
    createdMs := found.createdMs
    creator := found.creator }

def status (authorized : Bool) (host : AdminHost) : Result (List VaultLine) := do
  let _ ← host.set.keys.peerId
  (Map.vals host.set.vaults).mapM (statusLine env authorized host)

def reply : DirectoryMessage Addr → Result Unit
  | .put _ _ => env.put
  | .forget _ => env.forget

def send (messages : List (DirectoryMessage Addr)) : Action Error AdminHost Unit :=
  Action.forEach messages fun message => Action.ofExcept (reply env message)

/-- Vaults of the old layout have no directory and keep their long code. -/
def storeShort (vaultId : VaultId) (short : Text) : Action Error AdminHost Unit := do
  Action.require (env.probes = true) .io
  let host ← Action.get
  if host.directories.contains vaultId = true then
    writeMeta env.metaWrite vaultId { host.readMeta env.metaReads vaultId with short }
  else pure ()

variable [NumericAddr Addr] [Primitives]

def rotateCode (vaultId : VaultId) : Action Error AdminHost Text := do
  let _ ← Action.query (hostedVault vaultId)
  Action.require (env.directory = true) (.invalidInput "host has no directory address")
  let rotated ← Action.ofExcept (ShortCode.generate env.random)
  let code ← Action.ofExcept (ShortCode.derive rotated)
  let messages ← onSet
    (VaultSet.onVault vaultId (VaultHost.rotateCodeWith env.host env.addr code))
  send env messages
  storeShort env vaultId rotated
  pure rotated

def kick (vaultId : VaultId) (target : PeerId) : Action Error AdminHost Text := do
  let _ ← Action.query (hostedVault vaultId)
  Action.require (env.directory = true) (.invalidInput "host has no directory address")
  let minted ← Action.ofExcept (ShortCode.generate env.random)
  let code ← Action.ofExcept (ShortCode.derive minted)
  let messages ← onSet
    (VaultSet.onVault vaultId (VaultHost.kickWithCode env.host env.addr target code))
  send env messages
  storeShort env vaultId minted
  pure minted

omit [NumericAddr Addr] [Primitives] in
/-- `create_vault_dir_with_code`. -/
def createVaultDir (code : JoinCode) : Action Error AdminHost VaultMetadata := do
  let vaultId ← Action.ofExcept (randomBytes env.vaultId)
  let own ← Action.query fun host => host.set.keys.peerId
  let metadata : VaultMetadata :=
    { vaultId, joinCode := code, issuedAt := 0, members := [own], denied := ∅ }
  writeFile env.directoryMade vaultId id
  Action.require (env.probes = true) .io
  let host ← Action.get
  Action.require (∀ directory ∈ host.directories[vaultId]?, directory.occupied = false)
    (.state "generated vault already exists")
  let _ ← Action.ofExcept (encodeVaultMetadata metadata)
  writeFile env.admissionWrite vaultId fun directory => { directory with occupied := true }
  pure metadata

def emptyDirectory (vaultId : VaultId) : Store.DurableStore where
  generation := 0
  expectedRoot := ⟨vaultId.val⟩
  failed := false
  replicaFile := none
  chunkFiles := ∅

/-- The new vault is opened and, when there is a directory, advertised. -/
def openVault (keys : KeyStore) (metadata : VaultMetadata) : Result HostService := do
  let vault ← VaultHost.openDurable env.host keys (emptyDirectory metadata.vaultId) metadata
  if env.directory then
    let published := VaultHost.publish env.host env.addr (reply env) vault
    published.1.map fun _ => published.2
  else pure vault

def creatorText : Option PeerId → Text
  | none => ['-']
  | some peer => Text.hex (idBytes peer.val)

def createVault (quota : Text) (creator : Option PeerId) :
    Action Error AdminHost (VaultId × Text) := do
  let quota ← Action.ofExcept
    (okOr (Text.parseU64 quota) (.invalidInput "quota must be a byte count"))
  let minted ← Action.ofExcept (ShortCode.generate env.random)
  let code ← Action.ofExcept (ShortCode.derive minted)
  let metadata ← createVaultDir env code
  let vault ← Action.query fun host => openVault env host.set.keys metadata
  onSet (Action.modify (VaultSet.withKeys vault.keys))
  writeMeta env.metaWrite metadata.vaultId
    { quota, createdMs := env.host.unixMillis, creator := creatorText creator, short := minted }
  onSet (VaultSet.insert { host := vault, activePeers := ∅ })
  pure (metadata.vaultId, minted)

end

section

variable [Primitives]

/-- A short code that is kept for a vault stands for its join code. -/
def CurrentAt (host : AdminHost) (vaultId : VaultId) (vault : VaultHost) : Prop :=
  ∃ admission, vault.host.state.admission = some admission ∧ admission.vaultId = vaultId ∧
    ((host.readMeta true vaultId).short ≠ [] →
      ShortCode.derive (host.readMeta true vaultId).short = .ok admission.joinCode)

def Current (host : AdminHost) : Prop :=
  ∀ vaultId vault, host.set.vaults[vaultId]? = some vault → CurrentAt host vaultId vault

/-- Whatever short code a status reports stands for the current join code of its vault. -/
def Shown {Addr : Type} (host : AdminHost) : Prop :=
  ∀ (env : AdminEnv Addr) (authorized : Bool) (lines : List VaultLine),
    status env authorized host = .ok lines → ∀ line ∈ lines, ∀ short, line.code = .short short →
      ∃ vault admission, host.set.vaults[line.vaultId]? = some vault ∧
        vault.host.state.admission = some admission ∧
        ShortCode.derive short = .ok admission.joinCode

omit [Primitives] in
theorem readMeta_unreadable (vaultId : VaultId) (host : AdminHost) :
    host.readMeta false vaultId = .unset := by
  unfold readMeta
  split <;> rfl

omit [Primitives] in
theorem vaultCode_eq_short {found : AppMeta} {admission : VaultMetadata} {authorized : Bool}
    {short : Text} (h : vaultCode found admission authorized = .short short) :
    found.short = short ∧ short ≠ [] := by
  unfold vaultCode at h
  split_ifs at h with _ unset
  cases h
  exact ⟨rfl, unset⟩

theorem Current.shown {Addr : Type} {host : AdminHost} (current : Current host) :
    @Shown _ Addr host := by
  intro env authorized lines reported line mem short isShort
  unfold status at reported
  obtain ⟨_, _, reported⟩ := Result.bind_eq_ok.mp reported
  obtain ⟨vault, inside, isLine⟩ := Result.mem_mapM_eq_ok reported mem
  obtain ⟨vaultId, found⟩ := Map.mem_vals.mp inside
  obtain ⟨admission, attached, same, derived⟩ := current vaultId vault found
  unfold statusLine at isLine
  rw [VaultHost.admission, attached] at isLine
  obtain rfl := Except.ok.inj isLine
  subst same
  refine ⟨vault, admission, found, attached, ?_⟩
  obtain ⟨kept, minted⟩ := vaultCode_eq_short isShort
  cases reads : env.metaReads with
  | false =>
    rw [reads, readMeta_unreadable] at kept
    exact absurd kept.symm minted
  | true =>
    rw [reads] at kept
    rw [kept] at derived
    exact derived minted

/-- The code of one vault has changed to one that a short code stands for; nothing
else has moved yet. -/
structure Minted (vaultId : VaultId) (short : Text) (host : AdminHost) : Prop where
  others : ∀ other vault, host.set.vaults[other]? = some vault → other ≠ vaultId →
    CurrentAt host other vault
  own : ∀ vault, host.set.vaults[vaultId]? = some vault → ∃ admission,
    vault.host.state.admission = some admission ∧ admission.vaultId = vaultId ∧
      ShortCode.derive short = .ok admission.joinCode

variable {host : AdminHost} {vaultId : VaultId} {short : Text}

theorem Minted.unset (minted : Minted vaultId short host)
    (unset : (host.readMeta true vaultId).short = []) : Current host := by
  intro other vault found
  by_cases same : other = vaultId
  · subst same
    obtain ⟨admission, attached, own, _⟩ := minted.own vault found
    exact ⟨admission, attached, own, fun kept => absurd unset kept⟩
  · exact minted.others other vault found same

theorem Minted.stored (minted : Minted vaultId short host)
    (stored : (host.readMeta true vaultId).short = short) : Current host := by
  intro other vault found
  by_cases same : other = vaultId
  · subst same
    obtain ⟨admission, attached, own, derived⟩ := minted.own vault found
    exact ⟨admission, attached, own, fun _ => stored ▸ derived⟩
  · exact minted.others other vault found same

omit [Primitives] in
theorem readMeta_insert (directory : VaultDirectory) (other : VaultId) :
    ({ host with directories := host.directories.insert vaultId directory } : AdminHost).readMeta
      true other = if vaultId = other then
        (directory.appMeta.map AppMeta.read).getD .unset else host.readMeta true other := by
  unfold readMeta
  dsimp only
  rw [Map.get_insert]
  by_cases same : vaultId = other
  · rw [if_pos same, if_pos same, Option.bind_some]
    cases directory.appMeta <;> rfl
  · rw [if_neg same, if_neg same]

theorem Minted.writeMeta (minted : Minted vaultId short host) {outcome : Store.WriteOutcome}
    (found : AppMeta) (isShort : found.short = short) (canonical : ShortCode.Canonical short)
    (creator : '\n' ∉ found.creator ∧ '\r' ∉ found.creator) :
    Action.Ensures (writeMeta outcome vaultId found) host fun r t =>
      (t = host ∧ outcome = .failed false ∧ ∃ e, r = .error e) ∨
        (t.set = host.set ∧ Minted vaultId short t ∧ (t.readMeta true vaultId).short = short) := by
  have replaced : ∀ directory : VaultDirectory, directory.appMeta = some found.write →
      Minted vaultId short { host with directories := host.directories.insert vaultId directory } ∧
      (({ host with directories := host.directories.insert vaultId directory } :
        AdminHost).readMeta true vaultId).short = short := by
    intro directory written
    refine ⟨⟨fun other vault hosted different => ?_, minted.own⟩, ?_⟩
    · obtain ⟨admission, attached, own, derived⟩ := minted.others other vault hosted different
      refine ⟨admission, attached, own, ?_⟩
      rw [readMeta_insert, if_neg (Ne.symm different)]
      exact derived
    · rw [readMeta_insert, if_pos rfl, written, Option.map_some, Option.getD_some,
        AppMeta.read_write_short creator (isShort.symm ▸ canonical), isShort]
  unfold Action.Ensures AdminHost.writeMeta writeFile
  cases outcome with
  | written => exact .inr ⟨rfl, replaced _ rfl⟩
  | failed done =>
    cases done with
    | true => exact .inr ⟨rfl, replaced _ rfl⟩
    | false => exact .inl ⟨rfl, rfl, _, rfl⟩

omit [Primitives] in
theorem readMeta_creator (readable : Bool) (vaultId : VaultId) (host : AdminHost) :
    '\n' ∉ (host.readMeta readable vaultId).creator ∧
      '\r' ∉ (host.readMeta readable vaultId).creator := by
  unfold readMeta
  split
  · decide
  · split
    · exact AppMeta.read_creator _
    · decide

variable {Addr : Type} {env : AdminEnv Addr}

/-- The requests to the directory and the file of the short code succeed. -/
def Stores (env : AdminEnv Addr) : Prop :=
  env.put = .ok () ∧ env.forget = .ok () ∧ env.probes = true ∧ env.metaWrite ≠ .failed false

instance (env : AdminEnv Addr) : Decidable (Stores env) :=
  inferInstanceAs (Decidable (_ ∧ _ ∧ _ ∧ _))

omit [Primitives] in
theorem send_ensures (messages : List (DirectoryMessage Addr)) (host : AdminHost) :
    Action.Ensures (send env messages) host fun r t =>
      t = host ∧ (Stores env → r = .ok ()) := by
  induction messages with
  | nil => exact ⟨rfl, fun _ => rfl⟩
  | cons message messages ih =>
    refine .ofExcept (fun e refused => ⟨rfl, fun stores => ?_⟩) fun _ _ => ih
    have accepted : reply env message = .ok () := by
      cases message with
      | put => exact stores.1
      | forget => exact stores.2.1
    rw [accepted] at refused
    cases refused

theorem Minted.storeShort (minted : Minted vaultId short host)
    (canonical : ShortCode.Canonical short)
    (kept : (host.readMeta true vaultId).short = [] ∨ Stores env) :
    Action.Ensures (storeShort env vaultId short) host fun _ t => Current t := by
  unfold AdminHost.storeShort
  refine .require (fun missing => ?_) fun _ => .get (.ite (fun _ => ?_) fun absent => .pure ?_)
  · obtain unset | stores := kept
    · exact minted.unset unset
    · exact absurd stores.2.2.1 missing
  · refine (minted.writeMeta { host.readMeta env.metaReads vaultId with short } rfl canonical
      (readMeta_creator env.metaReads vaultId host)).mono fun r t outcome => ?_
    obtain ⟨rfl, failed, _⟩ | ⟨_, minted, stored⟩ := outcome
    · obtain unset | stores := kept
      · exact minted.unset unset
      · exact absurd failed stores.2.2.2
    · exact minted.stored stored
  · refine minted.unset ?_
    have missing : host.directories[vaultId]? = none := by
      rw [Map.contains_iff_get, not_exists] at absent
      exact Option.eq_none_iff_forall_ne_some.mpr absent
    unfold readMeta
    rw [missing]
    rfl

theorem Minted.finish (minted : Minted vaultId short host) (canonical : ShortCode.Canonical short)
    (kept : (host.readMeta true vaultId).short = [] ∨ Stores env)
    (messages : List (DirectoryMessage Addr)) :
    Action.Ensures (do
      send env messages
      AdminHost.storeShort env vaultId short
      pure short : Action Error AdminHost Text) host fun _ t => Current t := by
  refine .next (send_ensures messages host) (fun e t sent => ?_) fun _ t sent => ?_
  · obtain ⟨rfl, accepted⟩ := sent
    obtain unset | stores := kept
    · exact minted.unset unset
    · cases accepted stores
  · obtain ⟨rfl, _⟩ := sent
    exact .next (minted.storeShort canonical kept) (fun _ _ current => current)
      fun _ _ current => .pure current

theorem Current.kept (current : Current host) {vault : VaultHost} {next : HostService}
    (found : host.set.vaults[vaultId]? = some vault)
    (same : next.state.admission = vault.host.state.admission) :
    Current { host with set := host.set.withHost vaultId vault next } := by
  intro other standing hosted
  change (host.set.vaults.insert vaultId { vault with host := next })[other]? = _ at hosted
  rw [Map.get_insert] at hosted
  split at hosted
  · rename_i isOther
    subst isOther
    obtain ⟨admission, attached, own, derived⟩ := current _ vault found
    obtain rfl := Option.some.inj hosted
    exact ⟨admission, same.trans attached, own, derived⟩
  · exact current other standing hosted

theorem Current.minted (current : Current host) {vault : VaultHost} {next : HostService}
    {messages : List (DirectoryMessage Addr)} {code : JoinCode}
    (found : host.set.vaults[vaultId]? = some vault)
    (reserved : Reserved { vault.host with keys := host.set.keys } next messages)
    (chosen : next.state.admission.map (·.joinCode) = some code)
    (derived : ShortCode.derive short = .ok code) :
    Minted vaultId short { host with set := host.set.withHost vaultId vault next } := by
  refine ⟨fun other standing hosted different => ?_, fun standing hosted => ?_⟩
  · change (host.set.vaults.insert vaultId { vault with host := next })[other]? = _ at hosted
    rw [Map.get_insert_ne _ _ (Ne.symm different)] at hosted
    exact current other standing hosted
  · change (host.set.vaults.insert vaultId { vault with host := next })[vaultId]? = _ at hosted
    rw [Map.get_insert, if_pos rfl] at hosted
    obtain rfl := Option.some.inj hosted
    obtain ⟨old, new, known, stored, same, _⟩ := reserved.admission
    obtain ⟨admission, attached, own, _⟩ := current vaultId vault found
    obtain rfl : old = admission := Option.some.inj (known.symm.trans attached)
    rw [stored, Option.map_some, Option.some.injEq] at chosen
    exact ⟨new, stored, same.trans own, chosen ▸ derived⟩

variable [NumericAddr Addr]

def Sends (env : AdminEnv Addr) (host : AdminHost) : Prop :=
  env.host.keys.persists = true ∧ Signable host.set.keys env.addr

instance (env : AdminEnv Addr) (host : AdminHost) : Decidable (Sends env host) :=
  inferInstanceAs (Decidable (_ ∧ Signable host.set.keys env.addr))

omit [NumericAddr Addr] in
theorem Current.abandoned (current : Current host) {vault : VaultHost} {next : HostService}
    (found : host.set.vaults[vaultId]? = some vault)
    (unset : (host.readMeta true vaultId).short = [])
    (abandoned : VaultHost.Abandoned { vault.host with keys := host.set.keys } next) :
    Current { host with set := host.set.withHost vaultId vault next } := by
  intro other standing hosted
  change (host.set.vaults.insert vaultId { vault with host := next })[other]? = _ at hosted
  rw [Map.get_insert] at hosted
  split at hosted
  · rename_i isOther
    subst isOther
    obtain ⟨old, new, known, stored, same⟩ := abandoned
    obtain ⟨admission, attached, own, _⟩ := current _ vault found
    obtain rfl : old = admission := Option.some.inj (known.symm.trans attached)
    obtain rfl := Option.some.inj hosted
    exact ⟨new, stored, same.trans own, fun kept => absurd unset kept⟩
  · exact current other standing hosted

omit [NumericAddr Addr] in
theorem Current.inserted (current : Current host) {vault : VaultHost} {set : VaultSet}
    {admission : VaultMetadata} (attached : vault.host.state.admission = some admission)
    (derived : ShortCode.derive (host.readMeta true admission.vaultId).short =
      .ok admission.joinCode)
    (inserted : set = host.set ∨ ∃ admission, vault.host.state.admission = some admission ∧
      set.vaults = host.set.vaults.insert admission.vaultId vault) :
    Current { host with set } := by
  obtain rfl | ⟨same, isSame, vaults⟩ := inserted
  · exact current
  obtain rfl : admission = same := Option.some.inj (attached.symm.trans isSame)
  intro other standing hosted
  change set.vaults[other]? = _ at hosted
  rw [vaults, Map.get_insert] at hosted
  split at hosted
  · rename_i isOther
    subst isOther
    obtain rfl := Option.some.inj hosted
    exact ⟨admission, attached, rfl, fun _ => derived⟩
  · exact current other standing hosted

/-- A generated id belongs to no vault that is served, or creating its directory is refused. -/
def Unused (host : AdminHost) (vaultId : VaultId) : Prop :=
  host.set.vaults[vaultId]? = none ∨
    ∃ directory ∈ host.directories[vaultId]?, directory.occupied = true

end

inductive AdminCommand where
  | status
  | createVault (quota : Text) (creator : Option PeerId)
  | kick (vaultId : VaultId) (target : PeerId)
  | rotateCode (vaultId : VaultId)

def AdminCommand.isReadOnly : AdminCommand → Bool
  | .status => true
  | _ => false

/-- One line of a client and what happens while it is answered. -/
structure AdminRequest (Addr : Type) where
  env : AdminEnv Addr
  authorized : Bool
  command : AdminCommand

inductive AdminReply where
  | unauthorized
  | lines (lines : List VaultLine)
  | created (vaultId : VaultId) (short : Text)
  | code (short : Text)

section

variable {Addr : Type} [NumericAddr Addr] [Primitives]

def dispatch (request : AdminRequest Addr) : Action Error AdminHost AdminReply :=
  if request.authorized = false ∧ request.command.isReadOnly = false then pure .unauthorized
  else
    match request.command with
    | .status => do
      let lines ← Action.query (status request.env request.authorized)
      pure (.lines lines)
    | .createVault quota creator => do
      let created ← createVault request.env quota creator
      pure (.created created.1 created.2)
    | .kick vaultId target => do
      let short ← kick request.env vaultId target
      pure (.code short)
    | .rotateCode vaultId => do
      let short ← rotateCode request.env vaultId
      pure (.code short)

def admin : Machine AdminHost (AdminRequest Addr) := ⟨fun request host => (dispatch request host).2⟩

/-- A command that may replace the code of a vault with a stored short code gets all
the way to storing the new one. -/
def Stored (host : AdminHost) (request : AdminRequest Addr) : Prop :=
  match request.command with
  | .status => True
  | .createVault _ _ => ∀ vaultId ∈ request.env.vaultId, Unused host vaultId
  | .kick vaultId _ => request.authorized = true → request.env.directory = true →
      (host.readMeta true vaultId).short = [] ∨ (Stores request.env ∧ Sends request.env host)
  | .rotateCode vaultId => request.authorized = true → request.env.directory = true →
      (host.readMeta true vaultId).short = [] ∨ Stores request.env

instance (host : AdminHost) (vaultId : VaultId) : Decidable (Unused host vaultId) :=
  inferInstanceAs (Decidable (_ ∨ _))

instance (host : AdminHost) : (request : AdminRequest Addr) → Decidable (Stored host request)
  | ⟨_, _, .status⟩ => .isTrue trivial
  | ⟨env, _, .createVault _ _⟩ =>
    inferInstanceAs (Decidable (∀ vaultId ∈ env.vaultId, Unused host vaultId))
  | ⟨env, authorized, .kick vaultId _⟩ =>
    inferInstanceAs (Decidable (authorized = true → env.directory = true →
      (host.readMeta true vaultId).short = [] ∨ (Stores env ∧ Sends env host)))
  | ⟨env, authorized, .rotateCode vaultId⟩ =>
    inferInstanceAs (Decidable (authorized = true → env.directory = true →
      (host.readMeta true vaultId).short = [] ∨ Stores env))

end

/-! A host without vaults creates one and rotates its code. -/

section

@[reducible] private def halved : Primitives :=
  { Primitives.plain with sha256 := fun bytes => Fin.ofNat (2 ^ 256) (ofBE bytes * 2 ^ 128) }

local instance : Primitives := halved

end

end AdminHost

end QuantumFs.Net
