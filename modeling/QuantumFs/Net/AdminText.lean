import QuantumFs.Host.RecentOps
import QuantumFs.Net.Admin
import QuantumFs.Net.Base32

/-! The text of the admin port: the report a host prints (`net/admin.rs`) and the
rows the desktop client reads out of it (`node/admin.rs`). Both sides agree on
columns between blanks and on nothing else. -/
namespace QuantumFs.Host.HostService

open Lib

variable (host : HostService)

def queuedOps (peer : PeerId) : Nat := (host.state.mailboxes[peer]?.map List.length).getD 0

def usedBytes : Nat :=
  (host.state.manifests.toList.filter fun (fileId, _) => host.state.tree.isLinkedFile fileId).foldl
    (fun total (_, manifest) => min (total + manifest.size.val) (2 ^ 64 - 1)) 0

theorem usedBytes_lt : host.usedBytes < 2 ^ 64 := by
  unfold usedBytes
  generalize host.state.manifests.toList.filter _ = linked
  have step : ∀ total : Nat, total < 2 ^ 64 → linked.foldl
      (fun total (_, manifest) => min (total + manifest.size.val) (2 ^ 64 - 1)) total < 2 ^ 64 := by
    induction linked with
    | nil => exact fun total small => small
    | cons file linked ih =>
      exact fun total small => ih _ (Nat.lt_of_le_of_lt (Nat.min_le_right _ _) (by decide))
  exact step 0 (by decide)

end QuantumFs.Host.HostService

namespace QuantumFs.Net

open Lib Encoding Crypto Host

def VaultCode.text : VaultCode → Text
  | .hidden => ['-']
  | .long code => JoinCode.text code
  | .short text => text

structure MemberReport where
  peer : PeerId
  online : Bool
  lastSeen : Nat
  queuedOps : Nat

structure VaultReport where
  line : VaultLine
  usedBytes : Nat
  members : List MemberReport

/-- What the report takes from the admin context beside the served vaults. -/
structure AdminContext (Addr : Type) where
  directoryAddr : Option Addr
  advertiseAddr : Addr
  capacityBytes : Nat

def packageVersion : Text := ['0', '.', '1', '.', '0']

def serverKind : Text := ['S', 'E', 'R', 'V', 'E', 'R']
def vaultKind : Text := ['V', 'A', 'U', 'L', 'T']
def memberKind : Text := ['M', 'E', 'M', 'B', 'E', 'R']
def opKind : Text := ['O', 'P']
def endLine : Text := ['E', 'N', 'D']

def row (words : List Text) : Text := Text.joinWith ' ' words

def idText (value : Fin (2 ^ 256)) : Text := Text.hex (idBytes value)

namespace AdminHost

variable {Addr : Type} [SocketAddr Addr] (env : AdminEnv Addr)

omit [SocketAddr Addr] in
def memberReport (own : PeerId) (host : HostService) (peer : PeerId) : MemberReport where
  peer
  online := peer = own ∨ (host.presenceOf env.host peer).toOption.join.isSome
  lastSeen := host.lastSeen[peer]?.getD 0
  queuedOps := host.queuedOps peer

def vaultReport (own : PeerId) (authorized : Bool) (host : AdminHost) (vault : VaultHost) :
    Result VaultReport := do
  let line ← statusLine env authorized host vault
  pure ⟨line, vault.host.usedBytes, vault.host.state.members.toList.map (memberReport env own vault.host)⟩

def serverRow (ctx : AdminContext Addr) (own : PeerId) : Text :=
  row [serverKind, idText own.val, (ctx.directoryAddr.map fun addr => (SocketAddr.print addr).toList).getD ['-'],
    (SocketAddr.print ctx.advertiseAddr).toList, Text.decimal ctx.capacityBytes, packageVersion]

def memberRow (vaultId : VaultId) (member : MemberReport) : Text :=
  row [memberKind, idText vaultId.val, idText member.peer.val, if member.online then ['1'] else ['0'],
    Text.decimal member.lastSeen, Text.decimal member.queuedOps]

def vaultRow (report : VaultReport) : Text :=
  row [vaultKind, idText report.line.vaultId.val, report.line.code.text, Text.decimal report.line.quota,
    Text.decimal report.usedBytes, Text.decimal report.members.length,
    Text.decimal (report.members.countP MemberReport.online), Text.decimal report.line.createdMs,
    report.line.creator]

def vaultRows (report : VaultReport) : List Text :=
  vaultRow report :: report.members.map (memberRow report.line.vaultId)

def reports (own : PeerId) (authorized : Bool) (host : AdminHost) : Result (List VaultReport) :=
  (Map.vals host.set.vaults).mapM (vaultReport env own authorized host)

def statusRows (ctx : AdminContext Addr) (own : PeerId) (reports : List VaultReport) : List Text :=
  serverRow ctx own :: reports.flatMap vaultRows

def statusText (ctx : AdminContext Addr) (authorized : Bool) (host : AdminHost) : Result Text := do
  let own ← host.set.keys.peerId
  let reports ← host.reports env own authorized
  pure (Text.joinWith '\n' (statusRows ctx own reports ++ [endLine]))

end AdminHost

def hexDigit (c : Char) : Option Nat :=
  if '0' ≤ c ∧ c ≤ '9' then some (c.toNat - '0'.toNat)
  else if 'a' ≤ c ∧ c ≤ 'f' then some (c.toNat - 'a'.toNat + 10)
  else none

def hexBytes : Text → Option Bytes
  | [] => some []
  | [_] => none
  | high :: low :: text => do
    let high ← hexDigit high
    let low ← hexDigit low
    let bytes ← hexBytes text
    pure (UInt8.ofNat (high * 16 + low) :: bytes)

def parseHex32 (value : Text) : Result (Fin (2 ^ 256)) := do
  ensure (Text.byteLength value = 64) (.invalidInput "identifier must be 64 hex characters")
  let bytes ← okOr (hexBytes value) (.invalidInput "identifier must be lowercase hex")
  pure (Fin.ofNat (2 ^ 256) (ofBE bytes))

def opRow (op : Nat × PeerId × Nat) : Text :=
  row [opKind, Text.decimal op.1, idText op.2.1.val, Text.decimal op.2.2]

def AdminHost.opsText (vault since : Text) (host : AdminHost) : Result Text := do
  let vaultId ← parseHex32 vault
  let since ← okOr (Text.parseU64 since) (.invalidInput "since must be a record id")
  let hosted ← hostedVault ⟨vaultId⟩ host
  pure (Text.joinWith '\n' ((hosted.host.recentOpsSince since).map opRow ++ [endLine]))

/-- `write_line`. -/
def written (text : Text) : Text := text ++ ['\n']

def maxBlockLines : Nat := 4096

structure AdminServer where
  hostPeer : Text
  directoryAddr : Text
  advertiseAddr : Text
  capacityBytes : Nat
  version : Text
deriving DecidableEq

structure AdminVault where
  vault : Text
  joinCode : Text
  quotaBytes : Nat
  usedBytes : Nat
  memberCount : Nat
  onlineCount : Nat
  createdMs : Nat
  creator : Option Text
deriving DecidableEq

structure AdminMember where
  vault : Text
  peer : Text
  online : Bool
  lastSeenAt : Nat
  queuedOps : Nat
deriving DecidableEq

structure AdminOp where
  recordId : Nat
  actor : Text
  «at» : Nat
deriving DecidableEq

structure AdminStatus where
  server : AdminServer
  vaults : List AdminVault
  members : List AdminMember
deriving DecidableEq

namespace AdminConn

inductive BlockError where
  | closed
  | rejected (message : Text)
  | oversized
deriving DecidableEq

def errPrefix : Text := ['E', 'R', 'R', ' ']
def errLine : Text := ['E', 'R', 'R']

/-- The rows up to `END`. -/
def block (out : List Text) : List Text → Except BlockError (List Text)
  | [] => .error .closed
  | line :: lines =>
    let trimmed := Text.trimEnd line
    if trimmed = endLine then .ok out
    else match Text.stripPrefix errPrefix trimmed with
      | some message => .error (.rejected message)
      | none =>
        if trimmed = errLine then .error (.rejected [])
        else if maxBlockLines ≤ out.length then .error .oversized
        else block (if trimmed = [] then out else out ++ [trimmed]) lines

/-- `-` marks an absent field. -/
def optional (value : Text) : Option Text := if value = ['-'] ∨ value = [] then none else some value

def number (parse : Text → Option Nat) (text : Text) : Nat := (parse text).getD 0

def readRow (status : AdminStatus) (line : Text) : AdminStatus :=
  match Text.splitWhitespace line with
  | [] => status
  | kind :: fields =>
    if kind = serverKind then
      match fields with
      | peer :: directory :: advertise :: capacity :: version => { status with server := {
          hostPeer := peer, directoryAddr := directory, advertiseAddr := advertise
          capacityBytes := number Text.parseU64 capacity, version := version.head?.getD [] } }
      | _ => status
    else if kind = vaultKind then
      match fields with
      | vault :: code :: quota :: used :: members :: online :: created :: rest => { status with
          vaults := status.vaults ++ [{
            vault, joinCode := (optional code).getD [], quotaBytes := number Text.parseU64 quota
            usedBytes := number Text.parseU64 used, memberCount := number Text.parseU32 members
            onlineCount := number Text.parseU32 online, createdMs := number Text.parseU64 created
            creator := rest.head?.bind optional }] }
      | _ => status
    else if kind = memberKind then
      match fields with
      | [vault, peer, online, lastSeen, queued] => { status with
          members := status.members ++ [{
            vault, peer, online := online = ['1'], lastSeenAt := number Text.parseU64 lastSeen
            queuedOps := number Text.parseU32 queued }] }
      | _ => status
    else status

def unread : AdminStatus := ⟨⟨[], [], [], 0, []⟩, [], []⟩

/-- `STATUS`, on the text that arrives after it. -/
def status (received : Text) : Except BlockError AdminStatus :=
  (block [] (Text.chunksFrom [] received)).map (·.foldl readRow unread)

def readOp (line : Text) : Option AdminOp :=
  match Text.splitWhitespace line with
  | [kind, id, actor, time] =>
    if kind = opKind then
      (Text.parseU64 id).map fun id => ⟨id, actor, number Text.parseU64 time⟩
    else none
  | _ => none

/-- `OPS`. -/
def ops (received : Text) : Except BlockError (List AdminOp) :=
  (block [] (Text.chunksFrom [] received)).map (·.filterMap readOp)

end AdminConn

theorem solid_idText (value : Fin (2 ^ 256)) : Text.Solid (idText value) := by
  refine Text.solid_hex fun none => ?_
  have size := length_idBytes value
  rw [none] at size
  cases size

def Lettered (text : Text) : Prop := text ≠ [] ∧ ∀ c ∈ text, c ∈ ShortCode.alphabet

theorem Lettered.solid {text : Text} (lettered : Lettered text) : Text.Solid text :=
  ⟨lettered.1, fun c mem => (ShortCode.alphabet_plain c (lettered.2 c mem)).1⟩

theorem Lettered.optional {text : Text} (lettered : Lettered text) :
    AdminConn.optional text = some text := by
  unfold AdminConn.optional
  refine if_neg fun absent => ?_
  obtain rfl | rfl := absent
  · exact absurd (lettered.2 '-' List.mem_cons_self) (by decide)
  · exact lettered.1 rfl

theorem encodeBase32Step_lettered {state : Nat × Nat × Text} (byte : UInt8)
    (letters : ∀ c ∈ state.2.2, c ∈ ShortCode.alphabet) :
    Lettered (encodeBase32Step state byte).2.2 := by
  unfold encodeBase32Step
  dsimp only
  split
  · refine ⟨List.append_ne_nil_of_right_ne_nil _ (List.cons_ne_nil _ _), fun c mem => ?_⟩
    obtain mem | mem := List.mem_append.mp mem
    · exact letters c mem
    · obtain rfl := List.mem_singleton.mp mem
      exact ShortCode.letter_mem _
  · refine ⟨List.append_ne_nil_of_right_ne_nil _ (List.cons_ne_nil _ _), fun c mem => ?_⟩
    obtain mem | mem := List.mem_append.mp mem
    · exact letters c mem
    · obtain rfl | rfl := List.mem_pair.mp mem
      · exact ShortCode.letter_mem _
      · exact ShortCode.letter_mem _

theorem encodeBase32_lettered {bytes : Bytes} (some : bytes ≠ []) : Lettered (encodeBase32 bytes) := by
  have fold : ∀ (bytes : Bytes) (state : Nat × Nat × Text), Lettered state.2.2 →
      Lettered (bytes.foldl encodeBase32Step state).2.2 := by
    intro bytes
    induction bytes with
    | nil => exact fun state lettered => lettered
    | cons byte bytes ih =>
      exact fun state lettered => ih _ (encodeBase32Step_lettered byte lettered.2)
  obtain ⟨byte, bytes, rfl⟩ := List.exists_cons_of_ne_nil some
  have lettered := fold bytes _ (@encodeBase32Step_lettered (0, 0, []) byte nofun)
  unfold encodeBase32
  rw [List.foldl_cons]
  generalize bytes.foldl encodeBase32Step _ = state at lettered ⊢
  dsimp only
  split
  · refine ⟨List.append_ne_nil_of_right_ne_nil _ (List.cons_ne_nil _ _), fun c mem => ?_⟩
    obtain mem | mem := List.mem_append.mp mem
    · exact lettered.2 c mem
    · obtain rfl := List.mem_singleton.mp mem
      exact ShortCode.letter_mem _
  · exact lettered

namespace AppMeta

structure Legible (found : AppMeta) : Prop where
  quota : found.quota < 2 ^ 64
  createdMs : found.createdMs < 2 ^ 64
  creator : '\n' ∉ found.creator ∧ '\r' ∉ found.creator
  short : found.short = [] ∨ Lettered found.short

theorem legible_unset : Legible unset := ⟨by decide, by decide, by decide, .inl rfl⟩

theorem getD_parseU64_lt (text : Text) : (Text.parseU64 text).getD 0 < 2 ^ 64 := by
  cases parsed : Text.parseU64 text with
  | none => decide
  | some value => exact Text.parseU64_lt parsed

theorem normalize_lettered {value short : Text} (h : ShortCode.normalize value = some short) :
    Lettered short := by
  unfold ShortCode.normalize at h
  obtain ⟨⟨size, letters⟩, same⟩ := Option.ite_none_right_eq_some.mp h
  obtain rfl := Option.some.inj same
  refine ⟨fun none => ?_, fun c mem => ?_⟩
  · rw [none] at size
    cases size
  · have inside := List.all_eq_true.mp letters c mem
    simpa using inside

theorem getD_normalize_lettered (value : Text) :
    (ShortCode.normalize value).getD [] = [] ∨ Lettered ((ShortCode.normalize value).getD []) := by
  cases normal : ShortCode.normalize value with
  | none => exact .inl rfl
  | some short => exact .inr (normalize_lettered normal)

theorem Legible.readLine {found : AppMeta} (legible : Legible found) (line : Text) :
    Legible (readLine found line) := by
  have creator := readLine_creator line legible.creator
  unfold AppMeta.readLine at creator ⊢
  split
  · exact legible
  · split_ifs
    · exact ⟨getD_parseU64_lt _, legible.createdMs, legible.creator, legible.short⟩
    · exact ⟨legible.quota, getD_parseU64_lt _, legible.creator, legible.short⟩
    · exact ⟨legible.quota, legible.createdMs,
        ⟨Text.not_mem_oneLine (.inl rfl) _, Text.not_mem_oneLine (.inr rfl) _⟩, legible.short⟩
    · exact ⟨legible.quota, legible.createdMs, legible.creator, getD_normalize_lettered _⟩
    · exact legible

theorem legible_read (text : Text) : Legible (read text) := by
  unfold read
  have start := legible_unset
  generalize unset = found at start ⊢
  generalize Text.lines text = lines
  induction lines generalizing found with
  | nil => exact start
  | cons line lines ih => exact ih _ (start.readLine line)

end AppMeta

theorem legible_readMeta (readable : Bool) (vaultId : VaultId) (host : AdminHost) :
    (host.readMeta readable vaultId).Legible := by
  unfold AdminHost.readMeta
  split
  · exact AppMeta.legible_unset
  · split
    · exact AppMeta.legible_read _
    · exact AppMeta.legible_unset

theorem joinCodeText_lettered (code : JoinCode) : Lettered (JoinCode.text code) := by
  unfold JoinCode.text
  exact encodeBase32_lettered (List.ne_nil_of_length_eq_add_one (length_toBE 16 code.val.val))

theorem vaultCode_lettered {found : AppMeta} (legible : found.Legible) (admission : VaultMetadata)
    {authorized : Bool} (shown : AdminHost.vaultCode found admission authorized ≠ .hidden) :
    Lettered (AdminHost.vaultCode found admission authorized).text := by
  unfold AdminHost.vaultCode at shown ⊢
  split_ifs at shown ⊢ with hidden unset
  · exact absurd rfl shown
  · exact joinCodeText_lettered admission.joinCode
  · exact legible.short.resolve_left unset

theorem row_append {words : List Text} {kind : Text} (rest : words ≠ []) :
    row (kind :: words) = kind ++ ' ' :: row words := by
  obtain ⟨word, words, rfl⟩ := List.exists_cons_of_ne_nil rest
  rfl

theorem not_mem_row {c : Char} (other : c ≠ ' ') {words : List Text} (plain : ∀ word ∈ words, c ∉ word) :
    c ∉ row words := by
  induction words with
  | nil => exact List.not_mem_nil
  | cons word words ih =>
    have head := plain word List.mem_cons_self
    have ih := ih fun word mem => plain word (List.mem_cons_of_mem _ mem)
    cases words with
    | nil => exact head
    | cons next words =>
      rw [row_append (List.cons_ne_nil _ _)]
      simp only [List.mem_append, List.mem_cons, not_or]
      exact ⟨head, other, ih⟩

theorem not_mem_of_solid {word : Text} (solid : Text.Solid word) : '\n' ∉ word := by
  intro mem
  have blank := solid.2 _ mem
  revert blank
  decide

theorem single_row {words : List Text} (solid : ∀ word ∈ words, Text.Solid word) {last : Text}
    (single : '\n' ∉ last) : '\n' ∉ row (words ++ [last]) := by
  refine not_mem_row (by decide) fun word mem => ?_
  obtain mem | mem := List.mem_append.mp mem
  · exact not_mem_of_solid (solid word mem)
  · obtain rfl := List.mem_singleton.mp mem
    exact single

namespace AdminConn

/-- A line as it arrives, without the blanks at its end. -/
def arrived (line : Text) : Text := Text.trimEnd (line ++ ['\n'])

theorem splitWhitespace_arrived (line : Text) :
    Text.splitWhitespace (arrived line) = Text.splitWhitespace line := by
  unfold arrived
  rw [Text.splitWhitespace_trimEnd]
  exact Text.wordsFrom_blank (by decide) line []

theorem splitWhitespace_row {words : List Text} (solid : ∀ word ∈ words, Text.Solid word) (last : Text) :
    Text.splitWhitespace (arrived (row (words ++ [last]))) = words ++ Text.splitWhitespace last := by
  rw [splitWhitespace_arrived]
  exact Text.splitWhitespace_joinWith solid last

def Started (line : Text) : Prop := ∃ c text, arrived line = c :: text ∧ c ≠ 'E'

theorem started_row {kind : Text} {words : List Text} (solid : Text.Solid kind)
    (other : kind.head? ≠ some 'E') (rest : words ≠ []) : Started (row (kind :: words)) := by
  unfold Started arrived
  rw [row_append rest, List.append_assoc, Text.trimEnd_append solid]
  cases kind with
  | nil => exact absurd rfl solid.1
  | cons c kind => exact ⟨c, _, rfl, fun same => other (congrArg some same)⟩

theorem block_rows {rows : List Text} (started : ∀ line ∈ rows, Started line) (out : List Text)
    (few : out.length + rows.length ≤ maxBlockLines) :
    block out ((rows ++ [endLine]).map (· ++ ['\n'])) = .ok (out ++ rows.map arrived) := by
  induction rows generalizing out with
  | nil =>
    rw [List.map_nil, List.append_nil]
    rfl
  | cons line rows ih =>
    obtain ⟨c, text, isLine, other⟩ := started line List.mem_cons_self
    have notEnd : Text.trimEnd (line ++ ['\n']) ≠ endLine := by
      change arrived line ≠ endLine
      rw [isLine]
      exact fun same => other (List.cons.inj same).1
    have noError : Text.stripPrefix errPrefix (Text.trimEnd (line ++ ['\n'])) = none := by
      change Text.stripPrefix errPrefix (arrived line) = none
      rw [isLine]
      refine if_neg fun starts => other ?_
      have starts : ('E' == c) = true := (Bool.and_eq_true _ _ ▸ starts).1
      exact (beq_iff_eq.mp starts).symm
    have notErr : Text.trimEnd (line ++ ['\n']) ≠ errLine := by
      change arrived line ≠ errLine
      rw [isLine]
      exact fun same => other (List.cons.inj same).1
    have notEmpty : Text.trimEnd (line ++ ['\n']) ≠ [] := by
      change arrived line ≠ []
      rw [isLine]
      exact List.cons_ne_nil _ _
    rw [List.length_cons] at few
    have ih := ih (fun line mem => started line (List.mem_cons_of_mem _ mem)) (out ++ [arrived line])
      (by rw [List.length_append, List.length_singleton]; omega)
    rw [List.cons_append, List.map_cons, block, if_neg notEnd, noError]
    dsimp only
    rw [if_neg notErr, if_neg (by omega), if_neg notEmpty]
    refine Eq.trans ih ?_
    rw [List.append_assoc, List.map_cons]
    rfl

theorem block_written {rows : List Text} (started : ∀ line ∈ rows, Started line)
    (single : ∀ line ∈ rows, '\n' ∉ line) (few : rows.length ≤ maxBlockLines) :
    block [] (Text.chunksFrom [] (written (Text.joinWith '\n' (rows ++ [endLine])))) =
      .ok (rows.map arrived) := by
  unfold written
  rw [Text.chunksFrom_joinWith (List.append_ne_nil_of_right_ne_nil _ (List.cons_ne_nil _ _))]
  · rw [block_rows started [] (by rw [List.length_nil]; omega)]
    rfl
  · intro line mem
    obtain mem | mem := List.mem_append.mp mem
    · exact single line mem
    · obtain rfl := List.mem_singleton.mp mem
      decide

theorem number_u64 {value : Nat} (small : value < 2 ^ 64) :
    number Text.parseU64 (Text.decimal value) = value := by
  unfold number
  rw [Text.parseU64_decimal, if_pos small]
  rfl

theorem number_u32 (value : Nat) :
    number Text.parseU32 (Text.decimal value) = if value < 2 ^ 32 then value else 0 := by
  unfold number
  rw [Text.parseU32_decimal]
  split <;> rfl

end AdminConn

namespace VaultReport

/-- The machine words of a report. -/
structure Fits (report : VaultReport) : Prop where
  quota : report.line.quota < 2 ^ 64
  usedBytes : report.usedBytes < 2 ^ 64
  createdMs : report.line.createdMs < 2 ^ 64
  members : report.members.length < 2 ^ 32
  lastSeen : ∀ member ∈ report.members, member.lastSeen < 2 ^ 64
  code : report.line.code ≠ .hidden → Lettered report.line.code.text

/-- The values of one vault, as a client shows them. -/
def vault (report : VaultReport) : AdminVault where
  vault := idText report.line.vaultId.val
  joinCode := if report.line.code = .hidden then [] else report.line.code.text
  quotaBytes := report.line.quota
  usedBytes := report.usedBytes
  memberCount := report.members.length
  onlineCount := report.members.countP MemberReport.online
  createdMs := report.line.createdMs
  creator := AdminConn.optional report.line.creator

def readVault (report : VaultReport) : AdminVault := { report.vault with
  creator := (Text.splitWhitespace report.line.creator).head?.bind AdminConn.optional }

def member (vaultId : VaultId) (member : MemberReport) : AdminMember where
  vault := idText vaultId.val
  peer := idText member.peer.val
  online := member.online
  lastSeenAt := member.lastSeen
  queuedOps := member.queuedOps

def readMember (vaultId : VaultId) (report : MemberReport) : AdminMember :=
  { member vaultId report with queuedOps := if report.queuedOps < 2 ^ 32 then report.queuedOps else 0 }

theorem solid_code {report : VaultReport} (fits : report.Fits) : Text.Solid report.line.code.text := by
  by_cases hidden : report.line.code = .hidden
  · rw [hidden]
    decide
  · exact (fits.code hidden).solid

def vaultWords (report : VaultReport) : List Text :=
  [vaultKind, idText report.line.vaultId.val, report.line.code.text, Text.decimal report.line.quota,
    Text.decimal report.usedBytes, Text.decimal report.members.length,
    Text.decimal (report.members.countP MemberReport.online), Text.decimal report.line.createdMs]

theorem solid_vaultWords {report : VaultReport} (fits : report.Fits) :
    ∀ word ∈ report.vaultWords, Text.Solid word := by
  intro word mem
  simp only [vaultWords, List.mem_cons, List.not_mem_nil, or_false] at mem
  obtain rfl | rfl | rfl | rfl | rfl | rfl | rfl | rfl := mem
  · decide
  · exact solid_idText _
  · exact solid_code fits
  · exact Text.solid_decimal _
  · exact Text.solid_decimal _
  · exact Text.solid_decimal _
  · exact Text.solid_decimal _
  · exact Text.solid_decimal _

theorem splitWhitespace_vaultRow {report : VaultReport} (fits : report.Fits) :
    Text.splitWhitespace (AdminConn.arrived (AdminHost.vaultRow report)) =
      report.vaultWords ++ Text.splitWhitespace report.line.creator :=
  AdminConn.splitWhitespace_row (solid_vaultWords fits) report.line.creator

theorem readRow_vault {report : VaultReport} (fits : report.Fits) (status : AdminStatus) :
    AdminConn.readRow status (AdminConn.arrived (AdminHost.vaultRow report)) =
      { status with vaults := status.vaults ++ [report.readVault] } := by
  have online : report.members.countP MemberReport.online < 2 ^ 32 :=
    Nat.lt_of_le_of_lt List.countP_le_length fits.members
  have code : (AdminConn.optional report.line.code.text).getD [] =
      if report.line.code = .hidden then [] else report.line.code.text := by
    split
    · rename_i hidden
      rw [hidden]
      rfl
    · rename_i shown
      rw [(fits.code shown).optional]
      rfl
  unfold AdminConn.readRow
  rw [splitWhitespace_vaultRow fits]
  dsimp only [vaultWords, List.cons_append, List.nil_append]
  rw [if_neg (by decide), if_pos rfl, code, AdminConn.number_u64 fits.quota,
    AdminConn.number_u64 fits.usedBytes, AdminConn.number_u64 fits.createdMs, AdminConn.number_u32,
    AdminConn.number_u32, if_pos fits.members, if_pos online]
  rfl

def memberWords (vaultId : VaultId) (report : MemberReport) : List Text :=
  [memberKind, idText vaultId.val, idText report.peer.val, if report.online then ['1'] else ['0'],
    Text.decimal report.lastSeen]

theorem solid_memberWords (vaultId : VaultId) (report : MemberReport) :
    ∀ word ∈ memberWords vaultId report, Text.Solid word := by
  intro word mem
  simp only [memberWords, List.mem_cons, List.not_mem_nil, or_false] at mem
  obtain rfl | rfl | rfl | rfl | rfl := mem
  · decide
  · exact solid_idText _
  · exact solid_idText _
  · split <;> decide
  · exact Text.solid_decimal _

theorem splitWhitespace_memberRow (vaultId : VaultId) (report : MemberReport) :
    Text.splitWhitespace (AdminConn.arrived (AdminHost.memberRow vaultId report)) =
      memberWords vaultId report ++ [Text.decimal report.queuedOps] := by
  have split := AdminConn.splitWhitespace_row (solid_memberWords vaultId report)
    (Text.decimal report.queuedOps)
  rw [Text.splitWhitespace_of_solid (Text.solid_decimal _)] at split
  exact split

theorem readRow_member {report : MemberReport} (small : report.lastSeen < 2 ^ 64) (vaultId : VaultId)
    (status : AdminStatus) :
    AdminConn.readRow status (AdminConn.arrived (AdminHost.memberRow vaultId report)) =
      { status with members := status.members ++ [readMember vaultId report] } := by
  have online : decide ((if report.online then ['1'] else ['0']) = ['1']) = report.online := by
    cases report.online <;> decide
  unfold AdminConn.readRow
  rw [splitWhitespace_memberRow]
  dsimp only [memberWords, List.cons_append, List.nil_append]
  rw [if_neg (by decide), if_neg (by decide), if_pos rfl, AdminConn.number_u64 small,
    AdminConn.number_u32, online]
  rfl

theorem foldl_members {members : List MemberReport} (small : ∀ member ∈ members, member.lastSeen < 2 ^ 64)
    (vaultId : VaultId) (status : AdminStatus) :
    ((members.map (AdminHost.memberRow vaultId)).map AdminConn.arrived).foldl AdminConn.readRow status =
      { status with members := status.members ++ members.map (readMember vaultId) } := by
  induction members generalizing status with
  | nil =>
    rw [List.map_nil, List.map_nil, List.map_nil, List.append_nil]
    rfl
  | cons report members ih =>
    rw [List.map_cons, List.map_cons, List.foldl_cons, readRow_member (small report List.mem_cons_self),
      ih (fun member mem => small member (List.mem_cons_of_mem _ mem)), List.map_cons]
    dsimp only
    rw [List.append_assoc]
    rfl

theorem foldl_vaults {reports : List VaultReport} (fits : ∀ report ∈ reports, report.Fits)
    (status : AdminStatus) :
    ((reports.flatMap AdminHost.vaultRows).map AdminConn.arrived).foldl AdminConn.readRow status =
      { status with
        vaults := status.vaults ++ reports.map readVault
        members := status.members ++ reports.flatMap fun report =>
          report.members.map (readMember report.line.vaultId) } := by
  induction reports generalizing status with
  | nil =>
    rw [List.flatMap_nil, List.map_nil, List.map_nil, List.flatMap_nil, List.append_nil, List.append_nil]
    rfl
  | cons report reports ih =>
    have own := fits report List.mem_cons_self
    rw [List.flatMap_cons, List.map_append, List.foldl_append, AdminHost.vaultRows, List.map_cons,
      List.foldl_cons, readRow_vault own, foldl_members own.lastSeen,
      ih fun report mem => fits report (List.mem_cons_of_mem _ mem), List.map_cons, List.flatMap_cons]
    dsimp only
    rw [List.append_assoc, List.append_assoc]
    rfl

theorem started_vaultRows {report : VaultReport} {line : Text} (mem : line ∈ AdminHost.vaultRows report) :
    AdminConn.Started line := by
  obtain rfl | mem := List.mem_cons.mp mem
  · exact AdminConn.started_row (by decide) (by decide) (List.cons_ne_nil _ _)
  · obtain ⟨member, _, rfl⟩ := List.mem_map.mp mem
    exact AdminConn.started_row (by decide) (by decide) (List.cons_ne_nil _ _)

theorem single_vaultRows {report : VaultReport} (fits : report.Fits)
    (creator : '\n' ∉ report.line.creator) {line : Text} (mem : line ∈ AdminHost.vaultRows report) :
    '\n' ∉ line := by
  obtain rfl | mem := List.mem_cons.mp mem
  · exact single_row (solid_vaultWords fits) creator
  · obtain ⟨member, _, rfl⟩ := List.mem_map.mp mem
    exact single_row (solid_memberWords _ member) (not_mem_of_solid (Text.solid_decimal _))

end VaultReport

section

variable {Addr : Type} [SocketAddr Addr]

def AdminContext.server (ctx : AdminContext Addr) (own : PeerId) : AdminServer where
  hostPeer := idText own.val
  directoryAddr := (ctx.directoryAddr.map fun addr => (SocketAddr.print addr).toList).getD ['-']
  advertiseAddr := (SocketAddr.print ctx.advertiseAddr).toList
  capacityBytes := ctx.capacityBytes
  version := packageVersion

theorem solid_directoryAddr (prints : ∀ addr : Addr, Text.Solid (SocketAddr.print addr).toList)
    (ctx : AdminContext Addr) :
    Text.Solid ((ctx.directoryAddr.map fun addr => (SocketAddr.print addr).toList).getD ['-']) := by
  cases ctx.directoryAddr with
  | none => exact (by decide : Text.Solid ['-'])
  | some addr => exact prints addr

def AdminContext.serverWords (ctx : AdminContext Addr) (own : PeerId) : List Text :=
  [serverKind, idText own.val, (ctx.directoryAddr.map fun addr => (SocketAddr.print addr).toList).getD ['-'],
    (SocketAddr.print ctx.advertiseAddr).toList, Text.decimal ctx.capacityBytes]

theorem solid_serverWords (prints : ∀ addr : Addr, Text.Solid (SocketAddr.print addr).toList)
    (ctx : AdminContext Addr) (own : PeerId) : ∀ word ∈ ctx.serverWords own, Text.Solid word := by
  intro word mem
  simp only [AdminContext.serverWords, List.mem_cons, List.not_mem_nil, or_false] at mem
  obtain rfl | rfl | rfl | rfl | rfl := mem
  · decide
  · exact solid_idText _
  · exact solid_directoryAddr prints ctx
  · exact prints _
  · exact Text.solid_decimal _

theorem readRow_server (prints : ∀ addr : Addr, Text.Solid (SocketAddr.print addr).toList)
    {ctx : AdminContext Addr} (small : ctx.capacityBytes < 2 ^ 64) (own : PeerId) (status : AdminStatus) :
    AdminConn.readRow status (AdminConn.arrived (AdminHost.serverRow ctx own)) =
      { status with server := ctx.server own } := by
  have words : Text.splitWhitespace (AdminConn.arrived (AdminHost.serverRow ctx own)) =
      ctx.serverWords own ++ Text.splitWhitespace packageVersion :=
    AdminConn.splitWhitespace_row (solid_serverWords prints ctx own) packageVersion
  have version : Text.splitWhitespace packageVersion = [packageVersion] :=
    Text.splitWhitespace_of_solid (by decide)
  unfold AdminConn.readRow
  rw [words, version]
  dsimp only [AdminContext.serverWords, List.cons_append, List.nil_append]
  rw [if_pos rfl, AdminConn.number_u64 small]
  rfl

theorem status_statusRows (prints : ∀ addr : Addr, Text.Solid (SocketAddr.print addr).toList)
    {ctx : AdminContext Addr} (small : ctx.capacityBytes < 2 ^ 64) (own : PeerId)
    {reports : List VaultReport} (fits : ∀ report ∈ reports, report.Fits)
    (creators : ∀ report ∈ reports, '\n' ∉ report.line.creator)
    (few : (AdminHost.statusRows ctx own reports).length ≤ maxBlockLines) :
    AdminConn.status (written (Text.joinWith '\n' (AdminHost.statusRows ctx own reports ++ [endLine]))) =
      .ok ⟨ctx.server own, reports.map VaultReport.readVault, reports.flatMap fun report =>
        report.members.map (VaultReport.readMember report.line.vaultId)⟩ := by
  unfold AdminConn.status
  rw [AdminConn.block_written _ _ few]
  · change Except.ok (((AdminHost.serverRow ctx own :: reports.flatMap AdminHost.vaultRows).map
      AdminConn.arrived).foldl AdminConn.readRow AdminConn.unread) = _
    rw [List.map_cons, List.foldl_cons, readRow_server prints small, VaultReport.foldl_vaults fits]
    rfl
  · intro line mem
    obtain rfl | mem := List.mem_cons.mp mem
    · exact AdminConn.started_row (by decide) (by decide) (List.cons_ne_nil _ _)
    · obtain ⟨report, _, mem⟩ := List.mem_flatMap.mp mem
      exact VaultReport.started_vaultRows mem
  · intro line mem
    obtain rfl | mem := List.mem_cons.mp mem
    · exact single_row (solid_serverWords prints ctx own) (by decide)
    · obtain ⟨report, inside, mem⟩ := List.mem_flatMap.mp mem
      exact VaultReport.single_vaultRows (fits report inside) (creators report inside) mem

end

theorem hexDigit_digitChar : ∀ digit < 16, hexDigit (Nat.digitChar digit) = some digit := by decide

theorem hexBytes_hex (bytes : Bytes) : hexBytes (Text.hex bytes) = some bytes := by
  induction bytes with
  | nil => rfl
  | cons byte bytes ih =>
    have small : byte.toNat < 256 := byte.toNat_lt
    have whole : UInt8.ofNat (byte.toNat / 16 * 16 + byte.toNat % 16) = byte := by
      rw [Nat.div_add_mod']
      exact UInt8.ofNat_toNat
    change hexBytes (Nat.digitChar (byte.toNat / 16) :: Nat.digitChar (byte.toNat % 16) ::
      Text.hex bytes) = some (byte :: bytes)
    rw [hexBytes, hexDigit_digitChar _ (by omega), hexDigit_digitChar _ (by omega), ih]
    exact congrArg (fun first => some (first :: bytes)) whole

theorem byteLength_hex (bytes : Bytes) : Text.byteLength (Text.hex bytes) = 2 * bytes.length := by
  have single : ∀ digit < 16, (Nat.digitChar digit).utf8Size = 1 := by decide
  induction bytes with
  | nil => rfl
  | cons byte bytes ih =>
    have small : byte.toNat < 256 := byte.toNat_lt
    change (Nat.digitChar (byte.toNat / 16)).utf8Size + ((Nat.digitChar (byte.toNat % 16)).utf8Size +
      Text.byteLength (Text.hex bytes)) = 2 * (bytes.length + 1)
    rw [single _ (by omega), single _ (by omega), ih]
    omega

theorem parseHex32_idText (value : Fin (2 ^ 256)) : parseHex32 (idText value) = .ok value := by
  have size : Text.byteLength (Text.hex (idBytes value)) = 64 := by
    rw [byteLength_hex, length_idBytes]
  refine Result.bind_eq_ok.mpr ⟨(), ensure_eq_ok.mpr size, Result.bind_eq_ok.mpr ⟨idBytes value,
    okOr_eq_ok.mpr (hexBytes_hex _), ?_⟩⟩
  exact congrArg Except.ok (Encoding.Reader.ofNat_ofBE_idBytes value)

def AdminOp.ofOp (op : Nat × PeerId × Nat) : AdminOp := ⟨op.1, idText op.2.1.val, op.2.2⟩

def opWords (op : Nat × PeerId × Nat) : List Text := [opKind, Text.decimal op.1, idText op.2.1.val]

theorem solid_opWords (op : Nat × PeerId × Nat) : ∀ word ∈ opWords op, Text.Solid word := by
  intro word mem
  simp only [opWords, List.mem_cons, List.not_mem_nil, or_false] at mem
  obtain rfl | rfl | rfl := mem
  · decide
  · exact Text.solid_decimal _
  · exact solid_idText _

theorem readOp_opRow {op : Nat × PeerId × Nat} (small : op.1 < 2 ^ 64 ∧ op.2.2 < 2 ^ 64) :
    AdminConn.readOp (AdminConn.arrived (opRow op)) = some (.ofOp op) := by
  have words : Text.splitWhitespace (AdminConn.arrived (opRow op)) =
      opWords op ++ Text.splitWhitespace (Text.decimal op.2.2) :=
    AdminConn.splitWhitespace_row (solid_opWords op) (Text.decimal op.2.2)
  rw [Text.splitWhitespace_of_solid (Text.solid_decimal _)] at words
  unfold AdminConn.readOp
  rw [words]
  dsimp only [opWords, List.cons_append, List.nil_append]
  rw [if_pos rfl, Text.parseU64_decimal, if_pos small.1, AdminConn.number_u64 small.2]
  rfl

theorem ops_opRows {ops : List (Nat × PeerId × Nat)}
    (small : ∀ op ∈ ops, op.1 < 2 ^ 64 ∧ op.2.2 < 2 ^ 64) (few : ops.length ≤ maxBlockLines) :
    AdminConn.ops (written (Text.joinWith '\n' (ops.map opRow ++ [endLine]))) =
      .ok (ops.map AdminOp.ofOp) := by
  unfold AdminConn.ops
  rw [AdminConn.block_written _ _ (by rw [List.length_map]; exact few)]
  · change Except.ok (((ops.map opRow).map AdminConn.arrived).filterMap AdminConn.readOp) = _
    rw [List.map_map, List.filterMap_map]
    have read := List.filterMap_congr (f := AdminConn.readOp ∘ (AdminConn.arrived ∘ opRow))
      fun op mem => readOp_opRow (small op mem)
    rw [read]
    exact congrArg Except.ok (congrFun List.filterMap_eq_map' ops)
  · intro line mem
    obtain ⟨op, _, rfl⟩ := List.mem_map.mp mem
    exact AdminConn.started_row (by decide) (by decide) (List.cons_ne_nil _ _)
  · intro line mem
    obtain ⟨op, _, rfl⟩ := List.mem_map.mp mem
    exact single_row (solid_opWords op) (not_mem_of_solid (Text.solid_decimal _))

namespace VaultReport

theorem readVault_eq {report : VaultReport} : report.readVault = report.vault ↔
    ∀ c ∈ report.line.creator, Text.isBlank c = false := by
  have creators : report.readVault = report.vault ↔
      (Text.splitWhitespace report.line.creator).head?.bind AdminConn.optional =
        AdminConn.optional report.line.creator :=
    ⟨congrArg AdminVault.creator, fun same => congrArg (fun creator =>
      { report.vault with creator }) same⟩
  rw [creators]
  constructor
  · intro same c mem
    by_contra blank
    have given : AdminConn.optional report.line.creator = some report.line.creator := by
      refine if_neg fun absent => ?_
      obtain absent | absent := absent
      · rw [absent] at mem
        obtain rfl := List.mem_singleton.mp mem
        exact blank (by decide)
      · rw [absent] at mem
        cases mem
    rw [given] at same
    obtain ⟨word, first, isWord⟩ := Option.bind_eq_some_iff.mp same
    have solid := Text.mem_splitWhitespace (List.mem_of_head? first)
    unfold AdminConn.optional at isWord
    obtain ⟨_, isWord⟩ := Option.ite_none_left_eq_some.mp isWord
    obtain rfl := Option.some.inj isWord
    exact blank (solid.2 c mem)
  · intro plain
    by_cases empty : report.line.creator = []
    · rw [empty]
      rfl
    · rw [Text.splitWhitespace_of_solid ⟨empty, plain⟩]
      rfl

theorem readMember_eq {vaultId : VaultId} {report : MemberReport} :
    readMember vaultId report = member vaultId report ↔ report.queuedOps < 2 ^ 32 := by
  have queues : readMember vaultId report = member vaultId report ↔
      (if report.queuedOps < 2 ^ 32 then report.queuedOps else 0) = report.queuedOps :=
    ⟨congrArg AdminMember.queuedOps, fun same => congrArg (fun queuedOps =>
      { member vaultId report with queuedOps }) same⟩
  rw [queues]
  split <;> omega

def memberRows (reports : List VaultReport) : List (VaultId × MemberReport) :=
  reports.flatMap fun report => report.members.map fun member => (report.line.vaultId, member)

theorem flatMap_members {α : Type} (f : VaultId → MemberReport → α) (reports : List VaultReport) :
    (reports.flatMap fun report => report.members.map (f report.line.vaultId)) =
      (memberRows reports).map fun (vaultId, member) => f vaultId member := by
  unfold memberRows
  rw [List.map_flatMap]
  refine List.flatMap_congr fun report _ => ?_
  rw [List.map_map]
  rfl

theorem read_eq {reports : List VaultReport} :
    (reports.map readVault = reports.map vault ∧
      (reports.flatMap fun report => report.members.map (readMember report.line.vaultId)) =
        reports.flatMap fun report => report.members.map (member report.line.vaultId)) ↔
      ∀ report ∈ reports, (∀ c ∈ report.line.creator, Text.isBlank c = false) ∧
        ∀ member ∈ report.members, member.queuedOps < 2 ^ 32 := by
  rw [flatMap_members, flatMap_members, List.map_inj_left, List.map_inj_left]
  constructor
  · intro ⟨creators, queues⟩ report mem
    refine ⟨readVault_eq.mp (creators report mem), fun member inside => ?_⟩
    exact readMember_eq.mp (queues (report.line.vaultId, member)
      (List.mem_flatMap.mpr ⟨report, mem, List.mem_map_of_mem inside⟩))
  · intro plain
    refine ⟨fun report mem => readVault_eq.mpr (plain report mem).1, fun row mem => ?_⟩
    obtain ⟨report, inside, mem⟩ := List.mem_flatMap.mp mem
    obtain ⟨member, isMember, rfl⟩ := List.mem_map.mp mem
    exact readMember_eq.mpr ((plain report inside).2 member isMember)

theorem length_members_le {report : VaultReport} {reports : List VaultReport} (mem : report ∈ reports) :
    report.members.length < (reports.flatMap AdminHost.vaultRows).length := by
  induction reports with
  | nil => cases mem
  | cons first reports ih =>
    rw [List.flatMap_cons, List.length_append, AdminHost.vaultRows, List.length_cons, List.length_map]
    obtain rfl | mem := List.mem_cons.mp mem
    · omega
    · have ih := ih mem
      omega

end VaultReport

namespace AdminHost

variable {Addr : Type}

/-- The machine words that a report prints. -/
structure Words (ctx : AdminContext Addr) (host : AdminHost) : Prop where
  capacity : ctx.capacityBytes < 2 ^ 64
  lastSeen : ∀ (vaultId : VaultId) (vault : VaultHost), host.set.vaults[vaultId]? = some vault →
    ∀ (peer : PeerId) (time : Nat), vault.host.lastSeen[peer]? = some time → time < 2 ^ 64
  recentOps : ∀ (vaultId : VaultId) (vault : VaultHost), host.set.vaults[vaultId]? = some vault →
    ∀ op ∈ vault.host.recentOps, op.1 < 2 ^ 64 ∧ op.2.2 < 2 ^ 64

/-- The creators are single words and the queues are counted in 32 bits. -/
def Plain (env : AdminEnv Addr) (host : AdminHost) : Prop :=
  ∀ (vaultId : VaultId) (vault : VaultHost), host.set.vaults[vaultId]? = some vault →
    (∀ admission ∈ vault.host.state.admission,
      ∀ c ∈ (host.readMeta env.metaReads admission.vaultId).creator, Text.isBlank c = false) ∧
    ∀ peer ∈ vault.host.state.members, vault.host.queuedOps peer < 2 ^ 32

theorem vaultReport_eq_ok {env : AdminEnv Addr} {own : PeerId} {authorized : Bool} {host : AdminHost}
    {vault : VaultHost} {report : VaultReport} (h : vaultReport env own authorized host vault = .ok report) :
    ∃ admission, vault.host.state.admission = some admission ∧ report = {
      line := {
        vaultId := admission.vaultId
        code := vaultCode (host.readMeta env.metaReads admission.vaultId) admission authorized
        quota := (host.readMeta env.metaReads admission.vaultId).quota
        members := vault.host.state.members.size
        createdMs := (host.readMeta env.metaReads admission.vaultId).createdMs
        creator := (host.readMeta env.metaReads admission.vaultId).creator }
      usedBytes := vault.host.usedBytes
      members := vault.host.state.members.toList.map (memberReport env own vault.host) } := by
  unfold vaultReport statusLine at h
  obtain ⟨line, isLine, h⟩ := Result.bind_eq_ok.mp h
  obtain ⟨admission, attached, isLine⟩ := Result.bind_eq_ok.mp isLine
  obtain rfl := Except.ok.inj isLine
  obtain rfl := Except.ok.inj h
  exact ⟨admission, okOr_eq_ok.mp attached, rfl⟩

variable [SocketAddr Addr]

/-- What a client is to see of a report. -/
def shown (ctx : AdminContext Addr) (own : PeerId) (reports : List VaultReport) : AdminStatus where
  server := ctx.server own
  vaults := reports.map VaultReport.vault
  members := reports.flatMap fun report => report.members.map (VaultReport.member report.line.vaultId)

omit [SocketAddr Addr] in
theorem plain_iff {env : AdminEnv Addr} {own : PeerId} {authorized : Bool} {host : AdminHost}
    {reports : List VaultReport} (reported : host.reports env own authorized = .ok reports) :
    (∀ report ∈ reports, (∀ c ∈ report.line.creator, Text.isBlank c = false) ∧
      ∀ member ∈ report.members, member.queuedOps < 2 ^ 32) ↔ host.Plain env := by
  constructor
  · intro plain vaultId vault found
    obtain ⟨report, mem, isReport⟩ := Result.of_mem_mapM_eq_ok reported (Map.mem_vals.mpr ⟨_, found⟩)
    obtain ⟨admission, attached, rfl⟩ := vaultReport_eq_ok isReport
    obtain ⟨creator, queues⟩ := plain _ mem
    refine ⟨fun other isOther => ?_, fun peer member => ?_⟩
    · rw [attached] at isOther
      obtain rfl := Option.some.inj isOther
      exact creator
    · exact queues _ (List.mem_map_of_mem (Std.ExtTreeSet.mem_toList.mpr member))
  · intro plain report mem
    obtain ⟨vault, inside, isReport⟩ := Result.mem_mapM_eq_ok reported mem
    obtain ⟨vaultId, found⟩ := Map.mem_vals.mp inside
    obtain ⟨admission, attached, rfl⟩ := vaultReport_eq_ok isReport
    obtain ⟨creator, queues⟩ := plain vaultId vault found
    refine ⟨creator admission attached, fun member isMember => ?_⟩
    obtain ⟨peer, isPeer, rfl⟩ := List.mem_map.mp isMember
    exact queues peer (Std.ExtTreeSet.mem_toList.mp isPeer)

theorem fits_of_reports {env : AdminEnv Addr} {ctx : AdminContext Addr} {own : PeerId} {authorized : Bool}
    {host : AdminHost} {reports : List VaultReport} (words : host.Words ctx)
    (reported : host.reports env own authorized = .ok reports)
    (few : (statusRows ctx own reports).length ≤ maxBlockLines) :
    ∀ report ∈ reports, report.Fits ∧ '\n' ∉ report.line.creator := by
  intro report mem
  have size := VaultReport.length_members_le mem
  obtain ⟨vault, inside, isReport⟩ := Result.mem_mapM_eq_ok reported mem
  obtain ⟨vaultId, found⟩ := Map.mem_vals.mp inside
  obtain ⟨admission, attached, rfl⟩ := vaultReport_eq_ok isReport
  have legible := legible_readMeta env.metaReads admission.vaultId host
  refine ⟨⟨legible.quota, vault.host.usedBytes_lt, legible.createdMs, ?_, fun member isMember => ?_,
    vaultCode_lettered legible admission⟩, legible.creator.1⟩
  · unfold statusRows at few
    rw [List.length_cons] at few
    have limit : maxBlockLines = 4096 := rfl
    omega
  · obtain ⟨peer, _, rfl⟩ := List.mem_map.mp isMember
    change vault.host.lastSeen[peer]?.getD 0 < 2 ^ 64
    cases seen : vault.host.lastSeen[peer]? with
    | none => exact (by decide : 0 < 2 ^ 64)
    | some time => exact words.lastSeen vaultId vault found peer time seen

/-- The client shows what the host reports, and the operations it has seen, exactly
when the creators are single words and the queues are counted in 32 bits. -/
theorem admin_text_round_trips (prints : ∀ addr : Addr, Text.Solid (SocketAddr.print addr).toList)
    (env : AdminEnv Addr) (ctx : AdminContext Addr) (authorized : Bool) (host : AdminHost)
    (words : host.Words ctx) {own : PeerId} {reports : List VaultReport}
    (isOwn : host.set.keys.peerId = .ok own) (reported : host.reports env own authorized = .ok reports)
    (few : (statusRows ctx own reports).length ≤ maxBlockLines) :
    ((∃ text, host.statusText env ctx authorized = .ok text ∧
        AdminConn.status (written text) = .ok (shown ctx own reports)) ∧
      ∀ (vaultId : VaultId) (vault : VaultHost) (since : Nat), host.set.vaults[vaultId]? = some vault →
        since < 2 ^ 64 → (vault.host.recentOpsSince since).length ≤ maxBlockLines →
        ∃ text, host.opsText (idText vaultId.val) (Text.decimal since) = .ok text ∧
          AdminConn.ops (written text) = .ok ((vault.host.recentOpsSince since).map AdminOp.ofOp)) ↔
      host.Plain env := by
  have fits := fits_of_reports words reported few
  have isText : host.statusText env ctx authorized =
      .ok (Text.joinWith '\n' (statusRows ctx own reports ++ [endLine])) := by
    unfold statusText
    exact Result.bind_eq_ok.mpr ⟨own, isOwn, Result.bind_eq_ok.mpr ⟨reports, reported, rfl⟩⟩
  have read := status_statusRows prints words.capacity own (fun report mem => (fits report mem).1)
    (fun report mem => (fits report mem).2) few
  rw [← plain_iff reported, ← VaultReport.read_eq]
  constructor
  · rintro ⟨⟨text, isPrinted, isShown⟩, _⟩
    rw [isText] at isPrinted
    obtain rfl := Except.ok.inj isPrinted
    rw [read] at isShown
    have same := Except.ok.inj isShown
    exact ⟨congrArg AdminStatus.vaults same, congrArg AdminStatus.members same⟩
  · rintro ⟨vaults, members⟩
    refine ⟨⟨_, isText, ?_⟩, fun vaultId vault since found small few => ?_⟩
    · rw [read, vaults, members]
      rfl
    · refine ⟨Text.joinWith '\n' ((vault.host.recentOpsSince since).map opRow ++ [endLine]), ?_, ?_⟩
      · unfold opsText
        rw [parseHex32_idText, Text.parseU64_decimal, if_pos small]
        refine Result.bind_eq_ok.mpr ⟨vaultId.val, rfl, Result.bind_eq_ok.mpr ⟨since, rfl,
          Result.bind_eq_ok.mpr ⟨vault, okOr_eq_ok.mpr found, rfl⟩⟩⟩
      · refine ops_opRows (fun op mem => ?_) few
        exact words.recentOps vaultId vault found op (List.mem_of_mem_filter mem)

end AdminHost

namespace AdminHost

/-! One vault, whose app-meta file names a creator of one or two words. -/

local instance : Primitives := Primitives.plain

private def porter : LocalIdentity := (LocalIdentity.new [1] [2] 0).toOption.get (by decide +kernel)

private def porterId : PeerId := (KeyStore.opened porter 0).localId

private def reportEnv : AdminEnv Loopback where
  host := Host.calmEnv
  addr := .v6
  directory := true
  put := .ok ()
  forget := .ok ()
  random := some fun _ => 0
  vaultId := some ⟨3⟩
  directoryMade := .written
  admissionWrite := .written
  metaWrite := .written
  probes := true
  metaReads := true

private def reportContext : AdminContext Loopback := ⟨some .v4, .v6, 9⟩

/-- The host after `CREATE_VAULT 9 -`, with another creator in the file. -/
private def createdBy (creator : Text) : AdminHost :=
  { admin.run [⟨reportEnv, true, .createVault ['9'] none⟩] ⟨⟨KeyStore.opened porter 0, ∅, ∅⟩, ∅⟩ with
    directories := (∅ : Map VaultId VaultDirectory).insert ⟨3⟩
      ⟨true, some (AppMeta.field AppMeta.creatorKey creator)⟩ }

/-- Of two words the client reads the first. -/
theorem admin_text_round_trips_two_words :
    ∃ reports, (createdBy ['a', ' ', 'b']).reports reportEnv porterId true = .ok reports ∧
      (statusRows reportContext porterId reports).length ≤ maxBlockLines ∧
      ¬ ∃ text, (createdBy ['a', ' ', 'b']).statusText reportEnv reportContext true = .ok text ∧
        AdminConn.status (written text) = .ok (shown reportContext porterId reports) := by
  have reported : ((createdBy ['a', ' ', 'b']).reports reportEnv porterId true).toOption.map
      (fun reports => (decide ((statusRows reportContext porterId reports).length ≤ maxBlockLines),
        (shown reportContext porterId reports).vaults.map AdminVault.creator)) =
      some (true, [some ['a', ' ', 'b']]) := by decide +kernel
  have read : ((createdBy ['a', ' ', 'b']).statusText reportEnv reportContext true).toOption.map
      (fun text => (AdminConn.status (written text)).toOption.map
        fun status => status.vaults.map AdminVault.creator) =
      some (some [some ['a']]) := by decide +kernel
  obtain ⟨reports, isReport, found⟩ := Option.map_eq_some_iff.mp reported
  obtain ⟨few, creators⟩ := Prod.mk.inj found
  refine ⟨reports, Result.toOption_eq_some isReport, of_decide_eq_true few, ?_⟩
  rintro ⟨text, isText, isShown⟩
  rw [isText] at read
  have read : (AdminConn.status (written text)).toOption.map
      (fun status => status.vaults.map AdminVault.creator) = some [some ['a']] := Option.some.inj read
  rw [isShown] at read
  have read : (shown reportContext porterId reports).vaults.map AdminVault.creator = [some ['a']] :=
    Option.some.inj read
  rw [creators] at read
  exact absurd read (by decide)

private theorem createdBy_words : (createdBy ['a']).Words reportContext := by
  have fresh : ∀ vault ∈ Map.vals (createdBy ['a']).set.vaults,
      vault.host.lastSeen = ∅ ∧ vault.host.recentOps = [] := by decide +kernel
  refine ⟨by decide, fun vaultId vault found peer time seen => ?_, fun vaultId vault found op mem => ?_⟩
  · rw [(fresh vault (Map.mem_vals.mpr ⟨vaultId, found⟩)).1] at seen
    simp at seen
  · rw [(fresh vault (Map.mem_vals.mpr ⟨vaultId, found⟩)).2] at mem
    cases mem

private theorem loopback_prints : ∀ addr : Loopback, Text.Solid (SocketAddr.print addr).toList
  | .v4 => by decide +kernel
  | .v6 => by decide +kernel

theorem admin_text_round_trips_one_word : ∃ reports,
    (((∃ text, (createdBy ['a']).statusText reportEnv reportContext true = .ok text ∧
        AdminConn.status (written text) = .ok (shown reportContext porterId reports)) ∧
      ∀ (vaultId : VaultId) (vault : VaultHost) (since : Nat),
        (createdBy ['a']).set.vaults[vaultId]? = some vault → since < 2 ^ 64 →
        (vault.host.recentOpsSince since).length ≤ maxBlockLines →
        ∃ text, (createdBy ['a']).opsText (idText vaultId.val) (Text.decimal since) = .ok text ∧
          AdminConn.ops (written text) = .ok ((vault.host.recentOpsSince since).map AdminOp.ofOp)) ↔
      (createdBy ['a']).Plain reportEnv) := by
  have reported : ((createdBy ['a']).reports reportEnv porterId true).toOption.map
      (fun reports => decide ((statusRows reportContext porterId reports).length ≤ maxBlockLines)) =
      some true := by decide +kernel
  obtain ⟨reports, isReport, few⟩ := Option.map_eq_some_iff.mp reported
  have few : (statusRows reportContext porterId reports).length ≤ maxBlockLines := of_decide_eq_true few
  have isOwn : (createdBy ['a']).set.keys.peerId.toOption = some porterId := by decide +kernel
  exact ⟨reports, admin_text_round_trips loopback_prints reportEnv reportContext true (createdBy ['a'])
    createdBy_words (Result.toOption_eq_some isOwn) (Result.toOption_eq_some isReport) few⟩

end AdminHost

end QuantumFs.Net
