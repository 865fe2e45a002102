import QuantumFs.Host.Admission
import QuantumFs.Net.Directory

/-! A hosted vault and the directory (`VaultHost` in `net/join.rs`). Advertising,
rotating the join code and kicking a member each reserve their timestamps and
sign their messages under the borrow of the vault, and send them afterwards. -/
namespace QuantumFs.Net

open Lib Encoding Crypto Host

variable {Addr : Type} [NumericAddr Addr] [Primitives]

/-- `DirectoryAd::sign`. -/
def DirectoryAd.sign (keys : KeyStore) (vaultId : VaultId) (addr : Addr) (issuedAt : U64) :
    Result (DirectoryAd Addr) := do
  ensure (NumericAddr.port addr ≠ 0 ∧ NumericAddr.isUnspecified addr = false)
    (.invalidInput "directory address is not connectable")
  let identity ← keys.identityDocument
  let signingKey ← keys.signingKey
  let unsigned : DirectoryAd Addr :=
    { peerId := identity.peerId, vaultId, addr, ek := identity.ek, vk := identity.vk, issuedAt,
      signature := [] }
  let message ← directoryAdM unsigned
  pure { unsigned with signature := mlDsaSign signingKey .directory message }

/-- `DirForget::sign`. -/
def DirForget.sign (keys : KeyStore) (vaultId : VaultId) (joinCode : JoinCode) (issuedAt : U64) :
    Result DirForget := do
  let peerId ← keys.peerId
  let signingKey ← keys.signingKey
  let unsigned : DirForget := { peerId, vaultId, joinCode, issuedAt, signature := [] }
  pure { unsigned with signature := mlDsaSign signingKey .directory (dirForgetM unsigned) }

def timestampExhausted : Error := .state "ad timestamp exhausted"

/-- Timestamps are `u64` in the source; here they are naturals with checked additions. -/
def toStamp (issuedAt : Nat) : Result U64 :=
  if small : issuedAt < 2 ^ 64 then .ok ⟨issuedAt, small⟩ else .error timestampExhausted

def nextStamp (env : HostEnv) (metadata : VaultMetadata) : Result U64 := do
  let now ← env.unixTime?
  let after ← checkedAdd metadata.issuedAt 1 timestampExhausted
  toStamp (max now after)

inductive DirectoryMessage (Addr : Type) where
  | put (code : JoinCode) (ad : DirectoryAd Addr)
  | forget (request : DirForget)
deriving DecidableEq

namespace VaultHost

omit [NumericAddr Addr] [Primitives] in
/-- A vault host always has its admission attached. -/
def admission (host : HostService) : Result VaultMetadata :=
  okOr host.state.admission (.state "VaultHost always attaches admission metadata")

/-- `VaultHost::open_durable` with the admission of its vault file. -/
def openDurable (env : HostEnv) (keys : KeyStore) (disk : Store.DurableStore)
    (metadata : VaultMetadata) : Result HostService := do
  let host ← Host.openDurable env keys disk ⟨metadata.vaultId.val⟩ (OrdSet.ofList metadata.members)
  let attached := attachAdmission env metadata host
  attached.1.map fun _ => attached.2

/-- The first advertisement, whose timestamp is kept only once it was accepted. -/
def publish (env : HostEnv) (addr : Addr) (reply : DirectoryMessage Addr → Result Unit) :
    Action Error HostService Unit := do
  let metadata ← Action.query admission
  let issuedAt ← Action.ofExcept (nextStamp env metadata)
  let host ← Action.get
  let ad ← Action.ofExcept (DirectoryAd.sign host.keys metadata.vaultId addr issuedAt)
  Action.ofExcept (reply (.put metadata.joinCode ad))
  setAdmission env { metadata with issuedAt := issuedAt.val }

/-- `republish` up to its message. -/
def republish (env : HostEnv) (addr : Addr) :
    Action Error HostService (List (DirectoryMessage Addr)) := do
  let metadata ← Action.query admission
  let issuedAt ← Action.ofExcept (nextStamp env metadata)
  let host ← Action.get
  let ad ← Action.ofExcept (DirectoryAd.sign host.keys metadata.vaultId addr issuedAt)
  setAdmission env { metadata with issuedAt := issuedAt.val }
  pure [.put metadata.joinCode ad]

/-- `rotate_code_with` up to its messages: the admission changes before they are sent. -/
def rotateCodeWith (env : HostEnv) (addr : Addr) (code : JoinCode) :
    Action Error HostService (List (DirectoryMessage Addr)) := do
  let metadata ← Action.query admission
  let issuedAt ← Action.ofExcept (nextStamp env metadata)
  let forgottenAt ← Action.ofExcept (checkedAdd issuedAt.val 1 timestampExhausted)
  let forgottenAt ← Action.ofExcept (toStamp forgottenAt)
  let host ← Action.get
  let ad ← Action.ofExcept (DirectoryAd.sign host.keys metadata.vaultId addr issuedAt)
  let forget ← Action.ofExcept
    (DirForget.sign host.keys metadata.vaultId metadata.joinCode forgottenAt)
  setAdmission env { metadata with joinCode := code, issuedAt := forgottenAt.val }
  pure [.put code ad, .forget forget]

/-- `kick_with_code` up to its messages; the commit of the kick has reserved the
two timestamps. -/
def kickWithCode (env : HostEnv) (addr : Addr) (target : PeerId) (code : JoinCode) :
    Action Error HostService (List (DirectoryMessage Addr)) := do
  let old ← Action.query admission
  let _ ← Host.kickWithCode env target (some code)
  let metadata ← Action.query admission
  let forgottenAt ← Action.ofExcept (toStamp metadata.issuedAt)
  Action.require (1 ≤ forgottenAt.val) (.state "ad timestamp is not reserved")
  let issuedAt ← Action.ofExcept (toStamp (forgottenAt.val - 1))
  let host ← Action.get
  let ad ← Action.ofExcept (DirectoryAd.sign host.keys metadata.vaultId addr issuedAt)
  let forget ← Action.ofExcept (DirForget.sign host.keys metadata.vaultId old.joinCode forgottenAt)
  pure [.put metadata.joinCode ad, .forget forget]

end VaultHost

namespace DirectoryMessage

omit [NumericAddr Addr] [Primitives]

def Speaks (identity : IdentityDocument) (vaultId : VaultId) : DirectoryMessage Addr → Prop
  | .put _ ad => ad.key = ⟨identity.peerId, vaultId⟩ ∧ ad.vk = identity.vk
  | .forget request => request.key = ⟨identity.peerId, vaultId⟩

def issuedAt : DirectoryMessage Addr → U64
  | .put _ ad => ad.issuedAt
  | .forget request => request.issuedAt

end DirectoryMessage

omit [NumericAddr Addr] [Primitives] in
/-- The task has at most an advertisement of a code that was current to send. -/
def Refreshing : List (DirectoryMessage Addr) → Prop
  | [] => True
  | [.put _ _] => True
  | _ => False

instance : DecidablePred (@Refreshing Addr)
  | [] => .isTrue trivial
  | [.put _ _] => .isTrue trivial
  | .forget _ :: _ => .isFalse id
  | .put _ _ :: _ :: _ => .isFalse id

/-- The messages that lead the directory from one admission to the next, with
timestamps of their own. -/
inductive Plan (identity : IdentityDocument) (old new : VaultMetadata) :
    List (DirectoryMessage Addr) → Prop
  | refresh {ad : DirectoryAd Addr} : new.joinCode = old.joinCode →
      (DirectoryMessage.put old.joinCode ad).Speaks identity old.vaultId →
      old.issuedAt < ad.issuedAt.val → new.issuedAt = ad.issuedAt.val →
      Plan identity old new [.put old.joinCode ad]
  | replace {ad : DirectoryAd Addr} {forget : DirForget} :
      (DirectoryMessage.put new.joinCode ad).Speaks identity old.vaultId →
      forget.key = ⟨identity.peerId, old.vaultId⟩ →
      forget.joinCode = old.joinCode → old.issuedAt < ad.issuedAt.val →
      ad.issuedAt.val < forget.issuedAt.val → new.issuedAt = forget.issuedAt.val →
      Plan identity old new [.put new.joinCode ad, .forget forget]

/-- The messages were reserved; the host has moved on to its next admission. -/
structure Reserved (before after : HostService) (messages : List (DirectoryMessage Addr)) :
    Prop where
  identity : after.keys.identity = before.keys.identity
  admission : ∃ old new, before.state.admission = some old ∧ after.state.admission = some new ∧
    new.vaultId = old.vaultId ∧ Plan before.keys.identity.document old new messages

omit [NumericAddr Addr] [Primitives] in
theorem toStamp_eq_ok {issuedAt : Nat} {stamp : U64} (h : toStamp issuedAt = .ok stamp) :
    stamp.val = issuedAt := by
  unfold toStamp at h
  split at h
  · cases h
    rfl
  · cases h

omit [NumericAddr Addr] [Primitives] in
theorem lt_nextStamp {env : HostEnv} {metadata : VaultMetadata} {stamp : U64}
    (h : nextStamp env metadata = .ok stamp) : metadata.issuedAt < stamp.val := by
  unfold nextStamp at h
  obtain ⟨now, _, h⟩ := Result.bind_eq_ok.mp h
  obtain ⟨after, counted, h⟩ := Result.bind_eq_ok.mp h
  obtain ⟨_, rfl⟩ := checkedAdd_eq_ok.mp counted
  rw [toStamp_eq_ok h]
  omega

theorem DirectoryAd.sign_eq_ok {keys : KeyStore} {vaultId : VaultId} {addr : Addr} {issuedAt : U64}
    {ad : DirectoryAd Addr} (h : DirectoryAd.sign keys vaultId addr issuedAt = .ok ad)
    (code : JoinCode) :
    (DirectoryMessage.put code ad).Speaks keys.identity.document vaultId ∧ ad.issuedAt = issuedAt := by
  unfold DirectoryAd.sign at h
  obtain ⟨_, _, h⟩ := Result.bind_eq_ok.mp h
  obtain ⟨identity, document, h⟩ := Result.bind_eq_ok.mp h
  obtain ⟨_, _, h⟩ := Result.bind_eq_ok.mp h
  obtain ⟨_, _, h⟩ := Result.bind_eq_ok.mp h
  cases h
  obtain ⟨_, _, document⟩ := Result.bind_eq_ok.mp document
  cases document
  exact ⟨⟨rfl, rfl⟩, rfl⟩

theorem DirForget.sign_eq_ok {keys : KeyStore} {vaultId : VaultId} {joinCode : JoinCode}
    {issuedAt : U64} {request : DirForget}
    (h : DirForget.sign keys vaultId joinCode issuedAt = .ok request) :
    request.key = ⟨keys.identity.document.peerId, vaultId⟩ ∧ request.joinCode = joinCode ∧
      request.issuedAt = issuedAt := by
  unfold DirForget.sign at h
  obtain ⟨peerId, own, h⟩ := Result.bind_eq_ok.mp h
  obtain ⟨_, _, h⟩ := Result.bind_eq_ok.mp h
  cases h
  obtain ⟨_, _, own⟩ := Result.bind_eq_ok.mp own
  cases own
  exact ⟨rfl, rfl, rfl⟩

/-- Whatever this host signs for the address, it signs without an error. -/
@[mk_iff]
structure Signable (keys : KeyStore) (addr : Addr) : Prop where
  alive : keys.failed = false
  port : NumericAddr.port addr ≠ 0
  specified : NumericAddr.isUnspecified addr = false
  addrSize : (utf8 (SocketAddr.print addr)).length ≤ u32Max
  ekSize : keys.identity.document.ek.length ≤ u32Max
  vkSize : keys.identity.document.vk.length ≤ u32Max

instance (keys : KeyStore) (addr : Addr) : Decidable (Signable keys addr) :=
  decidable_of_iff' _ (signable_iff keys addr)

omit [NumericAddr Addr] [Primitives] in
theorem lock_ok {keys : KeyStore} (alive : keys.failed = false) : keys.lock = .ok () :=
  ensure_eq_ok.mpr alive

omit [Primitives] in
theorem directoryAdM_ok {a : DirectoryAd Addr}
    (addrSize : (utf8 (SocketAddr.print a.addr)).length ≤ u32Max) (ekSize : a.ek.length ≤ u32Max)
    (vkSize : a.vk.length ≤ u32Max) : ∃ message, directoryAdM a = .ok message := by
  unfold directoryAdM
  rw [pushVariable_eq_ok.mpr ⟨addrSize, rfl⟩, pushVariable_eq_ok.mpr ⟨ekSize, rfl⟩,
    pushVariable_eq_ok.mpr ⟨vkSize, rfl⟩]
  exact ⟨_, rfl⟩

theorem Signable.ad {keys : KeyStore} {addr : Addr} (signable : Signable keys addr)
    (vaultId : VaultId) (issuedAt : U64) :
    ∃ ad, DirectoryAd.sign keys vaultId addr issuedAt = .ok ad := by
  obtain ⟨message, encoded⟩ := directoryAdM_ok (a := {
      peerId := keys.identity.document.peerId, vaultId, addr, ek := keys.identity.document.ek
      vk := keys.identity.document.vk, issuedAt, signature := [] })
    signable.addrSize signable.ekSize signable.vkSize
  unfold DirectoryAd.sign
  rw [ensure, if_pos ⟨signable.port, signable.specified⟩, KeyStore.identityDocument,
    KeyStore.signingKey, lock_ok signable.alive]
  change ∃ ad, (directoryAdM _ >>= fun message => _) = Except.ok ad
  rw [encoded]
  exact ⟨_, rfl⟩

theorem Signable.forget {keys : KeyStore} {addr : Addr} (signable : Signable keys addr)
    (vaultId : VaultId) (joinCode : JoinCode) (issuedAt : U64) :
    ∃ request, DirForget.sign keys vaultId joinCode issuedAt = .ok request := by
  unfold DirForget.sign
  rw [KeyStore.peerId, KeyStore.signingKey, lock_ok signable.alive]
  exact ⟨_, rfl⟩

namespace VaultHost

theorem republish_reserved (env : HostEnv) (addr : Addr) (host : HostService) :
    Action.Ensures (republish env addr) host fun r t =>
      match r with
      | .ok messages => Reserved host t messages ∧ Refreshing messages
      | .error _ => t.state = host.state ∧ t.keys = host.keys := by
  unfold republish
  refine .query (fun _ _ => ⟨rfl, rfl⟩) fun old known => ?_
  refine .ofExcept (fun _ _ => ⟨rfl, rfl⟩) fun issuedAt stamped => .get ?_
  refine .ofExcept (fun _ _ => ⟨rfl, rfl⟩) fun ad signed => ?_
  refine .next (setAdmission_admission env _ host) (fun _ _ kept => ⟨kept.1, kept.2.2⟩)
    fun _ t set => .pure ?_
  obtain ⟨speaks, same⟩ := DirectoryAd.sign_eq_ok signed old.joinCode
  obtain ⟨stored, _, _, _, _, keys⟩ := set
  refine ⟨⟨congrArg KeyStore.identity keys, old, _, okOr_eq_ok.mp known, stored, rfl, ?_⟩, trivial⟩
  refine .refresh rfl speaks ?_ (congrArg Fin.val same.symm)
  rw [same]
  exact lt_nextStamp stamped

theorem rotateCodeWith_reserved (env : HostEnv) (addr : Addr) (code : JoinCode)
    (host : HostService) :
    Action.Ensures (rotateCodeWith env addr code) host fun r t =>
      match r with
      | .ok messages => Reserved host t messages ∧ t.state.admission.map (·.joinCode) = some code
      | .error _ => t.state = host.state ∧ t.keys = host.keys := by
  unfold rotateCodeWith
  refine .query (fun _ _ => ⟨rfl, rfl⟩) fun old known => ?_
  refine .ofExcept (fun _ _ => ⟨rfl, rfl⟩) fun issuedAt stamped => ?_
  refine .ofExcept (fun _ _ => ⟨rfl, rfl⟩) fun after counted => ?_
  refine .ofExcept (fun _ _ => ⟨rfl, rfl⟩) fun forgottenAt reserved => .get ?_
  refine .ofExcept (fun _ _ => ⟨rfl, rfl⟩) fun ad signed => ?_
  refine .ofExcept (fun _ _ => ⟨rfl, rfl⟩) fun forget retired => ?_
  refine .next (setAdmission_admission env _ host) (fun _ _ kept => ⟨kept.1, kept.2.2⟩)
    fun _ t set => .pure ?_
  obtain ⟨speaks, same⟩ := DirectoryAd.sign_eq_ok signed code
  obtain ⟨own, gone, late⟩ := DirForget.sign_eq_ok retired
  obtain ⟨stored, _, _, _, _, keys⟩ := set
  obtain ⟨_, rfl⟩ := checkedAdd_eq_ok.mp counted
  have next := toStamp_eq_ok reserved
  refine ⟨⟨congrArg KeyStore.identity keys, old, _, okOr_eq_ok.mp known, stored, rfl, ?_⟩, ?_⟩
  · refine .replace speaks own gone ?_ ?_ (congrArg Fin.val late.symm)
    · rw [same]
      exact lt_nextStamp stamped
    · rw [same, late, next]
      exact Nat.lt_succ_self _
  · rw [stored]
    rfl

def Abandoned (before after : HostService) : Prop :=
  ∃ old new, before.state.admission = some old ∧ after.state.admission = some new ∧
    new.vaultId = old.vaultId

theorem kickWithCode_reserved (env : HostEnv) (addr : Addr) (target : PeerId) (code : JoinCode)
    (host : HostService) :
    Action.Ensures (kickWithCode env addr target code) host fun r t =>
      t.keys.identity = host.keys.identity ∧
      match r with
      | .ok messages => Reserved host t messages ∧ t.state.admission.map (·.joinCode) = some code
      | .error _ => t.state.admission = host.state.admission ∨
          (¬ (env.keys.persists = true ∧ Signable host.keys addr) ∧ Abandoned host t) := by
  unfold kickWithCode
  refine .query (fun _ _ => ⟨rfl, .inl rfl⟩) fun old known => ?_
  have known : host.state.admission = some old := okOr_eq_ok.mp known
  have outcome := (kickWithCode_admission env target code host).and
    (show Action.Ensures (Host.kickWithCode env target (some code)) host
      fun _ t => t.keys.identity = host.keys.identity from
        (kickWithCode_effective env target (some code) host).identity)
  refine .next outcome (fun _ _ ends => ⟨ends.2, ?_⟩) fun _ t ends => ?_
  · obtain kept | ⟨broken, kicked⟩ := ends.1
    · exact .inl kept.admission
    · obtain ⟨_, new, _, stored, vault, _⟩ := kicked.admission old known
      exact .inr ⟨fun able => broken ⟨able.1, able.2.alive⟩, old, new, known, stored, vault⟩
  obtain ⟨⟨_, alive, kicked⟩, same⟩ := ends
  obtain ⟨now, new, _, stored, vault, sameCode, after, bounded⟩ := kicked.admission old known
  have found : admission t = .ok new := okOr_eq_ok.mpr stored
  refine .query (fun _ missing => ?_) fun metadata isNew => ?_
  · rw [found] at missing
    cases missing
  obtain rfl : new = metadata := Except.ok.inj (found.symm.trans isNew)
  have stamp : ∀ issuedAt ≤ new.issuedAt, ∃ stamp, toStamp issuedAt = .ok stamp := by
    intro issuedAt small
    have small : issuedAt < 2 ^ 64 := Nat.lt_succ_of_le (small.trans bounded)
    unfold toStamp
    rw [dif_pos small]
    exact ⟨_, rfl⟩
  refine .ofExcept (fun _ failed => ?_) fun forgottenAt reserved => ?_
  · obtain ⟨_, ok⟩ := stamp _ le_rfl
    rw [ok] at failed
    cases failed
  have last := toStamp_eq_ok reserved
  refine .require (fun early => absurd ?_ early) fun _ => ?_
  · rw [last, after]
    omega
  refine .ofExcept (fun _ failed => ?_) fun issuedAt stamped => .get ?_
  · obtain ⟨_, ok⟩ := stamp (forgottenAt.val - 1) (by omega)
    rw [ok] at failed
    cases failed
  have before := toStamp_eq_ok stamped
  have signs : Signable host.keys addr → Signable t.keys addr := fun signable =>
    ⟨alive, signable.port, signable.specified, signable.addrSize, same ▸ signable.ekSize,
      same ▸ signable.vkSize⟩
  have abandoned : Abandoned host t := ⟨old, new, known, stored, vault⟩
  refine .ofExcept (fun _ failed => ⟨same, .inr ⟨fun able => ?_, abandoned⟩⟩) fun ad signed => ?_
  · obtain ⟨_, ok⟩ := (signs able.2).ad new.vaultId issuedAt
    rw [ok] at failed
    cases failed
  refine .ofExcept (fun _ failed => ⟨same, .inr ⟨fun able => ?_, abandoned⟩⟩)
    fun forget retired => .pure ?_
  · obtain ⟨_, ok⟩ := (signs able.2).forget new.vaultId old.joinCode forgottenAt
    rw [ok] at failed
    cases failed
  obtain ⟨speaks, sent⟩ := DirectoryAd.sign_eq_ok signed new.joinCode
  obtain ⟨own, gone, late⟩ := DirForget.sign_eq_ok retired
  rw [vault, same] at speaks own
  refine ⟨same, ⟨same, old, new, known, stored, vault, .replace speaks own gone ?_ ?_ ?_⟩, ?_⟩
  · rw [sent, before, last, after]
    omega
  · rw [sent, late, before, last, after]
    omega
  · rw [late, last]
  · rw [stored, Option.map_some, sameCode]

end VaultHost

end QuantumFs.Net
