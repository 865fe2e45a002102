import QuantumFs.Encoding.Local
import QuantumFs.Lib.Machine
import QuantumFs.Store.Chunks

/-! The signed join-code directory (`net/directory.rs`): advertisements under
their codes, and for each peer and vault the newest request that was accepted.
Both are pruned by age before a request is judged, and what is kept is written to
one file. -/
namespace QuantumFs.Net

open Lib Encoding Crypto

/-- The parts of a socket address that decide whether it can be dialled. -/
class NumericAddr (Addr : Type) extends SocketAddr Addr where
  port : Addr → Nat
  isUnspecified : Addr → Bool

instance : NumericAddr Loopback where
  port := fun _ => 4433
  isUnspecified := fun _ => false

def maxAdAgeSecs : Nat := 7 * 24 * 60 * 60

def maxFutureSkewSecs : Nat := 120

def maxAdsPerPeer : Nat := 32

def maxTotalAds : Nat := 10000

def maxStateBytes : Nat := 128 * 1024 * 1024

def isExpired (issuedAt now : U64) : Bool := decide (maxAdAgeSecs < now.val - issuedAt.val)

def requireCurrent (issuedAt now : U64) : Result Unit := do
  ensure (issuedAt.val ≤ min (now.val + maxFutureSkewSecs) u64Max)
    (.invalidInput "directory record is too far in the future")
  ensure (isExpired issuedAt now = false) (.invalidInput "directory record is expired")

structure WatermarkKey where
  peerId : PeerId
  vaultId : VaultId
deriving DecidableEq

instance : LinearOrder WatermarkKey :=
  LinearOrder.lift' (fun key => toLex (key.peerId, key.vaultId)) fun a b h => by
    obtain ⟨peer, vault⟩ := a
    obtain ⟨peer', vault'⟩ := b
    simpa using h

namespace DirectoryAd

variable {Addr : Type}

def key (ad : DirectoryAd Addr) : WatermarkKey := ⟨ad.peerId, ad.vaultId⟩

def watermark (ad : DirectoryAd Addr) : DirectoryWatermark where
  peerId := ad.peerId
  vaultId := ad.vaultId
  issuedAt := ad.issuedAt
  vk := ad.vk

variable [NumericAddr Addr] [Primitives]

def verifySignature (ad : DirectoryAd Addr) : Result Unit := do
  ensure (NumericAddr.port ad.addr ≠ 0 ∧ NumericAddr.isUnspecified ad.addr = false)
    (.invalidInput "directory address is not connectable")
  ensure (Primitives.validPublicKey ad.ek = true) .authenticationFailed
  ensure (ad.peerId = Encoding.peerId ad.vk) .authenticationFailed
  let message ← directoryAdM ad
  mlDsaVerify ad.vk .directory message ad.signature

def verify (ad : DirectoryAd Addr) (now : U64) : Result Unit := do
  requireCurrent ad.issuedAt now
  ad.verifySignature

end DirectoryAd

namespace DirForget

def key (request : DirForget) : WatermarkKey := ⟨request.peerId, request.vaultId⟩

def watermark (request : DirForget) (vk : Bytes) : DirectoryWatermark where
  peerId := request.peerId
  vaultId := request.vaultId
  issuedAt := request.issuedAt
  vk := vk

def verify [Primitives] (request : DirForget) (vk : Bytes) (now : U64) : Result Unit := do
  requireCurrent request.issuedAt now
  ensure (request.peerId = Encoding.peerId vk) .authenticationFailed
  mlDsaVerify vk .directory (dirForgetM request) request.signature

end DirForget

/-- The maps in memory and the file they are written to. -/
structure DirectoryStore (Addr : Type) where
  ads : Map JoinCode (DirectoryAd Addr)
  watermarks : Map WatermarkKey DirectoryWatermark
  failed : Bool
  file : Option Bytes

namespace DirectoryStore

variable {Addr : Type}

def prunedAds (store : DirectoryStore Addr) (now : U64) : Map JoinCode (DirectoryAd Addr) :=
  store.ads.filter fun _ ad => !isExpired ad.issuedAt now

def prunedWatermarks (store : DirectoryStore Addr) (now : U64) :
    Map WatermarkKey DirectoryWatermark :=
  store.watermarks.filter fun _ watermark => !isExpired watermark.issuedAt now

def peerCount (ads : Map JoinCode (DirectoryAd Addr)) (peer : PeerId) : Nat :=
  (ads.filter fun _ ad => ad.peerId = peer).size

/-- The atomic replacement of the file. After an error the store stops serving:
the replacement may have happened or not. -/
def writeState (outcome : Store.WriteOutcome) (bytes : Bytes) :
    Action Error (DirectoryStore Addr) Unit := fun store =>
  if maxStateBytes < bytes.length then
    (.error (.invalidInput "directory store is too large"), { store with failed := true })
  else match outcome with
    | .written => (.ok (), { store with file := some bytes })
    | .failed true => (.error .io, { store with failed := true, file := some bytes })
    | .failed false => (.error .io, { store with failed := true })

def requireHealthy : Action Error (DirectoryStore Addr) Unit := do
  let store ← Action.get
  Action.require (store.failed = false) (.state "directory persistence failed; reopen required")

variable [NumericAddr Addr]

def stateOf (ads : Map JoinCode (DirectoryAd Addr)) (watermarks : Map WatermarkKey DirectoryWatermark) :
    DirectoryState Addr where
  ads := ads.toList
  watermarks := Map.vals watermarks

def commit (outcome : Store.WriteOutcome) (ads : Map JoinCode (DirectoryAd Addr))
    (watermarks : Map WatermarkKey DirectoryWatermark) : Action Error (DirectoryStore Addr) Unit := do
  let bytes ← Action.ofExcept (encodeDirectoryState (stateOf ads watermarks))
  writeState outcome bytes
  Action.modify fun store => { store with ads, watermarks }

variable [Primitives]

def put (outcome : Store.WriteOutcome) (code : JoinCode) (ad : DirectoryAd Addr) (now : U64) :
    Action Error (DirectoryStore Addr) Unit := do
  requireHealthy
  Action.ofExcept (ad.verify now)
  let store ← Action.get
  let ads := store.prunedAds now
  let watermarks := store.prunedWatermarks now
  Action.require (∀ existing ∈ ads[code]?, existing.peerId = ad.peerId) .authenticationFailed
  Action.require (∀ watermark ∈ watermarks[ad.key]?, watermark.issuedAt < ad.issuedAt)
    .replayRejected
  Action.require (watermarks.contains ad.key = true ∨ watermarks.size < maxTotalAds)
    (.invalidInput "directory watermark cap reached")
  Action.require ((∃ existing ∈ ads[code]?, existing.peerId = ad.peerId) ∨
    peerCount ads ad.peerId < maxAdsPerPeer) (.invalidInput "directory peer ad cap reached")
  Action.require (ads.contains code = true ∨ ads.size < maxTotalAds)
    (.invalidInput "directory ad cap reached")
  commit outcome (ads.insert code ad) (watermarks.insert ad.key ad.watermark)

omit [Primitives] in
/-- The part of `lookup` that commits what pruning has dropped. -/
def dropExpired (outcome : Store.WriteOutcome) (now : U64) : Action Error (DirectoryStore Addr) Unit := do
  let store ← Action.get
  let ads := store.prunedAds now
  let watermarks := store.prunedWatermarks now
  if ads.size ≠ store.ads.size ∨ watermarks.size ≠ store.watermarks.size then
    commit outcome ads watermarks
  else pure ()

omit [Primitives] in
def lookup (outcome : Store.WriteOutcome) (code : JoinCode) (now : U64) :
    Action Error (DirectoryStore Addr) (Option (DirectoryAd Addr)) := do
  requireHealthy
  dropExpired outcome now
  let store ← Action.get
  pure store.ads[code]?

def forget (outcome : Store.WriteOutcome) (request : DirForget) (now : U64) :
    Action Error (DirectoryStore Addr) Unit := do
  requireHealthy
  let store ← Action.get
  let ads := store.prunedAds now
  let watermarks := store.prunedWatermarks now
  Action.require (∀ existing ∈ ads[request.joinCode]?,
    existing.peerId = request.peerId ∧ existing.vaultId = request.vaultId) .authenticationFailed
  let watermark ← Action.ofExcept (okOr watermarks[request.key]? .authenticationFailed)
  Action.ofExcept (request.verify watermark.vk now)
  Action.require (watermark.issuedAt < request.issuedAt) .replayRejected
  commit outcome (ads.erase request.joinCode)
    (watermarks.insert request.key (request.watermark watermark.vk))

end DirectoryStore

inductive DirectoryRequest (Addr : Type) where
  | put (code : JoinCode) (ad : DirectoryAd Addr)
  | forget (request : DirForget)
  | lookup (code : JoinCode)

/-- A request, when it is processed, and how the write of the file would end. -/
structure DirectoryOp (Addr : Type) where
  now : U64
  request : DirectoryRequest Addr
  outcome : Store.WriteOutcome

namespace DirectoryStore

variable {Addr : Type} [NumericAddr Addr] [Primitives]

def handle (op : DirectoryOp Addr) : Action Error (DirectoryStore Addr) Unit :=
  match op.request with
  | .put code ad => put op.outcome code ad op.now
  | .forget request => forget op.outcome request op.now
  | .lookup code => do
    let _ ← lookup op.outcome code op.now
    pure ()

/-- The maps a request wants committed, with every check it has passed. -/
inductive Asks (now : U64) (store : DirectoryStore Addr) : DirectoryRequest Addr →
    Map JoinCode (DirectoryAd Addr) → Map WatermarkKey DirectoryWatermark → Prop
  | put {code : JoinCode} {ad : DirectoryAd Addr} : ad.verify now = .ok () →
      (∀ existing ∈ (store.prunedAds now)[code]?, existing.peerId = ad.peerId) →
      (∀ watermark ∈ (store.prunedWatermarks now)[ad.key]?, watermark.issuedAt < ad.issuedAt) →
      ((store.prunedWatermarks now).contains ad.key = true ∨
        (store.prunedWatermarks now).size < maxTotalAds) →
      ((∃ existing ∈ (store.prunedAds now)[code]?, existing.peerId = ad.peerId) ∨
        peerCount (store.prunedAds now) ad.peerId < maxAdsPerPeer) →
      ((store.prunedAds now).contains code = true ∨ (store.prunedAds now).size < maxTotalAds) →
      Asks now store (.put code ad) ((store.prunedAds now).insert code ad)
        ((store.prunedWatermarks now).insert ad.key ad.watermark)
  | forget {request : DirForget} {watermark : DirectoryWatermark} :
      (∀ existing ∈ (store.prunedAds now)[request.joinCode]?,
        existing.peerId = request.peerId ∧ existing.vaultId = request.vaultId) →
      (store.prunedWatermarks now)[request.key]? = some watermark →
      request.verify watermark.vk now = .ok () → watermark.issuedAt < request.issuedAt →
      Asks now store (.forget request) ((store.prunedAds now).erase request.joinCode)
        ((store.prunedWatermarks now).insert request.key (request.watermark watermark.vk))
  | lookup {code : JoinCode} :
      Asks now store (.lookup code) (store.prunedAds now) (store.prunedWatermarks now)

def Holds (ads : Map JoinCode (DirectoryAd Addr)) (watermarks : Map WatermarkKey DirectoryWatermark)
    (file : Option Bytes) : Prop :=
  ∃ bytes, encodeDirectoryState (stateOf ads watermarks) = .ok bytes ∧
    bytes.length ≤ maxStateBytes ∧ file = some bytes

inductive Step (op : DirectoryOp Addr) (store : DirectoryStore Addr) :
    Result Unit → DirectoryStore Addr → Prop
  | committed {ads : Map JoinCode (DirectoryAd Addr)}
      {watermarks : Map WatermarkKey DirectoryWatermark} {file : Option Bytes} :
      Asks op.now store op.request ads watermarks → Holds ads watermarks file →
      store.failed = false → Step op store (.ok ()) { store with ads, watermarks, file }
  | unchanged {code : JoinCode} : op.request = .lookup code → Step op store (.ok ()) store
  | refused (error : Error) (failed : Bool) : (store.failed = true → failed = true) →
      Step op store (.error error) { store with failed }
  | unsure (error : Error) {ads : Map JoinCode (DirectoryAd Addr)}
      {watermarks : Map WatermarkKey DirectoryWatermark} {file : Option Bytes} :
      Asks op.now store op.request ads watermarks → Holds ads watermarks file →
      Step op store (.error error) { store with failed := true, file }

theorem commit_ensures {op : DirectoryOp Addr} {store : DirectoryStore Addr}
    {ads : Map JoinCode (DirectoryAd Addr)} {watermarks : Map WatermarkKey DirectoryWatermark}
    (asks : Asks op.now store op.request ads watermarks) (healthy : store.failed = false) :
    Action.Ensures (commit op.outcome ads watermarks) store (Step op store) := by
  unfold commit
  refine .ofExcept (fun error _ => .refused error store.failed id) fun bytes encoded => ?_
  apply Action.Ensures.bind
  unfold Action.Ensures writeState
  by_cases small : maxStateBytes < bytes.length
  · rw [if_pos small]
    exact .refused _ true fun _ => rfl
  · rw [if_neg small]
    have holds : Holds ads watermarks (some bytes) := ⟨bytes, encoded, not_lt.mp small, rfl⟩
    cases op.outcome with
    | written => exact .committed asks holds healthy
    | failed replaced =>
      cases replaced with
      | true => exact .unsure _ asks holds
      | false => exact .refused _ true fun _ => rfl

theorem handle_ensures (op : DirectoryOp Addr) (store : DirectoryStore Addr) :
    Action.Ensures (handle op) store (Step op store) := by
  have stays : ∀ error, Step op store (.error error) store := fun error =>
    .refused error store.failed id
  unfold handle
  split
  · rename_i code ad request
    unfold put requireHealthy
    rw [bind_assoc]
    refine .get (.require (fun _ => stays _) fun healthy => ?_)
    refine .ofExcept (fun error _ => stays error) fun _ verified => .get ?_
    refine .require (fun _ => stays _) fun owner => .require (fun _ => stays _) fun newer => ?_
    refine .require (fun _ => stays _) fun room => .require (fun _ => stays _) fun share => ?_
    refine .require (fun _ => stays _) fun space => ?_
    refine commit_ensures ?_ healthy
    rw [request]
    exact .put verified owner newer room share space
  · rename_i forgotten request
    unfold forget requireHealthy
    rw [bind_assoc]
    refine .get (.require (fun _ => stays _) fun healthy => .get ?_)
    refine .require (fun _ => stays _) fun owner => ?_
    refine .ofExcept (fun error _ => stays error) fun watermark found => ?_
    refine .ofExcept (fun error _ => stays error) fun _ verified => ?_
    refine .require (fun _ => stays _) fun newer => ?_
    refine commit_ensures ?_ healthy
    rw [request]
    exact .forget owner (okOr_eq_ok.mp found) verified newer
  · rename_i code request
    unfold lookup requireHealthy
    rw [bind_assoc, bind_assoc]
    refine .get (.require (fun _ => stays _) fun healthy => ?_)
    rw [bind_assoc]
    have dropped : Action.Ensures (dropExpired op.outcome op.now) store (Step op store) := by
      unfold dropExpired
      refine .get (.ite (fun _ => commit_ensures ?_ healthy) fun _ => .pure (.unchanged request))
      rw [request]
      exact .lookup
    exact .next dropped (fun _ _ step => step) fun _ _ step => step

end DirectoryStore

inductive SignedRequest (Addr : Type) where
  | put (ad : DirectoryAd Addr)
  | forget (request : DirForget)
deriving DecidableEq

namespace SignedRequest

variable {Addr : Type}

def key : SignedRequest Addr → WatermarkKey
  | .put ad => ad.key
  | .forget request => request.key

def issuedAt : SignedRequest Addr → U64
  | .put ad => ad.issuedAt
  | .forget request => request.issuedAt

end SignedRequest

def DirectoryRequest.signed {Addr : Type} : DirectoryRequest Addr → Option (SignedRequest Addr)
  | .put _ ad => some (.put ad)
  | .forget request => some (.forget request)
  | .lookup _ => none

theorem isExpired_mono {issuedAt later now after : U64} (h : isExpired later now = true)
    (older : issuedAt ≤ later) (passed : now ≤ after) : isExpired issuedAt after = true := by
  unfold isExpired at h ⊢
  rw [decide_eq_true_iff] at h ⊢
  have older : issuedAt.val ≤ later.val := older
  have passed : now.val ≤ after.val := passed
  omega

theorem requireCurrent_fresh {issuedAt now : U64} (h : requireCurrent issuedAt now = .ok ()) :
    isExpired issuedAt now = false := by
  simp only [requireCurrent, Result.bind_eq_ok, ensure_eq_ok] at h
  exact h.choose_spec.2

namespace DirectoryStore

variable {Addr : Type} [NumericAddr Addr] [Primitives]

/-- Requests processed in order. -/
def directory : Machine (DirectoryStore Addr) (DirectoryOp Addr) where
  exec op store := (handle op store).2

/-- The signed request that was accepted, if there was one. -/
def acceptedBy (op : DirectoryOp Addr) (store : DirectoryStore Addr) : Option (SignedRequest Addr) :=
  match (handle op store).1 with
  | .ok _ => op.request.signed
  | .error _ => none

def accepted : List (DirectoryOp Addr) → DirectoryStore Addr → List (SignedRequest Addr)
  | [], _ => []
  | op :: ops, store => (acceptedBy op store).toList ++ accepted ops (directory.exec op store)

/-- A request of this age can no longer be accepted: it has expired, or a
watermark as new stands in its way. -/
def Fenced (now : U64) (key : WatermarkKey) (issuedAt : U64) (store : DirectoryStore Addr) : Prop :=
  isExpired issuedAt now = true ∨
    ∃ watermark, store.watermarks[key]? = some watermark ∧ issuedAt ≤ watermark.issuedAt

variable {op : DirectoryOp Addr} {store : DirectoryStore Addr} {now issuedAt : U64}
  {key : WatermarkKey}

omit [NumericAddr Addr] [Primitives] in
theorem get_prunedWatermarks : (store.prunedWatermarks now)[key]? =
    store.watermarks[key]?.filter fun watermark => !isExpired watermark.issuedAt now :=
  Map.get_filter _ _ _

omit [NumericAddr Addr] [Primitives] in
theorem get_prunedAds {code : JoinCode} : (store.prunedAds now)[code]? =
    store.ads[code]?.filter fun ad => !isExpired ad.issuedAt now :=
  Map.get_filter _ _ _

omit [NumericAddr Addr] [Primitives] in
theorem Fenced.pruned {later : U64} (fenced : Fenced now key issuedAt store) (passed : now ≤ later) :
    isExpired issuedAt later = true ∨ ∃ watermark,
      (store.prunedWatermarks later)[key]? = some watermark ∧ issuedAt ≤ watermark.issuedAt := by
  obtain expired | ⟨watermark, found, newer⟩ := fenced
  · exact .inl (isExpired_mono expired le_rfl passed)
  · cases expired : isExpired watermark.issuedAt later with
    | true => exact .inl (isExpired_mono expired newer le_rfl)
    | false =>
      refine .inr ⟨watermark, ?_, newer⟩
      rw [get_prunedWatermarks, found]
      simp [expired]

theorem Asks.signed {ads : Map JoinCode (DirectoryAd Addr)}
    {watermarks : Map WatermarkKey DirectoryWatermark} {request : DirectoryRequest Addr}
    (asks : Asks now store request ads watermarks) {signed : SignedRequest Addr}
    (same : request.signed = some signed) :
    isExpired signed.issuedAt now = false ∧
      (∀ watermark ∈ (store.prunedWatermarks now)[signed.key]?,
        watermark.issuedAt < signed.issuedAt) ∧
      ∃ watermark, watermark.issuedAt = signed.issuedAt ∧
        watermarks = (store.prunedWatermarks now).insert signed.key watermark := by
  cases asks with
  | put verified _ newer =>
    cases same
    obtain ⟨_, current, _⟩ := Result.bind_eq_ok.mp verified
    exact ⟨requireCurrent_fresh current, newer, _, rfl, rfl⟩
  | forget _ found verified newer =>
    cases same
    obtain ⟨_, current, _⟩ := Result.bind_eq_ok.mp verified
    refine ⟨requireCurrent_fresh current, fun watermark other => ?_, _, rfl, rfl⟩
    have equal := Option.some.inj (found.symm.trans other)
    exact equal ▸ newer
  | lookup => cases same

theorem Asks.unsigned {ads : Map JoinCode (DirectoryAd Addr)}
    {watermarks : Map WatermarkKey DirectoryWatermark} {request : DirectoryRequest Addr}
    (asks : Asks now store request ads watermarks) (none : request.signed = none) :
    ads = store.prunedAds now ∧ watermarks = store.prunedWatermarks now := by
  cases asks with
  | put => cases none
  | forget => cases none
  | lookup => exact ⟨rfl, rfl⟩

theorem Asks.fenced {ads : Map JoinCode (DirectoryAd Addr)}
    {watermarks : Map WatermarkKey DirectoryWatermark} {request : DirectoryRequest Addr} {later : U64}
    (asks : Asks later store request ads watermarks) (fenced : Fenced now key issuedAt store)
    (passed : now ≤ later) : isExpired issuedAt later = true ∨
      ∃ watermark, watermarks[key]? = some watermark ∧ issuedAt ≤ watermark.issuedAt := by
  obtain expired | ⟨old, found, newer⟩ := fenced.pruned passed
  · exact .inl expired
  cases signed : request.signed with
  | none =>
    rw [(asks.unsigned signed).2]
    exact .inr ⟨old, found, newer⟩
  | some signed' =>
    obtain ⟨_, above, watermark, age, rfl⟩ := asks.signed signed
    by_cases same : signed'.key = key
    · subst same
      refine .inr ⟨watermark, by rw [Map.get_insert, if_pos rfl], ?_⟩
      rw [age]
      exact newer.trans (above old found).le
    · exact .inr ⟨old, by rw [Map.get_insert_ne _ _ same]; exact found, newer⟩

theorem Asks.above {ads : Map JoinCode (DirectoryAd Addr)}
    {watermarks : Map WatermarkKey DirectoryWatermark} {request : DirectoryRequest Addr} {later : U64}
    (asks : Asks later store request ads watermarks) {signed : SignedRequest Addr}
    (same : request.signed = some signed) (fenced : Fenced now signed.key issuedAt store)
    (passed : now ≤ later) : issuedAt < signed.issuedAt := by
  obtain ⟨fresh, above, _⟩ := asks.signed same
  obtain expired | ⟨old, found, newer⟩ := fenced.pruned passed
  · by_contra older
    rw [isExpired_mono expired (not_lt.mp older) le_rfl] at fresh
    cases fresh
  · exact newer.trans_lt (above old found)

theorem Fenced.exec (fenced : Fenced now key issuedAt store) (passed : now ≤ op.now) :
    Fenced op.now key issuedAt (directory.exec op store) := by
  have later : Fenced op.now key issuedAt store := by
    obtain expired | standing := fenced
    · exact .inl (isExpired_mono expired le_rfl passed)
    · exact .inr standing
  have step : Step op store (handle op store).1 (directory.exec op store) := handle_ensures op store
  generalize directory.exec op store = next at step ⊢
  generalize (handle op store).1 = r at step
  cases step with
  | committed asks => exact asks.fenced fenced passed
  | unchanged => exact later
  | refused => exact later
  | unsure => exact later

theorem acceptedBy_spec {signed : SignedRequest Addr} (h : acceptedBy op store = some signed) :
    op.request.signed = some signed ∧ ∃ ads watermarks,
      Asks op.now store op.request ads watermarks ∧
        (directory.exec op store).ads = ads ∧ (directory.exec op store).watermarks = watermarks := by
  unfold acceptedBy at h
  have step : Step op store (handle op store).1 (directory.exec op store) := handle_ensures op store
  generalize directory.exec op store = next at step ⊢
  generalize (handle op store).1 = r at step h
  cases step with
  | committed asks => exact ⟨h, _, _, asks, rfl, rfl⟩
  | unchanged lookup =>
    rw [lookup] at h
    cases h
  | refused => cases h
  | unsure => cases h

theorem fenced_of_accepted {signed : SignedRequest Addr} (h : acceptedBy op store = some signed) :
    Fenced op.now signed.key signed.issuedAt (directory.exec op store) := by
  obtain ⟨same, ads, watermarks, asks, _, written⟩ := acceptedBy_spec h
  obtain ⟨_, _, watermark, age, rfl⟩ := asks.signed same
  refine .inr ⟨watermark, ?_, age.ge⟩
  rw [written, Map.get_insert, if_pos rfl]

theorem Fenced.lt_accepted {signed : SignedRequest Addr} (fenced : Fenced now signed.key issuedAt store)
    (passed : now ≤ op.now) (h : acceptedBy op store = some signed) : issuedAt < signed.issuedAt := by
  obtain ⟨same, _, _, asks, _, _⟩ := acceptedBy_spec h
  exact asks.above same fenced passed

theorem lt_accepted {ops : List (DirectoryOp Addr)} :
    ∀ {store : DirectoryStore Addr} {now : U64}, (∀ op ∈ ops, now ≤ op.now) →
      ops.Pairwise (fun first second => first.now ≤ second.now) → Fenced now key issuedAt store →
      ∀ signed ∈ accepted ops store, signed.key = key → issuedAt < signed.issuedAt := by
  induction ops with
  | nil => exact fun _ _ _ _ mem => absurd mem List.not_mem_nil
  | cons op ops ih =>
    intro store now passed clock fenced signed mem same
    have first := passed op List.mem_cons_self
    obtain ⟨later, clock⟩ := List.pairwise_cons.mp clock
    obtain here | there := List.mem_append.mp mem
    · subst same
      exact fenced.lt_accepted first (Option.mem_toList.mp here)
    · exact ih later clock (fenced.exec first) signed there same

theorem accepted_increasing {ops : List (DirectoryOp Addr)} :
    ∀ (store : DirectoryStore Addr), ops.Pairwise (fun first second => first.now ≤ second.now) →
      (accepted ops store).Pairwise fun first second =>
        first.key = second.key → first.issuedAt < second.issuedAt := by
  induction ops with
  | nil => exact fun _ _ => .nil
  | cons op ops ih =>
    intro store clock
    obtain ⟨later, clock⟩ := List.pairwise_cons.mp clock
    unfold accepted
    cases h : acceptedBy op store with
    | none => exact ih _ clock
    | some signed =>
      refine .cons (fun second mem same => ?_) (ih _ clock)
      exact lt_accepted later clock (fenced_of_accepted h) second mem same.symm

def Retired (code : JoinCode) (key : WatermarkKey) (issuedAt : U64) (store : DirectoryStore Addr) :
    Prop :=
  ∀ ad ∈ store.ads[code]?, ad.key = key → issuedAt < ad.issuedAt

theorem Asks.retired {ads : Map JoinCode (DirectoryAd Addr)}
    {watermarks : Map WatermarkKey DirectoryWatermark} {request : DirectoryRequest Addr} {later : U64}
    {code : JoinCode} (asks : Asks later store request ads watermarks)
    (fenced : Fenced now key issuedAt store) (passed : now ≤ later)
    (retired : Retired code key issuedAt store) :
    ∀ ad ∈ ads[code]?, ad.key = key → issuedAt < ad.issuedAt := by
  have kept : ∀ ad ∈ (store.prunedAds later)[code]?, ad.key = key → issuedAt < ad.issuedAt := by
    intro ad found
    rw [get_prunedAds, Option.mem_def, Option.filter_eq_some_iff] at found
    exact retired ad found.1
  have above : ∀ signed, request.signed = some signed → signed.key = key →
      issuedAt < signed.issuedAt := by
    rintro signed asked rfl
    exact asks.above asked fenced passed
  cases asks with
  | put =>
    intro other found same
    rw [Map.get_insert, Option.mem_def] at found
    split at found
    · cases found
      exact above _ rfl same
    · exact kept other found same
  | forget =>
    intro other found same
    rw [Map.get_erase, Option.mem_def] at found
    split at found
    · cases found
    · exact kept other found same
  | lookup => exact kept

theorem Retired.exec {code : JoinCode} (retired : Retired code key issuedAt store)
    (fenced : Fenced now key issuedAt store) (passed : now ≤ op.now) :
    Retired code key issuedAt (directory.exec op store) := by
  have step : Step op store (handle op store).1 (directory.exec op store) := handle_ensures op store
  generalize directory.exec op store = next at step ⊢
  generalize (handle op store).1 = r at step
  cases step with
  | committed asks => exact asks.retired fenced passed retired
  | unchanged => exact retired
  | refused => exact retired
  | unsure => exact retired

theorem Retired.run {code : JoinCode} {ops : List (DirectoryOp Addr)} :
    ∀ {store : DirectoryStore Addr} {now : U64}, (∀ op ∈ ops, now ≤ op.now) →
      ops.Pairwise (fun first second => first.now ≤ second.now) → Fenced now key issuedAt store →
      Retired code key issuedAt store → Retired code key issuedAt (directory.run ops store) := by
  induction ops with
  | nil => exact fun _ _ _ retired => retired
  | cons op ops ih =>
    intro store now passed clock fenced retired
    have first := passed op List.mem_cons_self
    obtain ⟨later, clock⟩ := List.pairwise_cons.mp clock
    exact ih later clock (fenced.exec first) (retired.exec fenced first)

theorem retired_of_forget {request : DirForget}
    (h : acceptedBy op store = some (.forget request)) :
    Retired request.joinCode request.key request.issuedAt (directory.exec op store) := by
  obtain ⟨same, ads, watermarks, asks, written, _⟩ := acceptedBy_spec h
  intro ad found _
  rw [written] at found
  generalize op.request = asked at same asks
  cases asks with
  | put => cases same
  | forget =>
    cases same
    rw [Map.get_erase, if_pos rfl] at found
    cases found
  | lookup => cases same

theorem live_exec {code : JoinCode} {ad : DirectoryAd Addr} (found : store.ads[code]? = some ad)
    (live : isExpired ad.issuedAt op.now = false)
    (other : ∀ signed, op.request.signed = some signed → signed.key.peerId ≠ ad.peerId) :
    (directory.exec op store).ads[code]? = some ad := by
  have kept : (store.prunedAds op.now)[code]? = some ad := by
    rw [get_prunedAds, found]
    simp [live]
  have step : Step op store (handle op store).1 (directory.exec op store) := handle_ensures op store
  generalize directory.exec op store = next at step ⊢
  generalize (handle op store).1 = r at step
  cases step with
  | committed asks =>
    generalize op.request = asked at other asks
    cases asks with
    | put _ owner =>
      refine (Map.get_insert_ne _ _ ?_).trans kept
      rintro rfl
      exact other _ rfl (owner ad kept).symm
    | forget owner =>
      refine (Map.get_erase_ne _ ?_).trans kept
      rintro rfl
      exact other _ rfl (owner ad kept).1.symm
    | lookup => exact kept
  | unchanged => exact found
  | refused => exact found
  | unsure => exact found

/-- Requests of any kind and any repetition, under a clock that does not run
backwards: for one peer and vault the accepted ones are newer and newer, so none
is accepted twice; a forgotten code does not lead back to an advertisement as old
as the request that retired it; and nobody touches a live code of another peer. -/
theorem directory_replay_safe (store : DirectoryStore Addr) (ops : List (DirectoryOp Addr))
    (clock : ops.Pairwise fun first second => first.now ≤ second.now) :
    ((accepted ops store).Pairwise fun first second =>
      first.key = second.key → first.issuedAt < second.issuedAt) ∧
    (accepted ops store).Nodup ∧
    (∀ before op after request, ops = before ++ op :: after →
      acceptedBy op (directory.run before store) = some (.forget request) →
      ∀ ad ∈ (directory.run ops store).ads[request.joinCode]?, ad.key = request.key →
        request.issuedAt < ad.issuedAt) ∧
    ∀ before op after, ops = before ++ op :: after →
      ∀ (code : JoinCode) (ad : DirectoryAd Addr),
        (directory.run before store).ads[code]? = some ad → isExpired ad.issuedAt op.now = false →
        (∀ signed, op.request.signed = some signed → signed.key.peerId ≠ ad.peerId) →
        (directory.run (before ++ [op]) store).ads[code]? = some ad := by
  have increasing := accepted_increasing store clock
  refine ⟨increasing, increasing.imp fun newer same => ?_, ?_, ?_⟩
  · subst same
    exact lt_irrefl _ (newer rfl)
  · rintro before op after request rfl h
    rw [Machine.run_append, Machine.run_cons]
    obtain ⟨_, clock, _⟩ := List.pairwise_append.mp clock
    obtain ⟨later, clock⟩ := List.pairwise_cons.mp clock
    exact Retired.run later clock (fenced_of_accepted h) (retired_of_forget h)
  · rintro before op after rfl code ad found live other
    rw [Machine.run_append]
    exact live_exec found live other

end DirectoryStore

/-! A host advertises a code, retires it, and the advertisement is sent again. -/

namespace DirectoryStore

local instance : Primitives := Primitives.plain

private def advertised : DirectoryAd Loopback :=
  let unsigned : DirectoryAd Loopback := {
    peerId := Encoding.peerId [4]
    vaultId := ⟨2⟩
    addr := .v6
    ek := [3]
    vk := [4]
    issuedAt := 5
    signature := [] }
  { unsigned with signature :=
      ((directoryAdM unsigned).toOption.map (mlDsaSign [4] .directory)).getD [] }

private def retiring : DirForget :=
  let unsigned : DirForget := {
    peerId := Encoding.peerId [4]
    vaultId := ⟨2⟩
    joinCode := ⟨7⟩
    issuedAt := 6
    signature := [] }
  { unsigned with signature := mlDsaSign [4] .directory (dirForgetM unsigned) }

private def replayed : List (DirectoryOp Loopback) :=
  [⟨5, .put ⟨7⟩ advertised, .written⟩, ⟨6, .forget retiring, .written⟩,
    ⟨6, .put ⟨7⟩ advertised, .written⟩]

theorem directory_replay_safe_replayed :
    accepted replayed ⟨∅, ∅, false, none⟩ = [.put advertised, .forget retiring] ∧
      (accepted replayed ⟨∅, ∅, false, none⟩).Nodup :=
  ⟨by decide +kernel, (directory_replay_safe ⟨∅, ∅, false, none⟩ replayed (by decide)).2.1⟩

end DirectoryStore

end QuantumFs.Net
