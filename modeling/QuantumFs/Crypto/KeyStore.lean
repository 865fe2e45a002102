import QuantumFs.Crypto.ReplayWindow
import QuantumFs.Encoding.Wire

/-! The keystore of one member (`keystore.rs`), the pair keys with their counters
and replay windows (`crypto/aead.rs`) and the signed key wraps that install them
(`crypto/wrap.rs`). Clones of a keystore share one state, so it is one value
that every caller threads; entropy and the outcome of each file write are
arguments. -/
namespace QuantumFs.Crypto

open Lib Encoding

inductive SigningContext where
  | identity
  | wrap
  | manifest
  | flush
  | directory
  | join
deriving DecidableEq

def SigningContext.bytes : SigningContext → Bytes
  | .identity => ascii "qfs/v1/id"
  | .wrap => ascii "qfs/v1/wrap"
  | .manifest => ascii "qfs/v1/manifest"
  | .flush => ascii "qfs/v1/flush"
  | .directory => ascii "qfs/v1/dir"
  | .join => ascii "qfs/v1/join"

section

variable [Primitives]

def mlDsaSign (seed : Bytes) (context : SigningContext) (message : Bytes) : Bytes :=
  Primitives.sign seed context.bytes message

def mlDsaVerify (vk : Bytes) (context : SigningContext) (message signature : Bytes) :
    Result Unit :=
  ensure (Primitives.verify vk context.bytes message signature = true) .authenticationFailed

/-- A document whose principal, signature and encapsulation key all check. -/
def verifyIdentity (document : IdentityDocument) : Result Unit := do
  ensure (Primitives.validPublicKey document.ek = true) .authenticationFailed
  ensure (document.peerId = peerId document.vk) .authenticationFailed
  let message ← identityM document
  mlDsaVerify document.vk .identity message document.signature

end

structure LocalIdentity where
  document : IdentityDocument
  signingKey : Bytes
  decapsulationKey : Bytes
deriving DecidableEq

/-- A self-signed identity over the two private seeds. -/
def LocalIdentity.new [Primitives] (signingKey decapsulationKey : Bytes) (createdAt : U64) :
    Result LocalIdentity := do
  let vk := Primitives.verificationKey signingKey
  let unsigned : IdentityDocument :=
    { peerId := Encoding.peerId vk
      ek := Primitives.publicKey decapsulationKey
      vk
      createdAt
      signature := [] }
  let message ← identityM unsigned
  pure {
    document := { unsigned with signature := mlDsaSign signingKey .identity message }
    signingKey
    decapsulationKey }

structure PairKeyHandle where
  slot : Nat
  storeId : Fin (2 ^ 256)
deriving DecidableEq

structure PairSession where
  peerId : PeerId
  epoch : Nat
  keyHandle : PairKeyHandle
deriving DecidableEq

structure ReplayWindowKey where
  peerId : PeerId
  epoch : Nat
  direction : Direction
  payloadType : PayloadType
deriving DecidableEq

/-- The derived order of the source: field by field, variants in their order. -/
def ReplayWindowKey.toTuple (key : ReplayWindowKey) : PeerId ×ₗ Nat ×ₗ Bool ×ₗ Bool :=
  toLex (key.peerId, toLex (key.epoch, toLex (key.direction == .outbound,
    key.payloadType == .chunkBody)))

instance : LinearOrder ReplayWindowKey :=
  LinearOrder.lift' ReplayWindowKey.toTuple fun a b h => by
    obtain ⟨peer, epoch, direction, payload⟩ := a
    obtain ⟨peer', epoch', direction', payload'⟩ := b
    simp only [ReplayWindowKey.toTuple, toLex_inj, Prod.mk.injEq] at h
    obtain ⟨rfl, rfl, hd, hp⟩ := h
    have direction_eq : direction = direction' := by
      cases direction <;> cases direction' <;> first | rfl | cases hd
    have payload_eq : payload = payload' := by
      cases payload <;> cases payload' <;> first | rfl | cases hp
    rw [direction_eq, payload_eq]

structure PairKeyState where
  key : Bytes
  peerId : PeerId
  epoch : Nat
  sendPacket : Option Nat
  sendChunk : Option Nat
  replay : Map ReplayWindowKey ReplayWindowState

namespace PairKeyState

def new (key : Bytes) (peer : PeerId) (epoch : Nat) : PairKeyState where
  key := key
  peerId := peer
  epoch := epoch
  sendPacket := none
  sendChunk := none
  replay := ∅

def lastSent (state : PairKeyState) : PayloadType → Option Nat
  | .packet => state.sendPacket
  | .chunkBody => state.sendChunk

def recordSent (state : PairKeyState) : PayloadType → Nat → PairKeyState
  | .packet, seq => { state with sendPacket := some seq }
  | .chunkBody, seq => { state with sendChunk := some seq }

def reserveSend (payloadType : PayloadType) (seq : Nat) : Action Error PairKeyState Unit := do
  let state ← Action.get
  Action.require (∀ last ∈ state.lastSent payloadType, last < seq)
    (.state "AEAD send counter must strictly increase")
  Action.modify fun state => state.recordSent payloadType seq

def nextOutboundSeq (state : PairKeyState) (payloadType : PayloadType) : Result Nat :=
  match state.lastSent payloadType with
  | some last => checkedAdd last 1 (.state "AEAD send counter exhausted")
  | none => .ok 1

def window (state : PairKeyState) (key : ReplayWindowKey) : ReplayWindowState :=
  state.replay[key]?.getD ReplayWindowState.empty

/-- `entry(key).or_default().check(seq)`: the entry stays behind when the check
fails. -/
def checkReplay (key : ReplayWindowKey) (seq : Nat) : Action Error PairKeyState Unit := do
  Action.modify fun state => { state with replay := state.replay.insert key (state.window key) }
  Action.query fun state => (state.window key).check seq

def acceptReplay (key : ReplayWindowKey) (seq : Nat) : Action Error PairKeyState Unit := do
  let state ← Action.get
  let next ← Action.ofExcept ((state.window key).accept seq)
  Action.modify fun state => { state with replay := state.replay.insert key next }

def validateHeader (localId : PeerId) (state : PairKeyState) (header : PacketHeader)
    (payloadType : PayloadType) (bytes : Bytes) (direction : Direction) :
    Result ReplayWindowKey := do
  ensure (header.version = protocolVersion) (.invalidInput "unsupported packet version")
  let endpointsMatch : Bool := match direction with
    | .outbound => header.senderId = localId ∧ header.receiverId = state.peerId
    | .inbound => header.senderId = state.peerId ∧ header.receiverId = localId
  ensure (endpointsMatch = true ∧ header.epoch = state.epoch)
    (.invalidInput "AAD does not match pair key")
  ensure (bytes = nonce header payloadType) (.invalidInput "nonce does not match AAD")
  pure { peerId := state.peerId, epoch := state.epoch, direction, payloadType }

end PairKeyState

structure PersistedPair where
  peerId : PeerId
  epoch : Nat
  initiator : PeerId
  wrap : WrapMessage
deriving DecidableEq

structure PersistedKey where
  slot : Nat
  peerId : PeerId
  epoch : Nat
  key : Bytes
deriving DecidableEq

structure PersistedState where
  localId : PeerId
  nextSlot : Nat
  peers : List IdentityDocument
  pairs : List PersistedPair
  candidates : List PersistedPair
  keys : List PersistedKey
  epochWatermarks : List (PeerId × Nat)
deriving DecidableEq

def maxAdmissionCandidates : Nat := 32

structure KeyStore where
  identity : LocalIdentity
  peers : Map PeerId IdentityDocument
  pairs : Map PeerId PersistedPair
  candidates : Map PeerId PersistedPair
  keys : Map Nat PairKeyState
  retryEpochs : Map PeerId Nat
  candidateRetryEpochs : Map PeerId Nat
  epochWatermarks : Map PeerId Nat
  instanceId : Fin (2 ^ 256)
  nextSlot : Nat
  mailboxGates : Map PeerId (OrdSet Nat)
  admittedPairs : Map PeerId Nat
  /-- The pair state file. -/
  disk : Option PersistedState
  failed : Bool

/-- What the operating system answers during one call: fresh bytes, if entropy is
available, and whether the state file is replaced. -/
structure KeyEnv where
  pairKey : Option Bytes
  kemRandomness : Option Bytes
  persists : Bool
  rewraps : Bool

namespace KeyStore

/-- `KeyStore::open` when no pair state file exists yet. -/
def opened (identity : LocalIdentity) (instanceId : Fin (2 ^ 256)) : KeyStore where
  identity := identity
  peers := ∅
  pairs := ∅
  candidates := ∅
  keys := ∅
  retryEpochs := ∅
  candidateRetryEpochs := ∅
  epochWatermarks := ∅
  instanceId := instanceId
  nextSlot := 0
  mailboxGates := ∅
  admittedPairs := ∅
  disk := none
  failed := false

def lock (store : KeyStore) : Result Unit :=
  ensure (store.failed = false) (.state "keystore persistence failed; reopen required")

def localId (store : KeyStore) : PeerId := store.identity.document.peerId

def peerId (store : KeyStore) : Result PeerId := do
  store.lock
  pure store.localId

def identityDocument (store : KeyStore) : Result IdentityDocument := do
  store.lock
  pure store.identity.document

def signingKey (store : KeyStore) : Result Bytes := do
  store.lock
  pure store.identity.signingKey

def loadVerifiedPeer (store : KeyStore) (peer : PeerId) : Result IdentityDocument := do
  store.lock
  okOr store.peers[peer]? .keyUnavailable

def watermark (store : KeyStore) (peer : PeerId) : Nat := store.epochWatermarks[peer]?.getD 0

def nextEpoch (store : KeyStore) (peer : PeerId) : Result Nat := do
  store.lock
  checkedAdd (store.watermark peer) 1 (.state "epoch exhausted")

/-- `StoreInner::session`: the first slot of this peer and epoch. -/
def innerSession (store : KeyStore) (peer : PeerId) (epoch : Nat) : Result PairSession := do
  let entry ← okOr
    (store.keys.toList.find? fun (_, state) => state.peerId = peer ∧ state.epoch = epoch)
    .keyUnavailable
  pure { peerId := peer, epoch, keyHandle := { slot := entry.1, storeId := store.instanceId } }

def currentSession (store : KeyStore) (peer : PeerId) : Result PairSession := do
  store.lock
  let pair ← okOr store.pairs[peer]? .keyUnavailable
  store.innerSession peer pair.epoch

def candidateSession (store : KeyStore) (peer : PeerId) : Result PairSession := do
  store.lock
  let candidate ← okOr store.candidates[peer]? .keyUnavailable
  store.innerSession peer candidate.epoch

def gateOwners (store : KeyStore) (peer : PeerId) : OrdSet Nat :=
  store.mailboxGates[peer]?.getD ∅

def blockLiveTraffic (peer : PeerId) (owner : Nat) : Action Error KeyStore Unit := do
  Action.query lock
  Action.modify fun store => { store with
    mailboxGates := store.mailboxGates.insert peer ((store.gateOwners peer).insert owner) }

def unblockLiveTraffic (peer : PeerId) (owner : Nat) : Action Error KeyStore Unit := do
  Action.query lock
  Action.modify fun store =>
    match store.mailboxGates[peer]? with
    | none => store
    | some owners =>
      let left := owners.erase owner
      if left.isEmpty then
        { store with mailboxGates := store.mailboxGates.erase peer }
      else
        { store with mailboxGates := store.mailboxGates.insert peer left }

def ownsLiveGate (store : KeyStore) (peer : PeerId) (owner : Nat) : Result Bool := do
  store.lock
  pure (decide (owner ∈ store.gateOwners peer))

def requireLiveTraffic (store : KeyStore) (peer : PeerId) : Result Unit := do
  store.lock
  ensure ((store.gateOwners peer).isEmpty = true)
    (.state "live traffic blocked until mailbox drain")

def withPairState {α : Type} (handle : PairKeyHandle) (operation : Action Error PairKeyState α) :
    Action Error KeyStore α := do
  Action.query lock
  let store ← Action.get
  Action.require (handle.storeId = store.instanceId) .keyUnavailable
  let state ← Action.ofExcept (okOr store.keys[handle.slot]? .keyUnavailable)
  Action.zoom (fun _ => state)
    (fun next store => { store with keys := store.keys.insert handle.slot next }) operation

def nextOutboundSeq (store : KeyStore) (handle : PairKeyHandle) (payloadType : PayloadType) :
    Result Nat := do
  store.lock
  ensure (handle.storeId = store.instanceId) .keyUnavailable
  let state ← okOr store.keys[handle.slot]? .keyUnavailable
  state.nextOutboundSeq payloadType

section

variable [Primitives]

/-- `seal` inside the slot: the counter is spent before the cipher runs. -/
def sealState (localId : PeerId) (header : PacketHeader) (payloadType : PayloadType)
    (nonce aad plaintext : Bytes) : Action Error PairKeyState Bytes := do
  let state ← Action.get
  let _ ← Action.ofExcept (state.validateHeader localId header payloadType nonce .outbound)
  PairKeyState.reserveSend payloadType header.seq
  pure (gcmEncrypt state.key nonce aad plaintext)

def aeadSeal (handle : PairKeyHandle) (nonce aad plaintext : Bytes) :
    Action Error KeyStore Bytes := do
  let localId ← Action.query peerId
  let (header, payloadType) ← Action.ofExcept (decodeAad aad)
  withPairState handle (sealState localId header payloadType nonce aad plaintext)

/-- `open` inside the slot: the window records the counter only after the tag
has been verified. -/
def openState (localId : PeerId) (header : PacketHeader) (payloadType : PayloadType)
    (nonce aad ciphertext : Bytes) : Action Error PairKeyState Bytes := do
  let state ← Action.get
  let key ← Action.ofExcept (state.validateHeader localId header payloadType nonce .inbound)
  PairKeyState.checkReplay key header.seq
  let plaintext ← Action.ofExcept
    (okOr (gcmDecrypt state.key nonce aad ciphertext) .authenticationFailed)
  PairKeyState.acceptReplay key header.seq
  pure plaintext

def aeadOpen (handle : PairKeyHandle) (nonce aad ciphertext : Bytes) :
    Action Error KeyStore Bytes := do
  let localId ← Action.query peerId
  let (header, payloadType) ← Action.ofExcept (decodeAad aad)
  withPairState handle (openState localId header payloadType nonce aad ciphertext)

end

def snapshot (store : KeyStore) : PersistedState where
  localId := store.localId
  nextSlot := store.nextSlot
  peers := Map.vals store.peers
  pairs := Map.vals store.pairs
  candidates := Map.vals store.candidates
  keys := store.keys.toList.map fun (slot, state) =>
    { slot, peerId := state.peerId, epoch := state.epoch, key := state.key }
  epochWatermarks := store.epochWatermarks.toList

/-- A failed write poisons the store until it is opened again. -/
def persist (ok : Bool) : Action Error KeyStore Unit := fun store =>
  if ok then (.ok (), { store with disk := some store.snapshot })
  else (.error .io, { store with failed := true })

def raiseWatermark (store : KeyStore) (peer : PeerId) (epoch : Nat) : KeyStore :=
  { store with epochWatermarks := store.epochWatermarks.insert peer (max (store.watermark peer) epoch) }

def dropKeys (store : KeyStore) (peer : PeerId) (epoch : Nat) : KeyStore :=
  { store with keys := store.keys.filter fun _ state => decide (¬ (state.peerId = peer ∧ state.epoch = epoch)) }

def takeSlot : Action Error KeyStore Nat := do
  let store ← Action.get
  let next ← Action.ofExcept (checkedAdd store.nextSlot 1 (.state "keystore slots exhausted"))
  Action.modify fun store => { store with nextSlot := next }
  pure store.nextSlot

def install (env : KeyEnv) (peer initiator : PeerId) (message : WrapMessage) (key : Bytes) :
    Action Error KeyStore PairSession := do
  let epoch := message.epoch
  let slot ← takeSlot
  -- Competing wraps for one epoch cannot leave two active keys or counter domains.
  Action.modify fun store => store.dropKeys peer epoch
  Action.modify fun store =>
    { store with keys := store.keys.insert slot (PairKeyState.new key peer epoch) }
  Action.modify fun store => store.raiseWatermark peer epoch
  Action.modify fun store =>
    { store with pairs := store.pairs.insert peer { peerId := peer, epoch, initiator, wrap := message } }
  persist env.persists
  Action.query fun store => store.innerSession peer epoch

def installCandidate (env : KeyEnv) (peer initiator : PeerId) (message : WrapMessage)
    (key : Bytes) : Action Error KeyStore PairSession := do
  let store ← Action.get
  Action.require (store.candidates[peer]? = none)
    (.state "peer admission candidate already exists")
  Action.require (store.candidates.size < maxAdmissionCandidates)
    (.state "too many retained admission candidates")
  let epoch := message.epoch
  let slot ← takeSlot
  Action.modify fun store =>
    { store with keys := store.keys.insert slot (PairKeyState.new key peer epoch) }
  Action.modify fun store => store.raiseWatermark peer epoch
  Action.modify fun store => { store with
    candidates := store.candidates.insert peer { peerId := peer, epoch, initiator, wrap := message } }
  persist env.persists
  Action.query fun store => store.innerSession peer epoch

section

variable [Primitives]

def deriveWrapKey (secret : Bytes) (minId maxId : PeerId) (epoch : Nat) : Result Bytes := do
  let info ← wrapHkdfInfo minId maxId epoch
  pure (hkdf secret info)

def entropy (bytes : Option Bytes) : Result Bytes :=
  okOr bytes (.state "OS entropy unavailable")

def clearRetry (store : KeyStore) (peer : PeerId) (candidate : Bool) : KeyStore :=
  if candidate then { store with candidateRetryEpochs := store.candidateRetryEpochs.erase peer }
  else { store with retryEpochs := store.retryEpochs.erase peer }

def installAs (env : KeyEnv) (candidate : Bool) (peer initiator : PeerId) (message : WrapMessage)
    (key : Bytes) : Action Error KeyStore PairSession :=
  if candidate then installCandidate env peer initiator message key
  else install env peer initiator message key

def createInner (env : KeyEnv) (peer : PeerId) (peerEk : Bytes) (epoch : Nat) (candidate : Bool) :
    Action Error KeyStore (PairSession × WrapMessage) := do
  Action.query lock
  let store ← Action.get
  let localId := store.localId
  let document ← Action.ofExcept (okOr store.peers[peer]? .keyUnavailable)
  Action.require (document.ek = peerEk) .authenticationFailed
  Action.require (¬ (candidate = true ∧ store.candidates[peer]? ≠ none))
    (.state "peer admission candidate already exists")
  Action.require (¬ (store.pairs[peer]? = none ∧ peer ≤ localId))
    (.state "smaller peer initiates first contact")
  let next ← Action.ofExcept (checkedAdd (store.watermark peer) 1 (.state "epoch exhausted"))
  Action.require (epoch = next) (.invalidInput "wrap must use the next epoch")
  let minId := min localId peer
  let maxId := max localId peer
  let pairKey ← Action.ofExcept (entropy env.pairKey)
  Action.require (Primitives.validPublicKey peerEk = true) .authenticationFailed
  let randomness ← Action.ofExcept (entropy env.kemRandomness)
  let (secret, kemCt) := encapsulate peerEk randomness
  let wrapKey ← Action.ofExcept (deriveWrapKey secret minId maxId epoch)
  let aad ← Action.ofExcept (wrapAad minId maxId epoch)
  let wrapCt := gcmEncrypt wrapKey wrapGcmNonce aad pairKey
  let unsigned : WrapMessage := { kemCt, wrapCt, epoch, minId, maxId, signature := [] }
  let signed ← Action.ofExcept (wrapM unsigned)
  let message : WrapMessage :=
    { unsigned with signature := mlDsaSign store.identity.signingKey .wrap signed }
  Action.modify fun store => store.clearRetry peer candidate
  let session ← installAs env candidate peer localId message pairKey
  pure (session, message)

def create (env : KeyEnv) (peer : PeerId) (peerEk : Bytes) (epoch : Nat) :
    Action Error KeyStore (PairSession × WrapMessage) :=
  createInner env peer peerEk epoch false

def createCandidate (env : KeyEnv) (peer : PeerId) (peerEk : Bytes) (epoch : Nat) :
    Action Error KeyStore (PairSession × WrapMessage) :=
  createInner env peer peerEk epoch true

/-- How a received wrap relates to the pair or candidate of its sender. -/
inductive WrapStanding where
  | cached
  | fresh
  | collision
  | supersede
deriving DecidableEq

def wrapStanding (store : KeyStore) (existing : Option PersistedPair) (expected : Nat)
    (sender : PeerId) (message : WrapMessage) (candidate : Bool) : Result WrapStanding :=
  match existing with
  | none => do
      ensure (¬ (candidate = false ∧ (store.localId ≤ sender ∨ message.epoch ≠ expected)))
        (.state "invalid first-contact initiator or epoch")
      pure .fresh
  | some previous =>
    if message.epoch < previous.epoch then
      .error (.state "stale wrap epoch")
    else if message.epoch = previous.epoch then
      if previous.initiator = sender ∧ previous.wrap = message then
        pure .cached
      else do
        if previous.initiator ≤ sender then
          let retry ← checkedAdd message.epoch 1 (.state "epoch exhausted")
          .error (.epochConflict retry)
        else
          pure .collision
    else if candidate then
      pure .supersede
    else
      pure .fresh

def openWrap (store : KeyStore) (message : WrapMessage) : Result Bytes := do
  let secret ← okOr (decapsulate store.identity.decapsulationKey message.kemCt)
    .authenticationFailed
  let wrapKey ← deriveWrapKey secret message.minId message.maxId message.epoch
  let aad ← wrapAad message.minId message.maxId message.epoch
  let plaintext ← okOr (gcmDecrypt wrapKey wrapGcmNonce aad message.wrapCt) .authenticationFailed
  ensure (plaintext.length = 32) .authenticationFailed
  pure plaintext

/-- A colliding or superseding candidate takes the place of the one it beats. -/
def replaceCandidate (store : KeyStore) (sender : PeerId) (standing : WrapStanding)
    (candidate : Bool) : KeyStore :=
  if candidate = true ∧ (standing = .supersede ∨ standing = .collision) then
    let dropped := match store.candidates[sender]? with
      | none => store
      | some previous =>
        { store with candidates := store.candidates.erase sender }.dropKeys sender previous.epoch
    if standing = .supersede then
      { dropped with candidateRetryEpochs := dropped.candidateRetryEpochs.erase sender }
    else
      dropped
  else
    store

def recordRetry (store : KeyStore) (sender : PeerId) (candidate : Bool) (retry : Nat) : KeyStore :=
  if candidate then
    { store with candidateRetryEpochs := store.candidateRetryEpochs.insert sender retry }
  else
    { store with retryEpochs := store.retryEpochs.insert sender retry }

/-- The loser of a collision remembers the epoch it has to initiate next. -/
def noteCollision (standing : WrapStanding) (sender : PeerId) (message : WrapMessage)
    (candidate : Bool) : Action Error KeyStore Unit :=
  if standing = .collision then do
    let retry ← Action.ofExcept (checkedAdd message.epoch 1 (.state "epoch exhausted"))
    Action.modify fun store => store.recordRetry sender candidate retry
  else
    pure ()

def unwrapInner (env : KeyEnv) (sender : PeerId) (message : WrapMessage) (candidate : Bool) :
    Action Error KeyStore PairSession := do
  Action.query lock
  let store ← Action.get
  let localId := store.localId
  let document ← Action.ofExcept (okOr store.peers[sender]? .keyUnavailable)
  Action.require (message.minId = min localId sender ∧ message.maxId = max localId sender)
    .authenticationFailed
  let signed ← Action.ofExcept (wrapM message)
  Action.ofExcept (mlDsaVerify document.vk .wrap signed message.signature)
  let existing := if candidate then store.candidates[sender]? else store.pairs[sender]?
  let expected ← Action.ofExcept (checkedAdd (store.watermark sender) 1 (.state "epoch exhausted"))
  let standing ← Action.ofExcept
    (wrapStanding store existing expected sender message candidate)
  if standing = .cached then
    Action.query fun store => store.innerSession sender message.epoch
  else
    Action.require (¬ (candidate = true ∧ standing ≠ .collision ∧ message.epoch < expected))
      (.state "invalid candidate initiator or epoch")
    let key ← Action.ofExcept (openWrap store message)
    noteCollision standing sender message candidate
    Action.modify fun store => store.replaceCandidate sender standing candidate
    installAs env candidate sender sender message key

def unwrap (env : KeyEnv) (sender : PeerId) (message : WrapMessage) :
    Action Error KeyStore PairSession :=
  unwrapInner env sender message false

def unwrapCandidate (env : KeyEnv) (sender : PeerId) (message : WrapMessage) :
    Action Error KeyStore PairSession :=
  unwrapInner env sender message true

def promoteCandidate (env : KeyEnv) (peer : PeerId) (epoch : Nat) :
    Action Error KeyStore PairSession := do
  Action.query lock
  let store ← Action.get
  let candidate ← Action.ofExcept (okOr store.candidates[peer]? .keyUnavailable)
  Action.require (candidate.epoch = epoch) (.state "candidate epoch changed before admission")
  Action.require (∀ confirmed ∈ store.pairs[peer]?, confirmed.epoch < candidate.epoch)
    (.state "candidate is not newer than confirmed pair")
  Action.modify fun store => { store with
    candidates := store.candidates.erase peer
    pairs := store.pairs.insert peer candidate
    candidateRetryEpochs := store.candidateRetryEpochs.erase peer }
  persist env.persists
  Action.query fun store => store.innerSession peer epoch

def discardCandidate (env : KeyEnv) (peer : PeerId) : Action Error KeyStore Unit := do
  Action.query lock
  let store ← Action.get
  match store.candidates[peer]? with
  | none => pure ()
  | some candidate =>
    Action.modify fun store => { store with candidates := store.candidates.erase peer }
    Action.modify fun store => store.dropKeys peer candidate.epoch
    Action.modify fun store =>
      { store with candidateRetryEpochs := store.candidateRetryEpochs.erase peer }
    persist env.persists

def retryCollision (env : KeyEnv) (peer : PeerId) :
    Action Error KeyStore (PairSession × WrapMessage) := do
  Action.query lock
  let store ← Action.get
  let epoch ← Action.ofExcept (okOr store.retryEpochs[peer]? (.state "no losing wrap to retry"))
  let document ← Action.ofExcept (okOr store.peers[peer]? .keyUnavailable)
  create env peer document.ek epoch

def retryCandidateCollision (discard env : KeyEnv) (peer : PeerId) :
    Action Error KeyStore (PairSession × WrapMessage) := do
  Action.query lock
  let store ← Action.get
  let epoch ← Action.ofExcept
    (okOr store.candidateRetryEpochs[peer]? (.state "no losing candidate wrap to retry"))
  let document ← Action.ofExcept (okOr store.peers[peer]? .keyUnavailable)
  discardCandidate discard peer
  createCandidate env peer document.ek epoch

def retire (env : KeyEnv) (handle : PairKeyHandle) : Action Error KeyStore Unit := do
  Action.query lock
  let store ← Action.get
  Action.require (handle.storeId = store.instanceId) .keyUnavailable
  Action.require (store.keys[handle.slot]? ≠ none) .keyUnavailable
  Action.modify fun store => { store with keys := store.keys.erase handle.slot }
  persist env.persists

def discardPair (env : KeyEnv) (peer : PeerId) : Action Error KeyStore Unit := do
  Action.query lock
  Action.modify fun store => { store with
    keys := store.keys.filter fun _ state => state.peerId ≠ peer
    pairs := store.pairs.erase peer
    candidates := store.candidates.erase peer
    retryEpochs := store.retryEpochs.erase peer
    candidateRetryEpochs := store.candidateRetryEpochs.erase peer
    mailboxGates := store.mailboxGates.erase peer
    peers := store.peers.erase peer
    admittedPairs := store.admittedPairs.erase peer }
  persist env.persists

def observeRemoteEpoch (env : KeyEnv) (peer : PeerId) (epoch : Nat) : Action Error KeyStore Unit := do
  Action.query lock
  let store ← Action.get
  Action.require (store.peers[peer]? ≠ none) .keyUnavailable
  if store.watermark peer < epoch then
    Action.modify fun store =>
      { store with epochWatermarks := store.epochWatermarks.insert peer epoch }
    persist env.persists

/-- A new encapsulation key of a known peer is answered with a new epoch; if that
fails the store is poisoned. -/
def importPeer (env : KeyEnv) (document : IdentityDocument) : Action Error KeyStore Unit := do
  Action.ofExcept (verifyIdentity document)
  Action.query lock
  let store ← Action.get
  Action.require (document.peerId ≠ store.localId)
    (.invalidInput "cannot import the local member as a peer")
  let previous := store.peers[document.peerId]?
  Action.require
    (∀ old ∈ previous, ¬ (document ≠ old ∧ document.createdAt ≤ old.createdAt))
    .authenticationFailed
  let rewrap : Bool := match previous with
    | none => false
    | some old => decide (old.ek ≠ document.ek ∧ store.pairs[document.peerId]? ≠ none)
  Action.modify fun store => { store with peers := store.peers.insert document.peerId document }
  persist env.persists
  if rewrap then
    let epoch ← Action.query fun store => store.nextEpoch document.peerId
    let result ← Action.attempt
      (create { env with persists := env.rewraps } document.peerId document.ek epoch)
    match result with
    | .ok _ => pure ()
    | .error error =>
      Action.query lock
      Action.modify fun store => { store with failed := true }
      Action.throw error

end

end KeyStore

end QuantumFs.Crypto
