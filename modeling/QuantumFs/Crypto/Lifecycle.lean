import QuantumFs.Crypto.Moves
import QuantumFs.Lib.Machine

/-! A key store over its whole life: calls in any order, writes that fail, and
processes that end and open the state file again (`KeyStore::open`). -/
namespace QuantumFs.Crypto

open Lib Encoding

namespace KeyStore

def restoreWatermark (table : Map PeerId Nat) (entry : PeerId × Nat) :
    Result (Map PeerId Nat) := do
  ensure (¬ (entry.2 = 0 ∨ table[entry.1]? ≠ none)) (.invalidInput "invalid persisted epoch watermark")
  pure (table.insert entry.1 entry.2)

section

variable [Primitives]

def restorePeer (store : KeyStore) (peer : IdentityDocument) : Result KeyStore := do
  verifyIdentity peer
  ensure (¬ (peer.peerId = store.localId ∨ store.peers[peer.peerId]? ≠ none))
    (.invalidInput "duplicate or local persisted peer")
  pure { store with peers := store.peers.insert peer.peerId peer }

/-- A stored wrap names the two peers and is signed by the one that made it. -/
def verifyStored (store : KeyStore) (seen : OrdSet PeerId) (pair : PersistedPair) :
    Result Unit := do
  let peer ← okOr store.peers[pair.peerId]? .authenticationFailed
  let signer ←
    if pair.initiator = store.localId then pure store.identity.document
    else if pair.initiator = peer.peerId then pure peer
    else .error .authenticationFailed
  ensure (pair.epoch = pair.wrap.epoch ∧ pair.wrap.minId = min store.localId peer.peerId ∧
      pair.wrap.maxId = max store.localId peer.peerId ∧ pair.peerId ∉ seen)
    .authenticationFailed
  let signed ← wrapM pair.wrap
  mlDsaVerify signer.vk .wrap signed pair.wrap.signature

def restorePair (store : KeyStore) (pair : PersistedPair) : Result KeyStore := do
  store.verifyStored ∅ pair
  ensure (store.pairs[pair.peerId]? = none) (.invalidInput "duplicate persisted pair")
  pure ({ store with pairs := store.pairs.insert pair.peerId pair }.raiseWatermark pair.peerId
    pair.epoch)

/-- A candidate does not survive a restart; it only raises the floor. -/
def restoreCandidate (state : KeyStore × OrdSet PeerId) (candidate : PersistedPair) :
    Result (KeyStore × OrdSet PeerId) := do
  state.1.verifyStored state.2 candidate
  pure (state.1.raiseWatermark candidate.peerId candidate.epoch, state.2.insert candidate.peerId)

/-- The store of a state file. No key of an earlier process is activated. -/
def restore (identity : LocalIdentity) (instanceId : Fin (2 ^ 256)) (persisted : PersistedState) :
    Result KeyStore := do
  ensure (persisted.localId = identity.document.peerId) .authenticationFailed
  let table ← persisted.epochWatermarks.foldlM restoreWatermark ∅
  let empty := { opened identity instanceId with
    nextSlot := persisted.nextSlot
    epochWatermarks := table }
  let known ← persisted.peers.foldlM restorePeer empty
  let paired ← persisted.pairs.foldlM restorePair known
  ensure (persisted.candidates.length ≤ maxAdmissionCandidates)
    (.invalidInput "too many persisted admission candidates")
  let (store, _) ← persisted.candidates.foldlM restoreCandidate (paired, ∅)
  pure store

end

/-- The peers that a process prepares a fresh wrap for when it opens the store. -/
def knownPairs (store : KeyStore) : List IdentityDocument :=
  (Map.vals store.peers).filter fun peer =>
    decide (store.pairs[peer.peerId]? ≠ none ∨ store.localId < peer.peerId)

def peerEpoch (store : KeyStore) (peer : PeerId) : Result Nat := do
  store.lock
  pure (store.watermark peer)

end KeyStore

structure OpenEnv where
  instanceId : Fin (2 ^ 256)
  reads : Bool
  /-- A write that reported an error may have replaced the file all the same. -/
  renamed : Bool
  persists : Bool
  create : PeerId → KeyEnv

def OpenEnv.stateFile (env : OpenEnv) (store : KeyStore) : Option PersistedState :=
  if store.failed = true ∧ env.renamed = true then some store.snapshot else store.disk

/-- A store and the epochs of the wraps it has made, the latest first. A process
without a store is one whose store refuses every call. -/
structure PairRun where
  store : KeyStore
  created : List (PeerId × Nat)

section

variable [Primitives]

open KeyStore

def PairRun.lift {α : Type} (op : Action Error KeyStore α) : Action Error PairRun α :=
  Action.zoom PairRun.store (fun store run => { run with store }) op

def recorded (peer : PeerId) : Result (PairSession × WrapMessage) → List (PeerId × Nat)
  | .ok (_, message) => [(peer, message.epoch)]
  | .error _ => []

def PairRun.create (env : KeyEnv) (peer : PeerId) (ek : Bytes) (epoch : Nat) :
    Action Error PairRun Unit := do
  let made ← PairRun.lift (KeyStore.create env peer ek epoch)
  Action.modify fun run => { run with created := (peer, made.2.epoch) :: run.created }

def prepareWraps (env : PeerId → KeyEnv) : List IdentityDocument → Action Error PairRun Unit
  | [] => pure ()
  | peer :: rest => do
      let next ← Action.query fun run => run.store.nextEpoch peer.peerId
      PairRun.create (env peer.peerId) peer.peerId peer.ek next
      prepareWraps env rest

/-- The file is written once without the keys of the earlier process before fresh
epochs are prepared. -/
def openRestored (env : OpenEnv) : Action Error PairRun Unit := do
  PairRun.lift (persist env.persists)
  let run ← Action.get
  prepareWraps env.create run.store.knownPairs

def PairRun.poison (run : PairRun) : PairRun := { run with store := { run.store with failed := true } }

def reopen (env : OpenEnv) (run : PairRun) : PairRun :=
  let file := env.stateFile run.store
  let loaded : Result KeyStore := do
    ensure (env.reads = true) .io
    match file with
    | none => pure (opened run.store.identity env.instanceId)
    | some persisted => restore run.store.identity env.instanceId persisted
  match loaded with
  | .error _ => { run with store := { run.store with disk := file } }.poison
  | .ok store =>
    match openRestored env { run with store := { store with disk := file } } with
    | (.ok _, next) => next
    | (.error _, next) => next.poison

inductive PairOp where
  | create (env : KeyEnv) (peer : PeerId) (ek : Bytes) (epoch : Nat)
  | createCandidate (env : KeyEnv) (peer : PeerId) (ek : Bytes) (epoch : Nat)
  | unwrap (env : KeyEnv) (sender : PeerId) (message : WrapMessage)
  | unwrapCandidate (env : KeyEnv) (sender : PeerId) (message : WrapMessage)
  | promoteCandidate (env : KeyEnv) (peer : PeerId) (epoch : Nat)
  | discardCandidate (env : KeyEnv) (peer : PeerId)
  | retryCollision (env : KeyEnv) (peer : PeerId)
  | retryCandidateCollision (discard env : KeyEnv) (peer : PeerId)
  | retire (env : KeyEnv) (handle : PairKeyHandle)
  | discardPair (env : KeyEnv) (peer : PeerId)
  | importPeer (env : KeyEnv) (document : IdentityDocument)
  | observeRemoteEpoch (env : KeyEnv) (peer : PeerId) (epoch : Nat)
  | aeadSeal (handle : PairKeyHandle) (nonce aad plaintext : Bytes)
  | aeadOpen (handle : PairKeyHandle) (nonce aad ciphertext : Bytes)
  | reopen (env : OpenEnv)

/-- An import that succeeds and changes the pair of its peer has made a wrap. -/
def rewrapped (peer : PeerId) (before after : KeyStore) : Result Unit → List (PeerId × Nat)
  | .ok _ =>
    match after.pairs[peer]? with
    | some pair => if before.pairs[peer]? = some pair then [] else [(peer, pair.epoch)]
    | none => []
  | .error _ => []

def PairRun.made {α : Type} (run : PairRun) (outcome : Result α × KeyStore)
    (epochs : List (PeerId × Nat)) : PairRun :=
  { store := outcome.2, created := epochs ++ run.created }

def perform (run : PairRun) : PairOp → PairRun
  | .create env peer ek epoch =>
    let outcome := KeyStore.create env peer ek epoch run.store
    run.made outcome (recorded peer outcome.1)
  | .createCandidate env peer ek epoch =>
    let outcome := KeyStore.createCandidate env peer ek epoch run.store
    run.made outcome (recorded peer outcome.1)
  | .unwrap env sender message => run.made (KeyStore.unwrap env sender message run.store) []
  | .unwrapCandidate env sender message =>
    run.made (KeyStore.unwrapCandidate env sender message run.store) []
  | .promoteCandidate env peer epoch =>
    run.made (KeyStore.promoteCandidate env peer epoch run.store) []
  | .discardCandidate env peer => run.made (KeyStore.discardCandidate env peer run.store) []
  | .retryCollision env peer =>
    let outcome := KeyStore.retryCollision env peer run.store
    run.made outcome (recorded peer outcome.1)
  | .retryCandidateCollision discard env peer =>
    let outcome := KeyStore.retryCandidateCollision discard env peer run.store
    run.made outcome (recorded peer outcome.1)
  | .retire env handle => run.made (KeyStore.retire env handle run.store) []
  | .discardPair env peer => run.made (KeyStore.discardPair env peer run.store) []
  | .importPeer env document =>
    let outcome := KeyStore.importPeer env document run.store
    run.made outcome (rewrapped document.peerId run.store outcome.2 outcome.1)
  | .observeRemoteEpoch env peer epoch =>
    run.made (KeyStore.observeRemoteEpoch env peer epoch run.store) []
  | .aeadSeal handle nonce aad plaintext =>
    run.made (KeyStore.aeadSeal handle nonce aad plaintext run.store) []
  | .aeadOpen handle nonce aad ciphertext =>
    run.made (KeyStore.aeadOpen handle nonce aad ciphertext run.store) []
  | .reopen env => QuantumFs.Crypto.reopen env run

def lifecycle : Machine PairRun PairOp := ⟨fun op run => perform run op⟩

/-- The first process of a member. -/
def PairRun.first (identity : LocalIdentity) (instanceId : Fin (2 ^ 256)) : PairRun where
  store := opened identity instanceId
  created := []

end

end QuantumFs.Crypto
