import QuantumFs.Crypto.Epochs

/-! The wraps that a store keeps for its pairs and candidates, as a handshake asks for them:
which wrap is sent again, and which of two wraps is the newer one. -/
namespace QuantumFs.Crypto

open Lib Encoding

namespace KeyStore

/-- The confirmed pair of a peer, or its candidate. -/
def record (store : KeyStore) (candidate : Bool) (peer : PeerId) : Option PersistedPair :=
  if candidate then store.candidates[peer]? else store.pairs[peer]?

/-- `cached_pair` and `cached_candidate`: the initiator and its wrap. -/
def cached (store : KeyStore) (candidate : Bool) (peer : PeerId) :
    Result (Option (PeerId × WrapMessage)) := do
  store.lock
  pure ((store.record candidate peer).map fun pair => (pair.initiator, pair.wrap))

def cachedPair (peer : PeerId) (store : KeyStore) : Result (Option (PeerId × WrapMessage)) :=
  store.cached false peer

def cachedCandidate (peer : PeerId) (store : KeyStore) : Result (Option (PeerId × WrapMessage)) :=
  store.cached true peer

def retryEpoch (peer : PeerId) (store : KeyStore) : Result (Option Nat) := do
  store.lock
  pure store.retryEpochs[peer]?

def candidateRetryEpoch (peer : PeerId) (store : KeyStore) : Result (Option Nat) := do
  store.lock
  pure store.candidateRetryEpochs[peer]?

/-- `retry`: only a wrap of our own that is still kept is sent again. -/
def retry (message : WrapMessage) (store : KeyStore) : Result WrapMessage := do
  store.lock
  ensure ((Map.vals store.pairs ++ Map.vals store.candidates).any
      fun pair => pair.initiator = store.localId ∧ pair.wrap = message)
    (.state "wrap is not a cached local ciphertext")
  pure message

section

variable {s t : KeyStore} {candidate kind : Bool} {peer : PeerId} {r : PersistedPair}

theorem record_congr (pairs : t.pairs = s.pairs) (candidates : t.candidates = s.candidates) :
    t.record kind peer = s.record kind peer := by
  unfold record
  rw [pairs, candidates]

@[simp] theorem record_written (ok : Bool) (s : KeyStore) :
    (written ok s).record kind peer = s.record kind peer := by
  cases ok <;> rfl

@[simp] theorem record_clearRetry (s : KeyStore) (other : PeerId) (candidate : Bool) :
    (s.clearRetry other candidate).record kind peer = s.record kind peer := by
  cases candidate <;> rfl

theorem record_enter (s : KeyStore) (candidate : Bool) (pair : PersistedPair) (key : Bytes) :
    (s.enter candidate pair key).record kind peer =
      if kind = candidate ∧ pair.peerId = peer then some pair else s.record kind peer := by
  unfold record
  rw [enter_pairs, enter_candidates]
  cases kind <;> cases candidate <;> simp [Map.get_insert]

theorem record_yielded [Primitives] {sender : PeerId} {message : WrapMessage}
    {standing : WrapStanding} (found : (s.yielded sender message standing candidate).record kind peer =
      some r) : s.record kind peer = some r := by
  have quiet := quiet_yielded s sender message standing candidate
  cases kind with
  | true => exact quiet.candidates peer r found
  | false =>
    change (s.yielded sender message standing candidate).pairs[peer]? = some r at found
    rw [quiet.pairs] at found
    exact found

theorem get_erase_record {table : Map PeerId PersistedPair} {other : PeerId}
    (found : (table.erase other)[peer]? = some r) : table[peer]? = some r := by
  rw [Map.get_erase] at found
  split at found
  · cases found
  · exact found

end

/-- A pair or candidate has the epoch of its wrap, which one of its two peers has made. -/
structure Matched (s : KeyStore) : Prop where
  epoch : ∀ (kind : Bool) (peer : PeerId) (r : PersistedPair), s.record kind peer = some r →
    r.wrap.epoch = r.epoch
  initiator : ∀ (kind : Bool) (peer : PeerId) (r : PersistedPair), s.record kind peer = some r →
    r.initiator = s.localId ∨ r.initiator = peer
  known : ∀ (peer : PeerId) (document : IdentityDocument), s.peers[peer]? = some document →
    document.peerId = peer

section

variable {s t : KeyStore}

theorem Matched.fewer (matched : Matched s) (identity : t.identity = s.identity)
    (records : ∀ (kind : Bool) (peer : PeerId) (r : PersistedPair),
      t.record kind peer = some r → s.record kind peer = some r)
    (peers : ∀ (peer : PeerId) (document : IdentityDocument), t.peers[peer]? = some document →
      s.peers[peer]? = some document) : Matched t where
  epoch := fun kind peer r found => matched.epoch kind peer r (records kind peer r found)
  initiator := fun kind peer r found => by
    rw [localId, identity]
    exact matched.initiator kind peer r (records kind peer r found)
  known := fun peer document found => matched.known peer document (peers peer document found)

theorem Matched.written (matched : Matched s) (ok : Bool) : Matched (written ok s) := by
  refine matched.fewer (written_identity ok s) (fun kind peer r found => ?_) fun peer document found => ?_
  · rwa [record_written] at found
  · rwa [written_peers] at found

theorem Matched.enter (matched : Matched s) (candidate : Bool) {pair : PersistedPair}
    (key : Bytes) (epoch : pair.wrap.epoch = pair.epoch)
    (initiator : pair.initiator = s.localId ∨ pair.initiator = pair.peerId) :
    Matched (s.enter candidate pair key) := by
  have identity : (s.enter candidate pair key).localId = s.localId := by
    rw [localId, localId, enter_identity]
  refine ⟨fun kind peer r found => ?_, fun kind peer r found => ?_, fun peer document found => ?_⟩
  · rw [record_enter] at found
    split at found
    · obtain rfl := Option.some.inj found
      exact epoch
    · exact matched.epoch kind peer r found
  · rw [record_enter] at found
    rw [identity]
    split at found
    · rename_i new
      obtain rfl := Option.some.inj found
      exact new.2 ▸ initiator
    · exact matched.initiator kind peer r found
  · rw [enter_peers] at found
    exact matched.known peer document found

theorem Matched.cleared (matched : Matched s) (peer : PeerId) (candidate : Bool) :
    Matched (s.clearRetry peer candidate) := by
  have quiet := quiet_clearRetry s peer candidate
  refine matched.fewer quiet.identity (fun _ _ _ found => ?_) fun _ _ found => quiet.peers ▸ found
  rwa [record_clearRetry] at found

theorem Matched.yielded [Primitives] (matched : Matched s) (sender : PeerId) (message : WrapMessage)
    (standing : WrapStanding) (candidate : Bool) :
    Matched (s.yielded sender message standing candidate) := by
  have quiet := quiet_yielded s sender message standing candidate
  exact matched.fewer quiet.identity (fun _ _ _ found => record_yielded found)
    fun _ _ found => quiet.peers ▸ found

theorem Matched.promoted (matched : Matched s) {peer : PeerId} {candidate : PersistedPair}
    (found : s.candidates[peer]? = some candidate) : Matched { s with
      candidates := s.candidates.erase peer
      pairs := s.pairs.insert peer candidate
      candidateRetryEpochs := s.candidateRetryEpochs.erase peer } := by
  have origin : ∀ (kind : Bool) (other : PeerId) (r : PersistedPair), KeyStore.record { s with
      candidates := s.candidates.erase peer
      pairs := s.pairs.insert peer candidate
      candidateRetryEpochs := s.candidateRetryEpochs.erase peer } kind other = some r →
      ∃ kind, s.record kind other = some r := by
    intro kind other r same
    cases kind with
    | true => exact ⟨true, get_erase_record same⟩
    | false =>
      change (s.pairs.insert peer candidate)[other]? = some r at same
      rw [Map.get_insert] at same
      split at same
      · rename_i isPeer
        exact ⟨true, isPeer ▸ same ▸ found⟩
      · exact ⟨false, same⟩
  refine ⟨fun kind other r same => ?_, fun kind other r same => ?_, matched.known⟩
  · obtain ⟨kind, before⟩ := origin kind other r same
    exact matched.epoch kind other r before
  · obtain ⟨kind, before⟩ := origin kind other r same
    exact matched.initiator kind other r before

theorem Matched.imported (matched : Matched s) (document : IdentityDocument) :
    Matched { s with peers := s.peers.insert document.peerId document } := by
  refine ⟨matched.epoch, matched.initiator, fun peer other found => ?_⟩
  change (s.peers.insert document.peerId document)[peer]? = some other at found
  rw [Map.get_insert] at found
  split at found
  · rename_i same
    obtain rfl := Option.some.inj found
    exact same
  · exact matched.known peer other found

variable [Primitives]

theorem Move.matched (move : Move s t) (matched : Matched s) : Matched t := by
  cases move with
  | refused => exact matched
  | cleared peer candidate => exact matched.cleared peer candidate
  | created ok _ own _ wrap _ _ =>
    refine Matched.written (Matched.enter (matched.cleared _ _) _ _ wrap (.inl ?_)) ok
    rw [own]
    exact (quiet_clearRetry _ _ _).localId.symm
  | yielded _ _ => exact matched.yielded _ _ _ _
  | unwrapped ok _ _ =>
    exact Matched.written (Matched.enter (matched.yielded _ _ _ _) _ _ rfl (.inr rfl)) ok
  | promoted ok _ found _ => exact (matched.promoted found).written ok
  | discarded ok _ _ =>
    refine Matched.written ?_ ok
    refine matched.fewer rfl (fun kind _ _ found => ?_) fun _ _ found => found
    cases kind with
    | true => exact get_erase_record found
    | false => exact found
  | retired _ ok _ =>
    refine Matched.written ?_ ok
    exact ⟨matched.epoch, matched.initiator, matched.known⟩
  | forgotten peer ok _ =>
    refine Matched.written ?_ ok
    refine matched.fewer rfl (fun kind _ _ found => ?_) fun other document found => ?_
    · cases kind with
      | true => exact get_erase_record found
      | false => exact get_erase_record found
    · change (s.peers.erase peer)[other]? = some document at found
      rw [Map.get_erase] at found
      split at found
      · cases found
      · exact found
  | observed ok _ _ _ =>
    refine Matched.written ?_ ok
    exact ⟨matched.epoch, matched.initiator, matched.known⟩
  | imported document ok _ => exact (matched.imported document).written ok
  | used _ _ => exact ⟨matched.epoch, matched.initiator, matched.known⟩
  | poisoned => exact ⟨matched.epoch, matched.initiator, matched.known⟩

end

end KeyStore

section

variable [Primitives]

open KeyStore

theorem importPeer_moves (env : KeyEnv) (document : IdentityDocument) (s : KeyStore) :
    Relation.ReflTransGen Move s (importPeer env document s).2 := by
  have imports := importPeer_exact env document s
  unfold Action.Ensures at imports
  generalize importPeer env document s = result at imports ⊢
  obtain ⟨r, t⟩ := result
  cases imports with
  | refused error => exact .refl
  | stored _ alive => exact .single (.imported document env.persists alive)
  | wrapped alive _ _ wrap =>
    exact (Relation.ReflTransGen.single (.imported document true alive)).tail wrap.move
  | poisoned _ poison alive _ _ wrap =>
    have both := (Relation.ReflTransGen.single (.imported document true alive)).tail wrap.move
    cases poison with
    | true => exact both.tail .poisoned
    | false => exact both

theorem perform_moves (run : PairRun) (op : PairOp) (living : ∀ env, op ≠ .reopen env) :
    Relation.ReflTransGen Move run.store (perform run op).store := by
  have creates : ∀ {env : KeyEnv} {s t : KeyStore} {candidate : Bool} {peer : PeerId}
      {result : Result (PairSession × WrapMessage)}, Creates env s candidate peer result t →
      Relation.ReflTransGen Move s t := fun wrap => .single wrap.move
  cases op with
  | create env peer ek epoch => exact creates (createInner_exact env peer ek epoch false run.store)
  | createCandidate env peer ek epoch =>
    exact creates (createInner_exact env peer ek epoch true run.store)
  | unwrap env sender message =>
    exact .single (unwrapInner_exact env sender message false run.store).move
  | unwrapCandidate env sender message =>
    exact .single (unwrapInner_exact env sender message true run.store).move
  | promoteCandidate env peer epoch => exact .single (promoteCandidate_move env peer epoch run.store)
  | discardCandidate env peer => exact .single (discardCandidate_move env peer run.store)
  | retryCollision env peer => exact creates (retryCollision_exact env peer run.store)
  | retryCandidateCollision discard env peer =>
    have first := discardCandidate_move discard peer run.store
    obtain ⟨same, -⟩ | ⟨same, -⟩ | wrap := retryCandidateCollision_exact discard env peer run.store
    · change Relation.ReflTransGen Move _ (retryCandidateCollision discard env peer run.store).2
      rw [same]
    · change Relation.ReflTransGen Move _ (retryCandidateCollision discard env peer run.store).2
      rw [same]
      exact .single first
    · exact (Relation.ReflTransGen.single first).trans (creates wrap)
  | retire env handle => exact .single (retire_move env handle run.store)
  | discardPair env peer => exact .single (discardPair_move env peer run.store)
  | importPeer env document => exact importPeer_moves env document run.store
  | observeRemoteEpoch env peer epoch => exact .single (observeRemoteEpoch_move env peer epoch run.store)
  | aeadSeal handle nonce aad plaintext => exact .single (aeadSeal_move handle nonce aad plaintext run.store)
  | aeadOpen handle nonce aad ciphertext =>
    exact .single (aeadOpen_move handle nonce aad ciphertext run.store)
  | reopen env => exact absurd rfl (living env)

theorem moves_matched {s t : KeyStore} (moves : Relation.ReflTransGen Move s t)
    (matched : Matched s) : Matched t := by
  induction moves with
  | refl => exact matched
  | tail _ move ih => exact move.matched ih

omit [Primitives] in
theorem matched_opened (identity : LocalIdentity) (instanceId : Fin (2 ^ 256)) (nextSlot : Nat)
    (table : Map PeerId Nat) :
    Matched { opened identity instanceId with nextSlot, epochWatermarks := table } := by
  have nothing : ∀ (kind : Bool) (peer : PeerId), KeyStore.record { opened identity instanceId with
      nextSlot, epochWatermarks := table } kind peer = none := by
    intro kind peer
    cases kind <;> simp [KeyStore.record, opened]
  refine ⟨fun kind peer r found => ?_, fun kind peer r found => ?_, fun peer document found => ?_⟩
  · rw [nothing] at found
    cases found
  · rw [nothing] at found
    cases found
  · simp [opened] at found

theorem restorePair_matched {s t : KeyStore} {pair : PersistedPair} (matched : Matched s)
    (read : s.restorePair pair = .ok t) : Matched t := by
  unfold restorePair at read
  obtain ⟨_, verified, read⟩ := Result.bind_eq_ok.mp read
  obtain ⟨_, _, read⟩ := Result.bind_eq_ok.mp read
  cases read
  unfold verifyStored at verified
  obtain ⟨document, found, verified⟩ := Result.bind_eq_ok.mp verified
  have known := matched.known _ _ (okOr_eq_ok.mp found)
  have stored : (pair.initiator = s.localId ∨ pair.initiator = pair.peerId) ∧
      pair.wrap.epoch = pair.epoch := by
    dsimp only at verified
    split at verified
    · rename_i own
      obtain ⟨_, _, verified⟩ := Result.bind_eq_ok.mp verified
      obtain ⟨_, stored, _⟩ := Result.bind_eq_ok.mp verified
      exact ⟨.inl own, (ensure_eq_ok.mp stored).1.symm⟩
    split at verified
    · rename_i other
      obtain ⟨_, _, verified⟩ := Result.bind_eq_ok.mp verified
      obtain ⟨_, stored, _⟩ := Result.bind_eq_ok.mp verified
      exact ⟨.inr (other.trans known), (ensure_eq_ok.mp stored).1.symm⟩
    · obtain ⟨_, impossible, _⟩ := Result.bind_eq_ok.mp verified
      cases impossible
  have origin : ∀ (kind : Bool) (peer : PeerId) (r : PersistedPair), KeyStore.record
      ({ s with pairs := s.pairs.insert pair.peerId pair }.raiseWatermark pair.peerId pair.epoch)
      kind peer = some r → (peer = pair.peerId ∧ r = pair) ∨ s.record kind peer = some r := by
    intro kind peer r same
    cases kind with
    | true => exact .inr same
    | false =>
      change (s.pairs.insert pair.peerId pair)[peer]? = some r at same
      rw [Map.get_insert] at same
      split at same
      · rename_i isPeer
        exact .inl ⟨isPeer.symm, (Option.some.inj same).symm⟩
      · exact .inr same
  refine ⟨fun kind peer r same => ?_, fun kind peer r same => ?_, matched.known⟩
  · obtain ⟨_, rfl⟩ | before := origin kind peer r same
    · exact stored.2
    · exact matched.epoch kind peer r before
  · obtain ⟨rfl, rfl⟩ | before := origin kind peer r same
    · exact stored.1
    · exact matched.initiator kind peer r before

theorem restore_matched {identity : LocalIdentity} {instanceId : Fin (2 ^ 256)}
    {persisted : PersistedState} {s : KeyStore} (read : restore identity instanceId persisted = .ok s) :
    Matched s := by
  unfold restore at read
  obtain ⟨_, _, read⟩ := Result.bind_eq_ok.mp read
  obtain ⟨table, _, read⟩ := Result.bind_eq_ok.mp read
  obtain ⟨known, peers, read⟩ := Result.bind_eq_ok.mp read
  obtain ⟨paired, pairs, read⟩ := Result.bind_eq_ok.mp read
  obtain ⟨_, _, read⟩ := Result.bind_eq_ok.mp read
  obtain ⟨last, candidates, read⟩ := Result.bind_eq_ok.mp read
  cases read
  have afterPeers : Matched known := by
    refine Result.foldlM_preserves (fun s peer t matched read => ?_)
      (matched_opened identity instanceId persisted.nextSlot table) peers
    rw [restorePeer_eq read]
    exact matched.imported peer
  have afterPairs : Matched paired :=
    Result.foldlM_preserves (fun _ _ _ matched read => restorePair_matched matched read) afterPeers pairs
  refine Result.foldlM_preserves (I := fun state => Matched state.1)
    (fun s candidate t matched read => ?_) afterPairs candidates
  unfold restoreCandidate at read
  obtain ⟨_, _, read⟩ := Result.bind_eq_ok.mp read
  cases read
  exact ⟨matched.epoch, matched.initiator, matched.known⟩

theorem prepareWraps_matched (env : PeerId → KeyEnv) :
    ∀ (peers : List IdentityDocument) {run : PairRun}, Matched run.store →
      Action.Ensures (prepareWraps env peers) run fun _ next => Matched next.store := by
  intro peers
  induction peers with
  | nil => exact fun matched => matched
  | cons peer rest ih =>
    intro run matched
    unfold prepareWraps
    refine .query (fun _ _ => matched) fun next _ => ?_
    have made : Action.Ensures (PairRun.create (env peer.peerId) peer.peerId peer.ek next) run
        fun _ next => Matched next.store := by
      unfold PairRun.create PairRun.lift
      refine .zoom (createInner_exact (env peer.peerId) peer.peerId peer.ek next false run.store) ?_ ?_
      · exact fun _ _ wrap => wrap.move.matched matched
      · exact fun _ _ wrap => wrap.move.matched matched
    exact .next made (fun _ _ matched => matched) fun _ _ matched => ih matched

theorem reopen_matched (env : OpenEnv) {run : PairRun} (matched : Matched run.store) :
    Matched (reopen env run).store := by
  unfold reopen
  dsimp only
  split
  · exact ⟨matched.epoch, matched.initiator, matched.known⟩
  · rename_i store loaded
    have read : Matched store := by
      obtain ⟨_, _, loaded⟩ := Result.bind_eq_ok.mp loaded
      split at loaded
      · cases loaded
        exact matched_opened _ _ 0 ∅
      · exact restore_matched loaded
    have opens : Matched (openRestored env { run with store := { store with
        disk := env.stateFile run.store } }).2.store := by
      refine (?_ : Action.Ensures (openRestored env) _ fun _ next => Matched next.store)
      unfold openRestored PairRun.lift
      have persisted : Action.Ensures (persist env.persists) { store with
          disk := env.stateFile run.store } fun _ t => Matched t := by
        refine Matched.written ?_ env.persists
        exact ⟨read.epoch, read.initiator, read.known⟩
      refine .zoom persisted (fun _ _ matched => matched) ?_
      exact fun _ _ matched => .get (prepareWraps_matched env.create _ matched)
    split
    · rename_i next done
      rw [done] at opens
      exact opens
    · rename_i next done
      rw [done] at opens
      exact ⟨opens.epoch, opens.initiator, opens.known⟩

theorem perform_matched {run : PairRun} (op : PairOp) (matched : Matched run.store) :
    Matched (perform run op).store := by
  by_cases reopens : ∃ env, op = .reopen env
  · obtain ⟨env, rfl⟩ := reopens
    exact reopen_matched env matched
  · exact moves_matched (perform_moves run op fun env same => reopens ⟨env, same⟩) matched

/-- A store at any point of the life of a member, its restarts included. -/
def Lived (store : KeyStore) : Prop :=
  ∃ identity instanceId ops, (lifecycle.run ops (PairRun.first identity instanceId)).store = store

theorem Lived.matched {store : KeyStore} (lived : Lived store) : Matched store := by
  obtain ⟨identity, instanceId, ops, rfl⟩ := lived
  exact lifecycle.run_invariant (I := fun run => Matched run.store)
    (fun _ op matched => perform_matched op matched) ops _ (matched_opened identity instanceId 0 ∅)

theorem Lived.bounded {store : KeyStore} (lived : Lived store) : Bounded store := by
  obtain ⟨identity, instanceId, ops, rfl⟩ := lived
  exact (run_lawful ops (epochLaw_first identity instanceId)).law.bounded

end

end QuantumFs.Crypto
