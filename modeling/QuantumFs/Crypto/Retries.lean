import QuantumFs.Crypto.Epochs
import QuantumFs.Crypto.NonceReuse

/-! Retries of lost collisions. The loser of a collision records the epoch it has to
initiate next; the record is of use only while that epoch is the next one. -/
namespace QuantumFs.Crypto

open Lib Encoding KeyStore

namespace KeyStore

/-- Every retry that is recorded for a peer is at the next epoch. -/
structure RetriesReady (s : KeyStore) : Prop where
  confirmed : ∀ (peer : PeerId) (epoch : Nat), s.retryEpochs[peer]? = some epoch →
    epoch = s.watermark peer + 1
  candidate : ∀ (peer : PeerId) (epoch : Nat), s.candidateRetryEpochs[peer]? = some epoch →
    epoch = s.watermark peer + 1

def Idle (s : KeyStore) (peer : PeerId) : Prop :=
  s.retryEpochs[peer]? = none ∧ s.candidateRetryEpochs[peer]? = none

def Records (s t : KeyStore) (table : KeyStore → Map PeerId Nat) : Prop :=
  ∀ (peer : PeerId) (epoch : Nat), (table t)[peer]? = some epoch →
    (table s)[peer]? = some epoch ∨ epoch = t.watermark peer + 1

theorem RetriesReady.step {s t : KeyStore} (ready : RetriesReady s)
    (confirmed : Records s t KeyStore.retryEpochs)
    (candidate : Records s t KeyStore.candidateRetryEpochs)
    (moved : ∀ peer, t.watermark peer = s.watermark peer ∨ Idle t peer) : RetriesReady t := by
  constructor
  · intro peer epoch found
    obtain old | new := confirmed peer epoch found
    · obtain same | idle := moved peer
      · rw [same]
        exact ready.confirmed peer epoch old
      · have none : t.retryEpochs[peer]? = none := idle.1
        rw [none] at found
        cases found
    · exact new
  · intro peer epoch found
    obtain old | new := candidate peer epoch found
    · obtain same | idle := moved peer
      · rw [same]
        exact ready.candidate peer epoch old
      · have none : t.candidateRetryEpochs[peer]? = none := idle.2
        rw [none] at found
        cases found
    · exact new

theorem RetriesReady.written {s : KeyStore} (ready : RetriesReady s) (ok : Bool) :
    RetriesReady (written ok s) := by
  constructor
  · intro peer epoch found
    rw [written_retryEpochs] at found
    rw [written_watermark]
    exact ready.confirmed peer epoch found
  · intro peer epoch found
    rw [written_candidateRetryEpochs] at found
    rw [written_watermark]
    exact ready.candidate peer epoch found

theorem RetriesReady.enter {s : KeyStore} (ready : RetriesReady s) (candidate : Bool)
    {pair : PersistedPair} (key : Bytes)
    (idle : s.watermark pair.peerId < pair.epoch → Idle s pair.peerId) :
    RetriesReady (s.enter candidate pair key) := by
  refine ready.step ?_ ?_ fun peer => ?_
  · intro peer epoch found
    rw [enter_retryEpochs] at found
    exact .inl found
  · intro peer epoch found
    rw [enter_candidateRetryEpochs] at found
    exact .inl found
  · rw [enter_watermark]
    split
    · rename_i same
      subst same
      by_cases raised : s.watermark pair.peerId < pair.epoch
      · rw [Idle, enter_retryEpochs, enter_candidateRetryEpochs]
        exact .inr (idle raised)
      · exact .inl (max_eq_left (not_lt.mp raised))
    · exact .inl rfl

theorem get_erase_some {table : Map PeerId Nat} {peer other : PeerId} {epoch : Nat}
    (found : (table.erase peer)[other]? = some epoch) : table[other]? = some epoch := by
  rw [Map.get_erase] at found
  split at found
  · cases found
  · exact found

theorem RetriesReady.clearRetry {s : KeyStore} (ready : RetriesReady s) (peer : PeerId)
    (candidate : Bool) : RetriesReady (s.clearRetry peer candidate) := by
  cases candidate with
  | true => exact ⟨ready.confirmed, fun other epoch found =>
      ready.candidate other epoch (get_erase_some found)⟩
  | false => exact ⟨fun other epoch found =>
      ready.confirmed other epoch (get_erase_some found), ready.candidate⟩

def otherRetry (s : KeyStore) (peer : PeerId) (candidate : Bool) : Option Nat :=
  if candidate then s.retryEpochs[peer]? else s.candidateRetryEpochs[peer]?

theorem idle_clearRetry {s : KeyStore} {peer : PeerId} {candidate : Bool}
    (other : s.otherRetry peer candidate = none) : Idle (s.clearRetry peer candidate) peer := by
  cases candidate with
  | true =>
    refine ⟨other, ?_⟩
    change (s.candidateRetryEpochs.erase peer)[peer]? = none
    rw [Map.get_erase, if_pos rfl]
  | false =>
    refine ⟨?_, other⟩
    change (s.retryEpochs.erase peer)[peer]? = none
    rw [Map.get_erase, if_pos rfl]

theorem RetriesReady.creates [Primitives] {env : KeyEnv} {s t : KeyStore} {candidate : Bool}
    {peer : PeerId} {result : Result (PairSession × WrapMessage)} (ready : RetriesReady s)
    (creates : Creates env s candidate peer result t)
    (other : s.otherRetry peer candidate = none) : RetriesReady t := by
  have cleared := ready.clearRetry peer candidate
  obtain ⟨rfl | rfl, -⟩ | ⟨key, message, -, -, -, -, -, rfl, -⟩ := creates
  · exact ready
  · exact cleared
  · exact (cleared.enter candidate key fun _ => idle_clearRetry other).written env.persists

/-- A received wrap that would outdate a retry, or record one that is outdated already. -/
structure InTime (s : KeyStore) (candidate : Bool) (sender : PeerId) (message : WrapMessage) :
    Prop where
  /-- A wrap above the watermark finds no retry, except the one a superseded candidate
  takes with it. -/
  above : s.watermark sender < message.epoch → s.retryEpochs[sender]? = none ∧
    (s.candidateRetryEpochs[sender]? = none ∨ candidate = true ∧ s.candidates[sender]? ≠ none)
  /-- A collision is lost at the watermark. -/
  collision : ∀ previous ∈ (if candidate then s.candidates[sender]? else s.pairs[sender]?),
    message.epoch = previous.epoch → sender < previous.initiator →
    message.epoch = s.watermark sender

theorem RetriesReady.recordRetry {s : KeyStore} (ready : RetriesReady s) (sender : PeerId)
    (candidate : Bool) : RetriesReady (s.recordRetry sender candidate (s.watermark sender + 1)) := by
  have inserted : ∀ {table : Map PeerId Nat} {peer : PeerId} {epoch : Nat},
      (table.insert sender (s.watermark sender + 1))[peer]? = some epoch →
      table[peer]? = some epoch ∨ epoch = s.watermark peer + 1 := by
    intro table peer epoch found
    rw [Map.get_insert] at found
    split at found
    · rename_i same
      cases found
      exact .inr (by rw [same])
    · exact .inl found
  cases candidate with
  | true =>
    refine ready.step (fun _ _ found => .inl found) (fun peer epoch found => ?_) fun _ => .inl rfl
    exact inserted found
  | false =>
    refine ready.step (fun peer epoch found => ?_) (fun _ _ found => .inl found) fun _ => .inl rfl
    exact inserted found

theorem replaceCandidate_retries (s : KeyStore) (sender : PeerId) (standing : WrapStanding)
    (candidate : Bool) :
    (s.replaceCandidate sender standing candidate).retryEpochs = s.retryEpochs ∧
      (s.replaceCandidate sender standing candidate).candidateRetryEpochs =
        if candidate = true ∧ standing = .supersede then s.candidateRetryEpochs.erase sender
        else s.candidateRetryEpochs := by
  unfold replaceCandidate
  cases candidate with
  | false => simp
  | true => cases standing <;> cases s.candidates[sender]? <;> exact ⟨rfl, rfl⟩

theorem RetriesReady.replaceCandidate {s : KeyStore} (ready : RetriesReady s) (sender : PeerId)
    (standing : WrapStanding) (candidate : Bool) :
    RetriesReady (s.replaceCandidate sender standing candidate) := by
  obtain ⟨confirmed, candidates⟩ := replaceCandidate_retries s sender standing candidate
  have watermark := (quiet_replaceCandidate s sender standing candidate).watermark
  refine ready.step ?_ ?_ fun peer => .inl (watermark peer)
  · intro peer epoch found
    rw [confirmed] at found
    exact .inl found
  · intro peer epoch found
    rw [candidates] at found
    split at found
    · exact .inl (get_erase_some found)
    · exact .inl found

variable [Primitives]

theorem RetriesReady.yielded {s : KeyStore} {candidate : Bool} {sender : PeerId}
    {message : WrapMessage} {standing : WrapStanding} {key : Bytes} (ready : RetriesReady s)
    (accepted : Accepted s candidate sender message standing key)
    (inTime : InTime s candidate sender message) :
    RetriesReady (s.yielded sender message standing candidate) := by
  unfold KeyStore.yielded
  apply RetriesReady.replaceCandidate
  split
  · rename_i collides
    obtain ⟨-, fresh, -⟩ | ⟨previous, found, ⟨-, same, loses⟩ | ⟨-, other⟩⟩ := accepted.standing_cases
    · rw [fresh] at collides
      cases collides
    · have atWatermark := inTime.collision previous found same loses
      rw [atWatermark]
      exact ready.recordRetry sender candidate
    · rw [collides] at other
      cases candidate <;> cases other
  · exact ready

theorem idle_yielded {s : KeyStore} {candidate : Bool} {sender : PeerId} {message : WrapMessage}
    {standing : WrapStanding} {key : Bytes}
    (accepted : Accepted s candidate sender message standing key)
    (inTime : InTime s candidate sender message) (above : s.watermark sender < message.epoch) :
    Idle (s.yielded sender message standing candidate) sender := by
  obtain ⟨confirmed, candidates⟩ := inTime.above above
  have noCollision : standing ≠ .collision := by
    rintro rfl
    obtain ⟨-, fresh, -⟩ | ⟨previous, found, ⟨-, same, loses⟩ | ⟨-, other⟩⟩ := accepted.standing_cases
    · cases fresh
    · exact above.ne' (inTime.collision previous found same loses)
    · cases candidate <;> cases other
  rw [KeyStore.yielded, if_neg noCollision, Idle]
  obtain ⟨sameConfirmed, sameCandidates⟩ := replaceCandidate_retries s sender standing candidate
  rw [sameConfirmed, sameCandidates]
  refine ⟨confirmed, ?_⟩
  split
  · rw [Map.get_erase, if_pos rfl]
  · rename_i kept
    obtain none | ⟨rfl, held⟩ := candidates
    · exact none
    · -- the wrap supersedes the candidate that is held, so the other branch was taken
      obtain ⟨vacant, -⟩ | ⟨previous, -, ⟨collides, -⟩ | ⟨-, other⟩⟩ := accepted.standing_cases
      · exact absurd vacant held
      · exact absurd collides noCollision
      · exact absurd ⟨rfl, other⟩ kept

def Genuine (s : KeyStore) (sender : PeerId) (message : WrapMessage) : Prop :=
  s.authentic sender message = .ok () ∧ (openWrap s message).isOk = true

instance (s : KeyStore) (sender : PeerId) (message : WrapMessage) :
    Decidable (Genuine s sender message) := inferInstanceAs (Decidable (_ ∧ _))

theorem Accepted.genuine {s : KeyStore} {candidate : Bool} {sender : PeerId} {message : WrapMessage}
    {standing : WrapStanding} {key : Bytes}
    (accepted : Accepted s candidate sender message standing key) : Genuine s sender message :=
  ⟨accepted.authentic, by rw [accepted.opens]; rfl⟩

theorem RetriesReady.unwraps {env : KeyEnv} {s t : KeyStore} {candidate : Bool} {sender : PeerId}
    {message : WrapMessage} {result : Result PairSession} (ready : RetriesReady s)
    (unwraps : Unwraps env s candidate sender message result t)
    (timely : Genuine s sender message → InTime s candidate sender message) : RetriesReady t := by
  obtain ⟨rfl, -⟩ | ⟨rfl, -, -⟩ |
    ⟨standing, key, alive, accepted, ⟨rfl, -⟩ | ⟨rfl, -⟩ | ⟨rfl, -⟩⟩ := unwraps
  · exact ready
  · exact ready
  · exact ready
  · exact ready.yielded accepted (timely accepted.genuine)
  · have inTime := timely accepted.genuine
    have watermark := (quiet_yielded s sender message standing candidate).watermark sender
    refine ((ready.yielded accepted inTime).enter candidate key fun above => ?_).written env.persists
    rw [watermark] at above
    exact idle_yielded accepted inTime above

omit [Primitives] in
theorem RetriesReady.fewer {s t : KeyStore} (ready : RetriesReady s)
    (confirmed : ∀ (peer : PeerId) (epoch : Nat), t.retryEpochs[peer]? = some epoch →
      s.retryEpochs[peer]? = some epoch)
    (candidate : ∀ (peer : PeerId) (epoch : Nat), t.candidateRetryEpochs[peer]? = some epoch →
      s.candidateRetryEpochs[peer]? = some epoch)
    (watermarks : t.epochWatermarks = s.epochWatermarks) : RetriesReady t := by
  have same : ∀ peer, t.watermark peer = s.watermark peer := fun peer => by
    rw [watermark, watermark, watermarks]
  refine ready.step (fun peer epoch found => ?_) (fun peer epoch found => ?_) fun peer => .inl (same peer)
  · exact .inl (confirmed peer epoch found)
  · exact .inl (candidate peer epoch found)

omit [Primitives] in
theorem RetriesReady.discardCandidate {s : KeyStore} (ready : RetriesReady s) (env : KeyEnv)
    (peer : PeerId) : RetriesReady (discardCandidate env peer s).2 := by
  obtain same | ⟨candidate, -, -, same, -⟩ := discardCandidate_exact env peer s
  · rw [same]
    exact ready
  · rw [same]
    refine RetriesReady.written ?_ env.persists
    refine ready.fewer (fun _ _ found => found) (fun _ _ found => ?_) rfl
    exact get_erase_some found

omit [Primitives] in
theorem otherRetry_discardCandidate (env : KeyEnv) (peer : PeerId) (s : KeyStore) :
    (KeyStore.discardCandidate env peer s).2.retryEpochs = s.retryEpochs := by
  obtain same | ⟨candidate, -, -, same, -⟩ := discardCandidate_exact env peer s
  · rw [same]
  · rw [same, written_retryEpochs]
    rfl

omit [Primitives] in
theorem RetriesReady.promoteCandidate {s : KeyStore} (ready : RetriesReady s) (env : KeyEnv)
    (peer : PeerId) (epoch : Nat) : RetriesReady (promoteCandidate env peer epoch s).2 := by
  obtain ⟨same, -⟩ | ⟨candidate, -, -, -, -, same, -⟩ := promoteCandidate_exact env peer epoch s
  · rw [same]
    exact ready
  · rw [same]
    refine RetriesReady.written ?_ env.persists
    refine ready.fewer (fun _ _ found => found) (fun _ _ found => ?_) rfl
    exact get_erase_some found

omit [Primitives] in
theorem RetriesReady.retire {s : KeyStore} (ready : RetriesReady s) (env : KeyEnv)
    (handle : PairKeyHandle) : RetriesReady (retire env handle s).2 := by
  obtain same | ⟨-, -, same⟩ := retire_exact env handle s
  · rw [same]
    exact ready
  · rw [same]
    refine RetriesReady.written ?_ env.persists
    exact ready.fewer (fun _ _ found => found) (fun _ _ found => found) rfl

omit [Primitives] in
theorem RetriesReady.discardPair {s : KeyStore} (ready : RetriesReady s) (env : KeyEnv)
    (peer : PeerId) : RetriesReady (discardPair env peer s).2 := by
  obtain same | ⟨-, same⟩ := discardPair_exact env peer s
  · rw [same]
    exact ready
  · rw [same]
    refine RetriesReady.written ?_ env.persists
    refine ready.fewer (fun _ _ found => ?_) (fun _ _ found => ?_) rfl
    · exact get_erase_some found
    · exact get_erase_some found

omit [Primitives] in
theorem RetriesReady.observeRemoteEpoch {s : KeyStore} (ready : RetriesReady s) (env : KeyEnv)
    {peer : PeerId} {epoch : Nat} (idle : s.watermark peer < epoch → Idle s peer) :
    RetriesReady (observeRemoteEpoch env peer epoch s).2 := by
  obtain same | ⟨-, -, higher, same⟩ := observeRemoteEpoch_exact env peer epoch s
  · rw [same]
    exact ready
  · rw [same]
    refine RetriesReady.written ?_ env.persists
    refine ready.step (fun _ _ found => .inl found) (fun _ _ found => .inl found) fun other => ?_
    by_cases same : peer = other
    · subst same
      exact .inr (idle higher)
    · left
      change (s.epochWatermarks.insert peer epoch)[other]?.getD 0 = s.watermark other
      rw [Map.get_insert_ne _ _ same]
      rfl

theorem RetriesReady.aeadSeal {s : KeyStore} (ready : RetriesReady s) (handle : PairKeyHandle)
    (bytes aad plaintext : Bytes) : RetriesReady (aeadSeal handle bytes aad plaintext s).2 := by
  obtain ⟨same, -⟩ | ⟨before, after, ⟨-, same⟩, -, -⟩ := aeadSeal_outcome handle bytes aad plaintext s
  · rw [same]
    exact ready
  · rw [same]
    exact ready.fewer (fun _ _ found => found) (fun _ _ found => found) rfl

theorem RetriesReady.aeadOpen {s : KeyStore} (ready : RetriesReady s) (handle : PairKeyHandle)
    (bytes aad ciphertext : Bytes) : RetriesReady (aeadOpen handle bytes aad ciphertext s).2 := by
  obtain ⟨same, -⟩ | ⟨before, after, ⟨-, same⟩, -, -⟩ :=
    aeadOpen_outcome handle bytes aad ciphertext s
  · rw [same]
    exact ready
  · rw [same]
    exact ready.fewer (fun _ _ found => found) (fun _ _ found => found) rfl

theorem RetriesReady.imports {env : KeyEnv} {s t : KeyStore} {document : IdentityDocument}
    {result : Result Unit} (ready : RetriesReady s) (imports : Imports env s document result t)
    (idle : Rekeyed s document → s.candidateRetryEpochs[document.peerId]? = none) :
    RetriesReady t := by
  have stored : ∀ ok, RetriesReady (KeyStore.written ok { s with
      peers := s.peers.insert document.peerId document }) := by
    intro ok
    refine RetriesReady.written ?_ ok
    exact ready.fewer (fun _ _ found => found) (fun _ _ found => found) rfl
  cases imports with
  | refused _ => exact ready
  | stored _ _ => exact stored _
  | wrapped _ rekeyed _ wrap => exact (stored true).creates wrap (idle rekeyed)
  | poisoned _ poison _ rekeyed _ wrap =>
    have created := (stored true).creates wrap (idle rekeyed)
    cases poison with
    | false => exact created
    | true => exact created.fewer (fun _ _ found => found) (fun _ _ found => found) rfl

theorem RetriesReady.createInner {s : KeyStore} (ready : RetriesReady s) (env : KeyEnv)
    {peer : PeerId} (ek : Bytes) {epoch : Nat} {candidate : Bool}
    (timely : epoch = s.watermark peer + 1 → s.otherRetry peer candidate = none) :
    RetriesReady (createInner env peer ek epoch candidate s).2 := by
  by_cases next : epoch = s.watermark peer + 1
  · exact ready.creates (createInner_exact env peer ek epoch candidate s) (timely next)
  · rw [createInner_refused env ek candidate next]
    exact ready

theorem RetriesReady.retryCollision {s : KeyStore} (ready : RetriesReady s) (env : KeyEnv)
    {peer : PeerId}
    (timely : s.retryEpochs[peer]? ≠ none → s.candidateRetryEpochs[peer]? = none) :
    RetriesReady (retryCollision env peer s).2 := by
  by_cases recorded : s.retryEpochs[peer]? = none
  · rw [retryCollision_refused env recorded]
    exact ready
  · exact ready.creates (retryCollision_exact env peer s) (timely recorded)

theorem RetriesReady.retryCandidateCollision {s : KeyStore} (ready : RetriesReady s)
    (discard env : KeyEnv) {peer : PeerId}
    (timely : s.candidateRetryEpochs[peer]? ≠ none → s.retryEpochs[peer]? = none) :
    RetriesReady (retryCandidateCollision discard env peer s).2 := by
  by_cases recorded : s.candidateRetryEpochs[peer]? = none
  · rw [retryCandidateCollision_refused discard env recorded]
    exact ready
  have discarded := ready.discardCandidate discard peer
  obtain ⟨same, -⟩ | ⟨same, -⟩ | creates := retryCandidateCollision_exact discard env peer s
  · rw [same]
    exact ready
  · rw [same]
    exact discarded
  · refine discarded.creates creates ?_
    rw [otherRetry, if_pos rfl, otherRetry_discardCandidate]
    exact timely recorded

end KeyStore

section

variable [Primitives]

def NoRetries (s : KeyStore) : Prop := ∀ peer, Idle s peer

omit [Primitives] in
theorem NoRetries.ready {s : KeyStore} (none : NoRetries s) : RetriesReady s := by
  constructor
  · intro peer epoch found
    rw [(none peer).1] at found
    cases found
  · intro peer epoch found
    rw [(none peer).2] at found
    cases found

omit [Primitives] in
theorem noRetries_opened (identity : LocalIdentity) (instanceId : Fin (2 ^ 256)) :
    NoRetries (opened identity instanceId) := fun _ => by simp [Idle, opened]

theorem restore_noRetries {identity : LocalIdentity} {instanceId : Fin (2 ^ 256)}
    {persisted : PersistedState} {s : KeyStore}
    (read : restore identity instanceId persisted = .ok s) : NoRetries s := by
  unfold restore at read
  obtain ⟨_, -, read⟩ := Result.bind_eq_ok.mp read
  obtain ⟨table, -, read⟩ := Result.bind_eq_ok.mp read
  obtain ⟨known, peers, read⟩ := Result.bind_eq_ok.mp read
  obtain ⟨paired, pairs, read⟩ := Result.bind_eq_ok.mp read
  obtain ⟨_, -, read⟩ := Result.bind_eq_ok.mp read
  obtain ⟨last, candidates, read⟩ := Result.bind_eq_ok.mp read
  cases read
  have empty : NoRetries { opened identity instanceId with
      nextSlot := persisted.nextSlot
      epochWatermarks := table } := noRetries_opened identity instanceId
  have afterPeers : NoRetries known := by
    refine Result.foldlM_preserves (fun s peer t none read => ?_) empty peers
    rw [restorePeer_eq read]
    exact none
  have afterPairs : NoRetries paired := by
    refine Result.foldlM_preserves (fun s pair t none read => ?_) afterPeers pairs
    unfold restorePair at read
    obtain ⟨_, -, read⟩ := Result.bind_eq_ok.mp read
    obtain ⟨_, -, read⟩ := Result.bind_eq_ok.mp read
    cases read
    exact none
  refine Result.foldlM_preserves (I := fun state => NoRetries state.1)
    (fun s candidate t none read => ?_) afterPairs candidates
  unfold restoreCandidate at read
  obtain ⟨_, -, read⟩ := Result.bind_eq_ok.mp read
  cases read
  exact none

omit [Primitives] in
theorem NoRetries.creates {env : KeyEnv} {s t : KeyStore} {candidate : Bool} {peer : PeerId}
    {result : Result (PairSession × WrapMessage)} (none : NoRetries s)
    (creates : Creates env s candidate peer result t) : NoRetries t := by
  have cleared : NoRetries (s.clearRetry peer candidate) := by
    intro other
    have erased : ∀ table : Map PeerId Nat, table[other]? = .none →
        (table.erase peer)[other]? = .none := by
      intro table vacant
      rw [Map.get_erase, vacant, ite_self]
    cases candidate with
    | true => exact ⟨(none other).1, erased _ (none other).2⟩
    | false => exact ⟨erased _ (none other).1, (none other).2⟩
  obtain ⟨rfl | rfl, -⟩ | ⟨key, message, -, -, -, -, -, rfl, -⟩ := creates
  · exact none
  · exact cleared
  · intro other
    rw [Idle, written_retryEpochs, written_candidateRetryEpochs, enter_retryEpochs,
      enter_candidateRetryEpochs]
    exact cleared other

theorem prepareWraps_noRetries (env : PeerId → KeyEnv) :
    ∀ (peers : List IdentityDocument) {run : PairRun}, NoRetries run.store →
      Action.Ensures (prepareWraps env peers) run fun _ next => NoRetries next.store := by
  intro peers
  induction peers with
  | nil => exact fun none => none
  | cons peer rest ih =>
    intro run none
    unfold prepareWraps
    refine .query (fun _ _ => none) fun next _ => ?_
    have made : Action.Ensures (PairRun.create (env peer.peerId) peer.peerId peer.ek next) run
        fun _ next => NoRetries next.store := by
      unfold PairRun.create PairRun.lift
      refine .zoom (createInner_exact (env peer.peerId) peer.peerId peer.ek next false run.store) ?_ ?_
      · exact fun _ _ creates => none.creates creates
      · exact fun _ _ creates => none.creates creates
    refine .next made ?_ ?_
    · exact fun _ _ none => none
    · exact fun _ _ none => ih none

theorem reopen_ready (env : OpenEnv) {run : PairRun} (ready : RetriesReady run.store) :
    RetriesReady (reopen env run).store := by
  unfold reopen
  dsimp only
  split
  · exact ready.fewer (fun _ _ found => found) (fun _ _ found => found) rfl
  · rename_i store loaded
    have none : NoRetries store := by
      obtain ⟨_, -, loaded⟩ := Result.bind_eq_ok.mp loaded
      split at loaded
      · cases loaded
        exact noRetries_opened _ _
      · exact restore_noRetries loaded
    have opens : NoRetries (openRestored env { run with store := { store with
        disk := env.stateFile run.store } }).2.store := by
      refine (?_ : Action.Ensures (openRestored env) _ fun _ next => NoRetries next.store)
      unfold openRestored PairRun.lift
      have persisted : Action.Ensures (persist env.persists) { store with
          disk := env.stateFile run.store } fun _ t => NoRetries t := by
        intro peer
        have same := none peer
        change Idle (written env.persists { store with disk := env.stateFile run.store }) peer
        rw [Idle, written_retryEpochs, written_candidateRetryEpochs]
        exact same
      refine .zoom persisted ?_ ?_
      · exact fun _ _ none => none
      · exact fun _ _ none => .get (prepareWraps_noRetries env.create _ none)
    split
    · rename_i next done
      rw [done] at opens
      exact opens.ready
    · rename_i next done
      rw [done] at opens
      exact opens.ready.fewer (fun _ _ found => found) (fun _ _ found => found) rfl

/-- A retry that is recorded for a known peer is at the epoch that its wrap must use. -/
def RetriesPossible (run : PairRun) : Prop :=
  ∀ (peer : PeerId) (epoch : Nat), run.store.peers[peer]? ≠ none →
    (run.store.retryEpochs[peer]? = some epoch ∨
      run.store.candidateRetryEpochs[peer]? = some epoch) →
    epoch = run.store.watermark peer + 1

/-- The step moves no watermark past a retry that it leaves behind: a wrap of our own
finds no retry of the other kind, a received or observed epoch above the watermark finds
none at all, and a collision is lost at the watermark. -/
def Timely (run : PairRun) : PairOp → Prop
  | .create _ peer _ epoch =>
    epoch = run.store.watermark peer + 1 → run.store.candidateRetryEpochs[peer]? = none
  | .retryCollision _ peer =>
    run.store.retryEpochs[peer]? ≠ none → run.store.candidateRetryEpochs[peer]? = none
  | .createCandidate _ peer _ epoch =>
    epoch = run.store.watermark peer + 1 → run.store.retryEpochs[peer]? = none
  | .retryCandidateCollision _ _ peer =>
    run.store.candidateRetryEpochs[peer]? ≠ none → run.store.retryEpochs[peer]? = none
  | .importPeer _ document =>
    (∃ old ∈ run.store.peers[document.peerId]?, old.ek ≠ document.ek ∧
      run.store.pairs[document.peerId]? ≠ none) →
    run.store.candidateRetryEpochs[document.peerId]? = none
  | .unwrap _ sender message => Genuine run.store sender message → InTime run.store false sender message
  | .unwrapCandidate _ sender message =>
    Genuine run.store sender message → InTime run.store true sender message
  | .observeRemoteEpoch _ peer epoch => run.store.watermark peer < epoch → Idle run.store peer
  | _ => True

theorem perform_ready {run : PairRun} {op : PairOp} (ready : RetriesReady run.store)
    (timely : Timely run op) : RetriesReady (perform run op).store := by
  cases op with
  | create env peer ek epoch => exact ready.createInner env ek timely
  | createCandidate env peer ek epoch => exact ready.createInner env ek timely
  | unwrap env sender message =>
    exact ready.unwraps (unwrapInner_exact env sender message false run.store) timely
  | unwrapCandidate env sender message =>
    exact ready.unwraps (unwrapInner_exact env sender message true run.store) timely
  | promoteCandidate env peer epoch => exact ready.promoteCandidate env peer epoch
  | discardCandidate env peer => exact ready.discardCandidate env peer
  | retryCollision env peer => exact ready.retryCollision env timely
  | retryCandidateCollision discard env peer => exact ready.retryCandidateCollision discard env timely
  | retire env handle => exact ready.retire env handle
  | discardPair env peer => exact ready.discardPair env peer
  | importPeer env document =>
    refine ready.imports (importPeer_exact env document run.store) fun rekeyed => ?_
    obtain ⟨old, known, changed⟩ := rekeyed
    exact timely ⟨old, known, changed⟩
  | observeRemoteEpoch env peer epoch => exact ready.observeRemoteEpoch env timely
  | aeadSeal handle nonce aad plaintext => exact ready.aeadSeal handle nonce aad plaintext
  | aeadOpen handle nonce aad ciphertext => exact ready.aeadOpen handle nonce aad ciphertext
  | reopen env => exact reopen_ready env ready

/-- In a life of timely steps every recorded retry can be carried out. -/
theorem retries_possible (identity : LocalIdentity) (instanceId : Fin (2 ^ 256)) (ops : List PairOp)
    (timely : lifecycle.Along Timely ops (PairRun.first identity instanceId)) :
    lifecycle.Throughout RetriesPossible ops (PairRun.first identity instanceId) := by
  have first : RetriesReady (PairRun.first identity instanceId).store :=
    (noRetries_opened identity instanceId).ready
  have ready := lifecycle.throughout_of_step (I := fun run => RetriesReady run.store)
    (fun run op => perform_ready) ops _ first timely
  refine ready.mono fun run ready peer epoch known recorded => ?_
  obtain found | found := recorded
  · exact ready.confirmed peer epoch found
  · exact ready.candidate peer epoch found

instance (s : KeyStore) (peer : PeerId) : Decidable (Idle s peer) :=
  inferInstanceAs (Decidable (_ ∧ _))

omit [Primitives] in
private theorem inTime_iff {s : KeyStore} {candidate : Bool} {sender : PeerId} {message : WrapMessage} :
    ((s.watermark sender < message.epoch → s.retryEpochs[sender]? = none ∧
        (s.candidateRetryEpochs[sender]? = none ∨
          candidate = true ∧ s.candidates[sender]? ≠ none)) ∧
      ∀ previous ∈ (if candidate then s.candidates[sender]? else s.pairs[sender]?),
        message.epoch = previous.epoch → sender < previous.initiator →
        message.epoch = s.watermark sender) ↔ InTime s candidate sender message :=
  ⟨fun h => ⟨h.1, h.2⟩, fun h => ⟨h.above, h.collision⟩⟩

instance (s : KeyStore) (candidate : Bool) (sender : PeerId) (message : WrapMessage) :
    Decidable (InTime s candidate sender message) := decidable_of_iff _ inTime_iff

instance (run : PairRun) : (op : PairOp) → Decidable (Timely run op)
  | .create _ peer _ epoch => inferInstanceAs (Decidable
      (epoch = run.store.watermark peer + 1 → run.store.candidateRetryEpochs[peer]? = none))
  | .retryCollision _ peer => inferInstanceAs (Decidable
      (run.store.retryEpochs[peer]? ≠ none → run.store.candidateRetryEpochs[peer]? = none))
  | .createCandidate _ peer _ epoch => inferInstanceAs (Decidable
      (epoch = run.store.watermark peer + 1 → run.store.retryEpochs[peer]? = none))
  | .retryCandidateCollision _ _ peer => inferInstanceAs (Decidable
      (run.store.candidateRetryEpochs[peer]? ≠ none → run.store.retryEpochs[peer]? = none))
  | .importPeer _ document => inferInstanceAs (Decidable
      ((∃ old ∈ run.store.peers[document.peerId]?, old.ek ≠ document.ek ∧
        run.store.pairs[document.peerId]? ≠ none) →
      run.store.candidateRetryEpochs[document.peerId]? = none))
  | .unwrap _ sender message => inferInstanceAs (Decidable
      (Genuine run.store sender message → InTime run.store false sender message))
  | .unwrapCandidate _ sender message => inferInstanceAs (Decidable
      (Genuine run.store sender message → InTime run.store true sender message))
  | .observeRemoteEpoch _ peer epoch =>
    inferInstanceAs (Decidable (run.store.watermark peer < epoch → Idle run.store peer))
  | .promoteCandidate .. | .discardCandidate .. | .retire .. | .discardPair .. | .aeadSeal ..
  | .aeadOpen .. | .reopen .. => .isTrue trivial

end

section

open NonceReuse

def thirdWrap : WrapMessage :=
  ((aliceStore 3).pairs[bob.document.peerId]?.get (by decide +kernel)).wrap

/-- Bob, the larger identity, wraps at the epoch that Alice wraps at, and loses. -/
def collides : List PairOp :=
  [.importPeer (keyEnv 0) alice.document,
    .unwrap (keyEnv 0) alice.document.peerId firstWrap,
    .create (keyEnv 7) alice.document.peerId alice.document.ek 2,
    .unwrap (keyEnv 0) alice.document.peerId secondWrap]

theorem retries_possible_collision :
    let := Primitives.plain
    let ops := collides ++ [.retryCollision (keyEnv 8) alice.document.peerId]
    lifecycle.Throughout RetriesPossible ops (PairRun.first bob 0) ∧
      (lifecycle.run ops (PairRun.first bob 0)).created.length = 2 := by
  refine ⟨@retries_possible Primitives.plain bob 0 _ ?_, ?_⟩
  · decide +kernel
  · decide +kernel

/-- Before Bob retries at epoch 3, Alice rotates to epoch 3 herself. The retry stays on
record and is refused from then on. -/
theorem retry_outdated :
    let := Primitives.plain
    let ops := collides ++ [.unwrap (keyEnv 0) alice.document.peerId thirdWrap]
    let run := lifecycle.run ops (PairRun.first bob 0)
    ¬ lifecycle.Throughout RetriesPossible ops (PairRun.first bob 0) ∧
      (retryCollision (keyEnv 8) alice.document.peerId run.store).1 =
        .error (.invalidInput "wrap must use the next epoch") := by
  let := Primitives.plain
  intro _ ops run
  refine ⟨fun possible => ?_, by decide +kernel⟩
  have last : RetriesPossible run := possible.final
  have recorded : run.store.retryEpochs[alice.document.peerId]? = some 3 := by decide +kernel
  have next := last alice.document.peerId 3 (by decide +kernel) (.inl recorded)
  revert next
  decide +kernel

end

end QuantumFs.Crypto
