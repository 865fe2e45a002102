import QuantumFs.Crypto.KeyStoreStep

/-! The states a key store can be left in, exactly: every operation refuses, or
ends in one of the stores below, written to disk or poisoned by a write that
failed. Counters, retries and the state file are told apart here, where the
steps of `KeyStoreStep` only bound what may disappear. -/
namespace QuantumFs.Crypto.KeyStore

open Lib Encoding

/-- A key enters the next slot, as the pair of a peer or as its candidate. -/
def enter (store : KeyStore) (candidate : Bool) (pair : PersistedPair) (key : Bytes) : KeyStore :=
  let base := if candidate then store else store.dropKeys pair.peerId pair.epoch
  let entered := { base with
    nextSlot := store.nextSlot + 1
    keys := base.keys.insert store.nextSlot (PairKeyState.new key pair.peerId pair.epoch) }
  let raised := entered.raiseWatermark pair.peerId pair.epoch
  if candidate then { raised with candidates := store.candidates.insert pair.peerId pair }
  else { raised with pairs := store.pairs.insert pair.peerId pair }

section

variable (store : KeyStore) (candidate : Bool) (pair : PersistedPair) (key : Bytes)

@[simp] theorem enter_identity : (store.enter candidate pair key).identity = store.identity := by
  cases candidate <;> rfl

@[simp] theorem enter_peers : (store.enter candidate pair key).peers = store.peers := by
  cases candidate <;> rfl

@[simp] theorem enter_instanceId :
    (store.enter candidate pair key).instanceId = store.instanceId := by
  cases candidate <;> rfl

@[simp] theorem enter_retryEpochs :
    (store.enter candidate pair key).retryEpochs = store.retryEpochs := by
  cases candidate <;> rfl

@[simp] theorem enter_candidateRetryEpochs :
    (store.enter candidate pair key).candidateRetryEpochs = store.candidateRetryEpochs := by
  cases candidate <;> rfl

@[simp] theorem enter_disk : (store.enter candidate pair key).disk = store.disk := by
  cases candidate <;> rfl

@[simp] theorem enter_failed : (store.enter candidate pair key).failed = store.failed := by
  cases candidate <;> rfl

@[simp] theorem enter_nextSlot :
    (store.enter candidate pair key).nextSlot = store.nextSlot + 1 := by
  cases candidate <;> rfl

@[simp] theorem enter_pairs : (store.enter candidate pair key).pairs =
    if candidate then store.pairs else store.pairs.insert pair.peerId pair := by
  cases candidate <;> rfl

@[simp] theorem enter_candidates : (store.enter candidate pair key).candidates =
    if candidate then store.candidates.insert pair.peerId pair else store.candidates := by
  cases candidate <;> rfl

theorem enter_keys : (store.enter candidate pair key).keys =
    (if candidate then store else store.dropKeys pair.peerId pair.epoch).keys.insert store.nextSlot
      (PairKeyState.new key pair.peerId pair.epoch) := by
  cases candidate <;> rfl

theorem enter_watermark (peer : PeerId) : (store.enter candidate pair key).watermark peer =
    if pair.peerId = peer then max (store.watermark peer) pair.epoch else store.watermark peer := by
  have raised : (store.epochWatermarks.insert pair.peerId
      (max (store.watermark pair.peerId) pair.epoch))[peer]?.getD 0 =
      if pair.peerId = peer then max (store.watermark peer) pair.epoch
      else store.watermark peer := by
    rw [Map.get_insert]
    split
    · rename_i same
      rw [same]
      rfl
    · rfl
  cases candidate <;> exact raised

theorem enter_keys_cases {slot : Nat} {state : PairKeyState}
    (found : (store.enter candidate pair key).keys[slot]? = some state) :
    (slot = store.nextSlot ∧ state = PairKeyState.new key pair.peerId pair.epoch) ∨
      (slot ≠ store.nextSlot ∧ store.keys[slot]? = some state ∧
        (candidate = false → ¬ (state.peerId = pair.peerId ∧ state.epoch = pair.epoch))) := by
  rw [enter_keys, Map.get_insert] at found
  split at found
  · rename_i same
    exact .inl ⟨same.symm, (Option.some.inj found).symm⟩
  · rename_i different
    refine .inr ⟨Ne.symm different, ?_⟩
    cases candidate with
    | true => exact ⟨found, nofun⟩
    | false =>
      simp only [Bool.false_eq_true, ↓reduceIte, dropKeys, Map.get_filter] at found
      obtain ⟨get, kept⟩ := Option.filter_eq_some_iff.mp found
      exact ⟨get, fun _ => of_decide_eq_true kept⟩

end

section

variable (ok : Bool) (store : KeyStore)

/-- The store after an attempt to write its file. -/
def written : KeyStore := (persist ok store).2

@[simp] theorem written_identity : (written ok store).identity = store.identity := by
  cases ok <;> rfl

@[simp] theorem written_peers : (written ok store).peers = store.peers := by
  cases ok <;> rfl

@[simp] theorem written_instanceId : (written ok store).instanceId = store.instanceId := by
  cases ok <;> rfl

@[simp] theorem written_nextSlot : (written ok store).nextSlot = store.nextSlot := by
  cases ok <;> rfl

@[simp] theorem written_keys : (written ok store).keys = store.keys := by
  cases ok <;> rfl

@[simp] theorem written_pairs : (written ok store).pairs = store.pairs := by
  cases ok <;> rfl

@[simp] theorem written_candidates : (written ok store).candidates = store.candidates := by
  cases ok <;> rfl

@[simp] theorem written_retryEpochs : (written ok store).retryEpochs = store.retryEpochs := by
  cases ok <;> rfl

@[simp] theorem written_candidateRetryEpochs :
    (written ok store).candidateRetryEpochs = store.candidateRetryEpochs := by
  cases ok <;> rfl

@[simp] theorem written_epochWatermarks :
    (written ok store).epochWatermarks = store.epochWatermarks := by
  cases ok <;> rfl

@[simp] theorem written_watermark (peer : PeerId) :
    (written ok store).watermark peer = store.watermark peer := by
  cases ok <;> rfl

theorem written_disk :
    (written ok store).disk = if ok then some store.snapshot else store.disk := by
  cases ok <;> rfl

theorem written_failed : (written ok store).failed = (store.failed || !ok) := by
  cases ok with
  | true => exact (Bool.or_false _).symm
  | false => exact (Bool.or_true _).symm

end

theorem ensures_persist {α : Type} {f : Unit → Action Error KeyStore α} {ok : Bool} {s : KeyStore}
    {Q : Result α → KeyStore → Prop} (err : ok = false → Q (.error .io) (written ok s))
    (next : ok = true → Action.Ensures (f ()) (written ok s) Q) :
    Action.Ensures (persist ok >>= f) s Q := by
  apply Action.Ensures.bind
  unfold Action.Ensures
  cases ok with
  | true => exact next rfl
  | false => exact err rfl

/-- What an installation leaves: nothing when the slots or the candidates are used
up, else the store with the key in it. -/
def InstallsTo {α : Type} (ok : Bool) (s : KeyStore) (candidate : Bool) (pair : PersistedPair)
    (key : Bytes) (result : Result α) (t : KeyStore) : Prop :=
  (t = s ∧ ∃ error, result = .error error) ∨
    (t = written ok (s.enter candidate pair key) ∧
      (candidate = true → s.candidates[pair.peerId]? = none) ∧ (result.isOk = true → ok = true))

theorem installAs_exact (env : KeyEnv) (candidate : Bool) (peer initiator : PeerId)
    (message : WrapMessage) (key : Bytes) (s : KeyStore) :
    Action.Ensures (installAs env candidate peer initiator message key) s
      (InstallsTo env.persists s candidate ⟨peer, message.epoch, initiator, message⟩ key) := by
  unfold installAs
  cases candidate with
  | true =>
    simp only [↓reduceIte]
    unfold installCandidate
    refine .get ?_
    refine .require (fun _ => .inl ⟨rfl, _, rfl⟩) fun vacant => ?_
    refine .require (fun _ => .inl ⟨rfl, _, rfl⟩) fun _ => ?_
    refine ensures_takeSlot (fun e => .inl ⟨rfl, e, rfl⟩) ?_
    refine .modify (.modify (.modify ?_))
    refine ensures_persist (fun failed => ?_) fun saved => ?_
    · exact .inr ⟨rfl, fun _ => vacant, nofun⟩
    · exact .inr ⟨rfl, fun _ => vacant, fun _ => saved⟩
  | false =>
    simp only [Bool.false_eq_true, ↓reduceIte]
    unfold install
    refine ensures_takeSlot (fun e => .inl ⟨rfl, e, rfl⟩) ?_
    refine .modify (.modify (.modify (.modify ?_)))
    refine ensures_persist (fun failed => ?_) fun saved => ?_
    · exact .inr ⟨rfl, nofun, nofun⟩
    · exact .inr ⟨rfl, nofun, fun _ => saved⟩

section

variable [Primitives]

/-- The store in which a received wrap is installed: a collision lost is noted, and
the candidate it displaces is gone. -/
def yielded (store : KeyStore) (sender : PeerId) (message : WrapMessage) (standing : WrapStanding)
    (candidate : Bool) : KeyStore :=
  (if standing = .collision then store.recordRetry sender candidate (message.epoch + 1)
    else store).replaceCandidate sender standing candidate

def authentic (store : KeyStore) (sender : PeerId) (message : WrapMessage) : Result Unit := do
  let document ← okOr store.peers[sender]? .keyUnavailable
  let signed ← wrapM message
  mlDsaVerify document.vk .wrap signed message.signature

/-- A wrap that passes the checks of `unwrap_inner`, with its standing. -/
structure Accepted (s : KeyStore) (candidate : Bool) (sender : PeerId) (message : WrapMessage)
    (standing : WrapStanding) (key : Bytes) : Prop where
  authentic : s.authentic sender message = .ok ()
  minId : message.minId = min s.localId sender
  maxId : message.maxId = max s.localId sender
  stands : wrapStanding s (if candidate then s.candidates[sender]? else s.pairs[sender]?)
    (s.watermark sender + 1) sender message candidate = .ok standing
  notCached : standing ≠ .cached
  late : ¬ (candidate = true ∧ standing ≠ .collision ∧ message.epoch < s.watermark sender + 1)
  opens : openWrap s message = .ok key

theorem Accepted.standing_cases {s : KeyStore} {candidate : Bool} {sender : PeerId}
    {message : WrapMessage} {standing : WrapStanding} {key : Bytes}
    (accepted : Accepted s candidate sender message standing key) :
    let existing := if candidate then s.candidates[sender]? else s.pairs[sender]?
    (existing = none ∧ standing = .fresh ∧
        (candidate = false → sender < s.localId ∧ message.epoch = s.watermark sender + 1)) ∨
      ∃ previous, existing = some previous ∧
        ((standing = .collision ∧ message.epoch = previous.epoch ∧ sender < previous.initiator) ∨
          (previous.epoch < message.epoch ∧
            standing = if candidate then .supersede else .fresh)) := by
  intro existing
  have stands : wrapStanding s existing (s.watermark sender + 1) sender message candidate =
    .ok standing := accepted.stands
  clear_value existing
  unfold wrapStanding at stands
  split at stands
  · obtain ⟨_, contact, same⟩ := Result.bind_eq_ok.mp stands
    cases same
    refine .inl ⟨rfl, rfl, fun confirmed => ?_⟩
    have first := ensure_eq_ok.mp contact
    simp only [confirmed, true_and, not_or, not_le, ne_eq, Decidable.not_not] at first
    exact first
  · rename_i previous
    refine .inr ⟨previous, rfl, ?_⟩
    split at stands
    · cases stands
    · rename_i notStale
      split at stands
      · rename_i same
        split at stands
        · cases stands
          exact absurd rfl accepted.notCached
        · split at stands
          · obtain ⟨_, _, impossible⟩ := Result.bind_eq_ok.mp stands
            cases impossible
          · rename_i loses
            cases stands
            exact .inl ⟨rfl, same, not_le.mp loses⟩
      · rename_i different
        have later : previous.epoch < message.epoch :=
          lt_of_le_of_ne (not_lt.mp notStale) (Ne.symm different)
        split at stands
        · cases stands
          exact .inr ⟨later, by simp [*]⟩
        · cases stands
          exact .inr ⟨later, by simp [*]⟩

inductive Move (s : KeyStore) : KeyStore → Prop
  | refused : Move s s
  /-- A wrap of our own found no slot. -/
  | cleared (peer : PeerId) (candidate : Bool) : Move s (s.clearRetry peer candidate)
  | created {candidate : Bool} {pair : PersistedPair} {key : Bytes} (ok : Bool)
      (alive : s.failed = false) (own : pair.initiator = s.localId)
      (next : pair.epoch = s.watermark pair.peerId + 1) (wrap : pair.wrap.epoch = pair.epoch)
      (known : s.peers[pair.peerId]? ≠ none)
      (vacant : candidate = true → s.candidates[pair.peerId]? = none) :
      Move s (written ok ((s.clearRetry pair.peerId candidate).enter candidate pair key))
  /-- A received wrap found no slot. -/
  | yielded {candidate : Bool} {sender : PeerId} {message : WrapMessage} {standing : WrapStanding}
      {key : Bytes} (alive : s.failed = false)
      (accepted : Accepted s candidate sender message standing key) :
      Move s (s.yielded sender message standing candidate)
  | unwrapped {candidate : Bool} {sender : PeerId} {message : WrapMessage}
      {standing : WrapStanding} {key : Bytes} (ok : Bool) (alive : s.failed = false)
      (accepted : Accepted s candidate sender message standing key) :
      Move s (written ok ((s.yielded sender message standing candidate).enter candidate
        ⟨sender, message.epoch, sender, message⟩ key))
  | promoted {peer : PeerId} {candidate : PersistedPair} (ok : Bool) (alive : s.failed = false)
      (found : s.candidates[peer]? = some candidate)
      (newer : ∀ confirmed ∈ s.pairs[peer]?, confirmed.epoch < candidate.epoch) :
      Move s (written ok { s with
        candidates := s.candidates.erase peer
        pairs := s.pairs.insert peer candidate
        candidateRetryEpochs := s.candidateRetryEpochs.erase peer })
  | discarded {peer : PeerId} {candidate : PersistedPair} (ok : Bool) (alive : s.failed = false)
      (found : s.candidates[peer]? = some candidate) :
      Move s (written ok { ({ s with candidates := s.candidates.erase peer }.dropKeys peer
        candidate.epoch) with candidateRetryEpochs := s.candidateRetryEpochs.erase peer })
  | retired (slot : Nat) (ok : Bool) (alive : s.failed = false) :
      Move s (written ok { s with keys := s.keys.erase slot })
  | forgotten (peer : PeerId) (ok : Bool) (alive : s.failed = false) :
      Move s (written ok { s with
        keys := s.keys.filter fun _ state => state.peerId ≠ peer
        pairs := s.pairs.erase peer
        candidates := s.candidates.erase peer
        retryEpochs := s.retryEpochs.erase peer
        candidateRetryEpochs := s.candidateRetryEpochs.erase peer
        mailboxGates := s.mailboxGates.erase peer
        peers := s.peers.erase peer
        admittedPairs := s.admittedPairs.erase peer })
  | observed {peer : PeerId} {epoch : Nat} (ok : Bool) (alive : s.failed = false)
      (known : s.peers[peer]? ≠ none) (higher : s.watermark peer < epoch) :
      Move s (written ok { s with epochWatermarks := s.epochWatermarks.insert peer epoch })
  | imported (document : IdentityDocument) (ok : Bool) (alive : s.failed = false) :
      Move s (written ok { s with peers := s.peers.insert document.peerId document })
  /-- A slot seals or opens. -/
  | used {slot : Nat} {before after : PairKeyState} (found : s.keys[slot]? = some before)
      (step : SlotStep before after) : Move s { s with keys := s.keys.insert slot after }
  | poisoned : Move s { s with failed := true }

/-- What a wrap of our own leaves, with the wrap that was returned. -/
def Creates (env : KeyEnv) (s : KeyStore) (candidate : Bool) (peer : PeerId)
    (result : Result (PairSession × WrapMessage)) (t : KeyStore) : Prop :=
  ((t = s ∨ t = s.clearRetry peer candidate) ∧ ∃ error, result = .error error) ∨
    ∃ key message, env.pairKey = some key ∧ s.failed = false ∧
      message.epoch = s.watermark peer + 1 ∧ s.peers[peer]? ≠ none ∧
      (candidate = true → s.candidates[peer]? = none) ∧
      t = written env.persists ((s.clearRetry peer candidate).enter candidate
        ⟨peer, message.epoch, s.localId, message⟩ key) ∧
      ∀ session returned, result = .ok (session, returned) →
        env.persists = true ∧ returned = message

theorem Creates.move {env : KeyEnv} {s t : KeyStore} {candidate : Bool} {peer : PeerId}
    {result : Result (PairSession × WrapMessage)} (h : Creates env s candidate peer result t) :
    Move s t := by
  obtain ⟨rfl | rfl, -⟩ | ⟨key, message, -, alive, epoch, known, vacant, rfl, -⟩ := h
  · exact .refused
  · exact .cleared peer candidate
  · exact @Move.created _ s candidate ⟨peer, message.epoch, s.localId, message⟩ key env.persists alive
      rfl epoch rfl known vacant

omit [Primitives] in
private theorem ensures_enterCreate {env : KeyEnv} {peer : PeerId} {candidate : Bool} {s : KeyStore}
    {key : Bytes} (message : WrapMessage) (fresh : env.pairKey = some key)
    (alive : s.failed = false) (epoch : message.epoch = s.watermark peer + 1)
    (known : s.peers[peer]? ≠ none) (vacant : candidate = true → s.candidates[peer]? = none) :
    Action.Ensures (do
        Action.modify fun store => store.clearRetry peer candidate
        let session ← installAs env candidate peer s.localId message key
        pure (session, message)) s (Creates env s candidate peer) := by
  refine .modify ?_
  refine .next (installAs_exact env candidate peer s.localId message key _) ?_ ?_
  · intro e t outcome
    obtain ⟨rfl, -⟩ | ⟨rfl, -, -⟩ := outcome
    · exact .inl ⟨.inr rfl, e, rfl⟩
    · exact .inr ⟨key, message, fresh, alive, epoch, known, vacant, rfl, nofun⟩
  · intro session t outcome
    obtain ⟨-, _, impossible⟩ | ⟨rfl, -, saved⟩ := outcome
    · cases impossible
    · refine .inr ⟨key, message, fresh, alive, epoch, known, vacant, rfl, ?_⟩
      intro _ _ same
      cases same
      exact ⟨saved rfl, rfl⟩

theorem createInner_exact (env : KeyEnv) (peer : PeerId) (ek : Bytes) (epoch : Nat)
    (candidate : Bool) (s : KeyStore) :
    Action.Ensures (createInner env peer ek epoch candidate) s (Creates env s candidate peer) := by
  have err : ∀ e : Error, Creates env s candidate peer (.error e) s :=
    fun e => .inl ⟨.inl rfl, e, rfl⟩
  unfold createInner
  refine .query (fun e _ => err e) fun _ locked => ?_
  refine .get ?_
  refine .ofExcept (fun e _ => err e) fun document imported => ?_
  refine .require (fun _ => err _) fun _ => ?_
  refine .require (fun _ => err _) fun vacant => ?_
  refine .require (fun _ => err _) fun _ => ?_
  refine .ofExcept (fun e _ => err e) fun next nextOk => ?_
  refine .require (fun _ => err _) fun epochOk => ?_
  refine .ofExcept (fun e _ => err e) fun pairKey keyOk => ?_
  refine .require (fun _ => err _) fun _ => ?_
  refine .ofExcept (fun e _ => err e) fun randomness _ => ?_
  refine .ofExcept (fun e _ => err e) fun wrapKey _ => ?_
  refine .ofExcept (fun e _ => err e) fun aad _ => ?_
  refine .ofExcept (fun e _ => err e) fun signed _ => ?_
  have alive : s.failed = false := ensure_eq_ok.mp locked
  have above : epoch = s.watermark peer + 1 := epochOk.trans (checkedAdd_eq_ok.mp nextOk).2
  have known : s.peers[peer]? ≠ none := by simp [okOr_eq_ok.mp imported]
  have free : candidate = true → s.candidates[peer]? = none := by
    intro isCandidate
    by_contra occupied
    exact vacant ⟨isCandidate, occupied⟩
  exact ensures_enterCreate _ (okOr_eq_ok.mp keyOk) alive above known free

theorem createInner_refused (env : KeyEnv) {peer : PeerId} (ek : Bytes) {epoch : Nat}
    (candidate : Bool) {s : KeyStore} (other : epoch ≠ s.watermark peer + 1) :
    (createInner env peer ek epoch candidate s).2 = s := by
  refine (?_ : Action.Ensures (createInner env peer ek epoch candidate) s fun _ t => t = s)
  unfold createInner
  refine .query (fun _ _ => rfl) fun _ _ => ?_
  refine .get ?_
  refine .ofExcept (fun _ _ => rfl) fun _ _ => ?_
  refine .require (fun _ => rfl) fun _ => ?_
  refine .require (fun _ => rfl) fun _ => ?_
  refine .require (fun _ => rfl) fun _ => ?_
  refine .ofExcept (fun _ _ => rfl) fun next nextOk => ?_
  refine .require (fun _ => rfl) fun epochOk => ?_
  exact absurd (epochOk.trans (checkedAdd_eq_ok.mp nextOk).2) other

/-- What a received wrap leaves. A session is returned for a wrap that is
installed, now or already. -/
def Unwraps (env : KeyEnv) (s : KeyStore) (candidate : Bool) (sender : PeerId)
    (message : WrapMessage) (result : Result PairSession) (t : KeyStore) : Prop :=
  (t = s ∧ ∃ error, result = .error error) ∨
    (t = s ∧ Cached s candidate sender message ∧ s.failed = false) ∨
    ∃ standing key, s.failed = false ∧ Accepted s candidate sender message standing key ∧
      ((t = s ∧ ∃ error, result = .error error) ∨
        (t = s.yielded sender message standing candidate ∧ ∃ error, result = .error error) ∨
        (t = written env.persists ((s.yielded sender message standing candidate).enter candidate
            ⟨sender, message.epoch, sender, message⟩ key) ∧
          (result.isOk = true → env.persists = true)))

theorem Unwraps.move {env : KeyEnv} {s t : KeyStore} {candidate : Bool} {sender : PeerId}
    {message : WrapMessage} {result : Result PairSession}
    (h : Unwraps env s candidate sender message result t) : Move s t := by
  obtain ⟨rfl, -⟩ | ⟨rfl, -, -⟩ | ⟨standing, key, alive, accepted, ⟨rfl, -⟩ | ⟨rfl, -⟩ | ⟨rfl, -⟩⟩ := h
  · exact .refused
  · exact .refused
  · exact .refused
  · exact .yielded alive accepted
  · exact .unwrapped env.persists alive accepted

theorem unwrapInner_exact (env : KeyEnv) (sender : PeerId) (message : WrapMessage)
    (candidate : Bool) (s : KeyStore) :
    Action.Ensures (unwrapInner env sender message candidate) s
      (Unwraps env s candidate sender message) := by
  have err : ∀ e : Error, Unwraps env s candidate sender message (.error e) s :=
    fun e => .inl ⟨rfl, e, rfl⟩
  unfold unwrapInner
  refine .query (fun e _ => err e) fun _ locked => ?_
  refine .get ?_
  refine .ofExcept (fun e _ => err e) fun document imported => ?_
  refine .require (fun _ => err _) fun ids => ?_
  refine .ofExcept (fun e _ => err e) fun signed signedOk => ?_
  refine .ofExcept (fun e _ => err e) fun _ verified => ?_
  refine .ofExcept (fun e _ => err e) fun expected expectedOk => ?_
  obtain ⟨_, rfl⟩ := checkedAdd_eq_ok.mp expectedOk
  refine .ofExcept (fun e _ => err e) fun standing stands => ?_
  have alive : s.failed = false := ensure_eq_ok.mp locked
  split
  · rename_i isCached
    subst isCached
    exact .inr (.inl ⟨rfl, cached_of_wrapStanding stands, alive⟩)
  · rename_i notCached
    refine .require (fun _ => err _) fun late => ?_
    refine .ofExcept (fun e _ => err e) fun key opens => ?_
    have authentic : s.authentic sender message = .ok () :=
      Result.bind_eq_ok.mpr ⟨document, imported, Result.bind_eq_ok.mpr ⟨signed, signedOk, verified⟩⟩
    have accepted : Accepted s candidate sender message standing key :=
      ⟨authentic, ids.1, ids.2, stands, notCached, late, opens⟩
    have installs : ∀ u : KeyStore,
        u.replaceCandidate sender standing candidate =
          s.yielded sender message standing candidate →
        Action.Ensures (do
          Action.modify fun store => store.replaceCandidate sender standing candidate
          installAs env candidate sender sender message key) u
            (Unwraps env s candidate sender message) := by
      intro u same
      refine .modify ?_
      rw [same]
      refine (installAs_exact env candidate sender sender message key _).mono fun r t outcome => ?_
      obtain ⟨rfl, failed⟩ | ⟨rfl, -, saved⟩ := outcome
      · exact .inr (.inr ⟨standing, key, alive, accepted, .inr (.inl ⟨rfl, failed⟩)⟩)
      · exact .inr (.inr ⟨standing, key, alive, accepted, .inr (.inr ⟨rfl, saved⟩)⟩)
    apply Action.Ensures.bind
    unfold noteCollision
    split
    · rename_i collides
      refine .ofExcept (fun e _ => err e) fun retry retryOk => ?_
      obtain ⟨_, rfl⟩ := checkedAdd_eq_ok.mp retryOk
      refine installs _ ?_
      rw [yielded, if_pos collides]
      rfl
    · rename_i other
      refine installs s ?_
      rw [yielded, if_neg other]

omit [Primitives] in
theorem promoteCandidate_exact (env : KeyEnv) (peer : PeerId) (epoch : Nat) (s : KeyStore) :
    Action.Ensures (promoteCandidate env peer epoch) s fun result t =>
      (t = s ∧ ∃ error, result = .error error) ∨
      ∃ candidate, s.failed = false ∧ s.candidates[peer]? = some candidate ∧
        candidate.epoch = epoch ∧
        (∀ confirmed ∈ s.pairs[peer]?, confirmed.epoch < candidate.epoch) ∧
        t = written env.persists { s with
          candidates := s.candidates.erase peer
          pairs := s.pairs.insert peer candidate
          candidateRetryEpochs := s.candidateRetryEpochs.erase peer } ∧
        (result.isOk = true → env.persists = true ∧ result = t.innerSession peer epoch) := by
  unfold promoteCandidate
  refine .query (fun e _ => .inl ⟨rfl, e, rfl⟩) fun _ locked => ?_
  refine .get ?_
  refine .ofExcept (fun e _ => .inl ⟨rfl, e, rfl⟩) fun candidate found => ?_
  refine .require (fun _ => .inl ⟨rfl, _, rfl⟩) fun same => ?_
  refine .require (fun _ => .inl ⟨rfl, _, rfl⟩) fun newer => ?_
  have alive : s.failed = false := ensure_eq_ok.mp locked
  refine .modify ?_
  refine ensures_persist (fun failed => ?_) fun saved => ?_
  · exact .inr ⟨candidate, alive, okOr_eq_ok.mp found, same, newer, rfl, nofun⟩
  · exact .inr ⟨candidate, alive, okOr_eq_ok.mp found, same, newer, rfl, fun _ => ⟨saved, rfl⟩⟩

theorem promoteCandidate_move (env : KeyEnv) (peer : PeerId) (epoch : Nat) (s : KeyStore) :
    Move s (promoteCandidate env peer epoch s).2 := by
  obtain ⟨same, -⟩ | ⟨candidate, alive, found, -, newer, same, -⟩ :=
    promoteCandidate_exact env peer epoch s
  · rw [same]
    exact .refused
  · rw [same]
    exact .promoted env.persists alive found newer

omit [Primitives] in
theorem discardCandidate_exact (env : KeyEnv) (peer : PeerId) (s : KeyStore) :
    Action.Ensures (discardCandidate env peer) s fun result t =>
      t = s ∨ ∃ candidate, s.failed = false ∧ s.candidates[peer]? = some candidate ∧
        t = written env.persists { ({ s with candidates := s.candidates.erase peer }.dropKeys peer
          candidate.epoch) with candidateRetryEpochs := s.candidateRetryEpochs.erase peer } ∧
        (result.isOk = true → env.persists = true) := by
  unfold discardCandidate
  refine .query (fun e _ => .inl rfl) fun _ locked => ?_
  refine .get ?_
  have alive : s.failed = false := ensure_eq_ok.mp locked
  split
  · exact .inl rfl
  · rename_i candidate found
    refine .modify (.modify (.modify ?_))
    unfold Action.Ensures
    cases saved : env.persists with
    | true => exact .inr ⟨candidate, alive, found, rfl, fun _ => rfl⟩
    | false => exact .inr ⟨candidate, alive, found, rfl, nofun⟩

theorem discardCandidate_move (env : KeyEnv) (peer : PeerId) (s : KeyStore) :
    Move s (discardCandidate env peer s).2 := by
  obtain same | ⟨candidate, alive, found, same, -⟩ := discardCandidate_exact env peer s
  · rw [same]
    exact .refused
  · rw [same]
    exact .discarded env.persists alive found

omit [Primitives] in
theorem retire_exact (env : KeyEnv) (handle : PairKeyHandle) (s : KeyStore) :
    Action.Ensures (retire env handle) s fun _ t => t = s ∨
      (s.failed = false ∧ s.keys[handle.slot]? ≠ none ∧
        t = written env.persists { s with keys := s.keys.erase handle.slot }) := by
  unfold retire
  refine .query (fun _ _ => .inl rfl) fun _ locked => ?_
  refine .get ?_
  refine .require (fun _ => .inl rfl) fun _ => ?_
  refine .require (fun _ => .inl rfl) fun live => ?_
  exact .modify (.inr ⟨ensure_eq_ok.mp locked, live, rfl⟩)

theorem retire_move (env : KeyEnv) (handle : PairKeyHandle) (s : KeyStore) :
    Move s (retire env handle s).2 := by
  obtain same | ⟨alive, -, same⟩ := retire_exact env handle s
  · rw [same]
    exact .refused
  · rw [same]
    exact .retired handle.slot env.persists alive

omit [Primitives] in
theorem discardPair_exact (env : KeyEnv) (peer : PeerId) (s : KeyStore) :
    Action.Ensures (discardPair env peer) s fun _ t => t = s ∨
      (s.failed = false ∧ t = written env.persists { s with
        keys := s.keys.filter fun _ state => state.peerId ≠ peer
        pairs := s.pairs.erase peer
        candidates := s.candidates.erase peer
        retryEpochs := s.retryEpochs.erase peer
        candidateRetryEpochs := s.candidateRetryEpochs.erase peer
        mailboxGates := s.mailboxGates.erase peer
        peers := s.peers.erase peer
        admittedPairs := s.admittedPairs.erase peer }) := by
  unfold discardPair
  refine .query (fun _ _ => .inl rfl) fun _ locked => ?_
  exact .modify (.inr ⟨ensure_eq_ok.mp locked, rfl⟩)

theorem discardPair_move (env : KeyEnv) (peer : PeerId) (s : KeyStore) :
    Move s (discardPair env peer s).2 := by
  obtain same | ⟨alive, same⟩ := discardPair_exact env peer s
  · rw [same]
    exact .refused
  · rw [same]
    exact .forgotten peer env.persists alive

omit [Primitives] in
theorem observeRemoteEpoch_exact (env : KeyEnv) (peer : PeerId) (epoch : Nat) (s : KeyStore) :
    Action.Ensures (observeRemoteEpoch env peer epoch) s fun _ t => t = s ∨
      (s.failed = false ∧ s.peers[peer]? ≠ none ∧ s.watermark peer < epoch ∧
        t = written env.persists { s with
          epochWatermarks := s.epochWatermarks.insert peer epoch }) := by
  unfold observeRemoteEpoch
  refine .query (fun _ _ => .inl rfl) fun _ locked => ?_
  refine .get ?_
  refine .require (fun _ => .inl rfl) fun known => ?_
  refine .ite (fun higher => ?_) fun _ => .inl rfl
  exact .modify (.inr ⟨ensure_eq_ok.mp locked, known, higher, rfl⟩)

theorem observeRemoteEpoch_move (env : KeyEnv) (peer : PeerId) (epoch : Nat) (s : KeyStore) :
    Move s (observeRemoteEpoch env peer epoch s).2 := by
  obtain same | ⟨alive, known, higher, same⟩ := observeRemoteEpoch_exact env peer epoch s
  · rw [same]
    exact .refused
  · rw [same]
    exact .observed env.persists alive known higher

theorem retryCollision_exact (env : KeyEnv) (peer : PeerId) (s : KeyStore) :
    Action.Ensures (retryCollision env peer) s (Creates env s false peer) := by
  have err : ∀ e : Error, Creates env s false peer (.error e) s :=
    fun e => .inl ⟨.inl rfl, e, rfl⟩
  unfold retryCollision
  refine .query (fun e _ => err e) fun _ _ => ?_
  refine .get ?_
  refine .ofExcept (fun e _ => err e) fun epoch _ => ?_
  refine .ofExcept (fun e _ => err e) fun document _ => ?_
  exact createInner_exact env peer document.ek epoch false s

theorem retryCollision_refused (env : KeyEnv) {peer : PeerId} {s : KeyStore}
    (none : s.retryEpochs[peer]? = none) : (retryCollision env peer s).2 = s := by
  refine (?_ : Action.Ensures (retryCollision env peer) s fun _ t => t = s)
  unfold retryCollision
  refine .query (fun _ _ => rfl) fun _ _ => ?_
  refine .get ?_
  refine .ofExcept (fun _ _ => rfl) fun epoch found => ?_
  rw [okOr_eq_ok, none] at found
  cases found

theorem retryCandidateCollision_exact (discard env : KeyEnv) (peer : PeerId) (s : KeyStore) :
    Action.Ensures (retryCandidateCollision discard env peer) s fun result t =>
      (t = s ∧ ∃ error, result = .error error) ∨
        (t = (discardCandidate discard peer s).2 ∧ ∃ error, result = .error error) ∨
        Creates env (discardCandidate discard peer s).2 true peer result t := by
  unfold retryCandidateCollision
  refine .query (fun e _ => .inl ⟨rfl, e, rfl⟩) fun _ _ => ?_
  refine .get ?_
  refine .ofExcept (fun e _ => .inl ⟨rfl, e, rfl⟩) fun epoch _ => ?_
  refine .ofExcept (fun e _ => .inl ⟨rfl, e, rfl⟩) fun document _ => ?_
  apply Action.Ensures.bind
  unfold Action.Ensures
  cases (discardCandidate discard peer s).1 with
  | error e => exact .inr (.inl ⟨rfl, e, rfl⟩)
  | ok _ => exact .inr (.inr (createInner_exact env peer document.ek epoch true _))

theorem retryCandidateCollision_refused (discard env : KeyEnv) {peer : PeerId} {s : KeyStore}
    (none : s.candidateRetryEpochs[peer]? = none) :
    (retryCandidateCollision discard env peer s).2 = s := by
  refine (?_ : Action.Ensures (retryCandidateCollision discard env peer) s fun _ t => t = s)
  unfold retryCandidateCollision
  refine .query (fun _ _ => rfl) fun _ _ => ?_
  refine .get ?_
  refine .ofExcept (fun _ _ => rfl) fun epoch found => ?_
  rw [okOr_eq_ok, none] at found
  cases found

def Rekeyed (s : KeyStore) (document : IdentityDocument) : Prop :=
  ∃ old, s.peers[document.peerId]? = some old ∧ old.ek ≠ document.ek ∧
    s.pairs[document.peerId]? ≠ none

/-- What an imported identity leaves: the peer is known, and a new encapsulation key
of a pair may have been answered with a wrap of our own. -/
inductive Imports (env : KeyEnv) (s : KeyStore) (document : IdentityDocument) :
    Result Unit → KeyStore → Prop
  | refused (error : Error) : Imports env s document (.error error) s
  | stored (result : Result Unit) (alive : s.failed = false) : Imports env s document result
      (written env.persists { s with peers := s.peers.insert document.peerId document })
  | wrapped {t : KeyStore} {session : PairSession} {message : WrapMessage} (alive : s.failed = false)
      (rekeyed : Rekeyed s document) (saved : env.persists = true) (wrap : Creates { env with persists := env.rewraps }
        (written true { s with peers := s.peers.insert document.peerId document }) false
        document.peerId (.ok (session, message)) t) : Imports env s document (.ok ()) t
  | poisoned {t : KeyStore} {error : Error} (result : Error) (poison : Bool)
      (alive : s.failed = false) (rekeyed : Rekeyed s document) (saved : env.persists = true)
      (wrap : Creates { env with persists := env.rewraps }
        (written true { s with peers := s.peers.insert document.peerId document }) false
        document.peerId (.error error) t) :
      Imports env s document (.error result) (if poison then { t with failed := true } else t)

theorem importPeer_exact (env : KeyEnv) (document : IdentityDocument) (s : KeyStore) :
    Action.Ensures (importPeer env document) s (Imports env s document) := by
  unfold importPeer
  refine .ofExcept (fun e _ => .refused e) fun _ _ => ?_
  refine .query (fun e _ => .refused e) fun _ locked => ?_
  refine .get ?_
  refine .require (fun _ => .refused _) fun _ => ?_
  refine .require (fun _ => .refused _) fun _ => ?_
  have alive : s.failed = false := ensure_eq_ok.mp locked
  refine .modify ?_
  refine ensures_persist (fun _ => .stored _ alive) fun saved => ?_
  refine .ite (fun rewrap => ?_) fun _ => .stored _ alive
  have rekeyed : Rekeyed s document := by
    unfold Rekeyed
    cases known : s.peers[document.peerId]? with
    | none => simp [known] at rewrap
    | some old =>
      simp only [known, decide_eq_true_eq] at rewrap
      exact ⟨old, rfl, rewrap⟩
  refine .query (fun e _ => .stored _ alive) fun epoch _ => ?_
  apply Action.Ensures.bind
  unfold Action.Ensures
  rw [Action.attempt_apply]
  have wrap := createInner_exact { env with persists := env.rewraps } document.peerId document.ek
    epoch false (written env.persists { s with peers := s.peers.insert document.peerId document })
  unfold Action.Ensures at wrap
  unfold create
  generalize createInner { env with persists := env.rewraps } document.peerId document.ek epoch
    false (written env.persists { s with peers := s.peers.insert document.peerId document }) =
      outcome at wrap ⊢
  obtain ⟨result, t⟩ := outcome
  rw [saved] at wrap
  cases result with
  | ok returned => exact .wrapped alive rekeyed saved wrap
  | error error =>
    refine (Action.Ensures.query (fun e _ => ?_) fun _ _ => ?_ :
      Action.Ensures (Action.query lock >>= fun _ => _) t _)
    · exact .poisoned e false alive rekeyed saved wrap
    · exact .poisoned error true alive rekeyed saved wrap

end

end QuantumFs.Crypto.KeyStore
