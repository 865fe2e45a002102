import QuantumFs.Crypto.KeyStore

/-! What each pair-key operation can do to the store: either nothing is installed,
or one key enters a slot that was never used before. Every law of the store is
derived from these two facts. -/
namespace QuantumFs.Crypto.KeyStore

open Lib Encoding

/-- Nothing is installed: slots and candidates can only disappear. -/
structure Quiet (s t : KeyStore) : Prop where
  identity : t.identity = s.identity
  instanceId : t.instanceId = s.instanceId
  peers : t.peers = s.peers
  slots : s.nextSlot ≤ t.nextSlot
  keys : ∀ (slot : Nat) (state : PairKeyState), t.keys[slot]? = some state →
    s.keys[slot]? = some state
  pairs : t.pairs = s.pairs
  candidates : ∀ (peer : PeerId) (candidate : PersistedPair),
    t.candidates[peer]? = some candidate → s.candidates[peer]? = some candidate
  watermarks : t.epochWatermarks = s.epochWatermarks

theorem Quiet.refl (s : KeyStore) : Quiet s s :=
  ⟨rfl, rfl, rfl, le_refl _, fun _ _ h => h, rfl, fun _ _ h => h, rfl⟩

theorem Quiet.trans {s t u : KeyStore} (first : Quiet s t) (second : Quiet t u) : Quiet s u where
  identity := second.identity.trans first.identity
  instanceId := second.instanceId.trans first.instanceId
  peers := second.peers.trans first.peers
  slots := first.slots.trans second.slots
  keys := fun slot state h => first.keys slot state (second.keys slot state h)
  pairs := second.pairs.trans first.pairs
  candidates := fun peer candidate h => first.candidates peer candidate (second.candidates _ _ h)
  watermarks := second.watermarks.trans first.watermarks

theorem Quiet.watermark {s t : KeyStore} (h : Quiet s t) (peer : PeerId) :
    t.watermark peer = s.watermark peer := by
  rw [KeyStore.watermark, KeyStore.watermark, h.watermarks]

theorem Quiet.localId {s t : KeyStore} (h : Quiet s t) : t.localId = s.localId := by
  rw [KeyStore.localId, KeyStore.localId, h.identity]

/-- One key enters an unused slot, as the confirmed pair of a peer or as its
candidate; other slots and candidates can only disappear. -/
structure Installed (s t : KeyStore) (candidate : Bool) (pair : PersistedPair) (key : Bytes) :
    Prop where
  identity : t.identity = s.identity
  instanceId : t.instanceId = s.instanceId
  peers : t.peers = s.peers
  slot : ∃ slot : Nat, s.nextSlot ≤ slot ∧ slot < t.nextSlot ∧
    t.keys[slot]? = some (PairKeyState.new key pair.peerId pair.epoch) ∧
    ∀ (other : Nat) (state : PairKeyState), other ≠ slot → t.keys[other]? = some state →
      s.keys[other]? = some state
  pairs : t.pairs = if candidate then s.pairs else s.pairs.insert pair.peerId pair
  candidates : ∀ (peer : PeerId) (other : PersistedPair), t.candidates[peer]? = some other →
    (s.candidates[peer]? = some other ∧ (candidate = true → peer ≠ pair.peerId)) ∨
      (candidate = true ∧ peer = pair.peerId ∧ other = pair)
  watermark : ∀ peer, t.watermark peer =
    if pair.peerId = peer then max (s.watermark peer) pair.epoch else s.watermark peer

theorem Installed.of_quiet {s t u : KeyStore} {candidate : Bool} {pair : PersistedPair}
    {key : Bytes} (quiet : Quiet s t) (h : Installed t u candidate pair key) :
    Installed s u candidate pair key where
  identity := h.identity.trans quiet.identity
  instanceId := h.instanceId.trans quiet.instanceId
  peers := h.peers.trans quiet.peers
  slot := by
    obtain ⟨slot, unused, below, new, others⟩ := h.slot
    exact ⟨slot, quiet.slots.trans unused, below, new,
      fun other state ne get => quiet.keys other state (others other state ne get)⟩
  pairs := by rw [h.pairs, quiet.pairs]
  candidates := fun peer other get => (h.candidates peer other get).imp_left
    (And.imp_left (quiet.candidates peer other))
  watermark := fun peer => by rw [h.watermark, quiet.watermark]

theorem innerSession_isOk {store : KeyStore} {peer : PeerId} {epoch slot : Nat}
    {state : PairKeyState} (get : store.keys[slot]? = some state) (samePeer : state.peerId = peer)
    (sameEpoch : state.epoch = epoch) : ∃ session, store.innerSession peer epoch = .ok session := by
  unfold innerSession
  obtain ⟨entry, found⟩ : ∃ entry, (store.keys.toList.find? fun entry =>
      decide (entry.2.peerId = peer ∧ entry.2.epoch = epoch)) = some entry := by
    rw [← Option.isSome_iff_exists, List.find?_isSome]
    exact ⟨(slot, state), Map.mem_toList.mpr get, by simp [samePeer, sameEpoch]⟩
  exact ⟨_, Result.bind_eq_ok.mpr ⟨entry, okOr_eq_ok.mpr found, rfl⟩⟩

theorem quiet_dropKeys (store : KeyStore) (peer : PeerId) (epoch : Nat) :
    Quiet store (store.dropKeys peer epoch) where
  identity := rfl
  instanceId := rfl
  peers := rfl
  slots := le_refl _
  keys := fun slot state get => by
    rw [dropKeys, Map.get_filter] at get
    exact Option.filter_eq_some_iff.mp get |>.1
  pairs := rfl
  candidates := fun _ _ get => get
  watermarks := rfl

theorem quiet_clearRetry (store : KeyStore) (peer : PeerId) (candidate : Bool) :
    Quiet store (store.clearRetry peer candidate) := by
  unfold clearRetry
  split <;> exact ⟨rfl, rfl, rfl, le_refl _, fun _ _ h => h, rfl, fun _ _ h => h, rfl⟩

theorem quiet_recordRetry (store : KeyStore) (peer : PeerId) (candidate : Bool) (retry : Nat) :
    Quiet store (store.recordRetry peer candidate retry) := by
  unfold recordRetry
  split <;> exact ⟨rfl, rfl, rfl, le_refl _, fun _ _ h => h, rfl, fun _ _ h => h, rfl⟩

theorem quiet_eraseCandidate (store : KeyStore) (peer : PeerId) :
    Quiet store { store with candidates := store.candidates.erase peer } where
  identity := rfl
  instanceId := rfl
  peers := rfl
  slots := le_refl _
  keys := fun _ _ get => get
  pairs := rfl
  candidates := fun other candidate get => by
    rw [Map.get_erase] at get
    split at get
    · cases get
    · exact get
  watermarks := rfl

theorem quiet_replaceCandidate (store : KeyStore) (sender : PeerId) (standing : WrapStanding)
    (candidate : Bool) : Quiet store (store.replaceCandidate sender standing candidate) := by
  have forgets : ∀ dropped : KeyStore, Quiet store dropped → Quiet store
      (if standing = .supersede then
        { dropped with candidateRetryEpochs := dropped.candidateRetryEpochs.erase sender }
      else dropped) := by
    intro dropped quiet
    split
    · exact quiet.trans ⟨rfl, rfl, rfl, le_refl _, fun _ _ h => h, rfl, fun _ _ h => h, rfl⟩
    · exact quiet
  unfold replaceCandidate
  split
  · refine forgets _ ?_
    split
    · exact .refl store
    · exact (quiet_eraseCandidate store sender).trans (quiet_dropKeys _ _ _)
  · exact .refl store

theorem quiet_persist (ok : Bool) (store : KeyStore) : Quiet store (persist ok store).2 := by
  unfold persist
  split <;> exact ⟨rfl, rfl, rfl, le_refl _, fun _ _ h => h, rfl, fun _ _ h => h, rfl⟩

/-- What an installation leaves behind: it fails before anything is installed, it
succeeds, or the state file could not be replaced and the store is poisoned. -/
def InstallOutcome {α : Type} (s : KeyStore) (candidate : Bool) (pair : PersistedPair)
    (key : Bytes) (result : Result α) (t : KeyStore) : Prop :=
  (Quiet s t ∧ ∃ error, result = .error error) ∨
    (Installed s t candidate pair key ∧ ((∃ value, result = .ok value) ∨ t.failed = true))

theorem InstallOutcome.of_quiet {α : Type} {s t u : KeyStore} {candidate : Bool}
    {pair : PersistedPair} {key : Bytes} {result : Result α} (quiet : Quiet s t)
    (h : InstallOutcome t candidate pair key result u) :
    InstallOutcome s candidate pair key result u :=
  h.imp (fun ⟨rest, error⟩ => ⟨quiet.trans rest, error⟩)
    (fun ⟨installed, done⟩ => ⟨installed.of_quiet quiet, done⟩)

theorem InstallOutcome.map {α β : Type} {s t : KeyStore} {candidate : Bool} {pair : PersistedPair}
    {key : Bytes} {result : Result α} (h : InstallOutcome s candidate pair key result t)
    (f : α → β) : InstallOutcome s candidate pair key (result.map f) t := by
  obtain ⟨quiet, e, rfl⟩ | ⟨installed, ⟨a, rfl⟩ | failed⟩ := h
  · exact .inl ⟨quiet, e, rfl⟩
  · exact .inr ⟨installed, .inl ⟨f a, rfl⟩⟩
  · exact .inr ⟨installed, .inr failed⟩

/-- The store after a key has entered slot `slot` for the given pair. -/
private def afterInstall (s : KeyStore) (candidate : Bool) (slot : Nat) (pair : PersistedPair)
    (key : Bytes) : KeyStore :=
  let entered := { s with
    nextSlot := slot + 1
    keys := s.keys.insert slot (PairKeyState.new key pair.peerId pair.epoch) }.raiseWatermark
      pair.peerId pair.epoch
  if candidate then { entered with candidates := s.candidates.insert pair.peerId pair }
  else { entered with pairs := s.pairs.insert pair.peerId pair }

private theorem installed_afterInstall (s : KeyStore) (candidate : Bool) {slot : Nat}
    (unused : s.nextSlot ≤ slot) (pair : PersistedPair) (key : Bytes) :
    Installed s (afterInstall s candidate slot pair key) candidate pair key := by
  have watermark : ∀ peer, ((s.epochWatermarks.insert pair.peerId
      (max (s.watermark pair.peerId) pair.epoch))[peer]?.getD 0) =
      if pair.peerId = peer then max (s.watermark peer) pair.epoch else s.watermark peer := by
    intro peer
    rw [Map.get_insert]
    by_cases same : pair.peerId = peer
    · simp [same]
    · simp [same, KeyStore.watermark]
  have others : ∀ (other : Nat) (state : PairKeyState), other ≠ slot →
      (s.keys.insert slot (PairKeyState.new key pair.peerId pair.epoch))[other]? = some state →
      s.keys[other]? = some state := by
    intro other state different get
    rwa [Map.get_insert_ne _ _ (Ne.symm different)] at get
  have self : (s.keys.insert slot (PairKeyState.new key pair.peerId pair.epoch))[slot]? =
      some (PairKeyState.new key pair.peerId pair.epoch) := by
    rw [Map.get_insert, if_pos rfl]
  cases candidate with
  | true =>
    refine ⟨rfl, rfl, rfl, ⟨slot, unused, Nat.lt_succ_self slot, self, others⟩, rfl, ?_, watermark⟩
    intro peer other get
    change (s.candidates.insert pair.peerId pair)[peer]? = some other at get
    rw [Map.get_insert] at get
    split at get
    · rename_i same
      exact .inr ⟨rfl, same.symm, (Option.some.inj get).symm⟩
    · rename_i different
      exact .inl ⟨get, fun _ same => different same.symm⟩
  | false =>
    exact ⟨rfl, rfl, rfl, ⟨slot, unused, Nat.lt_succ_self slot, self, others⟩, rfl,
      fun _ _ get => .inl ⟨get, nofun⟩, watermark⟩

private theorem finishInstall {s t : KeyStore} {candidate : Bool} {pair : PersistedPair}
    {key : Bytes} (installed : Installed s t candidate pair key) (ok : Bool) :
    Action.Ensures (do
        persist ok
        Action.query fun store => store.innerSession pair.peerId pair.epoch) t
      (InstallOutcome s candidate pair key) := by
  apply Action.Ensures.bind
  unfold persist Action.Ensures
  cases ok with
  | true =>
    obtain ⟨slot, _, _, new, _⟩ := installed.slot
    obtain ⟨session, found⟩ := innerSession_isOk new rfl rfl
    have same : ({ t with disk := some t.snapshot } : KeyStore).innerSession pair.peerId
        pair.epoch = .ok session := found
    simp only [↓reduceIte, Action.query_apply, same]
    exact .inr ⟨⟨installed.identity, installed.instanceId, installed.peers, installed.slot,
      installed.pairs, installed.candidates, installed.watermark⟩, .inl ⟨session, rfl⟩⟩
  | false =>
    simp only [Bool.false_eq_true, ↓reduceIte]
    exact .inr ⟨⟨installed.identity, installed.instanceId, installed.peers, installed.slot,
      installed.pairs, installed.candidates, installed.watermark⟩, .inr rfl⟩

theorem ensures_takeSlot {α : Type} {f : Nat → Action Error KeyStore α} {s : KeyStore}
    {Q : Result α → KeyStore → Prop} (err : ∀ e, Q (.error e) s)
    (ok : Action.Ensures (f s.nextSlot) { s with nextSlot := s.nextSlot + 1 } Q) :
    Action.Ensures (takeSlot >>= f) s Q := by
  apply Action.Ensures.bind
  unfold takeSlot
  apply Action.Ensures.get
  refine Action.Ensures.ofExcept (fun e _ => err e) fun next slotOk => ?_
  obtain ⟨_, rfl⟩ := checkedAdd_eq_ok.mp slotOk
  exact Action.Ensures.modify ok

theorem install_outcome (env : KeyEnv) (peer initiator : PeerId) (message : WrapMessage)
    (key : Bytes) (s : KeyStore) :
    Action.Ensures (install env peer initiator message key) s
      (InstallOutcome s false ⟨peer, message.epoch, initiator, message⟩ key) := by
  unfold install
  refine ensures_takeSlot (fun e => .inl ⟨.refl s, e, rfl⟩) ?_
  apply Action.Ensures.modify
  apply Action.Ensures.modify
  apply Action.Ensures.modify
  apply Action.Ensures.modify
  have quiet : Quiet s (s.dropKeys peer message.epoch) := quiet_dropKeys _ _ _
  have installed := (installed_afterInstall (s.dropKeys peer message.epoch) false (le_refl _)
    ⟨peer, message.epoch, initiator, message⟩ key).of_quiet quiet
  exact finishInstall installed env.persists

theorem installCandidate_outcome (env : KeyEnv) (peer initiator : PeerId) (message : WrapMessage)
    (key : Bytes) (s : KeyStore) :
    Action.Ensures (installCandidate env peer initiator message key) s
      (InstallOutcome s true ⟨peer, message.epoch, initiator, message⟩ key) := by
  unfold installCandidate
  apply Action.Ensures.get
  refine Action.Ensures.require (fun _ => .inl ⟨.refl s, _, rfl⟩) fun _ => ?_
  refine Action.Ensures.require (fun _ => .inl ⟨.refl s, _, rfl⟩) fun _ => ?_
  refine ensures_takeSlot (fun e => .inl ⟨.refl s, e, rfl⟩) ?_
  apply Action.Ensures.modify
  apply Action.Ensures.modify
  apply Action.Ensures.modify
  exact finishInstall (installed_afterInstall s true (le_refl _)
    ⟨peer, message.epoch, initiator, message⟩ key) env.persists

theorem installAs_outcome (env : KeyEnv) (candidate : Bool) (peer initiator : PeerId)
    (message : WrapMessage) (key : Bytes) (s : KeyStore) :
    Action.Ensures (installAs env candidate peer initiator message key) s
      (InstallOutcome s candidate ⟨peer, message.epoch, initiator, message⟩ key) := by
  unfold installAs
  cases candidate with
  | true => exact installCandidate_outcome env peer initiator message key s
  | false => exact install_outcome env peer initiator message key s

/-- When a received wrap is installed: on the confirmed path it is the next epoch
of a first contact, a later epoch than the pair's, or it wins a collision. -/
def ConfirmedStanding (s : KeyStore) (sender : PeerId) (message : WrapMessage) : Prop :=
  match s.pairs[sender]? with
  | none => message.epoch = s.watermark sender + 1
  | some previous => previous.epoch < message.epoch ∨
      (message.epoch = previous.epoch ∧ sender < previous.initiator)

/-- On the candidate path its epoch is above the watermark, or it wins a collision. -/
def CandidateStanding (s : KeyStore) (sender : PeerId) (message : WrapMessage) : Prop :=
  s.watermark sender < message.epoch ∨ ∃ previous, s.candidates[sender]? = some previous ∧
    message.epoch = previous.epoch ∧ sender < previous.initiator

def Standing (s : KeyStore) (candidate : Bool) (sender : PeerId) (message : WrapMessage) : Prop :=
  if candidate then CandidateStanding s sender message else ConfirmedStanding s sender message

/-- The wrap is the one the pair or the candidate of its sender was made from. -/
def Cached (s : KeyStore) (candidate : Bool) (sender : PeerId) (message : WrapMessage) : Prop :=
  ∃ previous, (if candidate then s.candidates[sender]? else s.pairs[sender]?) = some previous ∧
    previous.epoch = message.epoch ∧ previous.initiator = sender

private theorem standing_of_wrapStanding {s : KeyStore} {candidate : Bool} {sender : PeerId}
    {message : WrapMessage} {standing : WrapStanding}
    (h : wrapStanding s (if candidate then s.candidates[sender]? else s.pairs[sender]?)
      (s.watermark sender + 1) sender message candidate = .ok standing)
    (notCached : standing ≠ .cached)
    (late : ¬ (candidate = true ∧ standing ≠ .collision ∧
      message.epoch < s.watermark sender + 1)) :
    Standing s candidate sender message := by
  unfold Standing
  cases candidate with
  | true =>
    simp only [↓reduceIte] at h ⊢
    by_cases collision : standing = .collision
    · subst collision
      unfold wrapStanding at h
      split at h
      · rename_i found
        simp only [Result.bind_eq_ok] at h
        obtain ⟨_, _, impossible⟩ := h
        cases impossible
      · rename_i previous found
        split at h
        · cases h
        · split at h
          · rename_i same
            split at h
            · cases h
            · split at h
              · simp only [Result.bind_eq_ok] at h
                obtain ⟨_, _, impossible⟩ := h
                cases impossible
              · rename_i wins
                exact .inr ⟨previous, found, same, not_le.mp wins⟩
          · split at h <;> cases h
    · refine .inl ?_
      simp only [true_and, not_and, not_lt] at late
      have := late collision
      omega
  | false =>
    simp only [Bool.false_eq_true, ↓reduceIte] at h ⊢
    unfold wrapStanding at h
    unfold ConfirmedStanding
    generalize s.pairs[sender]? = existing at h ⊢
    cases existing with
    | none =>
      simp only [Result.bind_eq_ok, ensure_eq_ok] at h
      obtain ⟨_, firstContact, _⟩ := h
      simp only [true_and, not_or, not_not] at firstContact
      exact firstContact.2
    | some previous =>
      dsimp only at h ⊢
      split at h
      · cases h
      · rename_i notStale
        split at h
        · rename_i same
          split at h
          · cases h
            exact absurd rfl notCached
          · split at h
            · simp only [Result.bind_eq_ok] at h
              obtain ⟨_, _, impossible⟩ := h
              cases impossible
            · rename_i wins
              exact .inr ⟨same, not_le.mp wins⟩
        · rename_i different
          refine .inl ?_
          omega

theorem cached_of_wrapStanding {s : KeyStore} {existing : Option PersistedPair}
    {expected : Nat} {sender : PeerId} {message : WrapMessage} {candidate : Bool}
    (h : wrapStanding s existing expected sender message candidate = .ok .cached) :
    ∃ previous, existing = some previous ∧ previous.epoch = message.epoch ∧
      previous.initiator = sender := by
  unfold wrapStanding at h
  split at h
  · simp only [Result.bind_eq_ok] at h
    obtain ⟨_, _, impossible⟩ := h
    cases impossible
  · rename_i previous
    split at h
    · cases h
    · split at h
      · rename_i same
        split at h
        · rename_i cached
          exact ⟨previous, rfl, same.symm, cached.1⟩
        · split at h
          · simp only [Result.bind_eq_ok] at h
            obtain ⟨_, _, impossible⟩ := h
            cases impossible
          · cases h
      · split at h <;> cases h

private theorem ensures_noteCollision {α : Type} {f : Unit → Action Error KeyStore α}
    {s : KeyStore} {Q : Result α → KeyStore → Prop} {standing : WrapStanding} {sender : PeerId}
    {message : WrapMessage} {candidate : Bool} (err : ∀ e, Q (.error e) s)
    (ok : ∀ t, Quiet s t → Action.Ensures (f ()) t Q) :
    Action.Ensures (noteCollision standing sender message candidate >>= f) s Q := by
  apply Action.Ensures.bind
  unfold noteCollision
  split
  · refine .ofExcept (fun e _ => err e) fun retry _ => ?_
    exact ok _ (quiet_recordRetry s sender candidate retry)
  · exact ok s (.refl s)

section

variable [Primitives]

/-- A wrap of our own carries a fresh key at the epoch above the watermark. -/
def CreateOutcome {α : Type} (env : KeyEnv) (s : KeyStore) (candidate : Bool) (peer : PeerId)
    (result : Result α) (t : KeyStore) : Prop :=
  (Quiet s t ∧ ∃ error, result = .error error) ∨
    ∃ key message, env.pairKey = some key ∧ message.epoch = s.watermark peer + 1 ∧
      InstallOutcome s candidate ⟨peer, message.epoch, s.localId, message⟩ key result t

omit [Primitives] in
private theorem ensures_finishCreate {env : KeyEnv} {peer : PeerId} {candidate : Bool}
    {s : KeyStore} {key : Bytes} (message : WrapMessage) (fresh : env.pairKey = some key)
    (epoch : message.epoch = s.watermark peer + 1) :
    Action.Ensures (do
        Action.modify fun store => store.clearRetry peer candidate
        let session ← installAs env candidate peer s.localId message key
        pure (session, message)) s (CreateOutcome env s candidate peer) := by
  refine .modify ?_
  apply Action.Ensures.bind
  refine (installAs_outcome env candidate peer s.localId message key _).mono fun r t outcome => ?_
  have created := (outcome.of_quiet (quiet_clearRetry s peer candidate)).map
    fun session => (session, message)
  cases r with
  | error e => exact .inr ⟨key, message, fresh, epoch, created⟩
  | ok session => exact .inr ⟨key, message, fresh, epoch, created⟩

theorem createInner_outcome (env : KeyEnv) (peer : PeerId) (ek : Bytes) (epoch : Nat)
    (candidate : Bool) (s : KeyStore) :
    Action.Ensures (createInner env peer ek epoch candidate) s
      (CreateOutcome env s candidate peer) := by
  have err : ∀ e : Error, CreateOutcome (α := PairSession × WrapMessage) env s candidate peer
      (.error e) s := fun e => .inl ⟨.refl s, e, rfl⟩
  unfold createInner
  refine .query (fun e _ => err e) fun _ _ => ?_
  refine .get ?_
  refine .ofExcept (fun e _ => err e) fun document _ => ?_
  refine .require (fun _ => err _) fun _ => ?_
  refine .require (fun _ => err _) fun _ => ?_
  refine .require (fun _ => err _) fun _ => ?_
  refine .ofExcept (fun e _ => err e) fun next nextOk => ?_
  refine .require (fun _ => err _) fun epochOk => ?_
  refine .ofExcept (fun e _ => err e) fun pairKey keyOk => ?_
  refine .require (fun _ => err _) fun _ => ?_
  refine .ofExcept (fun e _ => err e) fun randomness _ => ?_
  refine .ofExcept (fun e _ => err e) fun wrapKey _ => ?_
  refine .ofExcept (fun e _ => err e) fun aad _ => ?_
  refine .ofExcept (fun e _ => err e) fun signed _ => ?_
  exact ensures_finishCreate _ (okOr_eq_ok.mp keyOk)
    (epochOk.trans (checkedAdd_eq_ok.mp nextOk).2)

/-- A received wrap is refused, already installed, or installed now. -/
def UnwrapOutcome (s : KeyStore) (candidate : Bool) (sender : PeerId) (message : WrapMessage)
    (result : Result PairSession) (t : KeyStore) : Prop :=
  (Quiet s t ∧ ∃ error, result = .error error) ∨
    (t = s ∧ Cached s candidate sender message ∧
      message.minId = min s.localId sender ∧ message.maxId = max s.localId sender) ∨
    ∃ key, openWrap s message = .ok key ∧ Standing s candidate sender message ∧
      message.minId = min s.localId sender ∧ message.maxId = max s.localId sender ∧
      InstallOutcome s candidate ⟨sender, message.epoch, sender, message⟩ key result t

theorem unwrapInner_outcome (env : KeyEnv) (sender : PeerId) (message : WrapMessage)
    (candidate : Bool) (s : KeyStore) :
    Action.Ensures (unwrapInner env sender message candidate) s
      (UnwrapOutcome s candidate sender message) := by
  have err : ∀ e : Error, UnwrapOutcome s candidate sender message (.error e) s :=
    fun e => .inl ⟨.refl s, e, rfl⟩
  unfold unwrapInner
  refine .query (fun e _ => err e) fun _ _ => ?_
  refine .get ?_
  refine .ofExcept (fun e _ => err e) fun document _ => ?_
  refine .require (fun _ => err _) fun ids => ?_
  refine .ofExcept (fun e _ => err e) fun signed _ => ?_
  refine .ofExcept (fun e _ => err e) fun _ _ => ?_
  refine .ofExcept (fun e _ => err e) fun expected expectedOk => ?_
  obtain ⟨_, rfl⟩ := checkedAdd_eq_ok.mp expectedOk
  refine .ofExcept (fun e _ => err e) fun standing standingOk => ?_
  split
  · rename_i isCached
    subst isCached
    exact .inr (.inl ⟨rfl, cached_of_wrapStanding standingOk, ids⟩)
  · rename_i notCached
    refine .require (fun _ => err _) fun late => ?_
    refine .ofExcept (fun e _ => err e) fun key keyOk => ?_
    have standing' := standing_of_wrapStanding standingOk notCached late
    refine ensures_noteCollision (fun e => err e) fun t quiet => ?_
    refine .modify ?_
    refine (installAs_outcome env candidate sender sender message key _).mono fun r u outcome => ?_
    exact .inr (.inr ⟨key, keyOk, standing', ids.1, ids.2,
      outcome.of_quiet (quiet.trans (quiet_replaceCandidate t sender standing candidate))⟩)

theorem retryCollision_outcome (env : KeyEnv) (peer : PeerId) (s : KeyStore) :
    Action.Ensures (retryCollision env peer) s (CreateOutcome env s false peer) := by
  have err : ∀ e : Error, CreateOutcome (α := PairSession × WrapMessage) env s false peer
      (.error e) s := fun e => .inl ⟨.refl s, e, rfl⟩
  unfold retryCollision
  refine .query (fun e _ => err e) fun _ _ => ?_
  refine .get ?_
  refine .ofExcept (fun e _ => err e) fun epoch _ => ?_
  refine .ofExcept (fun e _ => err e) fun document _ => ?_
  exact createInner_outcome env peer document.ek epoch false s

omit [Primitives] in
theorem discardCandidate_quiet (env : KeyEnv) (peer : PeerId) (s : KeyStore) :
    Quiet s (discardCandidate env peer s).2 := by
  refine (?_ : Action.Ensures (discardCandidate env peer) s fun _ t => Quiet s t)
  unfold discardCandidate
  refine .query (fun e _ => .refl s) fun _ _ => ?_
  refine .get ?_
  split
  · exact Quiet.refl s
  · rename_i candidate _
    refine .modify ?_
    refine .modify ?_
    refine .modify ?_
    refine Quiet.trans ?_ (quiet_persist env.persists _)
    refine ((quiet_eraseCandidate s peer).trans (quiet_dropKeys _ peer candidate.epoch)).trans ?_
    exact ⟨rfl, rfl, rfl, le_refl _, fun _ _ h => h, rfl, fun _ _ h => h, rfl⟩

omit [Primitives] in
theorem CreateOutcome.of_quiet {α : Type} {env : KeyEnv} {s t u : KeyStore} {candidate : Bool}
    {peer : PeerId} {result : Result α} (quiet : Quiet s t)
    (h : CreateOutcome env t candidate peer result u) :
    CreateOutcome env s candidate peer result u := by
  obtain ⟨rest, error⟩ | ⟨key, message, fresh, epoch, outcome⟩ := h
  · exact .inl ⟨quiet.trans rest, error⟩
  · refine .inr ⟨key, message, fresh, by rw [epoch, quiet.watermark], ?_⟩
    rw [quiet.localId] at outcome
    exact outcome.of_quiet quiet

theorem retryCandidateCollision_outcome (discard env : KeyEnv) (peer : PeerId) (s : KeyStore) :
    Action.Ensures (retryCandidateCollision discard env peer) s
      (CreateOutcome env s true peer) := by
  have err : ∀ e : Error, CreateOutcome (α := PairSession × WrapMessage) env s true peer
      (.error e) s := fun e => .inl ⟨.refl s, e, rfl⟩
  unfold retryCandidateCollision
  refine .query (fun e _ => err e) fun _ _ => ?_
  refine .get ?_
  refine .ofExcept (fun e _ => err e) fun epoch _ => ?_
  refine .ofExcept (fun e _ => err e) fun document _ => ?_
  apply Action.Ensures.bind
  have quiet := discardCandidate_quiet discard peer s
  unfold Action.Ensures
  cases (discardCandidate discard peer s).1 with
  | error e => exact .inl ⟨quiet, e, rfl⟩
  | ok _ => exact (createInner_outcome env peer document.ek epoch true _).of_quiet quiet

omit [Primitives] in
theorem retire_quiet (env : KeyEnv) (handle : PairKeyHandle) (s : KeyStore) :
    Quiet s (retire env handle s).2 := by
  refine (?_ : Action.Ensures (retire env handle) s fun _ t => Quiet s t)
  unfold retire
  refine .query (fun e _ => .refl s) fun _ _ => ?_
  refine .get ?_
  refine .require (fun _ => .refl s) fun _ => ?_
  refine .require (fun _ => .refl s) fun _ => ?_
  refine .modify ?_
  refine Quiet.trans ?_ (quiet_persist env.persists _)
  refine ⟨rfl, rfl, rfl, le_refl _, fun slot state get => ?_, rfl, fun _ _ h => h, rfl⟩
  rw [Map.get_erase] at get
  split at get
  · cases get
  · exact get

/-- A promotion turns the candidate of a peer into its pair, above the old one. -/
structure Promoted (s t : KeyStore) (peer : PeerId) (candidate : PersistedPair) : Prop where
  identity : t.identity = s.identity
  instanceId : t.instanceId = s.instanceId
  peers : t.peers = s.peers
  slots : t.nextSlot = s.nextSlot
  keys : t.keys = s.keys
  watermarks : t.epochWatermarks = s.epochWatermarks
  found : s.candidates[peer]? = some candidate
  newer : ∀ confirmed, s.pairs[peer]? = some confirmed → confirmed.epoch < candidate.epoch
  pairs : t.pairs = s.pairs.insert peer candidate
  candidates : t.candidates = s.candidates.erase peer

omit [Primitives] in
theorem promoteCandidate_outcome (env : KeyEnv) (peer : PeerId) (epoch : Nat) (s : KeyStore) :
    Action.Ensures (promoteCandidate env peer epoch) s
      fun _ t => t = s ∨ ∃ candidate, Promoted s t peer candidate := by
  unfold promoteCandidate
  refine .query (fun e _ => .inl rfl) fun _ _ => ?_
  refine .get ?_
  refine .ofExcept (fun e _ => .inl rfl) fun candidate found => ?_
  refine .require (fun _ => .inl rfl) fun _ => ?_
  refine .require (fun _ => .inl rfl) fun newer => ?_
  refine .modify ?_
  apply Action.Ensures.bind
  unfold persist Action.Ensures
  have promoted : ∀ (disk : Option PersistedState) (failed : Bool), Promoted s ({ s with
      candidates := s.candidates.erase peer
      pairs := s.pairs.insert peer candidate
      candidateRetryEpochs := s.candidateRetryEpochs.erase peer
      disk := disk
      failed := failed } : KeyStore) peer candidate := fun _ _ =>
    ⟨rfl, rfl, rfl, rfl, rfl, rfl, okOr_eq_ok.mp found, newer, rfl, rfl⟩
  cases env.persists with
  | true => exact .inr ⟨candidate, promoted _ _⟩
  | false => exact .inr ⟨candidate, promoted _ _⟩

/-- A slot keeps its key and forgets neither a counter it has spent nor one it
refuses. -/
structure SlotStep (before after : PairKeyState) : Prop where
  key : after.key = before.key
  peerId : after.peerId = before.peerId
  epoch : after.epoch = before.epoch
  sent : ∀ payloadType last, before.lastSent payloadType = some last →
    ∃ later, after.lastSent payloadType = some later ∧ last ≤ later
  refused : ∀ window seq, (before.window window).Refused seq → (after.window window).Refused seq

omit [Primitives] in
theorem SlotStep.refl (state : PairKeyState) : SlotStep state state :=
  ⟨rfl, rfl, rfl, fun _ last h => ⟨last, h, le_refl _⟩, fun _ _ h => h⟩

structure SlotUpdate (s t : KeyStore) (slot : Nat) (before after : PairKeyState) : Prop where
  found : s.keys[slot]? = some before
  same : t = { s with keys := s.keys.insert slot after }

/-- The counter of a nonce in the direction of the slot is spent. -/
def SpentSend (state : PairKeyState) (bytes : Bytes) : Prop :=
  ∃ header payloadType last, bytes = nonce header payloadType ∧ header.seq < 2 ^ 64 ∧
    state.lastSent payloadType = some last ∧ header.seq ≤ last

def SpentReceive (state : PairKeyState) (bytes : Bytes) : Prop :=
  ∃ header payloadType, bytes = nonce header payloadType ∧ header.seq < 2 ^ 64 ∧
    (state.window ⟨state.peerId, state.epoch, .inbound, payloadType⟩).Refused header.seq

omit [Primitives] in
theorem SpentSend.step {before after : PairKeyState} (step : SlotStep before after) {bytes : Bytes}
    (h : SpentSend before bytes) : SpentSend after bytes := by
  obtain ⟨header, payloadType, last, bytes_eq, small, sent, below⟩ := h
  obtain ⟨later, sent', later_le⟩ := step.sent payloadType last sent
  exact ⟨header, payloadType, later, bytes_eq, small, sent', below.trans later_le⟩

omit [Primitives] in
theorem SpentReceive.step {before after : PairKeyState} (step : SlotStep before after)
    {bytes : Bytes} (h : SpentReceive before bytes) : SpentReceive after bytes := by
  obtain ⟨header, payloadType, bytes_eq, small, refused⟩ := h
  refine ⟨header, payloadType, bytes_eq, small, ?_⟩
  rw [step.peerId, step.epoch]
  exact step.refused _ _ refused

omit [Primitives] in
theorem decodeAad_seq_lt {aad : Bytes} {header : PacketHeader} {payloadType : PayloadType}
    (h : decodeAad aad = .ok (header, payloadType)) : header.seq < 2 ^ 64 := by
  simp only [decodeAad, Result.bind_eq_ok] at h
  obtain ⟨_, _, _, _, result⟩ := h
  obtain rfl : decodeHeader aad = header := (Prod.mk.inj (Except.ok.inj result)).1
  have bound := ofBE_lt ((aad.drop 73).take 8)
  have short : ((aad.drop 73).take 8).length ≤ 8 := by simp
  calc ofBE ((aad.drop 73).take 8) < 256 ^ ((aad.drop 73).take 8).length := bound
    _ ≤ 256 ^ 8 := Nat.pow_le_pow_right (by decide) short
    _ = 2 ^ 64 := by decide

omit [Primitives] in
theorem nonce_inj {header header' : PacketHeader} {payloadType payloadType' : PayloadType}
    (small : header.seq < 2 ^ 64) (small' : header'.seq < 2 ^ 64)
    (h : nonce header payloadType = nonce header' payloadType') :
    payloadType = payloadType' ∧ header.seq = header'.seq := by
  unfold nonce at h
  obtain ⟨head, tail⟩ := List.cons.inj h
  have seqs : toBE 8 header.seq = toBE 8 header'.seq := by simpa using tail
  constructor
  · cases payloadType <;> cases payloadType' <;> first | rfl | (
      exfalso
      revert head
      simp only [reduceCtorEq, ↓reduceIte]
      split <;> split <;> decide)
  · have := congrArg ofBE seqs
    rwa [ofBE_toBE (by omega), ofBE_toBE (by omega)] at this

omit [Primitives] in
private theorem slotStep_recordSent {state : PairKeyState} {payloadType : PayloadType} {seq : Nat}
    (increases : ∀ last ∈ state.lastSent payloadType, last < seq) :
    SlotStep state (state.recordSent payloadType seq) := by
  refine ⟨by cases payloadType <;> rfl, by cases payloadType <;> rfl,
    by cases payloadType <;> rfl, ?_, ?_⟩
  · intro other last sent
    cases payloadType <;> cases other
    · exact ⟨seq, rfl, le_of_lt (increases last sent)⟩
    · exact ⟨last, sent, le_refl _⟩
    · exact ⟨last, sent, le_refl _⟩
    · exact ⟨seq, rfl, le_of_lt (increases last sent)⟩
  · intro window seq' refused
    cases payloadType <;> exact refused

omit [Primitives] in
theorem ensures_withPairState {α : Type} {handle : PairKeyHandle}
    {operation : Action Error PairKeyState α} {s : KeyStore} {Q : Result α → KeyStore → Prop}
    (err : ∀ e, Q (.error e) s)
    (ok : ∀ state, s.failed = false → s.keys[handle.slot]? = some state →
      Action.Ensures operation state fun r after =>
        Q r { s with keys := s.keys.insert handle.slot after }) :
    Action.Ensures (withPairState handle operation) s Q := by
  unfold withPairState
  refine .query (fun e _ => err e) fun _ locked => ?_
  refine .get ?_
  refine .require (fun _ => err _) fun _ => ?_
  refine .ofExcept (fun e _ => err e) fun state found => ?_
  have alive : s.failed = false := by simpa [lock] using locked
  exact ok state alive (okOr_eq_ok.mp found)

theorem aeadSeal_outcome (handle : PairKeyHandle) (bytes aad plaintext : Bytes) (s : KeyStore) :
    Action.Ensures (aeadSeal handle bytes aad plaintext) s fun result t =>
      (t = s ∧ ∃ error, result = .error error) ∨
      ∃ before after, SlotUpdate s t handle.slot before after ∧ SlotStep before after ∧
        ((∃ error, result = .error error) ∨
          (¬ SpentSend before bytes ∧ SpentSend after bytes)) := by
  unfold aeadSeal
  refine .query (fun e _ => .inl ⟨rfl, e, rfl⟩) fun localId _ => ?_
  refine .ofExcept (fun e _ => .inl ⟨rfl, e, rfl⟩) fun decoded decodedOk => ?_
  obtain ⟨header, payloadType⟩ := decoded
  have small := decodeAad_seq_lt decodedOk
  refine ensures_withPairState (fun e => .inl ⟨rfl, e, rfl⟩) fun state _ found => ?_
  have failed : ∀ e : Error, (∃ error, (Except.error e : Result Bytes) = .error error) :=
    fun e => ⟨e, rfl⟩
  unfold sealState
  refine .get ?_
  refine .ofExcept
    (fun e _ => .inr ⟨state, state, ⟨found, rfl⟩, .refl state, .inl (failed e)⟩) fun _ valid => ?_
  apply Action.Ensures.bind
  unfold PairKeyState.reserveSend
  refine .get ?_
  refine .require
    (fun _ => .inr ⟨state, state, ⟨found, rfl⟩, .refl state, .inl (failed _)⟩) fun increases => ?_
  have bytes_eq : bytes = nonce header payloadType := by
    simp only [PairKeyState.validateHeader, Result.bind_eq_ok, ensure_eq_ok] at valid
    obtain ⟨_, _, _, _, _, same, _⟩ := valid
    exact same
  refine .inr ⟨state, state.recordSent payloadType header.seq, ⟨found, rfl⟩,
    slotStep_recordSent increases, .inr ⟨?_, ?_⟩⟩
  · rintro ⟨header', payloadType', last, bytes_eq', small', sent, below⟩
    obtain ⟨rfl, seq_eq⟩ := nonce_inj small small' (bytes_eq.symm.trans bytes_eq')
    have := increases last sent
    omega
  · refine ⟨header, payloadType, header.seq, bytes_eq, small, ?_, le_refl _⟩
    cases payloadType <;> rfl

omit [Primitives] in
private theorem slotStep_checkReplay (state : PairKeyState) (key : ReplayWindowKey) :
    SlotStep state { state with replay := state.replay.insert key (state.window key) } := by
  refine ⟨rfl, rfl, rfl, ?_, ?_⟩
  · intro payloadType last sent
    exact ⟨last, by cases payloadType <;> exact sent, le_refl _⟩
  · intro other seq refused
    unfold PairKeyState.window
    rw [Map.get_insert]
    split
    · rename_i same
      subst same
      exact refused
    · exact refused

omit [Primitives] in
private theorem slotStep_acceptReplay {state : PairKeyState} {key : ReplayWindowKey} {seq : Nat}
    {next : ReplayWindowState} (accepted : (state.window key).accept seq = .ok next) :
    SlotStep state { state with replay := state.replay.insert key next } := by
  refine ⟨rfl, rfl, rfl, ?_, ?_⟩
  · intro payloadType last sent
    exact ⟨last, by cases payloadType <;> exact sent, le_refl _⟩
  · intro other seq' refused
    unfold PairKeyState.window
    rw [Map.get_insert]
    split
    · rename_i same
      subst same
      exact ReplayWindowState.refused_accept accepted seq' (.inl refused)
    · exact refused

omit [Primitives] in
theorem SlotStep.trans {a b c : PairKeyState} (first : SlotStep a b) (second : SlotStep b c) :
    SlotStep a c where
  key := second.key.trans first.key
  peerId := second.peerId.trans first.peerId
  epoch := second.epoch.trans first.epoch
  sent := fun payloadType last h => by
    obtain ⟨later, sent, le⟩ := first.sent payloadType last h
    obtain ⟨latest, sent', le'⟩ := second.sent payloadType later sent
    exact ⟨latest, sent', le.trans le'⟩
  refused := fun window seq h => second.refused window seq (first.refused window seq h)

omit [Primitives] in
private theorem window_insert_self (state : PairKeyState) (key : ReplayWindowKey)
    (next : ReplayWindowState) :
    ({ state with replay := state.replay.insert key next } : PairKeyState).window key = next := by
  unfold PairKeyState.window
  rw [Map.get_insert, if_pos rfl]
  rfl

omit [Primitives] in
theorem ensures_checkReplay {α : Type} {key : ReplayWindowKey} {seq : Nat}
    {f : Unit → Action Error PairKeyState α} {state : PairKeyState}
    {Q : Result α → PairKeyState → Prop}
    (err : ∀ e, (state.window key).check seq = .error e →
      Q (.error e) { state with replay := state.replay.insert key (state.window key) })
    (ok : (state.window key).check seq = .ok () →
      Action.Ensures (f ()) { state with replay := state.replay.insert key (state.window key) } Q) :
    Action.Ensures (PairKeyState.checkReplay key seq >>= f) state Q := by
  apply Action.Ensures.bind
  unfold PairKeyState.checkReplay
  refine .modify ?_
  unfold Action.Ensures
  simp only [Action.query_apply, window_insert_self]
  cases checked : (state.window key).check seq with
  | error e => exact err e checked
  | ok _ => exact ok checked

theorem aeadOpen_outcome (handle : PairKeyHandle) (bytes aad ciphertext : Bytes) (s : KeyStore) :
    Action.Ensures (aeadOpen handle bytes aad ciphertext) s fun result t =>
      (t = s ∧ ∃ error, result = .error error) ∨
      ∃ before after, SlotUpdate s t handle.slot before after ∧ SlotStep before after ∧
        ((∃ error, result = .error error) ∨
          (¬ SpentReceive before bytes ∧ SpentReceive after bytes)) := by
  unfold aeadOpen
  refine .query (fun e _ => .inl ⟨rfl, e, rfl⟩) fun localId _ => ?_
  refine .ofExcept (fun e _ => .inl ⟨rfl, e, rfl⟩) fun decoded decodedOk => ?_
  obtain ⟨header, payloadType⟩ := decoded
  have small := decodeAad_seq_lt decodedOk
  refine ensures_withPairState (fun e => .inl ⟨rfl, e, rfl⟩) fun state _ found => ?_
  have failed : ∀ e : Error, (∃ error, (Except.error e : Result Bytes) = .error error) :=
    fun e => ⟨e, rfl⟩
  unfold openState
  refine .get ?_
  refine .ofExcept
    (fun e _ => .inr ⟨state, state, ⟨found, rfl⟩, .refl state, .inl (failed e)⟩)
    fun window valid => ?_
  have facts : bytes = nonce header payloadType ∧
      window = ⟨state.peerId, state.epoch, .inbound, payloadType⟩ := by
    simp only [PairKeyState.validateHeader, Result.bind_eq_ok, ensure_eq_ok] at valid
    obtain ⟨_, _, _, _, _, same, result⟩ := valid
    exact ⟨same, (Except.ok.inj result).symm⟩
  obtain ⟨bytes_eq, window_eq⟩ := facts
  have opened := slotStep_checkReplay state window
  refine ensures_checkReplay
    (fun e _ => .inr ⟨state, _, ⟨found, rfl⟩, opened, .inl (failed e)⟩) fun checked => ?_
  refine .ofExcept (fun e _ => .inr ⟨state, _, ⟨found, rfl⟩, opened, .inl (failed e)⟩)
    fun plaintext _ => ?_
  apply Action.Ensures.bind
  unfold PairKeyState.acceptReplay
  refine .get ?_
  refine .ofExcept (fun e _ => .inr ⟨state, _, ⟨found, rfl⟩, opened, .inl (failed e)⟩)
    fun next accepted => ?_
  have step := opened.trans (slotStep_acceptReplay accepted)
  rw [window_insert_self] at accepted
  refine .inr ⟨state, { state with
    replay := (state.replay.insert window (state.window window)).insert window next },
    ⟨found, rfl⟩, step, .inr ⟨?_, ?_⟩⟩
  · rintro ⟨header', payloadType', bytes_eq', small', refused⟩
    obtain ⟨rfl, seq_eq⟩ := nonce_inj small small' (bytes_eq.symm.trans bytes_eq')
    rw [← window_eq, ← seq_eq] at refused
    exact ReplayWindowState.check_eq_ok.mp checked refused
  · refine ⟨header, payloadType, bytes_eq, small, ?_⟩
    change (PairKeyState.window _ ⟨state.peerId, state.epoch, .inbound, payloadType⟩).Refused _
    rw [← window_eq, window_insert_self { state with
      replay := state.replay.insert window (state.window window) }]
    exact ReplayWindowState.refused_accept accepted header.seq (.inr rfl)

end

end QuantumFs.Crypto.KeyStore
