import QuantumFs.Crypto.Wraps

/-! Which wrap of a pair is the newest. A store that has sent wraps in a handshake keeps the
last of them, or a later one of the other side. -/
namespace QuantumFs.Crypto.KeyStore

open Lib Encoding

/-- The retry that waits for a peer, of a pair or of a candidate. -/
def retryOf (store : KeyStore) (candidate : Bool) (peer : PeerId) : Option Nat :=
  if candidate then store.candidateRetryEpochs[peer]? else store.retryEpochs[peer]?

/-- Wraps are kept at their epochs, none lies above its watermark, and watermarks are `u64`. -/
structure Sound (s : KeyStore) : Prop where
  matched : Matched s
  bounded : Bounded s
  small : ∀ peer, s.watermark peer ≤ u64Max

section

variable {s t : KeyStore} {candidate : Bool} {peer : PeerId} {message : WrapMessage}

theorem Sound.record_le (sound : Sound s) {r : PersistedPair} (found : s.record candidate peer = some r) :
    r.epoch ≤ s.watermark peer := by
  cases candidate with
  | true => exact sound.bounded.entries.candidate peer r found
  | false => exact sound.bounded.entries.pair peer r found

structure Made (s t : KeyStore) (candidate : Bool) (peer : PeerId) (message : WrapMessage) : Prop where
  localId : t.localId = s.localId
  epoch : message.epoch = s.watermark peer + 1
  watermark : t.watermark peer = message.epoch
  record : t.record candidate peer = some ⟨peer, message.epoch, s.localId, message⟩
  other : t.record (!candidate) peer = s.record (!candidate) peer

/-- A wrap of a peer has been taken: it was there, or it is newer than what was there, or a
collision has been lost to it. -/
structure Taken (s t : KeyStore) (candidate : Bool) (sender : PeerId) (message : WrapMessage) : Prop where
  localId : t.localId = s.localId
  watermark : s.watermark sender ≤ t.watermark sender
  record : ∃ r, t.record candidate sender = some r ∧ r.epoch = message.epoch ∧ r.initiator = sender ∧
    r.wrap = message
  other : t.record (!candidate) sender = s.record (!candidate) sender
  grounds : t = s ∨ t.retryOf candidate sender ≠ none ∨
    (∀ r, s.record candidate sender = some r → r.epoch < message.epoch) ∧
      (s.record candidate sender = none → s.watermark sender < message.epoch)

variable [Primitives]

theorem createInner_small (env : KeyEnv) (peer : PeerId) (ek : Bytes) (epoch : Nat) (candidate : Bool)
    (small : ∀ peer, s.watermark peer ≤ u64Max) :
    Action.Ensures (createInner env peer ek epoch candidate) s
      fun _ t => ∀ peer, t.watermark peer ≤ u64Max := by
  unfold createInner
  refine .query (fun _ _ => small) fun _ _ => .get ?_
  refine .ofExcept (fun _ _ => small) fun document _ => .require (fun _ => small) fun _ => ?_
  refine .require (fun _ => small) fun _ => .require (fun _ => small) fun _ => ?_
  refine .ofExcept (fun _ _ => small) fun next nextOk => .require (fun _ => small) fun epochOk => ?_
  refine .ofExcept (fun _ _ => small) fun _ _ => .require (fun _ => small) fun _ => ?_
  refine .ofExcept (fun _ _ => small) fun _ _ => .ofExcept (fun _ _ => small) fun _ _ => ?_
  refine .ofExcept (fun _ _ => small) fun _ _ => .ofExcept (fun _ _ => small) fun _ _ => ?_
  have cleared : ∀ other, (s.clearRetry peer candidate).watermark other ≤ u64Max := by
    intro other
    rw [(quiet_clearRetry s peer candidate).watermark]
    exact small other
  have bound : epoch ≤ u64Max := by
    obtain ⟨bound, same⟩ := checkedAdd_eq_ok.mp nextOk
    omega
  have entered : ∀ (ok : Bool) (message : WrapMessage) (key : Bytes) (other : PeerId),
      message.epoch = epoch → (written ok ((s.clearRetry peer candidate).enter candidate
        ⟨peer, message.epoch, s.localId, message⟩ key)).watermark other ≤ u64Max := by
    intro ok message key other same
    rw [written_watermark, enter_watermark]
    split
    · exact max_le (cleared other) (same ▸ bound)
    · exact cleared other
  refine .modify (.next (installAs_exact env candidate peer s.localId _ _ _) ?_ ?_)
  · rintro e u outcome
    obtain ⟨rfl, -⟩ | ⟨rfl, -, -⟩ := outcome
    · exact cleared
    · exact fun other => entered _ _ _ other rfl
  · rintro _ u outcome
    obtain ⟨rfl, -⟩ | ⟨rfl, -, -⟩ := outcome
    · exact cleared
    · exact fun other => entered _ _ _ other rfl

omit [Primitives] in
theorem Creates.made {env : KeyEnv} {session : PairSession}
    (creates : Creates env s candidate peer (.ok (session, message)) t) :
    Made s t candidate peer message := by
  obtain ⟨-, _, impossible⟩ | ⟨key, other, -, -, epoch, -, -, rfl, same⟩ := creates
  · cases impossible
  obtain ⟨-, rfl⟩ := same session message rfl
  have cleared := quiet_clearRetry s peer candidate
  refine ⟨?_, epoch, ?_, ?_, ?_⟩
  · rw [KeyStore.localId, KeyStore.localId, written_identity, enter_identity, cleared.identity]
  · rw [written_watermark, enter_watermark, if_pos rfl, cleared.watermark]
    simp only
    omega
  · rw [record_written, record_enter, if_pos ⟨rfl, rfl⟩]
  · rw [record_written, record_enter, if_neg, record_clearRetry]
    simp

omit [Primitives] in
theorem innerSession_eq_ok {epoch : Nat} {session : PairSession}
    (h : s.innerSession peer epoch = .ok session) : session.peerId = peer ∧ session.epoch = epoch := by
  obtain ⟨entry, _, same⟩ := Result.bind_eq_ok.mp h
  cases same
  exact ⟨rfl, rfl⟩

omit [Primitives] in
theorem installAs_session (env : KeyEnv) (candidate : Bool) (peer initiator : PeerId)
    (message : WrapMessage) (key : Bytes) (s : KeyStore) :
    Action.Ensures (installAs env candidate peer initiator message key) s fun result _ =>
      ∀ session, result = .ok session → session.peerId = peer ∧ session.epoch = message.epoch := by
  have ends : ∀ (ok : Bool) (t : KeyStore), Action.Ensures (do
      persist ok
      Action.query fun store => store.innerSession peer message.epoch) t fun result _ =>
      ∀ session, result = .ok session → session.peerId = peer ∧ session.epoch = message.epoch := by
    intro ok t
    refine ensures_persist (fun _ _ failed => ?_) fun _ session found => innerSession_eq_ok found
    cases failed
  unfold installAs
  cases candidate with
  | true =>
    simp only [↓reduceIte]
    unfold installCandidate
    refine .get (.require (fun _ _ failed => ?_) fun _ => .require (fun _ _ failed => ?_) fun _ => ?_)
    · cases failed
    · cases failed
    refine ensures_takeSlot (fun _ _ failed => ?_) (.modify (.modify (.modify (ends _ _))))
    cases failed
  | false =>
    simp only [Bool.false_eq_true, ↓reduceIte]
    unfold install
    refine ensures_takeSlot (fun _ _ failed => ?_) (.modify (.modify (.modify (.modify (ends _ _)))))
    cases failed

omit [Primitives] in
theorem wrapStanding_cached {existing : Option PersistedPair} {expected : Nat} {sender : PeerId}
    (h : wrapStanding s existing expected sender message candidate = .ok .cached) :
    ∃ r, existing = some r ∧ r.epoch = message.epoch ∧ r.initiator = sender ∧ r.wrap = message := by
  unfold wrapStanding at h
  split at h
  · obtain ⟨_, _, impossible⟩ := Result.bind_eq_ok.mp h
    cases impossible
  · rename_i previous
    split at h
    · cases h
    split at h
    · rename_i same
      split at h
      · rename_i isCached
        exact ⟨previous, rfl, same.symm, isCached.1, isCached.2⟩
      split at h
      · obtain ⟨_, _, impossible⟩ := Result.bind_eq_ok.mp h
        cases impossible
      · cases h
    · split at h <;> cases h

omit [Primitives] in
theorem yielded_watermark (s : KeyStore) (sender peer : PeerId) (message : WrapMessage)
    (standing : WrapStanding) (candidate : Bool) :
    (s.yielded sender message standing candidate).watermark peer = s.watermark peer :=
  (quiet_yielded s sender message standing candidate).watermark peer

omit [Primitives] in
theorem yielded_retryOf (s : KeyStore) (sender : PeerId) (message : WrapMessage) (candidate : Bool) :
    (s.yielded sender message .collision candidate).retryOf candidate sender =
      some (message.epoch + 1) := by
  have self : ∀ table : Map PeerId Nat,
      (table.insert sender (message.epoch + 1))[sender]? = some (message.epoch + 1) := by
    intro table
    rw [Map.get_insert, if_pos rfl]
  unfold yielded
  rw [if_pos rfl]
  unfold replaceCandidate
  cases candidate with
  | true =>
    rw [if_pos ⟨rfl, .inr rfl⟩]
    dsimp only
    rw [if_neg (by decide)]
    split <;> exact self s.candidateRetryEpochs
  | false =>
    rw [if_neg (by simp)]
    exact self s.retryEpochs

omit [Primitives] in
theorem yielded_other (s : KeyStore) (sender : PeerId) (message : WrapMessage)
    (standing : WrapStanding) (candidate : Bool) :
    (s.yielded sender message standing candidate).record (!candidate) sender =
      s.record (!candidate) sender := by
  cases candidate with
  | true =>
    change (s.yielded sender message standing true).pairs[sender]? = s.pairs[sender]?
    rw [(quiet_yielded s sender message standing true).pairs]
  | false =>
    unfold yielded replaceCandidate
    rw [if_neg (by simp)]
    split <;> rfl

omit [Primitives] in
theorem enter_retryOf (s : KeyStore) (kind : Bool) (pair : PersistedPair) (key : Bytes) :
    (s.enter kind pair key).retryOf candidate peer = s.retryOf candidate peer := by
  unfold retryOf
  rw [enter_retryEpochs, enter_candidateRetryEpochs]

omit [Primitives] in
theorem written_retryOf (ok : Bool) (s : KeyStore) :
    (written ok s).retryOf candidate peer = s.retryOf candidate peer := by
  unfold retryOf
  rw [written_retryEpochs, written_candidateRetryEpochs]

theorem Accepted.taken {standing : WrapStanding} {key : Bytes} {sender : PeerId}
    (accepted : Accepted s candidate sender message standing key) (ok : Bool) :
    Taken s (written ok ((s.yielded sender message standing candidate).enter candidate
      ⟨sender, message.epoch, sender, message⟩ key)) candidate sender message := by
  have quiet := quiet_yielded s sender message standing candidate
  refine ⟨?_, ?_, ⟨⟨sender, message.epoch, sender, message⟩, ?_, rfl, rfl, rfl⟩, ?_, .inr ?_⟩
  · rw [KeyStore.localId, KeyStore.localId, written_identity, enter_identity, quiet.identity]
  · rw [written_watermark, enter_watermark, if_pos rfl, quiet.watermark]
    exact le_max_left _ _
  · rw [record_written, record_enter, if_pos ⟨rfl, rfl⟩]
  · rw [record_written, record_enter, if_neg (by simp), yielded_other]
  · rw [written_retryOf, enter_retryOf]
    have late := accepted.late
    obtain ⟨nothing, rfl, first⟩ | ⟨r, found, ⟨rfl, -, -⟩ | ⟨newer, rfl⟩⟩ := accepted.standing_cases
    · have fresh : s.record candidate sender = none := nothing
      refine .inr ⟨fun r found => ?_, fun _ => ?_⟩
      · rw [fresh] at found
        cases found
      · cases candidate with
        | true =>
          have notBelow : ¬ message.epoch < s.watermark sender + 1 :=
            fun below => late ⟨rfl, by decide, below⟩
          omega
        | false =>
          have := (first rfl).2
          omega
    · rw [yielded_retryOf]
      exact .inl (Option.some_ne_none _)
    · have isRecord : s.record candidate sender = some r := found
      refine .inr ⟨fun other same => ?_, fun nothing => ?_⟩
      · obtain rfl := Option.some.inj (same.symm.trans isRecord)
        exact newer
      · rw [isRecord] at nothing
        cases nothing

theorem unwrapInner_taken (env : KeyEnv) (sender : PeerId) (message : WrapMessage)
    (candidate : Bool) (s : KeyStore) :
    Action.Ensures (unwrapInner env sender message candidate) s fun result t =>
      ∀ session, result = .ok session → Taken s t candidate sender message ∧
        session.peerId = sender ∧ session.epoch = message.epoch := by
  unfold unwrapInner
  refine .query (fun _ _ _ failed => ?_) fun _ _ => .get ?_
  · cases failed
  refine .ofExcept (fun _ _ _ failed => ?_) fun document imported => ?_
  · cases failed
  refine .require (fun _ _ failed => ?_) fun ids => ?_
  · cases failed
  refine .ofExcept (fun _ _ _ failed => ?_) fun signed signedOk => ?_
  · cases failed
  refine .ofExcept (fun _ _ _ failed => ?_) fun _ verified => ?_
  · cases failed
  refine .ofExcept (fun _ _ _ failed => ?_) fun expected expectedOk => ?_
  · cases failed
  obtain ⟨_, rfl⟩ := checkedAdd_eq_ok.mp expectedOk
  refine .ofExcept (fun _ _ _ failed => ?_) fun standing stands => ?_
  · cases failed
  split
  · rename_i isCached
    subst isCached
    intro session found
    obtain ⟨r, isRecord, epoch, initiator, wrap⟩ := wrapStanding_cached stands
    exact ⟨⟨rfl, le_refl _, ⟨r, isRecord, epoch, initiator, wrap⟩, rfl, .inl rfl⟩,
      innerSession_eq_ok found⟩
  · rename_i notCached
    refine .require (fun _ _ failed => ?_) fun late => ?_
    · cases failed
    refine .ofExcept (fun _ _ _ failed => ?_) fun key opens => ?_
    · cases failed
    have authentic : s.authentic sender message = .ok () :=
      Result.bind_eq_ok.mpr ⟨document, imported, Result.bind_eq_ok.mpr ⟨signed, signedOk, verified⟩⟩
    have accepted : Accepted s candidate sender message standing key :=
      ⟨authentic, ids.1, ids.2, stands, notCached, late, opens⟩
    have installs : ∀ u : KeyStore, u.replaceCandidate sender standing candidate =
        s.yielded sender message standing candidate → Action.Ensures (do
          Action.modify fun store => store.replaceCandidate sender standing candidate
          installAs env candidate sender sender message key) u fun result t =>
      ∀ session, result = .ok session → Taken s t candidate sender message ∧
        session.peerId = sender ∧ session.epoch = message.epoch := by
      intro u same
      refine .modify ?_
      rw [same]
      refine ((installAs_exact env candidate sender sender message key _).and
        (installAs_session env candidate sender sender message key _)).mono ?_
      rintro r t ⟨outcome, isSession⟩ session rfl
      obtain ⟨-, _, impossible⟩ | ⟨rfl, -, -⟩ := outcome
      · cases impossible
      · exact ⟨accepted.taken env.persists, isSession session rfl⟩
    apply Action.Ensures.bind
    unfold noteCollision
    split
    · rename_i collides
      refine .ofExcept (fun _ _ _ failed => ?_) fun retry retryOk => ?_
      · cases failed
      obtain ⟨_, rfl⟩ := checkedAdd_eq_ok.mp retryOk
      refine installs _ ?_
      rw [yielded, if_pos collides]
      rfl
    · rename_i other
      refine installs s ?_
      rw [yielded, if_neg other]

omit [Primitives] in
theorem checkedAdd_avoids {left right epoch : Nat} {text : String} :
    checkedAdd left right (.state text) ≠ .error (.epochConflict epoch) := by
  unfold checkedAdd
  split <;> simp

omit [Primitives] in
theorem persist_avoids (ok : Bool) {epoch : Nat} :
    Action.Avoids (.epochConflict epoch) (persist ok) := by
  intro store
  unfold persist
  split <;> simp

omit [Primitives] in
theorem innerSession_avoids (peer : PeerId) (expected : Nat) {epoch : Nat} (store : KeyStore) :
    store.innerSession peer expected ≠ .error (.epochConflict epoch) := by
  intro conflict
  unfold innerSession okOr at conflict
  split at conflict <;> cases conflict

omit [Primitives] in
theorem takeSlot_avoids {epoch : Nat} : Action.Avoids (.epochConflict epoch) takeSlot :=
  .bind .get fun _ => .bind (.ofExcept checkedAdd_avoids) fun _ =>
    .bind (.modify _) fun _ => .pure _

omit [Primitives] in
theorem installAs_avoids (env : KeyEnv) (candidate : Bool) (peer initiator : PeerId)
    (message : WrapMessage) (key : Bytes) {epoch : Nat} :
    Action.Avoids (.epochConflict epoch) (installAs env candidate peer initiator message key) := by
  have ends : Action.Avoids (.epochConflict epoch) (do
      persist env.persists
      Action.query fun store => store.innerSession peer message.epoch) :=
    .bind (persist_avoids _) fun _ => .query (innerSession_avoids peer message.epoch)
  unfold installAs
  cases candidate with
  | true =>
    refine .bind .get fun _ => .bind (.require (by simp)) fun _ => ?_
    refine .bind (.require (by simp)) fun _ => .bind takeSlot_avoids fun _ => ?_
    exact .bind (.modify _) fun _ => .bind (.modify _) fun _ => .bind (.modify _) fun _ => ends
  | false =>
    refine .bind takeSlot_avoids fun _ => .bind (.modify _) fun _ => .bind (.modify _) fun _ => ?_
    exact .bind (.modify _) fun _ => .bind (.modify _) fun _ => ends

theorem unwrapInner_kept (env : KeyEnv) (sender : PeerId) (message : WrapMessage)
    (candidate : Bool) (s : KeyStore) :
    Action.Ensures (unwrapInner env sender message candidate) s
      fun result t => ∀ epoch, result = .error (.epochConflict epoch) → t = s := by
  have avoids : ∀ (epoch : Nat) (standing : WrapStanding) (key : Bytes), Action.Avoids (.epochConflict epoch) (do
      noteCollision standing sender message candidate
      Action.modify fun store => store.replaceCandidate sender standing candidate
      installAs env candidate sender sender message key) := by
    intro epoch standing key
    refine .bind ?_ fun _ => .bind (.modify _) fun _ =>
      installAs_avoids env candidate sender sender message key
    unfold noteCollision
    split
    · exact .bind (.ofExcept checkedAdd_avoids) fun _ => .modify _
    · exact .pure ()
  unfold unwrapInner
  refine .query (fun _ _ _ _ => rfl) fun _ _ => .get (.ofExcept (fun _ _ _ _ => rfl) fun _ _ => ?_)
  refine .require (fun _ _ _ => rfl) fun _ => .ofExcept (fun _ _ _ _ => rfl) fun _ _ => ?_
  refine .ofExcept (fun _ _ _ _ => rfl) fun _ _ => .ofExcept (fun _ _ _ _ => rfl) fun _ _ => ?_
  refine .ofExcept (fun _ _ _ _ => rfl) fun standing _ => .ite (fun _ _ _ => rfl) fun _ => ?_
  refine .require (fun _ _ _ => rfl) fun _ => .ofExcept (fun _ _ _ _ => rfl) fun key _ => ?_
  exact fun epoch conflict => absurd conflict (avoids epoch standing key s)

theorem Move.sound (move : Move s t) (sound : Sound s) (small : ∀ peer, t.watermark peer ≤ u64Max) :
    Sound t :=
  ⟨move.matched sound.matched, move.advances.bounded sound.bounded, small⟩

theorem createInner_sound (env : KeyEnv) (peer : PeerId) (ek : Bytes) (epoch : Nat) (candidate : Bool)
    (sound : Sound s) : Action.Ensures (createInner env peer ek epoch candidate) s fun r t =>
      Sound t ∧ ∀ session message, r = .ok (session, message) → Made s t candidate peer message := by
  refine ((createInner_exact env peer ek epoch candidate s).and
    (createInner_small env peer ek epoch candidate sound.small)).mono ?_
  rintro r t ⟨creates, small⟩
  refine ⟨creates.move.sound sound small, ?_⟩
  rintro session message rfl
  exact creates.made

theorem unwrapInner_sound (env : KeyEnv) (sender : PeerId) {message : WrapMessage} (candidate : Bool)
    (small : message.epoch ≤ u64Max) (sound : Sound s) :
    Action.Ensures (unwrapInner env sender message candidate) s fun r t =>
      Sound t ∧ ∀ session, r = .ok session → Taken s t candidate sender message ∧
        session.peerId = sender ∧ session.epoch = message.epoch := by
  refine ((unwrapInner_exact env sender message candidate s).and
    (unwrapInner_taken env sender message candidate s)).mono ?_
  rintro r t ⟨unwraps, taken⟩
  refine ⟨unwraps.move.sound sound ?_, taken⟩
  intro peer
  obtain ⟨rfl, -⟩ | ⟨rfl, -⟩ | ⟨standing, key, -, -, ⟨rfl, -⟩ | ⟨rfl, -⟩ | ⟨rfl, -⟩⟩ := unwraps
  · exact sound.small peer
  · exact sound.small peer
  · exact sound.small peer
  · rw [yielded_watermark]
    exact sound.small peer
  · rw [written_watermark, enter_watermark, yielded_watermark]
    split
    · exact max_le (sound.small peer) small
    · exact sound.small peer

theorem observeRemoteEpoch_sound (env : KeyEnv) (peer : PeerId) {epoch : Nat} (small : epoch ≤ u64Max)
    (sound : Sound s) : Action.Ensures (observeRemoteEpoch env peer epoch) s fun _ t =>
      Sound t ∧ t.localId = s.localId ∧ s.watermark peer ≤ t.watermark peer ∧
        ∀ kind, t.record kind peer = s.record kind peer := by
  refine (observeRemoteEpoch_exact env peer epoch s).mono fun _ t outcome => ?_
  obtain rfl | ⟨alive, known, higher, rfl⟩ := outcome
  · exact ⟨sound, rfl, le_refl _, fun _ => rfl⟩
  have watermark : ∀ other, (s.epochWatermarks.insert peer epoch)[other]?.getD 0 =
      if peer = other then epoch else s.watermark other := by
    intro other
    rw [Map.get_insert]
    split <;> rfl
  refine ⟨(Move.observed env.persists alive known higher).sound sound fun other => ?_, ?_, ?_,
    fun kind => ?_⟩
  · rw [written_watermark]
    refine (watermark other).trans_le ?_
    split
    · exact small
    · exact sound.small other
  · rw [KeyStore.localId, KeyStore.localId, written_identity]
  · rw [written_watermark]
    refine le_of_lt (higher.trans_eq ?_)
    exact ((watermark peer).trans (if_pos rfl)).symm
  · rw [record_written]
    exact record_congr rfl rfl

theorem discardCandidate_sound (env : KeyEnv) (peer : PeerId) (sound : Sound s) :
    Action.Ensures (discardCandidate env peer) s fun _ t =>
      Sound t ∧ t.localId = s.localId ∧ t.watermark peer = s.watermark peer ∧
        ∀ kind r, t.record kind peer = some r → s.record kind peer = some r := by
  have quiet := discardCandidate_quiet env peer s
  refine ⟨(discardCandidate_move env peer s).sound sound fun other => ?_, quiet.localId,
    quiet.watermark peer, fun kind r found => ?_⟩
  · rw [quiet.watermark]
    exact sound.small other
  · cases kind with
    | true => exact quiet.candidates peer r found
    | false =>
      change (discardCandidate env peer s).2.pairs[peer]? = some r at found
      rw [quiet.pairs] at found
      exact found

theorem retryCandidateCollision_sound (discard env : KeyEnv) (peer : PeerId) (sound : Sound s) :
    Action.Ensures (retryCandidateCollision discard env peer) s fun r t =>
      Sound t ∧ ∀ session message, r = .ok (session, message) →
        ∃ u, Sound u ∧ u.localId = s.localId ∧ u.watermark peer = s.watermark peer ∧
          u.record false peer = s.record false peer ∧ Made u t true peer message := by
  unfold retryCandidateCollision
  refine .query (fun _ _ => ⟨sound, fun _ _ failed => ?_⟩) fun _ _ => .get ?_
  · cases failed
  refine .ofExcept (fun _ _ => ⟨sound, fun _ _ failed => ?_⟩) fun epoch _ => ?_
  · cases failed
  refine .ofExcept (fun _ _ => ⟨sound, fun _ _ failed => ?_⟩) fun document _ => ?_
  · cases failed
  have discards : Action.Ensures (discardCandidate discard peer) s fun _ u => (Sound u ∧
      u.localId = s.localId ∧ u.watermark peer = s.watermark peer ∧
      ∀ kind r, u.record kind peer = some r → s.record kind peer = some r) ∧ u.pairs = s.pairs :=
    (discardCandidate_sound discard peer sound).and (discardCandidate_quiet discard peer s).pairs
  refine .next discards (fun e u known => ⟨known.1.1, fun _ _ failed => ?_⟩) fun _ u known => ?_
  · cases failed
  obtain ⟨⟨soundU, identity, watermark, -⟩, pairs⟩ := known
  refine (createInner_sound env peer document.ek epoch true soundU).mono ?_
  rintro r t ⟨soundT, made⟩
  refine ⟨soundT, fun session message isOk => ⟨u, soundU, identity, watermark, ?_, made _ _ isOk⟩⟩
  exact congrArg (fun table : Map PeerId PersistedPair => table[peer]?) pairs

theorem retryCollision_sound (env : KeyEnv) (peer : PeerId) (sound : Sound s) :
    Action.Ensures (retryCollision env peer) s fun r t =>
      Sound t ∧ ∀ session message, r = .ok (session, message) → Made s t false peer message := by
  unfold retryCollision
  refine .query (fun _ _ => ⟨sound, fun _ _ failed => ?_⟩) fun _ _ => .get ?_
  · cases failed
  refine .ofExcept (fun _ _ => ⟨sound, fun _ _ failed => ?_⟩) fun epoch _ => ?_
  · cases failed
  refine .ofExcept (fun _ _ => ⟨sound, fun _ _ failed => ?_⟩) fun document _ => ?_
  · cases failed
  exact createInner_sound env peer document.ek epoch false sound

theorem importPeer_small (env : KeyEnv) (document : IdentityDocument)
    (small : ∀ peer, s.watermark peer ≤ u64Max) : Action.Ensures (importPeer env document) s
      fun _ t => ∀ peer, t.watermark peer ≤ u64Max := by
  have stored : ∀ ok peer, (written ok { s with
      peers := s.peers.insert document.peerId document }).watermark peer ≤ u64Max := by
    intro ok peer
    rw [written_watermark]
    exact small peer
  unfold importPeer
  refine .ofExcept (fun _ _ => small) fun _ _ => .query (fun _ _ => small) fun _ _ => .get ?_
  refine .require (fun _ => small) fun _ => .require (fun _ => small) fun _ => .modify ?_
  refine ensures_persist (fun _ => stored _) fun _ => .ite (fun _ => ?_) fun _ => stored _
  refine .query (fun _ _ => stored _) fun epoch _ => ?_
  have wraps : Action.Ensures (Action.attempt
      (create { env with persists := env.rewraps } document.peerId document.ek epoch))
      (written env.persists { s with peers := s.peers.insert document.peerId document })
      fun _ t => ∀ peer, t.watermark peer ≤ u64Max := by
    have made := createInner_small { env with persists := env.rewraps } document.peerId document.ek epoch
      false (stored env.persists)
    unfold Action.Ensures at made ⊢
    rw [Action.attempt_apply]
    exact made
  refine .next wraps (fun _ _ small => small) fun result t small => ?_
  cases result with
  | ok _ => exact small
  | error e => exact .query (fun _ _ => small) fun _ _ => .modify small

theorem importPeer_sound (env : KeyEnv) (document : IdentityDocument) (sound : Sound s) :
    Action.Ensures (importPeer env document) s fun _ t => Sound t ∧ t.localId = s.localId := by
  have moves := importPeer_moves env document s
  have kept : ∀ t, Relation.ReflTransGen Move s t → Advances s t := by
    intro t moves
    induction moves with
    | refl => exact .refl s
    | tail _ move ih => exact ih.trans move.advances
  have advances := kept _ moves
  refine ⟨⟨moves_matched moves sound.matched, advances.bounded sound.bounded,
    importPeer_small env document sound.small⟩, ?_⟩
  rw [KeyStore.localId, KeyStore.localId, advances.identity]

structure Tops (s : KeyStore) (peer : PeerId) (sent : WrapMessage → Prop) : Prop where
  sound : Sound s
  below : ∀ message, sent message → message.epoch ≤ s.watermark peer

/-- Each wrap that has been sent is the kept one, or an older one. -/
structure Leads (s : KeyStore) (candidate : Bool) (peer : PeerId) (sent : WrapMessage → Prop) : Prop where
  tops : Tops s peer sent
  newest : ∀ message r, sent message → s.record candidate peer = some r →
    message.epoch < r.epoch ∨ (r.wrap = message ∧ r.initiator = s.localId)

section

omit [Primitives]

variable {sent : WrapMessage → Prop}

theorem Tops.made (tops : Tops s peer sent) (sound : Sound t)
    (made : Made s t candidate peer message) :
    Leads t candidate peer fun other => sent other ∨ other = message := by
  refine ⟨⟨sound, ?_⟩, ?_⟩
  · rintro other (old | rfl)
    · have := tops.below other old
      rw [made.watermark, made.epoch]
      omega
    · exact made.watermark.ge
  · rintro other r (old | rfl) found
    · obtain rfl := Option.some.inj (found.symm.trans made.record)
      have := tops.below other old
      have := made.epoch
      exact .inl (by simp only; omega)
    · obtain rfl := Option.some.inj (found.symm.trans made.record)
      exact .inr ⟨rfl, made.localId.symm⟩

theorem Leads.keeps (leads : Leads s candidate peer sent) (sound : Sound t)
    (localId : t.localId = s.localId) (watermark : s.watermark peer ≤ t.watermark peer)
    (records : ∀ r, t.record candidate peer = some r → s.record candidate peer = some r) :
    Leads t candidate peer sent :=
  ⟨⟨sound, fun other old => (leads.tops.below other old).trans watermark⟩,
    fun other r old found => localId ▸ leads.newest other r old (records r found)⟩

theorem Leads.taken (leads : Leads s candidate peer sent) (sound : Sound t) (apart : peer ≠ s.localId)
    (taken : Taken s t candidate peer message) : Tops t peer sent ∧
      (t.retryOf candidate peer = none → Leads t candidate peer sent ∧
        ∀ other, sent other → other.epoch < message.epoch) := by
  have tops : Tops t peer sent :=
    ⟨sound, fun other old => (leads.tops.below other old).trans taken.watermark⟩
  refine ⟨tops, fun idle => ?_⟩
  obtain ⟨r, isRecord, epoch, initiator, -⟩ := taken.record
  have older : ∀ other, sent other → other.epoch < message.epoch := by
    intro other old
    obtain rfl | waits | ⟨newer, above⟩ := taken.grounds
    · obtain less | ⟨-, own⟩ := leads.newest other r old isRecord
      · exact epoch ▸ less
      · exact absurd (initiator.symm.trans own) apart
    · exact absurd idle waits
    · cases before : s.record candidate peer with
      | none => exact (leads.tops.below other old).trans_lt (above before)
      | some previous =>
        have later := newer previous before
        obtain less | ⟨rfl, -⟩ := leads.newest other previous old before
        · exact less.trans later
        · rw [leads.tops.sound.matched.epoch candidate peer previous before]
          exact later
  refine ⟨⟨tops, fun other found old same => ?_⟩, older⟩
  obtain rfl := Option.some.inj (same.symm.trans isRecord)
  exact .inl (epoch ▸ older other old)

end

end

end QuantumFs.Crypto.KeyStore
