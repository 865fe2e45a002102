import QuantumFs.Crypto.NonceReuse
import QuantumFs.Net.Session

/-! The two sides of a handshake agree. What carries the proof is which wraps a side has sent:
the one its store keeps is the last of them, or a newer one of the other side, and only a side
that has taken a wrap acknowledges it for good. -/
namespace QuantumFs.Net.Session

open Lib Encoding Crypto KeyStore

def Sends (sent : List Frame) (message : WrapMessage) : Prop :=
  ∃ frame ∈ sent, frame.kind = wrapKind ∧ decodeWrap frame.payload = .ok message

def Acks (sent : List Frame) (epoch : Nat) : Prop :=
  ∃ frame ∈ sent, frame.kind = wrapAckKind ∧ decodeWrapAck frame.payload = .ok (epoch, false)

def Introduces (sent : List Frame) (own : PeerId) : Prop :=
  ∀ frame ∈ sent, frame.kind = identityKind → ∀ document,
    decodeIdentity frame.payload = .ok document → document.peerId = own

section

variable {sent : List Frame} {frame : Frame}

theorem sends_append {message : WrapMessage} : Sends (sent ++ [frame]) message ↔
    Sends sent message ∨ (frame.kind = wrapKind ∧ decodeWrap frame.payload = .ok message) := by
  simp only [Sends, List.mem_append, List.mem_singleton, or_and_right, exists_or, exists_eq_left]

theorem acks_append {epoch : Nat} : Acks (sent ++ [frame]) epoch ↔
    Acks sent epoch ∨ (frame.kind = wrapAckKind ∧ decodeWrapAck frame.payload = .ok (epoch, false)) := by
  simp only [Acks, List.mem_append, List.mem_singleton, or_and_right, exists_or, exists_eq_left]

theorem sends_append_other (other : frame.kind ≠ wrapKind) {message : WrapMessage} :
    Sends (sent ++ [frame]) message ↔ Sends sent message := by
  rw [sends_append, or_iff_left]
  exact fun isWrap => other isWrap.1

theorem introduces_append {own : PeerId} (known : Introduces sent own)
    (fresh : frame.kind = identityKind → ∀ document, decodeIdentity frame.payload = .ok document →
      document.peerId = own) : Introduces (sent ++ [frame]) own := by
  intro other mem
  obtain mem | mem := List.mem_append.mp mem
  · exact known other mem
  · obtain rfl := List.mem_singleton.mp mem
    exact fresh

theorem Sends.mono {later : List Frame} (grows : ∀ frame ∈ sent, frame ∈ later)
    {message : WrapMessage} (sends : Sends sent message) : Sends later message := by
  obtain ⟨frame, mem, isWrap⟩ := sends
  exact ⟨frame, grows frame mem, isWrap⟩

theorem Acks.mono {later : List Frame} (grows : ∀ frame ∈ sent, frame ∈ later) {epoch : Nat}
    (acks : Acks sent epoch) : Acks later epoch := by
  obtain ⟨frame, mem, isAck⟩ := acks
  exact ⟨frame, grows frame mem, isAck⟩

theorem frame_eq_ok {kind : Nat} {payload : Bytes} (h : Frame.new kind payload = .ok frame) :
    frame.kind = kind ∧ frame.payload = payload := by
  obtain ⟨_, _, h⟩ := Result.bind_eq_ok.mp h
  obtain ⟨_, _, h⟩ := Result.bind_eq_ok.mp h
  obtain rfl := Except.ok.inj h
  exact ⟨rfl, rfl⟩

end

/-- The frames that a side has sent while it waits, or when its turn has failed: they go on from
`base`, and none of them acknowledges a wrap for good. -/
structure Quiet (own : PeerId) (base sent : List Frame) : Prop where
  introduces : Introduces sent own
  grows : ∀ frame ∈ base, frame ∈ sent
  silent : ∀ epoch, ¬ Acks sent epoch

theorem Quiet.append {own : PeerId} {base sent : List Frame} (quiet : Quiet own base sent) {frame : Frame}
    (fresh : frame.kind = identityKind → ∀ document, decodeIdentity frame.payload = .ok document →
      document.peerId = own)
    (silent : ∀ epoch, ¬ (frame.kind = wrapAckKind ∧ decodeWrapAck frame.payload = .ok (epoch, false))) :
    Quiet own base (sent ++ [frame]) := by
  refine ⟨introduces_append quiet.introduces fresh, fun other mem => ?_, fun epoch acks => ?_⟩
  · exact List.mem_append_left _ (quiet.grows other mem)
  · obtain old | new := acks_append.mp acks
    · exact quiet.silent epoch old
    · exact silent epoch new

/-- The session of a side that has taken a wrap among the frames it heard. -/
structure Accepts (peer : PeerId) (heard sent : List Frame) (session : PairSession)
    (pair : PersistedPair) : Prop where
  epoch : session.epoch = pair.epoch
  peerId : session.peerId = peer
  wrapEpoch : pair.wrap.epoch = pair.epoch
  initiator : pair.initiator = peer
  received : Sends heard pair.wrap
  older : ∀ message, Sends sent message → message.epoch < pair.epoch
  acks : ∀ epoch, Acks sent epoch → epoch = pair.epoch

/-- The session of a side that has been told that its own wrap was taken. -/
structure Confirms (own peer : PeerId) (heard sent : List Frame) (session : PairSession)
    (pair : PersistedPair) : Prop where
  epoch : session.epoch = pair.epoch
  peerId : session.peerId = peer
  received : Acks heard session.epoch
  newest : ∀ message, Sends sent message →
    message.epoch < pair.epoch ∨ (pair.wrap = message ∧ pair.initiator = own)
  silent : ∀ epoch, ¬ Acks sent epoch

namespace Endpoint

/-- A side that has sent no wrap yet. -/
structure Fresh (own : PeerId) (base : List Frame) (s : Endpoint) : Prop where
  quiet : Quiet own base s.sent
  localId : s.keys.localId = own
  sound : Sound s.keys
  mute : ∀ message, ¬ Sends s.sent message

/-- A side that waits: the wraps it has sent are not newer than the one it keeps. -/
structure Ongoing (own peer : PeerId) (candidate : Bool) (base : List Frame) (s : Endpoint) : Prop where
  quiet : Quiet own base s.sent
  localId : s.keys.localId = own
  leads : Leads s.keys candidate peer (Sends s.sent)

structure Done (own peer : PeerId) (heard base : List Frame) (s : Endpoint) : Prop where
  introduces : Introduces s.sent own
  grows : ∀ frame ∈ base, frame ∈ s.sent
  established : ∃ document session pair, s.stage = .established ⟨document, session, some pair⟩ ∧
    document.peerId = peer ∧
    (Accepts peer heard s.sent session pair ∨ Confirms own peer heard s.sent session pair)

def Settles (own peer : PeerId) (candidate : Bool) (heard base : List Frame) (waiting : Stage)
    (s : Endpoint) : Prop :=
  (s.stage = waiting ∧ s.Ongoing own peer candidate base) ∨ s.Done own peer heard base

section

variable {own peer : PeerId} {candidate : Bool} {heard base : List Frame} {s : Endpoint}

theorem Fresh.ongoing (fresh : s.Fresh own base) : s.Ongoing own peer candidate base := by
  refine ⟨fresh.quiet, fresh.localId, ⟨fresh.sound, fun message sends => ?_⟩, fun message _ sends => ?_⟩
  · exact absurd sends (fresh.mute message)
  · exact absurd sends (fresh.mute message)

theorem Ongoing.sound (ongoing : s.Ongoing own peer candidate base) : Sound s.keys :=
  ongoing.leads.tops.sound

theorem Ongoing.ofKeys (ongoing : s.Ongoing own peer candidate base) {keys : KeyStore} (sound : Sound keys)
    (localId : keys.localId = s.keys.localId) (watermark : s.keys.watermark peer ≤ keys.watermark peer)
    (records : ∀ r, keys.record candidate peer = some r → s.keys.record candidate peer = some r) :
    ({ s with keys } : Endpoint).Ongoing own peer candidate base :=
  ⟨ongoing.quiet, localId.trans ongoing.localId, ongoing.leads.keeps sound localId watermark records⟩

theorem Ongoing.confirms (ongoing : s.Ongoing own peer candidate base) {session : PairSession}
    {pair : PersistedPair} (isPair : s.keys.record candidate peer = some pair)
    (epoch : session.epoch = pair.epoch) (peerId : session.peerId = peer)
    (received : Acks heard session.epoch) : Confirms own peer heard s.sent session pair := by
  refine ⟨epoch, peerId, received, fun message sends => ?_, ongoing.quiet.silent⟩
  obtain older | ⟨wrap, initiator⟩ := ongoing.leads.newest message pair sends isPair
  · exact .inl older
  · exact .inr ⟨wrap, initiator.trans ongoing.localId⟩

theorem Fresh.resends (fresh : s.Fresh own base) {pair : PersistedPair}
    (isPair : s.keys.record candidate peer = some pair) (initiator : pair.initiator = s.keys.localId) :
    Leads s.keys candidate peer fun other => Sends s.sent other ∨ other = pair.wrap := by
  refine ⟨⟨fresh.sound, ?_⟩, ?_⟩
  · rintro other (sends | rfl)
    · exact absurd sends (fresh.mute other)
    · rw [fresh.sound.matched.epoch candidate peer pair isPair]
      exact fresh.sound.record_le isPair
  · rintro other r (sends | rfl) found
    · exact absurd sends (fresh.mute other)
    · obtain rfl := Option.some.inj (found.symm.trans isPair)
      exact .inr ⟨rfl, initiator⟩

variable {Addr : Type} (env : SessionEnv Addr)

theorem sendFrame_ensures (kind : Nat) (payload : Result Bytes) {Q : Result Unit → Endpoint → Prop}
    (failed : ∀ e, Q (.error e) s)
    (done : ∀ frame bytes, payload = .ok bytes → frame.kind = kind → frame.payload = bytes →
      Q (.ok ()) { s with sent := s.sent ++ [frame] }) :
    Action.Ensures (sendFrame env kind payload) s Q := by
  unfold sendFrame
  refine .ofExcept (fun e _ => failed e) fun bytes isBytes => ?_
  refine .ofExcept (fun e _ => failed e) fun frame isFrame => ?_
  refine .query (fun e _ => failed e) fun _ _ => ?_
  obtain ⟨isKind, isPayload⟩ := frame_eq_ok isFrame
  exact done frame bytes isBytes isKind isPayload

theorem sendWrap_ensures {message : WrapMessage} (quiet : Quiet own base s.sent)
    (localId : s.keys.localId = own)
    (leads : Leads s.keys candidate peer fun other => Sends s.sent other ∨ other = message) :
    Action.Ensures (sendWrap env message) s
      (Action.Ends (fun _ t => t.stage = s.stage ∧ t.keys = s.keys ∧ t.Ongoing own peer candidate base)
        fun _ t => Quiet own base t.sent) := by
  refine sendFrame_ensures env _ _ (fun _ => quiet) fun frame bytes encoded isKind isPayload => ?_
  have small : message.epoch ≤ u64Max :=
    (leads.tops.below message (.inr rfl)).trans (leads.tops.sound.small peer)
  have isWrap : decodeWrap frame.payload = .ok message := by
    rw [isPayload]
    exact decodeWrap_iff.mpr ⟨encoded, small⟩
  have same : Sends (s.sent ++ [frame]) = fun other => Sends s.sent other ∨ other = message := by
    funext other
    rw [sends_append, isKind, isWrap, Except.ok.injEq, eq_comm (a := message)]
    simp only [true_and]
  refine ⟨rfl, rfl, quiet.append (fun isIdentity => ?_) fun epoch isAck => ?_, localId, same ▸ leads⟩
  · rw [isKind] at isIdentity
    cases isIdentity
  · have isAck := isAck.1
    rw [isKind] at isAck
    cases isAck

theorem sendPlain_ensures {kind : Nat} {payload : Bytes} (notIdentity : kind ≠ identityKind)
    (notWrap : kind ≠ wrapKind)
    (silent : kind = wrapAckKind → ∀ epoch, decodeWrapAck payload ≠ .ok (epoch, false))
    (quiet : Quiet own base s.sent) : Action.Ensures (sendFrame env kind (pure payload)) s
      (Action.Ends (fun _ t => ∃ sent, t = { s with sent } ∧ Quiet own base sent ∧
        Sends sent = Sends s.sent) fun _ t => Quiet own base t.sent) := by
  refine sendFrame_ensures env _ _ (fun _ => quiet) fun frame bytes encoded isKind isPayload => ?_
  obtain rfl := Except.ok.inj encoded
  obtain rfl := isKind
  obtain rfl := isPayload
  refine ⟨_, rfl, quiet.append (fun isIdentity => ?_) fun epoch isAck => ?_, ?_⟩
  · exact absurd isIdentity notIdentity
  · exact silent isAck.1 epoch isAck.2
  · funext other
    exact propext (sends_append_other notWrap)

theorem sendRetryAck_ensures {epoch : Nat} (small : epoch ≤ u64Max) (quiet : Quiet own base s.sent) :
    Action.Ensures (sendAck env epoch true) s
      (Action.Ends (fun _ t => ∃ sent, t = { s with sent } ∧ Quiet own base sent ∧
        Sends sent = Sends s.sent) fun _ t => Quiet own base t.sent) := by
  refine sendPlain_ensures env (by decide) (by decide) (fun _ other isFinal => ?_) quiet
  rw [decodeWrapAck_iff.mpr ⟨rfl, small⟩] at isFinal
  cases isFinal

theorem sendFinalAck_ensures {epoch : Nat} (small : epoch ≤ u64Max) (quiet : Quiet own base s.sent) :
    Action.Ensures (sendAck env epoch false) s
      (Action.Ends (fun _ t => ∃ sent, t = { s with sent } ∧ Introduces sent own ∧
          (∀ frame ∈ base, frame ∈ sent) ∧ Sends sent = Sends s.sent ∧
          ∀ other, Acks sent other → other = epoch)
        fun _ t => Quiet own base t.sent) := by
  refine sendFrame_ensures env _ _ (fun _ => quiet) fun frame bytes encoded isKind isPayload => ?_
  obtain rfl := Except.ok.inj encoded
  refine ⟨_, rfl, introduces_append quiet.introduces fun isIdentity => ?_, fun other mem => ?_, ?_,
    fun other acks => ?_⟩
  · rw [isKind] at isIdentity
    cases isIdentity
  · exact List.mem_append_left _ (quiet.grows other mem)
  · funext message
    exact propext (sends_append_other (by rw [isKind]; decide))
  · obtain old | new := acks_append.mp acks
    · exact absurd old (quiet.silent other)
    · have decoded := new.2
      rw [isPayload, decodeWrapAck_iff.mpr ⟨rfl, small⟩] at decoded
      cases decoded
      rfl

theorem ensures_onKeys {α : Type} {x : Action Error KeyStore α} {R : Result α → KeyStore → Prop}
    (h : Action.Ensures x s.keys R) :
    Action.Ensures (onKeys x) s fun r t => ∃ keys, R r keys ∧ t = { s with keys } :=
  ⟨_, h, rfl⟩

theorem attempt_ensures {ε σ α β : Type} {x : Action ε σ α} {f : Except ε α → Action ε σ β} {s : σ}
    {R : Except ε α → σ → Prop} {Q : Except ε β → σ → Prop} (h : Action.Ensures x s R)
    (next : ∀ r t, R r t → Action.Ensures (f r) t Q) : Action.Ensures (Action.attempt x >>= f) s Q :=
  next _ _ h

theorem finish_ensures {document : IdentityDocument} {session : PairSession} {pair : PersistedPair}
    {Q : Result Unit → Endpoint → Prop} (isPeer : document.peerId = peer)
    (isPair : s.keys.record candidate document.peerId = some pair) (introduces : Introduces s.sent own)
    (grows : ∀ frame ∈ base, frame ∈ s.sent)
    (ends : Accepts peer heard s.sent session pair ∨ Confirms own peer heard s.sent session pair)
    (done : ∀ t : Endpoint, t.Done own peer heard base → Q (.ok ()) t) :
    Action.Ensures (finish document session candidate) s Q := by
  refine done _ ⟨introduces, grows, document, session, pair, ?_, isPeer, ends⟩
  rw [← isPair]
  rfl

theorem goTo_ensures {stage : Stage} {Q : Result Unit → Endpoint → Prop}
    (h : Q (.ok ()) { s with stage }) : Action.Ensures (goTo stage) s Q := h

theorem ofExcept_ensures {ε σ α : Type} {x : Except ε α} {s : σ} {Q : Except ε α → σ → Prop}
    (err : ∀ e, Q (.error e) s) (ok : ∀ a, Q (.ok a) s) : Action.Ensures (Action.ofExcept x) s Q := by
  cases x with
  | ok a => exact ok a
  | error e => exact err e

theorem currentSession_eq_ok {keys : KeyStore} {session : PairSession}
    (h : keys.currentSession peer = .ok session) : ∃ pair, keys.record false peer = some pair ∧
      session.epoch = pair.epoch ∧ session.peerId = peer := by
  obtain ⟨_, _, h⟩ := Result.bind_eq_ok.mp h
  obtain ⟨pair, isPair, h⟩ := Result.bind_eq_ok.mp h
  obtain ⟨peerId, epoch⟩ := innerSession_eq_ok h
  exact ⟨pair, okOr_eq_ok.mp isPair, epoch, peerId⟩

theorem candidateSession_eq_ok {keys : KeyStore} {session : PairSession}
    (h : keys.candidateSession peer = .ok session) : ∃ pair, keys.record true peer = some pair ∧
      session.epoch = pair.epoch ∧ session.peerId = peer := by
  obtain ⟨_, _, h⟩ := Result.bind_eq_ok.mp h
  obtain ⟨pair, isPair, h⟩ := Result.bind_eq_ok.mp h
  obtain ⟨peerId, epoch⟩ := innerSession_eq_ok h
  exact ⟨pair, okOr_eq_ok.mp isPair, epoch, peerId⟩

theorem retry_eq_ok {keys : KeyStore} {message again : WrapMessage}
    (h : KeyStore.retry message keys = .ok again) : again = message := by
  obtain ⟨_, _, h⟩ := Result.bind_eq_ok.mp h
  obtain ⟨_, _, h⟩ := Result.bind_eq_ok.mp h
  exact (Except.ok.inj h).symm

theorem cached_eq_ok {keys : KeyStore} {initiator : PeerId} {message : WrapMessage}
    (h : keys.cached candidate peer = .ok (some (initiator, message))) :
    ∃ pair, keys.record candidate peer = some pair ∧ pair.initiator = initiator ∧ pair.wrap = message := by
  obtain ⟨_, _, h⟩ := Result.bind_eq_ok.mp h
  obtain ⟨pair, isPair, same⟩ := Option.map_eq_some_iff.mp (Except.ok.inj h)
  cases same
  exact ⟨pair, isPair, rfl, rfl⟩

theorem peerId_eq_ok {keys : KeyStore} {localId : PeerId} (h : keys.peerId = .ok localId) :
    localId = keys.localId := by
  obtain ⟨_, _, h⟩ := Result.bind_eq_ok.mp h
  exact (Except.ok.inj h).symm

variable [Primitives]

def Retries (candidate : Bool) (peer : PeerId)
    (retry : Action Error KeyStore (PairSession × WrapMessage)) : Prop :=
  ∀ keys, Sound keys → Action.Ensures retry keys fun r t => Sound t ∧
    ∀ session message, r = .ok (session, message) → ∃ u, Sound u ∧ u.localId = keys.localId ∧
      u.watermark peer = keys.watermark peer ∧ Made u t candidate peer message

theorem retries_pair (keyEnv : KeyEnv) (peer : PeerId) :
    Retries false peer (KeyStore.retryCollision keyEnv peer) := by
  refine fun keys sound => (retryCollision_sound keyEnv peer sound).mono fun r t known => ?_
  exact ⟨known.1, fun session message isOk => ⟨keys, sound, rfl, rfl, known.2 session message isOk⟩⟩

theorem retries_candidate (discard create : KeyEnv) (peer : PeerId) :
    Retries true peer (KeyStore.retryCandidateCollision discard create peer) := by
  refine fun keys sound => (retryCandidateCollision_sound discard create peer sound).mono fun r t known => ?_
  refine ⟨known.1, fun session message isOk => ?_⟩
  obtain ⟨u, soundU, localId, watermark, -, made⟩ := known.2 session message isOk
  exact ⟨u, soundU, localId, watermark, made⟩

theorem acceptWrap_ensures {document : IdentityDocument} {message : WrapMessage} {keyEnv : KeyEnv}
    {retryEpoch : KeyStore → Result (Option Nat)} {lost : PairSession → Nat}
    {retry : Action Error KeyStore (PairSession × WrapMessage)}
    (isPeer : document.peerId = peer) (apart : peer ≠ own) (small : message.epoch ≤ u64Max)
    (received : Sends heard message)
    (asks : ∀ keys pending, retryEpoch keys = .ok pending → pending = keys.retryOf candidate peer)
    (loses : ∀ session : PairSession, session.epoch = message.epoch → lost session = message.epoch)
    (retries : Retries candidate peer retry) (ongoing : s.Ongoing own peer candidate base) :
    Action.Ensures (acceptWrap env document candidate
        (KeyStore.unwrapInner keyEnv peer message candidate) retryEpoch lost retry) s
      (Action.Ends (fun _ t => t.Settles own peer candidate heard base s.stage)
        fun _ t => Quiet own base t.sent) := by
  unfold acceptWrap
  refine attempt_ensures (ensures_onKeys ((unwrapInner_sound keyEnv peer candidate small
    ongoing.sound).and (unwrapInner_kept keyEnv peer message candidate s.keys))) ?_
  rintro r _ ⟨keys, ⟨⟨sound, takes⟩, conflict⟩, rfl⟩
  cases r with
  | error e =>
    cases e with
    | epochConflict epoch =>
      -- The kept wrap has won, and nothing has changed.
      obtain rfl := conflict epoch rfl
      exact .inl ⟨rfl, ongoing⟩
    | _ => exact ongoing.quiet
  | ok session =>
    obtain ⟨taken, isSession, epoch⟩ := takes session rfl
    have localId : keys.localId = own := taken.localId.trans ongoing.localId
    obtain ⟨tops, idle⟩ := ongoing.leads.taken sound (ongoing.localId ▸ apart) taken
    refine .query (fun _ _ => ongoing.quiet) fun pending isPending => .ite (fun _ => ?_) fun none => ?_
    · -- A collision has been lost: the next wrap is newer than both.
      rw [loses session epoch]
      refine .next (sendRetryAck_ensures env small ongoing.quiet) (fun _ _ quiet => quiet) ?_
      rintro _ _ ⟨sent, rfl, quiet, same⟩
      refine .next (ensures_onKeys (retries keys sound)) ?_ ?_
      · rintro _ _ ⟨_, _, rfl⟩
        exact quiet
      rintro ⟨_, newer⟩ _ ⟨later, ⟨soundLater, made⟩, rfl⟩
      obtain ⟨u, soundU, localIdU, watermark, made⟩ := made _ _ rfl
      have leads : Leads later candidate peer fun other => Sends sent other ∨ other = newer :=
        Tops.made ⟨soundU, fun other old => (tops.below other (same ▸ old)).trans_eq watermark.symm⟩
          soundLater made
      refine (sendWrap_ensures env quiet (made.localId.trans (localIdU.trans localId)) leads).mono ?_
      intro r t ends
      cases r with
      | error _ => exact ends
      | ok _ => exact .inl ⟨ends.1, ends.2.2⟩
    · -- The wrap is acknowledged for good.
      have nothing : keys.retryOf candidate peer = .none := by
        rw [← asks keys pending isPending]
        exact Option.not_isSome_iff_eq_none.mp none
      obtain ⟨-, older⟩ := idle nothing
      refine .next (sendFinalAck_ensures env (epoch ▸ small) ongoing.quiet) (fun _ _ quiet => quiet) ?_
      rintro _ _ ⟨sent, rfl, introduces, grows, same, acks⟩
      obtain ⟨pair, isPair, pairEpoch, initiator, wrap⟩ := taken.record
      refine finish_ensures isPeer (isPeer ▸ isPair) introduces grows (.inl ?_) fun _ done => .inr done
      refine ⟨epoch.trans pairEpoch.symm, isSession, ?_, initiator, wrap ▸ received, ?_, ?_⟩
      · rw [wrap, pairEpoch]
      · intro other sends
        rw [pairEpoch]
        exact older other (same ▸ sends)
      · intro other isAck
        rw [pairEpoch, ← epoch]
        exact acks other isAck

theorem prepareIncomingFloor_ensures {document : IdentityDocument} {message : WrapMessage}
    (isPeer : document.peerId = peer) (small : message.epoch ≤ u64Max)
    (ongoing : s.Ongoing own peer false base) :
    Action.Ensures (prepareIncomingFloor env document message) s
      (Action.Ends (fun _ t => t.stage = s.stage ∧ t.Ongoing own peer false base)
        fun _ t => Quiet own base t.sent) := by
  have still : s.stage = s.stage ∧ s.Ongoing own peer false base := ⟨rfl, ongoing⟩
  unfold prepareIncomingFloor
  refine .get (.ite (fun _ => .pure still) fun _ => .query (fun _ _ => ongoing.quiet) fun _ _ => ?_)
  refine .ite (fun _ => .pure still) fun _ => .query (fun _ _ => ongoing.quiet) fun _ _ => ?_
  refine .ite (fun _ => ?_) fun _ => .pure still
  refine .ofExcept (fun _ _ => ongoing.quiet) fun _ _ => ?_
  refine (ensures_onKeys (observeRemoteEpoch_sound env.observe document.peerId
    (Nat.sub_le_of_le_add (small.trans (Nat.le_succ _))) ongoing.sound)).mono ?_
  rintro r _ ⟨keys, ⟨sound, localId, watermark, records⟩, rfl⟩
  cases r with
  | error _ => exact ongoing.quiet
  | ok _ =>
    refine ⟨rfl, ongoing.ofKeys sound localId (isPeer ▸ watermark) fun r found => ?_⟩
    rw [← isPeer] at found ⊢
    rwa [records false] at found

theorem finishWrap_ensures {document : IdentityDocument} {frame : Frame}
    (isPeer : document.peerId = peer) (apart : peer ≠ own) (mem : frame ∈ heard)
    (ongoing : s.Ongoing own peer false base) :
    Action.Ensures (finishWrap env document frame) s
      (Action.Ends (fun _ t => t.Settles own peer false heard base s.stage)
        fun _ t => Quiet own base t.sent) := by
  obtain rfl := isPeer
  have still : s.Settles own document.peerId false heard base s.stage := .inl ⟨rfl, ongoing⟩
  unfold finishWrap
  refine .ite (fun isWrap => ?_) fun _ => .ite (fun isAck => ?_) fun _ => .throw ongoing.quiet
  · refine .ofExcept (fun _ _ => ongoing.quiet) fun message decoded => .get ?_
    have small := (decodeWrap_iff.mp decoded).2
    refine .ite (fun _ => ofExcept_ensures (fun _ => ongoing.quiet) fun _ => still) fun _ => ?_
    refine .next (prepareIncomingFloor_ensures env rfl small ongoing) (fun _ _ quiet => quiet) ?_
    rintro _ t ⟨stage, ongoing⟩
    rw [← stage]
    refine acceptWrap_ensures env rfl apart small ⟨frame, mem, isWrap, decoded⟩ ?_ (fun _ _ => rfl)
      (retries_pair _ _) ongoing
    intro keys pending asked
    obtain ⟨_, _, asked⟩ := Result.bind_eq_ok.mp asked
    cases asked
    rfl
  · refine .ofExcept (fun _ _ => ongoing.quiet) ?_
    rintro ⟨epoch, retryPending⟩ decoded
    refine .ite (fun _ => .pure still) fun final => ?_
    refine .query (fun _ _ => ongoing.quiet) fun session isSession => ?_
    refine .require (fun _ => ongoing.quiet) fun same => ?_
    obtain ⟨pair, isPair, pairEpoch, peerId⟩ := currentSession_eq_ok isSession
    have acked : Acks heard session.epoch := by
      rw [Bool.not_eq_true] at final
      exact ⟨frame, mem, isAck, by rw [decoded, final, same]⟩
    refine finish_ensures rfl isPair ongoing.quiet.introduces ongoing.quiet.grows (.inr ?_)
      fun _ done => .inr done
    exact ongoing.confirms isPair pairEpoch peerId acked

theorem finishCandidate_ensures {document : IdentityDocument} {frame : Frame}
    (isPeer : document.peerId = peer) (apart : peer ≠ own) (mem : frame ∈ heard)
    (ongoing : s.Ongoing own peer true base) :
    Action.Ensures (finishCandidate env document frame) s
      (Action.Ends (fun _ t => t.Settles own peer true heard base s.stage)
        fun _ t => Quiet own base t.sent) := by
  obtain rfl := isPeer
  have still : s.Settles own document.peerId true heard base s.stage := .inl ⟨rfl, ongoing⟩
  unfold finishCandidate
  refine .ite (fun isWrap => ?_) fun _ => .ite (fun isAck => ?_) fun _ => .throw ongoing.quiet
  · refine .ofExcept (fun _ _ => ongoing.quiet) fun message decoded => .get ?_
    have small := (decodeWrap_iff.mp decoded).2
    refine .ite (fun _ => ofExcept_ensures (fun _ => ongoing.quiet) fun _ => still) fun _ => ?_
    refine acceptWrap_ensures env rfl apart small ⟨frame, mem, isWrap, decoded⟩ ?_ (fun _ same => same)
      (retries_candidate _ _ _) ongoing
    intro keys pending asked
    obtain ⟨_, _, asked⟩ := Result.bind_eq_ok.mp asked
    cases asked
    rfl
  · refine .ofExcept (fun _ _ => ongoing.quiet) ?_
    rintro ⟨epoch, retryPending⟩ decoded
    refine .ite (fun _ => ?_) fun final => ?_
    · refine (ensures_onKeys (discardCandidate_sound env.discard document.peerId ongoing.sound)).mono ?_
      rintro r _ ⟨keys, ⟨sound, localId, watermark, records⟩, rfl⟩
      cases r with
      | error _ => exact ongoing.quiet
      | ok _ => exact .inl ⟨rfl, ongoing.ofKeys sound localId watermark.ge (records true)⟩
    refine .query (fun _ _ => ongoing.quiet) fun session isSession => ?_
    refine .require (fun _ => ongoing.quiet) fun same => ?_
    obtain ⟨pair, isPair, pairEpoch, peerId⟩ := candidateSession_eq_ok isSession
    have acked : Acks heard session.epoch := by
      rw [Bool.not_eq_true] at final
      exact ⟨frame, mem, isAck, by rw [decoded, final, same]⟩
    refine finish_ensures rfl isPair ongoing.quiet.introduces ongoing.quiet.grows (.inr ?_)
      fun _ done => .inr done
    exact ongoing.confirms isPair pairEpoch peerId acked

/-- A side that preserves its pair: what is agreed on is the wrap it keeps. -/
structure Preserves (own peer : PeerId) (base : List Frame) (session : PairSession)
    (localInitiated : Bool) (cached : WrapMessage) (s : Endpoint) : Prop where
  ongoing : s.Ongoing own peer false base
  kept : ∃ pair, s.keys.record false peer = some pair ∧ pair.wrap = cached ∧ pair.epoch = session.epoch
  peerId : session.peerId = peer
  mute : localInitiated = false → ∀ message, ¬ Sends s.sent message

theorem finishPreserved_ensures {document : IdentityDocument} {session : PairSession}
    {localInitiated : Bool} {cached : WrapMessage} {frame : Frame}
    (isPeer : document.peerId = peer) (mem : frame ∈ heard)
    (known : s.Preserves own peer base session localInitiated cached) :
    Action.Ensures (finishPreserved env document session localInitiated cached frame) s
      (Action.Ends (fun _ t => t.Done own peer heard base) fun _ t => Quiet own base t.sent) := by
  obtain rfl := isPeer
  have quiet := known.ongoing.quiet
  unfold finishPreserved
  refine .ite (fun waits => ?_) fun _ => .ite (fun waits => ?_) fun _ => .throw quiet
  · refine .ofExcept (fun _ _ => quiet) fun incoming decoded => .require (fun _ => quiet) fun same => ?_
    have small := (decodeWrap_iff.mp decoded).2
    refine .next (ensures_onKeys (unwrapInner_sound env.unwrap document.peerId false small
      known.ongoing.sound)) ?_ ?_
    · rintro _ _ ⟨_, _, rfl⟩
      exact quiet
    rintro opened _ ⟨keys, ⟨sound, takes⟩, rfl⟩
    obtain ⟨taken, -, epoch⟩ := takes opened rfl
    refine .require (fun _ => quiet) fun sameEpoch => ?_
    have isSmall : session.epoch ≤ u64Max := by
      rw [← sameEpoch, epoch]
      exact small
    refine .next (sendFinalAck_ensures env isSmall quiet) (fun _ _ quiet => quiet) ?_
    rintro _ _ ⟨sent, rfl, introduces, grows, sends, acks⟩
    obtain ⟨pair, isPair, pairEpoch, initiator, wrap⟩ := taken.record
    have sessionEpoch : session.epoch = pair.epoch := sameEpoch.symm.trans (epoch.trans pairEpoch.symm)
    refine finish_ensures rfl isPair introduces grows (.inl ?_) fun _ done => done
    refine ⟨sessionEpoch, known.peerId, ?_, initiator, ?_, fun message isSent => ?_, fun other isAck => ?_⟩
    · rw [wrap, pairEpoch]
    · rw [wrap]
      exact ⟨frame, mem, waits.1, decoded⟩
    · exact absurd (sends ▸ isSent) (known.mute waits.2 message)
    · rw [← sessionEpoch]
      exact acks other isAck
  · refine .ofExcept (fun _ _ => quiet) ?_
    rintro ⟨epoch, retryPending⟩ decoded
    refine .require (fun _ => quiet) fun final => ?_
    obtain ⟨pair, isPair, -, pairEpoch⟩ := known.kept
    have acked : Acks heard session.epoch := ⟨frame, mem, waits.1, by rw [decoded, final.1, final.2]⟩
    refine finish_ensures rfl isPair quiet.introduces quiet.grows (.inr ?_) fun _ done => done
    exact known.ongoing.confirms isPair pairEpoch.symm known.peerId acked

inductive Stands (own peer : PeerId) (heard base : List Frame) (s : Endpoint) : Prop where
  | ready (stage : s.stage = .ready) (fresh : s.Fresh own base)
  | identity {document : IdentityDocument} (stage : s.stage = .identity document)
      (isOwn : document.peerId = own) (fresh : s.Fresh own base)
  | hint {document other : IdentityDocument} {preserveExisting : Bool} {localEpoch : Nat}
      (stage : s.stage = .hint document other preserveExisting localEpoch)
      (isOwn : document.peerId = own) (isPeer : other.peerId = peer) (small : localEpoch ≤ u64Max)
      (fresh : s.Fresh own base)
  | preserved {other : IdentityDocument} {session : PairSession} {localInitiated : Bool}
      {cached : WrapMessage} (stage : s.stage = .preserved other session localInitiated cached)
      (isPeer : other.peerId = peer) (known : s.Preserves own peer base session localInitiated cached)
  | candidate {other : IdentityDocument} (stage : s.stage = .candidate other)
      (isPeer : other.peerId = peer) (ongoing : s.Ongoing own peer true base)
  | wrap {other : IdentityDocument} (stage : s.stage = .wrap other)
      (isPeer : other.peerId = peer) (ongoing : s.Ongoing own peer false base)
  | established (done : s.Done own peer heard base)
  | failed {error : Error} (stage : s.stage = .failed error) (quiet : Quiet own base s.sent)

theorem Fresh.create_ensures (fresh : s.Fresh own base) (keyEnv : KeyEnv) (ek : Bytes) (epoch : Nat) :
    Action.Ensures (onKeys (KeyStore.createInner keyEnv peer ek epoch candidate)) s fun r t =>
      ∃ keys, t = { s with keys } ∧ ∀ session message, r = .ok (session, message) →
        keys.localId = own ∧ Leads keys candidate peer fun other => Sends s.sent other ∨ other = message := by
  refine (ensures_onKeys (createInner_sound keyEnv peer ek epoch candidate fresh.sound)).mono ?_
  rintro r _ ⟨keys, ⟨sound, makes⟩, rfl⟩
  refine ⟨keys, rfl, fun session message isOk => ?_⟩
  have made := makes session message isOk
  refine ⟨made.localId.trans fresh.localId, Tops.made ⟨fresh.sound, fun other sends => ?_⟩ sound made⟩
  exact absurd sends (fresh.mute other)

theorem beginCandidate_ensures {document : IdentityDocument} (localEpoch remoteEpoch : Nat)
    (isPeer : document.peerId = peer) (fresh : s.Fresh own base) :
    Action.Ensures (beginCandidate env document localEpoch remoteEpoch) s
      (Action.Ends (fun _ t => t.Stands own peer heard base) fun _ t => Quiet own base t.sent) := by
  obtain rfl := isPeer
  have quiet := fresh.quiet
  have waits : Action.Ensures (goTo (.candidate document)) s (Action.Ends
      (fun _ t => t.Stands own document.peerId heard base) fun _ t => Quiet own base t.sent) :=
    .candidate rfl rfl ⟨quiet, fresh.localId, (Fresh.ongoing fresh).leads⟩
  unfold beginCandidate
  refine .query (fun _ _ => quiet) fun confirmed _ => .query (fun _ _ => quiet) fun cached isCached => ?_
  refine .query (fun _ _ => quiet) fun localId isLocal => ?_
  cases cached with
  | some entry =>
    obtain ⟨initiator, message⟩ := entry
    refine .ite (fun isInitiator => ?_) fun _ => waits
    obtain ⟨pair, isPair, rfl, rfl⟩ := cached_eq_ok isCached
    refine .query (fun _ _ => quiet) fun again isAgain => ?_
    obtain rfl := retry_eq_ok isAgain
    have leads := fresh.resends isPair (isInitiator.trans (peerId_eq_ok isLocal))
    refine .next (sendWrap_ensures env quiet fresh.localId leads) (fun _ _ quiet => quiet) ?_
    rintro _ t ⟨-, -, ongoing⟩
    exact goTo_ensures (.candidate rfl rfl ⟨ongoing.quiet, ongoing.localId, ongoing.leads⟩)
  | none =>
    refine .ite (fun _ => ?_) fun _ => waits
    refine .query (fun _ _ => quiet) fun epoch _ => ?_
    refine .next (fresh.create_ensures env.create document.ek epoch) ?_ ?_
    · rintro _ _ ⟨_, rfl, _⟩
      exact quiet
    rintro ⟨session, message⟩ _ ⟨keys, rfl, makes⟩
    obtain ⟨localId, leads⟩ := makes session message rfl
    refine .next (sendWrap_ensures env quiet localId leads) (fun _ _ quiet => quiet) ?_
    rintro _ t ⟨-, -, ongoing⟩
    exact goTo_ensures (.candidate rfl rfl ⟨ongoing.quiet, ongoing.localId, ongoing.leads⟩)

theorem beginPreserved_ensures {document : IdentityDocument} (localEpoch remoteEpoch : Nat)
    (isPeer : document.peerId = peer) (fresh : s.Fresh own base) :
    Action.Ensures (beginPreserved env document localEpoch remoteEpoch) s
      (Action.Ends (fun _ t => t.Stands own peer heard base) fun _ t => Quiet own base t.sent) := by
  obtain rfl := isPeer
  have quiet := fresh.quiet
  unfold beginPreserved
  refine .query (fun _ _ => quiet) fun session isSession => ?_
  refine .ite (fun _ => beginCandidate_ensures env localEpoch remoteEpoch rfl fresh) fun _ => ?_
  refine .query (fun _ _ => quiet) fun known isKnown => .ofExcept (fun _ _ => quiet) ?_
  rintro ⟨initiator, cached⟩ isCached
  refine .query (fun _ _ => quiet) fun localId isLocal => ?_
  rw [okOr_eq_ok.mp isCached] at isKnown
  obtain ⟨pair, isPair, rfl, rfl⟩ := cached_eq_ok isKnown
  obtain ⟨other, isOther, epoch, peerId⟩ := currentSession_eq_ok isSession
  obtain rfl := Option.some.inj (isOther.symm.trans isPair)
  refine .ite (fun isInitiator => ?_) fun _ => ?_
  · refine .query (fun _ _ => quiet) fun again isAgain => ?_
    obtain rfl := retry_eq_ok isAgain
    have leads := fresh.resends isPair (isInitiator.trans (peerId_eq_ok isLocal))
    refine .next (sendWrap_ensures env quiet fresh.localId leads) (fun _ _ quiet => quiet) ?_
    rintro _ t ⟨-, keys, ongoing⟩
    refine goTo_ensures (.preserved rfl rfl ⟨⟨ongoing.quiet, ongoing.localId, ongoing.leads⟩, ?_, peerId, ?_⟩)
    · exact ⟨other, keys ▸ isPair, rfl, epoch.symm⟩
    · intro never
      cases never
  · refine goTo_ensures (.preserved rfl rfl ⟨⟨quiet, fresh.localId, (Fresh.ongoing fresh).leads⟩, ?_, peerId, ?_⟩)
    · exact ⟨other, isPair, rfl, epoch.symm⟩
    · exact fun _ => fresh.mute

theorem initialWrap_ensures {document other : IdentityDocument} {localEpoch remoteEpoch : Nat}
    (isOwn : document.peerId = own) (isPeer : other.peerId = peer) (smallLocal : localEpoch ≤ u64Max)
    (smallRemote : remoteEpoch ≤ u64Max) (fresh : s.Fresh own base) :
    Action.Ensures (initialWrap env document other localEpoch remoteEpoch) s
      (Action.Ends (fun first t => ∃ keys, t = { s with keys } ∧ keys.localId = own ∧ Sound keys ∧
        ∀ message, first = some message →
          Leads keys false peer fun other => Sends s.sent other ∨ other = message)
        fun _ t => Quiet own base t.sent) := by
  obtain rfl := isPeer
  have quiet := fresh.quiet
  unfold initialWrap
  refine .query (fun _ _ => quiet) fun cached isCached => .get ?_
  dsimp only
  generalize isEligible : cached.filter _ = eligible
  cases eligible with
  | some entry =>
    obtain ⟨initiator, message⟩ := entry
    obtain ⟨rfl, holds⟩ := Option.filter_eq_some_iff.mp isEligible
    obtain ⟨pair, isPair, rfl, rfl⟩ := cached_eq_ok isCached
    have isInitiator : pair.initiator = document.peerId := (of_decide_eq_true holds).1
    refine .query (fun _ _ => quiet) fun again isAgain => .pure ?_
    obtain rfl := retry_eq_ok isAgain
    refine ⟨s.keys, rfl, fresh.localId, fresh.sound, fun message same => ?_⟩
    obtain rfl := Option.some.inj same
    exact fresh.resends isPair (isInitiator.trans (isOwn.trans fresh.localId.symm))
  | none =>
    refine .ite (fun _ => ?_) fun _ => .pure ⟨s.keys, rfl, fresh.localId, fresh.sound, fun _ never => ?_⟩
    · refine .next (ensures_onKeys (observeRemoteEpoch_sound env.observe other.peerId
        (max_le smallLocal smallRemote) fresh.sound)) ?_ ?_
      · rintro _ _ ⟨_, _, rfl⟩
        exact quiet
      rintro _ _ ⟨observed, ⟨sound, localId, -, -⟩, rfl⟩
      refine .query (fun _ _ => quiet) fun epoch _ => ?_
      have again : ({ s with keys := observed } : Endpoint).Fresh own base :=
        ⟨quiet, localId.trans fresh.localId, sound, fresh.mute⟩
      refine .next (again.create_ensures env.create other.ek epoch) ?_ ?_
      · rintro _ _ ⟨_, rfl, _⟩
        exact quiet
      rintro ⟨session, message⟩ _ ⟨keys, rfl, makes⟩
      obtain ⟨localId, leads⟩ := makes session message rfl
      refine .pure ⟨keys, rfl, localId, leads.tops.sound, fun other same => ?_⟩
      obtain rfl := Option.some.inj same
      exact leads
    · cases never

theorem receiveHint_ensures {document other : IdentityDocument} {preserveExisting : Bool}
    {localEpoch : Nat} {frame : Frame} (isOwn : document.peerId = own) (isPeer : other.peerId = peer)
    (small : localEpoch ≤ u64Max) (fresh : s.Fresh own base) :
    Action.Ensures (receiveHint env document other preserveExisting localEpoch frame) s
      (Action.Ends (fun _ t => t.Stands own peer heard base) fun _ t => Quiet own base t.sent) := by
  have quiet := fresh.quiet
  unfold receiveHint
  refine .ofExcept (fun _ _ => quiet) fun _ _ => .ofExcept (fun _ _ => quiet) ?_
  rintro ⟨hinted, remoteEpoch⟩ decoded
  have smallRemote := (decodeEpochHint_iff.mp decoded).2
  refine .require (fun _ => quiet) fun _ => .ite (fun _ => ?_) fun _ => ?_
  · exact beginPreserved_ensures env localEpoch remoteEpoch isPeer fresh
  refine .next (initialWrap_ensures env isOwn isPeer small smallRemote fresh) (fun _ _ quiet => quiet) ?_
  rintro first _ ⟨keys, rfl, localId, sound, leads⟩
  cases first with
  | some message =>
    refine .next (sendWrap_ensures env quiet localId (leads message rfl)) (fun _ _ quiet => quiet) ?_
    rintro _ t ⟨-, -, ongoing⟩
    exact goTo_ensures (.wrap rfl isPeer ⟨ongoing.quiet, ongoing.localId, ongoing.leads⟩)
  | none =>
    have still : ({ s with keys } : Endpoint).Fresh own base := ⟨quiet, localId, sound, fresh.mute⟩
    exact goTo_ensures (.wrap rfl isPeer ⟨quiet, localId, (Fresh.ongoing still).leads⟩)

theorem receiveIdentity_ensures {document : IdentityDocument} {frame : Frame} (mem : frame ∈ heard)
    (introduces : Introduces heard peer) (isOwn : document.peerId = own) (fresh : s.Fresh own base) :
    Action.Ensures (receiveIdentity env document frame) s
      (Action.Ends (fun _ t => t.Stands own peer heard base) fun _ t => Quiet own base t.sent) := by
  have quiet := fresh.quiet
  unfold receiveIdentity
  refine .ofExcept (fun _ _ => quiet) fun _ isIdentity => .ofExcept (fun _ _ => quiet) fun other decoded => ?_
  have isPeer : other.peerId = peer := introduces frame mem (ensure_eq_ok.mp isIdentity) other decoded
  refine .ofExcept (fun _ _ => quiet) fun _ _ => .require (fun _ => quiet) fun _ => ?_
  have noted : Action.Ensures (notePeer other.peerId) s
      fun _ (t : Endpoint) => t.sent = s.sent ∧ t.keys = s.keys := by
    unfold notePeer
    refine .modify (.get ?_)
    dsimp only
    refine .ite (fun _ => ?_) fun _ => .query (fun _ _ => ⟨rfl, rfl⟩) fun _ _ => ?_
    · exact ⟨rfl, rfl⟩
    · exact ⟨rfl, rfl⟩
  have still : ∀ t : Endpoint, t.sent = s.sent ∧ t.keys = s.keys → t.Fresh own base := by
    rintro t ⟨sent, keys⟩
    exact ⟨sent ▸ quiet, keys ▸ fresh.localId, keys ▸ fresh.sound, sent ▸ fresh.mute⟩
  refine .next noted (fun _ t same => (still t same).quiet) fun hadPair t same => ?_
  have freshNoted := still t same
  refine .ofExcept (fun _ _ => freshNoted.quiet) fun preserveExisting _ => ?_
  have admitted : Action.Ensures (admitPeer env other preserveExisting hadPair) t
      fun _ u => u.Fresh own base := by
    unfold admitPeer
    refine .ite (fun _ => .query (fun _ _ => freshNoted) fun _ _ => ?_) fun _ => ?_
    · unfold Action.require
      exact .ite (fun _ => freshNoted) fun _ => freshNoted
    · refine (ensures_onKeys (importPeer_sound env.importPeer other freshNoted.sound)).mono ?_
      rintro _ _ ⟨keys, ⟨sound, localId⟩, rfl⟩
      exact ⟨freshNoted.quiet, localId.trans freshNoted.localId, sound, freshNoted.mute⟩
  refine .next admitted (fun _ _ fresh => fresh.quiet) fun _ u known => ?_
  refine .query (fun _ _ => known.quiet) fun localEpoch isEpoch => ?_
  have small : localEpoch ≤ u64Max := by
    obtain ⟨_, _, isEpoch⟩ := Result.bind_eq_ok.mp isEpoch
    cases isEpoch
    exact known.sound.small other.peerId
  refine .next (sendPlain_ensures env (by decide) (by decide) (fun never => ?_) known.quiet)
    (fun _ _ quiet => quiet) ?_
  · cases never
  rintro _ _ ⟨sent, rfl, quiet, same⟩
  refine goTo_ensures (.hint rfl isOwn isPeer small ⟨quiet, known.localId, known.sound, fun message sends => ?_⟩)
  exact known.mute message (same ▸ sends)

omit [Primitives] in
theorem begin_ensures (fresh : s.Fresh own base) : Action.Ensures (begin env) s
    (Action.Ends (fun _ t => t.Stands own peer heard base) fun _ t => Quiet own base t.sent) := by
  have quiet := fresh.quiet
  unfold begin
  refine .query (fun _ _ => quiet) fun document isDocument => ?_
  have isOwn : document.peerId = own := by
    obtain ⟨_, _, isDocument⟩ := Result.bind_eq_ok.mp isDocument
    cases isDocument
    exact fresh.localId
  refine .next (R := Action.Ends (fun _ t => t.Fresh own base) fun _ t => Quiet own base t.sent) ?_
    (fun _ _ quiet => quiet) fun _ t known => ?_
  · refine sendFrame_ensures env _ _ (fun _ => quiet) fun frame bytes encoded isKind isPayload => ?_
    refine ⟨quiet.append (fun _ decoded isDecoded => ?_) fun epoch isAck => ?_, fresh.localId, fresh.sound,
      fun message sends => ?_⟩
    · rw [isPayload, decodeIdentity_iff.mpr encoded] at isDecoded
      obtain rfl := Except.ok.inj isDecoded
      exact isOwn
    · have isAck := isAck.1
      rw [isKind] at isAck
      cases isAck
    · refine fresh.mute message ((sends_append_other ?_).mp sends)
      rw [isKind]
      decide
  · exact goTo_ensures (.identity rfl isOwn ⟨known.quiet, known.localId, known.sound, known.mute⟩)

omit [Primitives] in
theorem turn_stands {x : Action Error Endpoint Unit} (h : Action.Ensures x s
    (Action.Ends (fun _ t => t.Stands own peer heard base) fun _ t => Quiet own base t.sent)) :
    (turn x s).Stands own peer heard base := by
  unfold Action.Ensures at h
  unfold turn
  generalize x s = outcome at h ⊢
  obtain ⟨r, t⟩ := outcome
  cases r with
  | ok _ => exact h
  | error _ => exact .failed rfl h

theorem receive_ensures {frame : Frame} (mem : frame ∈ heard) (introduces : Introduces heard peer)
    (apart : peer ≠ own) (stands : s.Stands own peer heard base) :
    Action.Ensures (receive env frame) s
      (Action.Ends (fun _ t => t.Stands own peer heard base) fun _ t => Quiet own base t.sent) := by
  unfold receive
  refine .get ?_
  cases stands with
  | ready stage fresh =>
    rw [stage]
    exact .ready stage fresh
  | identity stage isOwn fresh =>
    rw [stage]
    exact receiveIdentity_ensures env mem introduces isOwn fresh
  | hint stage isOwn isPeer small fresh =>
    rw [stage]
    exact receiveHint_ensures env isOwn isPeer small fresh
  | preserved stage isPeer known =>
    rw [stage]
    refine (finishPreserved_ensures env isPeer mem known).mono fun r t ends => ?_
    cases r with
    | ok _ => exact .established ends
    | error _ => exact ends
  | candidate stage isPeer ongoing =>
    rw [stage]
    refine (finishCandidate_ensures env isPeer apart mem ongoing).mono fun r t ends => ?_
    cases r with
    | ok _ =>
      obtain ⟨waits, ongoing⟩ | done := ends
      · exact .candidate (waits.trans stage) isPeer ongoing
      · exact .established done
    | error _ => exact ends
  | wrap stage isPeer ongoing =>
    rw [stage]
    refine (finishWrap_ensures env isPeer apart mem ongoing).mono fun r t ends => ?_
    cases r with
    | ok _ =>
      obtain ⟨waits, ongoing⟩ | done := ends
      · exact .wrap (waits.trans stage) isPeer ongoing
      · exact .established done
    | error _ => exact ends
  | established done =>
    obtain ⟨document, session, pair, stage, -⟩ := done.established
    rw [stage]
    exact .established done
  | failed stage quiet =>
    rw [stage]
    exact .failed stage quiet

end

section

variable {own peer : PeerId} {heard base : List Frame} {s : Endpoint}

theorem Stands.introduces (stands : s.Stands own peer heard base) : Introduces s.sent own := by
  cases stands with
  | ready _ fresh => exact fresh.quiet.introduces
  | identity _ _ fresh => exact fresh.quiet.introduces
  | hint _ _ _ _ fresh => exact fresh.quiet.introduces
  | preserved _ _ known => exact known.ongoing.quiet.introduces
  | candidate _ _ ongoing => exact ongoing.quiet.introduces
  | wrap _ _ ongoing => exact ongoing.quiet.introduces
  | established done => exact done.introduces
  | failed _ quiet => exact quiet.introduces

theorem Stands.grows (stands : s.Stands own peer heard base) : ∀ frame ∈ base, frame ∈ s.sent := by
  cases stands with
  | ready _ fresh => exact fresh.quiet.grows
  | identity _ _ fresh => exact fresh.quiet.grows
  | hint _ _ _ _ fresh => exact fresh.quiet.grows
  | preserved _ _ known => exact known.ongoing.quiet.grows
  | candidate _ _ ongoing => exact ongoing.quiet.grows
  | wrap _ _ ongoing => exact ongoing.quiet.grows
  | established done => exact done.grows
  | failed _ quiet => exact quiet.grows

variable {later other : List Frame}

theorem Done.mono (done : s.Done own peer heard base) (more : ∀ frame ∈ heard, frame ∈ later)
    (grows : ∀ frame ∈ other, frame ∈ s.sent) : s.Done own peer later other := by
  obtain ⟨document, session, pair, stage, isPeer, ends⟩ := done.established
  refine ⟨done.introduces, grows, document, session, pair, stage, isPeer, ?_⟩
  obtain accepts | confirms := ends
  · exact .inl { accepts with received := Sends.mono more accepts.received }
  · exact .inr { confirms with received := Acks.mono more confirms.received }

theorem Stands.mono (stands : s.Stands own peer heard base) (more : ∀ frame ∈ heard, frame ∈ later)
    (grows : ∀ frame ∈ other, frame ∈ s.sent) : s.Stands own peer later other := by
  have quieter : Quiet own base s.sent → Quiet own other s.sent :=
    fun quiet => ⟨quiet.introduces, grows, quiet.silent⟩
  have fresher : s.Fresh own base → s.Fresh own other :=
    fun fresh => { fresh with quiet := quieter fresh.quiet }
  cases stands with
  | ready stage fresh => exact .ready stage (fresher fresh)
  | identity stage isOwn fresh => exact .identity stage isOwn (fresher fresh)
  | hint stage isOwn isPeer small fresh => exact .hint stage isOwn isPeer small (fresher fresh)
  | preserved stage isPeer known =>
    refine .preserved stage isPeer { known with ongoing := ?_ }
    exact { known.ongoing with quiet := quieter known.ongoing.quiet }
  | candidate stage isPeer ongoing =>
    exact .candidate stage isPeer { ongoing with quiet := quieter ongoing.quiet }
  | wrap stage isPeer ongoing =>
    exact .wrap stage isPeer { ongoing with quiet := quieter ongoing.quiet }
  | established done => exact .established (done.mono more grows)
  | failed stage quiet => exact .failed stage (quieter quiet)

theorem Stands.begins (stands : s.Stands own peer heard base) (ready : s.stage = .ready) :
    s.Fresh own base := by
  cases stands with
  | ready _ fresh => exact fresh
  | identity _ _ fresh => exact fresh
  | hint _ _ _ _ fresh => exact fresh
  | preserved stage _ _ => cases stage.symm.trans ready
  | candidate stage _ _ => cases stage.symm.trans ready
  | wrap stage _ _ => cases stage.symm.trans ready
  | established done =>
    obtain ⟨_, _, _, stage, _⟩ := done.established
    cases stage.symm.trans ready
  | failed stage _ => cases stage.symm.trans ready

theorem Stands.lose (stands : s.Stands own peer heard base) (open' : s.stage.isOver = false) (error : Error) :
    ({ s with stage := .failed error } : Endpoint).Stands own peer heard base := by
  cases stands with
  | ready _ fresh => exact .failed rfl fresh.quiet
  | identity _ _ fresh => exact .failed rfl fresh.quiet
  | hint _ _ _ _ fresh => exact .failed rfl fresh.quiet
  | preserved _ _ known => exact .failed rfl known.ongoing.quiet
  | candidate _ _ ongoing => exact .failed rfl ongoing.quiet
  | wrap _ _ ongoing => exact .failed rfl ongoing.quiet
  | established done =>
    obtain ⟨_, _, _, stage, _⟩ := done.established
    rw [stage] at open'
    cases open'
  | failed _ quiet => exact .failed rfl quiet

end

end Endpoint

@[simp] theorem Side.other_other (side : Side) : side.other.other = side := by
  cases side <;> rfl

theorem Side.other_ne (side : Side) : side.other ≠ side := by
  cases side <;> decide

theorem Side.eq_or (side one : Side) : one = side ∨ one = side.other := by
  cases side <;> cases one <;> decide

/-- Each side stands as its own id, with what the other has sent. -/
def Upright (ids : Side → PeerId) (link : Link) : Prop :=
  ∀ side, (link side).Stands (ids side) (ids side.other) (link side.other).sent []

section

variable {ids : Side → PeerId} {link : Link} {side : Side} {s : Endpoint}

theorem Upright.update (upright : Upright ids link)
    (stands : s.Stands (ids side) (ids side.other) (link side.other).sent (link side).sent) :
    Upright ids (link.update side s) := by
  have same : link.update side s side = s := Function.update_self ..
  have kept : link.update side s side.other = link side.other := Function.update_of_ne side.other_ne ..
  intro one
  obtain rfl | rfl := side.eq_or one
  · rw [same, kept]
    exact stands.mono (fun _ mem => mem) fun _ never => absurd never List.not_mem_nil
  · have other := upright side.other
    rw [Side.other_other] at other ⊢
    rw [same, kept]
    exact other.mono stands.grows fun _ never => absurd never List.not_mem_nil

variable [Primitives] {Addr : Type}

theorem exec_upright (apart : ∀ side : Side, ids side.other ≠ ids side) (op : LinkOp Addr)
    (upright : Upright ids link) : Upright ids (op.exec link) := by
  have stands : ∀ side : Side, (link side).Stands (ids side) (ids side.other) (link side.other).sent
      (link side).sent := fun side => (upright side).mono (fun _ mem => mem) fun _ mem => mem
  cases op with
  | begin side env =>
    simp only [LinkOp.exec]
    split
    · rename_i ready
      exact upright.update (Endpoint.turn_stands (Endpoint.begin_ensures env ((stands side).begins ready)))
    · exact upright
  | receive side env index =>
    simp only [LinkOp.exec]
    split
    · rename_i frame found
      refine upright.update (Endpoint.turn_stands ?_)
      refine Endpoint.receive_ensures env (List.mem_of_getElem? found) ?_ (apart side) (stands side)
      exact (upright side.other).introduces
    · exact upright
  | lose side =>
    simp only [LinkOp.exec]
    split
    · exact upright
    · rename_i notOver
      exact upright.update ((stands side).lose (Bool.eq_false_iff.mpr notOver) .io)

theorem links_upright (apart : ∀ side : Side, ids side.other ≠ ids side) (ops : List (LinkOp Addr))
    (upright : Upright ids link) : Upright ids (links.run ops link) :=
  links.run_invariant (fun _ op upright => exec_upright apart op upright) ops link upright

omit [Primitives] in
theorem Upright.done (upright : Upright ids link) (side : Side) {outcome : EstablishedSession}
    (finished : (link side).stage.outcome = some outcome) :
    ∃ pair, outcome.pair = some pair ∧ outcome.peer.peerId = ids side.other ∧
      (Accepts (ids side.other) (link side.other).sent (link side).sent outcome.session pair ∨
        Confirms (ids side) (ids side.other) (link side.other).sent (link side).sent
          outcome.session pair) := by
  have other : ∀ {stage : Stage}, (link side).stage = stage → stage.outcome = some outcome :=
    fun same => same ▸ finished
  cases upright side with
  | ready stage _ => cases other stage
  | identity stage _ _ => cases other stage
  | hint stage _ _ _ _ => cases other stage
  | preserved stage _ _ => cases other stage
  | candidate stage _ _ => cases other stage
  | wrap stage _ _ => cases other stage
  | established done =>
    obtain ⟨document, session, pair, stage, isPeer, ends⟩ := done.established
    obtain rfl := Option.some.inj (other stage)
    exact ⟨pair, rfl, isPeer, ends⟩
  | failed stage _ => cases other stage

omit [Primitives] in
theorem Confirms.agrees {own peer : PeerId} {sent heard : List Frame} {session session' : PairSession}
    {pair pair' : PersistedPair} (confirms : Confirms own peer heard sent session pair)
    (accepts : Accepts own sent heard session' pair') : session.epoch = session'.epoch ∧
      pair.wrap = pair'.wrap ∧ pair.initiator = own ∧ pair'.initiator = own := by
  have epoch : session.epoch = pair'.epoch := accepts.acks session.epoch confirms.received
  obtain older | ⟨wrap, initiator⟩ := confirms.newest pair'.wrap accepts.received
  · rw [accepts.wrapEpoch, ← epoch, confirms.epoch] at older
    exact absurd older (lt_irrefl _)
  · exact ⟨epoch.trans accepts.epoch.symm, wrap, initiator, accepts.initiator⟩

/-- In every run of two tasks that handshake with each other, two sides that are established have
agreed: each has a session with the other, and both keep the same wrap at the same epoch, of the
same initiator. -/
theorem handshake_agreement {left right : KeyStore} (livesLeft : Lived left) (livesRight : Lived right)
    (smallLeft : ∀ peer, left.watermark peer ≤ u64Max) (smallRight : ∀ peer, right.watermark peer ≤ u64Max)
    (apart : left.localId ≠ right.localId) (ops : List (LinkOp Addr)) {one two : EstablishedSession}
    (doneLeft : (links.run ops (Link.new left right) .left).stage.outcome = some one)
    (doneRight : (links.run ops (Link.new left right) .right).stage.outcome = some two) :
    (one.peer.peerId = right.localId ∧ one.session.peerId = right.localId) ∧
    (two.peer.peerId = left.localId ∧ two.session.peerId = left.localId) ∧
    one.session.epoch = two.session.epoch ∧
    ∃ mine theirs, one.pair = some mine ∧ two.pair = some theirs ∧ mine.wrap = theirs.wrap ∧
      mine.initiator = theirs.initiator ∧ mine.epoch = one.session.epoch ∧
      theirs.epoch = two.session.epoch := by
  let ids : Side → PeerId := fun side => (Link.new left right side).keys.localId
  have upright : Upright ids (Link.new left right) := by
    have starts : ∀ side, Sound (Link.new left right side).keys := by
      intro side
      cases side with
      | left => exact ⟨livesLeft.matched, livesLeft.bounded, smallLeft⟩
      | right => exact ⟨livesRight.matched, livesRight.bounded, smallRight⟩
    have silent : ∀ side, (Link.new left right side).sent = [] ∧
        (Link.new left right side).stage = .ready := by
      intro side
      cases side <;> exact ⟨rfl, rfl⟩
    intro side
    refine .ready (silent side).2 ⟨⟨?_, ?_, ?_⟩, rfl, starts side, ?_⟩
    · rw [(silent side).1]
      exact fun _ never => absurd never List.not_mem_nil
    · exact fun _ never => absurd never List.not_mem_nil
    · rw [(silent side).1]
      rintro _ ⟨_, never, _⟩
      exact absurd never List.not_mem_nil
    · rw [(silent side).1]
      rintro _ ⟨_, never, _⟩
      exact absurd never List.not_mem_nil
  have different : ∀ side : Side, ids side.other ≠ ids side := by
    intro side
    cases side with
    | left => exact apart.symm
    | right => exact apart
  have final := links_upright different ops upright
  obtain ⟨mine, isMine, peerOne, endsOne⟩ := final.done .left doneLeft
  obtain ⟨theirs, isTheirs, peerTwo, endsTwo⟩ := final.done .right doneRight
  obtain accepts | confirms := endsOne <;> obtain accepts' | confirms' := endsTwo
  · -- Each wrap would be newer than the other.
    have later := accepts.older _ accepts'.received
    have earlier := accepts'.older _ accepts.received
    rw [accepts'.wrapEpoch] at later
    rw [accepts.wrapEpoch] at earlier
    exact absurd (later.trans earlier) (lt_irrefl _)
  · obtain ⟨epoch, wrap, initiator, initiator'⟩ := confirms'.agrees accepts
    exact ⟨⟨peerOne, accepts.peerId⟩, ⟨peerTwo, confirms'.peerId⟩, epoch.symm, mine, theirs, isMine,
      isTheirs, wrap.symm, initiator'.trans initiator.symm, accepts.epoch.symm, confirms'.epoch.symm⟩
  · obtain ⟨epoch, wrap, initiator, initiator'⟩ := confirms.agrees accepts'
    exact ⟨⟨peerOne, confirms.peerId⟩, ⟨peerTwo, accepts'.peerId⟩, epoch, mine, theirs, isMine,
      isTheirs, wrap, initiator.trans initiator'.symm, confirms.epoch.symm, accepts'.epoch.symm⟩
  · exact absurd confirms.received (confirms'.silent _)

end

section

open NonceReuse

def plainEnv (byte : UInt8) : SessionEnv Nat where
  expected := none
  preserveExisting := fun _ => .ok false
  importPeer := keyEnv byte
  observe := keyEnv byte
  create := keyEnv byte
  unwrap := keyEnv byte
  discard := keyEnv byte
  capacity := 8

/-- Identities, hints, the wrap of Alice and the acknowledgement of Bob. -/
def firstHandshake : List (LinkOp Nat) :=
  [.begin .left (plainEnv 1), .begin .right (plainEnv 2),
    .receive .left (plainEnv 1) 0, .receive .right (plainEnv 2) 0,
    .receive .left (plainEnv 1) 1, .receive .right (plainEnv 2) 1,
    .receive .right (plainEnv 2) 2, .receive .left (plainEnv 1) 2]

theorem lived_first (identity : LocalIdentity) (instanceId : Fin (2 ^ 256)) :
    letI := Primitives.plain
    Lived (PairRun.first identity instanceId).store := by
  exact ⟨identity, instanceId, [], rfl⟩

theorem handshake_agreement_first :
    letI := Primitives.plain
    let last := links.run firstHandshake
      (Link.new (PairRun.first alice 0).store (PairRun.first bob 1).store)
    ∃ one two mine theirs, (last .left).stage.outcome = some one ∧ (last .right).stage.outcome = some two ∧
      one.session.epoch = two.session.epoch ∧ one.pair = some mine ∧ two.pair = some theirs ∧
      mine.wrap = theirs.wrap := by
  intro last
  have left : (last .left).stage.outcome.isSome = true := by decide +kernel
  have right : (last .right).stage.outcome.isSome = true := by decide +kernel
  obtain ⟨one, doneLeft⟩ := Option.isSome_iff_exists.mp left
  obtain ⟨two, doneRight⟩ := Option.isSome_iff_exists.mp right
  let := Primitives.plain
  obtain ⟨-, -, epoch, mine, theirs, isMine, isTheirs, wrap, -⟩ :=
    handshake_agreement (lived_first alice 0) (lived_first bob 1) (fun _ => Nat.zero_le _)
      (fun _ => Nat.zero_le _) (by decide +kernel) firstHandshake doneLeft doneRight
  exact ⟨one, two, mine, theirs, doneLeft, doneRight, epoch, isMine, isTheirs, wrap⟩

end

end QuantumFs.Net.Session
