import QuantumFs.Crypto.Epochs
import QuantumFs.Crypto.NonceReuse

/-! Admission candidates beside confirmed pairs. Both are found by peer and epoch in
one table of keys, so they stay apart exactly as long as their epochs do. -/
namespace QuantumFs.Crypto

open Lib Encoding KeyStore

namespace KeyStore

def keysOf (store : KeyStore) (peer : PeerId) (epoch : Nat) : Map Nat PairKeyState :=
  store.keys.filter fun _ state => decide (state.peerId = peer ∧ state.epoch = epoch)

theorem keysOf_get {s : KeyStore} {peer : PeerId} {epoch slot : Nat} {state : PairKeyState} :
    (s.keysOf peer epoch)[slot]? = some state ↔
      s.keys[slot]? = some state ∧ state.peerId = peer ∧ state.epoch = epoch := by
  rw [keysOf, Map.get_filter, Option.filter_eq_some_iff]
  simp only [decide_eq_true_eq]

theorem keysOf_ext {s t : KeyStore} {peer : PeerId} {epoch : Nat}
    (same : ∀ (slot : Nat) (state : PairKeyState), state.peerId = peer → state.epoch = epoch →
      (t.keys[slot]? = some state ↔ s.keys[slot]? = some state)) :
    t.keysOf peer epoch = s.keysOf peer epoch := by
  apply Map.ext_get
  intro slot
  apply Option.ext
  intro state
  rw [keysOf_get, keysOf_get]
  constructor
  · rintro ⟨found, ours⟩
    exact ⟨(same slot state ours.1 ours.2).mp found, ours⟩
  · rintro ⟨found, ours⟩
    exact ⟨(same slot state ours.1 ours.2).mpr found, ours⟩

theorem keysOf_congr {s t : KeyStore} (keys : t.keys = s.keys) (peer : PeerId) (epoch : Nat) :
    t.keysOf peer epoch = s.keysOf peer epoch := by
  rw [keysOf, keysOf, keys]

theorem innerSession_eq (s : KeyStore) (peer : PeerId) (epoch : Nat) :
    s.innerSession peer epoch = (okOr (s.keysOf peer epoch).toList.head? .keyUnavailable).map
      fun entry => ⟨peer, epoch, ⟨entry.1, s.instanceId⟩⟩ := by
  unfold innerSession keysOf
  rw [Std.ExtTreeMap.toList_filter, List.head?_filter]
  change okOr (s.keys.toList.find? fun entry => decide (entry.2.peerId = peer ∧ entry.2.epoch = epoch)) _ >>= _ = _
  cases s.keys.toList.find? fun entry => decide (entry.2.peerId = peer ∧ entry.2.epoch = epoch) <;> rfl

theorem innerSession_congr {s t : KeyStore} {peer : PeerId} {epoch : Nat}
    (same : t.keysOf peer epoch = s.keysOf peer epoch) (instanceId : t.instanceId = s.instanceId) :
    t.innerSession peer epoch = s.innerSession peer epoch := by
  rw [innerSession_eq, innerSession_eq, same, instanceId]

theorem innerSession_slot {s : KeyStore} {peer : PeerId} {epoch : Nat} {session : PairSession}
    (found : s.innerSession peer epoch = .ok session) :
    ∃ state, (s.keysOf peer epoch)[session.keyHandle.slot]? = some state := by
  rw [innerSession_eq] at found
  cases first : (s.keysOf peer epoch).toList.head? with
  | none =>
    rw [first] at found
    cases found
  | some entry =>
    rw [first] at found
    cases found
    exact ⟨entry.2, Map.mem_toList.mp (List.mem_of_head? first)⟩

theorem keysOf_dropKeys {s : KeyStore} {peer other : PeerId} {epoch last : Nat}
    (different : ¬ (other = peer ∧ last = epoch)) :
    (s.dropKeys peer epoch).keysOf other last = s.keysOf other last := by
  apply keysOf_ext
  intro slot state samePeer sameEpoch
  subst samePeer sameEpoch
  rw [dropKeys, Map.get_filter, Option.filter_eq_some_iff]
  simp [different]

theorem keysOf_dropKeys_self (s : KeyStore) (peer : PeerId) (epoch : Nat) :
    (s.dropKeys peer epoch).keysOf peer epoch = ∅ := by
  apply Map.ext_get
  intro slot
  apply Option.ext
  intro state
  rw [keysOf_get, dropKeys, Map.get_filter, Option.filter_eq_some_iff]
  simp only [decide_eq_true_eq]
  constructor
  · rintro ⟨⟨-, kept⟩, ours⟩
    exact absurd ours kept
  · simp

def Slotted (s : KeyStore) : Prop :=
  ∀ (slot : Nat) (state : PairKeyState), s.keys[slot]? = some state → slot < s.nextSlot

theorem Slotted.vacant {s : KeyStore} (slotted : Slotted s) : s.keys[s.nextSlot]? = none := by
  cases found : s.keys[s.nextSlot]? with
  | none => rfl
  | some state => exact absurd (slotted _ state found) (lt_irrefl _)

theorem keysOf_enter {s : KeyStore} (slotted : Slotted s) (candidate : Bool) {pair : PersistedPair}
    (key : Bytes) {peer : PeerId} {epoch : Nat}
    (different : ¬ (peer = pair.peerId ∧ epoch = pair.epoch)) :
    (s.enter candidate pair key).keysOf peer epoch = s.keysOf peer epoch := by
  apply keysOf_ext
  intro slot state samePeer sameEpoch
  subst samePeer sameEpoch
  rw [enter_keys, Map.get_insert]
  split
  · rename_i same
    subst same
    rw [slotted.vacant]
    constructor
    · intro new
      cases new
      exact absurd ⟨rfl, rfl⟩ different
    · nofun
  · cases candidate with
    | true => exact Iff.rfl
    | false =>
      rw [if_neg Bool.false_ne_true, dropKeys, Map.get_filter, Option.filter_eq_some_iff]
      simp [different]

theorem keysOf_enter_self {s : KeyStore} (candidate : Bool) {pair : PersistedPair} (key : Bytes)
    (free : candidate = true → s.keysOf pair.peerId pair.epoch = ∅) :
    (s.enter candidate pair key).keysOf pair.peerId pair.epoch =
      (∅ : Map Nat PairKeyState).insert s.nextSlot
        (PairKeyState.new key pair.peerId pair.epoch) := by
  apply Map.ext_get
  intro slot
  apply Option.ext
  intro state
  rw [keysOf_get, Map.get_insert]
  constructor
  · rintro ⟨found, ours⟩
    obtain ⟨rfl, rfl⟩ | ⟨-, old, kept⟩ := enter_keys_cases s candidate pair key found
    · rw [if_pos rfl]
    · cases candidate with
      | true =>
        have held := keysOf_get.mpr ⟨old, ours⟩
        rw [free rfl] at held
        simp at held
      | false => exact absurd ours (kept rfl)
  · intro found
    split at found
    · rename_i same
      subst same
      cases found
      rw [enter_keys, Map.get_insert, if_pos rfl]
      exact ⟨rfl, rfl, rfl⟩
    · simp at found

/-- The keys of an epoch are the one key that a wrap carried, or none once it is retired. -/
def Held (keys : Map Nat PairKeyState) : Option Bytes → Prop
  | none => keys = ∅
  | some key => ∃ slot state, keys = (∅ : Map Nat PairKeyState).insert slot state ∧ state.key = key

/-- A pair and a candidate of one peer have different epochs, and the candidate's epoch
holds the key of its own wrap alone. -/
structure Apart (s : KeyStore) (carried : Map PeerId Bytes) : Prop where
  slotted : Slotted s
  epochs : ∀ (peer : PeerId) (pair candidate : PersistedPair), s.pairs[peer]? = some pair →
    s.candidates[peer]? = some candidate → pair.epoch ≠ candidate.epoch
  held : ∀ (peer : PeerId) (candidate : PersistedPair), s.candidates[peer]? = some candidate →
    Held (s.keysOf peer candidate.epoch) carried[peer]?

theorem Apart.fewer {s t : KeyStore} {carried : Map PeerId Bytes} (apart : Apart s carried)
    (slots : s.nextSlot ≤ t.nextSlot)
    (keys : ∀ (slot : Nat) (state : PairKeyState), t.keys[slot]? = some state →
      s.keys[slot]? = some state)
    (pairs : ∀ (peer : PeerId) (pair : PersistedPair), t.pairs[peer]? = some pair →
      s.pairs[peer]? = some pair)
    (candidates : ∀ (peer : PeerId) (candidate : PersistedPair),
      t.candidates[peer]? = some candidate → s.candidates[peer]? = some candidate ∧
        t.keysOf peer candidate.epoch = s.keysOf peer candidate.epoch) : Apart t carried where
  slotted := fun slot state found => (apart.slotted slot state (keys slot state found)).trans_le slots
  epochs := fun peer pair candidate found other =>
    apart.epochs peer pair candidate (pairs peer pair found) (candidates peer candidate other).1
  held := fun peer candidate found => by
    obtain ⟨old, same⟩ := candidates peer candidate found
    rw [same]
    exact apart.held peer candidate old

structure Mirrors (s t : KeyStore) : Prop where
  nextSlot : t.nextSlot = s.nextSlot
  keys : t.keys = s.keys
  pairs : t.pairs = s.pairs
  candidates : t.candidates = s.candidates
  instanceId : t.instanceId = s.instanceId
  watermarks : t.epochWatermarks = s.epochWatermarks

theorem Mirrors.trans {s t u : KeyStore} (first : Mirrors s t) (second : Mirrors t u) :
    Mirrors s u :=
  ⟨second.nextSlot.trans first.nextSlot, second.keys.trans first.keys,
    second.pairs.trans first.pairs, second.candidates.trans first.candidates,
    second.instanceId.trans first.instanceId, second.watermarks.trans first.watermarks⟩

theorem mirrors_written (ok : Bool) (s : KeyStore) : Mirrors s (KeyStore.written ok s) :=
  ⟨written_nextSlot ok s, written_keys ok s, written_pairs ok s, written_candidates ok s,
    written_instanceId ok s, written_epochWatermarks ok s⟩

theorem mirrors_clearRetry (s : KeyStore) (peer : PeerId) (candidate : Bool) :
    Mirrors s (s.clearRetry peer candidate) := by
  cases candidate <;> exact ⟨rfl, rfl, rfl, rfl, rfl, rfl⟩

theorem mirrors_recordRetry (s : KeyStore) (sender : PeerId) (candidate : Bool) (epoch : Nat) :
    Mirrors s (s.recordRetry sender candidate epoch) := by
  cases candidate <;> exact ⟨rfl, rfl, rfl, rfl, rfl, rfl⟩

theorem Apart.mirrors {s t : KeyStore} {carried : Map PeerId Bytes} (apart : Apart s carried)
    (mirrors : Mirrors s t) : Apart t carried := by
  refine apart.fewer mirrors.nextSlot.ge ?_ ?_ ?_
  · intro slot state found
    rwa [mirrors.keys] at found
  · intro peer pair found
    rwa [mirrors.pairs] at found
  · intro peer candidate found
    rw [mirrors.candidates] at found
    exact ⟨found, keysOf_congr mirrors.keys _ _⟩

theorem Apart.written {s : KeyStore} {carried : Map PeerId Bytes} (apart : Apart s carried)
    (ok : Bool) : Apart (KeyStore.written ok s) carried :=
  apart.mirrors (mirrors_written ok s)

theorem Slotted.enter {s : KeyStore} (slotted : Slotted s) (candidate : Bool) (pair : PersistedPair)
    (key : Bytes) : Slotted (s.enter candidate pair key) := by
  intro slot state found
  rw [enter_nextSlot]
  obtain ⟨rfl, -⟩ | ⟨-, old, -⟩ := enter_keys_cases s candidate pair key found
  · exact Nat.lt_succ_self _
  · exact (slotted slot state old).trans (Nat.lt_succ_self _)

theorem Apart.enterPair {s : KeyStore} {carried : Map PeerId Bytes} (apart : Apart s carried)
    {pair : PersistedPair} (key : Bytes)
    (different : ∀ candidate, s.candidates[pair.peerId]? = some candidate →
      pair.epoch ≠ candidate.epoch) : Apart (s.enter false pair key) carried := by
  refine ⟨apart.slotted.enter false pair key, ?_, ?_⟩
  · intro peer other candidate found held
    rw [enter_candidates, if_neg Bool.false_ne_true] at held
    rw [enter_pairs, if_neg Bool.false_ne_true, Map.get_insert] at found
    split at found
    · rename_i same
      subst same
      cases found
      exact different candidate held
    · exact apart.epochs peer other candidate found held
  · intro peer candidate held
    rw [enter_candidates, if_neg Bool.false_ne_true] at held
    rw [keysOf_enter apart.slotted]
    · exact apart.held peer candidate held
    · rintro ⟨rfl, same⟩
      exact different candidate held same.symm

theorem Apart.enterCandidate {s : KeyStore} {carried : Map PeerId Bytes} (apart : Apart s carried)
    {pair : PersistedPair} (key : Bytes) (free : s.keysOf pair.peerId pair.epoch = ∅)
    (different : ∀ confirmed, s.pairs[pair.peerId]? = some confirmed →
      confirmed.epoch ≠ pair.epoch) :
    Apart (s.enter true pair key) (carried.insert pair.peerId key) := by
  refine ⟨apart.slotted.enter true pair key, ?_, ?_⟩
  · intro peer confirmed candidate found held
    rw [enter_pairs, if_pos rfl] at found
    rw [enter_candidates, if_pos rfl, Map.get_insert] at held
    split at held
    · rename_i same
      subst same
      cases held
      exact different confirmed found
    · exact apart.epochs peer confirmed candidate found held
  · intro peer candidate held
    rw [enter_candidates, if_pos rfl, Map.get_insert] at held
    rw [Map.get_insert]
    split at held
    · rename_i same
      subst same
      cases held
      rw [if_pos rfl, keysOf_enter_self true key fun _ => free]
      exact ⟨_, _, rfl, rfl⟩
    · rename_i other
      rw [if_neg other, keysOf_enter apart.slotted]
      · exact apart.held peer candidate held
      · rintro ⟨rfl, -⟩
        exact other rfl

/-- The pairs and the keys of their epochs are untouched. -/
structure Undisturbed (s t : KeyStore) : Prop where
  pairs : t.pairs = s.pairs
  instanceId : t.instanceId = s.instanceId
  keys : ∀ (peer : PeerId) (pair : PersistedPair), s.pairs[peer]? = some pair →
    t.keysOf peer pair.epoch = s.keysOf peer pair.epoch

theorem Undisturbed.refl (s : KeyStore) : Undisturbed s s := ⟨rfl, rfl, fun _ _ _ => rfl⟩

theorem Undisturbed.trans {s t u : KeyStore} (first : Undisturbed s t) (second : Undisturbed t u) :
    Undisturbed s u where
  pairs := second.pairs.trans first.pairs
  instanceId := second.instanceId.trans first.instanceId
  keys := fun peer pair found => by
    rw [second.keys peer pair (by rw [first.pairs]; exact found), first.keys peer pair found]

theorem Mirrors.undisturbed {s t : KeyStore} (mirrors : Mirrors s t) : Undisturbed s t :=
  ⟨mirrors.pairs, mirrors.instanceId, fun _ _ _ => keysOf_congr mirrors.keys _ _⟩

theorem Undisturbed.enter {s : KeyStore} (slotted : Slotted s) {pair : PersistedPair} (key : Bytes)
    (different : ∀ confirmed, s.pairs[pair.peerId]? = some confirmed →
      confirmed.epoch ≠ pair.epoch) : Undisturbed s (s.enter true pair key) := by
  refine ⟨by rw [enter_pairs, if_pos rfl], enter_instanceId s true pair key, ?_⟩
  intro peer confirmed found
  apply keysOf_enter slotted
  rintro ⟨rfl, same⟩
  exact different confirmed found same

theorem Undisturbed.currentSession {s t : KeyStore} (undisturbed : Undisturbed s t) (peer : PeerId) :
    (t.failed = s.failed → t.currentSession peer = s.currentSession peer) ∧
      ∀ session, s.currentSession peer = .ok session →
        t.keys[session.keyHandle.slot]? = s.keys[session.keyHandle.slot]? := by
  refine ⟨fun failed => ?_, fun session current => ?_⟩
  · unfold KeyStore.currentSession lock
    rw [failed, undisturbed.pairs]
    cases found : s.pairs[peer]? with
    | none => rfl
    | some pair =>
      have same := innerSession_congr (undisturbed.keys peer pair found) undisturbed.instanceId
      change (ensure _ _ >>= fun _ => t.innerSession peer pair.epoch) =
        (ensure _ _ >>= fun _ => s.innerSession peer pair.epoch)
      rw [same]
  · obtain ⟨_, -, current⟩ := Result.bind_eq_ok.mp current
    obtain ⟨pair, found, current⟩ := Result.bind_eq_ok.mp current
    obtain ⟨state, slot⟩ := innerSession_slot current
    have kept := undisturbed.keys peer pair (okOr_eq_ok.mp found)
    have after : (t.keysOf peer pair.epoch)[session.keyHandle.slot]? = some state := by
      rw [kept]
      exact slot
    rw [(keysOf_get.mp slot).1, (keysOf_get.mp after).1]

theorem Entries.free {s : KeyStore} (entries : Entries s) {peer : PeerId} {epoch : Nat}
    (above : s.watermark peer < epoch) : s.keysOf peer epoch = ∅ := by
  apply Map.ext_get
  intro slot
  apply Option.ext
  intro state
  rw [keysOf_get]
  constructor
  · rintro ⟨found, rfl, rfl⟩
    exact absurd (entries.key slot state found) (not_le.mpr above)
  · simp

def dropCandidate (s : KeyStore) (peer : PeerId) (epoch : Nat) : KeyStore :=
  { s with candidates := s.candidates.erase peer }.dropKeys peer epoch

theorem Apart.dropCandidate {s : KeyStore} {carried : Map PeerId Bytes} (apart : Apart s carried)
    (peer : PeerId) (epoch : Nat) : Apart (s.dropCandidate peer epoch) carried := by
  have quiet := quiet_dropKeys { s with candidates := s.candidates.erase peer } peer epoch
  refine apart.fewer (le_refl _) quiet.keys (fun _ _ found => found) fun other candidate found => ?_
  change (s.candidates.erase peer)[other]? = some candidate at found
  rw [Map.get_erase] at found
  split at found
  · cases found
  · rename_i different
    refine ⟨found, ?_⟩
    change ({ s with candidates := s.candidates.erase peer }.dropKeys peer epoch).keysOf other _ =
      { s with candidates := s.candidates.erase peer }.keysOf other _
    apply keysOf_dropKeys
    rintro ⟨rfl, -⟩
    exact different rfl

theorem Apart.undisturbed_drop {s : KeyStore} {carried : Map PeerId Bytes} (apart : Apart s carried)
    {peer : PeerId} {candidate : PersistedPair} (found : s.candidates[peer]? = some candidate) :
    Undisturbed s (s.dropCandidate peer candidate.epoch) := by
  refine ⟨rfl, rfl, fun other pair confirmed => ?_⟩
  change ({ s with candidates := s.candidates.erase peer }.dropKeys peer candidate.epoch).keysOf
    other _ = { s with candidates := s.candidates.erase peer }.keysOf other _
  apply keysOf_dropKeys
  rintro ⟨rfl, same⟩
  exact apart.epochs other pair candidate confirmed found same

theorem yielded_cases (s : KeyStore) (sender : PeerId) (message : WrapMessage)
    (standing : WrapStanding) (candidate : Bool) :
    (Mirrors s (s.yielded sender message standing candidate) ∧
        (candidate = true → standing = .supersede ∨ standing = .collision →
          s.candidates[sender]? = none)) ∨
      ∃ previous, candidate = true ∧ s.candidates[sender]? = some previous ∧
        Mirrors (s.dropCandidate sender previous.epoch)
          (s.yielded sender message standing candidate) := by
  have recorded : ∃ u, s.yielded sender message standing candidate =
      u.replaceCandidate sender standing candidate ∧ Mirrors s u := by
    unfold yielded
    split
    · exact ⟨_, rfl, mirrors_recordRetry s sender candidate _⟩
    · exact ⟨_, rfl, ⟨rfl, rfl, rfl, rfl, rfl, rfl⟩⟩
  obtain ⟨u, same, mirrors⟩ := recorded
  rw [same]
  unfold replaceCandidate
  by_cases replaces : candidate = true ∧ (standing = .supersede ∨ standing = .collision)
  · rw [if_pos replaces, mirrors.candidates]
    obtain ⟨rfl, replaced⟩ := replaces
    have drops : ∀ epoch, Mirrors (s.dropCandidate sender epoch)
        ({ u with candidates := s.candidates.erase sender }.dropKeys sender epoch) := by
      intro epoch
      refine ⟨mirrors.nextSlot, ?_, mirrors.pairs, rfl, mirrors.instanceId, mirrors.watermarks⟩
      unfold dropCandidate dropKeys
      rw [mirrors.keys]
    cases found : s.candidates[sender]? with
    | none =>
      refine .inl ⟨?_, fun _ _ => rfl⟩
      obtain rfl | rfl := replaced
      · exact ⟨mirrors.nextSlot, mirrors.keys, mirrors.pairs, mirrors.candidates,
          mirrors.instanceId, mirrors.watermarks⟩
      · exact mirrors
    | some previous =>
      refine .inr ⟨previous, rfl, rfl, ?_⟩
      have dropped := drops previous.epoch
      obtain rfl | rfl := replaced
      · exact ⟨dropped.nextSlot, dropped.keys, dropped.pairs, dropped.candidates,
          dropped.instanceId, dropped.watermarks⟩
      · exact dropped
  · rw [if_neg replaces]
    exact .inl ⟨mirrors, fun isCandidate replaced => absurd ⟨isCandidate, replaced⟩ replaces⟩

theorem Apart.yielded {s : KeyStore} {carried : Map PeerId Bytes} (apart : Apart s carried)
    (sender : PeerId) (message : WrapMessage) (standing : WrapStanding) (candidate : Bool) :
    Apart (s.yielded sender message standing candidate) carried ∧
      Undisturbed s (s.yielded sender message standing candidate) := by
  obtain ⟨mirrors, -⟩ | ⟨previous, -, found, mirrors⟩ :=
    yielded_cases s sender message standing candidate
  · exact ⟨apart.mirrors mirrors, mirrors.undisturbed⟩
  · exact ⟨(apart.dropCandidate sender previous.epoch).mirrors mirrors,
      (apart.undisturbed_drop found).trans mirrors.undisturbed⟩

theorem Apart.creates {env : KeyEnv} {s t : KeyStore} {carried : Map PeerId Bytes} {peer : PeerId}
    {result : Result (PairSession × WrapMessage)} (apart : Apart s carried) (entries : Entries s)
    (creates : Creates env s false peer result t) : Apart t carried := by
  have cleared := apart.mirrors (mirrors_clearRetry s peer false)
  obtain ⟨rfl | rfl, -⟩ | ⟨key, message, -, -, epoch, -, -, rfl, -⟩ := creates
  · exact apart
  · exact cleared
  · refine Apart.mirrors (cleared.enterPair key fun candidate found => ?_) (mirrors_written _ _)
    have below := entries.candidate peer candidate found
    change message.epoch ≠ candidate.epoch
    omega

/-- The table of candidates after a call that may have installed one for a peer: a new
one carries the key of its own wrap. -/
def Enters (s t : KeyStore) (carried : Map PeerId Bytes) (peer : PeerId) (source : Option Bytes) :
    Prop :=
  (Apart t carried ∧ (t.candidates[peer]? = none ∨ t.candidates[peer]? = s.candidates[peer]?)) ∨
    ∃ key pair, source = some key ∧ Apart t (carried.insert peer key) ∧
      t.candidates[peer]? = some pair ∧ s.candidates[peer]? ≠ some pair

theorem Apart.createsCandidate {env : KeyEnv} {s t : KeyStore} {carried : Map PeerId Bytes}
    {peer : PeerId} {result : Result (PairSession × WrapMessage)} (apart : Apart s carried)
    (entries : Entries s) (creates : Creates env s true peer result t) :
    Undisturbed s t ∧ Enters s t carried peer env.pairKey := by
  have mirrors := mirrors_clearRetry s peer true
  have cleared := apart.mirrors mirrors
  obtain ⟨rfl | rfl, -⟩ | ⟨key, message, fresh, -, epoch, -, vacant, rfl, -⟩ := creates
  · exact ⟨.refl t, .inl ⟨apart, .inr rfl⟩⟩
  · exact ⟨mirrors.undisturbed, .inl ⟨cleared, .inr rfl⟩⟩
  · have free : (s.clearRetry peer true).keysOf peer message.epoch = ∅ := by
      rw [keysOf_congr mirrors.keys]
      exact entries.free (epoch ▸ Nat.lt_succ_self _)
    have different : ∀ confirmed, (s.clearRetry peer true).pairs[peer]? = some confirmed →
        confirmed.epoch ≠ message.epoch := by
      intro confirmed found
      have below := entries.pair peer confirmed found
      omega
    let pair : PersistedPair := ⟨peer, message.epoch, s.localId, message⟩
    constructor
    · have entered : Undisturbed _ ((s.clearRetry peer true).enter true pair key) :=
        .enter cleared.slotted key different
      exact (mirrors.undisturbed.trans entered).trans (mirrors_written _ _).undisturbed
    · have entered : Apart ((s.clearRetry peer true).enter true pair key)
          (carried.insert peer key) := cleared.enterCandidate key free different
      refine .inr ⟨key, pair, fresh, entered.mirrors (mirrors_written _ _), ?_, ?_⟩
      · rw [written_candidates, enter_candidates, if_pos rfl, Map.get_insert, if_pos rfl]
      · rw [vacant rfl]
        nofun

theorem Creates.candidate_above {env : KeyEnv} {s t : KeyStore} {peer : PeerId}
    {result : Result (PairSession × WrapMessage)} (creates : Creates env s true peer result t)
    {pair : PersistedPair} (found : t.candidates[peer]? = some pair) :
    s.candidates[peer]? = some pair ∨ s.watermark peer < pair.epoch := by
  obtain ⟨rfl | rfl, -⟩ | ⟨key, message, -, -, epoch, -, -, rfl, -⟩ := creates
  · exact .inl found
  · exact .inl found
  · rw [written_candidates, enter_candidates, if_pos rfl, Map.get_insert, if_pos rfl] at found
    cases found
    exact .inr (epoch ▸ Nat.lt_succ_self _)

theorem Apart.discardCandidate {s : KeyStore} {carried : Map PeerId Bytes} (apart : Apart s carried)
    (env : KeyEnv) (peer : PeerId) :
    Undisturbed s (discardCandidate env peer s).2 ∧ Apart (discardCandidate env peer s).2 carried ∧
      ((discardCandidate env peer s).2 = s ∨
        (discardCandidate env peer s).2.candidates[peer]? = none) := by
  obtain same | ⟨candidate, -, found, same, -⟩ := discardCandidate_exact env peer s
  · rw [same]
    exact ⟨.refl s, apart, .inl rfl⟩
  · rw [same]
    have cleared : Mirrors (s.dropCandidate peer candidate.epoch)
        { s.dropCandidate peer candidate.epoch with
          candidateRetryEpochs := s.candidateRetryEpochs.erase peer } :=
      ⟨rfl, rfl, rfl, rfl, rfl, rfl⟩
    have mirrors := cleared.trans (mirrors_written env.persists _)
    refine ⟨(apart.undisturbed_drop found).trans mirrors.undisturbed,
      (apart.dropCandidate peer candidate.epoch).mirrors mirrors, .inr ?_⟩
    rw [written_candidates]
    change (s.candidates.erase peer)[peer]? = none
    rw [Map.get_erase, if_pos rfl]

section

variable [Primitives]

theorem Apart.retryCandidateCollision {s : KeyStore} {carried : Map PeerId Bytes}
    (apart : Apart s carried) (entries : Entries s) (discard env : KeyEnv) (peer : PeerId) :
    Undisturbed s (retryCandidateCollision discard env peer s).2 ∧
      Enters s (retryCandidateCollision discard env peer s).2 carried peer env.pairKey := by
  obtain ⟨undisturbed, discarded, gone⟩ := apart.discardCandidate discard peer
  have quiet := discardCandidate_quiet discard peer s
  have kept : (KeyStore.discardCandidate discard peer s).2.candidates[peer]? = none ∨
      (KeyStore.discardCandidate discard peer s).2.candidates[peer]? = s.candidates[peer]? := by
    obtain same | none := gone
    · exact .inr (by rw [same])
    · exact .inl none
  obtain ⟨same, -⟩ | ⟨same, -⟩ | creates := retryCandidateCollision_exact discard env peer s
  · rw [same]
    exact ⟨.refl s, .inl ⟨apart, .inr rfl⟩⟩
  · rw [same]
    exact ⟨undisturbed, .inl ⟨discarded, kept⟩⟩
  · obtain ⟨after, enters⟩ := discarded.createsCandidate (entries.quiet quiet) creates
    refine ⟨undisturbed.trans after, ?_⟩
    obtain ⟨apart, unchanged⟩ | ⟨key, pair, fresh, apart, found, new⟩ := enters
    · refine .inl ⟨apart, unchanged.elim .inl fun same => ?_⟩
      rw [same]
      exact kept
    · refine .inr ⟨key, pair, fresh, apart, found, fun old => ?_⟩
      have below := entries.candidate peer pair old
      obtain before | above := creates.candidate_above found
      · exact new before
      · rw [quiet.watermark] at above
        omega

theorem Accepted.epoch_free {s : KeyStore} {carried : Map PeerId Bytes} {sender : PeerId}
    {message : WrapMessage} {standing : WrapStanding} {key : Bytes}
    (accepted : Accepted s true sender message standing key) (apart : Apart s carried)
    (entries : Entries s) :
    (s.yielded sender message standing true).keysOf sender message.epoch = ∅ ∧
      (∀ confirmed, (s.yielded sender message standing true).pairs[sender]? = some confirmed →
        confirmed.epoch ≠ message.epoch) ∧
      s.candidates[sender]? ≠ some ⟨sender, message.epoch, sender, message⟩ := by
  have quiet := quiet_yielded s sender message standing true
  rw [quiet.pairs]
  obtain late | rfl : s.watermark sender < message.epoch ∨ standing = .collision := by
    by_contra neither
    push Not at neither
    exact accepted.late ⟨rfl, neither.2, Nat.lt_succ_of_le neither.1⟩
  · refine ⟨(entries.quiet quiet).free (by rw [quiet.watermark]; exact late), ?_, ?_⟩
    · intro confirmed found
      have below := entries.pair sender confirmed found
      omega
    · intro found
      have below := entries.candidate sender _ found
      exact absurd late (not_lt.mpr below)
  · obtain ⟨-, impossible, -⟩ | ⟨previous, found, ⟨-, same, loses⟩ | ⟨-, impossible⟩⟩ :=
      accepted.standing_cases
    · cases impossible
    · have held : s.candidates[sender]? = some previous := found
      refine ⟨?_, fun confirmed pair => ?_, fun own => ?_⟩
      · obtain ⟨-, vacant⟩ | ⟨other, -, isOther, mirrors⟩ :=
          yielded_cases s sender message .collision true
        · rw [vacant rfl (.inr rfl)] at held
          cases held
        · obtain rfl := Option.some.inj (held.symm.trans isOther)
          rw [keysOf_congr mirrors.keys, same]
          exact keysOf_dropKeys_self _ sender previous.epoch
      · rw [same]
        exact apart.epochs sender confirmed previous pair held
      · obtain rfl := Option.some.inj (held.symm.trans own)
        exact lt_irrefl sender loses
    · cases impossible

theorem Apart.unwrapsCandidate {env : KeyEnv} {s t : KeyStore} {carried : Map PeerId Bytes}
    {sender : PeerId} {message : WrapMessage} {result : Result PairSession}
    (apart : Apart s carried) (entries : Entries s)
    (unwraps : Unwraps env s true sender message result t) :
    Undisturbed s t ∧ Enters s t carried sender (openWrap s message).toOption := by
  obtain ⟨rfl, -⟩ | ⟨rfl, -, -⟩ | ⟨standing, key, -, accepted, outcome⟩ := unwraps
  · exact ⟨.refl t, .inl ⟨apart, .inr rfl⟩⟩
  · exact ⟨.refl t, .inl ⟨apart, .inr rfl⟩⟩
  obtain ⟨yieldedApart, undisturbed⟩ := apart.yielded sender message standing true
  obtain ⟨rfl, -⟩ | ⟨rfl, -⟩ | ⟨rfl, -⟩ := outcome
  · exact ⟨.refl t, .inl ⟨apart, .inr rfl⟩⟩
  · refine ⟨undisturbed, .inl ⟨yieldedApart, ?_⟩⟩
    obtain ⟨mirrors, -⟩ | ⟨previous, -, -, mirrors⟩ := yielded_cases s sender message standing true
    · exact .inr (by rw [mirrors.candidates])
    · left
      rw [mirrors.candidates]
      change (s.candidates.erase sender)[sender]? = none
      rw [Map.get_erase, if_pos rfl]
  · let pair : PersistedPair := ⟨sender, message.epoch, sender, message⟩
    have position := accepted.epoch_free apart entries
    have entered : Apart ((s.yielded sender message standing true).enter true pair key)
        (carried.insert sender key) := yieldedApart.enterCandidate key position.1 position.2.1
    constructor
    · have enters : Undisturbed _ ((s.yielded sender message standing true).enter true pair key) :=
        .enter yieldedApart.slotted key position.2.1
      exact (undisturbed.trans enters).trans (mirrors_written _ _).undisturbed
    · refine .inr ⟨key, pair, ?_, entered.mirrors (mirrors_written _ _), ?_, position.2.2⟩
      · rw [accepted.opens]
        rfl
      · rw [written_candidates, enter_candidates, if_pos rfl, Map.get_insert, if_pos rfl]

/-- The confirmed path does not reach the epoch of the candidate. -/
def KeepsApart (s : KeyStore) (sender : PeerId) (message : WrapMessage) : Prop :=
  ∀ pair ∈ s.pairs[sender]?, ∀ candidate ∈ s.candidates[sender]?,
    pair.epoch < message.epoch → message.epoch ≠ candidate.epoch

theorem Apart.unwraps {env : KeyEnv} {s t : KeyStore} {carried : Map PeerId Bytes} {sender : PeerId}
    {message : WrapMessage} {result : Result PairSession} (apart : Apart s carried)
    (entries : Entries s) (keeps : KeepsApart s sender message)
    (unwraps : Unwraps env s false sender message result t) : Apart t carried := by
  obtain ⟨rfl, -⟩ | ⟨rfl, -, -⟩ | ⟨standing, key, -, accepted, outcome⟩ := unwraps
  · exact apart
  · exact apart
  obtain ⟨yieldedApart, -⟩ := apart.yielded sender message standing false
  obtain ⟨rfl, -⟩ | ⟨rfl, -⟩ | ⟨rfl, -⟩ := outcome
  · exact apart
  · exact yieldedApart
  · refine Apart.mirrors (yieldedApart.enterPair key fun candidate held => ?_) (mirrors_written _ _)
    have found := (quiet_yielded s sender message standing false).candidates sender candidate held
    change message.epoch ≠ candidate.epoch
    obtain ⟨-, -, first⟩ | ⟨previous, pair, ⟨-, same, -⟩ | ⟨later, -⟩⟩ := accepted.standing_cases
    · have below := entries.candidate sender candidate found
      have next := (first rfl).2
      omega
    · rw [same]
      exact apart.epochs sender previous candidate pair found
    · exact keeps previous pair candidate found later

omit [Primitives] in
theorem Apart.promoteCandidate {s : KeyStore} {carried : Map PeerId Bytes} (apart : Apart s carried)
    (env : KeyEnv) (peer : PeerId) (epoch : Nat) :
    Apart (promoteCandidate env peer epoch s).2 carried := by
  obtain ⟨same, -⟩ | ⟨candidate, -, found, -, -, same, -⟩ := promoteCandidate_exact env peer epoch s
  · rw [same]
    exact apart
  · rw [same]
    refine Apart.written ?_ env.persists
    refine ⟨apart.slotted, fun other pair next get held => ?_, fun other next held => ?_⟩
    · change (s.pairs.insert peer candidate)[other]? = some pair at get
      change (s.candidates.erase peer)[other]? = some next at held
      rw [Map.get_erase] at held
      split at held
      · cases held
      · rename_i different
        rw [Map.get_insert_ne _ _ different] at get
        exact apart.epochs other pair next get held
    · change (s.candidates.erase peer)[other]? = some next at held
      rw [Map.get_erase] at held
      split at held
      · cases held
      · exact apart.held other next held

def release (before after : KeyStore) (handle : PairKeyHandle) (carried : Map PeerId Bytes) :
    Map PeerId Bytes :=
  match before.keys[handle.slot]? with
  | none => carried
  | some state =>
    if after.keys[handle.slot]? = none ∧
        (before.candidates[state.peerId]?.map PersistedPair.epoch) = some state.epoch then
      carried.erase state.peerId
    else
      carried

omit [Primitives] in
theorem Apart.erased {s : KeyStore} {carried : Map PeerId Bytes} (apart : Apart s carried)
    {slot : Nat} {state : PairKeyState} (live : s.keys[slot]? = some state) :
    Apart { s with keys := s.keys.erase slot }
      (if (s.candidates[state.peerId]?.map PersistedPair.epoch) = some state.epoch then
        carried.erase state.peerId else carried) := by
  have fewer : ∀ (other : Nat) (key : PairKeyState), (s.keys.erase slot)[other]? = some key →
      s.keys[other]? = some key := by
    intro other key found
    rw [Map.get_erase] at found
    split at found
    · cases found
    · exact found
  refine ⟨fun other key found => apart.slotted other key (fewer other key found), apart.epochs, ?_⟩
  intro peer candidate found
  have held := apart.held peer candidate found
  by_cases ours : state.peerId = peer ∧ state.epoch = candidate.epoch
  · obtain ⟨rfl, epoch⟩ := ours
    have isCandidate : (s.candidates[state.peerId]?.map PersistedPair.epoch) = some state.epoch := by
      rw [epoch]
      change s.candidates[state.peerId]? = some candidate at found
      rw [found]
      rfl
    rw [if_pos isCandidate, Map.get_erase, if_pos rfl]
    -- the epoch held one key, and this was it
    have there := keysOf_get.mpr ⟨live, rfl, epoch⟩
    cases isKey : carried[state.peerId]? with
    | none =>
      rw [isKey] at held
      rw [held] at there
      simp at there
    | some key =>
      rw [isKey] at held
      obtain ⟨only, value, single, -⟩ := held
      rw [single, Map.get_insert] at there
      split at there
      · rename_i same
        subst same
        apply Map.ext_get
        intro other
        apply Option.ext
        intro left
        rw [keysOf_get]
        constructor
        · rintro ⟨kept, isOurs⟩
          have before := keysOf_get.mpr ⟨fewer other left kept, isOurs⟩
          rw [single, Map.get_insert] at before
          split at before
          · rename_i same
            change (s.keys.erase only)[other]? = some left at kept
            rw [Map.get_erase, if_pos same] at kept
            cases kept
          · simp at before
        · simp
      · simp at there
  · have kept : { s with keys := s.keys.erase slot }.keysOf peer candidate.epoch =
        s.keysOf peer candidate.epoch := by
      apply keysOf_ext
      intro other key samePeer sameEpoch
      change (s.keys.erase slot)[other]? = some key ↔ _
      rw [Map.get_erase]
      split
      · rename_i same
        subst same
        rw [live]
        refine ⟨nofun, fun same => ?_⟩
        cases same
        exact absurd ⟨samePeer, sameEpoch⟩ ours
      · exact Iff.rfl
    rw [kept]
    split
    · rename_i isCandidate
      have other : state.peerId ≠ peer := by
        rintro rfl
        change s.candidates[state.peerId]? = some candidate at found
        rw [found] at isCandidate
        exact ours ⟨rfl, (Option.some.inj isCandidate).symm⟩
      rw [Map.get_erase_ne _ other]
      exact held
    · exact held

omit [Primitives] in
theorem Apart.retire {s : KeyStore} {carried : Map PeerId Bytes} (apart : Apart s carried)
    (env : KeyEnv) (handle : PairKeyHandle) :
    Apart (retire env handle s).2 (release s (retire env handle s).2 handle carried) := by
  obtain same | ⟨-, live, same⟩ := retire_exact env handle s
  · rw [same, release]
    cases found : s.keys[handle.slot]? with
    | none => exact apart
    | some state =>
      dsimp only
      rw [if_neg]
      · exact apart
      · rintro ⟨impossible, -⟩
        cases impossible
  · rw [same, release]
    cases found : s.keys[handle.slot]? with
    | none => exact absurd found live
    | some state =>
      have gone : (KeyStore.written env.persists
          { s with keys := s.keys.erase handle.slot }).keys[handle.slot]? = none := by
        rw [written_keys]
        change (s.keys.erase handle.slot)[handle.slot]? = none
        rw [Map.get_erase, if_pos rfl]
      simp only [gone, true_and]
      exact (apart.erased found).mirrors (mirrors_written _ _)

omit [Primitives] in
theorem Apart.discardPair {s : KeyStore} {carried : Map PeerId Bytes} (apart : Apart s carried)
    (env : KeyEnv) (peer : PeerId) : Apart (discardPair env peer s).2 carried := by
  obtain same | ⟨-, same⟩ := discardPair_exact env peer s
  · rw [same]
    exact apart
  · rw [same]
    refine Apart.written ?_ env.persists
    refine apart.fewer (le_refl _) ?_ ?_ ?_
    · intro slot state found
      change (s.keys.filter fun _ state => state.peerId ≠ peer)[slot]? = some state at found
      rw [Map.get_filter] at found
      exact (Option.filter_eq_some_iff.mp found).1
    · intro other pair found
      change (s.pairs.erase peer)[other]? = some pair at found
      rw [Map.get_erase] at found
      split at found
      · cases found
      · exact found
    · intro other candidate found
      change (s.candidates.erase peer)[other]? = some candidate at found
      rw [Map.get_erase] at found
      split at found
      · cases found
      · rename_i different
        refine ⟨found, keysOf_ext fun slot state samePeer _ => ?_⟩
        change (s.keys.filter fun _ state => state.peerId ≠ peer)[slot]? = some state ↔ _
        rw [Map.get_filter, Option.filter_eq_some_iff]
        simp [samePeer, Ne.symm different]

omit [Primitives] in
theorem Apart.observeRemoteEpoch {s : KeyStore} {carried : Map PeerId Bytes} (apart : Apart s carried)
    (env : KeyEnv) (peer : PeerId) (epoch : Nat) :
    Apart (observeRemoteEpoch env peer epoch s).2 carried := by
  obtain same | ⟨-, -, -, same⟩ := observeRemoteEpoch_exact env peer epoch s
  · rw [same]
    exact apart
  · rw [same]
    refine Apart.written ?_ env.persists
    exact ⟨apart.slotted, apart.epochs, apart.held⟩

omit [Primitives] in
theorem Apart.imports {env : KeyEnv} {s t : KeyStore} {carried : Map PeerId Bytes}
    {document : IdentityDocument} {result : Result Unit} (apart : Apart s carried)
    (entries : Entries s) (imports : Imports env s document result t) : Apart t carried := by
  have stored : ∀ ok, Apart (KeyStore.written ok { s with
      peers := s.peers.insert document.peerId document }) carried := by
    intro ok
    refine Apart.written ?_ ok
    exact ⟨apart.slotted, apart.epochs, apart.held⟩
  have known : Entries (KeyStore.written true { s with
      peers := s.peers.insert document.peerId document }) :=
    ⟨entries.pair, entries.candidate, entries.key⟩
  cases imports with
  | refused _ => exact apart
  | stored _ _ => exact stored _
  | wrapped _ _ _ wrap => exact (stored true).creates known wrap
  | poisoned _ poison _ _ _ wrap =>
    have created := (stored true).creates known wrap
    cases poison with
    | false => exact created
    | true => exact ⟨created.slotted, created.epochs, created.held⟩

omit [Primitives] in
theorem Apart.used {s : KeyStore} {carried : Map PeerId Bytes} (apart : Apart s carried)
    {slot : Nat} {before after : PairKeyState} (found : s.keys[slot]? = some before)
    (key : after.key = before.key) (peerId : after.peerId = before.peerId)
    (epoch : after.epoch = before.epoch) :
    Apart { s with keys := s.keys.insert slot after } carried := by
  refine ⟨fun other state get => ?_, apart.epochs, fun peer candidate get => ?_⟩
  · change (s.keys.insert slot after)[other]? = some state at get
    rw [Map.get_insert] at get
    split at get
    · rename_i same
      subst same
      exact apart.slotted slot before found
    · exact apart.slotted other state get
  · have held := apart.held peer candidate get
    have keysOf_used : { s with keys := s.keys.insert slot after }.keysOf peer candidate.epoch =
        if before.peerId = peer ∧ before.epoch = candidate.epoch then
          (s.keysOf peer candidate.epoch).insert slot after
        else s.keysOf peer candidate.epoch := by
      apply Map.ext_get
      intro other
      apply Option.ext
      intro state
      rw [keysOf_get]
      change (s.keys.insert slot after)[other]? = some state ∧ _ ↔ _
      rw [Map.get_insert]
      by_cases ours : before.peerId = peer ∧ before.epoch = candidate.epoch
      · rw [if_pos ours, Map.get_insert]
        split
        · constructor
          · exact fun this => this.1
          · rintro same
            cases same
            exact ⟨rfl, peerId.trans ours.1, epoch.trans ours.2⟩
        · exact keysOf_get.symm
      · rw [if_neg ours]
        split
        · rename_i same
          subst same
          constructor
          · rintro ⟨same, samePeer, sameEpoch⟩
            cases same
            exact absurd ⟨peerId.symm.trans samePeer, epoch.symm.trans sameEpoch⟩ ours
          · intro there
            obtain ⟨isBefore, samePeer, sameEpoch⟩ := keysOf_get.mp there
            obtain rfl := Option.some.inj (found.symm.trans isBefore)
            exact absurd ⟨samePeer, sameEpoch⟩ ours
        · exact keysOf_get.symm
    rw [keysOf_used]
    split
    · rename_i ours
      have there := keysOf_get.mpr ⟨found, ours⟩
      cases isKey : carried[peer]? with
      | none =>
        rw [isKey] at held
        rw [held] at there
        simp at there
      | some carriedKey =>
        rw [isKey] at held
        obtain ⟨only, value, single, same⟩ := held
        rw [single, Map.get_insert] at there
        split at there
        · rename_i same
          subst same
          cases there
          refine ⟨only, after, ?_, key.trans ‹_›⟩
          rw [single]
          apply Map.ext_get
          intro other
          rw [Map.get_insert, Map.get_insert, Map.get_insert]
          split <;> rfl
        · simp at there
    · exact held

theorem Apart.aeadSeal {s : KeyStore} {carried : Map PeerId Bytes} (apart : Apart s carried)
    (handle : PairKeyHandle) (bytes aad plaintext : Bytes) :
    Apart (aeadSeal handle bytes aad plaintext s).2 carried := by
  obtain ⟨same, -⟩ | ⟨before, after, ⟨found, same⟩, step, -⟩ :=
    aeadSeal_outcome handle bytes aad plaintext s
  · rw [same]
    exact apart
  · rw [same]
    exact apart.used found step.key step.peerId step.epoch

theorem Apart.aeadOpen {s : KeyStore} {carried : Map PeerId Bytes} (apart : Apart s carried)
    (handle : PairKeyHandle) (bytes aad ciphertext : Bytes) :
    Apart (aeadOpen handle bytes aad ciphertext s).2 carried := by
  obtain ⟨same, -⟩ | ⟨before, after, ⟨found, same⟩, step, -⟩ :=
    aeadOpen_outcome handle bytes aad ciphertext s
  · rw [same]
    exact apart
  · rw [same]
    exact apart.used found step.key step.peerId step.epoch

end

end KeyStore

def NoCandidates (s : KeyStore) : Prop := Slotted s ∧ s.candidates = ∅

theorem NoCandidates.apart {s : KeyStore} (none : NoCandidates s) (carried : Map PeerId Bytes) :
    Apart s carried := by
  have vacant : ∀ (peer : PeerId) (candidate : PersistedPair),
      ¬ s.candidates[peer]? = some candidate := by
    intro peer candidate found
    rw [none.2] at found
    simp at found
  exact ⟨none.1, fun peer _ candidate _ found => absurd found (vacant peer candidate),
    fun peer candidate found => absurd found (vacant peer candidate)⟩

theorem NoCandidates.mirrors {s t : KeyStore} (none : NoCandidates s) (mirrors : Mirrors s t) :
    NoCandidates t := by
  refine ⟨fun slot state found => ?_, by rw [mirrors.candidates, none.2]⟩
  rw [mirrors.keys] at found
  rw [mirrors.nextSlot]
  exact none.1 slot state found

theorem NoCandidates.creates {env : KeyEnv} {s t : KeyStore} {peer : PeerId}
    {result : Result (PairSession × WrapMessage)} (none : NoCandidates s)
    (creates : Creates env s false peer result t) : NoCandidates t := by
  have cleared := none.mirrors (mirrors_clearRetry s peer false)
  obtain ⟨rfl | rfl, -⟩ | ⟨key, message, -, -, -, -, -, rfl, -⟩ := creates
  · exact none
  · exact cleared
  · refine NoCandidates.mirrors ⟨cleared.1.enter false _ key, ?_⟩ (mirrors_written _ _)
    rw [enter_candidates, if_neg Bool.false_ne_true]
    exact cleared.2

section

variable [Primitives]

theorem prepareWraps_noCandidates (env : PeerId → KeyEnv) :
    ∀ (peers : List IdentityDocument) {run : PairRun}, NoCandidates run.store →
      Action.Ensures (prepareWraps env peers) run fun _ next => NoCandidates next.store := by
  intro peers
  induction peers with
  | nil => exact fun none => none
  | cons peer rest ih =>
    intro run none
    unfold prepareWraps
    refine .query (fun _ _ => none) fun next _ => ?_
    have made : Action.Ensures (PairRun.create (env peer.peerId) peer.peerId peer.ek next) run
        fun _ next => NoCandidates next.store := by
      unfold PairRun.create PairRun.lift
      refine .zoom (createInner_exact (env peer.peerId) peer.peerId peer.ek next false run.store) ?_ ?_
      · exact fun _ _ creates => none.creates creates
      · exact fun _ _ creates => none.creates creates
    refine .next made ?_ ?_
    · exact fun _ _ none => none
    · exact fun _ _ none => ih none

omit [Primitives] in
theorem KeyStore.Restored.noCandidates {table : Map PeerId Nat} {s : KeyStore}
    (restored : Restored table s) (file : Option PersistedState) :
    NoCandidates { s with disk := file } := by
  refine ⟨fun slot state found => ?_, restored.candidates⟩
  change s.keys[slot]? = some state at found
  rw [restored.keys] at found
  simp at found

theorem reopen_apart (env : OpenEnv) {run : PairRun} {carried : Map PeerId Bytes}
    (apart : Apart run.store carried) : Apart (reopen env run).store carried := by
  unfold reopen
  dsimp only
  split
  · exact ⟨apart.slotted, apart.epochs, apart.held⟩
  · rename_i store loaded
    have none : NoCandidates { store with disk := env.stateFile run.store } := by
      obtain ⟨_, -, loaded⟩ := Result.bind_eq_ok.mp loaded
      split at loaded
      · cases loaded
        refine ⟨fun slot state found => ?_, rfl⟩
        simp [opened] at found
      · obtain ⟨table, restored, -⟩ := restore_restored loaded
        exact restored.noCandidates _
    have opens : NoCandidates (openRestored env { run with store := { store with
        disk := env.stateFile run.store } }).2.store := by
      refine (?_ : Action.Ensures (openRestored env) _ fun _ next => NoCandidates next.store)
      unfold openRestored PairRun.lift
      have persisted : Action.Ensures (persist env.persists) { store with
          disk := env.stateFile run.store } fun _ t => NoCandidates t :=
        none.mirrors (mirrors_written env.persists _)
      refine .zoom persisted ?_ ?_
      · exact fun _ _ none => none
      · exact fun _ _ none => .get (prepareWraps_noCandidates env.create _ none)
    split
    · rename_i next done
      rw [done] at opens
      exact opens.apart carried
    · rename_i next done
      rw [done] at opens
      have kept : NoCandidates next.poison.store := ⟨opens.1, opens.2⟩
      exact kept.apart carried

/-- A life of a store, with the key that the wrap of each candidate carried. -/
structure CandidateRun where
  run : PairRun
  carried : Map PeerId Bytes

def PairOp.wrapKey (s : KeyStore) : PairOp → Option (PeerId × Bytes)
  | .createCandidate env peer _ _ => env.pairKey.map fun key => (peer, key)
  | .retryCandidateCollision _ env peer => env.pairKey.map fun key => (peer, key)
  | .unwrapCandidate _ sender message => (openWrap s message).toOption.map fun key => (sender, key)
  | _ => none

def carry (before after : KeyStore) (carried : Map PeerId Bytes) :
    Option (PeerId × Bytes) → Map PeerId Bytes
  | none => carried
  | some (peer, key) =>
    if after.candidates[peer]? = none ∨ after.candidates[peer]? = before.candidates[peer]? then carried
    else carried.insert peer key

def CandidateRun.exec (op : PairOp) (state : CandidateRun) : CandidateRun :=
  let next := perform state.run op
  { run := next
    carried := match op with
      | .retire _ handle => release state.run.store next.store handle state.carried
      | _ => carry state.run.store next.store state.carried (op.wrapKey state.run.store) }

def candidateLife : Machine CandidateRun PairOp := ⟨CandidateRun.exec⟩

def CandidateRun.first (identity : LocalIdentity) (instanceId : Fin (2 ^ 256)) : CandidateRun :=
  ⟨PairRun.first identity instanceId, ∅⟩

omit [Primitives] in
theorem KeyStore.Enters.carry {s t : KeyStore} {carried : Map PeerId Bytes} {peer : PeerId}
    {source : Option Bytes} (enters : Enters s t carried peer source) :
    Apart t (carry s t carried (source.map fun key => (peer, key))) := by
  obtain ⟨apart, unchanged⟩ | ⟨key, pair, rfl, apart, found, new⟩ := enters
  · cases source with
    | none => exact apart
    | some key =>
      rw [Option.map_some, QuantumFs.Crypto.carry, if_pos unchanged]
      exact apart
  · rw [Option.map_some, QuantumFs.Crypto.carry, if_neg]
    · exact apart
    · rw [found]
      rintro (impossible | same)
      · cases impossible
      · exact new same.symm

/-- A step that never brings a confirmed wrap to the epoch of the candidate. -/
def PairOp.KeepsApart (s : KeyStore) : PairOp → Prop
  | .unwrap _ sender message => KeyStore.KeepsApart s sender message
  | _ => True

theorem exec_apart {state : CandidateRun} {op : PairOp} (law : EpochLaw state.run)
    (apart : Apart state.run.store state.carried) (keeps : op.KeepsApart state.run.store) :
    Apart (state.exec op).run.store (state.exec op).carried := by
  have entries := law.bounded.entries
  cases op with
  | create env peer ek epoch =>
    exact apart.creates entries (createInner_exact env peer ek epoch false state.run.store)
  | createCandidate env peer ek epoch =>
    exact (apart.createsCandidate entries
      (createInner_exact env peer ek epoch true state.run.store)).2.carry
  | unwrap env sender message =>
    exact apart.unwraps entries keeps (unwrapInner_exact env sender message false state.run.store)
  | unwrapCandidate env sender message =>
    exact (apart.unwrapsCandidate entries
      (unwrapInner_exact env sender message true state.run.store)).2.carry
  | promoteCandidate env peer epoch => exact apart.promoteCandidate env peer epoch
  | discardCandidate env peer => exact (apart.discardCandidate env peer).2.1
  | retryCollision env peer =>
    exact apart.creates entries (retryCollision_exact env peer state.run.store)
  | retryCandidateCollision discard env peer =>
    exact (apart.retryCandidateCollision entries discard env peer).2.carry
  | retire env handle => exact apart.retire env handle
  | discardPair env peer => exact apart.discardPair env peer
  | importPeer env document =>
    exact apart.imports entries (importPeer_exact env document state.run.store)
  | observeRemoteEpoch env peer epoch => exact apart.observeRemoteEpoch env peer epoch
  | aeadSeal handle nonce aad plaintext => exact apart.aeadSeal handle nonce aad plaintext
  | aeadOpen handle nonce aad ciphertext => exact apart.aeadOpen handle nonce aad ciphertext
  | reopen env => exact reopen_apart env apart

def PairOp.onCandidate : PairOp → Bool
  | .createCandidate .. | .unwrapCandidate .. | .discardCandidate .. | .retryCandidateCollision .. =>
    true
  | _ => false

theorem exec_undisturbed {state : CandidateRun} {op : PairOp} (law : EpochLaw state.run)
    (apart : Apart state.run.store state.carried) (candidate : op.onCandidate = true) :
    Undisturbed state.run.store (state.exec op).run.store := by
  have entries := law.bounded.entries
  cases op with
  | createCandidate env peer ek epoch =>
    exact (apart.createsCandidate entries
      (createInner_exact env peer ek epoch true state.run.store)).1
  | unwrapCandidate env sender message =>
    exact (apart.unwrapsCandidate entries
      (unwrapInner_exact env sender message true state.run.store)).1
  | discardCandidate env peer => exact (apart.discardCandidate env peer).1
  | retryCandidateCollision discard env peer =>
    exact (apart.retryCandidateCollision entries discard env peer).1
  | _ => cases candidate

def Selects (s : KeyStore) (session : PairSession) (key : Bytes) : Prop :=
  ∃ state, s.keys[session.keyHandle.slot]? = some state ∧ state.key = key

omit [Primitives] in
theorem KeyStore.Held.selects {s : KeyStore} {peer : PeerId} {epoch : Nat} {source : Option Bytes}
    (held : Held (s.keysOf peer epoch) source) {session : PairSession}
    (found : s.innerSession peer epoch = .ok session) : ∃ key, source = some key ∧ Selects s session key := by
  obtain ⟨state, slot⟩ := innerSession_slot found
  cases source with
  | none =>
    rw [held] at slot
    simp at slot
  | some key =>
    obtain ⟨only, value, single, same⟩ := held
    refine ⟨key, rfl, state, (keysOf_get.mp slot).1, ?_⟩
    rw [single, Map.get_insert] at slot
    split at slot
    · cases slot
      exact same
    · simp at slot

/-- A candidate and the confirmed pair of its peer do not touch each other: no call on a
candidate changes what `current_session` answers, nor the key and the counters behind it;
`candidate_session` selects the key that the candidate's own wrap carried until its slot
is retired; and a promotion makes that key current. -/
def Isolated (state : CandidateRun) : Prop :=
  (∀ op : PairOp, op.onCandidate = true → ∀ peer : PeerId,
    let next := (candidateLife.exec op state).run.store
    (next.failed = false → next.currentSession peer = state.run.store.currentSession peer) ∧
      ∀ session, state.run.store.currentSession peer = .ok session →
        next.keys[session.keyHandle.slot]? = state.run.store.keys[session.keyHandle.slot]?) ∧
  (∀ (peer : PeerId) (candidate : PersistedPair) (key : Bytes), state.run.store.failed = false →
    state.run.store.candidates[peer]? = some candidate → state.carried[peer]? = some key →
    ∃ session, state.run.store.candidateSession peer = .ok session ∧
      Selects state.run.store session key) ∧
  ∀ (env : KeyEnv) (peer : PeerId) (epoch : Nat) (session : PairSession),
    (promoteCandidate env peer epoch state.run.store).1 = .ok session →
    let next := (promoteCandidate env peer epoch state.run.store).2
    next.currentSession peer = .ok session ∧
      ∃ key, state.carried[peer]? = some key ∧ Selects next session key

omit [Primitives] in
theorem promoted_selects {state : CandidateRun} (apart : Apart state.run.store state.carried)
    {env : KeyEnv} {peer : PeerId} {epoch : Nat} {session : PairSession}
    (promoted : (promoteCandidate env peer epoch state.run.store).1 = .ok session) :
    let next := (promoteCandidate env peer epoch state.run.store).2
    next.currentSession peer = .ok session ∧
      ∃ key, state.carried[peer]? = some key ∧ Selects next session key := by
  intro next
  obtain ⟨-, _, failed⟩ | ⟨candidate, alive, found, sameEpoch, -, same, result⟩ :=
    promoteCandidate_exact env peer epoch state.run.store
  · rw [failed] at promoted
    cases promoted
  · change next = _ at same
    obtain ⟨saved, answer⟩ := result (by rw [promoted]; rfl)
    have current : next.innerSession peer epoch = .ok session := answer.symm.trans promoted
    have keys : next.keys = state.run.store.keys := by rw [same, written_keys]
    have living : next.failed = false := by rw [same, written_failed, alive, saved]; rfl
    have pair : next.pairs[peer]? = some candidate := by
      rw [same, written_pairs]
      change (state.run.store.pairs.insert peer candidate)[peer]? = some candidate
      rw [Map.get_insert, if_pos rfl]
    constructor
    · refine Result.bind_eq_ok.mpr ⟨(), ensure_eq_ok.mpr living, ?_⟩
      refine Result.bind_eq_ok.mpr ⟨candidate, okOr_eq_ok.mpr pair, ?_⟩
      rw [sameEpoch]
      exact current
    · have held := apart.held peer candidate found
      rw [sameEpoch, ← keysOf_congr keys] at held
      exact held.selects current

theorem isolated_of_apart {state : CandidateRun} (law : EpochLaw state.run)
    (apart : Apart state.run.store state.carried) : Isolated state := by
  refine ⟨fun op candidate peer => ?_, fun peer candidate key alive found isKey => ?_,
    fun env peer epoch session promoted => promoted_selects apart promoted⟩
  · intro next
    have undisturbed := exec_undisturbed law apart candidate
    obtain ⟨session, slots⟩ := undisturbed.currentSession peer
    refine ⟨fun living => session ?_, slots⟩
    obtain ⟨_, -, makes⟩ := perform_makes state.run op (by rintro env rfl; cases candidate)
    rw [makes.advances.alive living]
    exact living
  · have held := apart.held peer candidate found
    rw [isKey] at held
    obtain ⟨slot, value, single, same⟩ := held
    have live : (state.run.store.keysOf peer candidate.epoch)[slot]? = some value := by
      rw [single, Map.get_insert, if_pos rfl]
    obtain ⟨stored, samePeer, sameEpoch⟩ := keysOf_get.mp live
    obtain ⟨session, current⟩ := innerSession_isOk stored samePeer sameEpoch
    refine ⟨session, ?_, ?_⟩
    · refine Result.bind_eq_ok.mpr ⟨(), ensure_eq_ok.mpr alive, ?_⟩
      exact Result.bind_eq_ok.mpr ⟨candidate, okOr_eq_ok.mpr found, current⟩
    · have held : Held (state.run.store.keysOf peer candidate.epoch) (some key) :=
        ⟨slot, value, single, same⟩
      obtain ⟨other, isOther, selects⟩ := held.selects current
      cases isOther
      exact selects

/-- In a life without a confirmed wrap at the epoch of a candidate, candidates are isolated. -/
theorem candidates_isolated (identity : LocalIdentity) (instanceId : Fin (2 ^ 256))
    (ops : List PairOp)
    (along : candidateLife.Along (fun state op => op.KeepsApart state.run.store) ops
      (CandidateRun.first identity instanceId)) :
    candidateLife.Throughout Isolated ops (CandidateRun.first identity instanceId) := by
  have first : EpochLaw (CandidateRun.first identity instanceId).run ∧
      Apart (CandidateRun.first identity instanceId).run.store ∅ := by
    refine ⟨epochLaw_first identity instanceId, NoCandidates.apart ⟨?_, rfl⟩ ∅⟩
    intro slot state found
    simp [CandidateRun.first, PairRun.first, opened] at found
  have inv := candidateLife.throughout_of_step
    (I := fun state => EpochLaw state.run ∧ Apart state.run.store state.carried)
    (fun state op known keeps => ⟨(perform_lawful known.1 op).law, exec_apart known.1 known.2 keeps⟩)
    ops _ first along
  exact inv.mono fun state known => isolated_of_apart known.1 known.2

instance (s : KeyStore) : (op : PairOp) → Decidable (op.KeepsApart s)
  | .unwrap _ sender message => inferInstanceAs (Decidable
      (∀ pair ∈ s.pairs[sender]?, ∀ candidate ∈ s.candidates[sender]?,
        pair.epoch < message.epoch → message.epoch ≠ candidate.epoch))
  | .create .. | .createCandidate .. | .unwrapCandidate .. | .promoteCandidate ..
  | .discardCandidate .. | .retryCollision .. | .retryCandidateCollision .. | .retire ..
  | .discardPair .. | .importPeer .. | .observeRemoteEpoch .. | .aeadSeal .. | .aeadOpen ..
  | .reopen .. => .isTrue trivial

end

section

open NonceReuse

/-- Bob has paired with Alice at the first epoch. -/
def paired : List PairOp :=
  [.importPeer (keyEnv 0) alice.document, .unwrap (keyEnv 0) alice.document.peerId firstWrap]

theorem candidates_isolated_promoted :
    let := Primitives.plain
    let ops := paired ++ [.unwrapCandidate (keyEnv 0) alice.document.peerId secondWrap,
      .promoteCandidate (keyEnv 0) alice.document.peerId 2]
    candidateLife.Throughout Isolated ops (CandidateRun.first bob 0) ∧
      ((candidateLife.run ops (CandidateRun.first bob 0)).run.store.currentSession
        alice.document.peerId).map PairSession.epoch = .ok 2 := by
  refine ⟨@candidates_isolated Primitives.plain bob 0 _ ?_, ?_⟩
  · decide +kernel
  · decide +kernel

/-- Bob has made a candidate at epoch 2 when the wrap that Alice made at epoch 2 reaches him
on the confirmed path. The candidate then selects the key of Alice's wrap, and the session
that is current goes when the candidate is discarded. -/
theorem candidate_shadowed :
    let := Primitives.plain
    let ops := paired ++ [.createCandidate (keyEnv 7) alice.document.peerId alice.document.ek 2,
      .unwrap (keyEnv 0) alice.document.peerId secondWrap]
    let last := candidateLife.run ops (CandidateRun.first bob 0)
    ¬ candidateLife.Throughout Isolated ops (CandidateRun.first bob 0) ∧
      (last.run.store.currentSession alice.document.peerId).isOk = true ∧
      ((discardCandidate (keyEnv 0) alice.document.peerId last.run.store).2.currentSession
        alice.document.peerId) = .error .keyUnavailable := by
  let := Primitives.plain
  intro _ ops last
  refine ⟨fun isolated => ?_, by decide +kernel, by decide +kernel⟩
  have final : Isolated last := isolated.final
  have carried : last.carried[alice.document.peerId]? = some (List.replicate 32 7) := by
    decide +kernel
  have alive : last.run.store.failed = false := by decide +kernel
  have isCandidate : (last.run.store.candidates[alice.document.peerId]?).isSome = true := by
    decide +kernel
  obtain ⟨candidate, found⟩ := Option.isSome_iff_exists.mp isCandidate
  obtain ⟨session, selected, state, slot, key⟩ := final.2.1 _ candidate _ alive found carried
  have actual : ((last.run.store.candidateSession alice.document.peerId).toOption.bind
      fun session => last.run.store.keys[session.keyHandle.slot]?.map PairKeyState.key) =
      some (List.replicate 32 1) := by
    decide +kernel
  rw [selected, Except.toOption, Option.bind_some, slot, Option.map_some, key] at actual
  exact absurd (Option.some.inj actual) (by decide)

end

end QuantumFs.Crypto
