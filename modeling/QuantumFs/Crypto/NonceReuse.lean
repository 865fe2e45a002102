import QuantumFs.Crypto.KeyStoreStep
import QuantumFs.Lib.Machine

/-! Nonces of a key store over whole runs. A history records every successful
seal and open with the key bytes and the nonce it used, every key the store
generated and every wrap it was handed. A slot never repeats a nonce; so a
repetition needs one key in two slots, that is, a wrap installed twice. -/
namespace QuantumFs.Crypto.NonceReuse

open Lib Encoding KeyStore

structure KeyRun where
  store : KeyStore
  /-- Key bytes and nonce of every successful seal and open. -/
  seals : List (Bytes × Bytes)
  opens : List (Bytes × Bytes)
  generated : List Bytes
  received : List WrapMessage
  /-- The wraps that `unwrap` and `unwrap_candidate` returned a session for. -/
  unwrapped : List (PeerId × WrapMessage)
  candidates : List (PeerId × WrapMessage)

inductive KeyOp where
  | create (env : KeyEnv) (peer : PeerId) (ek : Bytes) (epoch : Nat)
  | createCandidate (env : KeyEnv) (peer : PeerId) (ek : Bytes) (epoch : Nat)
  | unwrap (env : KeyEnv) (sender : PeerId) (message : WrapMessage)
  | unwrapCandidate (env : KeyEnv) (sender : PeerId) (message : WrapMessage)
  | discardCandidate (env : KeyEnv) (peer : PeerId)
  | promoteCandidate (env : KeyEnv) (peer : PeerId) (epoch : Nat)
  | retryCollision (env : KeyEnv) (peer : PeerId)
  | retryCandidateCollision (discard env : KeyEnv) (peer : PeerId)
  | retire (env : KeyEnv) (handle : PairKeyHandle)
  | aeadSeal (handle : PairKeyHandle) (nonce aad plaintext : Bytes)
  | aeadOpen (handle : PairKeyHandle) (nonce aad ciphertext : Bytes)

def slotKey (store : KeyStore) (handle : PairKeyHandle) : Bytes :=
  (store.keys[handle.slot]?.map PairKeyState.key).getD []

/-- Extend a history when the operation it records has succeeded. -/
def note {α β : Type} (result : Result α) (entry : β) (history : List β) : List β :=
  if result.isOk then entry :: history else history

section

variable [Primitives]

def exec : KeyOp → KeyRun → KeyRun
  | .create env peer ek epoch, run => { run with
      store := (KeyStore.create env peer ek epoch run.store).2
      generated := env.pairKey.toList ++ run.generated }
  | .createCandidate env peer ek epoch, run => { run with
      store := (KeyStore.createCandidate env peer ek epoch run.store).2
      generated := env.pairKey.toList ++ run.generated }
  | .unwrap env sender message, run =>
      let outcome := KeyStore.unwrap env sender message run.store
      { run with
        store := outcome.2
        received := message :: run.received
        unwrapped := note outcome.1 (sender, message) run.unwrapped }
  | .unwrapCandidate env sender message, run =>
      let outcome := KeyStore.unwrapCandidate env sender message run.store
      { run with
        store := outcome.2
        received := message :: run.received
        candidates := note outcome.1 (sender, message) run.candidates }
  | .discardCandidate env peer, run =>
      { run with store := (KeyStore.discardCandidate env peer run.store).2 }
  | .promoteCandidate env peer epoch, run =>
      { run with store := (KeyStore.promoteCandidate env peer epoch run.store).2 }
  | .retryCollision env peer, run => { run with
      store := (KeyStore.retryCollision env peer run.store).2
      generated := env.pairKey.toList ++ run.generated }
  | .retryCandidateCollision discard env peer, run => { run with
      store := (KeyStore.retryCandidateCollision discard env peer run.store).2
      generated := env.pairKey.toList ++ run.generated }
  | .retire env handle, run => { run with store := (KeyStore.retire env handle run.store).2 }
  | .aeadSeal handle nonce aad plaintext, run =>
      let outcome := KeyStore.aeadSeal handle nonce aad plaintext run.store
      { run with
        store := outcome.2
        seals := note outcome.1 (slotKey run.store handle, nonce) run.seals }
  | .aeadOpen handle nonce aad ciphertext, run =>
      let outcome := KeyStore.aeadOpen handle nonce aad ciphertext run.store
      { run with
        store := outcome.2
        opens := note outcome.1 (slotKey run.store handle, nonce) run.opens }

def machine : Machine KeyRun KeyOp := ⟨exec⟩

/-- A generated key is none that was generated or received before. -/
def FreshKey (run : KeyRun) (env : KeyEnv) : Prop :=
  ∀ key, env.pairKey = some key → key ∉ run.generated ∧
    ∀ message ∈ run.received, openWrap run.store message ≠ .ok key

/-- A received wrap is genuine: its key was generated for this wrap alone. -/
def GenuineWrap (run : KeyRun) (message : WrapMessage) : Prop :=
  ∀ key, openWrap run.store message = .ok key → key ∉ run.generated ∧
    ∀ other ∈ run.received, openWrap run.store other = .ok key → other = message

/-- The assumption on the environment: freshly generated keys are pairwise
distinct, on this store and inside the wraps it is handed. -/
def DistinctKeys (run : KeyRun) : KeyOp → Prop
  | .create env _ _ _ => FreshKey run env
  | .createCandidate env _ _ _ => FreshKey run env
  | .retryCollision env _ => FreshKey run env
  | .retryCandidateCollision _ env _ => FreshKey run env
  | .unwrap _ _ message => GenuineWrap run message
  | .unwrapCandidate _ _ message => GenuineWrap run message
  | _ => True

/-- A wrap accepted on one of the two paths is not handed to the other. -/
def OnePath (run : KeyRun) : KeyOp → Prop
  | .unwrap _ _ message => ∀ sender, (sender, message) ∉ run.candidates
  | .unwrapCandidate _ _ message => ∀ sender, (sender, message) ∉ run.unwrapped
  | _ => True

instance (run : KeyRun) (env : KeyEnv) : Decidable (FreshKey run env) :=
  match h : env.pairKey with
  | some key => decidable_of_iff (key ∉ run.generated ∧
      ∀ message ∈ run.received, openWrap run.store message ≠ .ok key) (by simp [FreshKey, h])
  | none => .isTrue (by simp [FreshKey, h])

instance (run : KeyRun) (message : WrapMessage) : Decidable (GenuineWrap run message) :=
  match h : openWrap run.store message with
  | .ok key => decidable_of_iff (key ∉ run.generated ∧
      ∀ other ∈ run.received, openWrap run.store other = .ok key → other = message)
      (by simp [GenuineWrap, h])
  | .error e => .isTrue (by simp [GenuineWrap, h])

instance (run : KeyRun) : (op : KeyOp) → Decidable (DistinctKeys run op)
  | .create env _ _ _ => inferInstanceAs (Decidable (FreshKey run env))
  | .createCandidate env _ _ _ => inferInstanceAs (Decidable (FreshKey run env))
  | .retryCollision env _ => inferInstanceAs (Decidable (FreshKey run env))
  | .retryCandidateCollision _ env _ => inferInstanceAs (Decidable (FreshKey run env))
  | .unwrap _ _ message => inferInstanceAs (Decidable (GenuineWrap run message))
  | .unwrapCandidate _ _ message => inferInstanceAs (Decidable (GenuineWrap run message))
  | .discardCandidate .. | .promoteCandidate .. | .retire .. | .aeadSeal .. | .aeadOpen .. =>
    .isTrue trivial

omit [Primitives] in
private theorem forall_not_mem_iff {history : List (PeerId × WrapMessage)} {message : WrapMessage} :
    (∀ entry ∈ history, entry.2 ≠ message) ↔ ∀ sender, (sender, message) ∉ history := by
  refine ⟨fun h sender mem => h _ mem rfl, fun h entry mem same => ?_⟩
  subst same
  exact h entry.1 mem

instance (run : KeyRun) : (op : KeyOp) → Decidable (OnePath run op)
  | .unwrap _ _ message =>
    decidable_of_iff (∀ entry ∈ run.candidates, entry.2 ≠ message) forall_not_mem_iff
  | .unwrapCandidate _ _ message =>
    decidable_of_iff (∀ entry ∈ run.unwrapped, entry.2 ≠ message) forall_not_mem_iff
  | .create .. | .createCandidate .. | .retryCollision .. | .retryCandidateCollision ..
  | .discardCandidate .. | .promoteCandidate .. | .retire .. | .aeadSeal .. | .aeadOpen .. =>
    .isTrue trivial

/-- A store that has just been opened: pairs of an earlier process are known with
their epochs, no key is active, and nothing has happened yet. -/
structure Opened (run : KeyRun) : Prop where
  keys : run.store.keys = ∅
  candidateSlots : run.store.candidates = ∅
  epochs : ∀ (peer : PeerId) (pair : PersistedPair), run.store.pairs[peer]? = some pair →
    pair.epoch ≤ run.store.watermark peer
  seals : run.seals = []
  opens : run.opens = []
  unwrapped : run.unwrapped = []
  candidates : run.candidates = []

/-- No key is used twice with one nonce, in either direction. -/
def NoReuse (run : KeyRun) : Prop := run.seals.Nodup ∧ run.opens.Nodup

instance (run : KeyRun) : Decidable (NoReuse run) :=
  inferInstanceAs (Decidable (run.seals.Nodup ∧ run.opens.Nodup))

/-- Keys the store has generated or accepted so far. -/
def Known (run : KeyRun) (key : Bytes) : Prop :=
  key ∈ run.generated ∨ ∃ sender message,
    ((sender, message) ∈ run.unwrapped ∨ (sender, message) ∈ run.candidates) ∧
    openWrap run.store message = .ok key

def Addressed (store : KeyStore) (sender : PeerId) (message : WrapMessage) : Prop :=
  message.minId = min store.localId sender ∧ message.maxId = max store.localId sender

structure Live (run : KeyRun) : Prop where
  known : ∀ (slot : Nat) (state : PairKeyState), run.store.keys[slot]? = some state →
    Known run state.key
  used : ∀ (slot : Nat) (state : PairKeyState), run.store.keys[slot]? = some state →
    slot < run.store.nextSlot
  distinct : ∀ (slot slot' : Nat) (state state' : PairKeyState),
    run.store.keys[slot]? = some state → run.store.keys[slot']? = some state' →
    state.key = state'.key → slot = slot'
  pairEpoch : ∀ (peer : PeerId) (pair : PersistedPair), run.store.pairs[peer]? = some pair →
    pair.epoch ≤ run.store.watermark peer
  candidateEpoch : ∀ (peer : PeerId) (pair : PersistedPair),
    run.store.candidates[peer]? = some pair → pair.epoch ≤ run.store.watermark peer
  /-- What `unwrap` has accepted lies at or below the pair, which it would not displace again. -/
  unwrapped : ∀ sender message, (sender, message) ∈ run.unwrapped →
    Addressed run.store sender message ∧ message ∈ run.received ∧
    ∃ pair, run.store.pairs[sender]? = some pair ∧ message.epoch ≤ pair.epoch ∧
      (message.epoch = pair.epoch → pair.initiator ≤ sender)
  /-- What `unwrap_candidate` has accepted lies at or below the watermark, and no candidate of
  that epoch would lose against it. -/
  candidates : ∀ sender message, (sender, message) ∈ run.candidates →
    Addressed run.store sender message ∧ message ∈ run.received ∧
    message.epoch ≤ run.store.watermark sender ∧
    ∀ pair, run.store.candidates[sender]? = some pair → pair.epoch = message.epoch →
      pair.initiator ≤ sender
  seals : ∀ entry ∈ run.seals, Known run entry.1 ∧
    ∀ (slot : Nat) (state : PairKeyState), run.store.keys[slot]? = some state →
      state.key = entry.1 → SpentSend state entry.2
  opens : ∀ entry ∈ run.opens, Known run entry.1 ∧
    ∀ (slot : Nat) (state : PairKeyState), run.store.keys[slot]? = some state →
      state.key = entry.1 → SpentReceive state entry.2

/-- A poisoned store answers nothing any more, so only a live one has to know its keys. -/
structure Inv (run : KeyRun) : Prop where
  noReuse : NoReuse run
  live : run.store.failed = false → Live run

theorem Opened.inv {run : KeyRun} (h : Opened run) : Inv run := by
  refine ⟨by simp [NoReuse, h.seals, h.opens], fun _ => ?_⟩
  exact {
    known := by simp [h.keys]
    used := by simp [h.keys]
    distinct := by simp [h.keys]
    pairEpoch := h.epochs
    candidateEpoch := by simp [h.candidateSlots]
    unwrapped := by simp [h.unwrapped]
    candidates := by simp [h.candidates]
    seals := by simp [h.seals]
    opens := by simp [h.opens] }

theorem openWrap_congr {s t : KeyStore} (identity : t.identity = s.identity)
    (message : WrapMessage) : openWrap t message = openWrap s message := by
  unfold openWrap
  rw [identity]

omit [Primitives] in
theorem Addressed.sender_eq {store : KeyStore} {sender sender' : PeerId} {message : WrapMessage}
    (h : Addressed store sender message) (h' : Addressed store sender' message) :
    sender = sender' := by
  have hmin := h.1.symm.trans h'.1
  have hmax := h.2.symm.trans h'.2
  rcases le_total store.localId sender with le | le <;>
    rcases le_total store.localId sender' with le' | le' <;>
    simp only [le, le', min_eq_left, min_eq_right, max_eq_left, max_eq_right] at hmin hmax
  · exact hmax
  · rw [hmax, hmin]
  · rw [hmin, hmax]
  · exact hmin

structure Extends (run next : KeyRun) : Prop where
  identity : next.store.identity = run.store.identity
  generated : ∀ key ∈ run.generated, key ∈ next.generated
  received : ∀ message ∈ run.received, message ∈ next.received
  unwrapped : ∀ entry ∈ run.unwrapped, entry ∈ next.unwrapped
  candidates : ∀ entry ∈ run.candidates, entry ∈ next.candidates

theorem Known.extends {run next : KeyRun} (ext : Extends run next) {key : Bytes}
    (h : Known run key) : Known next key := by
  obtain generated | ⟨sender, message, accepted, carries⟩ := h
  · exact .inl (ext.generated key generated)
  · refine .inr ⟨sender, message, ?_, by rwa [openWrap_congr ext.identity]⟩
    exact accepted.imp (ext.unwrapped _) (ext.candidates _)

omit [Primitives] in
theorem Addressed.congr {s t : KeyStore} (identity : t.identity = s.identity) {sender : PeerId}
    {message : WrapMessage} (h : Addressed s sender message) : Addressed t sender message := by
  unfold Addressed KeyStore.localId at h ⊢
  rwa [identity]

theorem Live.quiet {run next : KeyRun} (live : Live run) (quiet : Quiet run.store next.store)
    (ext : Extends run next) (seals : next.seals = run.seals) (opens : next.opens = run.opens)
    (unwrapped : ∀ sender message, (sender, message) ∈ next.unwrapped →
      (sender, message) ∈ run.unwrapped ∨ (Cached run.store false sender message ∧
        Addressed run.store sender message ∧ message ∈ next.received))
    (candidates : ∀ sender message, (sender, message) ∈ next.candidates →
      (sender, message) ∈ run.candidates ∨ (Cached run.store true sender message ∧
        Addressed run.store sender message ∧ message ∈ next.received)) : Live next where
  known := fun slot state get => (live.known slot state (quiet.keys slot state get)).extends ext
  used := fun slot state get =>
    (live.used slot state (quiet.keys slot state get)).trans_le quiet.slots
  distinct := fun slot slot' state state' get get' =>
    live.distinct slot slot' state state' (quiet.keys _ _ get) (quiet.keys _ _ get')
  pairEpoch := fun peer pair get => by
    rw [quiet.watermark]
    exact live.pairEpoch peer pair (quiet.pairs ▸ get)
  candidateEpoch := fun peer pair get => by
    rw [quiet.watermark]
    exact live.candidateEpoch peer pair (quiet.candidates _ _ get)
  unwrapped := fun sender message mem => by
    rw [quiet.pairs]
    obtain mem | ⟨⟨pair, get, epoch, initiator⟩, addressed, received⟩ := unwrapped _ _ mem
    · obtain ⟨addressed, was, standing⟩ := live.unwrapped sender message mem
      exact ⟨addressed.congr quiet.identity, ext.received _ was, standing⟩
    · exact ⟨addressed.congr quiet.identity, received, pair, get, epoch.ge, fun _ => initiator.le⟩
  candidates := fun sender message mem => by
    rw [quiet.watermark]
    obtain mem | ⟨⟨pair, get, epoch, initiator⟩, addressed, received⟩ := candidates _ _ mem
    · obtain ⟨addressed, was, below, order⟩ := live.candidates sender message mem
      exact ⟨addressed.congr quiet.identity, ext.received _ was, below,
        fun pair get => order pair (quiet.candidates _ _ get)⟩
    · refine ⟨addressed.congr quiet.identity, received, ?_, fun other get' _ => ?_⟩
      · exact epoch.symm.trans_le (live.candidateEpoch sender pair get)
      · obtain rfl := Option.some.inj (get.symm.trans (quiet.candidates _ _ get'))
        exact initiator.le
  seals := fun entry mem => by
    rw [seals] at mem
    exact ⟨(live.seals entry mem).1.extends ext, fun slot state get =>
      (live.seals entry mem).2 slot state (quiet.keys _ _ get)⟩
  opens := fun entry mem => by
    rw [opens] at mem
    exact ⟨(live.opens entry mem).1.extends ext, fun slot state get =>
      (live.opens entry mem).2 slot state (quiet.keys _ _ get)⟩

theorem Live.installed {run next : KeyRun} (live : Live run) {candidate : Bool}
    {pair : PersistedPair} {key : Bytes}
    (installed : Installed run.store next.store candidate pair key) (ext : Extends run next)
    (seals : next.seals = run.seals) (opens : next.opens = run.opens)
    (fresh : ¬ Known run key) (known : Known next key)
    (above : candidate = false → ∀ message, (pair.peerId, message) ∈ run.unwrapped →
      message.epoch < pair.epoch)
    (fits : candidate = true → ∀ message, (pair.peerId, message) ∈ run.candidates →
      pair.epoch = message.epoch → pair.initiator ≤ pair.peerId)
    (unwrapped : ∀ sender message, (sender, message) ∈ next.unwrapped →
      (sender, message) ∈ run.unwrapped ∨ (candidate = false ∧ sender = pair.peerId ∧
        message.epoch = pair.epoch ∧ pair.initiator = sender ∧
        Addressed run.store sender message ∧ message ∈ next.received))
    (candidates : ∀ sender message, (sender, message) ∈ next.candidates →
      (sender, message) ∈ run.candidates ∨ (candidate = true ∧ sender = pair.peerId ∧
        message.epoch = pair.epoch ∧ pair.initiator = sender ∧
        Addressed run.store sender message ∧ message ∈ next.received)) : Live next := by
  obtain ⟨slot, unused, below, new, others⟩ := installed.slot
  have old : ∀ (other : Nat) (state : PairKeyState), next.store.keys[other]? = some state →
      (other = slot ∧ state = PairKeyState.new key pair.peerId pair.epoch) ∨
        (other ≠ slot ∧ run.store.keys[other]? = some state) := by
    intro other state get
    by_cases same : other = slot
    · subst same
      exact .inl ⟨rfl, Option.some.inj (get.symm.trans new)⟩
    · exact .inr ⟨same, others other state same get⟩
  have raised : ∀ peer, run.store.watermark peer ≤ next.store.watermark peer := by
    intro peer
    rw [installed.watermark]
    split
    · exact le_max_left _ _
    · exact le_refl _
  have reached : pair.epoch ≤ next.store.watermark pair.peerId := by
    rw [installed.watermark, if_pos rfl]
    exact le_max_right _ _
  -- No earlier use of the new key can exist: every key in the histories is known.
  have spent : ∀ {entry : Bytes × Bytes} {Spent : PairKeyState → Bytes → Prop},
      Known run entry.1 → (∀ (slot : Nat) (state : PairKeyState),
        run.store.keys[slot]? = some state → state.key = entry.1 → Spent state entry.2) →
      ∀ (slot : Nat) (state : PairKeyState), next.store.keys[slot]? = some state →
        state.key = entry.1 → Spent state entry.2 := by
    intro entry Spent knownEntry uses other state get same
    obtain ⟨_, rfl⟩ | ⟨_, get⟩ := old other state get
    · exact absurd knownEntry (same ▸ fresh)
    · exact uses other state get same
  refine {
    known := ?_
    used := ?_
    distinct := ?_
    pairEpoch := ?_
    candidateEpoch := ?_
    unwrapped := ?_
    candidates := ?_
    seals := ?_
    opens := ?_ }
  · intro other state get
    obtain ⟨_, rfl⟩ | ⟨_, get⟩ := old other state get
    · exact known
    · exact (live.known other state get).extends ext
  · intro other state get
    obtain ⟨rfl, _⟩ | ⟨_, get⟩ := old other state get
    · exact below
    · have := live.used other state get
      omega
  · intro a b stateA stateB getA getB same
    obtain ⟨rfl, rfl⟩ | ⟨_, getA⟩ := old a stateA getA <;>
      obtain ⟨rfl, rfl⟩ | ⟨_, getB⟩ := old b stateB getB
    · rfl
    · exact absurd (live.known b stateB getB) (same ▸ fresh)
    · exact absurd (live.known a stateA getA) (same ▸ fresh)
    · exact live.distinct a b stateA stateB getA getB same
  · intro peer other get
    rw [installed.pairs] at get
    cases candidate with
    | true => exact (live.pairEpoch peer other get).trans (raised peer)
    | false =>
      simp only [Bool.false_eq_true, ↓reduceIte, Map.get_insert] at get
      split at get
      · rename_i same
        subst same
        rw [← Option.some.inj get]
        exact reached
      · exact (live.pairEpoch peer other get).trans (raised peer)
  · intro peer other get
    obtain ⟨get, _⟩ | ⟨_, rfl, rfl⟩ := installed.candidates peer other get
    · exact (live.candidateEpoch peer other get).trans (raised peer)
    · exact reached
  · intro sender message mem
    obtain mem | ⟨rfl, rfl, epoch, initiator, addressed, received⟩ := unwrapped sender message mem
    · obtain ⟨addressed, received, before, get, order⟩ := live.unwrapped sender message mem
      refine ⟨addressed.congr installed.identity, ext.received _ received, ?_⟩
      rw [installed.pairs]
      cases candidate with
      | true => exact ⟨before, get, order⟩
      | false =>
        simp only [Bool.false_eq_true, ↓reduceIte, Map.get_insert]
        by_cases same : pair.peerId = sender
        · subst same
          have less := above rfl message mem
          exact ⟨pair, by simp, le_of_lt less, fun eq => absurd eq (ne_of_lt less)⟩
        · exact ⟨before, by simpa [same] using get, order⟩
    · refine ⟨addressed.congr installed.identity, received, pair, ?_, epoch.le,
        fun _ => initiator.le⟩
      rw [installed.pairs]
      simp
  · intro sender message mem
    obtain mem | ⟨rfl, rfl, epoch, initiator, addressed, received⟩ := candidates sender message mem
    · obtain ⟨addressed, received, low, order⟩ := live.candidates sender message mem
      refine ⟨addressed.congr installed.identity, ext.received _ received,
        low.trans (raised sender), fun other get same => ?_⟩
      obtain ⟨get, _⟩ | ⟨isCandidate, rfl, rfl⟩ := installed.candidates sender other get
      · exact order other get same
      · exact fits isCandidate message mem same
    · refine ⟨addressed.congr installed.identity, received, by rw [epoch]; exact reached,
        fun other get same => ?_⟩
      -- The candidate the new one has displaced is gone.
      obtain ⟨_, different⟩ | ⟨_, _, rfl⟩ := installed.candidates pair.peerId other get
      · exact absurd rfl (different rfl)
      · exact initiator.le
  · intro entry mem
    rw [seals] at mem
    exact ⟨(live.seals entry mem).1.extends ext,
      spent (live.seals entry mem).1 (live.seals entry mem).2⟩
  · intro entry mem
    rw [opens] at mem
    exact ⟨(live.opens entry mem).1.extends ext,
      spent (live.opens entry mem).1 (live.opens entry mem).2⟩

theorem Live.promoted {run : KeyRun} (live : Live run) {store : KeyStore} {peer : PeerId}
    {candidate : PersistedPair} (promoted : Promoted run.store store peer candidate) :
    Live { run with store := store } := by
  have ext : Extends run { run with store := store } :=
    ⟨promoted.identity, fun _ h => h, fun _ h => h, fun _ h => h, fun _ h => h⟩
  have watermark : ∀ peer, store.watermark peer = run.store.watermark peer := fun peer => by
    rw [KeyStore.watermark, KeyStore.watermark, promoted.watermarks]
  have remains : ∀ (other : PeerId) (pair : PersistedPair), store.candidates[other]? = some pair →
      run.store.candidates[other]? = some pair := by
    intro other pair get
    rw [promoted.candidates, Map.get_erase] at get
    split at get
    · cases get
    · exact get
  refine {
    known := ?_
    used := ?_
    distinct := ?_
    pairEpoch := ?_
    candidateEpoch := ?_
    unwrapped := ?_
    candidates := ?_
    seals := ?_
    opens := ?_ }
  · intro slot state get
    exact (live.known slot state (promoted.keys ▸ get)).extends ext
  · intro slot state get
    exact promoted.slots ▸ live.used slot state (promoted.keys ▸ get)
  · intro slot slot' state state' get get'
    exact live.distinct slot slot' state state' (promoted.keys ▸ get) (promoted.keys ▸ get')
  · intro other pair get
    rw [watermark]
    change store.pairs[other]? = some pair at get
    rw [promoted.pairs, Map.get_insert] at get
    split at get
    · rename_i same
      subst same
      rw [← Option.some.inj get]
      exact live.candidateEpoch peer candidate promoted.found
    · exact live.pairEpoch other pair get
  · intro other pair get
    rw [watermark]
    exact live.candidateEpoch other pair (remains other pair get)
  · intro sender message mem
    obtain ⟨addressed, received, before, get, below, order⟩ := live.unwrapped sender message mem
    refine ⟨addressed.congr promoted.identity, received, ?_⟩
    change ∃ pair, store.pairs[sender]? = some pair ∧ _
    rw [promoted.pairs, Map.get_insert]
    by_cases same : peer = sender
    · subst same
      have newer := promoted.newer before get
      exact ⟨candidate, by simp, by omega, fun eq => by omega⟩
    · exact ⟨before, by simpa [same] using get, below, order⟩
  · intro sender message mem
    obtain ⟨addressed, received, below, order⟩ := live.candidates sender message mem
    refine ⟨addressed.congr promoted.identity, received, ?_, fun pair get => ?_⟩
    · rw [watermark]
      exact below
    · exact order pair (remains sender pair get)
  · intro entry mem
    exact ⟨(live.seals entry mem).1.extends ext, fun slot state get =>
      (live.seals entry mem).2 slot state (promoted.keys ▸ get)⟩
  · intro entry mem
    exact ⟨(live.opens entry mem).1.extends ext, fun slot state get =>
      (live.opens entry mem).2 slot state (promoted.keys ▸ get)⟩

theorem Live.slot {run : KeyRun} (live : Live run) {store : KeyStore} {slot : Nat}
    {before after : PairKeyState} (update : SlotUpdate run.store store slot before after)
    (step : SlotStep before after) {seals opens : List (Bytes × Bytes)}
    (sealed : ∀ entry ∈ seals, entry ∈ run.seals ∨
      (entry.1 = before.key ∧ SpentSend after entry.2))
    (opened : ∀ entry ∈ opens, entry ∈ run.opens ∨
      (entry.1 = before.key ∧ SpentReceive after entry.2)) :
    Live { run with store := store, seals := seals, opens := opens } := by
  obtain ⟨found, rfl⟩ := update
  have ext : Extends run { run with
      store := { run.store with keys := run.store.keys.insert slot after }
      seals := seals
      opens := opens } :=
    ⟨rfl, fun _ h => h, fun _ h => h, fun _ h => h, fun _ h => h⟩
  have old : ∀ (other : Nat) (state : PairKeyState),
      (run.store.keys.insert slot after)[other]? = some state →
      (other = slot ∧ state = after) ∨ (other ≠ slot ∧ run.store.keys[other]? = some state) := by
    intro other state get
    rw [Map.get_insert] at get
    split at get
    · rename_i same
      exact .inl ⟨same.symm, (Option.some.inj get).symm⟩
    · rename_i different
      exact .inr ⟨Ne.symm different, get⟩
  -- A new entry is under the key of the slot in use, which no other slot holds.
  have spent : ∀ {Spent : PairKeyState → Bytes → Prop} {entry : Bytes × Bytes},
      (Spent before entry.2 → Spent after entry.2) →
      ((Known run entry.1 ∧ ∀ (other : Nat) (state : PairKeyState),
          run.store.keys[other]? = some state → state.key = entry.1 → Spent state entry.2) ∨
        (entry.1 = before.key ∧ Spent after entry.2)) →
      Known run entry.1 ∧ ∀ (other : Nat) (state : PairKeyState),
        (run.store.keys.insert slot after)[other]? = some state → state.key = entry.1 →
        Spent state entry.2 := by
    intro Spent entry later uses
    obtain ⟨known, uses⟩ | ⟨isKey, now⟩ := uses
    · refine ⟨known, fun other state get same => ?_⟩
      obtain ⟨_, rfl⟩ | ⟨_, get⟩ := old other state get
      · exact later (uses slot before found (step.key.symm.trans same))
      · exact uses other state get same
    · refine ⟨isKey ▸ live.known slot before found, fun other state get same => ?_⟩
      obtain ⟨_, rfl⟩ | ⟨different, get⟩ := old other state get
      · exact now
      · exact absurd (live.distinct other slot state before get found (same.trans isKey)) different
  refine {
    known := ?_
    used := ?_
    distinct := ?_
    pairEpoch := live.pairEpoch
    candidateEpoch := live.candidateEpoch
    unwrapped := live.unwrapped
    candidates := live.candidates
    seals := ?_
    opens := ?_ }
  · intro other state get
    obtain ⟨_, rfl⟩ | ⟨_, get⟩ := old other state get
    · exact (step.key ▸ live.known slot before found).extends ext
    · exact (live.known other state get).extends ext
  · intro other state get
    obtain ⟨rfl, _⟩ | ⟨_, get⟩ := old other state get
    · exact live.used other before found
    · exact live.used other state get
  · intro a b stateA stateB getA getB same
    obtain ⟨rfl, rfl⟩ | ⟨_, oldA⟩ := old a stateA getA <;>
      obtain ⟨rfl, rfl⟩ | ⟨_, oldB⟩ := old b stateB getB
    · rfl
    · exact live.distinct a b before stateB found oldB (step.key.symm.trans same)
    · exact live.distinct a b stateA before oldA found (same.trans step.key)
    · exact live.distinct a b stateA stateB oldA oldB same
  · intro entry mem
    obtain ⟨known, uses⟩ := spent (fun h => SpentSend.step step h)
      ((sealed entry mem).imp_left (live.seals entry))
    exact ⟨known.extends ext, uses⟩
  · intro entry mem
    obtain ⟨known, uses⟩ := spent (fun h => SpentReceive.step step h)
      ((opened entry mem).imp_left (live.opens entry))
    exact ⟨known.extends ext, uses⟩

private theorem received_of_accepted {run : KeyRun} (live : Live run) {sender : PeerId}
    {message : WrapMessage}
    (h : (sender, message) ∈ run.unwrapped ∨ (sender, message) ∈ run.candidates) :
    message ∈ run.received :=
  h.elim (fun mem => (live.unwrapped sender message mem).2.1)
    (fun mem => (live.candidates sender message mem).2.1)

theorem Live.created {run : KeyRun} (live : Live run) {α : Type} {env : KeyEnv} {candidate : Bool}
    {peer : PeerId} {result : Result α} {store : KeyStore}
    (outcome : CreateOutcome env run.store candidate peer result store)
    (fresh : FreshKey run env) :
    Live { run with store := store, generated := env.pairKey.toList ++ run.generated } := by
  have ext : store.identity = run.store.identity → Extends run { run with
      store := store
      generated := env.pairKey.toList ++ run.generated } := fun identity =>
    ⟨identity, fun key h => by simp [h], fun _ h => h, fun _ h => h, fun _ h => h⟩
  obtain ⟨quiet, _⟩ | ⟨key, message, isKey, epoch, ⟨quiet, _⟩ | ⟨installed, _⟩⟩ := outcome
  · exact live.quiet quiet (ext quiet.identity) rfl rfl (fun _ _ => .inl)
      fun _ _ => .inl
  · exact live.quiet quiet (ext quiet.identity) rfl rfl (fun _ _ => .inl)
      fun _ _ => .inl
  · obtain ⟨unseen, unreceived⟩ := fresh key isKey
    refine live.installed installed (ext installed.identity) rfl rfl ?_ ?_ ?_ ?_
      (fun _ _ => .inl) fun _ _ => .inl
    · rintro (generated | ⟨sender, other, accepted, carries⟩)
      · exact unseen generated
      · exact unreceived other (received_of_accepted live accepted) carries
    · exact .inl (by simp [isKey])
    · intro _ other mem
      obtain ⟨_, _, pair, get, below, _⟩ := live.unwrapped peer other mem
      have := live.pairEpoch peer pair get
      dsimp only
      omega
    · intro _ other mem same
      have := (live.candidates peer other mem).2.2.1
      dsimp only at same
      omega

private theorem unknown_of_standing {run : KeyRun} (live : Live run) {candidate : Bool}
    {sender : PeerId} {message : WrapMessage} {key : Bytes}
    (carries : openWrap run.store message = .ok key) (genuine : GenuineWrap run message)
    (onePath : ∀ other, (other, message) ∉ if candidate then run.unwrapped else run.candidates)
    (addressed : Addressed run.store sender message)
    (standing : Standing run.store candidate sender message) : ¬ Known run key := by
  obtain ⟨unseen, only⟩ := genuine key carries
  rintro (generated | ⟨other, same, accepted, carries'⟩)
  · exact unseen generated
  obtain rfl := only same (received_of_accepted live accepted) carries'
  cases candidate with
  | true =>
    obtain mem | mem := accepted
    · exact onePath other mem
    · obtain ⟨addressed', _, below, order⟩ := live.candidates other same mem
      obtain rfl := addressed.sender_eq addressed'
      obtain above | ⟨previous, get, epoch, wins⟩ := standing
      · omega
      · exact absurd (order previous get epoch.symm) (not_le.mpr wins)
  | false =>
    obtain mem | mem := accepted
    · obtain ⟨addressed', _, pair, get, below, order⟩ := live.unwrapped other same mem
      obtain rfl := addressed.sender_eq addressed'
      simp only [Standing, Bool.false_eq_true, ↓reduceIte, ConfirmedStanding, get] at standing
      obtain above | ⟨epoch, wins⟩ := standing
      · omega
      · exact absurd (order epoch) (not_le.mpr wins)
    · exact onePath other mem

private theorem above_of_standing {run : KeyRun} (live : Live run) {sender : PeerId}
    {message other : WrapMessage} (standing : ConfirmedStanding run.store sender message)
    (mem : (sender, other) ∈ run.unwrapped) : other.epoch < message.epoch := by
  obtain ⟨_, _, pair, get, below, order⟩ := live.unwrapped sender other mem
  simp only [ConfirmedStanding, get] at standing
  obtain above | ⟨epoch, wins⟩ := standing
  · omega
  · by_cases same : other.epoch = pair.epoch
    · exact absurd (order same) (not_le.mpr wins)
    · omega

/-- The run after a received wrap has been handed to one of the two paths. -/
def afterUnwrap (run : KeyRun) (candidate : Bool) (sender : PeerId) (message : WrapMessage)
    (outcome : Result PairSession × KeyStore) : KeyRun :=
  { run with
    store := outcome.2
    received := message :: run.received
    unwrapped := if candidate then run.unwrapped
      else note outcome.1 (sender, message) run.unwrapped
    candidates := if candidate then note outcome.1 (sender, message) run.candidates
      else run.candidates }

omit [Primitives] in
theorem note_error {α β : Type} (error : Error) (entry : β) (history : List β) :
    note (.error error : Result α) entry history = history := rfl

omit [Primitives] in
theorem mem_note {α β : Type} {result : Result α} {entry other : β} {history : List β} :
    other ∈ note result entry history ↔ other ∈ history ∨ (result.isOk = true ∧ other = entry) := by
  unfold note
  split <;> rename_i ok <;> simp [ok, or_comm]

theorem Live.received {run : KeyRun} (live : Live run) {candidate : Bool} {sender : PeerId}
    {message : WrapMessage} {outcome : Result PairSession × KeyStore}
    (h : UnwrapOutcome run.store candidate sender message outcome.1 outcome.2)
    (genuine : GenuineWrap run message)
    (onePath : ∀ other, (other, message) ∉ if candidate then run.unwrapped else run.candidates)
    (alive : outcome.2.failed = false) :
    Live (afterUnwrap run candidate sender message outcome) := by
  have ext : outcome.2.identity = run.store.identity →
      Extends run (afterUnwrap run candidate sender message outcome) := fun identity => by
    refine ⟨identity, fun _ h => h, fun _ h => List.mem_cons_of_mem _ h, fun _ mem => ?_,
      fun _ mem => ?_⟩ <;> cases candidate <;> simp [afterUnwrap, mem_note, mem]
  have here : message ∈ (afterUnwrap run candidate sender message outcome).received :=
    List.mem_cons_self
  -- Which entries are new, in either history.
  have unwrapped : ∀ other wrap,
      (other, wrap) ∈ (afterUnwrap run candidate sender message outcome).unwrapped →
      (other, wrap) ∈ run.unwrapped ∨ (candidate = false ∧ outcome.1.isOk = true ∧
        other = sender ∧ wrap = message) := by
    intro other wrap mem
    cases candidate with
    | true => exact .inl mem
    | false =>
      obtain mem | ⟨ok, same⟩ := mem_note.mp mem
      · exact .inl mem
      · exact .inr ⟨rfl, ok, (Prod.mk.inj same).1, (Prod.mk.inj same).2⟩
  have candidates : ∀ other wrap,
      (other, wrap) ∈ (afterUnwrap run candidate sender message outcome).candidates →
      (other, wrap) ∈ run.candidates ∨ (candidate = true ∧ outcome.1.isOk = true ∧
        other = sender ∧ wrap = message) := by
    intro other wrap mem
    cases candidate with
    | false => exact .inl mem
    | true =>
      obtain mem | ⟨ok, same⟩ := mem_note.mp mem
      · exact .inl mem
      · exact .inr ⟨rfl, ok, (Prod.mk.inj same).1, (Prod.mk.inj same).2⟩
  have refused : Quiet run.store outcome.2 → (∃ error, outcome.1 = .error error) →
      Live (afterUnwrap run candidate sender message outcome) := by
    rintro quiet ⟨error, isError⟩
    refine live.quiet quiet (ext quiet.identity) rfl rfl
      (fun other wrap mem => (unwrapped other wrap mem).imp_right ?_)
      (fun other wrap mem => (candidates other wrap mem).imp_right ?_) <;>
    · rintro ⟨_, ok, _⟩
      simp [isError, Except.isOk, Except.toBool] at ok
  obtain ⟨quiet, error⟩ | ⟨same, cached, addressed⟩ | ⟨key, carries, standing, min, max,
    ⟨quiet, error⟩ | ⟨installed, ⟨session, ok⟩ | failed⟩⟩ := h
  · exact refused quiet error
  · have quiet : Quiet run.store outcome.2 := same ▸ .refl run.store
    refine live.quiet quiet (ext quiet.identity) rfl rfl
      (fun other wrap mem => (unwrapped other wrap mem).imp_right ?_)
      (fun other wrap mem => (candidates other wrap mem).imp_right ?_) <;>
    · rintro ⟨rfl, _, rfl, rfl⟩
      exact ⟨cached, addressed, here⟩
  · exact refused quiet error
  · have addressed : Addressed run.store sender message := ⟨min, max⟩
    refine live.installed installed (ext installed.identity) rfl rfl
      (unknown_of_standing live carries genuine onePath addressed standing) ?_ ?_ ?_
      (fun other wrap mem => (unwrapped other wrap mem).imp_right ?_)
      (fun other wrap mem => (candidates other wrap mem).imp_right ?_)
    · refine .inr ⟨sender, message, ?_, (openWrap_congr installed.identity message).trans carries⟩
      cases candidate <;> simp [afterUnwrap, mem_note, ok, Except.isOk, Except.toBool]
    · rintro rfl other mem
      exact above_of_standing live standing mem
    · exact fun _ _ _ _ => le_refl _
    · rintro ⟨isConfirmed, _, rfl, rfl⟩
      exact ⟨isConfirmed, rfl, rfl, rfl, addressed, here⟩
    · rintro ⟨isCandidate, _, rfl, rfl⟩
      exact ⟨isCandidate, rfl, rfl, rfl, addressed, here⟩
  · rw [alive] at failed
    cases failed

omit [Primitives] in
private theorem ensures_failed {α β : Type} {s : KeyStore} {q : KeyStore → Result β}
    (refuses : ∃ error, q s = .error error) {f : β → Action Error KeyStore α} :
    Action.Ensures (Action.query q >>= f) s fun result t =>
      t = s ∧ ∃ error, result = .error error := by
  obtain ⟨error, refused⟩ := refuses
  refine .query (fun e _ => ⟨rfl, e, rfl⟩) fun _ answered => ?_
  rw [refused] at answered
  cases answered

private theorem exec_failed {run : KeyRun} (failed : run.store.failed = true) (op : KeyOp) :
    (exec op run).store = run.store ∧ (exec op run).seals = run.seals ∧
      (exec op run).opens = run.opens := by
  have locked : ∃ error, lock run.store = .error error := by simp [lock, failed, ensure]
  have hidden : ∃ error, KeyStore.peerId run.store = .error error := by
    obtain ⟨error, isError⟩ := locked
    exact ⟨error, by simp [KeyStore.peerId, isError, bind, Except.bind]⟩
  cases op with
  | create env peer ek epoch =>
    exact ⟨(ensures_failed locked : Action.Ensures (createInner env peer ek epoch false) _ _).1,
      rfl, rfl⟩
  | createCandidate env peer ek epoch =>
    exact ⟨(ensures_failed locked : Action.Ensures (createInner env peer ek epoch true) _ _).1,
      rfl, rfl⟩
  | unwrap env sender message =>
    exact ⟨(ensures_failed locked : Action.Ensures (unwrapInner env sender message false) _ _).1,
      rfl, rfl⟩
  | unwrapCandidate env sender message =>
    exact ⟨(ensures_failed locked : Action.Ensures (unwrapInner env sender message true) _ _).1,
      rfl, rfl⟩
  | discardCandidate env peer =>
    exact ⟨(ensures_failed locked : Action.Ensures (KeyStore.discardCandidate env peer) _ _).1,
      rfl, rfl⟩
  | promoteCandidate env peer epoch =>
    exact ⟨(ensures_failed locked :
      Action.Ensures (KeyStore.promoteCandidate env peer epoch) _ _).1, rfl, rfl⟩
  | retryCollision env peer =>
    exact ⟨(ensures_failed locked : Action.Ensures (KeyStore.retryCollision env peer) _ _).1,
      rfl, rfl⟩
  | retryCandidateCollision discard env peer =>
    exact ⟨(ensures_failed locked :
      Action.Ensures (KeyStore.retryCandidateCollision discard env peer) _ _).1, rfl, rfl⟩
  | retire env handle =>
    exact ⟨(ensures_failed locked : Action.Ensures (KeyStore.retire env handle) _ _).1, rfl, rfl⟩
  | aeadSeal handle nonce aad plaintext =>
    have refused : (aeadSeal handle nonce aad plaintext run.store).2 = run.store ∧
        ∃ error, (aeadSeal handle nonce aad plaintext run.store).1 = .error error :=
      ensures_failed hidden
    obtain ⟨same, error, isError⟩ := refused
    refine ⟨same, ?_, rfl⟩
    simp only [exec, isError, note_error]
  | aeadOpen handle nonce aad ciphertext =>
    have refused : (aeadOpen handle nonce aad ciphertext run.store).2 = run.store ∧
        ∃ error, (aeadOpen handle nonce aad ciphertext run.store).1 = .error error :=
      ensures_failed hidden
    obtain ⟨same, error, isError⟩ := refused
    refine ⟨same, rfl, ?_⟩
    simp only [exec, isError, note_error]

omit [Primitives] in
private theorem nodup_note {α : Type} {history : List (Bytes × Bytes)} (nodup : history.Nodup)
    {result : Result α} {entry : Bytes × Bytes} (new : result.isOk = true → entry ∉ history) :
    (note result entry history).Nodup := by
  unfold note
  split
  · rename_i ok
    exact List.nodup_cons.mpr ⟨new ok, nodup⟩
  · exact nodup

theorem Inv.sealed {run : KeyRun} (inv : Inv run) (live : Live run) (handle : PairKeyHandle)
    (nonce aad plaintext : Bytes) : Inv (exec (.aeadSeal handle nonce aad plaintext) run) := by
  have h := aeadSeal_outcome handle nonce aad plaintext run.store
  unfold Action.Ensures at h
  simp only [exec]
  generalize aeadSeal handle nonce aad plaintext run.store = outcome at h ⊢
  obtain ⟨same, error, isError⟩ | ⟨before, after, update, step, spent⟩ := h
  · have unchanged : note outcome.1 (slotKey run.store handle, nonce) run.seals = run.seals := by
      rw [isError, note_error]
    rw [unchanged, same]
    exact inv
  have key : slotKey run.store handle = before.key := by simp [slotKey, update.found]
  have ok : outcome.1.isOk = true → ¬ SpentSend before nonce ∧ SpentSend after nonce := by
    obtain ⟨error, isError⟩ | spent := spent
    · simp [isError, Except.isOk, Except.toBool]
    · exact fun _ => spent
  refine ⟨⟨nodup_note inv.noReuse.1 fun isOk mem => ?_, inv.noReuse.2⟩, fun _ => ?_⟩
  · exact (ok isOk).1 ((live.seals _ mem).2 handle.slot before update.found key.symm)
  · refine live.slot update step (fun entry mem => ?_) fun entry mem => .inl mem
    obtain mem | ⟨isOk, rfl⟩ := mem_note.mp mem
    · exact .inl mem
    · exact .inr ⟨key, (ok isOk).2⟩

theorem Inv.opened {run : KeyRun} (inv : Inv run) (live : Live run) (handle : PairKeyHandle)
    (nonce aad ciphertext : Bytes) : Inv (exec (.aeadOpen handle nonce aad ciphertext) run) := by
  have h := aeadOpen_outcome handle nonce aad ciphertext run.store
  unfold Action.Ensures at h
  simp only [exec]
  generalize aeadOpen handle nonce aad ciphertext run.store = outcome at h ⊢
  obtain ⟨same, error, isError⟩ | ⟨before, after, update, step, spent⟩ := h
  · have unchanged : note outcome.1 (slotKey run.store handle, nonce) run.opens = run.opens := by
      rw [isError, note_error]
    rw [unchanged, same]
    exact inv
  have key : slotKey run.store handle = before.key := by simp [slotKey, update.found]
  have ok : outcome.1.isOk = true → ¬ SpentReceive before nonce ∧ SpentReceive after nonce := by
    obtain ⟨error, isError⟩ | spent := spent
    · simp [isError, Except.isOk, Except.toBool]
    · exact fun _ => spent
  refine ⟨⟨inv.noReuse.1, nodup_note inv.noReuse.2 fun isOk mem => ?_⟩, fun _ => ?_⟩
  · exact (ok isOk).1 ((live.opens _ mem).2 handle.slot before update.found key.symm)
  · refine live.slot update step (fun entry mem => .inl mem) fun entry mem => ?_
    obtain mem | ⟨isOk, rfl⟩ := mem_note.mp mem
    · exact .inl mem
    · exact .inr ⟨key, (ok isOk).2⟩

theorem exec_inv (run : KeyRun) (op : KeyOp) (inv : Inv run)
    (assumed : DistinctKeys run op ∧ OnePath run op) : Inv (exec op run) := by
  obtain ⟨distinct, onePath⟩ := assumed
  by_cases failed : run.store.failed = true
  · obtain ⟨store, seals, opens⟩ := exec_failed failed op
    refine ⟨by rw [NoReuse, seals, opens]; exact inv.noReuse, fun alive => ?_⟩
    rw [store, failed] at alive
    cases alive
  have live : Live run := inv.live (by simpa using failed)
  have quiet : ∀ {store : KeyStore}, Quiet run.store store → Live { run with store := store } :=
    fun quiet => live.quiet quiet ⟨quiet.identity, fun _ h => h, fun _ h => h, fun _ h => h,
      fun _ h => h⟩ rfl rfl (fun _ _ => .inl) fun _ _ => .inl
  cases op with
  | create env peer ek epoch =>
    exact ⟨inv.noReuse, fun _ =>
      live.created (createInner_outcome env peer ek epoch false run.store) distinct⟩
  | createCandidate env peer ek epoch =>
    exact ⟨inv.noReuse, fun _ =>
      live.created (createInner_outcome env peer ek epoch true run.store) distinct⟩
  | retryCollision env peer =>
    exact ⟨inv.noReuse, fun _ =>
      live.created (retryCollision_outcome env peer run.store) distinct⟩
  | retryCandidateCollision discard env peer =>
    exact ⟨inv.noReuse, fun _ =>
      live.created (retryCandidateCollision_outcome discard env peer run.store) distinct⟩
  | unwrap env sender message =>
    exact ⟨inv.noReuse, fun alive => live.received
      (unwrapInner_outcome env sender message false run.store) distinct onePath alive⟩
  | unwrapCandidate env sender message =>
    exact ⟨inv.noReuse, fun alive => live.received
      (unwrapInner_outcome env sender message true run.store) distinct onePath alive⟩
  | discardCandidate env peer =>
    exact ⟨inv.noReuse, fun _ => quiet (discardCandidate_quiet env peer run.store)⟩
  | promoteCandidate env peer epoch =>
    refine ⟨inv.noReuse, fun _ => ?_⟩
    obtain same | ⟨candidate, promoted⟩ := promoteCandidate_outcome env peer epoch run.store
    · exact quiet (by rw [same]; exact .refl run.store)
    · exact live.promoted promoted
  | retire env handle =>
    exact ⟨inv.noReuse, fun _ => quiet (retire_quiet env handle run.store)⟩
  | aeadSeal handle nonce aad plaintext => exact inv.sealed live handle nonce aad plaintext
  | aeadOpen handle nonce aad ciphertext => exact inv.opened live handle nonce aad ciphertext

/-- As long as no wrap that one of the two unwrapping paths accepted is handed to the other,
no key meets a nonce twice. -/
theorem no_nonce_reuse (run : KeyRun) (ops : List KeyOp) (opened : Opened run)
    (along : machine.Along (fun run op => DistinctKeys run op ∧ OnePath run op) ops run) :
    machine.Throughout NoReuse ops run :=
  (machine.throughout_of_step exec_inv ops run opened.inv along).mono fun _ inv => inv.noReuse

end

section

/-- The smaller identity initiates the first contact. -/
def alice : LocalIdentity :=
  letI := Primitives.plain
  (LocalIdentity.new [1] [2] 0).toOption.get (by decide +kernel)

def bob : LocalIdentity :=
  letI := Primitives.plain
  (LocalIdentity.new [3] [4] 0).toOption.get (by decide +kernel)

def knowing (identity peer : LocalIdentity) : KeyStore :=
  { KeyStore.opened identity 0 with
    peers := (∅ : Map PeerId IdentityDocument).insert peer.document.peerId peer.document }

/-- A file write succeeds, and a generated key repeats one byte. -/
def keyEnv (byte : UInt8) : KeyEnv := ⟨some (List.replicate 32 byte), some [byte], true, true⟩

/-- The store of Alice after `n` wraps for Bob. -/
def aliceStore : Nat → KeyStore
  | 0 => knowing alice bob
  | n + 1 =>
    letI := Primitives.plain
    (KeyStore.create (keyEnv (UInt8.ofNat n)) bob.document.peerId bob.document.ek (n + 1)
      (aliceStore n)).2

def firstWrap : WrapMessage :=
  ((aliceStore 1).pairs[bob.document.peerId]?.get (by decide +kernel)).wrap

def secondWrap : WrapMessage :=
  ((aliceStore 2).pairs[bob.document.peerId]?.get (by decide +kernel)).wrap

/-- Bob has seen nothing yet. -/
def bobRun : KeyRun := ⟨knowing bob alice, [], [], [], [], [], []⟩

/-- Bob seals his first packet to Alice under a slot. -/
def sealFirst (slot epoch : Nat) : KeyOp :=
  let header : PacketHeader :=
    ⟨protocolVersion, bob.document.peerId, alice.document.peerId, epoch, 1⟩
  .aeadSeal ⟨slot, 0⟩ (nonce header .packet) (packetAad header) []

theorem bobRun_opened : Opened bobRun := by
  refine ⟨rfl, rfl, fun peer pair get => ?_, rfl, rfl, rfl, rfl⟩
  simp [bobRun, knowing, KeyStore.opened] at get

def acceptFirst : KeyOp := .unwrap (keyEnv 0) alice.document.peerId firstWrap

/-- A wrap that arrives again finds its slot with the counters it had. -/
theorem no_nonce_reuse_redelivered :
    letI := Primitives.plain
    let ops := [acceptFirst, sealFirst 0 1, acceptFirst, sealFirst 0 1,
      .unwrapCandidate (keyEnv 0) alice.document.peerId secondWrap, sealFirst 1 2]
    machine.Throughout NoReuse ops bobRun ∧ (machine.run ops bobRun).seals.length = 2 :=
  ⟨@no_nonce_reuse Primitives.plain bobRun _ bobRun_opened (by decide +kernel), by decide +kernel⟩

/-- A wrap of the next epoch is taken as a candidate first and by `unwrap` afterwards: its
key enters a second slot, whose counters start over. -/
theorem nonce_reused_across_paths :
    letI := Primitives.plain
    let ops := [acceptFirst,
      .unwrapCandidate (keyEnv 0) alice.document.peerId secondWrap, sealFirst 1 2,
      .unwrap (keyEnv 0) alice.document.peerId secondWrap, sealFirst 2 2]
    Opened bobRun ∧ machine.Along DistinctKeys ops bobRun ∧
      ¬ machine.Throughout NoReuse ops bobRun :=
  ⟨bobRun_opened, by decide +kernel, by decide +kernel⟩

end

end QuantumFs.Crypto.NonceReuse
