import QuantumFs.Crypto.Lifecycle

/-! The epochs of a pair over the life of a key store. The watermark of a peer is
written with every key that raises it, so what the state file holds never falls,
and every wrap of our own lies above all that came before. -/
namespace QuantumFs.Crypto

open Lib Encoding KeyStore

def highest (peer : PeerId) : List (PeerId × Nat) → Nat
  | [] => 0
  | (other, epoch) :: rest => if other = peer then max epoch (highest peer rest) else highest peer rest

theorem le_highest {peer : PeerId} {epoch : Nat} {table : List (PeerId × Nat)}
    (mem : (peer, epoch) ∈ table) : epoch ≤ highest peer table := by
  induction table with
  | nil => cases mem
  | cons entry rest ih =>
    obtain ⟨other, value⟩ := entry
    rw [highest]
    obtain same | later := List.mem_cons.mp mem
    · cases same
      rw [if_pos rfl]
      exact le_max_left _ _
    · have below := ih later
      split
      · exact below.trans (le_max_right _ _)
      · exact below

theorem highest_le {peer : PeerId} {bound : Nat} {table : List (PeerId × Nat)}
    (all : ∀ epoch, (peer, epoch) ∈ table → epoch ≤ bound) : highest peer table ≤ bound := by
  induction table with
  | nil => exact Nat.zero_le _
  | cons entry rest ih =>
    obtain ⟨other, value⟩ := entry
    have tail := ih fun epoch mem => all epoch (List.mem_cons_of_mem _ mem)
    rw [highest]
    split
    · rename_i same
      subst same
      exact max_le (all value List.mem_cons_self) tail
    · exact tail

namespace KeyStore

/-- The watermark in the state file. -/
def floor (store : KeyStore) (peer : PeerId) : Nat :=
  match store.disk with
  | none => 0
  | some persisted => highest peer persisted.epochWatermarks

theorem highest_snapshot (store : KeyStore) (peer : PeerId) :
    highest peer store.snapshot.epochWatermarks = store.watermark peer := by
  apply le_antisymm
  · apply highest_le
    intro epoch mem
    have found : store.epochWatermarks[peer]? = some epoch := Map.mem_toList.mp mem
    rw [watermark, found]
    exact le_refl epoch
  · unfold watermark
    cases found : store.epochWatermarks[peer]? with
    | none => exact Nat.zero_le _
    | some epoch =>
      have mem : (peer, epoch) ∈ store.snapshot.epochWatermarks := Map.mem_toList.mpr found
      exact le_highest mem

theorem floor_written_true (store : KeyStore) (peer : PeerId) :
    (written true store).floor peer = store.watermark peer := by
  rw [floor, written_disk, if_pos rfl]
  exact highest_snapshot store peer

theorem floor_congr {s t : KeyStore} (disk : t.disk = s.disk) (peer : PeerId) :
    t.floor peer = s.floor peer := by
  rw [floor, floor, disk]

/-- No pair, candidate or live key lies above the watermark of its peer. -/
structure Entries (s : KeyStore) : Prop where
  pair : ∀ (peer : PeerId) (pair : PersistedPair), s.pairs[peer]? = some pair →
    pair.epoch ≤ s.watermark peer
  candidate : ∀ (peer : PeerId) (pair : PersistedPair), s.candidates[peer]? = some pair →
    pair.epoch ≤ s.watermark peer
  key : ∀ (slot : Nat) (state : PairKeyState), s.keys[slot]? = some state →
    state.epoch ≤ s.watermark state.peerId

theorem Entries.mono {s t : KeyStore} (entries : Entries s)
    (grows : ∀ peer, s.watermark peer ≤ t.watermark peer)
    (pairs : ∀ (peer : PeerId) (pair : PersistedPair), t.pairs[peer]? = some pair →
      s.pairs[peer]? = some pair)
    (candidates : ∀ (peer : PeerId) (pair : PersistedPair), t.candidates[peer]? = some pair →
      s.candidates[peer]? = some pair)
    (keys : ∀ (slot : Nat) (state : PairKeyState), t.keys[slot]? = some state →
      s.keys[slot]? = some state) : Entries t where
  pair := fun peer pair found => (entries.pair peer pair (pairs _ _ found)).trans (grows peer)
  candidate := fun peer pair found =>
    (entries.candidate peer pair (candidates _ _ found)).trans (grows peer)
  key := fun slot state found => (entries.key slot state (keys _ _ found)).trans (grows _)

theorem Entries.quiet {s t : KeyStore} (entries : Entries s) (quiet : Quiet s t) : Entries t :=
  entries.mono (fun peer => (quiet.watermark peer).ge) (fun _ _ found => quiet.pairs ▸ found)
    quiet.candidates quiet.keys

theorem enter_grows (s : KeyStore) (candidate : Bool) (pair : PersistedPair) (key : Bytes)
    (peer : PeerId) : s.watermark peer ≤ (s.enter candidate pair key).watermark peer := by
  rw [enter_watermark]
  split
  · exact le_max_left _ _
  · exact le_refl _

theorem enter_reaches (s : KeyStore) (candidate : Bool) (pair : PersistedPair) (key : Bytes) :
    pair.epoch ≤ (s.enter candidate pair key).watermark pair.peerId := by
  rw [enter_watermark, if_pos rfl]
  exact le_max_right _ _

theorem Entries.enter {s : KeyStore} (entries : Entries s) (candidate : Bool) (pair : PersistedPair)
    (key : Bytes) : Entries (s.enter candidate pair key) := by
  have grows := enter_grows s candidate pair key
  have reaches := enter_reaches s candidate pair key
  constructor
  · intro peer other found
    rw [enter_pairs] at found
    split at found
    · exact (entries.pair peer other found).trans (grows peer)
    · rw [Map.get_insert] at found
      split at found
      · rename_i same
        cases found
        exact same ▸ reaches
      · exact (entries.pair peer other found).trans (grows peer)
  · intro peer other found
    rw [enter_candidates] at found
    split at found
    · rw [Map.get_insert] at found
      split at found
      · rename_i same
        cases found
        exact same ▸ reaches
      · exact (entries.candidate peer other found).trans (grows peer)
    · exact (entries.candidate peer other found).trans (grows peer)
  · intro slot state found
    obtain ⟨-, rfl⟩ | ⟨-, old, -⟩ := enter_keys_cases s candidate pair key found
    · exact reaches
    · exact (entries.key slot state old).trans (grows _)

structure Bounded (s : KeyStore) : Prop where
  entries : Entries s
  floor : ∀ peer, s.floor peer ≤ s.watermark peer

def Clean (s : KeyStore) : Prop := ∀ peer, s.watermark peer ≤ s.floor peer

structure Advances (s t : KeyStore) : Prop where
  identity : t.identity = s.identity
  watermark : ∀ peer, s.watermark peer ≤ t.watermark peer
  bounded : Bounded s → Bounded t
  floor : Bounded s → ∀ peer, s.floor peer ≤ t.floor peer
  alive : t.failed = false → s.failed = false
  clean : t.failed = false → Clean s → Clean t

theorem Advances.refl (s : KeyStore) : Advances s s :=
  ⟨rfl, fun _ => le_refl _, id, fun _ _ => le_refl _, id, fun _ => id⟩

theorem Advances.trans {s t u : KeyStore} (first : Advances s t) (second : Advances t u) :
    Advances s u where
  identity := second.identity.trans first.identity
  watermark := fun peer => (first.watermark peer).trans (second.watermark peer)
  bounded := fun bounded => second.bounded (first.bounded bounded)
  floor := fun bounded peer =>
    (first.floor bounded peer).trans (second.floor (first.bounded bounded) peer)
  alive := fun alive => first.alive (second.alive alive)
  clean := fun alive clean => second.clean alive (first.clean (second.alive alive) clean)

theorem Advances.unwritten {s t : KeyStore} (identity : t.identity = s.identity)
    (watermarks : t.epochWatermarks = s.epochWatermarks)
    (entries : Entries s → Entries t) (disk : t.disk = s.disk) (failed : t.failed = s.failed) :
    Advances s t := by
  have same : ∀ peer, t.watermark peer = s.watermark peer := fun peer => by
    rw [KeyStore.watermark, KeyStore.watermark, watermarks]
  have kept : ∀ peer, t.floor peer = s.floor peer := floor_congr disk
  refine ⟨identity, fun peer => (same peer).ge, fun bounded => ⟨entries bounded.entries, ?_⟩,
    fun _ peer => (kept peer).ge, fun alive => failed ▸ alive, fun _ clean peer => ?_⟩
  · intro peer
    rw [same, kept]
    exact bounded.floor peer
  · rw [same, kept]
    exact clean peer

theorem Advances.written {s u : KeyStore} (ok : Bool) (alive : s.failed = false)
    (identity : u.identity = s.identity) (grows : ∀ peer, s.watermark peer ≤ u.watermark peer)
    (entries : Entries s → Entries u) (disk : u.disk = s.disk) :
    Advances s (KeyStore.written ok u) := by
  have floor : Bounded s → ∀ peer, s.floor peer ≤ (KeyStore.written ok u).floor peer ∧
      (KeyStore.written ok u).floor peer ≤ u.watermark peer := by
    intro bounded peer
    cases ok with
    | true =>
      rw [floor_written_true]
      exact ⟨(bounded.floor peer).trans (grows peer), le_refl _⟩
    | false =>
      have same : (KeyStore.written false u).floor peer = s.floor peer := floor_congr disk peer
      rw [same]
      exact ⟨le_refl _, (bounded.floor peer).trans (grows peer)⟩
  refine ⟨by rw [written_identity, identity], fun peer => ?_, fun bounded => ⟨?_, fun peer => ?_⟩,
    fun bounded peer => (floor bounded peer).1, fun _ => alive, fun living _ peer => ?_⟩
  · rw [written_watermark]
    exact grows peer
  · have entered := entries bounded.entries
    refine entered.mono (fun peer => (written_watermark ok u peer).ge) ?_ ?_ ?_
    · intro peer pair found
      rwa [written_pairs] at found
    · intro peer pair found
      rwa [written_candidates] at found
    · intro slot state found
      rwa [written_keys] at found
  · rw [written_watermark]
    exact (floor bounded peer).2
  · cases ok with
    | true => rw [floor_written_true, written_watermark]
    | false =>
      rw [written_failed] at living
      simp at living

theorem quiet_yielded (s : KeyStore) (sender : PeerId) (message : WrapMessage)
    (standing : WrapStanding) (candidate : Bool) :
    Quiet s (s.yielded sender message standing candidate) := by
  unfold yielded
  split
  · exact (quiet_recordRetry s sender candidate _).trans (quiet_replaceCandidate _ _ _ _)
  · exact quiet_replaceCandidate s sender standing candidate

theorem clearRetry_disk (s : KeyStore) (peer : PeerId) (candidate : Bool) :
    (s.clearRetry peer candidate).disk = s.disk ∧
      (s.clearRetry peer candidate).failed = s.failed := by
  cases candidate <;> exact ⟨rfl, rfl⟩

theorem replaceCandidate_disk (s : KeyStore) (sender : PeerId) (standing : WrapStanding)
    (candidate : Bool) : (s.replaceCandidate sender standing candidate).disk = s.disk ∧
      (s.replaceCandidate sender standing candidate).failed = s.failed := by
  unfold replaceCandidate
  split
  · cases s.candidates[sender]? <;> cases standing <;> exact ⟨rfl, rfl⟩
  · exact ⟨rfl, rfl⟩

theorem yielded_disk (s : KeyStore) (sender : PeerId) (message : WrapMessage)
    (standing : WrapStanding) (candidate : Bool) :
    (s.yielded sender message standing candidate).disk = s.disk ∧
      (s.yielded sender message standing candidate).failed = s.failed := by
  unfold yielded
  split
  · have replaced := replaceCandidate_disk (s.recordRetry sender candidate (message.epoch + 1)) sender
      standing candidate
    cases candidate <;> exact replaced
  · exact replaceCandidate_disk s sender standing candidate

variable [Primitives]

theorem Move.advances {s t : KeyStore} (move : Move s t) : Advances s t := by
  cases move with
  | refused => exact .refl s
  | cleared peer candidate =>
    have quiet := quiet_clearRetry s peer candidate
    have disk := clearRetry_disk s peer candidate
    exact .unwritten quiet.identity quiet.watermarks (fun entries => entries.quiet quiet) disk.1 disk.2
  | @created candidate pair key ok alive _ _ _ _ _ =>
    have quiet := quiet_clearRetry s pair.peerId candidate
    refine .written ok alive ?_ ?_ (fun entries => (entries.quiet quiet).enter candidate pair key) ?_
    · rw [enter_identity, quiet.identity]
    · intro peer
      rw [← quiet.watermark peer]
      exact enter_grows _ candidate pair key peer
    · rw [enter_disk, (clearRetry_disk s pair.peerId candidate).1]
  | @yielded candidate sender message standing _ _ _ =>
    have quiet := quiet_yielded s sender message standing candidate
    have disk := yielded_disk s sender message standing candidate
    exact .unwritten quiet.identity quiet.watermarks (fun entries => entries.quiet quiet) disk.1 disk.2
  | @unwrapped candidate sender message standing key ok alive _ =>
    have quiet := quiet_yielded s sender message standing candidate
    refine .written ok alive ?_ ?_ (fun entries => (entries.quiet quiet).enter candidate _ key) ?_
    · rw [enter_identity, quiet.identity]
    · intro peer
      rw [← quiet.watermark peer]
      exact enter_grows _ candidate _ key peer
    · rw [enter_disk, (yielded_disk s sender message standing candidate).1]
  | @promoted peer candidate ok alive found newer =>
    refine .written ok alive rfl (fun _ => le_refl _) (fun entries => ?_) rfl
    refine ⟨fun other pair get => ?_, fun other pair get => ?_, entries.key⟩
    · change (s.pairs.insert peer candidate)[other]? = some pair at get
      rw [Map.get_insert] at get
      split at get
      · rename_i same
        cases get
        exact same ▸ entries.candidate peer candidate found
      · exact entries.pair other pair get
    · change (s.candidates.erase peer)[other]? = some pair at get
      rw [Map.get_erase] at get
      split at get
      · cases get
      · exact entries.candidate other pair get
  | @discarded peer candidate ok alive found =>
    have quiet := (quiet_eraseCandidate s peer).trans (quiet_dropKeys _ peer candidate.epoch)
    refine .written ok alive rfl (fun _ => le_refl _) (fun entries => ?_) rfl
    exact entries.mono (fun _ => le_refl _) (fun _ _ get => get) quiet.candidates quiet.keys
  | retired slot ok alive =>
    refine .written ok alive rfl (fun _ => le_refl _) (fun entries => ?_) rfl
    refine entries.mono (fun _ => le_refl _) (fun _ _ get => get) (fun _ _ get => get) ?_
    intro other state get
    change (s.keys.erase slot)[other]? = some state at get
    rw [Map.get_erase] at get
    split at get
    · cases get
    · exact get
  | forgotten peer ok alive =>
    refine .written ok alive rfl (fun _ => le_refl _) (fun entries => ?_) rfl
    refine entries.mono (fun _ => le_refl _) ?_ ?_ ?_
    · intro other pair get
      change (s.pairs.erase peer)[other]? = some pair at get
      rw [Map.get_erase] at get
      split at get
      · cases get
      · exact get
    · intro other pair get
      change (s.candidates.erase peer)[other]? = some pair at get
      rw [Map.get_erase] at get
      split at get
      · cases get
      · exact get
    · intro slot state get
      change (s.keys.filter fun _ state => state.peerId ≠ peer)[slot]? = some state at get
      rw [Map.get_filter] at get
      exact (Option.filter_eq_some_iff.mp get).1
  | @observed peer epoch ok alive known higher =>
    have grows : ∀ other, s.watermark other ≤
        (s.epochWatermarks.insert peer epoch)[other]?.getD 0 := by
      intro other
      rw [Map.get_insert]
      split
      · rename_i same
        subst same
        exact higher.le
      · exact le_refl _
    refine .written ok alive rfl grows (fun entries => ?_) rfl
    exact entries.mono grows (fun _ _ get => get) (fun _ _ get => get) fun _ _ get => get
  | imported document ok alive =>
    refine .written ok alive rfl (fun _ => le_refl _) (fun entries => ?_) rfl
    exact ⟨entries.pair, entries.candidate, entries.key⟩
  | @used slot before after found step =>
    refine .unwritten rfl rfl (fun entries => ⟨entries.pair, entries.candidate, ?_⟩) rfl rfl
    intro other state get
    change (s.keys.insert slot after)[other]? = some state at get
    change state.epoch ≤ s.watermark state.peerId
    rw [Map.get_insert] at get
    split at get
    · cases get
      rw [step.epoch, step.peerId]
      exact entries.key slot before found
    · exact entries.key other state get
  | poisoned =>
    refine ⟨rfl, fun _ => le_refl _, fun bounded => ?_, fun _ _ => le_refl _, nofun, nofun⟩
    exact ⟨⟨bounded.entries.pair, bounded.entries.candidate, bounded.entries.key⟩, bounded.floor⟩

/-- A step from one store to the next with the epochs of the wraps it made. -/
structure Makes (s t : KeyStore) (epochs : List (PeerId × Nat)) : Prop where
  advances : Advances s t
  alive : epochs ≠ [] → t.failed = false
  above : ∀ entry ∈ epochs, s.watermark entry.1 < entry.2
  reached : ∀ entry ∈ epochs, entry.2 ≤ t.watermark entry.1
  single : epochs.length ≤ 1

omit [Primitives] in
theorem Makes.nothing {s t : KeyStore} (advances : Advances s t) : Makes s t [] :=
  ⟨advances, fun absurd_nil => absurd rfl absurd_nil, nofun, nofun, Nat.zero_le _⟩

omit [Primitives] in
theorem Makes.after {s t u : KeyStore} {epochs : List (PeerId × Nat)} (first : Advances s t)
    (second : Makes t u epochs) : Makes s u epochs where
  advances := first.trans second.advances
  alive := second.alive
  above := fun entry mem => (first.watermark _).trans_lt (second.above entry mem)
  reached := second.reached
  single := second.single

theorem Creates.makes {env : KeyEnv} {s t : KeyStore} {candidate : Bool} {peer : PeerId}
    {result : Result (PairSession × WrapMessage)} (h : Creates env s candidate peer result t) :
    Makes s t (recorded peer result) := by
  have advances := h.move.advances
  cases result with
  | error e => exact .nothing advances
  | ok returned =>
    obtain ⟨session, returned⟩ := returned
    obtain ⟨-, _, impossible⟩ | ⟨key, message, -, alive, epoch, -, -, rfl, same⟩ := h
    · cases impossible
    · obtain ⟨saved, rfl⟩ := same session returned rfl
      refine ⟨advances, fun _ => ?_, ?_, ?_, le_refl _⟩
      · rw [written_failed, enter_failed, (clearRetry_disk s peer candidate).2, alive, saved]
        rfl
      · intro entry mem
        obtain rfl := List.mem_singleton.mp mem
        exact epoch ▸ Nat.lt_succ_self _
      · intro entry mem
        obtain rfl := List.mem_singleton.mp mem
        rw [written_watermark]
        exact enter_reaches _ candidate ⟨peer, returned.epoch, s.localId, returned⟩ key

theorem retryCandidateCollision_makes (discard env : KeyEnv) (peer : PeerId) (s : KeyStore) :
    Makes s (retryCandidateCollision discard env peer s).2
      (recorded peer (retryCandidateCollision discard env peer s).1) := by
  have discards := (discardCandidate_move discard peer s).advances
  obtain ⟨same, _, failed⟩ | ⟨same, _, failed⟩ | creates :=
    retryCandidateCollision_exact discard env peer s
  · rw [same, failed]
    exact .nothing (.refl s)
  · rw [same, failed]
    exact .nothing discards
  · exact .after discards creates.makes

theorem Imports.makes {env : KeyEnv} {s t : KeyStore} {document : IdentityDocument}
    {result : Result Unit} (imports : Imports env s document result t) :
    Makes s t (rewrapped document.peerId s t result) := by
  have stores : ∀ ok, s.failed = false → Advances s (written ok { s with
      peers := s.peers.insert document.peerId document }) :=
    fun ok alive => (Move.imported document ok alive).advances
  cases imports with
  | refused error => exact .nothing (.refl s)
  | stored _ alive =>
    have none : rewrapped document.peerId s (written env.persists { s with
        peers := s.peers.insert document.peerId document }) result = [] := by
      unfold rewrapped
      split
      · rw [written_pairs]
        split
        · rename_i pair found
          exact if_pos found
        · rfl
      · rfl
    rw [none]
    exact .nothing (stores _ alive)
  | @wrapped _ session message alive _ saved wrap =>
    have makes := wrap.makes.after (stores true alive)
    obtain ⟨-, _, impossible⟩ | ⟨key, other, -, -, -, -, -, rfl, same⟩ := wrap
    · cases impossible
    · obtain ⟨-, rfl⟩ := same session message rfl
      unfold rewrapped
      rw [written_pairs, enter_pairs, if_neg Bool.false_ne_true, Map.get_insert, if_pos rfl]
      dsimp only
      split
      · exact .nothing makes.advances
      · exact makes
  | @poisoned next error _ poison alive _ saved wrap =>
    have advances := (stores true alive).trans wrap.makes.advances
    cases poison with
    | false => exact .nothing advances
    | true => exact .nothing (advances.trans (Move.poisoned).advances)

theorem aeadSeal_move (handle : PairKeyHandle) (bytes aad plaintext : Bytes) (s : KeyStore) :
    Move s (aeadSeal handle bytes aad plaintext s).2 := by
  obtain ⟨same, -⟩ | ⟨before, after, ⟨found, same⟩, step, -⟩ :=
    aeadSeal_outcome handle bytes aad plaintext s
  · rw [same]
    exact .refused
  · rw [same]
    exact .used found step

theorem aeadOpen_move (handle : PairKeyHandle) (bytes aad ciphertext : Bytes) (s : KeyStore) :
    Move s (aeadOpen handle bytes aad ciphertext s).2 := by
  obtain ⟨same, -⟩ | ⟨before, after, ⟨found, same⟩, step, -⟩ :=
    aeadOpen_outcome handle bytes aad ciphertext s
  · rw [same]
    exact .refused
  · rw [same]
    exact .used found step

omit [Primitives] in
theorem restoreWatermarks_holds {entries : List (PeerId × Nat)} {table final : Map PeerId Nat}
    (fold : entries.foldlM restoreWatermark table = .ok final) :
    (∀ (peer : PeerId) (epoch : Nat), table[peer]? = some epoch → final[peer]? = some epoch) ∧
      ∀ entry ∈ entries, final[entry.1]? = some entry.2 := by
  induction entries generalizing table with
  | nil =>
    cases fold
    exact ⟨fun _ _ found => found, nofun⟩
  | cons entry entries ih =>
    rw [List.foldlM_cons] at fold
    obtain ⟨next, first, rest⟩ := Result.bind_eq_ok.mp fold
    obtain ⟨_, valid, inserted⟩ := Result.bind_eq_ok.mp first
    have vacant : table[entry.1]? = none := by
      by_contra occupied
      exact ensure_eq_ok.mp valid (.inr occupied)
    cases inserted
    obtain ⟨kept, all⟩ := ih rest
    constructor
    · intro peer epoch found
      apply kept
      rw [Map.get_insert]
      split
      · rename_i same
        rw [same, found] at vacant
        cases vacant
      · exact found
    · intro other mem
      obtain rfl | later := List.mem_cons.mp mem
      · apply kept
        rw [Map.get_insert, if_pos rfl]
      · exact all other later

/-- A store read from a state file whose watermarks are in a table. -/
structure Restored (table : Map PeerId Nat) (s : KeyStore) : Prop where
  alive : s.failed = false
  keys : s.keys = ∅
  candidates : s.candidates = ∅
  pair : ∀ (peer : PeerId) (pair : PersistedPair), s.pairs[peer]? = some pair →
    pair.epoch ≤ s.watermark peer
  watermark : ∀ peer : PeerId, table[peer]?.getD 0 ≤ s.watermark peer

omit [Primitives] in
theorem raiseWatermark_watermark (s : KeyStore) (peer other : PeerId) (epoch : Nat) :
    (s.raiseWatermark peer epoch).watermark other =
      if peer = other then max (s.watermark other) epoch else s.watermark other := by
  change (s.epochWatermarks.insert peer (max (s.watermark peer) epoch))[other]?.getD 0 = _
  rw [Map.get_insert]
  split
  · rename_i same
    subst same
    rfl
  · rfl

omit [Primitives] in
theorem raiseWatermark_grows (s : KeyStore) (peer other : PeerId) (epoch : Nat) :
    s.watermark other ≤ (s.raiseWatermark peer epoch).watermark other := by
  rw [raiseWatermark_watermark]
  split
  · exact le_max_left _ _
  · exact le_refl _

omit [Primitives] in
theorem Restored.raise {table : Map PeerId Nat} {s : KeyStore} (restored : Restored table s)
    (peer : PeerId) (epoch : Nat) : Restored table (s.raiseWatermark peer epoch) where
  alive := restored.alive
  keys := restored.keys
  candidates := restored.candidates
  pair := fun other pair found =>
    (restored.pair other pair found).trans (raiseWatermark_grows s peer other epoch)
  watermark := fun other => (restored.watermark other).trans (raiseWatermark_grows s peer other epoch)

theorem Restored.pairs {table : Map PeerId Nat} {s t : KeyStore} {pair : PersistedPair}
    (restored : Restored table s) (read : s.restorePair pair = .ok t) : Restored table t := by
  unfold restorePair at read
  obtain ⟨_, -, read⟩ := Result.bind_eq_ok.mp read
  obtain ⟨_, -, read⟩ := Result.bind_eq_ok.mp read
  cases read
  have raised := restored.raise pair.peerId pair.epoch
  refine ⟨raised.alive, raised.keys, raised.candidates, ?_, raised.watermark⟩
  intro peer other found
  change (s.pairs.insert pair.peerId pair)[peer]? = some other at found
  change other.epoch ≤ (s.raiseWatermark pair.peerId pair.epoch).watermark peer
  rw [Map.get_insert] at found
  split at found
  · rename_i same
    cases found
    rw [raiseWatermark_watermark, if_pos same]
    exact le_max_right _ _
  · exact raised.pair peer other found

theorem Restored.candidate {table : Map PeerId Nat} {s t : KeyStore × OrdSet PeerId}
    {candidate : PersistedPair} (restored : Restored table s.1)
    (read : restoreCandidate s candidate = .ok t) : Restored table t.1 := by
  unfold restoreCandidate at read
  obtain ⟨_, -, read⟩ := Result.bind_eq_ok.mp read
  cases read
  exact restored.raise candidate.peerId candidate.epoch

theorem restorePeer_eq {s t : KeyStore} {peer : IdentityDocument}
    (read : s.restorePeer peer = .ok t) :
    t = { s with peers := s.peers.insert peer.peerId peer } := by
  unfold restorePeer at read
  obtain ⟨_, -, read⟩ := Result.bind_eq_ok.mp read
  obtain ⟨_, -, read⟩ := Result.bind_eq_ok.mp read
  cases read
  rfl

theorem restore_restored {identity : LocalIdentity} {instanceId : Fin (2 ^ 256)}
    {persisted : PersistedState} {s : KeyStore}
    (read : restore identity instanceId persisted = .ok s) :
    ∃ table, Restored table s ∧
      ∀ peer : PeerId, highest peer persisted.epochWatermarks ≤ table[peer]?.getD 0 := by
  unfold restore at read
  obtain ⟨_, -, read⟩ := Result.bind_eq_ok.mp read
  obtain ⟨table, watermarks, read⟩ := Result.bind_eq_ok.mp read
  obtain ⟨known, peers, read⟩ := Result.bind_eq_ok.mp read
  obtain ⟨paired, pairs, read⟩ := Result.bind_eq_ok.mp read
  obtain ⟨_, -, read⟩ := Result.bind_eq_ok.mp read
  obtain ⟨last, candidates, read⟩ := Result.bind_eq_ok.mp read
  cases read
  refine ⟨table, ?_, fun peer => highest_le fun epoch mem => ?_⟩
  · have empty : Restored table { opened identity instanceId with
        nextSlot := persisted.nextSlot
        epochWatermarks := table } :=
      ⟨rfl, rfl, rfl, fun peer pair found => by simp [opened] at found, fun _ => le_refl _⟩
    have afterPeers : Restored table known := by
      refine Result.foldlM_preserves (fun s peer t restored read => ?_) empty peers
      rw [restorePeer_eq read]
      exact ⟨restored.alive, restored.keys, restored.candidates, restored.pair, restored.watermark⟩
    have afterPairs : Restored table paired :=
      Result.foldlM_preserves (fun _ _ _ restored read => restored.pairs read) afterPeers pairs
    exact Result.foldlM_preserves (I := fun state => Restored table state.1)
      (fun _ _ _ restored read => restored.candidate read) afterPairs candidates
  · have held := (restoreWatermarks_holds watermarks).2 _ mem
    rw [held]
    exact le_refl epoch

end KeyStore

structure EpochLaw (run : PairRun) : Prop where
  bounded : Bounded run.store
  clean : run.store.failed = false → Clean run.store
  /-- The wraps made so far lie at or below the state file. -/
  created : ∀ entry ∈ run.created, entry.2 ≤ run.store.floor entry.1
  increasing : run.created.Pairwise fun newer older => newer.1 = older.1 → older.2 < newer.2

/-- The law holds in the next state, whose state file holds no less. -/
structure Lawful (run next : PairRun) : Prop where
  law : EpochLaw next
  floor : ∀ peer, run.store.floor peer ≤ next.store.floor peer

theorem Lawful.trans {run next last : PairRun} (first : Lawful run next) (second : Lawful next last) :
    Lawful run last :=
  ⟨second.law, fun peer => (first.floor peer).trans (second.floor peer)⟩

theorem EpochLaw.makes {run : PairRun} {t : KeyStore} {epochs : List (PeerId × Nat)}
    (law : EpochLaw run) (makes : Makes run.store t epochs) :
    Lawful run { store := t, created := epochs ++ run.created } := by
  have advances := makes.advances
  have bounded := advances.bounded law.bounded
  have floor := advances.floor law.bounded
  have clean : t.failed = false → Clean t := fun alive =>
    advances.clean alive (law.clean (advances.alive alive))
  refine ⟨⟨bounded, clean, ?_, ?_⟩, floor⟩
  · intro entry mem
    obtain new | old := List.mem_append.mp mem
    · have alive := makes.alive (List.ne_nil_of_mem new)
      exact (makes.reached entry new).trans (clean alive entry.1)
    · exact (law.created entry old).trans (floor entry.1)
  · rw [List.pairwise_append]
    refine ⟨?_, law.increasing, fun new newMem old oldMem same => ?_⟩
    · have single := makes.single
      match epochs, single with
      | [], _ => exact .nil
      | [_], _ => exact List.pairwise_singleton _ _
    · have alive := advances.alive (makes.alive (List.ne_nil_of_mem newMem))
      calc old.2 ≤ run.store.floor old.1 := law.created old oldMem
        _ ≤ run.store.watermark old.1 := law.bounded.floor old.1
        _ = run.store.watermark new.1 := by rw [same]
        _ < new.2 := makes.above new newMem

section

variable [Primitives]

theorem perform_makes (run : PairRun) (op : PairOp) (living : ∀ env, op ≠ .reopen env) :
    ∃ epochs, (perform run op).created = epochs ++ run.created ∧
      Makes run.store (perform run op).store epochs := by
  cases op with
  | create env peer ek epoch =>
    exact ⟨_, rfl, (createInner_exact env peer ek epoch false run.store).makes⟩
  | createCandidate env peer ek epoch =>
    exact ⟨_, rfl, (createInner_exact env peer ek epoch true run.store).makes⟩
  | unwrap env sender message =>
    exact ⟨[], rfl, .nothing (unwrapInner_exact env sender message false run.store).move.advances⟩
  | unwrapCandidate env sender message =>
    exact ⟨[], rfl, .nothing (unwrapInner_exact env sender message true run.store).move.advances⟩
  | promoteCandidate env peer epoch =>
    exact ⟨[], rfl, .nothing (promoteCandidate_move env peer epoch run.store).advances⟩
  | discardCandidate env peer =>
    exact ⟨[], rfl, .nothing (discardCandidate_move env peer run.store).advances⟩
  | retryCollision env peer => exact ⟨_, rfl, (retryCollision_exact env peer run.store).makes⟩
  | retryCandidateCollision discard env peer =>
    exact ⟨_, rfl, retryCandidateCollision_makes discard env peer run.store⟩
  | retire env handle => exact ⟨[], rfl, .nothing (retire_move env handle run.store).advances⟩
  | discardPair env peer => exact ⟨[], rfl, .nothing (discardPair_move env peer run.store).advances⟩
  | importPeer env document =>
    exact ⟨_, rfl, (importPeer_exact env document run.store).makes⟩
  | observeRemoteEpoch env peer epoch =>
    exact ⟨[], rfl, .nothing (observeRemoteEpoch_move env peer epoch run.store).advances⟩
  | aeadSeal handle nonce aad plaintext =>
    exact ⟨[], rfl, .nothing (aeadSeal_move handle nonce aad plaintext run.store).advances⟩
  | aeadOpen handle nonce aad ciphertext =>
    exact ⟨[], rfl, .nothing (aeadOpen_move handle nonce aad ciphertext run.store).advances⟩
  | reopen env => exact absurd rfl (living env)

theorem EpochLaw.poison {run : PairRun} (law : EpochLaw run) : Lawful run run.poison := by
  have advances : Advances run.store { run.store with failed := true } := Move.poisoned.advances
  exact ⟨⟨advances.bounded law.bounded, nofun, law.created, law.increasing⟩, fun _ => le_refl _⟩

omit [Primitives] in
theorem EpochLaw.rewritten {run : PairRun} {base : KeyStore} (law : EpochLaw run) (ok : Bool)
    (alive : base.failed = false) (bounded : Bounded base)
    (floor : ∀ peer, run.store.floor peer ≤ base.floor peer) :
    Lawful run { run with store := written ok base } := by
  have advances : Advances base (written ok base) :=
    .written ok alive rfl (fun _ => le_refl _) id rfl
  have grows : ∀ peer, run.store.floor peer ≤ (written ok base).floor peer :=
    fun peer => (floor peer).trans (advances.floor bounded peer)
  refine ⟨⟨advances.bounded bounded, fun living peer => ?_, fun entry mem => ?_, law.increasing⟩, grows⟩
  · cases ok with
    | true => rw [floor_written_true, written_watermark]
    | false =>
      rw [written_failed] at living
      simp at living
  · exact (law.created entry mem).trans (grows entry.1)

theorem create_lawful (env : KeyEnv) (peer : PeerId) (ek : Bytes) (epoch : Nat) {run : PairRun}
    (law : EpochLaw run) :
    Action.Ensures (PairRun.create env peer ek epoch) run fun _ next => Lawful run next := by
  unfold PairRun.create PairRun.lift
  refine .zoom (createInner_exact env peer ek epoch false run.store) ?_ ?_
  · intro error t creates
    exact law.makes creates.makes
  · intro made t creates
    exact law.makes creates.makes

theorem prepareWraps_lawful (env : PeerId → KeyEnv) :
    ∀ (peers : List IdentityDocument) {run : PairRun}, EpochLaw run →
      Action.Ensures (prepareWraps env peers) run fun _ next => Lawful run next := by
  intro peers
  induction peers with
  | nil => exact fun law => ⟨law, fun _ => le_refl _⟩
  | cons peer rest ih =>
    intro run law
    unfold prepareWraps
    refine .query (fun _ _ => ⟨law, fun _ => le_refl _⟩) fun next _ => ?_
    refine .next (create_lawful (env peer.peerId) peer.peerId peer.ek next law) ?_ ?_
    · exact fun _ _ made => made
    · exact fun _ t made => (ih made.law).mono fun _ _ rest => made.trans rest

theorem openRestored_lawful (env : OpenEnv) {run : PairRun} {base : KeyStore} (law : EpochLaw run)
    (alive : base.failed = false) (bounded : Bounded base)
    (floor : ∀ peer, run.store.floor peer ≤ base.floor peer) :
    Action.Ensures (openRestored env) { run with store := base } fun _ next => Lawful run next := by
  have saved := law.rewritten env.persists alive bounded floor
  unfold openRestored PairRun.lift
  have persisted : Action.Ensures (persist env.persists) base
      fun _ t => t = written env.persists base := rfl
  refine .zoom persisted ?_ ?_
  · rintro error t rfl
    exact saved
  · rintro _ t rfl
    refine .get ?_
    exact (prepareWraps_lawful env.create _ saved.law).mono fun _ _ rest => saved.trans rest

omit [Primitives] in
/-- Whichever file the next process finds, it holds no less than the last one known
to be written, and no more than the store that may have written it. -/
theorem stateFile_between (env : OpenEnv) {s : KeyStore} (bounded : Bounded s) (peer : PeerId) :
    s.floor peer ≤ { s with disk := env.stateFile s }.floor peer ∧
      { s with disk := env.stateFile s }.floor peer ≤ s.watermark peer := by
  unfold OpenEnv.stateFile
  split
  · change s.floor peer ≤ highest peer s.snapshot.epochWatermarks ∧
      highest peer s.snapshot.epochWatermarks ≤ s.watermark peer
    rw [highest_snapshot]
    exact ⟨bounded.floor peer, le_refl _⟩
  · exact ⟨le_refl _, bounded.floor peer⟩

omit [Primitives] in
theorem KeyStore.Restored.bounded {table : Map PeerId Nat} {s : KeyStore} {file : Option PersistedState}
    (restored : Restored table s)
    (covers : ∀ peer : PeerId, { s with disk := file }.floor peer ≤ table[peer]?.getD 0) :
    Bounded { s with disk := file } := by
  refine ⟨⟨restored.pair, fun peer pair found => ?_, fun slot state found => ?_⟩, fun peer => ?_⟩
  · change s.candidates[peer]? = some pair at found
    rw [restored.candidates] at found
    simp at found
  · change s.keys[slot]? = some state at found
    rw [restored.keys] at found
    simp at found
  · exact (covers peer).trans (restored.watermark peer)

theorem loaded_restored {identity : LocalIdentity} {env : OpenEnv} {file : Option PersistedState}
    {s : KeyStore} (loaded : (do
      ensure (env.reads = true) .io
      match file with
      | none => pure (opened identity env.instanceId)
      | some persisted => restore identity env.instanceId persisted : Result KeyStore) = .ok s) :
    s.failed = false ∧ Bounded { s with disk := file } := by
  obtain ⟨_, -, loaded⟩ := Result.bind_eq_ok.mp loaded
  cases file with
  | none =>
    cases loaded
    have empty : Restored ∅ (opened identity env.instanceId) :=
      ⟨rfl, rfl, rfl, fun peer pair found => by simp [opened] at found, fun _ => by simp⟩
    exact ⟨rfl, empty.bounded fun _ => Nat.zero_le _⟩
  | some persisted =>
    obtain ⟨table, restored, covers⟩ := restore_restored loaded
    exact ⟨restored.alive, restored.bounded covers⟩

theorem reopen_lawful (env : OpenEnv) {run : PairRun} (law : EpochLaw run) :
    Lawful run (reopen env run) := by
  have between := stateFile_between env law.bounded
  unfold reopen
  dsimp only
  split
  · have kept : EpochLaw { run with store := { run.store with
        disk := env.stateFile run.store
        failed := true } } := by
      refine ⟨⟨?_, fun peer => (between peer).2⟩, nofun, fun entry mem => ?_, law.increasing⟩
      · exact ⟨law.bounded.entries.pair, law.bounded.entries.candidate, law.bounded.entries.key⟩
      · exact (law.created entry mem).trans (between entry.1).1
    exact ⟨kept, fun peer => (between peer).1⟩
  · rename_i store loaded
    obtain ⟨alive, bounded⟩ := loaded_restored loaded
    have opens : Lawful run (openRestored env { run with store := { store with
        disk := env.stateFile run.store } }).2 :=
      openRestored_lawful env law alive bounded fun peer => (between peer).1
    split
    · rename_i next done
      rw [done] at opens
      exact opens
    · rename_i next done
      rw [done] at opens
      exact opens.trans opens.law.poison

theorem perform_lawful {run : PairRun} (law : EpochLaw run) (op : PairOp) :
    Lawful run (perform run op) := by
  by_cases reopens : ∃ env, op = .reopen env
  · obtain ⟨env, rfl⟩ := reopens
    exact reopen_lawful env law
  · obtain ⟨epochs, created, makes⟩ :=
      perform_makes run op fun env same => reopens ⟨env, same⟩
    have next := law.makes makes
    rw [← created] at next
    exact next

omit [Primitives] in
theorem epochLaw_first (identity : LocalIdentity) (instanceId : Fin (2 ^ 256)) :
    EpochLaw (PairRun.first identity instanceId) := by
  have empty : Restored ∅ (opened identity instanceId) :=
    ⟨rfl, rfl, rfl, fun peer pair found => by simp [opened] at found, fun _ => by simp⟩
  have bounded : Bounded { opened identity instanceId with disk := none } :=
    empty.bounded fun _ => Nat.zero_le _
  refine ⟨bounded, fun _ peer => ?_, nofun, .nil⟩
  have nothing : (opened identity instanceId).watermark peer = 0 := by
    simp [watermark, opened]
  exact nothing.le

theorem run_lawful (ops : List PairOp) {run : PairRun} (law : EpochLaw run) :
    Lawful run (lifecycle.run ops run) := by
  induction ops generalizing run with
  | nil => exact ⟨law, fun _ => le_refl _⟩
  | cons op ops ih =>
    have next := perform_lawful law op
    exact next.trans (ih next.law)

/-- Over the whole life of a store, through failed writes and restarts: no call lowers
a watermark, no later store or state file lies below one that was reported, pairs,
candidates and live keys lie at or below it, and the wraps of our own for one peer have
strictly increasing epochs. -/
theorem epoch_watermark_law (identity : LocalIdentity) (instanceId : Fin (2 ^ 256))
    (ops more : List PairOp) :
    let run := lifecycle.run ops (PairRun.first identity instanceId)
    let later := lifecycle.run more run
    (∀ (op : PairOp) (peer : PeerId), (∀ env, op ≠ .reopen env) →
      run.store.watermark peer ≤ (lifecycle.exec op run).store.watermark peer) ∧
    (∀ (peer : PeerId) (epoch : Nat), run.store.peerEpoch peer = .ok epoch →
      epoch = run.store.watermark peer ∧ epoch = run.store.floor peer ∧
        epoch ≤ later.store.watermark peer) ∧
    (∀ peer : PeerId, run.store.floor peer ≤ later.store.floor peer) ∧
    (∀ (peer : PeerId) (pair : PersistedPair), run.store.pairs[peer]? = some pair →
      pair.epoch ≤ run.store.watermark peer) ∧
    (∀ (peer : PeerId) (candidate : PersistedPair), run.store.candidates[peer]? = some candidate →
      candidate.epoch ≤ run.store.watermark peer) ∧
    (∀ (slot : Nat) (key : PairKeyState), run.store.keys[slot]? = some key →
      key.epoch ≤ run.store.watermark key.peerId) ∧
    run.created.Pairwise fun newer older => newer.1 = older.1 → older.2 < newer.2 := by
  intro run later
  have law : EpochLaw run := (run_lawful ops (epochLaw_first identity instanceId)).law
  have on : Lawful run later := run_lawful more law
  refine ⟨fun op peer living => ?_, fun peer epoch reported => ?_, on.floor, law.bounded.entries.pair,
    law.bounded.entries.candidate, law.bounded.entries.key, law.increasing⟩
  · obtain ⟨_, -, makes⟩ := perform_makes run op living
    exact makes.advances.watermark peer
  · obtain ⟨_, locked, same⟩ := Result.bind_eq_ok.mp reported
    have alive : run.store.failed = false := ensure_eq_ok.mp locked
    have clean := law.clean alive peer
    cases same
    refine ⟨rfl, le_antisymm clean (law.bounded.floor peer), ?_⟩
    calc run.store.watermark peer ≤ run.store.floor peer := clean
      _ ≤ later.store.floor peer := on.floor peer
      _ ≤ later.store.watermark peer := on.law.bounded.floor peer

end

end QuantumFs.Crypto
