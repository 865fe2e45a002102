import QuantumFs.Crypto.KeyStoreStep

/-! The replay window against the set of the numbers that it has accepted. -/
namespace QuantumFs.Crypto

open Lib Encoding

/-- What the set of accepted numbers admits next. -/
def Admits (accepted : Set Nat) (seq : Nat) : Prop :=
  accepted = ∅ ∨ ∃ greatest, IsGreatest accepted greatest ∧
    (greatest < seq ∨ greatest - seq < replayWindowSize ∧ seq ∉ accepted)

theorem Admits.notMem {accepted : Set Nat} {seq : Nat} (admits : Admits accepted seq) : seq ∉ accepted := by
  obtain rfl | ⟨greatest, isGreatest, above | ⟨_, fresh⟩⟩ := admits
  · exact Set.notMem_empty seq
  · exact fun held => absurd (isGreatest.2 held) (not_le.mpr above)
  · exact fresh

namespace ReplayWindowState

/-- One offer, with the numbers accepted so far. -/
def offer (run : ReplayWindowState × List Nat) (seq : Nat) : ReplayWindowState × List Nat :=
  match run.1.accept seq with
  | .ok next => (next, run.2 ++ [seq])
  | .error _ => run

def offers (seqs : List Nat) : ReplayWindowState × List Nat := seqs.foldl offer (empty, [])

/-- The window shows of the set what is near its greatest number. -/
inductive Shows (window : ReplayWindowState) (accepted : Set Nat) : Prop
  | fresh : window = empty → accepted = ∅ → Shows window accepted
  | seen (greatest : Nat) : window.highestSeen = some greatest → IsGreatest accepted greatest →
      (∀ distance < replayWindowSize, bitIsSet window.seen distance = true ↔
        distance ≤ greatest ∧ greatest - distance ∈ accepted) → Shows window accepted

variable {window next : ReplayWindowState} {accepted : Set Nat} {seq : Nat}

theorem Shows.admits (shows : Shows window accepted) : ¬ window.Refused seq ↔ Admits accepted seq := by
  cases shows with
  | fresh isEmpty none =>
    subst isEmpty
    exact iff_of_true (fun refused => nomatch refused.choose_spec.1) (.inl none)
  | seen greatest highest isGreatest bits =>
    have refused : window.Refused seq ↔ seq ≤ greatest ∧
        (replayWindowSize ≤ greatest - seq ∨ bitIsSet window.seen (greatest - seq) = true) := by
      simp only [Refused, highest, Option.some.injEq, exists_eq_left']
    have admits : Admits accepted seq ↔
        greatest < seq ∨ greatest - seq < replayWindowSize ∧ seq ∉ accepted := by
      constructor
      · rintro (none | ⟨other, isOther, admitted⟩)
        · exact absurd (none ▸ isGreatest.1) (Set.notMem_empty _)
        · rwa [isOther.unique isGreatest] at admitted
      · exact fun admitted => .inr ⟨greatest, isGreatest, admitted⟩
    rw [refused, admits]
    by_cases above : greatest < seq
    · exact iff_of_true (fun below => absurd below.1 (by omega)) (.inl above)
    · by_cases near : greatest - seq < replayWindowSize
      · have back : greatest - (greatest - seq) = seq := by omega
        rw [bits _ near, back]
        have below : seq ≤ greatest := by omega
        have inside : ¬ replayWindowSize ≤ greatest - seq := by omega
        have distance : greatest - seq ≤ greatest := by omega
        simp only [below, inside, distance, true_and, false_or, above, near]
      · refine iff_of_false (fun kept => kept ⟨by omega, .inl (by omega)⟩) ?_
        rintro (greater | ⟨inside, _⟩)
        · exact above greater
        · exact near inside

private theorem seen_above {greatest : Nat} (isGreatest : IsGreatest accepted greatest)
    (bits : ∀ distance < replayWindowSize, bitIsSet window.seen distance = true ↔
      distance ≤ greatest ∧ greatest - distance ∈ accepted)
    (above : greatest < seq) : ∀ distance < replayWindowSize,
      bitIsSet (setBit (shift window.seen (seq - greatest)) 0) distance = true ↔
        distance ≤ seq ∧ seq - distance ∈ insert seq accepted := by
  intro distance inside
  rw [bitIsSet_setBit _ (by decide), Bool.or_eq_true, decide_eq_true_eq, bitIsSet_shift, Set.mem_insert_iff]
  by_cases zero : distance = 0
  · subst zero
    simp
  · by_cases older : seq - greatest ≤ distance
    · have near : distance - (seq - greatest) < replayWindowSize := by omega
      have back : greatest - (distance - (seq - greatest)) = seq - distance := by omega
      rw [bits _ near, back]
      have reach : distance - (seq - greatest) ≤ greatest ↔ distance ≤ seq := by omega
      simp only [zero, inside, older, true_and, false_or, reach]
      refine and_congr_right fun _ => (or_iff_right ?_).symm
      omega
    · refine iff_of_false ?_ ?_
      · rintro (isZero | ⟨_, far, _⟩)
        · exact zero isZero
        · exact older far
      · rintro ⟨_, same | held⟩
        · omega
        · have := isGreatest.2 held
          omega

theorem Shows.accept (shows : Shows window accepted) (done : window.accept seq = .ok next) :
    Shows next (insert seq accepted) := by
  have admitted := check_eq_ok.mp (accept_eq_ok done)
  simp only [ReplayWindowState.accept, Result.bind_eq_ok] at done
  obtain ⟨_, _, done⟩ := done
  cases shows with
  | fresh isEmpty none =>
    subst isEmpty none
    obtain rfl := Except.ok.inj done
    refine .seen seq rfl ⟨Set.mem_insert _ _, fun other mem => (Set.mem_insert_iff.mp mem).elim le_of_eq (absurd · (Set.notMem_empty _))⟩
      fun distance _ => ?_
    rw [bitIsSet_setBit _ (by decide), Bool.or_eq_true, decide_eq_true_eq, empty, bitIsSet_replicate]
    simp only [Bool.false_eq_true, or_false, Set.mem_insert_iff, Set.mem_empty_iff_false]
    omega
  | seen greatest highest isGreatest bits =>
    rw [highest] at done
    dsimp only at done
    split at done
    · rename_i above
      obtain rfl := Except.ok.inj done
      refine .seen seq rfl ⟨Set.mem_insert _ _, ?_⟩ (seen_above isGreatest bits above)
      rintro other (rfl | held)
      · exact le_refl _
      · exact (isGreatest.2 held).trans above.le
    · rename_i notAbove
      obtain rfl := Except.ok.inj done
      have below : seq ≤ greatest := not_lt.mp notAbove
      have near : greatest - seq < replayWindowSize := by
        by_contra far
        exact admitted ⟨greatest, highest, below, .inl (not_lt.mp far)⟩
      refine .seen greatest rfl ⟨.inr isGreatest.1, ?_⟩ fun distance inside => ?_
      · rintro other (rfl | held)
        · exact below
        · exact isGreatest.2 held
      · rw [bitIsSet_setBit _ near, Bool.or_eq_true, decide_eq_true_eq, bits _ inside, Set.mem_insert_iff,
          and_or_left]
        refine or_congr_left ?_
        omega

theorem shows_offers (seqs : List Nat) :
    Shows (offers seqs).1 {other | other ∈ (offers seqs).2} ∧ (offers seqs).2.Nodup := by
  induction seqs using List.reverseRecOn with
  | nil => exact ⟨.fresh rfl (Set.eq_empty_iff_forall_notMem.mpr nofun), .nil⟩
  | append_singleton seqs seq ih =>
    obtain ⟨shows, once⟩ := ih
    have step : offers (seqs ++ [seq]) = offer (offers seqs) seq := List.foldl_append
    rw [step]
    unfold offer
    split
    · rename_i next done
      have added : {other | other ∈ (offers seqs).2 ++ [seq]} =
          insert seq {other | other ∈ (offers seqs).2} := by
        ext other
        simp only [List.mem_append, List.mem_singleton, Set.mem_ofPred_eq, Set.mem_insert_iff, or_comm]
      rw [added]
      refine ⟨shows.accept done, List.nodup_append.mpr ⟨once, List.nodup_singleton _, ?_⟩⟩
      intro other held _ same isOther
      obtain rfl := List.mem_singleton.mp same
      exact (shows.admits.mp (check_eq_ok.mp (accept_eq_ok done))).notMem (isOther ▸ held)
    · exact ⟨shows, once⟩

theorem accept_iff_admits (shows : Shows window accepted) :
    (∃ next, window.accept seq = .ok next) ↔ Admits accepted seq := by
  rw [← shows.admits, ← check_eq_ok]
  refine ⟨fun taken => accept_eq_ok taken.choose_spec, fun checked => ?_⟩
  unfold accept
  rw [checked]
  cases window.highestSeen with
  | none => exact ⟨_, rfl⟩
  | some highest =>
    by_cases above : highest < seq
    · exact ⟨_, if_pos above⟩
    · exact ⟨_, if_neg above⟩

end ReplayWindowState

namespace KeyStore

def windowIn (store : KeyStore) (slot : Nat) (key : ReplayWindowKey) : Option ReplayWindowState :=
  store.keys[slot]?.map fun state => state.window key

theorem windowIn_insert {store : KeyStore} {slot : Nat} {before after : PairKeyState}
    (found : store.keys[slot]? = some before) (other : Nat) (key : ReplayWindowKey)
    (same : after.window key = before.window key) :
    { store with keys := store.keys.insert slot after }.windowIn other key = store.windowIn other key := by
  unfold windowIn
  rw [Map.get_insert]
  split
  · rename_i here
    subst here
    rw [found, Option.map_some, Option.map_some, same]
  · rfl

theorem window_insert (state : PairKeyState) (replay : Map ReplayWindowKey ReplayWindowState)
    (key other : ReplayWindowKey) (next : ReplayWindowState) :
    { state with replay := replay.insert key next }.window other =
      if key = other then next else { state with replay }.window other := by
  unfold PairKeyState.window
  rw [Map.get_insert]
  split <;> rfl

/-- A packet that does not open changes no window. One that opens was offered to its own. -/
def Offers (store : KeyStore) (slot : Nat) (aad : Bytes) : Result Bytes → KeyStore → Prop
  | .error _, after => ∀ other key, after.windowIn other key = store.windowIn other key
  | .ok _, after => ∃ header payloadType key window next, decodeAad aad = .ok (header, payloadType) ∧
      store.windowIn slot key = some window ∧ window.accept header.seq = .ok next ∧
      ∀ otherSlot other, after.windowIn otherSlot other =
        if otherSlot = slot ∧ key = other then some next else store.windowIn otherSlot other

variable [Primitives]

theorem aeadOpen_offers (handle : PairKeyHandle) (bytes aad ciphertext : Bytes) (store : KeyStore) :
    Action.Ensures (aeadOpen handle bytes aad ciphertext) store (store.Offers handle.slot aad) := by
  unfold aeadOpen
  refine .query (fun _ _ _ _ => rfl) fun localId _ => ?_
  refine .ofExcept (fun _ _ _ _ => rfl) fun decoded isDecoded => ?_
  obtain ⟨header, payloadType⟩ := decoded
  refine ensures_withPairState (fun _ _ _ => rfl) fun state _ found => ?_
  unfold openState
  refine .get (.ofExcept (fun _ _ slot key => windowIn_insert found slot key rfl) fun key _ => ?_)
  have kept (slot other) : { store with
        keys := store.keys.insert handle.slot
          { state with replay := state.replay.insert key (state.window key) } }.windowIn slot other =
      store.windowIn slot other := by
    refine windowIn_insert found slot other ?_
    rw [window_insert]
    split
    · rename_i same
      rw [same]
    · rfl
  refine ensures_checkReplay (fun _ _ => kept) fun _ => ?_
  refine .ofExcept (fun _ _ => kept) fun plaintext _ => ?_
  apply Action.Ensures.bind
  unfold PairKeyState.acceptReplay
  refine .get (.ofExcept (fun _ _ => kept) fun next accepted => ?_)
  rw [window_insert, if_pos rfl] at accepted
  refine ⟨header, payloadType, key, state.window key, next, isDecoded, ?_, accepted, fun slot other => ?_⟩
  · unfold windowIn
    rw [found]
    rfl
  · unfold windowIn
    rw [Map.get_insert]
    by_cases here : handle.slot = slot
    · subst here
      rw [if_pos rfl, found, Option.map_some, Option.map_some]
      simp only [Action.modify_apply, Action.pure_apply, window_insert, true_and]
      by_cases same : key = other
      · rw [if_pos same, if_pos same]
      · rw [if_neg same, if_neg same, if_neg same]
    · rw [if_neg here, if_neg fun both => here both.1.symm]

end KeyStore

/-- Over any run of offers the window accepts what the set of the accepted numbers admits, each
number once. A packet that does not open leaves every window as it was. -/
theorem replay_window_set_model :
    (∀ (seqs : List Nat) (seq : Nat), let run := ReplayWindowState.offers seqs
      ((∃ next, run.1.accept seq = .ok next) ↔ Admits {other | other ∈ run.2} seq) ∧ run.2.Nodup) ∧
    ∀ [Primitives] (handle : PairKeyHandle) (bytes aad ciphertext : Bytes) (store : KeyStore),
      Action.Ensures (KeyStore.aeadOpen handle bytes aad ciphertext) store
        (store.Offers handle.slot aad) := by
  refine ⟨fun seqs seq => ?_, fun handle bytes aad ciphertext store => ?_⟩
  · obtain ⟨shows, once⟩ := ReplayWindowState.shows_offers seqs
    exact ⟨ReplayWindowState.accept_iff_admits shows, once⟩
  · exact store.aeadOpen_offers handle bytes aad ciphertext

end QuantumFs.Crypto
