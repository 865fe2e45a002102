import QuantumFs.Net.Live
import QuantumFs.Member.Replica

/-! Who holds a chunk (`protocol/locate.rs`, `sync/locate.rs`): a packed set of bits
answers a query, and the holders are those whose answer has a bit set. -/
namespace QuantumFs.Net

open Lib Encoding Store

/-- `1 << (index % 8)` in a byte. -/
def bitMask (index : Nat) : UInt8 := 1 <<< UInt8.ofNat (index % 8)

def HaveReply.validate (reply : HaveReply) (query : HaveQuery) : Result Unit := do
  requireCount reply.chunkIds.length
  ensure (¬ (reply.fileId ≠ query.fileId ∨ reply.chunkIds ≠ query.chunkIds)) .authenticationFailed
  ensure (reply.haveBitset.length = bitsetLength reply.chunkIds.length)
    (.invalidInput "have reply bitset length mismatch")

def HaveReply.new (query : HaveQuery) (haveBitset : Bytes) : Result HaveReply := do
  let reply := { fileId := query.fileId, chunkIds := query.chunkIds, haveBitset }
  HaveReply.validate reply query
  pure reply

def HaveReply.has (reply : HaveReply) (index : Nat) : Bool :=
  index < reply.chunkIds.length &&
    reply.haveBitset[index / 8]?.any fun byte => byte &&& bitMask index ≠ 0

end QuantumFs.Net

namespace QuantumFs.Store.ChunkStore

open Lib Net

def markHeld (store : ChunkStore) (bits : Bytes) : ChunkId × Nat → Bytes
  | (chunkId, index) =>
    if store.records.contains chunkId then bits.modify (index / 8) (· ||| bitMask index) else bits

/-- One bit for each chunk in the order of the request, the least significant first. -/
def haveBitset (store : ChunkStore) (chunkIds : List ChunkId) : Bytes :=
  chunkIds.zipIdx.foldl store.markHeld (List.replicate (bitsetLength chunkIds.length) 0)

end QuantumFs.Store.ChunkStore

namespace QuantumFs.Net

open Lib Encoding Store

def answerHave (query : HaveQuery) (chunks : ChunkStore) : Result HaveReply :=
  HaveReply.new query (chunks.haveBitset query.chunkIds)

def bitOf (bits : Bytes) (index : Nat) : Bool := (bits[index / 8]?.getD 0).toNat.testBit (index % 8)

theorem bitMask_toNat (index : Nat) : (bitMask index).toNat = 2 ^ (index % 8) := by
  have all : ∀ offset < 8, ((1 : UInt8) <<< UInt8.ofNat offset).toNat = 2 ^ offset := by decide
  exact all _ (Nat.mod_lt _ (by decide))

theorem and_bitMask (byte : UInt8) (index : Nat) :
    (byte &&& bitMask index ≠ 0) ↔ byte.toNat.testBit (index % 8) = true := by
  have same : (byte &&& bitMask index).toNat = 2 ^ (index % 8) * (byte.toNat.testBit (index % 8)).toNat := by
    rw [UInt8.toNat_and, bitMask_toNat, Nat.and_two_pow, Nat.mul_comm]
  rw [Ne, ← UInt8.toNat_inj, same]
  cases byte.toNat.testBit (index % 8) <;> simp

theorem bitOf_modify (bits : Bytes) {index : Nat} (inside : index / 8 < bits.length) (other : Nat) :
    bitOf (bits.modify (index / 8) (· ||| bitMask index)) other = (bitOf bits other || decide (other = index)) := by
  unfold bitOf
  rw [List.getElem?_modify]
  by_cases same : index / 8 = other / 8
  · have offset : other = index ↔ index % 8 = other % 8 := by omega
    rw [← same, List.getElem?_eq_getElem inside]
    simp only [if_true, Option.map_eq_map, Option.map_some, Option.getD_some, UInt8.toNat_or, Nat.testBit_or,
      bitMask_toNat, Nat.testBit_two_pow, offset]
  · have different : other ≠ index := fun equal => same (by rw [equal])
    simp [same, different]

theorem bitOf_zero (size index : Nat) : bitOf (List.replicate size 0) index = false := by
  unfold bitOf
  rw [List.getElem?_replicate]
  split <;> simp

theorem bitOf_markHeld (store : ChunkStore) {bits : Bytes} {chunkId : ChunkId} {position : Nat}
    (inside : position / 8 < bits.length) (index : Nat) :
    (store.markHeld bits (chunkId, position)).length = bits.length ∧
      (bitOf (store.markHeld bits (chunkId, position)) index = true ↔
        bitOf bits index = true ∨ index = position ∧ store.records.contains chunkId = true) := by
  unfold ChunkStore.markHeld
  dsimp only
  split
  · rename_i held
    refine ⟨List.length_modify _ _ _, ?_⟩
    rw [bitOf_modify bits inside, Bool.or_eq_true, decide_eq_true_eq, and_iff_left held]
  · rename_i absent
    exact ⟨rfl, (or_iff_left fun marked => absent marked.2).symm⟩

theorem bitOf_foldl_markHeld (store : ChunkStore) (index : Nat) (pairs : List (ChunkId × Nat)) (bits : Bytes)
    (inside : ∀ pair ∈ pairs, pair.2 / 8 < bits.length) :
    (pairs.foldl store.markHeld bits).length = bits.length ∧
      (bitOf (pairs.foldl store.markHeld bits) index = true ↔ bitOf bits index = true ∨
        ∃ chunkId, (chunkId, index) ∈ pairs ∧ store.records.contains chunkId = true) := by
  induction pairs generalizing bits with
  | nil => simp
  | cons pair pairs ih =>
    obtain ⟨chunkId, position⟩ := pair
    obtain ⟨size, marked⟩ := bitOf_markHeld store (inside (chunkId, position) List.mem_cons_self) index
    rw [List.foldl_cons]
    obtain ⟨length, bit⟩ := ih _ fun pair mem => size.symm ▸ inside pair (List.mem_cons_of_mem _ mem)
    refine ⟨length.trans size, bit.trans ?_⟩
    rw [marked, or_assoc]
    refine or_congr_right ?_
    simp only [List.mem_cons, Prod.mk.injEq, or_and_right, exists_or, and_assoc, exists_eq_left]

theorem bitOf_haveBitset (store : ChunkStore) (chunkIds : List ChunkId) (index : Nat) :
    (store.haveBitset chunkIds).length = bitsetLength chunkIds.length ∧
      (bitOf (store.haveBitset chunkIds) index = true ↔
        ∃ chunkId, chunkIds[index]? = some chunkId ∧ store.records.contains chunkId = true) := by
  have inside : ∀ pair ∈ chunkIds.zipIdx,
      pair.2 / 8 < (List.replicate (bitsetLength chunkIds.length) (0 : UInt8)).length := by
    intro pair mem
    have below := List.snd_lt_of_mem_zipIdx mem
    rw [List.length_replicate]
    unfold bitsetLength
    omega
  obtain ⟨length, bit⟩ := bitOf_foldl_markHeld store index _ _ inside
  refine ⟨length.trans List.length_replicate, bit.trans ?_⟩
  simp only [bitOf_zero, Bool.false_eq_true, false_or, List.mk_mem_zipIdx_iff_getElem?]

theorem HaveReply.has_iff {reply : HaveReply} {index : Nat} :
    reply.has index = true ↔ index < reply.chunkIds.length ∧ bitOf reply.haveBitset index = true := by
  unfold HaveReply.has bitOf
  rw [Bool.and_eq_true, decide_eq_true_eq]
  refine and_congr_right fun _ => ?_
  cases reply.haveBitset[index / 8]? with
  | none => simp
  | some byte => simpa using and_bitMask byte index

/-- An answer arrives and says what the store holds. -/
theorem have_reply_faithful (store : ChunkStore) (query : HaveQuery) :
    ∃ reply bytes, answerHave query store = .ok reply ∧ encodeHaveReply reply = .ok bytes ∧
      decodeHaveReply bytes = .ok reply ∧ reply.validate query = .ok () ∧
        ∀ index, reply.has index = true ↔
          ∃ chunkId, query.chunkIds[index]? = some chunkId ∧ store.records.contains chunkId = true := by
  have counted : requireCount query.chunkIds.length = .ok () := ensure_eq_ok.mpr query.counted
  have size := (bitOf_haveBitset store query.chunkIds 0).1
  have valid : HaveReply.validate ⟨query.fileId, query.chunkIds, store.haveBitset query.chunkIds⟩ query = .ok () := by
    unfold HaveReply.validate
    simp only [Result.bind_eq_ok, ensure_eq_ok]
    exact ⟨(), counted, (), not_or.mpr ⟨not_not.mpr rfl, not_not.mpr rfl⟩, size⟩
  have small : query.chunkIds.length ≤ u32Max := Nat.le_trans query.counted.2 (by decide)
  have written : ∃ bytes, encodeHaveReply ⟨query.fileId, query.chunkIds, store.haveBitset query.chunkIds⟩ =
      .ok bytes := by
    unfold encodeHaveReply
    simp only [Result.bind_eq_ok, ensure_eq_ok, pushLength_eq_ok]
    exact ⟨_, (), counted, (), size, _, ⟨small, rfl⟩, rfl⟩
  obtain ⟨bytes, written⟩ := written
  refine ⟨_, bytes, Result.bind_eq_ok.mpr ⟨(), valid, rfl⟩, written, decodeHaveReply_encode written, valid, fun index => ?_⟩
  rw [HaveReply.has_iff, (bitOf_haveBitset store query.chunkIds index).2]
  refine and_iff_right_of_imp ?_
  rintro ⟨chunkId, found, -⟩
  exact (List.getElem?_eq_some_iff.mp found).1

end QuantumFs.Net

namespace QuantumFs.Member

open Lib Crypto Net

structure Locator where
  members : OrdSet PeerId
  hostId : PeerId

/-- The answer of a member, and the keys as they are when it is looked at. -/
structure Answer where
  reply : Result HaveReply
  keys : KeyStore

namespace Locator

def sessionIsLive (locator : Locator) (keys : KeyStore) (peerId : PeerId) : Bool :=
  peerId ∈ locator.members &&
    (keys.peerId.toOption.any fun localId => localId ≠ peerId) &&
    (keys.currentSession peerId).isOk &&
    (keys.requireLiveTraffic peerId).isOk

def liveMemberCandidates (locator : Locator) (keys : KeyStore) : List PeerId :=
  locator.members.toList.filter fun peer => peer ≠ locator.hostId && locator.sessionIsLive keys peer

/-- A useful answer comes from a session that is still live and has a bit set. -/
def nominates (locator : Locator) (query : HaveQuery) (peerId : PeerId) (answer : Answer) : Bool :=
  match answer.reply with
  | .error _ => false
  | .ok reply => locator.sessionIsLive answer.keys peerId && (reply.validate query).isOk &&
      (List.range query.chunkIds.length).any reply.has

def holders (locator : Locator) (keys : KeyStore) (query : HaveQuery)
    (ask : PeerId → HaveQuery → Answer) : List PeerId :=
  if locator.sessionIsLive keys locator.hostId then [locator.hostId]
  else (locator.liveMemberCandidates keys).foldl
    (fun holders peerId =>
      if locator.nominates query peerId (ask peerId query) then holders ++ [peerId] else holders) []

structure Polling where
  pending : List (PeerId × Option Answer)
  holders : List PeerId

/-- One candidate in one poll: a future that is ready is taken away. -/
def pollCandidate (locator : Locator) (query : HaveQuery) (ready : PeerId → Bool) (polling : Polling) :
    PeerId × Option Answer → Polling
  | (peerId, none) => { polling with pending := polling.pending ++ [(peerId, none)] }
  | (peerId, some answer) =>
    if ready peerId then
      { pending := polling.pending ++ [(peerId, none)]
        holders := if locator.nominates query peerId answer then polling.holders ++ [peerId]
          else polling.holders }
    else { polling with pending := polling.pending ++ [(peerId, some answer)] }

def poll (locator : Locator) (query : HaveQuery) (polling : Polling) (ready : PeerId → Bool) : Polling :=
  polling.pending.foldl (locator.pollCandidate query ready) { polling with pending := [] }

/-- `holders_async_with_timeout`. A poll is the set of the answers that have arrived by then, and
`polls` are those before the deadline. -/
def holdersAsync (locator : Locator) (keys : KeyStore) (query : HaveQuery) (polls : List (PeerId → Bool))
    (ask : PeerId → HaveQuery → Answer) : List PeerId :=
  if locator.sessionIsLive keys locator.hostId then [locator.hostId]
  else
    let pending := (locator.liveMemberCandidates keys).map fun peerId => (peerId, some (ask peerId query))
    let polled := polls.foldl (locator.poll query) { pending, holders := [] }
    (polled.holders.mergeSort (· ≤ ·)).destutter (· ≠ ·)

def waiting (pending : List (PeerId × Option Answer)) : List (PeerId × Answer) :=
  pending.filterMap fun candidate => candidate.2.map fun answer => (candidate.1, answer)

def nominated (locator : Locator) (query : HaveQuery) (answers : List (PeerId × Answer)) : List PeerId :=
  (answers.filter fun answer => locator.nominates query answer.1 answer.2).map Prod.fst

variable {locator : Locator} {keys : KeyStore} {query : HaveQuery}

theorem nominated_append (first second : List (PeerId × Answer)) :
    locator.nominated query (first ++ second) =
      locator.nominated query first ++ locator.nominated query second := by
  unfold nominated
  rw [List.filter_append, List.map_append]

theorem foldl_pollCandidate (ready : PeerId → Bool) (candidates : List (PeerId × Option Answer))
    (polling : Polling) :
    let next := candidates.foldl (locator.pollCandidate query ready) polling
    waiting next.pending = waiting polling.pending ++ (waiting candidates).filter (fun answer => !ready answer.1) ∧
      (next.holders ++ locator.nominated query (waiting next.pending)).Perm
        (polling.holders ++ locator.nominated query (waiting polling.pending ++ waiting candidates)) := by
  induction candidates generalizing polling with
  | nil => simp [waiting]
  | cons candidate candidates ih =>
    obtain ⟨peerId, _ | answer⟩ := candidate
    · obtain ⟨left, same⟩ := ih (locator.pollCandidate query ready polling (peerId, none))
      refine ⟨?_, ?_⟩
      · rw [List.foldl_cons, left]
        simp [pollCandidate, waiting]
      · rw [List.foldl_cons]
        refine same.trans (List.Perm.of_eq ?_)
        simp [pollCandidate, waiting]
    · obtain ⟨left, same⟩ := ih (locator.pollCandidate query ready polling (peerId, some answer))
      have here : waiting ((peerId, some answer) :: candidates) = (peerId, answer) :: waiting candidates := rfl
      rw [List.foldl_cons]
      cases isReady : ready peerId with
      | false =>
        have step : waiting (locator.pollCandidate query ready polling (peerId, some answer)).pending =
            waiting polling.pending ++ [(peerId, answer)] := by
          simp [pollCandidate, isReady, waiting]
        have kept : (locator.pollCandidate query ready polling (peerId, some answer)).holders =
            polling.holders := by
          simp [pollCandidate, isReady]
        rw [step] at left same
        rw [kept] at same
        refine ⟨?_, ?_⟩
        · rw [left, here, List.filter_cons_of_pos (by simp [isReady]), List.append_assoc]
          rfl
        · rw [here]
          refine same.trans (List.Perm.of_eq ?_)
          rw [List.append_assoc]
          rfl
      | true =>
        have step : waiting (locator.pollCandidate query ready polling (peerId, some answer)).pending =
            waiting polling.pending := by
          simp [pollCandidate, isReady, waiting]
        have kept : (locator.pollCandidate query ready polling (peerId, some answer)).holders =
            polling.holders ++ locator.nominated query [(peerId, answer)] := by
          unfold pollCandidate nominated
          simp only [isReady, if_true]
          cases nominates : locator.nominates query peerId answer <;> simp [nominates]
        rw [step] at left same
        rw [kept] at same
        refine ⟨?_, ?_⟩
        · rw [left, here, List.filter_cons_of_neg (by simp [isReady])]
        · rw [here]
          refine same.trans ?_
          have split : (peerId, answer) :: waiting candidates = [(peerId, answer)] ++ waiting candidates := rfl
          rw [split, nominated_append, nominated_append, nominated_append, List.append_assoc]
          refine List.Perm.append_left _ ?_
          rw [← List.append_assoc, ← List.append_assoc]
          exact List.perm_append_comm.append_right _

theorem poll_waiting (polling : Polling) (ready : PeerId → Bool) :
    waiting (locator.poll query polling ready).pending =
        (waiting polling.pending).filter (fun answer => !ready answer.1) ∧
      ((locator.poll query polling ready).holders ++
          locator.nominated query (waiting (locator.poll query polling ready).pending)).Perm
        (polling.holders ++ locator.nominated query (waiting polling.pending)) :=
  foldl_pollCandidate ready polling.pending { polling with pending := [] }

theorem polls_waiting (polls : List (PeerId → Bool)) (polling : Polling) :
    let polled := polls.foldl (locator.poll query) polling
    waiting polled.pending =
        (waiting polling.pending).filter (fun answer => polls.all fun ready => !ready answer.1) ∧
      (polled.holders ++ locator.nominated query (waiting polled.pending)).Perm
        (polling.holders ++ locator.nominated query (waiting polling.pending)) := by
  induction polls generalizing polling with
  | nil => simp
  | cons ready polls ih =>
    obtain ⟨left, same⟩ := @poll_waiting locator query polling ready
    obtain ⟨leftAfter, sameAfter⟩ := ih (locator.poll query polling ready)
    refine ⟨?_, sameAfter.trans same⟩
    rw [List.foldl_cons, leftAfter, left, List.filter_filter]
    simp only [List.all_cons, Bool.and_comm]

private theorem foldl_filter {p : PeerId → Bool} (peers found : List PeerId) :
    peers.foldl (fun found peer => if p peer then found ++ [peer] else found) found =
      found ++ peers.filter p := by
  induction peers generalizing found with
  | nil => simp
  | cons peer peers ih =>
    rw [List.foldl_cons, ih, List.filter_cons]
    split <;> simp

theorem waiting_asked (ask : PeerId → HaveQuery → Answer) (peers : List PeerId) :
    waiting (peers.map fun peerId => (peerId, some (ask peerId query))) =
      peers.map fun peerId => (peerId, ask peerId query) := by
  unfold waiting
  rw [List.filterMap_map]
  exact congrFun List.filterMap_eq_map peers

theorem nominated_asked (ask : PeerId → HaveQuery → Answer) (peers : List PeerId) :
    locator.nominated query (peers.map fun peerId => (peerId, ask peerId query)) =
      peers.filter fun peerId => locator.nominates query peerId (ask peerId query) := by
  unfold nominated
  rw [List.filter_map, List.map_map]
  exact List.map_id _

theorem holdersAsync_eq {polls : List (PeerId → Bool)} {ask : PeerId → HaveQuery → Answer}
    (arrives : ∀ peerId ∈ locator.liveMemberCandidates keys, ∃ ready ∈ polls, ready peerId = true) :
    locator.holdersAsync keys query polls ask = locator.holders keys query ask := by
  unfold holdersAsync holders
  split
  · rfl
  · dsimp only
    rw [foldl_filter, List.nil_append]
    generalize isPeers : locator.liveMemberCandidates keys = peers at arrives ⊢
    obtain ⟨left, same⟩ := @polls_waiting locator query polls
      ⟨peers.map fun peerId => (peerId, some (ask peerId query)), []⟩
    rw [waiting_asked] at left same
    have none : (peers.map fun peerId => (peerId, ask peerId query)).filter
        (fun answer => polls.all fun ready => !ready answer.1) = [] := by
      refine List.filter_eq_nil_iff.mpr fun answer mem => ?_
      obtain ⟨peerId, isCandidate, rfl⟩ := List.mem_map.mp mem
      obtain ⟨ready, isPoll, isReady⟩ := arrives peerId isCandidate
      rw [List.all_eq_true]
      intro never
      simpa [isReady] using never ready isPoll
    rw [left, none, nominated_asked, nominated, List.filter_nil, List.map_nil, List.append_nil,
      List.nil_append] at same
    have sorted : (peers.filter fun peerId =>
        locator.nominates query peerId (ask peerId query)).Pairwise (· < ·) := by
      rw [← isPeers]
      exact ((OrdSet.toList_sorted _).filter _).filter _
    have merged := ((List.mergeSort_perm _ _).trans same).eq_of_pairwise'
      (List.pairwise_mergeSort' (· ≤ ·) _) (sorted.imp le_of_lt)
    rw [merged]
    exact List.destutter_of_isChain _ _ (sorted.imp ne_of_lt).isChain

end Locator

end QuantumFs.Member
