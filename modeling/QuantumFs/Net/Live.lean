import QuantumFs.Encoding.Control
import QuantumFs.Encoding.RoundTrip

/-! The live channel: requests, replies and controls carry no common tag, and each
side tells them apart by the order in which it tries the decoders. -/
namespace QuantumFs.Net

open Lib Encoding

def chunkIdBytes (chunkIds : List ChunkId) : Bytes :=
  (chunkIds.map fun chunkId => idBytes chunkId.val).flatten

def readChunkIds (count : Nat) : Action Error Bytes (List ChunkId) := do
  let chunkIds ← Reader.times Reader.readId count
  pure (chunkIds.map ChunkId.mk)

def encodePullRequest (request : PullRequest) : Result Bytes := do
  let length ← pushLength request.chunkIds.length
  pure (length ++ chunkIdBytes request.chunkIds)

def readPullRequest : Action Error Bytes PullRequest := do
  let count ← Reader.u32
  Action.require (count ≤ maxPullChunkIds)
    (.invalidInput "pull request exceeds the 32 chunk identifier cap")
  let rest ← Action.get
  Action.require (count ≤ rest.length / 32) (.invalidInput "truncated pull request")
  let chunkIds ← readChunkIds count
  Reader.finish
  Action.ofExcept (PullRequest.new chunkIds)

def decodePullRequest (bytes : Bytes) : Result PullRequest := (readPullRequest bytes).1

def haveMagic : Bytes := utf8 "qfs/v1/have/"

def encodeHaveQuery (query : HaveQuery) : Result Bytes := do
  requireCount query.chunkIds.length
  let length ← pushLength query.chunkIds.length
  pure (haveMagic ++ 1 :: (idBytes query.fileId.val ++ length ++ chunkIdBytes query.chunkIds))

def readHaveQuery : Action Error Bytes HaveQuery := do
  Reader.requirePrefix haveMagic
  let kind ← Reader.byte
  Action.require (kind = 1) (.invalidInput "invalid have query kind")
  let fileId ← Reader.readId
  let count ← Reader.u32
  Action.ofExcept (requireCount count)
  let rest ← Action.get
  Action.require (count ≤ rest.length / 32) (.invalidInput "truncated have query")
  let chunkIds ← readChunkIds count
  Reader.finish
  Action.ofExcept (HaveQuery.new ⟨fileId⟩ chunkIds)

def decodeHaveQuery (bytes : Bytes) : Result HaveQuery := (readHaveQuery bytes).1

def bitsetLength (count : Nat) : Nat := (count + 7) / 8

def encodeHaveReply (reply : HaveReply) : Result Bytes := do
  requireCount reply.chunkIds.length
  ensure (reply.haveBitset.length = bitsetLength reply.chunkIds.length)
    (.invalidInput "have reply bitset length mismatch")
  let length ← pushLength reply.chunkIds.length
  pure (haveMagic ++ 2 :: (idBytes reply.fileId.val ++ length ++ chunkIdBytes reply.chunkIds ++
    reply.haveBitset))

def readHaveReply : Action Error Bytes HaveReply := do
  Reader.requirePrefix haveMagic
  let kind ← Reader.byte
  Action.require (kind = 2) (.invalidInput "invalid have reply kind")
  let fileId ← Reader.readId
  let count ← Reader.u32
  Action.ofExcept (requireCount count)
  let rest ← Action.get
  Action.require (rest.length = count * 32 + bitsetLength count)
    (.invalidInput "have reply length mismatch")
  let chunkIds ← readChunkIds count
  let haveBitset ← Reader.take (bitsetLength count)
  Reader.finish
  pure { fileId := ⟨fileId⟩, chunkIds, haveBitset }

def decodeHaveReply (bytes : Bytes) : Result HaveReply := (readHaveReply bytes).1

theorem length_chunkIdBytes (chunkIds : List ChunkId) :
    (chunkIdBytes chunkIds).length = chunkIds.length * 32 :=
  flatten_idBytes_length _ _

theorem reads_chunkIds (chunkIds : List ChunkId) :
    Reads (readChunkIds chunkIds.length) (chunkIdBytes chunkIds) chunkIds := by
  have read := Reader.reads_times Reader.reads_id (chunkIds.map ChunkId.val)
  rw [List.length_map, List.map_map] at read
  have mapped := Reads.map read fun values => values.map ChunkId.mk
  rw [List.map_map] at mapped
  have same : chunkIds.map (ChunkId.mk ∘ ChunkId.val) = chunkIds := List.map_id _
  rwa [same] at mapped

theorem new_chunkIds (request : PullRequest) : PullRequest.new request.chunkIds = .ok request := by
  unfold PullRequest.new
  rw [dif_pos request.atMost]

theorem decodePullRequest_encode {request : PullRequest} {out : Bytes}
    (written : encodePullRequest request = .ok out) : decodePullRequest out = .ok request := by
  obtain ⟨length, pushed, done⟩ := Result.bind_eq_ok.mp written
  obtain ⟨small, rfl⟩ := pushLength_eq_ok.mp pushed
  cases done
  have room : request.chunkIds.length ≤ (chunkIdBytes request.chunkIds).length / 32 := by
    rw [length_chunkIdBytes]
    omega
  rw [decodePullRequest]
  apply ReadsAll.result
  unfold readPullRequest
  apply ReadsAll.bind (Reader.reads_u32 small)
  apply ReadsAll.require request.atMost
  apply ReadsAll.get
  apply ReadsAll.require room
  apply ReadsAll.then_nil (reads_chunkIds _).all
  apply ReadsAll.then_nil Reader.readsAll_finish
  exact Action.ofExcept_eq_ok.mpr ⟨new_chunkIds request, rfl⟩

theorem decodeHaveQuery_encode {query : HaveQuery} {out : Bytes}
    (written : encodeHaveQuery query = .ok out) : decodeHaveQuery out = .ok query := by
  obtain ⟨_, counted, written⟩ := Result.bind_eq_ok.mp written
  obtain ⟨length, pushed, done⟩ := Result.bind_eq_ok.mp written
  obtain ⟨small, rfl⟩ := pushLength_eq_ok.mp pushed
  cases done
  have room : query.chunkIds.length ≤ (chunkIdBytes query.chunkIds).length / 32 := by
    rw [length_chunkIdBytes]
    omega
  have built : HaveQuery.new query.fileId query.chunkIds = .ok query := by
    unfold HaveQuery.new
    rw [dif_pos query.counted]
  rw [decodeHaveQuery]
  apply ReadsAll.result
  unfold readHaveQuery
  rw [List.append_assoc]
  apply ReadsAll.bind (Reader.reads_prefix haveMagic)
  apply Reader.readsAll_tag
  apply ReadsAll.require rfl
  apply ReadsAll.bind (Reader.reads_id _)
  apply ReadsAll.bind (Reader.reads_u32 small)
  apply ReadsAll.ofExcept counted
  apply ReadsAll.get
  apply ReadsAll.require room
  apply ReadsAll.then_nil (reads_chunkIds _).all
  apply ReadsAll.then_nil Reader.readsAll_finish
  exact Action.ofExcept_eq_ok.mpr ⟨built, rfl⟩

theorem decodeHaveReply_encode {reply : HaveReply} {out : Bytes}
    (written : encodeHaveReply reply = .ok out) : decodeHaveReply out = .ok reply := by
  obtain ⟨_, counted, written⟩ := Result.bind_eq_ok.mp written
  obtain ⟨_, sized, written⟩ := Result.bind_eq_ok.mp written
  obtain ⟨length, pushed, done⟩ := Result.bind_eq_ok.mp written
  obtain ⟨small, rfl⟩ := pushLength_eq_ok.mp pushed
  have sized := ensure_eq_ok.mp sized
  cases done
  have exact_length : (chunkIdBytes reply.chunkIds ++ reply.haveBitset).length =
      reply.chunkIds.length * 32 + bitsetLength reply.chunkIds.length := by
    rw [List.length_append, length_chunkIdBytes, sized]
  rw [decodeHaveReply]
  apply ReadsAll.result
  unfold readHaveReply
  simp only [List.append_assoc]
  apply ReadsAll.bind (Reader.reads_prefix haveMagic)
  apply Reader.readsAll_tag
  apply ReadsAll.require rfl
  apply ReadsAll.bind (Reader.reads_id _)
  apply ReadsAll.bind (Reader.reads_u32 small)
  apply ReadsAll.ofExcept counted
  apply ReadsAll.get
  apply ReadsAll.require exact_length
  apply ReadsAll.bind (reads_chunkIds _)
  apply ReadsAll.then_nil (Reader.reads_take sized).all
  exact ReadsAll.then_nil Reader.readsAll_finish (ReadsAll.pure reply)

inductive MemberRequest where
  | haveQuery (query : HaveQuery)
  | control (control : NetControl)
  | pull (request : PullRequest)
  | update (update : ControlUpdate)

/-- The decoders of `serve_live` in the order they are tried. -/
def serveLive (plaintext : Bytes) : Result MemberRequest :=
  if haveMagic.isPrefixOf plaintext then do
    let query ← decodeHaveQuery plaintext
    pure (.haveQuery query)
  else match decodeNetControl plaintext with
  | .ok control => pure (.control control)
  | .error _ => match decodePullRequest plaintext with
    | .ok request => pure (.pull request)
    | .error _ => do
      let record ← decodeControlRecord plaintext
      ensure (record.id = 0) .authenticationFailed
      pure (.update record.update)

inductive HostReply where
  | haveReply (reply : HaveReply)
  | control (control : NetControl)
  | record (record : ControlRecord)

/-- The decoders of `apply_live_plaintext`. -/
def liveReply (plaintext : Bytes) : Result HostReply :=
  match decodeNetControl plaintext with
  | .ok control => pure (.control control)
  | .error _ => do
    let record ← decodeControlRecord plaintext
    pure (.record record)

/-- A member that waits for the answer to a query looks for the magic first. -/
def queriedReply (plaintext : Bytes) : Result HostReply :=
  if haveMagic.isPrefixOf plaintext then do
    let reply ← decodeHaveReply plaintext
    pure (.haveReply reply)
  else liveReply plaintext

theorem not_haveMagic {first : UInt8} {rest : Bytes} (other : first ≠ 113) :
    haveMagic.isPrefixOf (first :: rest) = false := by
  have head : haveMagic = 113 :: haveMagic.tail := by decide
  rw [head, List.isPrefixOf_cons_cons, beq_false_of_ne other.symm, Bool.false_and]

theorem isPrefixOf_haveMagic (rest : Bytes) : haveMagic.isPrefixOf (haveMagic ++ rest) = true :=
  List.isPrefixOf_iff_prefix.mpr (List.prefix_append _ _)

theorem decodeNetControl_zero (rest : Bytes) :
    decodeNetControl (0 :: rest) =
      .error (.invalidInput "unknown encrypted network control kind") := by
  have tag : Reader.byte (0 :: rest) = (.ok 0, rest) := Reader.reads_byte 0 rest
  unfold decodeNetControl readNetControl
  rw [Action.bind_ok tag]
  rfl

theorem toBE_of_lt {width value : Nat} (small : value < 256 ^ width) :
    toBE (width + 1) value = 0 :: toBE width value := by
  rw [toBE, Nat.div_eq_of_lt small]
  rfl

theorem encodePullRequest_of_decode {bytes : Bytes} {request : PullRequest}
    (decoded : decodePullRequest bytes = .ok request) : encodePullRequest request = .ok bytes := by
  rw [decodePullRequest] at decoded
  obtain ⟨after, read⟩ : ∃ after, readPullRequest bytes = (.ok request, after) :=
    ⟨_, Prod.ext decoded rfl⟩
  obtain ⟨count, _, counted, read⟩ := Action.bind_eq_ok.mp read
  obtain ⟨_, _, capped, read⟩ := Action.bind_eq_ok.mp read
  obtain ⟨_, _, got, read⟩ := Action.bind_eq_ok.mp read
  obtain ⟨_, _, enough, read⟩ := Action.bind_eq_ok.mp read
  obtain ⟨chunkIds, _, listed, read⟩ := Action.bind_eq_ok.mp read
  obtain ⟨_, _, ended, built⟩ := Action.bind_eq_ok.mp read
  obtain ⟨values, _, taken, done⟩ := Action.bind_eq_ok.mp listed
  obtain ⟨rfl, small⟩ := Reader.u32_eq_ok.mp counted
  obtain ⟨-, rfl⟩ := (Action.require_eq_ok _ _ _ _).mp capped
  cases got
  obtain ⟨-, rfl⟩ := (Action.require_eq_ok _ _ _ _).mp enough
  obtain ⟨rfl, rfl⟩ := Reader.times_eq_ok Reader.readId_eq_ok.mp taken
  cases done
  obtain ⟨rfl, -⟩ := Reader.finish_eq_ok.mp ended
  obtain ⟨request_eq, -⟩ := Action.ofExcept_eq_ok.mp built
  have listed : request.chunkIds = values.map ChunkId.mk := by
    unfold PullRequest.new at request_eq
    split at request_eq
    · cases request_eq
      rfl
    · cases request_eq
  have ids : chunkIdBytes (values.map ChunkId.mk) = (values.map idBytes).flatten := by
    rw [chunkIdBytes, List.map_map]
    rfl
  rw [encodePullRequest, listed, List.length_map, ids, List.append_nil, Result.bind_eq_ok]
  exact ⟨_, pushLength_eq_ok.mpr ⟨small, rfl⟩, rfl⟩

theorem decodePullRequest_record (rest : Bytes) :
    ∃ error, decodePullRequest (toBE 8 0 ++ rest) = .error error := by
  cases decoded : decodePullRequest (toBE 8 0 ++ rest) with
  | error error => exact ⟨error, rfl⟩
  | ok request =>
    obtain ⟨length, pushed, done⟩ := Result.bind_eq_ok.mp (encodePullRequest_of_decode decoded)
    obtain ⟨small, rfl⟩ := pushLength_eq_ok.mp pushed
    have same : toBE 4 request.chunkIds.length ++ chunkIdBytes request.chunkIds =
        toBE 4 0 ++ (toBE 4 0 ++ rest) := Except.ok.inj done
    have first := Reader.reads_u32 small (chunkIdBytes request.chunkIds)
    rw [same, Reader.reads_u32 (Nat.zero_le _)] at first
    obtain ⟨none, left⟩ := Prod.mk.inj first
    have sizes := congrArg List.length left
    rw [length_chunkIdBytes, ← Except.ok.inj none, List.length_append, length_toBE] at sizes
    omega

section

variable {out : Bytes}

theorem serveLive_haveQuery {query : HaveQuery} (written : encodeHaveQuery query = .ok out) :
    serveLive out = .ok (.haveQuery query) := by
  have decoded := decodeHaveQuery_encode written
  obtain ⟨_, _, written⟩ := Result.bind_eq_ok.mp written
  obtain ⟨length, _, done⟩ := Result.bind_eq_ok.mp written
  cases done
  rw [serveLive, if_pos (isPrefixOf_haveMagic _), decoded]
  rfl

theorem netControl_not_magic {control : NetControl} (written : encodeNetControl control = .ok out) :
    haveMagic.isPrefixOf out = false := by
  obtain ⟨kind, body, rfl, -, small⟩ := encodeNetControl_cons written
  apply not_haveMagic
  rintro rfl
  exact absurd small (by decide)

theorem serveLive_control {control : NetControl} (written : encodeNetControl control = .ok out) :
    serveLive out = .ok (.control control) := by
  rw [serveLive, netControl_not_magic written, decodeNetControl_encode written]
  rfl

theorem serveLive_pull {request : PullRequest} (written : encodePullRequest request = .ok out) :
    serveLive out = .ok (.pull request) := by
  have decoded := decodePullRequest_encode written
  obtain ⟨length, pushed, done⟩ := Result.bind_eq_ok.mp written
  obtain ⟨-, rfl⟩ := pushLength_eq_ok.mp pushed
  have below : request.chunkIds.length < 256 ^ 3 := by
    have := request.atMost
    unfold maxPullChunkIds at this
    omega
  cases done
  rw [toBE_of_lt below, List.cons_append] at decoded ⊢
  rw [serveLive, not_haveMagic (by decide), decodeNetControl_zero, decoded]
  rfl

theorem serveLive_update {update : ControlUpdate}
    (written : encodeControlRecord { id := 0, update } = .ok out) :
    serveLive out = .ok (.update update) := by
  have decoded := decodeControlRecord_encode (Nat.zero_le _) written
  obtain ⟨body, _, done⟩ := Result.bind_eq_ok.mp written
  cases done
  obtain ⟨error, refused⟩ := decodePullRequest_record body
  have zeros : toBE 8 0 ++ body = 0 :: (toBE 7 0 ++ body) := rfl
  rw [zeros] at decoded refused ⊢
  rw [serveLive, not_haveMagic (by decide), decodeNetControl_zero, refused, decoded]
  rfl

theorem liveReply_control {control : NetControl} (written : encodeNetControl control = .ok out) :
    liveReply out = .ok (.control control) := by
  rw [liveReply, decodeNetControl_encode written]
  rfl

theorem liveReply_record {record : ControlRecord} (small : record.id < 2 ^ 56)
    (written : encodeControlRecord record = .ok out) :
    liveReply out = .ok (.record record) ∧ haveMagic.isPrefixOf out = false := by
  have fits : record.id ≤ u64Max := by
    unfold u64Max
    omega
  have decoded := decodeControlRecord_encode fits written
  obtain ⟨body, _, done⟩ := Result.bind_eq_ok.mp written
  have below : record.id < 256 ^ 7 := by omega
  cases done
  rw [toBE_of_lt below, List.cons_append] at decoded ⊢
  refine ⟨?_, not_haveMagic (by decide)⟩
  rw [liveReply, decodeNetControl_zero, decoded]
  rfl

theorem queriedReply_haveReply {reply : HaveReply} (written : encodeHaveReply reply = .ok out) :
    queriedReply out = .ok (.haveReply reply) := by
  have decoded := decodeHaveReply_encode written
  obtain ⟨_, _, written⟩ := Result.bind_eq_ok.mp written
  obtain ⟨_, _, written⟩ := Result.bind_eq_ok.mp written
  obtain ⟨length, _, done⟩ := Result.bind_eq_ok.mp written
  cases done
  rw [queriedReply, if_pos (isPrefixOf_haveMagic _), decoded]
  rfl

theorem queriedReply_of_other (other : haveMagic.isPrefixOf out = false) :
    queriedReply out = liveReply out := by
  rw [queriedReply, other]
  rfl

end

/-- Each side takes every packet the other can write for what it is. -/
theorem live_dispatch_unambiguous :
    (∀ query out, encodeHaveQuery query = .ok out → serveLive out = .ok (.haveQuery query)) ∧
    (∀ control out, encodeNetControl control = .ok out →
      serveLive out = .ok (.control control)) ∧
    (∀ request out, encodePullRequest request = .ok out → serveLive out = .ok (.pull request)) ∧
    (∀ update out, encodeControlRecord { id := 0, update } = .ok out →
      serveLive out = .ok (.update update)) ∧
    (∀ control out, encodeNetControl control = .ok out →
      liveReply out = .ok (.control control) ∧ queriedReply out = .ok (.control control)) ∧
    (∀ reply out, encodeHaveReply reply = .ok out → queriedReply out = .ok (.haveReply reply)) ∧
    ∀ record out, record.id < 2 ^ 56 → encodeControlRecord record = .ok out →
      liveReply out = .ok (.record record) ∧ queriedReply out = .ok (.record record) := by
  refine ⟨fun _ _ => serveLive_haveQuery, fun _ _ => serveLive_control, fun _ _ => serveLive_pull,
    fun _ _ => serveLive_update, ?_, fun _ _ => queriedReply_haveReply, ?_⟩
  · intro control out written
    rw [queriedReply_of_other (netControl_not_magic written)]
    exact ⟨liveReply_control written, liveReply_control written⟩
  · intro record out small written
    obtain ⟨read, other⟩ := liveReply_record small written
    rw [queriedReply_of_other other]
    exact ⟨read, read⟩

theorem live_dispatch_unambiguous_add :
    serveLive (toBE 8 0 ++ 1 :: idBytes 5) = .ok (.update (.add ⟨5⟩)) :=
  live_dispatch_unambiguous.2.2.2.1 (.add ⟨5⟩) _ rfl

end QuantumFs.Net
