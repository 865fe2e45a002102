import QuantumFs.Encoding.Control
import QuantumFs.Encoding.Local

/-! What two peers send before they share a key, and what a signed request looks
like. Every decoder accepts the bytes its encoder writes, and no others. -/
namespace QuantumFs.Encoding

open Lib Net

def encodeSigned (message : Result Bytes) (signature : Bytes) : Result Bytes := do
  let message ← message
  let message ← pushVariable message
  let signature ← pushVariable signature
  pure (message ++ signature)

def readSigned {α : Type} (decode : Bytes → Bytes → Result α) : Action Error Bytes α := do
  let message ← Reader.readVariable
  let signature ← Reader.readVariable
  Reader.finish
  Action.ofExcept (decode message signature)

def encodeWrap (message : WrapMessage) : Result Bytes :=
  encodeSigned (wrapM message) message.signature

def decodeWrap (bytes : Bytes) : Result WrapMessage := (readSigned decodeWrapMessage bytes).1

def encodeDirForget (request : DirForget) : Result Bytes :=
  encodeSigned (pure (dirForgetM request)) request.signature

def readDirForgetMessage (signature : Bytes) : Action Error Bytes DirForget := do
  let peerId ← Reader.readId
  let vaultId ← Reader.readId
  let joinCode ← readJoinCode
  let issuedAt ← Reader.u64
  Reader.finish
  pure { peerId := ⟨peerId⟩, vaultId := ⟨vaultId⟩, joinCode, issuedAt := Fin.ofNat _ issuedAt, signature }

def decodeDirForget (bytes : Bytes) : Result DirForget :=
  (readSigned (fun message signature => (readDirForgetMessage signature message).1) bytes).1

def encodeJoinRequest (request : JoinRequest) : Result Bytes :=
  encodeSigned (joinRequestM request) request.signature

/-- The identity was verified when it was exchanged; the request repeats its exact bytes. -/
def readJoinRequestMessage (exchanged : IdentityDocument) (signature : Bytes) :
    Action Error Bytes JoinRequest := do
  let vaultId ← Reader.readId
  let joinCode ← readJoinCode
  let rest ← Action.get
  let identity ← Reader.take rest.length
  let expected ← Action.ofExcept (identityM exchanged)
  Action.require (identity = expected) .authenticationFailed
  Reader.finish
  pure { vaultId := ⟨vaultId⟩, joinCode, document := exchanged, signature }

def decodeJoinRequest (bytes : Bytes) (exchanged : IdentityDocument) : Result JoinRequest :=
  (readSigned (fun message signature => (readJoinRequestMessage exchanged signature message).1)
    bytes).1

def epochHintM (peer : PeerId) (epoch : Nat) : Bytes := idBytes peer.val ++ toBE 8 epoch

def readEpochHint : Action Error Bytes (PeerId × Nat) := do
  let peer ← Reader.readId
  let epoch ← Reader.u64
  Reader.finish
  pure (⟨peer⟩, epoch)

def decodeEpochHint (bytes : Bytes) : Result (PeerId × Nat) := (readEpochHint bytes).1

def encodeWrapAck (epoch : Nat) (retryPending : Bool) : Bytes :=
  toBE 8 epoch ++ [if retryPending then 1 else 0]

def readRetryFlag : Action Error Bytes Bool := do
  let flag ← Reader.byte
  match flag with
  | 0 => pure false
  | 1 => pure true
  | _ => Action.throw (.invalidInput "invalid WrapAck retry flag")

def readWrapAck : Action Error Bytes (Nat × Bool) := do
  let epoch ← Reader.u64
  let retryPending ← readRetryFlag
  Reader.finish
  pure (epoch, retryPending)

def decodeWrapAck (bytes : Bytes) : Result (Nat × Bool) := (readWrapAck bytes).1

variable {bytes : Bytes}

theorem result_iff {α : Type} {read : Action Error Bytes α} {x : α}
    (ends : ∀ {rest}, read bytes = (.ok x, rest) → rest = []) :
    (read bytes).1 = .ok x ↔ read bytes = (.ok x, []) := by
  constructor
  · intro decoded
    have read : read bytes = (.ok x, (read bytes).2) := Prod.ext decoded rfl
    rw [read, ends read]
  · intro read
    rw [read]

theorem readSigned_eq_ok {α : Type} {decode : Bytes → Bytes → Result α} {x : α} {rest : Bytes} :
    readSigned decode bytes = (.ok x, rest) ↔ rest = [] ∧ ∃ message framed signature tail,
      pushVariable message = .ok framed ∧ pushVariable signature = .ok tail ∧
      bytes = framed ++ tail ∧ decode message signature = .ok x := by
  constructor
  · intro read
    obtain ⟨message, _, first, read⟩ := Action.bind_eq_ok.mp read
    obtain ⟨signature, _, second, read⟩ := Action.bind_eq_ok.mp read
    obtain ⟨_, _, ended, last⟩ := Action.bind_eq_ok.mp read
    obtain ⟨framed, third, rfl⟩ := Reader.readVariable_eq_ok.mp first
    obtain ⟨tail, fourth, rfl⟩ := Reader.readVariable_eq_ok.mp second
    obtain ⟨rfl, rfl⟩ := Reader.finish_eq_ok.mp ended
    obtain ⟨decoded, rfl⟩ := Action.ofExcept_eq_ok.mp last
    exact ⟨rfl, message, framed, signature, tail, third, fourth, by rw [List.append_nil], decoded⟩
  · rintro ⟨rfl, message, framed, signature, tail, first, second, rfl, decoded⟩
    have all : ReadsAll (readSigned decode) (framed ++ tail) x := by
      apply ReadsAll.bind (Reader.reads_variable first)
      apply ReadsAll.then_nil (Reader.reads_variable second).all
      apply ReadsAll.then_nil Reader.readsAll_finish
      exact Action.ofExcept_eq_ok.mpr ⟨decoded, rfl⟩
    exact all

theorem encodeSigned_eq_ok {message : Result Bytes} {signature : Bytes} :
    encodeSigned message signature = .ok bytes ↔ ∃ signed framed tail, message = .ok signed ∧
      pushVariable signed = .ok framed ∧ pushVariable signature = .ok tail ∧
      bytes = framed ++ tail := by
  simp only [encodeSigned, Result.bind_eq_ok, pure, Except.pure, Except.ok.injEq,
    @eq_comm _ _ bytes]
  constructor
  · rintro ⟨signed, first, framed, second, tail, third, same⟩
    exact ⟨signed, framed, tail, first, second, third, same⟩
  · rintro ⟨signed, framed, tail, first, second, third, same⟩
    exact ⟨signed, first, framed, second, tail, third, same⟩

theorem decodeSigned_iff {α : Type} {decode : Bytes → Bytes → Result α} {message : α → Result Bytes}
    {signature : α → Bytes} (fits : α → Prop) {x : α}
    (canonical : ∀ signed tail, decode signed tail = .ok x ↔
      message x = .ok signed ∧ signature x = tail ∧ fits x) :
    (readSigned decode bytes).1 = .ok x ↔
      encodeSigned (message x) (signature x) = .ok bytes ∧ fits x := by
  rw [result_iff fun read => (readSigned_eq_ok.mp read).1, readSigned_eq_ok, encodeSigned_eq_ok]
  constructor
  · rintro ⟨-, signed, framed, tail, framedTail, first, second, same, decoded⟩
    obtain ⟨written, rfl, fit⟩ := (canonical _ _).mp decoded
    exact ⟨⟨signed, framed, framedTail, written, first, second, same⟩, fit⟩
  · rintro ⟨⟨signed, framed, framedTail, written, first, second, same⟩, fit⟩
    exact ⟨rfl, signed, framed, _, framedTail, first, second, same,
      (canonical _ _).mpr ⟨written, rfl, fit⟩⟩

theorem decodeIdentityDocument_iff {document : IdentityDocument} {signed tail : Bytes} :
    decodeIdentityDocument signed tail = .ok document ↔
      identityM document = .ok signed ∧ document.signature = tail ∧ True := by
  constructor
  · intro decoded
    have read : readIdentityDocument tail signed = (.ok document, (readIdentityDocument tail signed).2) :=
      Prod.ext decoded rfl
    obtain ⟨peerId, _, first, read⟩ := Action.bind_eq_ok.mp read
    obtain ⟨ek, _, second, read⟩ := Action.bind_eq_ok.mp read
    obtain ⟨vk, _, third, read⟩ := Action.bind_eq_ok.mp read
    obtain ⟨createdAt, _, fourth, read⟩ := Action.bind_eq_ok.mp read
    obtain ⟨_, _, ended, done⟩ := Action.bind_eq_ok.mp read
    obtain rfl := Reader.readId_eq_ok.mp first
    obtain ⟨framedEk, fifth, rfl⟩ := Reader.readVariable_eq_ok.mp second
    obtain ⟨framedVk, sixth, rfl⟩ := Reader.readVariable_eq_ok.mp third
    obtain ⟨rfl, small⟩ := Reader.u64_eq_ok.mp fourth
    obtain ⟨rfl, -⟩ := Reader.finish_eq_ok.mp ended
    cases done
    refine ⟨identityM_eq_ok.mpr ⟨framedEk, framedVk, fifth, sixth, ?_⟩, rfl, trivial⟩
    rw [toBE_fin_ofNat small]
    simp
  · rintro ⟨written, rfl, -⟩
    exact decodeIdentityDocument_identityM written

theorem decodeWrapMessage_iff {wrap : WrapMessage} {signed tail : Bytes} :
    decodeWrapMessage signed tail = .ok wrap ↔
      wrapM wrap = .ok signed ∧ wrap.signature = tail ∧ wrap.epoch ≤ u64Max := by
  constructor
  · intro decoded
    have read : readWrapMessage tail signed = (.ok wrap, (readWrapMessage tail signed).2) :=
      Prod.ext decoded rfl
    obtain ⟨kemCt, _, first, read⟩ := Action.bind_eq_ok.mp read
    obtain ⟨wrapCt, _, second, read⟩ := Action.bind_eq_ok.mp read
    obtain ⟨epoch, _, third, read⟩ := Action.bind_eq_ok.mp read
    obtain ⟨minId, _, fourth, read⟩ := Action.bind_eq_ok.mp read
    obtain ⟨maxId, _, fifth, read⟩ := Action.bind_eq_ok.mp read
    obtain ⟨_, _, ended, read⟩ := Action.bind_eq_ok.mp read
    obtain ⟨_, _, sorted, done⟩ := Action.bind_eq_ok.mp read
    obtain ⟨framedKem, sixth, rfl⟩ := Reader.readVariable_eq_ok.mp first
    obtain ⟨framedWrap, seventh, rfl⟩ := Reader.readVariable_eq_ok.mp second
    obtain ⟨rfl, small⟩ := Reader.u64_eq_ok.mp third
    obtain rfl := Reader.readId_eq_ok.mp fourth
    obtain rfl := Reader.readId_eq_ok.mp fifth
    obtain ⟨rfl, -⟩ := Reader.finish_eq_ok.mp ended
    obtain ⟨ordered, -⟩ := Action.ofExcept_eq_ok.mp sorted
    cases done
    refine ⟨wrapM_eq_ok.mpr ⟨ensure_eq_ok.mp ordered, framedKem, framedWrap, sixth, seventh, ?_⟩,
      rfl, small⟩
    simp
  · rintro ⟨written, rfl, small⟩
    exact decodeWrapMessage_wrapM small written

theorem readJoinCode_eq_ok {joinCode : JoinCode} {rest : Bytes} :
    readJoinCode bytes = (.ok joinCode, rest) ↔ bytes = joinCodeBytes joinCode ++ rest := by
  constructor
  · intro read
    obtain ⟨taken, _, first, done⟩ := Action.bind_eq_ok.mp read
    obtain ⟨rfl, size⟩ := Reader.take_eq_ok.mp first
    cases done
    have bound := ofBE_lt taken
    have back := toBE_ofBE taken
    rw [size] at bound back
    have small : ofBE taken < 2 ^ 128 := by omega
    rw [joinCodeBytes, Fin.val_ofNat, Nat.mod_eq_of_lt small, back]
  · rintro rfl
    exact reads_joinCode joinCode rest

theorem readDirForgetMessage_iff {request : DirForget} {signed tail : Bytes} :
    (readDirForgetMessage tail signed).1 = .ok request ↔
      (pure (dirForgetM request) : Result Bytes) = .ok signed ∧ request.signature = tail ∧ True := by
  constructor
  · intro decoded
    have read : readDirForgetMessage tail signed = (.ok request, (readDirForgetMessage tail signed).2) :=
      Prod.ext decoded rfl
    obtain ⟨peerId, _, first, read⟩ := Action.bind_eq_ok.mp read
    obtain ⟨vaultId, _, second, read⟩ := Action.bind_eq_ok.mp read
    obtain ⟨joinCode, _, third, read⟩ := Action.bind_eq_ok.mp read
    obtain ⟨issuedAt, _, fourth, read⟩ := Action.bind_eq_ok.mp read
    obtain ⟨_, _, ended, done⟩ := Action.bind_eq_ok.mp read
    obtain rfl := Reader.readId_eq_ok.mp first
    obtain rfl := Reader.readId_eq_ok.mp second
    obtain rfl := readJoinCode_eq_ok.mp third
    obtain ⟨rfl, small⟩ := Reader.u64_eq_ok.mp fourth
    obtain ⟨rfl, -⟩ := Reader.finish_eq_ok.mp ended
    cases done
    refine ⟨congrArg Except.ok ?_, rfl, trivial⟩
    rw [dirForgetM, toBE_fin_ofNat small]
    simp
  · rintro ⟨written, rfl, -⟩
    cases written
    apply ReadsAll.result
    unfold readDirForgetMessage dirForgetM
    simp only [List.append_assoc]
    apply ReadsAll.bind (Reader.reads_id _)
    apply ReadsAll.bind (Reader.reads_id _)
    apply ReadsAll.bind (reads_joinCode _)
    apply ReadsAll.then_nil (Reader.reads_u64 (u64_le request.issuedAt)).all
    apply ReadsAll.then_nil Reader.readsAll_finish
    rw [fin_ofNat_val]
    exact ReadsAll.pure request

theorem readJoinRequestMessage_iff {exchanged : IdentityDocument} {request : JoinRequest}
    {signed tail : Bytes} : (readJoinRequestMessage exchanged tail signed).1 = .ok request ↔
      joinRequestM request = .ok signed ∧ request.signature = tail ∧ request.document = exchanged := by
  constructor
  · intro decoded
    have read : readJoinRequestMessage exchanged tail signed =
        (.ok request, (readJoinRequestMessage exchanged tail signed).2) := Prod.ext decoded rfl
    obtain ⟨vaultId, _, first, read⟩ := Action.bind_eq_ok.mp read
    obtain ⟨joinCode, _, second, read⟩ := Action.bind_eq_ok.mp read
    obtain ⟨left, _, got, read⟩ := Action.bind_eq_ok.mp read
    obtain ⟨identity, _, third, read⟩ := Action.bind_eq_ok.mp read
    obtain ⟨expected, _, encoded, read⟩ := Action.bind_eq_ok.mp read
    obtain ⟨_, _, same, read⟩ := Action.bind_eq_ok.mp read
    obtain ⟨_, _, ended, done⟩ := Action.bind_eq_ok.mp read
    obtain rfl := Reader.readId_eq_ok.mp first
    obtain rfl := readJoinCode_eq_ok.mp second
    cases got
    obtain ⟨rfl, -⟩ := Reader.take_eq_ok.mp third
    obtain ⟨written, rfl⟩ := Action.ofExcept_eq_ok.mp encoded
    obtain ⟨rfl, rfl⟩ := (Action.require_eq_ok _ _ _ _).mp same
    obtain ⟨rfl, -⟩ := Reader.finish_eq_ok.mp ended
    cases done
    refine ⟨Result.bind_eq_ok.mpr ⟨identity, written, congrArg Except.ok ?_⟩, rfl, rfl⟩
    simp
  · rintro ⟨written, rfl, rfl⟩
    obtain ⟨identity, first, done⟩ := Result.bind_eq_ok.mp written
    cases done
    apply ReadsAll.result
    unfold readJoinRequestMessage
    simp only [List.append_assoc]
    apply ReadsAll.bind (Reader.reads_id _)
    apply ReadsAll.bind (reads_joinCode _)
    apply ReadsAll.get
    apply ReadsAll.then_nil (Reader.reads_take rfl).all
    apply ReadsAll.ofExcept first
    apply ReadsAll.require rfl
    exact ReadsAll.then_nil Reader.readsAll_finish (ReadsAll.pure request)

theorem decodeEpochHint_iff {peer : PeerId} {epoch : Nat} :
    decodeEpochHint bytes = .ok (peer, epoch) ↔ epochHintM peer epoch = bytes ∧ epoch ≤ u64Max := by
  constructor
  · intro decoded
    have read : readEpochHint bytes = (.ok (peer, epoch), (readEpochHint bytes).2) :=
      Prod.ext decoded rfl
    obtain ⟨value, _, first, read⟩ := Action.bind_eq_ok.mp read
    obtain ⟨number, _, second, read⟩ := Action.bind_eq_ok.mp read
    obtain ⟨_, _, ended, done⟩ := Action.bind_eq_ok.mp read
    obtain rfl := Reader.readId_eq_ok.mp first
    obtain ⟨rfl, small⟩ := Reader.u64_eq_ok.mp second
    obtain ⟨rfl, -⟩ := Reader.finish_eq_ok.mp ended
    cases done
    exact ⟨by rw [epochHintM, List.append_nil], small⟩
  · rintro ⟨rfl, small⟩
    apply ReadsAll.result
    apply ReadsAll.bind (Reader.reads_id _)
    apply ReadsAll.then_nil (Reader.reads_u64 small).all
    exact ReadsAll.then_nil Reader.readsAll_finish (ReadsAll.pure _)

theorem readRetryFlag_eq_ok {retryPending : Bool} {rest : Bytes} :
    readRetryFlag bytes = (.ok retryPending, rest) ↔
      bytes = (if retryPending then 1 else 0) :: rest := by
  constructor
  · intro read
    obtain ⟨flag, _, first, matched⟩ := Action.bind_eq_ok.mp read
    obtain rfl := Reader.byte_eq_ok.mp first
    split at matched <;> cases matched <;> rfl
  · rintro rfl
    cases retryPending <;> rfl

theorem decodeWrapAck_iff {epoch : Nat} {retryPending : Bool} :
    decodeWrapAck bytes = .ok (epoch, retryPending) ↔
      encodeWrapAck epoch retryPending = bytes ∧ epoch ≤ u64Max := by
  constructor
  · intro decoded
    have read : readWrapAck bytes = (.ok (epoch, retryPending), (readWrapAck bytes).2) :=
      Prod.ext decoded rfl
    obtain ⟨number, _, first, read⟩ := Action.bind_eq_ok.mp read
    obtain ⟨pending, _, second, read⟩ := Action.bind_eq_ok.mp read
    obtain ⟨_, _, ended, done⟩ := Action.bind_eq_ok.mp read
    obtain ⟨rfl, small⟩ := Reader.u64_eq_ok.mp first
    obtain rfl := readRetryFlag_eq_ok.mp second
    obtain ⟨rfl, -⟩ := Reader.finish_eq_ok.mp ended
    cases done
    exact ⟨rfl, small⟩
  · rintro ⟨rfl, small⟩
    apply ReadsAll.result
    unfold encodeWrapAck
    apply ReadsAll.bind (Reader.reads_u64 small)
    have flag : ReadsAll readRetryFlag [if retryPending then 1 else 0] retryPending :=
      readRetryFlag_eq_ok.mpr rfl
    apply ReadsAll.then_nil flag
    exact ReadsAll.then_nil Reader.readsAll_finish (ReadsAll.pure _)

theorem decodeIdentity_iff {document : IdentityDocument} :
    decodeIdentity bytes = .ok document ↔ encodeIdentity document = .ok bytes :=
  (@decodeSigned_iff bytes _ decodeIdentityDocument identityM IdentityDocument.signature
    (fun _ => True) document fun _ _ => decodeIdentityDocument_iff).trans (and_iff_left trivial)

theorem decodeWrap_iff {message : WrapMessage} :
    decodeWrap bytes = .ok message ↔ encodeWrap message = .ok bytes ∧ message.epoch ≤ u64Max :=
  @decodeSigned_iff bytes _ decodeWrapMessage wrapM WrapMessage.signature
    (fun message => message.epoch ≤ u64Max) message fun _ _ => decodeWrapMessage_iff

/-- Each frame of a handshake, a join or a forgotten vault has one encoding, and
its decoder accepts nothing else. -/
theorem handshake_frames_canonical (bytes : Bytes) :
    (∀ document, decodeIdentity bytes = .ok document ↔ encodeIdentity document = .ok bytes) ∧
    (∀ message, decodeWrap bytes = .ok message ↔
      encodeWrap message = .ok bytes ∧ message.epoch ≤ u64Max) ∧
    (∀ peer epoch, decodeEpochHint bytes = .ok (peer, epoch) ↔
      epochHintM peer epoch = bytes ∧ epoch ≤ u64Max) ∧
    (∀ epoch retryPending, decodeWrapAck bytes = .ok (epoch, retryPending) ↔
      encodeWrapAck epoch retryPending = bytes ∧ epoch ≤ u64Max) ∧
    (∀ request, decodeDirForget bytes = .ok request ↔ encodeDirForget request = .ok bytes) ∧
    ∀ request exchanged, decodeJoinRequest bytes exchanged = .ok request ↔
      encodeJoinRequest request = .ok bytes ∧ request.document = exchanged := by
  refine ⟨fun _ => decodeIdentity_iff, fun _ => decodeWrap_iff, fun _ _ => decodeEpochHint_iff,
    fun _ _ => decodeWrapAck_iff, fun request => ?_, fun request exchanged => ?_⟩
  · exact (@decodeSigned_iff bytes _ _ (fun request => pure (dirForgetM request)) DirForget.signature
      (fun _ => True) request fun _ _ => readDirForgetMessage_iff).trans (and_iff_left trivial)
  · exact @decodeSigned_iff bytes _ _ joinRequestM JoinRequest.signature
      (fun request => request.document = exchanged) request fun _ _ => readJoinRequestMessage_iff

end QuantumFs.Encoding
