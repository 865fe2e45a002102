import QuantumFs.Encoding.RoundTrip

/-! A mailbox drain. An envelope exists in three encodings: the framing of its queue,
the frame it is sent in and the bytes its digest covers. The digest of a batch binds
its envelopes, the documents of their writers and the position of its snapshot. -/
namespace QuantumFs.Net

open Lib Encoding Crypto

def readControlPacket : Action Error Bytes ControlPacket := do
  let aad ← Reader.take 81
  let (header, payloadType) ← Action.ofExcept (decodeAad aad)
  Action.require (payloadType = .packet) (.invalidInput "control packet has chunk AAD")
  let ciphertext ← Reader.readVariable
  Reader.finish
  pure { header, ciphertext }

def decodeControlPacket (bytes : Bytes) : Result ControlPacket := (readControlPacket bytes).1

def readChunkBodyFrame : Action Error Bytes ChunkBodyFrame := do
  let aad ← Reader.take 121
  let (header, payloadType) ← Action.ofExcept (decodeAad aad)
  Action.require (payloadType = .chunkBody) (.invalidInput "chunk body frame has packet AAD")
  let fileId := Fin.ofNat (2 ^ 256) (ofBE ((aad.drop 81).take 32))
  let index := ofBE ((aad.drop 113).take 8)
  let ciphertext ← Reader.readVariable
  Reader.finish
  pure { header, fileId := ⟨fileId⟩, index, ciphertext }

def decodeChunkBodyFrame (bytes : Bytes) : Result ChunkBodyFrame := (readChunkBodyFrame bytes).1

def envelopeHeader (envelope : MailboxEnvelope) : PacketHeader where
  version := protocolVersion
  senderId := envelope.senderId
  receiverId := envelope.recipientId
  epoch := envelope.epoch
  seq := envelope.seq

/-- The transport form of a queued envelope; the time it was queued is left out. -/
def encodeMailboxEnvelope (envelope : MailboxEnvelope) : Result Bytes := do
  let frame ← decodeMailboxFrame envelope.ciphertext
  match frame with
  | .control ciphertext => do
      let packet ← encodeControlPacket { header := envelopeHeader envelope, ciphertext }
      let packet ← pushVariable packet
      pure (0 :: packet)
  | .chunkBody fileId index ciphertext => do
      let body ← encodeChunkBodyFrame
        { header := envelopeHeader envelope, fileId, index, ciphertext }
      let body ← pushVariable body
      pure (1 :: body)

def pushEnvelope (envelope : MailboxEnvelope) : Result Bytes := do
  let encoded ← encodeMailboxEnvelope envelope
  pushVariable encoded

def mailboxWireM (envelopes : List MailboxEnvelope) : Result Bytes :=
  encodeSection pushEnvelope envelopes

/-- What the writer documents add to the digest of the envelopes. -/
def historyPreimage (mailbox : Fin (2 ^ 256)) (historical : List IdentityDocument) :
    Result Bytes := do
  let documents ← encodeSection pushIdentity historical
  pure (idBytes mailbox ++ documents)

def bootstrapPreimage (digest : Fin (2 ^ 256)) (through : U64) : Bytes :=
  ascii "qfs/v1/bootstrap/" ++ idBytes digest ++ toBE 8 through.val

section

variable [Primitives]

def mailboxDigest (envelopes : List MailboxEnvelope) : Result (Fin (2 ^ 256)) := do
  let wire ← mailboxWireM envelopes
  pure (sha256 wire)

def flushTransportDigest (envelopes : List MailboxEnvelope) (historical : List IdentityDocument) :
    Result (Fin (2 ^ 256)) := do
  let mailbox ← mailboxDigest envelopes
  if historical = [] then
    pure mailbox
  else do
    let committed ← historyPreimage mailbox historical
    pure (sha256 committed)

def flushTransportDigestWithBootstrap (envelopes : List MailboxEnvelope)
    (historical : List IdentityDocument) (bootstrapThrough : Option U64) :
    Result (Fin (2 ^ 256)) := do
  let digest ← flushTransportDigest envelopes historical
  match bootstrapThrough with
  | none => pure digest
  | some through => pure (sha256 (bootstrapPreimage digest through))

end

def bodyFrame (envelope : MailboxEnvelope) : Result Frame := do
  let frame ← decodeMailboxFrame envelope.ciphertext
  match frame with
  | .control ciphertext => do
      let packet ← encodeControlPacket { header := envelopeHeader envelope, ciphertext }
      Frame.new Frame.gcmPacketKind packet
  | .chunkBody fileId index ciphertext => do
      let body ← encodeChunkBodyFrame
        { header := envelopeHeader envelope, fileId, index, ciphertext }
      Frame.new Frame.gcmChunkKind body

def receivedFrame (received : Frame) : Result (PacketHeader × MailboxFrame) :=
  if received.kind = Frame.gcmPacketKind then do
    let packet ← decodeControlPacket received.payload
    pure (packet.header, .control packet.ciphertext)
  else if received.kind = Frame.gcmChunkKind then do
    let body ← decodeChunkBodyFrame received.payload
    pure (body.header, .chunkBody body.fileId body.index body.ciphertext)
  else
    .error (.state "unexpected frame during mailbox drain")

def queuedFrame (received : Frame) : Result MailboxEnvelope := do
  let (header, inner) ← receivedFrame received
  let ciphertext ← encodeMailboxFrame inner
  pure {
    senderId := header.senderId
    recipientId := header.receiverId
    epoch := header.epoch
    seq := header.seq
    queuedAt := 0
    ciphertext }

/-- The counters of a header are `u64`s, and its version is the current one. -/
structure HeaderFits (header : PacketHeader) : Prop where
  version : header.version = protocolVersion
  epoch : header.epoch ≤ u64Max
  seq : header.seq ≤ u64Max

theorem ofBE_toBE_u64 {value : Nat} (small : value ≤ u64Max) : ofBE (toBE 8 value) = value := by
  apply ofBE_toBE
  unfold u64Max at small
  omega

theorem slice_append {front field back : Bytes} {start width : Nat} (before : front.length = start)
    (size : field.length = width) :
    ((front ++ (field ++ back)).drop start).take width = field := by
  rw [List.drop_left' before, List.take_left' size]

theorem decodeHeader_packetAad {header : PacketHeader} (fits : HeaderFits header) (rest : Bytes) :
    decodeHeader (packetAad header ++ rest) = header := by
  have layout : packetAad header ++ rest = [header.version] ++ (idBytes header.senderId.val ++
      (idBytes header.receiverId.val ++ (toBE 8 header.epoch ++ (toBE 8 header.seq ++ rest)))) := by
    simp [packetAad]
  have sender : ((packetAad header ++ rest).drop 1).take 32 = idBytes header.senderId.val := by
    rw [layout]
    exact slice_append rfl (length_idBytes _)
  have receiver : ((packetAad header ++ rest).drop 33).take 32 = idBytes header.receiverId.val := by
    rw [layout, ← List.append_assoc]
    exact slice_append (by simp) (length_idBytes _)
  have epoch : ((packetAad header ++ rest).drop 65).take 8 = toBE 8 header.epoch := by
    rw [layout, ← List.append_assoc, ← List.append_assoc]
    exact slice_append (by simp) (length_toBE _ _)
  have seq : ((packetAad header ++ rest).drop 73).take 8 = toBE 8 header.seq := by
    rw [layout, ← List.append_assoc, ← List.append_assoc, ← List.append_assoc]
    exact slice_append (by simp) (length_toBE _ _)
  unfold decodeHeader
  rw [sender, receiver, epoch, seq, Reader.ofNat_ofBE_idBytes, Reader.ofNat_ofBE_idBytes,
    ofBE_toBE_u64 fits.epoch, ofBE_toBE_u64 fits.seq]
  rfl

theorem decodeAad_packetAad {header : PacketHeader} (fits : HeaderFits header) :
    decodeAad (packetAad header) = .ok (header, .packet) := by
  have fields := decodeHeader_packetAad fits []
  rw [List.append_nil] at fields
  unfold decodeAad
  rw [length_packetAad, fields]
  simp only [Result.bind_eq_ok, ensure_eq_ok]
  exact ⟨_, rfl, (), fits.version, rfl⟩

theorem decodeAad_chunkAad {header : PacketHeader} (fits : HeaderFits header) (fileId : FileId)
    (index : Nat) : decodeAad (chunkAad header fileId index) = .ok (header, .chunkBody) := by
  have fields : decodeHeader (chunkAad header fileId index) = header := by
    rw [chunkAad, List.append_assoc]
    exact decodeHeader_packetAad fits _
  unfold decodeAad
  rw [length_chunkAad, fields]
  simp only [Result.bind_eq_ok, ensure_eq_ok]
  exact ⟨_, rfl, (), fits.version, rfl⟩

theorem decodeControlPacket_encode {packet : ControlPacket} {out : Bytes}
    (fits : HeaderFits packet.header) (written : encodeControlPacket packet = .ok out) :
    decodeControlPacket out = .ok packet := by
  obtain ⟨ciphertext, framed, done⟩ := Result.bind_eq_ok.mp written
  cases done
  apply ReadsAll.result
  unfold readControlPacket
  apply ReadsAll.bind (Reader.reads_take (length_packetAad packet.header))
  apply ReadsAll.ofExcept (decodeAad_packetAad fits)
  apply ReadsAll.require rfl
  apply ReadsAll.then_nil (Reader.reads_variable framed).all
  exact ReadsAll.then_nil Reader.readsAll_finish (ReadsAll.pure packet)

theorem decodeChunkBodyFrame_encode {frame : ChunkBodyFrame} {out : Bytes}
    (fits : HeaderFits frame.header) (small : frame.index ≤ u64Max)
    (written : encodeChunkBodyFrame frame = .ok out) : decodeChunkBodyFrame out = .ok frame := by
  obtain ⟨ciphertext, framed, done⟩ := Result.bind_eq_ok.mp written
  cases done
  have file : ((chunkAad frame.header frame.fileId frame.index).drop 81).take 32 =
      idBytes frame.fileId.val := by
    rw [chunkAad, List.append_assoc]
    exact slice_append (length_packetAad _) (length_idBytes _)
  have position : ((chunkAad frame.header frame.fileId frame.index).drop 113).take 8 =
      toBE 8 frame.index := by
    have cut := @slice_append (packetAad frame.header ++ idBytes frame.fileId.val)
      (toBE 8 frame.index) [] 113 8 (by simp) (length_toBE _ _)
    rwa [List.append_nil] at cut
  apply ReadsAll.result
  unfold readChunkBodyFrame
  apply ReadsAll.bind (Reader.reads_take (length_chunkAad frame.header frame.fileId frame.index))
  apply ReadsAll.ofExcept (decodeAad_chunkAad fits frame.fileId frame.index)
  apply ReadsAll.require rfl
  apply ReadsAll.then_nil (Reader.reads_variable framed).all
  apply ReadsAll.then_nil Reader.readsAll_finish
  rw [file, position, Reader.ofNat_ofBE_idBytes, ofBE_toBE_u64 small]
  exact ReadsAll.pure frame

theorem encodeMailboxFrame_of_decode {bytes : Bytes} {frame : MailboxFrame}
    (decoded : decodeMailboxFrame bytes = .ok frame) : encodeMailboxFrame frame = .ok bytes ∧
      ∀ fileId index ciphertext, frame = .chunkBody fileId index ciphertext → index ≤ u64Max := by
  obtain ⟨rest, accepted⟩ : ∃ rest, readMailboxFrame bytes = (.ok frame, rest) :=
    ⟨_, Prod.ext decoded rfl⟩
  obtain ⟨kind, _, tagged, read⟩ := Action.bind_eq_ok.mp accepted
  obtain rfl := Reader.byte_eq_ok.mp tagged
  obtain ⟨inner, _, body, read⟩ := Action.bind_eq_ok.mp read
  obtain ⟨_, _, ended, done⟩ := Action.bind_eq_ok.mp read
  obtain ⟨rfl, rfl⟩ := Reader.finish_eq_ok.mp ended
  cases done
  split at body
  · obtain ⟨ciphertext, _, framed, done⟩ := Action.bind_eq_ok.mp body
    obtain ⟨out, written, rfl⟩ := Reader.readVariable_eq_ok.mp framed
    cases done
    refine ⟨?_, nofun⟩
    unfold encodeMailboxFrame
    rw [Result.bind_eq_ok]
    exact ⟨out, written, by rw [List.append_nil]; rfl⟩
  · obtain ⟨fileId, _, first, body⟩ := Action.bind_eq_ok.mp body
    obtain ⟨index, _, second, body⟩ := Action.bind_eq_ok.mp body
    obtain ⟨ciphertext, _, framed, done⟩ := Action.bind_eq_ok.mp body
    obtain rfl := Reader.readId_eq_ok.mp first
    obtain ⟨rfl, small⟩ := Reader.u64_eq_ok.mp second
    obtain ⟨out, written, rfl⟩ := Reader.readVariable_eq_ok.mp framed
    cases done
    constructor
    · unfold encodeMailboxFrame
      rw [Result.bind_eq_ok]
      exact ⟨out, written, by rw [List.append_nil, List.append_assoc]; rfl⟩
    · intro _ _ _ same
      cases same
      exact small
  · cases body

/-- The index of a chunk body is a `u64`. -/
def IndexFits : MailboxFrame → Prop
  | .control _ => True
  | .chunkBody _ index _ => index ≤ u64Max

theorem decodeMailboxFrame_encode {frame : MailboxFrame} {bytes : Bytes} (fits : IndexFits frame)
    (written : encodeMailboxFrame frame = .ok bytes) : decodeMailboxFrame bytes = .ok frame := by
  cases frame with
  | control ciphertext =>
    obtain ⟨framed, pushed, done⟩ := Result.bind_eq_ok.mp written
    cases done
    apply ReadsAll.result
    apply Reader.readsAll_tag 0
    have body : ReadsAll (do
        let ciphertext ← Reader.readVariable
        pure (MailboxFrame.control ciphertext)) framed (.control ciphertext) :=
      ReadsAll.then_nil (Reader.reads_variable pushed).all (ReadsAll.pure _)
    exact Reader.readsAll_finished body
  | chunkBody fileId index ciphertext =>
    obtain ⟨framed, pushed, done⟩ := Result.bind_eq_ok.mp written
    cases done
    apply ReadsAll.result
    apply Reader.readsAll_tag 1
    have body : ReadsAll (do
        let fileId ← Reader.readId
        let index ← Reader.u64
        let ciphertext ← Reader.readVariable
        pure (MailboxFrame.chunkBody ⟨fileId⟩ index ciphertext))
        (idBytes fileId.val ++ toBE 8 index ++ framed) (.chunkBody fileId index ciphertext) := by
      rw [List.append_assoc]
      apply ReadsAll.bind (Reader.reads_id fileId.val)
      apply ReadsAll.bind (Reader.reads_u64 fits)
      exact ReadsAll.then_nil (Reader.reads_variable pushed).all (ReadsAll.pure _)
    exact Reader.readsAll_finished body

structure EnvelopeFits (envelope : MailboxEnvelope) : Prop where
  epoch : envelope.epoch ≤ u64Max
  seq : envelope.seq ≤ u64Max

theorem EnvelopeFits.header {envelope : MailboxEnvelope} (fits : EnvelopeFits envelope) :
    HeaderFits (envelopeHeader envelope) := ⟨rfl, fits.epoch, fits.seq⟩

/-- The envelope as it arrives: the time it was queued stays with the host. -/
def arrived (envelope : MailboxEnvelope) : MailboxEnvelope := { envelope with queuedAt := 0 }

theorem frame_new_eq_ok {kind : Nat} {payload : Bytes} {frame : Frame}
    (built : Frame.new kind payload = .ok frame) : frame = { kind, payload } := by
  simp only [Frame.new, Result.bind_eq_ok, ensure_eq_ok] at built
  obtain ⟨_, _, _, _, done⟩ := built
  exact (Except.ok.inj done).symm

theorem frame_new_iff {kind : Nat} {payload : Bytes} (known : Frame.minKind ≤ kind ∧ kind ≤ Frame.maxKind) :
    (∃ frame, Frame.new kind payload = .ok frame) ↔ payload.length + 1 ≤ Frame.maxBodyLen := by
  simp only [Frame.new, Result.bind_eq_ok, ensure_eq_ok]
  constructor
  · rintro ⟨_, _, _, _, small, _⟩
    exact small
  · intro small
    exact ⟨_, (), known, (), small, rfl⟩

/-- An envelope that the host queued, and that one frame can carry: the transport framing is 81 bytes
longer than the framing of the queue, with the byte for the kind of the frame. -/
structure Sendable (envelope : MailboxEnvelope) : Prop where
  queued : ∃ inner, IndexFits inner ∧ encodeMailboxFrame inner = .ok envelope.ciphertext
  small : envelope.ciphertext.length + 81 ≤ Frame.maxBodyLen

theorem exists_controlPacket (header : PacketHeader) {ciphertext bytes : Bytes}
    (encoded : encodeMailboxFrame (.control ciphertext) = .ok bytes) :
    ∃ packet, encodeControlPacket ⟨header, ciphertext⟩ = .ok packet ∧ packet.length = bytes.length + 80 := by
  obtain ⟨framed, pushed, done⟩ := Result.bind_eq_ok.mp encoded
  refine ⟨_, Result.bind_eq_ok.mpr ⟨framed, pushed, rfl⟩, ?_⟩
  rw [← Except.ok.inj done, List.length_append, length_packetAad, List.length_cons]
  omega

theorem exists_chunkBodyFrame (header : PacketHeader) {fileId : FileId} {index : Nat} {ciphertext bytes : Bytes}
    (encoded : encodeMailboxFrame (.chunkBody fileId index ciphertext) = .ok bytes) :
    ∃ body, encodeChunkBodyFrame ⟨header, fileId, index, ciphertext⟩ = .ok body ∧
      body.length = bytes.length + 80 := by
  obtain ⟨framed, pushed, done⟩ := Result.bind_eq_ok.mp encoded
  refine ⟨_, Result.bind_eq_ok.mpr ⟨framed, pushed, rfl⟩, ?_⟩
  rw [← Except.ok.inj done]
  simp only [List.length_append, length_chunkAad, List.length_cons, length_idBytes, length_toBE]
  omega

theorem bodyFrame_of_decoded {envelope : MailboxEnvelope} {inner : MailboxFrame}
    (decoded : decodeMailboxFrame envelope.ciphertext = .ok inner) :
    (∃ frame, bodyFrame envelope = .ok frame) ↔
      envelope.ciphertext.length + 81 ≤ Frame.maxBodyLen := by
  obtain ⟨encoded, -⟩ := encodeMailboxFrame_of_decode decoded
  unfold bodyFrame
  rw [decoded]
  cases inner with
  | control ciphertext =>
    obtain ⟨packet, written, size⟩ := exists_controlPacket (envelopeHeader envelope) encoded
    change (∃ frame, (encodeControlPacket ⟨envelopeHeader envelope, ciphertext⟩ >>=
      Frame.new Frame.gcmPacketKind) = .ok frame) ↔ _
    rw [written]
    change (∃ frame, Frame.new Frame.gcmPacketKind packet = .ok frame) ↔ _
    rw [frame_new_iff (by decide), size]
  | chunkBody fileId index ciphertext =>
    obtain ⟨body, written, size⟩ := exists_chunkBodyFrame (envelopeHeader envelope) encoded
    change (∃ frame, (encodeChunkBodyFrame ⟨envelopeHeader envelope, fileId, index, ciphertext⟩ >>=
      Frame.new Frame.gcmChunkKind) = .ok frame) ↔ _
    rw [written]
    change (∃ frame, Frame.new Frame.gcmChunkKind body = .ok frame) ↔ _
    rw [frame_new_iff (by decide), size]

theorem bodyFrame_iff {envelope : MailboxEnvelope} :
    (∃ frame, bodyFrame envelope = .ok frame) ↔ Sendable envelope := by
  constructor
  · rintro ⟨frame, sent⟩
    obtain ⟨inner, decoded, -⟩ := Result.bind_eq_ok.mp sent
    obtain ⟨encoded, bound⟩ := encodeMailboxFrame_of_decode decoded
    refine ⟨⟨inner, ?_, encoded⟩, (bodyFrame_of_decoded decoded).mp ⟨frame, sent⟩⟩
    cases inner with
    | control ciphertext => trivial
    | chunkBody fileId index ciphertext => exact bound fileId index ciphertext rfl
  · rintro ⟨⟨inner, fits, encoded⟩, small⟩
    exact (bodyFrame_of_decoded (decodeMailboxFrame_encode fits encoded)).mpr small

/-- A body behind its kind and its length, with room for both. -/
theorem exists_tagged (kind : UInt8) {body : Bytes} (size : body.length + 5 ≤ u32Max) :
    ∃ framed, pushVariable body = .ok framed ∧ (kind :: framed).length ≤ u32Max := by
  refine ⟨_, pushVariable_eq_ok.mpr ⟨(Nat.le_add_right _ 5).trans size, rfl⟩, ?_⟩
  rw [List.length_cons, List.length_append, length_toBE]
  omega

theorem exists_pushEnvelope {envelope : MailboxEnvelope} (sendable : Sendable envelope) :
    ∃ out, pushEnvelope envelope = .ok out := by
  obtain ⟨⟨inner, fits, encoded⟩, small⟩ := sendable
  have decoded := decodeMailboxFrame_encode fits encoded
  have room : envelope.ciphertext.length + 80 + 5 ≤ u32Max := by
    unfold Frame.maxBodyLen at small
    unfold u32Max
    omega
  have committed : ∃ wire, encodeMailboxEnvelope envelope = .ok wire ∧ wire.length ≤ u32Max := by
    cases inner with
    | control ciphertext =>
      obtain ⟨packet, written, size⟩ := exists_controlPacket (envelopeHeader envelope) encoded
      obtain ⟨framed, pushed, counted⟩ := exists_tagged 0 (size ▸ room)
      exact ⟨_, Result.bind_eq_ok.mpr ⟨_, decoded, Result.bind_eq_ok.mpr ⟨packet, written,
        Result.bind_eq_ok.mpr ⟨framed, pushed, rfl⟩⟩⟩, counted⟩
    | chunkBody fileId index ciphertext =>
      obtain ⟨body, written, size⟩ := exists_chunkBodyFrame (envelopeHeader envelope) encoded
      obtain ⟨framed, pushed, counted⟩ := exists_tagged 1 (size ▸ room)
      exact ⟨_, Result.bind_eq_ok.mpr ⟨_, decoded, Result.bind_eq_ok.mpr ⟨body, written,
        Result.bind_eq_ok.mpr ⟨framed, pushed, rfl⟩⟩⟩, counted⟩
  obtain ⟨wire, written, counted⟩ := committed
  exact ⟨_, Result.bind_eq_ok.mpr ⟨wire, written, pushVariable_eq_ok.mpr ⟨counted, rfl⟩⟩⟩

theorem queuedFrame_bodyFrame {envelope : MailboxEnvelope} {frame : Frame}
    (fits : EnvelopeFits envelope) (sent : bodyFrame envelope = .ok frame) :
    queuedFrame frame = .ok (arrived envelope) := by
  obtain ⟨inner, decoded, sent⟩ := Result.bind_eq_ok.mp sent
  obtain ⟨encoded, bound⟩ := encodeMailboxFrame_of_decode decoded
  have received : receivedFrame frame = .ok (envelopeHeader envelope, inner) := by
    unfold receivedFrame
    cases inner with
    | control ciphertext =>
      obtain ⟨packet, written, built⟩ := Result.bind_eq_ok.mp sent
      obtain rfl := frame_new_eq_ok built
      rw [if_pos rfl, decodeControlPacket_encode fits.header written]
      rfl
    | chunkBody fileId index ciphertext =>
      obtain ⟨body, written, built⟩ := Result.bind_eq_ok.mp sent
      obtain rfl := frame_new_eq_ok built
      rw [if_neg (show Frame.gcmChunkKind ≠ Frame.gcmPacketKind by decide), if_pos rfl,
        decodeChunkBodyFrame_encode fits.header (bound _ _ _ rfl) written]
      rfl
  unfold queuedFrame
  rw [received]
  change (encodeMailboxFrame inner >>= fun ciphertext => _) = _
  rw [encoded]
  rfl

theorem encodeMailboxEnvelope_inj {left right : MailboxEnvelope} {out : Bytes}
    (leftFits : EnvelopeFits left) (rightFits : EnvelopeFits right)
    (first : encodeMailboxEnvelope left = .ok out) (second : encodeMailboxEnvelope right = .ok out) :
    arrived left = arrived right := by
  obtain ⟨inner, decoded, first⟩ := Result.bind_eq_ok.mp first
  obtain ⟨inner', decoded', second⟩ := Result.bind_eq_ok.mp second
  obtain ⟨encoded, bound⟩ := encodeMailboxFrame_of_decode decoded
  obtain ⟨encoded', bound'⟩ := encodeMailboxFrame_of_decode decoded'
  have same : envelopeHeader left = envelopeHeader right ∧ inner = inner' := by
    cases inner with
    | control ciphertext =>
      obtain ⟨packet, written, first⟩ := Result.bind_eq_ok.mp first
      obtain ⟨framed, pushed, done⟩ := Result.bind_eq_ok.mp first
      cases done
      cases inner' with
      | control ciphertext' =>
        obtain ⟨packet', written', second⟩ := Result.bind_eq_ok.mp second
        obtain ⟨framed', pushed', done⟩ := Result.bind_eq_ok.mp second
        obtain rfl : framed' = framed := List.tail_eq_of_cons_eq (Except.ok.inj done)
        obtain ⟨rfl, -⟩ := @pushVariable_inj _ _ _ [] _ [] pushed pushed' rfl
        have read := decodeControlPacket_encode leftFits.header written
        rw [decodeControlPacket_encode rightFits.header written'] at read
        obtain ⟨headers, rfl⟩ := ControlPacket.mk.inj (Except.ok.inj read)
        exact ⟨headers.symm, rfl⟩
      | chunkBody fileId index ciphertext' =>
        obtain ⟨_, _, second⟩ := Result.bind_eq_ok.mp second
        obtain ⟨_, _, done⟩ := Result.bind_eq_ok.mp second
        cases done
    | chunkBody fileId index ciphertext =>
      obtain ⟨body, written, first⟩ := Result.bind_eq_ok.mp first
      obtain ⟨framed, pushed, done⟩ := Result.bind_eq_ok.mp first
      cases done
      cases inner' with
      | control ciphertext' =>
        obtain ⟨_, _, second⟩ := Result.bind_eq_ok.mp second
        obtain ⟨_, _, done⟩ := Result.bind_eq_ok.mp second
        cases done
      | chunkBody fileId' index' ciphertext' =>
        obtain ⟨body', written', second⟩ := Result.bind_eq_ok.mp second
        obtain ⟨framed', pushed', done⟩ := Result.bind_eq_ok.mp second
        obtain rfl : framed' = framed := List.tail_eq_of_cons_eq (Except.ok.inj done)
        obtain ⟨rfl, -⟩ := @pushVariable_inj _ _ _ [] _ [] pushed pushed' rfl
        have read := decodeChunkBodyFrame_encode leftFits.header (bound _ _ _ rfl) written
        rw [decodeChunkBodyFrame_encode rightFits.header (bound' _ _ _ rfl) written'] at read
        obtain ⟨headers, rfl, rfl, rfl⟩ := ChunkBodyFrame.mk.inj (Except.ok.inj read)
        exact ⟨headers.symm, rfl⟩
  obtain ⟨headers, rfl⟩ := same
  rw [encoded] at encoded'
  obtain ⟨recipient, sender, epoch, seq, _, ciphertext⟩ := left
  obtain ⟨recipient', sender', epoch', seq', _, ciphertext'⟩ := right
  cases headers
  cases encoded'
  rfl

theorem pushEnvelope_inj {left right : MailboxEnvelope} {front back front' back' : Bytes}
    (leftFits : EnvelopeFits left) (rightFits : EnvelopeFits right)
    (first : pushEnvelope left = .ok front) (second : pushEnvelope right = .ok front')
    (same : front ++ back = front' ++ back') : arrived left = arrived right ∧ back = back' := by
  obtain ⟨encoded, written, pushed⟩ := Result.bind_eq_ok.mp first
  obtain ⟨encoded', written', pushed'⟩ := Result.bind_eq_ok.mp second
  obtain ⟨rfl, rest⟩ := pushVariable_inj pushed pushed' same
  exact ⟨encodeMailboxEnvelope_inj leftFits rightFits written written', rest⟩

/-- What the host offers in one drain. -/
structure FlushBatch where
  envelopes : List MailboxEnvelope
  historical : List IdentityDocument
  bootstrapThrough : Option U64

namespace FlushBatch

def Fits (batch : FlushBatch) : Prop := ∀ envelope ∈ batch.envelopes, EnvelopeFits envelope

variable [Primitives]

def digest (batch : FlushBatch) : Result (Fin (2 ^ 256)) :=
  flushTransportDigestWithBootstrap batch.envelopes batch.historical batch.bootstrapThrough

/-- The messages that SHA-256 is applied to for the digest of a batch. -/
inductive Hashes (batch : FlushBatch) : Bytes → Prop
  | envelopes {wire : Bytes} (written : mailboxWireM batch.envelopes = .ok wire) : Hashes batch wire
  | historical {mailbox : Fin (2 ^ 256)} {committed : Bytes} (present : batch.historical ≠ [])
      (hashed : mailboxDigest batch.envelopes = .ok mailbox)
      (written : historyPreimage mailbox batch.historical = .ok committed) : Hashes batch committed
  | bootstrap {digest : Fin (2 ^ 256)} {through : U64}
      (hashed : flushTransportDigest batch.envelopes batch.historical = .ok digest)
      (offered : batch.bootstrapThrough = some through) :
      Hashes batch (bootstrapPreimage digest through)

/-- SHA-256 does not collide on the messages hashed for two batches. -/
def CollisionFree (left right : FlushBatch) : Prop :=
  ∀ {message other : Bytes}, left.Hashes message → right.Hashes other →
    sha256 message = sha256 other → message = other

variable {left right : FlushBatch} {digest : Fin (2 ^ 256)}

theorem envelopes_of_mailboxDigest (leftFits : left.Fits) (rightFits : right.Fits)
    (free : CollisionFree left right) (first : mailboxDigest left.envelopes = .ok digest)
    (second : mailboxDigest right.envelopes = .ok digest) :
    left.envelopes.map arrived = right.envelopes.map arrived := by
  obtain ⟨wire, written, done⟩ := Result.bind_eq_ok.mp first
  obtain ⟨wire', written', done'⟩ := Result.bind_eq_ok.mp second
  have hashes := Except.ok.inj (done.trans done'.symm)
  obtain rfl := free (.envelopes written) (.envelopes written') hashes
  have related : List.Forall₂ (fun x y => arrived x = arrived y) left.envelopes right.envelopes :=
    encodeSection_inj (fun x xMem y yMem _ _ _ _ => pushEnvelope_inj (leftFits x xMem)
      (rightFits y yMem)) written written'
  exact List.forall₂_eq_eq_eq ▸ List.forall₂_map_left_iff.mpr (List.forall₂_map_right_iff.mpr related)

theorem history_of_flushTransportDigest (leftFits : left.Fits) (rightFits : right.Fits)
    (sameHistory : left.historical = [] ↔ right.historical = []) (free : CollisionFree left right)
    (first : flushTransportDigest left.envelopes left.historical = .ok digest)
    (second : flushTransportDigest right.envelopes right.historical = .ok digest) :
    left.envelopes.map arrived = right.envelopes.map arrived ∧
      left.historical = right.historical := by
  obtain ⟨mailbox, hashed, first⟩ := Result.bind_eq_ok.mp first
  obtain ⟨mailbox', hashed', second⟩ := Result.bind_eq_ok.mp second
  by_cases empty : left.historical = []
  · have empty' := sameHistory.mp empty
    rw [if_pos empty] at first
    rw [if_pos empty'] at second
    cases first
    cases second
    exact ⟨envelopes_of_mailboxDigest leftFits rightFits free hashed hashed', empty.trans empty'.symm⟩
  · rw [if_neg empty] at first
    rw [if_neg (mt sameHistory.mpr empty)] at second
    obtain ⟨committed, written, done⟩ := Result.bind_eq_ok.mp first
    obtain ⟨committed', written', done'⟩ := Result.bind_eq_ok.mp second
    have hashes := Except.ok.inj (done.trans done'.symm)
    obtain rfl := free (.historical empty hashed written)
      (.historical (mt sameHistory.mpr empty) hashed' written') hashes
    obtain ⟨documents, encoded, same⟩ := Result.bind_eq_ok.mp written
    obtain ⟨documents', encoded', same'⟩ := Result.bind_eq_ok.mp written'
    obtain ⟨sameMailbox, sameDocuments⟩ :=
      idBytes_append_inj (Except.ok.inj (same.trans same'.symm))
    subst sameMailbox sameDocuments
    have related : List.Forall₂ Eq left.historical right.historical :=
      encodeSection_inj (fun x _ y _ _ _ _ _ => pushIdentity_inj) encoded encoded'
    exact ⟨envelopes_of_mailboxDigest leftFits rightFits free hashed hashed',
      List.forall₂_eq_eq_eq ▸ related⟩

omit [Primitives] in
theorem bootstrapPreimage_inj {digest digest' : Fin (2 ^ 256)} {through through' : U64}
    (same : bootstrapPreimage digest through = bootstrapPreimage digest' through') :
    digest = digest' ∧ through = through' := by
  simp only [bootstrapPreimage, List.append_assoc, List.append_cancel_left_eq] at same
  obtain ⟨digests, positions⟩ := idBytes_append_inj same
  exact ⟨digests, toBE_u64_inj positions⟩

theorem eq_of_digest (leftFits : left.Fits) (rightFits : right.Fits)
    (sameHistory : left.historical = [] ↔ right.historical = [])
    (sameBootstrap : left.bootstrapThrough.isSome = right.bootstrapThrough.isSome)
    (free : CollisionFree left right) (first : left.digest = .ok digest)
    (second : right.digest = .ok digest) :
    left.envelopes.map arrived = right.envelopes.map arrived ∧
      left.historical = right.historical ∧ left.bootstrapThrough = right.bootstrapThrough := by
  obtain ⟨inner, hashed, first⟩ := Result.bind_eq_ok.mp first
  obtain ⟨inner', hashed', second⟩ := Result.bind_eq_ok.mp second
  cases offered : left.bootstrapThrough with
  | none =>
    have missing : right.bootstrapThrough = none := by
      rw [offered] at sameBootstrap
      simpa using sameBootstrap.symm
    rw [offered] at first
    rw [missing] at second
    cases first
    cases second
    obtain ⟨envelopes, history⟩ :=
      history_of_flushTransportDigest leftFits rightFits sameHistory free hashed hashed'
    exact ⟨envelopes, history, missing.symm⟩
  | some through =>
    obtain ⟨through', offered'⟩ : ∃ through', right.bootstrapThrough = some through' := by
      rw [offered] at sameBootstrap
      exact Option.isSome_iff_exists.mp sameBootstrap.symm
    rw [offered] at first
    rw [offered'] at second
    have hashes := Except.ok.inj (first.trans second.symm)
    have preimages := free (.bootstrap hashed offered) (.bootstrap hashed' offered') hashes
    obtain ⟨rfl, rfl⟩ := bootstrapPreimage_inj preimages
    obtain ⟨envelopes, history⟩ :=
      history_of_flushTransportDigest leftFits rightFits sameHistory free hashed hashed'
    exact ⟨envelopes, history, offered'.symm⟩

omit [Primitives] in
theorem mailboxWireM_arrived (envelopes : List MailboxEnvelope) :
    mailboxWireM (envelopes.map arrived) = mailboxWireM envelopes := by
  unfold mailboxWireM encodeSection
  rw [List.length_map, List.mapM_map]
  rfl

theorem digest_arrived (batch : FlushBatch) :
    FlushBatch.digest { batch with envelopes := batch.envelopes.map arrived } = batch.digest := by
  unfold FlushBatch.digest flushTransportDigestWithBootstrap flushTransportDigest mailboxDigest
  rw [mailboxWireM_arrived]

omit [Primitives] in
theorem mapM_queuedFrame {frames : List Frame} :
    ∀ {envelopes : List MailboxEnvelope}, (∀ envelope ∈ envelopes, EnvelopeFits envelope) →
      envelopes.mapM bodyFrame = .ok frames →
      frames.mapM queuedFrame = .ok (envelopes.map arrived) := by
  intro envelopes fits sent
  rw [Result.mapM_eq_ok] at sent ⊢
  induction sent with
  | nil => exact .nil
  | cons head tail ih =>
    refine .cons (queuedFrame_bodyFrame (fits _ List.mem_cons_self) head) (ih ?_)
    exact fun envelope mem => fits envelope (List.mem_cons_of_mem _ mem)

omit [Primitives] in
theorem mapM_bodyFrame {envelopes : List MailboxEnvelope} :
    (∃ frames, envelopes.mapM bodyFrame = .ok frames) ↔
      ∀ envelope ∈ envelopes, Sendable envelope := by
  simp only [Result.exists_mapM, bodyFrame_iff]

theorem exists_digest {batch : FlushBatch} (sendable : ∀ envelope ∈ batch.envelopes, Sendable envelope)
    (counted : batch.envelopes.length ≤ u32Max)
    (documented : ∃ documents, encodeSection pushIdentity batch.historical = .ok documents) :
    ∃ digest, batch.digest = .ok digest := by
  obtain ⟨parts, pushed⟩ := Result.exists_mapM.mpr fun envelope mem =>
    exists_pushEnvelope (sendable envelope mem)
  have written : mailboxWireM batch.envelopes = .ok _ :=
    encodeSection_eq_ok.mpr ⟨counted, parts, Result.mapM_eq_ok.mp pushed, rfl⟩
  have inner : ∃ digest, flushTransportDigest batch.envelopes batch.historical = .ok digest := by
    obtain ⟨documents, encoded⟩ := documented
    unfold flushTransportDigest mailboxDigest historyPreimage
    rw [written, encoded]
    by_cases empty : batch.historical = []
    · exact ⟨_, if_pos empty⟩
    · exact ⟨_, if_neg empty⟩
  obtain ⟨digest, hashed⟩ := inner
  unfold FlushBatch.digest flushTransportDigestWithBootstrap
  rw [hashed]
  cases batch.bootstrapThrough with
  | none => exact ⟨_, rfl⟩
  | some through => exact ⟨_, rfl⟩

end FlushBatch

/-- A batch is framed exactly when each envelope was queued by the host and fits one frame. The drain
delivers it and its digest, and a digest stands for one batch: its envelopes as they arrive, its
history and its position. -/
theorem flush_batch_binding [Primitives] :
    (∀ batch : FlushBatch, batch.Fits →
      ((∃ frames, batch.envelopes.mapM bodyFrame = .ok frames) ↔
        ∀ envelope ∈ batch.envelopes, Sendable envelope) ∧
      (∀ frames, batch.envelopes.mapM bodyFrame = .ok frames →
        frames.mapM queuedFrame = .ok (batch.envelopes.map arrived)) ∧
      ((∀ envelope ∈ batch.envelopes, Sendable envelope) → batch.envelopes.length ≤ u32Max →
        (∃ documents, encodeSection pushIdentity batch.historical = .ok documents) →
        ∃ digest, batch.digest = .ok digest) ∧
      FlushBatch.digest { batch with envelopes := batch.envelopes.map arrived } = batch.digest) ∧
    ∀ (left right : FlushBatch) (digest : Fin (2 ^ 256)), left.Fits → right.Fits →
      (left.historical = [] ↔ right.historical = []) →
      left.bootstrapThrough.isSome = right.bootstrapThrough.isSome →
      FlushBatch.CollisionFree left right → left.digest = .ok digest → right.digest = .ok digest →
      left.envelopes.map arrived = right.envelopes.map arrived ∧
        left.historical = right.historical ∧ left.bootstrapThrough = right.bootstrapThrough := by
  constructor
  · intro batch fits
    refine ⟨FlushBatch.mapM_bodyFrame, fun frames sent => FlushBatch.mapM_queuedFrame fits sent, ?_,
      batch.digest_arrived⟩
    exact fun sendable counted documented => FlushBatch.exists_digest sendable counted documented
  · intro left right digest leftFits rightFits history position free first second
    exact FlushBatch.eq_of_digest leftFits rightFits history position free first second

private def drained (queuedAt : Nat) : FlushBatch where
  envelopes := [{
    recipientId := ⟨1⟩
    senderId := ⟨2⟩
    epoch := 3
    seq := 4
    queuedAt
    ciphertext := [0, 0, 0, 0, 2, 5, 6] }, {
    recipientId := ⟨1⟩
    senderId := ⟨2⟩
    epoch := 3
    seq := 5
    queuedAt
    ciphertext := 1 :: (idBytes 8 ++ toBE 8 0 ++ [0, 0, 0, 1, 7]) }]
  historical := []
  bootstrapThrough := some ⟨9, by decide⟩

private theorem drained_fits (queuedAt : Nat) : (drained queuedAt).Fits := by
  intro envelope mem
  obtain rfl | mem := List.mem_cons.mp mem
  · exact ⟨show 3 ≤ u64Max by decide, show 4 ≤ u64Max by decide⟩
  · obtain rfl := List.mem_singleton.mp mem
    exact ⟨show 3 ≤ u64Max by decide, show 5 ≤ u64Max by decide⟩

private theorem drained_sendable (queuedAt : Nat) :
    ∀ envelope ∈ (drained queuedAt).envelopes, Sendable envelope := by
  intro envelope mem
  obtain rfl | mem := List.mem_cons.mp mem
  · exact ⟨⟨.control [5, 6], trivial, rfl⟩, show 7 + 81 ≤ Frame.maxBodyLen by decide⟩
  · obtain rfl := List.mem_singleton.mp mem
    exact ⟨⟨.chunkBody ⟨8⟩ 0 [7], show 0 ≤ u64Max by decide, rfl⟩,
      show 46 + 81 ≤ Frame.maxBodyLen by decide⟩

@[reducible] private def leading : Primitives :=
  { Primitives.plain with sha256 := fun bytes => Fin.ofNat (2 ^ 256) (bytes.headD 0).toNat }

private theorem drained_apart {queuedAt : Nat} {wire : Bytes} {digest : Fin (2 ^ 256)} {through : U64}
    (written : mailboxWireM (drained queuedAt).envelopes = .ok wire) :
    leading.sha256 wire ≠ leading.sha256 (bootstrapPreimage digest through) := by
  obtain ⟨-, parts, -, rfl⟩ := encodeSection_eq_ok.mp written
  have counted : leading.sha256 (toBE 4 (drained queuedAt).envelopes.length ++ parts.flatten) = 0 := by
    have count : toBE 4 (drained queuedAt).envelopes.length = [0, 0, 0, 2] := by
      change toBE 4 2 = _
      decide
    rw [count]
    rfl
  have labelled : leading.sha256 (bootstrapPreimage digest through) = 113 := rfl
  rw [counted, labelled]
  decide

theorem flush_batch_binding_drained :
    (∃ frames, (drained 7).envelopes.mapM bodyFrame = .ok frames ∧
      frames.mapM queuedFrame = .ok ((drained 7).envelopes.map arrived)) ∧
    (drained 7).envelopes.map arrived = (drained 8).envelopes.map arrived ∧
      (drained 7).bootstrapThrough = (drained 8).bootstrapThrough := by
  let := leading
  have free : FlushBatch.CollisionFree (drained 7) (drained 8) := by
    intro message other first second same
    cases first with
    | envelopes written =>
      cases second with
      | envelopes written' => exact Except.ok.inj (written.symm.trans written')
      | historical present => exact absurd rfl present
      | bootstrap => exact absurd same (drained_apart written)
    | historical present => exact absurd rfl present
    | bootstrap hashed offered =>
      cases second with
      | envelopes written' => exact absurd same.symm (drained_apart written')
      | historical present => exact absurd rfl present
      | bootstrap hashed' offered' =>
        cases offered
        cases offered'
        cases hashed.symm.trans hashed'
        rfl
  obtain ⟨framed, delivered, hashes, sameDigest⟩ := flush_batch_binding.1 (drained 7) (drained_fits 7)
  obtain ⟨frames, sent⟩ := framed.mpr (drained_sendable 7)
  obtain ⟨digest, hashed⟩ := hashes (drained_sendable 7) (show 2 ≤ u32Max by decide) ⟨_, rfl⟩
  have hashed' : (drained 8).digest = .ok digest := hashed
  obtain ⟨envelopes, -, position⟩ := flush_batch_binding.2 (drained 7) (drained 8) digest
    (drained_fits 7) (drained_fits 8) Iff.rfl rfl free hashed hashed'
  exact ⟨⟨frames, sent, delivered frames sent⟩, envelopes, position⟩

end QuantumFs.Net
