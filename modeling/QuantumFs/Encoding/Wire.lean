import QuantumFs.Crypto.Primitives
import QuantumFs.Encoding.Reader
import QuantumFs.Protocol

/-! The byte formats of `encoding.rs` that are hashed, signed, sealed or queued. -/
namespace QuantumFs.Encoding

open Lib Crypto

def ascii (text : String) : Bytes := text.toList.map fun c => UInt8.ofNat c.toNat

def utf8 (text : String) : Bytes := text.toByteArray.data.toList

def peerId [Primitives] (vk : Bytes) : PeerId := ⟨sha256 (ascii "qfs/v1/peer" ++ vk)⟩

def chunkId [Primitives] (fileId : FileId) (index : Nat) (plaintext : Bytes) : ChunkId :=
  ⟨sha256 (idBytes fileId.val ++ toBE 8 index ++ plaintext)⟩

def packetAad (header : PacketHeader) : Bytes :=
  header.version :: (idBytes header.senderId.val ++ idBytes header.receiverId.val ++
    toBE 8 header.epoch ++ toBE 8 header.seq)

def chunkAad (header : PacketHeader) (fileId : FileId) (index : Nat) : Bytes :=
  packetAad header ++ idBytes fileId.val ++ toBE 8 index

@[simp] theorem length_packetAad (header : PacketHeader) : (packetAad header).length = 81 := by
  simp [packetAad]

@[simp] theorem length_chunkAad (header : PacketHeader) (fileId : FileId) (index : Nat) :
    (chunkAad header fileId index).length = 121 := by
  simp [chunkAad]

/-- The two layouts differ in length only; the header fields stand at the same
offsets in both. -/
def decodeHeader (aad : Bytes) : PacketHeader where
  version := aad.headD 0
  senderId := ⟨Fin.ofNat (2 ^ 256) (ofBE ((aad.drop 1).take 32))⟩
  receiverId := ⟨Fin.ofNat (2 ^ 256) (ofBE ((aad.drop 33).take 32))⟩
  epoch := ofBE ((aad.drop 65).take 8)
  seq := ofBE ((aad.drop 73).take 8)

def aadPayloadType : Nat → Result PayloadType
  | 81 => .ok .packet
  | 121 => .ok .chunkBody
  | _ => .error (.invalidInput "invalid AEAD AAD length")

def decodeAad (aad : Bytes) : Result (PacketHeader × PayloadType) := do
  let payloadType ← aadPayloadType aad.length
  ensure (aad.headD 0 = protocolVersion) (.invalidInput "unsupported packet version")
  pure (decodeHeader aad, payloadType)

/-- Type and direction bits, three zero bytes, then the counter of the header. -/
def nonce (header : PacketHeader) (payloadType : PayloadType) : Bytes :=
  let typeBit := if payloadType = .chunkBody then 128 else 0
  let dirBit := if header.senderId > header.receiverId then 64 else 0
  UInt8.ofNat (typeBit + dirBit) :: 0 :: 0 :: 0 :: toBE 8 header.seq

def wrapGcmNonce : Bytes := List.replicate 12 0

def identityM (document : IdentityDocument) : Result Bytes := do
  let ek ← pushVariable document.ek
  let vk ← pushVariable document.vk
  pure (idBytes document.peerId.val ++ ek ++ vk ++ toBE 8 document.createdAt.val)

def encodeIdentity (document : IdentityDocument) : Result Bytes := do
  let message ← identityM document
  let message ← pushVariable message
  let signature ← pushVariable document.signature
  pure (message ++ signature)

def encodePeerId (peer : PeerId) : Result Bytes := pure (idBytes peer.val)

def requireSortedPair (minId maxId : PeerId) : Result Unit :=
  ensure (minId < maxId) (.invalidInput "wrap requires min_id < max_id as unsigned bytes")

def wrapHkdfInfo (minId maxId : PeerId) (epoch : Nat) : Result Bytes := do
  requireSortedPair minId maxId
  pure (ascii "qfs/v1/wrap/pair/" ++ idBytes minId.val ++ [0x3a] ++ idBytes maxId.val ++ [0x2f] ++
    toBE 8 epoch)

def wrapAad (minId maxId : PeerId) (epoch : Nat) : Result Bytes := do
  requireSortedPair minId maxId
  pure (idBytes minId.val ++ idBytes maxId.val ++ toBE 8 epoch)

def wrapM (message : WrapMessage) : Result Bytes := do
  requireSortedPair message.minId message.maxId
  let kemCt ← pushVariable message.kemCt
  let wrapCt ← pushVariable message.wrapCt
  pure (kemCt ++ wrapCt ++ toBE 8 message.epoch ++ idBytes message.minId.val ++
    idBytes message.maxId.val)

def manifestM (manifest : Manifest) : Result Bytes := do
  let count ← pushLength manifest.chunkIds.length
  pure (idBytes manifest.fileId.val ++ toBE 8 manifest.version.val ++ toBE 8 manifest.size.val ++
    idBytes manifest.writerId.val ++ count ++
    (manifest.chunkIds.map fun chunkId => idBytes chunkId.val).flatten)

def flushM (challenge : FlushChallenge) : Bytes := idBytes challenge.val

def encodeControlPacket (packet : ControlPacket) : Result Bytes := do
  let ciphertext ← pushVariable packet.ciphertext
  pure (packetAad packet.header ++ ciphertext)

def encodeChunkBodyFrame (frame : ChunkBodyFrame) : Result Bytes := do
  let ciphertext ← pushVariable frame.ciphertext
  pure (chunkAad frame.header frame.fileId frame.index ++ ciphertext)

def encodeMailboxFrame : MailboxFrame → Result Bytes
  | .control ciphertext => do
      let ciphertext ← pushVariable ciphertext
      pure (0 :: ciphertext)
  | .chunkBody fileId index ciphertext => do
      let ciphertext ← pushVariable ciphertext
      pure (1 :: (idBytes fileId.val ++ toBE 8 index ++ ciphertext))

def readMailboxFrame : Action Error Bytes MailboxFrame := do
  let kind ← Reader.byte
  let frame ← (match kind with
    | 0 => do
        let ciphertext ← Reader.readVariable
        pure (.control ciphertext)
    | 1 => do
        let fileId ← Reader.readId
        let index ← Reader.u64
        let ciphertext ← Reader.readVariable
        pure (.chunkBody ⟨fileId⟩ index ciphertext)
    | _ => Action.throw (.invalidInput "unknown mailbox frame kind"))
  Reader.finish
  pure frame

def decodeMailboxFrame (bytes : Bytes) : Result MailboxFrame := (readMailboxFrame bytes).1

def encodeControlUpdate : ControlUpdate → Result Bytes
  | .newManifest manifest => do
      let message ← manifestM manifest
      let message ← pushVariable message
      let signature ← pushVariable manifest.signature
      pure (0 :: (message ++ signature))
  | .add fileId => pure (1 :: idBytes fileId.val)
  | .clear fileId => pure (2 :: idBytes fileId.val)
  | .remove fileId => pure (3 :: idBytes fileId.val)
  | .link parent name child isDir => do
      let name ← pushVariable (utf8 name)
      pure (4 :: (idBytes parent.val ++ name ++ idBytes child.val ++ [if isDir then 1 else 0]))
  | .unlink parent name => do
      let name ← pushVariable (utf8 name)
      pure (5 :: (idBytes parent.val ++ name))
  | .rename srcParent srcName dstParent dstName => do
      let srcName ← pushVariable (utf8 srcName)
      let dstName ← pushVariable (utf8 dstName)
      pure (6 :: (idBytes srcParent.val ++ srcName ++ idBytes dstParent.val ++ dstName))
  | .kick target => pure (7 :: idBytes target.val)

def encodeControlRecord (record : ControlRecord) : Result Bytes := do
  let update ← encodeControlUpdate record.update
  pure (toBE 8 record.id ++ update)

def decodeUtf8Name (bytes : Bytes) : Result String :=
  okOr (String.fromUTF8? ⟨bytes.toArray⟩) (.invalidInput "directory name is not UTF-8")

def readName : Action Error Bytes String := do
  let bytes ← Reader.readVariable
  Action.ofExcept (decodeUtf8Name bytes)

def readManifestMessage (signature : Bytes) : Action Error Bytes Manifest := do
  let fileId ← Reader.readId
  let version ← Reader.u64
  let size ← Reader.u64
  let writerId ← Reader.readId
  let count ← Reader.count 32
  let chunkIds ← Reader.times Reader.readId count
  Reader.finish
  pure {
    fileId := ⟨fileId⟩
    chunkIds := chunkIds.map ChunkId.mk
    size := Fin.ofNat _ size
    writerId := ⟨writerId⟩
    version := Fin.ofNat _ version
    signature }

def decodeManifestMessage (message signature : Bytes) : Result Manifest :=
  (readManifestMessage signature message).1

def readDirectoryFlag : Action Error Bytes Bool := do
  let flag ← Reader.byte
  match flag with
  | 0 => pure false
  | 1 => pure true
  | _ => Action.throw (.invalidInput "invalid Link directory flag")

def readControlUpdate : Action Error Bytes ControlUpdate := do
  let kind ← Reader.byte
  match kind with
  | 0 => do
      let message ← Reader.readVariable
      let signature ← Reader.readVariable
      let manifest ← Action.ofExcept (decodeManifestMessage message signature)
      pure (.newManifest manifest)
  | 1 => do
      let fileId ← Reader.readId
      pure (.add ⟨fileId⟩)
  | 2 => do
      let fileId ← Reader.readId
      pure (.clear ⟨fileId⟩)
  | 3 => do
      let fileId ← Reader.readId
      pure (.remove ⟨fileId⟩)
  | 4 => do
      let parent ← Reader.readId
      let name ← readName
      let child ← Reader.readId
      let isDir ← readDirectoryFlag
      pure (.link ⟨parent⟩ name ⟨child⟩ isDir)
  | 5 => do
      let parent ← Reader.readId
      let name ← readName
      pure (.unlink ⟨parent⟩ name)
  | 6 => do
      let srcParent ← Reader.readId
      let srcName ← readName
      let dstParent ← Reader.readId
      let dstName ← readName
      pure (.rename ⟨srcParent⟩ srcName ⟨dstParent⟩ dstName)
  | 7 => do
      let target ← Reader.readId
      pure (.kick ⟨target⟩)
  | _ => Action.throw (.invalidInput "unknown control record kind")

def readControlRecord : Action Error Bytes ControlRecord := do
  let recordId ← Reader.u64
  let update ← readControlUpdate
  Reader.finish
  pure { id := recordId, update }

def decodeControlRecord (bytes : Bytes) : Result ControlRecord := (readControlRecord bytes).1

end QuantumFs.Encoding
