import QuantumFs.Encoding.Wire
import QuantumFs.Net.Messages

/-! The network formats of `encoding.rs`: identities and wraps as they are sent and
stored, directory records, the welcome, the flush offer and the encrypted
controls. -/
namespace QuantumFs.Encoding

open Lib Net

def readIdentityDocument (signature : Bytes) : Action Error Bytes IdentityDocument := do
  let peerId ← Reader.readId
  let ek ← Reader.readVariable
  let vk ← Reader.readVariable
  let createdAt ← Reader.u64
  Reader.finish
  pure { peerId := ⟨peerId⟩, ek, vk, createdAt := Fin.ofNat _ createdAt, signature }

def decodeIdentityDocument (message signature : Bytes) : Result IdentityDocument :=
  (readIdentityDocument signature message).1

def readIdentity : Action Error Bytes IdentityDocument := do
  let message ← Reader.readVariable
  let signature ← Reader.readVariable
  Reader.finish
  Action.ofExcept (decodeIdentityDocument message signature)

def decodeIdentity (bytes : Bytes) : Result IdentityDocument := (readIdentity bytes).1

/-- An identity inside another message. -/
def pushIdentity (document : IdentityDocument) : Result Bytes := do
  let encoded ← encodeIdentity document
  pushVariable encoded

def readWrapMessage (signature : Bytes) : Action Error Bytes WrapMessage := do
  let kemCt ← Reader.readVariable
  let wrapCt ← Reader.readVariable
  let epoch ← Reader.u64
  let minId ← Reader.readId
  let maxId ← Reader.readId
  Reader.finish
  Action.ofExcept (requireSortedPair ⟨minId⟩ ⟨maxId⟩)
  pure { kemCt, wrapCt, epoch, minId := ⟨minId⟩, maxId := ⟨maxId⟩, signature }

def decodeWrapMessage (message signature : Bytes) : Result WrapMessage :=
  (readWrapMessage signature message).1

section

variable {Addr : Type} [SocketAddr Addr]

def directoryAdM (ad : DirectoryAd Addr) : Result Bytes := do
  let addr ← pushVariable (utf8 (SocketAddr.print ad.addr))
  let ek ← pushVariable ad.ek
  let vk ← pushVariable ad.vk
  pure (idBytes ad.peerId.val ++ idBytes ad.vaultId.val ++ addr ++ ek ++ vk ++
    toBE 8 ad.issuedAt.val)

def encodeDirectoryAd (ad : DirectoryAd Addr) : Result Bytes := do
  let message ← directoryAdM ad
  let message ← pushVariable message
  let signature ← pushVariable ad.signature
  pure (message ++ signature)

def parseAddr (bytes : Bytes) : Result Addr := do
  let text ← okOr (String.fromUTF8? ⟨bytes.toArray⟩)
    (.invalidInput "directory address is not UTF-8")
  okOr (SocketAddr.parse text)
    (.invalidInput "directory address is not a numeric socket address")

def readDirectoryAdMessage (signature : Bytes) : Action Error Bytes (DirectoryAd Addr) := do
  let peerId ← Reader.readId
  let vaultId ← Reader.readId
  let addr ← Reader.readEmbedded parseAddr
  let ek ← Reader.readVariable
  let vk ← Reader.readVariable
  let issuedAt ← Reader.u64
  Reader.finish
  pure { peerId := ⟨peerId⟩, vaultId := ⟨vaultId⟩, addr, ek, vk, issuedAt := Fin.ofNat _ issuedAt,
         signature }

def decodeDirectoryAdMessage (message signature : Bytes) : Result (DirectoryAd Addr) :=
  (readDirectoryAdMessage signature message).1

def readDirectoryAd : Action Error Bytes (DirectoryAd Addr) := do
  let message ← Reader.readVariable
  let signature ← Reader.readVariable
  Reader.finish
  Action.ofExcept (decodeDirectoryAdMessage message signature)

def decodeDirectoryAd (bytes : Bytes) : Result (DirectoryAd Addr) := (readDirectoryAd bytes).1

end

def joinCodeBytes (joinCode : JoinCode) : Bytes := toBE 16 joinCode.val.val

def readJoinCode : Action Error Bytes JoinCode := do
  let bytes ← Reader.take 16
  pure ⟨Fin.ofNat (2 ^ 128) (ofBE bytes)⟩

def dirForgetM (request : DirForget) : Bytes :=
  idBytes request.peerId.val ++ idBytes request.vaultId.val ++ joinCodeBytes request.joinCode ++
    toBE 8 request.issuedAt.val

def joinRequestM (request : JoinRequest) : Result Bytes := do
  let document ← identityM request.document
  pure (idBytes request.vaultId.val ++ joinCodeBytes request.joinCode ++ document)

def encodeHistory (disorder : Error) (historical : List IdentityDocument) : Result Bytes := do
  let count ← pushLength historical.length
  let documents ← encodeAscending IdentityDocument.peerId disorder pushIdentity none historical
  pure (count ++ documents)

def readHistory (disorder : Error) : Action Error Bytes (List IdentityDocument) :=
  Reader.readSection 4 fun done => do
    let document ← Reader.readEmbedded decodeIdentity
    Action.require (Follows IdentityDocument.peerId done document.peerId) disorder
    pure document

def readPeerId (disorder : Error) (done : List PeerId) : Action Error Bytes PeerId := do
  let peer ← Reader.readId
  Action.require (Follows id done (⟨peer⟩ : PeerId)) disorder
  pure ⟨peer⟩

def welcomeHistoryDisorder : Error := .invalidInput "welcome history is not canonical"

def encodeNetWelcome (welcome : NetWelcome) : Result Bytes := do
  let members ← encodeSection pushIdentity welcome.members
  let historical ← encodeHistory welcomeHistoryDisorder welcome.historical
  let denied ← encodeSection encodePeerId welcome.denied.toList
  let extension ← pushVariable (1 :: (historical ++ denied))
  pure (idBytes welcome.vaultId.val ++ members ++ extension)

def readWelcomeExtension : Action Error Bytes (List IdentityDocument × OrdSet PeerId) := do
  let version ← Reader.byte
  Action.require (version = 1) (.invalidInput "unsupported welcome extension version")
  let historical ← readHistory welcomeHistoryDisorder
  let denied ← Reader.readSection 32
    (readPeerId (.invalidInput "welcome denylist is not canonical"))
  Reader.finish
  pure (historical, OrdSet.ofList denied)

def readExtension {α : Type} (absent : α) (read : Action Error Bytes α) : Action Error Bytes α := do
  let rest ← Action.get
  if rest = [] then
    pure absent
  else
    Reader.readEmbedded fun extension => (read extension).1

def readNetWelcome : Action Error Bytes NetWelcome := do
  let vaultId ← Reader.readId
  let members ← Reader.readSection 56 fun _ => Reader.readEmbedded decodeIdentity
  let (historical, denied) ← readExtension ([], ∅) readWelcomeExtension
  Reader.finish
  pure { vaultId := ⟨vaultId⟩, members, historical, denied }

def decodeNetWelcome (bytes : Bytes) : Result NetWelcome := (readNetWelcome bytes).1

def maxFlushFrames : Nat := 1000000

def flushHistoryDisorder : Error := .invalidInput "flush history is not canonical"

/-- Nothing is appended to an offer without history and without a position. -/
def encodeFlushExtension (offer : FlushOffer) : Result Bytes :=
  if offer.historical ≠ [] ∨ offer.bootstrapThrough.isSome = true then do
    let historical ← encodeHistory flushHistoryDisorder offer.historical
    pushVariable (match offer.bootstrapThrough with
      | some through => 2 :: (historical ++ toBE 8 through.val)
      | none => 1 :: historical)
  else
    pure []

def encodeFlushOffer (offer : FlushOffer) : Result Bytes := do
  ensure (offer.frameCount ≤ maxFlushFrames) (.invalidInput "flush frame count exceeds cap")
  let extension ← encodeFlushExtension offer
  pure (idBytes offer.challenge.val ++ toBE 4 offer.frameCount ++ extension)

def readFlushExtension : Action Error Bytes (List IdentityDocument × Option U64) := do
  let version ← Reader.byte
  Action.require (version = 1 ∨ version = 2)
    (.invalidInput "unsupported flush offer extension version")
  let historical ← readHistory flushHistoryDisorder
  if version = 2 then do
    let through ← Reader.u64
    Reader.finish
    pure (historical, some (Fin.ofNat _ through))
  else do
    Reader.finish
    pure (historical, none)

def readFlushOffer : Action Error Bytes FlushOffer := do
  let challenge ← Reader.readId
  let frameCount ← Reader.u32
  let (historical, bootstrapThrough) ← readExtension ([], none) readFlushExtension
  Reader.finish
  Action.require (frameCount ≤ maxFlushFrames) (.invalidInput "flush frame count exceeds cap")
  pure { challenge := ⟨challenge⟩, frameCount, historical, bootstrapThrough }

def decodeFlushOffer (bytes : Bytes) : Result FlushOffer := (readFlushOffer bytes).1

def encodeNetControl : NetControl → Result Bytes
  | .joinAccepted vaultId members historical denied => do
      let welcome ← encodeNetWelcome { vaultId, members, historical, denied }
      pure (1 :: welcome)
  | .flushEnd digest => pure (2 :: idBytes digest)
  | .flushApplied digest => pure (3 :: idBytes digest)
  | .ready => pure [4]
  | .heartbeat => pure [5]
  | .heartbeatApplied through => pure (5 :: toBE 8 through.val)
  | .joinRejected bound requested => pure (6 :: (idBytes bound.val ++ idBytes requested.val))
  | .admissionDenied => pure [7]

/-- The two heartbeats share a kind and differ in what follows it. -/
def readHeartbeat : Action Error Bytes NetControl := do
  let rest ← Action.get
  if rest.length = 0 then
    pure .heartbeat
  else if rest.length = 8 then do
    let through ← Reader.u64
    pure (.heartbeatApplied (Fin.ofNat _ through))
  else
    Action.throw (.invalidInput "invalid heartbeat control length")

def readNetControlBody (kind : UInt8) : Action Error Bytes NetControl :=
  match kind with
  | 1 => do
      let rest ← Action.get
      let bytes ← Reader.take rest.length
      let welcome ← Action.ofExcept (decodeNetWelcome bytes)
      pure (.joinAccepted welcome.vaultId welcome.members welcome.historical welcome.denied)
  | 2 => do
      let digest ← Reader.readId
      pure (.flushEnd digest)
  | 3 => do
      let digest ← Reader.readId
      pure (.flushApplied digest)
  | 4 => pure .ready
  | 5 => readHeartbeat
  | 6 => do
      let bound ← Reader.readId
      let requested ← Reader.readId
      pure (.joinRejected ⟨bound⟩ ⟨requested⟩)
  | 7 => pure .admissionDenied
  | _ => Action.throw (.invalidInput "unknown encrypted network control kind")

def readNetControl : Action Error Bytes NetControl := do
  let kind ← Reader.byte
  let control ← readNetControlBody kind
  Reader.finish
  pure control

def decodeNetControl (bytes : Bytes) : Result NetControl := (readNetControl bytes).1

end QuantumFs.Encoding
