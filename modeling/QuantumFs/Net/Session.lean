import QuantumFs.Crypto.Newest
import QuantumFs.Encoding.Handshake

/-! The handshake of two peers (`net/session.rs`). Each side is a task that runs until it
waits for a frame of the other side. A side that has no confirmed pair to preserve agrees on a
wrap directly; a side that has one agrees on a candidate beside it. -/
namespace QuantumFs.Net.Session

open Lib Encoding Crypto

def identityKind : Nat := 1
def epochHintKind : Nat := 2
def wrapKind : Nat := 3
def wrapAckKind : Nat := 4

/-- `HandshakeProgress` -/
structure Progress where
  peerId : Option PeerId
  wrapAcknowledged : Bool
  hadPair : Bool

/-- `EstablishedSession`, with the pair or candidate that it is a session of. -/
structure EstablishedSession where
  peer : IdentityDocument
  session : PairSession
  pair : Option PersistedPair

/-- Where a side waits, with what it still needs when the frame comes. -/
inductive Stage where
  | ready
  | identity (document : IdentityDocument)
  | hint (document peer : IdentityDocument) (preserveExisting : Bool) (localEpoch : Nat)
  | preserved (peer : IdentityDocument) (session : PairSession) (localInitiated : Bool)
      (cached : WrapMessage)
  | candidate (peer : IdentityDocument)
  | wrap (peer : IdentityDocument)
  | established (outcome : EstablishedSession)
  | failed (error : Error)

def Stage.outcome : Stage → Option EstablishedSession
  | .established outcome => some outcome
  | _ => none

structure Endpoint where
  keys : KeyStore
  progress : Progress
  stage : Stage
  sent : List Frame

def Endpoint.new (keys : KeyStore) : Endpoint := ⟨keys, ⟨none, false, false⟩, .ready, []⟩

/-- What a turn is told: the peer it expects, if any, whether a pair of a peer is preserved,
what the system answers to each call of the key store, and how many frames the stream takes. -/
structure SessionEnv (Addr : Type) where
  expected : Option (DirectoryAd Addr)
  preserveExisting : PeerId → Result Bool
  importPeer : KeyEnv
  observe : KeyEnv
  create : KeyEnv
  unwrap : KeyEnv
  discard : KeyEnv
  capacity : Nat

namespace Endpoint

def onKeys {α : Type} (x : Action Error KeyStore α) : Action Error Endpoint α :=
  Action.zoom Endpoint.keys (fun keys s => { s with keys }) x

def ask {α : Type} (question : KeyStore → Result α) : Action Error Endpoint α :=
  Action.query fun s => question s.keys

def goTo (stage : Stage) : Action Error Endpoint Unit := Action.modify fun s => { s with stage }

def requireKind (frame : Frame) (expected : Nat) : Result Unit :=
  ensure (frame.kind = expected) (.state "unexpected frame during pair handshake")

variable {Addr : Type} (env : SessionEnv Addr)

def sendFrame (kind : Nat) (payload : Result Bytes) : Action Error Endpoint Unit := do
  let payload ← Action.ofExcept payload
  let frame ← Action.ofExcept (Frame.new kind payload)
  Action.query fun s => ensure (s.sent.length < env.capacity) .io
  Action.modify fun s => { s with sent := s.sent ++ [frame] }

def sendWrap (message : WrapMessage) : Action Error Endpoint Unit :=
  sendFrame env wrapKind (encodeWrap message)

def sendAck (epoch : Nat) (retryPending : Bool) : Action Error Endpoint Unit :=
  sendFrame env wrapAckKind (pure (encodeWrapAck epoch retryPending))

def finish (peer : IdentityDocument) (session : PairSession) (candidate : Bool) :
    Action Error Endpoint Unit :=
  Action.modify fun s => { s with
    progress := { s.progress with wrapAcknowledged := true }
    stage := .established ⟨peer, session, s.keys.record candidate peer.peerId⟩ }

section

variable [Primitives]

def verifyWrap (peer : IdentityDocument) (message : WrapMessage) : Result Unit := do
  let signed ← wrapM message
  mlDsaVerify peer.vk .wrap signed message.signature

def isStale (message : WrapMessage) : Result PairSession → Bool
  | .ok session => message.epoch < session.epoch
  | .error _ => false

/-- Take a wrap. The loser of a collision acknowledges it and sends the next one. -/
def acceptWrap (peer : IdentityDocument) (candidate : Bool)
    (unwrap : Action Error KeyStore PairSession) (retryEpoch : KeyStore → Result (Option Nat))
    (lost : PairSession → Nat) (retry : Action Error KeyStore (PairSession × WrapMessage)) :
    Action Error Endpoint Unit := do
  let result ← Action.attempt (onKeys unwrap)
  match result with
  | .ok session => do
      let pending ← ask retryEpoch
      if pending.isSome = true then do
        sendAck env (lost session) true
        let (_, message) ← onKeys retry
        sendWrap env message
      else do
        sendAck env session.epoch false
        finish peer session candidate
  -- The wrap of this side has won; its acknowledgement is still to come.
  | .error (.epochConflict _) => pure ()
  | .error error => Action.throw error

def prepareIncomingFloor (peer : IdentityDocument) (message : WrapMessage) :
    Action Error Endpoint Unit := do
  let s ← Action.get
  if (s.keys.currentSession peer.peerId).isOk = true then pure ()
  else do
    let localId ← ask KeyStore.peerId
    if localId ≤ peer.peerId ∨ message.minId ≠ min peer.peerId localId ∨
        message.maxId ≠ max peer.peerId localId then pure ()
    else do
      let floor ← ask fun keys => keys.peerEpoch peer.peerId
      if 0 < message.epoch ∧ floor < message.epoch - 1 then do
        Action.ofExcept (verifyWrap peer message)
        onKeys (KeyStore.observeRemoteEpoch env.observe peer.peerId (message.epoch - 1))
      else pure ()

/-- One round of `finish_wrap`. -/
def finishWrap (peer : IdentityDocument) (frame : Frame) : Action Error Endpoint Unit :=
  if frame.kind = wrapKind then do
    let message ← Action.ofExcept (decodeWrap frame.payload)
    let s ← Action.get
    if isStale message (s.keys.currentSession peer.peerId) = true then
      Action.ofExcept (verifyWrap peer message)
    else do
      prepareIncomingFloor env peer message
      acceptWrap env peer false (KeyStore.unwrap env.unwrap peer.peerId message)
        (KeyStore.retryEpoch peer.peerId) (fun _ => message.epoch)
        (KeyStore.retryCollision env.create peer.peerId)
  else if frame.kind = wrapAckKind then do
    let (epoch, retryPending) ← Action.ofExcept (decodeWrapAck frame.payload)
    if retryPending = true then pure ()
    else do
      let session ← ask fun keys => keys.currentSession peer.peerId
      Action.require (epoch = session.epoch)
        (.state "WrapAck epoch does not match active session")
      finish peer session false
  else Action.throw (.state "unexpected frame during pair handshake")

/-- One round of the loop of `finish_candidate`. -/
def finishCandidate (peer : IdentityDocument) (frame : Frame) : Action Error Endpoint Unit :=
  if frame.kind = wrapKind then do
    let incoming ← Action.ofExcept (decodeWrap frame.payload)
    let s ← Action.get
    if isStale incoming (s.keys.candidateSession peer.peerId) = true then
      Action.ofExcept (verifyWrap peer incoming)
    else
      acceptWrap env peer true (KeyStore.unwrapCandidate env.unwrap peer.peerId incoming)
        (KeyStore.candidateRetryEpoch peer.peerId) (fun session => session.epoch)
        (KeyStore.retryCandidateCollision env.discard env.create peer.peerId)
  else if frame.kind = wrapAckKind then do
    let (epoch, retryPending) ← Action.ofExcept (decodeWrapAck frame.payload)
    if retryPending = true then onKeys (KeyStore.discardCandidate env.discard peer.peerId)
    else do
      let candidate ← ask fun keys => keys.candidateSession peer.peerId
      Action.require (candidate.epoch = epoch)
        (.state "WrapAck epoch does not match admission candidate")
      finish peer candidate true
  else Action.throw (.state "unexpected frame during candidate handshake")

/-- The one frame that `finish_preserved` waits for. -/
def finishPreserved (peer : IdentityDocument) (session : PairSession) (localInitiated : Bool)
    (cached : WrapMessage) (frame : Frame) : Action Error Endpoint Unit :=
  let rotates : Error := .state "active pair cannot rotate during another Join"
  if frame.kind = wrapKind ∧ localInitiated = false then do
    let incoming ← Action.ofExcept (decodeWrap frame.payload)
    Action.require (incoming = cached) rotates
    let opened ← onKeys (KeyStore.unwrap env.unwrap peer.peerId incoming)
    Action.require (opened.epoch = session.epoch) rotates
    sendAck env session.epoch false
    finish peer session false
  else if frame.kind = wrapAckKind ∧ localInitiated = true then do
    let (epoch, retryPending) ← Action.ofExcept (decodeWrapAck frame.payload)
    Action.require (retryPending = false ∧ epoch = session.epoch) rotates
    finish peer session false
  else Action.throw rotates

/-- The part of `finish_candidate` before its loop. The hint only chooses who speaks first. -/
def beginCandidate (peer : IdentityDocument) (localEpoch remoteEpoch : Nat) :
    Action Error Endpoint Unit := do
  let confirmed ← ask fun keys => keys.currentSession peer.peerId
  let cached ← ask (KeyStore.cachedCandidate peer.peerId)
  let localId ← ask KeyStore.peerId
  match cached with
  | some (initiator, message) =>
    if initiator = localId then do
      let message ← ask (KeyStore.retry message)
      sendWrap env message
      goTo (.candidate peer)
    else goTo (.candidate peer)
  | none =>
    if localId < peer.peerId ∨ (confirmed.epoch < localEpoch ∧ remoteEpoch ≤ localEpoch) then do
      let epoch ← ask fun keys => keys.nextEpoch peer.peerId
      let (_, message) ← onKeys (KeyStore.createCandidate env.create peer.peerId peer.ek epoch)
      sendWrap env message
      goTo (.candidate peer)
    else goTo (.candidate peer)

def beginPreserved (peer : IdentityDocument) (localEpoch remoteEpoch : Nat) :
    Action Error Endpoint Unit := do
  let session ← ask fun keys => keys.currentSession peer.peerId
  if localEpoch ≠ session.epoch ∨ remoteEpoch ≠ session.epoch then
    beginCandidate env peer localEpoch remoteEpoch
  else do
    let known ← ask (KeyStore.cachedPair peer.peerId)
    let (initiator, cached) ← Action.ofExcept (okOr known (.state "active pair has no cached wrap"))
    let localId ← ask KeyStore.peerId
    if initiator = localId then do
      let message ← ask (KeyStore.retry cached)
      sendWrap env message
      goTo (.preserved peer session true cached)
    else goTo (.preserved peer session false cached)

/-- `initial_wrap`: the wrap that is sent before the loop, if this side speaks first. -/
def initialWrap (document peer : IdentityDocument) (localEpoch remoteEpoch : Nat) :
    Action Error Endpoint (Option WrapMessage) := do
  let floor := max localEpoch remoteEpoch
  let cached ← ask (KeyStore.cachedPair peer.peerId)
  let s ← Action.get
  let hasActive := (s.keys.currentSession peer.peerId).isOk
  let eligible := cached.filter fun entry =>
    entry.1 = document.peerId ∧ entry.2.epoch = floor ∧ hasActive = true ∧
      (remoteEpoch ≤ localEpoch ∨ document.peerId < peer.peerId)
  match eligible with
  | some (_, message) => do
      let message ← ask (KeyStore.retry message)
      pure (some message)
  | none =>
    if document.peerId < peer.peerId ∧ (localEpoch ≠ remoteEpoch ∨ cached = none ∨
        localEpoch = 0 ∨ hasActive = false) then do
      onKeys (KeyStore.observeRemoteEpoch env.observe peer.peerId floor)
      let epoch ← ask fun keys => keys.nextEpoch peer.peerId
      let (_, message) ← onKeys (KeyStore.create env.create peer.peerId peer.ek epoch)
      pure (some message)
    else pure none

def receiveHint (document peer : IdentityDocument) (preserveExisting : Bool) (localEpoch : Nat)
    (frame : Frame) : Action Error Endpoint Unit := do
  Action.ofExcept (requireKind frame epochHintKind)
  let (hinted, remoteEpoch) ← Action.ofExcept (decodeEpochHint frame.payload)
  Action.require (hinted = peer.peerId) .authenticationFailed
  if preserveExisting = true then beginPreserved env peer localEpoch remoteEpoch
  else do
    let message ← initialWrap env document peer localEpoch remoteEpoch
    match message with
    | some message => do
        sendWrap env message
        goTo (.wrap peer)
    | none => goTo (.wrap peer)

def notePeer (peer : PeerId) : Action Error Endpoint Bool := do
  Action.modify fun s => { s with progress := { s.progress with peerId := some peer } }
  let s ← Action.get
  let hadPair ←
    if (s.keys.currentSession peer).isOk = true then pure true
    else do
      let cached ← ask (KeyStore.cachedPair peer)
      pure cached.isSome
  Action.modify fun s => { s with progress := { s.progress with hadPair } }
  pure hadPair

def admitPeer (peer : IdentityDocument) (preserveExisting hadPair : Bool) :
    Action Error Endpoint Unit :=
  if preserveExisting = true then do
    let known ← ask fun keys => keys.loadVerifiedPeer peer.peerId
    Action.require (known = peer ∧ hadPair = true) .authenticationFailed
  else onKeys (KeyStore.importPeer env.importPeer peer)

def receiveIdentity (document : IdentityDocument) (frame : Frame) : Action Error Endpoint Unit := do
  Action.ofExcept (requireKind frame identityKind)
  let peer ← Action.ofExcept (decodeIdentity frame.payload)
  Action.ofExcept (verifyIdentity peer)
  Action.require (∀ ad ∈ env.expected, ad.peerId = peer.peerId ∧ ad.ek = peer.ek ∧ ad.vk = peer.vk)
    .authenticationFailed
  let hadPair ← notePeer peer.peerId
  let preserveExisting ← Action.ofExcept (env.preserveExisting peer.peerId)
  admitPeer env peer preserveExisting hadPair
  let localEpoch ← ask fun keys => keys.peerEpoch peer.peerId
  sendFrame env epochHintKind (pure (epochHintM document.peerId localEpoch))
  goTo (.hint document peer preserveExisting localEpoch)

def begin : Action Error Endpoint Unit := do
  let document ← ask KeyStore.identityDocument
  sendFrame env identityKind (encodeIdentity document)
  goTo (.identity document)

/-- `establish_guarded` from one frame to the next. -/
def receive (frame : Frame) : Action Error Endpoint Unit := do
  let s ← Action.get
  match s.stage with
  | .identity document => receiveIdentity env document frame
  | .hint document peer preserveExisting localEpoch =>
    receiveHint env document peer preserveExisting localEpoch frame
  | .preserved peer session localInitiated cached =>
    finishPreserved env peer session localInitiated cached frame
  | .candidate peer => finishCandidate env peer frame
  | .wrap peer => finishWrap env peer frame
  | _ => pure ()

end

def turn (x : Action Error Endpoint Unit) (s : Endpoint) : Endpoint :=
  match x s with
  | (.ok _, t) => t
  | (.error error, t) => { t with stage := .failed error }

end Endpoint

inductive Side where
  | left
  | right
deriving DecidableEq

def Side.other : Side → Side
  | .left => .right
  | .right => .left

/-- Two tasks that handshake with each other. -/
def Link : Type := Side → Endpoint

def Link.new (left right : KeyStore) : Link
  | .left => .new left
  | .right => .new right

def Link.update (link : Link) (side : Side) (s : Endpoint) : Link := Function.update link side s

def Stage.isOver : Stage → Bool
  | .established _ => true
  | .failed _ => true
  | _ => false

inductive LinkOp (Addr : Type) where
  | begin (side : Side) (env : SessionEnv Addr)
  /-- Some frame of the other side arrives. The stream hands out each frame once and in order;
  nothing below rests on that. -/
  | receive (side : Side) (env : SessionEnv Addr) (index : Nat)
  /-- The stream breaks, or the deadline passes. -/
  | lose (side : Side)

section

variable [Primitives] {Addr : Type}

def LinkOp.exec : LinkOp Addr → Link → Link
  | .begin side env, link =>
    match (link side).stage with
    | .ready => link.update side (Endpoint.turn (Endpoint.begin env) (link side))
    | _ => link
  | .receive side env index, link =>
    match (link side.other).sent[index]? with
    | some frame => link.update side (Endpoint.turn (Endpoint.receive env frame) (link side))
    | none => link
  | .lose side, link =>
    if (link side).stage.isOver = true then link
    else link.update side { link side with stage := .failed .io }

def links : Machine Link (LinkOp Addr) := ⟨LinkOp.exec⟩

end

end QuantumFs.Net.Session
