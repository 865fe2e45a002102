import QuantumFs.Encoding.Handshake
import QuantumFs.Host.Membership
import QuantumFs.Host.RecentOps
import QuantumFs.Member.Locate
import QuantumFs.Member.Pull
import QuantumFs.Net.Drain
import QuantumFs.Net.Live

/-! The live members of a host (`serve_live` of `net/join.rs`). Every connection is a
task on the same thread: it runs until it waits for a frame or for the stream to take
one, and the others run meanwhile. An upload is collected body by body on its connection;
the host hears of it when it is complete. -/
namespace QuantumFs.Net

open Lib Encoding Crypto Store Host Member

def wrapAckKind : Nat := 4
def maxDrainBytes : Nat := 64 * 1024 * 1024

/-- `IDLE_TIMEOUT`, in milliseconds. -/
def idleTimeout : Nat := 30000

/-- A manifest that was verified when it arrived, and the bodies that came since. -/
structure PendingUpload where
  trusted : Manifest
  bodies : Map Nat Bytes
  bytes : Nat

namespace PendingUpload

def start (manifest : Manifest) : PendingUpload := ⟨manifest, ∅, 0⟩

def isComplete (pending : PendingUpload) : Bool :=
  pending.bodies.size = pending.trusted.chunkIds.length

end PendingUpload

/-- One thing that is still to be sent. Packets are sealed when their turn comes. -/
inductive Reply where
  | memberState
  | packet (packet : ControlPacket)
  | welcome
  | control (control : NetControl)
  | haveReply (reply : HaveReply)
  | chunk (body : ChunkBodyFrame)

/-- The task of one connection, between two of its turns. It waits for a frame, or it has
replies to send before it does. The session it waits under is the one whose late
acknowledgements are skipped. -/
structure Connection where
  epoch : Nat
  upload : Option PendingUpload
  replies : List Reply
  waiting : Bool
  sent : List Frame

def Connection.new : Connection := ⟨0, none, [], false, []⟩

/-- A connection in its turn, with the service it shares with the others. -/
structure Serving where
  host : HostService
  connection : Connection

/-- What the world answers to the calls of one turn. The stream can break before any frame. -/
structure LiveEnv where
  commit : HostEnv
  acknowledge : HostEnv
  heartbeat : HostEnv
  take : HostEnv
  leave : HostEnv
  broken : Bool

section

variable [Primitives]

def requireLiveHeader (header : PacketHeader) (sender receiver : PeerId) (keys : KeyStore) :
    Result Unit := do
  ensure (header.senderId = sender ∧ header.receiverId = receiver ∧ header.version = protocolVersion)
    .authenticationFailed
  let session ← keys.currentSession sender
  ensure (header.epoch = session.epoch) .authenticationFailed

/-- `open_packet_with_session` -/
def openPacketWithSession (session : PairSession) (packet : ControlPacket) : Action Error KeyStore Bytes :=
  KeyStore.aeadOpen session.keyHandle (nonce packet.header .packet) (packetAad packet.header)
    packet.ciphertext

/-- `seal_packet_with_session` -/
def sealPacketWithSession (session : PairSession) (plaintext : Bytes) :
    Action Error KeyStore ControlPacket := do
  let senderId ← Action.query KeyStore.peerId
  let seq ← Action.query fun keys => keys.nextOutboundSeq session.keyHandle .packet
  let header : PacketHeader :=
    { version := protocolVersion, senderId, receiverId := session.peerId, epoch := session.epoch, seq }
  let ciphertext ← KeyStore.aeadSeal session.keyHandle (nonce header .packet) (packetAad header)
    plaintext
  pure { header, ciphertext }

/-- `VaultHost::welcome`. A hosted vault always has its admission attached. -/
def welcome (host : HostService) : Result NetControl := do
  let members ← host.state.members.toList.mapM fun peer => documentOf host.keys peer
  let admission ← okOr host.state.admission (.state "VaultHost always attaches admission metadata")
  pure (.joinAccepted admission.vaultId members (historicalDocuments host.state) host.state.denied)

namespace Serving

def onHost {α : Type} (x : Action Error HostService α) : Action Error Serving α :=
  Action.zoom Serving.host (fun host s => { s with host }) x

def onKeys {α : Type} (x : Action Error KeyStore α) : Action Error Serving α :=
  onHost (HostService.onKeys x)

def onConnection (f : Connection → Connection) : Action Error Serving Unit :=
  Action.modify fun s => { s with connection := f s.connection }

def setUpload (upload : Option PendingUpload) : Action Error Serving Unit :=
  onConnection fun connection => { connection with upload }

/-- Queue replies before those that are queued. -/
def answer (replies : List Reply) : Action Error Serving Unit :=
  onConnection fun connection => { connection with replies := replies ++ connection.replies }

def sendFrame (env : LiveEnv) (frame : Frame) : Action Error Serving Unit := do
  Action.require (env.broken = false) .io
  onConnection fun connection => { connection with sent := connection.sent ++ [frame] }

def sendPacket (env : LiveEnv) (packet : ControlPacket) : Action Error Serving Unit := do
  let payload ← Action.ofExcept (encodeControlPacket packet)
  let frame ← Action.ofExcept (Frame.new Frame.gcmPacketKind payload)
  sendFrame env frame

/-- Seal a message for a peer under its current session, and send it. -/
def sendSealed (env : LiveEnv) (peer : PeerId) (message : Result Bytes) : Action Error Serving Unit := do
  let plaintext ← Action.ofExcept message
  let session ← Action.query fun s : Serving => s.host.keys.currentSession peer
  let packet ← onKeys (sealPacketWithSession session plaintext)
  sendPacket env packet

def sendControl (env : LiveEnv) (peer : PeerId) (control : NetControl) : Action Error Serving Unit := do
  let _ ← Action.query fun s : Serving => s.host.keys.currentSession peer
  sendSealed env peer (encodeNetControl control)

/-- `send_member_state`: the records that wait for the peer are taken at once, and sent
before the members. -/
def sendMemberState (env : LiveEnv) (peer : PeerId) : Action Error Serving Unit := do
  let packets ← onHost (takeOnlineControl env.take peer)
  answer (packets.map Reply.packet ++ [.welcome])

/-- `send_pending_controls` -/
def pendingControls : List Reply := [.memberState, .control .heartbeat]

def sendReply (env : LiveEnv) (peer : PeerId) : Reply → Action Error Serving Unit
  | .memberState => sendMemberState env peer
  | .packet packet => sendPacket env packet
  | .welcome => do
      let welcomed ← Action.query fun s : Serving => welcome s.host
      sendControl env peer welcomed
  | .control control => sendControl env peer control
  | .haveReply reply => sendSealed env peer (encodeHaveReply reply)
  | .chunk body => do
      let payload ← Action.ofExcept (encodeChunkBodyFrame body)
      let frame ← Action.ofExcept (Frame.new Frame.gcmChunkKind payload)
      sendFrame env frame

def finalizeUpload (env : LiveEnv) (peer : PeerId) (link : Option ControlUpdate) :
    Action Error Serving Unit := do
  let completed ← Action.query fun s : Serving =>
    okOr s.connection.upload (.state "completed upload disappeared")
  Action.require (completed.isComplete = true) (.state "file upload is incomplete")
  setUpload none
  onHost (commitWriterUpload env.commit peer completed.trusted completed.bodies link)

def requireNoUpload : Action Error Serving Unit :=
  Action.query fun s : Serving =>
    ensure (s.connection.upload.isNone = true) (.state "file upload is incomplete")

def receiveMemberControl (env : LiveEnv) (peer : PeerId) (update : ControlUpdate) :
    Action Error Serving Unit :=
  match update with
  | .newManifest manifest => do
      requireNoUpload
      Action.query fun s : Serving => verifyWriterManifest s.host peer manifest
      setUpload (some (PendingUpload.start manifest))
  | .link parent name child false => do
      let pending ← Action.query fun s : Serving =>
        okOr s.connection.upload (.state "file link arrived without an upload")
      Action.require (child = pending.trusted.fileId ∧ pending.isComplete = true)
        (.state "file link does not complete the upload")
      finalizeUpload env peer (some (.link parent name child false))
  | update => do
      requireNoUpload
      onHost (fanOutControl env.commit peer update)

def receiveUploadBody (peer : PeerId) (body : ChunkBodyFrame) : Action Error Serving Unit := do
  let pending ← Action.query fun s : Serving =>
    okOr s.connection.upload (.state "chunk body arrived without a manifest")
  let session ← Action.query fun s : Serving => s.host.keys.currentSession peer
  let plaintext ← onKeys (openChunk session body pending.trusted)
  let bytes ← Action.ofExcept
    (checkedAdd pending.bytes plaintext.length (.invalidInput "upload size overflow"))
  Action.require (bytes ≤ maxDrainBytes) (.invalidInput "upload exceeds memory budget")
  Action.require (pending.bodies.contains body.index = false)
    (.invalidInput "duplicate upload chunk index")
  setUpload (some ⟨pending.trusted, pending.bodies.insert body.index plaintext, bytes⟩)

def beat (env : LiveEnv) (peer : PeerId) : Action Error Serving Unit := do
  onHost (Host.heartbeat env.heartbeat peer idleTimeout)
  answer pendingControls

/-- A heartbeat ends an upload of an existing file; it waits for the bodies of any other. -/
def serveHeartbeat (env : LiveEnv) (peer : PeerId) : Action Error Serving Unit := do
  let s ← Action.get
  match s.connection.upload with
  | none => beat env peer
  | some pending =>
    if pending.isComplete then do
      finalizeUpload env peer none
      beat env peer
    else answer [.control (.heartbeatApplied 0)]

def serveControl (env : LiveEnv) (peer : PeerId) : NetControl → Action Error Serving Unit
  | .heartbeat => serveHeartbeat env peer
  | .heartbeatApplied through => do
      onHost (acknowledgeApplied env.acknowledge peer through.val)
      beat env peer
  | _ => Action.throw (.state "unsupported live control")

def serveHaveQuery (query : HaveQuery) : Action Error Serving Unit := do
  let reply ← Action.query fun s : Serving => answerHave query s.host.state.chunks
  answer [.memberState, .haveReply reply, .control .heartbeat]

def servePull (peer : PeerId) (request : PullRequest) : Action Error Serving Unit := do
  let s ← Action.get
  let responses ← onKeys (Host.serve s.host.state.chunks request.chunkIds peer)
  answer (.memberState :: responses.map Reply.chunk ++ [.control .heartbeat])

def answerUnlessUploading : Action Error Serving Unit := do
  let s ← Action.get
  if s.connection.upload.isNone then answer pendingControls else pure ()

def serveUpdate (env : LiveEnv) (peer : PeerId) (update : ControlUpdate) : Action Error Serving Unit := do
  receiveMemberControl env peer update
  answerUnlessUploading

def serveRequest (env : LiveEnv) (peer : PeerId) : MemberRequest → Action Error Serving Unit
  | .haveQuery query => serveHaveQuery query
  | .control control => serveControl env peer control
  | .pull request => servePull peer request
  | .update update => serveUpdate env peer update

def requireHeader (peer : PeerId) (header : PacketHeader) : Action Error Serving Unit :=
  Action.query fun s : Serving => do
    let receiver ← s.host.keys.peerId
    requireLiveHeader header peer receiver s.host.keys

def servePacket (env : LiveEnv) (peer : PeerId) (payload : Bytes) : Action Error Serving Unit := do
  let packet ← Action.ofExcept (decodeControlPacket payload)
  requireHeader peer packet.header
  let session ← Action.query fun s : Serving => s.host.keys.currentSession peer
  let plaintext ← onKeys (openPacketWithSession session packet)
  let request ← Action.ofExcept (serveLive plaintext)
  serveRequest env peer request

def serveBody (peer : PeerId) (payload : Bytes) : Action Error Serving Unit := do
  let body ← Action.ofExcept (decodeChunkBodyFrame payload)
  requireHeader peer body.header
  receiveUploadBody peer body
  answerUnlessUploading

def serveFrame (env : LiveEnv) (peer : PeerId) (received : Frame) : Action Error Serving Unit := do
  onConnection fun connection => { connection with waiting := false }
  Action.query fun s : Serving => s.host.keys.requireLiveTraffic peer
  if received.kind = Frame.gcmPacketKind then servePacket env peer received.payload
  else if received.kind = Frame.gcmChunkKind then serveBody peer received.payload
  else Action.throw (.state "unsupported live frame")

/-- `read_after_ack`: a late acknowledgement of the session in use is skipped. -/
def receiveFrame (env : LiveEnv) (peer : PeerId) (received : Frame) : Action Error Serving Unit := do
  let s ← Action.get
  if received.kind = wrapAckKind then do
    let (ack, retry) ← Action.ofExcept (decodeWrapAck received.payload)
    if ack = s.connection.epoch ∧ retry = false then pure () else serveFrame env peer received
  else serveFrame env peer received

/-- The head of the loop of `serve_live`. -/
def await (peer : PeerId) : Action Error Serving Unit := do
  Action.query fun s : Serving => s.host.keys.requireLiveTraffic peer
  let session ← Action.query fun s : Serving => s.host.keys.currentSession peer
  onConnection fun connection => { connection with epoch := session.epoch, waiting := true }

/-- The next reply is sent; after the last one the connection waits for a frame. -/
def proceed (env : LiveEnv) (peer : PeerId) : Action Error Serving Unit := do
  let s ← Action.get
  match s.connection.replies with
  | [] => await peer
  | reply :: replies => do
      onConnection fun connection => { connection with replies }
      sendReply env peer reply

/-- While it waits, a connection asks again and again whether the peer is still a member. -/
def poll (peer : PeerId) : Action Error Serving Unit :=
  Action.query fun s : Serving =>
    ensure (peer ∈ s.host.state.members) (.state "peer membership was revoked")

end Serving

/-- A host and the connections that it serves. -/
structure Live where
  host : HostService
  connections : Map PeerId Connection

inductive LiveOp where
  /-- A member has connected, and its queue is flushed. -/
  | serve (peer : PeerId)
  | receive (env : LiveEnv) (peer : PeerId) (received : Frame)
  | proceed (env : LiveEnv) (peer : PeerId)
  | poll (env : LiveEnv) (peer : PeerId)
  /-- The stream ends, or no frame came for too long. -/
  | close (env : LiveEnv) (peer : PeerId)
  /-- Any other call of the host. -/
  | host (op : HostOp)

namespace Live

/-- `PeerPermit` of a connection is dropped. -/
def leave (env : LiveEnv) (peer : PeerId) (live : Live) : Live where
  host := (Host.heartbeat env.leave peer 0 live.host).2
  connections := live.connections.erase peer

/-- One turn of a connection, if it is there and `ready`. An error ends it. -/
def turn (env : LiveEnv) (peer : PeerId) (ready : Connection → Bool) (x : Action Error Serving Unit)
    (live : Live) : Live :=
  match live.connections[peer]?.filter ready with
  | none => live
  | some connection =>
    let (result, served) := x ⟨live.host, connection⟩
    match result with
    | .ok _ => ⟨served.host, live.connections.insert peer served.connection⟩
    | .error _ => leave env peer ⟨served.host, live.connections⟩

def replaces : HostOp → Bool
  | .resume _ | .restart _ _ _ => true
  | _ => false

end Live

open Live in
def LiveOp.exec : LiveOp → Live → Live
  | .serve peer, live =>
    if live.connections.contains peer then live
    else { live with connections := live.connections.insert peer Connection.new }
  | .receive env peer received, live =>
    turn env peer Connection.waiting (Serving.receiveFrame env peer received) live
  | .proceed env peer, live =>
    turn env peer (fun connection => !connection.waiting) (Serving.proceed env peer) live
  | .poll env peer, live => turn env peer Connection.waiting (Serving.poll peer) live
  | .close env peer, live => if live.connections.contains peer then leave env peer live else live
  | .host op, live =>
    ⟨Host.machine.exec op live.host, if replaces op then ∅ else live.connections⟩

def liveMachine : Machine Live LiveOp where
  exec := LiveOp.exec

end

end QuantumFs.Net
