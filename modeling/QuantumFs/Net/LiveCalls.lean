import QuantumFs.Host.Run
import QuantumFs.Net.Serving

/-! The connections of members refine the host: over any run and any order of turns, each
turn is made of calls of the host for the member at the other end, and an upload is only
committed with one body for each chunk of a signed manifest. -/
namespace QuantumFs.Net

open Lib Encoding Crypto Store Host Member

variable [Primitives]

namespace PendingUpload

/-- One body for each chunk of the manifest, with its hash, and no other body. -/
structure Whole (manifest : Manifest) (bodies : Map Nat Bytes) : Prop where
  indices : ∀ index, bodies.contains index = true ↔ index < manifest.chunkIds.length
  slots : ∀ (index : Nat) (plaintext : Bytes), bodies[index]? = some plaintext →
    manifest.chunkIds[index]? = some (chunkId manifest.fileId index plaintext)

/-- The writer is the member at the other end, and has signed. -/
structure Signed (peer : PeerId) (manifest : Manifest) : Prop where
  writer : manifest.writerId = peer
  signed : ∃ document : IdentityDocument, document.peerId = peer ∧
    verifyIdentity document = .ok () ∧ verifySignature document.vk manifest = .ok ()

/-- What is collected fits the manifest and the budget. -/
structure Sound (peer : PeerId) (pending : PendingUpload) : Prop extends
    Signed peer pending.trusted where
  slots : ∀ (index : Nat) (plaintext : Bytes), pending.bodies[index]? = some plaintext →
    pending.trusted.chunkIds[index]? = some (chunkId pending.trusted.fileId index plaintext)
  counted : pending.bytes = ((Map.vals pending.bodies).map List.length).sum
  budget : pending.bytes ≤ maxDrainBytes

variable {peer : PeerId} {pending : PendingUpload}

theorem Signed.start {manifest : Manifest} (signed : Signed peer manifest) :
    (start manifest).Sound peer where
  toSigned := signed
  slots := fun index plaintext found => by
    change (∅ : Map Nat Bytes)[index]? = some plaintext at found
    rw [Std.ExtTreeMap.getElem?_empty] at found
    cases found
  counted := rfl
  budget := Nat.zero_le _

theorem Sound.add (sound : pending.Sound peer) {index : Nat} {plaintext : Bytes}
    (slot : pending.trusted.chunkIds[index]? = some (chunkId pending.trusted.fileId index plaintext))
    (fresh : pending.bodies.contains index = false)
    (budget : pending.bytes + plaintext.length ≤ maxDrainBytes) :
    Sound peer ⟨pending.trusted, pending.bodies.insert index plaintext,
      pending.bytes + plaintext.length⟩ where
  toSigned := sound.toSigned
  slots := fun other body found => by
    dsimp only at found ⊢
    rw [Map.get_insert] at found
    split at found
    · rename_i same
      cases same
      cases found
      exact slot
    · exact sound.slots other body found
  counted := by
    have absent : pending.bodies[index]? = none := by
      cases found : pending.bodies[index]? with
      | none => rfl
      | some body =>
        have present := (Map.contains_iff_get _ _).mpr ⟨body, found⟩
        simp [fresh] at present
    dsimp only
    rw [Map.sum_vals_insert _ _ _ absent, sound.counted, Nat.add_comm]
  budget := budget

theorem Sound.whole (sound : pending.Sound peer) (complete : pending.isComplete = true) :
    Whole pending.trusted pending.bodies where
  indices := Map.contains_of_size (fun index present => by
    obtain ⟨plaintext, found⟩ := (Map.contains_iff_get _ _).mp present
    exact (List.getElem?_eq_some_iff.mp (sound.slots index plaintext found)).1)
    (of_decide_eq_true complete)
  slots := sound.slots

end PendingUpload

theorem signed_of_verified {host : HostService} {peer : PeerId} {manifest : Manifest}
    (peers : SoundPeers host.keys.peers) (stranger : peer ≠ host.keys.identity.document.peerId)
    (h : verifyWriterManifest host peer manifest = .ok ()) : PendingUpload.Signed peer manifest := by
  obtain ⟨_, _, h⟩ := Result.bind_eq_ok.mp h
  obtain ⟨_, _, h⟩ := Result.bind_eq_ok.mp h
  obtain ⟨_, writer, h⟩ := Result.bind_eq_ok.mp h
  have writer : manifest.writerId = peer := ensure_eq_ok.mp writer
  obtain ⟨_, document, isDocument, signed⟩ := verifyTrusted_eq_ok h
  rw [writer] at isDocument
  obtain ⟨filed, verified⟩ := peers peer document ((if_neg stranger).symm.trans isDocument)
  exact ⟨writer, document, filed, verified, signed⟩

def carriesFile : ControlUpdate → Bool
  | .newManifest _ => true
  | .link _ _ _ isDir => !isDir
  | _ => false

inductive Licensed (peer : PeerId) : HostOp → Prop
  | rekey (keys : KeyStore) : Licensed peer (.rekey keys)
  | heartbeat (env : HostEnv) (ttl : Nat) : Licensed peer (.heartbeat env peer ttl)
  | take (env : HostEnv) : Licensed peer (.takeOnlineControl env peer)
  | acknowledge (env : HostEnv) (through : Nat) : Licensed peer (.acknowledgeApplied env peer through)
  | instruct (env : HostEnv) {update : ControlUpdate} : carriesFile update = false →
      Licensed peer (.fanOutControl env peer update)
  | upload (env : HostEnv) {manifest : Manifest} {bodies : Map Nat Bytes}
      (link : Option ControlUpdate) : PendingUpload.Signed peer manifest →
      PendingUpload.Whole manifest bodies →
      Licensed peer (.commitWriterUpload env peer manifest bodies link)

def Calls (start : HostService) (allowed : HostOp → Prop) (host : HostService) : Prop :=
  ∃ calls : List HostOp, (∀ call ∈ calls, allowed call) ∧ host = Host.machine.run calls start

namespace Calls

variable {start host : HostService} {allowed : HostOp → Prop}

theorem refl : Calls start allowed start := ⟨[], by simp, rfl⟩

theorem perform (calls : Calls start allowed host) {call : HostOp} (isAllowed : allowed call) :
    Calls start allowed (call.perform host).2 := by
  obtain ⟨before, licensed, rfl⟩ := calls
  refine ⟨before ++ [call], fun other mem => ?_, ?_⟩
  · obtain earlier | last := List.mem_append.mp mem
    · exact licensed other earlier
    · rwa [List.mem_singleton.mp last]
  · rw [Host.machine.run_append]
    rfl

theorem inv (fresh : Fresh start) (calls : Calls start allowed host) :
    Inv nobody (fun _ => True) host.view := by
  obtain ⟨before, _, rfl⟩ := calls
  exact (fresh.inv Stable.trivial.toSettled fun _ _ _ _ => True.intro).run Stable.trivial before

theorem rekey (fresh : Fresh start) (calls : Calls start allowed host)
    (isAllowed : ∀ keys, allowed (.rekey keys)) {keys : KeyStore}
    (same : keysView keys = keysView host.keys) : Calls start allowed { host with keys } := by
  have inv := calls.inv fresh
  simp only [keysView, Prod.mk.injEq] at same
  obtain ⟨identity, peers, paired⟩ := same
  have own : ownKeys host keys :=
    ⟨identity, (soundPeers_iff _).mpr (peers ▸ inv.peers), paired.trans inv.unpaired⟩
  have ensured : ensure (ownKeys host keys) Error.keyUnavailable = .ok () := ensure_eq_ok.mpr own
  have next := calls.perform (isAllowed keys)
  have done : (HostOp.perform (.rekey keys) host).2 = { host with keys } := by
    simp [HostOp.perform, replaceService, ensured, bind, Except.bind, pure, Except.pure]
  rwa [done] at next

end Calls

theorem aeadOpen_keeps (handle : PairKeyHandle) (bytes aad ciphertext : Bytes) :
    Action.Keeps sealView (KeyStore.aeadOpen handle bytes aad ciphertext) := by
  intro keys
  have h := KeyStore.aeadOpen_outcome handle bytes aad ciphertext keys
  unfold Action.Ensures at h
  obtain ⟨same, _⟩ | ⟨before, after, update, _⟩ := h
  · rw [same]
  · rw [update.same]
    rfl

theorem openPacketWithSession_keeps (session : PairSession) (packet : ControlPacket) :
    Action.Keeps sealView (openPacketWithSession session packet) := aeadOpen_keeps _ _ _ _

theorem sealPacketWithSession_keeps (session : PairSession) (plaintext : Bytes) :
    Action.Keeps sealView (sealPacketWithSession session plaintext) := by
  refine .bind (.query _) fun _ => .bind (.query _) fun _ => ?_
  exact .bind (aeadSeal_keeps _ _ _ _) fun _ => .pure _

theorem openChunk_keeps (session : PairSession) (body : ChunkBodyFrame) (trusted : Manifest) :
    Action.Keeps sealView (openChunk session body trusted) := by
  refine .bind (aeadOpen_keeps _ _ _ _) fun _ => .bind (.require _ _) fun _ => ?_
  exact .bind (.ofExcept _) fun _ => .bind (.require _ _) fun _ => .pure _

theorem serve_keeps (chunks : ChunkStore) (request : List ChunkId) (requester : PeerId) :
    Action.Keeps sealView (Host.serve chunks request requester) := by
  refine .bind (.query _) fun _ => .bind (.query _) fun _ => .mapM fun _ => ?_
  exact encryptAtSend_keeps _ _ _ _

omit [Primitives] in
private theorem discard_state {α : Type} (x : Action Error HostService α) (host : HostService) :
    (Host.discard x host).2 = (x host).2 := by
  unfold Host.discard
  rw [Action.bind_apply]
  generalize x host = result
  obtain ⟨r, t⟩ := result
  cases r with
  | ok _ => rfl
  | error _ => rfl

structure Turn (start : HostService) (allowed : HostOp → Prop) (peer : PeerId) (s : Serving) : Prop where
  calls : Calls start allowed s.host
  upload : ∀ pending, s.connection.upload = some pending → pending.Sound peer

section

variable {start : HostService} {allowed : HostOp → Prop} {peer : PeerId}

namespace Serving

theorem onHost_turn {α : Type} {x : Action Error HostService α} (call : HostOp)
    (licensed : allowed call) (same : ∀ host, (x host).2 = (call.perform host).2) :
    Action.Preserves (Turn start allowed peer) (onHost x) := by
  intro s turn
  refine ⟨?_, turn.upload⟩
  change Calls start allowed (x s.host).2
  rw [same]
  exact turn.calls.perform licensed

theorem onConnection_turn {f : Connection → Connection}
    (same : ∀ connection, (f connection).upload = connection.upload) :
    Action.Preserves (Turn start allowed peer) (onConnection f) := by
  intro s turn
  refine ⟨turn.calls, fun pending isPending => turn.upload pending ?_⟩
  rw [← isPending]
  exact (same s.connection).symm

theorem answer_turn (replies : List Reply) :
    Action.Preserves (Turn start allowed peer) (answer replies) := onConnection_turn fun _ => rfl

variable (fresh : Fresh start) (licensed : ∀ call, Licensed peer call → allowed call)

include fresh licensed

theorem onKeys_turn {α : Type} {x : Action Error KeyStore α} (keeps : Action.Keeps sealView x) :
    Action.Preserves (Turn start allowed peer) (onKeys x) := by
  intro s turn
  refine ⟨?_, turn.upload⟩
  have same := keysView_of_idleView (idleView_of_seal (keeps s.host.keys))
  exact turn.calls.rekey fresh (fun keys => licensed _ (.rekey keys)) same

/-! Sending -/

omit fresh licensed in
theorem sendFrame_turn (env : LiveEnv) (frame : Frame) :
    Action.Preserves (Turn start allowed peer) (sendFrame env frame) :=
  .bind (.require _ _) fun _ => onConnection_turn fun _ => rfl

omit fresh licensed in
theorem sendPacket_turn (env : LiveEnv) (packet : ControlPacket) :
    Action.Preserves (Turn start allowed peer) (sendPacket env packet) :=
  .bind (.ofExcept _) fun _ => .bind (.ofExcept _) fun _ => sendFrame_turn env _

theorem sendSealed_turn (env : LiveEnv) (message : Result Bytes) :
    Action.Preserves (Turn start allowed peer) (sendSealed env peer message) := by
  refine .bind (.ofExcept _) fun _ => .bind (.query _) fun _ => ?_
  refine .bind (onKeys_turn fresh licensed (sealPacketWithSession_keeps _ _)) fun _ => ?_
  exact sendPacket_turn env _

theorem sendControl_turn (env : LiveEnv) (control : NetControl) :
    Action.Preserves (Turn start allowed peer) (sendControl env peer control) :=
  .bind (.query _) fun _ => sendSealed_turn fresh licensed env _

theorem sendReply_turn (env : LiveEnv) (reply : Reply) :
    Action.Preserves (Turn start allowed peer) (sendReply env peer reply) := by
  cases reply with
  | memberState =>
    refine .bind (onHost_turn (.takeOnlineControl env.take peer) (licensed _ (.take env.take)) ?_)
      fun _ => answer_turn _
    exact fun host => (discard_state _ host).symm
  | packet packet => exact sendPacket_turn env packet
  | welcome => exact .bind (.query _) fun _ => sendControl_turn fresh licensed env _
  | control control => exact sendControl_turn fresh licensed env control
  | haveReply reply => exact sendSealed_turn fresh licensed env _
  | chunk body => exact .bind (.ofExcept _) fun _ => .bind (.ofExcept _) fun _ => sendFrame_turn env _

/-! Receiving -/

omit fresh in
theorem finalizeUpload_turn (env : LiveEnv) (link : Option ControlUpdate) :
    Action.Preserves (Turn start allowed peer) (finalizeUpload env peer link) := by
  intro s turn
  refine (?_ : Action.Ensures (finalizeUpload env peer link) s fun _ t => Turn start allowed peer t)
  unfold finalizeUpload
  refine .query (fun _ _ => turn) fun completed isPending => ?_
  refine .require (fun _ => turn) fun complete => ?_
  have sound := turn.upload completed (okOr_eq_ok.mp isPending)
  have call := licensed _ (.upload env.commit link sound.toSigned (sound.whole complete))
  have cleared : Turn start allowed peer { s with connection := { s.connection with upload := none } } :=
    ⟨turn.calls, by simp⟩
  exact .modify (onHost_turn _ call (fun _ => rfl) _ cleared)

theorem receiveMemberControl_turn (env : LiveEnv) (update : ControlUpdate) {s : Serving}
    (turn : Turn start allowed peer s) (stranger : peer ≠ s.host.keys.identity.document.peerId) :
    Turn start allowed peer (receiveMemberControl env peer update s).2 := by
  have instructs : ∀ {other : ControlUpdate}, carriesFile other = false → Action.Preserves
      (Turn start allowed peer) (do
        requireNoUpload
        onHost (fanOutControl env.commit peer other)) := by
    intro other plain
    have call := licensed _ (.instruct env.commit plain)
    exact .bind (.query _) fun _ => onHost_turn _ call fun _ => rfl
  have plainly : carriesFile update = false →
      Turn start allowed peer (receiveMemberControl env peer update s).2 := by
    intro plain
    cases update with
    | newManifest manifest => cases plain
    | link parent name child isDir =>
      cases isDir with
      | false => cases plain
      | true => exact instructs rfl s turn
    | _ => exact instructs rfl s turn
  cases update with
  | newManifest manifest =>
    refine (?_ : Action.Ensures (receiveMemberControl env peer (.newManifest manifest)) s
      fun _ t => Turn start allowed peer t)
    unfold receiveMemberControl
    refine .query (fun _ _ => turn) fun _ _ => .query (fun _ _ => turn) fun _ verified => ?_
    refine ⟨turn.calls, fun pending isPending => ?_⟩
    cases isPending
    exact (signed_of_verified (turn.calls.inv fresh).peers stranger verified).start
  | link parent name child isDir =>
    cases isDir with
    | true => exact plainly rfl
    | false =>
      unfold receiveMemberControl
      refine Action.Preserves.bind (.query _) (fun _ => .bind (.require _ _) fun _ => ?_) s turn
      exact finalizeUpload_turn licensed env _
  | _ => exact plainly rfl

theorem receiveUploadBody_turn (body : ChunkBodyFrame) :
    Action.Preserves (Turn start allowed peer) (receiveUploadBody peer body) := by
  intro s turn
  refine (?_ : Action.Ensures (receiveUploadBody peer body) s fun _ t => Turn start allowed peer t)
  unfold receiveUploadBody
  refine .query (fun _ _ => turn) fun pending isPending => .query (fun _ _ => turn) fun session _ => ?_
  have sound := turn.upload pending (okOr_eq_ok.mp isPending)
  have opened : Action.Ensures (onKeys (openChunk session body pending.trusted)) s fun r t =>
      Turn start allowed peer t ∧ ∀ plaintext, r = .ok plaintext →
        InSlot pending.trusted body.fileId body.index plaintext := by
    refine ⟨onKeys_turn fresh licensed (openChunk_keeps _ _ _) s turn, fun plaintext done => ?_⟩
    have slot := openChunk_inSlot session body pending.trusted s.host.keys
    unfold Action.Ensures at slot
    change (openChunk session body pending.trusted s.host.keys).1 = _ at done
    rw [done] at slot
    exact slot
  refine .next opened (fun _ _ known => known.1) fun plaintext t known => ?_
  obtain ⟨turn, slot⟩ := known
  obtain ⟨same, slot⟩ := slot plaintext rfl
  rw [same] at slot
  refine .ofExcept (fun _ _ => turn) fun bytes added => ?_
  refine .require (fun _ => turn) fun budget => .require (fun _ => turn) fun absent => ?_
  obtain ⟨_, rfl⟩ := checkedAdd_eq_ok.mp added
  refine ⟨turn.calls, fun next isNext => ?_⟩
  cases isNext
  exact sound.add slot absent budget

omit fresh in
theorem beat_turn (env : LiveEnv) : Action.Preserves (Turn start allowed peer) (beat env peer) :=
  .bind (onHost_turn _ (licensed _ (.heartbeat env.heartbeat idleTimeout)) fun _ => rfl)
    fun _ => answer_turn _

omit fresh in
theorem serveControl_turn (env : LiveEnv) (control : NetControl) :
    Action.Preserves (Turn start allowed peer) (serveControl env peer control) := by
  cases control with
  | heartbeat =>
    refine .bind .get fun s => ?_
    cases s.connection.upload with
    | none => exact beat_turn licensed env
    | some pending =>
      refine .ite (fun _ => ?_) fun _ => answer_turn _
      exact .bind (finalizeUpload_turn licensed env none) fun _ => beat_turn licensed env
  | heartbeatApplied through =>
    have call := licensed _ (.acknowledge env.acknowledge through.val)
    exact .bind (onHost_turn _ call fun _ => rfl) fun _ => beat_turn licensed env
  | _ => exact fun _ turn => turn

theorem servePull_turn (request : PullRequest) :
    Action.Preserves (Turn start allowed peer) (servePull peer request) :=
  .bind .get fun _ => .bind (onKeys_turn fresh licensed (serve_keeps _ _ _)) fun _ => answer_turn _

omit fresh licensed in
theorem answerUnlessUploading_turn :
    Action.Preserves (Turn start allowed peer) answerUnlessUploading :=
  .bind .get fun _ => .ite (fun _ => answer_turn _) fun _ => .pure _

theorem serveRequest_turn (env : LiveEnv) (request : MemberRequest) {s : Serving}
    (turn : Turn start allowed peer s) (stranger : peer ≠ s.host.keys.identity.document.peerId) :
    Action.Ensures (serveRequest env peer request) s fun _ t => Turn start allowed peer t := by
  cases request with
  | haveQuery query =>
    exact Action.Preserves.bind (.query _) (fun _ => answer_turn _) s turn
  | control control => exact serveControl_turn licensed env control s turn
  | pull request => exact servePull_turn fresh licensed request s turn
  | update update =>
    have received := receiveMemberControl_turn fresh licensed env update turn stranger
    refine .next (R := fun _ t => Turn start allowed peer t) received (fun _ _ known => known) ?_
    exact fun _ t known => answerUnlessUploading_turn t known

theorem servePacket_turn (env : LiveEnv) (payload : Bytes) :
    Action.Preserves (Turn start allowed peer) (servePacket env peer payload) := by
  intro s turn
  refine (?_ : Action.Ensures (servePacket env peer payload) s fun _ t => Turn start allowed peer t)
  unfold servePacket
  refine .ofExcept (fun _ _ => turn) fun packet _ => .query (fun _ _ => turn) fun _ _ => ?_
  refine .query (fun _ _ => turn) fun session isSession => ?_
  have inv := turn.calls.inv fresh
  have stranger : peer ≠ s.host.keys.identity.document.peerId := fun same => by
    cases (selfPaired_of_session isSession same).symm.trans inv.unpaired
  have opened : Action.Ensures (onKeys (openPacketWithSession session packet)) s fun _ t =>
      Turn start allowed peer t ∧ t.host.keys.identity = s.host.keys.identity := by
    have keeps := openPacketWithSession_keeps session packet
    have same : (sealView _).identity = _ := congrArg KeyStore.identity (keeps s.host.keys)
    exact ⟨onKeys_turn fresh licensed keeps s turn, same⟩
  refine .next opened (fun _ _ known => known.1) fun plaintext t known => ?_
  refine .ofExcept (fun _ _ => known.1) fun request _ => ?_
  exact serveRequest_turn fresh licensed env request known.1 (known.2 ▸ stranger)

theorem receiveFrame_turn (env : LiveEnv) (received : Frame) :
    Action.Preserves (Turn start allowed peer) (receiveFrame env peer received) := by
  have body : Action.Preserves (Turn start allowed peer) (serveBody peer received.payload) :=
    .bind (.ofExcept _) fun _ => .bind (.query _) fun _ =>
      .bind (receiveUploadBody_turn fresh licensed _) fun _ => answerUnlessUploading_turn
  have served : Action.Preserves (Turn start allowed peer) (serveFrame env peer received) := by
    refine .bind (onConnection_turn fun _ => rfl) fun _ => .bind (.query _) fun _ => ?_
    refine .ite (fun _ => servePacket_turn fresh licensed env _) fun _ => .ite (fun _ => body) fun _ => ?_
    exact fun _ turn => turn
  refine .bind .get fun s => .ite (fun _ => .bind (.ofExcept _) fun ack => ?_) fun _ => served
  obtain ⟨ack, retry⟩ := ack
  exact .ite (fun _ => .pure _) fun _ => served

theorem proceed_turn (env : LiveEnv) :
    Action.Preserves (Turn start allowed peer) (proceed env peer) := by
  refine .bind .get fun s => ?_
  cases s.connection.replies with
  | nil =>
    refine .bind (.query _) fun _ => .bind (.query _) fun _ => ?_
    exact onConnection_turn fun _ => rfl
  | cons reply replies =>
    exact .bind (onConnection_turn fun _ => rfl) fun _ => sendReply_turn fresh licensed env reply

end Serving

end

/-- The calls that an operation stands for. -/
def LiveOp.Allows : LiveOp → HostOp → Prop
  | .serve _, _ => False
  | .receive _ peer _, call | .proceed _ peer, call | .poll _ peer, call | .close _ peer, call =>
    Licensed peer call
  | .host op, call => call = op

/-- What every run keeps of a host and its connections. -/
structure Live.Sound (start : HostService) (allowed : HostOp → Prop) (live : Live) : Prop where
  calls : Calls start allowed live.host
  uploads : ∀ (peer : PeerId) (connection : Connection) (pending : PendingUpload),
    live.connections[peer]? = some connection → connection.upload = some pending → pending.Sound peer

namespace Live

variable {start : HostService} {allowed : HostOp → Prop} {live : Live}

theorem Sound.leave (sound : live.Sound start allowed) {peer : PeerId} (env : LiveEnv)
    (licensed : ∀ call, Licensed peer call → allowed call) :
    (Live.leave env peer live).Sound start allowed where
  calls := sound.calls.perform (licensed _ (.heartbeat env.leave 0))
  uploads := fun other connection pending found => by
    dsimp only [Live.leave] at found
    rw [Map.get_erase] at found
    split at found
    · cases found
    · exact sound.uploads other connection pending found

theorem Sound.turn (sound : live.Sound start allowed) {peer : PeerId} (env : LiveEnv)
    (licensed : ∀ call, Licensed peer call → allowed call) {ready : Connection → Bool}
    {x : Action Error Serving Unit} (keeps : Action.Preserves (Turn start allowed peer) x) :
    (Live.turn env peer ready x live).Sound start allowed := by
  unfold Live.turn
  cases found : live.connections[peer]?.filter ready with
  | none => exact sound
  | some connection =>
    obtain ⟨found, _⟩ := Option.filter_eq_some_iff.mp found
    have after := keeps ⟨live.host, connection⟩
      ⟨sound.calls, fun pending => sound.uploads peer connection pending found⟩
    dsimp only
    generalize x ⟨live.host, connection⟩ = outcome at after ⊢
    obtain ⟨result, served⟩ := outcome
    cases result with
    | error e =>
      have failed : (⟨served.host, live.connections⟩ : Live).Sound start allowed :=
        ⟨after.calls, sound.uploads⟩
      exact failed.leave env licensed
    | ok _ =>
      refine ⟨after.calls, fun other next pending isNext => ?_⟩
      dsimp only at isNext
      rw [Map.get_insert] at isNext
      split at isNext
      · rename_i same
        cases same
        cases isNext
        exact after.upload pending
      · exact sound.uploads other next pending isNext

theorem Sound.exec (fresh : Fresh start) (sound : live.Sound start allowed) (op : LiveOp)
    (allows : ∀ call, op.Allows call → allowed call) : (op.exec live).Sound start allowed := by
  cases op with
  | serve peer =>
    simp only [LiveOp.exec]
    split
    · exact sound
    · refine ⟨sound.calls, fun other connection pending found isPending => ?_⟩
      dsimp only at found
      rw [Map.get_insert] at found
      split at found
      · cases found
        cases isPending
      · exact sound.uploads other connection pending found isPending
  | receive env peer received =>
    exact sound.turn env allows (Serving.receiveFrame_turn fresh allows env received)
  | proceed env peer => exact sound.turn env allows (Serving.proceed_turn fresh allows env)
  | poll env peer => exact sound.turn (x := Serving.poll peer) env allows (.query _)
  | close env peer =>
    simp only [LiveOp.exec]
    split
    · exact sound.leave env allows
    · exact sound
  | host op =>
    refine ⟨sound.calls.perform (allows op rfl), fun peer connection pending found => ?_⟩
    dsimp only [LiveOp.exec] at found
    split at found
    · rw [Std.ExtTreeMap.getElem?_empty] at found
      cases found
    · exact sound.uploads peer connection pending found

theorem Sound.run (fresh : Fresh start) (ops : List LiveOp)
    (allows : ∀ op ∈ ops, ∀ call, op.Allows call → allowed call) :
    ∀ {live : Live}, live.Sound start allowed → (liveMachine.run ops live).Sound start allowed := by
  induction ops with
  | nil => exact fun sound => sound
  | cons op ops ih =>
    intro live sound
    have next := sound.exec fresh op (allows op List.mem_cons_self)
    exact ih (fun later mem => allows later (List.mem_cons_of_mem _ mem)) next

end Live

/-- A host before anyone has connected. -/
def Live.alone (host : HostService) : Live := ⟨host, ∅⟩

theorem Live.run_sound {start : HostService} (fresh : Fresh start) (ops : List LiveOp) :
    (liveMachine.run ops (Live.alone start)).Sound start fun call => ∃ op ∈ ops, op.Allows call := by
  have alone : (Live.alone start).Sound start fun call => ∃ op ∈ ops, op.Allows call := by
    refine ⟨.refl, fun peer connection pending found => ?_⟩
    change (∅ : Map PeerId Connection)[peer]? = some connection at found
    rw [Std.ExtTreeMap.getElem?_empty] at found
    cases found
  exact alone.run fresh ops fun op mem call allows => ⟨op, mem, allows⟩

/-- Whatever members send, and however the turns of their connections and the other calls of the
host interleave, the host is where a run of its own calls leads to. A connection only makes
calls for the member at its other end, instructions about files only as uploads, and an upload
only with a manifest that the member has signed and exactly one body for each of its chunks. -/
theorem live_refines {start : HostService} (fresh : Fresh start) (ops : List LiveOp) :
    ∃ calls : List HostOp, (∀ call ∈ calls, ∃ op ∈ ops, op.Allows call) ∧
      (liveMachine.run ops (Live.alone start)).host = Host.machine.run calls start :=
  (Live.run_sound fresh ops).calls

section

open NonceReuse (alice bob)

omit [Primitives]

def calmLive : LiveEnv := ⟨calmEnv, calmEnv, calmEnv, calmEnv, calmEnv, false⟩

def bobHeader (seq : Nat) : PacketHeader where
  version := protocolVersion
  senderId := bob.document.peerId
  receiverId := alice.document.peerId
  epoch := 1
  seq := seq

/-- An instruction that Bob sends, with the tag of the plain primitives. -/
def bobInstructs (seq : Nat) (update : ControlUpdate) : Result Frame := do
  let plaintext ← encodeControlRecord ⟨0, update⟩
  let payload ← encodeControlPacket ⟨bobHeader seq, plaintext ++ List.replicate 16 0⟩
  Frame.new Frame.gcmPacketKind payload

def bobUploads (seq index : Nat) (plaintext : Bytes) : Result Frame := do
  let payload ← encodeChunkBodyFrame ⟨bobHeader seq, ⟨9⟩, index, plaintext ++ List.replicate 16 0⟩
  Frame.new Frame.gcmChunkKind payload

/-- A file of two chunks, the second one first, and then its link. -/
def bobFrames : Result (List Frame) :=
  letI := Primitives.plain
  do
    let manifest ← signManifest (NonceReuse.knowing bob alice) bob.document.peerId ⟨9⟩ 1 [[1], [2]]
    let announced ← bobInstructs 1 (.newManifest manifest)
    let second ← bobUploads 1 1 [2]
    let first ← bobUploads 2 0 [1]
    let linked ← bobInstructs 2 (.link ⟨3⟩ "note" ⟨9⟩ false)
    pure [announced, second, first, linked]

/-- Bob connects, and sends each frame when Alice waits for one. -/
def bobSends : List LiveOp :=
  .serve bob.document.peerId :: (bobFrames.toOption.getD []).flatMap fun frame =>
    [.proceed calmLive bob.document.peerId, .receive calmLive bob.document.peerId frame]

/-- The file is there at the end, by calls for Bob alone. -/
theorem live_refines_note :
    letI := Primitives.plain
    let s := liveMachine.run bobSends (Live.alone aliceHost)
    s.host.state.log.length = 2 ∧
      ∃ calls : List HostOp, (∀ call ∈ calls, ∃ op ∈ bobSends, op.Allows call) ∧
        s.host = Host.machine.run calls aliceHost :=
  letI := Primitives.plain
  ⟨by decide +kernel, live_refines aliceHost_fresh bobSends⟩

end

end QuantumFs.Net
