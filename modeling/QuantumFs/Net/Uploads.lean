import QuantumFs.Net.LiveCalls

/-! What the turn of a connection changes in the vault: a file that comes over it is
published as a whole, and nothing of it before. -/
namespace QuantumFs.Net

open Lib Encoding Crypto Store Host Member

variable [Primitives]

/-- Instructions that a member other than the host may send by themselves. -/
def edits : ControlUpdate → Bool
  | .link _ _ _ isDir => isDir
  | .unlink _ _ | .rename _ _ _ _ => true
  | _ => false

omit [Primitives] in
theorem edits_of_authorized {state : HostState} {peer : PeerId} {update : ControlUpdate}
    (isAuthorized : authorized state peer update = true) (stranger : peer ≠ state.hostId)
    (plain : carriesFile update = false) : edits update = true := by
  cases update with
  | link parent name child isDir => simpa [carriesFile, edits] using plain
  | unlink parent name => rfl
  | rename srcParent srcName dstParent dstName => rfl
  | newManifest manifest => cases plain
  | _ => exact absurd (of_decide_eq_true isAuthorized) stranger

/-- What a turn does to the vault, with the upload that was pending when it came: nothing, the
records that wait for the peer are taken or acknowledged, one change of the tree between
uploads, or a whole upload. -/
inductive Handled (peer : PeerId) (pending : Option PendingUpload) (v w : View) : Prop
  | idle : w = v → Handled peer pending v w
  | take {r : Result Unit} : peer ∈ v.content.members →
      Outcome (Settles v (v.content.taken peer)) v r w → Handled peer pending v w
  | acknowledge {through : Nat} {r : Result Unit} : peer ∈ v.content.members →
      through < v.content.nextControl →
      Outcome (Settles v (v.content.raiseAck peer through)) v r w → Handled peer pending v w
  | edit {update : ControlUpdate} {r : Result Unit} : pending = none → edits update = true →
      Outcome (Content.Commits v.world update v.content) v r w → Handled peer pending v w
  | upload {completed : PendingUpload} {link : Option ControlUpdate} {r : Result Unit} :
      pending = some completed → completed.isComplete = true →
      PendingUpload.Signed peer completed.trusted → PendingUpload.Whole completed.trusted completed.bodies →
      link.all (linksFile completed.trusted.fileId) = true →
      UploadOutcome v completed.trusted link r w → Handled peer pending v w

/-- Nothing was written: acknowledgements aside, records, chunks and live queues only go. -/
structure Unwritten (c next : Content) : Prop where
  expectedRoot : next.expectedRoot = c.expectedRoot
  tree : next.tree = c.tree
  manifests : next.manifests = c.manifests
  members : next.members = c.members
  denied : next.denied = c.denied
  nextControl : next.nextControl = c.nextControl
  mailbox : next.mailbox = c.mailbox
  online : ∀ peer, next.online peer = c.online peer ∨ next.online peer = []
  log : ∀ record ∈ next.log, record ∈ c.log
  records : ∀ (id : ChunkId) (record : ChunkRecord), next.records[id]? = some record →
    c.records[id]? = some record

omit [Primitives] in
theorem Unwritten.refl (c : Content) : Unwritten c c :=
  ⟨rfl, rfl, rfl, rfl, rfl, rfl, rfl, fun _ => .inl rfl, fun _ mem => mem, fun _ _ found => found⟩

omit [Primitives] in
theorem Unwritten.settle {c staged : Content} (unwritten : Unwritten c staged)
    (documents : Map PeerId IdentityDocument) : Unwritten c (staged.settle documents) :=
  { unwritten with log := fun record mem => unwritten.log record (List.mem_filter.mp mem).1 }

theorem Unwritten.of_outcome {v w : View} {staged : Content} {r : Result Unit}
    (unwritten : Unwritten v.content staged) (h : Outcome (Settles v staged) v r w) :
    Unwritten v.content w.content := by
  cases h with
  | refused e => exact .refl _
  | lost e _ lost =>
    cases lost
    exact .refl _
  | @done _ next _ settles published =>
    obtain ⟨documents, _, same⟩ := settles
    have settled := unwritten.settle documents
    rw [← same] at settled
    cases published with
    | deferred _ => exact settled
    | memory _ _ => exact settled
    | saved _ _ _ =>
      have kept := retains_retained next
      exact { settled with
        records := fun id record found => settled.records id record (kept.old id record found) }

theorem Handled.unwritten {peer : PeerId} {pending : PendingUpload} {v w : View}
    (incomplete : pending.isComplete = false) (h : Handled peer (some pending) v w) :
    Unwritten v.content w.content := by
  have same := Unwritten.refl v.content
  cases h with
  | idle unchanged => exact unchanged ▸ same
  | take _ outcome =>
    have taken : Unwritten v.content (v.content.taken peer) :=
      { same with
        online := fun other => by
          unfold Content.taken
          dsimp only
          split
          · exact .inr rfl
          · exact .inl rfl }
    exact taken.of_outcome outcome
  | @acknowledge through _ _ _ outcome =>
    have raised : Unwritten v.content (v.content.raiseAck peer through) := { same with }
    exact raised.of_outcome outcome
  | edit absent _ _ => cases absent
  | upload isPending complete _ _ _ _ =>
    cases isPending
    cases incomplete.symm.trans complete

theorem takeOnlineControl_handled (env : HostEnv) (peer : PeerId) (pending : Option PendingUpload)
    (host : HostService) :
    Action.Ensures (takeOnlineControl env peer) host fun _ t => Handled peer pending host.view t.view := by
  unfold takeOnlineControl
  refine .query (fun _ _ => .idle rfl) fun _ _ => ?_
  refine .query (fun _ _ => .idle rfl) fun _ member => ?_
  refine .query (fun _ _ => .idle rfl) fun _ _ => .query (fun _ _ => .idle rfl) fun session _ => ?_
  refine .get ?_
  split
  · exact .pure (.idle rfl)
  · unfold takePending
    refine .keeps (resealLive_keeps session peer) (fun _ _ _ same => .idle same)
      fun _ resealed _ same => .get (.bind ?_)
    refine (publishState_outcome env _ resealed).mono fun r t outcome => ?_
    have handled : Handled peer pending host.view t.view := by
      rw [← same]
      have members := congrArg (fun v => v.content.members) same
      have taken := onlineRecords_erase resealed.state peer
      exact .take (members ▸ ensure_eq_ok.mp member) (taken ▸ outcome.2)
    cases r with
    | ok _ => exact handled
    | error _ => exact handled

theorem acknowledgeApplied_handled (env : HostEnv) (peer : PeerId) (through : Nat)
    (pending : Option PendingUpload) (host : HostService) :
    Action.Ensures (acknowledgeApplied env peer through) host fun _ t =>
      Handled peer pending host.view t.view := by
  unfold acknowledgeApplied
  refine .query (fun _ _ => .idle rfl) fun _ _ => ?_
  refine .query (fun _ _ => .idle rfl) fun _ member => .get ?_
  refine .require (fun _ => .idle rfl) fun bounded => .ite (fun _ => .pure (.idle rfl)) fun _ => ?_
  have outcome := (publishState_outcome env (raiseAck peer through host.state) host).2
  exact .acknowledge (ensure_eq_ok.mp member) bounded outcome

theorem fanOutControl_handled (env : HostEnv) {peer : PeerId} {update : ControlUpdate}
    (plain : carriesFile update = false) {host : HostService} (stranger : peer ≠ host.state.hostId) :
    Action.Ensures (fanOutControl env peer update) host fun _ t =>
      Handled peer none host.view t.view := by
  by_cases isAuthorized : authorized host.state peer update = true
  · have isEdit := edits_of_authorized isAuthorized stranger plain
    have notKick : kickedBy update = none := by
      cases update with
      | kick target => cases isEdit
      | _ => rfl
    refine (fanOutControl_outcome env peer notKick host).mono fun r t outcome => ?_
    obtain ⟨_, _, _, same, _⟩ | outcome := outcome
    · exact .idle same
    · exact .edit rfl isEdit outcome
  · unfold fanOutControl
    refine .query (fun _ _ => .idle rfl) fun _ _ => .query (fun _ _ => .idle rfl) fun _ _ => .get ?_
    exact .require (fun _ => .idle rfl) fun again => absurd again isAuthorized

namespace Serving

def seen (s : Serving) : View × Option PendingUpload := (s.host.view, s.connection.upload)

omit [Primitives] in
theorem onKeys_seen {α : Type} {x : Action Error KeyStore α} (keeps : Action.Keeps sealView x) :
    Action.Keeps seen (onKeys x) := by
  intro s
  have view : _ = s.host.view := view_of_frame (onKeys_keeps (idleView_of_sealView keeps) s.host)
  exact congrArg (·, s.connection.upload) view

omit [Primitives] in
theorem onHost_seen {α : Type} {x : Action Error HostService α}
    (keeps : Action.Keeps HostService.view x) : Action.Keeps seen (onHost x) := fun s =>
  congrArg (·, s.connection.upload) (keeps s.host)

omit [Primitives] in
theorem answer_seen (replies : List Reply) : Action.Keeps seen (answer replies) := fun _ => rfl

omit [Primitives] in
theorem beat_seen (env : LiveEnv) (peer : PeerId) : Action.Keeps seen (beat env peer) :=
  .bind (onHost_seen (heartbeat_keeps _ _ _)) fun _ => answer_seen _

/-- The part of a turn that handles its frame. -/
def Handles {α : Type} (peer : PeerId) (x : Action Error Serving α) (s : Serving) : Prop :=
  Action.Ensures x s fun _ t => Handled peer s.connection.upload s.host.view t.host.view

omit [Primitives] in
theorem view_of_seen {s t : Serving} (same : seen t = seen s) : t.host.view = s.host.view :=
  congrArg Prod.fst same

theorem handles_of_keeps {α : Type} {peer : PeerId} {x : Action Error Serving α}
    (keeps : Action.Keeps seen x) (s : Serving) : Handles peer x s :=
  .idle (view_of_seen (keeps s))

theorem Handles.then {α β : Type} {peer : PeerId} {x : Action Error Serving α}
    {f : α → Action Error Serving β} {s : Serving} (first : Handles peer x s)
    (keeps : ∀ a, Action.Keeps seen (f a)) : Handles peer (x >>= f) s := by
  refine Action.Ensures.next first (fun _ _ known => known) fun a t known => ?_
  change Handled peer s.connection.upload s.host.view (f a t).2.host.view
  rwa [view_of_seen (keeps a t)]

theorem handles_after {α β : Type} {peer : PeerId} {x : Action Error Serving α}
    {f : α → Action Error Serving β} {s : Serving} (keeps : Action.Keeps seen x)
    (rest : ∀ a t, x s = (.ok a, t) → seen t = seen s → Handles peer (f a) t) :
    Handles peer (x >>= f) s := by
  refine .keeps keeps (fun _ _ _ same => .idle (view_of_seen same)) fun a t done same => ?_
  have handled := rest a t done same
  have upload : t.connection.upload = s.connection.upload := congrArg Prod.snd same
  unfold Handles at handled
  rwa [upload, view_of_seen same] at handled

theorem finalizeUpload_handles (env : LiveEnv) {peer : PeerId} (link : Option ControlUpdate)
    {s : Serving} (sound : ∀ pending, s.connection.upload = some pending → pending.Sound peer) :
    Handles peer (finalizeUpload env peer link) s := by
  unfold finalizeUpload Handles
  refine .query (fun _ _ => .idle rfl) fun completed isPending => ?_
  refine .require (fun _ => .idle rfl) fun complete => .modify ?_
  have isPending := okOr_eq_ok.mp isPending
  have outcome := commitWriterUpload_outcome env.commit peer completed.trusted completed.bodies link s.host
  obtain ⟨isLink, outcome⟩ | ⟨same, _⟩ := outcome
  · exact .upload isPending complete (sound _ isPending).toSigned ((sound _ isPending).whole complete)
      isLink outcome
  · exact .idle same

theorem receiveMemberControl_handles (env : LiveEnv) {peer : PeerId} (update : ControlUpdate)
    {s : Serving} (sound : ∀ pending, s.connection.upload = some pending → pending.Sound peer)
    (stranger : peer ≠ s.host.state.hostId) :
    Handles peer (receiveMemberControl env peer update) s := by
  have instructs : ∀ {other : ControlUpdate}, carriesFile other = false → Handles peer (do
      requireNoUpload
      onHost (fanOutControl env.commit peer other)) s := by
    intro other plain
    refine .query (fun _ _ => .idle rfl) fun _ idle => ?_
    have none : s.connection.upload = none := Option.isNone_iff_eq_none.mp (ensure_eq_ok.mp idle)
    have handled := fanOutControl_handled env.commit plain stranger
    rw [none]
    exact handled
  cases update with
  | newManifest manifest =>
    exact .query (fun _ _ => .idle rfl) fun _ _ => .query (fun _ _ => .idle rfl) fun _ _ => .idle rfl
  | link parent name child isDir =>
    cases isDir with
    | true => exact instructs rfl
    | false =>
      refine .query (fun _ _ => .idle rfl) fun pending _ => .require (fun _ => .idle rfl) fun _ => ?_
      exact finalizeUpload_handles env _ sound
  | _ => exact instructs rfl

theorem serveControl_handles (env : LiveEnv) {peer : PeerId} (control : NetControl) {s : Serving}
    (sound : ∀ pending, s.connection.upload = some pending → pending.Sound peer) :
    Handles peer (serveControl env peer control) s := by
  cases control with
  | heartbeat =>
    refine Action.Ensures.get ?_
    split
    · exact handles_of_keeps (beat_seen env peer) s
    · split
      · exact (finalizeUpload_handles env none sound).then fun _ => beat_seen env peer
      · exact handles_of_keeps (answer_seen _) s
  | heartbeatApplied through =>
    have acknowledged : Handles peer (onHost (acknowledgeApplied env.acknowledge peer through.val)) s :=
      acknowledgeApplied_handled env.acknowledge peer through.val _ s.host
    exact acknowledged.then fun _ => beat_seen env peer
  | _ => exact .idle rfl

omit [Primitives] in
theorem answerUnlessUploading_seen : Action.Keeps seen answerUnlessUploading :=
  .bind .get fun _ => .ite (answer_seen _) (.pure _)

theorem serveRequest_handles (env : LiveEnv) {peer : PeerId} (request : MemberRequest) {s : Serving}
    (sound : ∀ pending, s.connection.upload = some pending → pending.Sound peer)
    (stranger : peer ≠ s.host.state.hostId) : Handles peer (serveRequest env peer request) s := by
  cases request with
  | haveQuery query => exact handles_of_keeps (.bind (.query _) fun _ => answer_seen _) s
  | control control => exact serveControl_handles env control sound
  | pull request =>
    have keeps := onKeys_seen (serve_keeps s.host.state.chunks request.chunkIds peer)
    exact handles_of_keeps (.bind keeps fun _ => answer_seen _) s
  | update update =>
    exact (receiveMemberControl_handles env update sound stranger).then fun _ =>
      answerUnlessUploading_seen

omit [Primitives] in
theorem setUpload_view (upload : Option PendingUpload) :
    Action.Keeps (fun s : Serving => s.host.view) (setUpload upload) := fun _ => rfl

theorem serveBody_handles (peer : PeerId) (payload : Bytes) (s : Serving) :
    Handles peer (serveBody peer payload) s := by
  have received : ∀ body, Action.Keeps (fun s : Serving => s.host.view) (receiveUploadBody peer body) := by
    intro body
    refine .bind (.query _) fun pending => .bind (.query _) fun session => .bind ?_ fun _ => ?_
    · exact fun s => view_of_seen (onKeys_seen (openChunk_keeps session body pending.trusted) s)
    · refine .bind (.ofExcept _) fun _ => .bind (.require _ _) fun _ => .bind (.require _ _) fun _ => ?_
      exact setUpload_view _
  have answered : Action.Keeps (fun s : Serving => s.host.view) answerUnlessUploading :=
    fun s => view_of_seen (answerUnlessUploading_seen s)
  have keeps : Action.Keeps (fun s : Serving => s.host.view) (serveBody peer payload) :=
    .bind (.ofExcept _) fun _ => .bind (.query _) fun _ => .bind (received _) fun _ => answered
  exact .idle (keeps s)

variable {start : HostService} {allowed : HostOp → Prop} {peer : PeerId}

theorem servePacket_handles (fresh : Fresh start) (env : LiveEnv) (payload : Bytes) {s : Serving}
    (turn : Turn start allowed peer s) : Handles peer (servePacket env peer payload) s := by
  refine .ofExcept (fun _ _ => .idle rfl) fun packet _ => .query (fun _ _ => .idle rfl) fun _ _ => ?_
  refine .query (fun _ _ => .idle rfl) fun session isSession => ?_
  have inv := turn.calls.inv fresh
  have stranger : peer ≠ s.host.state.hostId := fun same => by
    have isLocal : peer = s.host.keys.identity.document.peerId := same.trans inv.host.symm
    cases (selfPaired_of_session isSession isLocal).symm.trans inv.unpaired
  refine handles_after (onKeys_seen (openPacketWithSession_keeps session packet)) fun plaintext t _ same => ?_
  refine .ofExcept (fun _ _ => .idle rfl) fun request _ => ?_
  have upload : t.connection.upload = s.connection.upload := congrArg Prod.snd same
  have hostId : t.host.state.hostId = s.host.state.hostId :=
    congrArg (fun v : View => v.content.hostId) (view_of_seen same)
  refine serveRequest_handles env request (fun pending isPending => ?_) (hostId ▸ stranger)
  exact turn.upload pending (upload ▸ isPending)

theorem receiveFrame_handles (fresh : Fresh start) (env : LiveEnv) (received : Frame) {s : Serving}
    (turn : Turn start allowed peer s) : Handles peer (receiveFrame env peer received) s := by
  have served : Handles peer (serveFrame env peer received) s := by
    unfold serveFrame
    refine handles_after (fun _ => rfl) fun _ t done same => ?_
    obtain rfl := congrArg Prod.snd done
    refine .query (fun _ _ => .idle rfl) fun _ _ => ?_
    refine .ite (fun _ => ?_) fun _ => .ite (fun _ => ?_) fun _ => .idle rfl
    · exact servePacket_handles fresh env _ ⟨turn.calls, turn.upload⟩
    · exact serveBody_handles peer _ _
  refine Action.Ensures.get (.ite (fun _ => ?_) fun _ => served)
  refine .ofExcept (fun _ _ => .idle rfl) fun ack _ => ?_
  obtain ⟨ack, retry⟩ := ack
  exact .ite (fun _ => .idle rfl) fun _ => served

theorem sendReply_handles (env : LiveEnv) (reply : Reply) (s : Serving) :
    Handles peer (sendReply env peer reply) s := by
  have frame : ∀ frame, Action.Keeps seen (sendFrame env frame) := fun frame =>
    .bind (.require _ _) fun _ => fun _ => rfl
  have packet : ∀ packet, Action.Keeps seen (sendPacket env packet) := fun packet =>
    .bind (.ofExcept _) fun _ => .bind (.ofExcept _) fun _ => frame _
  have message : ∀ message, Action.Keeps seen (sendSealed env peer message) := fun message =>
    .bind (.ofExcept _) fun _ => .bind (.query _) fun _ =>
      .bind (onKeys_seen (sealPacketWithSession_keeps _ _)) fun _ => packet _
  have control : ∀ control, Action.Keeps seen (sendControl env peer control) := fun control =>
    .bind (.query _) fun _ => message _
  cases reply with
  | memberState =>
    have taken : Handles peer (onHost (takeOnlineControl env.take peer)) s :=
      takeOnlineControl_handled env.take peer _ s.host
    exact taken.then fun _ => answer_seen _
  | packet sent => exact handles_of_keeps (packet sent) s
  | welcome => exact handles_of_keeps (.bind (.query _) fun _ => control _) s
  | control sent => exact handles_of_keeps (control sent) s
  | haveReply reply => exact handles_of_keeps (message _) s
  | chunk body => exact handles_of_keeps (.bind (.ofExcept _) fun _ => .bind (.ofExcept _) fun _ => frame _) s

theorem proceed_handles (env : LiveEnv) (s : Serving) : Handles peer (proceed env peer) s := by
  refine Action.Ensures.get ?_
  split
  · refine handles_of_keeps (.bind (.query _) fun _ => .bind (.query _) fun _ => ?_) s
    exact fun _ => rfl
  · refine handles_after (fun _ => rfl) fun _ t _ _ => ?_
    exact sendReply_handles env _ t

end Serving

/-- The member whose connection has its turn. -/
def LiveOp.party : LiveOp → Option PeerId
  | .serve peer | .receive _ peer _ | .proceed _ peer | .poll _ peer | .close _ peer => some peer
  | .host _ => none

def Live.uploadOf (live : Live) (peer : PeerId) : Option PendingUpload :=
  live.connections[peer]?.bind Connection.upload

namespace Live

variable {live : Live} {peer : PeerId}

omit [Primitives] in
theorem leave_handled (env : LiveEnv) : (Live.leave env peer live).host.view = live.host.view :=
  heartbeat_keeps env.leave peer 0 live.host

theorem turn_handled (env : LiveEnv) {ready : Connection → Bool} {x : Action Error Serving Unit}
    (handles : ∀ connection, live.connections[peer]? = some connection →
      Serving.Handles peer x ⟨live.host, connection⟩) :
    Handled peer (live.uploadOf peer) live.host.view (Live.turn env peer ready x live).host.view := by
  unfold Live.turn
  cases found : live.connections[peer]?.filter ready with
  | none => exact .idle rfl
  | some connection =>
    obtain ⟨found, _⟩ := Option.filter_eq_some_iff.mp found
    have handled := handles connection found
    unfold Serving.Handles Action.Ensures at handled
    have upload : live.uploadOf peer = connection.upload := by simp [uploadOf, found]
    rw [upload]
    dsimp only
    generalize x ⟨live.host, connection⟩ = outcome at handled ⊢
    obtain ⟨result, served⟩ := outcome
    cases result with
    | ok _ => exact handled
    | error e =>
      have left : _ = served.host.view :=
        @leave_handled ⟨served.host, live.connections⟩ peer env
      exact left ▸ handled

omit [Primitives] in
theorem turn_others (env : LiveEnv) {ready : Connection → Bool} {x : Action Error Serving Unit}
    {other : PeerId} (apart : other ≠ peer) :
    (Live.turn env peer ready x live).connections[other]? = live.connections[other]? := by
  unfold Live.turn
  cases live.connections[peer]?.filter ready with
  | none => rfl
  | some connection =>
    dsimp only
    generalize x ⟨live.host, connection⟩ = outcome
    obtain ⟨result, served⟩ := outcome
    cases result with
    | ok _ => exact Map.get_insert_ne _ _ (Ne.symm apart)
    | error e => exact Map.get_erase_ne _ (Ne.symm apart)

end Live

namespace LiveOp

variable {op : LiveOp} {live : Live} {peer : PeerId}

theorem exec_others (party : op.party = some peer) {other : PeerId} (apart : other ≠ peer) :
    (op.exec live).connections[other]? = live.connections[other]? := by
  cases op with
  | serve _ =>
    cases party
    simp only [exec]
    split
    · rfl
    · exact Map.get_insert_ne _ _ (Ne.symm apart)
  | receive env _ received =>
    cases party
    exact Live.turn_others env apart
  | proceed env _ =>
    cases party
    exact Live.turn_others env apart
  | poll env _ =>
    cases party
    exact Live.turn_others env apart
  | close env _ =>
    cases party
    simp only [exec]
    split
    · exact Map.get_erase_ne _ (Ne.symm apart)
    · rfl
  | host _ => cases party

theorem exec_handled {start : HostService} {allowed : HostOp → Prop} (fresh : Fresh start)
    (sound : live.Sound start allowed) (party : op.party = some peer) :
    Handled peer (live.uploadOf peer) live.host.view (op.exec live).host.view := by
  cases op with
  | serve _ =>
    refine .idle ?_
    simp only [exec]
    split <;> rfl
  | receive env _ received =>
    cases party
    refine Live.turn_handled env fun connection found => ?_
    exact Serving.receiveFrame_handles fresh env received
      ⟨sound.calls, fun pending => sound.uploads peer connection pending found⟩
  | proceed env _ =>
    cases party
    exact Live.turn_handled env fun _ _ => Serving.proceed_handles env _
  | poll env _ =>
    cases party
    exact Live.turn_handled env fun _ _ => .idle rfl
  | close env _ =>
    refine .idle ?_
    simp only [exec]
    split
    · exact Live.leave_handled env
    · rfl
  | host _ => cases party

end LiveOp

/-- In every run, and for the turn of every connection in it: the turn leaves the other connections
alone; every upload that is collected anywhere is signed by its own member, has only bodies that
hash to their slots, and keeps to the budget; the vault changes only as `Handled` says, by a file
only when its upload is whole; and before that nothing of the upload is written. -/
theorem uploads_whole {start : HostService} (fresh : Fresh start) (ops : List LiveOp) (op : LiveOp)
    {peer : PeerId} (party : op.party = some peer) :
    let s := liveMachine.run ops (Live.alone start)
    let t := liveMachine.exec op s
    (∀ other, other ≠ peer → t.connections[other]? = s.connections[other]?) ∧
    (∀ other pending, s.uploadOf other = some pending → pending.Sound other) ∧
    Handled peer (s.uploadOf peer) s.host.view t.host.view ∧
    ∀ pending, s.uploadOf peer = some pending → pending.isComplete = false →
      Unwritten s.host.state.content t.host.state.content := by
  intro s t
  have sound := Live.run_sound fresh ops
  have handled : Handled peer (s.uploadOf peer) s.host.view t.host.view :=
    LiveOp.exec_handled fresh sound party
  refine ⟨fun other apart => LiveOp.exec_others party apart, ?_, handled, ?_⟩
  · intro other pending isPending
    obtain ⟨connection, found, isPending⟩ := Option.bind_eq_some_iff.mp isPending
    exact sound.uploads other connection pending found isPending
  · intro pending isPending incomplete
    rw [isPending] at handled
    exact handled.unwritten incomplete

section

open NonceReuse (alice bob)

omit [Primitives]

/-- The last frame of Bob's file. -/
def bobLinks : LiveOp :=
  .receive calmLive bob.document.peerId
    (((bobFrames.toOption.getD [])[3]?).get (by decide +kernel))

/-- Bob's link arrives when Alice has both bodies of his file. -/
theorem uploads_whole_note :
    letI := Primitives.plain
    let s := liveMachine.run (bobSends.take 8) (Live.alone aliceHost)
    let t := liveMachine.exec bobLinks s
    s.host.state.log.length = 0 ∧ t.host.state.log.length = 2 ∧
      Handled bob.document.peerId (s.uploadOf bob.document.peerId) s.host.view t.host.view :=
  letI := Primitives.plain
  ⟨by decide +kernel, by decide +kernel, (uploads_whole aliceHost_fresh _ _ rfl).2.2.1⟩

end

end QuantumFs.Net
