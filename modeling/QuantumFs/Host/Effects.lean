import QuantumFs.Host.Refine

/-! What each operation of the host does: it keeps the content, or it publishes one
move of it. -/
namespace QuantumFs.Host

open Lib Encoding Crypto Store

variable [Primitives]

def Effective {α : Type} (x : Action Error HostService α) : Prop :=
  ∀ host, Effect host.view (x host).2.view

def Aside {α : Type} (x : Action Error HostService α) : Prop :=
  ∀ host, Beside host.view (x host).2.view

theorem Aside.of_keeps {α : Type} {x : Action Error HostService α}
    (h : Action.Keeps HostService.view x) : Aside x := fun host => .of_eq (h host)

theorem Aside.of_frame {α : Type} {x : Action Error HostService α}
    (h : Action.Keeps HostService.frame x) : Aside x :=
  .of_keeps fun host => view_of_frame (h host)

theorem Aside.bind {α β : Type} {x : Action Error HostService α}
    {f : α → Action Error HostService β} (hx : Aside x) (hf : ∀ a, Aside (f a)) :
    Aside (x >>= f) := by
  intro host
  have first := hx host
  rw [Action.bind_apply]
  generalize x host = result at first ⊢
  obtain ⟨r, t⟩ := result
  cases r with
  | ok a => exact first.trans (hf a t)
  | error e => exact first

namespace Effective

variable {α β : Type}

theorem of_aside {x : Action Error HostService α} (h : Aside x) : Effective x :=
  fun host => .beside (h host)

theorem of_keeps {x : Action Error HostService α} (h : Action.Keeps HostService.view x) :
    Effective x := .of_aside (.of_keeps h)

theorem of_ensures {x : Action Error HostService α}
    (h : ∀ host, Action.Ensures x host fun _ t => Effect host.view t.view) : Effective x := h

theorem after {x : Action Error HostService α} {f : α → Action Error HostService β}
    (hx : Aside x) (hf : ∀ a, Effective (f a)) : Effective (x >>= f) := by
  intro host
  have first := hx host
  rw [Action.bind_apply]
  generalize x host = result at first ⊢
  obtain ⟨r, t⟩ := result
  cases r with
  | ok a => exact (hf a t).after first
  | error e => exact .beside first

theorem before {x : Action Error HostService α} {f : α → Action Error HostService β}
    (hx : Effective x) (hf : ∀ a, Aside (f a)) : Effective (x >>= f) := by
  intro host
  have first := hx host
  rw [Action.bind_apply]
  generalize x host = result at first ⊢
  obtain ⟨r, t⟩ := result
  cases r with
  | ok a => exact first.before (hf a t)
  | error e => exact first

theorem query {g : HostService → Result α} {f : α → Action Error HostService β}
    (hf : ∀ a, Effective (f a)) : Effective (Action.query g >>= f) :=
  after (.of_keeps (.query g)) hf

theorem ofExcept {y : Result α} {f : α → Action Error HostService β}
    (hf : ∀ a, Effective (f a)) : Effective (Action.ofExcept y >>= f) :=
  after (.of_keeps (.ofExcept y)) hf

end Effective

omit [Primitives] in
theorem heartbeat_keeps (env : HostEnv) (peer : PeerId) (ttl : Nat) :
    Action.Keeps HostService.view (heartbeat env peer ttl) := by
  unfold heartbeat
  refine .bind (.query _) fun _ => .bind (.query _) fun _ => ?_
  exact .bind (.ofExcept _) fun _ => .modify fun _ => rfl

theorem Beside.of_challenges {host : HostService} {challenges : Map PeerId FlushChallenge}
    (h : ∀ peer, challenges.contains peer = true →
      host.challenges.contains peer = true ∨ peer ∈ host.state.members) :
    Beside host.view (HostService.view { host with challenges }) :=
  { Beside.refl host.view with challenged := h }

theorem issueFlushChallenge_aside (env : HostEnv) (peer : PeerId) :
    Aside (issueFlushChallenge env peer) := by
  intro host
  refine (?_ : Action.Ensures (issueFlushChallenge env peer) host fun _ t =>
    Beside host.view t.view)
  unfold issueFlushChallenge
  refine .query (fun _ _ => .refl _) fun _ _ => .query (fun _ _ => .refl _) fun _ member => ?_
  refine .ofExcept (fun _ _ => .refl _) fun challenge _ => .modify (.pure ?_)
  refine .of_challenges fun other again => ?_
  rw [Std.ExtTreeMap.contains_insert] at again
  by_cases same : peer = other
  · exact .inr (same ▸ ensure_eq_ok.mp member)
  · simpa [same] using Or.inl again

theorem eraseChallenge_aside (peer : PeerId) : Aside (Action.modify fun host : HostService =>
    { host with challenges := host.challenges.erase peer }) := by
  refine fun host => .of_challenges fun other again => .inl ?_
  rw [Std.ExtTreeMap.contains_erase] at again
  exact (Bool.and_eq_true_iff.mp again).2

theorem prepareFlush_keeps (peer : PeerId) (challenge : FlushChallenge) (signature : Bytes) :
    Action.Keeps HostService.view (prepareFlush peer challenge signature) := by
  unfold prepareFlush
  refine .bind (.query _) fun _ => .bind (.query _) fun _ => .bind .get fun host => ?_
  refine .bind (.require _ _) fun _ => .bind (.query _) fun _ => .bind (.ofExcept _) fun _ => ?_
  refine .bind refreshMailboxes_keeps fun _ => .bind ?_ fun _ => .bind .get fun _ => .pure _
  exact fun s => view_of_frame (onKeys_keeps (blockLiveTraffic_keeps _ _) s)

omit [Primitives] in
theorem noteRecentOp_view (env : HostEnv) (sender : PeerId) (id : Nat) (host : HostService) :
    (noteRecentOp env sender id host).view = host.view := by
  unfold noteRecentOp
  split <;> rfl

theorem resealLive_keeps (session : PairSession) (recipient : PeerId) :
    Action.Keeps HostService.view (resealLive session recipient) := by
  intro host
  unfold resealLive
  have keys := Action.updateEach_keeps (resealOnline_keeps session)
    (host.state.online[recipient]?.getD []) host.keys
  have records := resealed_records session (host.state.online[recipient]?.getD []) host.keys
  dsimp only
  generalize Action.updateEach (resealOnline session) (host.state.online[recipient]?.getD [])
    host.keys = resealed at keys records ⊢
  have keys := keysView_of_idleView (idleView_of_seal keys)
  simp only [keysView, Prod.mk.injEq] at keys
  simp only [HostService.view, keys, content_insert_online records]

omit [Primitives] in
theorem onlineRecords_erase (state : HostState) (peer : PeerId) :
    ({ state with online := state.online.erase peer } : HostState).content =
      state.content.taken peer := by
  have online : ({ state with online := state.online.erase peer } : HostState).onlineRecords =
      fun other => if peer = other then [] else state.onlineRecords other := by
    funext other
    simp only [HostState.onlineRecords, Map.get_erase]
    split <;> rfl
  unfold HostState.content Content.taken
  rw [online]
  rfl

theorem takeOnlineControl_effective (env : HostEnv) (recipient : PeerId) :
    Effective (takeOnlineControl env recipient) := by
  refine .of_ensures fun host => ?_
  unfold takeOnlineControl
  refine .query (fun _ _ => .of_eq rfl) fun _ _ => ?_
  refine .query (fun _ _ => .of_eq rfl) fun _ member => ?_
  refine .query (fun _ _ => .of_eq rfl) fun _ _ => ?_
  refine .query (fun _ _ => .of_eq rfl) fun session _ => ?_
  refine .get ?_
  split
  · exact .of_eq rfl
  · unfold takePending
    refine .keeps (resealLive_keeps session recipient) (fun _ _ _ same => .of_eq same)
      fun _ resealed _ same => ?_
    refine .get (.bind ?_)
    refine (publishState_outcome env _ resealed).mono fun r t outcome => ?_
    have effect : Effect host.view t.view := by
      rw [← same]
      refine .of_outcome outcome.2 fun next settles => ⟨_, .take recipient ?_, ?_⟩
      · have members := congrArg (fun v => v.content.members) same
        exact members ▸ ensure_eq_ok.mp member
      · exact onlineRecords_erase resealed.state recipient ▸ settles
    cases r with
    | ok _ => exact effect
    | error _ => exact effect

theorem publishState_effect (env : HostEnv) {staged : HostState} {host : HostService} {v : View}
    (same : host.view = v) (move : Content.Move v.world v.content staged.content) :
    Effect v (publishState env staged host).2.view := by
  have outcome := (publishState_outcome env staged host).2
  rw [same] at outcome
  exact .of_outcome outcome fun next settles => ⟨_, move, settles⟩

omit [Primitives] in
theorem content_mailbox_insert (state : HostState) (peer : PeerId) (queue : List Queued) :
    ({ state with mailboxes := state.mailboxes.insert peer queue } : HostState).content =
      { state.content with mailbox := fun other =>
          if peer = other then queue.map Queued.content else state.mailbox other } := by
  have mailbox := funext (mailbox_insert state peer · queue)
  unfold HostState.content
  rw [mailbox]
  rfl

theorem Effect.undo {α : Type} {x : Action Error HostService α}
    {undo : Action Error HostService Unit} {v : View} {host : HostService}
    (hx : Effect v (x host).2.view) (hundo : Aside undo) :
    Effect v (Action.orElseUndo x undo host).2.view := by
  refine (?_ : Action.Ensures (Action.orElseUndo x undo) host fun _ t => Effect v t.view)
  refine .orElseUndo ?_
  unfold Action.Ensures
  generalize x host = result at hx ⊢
  obtain ⟨r, t⟩ := result
  cases r with
  | ok a => exact hx
  | error e =>
    have last := hundo t
    dsimp only
    generalize undo t = undone at last ⊢
    obtain ⟨r, t⟩ := undone
    cases r with
    | ok _ => exact hx.before last
    | error _ => exact hx.before last

theorem Effect.then {α β : Type} {x : Action Error HostService α}
    {f : α → Action Error HostService β} {v : View} {host : HostService}
    (hx : Effect v (x host).2.view) (hf : ∀ a, Aside (f a)) :
    Effect v ((x >>= f) host).2.view := by
  rw [Action.bind_apply]
  generalize x host = result at hx ⊢
  obtain ⟨r, t⟩ := result
  cases r with
  | ok a => exact hx.before (hf a t)
  | error e => exact hx

omit [Primitives] in
theorem replaceBody_content (recipient : PeerId) (fileId : FileId) (index : Nat)
    (envelope : MailboxEnvelope) (chunkId : ChunkId) (state : HostState) :
    (replaceBody recipient fileId index ⟨envelope, .chunk fileId index chunkId⟩ state).content =
      state.content.appended recipient fileId index chunkId := by
  unfold replaceBody
  rw [content_mailbox_insert, List.map_append, filter_contents]
  rfl

omit [Primitives] in
theorem selfPaired_of_session {keys : KeyStore} {peer : PeerId} {session : PairSession}
    (h : keys.currentSession peer = .ok session) (isLocal : peer = keys.identity.document.peerId) :
    selfPaired keys = true := by
  obtain ⟨_, _, h⟩ := Result.bind_eq_ok.mp h
  obtain ⟨pair, found, _⟩ := Result.bind_eq_ok.mp h
  rw [isLocal] at found
  exact (Map.contains_iff_get _ _).mpr ⟨pair, okOr_eq_ok.mp found⟩

theorem appendMailbox_effective (env : HostEnv) (recipient : PeerId) (fileId : FileId)
    (index : Nat) : Effective (appendMailbox env recipient fileId index) := by
  refine .of_ensures fun host => ?_
  unfold appendMailbox
  refine .query (fun _ _ => .of_eq rfl) fun _ _ => ?_
  refine .query (fun _ _ => .of_eq rfl) fun _ member => ?_
  refine .query (fun _ _ => .of_eq rfl) fun manifest found => ?_
  refine .ofExcept (fun _ _ => .of_eq rfl) fun chunkId slot => ?_
  refine .keeps refreshMailboxes_keeps (fun _ _ _ same => .of_eq same) fun _ fresh _ same => ?_
  unfold queueSlot
  refine .query (fun _ _ => .of_eq same) fun session isSession => ?_
  refine .query (fun _ _ => .of_eq same) fun plaintext _ => ?_
  refine .get ?_
  refine .keeps (onKeys_keeps (blockLiveTraffic_keeps recipient _))
    (fun _ _ _ kept => .of_eq ((view_of_frame kept).trans same)) fun _ gated _ kept => ?_
  refine .keeps (onKeys_keeps (idleView_of_sealView (encryptAtSend_keeps session fileId index plaintext)))
    (fun _ _ _ sealed => .of_eq ((view_of_frame (sealed.trans kept)).trans same))
    fun frame sent _ sealed => ?_
  have view : sent.view = host.view := (view_of_frame (sealed.trans kept)).trans same
  refine .ofExcept (fun _ _ => .of_eq view) fun queuedAt _ => ?_
  refine .ofExcept (fun _ _ => .of_eq view) fun envelope _ => ?_
  refine Effect.undo (publishState_effect env view ?_) (.of_frame (reopenGates_keeps _))
  have content : fresh.state.content = host.state.content := congrArg View.content same
  rw [replaceBody_content, content]
  have isMember : recipient ∈ host.state.content.members := ensure_eq_ok.mp member
  have isManifest : host.state.content.manifests[fileId]? = some manifest := okOr_eq_ok.mp found
  have paired : recipient = host.view.world.identity.peerId → host.view.world.selfPaired = true := by
    change _ = host.view.identity.document.peerId → host.view.selfPaired = true
    rw [← same]
    exact selfPaired_of_session isSession
  exact .append isMember paired isManifest (okOr_eq_ok.mp slot)

omit [Primitives] in
theorem drainMailbox_content (state : HostState) (peer : PeerId) :
    (drainMailbox peer state).content = state.content.drained peer := by
  have mailbox : (drainMailbox peer state).mailbox =
      fun other => if peer = other then [] else state.mailbox other := by
    funext other
    simp only [HostState.mailbox, drainMailbox, Map.get_erase]
    split <;> rfl
  unfold HostState.content Content.drained
  rw [mailbox]
  rfl

theorem acknowledgeFlush_effective (env : HostEnv) (peer : PeerId) (prepared : PreparedHostFlush) :
    Effective (acknowledgeFlush env peer prepared) := by
  refine .of_ensures fun host => ?_
  unfold acknowledgeFlush
  refine .query (fun _ _ => .of_eq rfl) fun _ _ => .get ?_
  refine .require (fun _ => .of_eq rfl) fun open' => ?_
  refine .require (fun _ => .of_eq rfl) fun _ => ?_
  refine .require (fun _ => .of_eq rfl) fun _ => ?_
  have challenged : host.view.world.challenged peer = true :=
    (Map.contains_iff_get _ _).mpr ⟨_, open'.2⟩
  have move : Content.Move host.view.world host.view.content (drainMailbox peer host.state).content :=
    drainMailbox_content host.state peer ▸ .drain peer challenged
  refine Effect.then (publishState_effect env rfl move) fun _ => ?_
  exact .bind (eraseChallenge_aside peer) fun _ =>
    .of_frame (onKeys_keeps (unblockLiveTraffic_keeps _ _))

theorem acknowledgeApplied_effective (env : HostEnv) (peer : PeerId) (through : Nat) :
    Effective (acknowledgeApplied env peer through) := by
  refine .of_ensures fun host => ?_
  unfold acknowledgeApplied
  refine .query (fun _ _ => .of_eq rfl) fun _ _ => ?_
  refine .query (fun _ _ => .of_eq rfl) fun _ member => .get ?_
  refine .require (fun _ => .of_eq rfl) fun bounded => ?_
  split
  · exact .of_eq rfl
  · rename_i above
    have isMember : peer ∈ host.state.content.members := ensure_eq_ok.mp member
    exact publishState_effect env rfl (.acknowledge isMember bounded (Nat.lt_of_not_le above))

theorem setAdmission_effective (env : HostEnv) (metadata : VaultMetadata) :
    Effective (setAdmission env metadata) := by
  refine .of_ensures fun host => ?_
  unfold setAdmission
  refine .query (fun _ _ => .of_eq rfl) fun _ _ => .get ?_
  refine .require (fun _ => .of_eq rfl) fun _ => ?_
  exact publishState_effect env rfl (.admission metadata)

theorem attachAdmission_effective (env : HostEnv) (metadata : VaultMetadata) :
    Effective (attachAdmission env metadata) := by
  refine .of_ensures fun host => ?_
  unfold attachAdmission
  refine .get (.require (fun _ => .of_eq rfl) fun _ => .modify ?_)
  refine Effect.undo (v := host.view) ?_ (.of_keeps (.modify fun _ => rfl))
  refine Action.Ensures.require (Q := fun _ (t : HostService) => Effect host.view t.view)
    (fun _ => .of_eq rfl) fun _ => ?_
  refine publishState_effect env rfl ?_
  unfold adoptAdmission
  split
  · exact .keep
  · rename_i missing
    exact .attach metadata missing

structure Sociable (keys next : KeyStore) : Prop where
  identity : next.identity = keys.identity
  peers : SoundPeers keys.peers → SoundPeers next.peers
  unpaired : selfPaired keys = false → selfPaired next = false

theorem onKeys_aside {α : Type} {x : Action Error KeyStore α}
    (h : ∀ keys, Sociable keys (x keys).2) : Aside (HostService.onKeys x) := fun host =>
  { content := rfl
    deferred := rfl
    identity := (h host.keys).identity
    peers := (h host.keys).peers
    unpaired := (h host.keys).unpaired
    challenged := fun _ => .inl
    disk := (Beside.refl host.view).disk }

omit [Primitives] in
private theorem selfPaired_insert {keys next : KeyStore} {peer : PeerId} {pair : PersistedPair}
    (identity : next.identity = keys.identity) (pairs : next.pairs = keys.pairs.insert peer pair)
    (other : peer ≠ keys.localId) : selfPaired next = selfPaired keys := by
  unfold selfPaired KeyStore.localId at *
  rw [identity, pairs, Std.ExtTreeMap.contains_insert]
  have different : (compare peer keys.identity.document.peerId == Ordering.eq) = false := by
    simpa using other
  rw [different, Bool.false_or]

theorem create_same (env : KeyEnv) {peer : PeerId} (ek : Bytes) (epoch : Nat) {keys : KeyStore}
    (other : peer ≠ keys.localId) :
    keysView (KeyStore.create env peer ek epoch keys).2 = keysView keys := by
  have outcome := KeyStore.createInner_outcome env peer ek epoch false keys
  unfold Action.Ensures at outcome
  have quietly : ∀ {next : KeyStore}, KeyStore.Quiet keys next → keysView next = keysView keys := by
    intro next quiet
    simp only [keysView, selfPaired, KeyStore.localId, quiet.identity, quiet.peers, quiet.pairs]
  obtain ⟨quiet, _⟩ | ⟨_, _, _, _, ⟨quiet, _⟩ | ⟨installed, _⟩⟩ := outcome
  · exact quietly quiet
  · exact quietly quiet
  · have paired := selfPaired_insert installed.identity installed.pairs other
    exact Prod.ext installed.identity (Prod.ext installed.peers paired)

omit [Primitives] in
theorem persist_keeps (ok : Bool) : Action.Keeps keysView (KeyStore.persist ok) := by
  intro keys
  unfold KeyStore.persist
  split <;> rfl

theorem importPeer_outcome (env : KeyEnv) (document : IdentityDocument) (keys : KeyStore) :
    Action.Ensures (KeyStore.importPeer env document) keys fun r t =>
      (keysView t = keysView keys ∧ ∃ e, r = .error e) ∨
        (verifyIdentity document = .ok () ∧
          keysView t = keysView { keys with
            peers := keys.peers.insert document.peerId document }) := by
  unfold KeyStore.importPeer
  refine .ofExcept (fun e _ => .inl ⟨rfl, e, rfl⟩) fun _ verified => ?_
  refine .query (fun e _ => .inl ⟨rfl, e, rfl⟩) fun _ _ => .get ?_
  refine .require (fun _ => .inl ⟨rfl, _, rfl⟩) fun other => ?_
  refine .require (fun _ => .inl ⟨rfl, _, rfl⟩) fun _ => ?_
  refine .modify ?_
  refine .keeps (persist_keeps _) (fun _ t _ same => .inr ⟨verified, same⟩)
    fun _ persisted _ same => ?_
  have other : document.peerId ≠ persisted.localId := by
    have identity : persisted.identity = keys.identity := congrArg Prod.fst same
    rw [KeyStore.localId, identity]
    exact other
  refine .ite (fun _ => ?_) fun _ => .inr ⟨verified, same⟩
  · refine .query (fun _ _ => .inr ⟨verified, same⟩) fun epoch _ => ?_
    have created := create_same { env with persists := env.rewraps } document.ek epoch other
    have attempted : Action.Ensures (Action.attempt (KeyStore.create
        { env with persists := env.rewraps } document.peerId document.ek epoch)) persisted
        fun _ t => keysView t = keysView persisted := created
    refine .next attempted (fun _ _ known => .inr ⟨verified, known.trans same⟩)
      fun result t known => ?_
    cases result with
    | ok _ => exact .inr ⟨verified, known.trans same⟩
    | error e =>
      refine .query (fun _ _ => .inr ⟨verified, known.trans same⟩) fun _ _ => ?_
      exact .inr ⟨verified, known.trans same⟩

theorem importPeer_aside (env : KeyEnv) (document : IdentityDocument) :
    Aside (HostService.onKeys (KeyStore.importPeer env document)) := by
  refine onKeys_aside fun keys => ?_
  obtain ⟨same, _⟩ | ⟨verified, same⟩ := importPeer_outcome env document keys
  all_goals simp only [keysView, Prod.mk.injEq] at same
  all_goals obtain ⟨identity, peers, paired⟩ := same
  · exact ⟨identity, fun sound => peers ▸ sound, fun unpaired => paired.trans unpaired⟩
  · refine ⟨identity, fun sound => ?_, fun unpaired => paired.trans unpaired⟩
    rw [peers]
    intro peer other get
    rw [Map.get_insert] at get
    split at get
    · rename_i isPeer
      rw [← Option.some.inj get]
      exact ⟨isPeer, verified⟩
    · exact sound peer other get

theorem discardPair_aside (env : KeyEnv) (peer : PeerId) :
    Aside (HostService.onKeys (KeyStore.discardPair env peer)) := by
  refine onKeys_aside fun keys => ?_
  refine (?_ : Action.Ensures (KeyStore.discardPair env peer) keys fun _ t => Sociable keys t)
  unfold KeyStore.discardPair
  refine .query (fun _ _ => ⟨rfl, id, id⟩) fun _ _ => .modify ?_
  have same := persist_keeps env.persists { keys with
    keys := keys.keys.filter fun _ state => state.peerId ≠ peer
    pairs := keys.pairs.erase peer
    candidates := keys.candidates.erase peer
    retryEpochs := keys.retryEpochs.erase peer
    candidateRetryEpochs := keys.candidateRetryEpochs.erase peer
    mailboxGates := keys.mailboxGates.erase peer
    peers := keys.peers.erase peer
    admittedPairs := keys.admittedPairs.erase peer }
  unfold Action.Ensures
  simp only [keysView, Prod.mk.injEq] at same
  refine ⟨same.1, fun sound => ?_, fun unpaired => ?_⟩
  · rw [same.2.1]
    intro other document get
    rw [Map.get_erase] at get
    split at get
    · cases get
    · exact sound other document get
  · rw [same.2.2]
    unfold selfPaired KeyStore.localId at unpaired ⊢
    dsimp only
    rw [Std.ExtTreeMap.contains_erase, unpaired, Bool.and_false]

private theorem sealBootstrap_keeps (chunks : ChunkStore) (session : PairSession) (queuedAt : Nat)
    (contents : List QueueContent) :
    Action.Keeps sealView (sealBootstrap chunks session queuedAt contents) := by
  unfold sealBootstrap
  induction contents with
  | nil => exact .pure _
  | cons content contents ih =>
    rw [List.mapM_cons]
    refine .bind (.bind (sealContent_keeps _ _ _ _) fun _ => .pure _) fun _ => ?_
    exact .bind ih fun _ => .pure _

private theorem sealBootstrap_contents {chunks : ChunkStore} {session : PairSession}
    {queuedAt : Nat} (contents : List QueueContent) :
    ∀ {queue : List Queued} {s t : KeyStore},
      sealBootstrap chunks session queuedAt contents s = (.ok queue, t) →
      queue.map Queued.content = contents := by
  induction contents with
  | nil =>
    intro queue s t h
    cases h
    rfl
  | cons content contents ih =>
    intro queue s t h
    unfold sealBootstrap at h
    rw [List.mapM_cons] at h
    obtain ⟨entry, _, first, h⟩ := Action.bind_eq_ok.mp h
    obtain ⟨rest, _, others, h⟩ := Action.bind_eq_ok.mp h
    obtain ⟨_, _, _, first⟩ := Action.bind_eq_ok.mp first
    cases first
    cases h
    rw [List.map_cons, ih others]

private theorem bootstrapQueue_keeps (env : HostEnv) (staged : HostState) (peer : PeerId)
    (records : List ControlRecord) :
    Action.Keeps sealView (bootstrapQueue env staged peer records) := by
  unfold bootstrapQueue
  refine .ite ?_ ?_
  · exact .bind (.ofExcept _) fun _ => .pure _
  · refine .bind (.query _) fun _ => .bind (.ofExcept _) fun _ => ?_
    exact sealBootstrap_keeps _ _ _ _

private theorem bootstrapQueue_contents {env : HostEnv} {staged : HostState} {peer : PeerId}
    {records : List ControlRecord} {queue : List Queued} {s t : KeyStore}
    (h : bootstrapQueue env staged peer records s = (.ok queue, t)) :
    queue.map Queued.content =
      records.map QueueContent.control ++ manifestSlots staged.manifests := by
  unfold bootstrapQueue at h
  split at h
  · rename_i empty
    obtain ⟨_, _, _, h⟩ := Action.bind_eq_ok.mp h
    cases h
    rw [empty]
    rfl
  · obtain ⟨_, _, _, h⟩ := Action.bind_eq_ok.mp h
    obtain ⟨_, _, _, h⟩ := Action.bind_eq_ok.mp h
    exact sealBootstrap_contents _ h

omit [Primitives] in
private theorem budgetedRecords_eq_ok {staged : HostState} {through : Nat}
    {records : List ControlRecord} (h : budgetedRecords staged through = .ok records) :
    bootstrapRecords staged through = .ok records := by
  obtain ⟨found, isFound, h⟩ := Result.bind_eq_ok.mp h
  obtain ⟨_, _, h⟩ := Result.bind_eq_ok.mp h
  obtain ⟨_, _, h⟩ := Result.bind_eq_ok.mp h
  obtain ⟨_, _, h⟩ := Result.bind_eq_ok.mp h
  obtain ⟨_, _, h⟩ := Result.bind_eq_ok.mp h
  obtain ⟨_, _, h⟩ := Result.bind_eq_ok.mp h
  rw [isFound]
  exact h

theorem bootstrapMember_effect (env : HostEnv) {document : IdentityDocument} (host : HostService)
    (verified : verifyIdentity document = .ok ()) (allowed : document.peerId ∉ host.state.denied)
    (stranger : document.peerId ∉ host.state.members)
    (known : host.keys.peers[document.peerId]? = some document) :
    Action.Ensures (bootstrapMember env document) host fun _ t => Effect host.view t.view := by
  unfold bootstrapMember
  refine .query (fun _ _ => .of_eq rfl) fun staged archived => ?_
  obtain ⟨documents, isStaged, archive⟩ := archiveHost_eq_ok archived
  refine .ofExcept (fun _ _ => .of_eq rfl) fun records budgeted => ?_
  refine .keeps (onKeys_keeps
    (idleView_of_sealView (bootstrapQueue_keeps env staged document.peerId records)))
    (fun _ _ _ same => .of_eq (view_of_frame same)) fun queue queued isQueue same => ?_
  obtain ⟨keys, filled, rfl⟩ := Action.zoom_eq_ok.mp isQueue
  have contents := bootstrapQueue_contents filled
  refine .keeps (onKeys_keeps (blockLiveTraffic_keeps document.peerId _))
    (fun _ _ _ kept => .of_eq (view_of_frame (kept.trans same))) fun _ gated _ kept => ?_
  refine Effect.undo (publishState_effect env (view_of_frame (kept.trans same)) ?_)
    (.of_frame (onKeys_keeps (unblockLiveTraffic_keeps _ _)))
  have listed := budgetedRecords_eq_ok budgeted
  subst isStaged
  have content : (withBootstrap document.peerId queue (host.state.nextControl - 1)
      { stageMember document host.state with
        historicalMembers := OrdSet.extend (stageMember document host.state).historicalMembers
          (stageMember document host.state).members
        identityDocuments := documents }).content =
      host.state.content.withMember document documents records := by
    have mailbox := funext (mailbox_insert host.state document.peerId · queue)
    unfold Content.withMember
    rw [contents] at mailbox
    exact Content.ext rfl rfl rfl rfl rfl rfl rfl rfl rfl rfl rfl rfl rfl mailbox rfl rfl rfl
  exact content ▸ .enrol verified allowed stranger known
    ⟨archive.old, archive.new, archive.writers⟩ listed

theorem addMember_effective (env : HostEnv) (document : IdentityDocument) :
    Effective (addMember env document) := by
  refine .of_ensures fun host => ?_
  unfold addMember
  refine .query (fun _ _ => .of_eq rfl) fun _ _ => ?_
  refine .ofExcept (fun _ _ => .of_eq rfl) fun _ verified => .get ?_
  refine .require (fun _ => .of_eq rfl) fun allowed => ?_
  split
  · exact .of_eq rfl
  rename_i stranger
  have beside := importPeer_aside env.keys document host
  have imported := importPeer_outcome env.keys document host.keys
  refine .bind ?_
  unfold Action.Ensures at imported ⊢
  rw [HostService.onKeys, Action.zoom_apply] at beside ⊢
  generalize KeyStore.importPeer env.keys document host.keys = result at beside imported
  obtain ⟨r, keys⟩ := result
  cases r with
  | error e => exact .beside beside
  | ok _ =>
    obtain ⟨_, _, absurd⟩ | ⟨_, known⟩ := imported
    · cases absurd
    · have own : keys.peers[document.peerId]? = some document := by
        have peers := congrArg (fun view => view.2.1) known
        dsimp only [keysView] at peers
        rw [peers, Map.get_insert, if_pos rfl]
      exact (bootstrapMember_effect env { host with keys } verified allowed stranger own).after
        beside

omit [Primitives] in
private theorem okOr_peer {keys : KeyStore} {peer : PeerId} {document : IdentityDocument}
    (h : keys.loadVerifiedPeer peer = .ok document) : keys.peers[peer]? = some document := by
  obtain ⟨_, _, h⟩ := Result.bind_eq_ok.mp h
  exact okOr_eq_ok.mp h

omit [Primitives] in
theorem peerId_eq_ok {keys : KeyStore} {peer : PeerId} (h : keys.peerId = .ok peer) :
    peer = keys.identity.document.peerId := by
  obtain ⟨_, _, h⟩ := Result.bind_eq_ok.mp h
  exact (Except.ok.inj h).symm

omit [Primitives] in
theorem documentOf_eq_ok {host : HostService} {peer : PeerId} {document : IdentityDocument}
    (h : documentOf host.keys peer = .ok document) :
    host.view.world.document peer = some document := by
  obtain ⟨localId, isLocal, h⟩ := Result.bind_eq_ok.mp h
  rw [peerId_eq_ok isLocal] at h
  unfold World.document
  split at h
  · rename_i own
    obtain ⟨_, _, h⟩ := Result.bind_eq_ok.mp h
    exact (if_pos own).trans (congrArg some (Except.ok.inj h))
  · rename_i other
    exact (if_neg other).trans (okOr_peer h)

theorem verifyTrusted_eq_ok {host : HostService} {manifest : Manifest}
    (h : verifyTrusted host.keys host.state.members manifest = .ok ()) :
    manifest.writerId ∈ host.state.members ∧
      ∃ document, host.view.world.document manifest.writerId = some document ∧
        verifySignature document.vk manifest = .ok () := by
  obtain ⟨_, member, h⟩ := Result.bind_eq_ok.mp h
  obtain ⟨writer, isWriter, signed⟩ := Result.bind_eq_ok.mp h
  exact ⟨ensure_eq_ok.mp member, writer, documentOf_eq_ok isWriter, signed⟩

private theorem checkChunk_loop {chunks : ChunkStore} {fileId : FileId} :
    ∀ (slots : List (ChunkId × Nat)) {size total : Nat},
      slots.foldlM (checkChunk chunks fileId) size = .ok total →
      ∀ slot ∈ slots, ∃ plaintext, chunks.records[slot.1]? = some ⟨fileId, slot.2, plaintext⟩ ∧
        Encoding.chunkId fileId slot.2 plaintext = slot.1 := by
  intro slots
  induction slots with
  | nil => exact fun _ slot mem => absurd mem List.not_mem_nil
  | cons first rest ih =>
    intro size total h slot mem
    obtain ⟨next, checked, h⟩ := Result.bind_eq_ok.mp (by simpa only [List.foldlM_cons] using h)
    obtain rfl | later := List.mem_cons.mp mem
    · obtain ⟨record, found, checked⟩ := Result.bind_eq_ok.mp checked
      obtain ⟨_, matching, _⟩ := Result.bind_eq_ok.mp checked
      obtain ⟨sameFile, sameIndex, sameBytes⟩ := ensure_eq_ok.mp matching
      refine ⟨record.plaintext, ?_, sameBytes⟩
      rw [okOr_eq_ok.mp found, ← sameFile, ← sameIndex]
    · exact ih h slot later

theorem validateReplica_holds {state : HostState} {manifest : Manifest}
    (h : validateReplica state.chunks manifest = .ok ()) : state.content.Holds manifest := by
  obtain ⟨total, checked, _⟩ := Result.bind_eq_ok.mp h
  intro index chunkId slot
  exact checkChunk_loop _ checked (chunkId, index) (List.mem_zipIdx_iff_getElem?.mpr slot)

private theorem checkChunk_size {chunks : ChunkStore} {fileId : FileId} :
    ∀ (slots : List (ChunkId × Nat)) {size total : Nat},
      slots.foldlM (checkChunk chunks fileId) size = .ok total →
      total = size + (slots.map fun slot =>
        (chunks.records[slot.1]?.map fun record => record.plaintext.length).getD 0).sum := by
  intro slots
  induction slots with
  | nil =>
    intro size total h
    exact (Except.ok.inj h).symm
  | cons first rest ih =>
    intro size total h
    obtain ⟨next, checked, h⟩ := Result.bind_eq_ok.mp (by simpa only [List.foldlM_cons] using h)
    obtain ⟨record, found, checked⟩ := Result.bind_eq_ok.mp checked
    obtain ⟨_, _, added⟩ := Result.bind_eq_ok.mp checked
    obtain ⟨_, rfl⟩ := checkedAdd_eq_ok.mp added
    rw [ih h, List.map_cons, List.sum_cons, okOr_eq_ok.mp found]
    exact Nat.add_assoc _ _ _

theorem validateReplica_size {state : HostState} {manifest : Manifest}
    (h : validateReplica state.chunks manifest = .ok ()) :
    state.content.bodySize manifest = manifest.size.val := by
  obtain ⟨total, checked, exact'⟩ := Result.bind_eq_ok.mp h
  have total' := checkChunk_size _ checked
  rw [ensure_eq_ok.mp exact', Nat.zero_add] at total'
  rw [total']
  unfold Content.bodySize
  conv_lhs => rw [← List.zipIdx_map_fst 0 manifest.chunkIds, List.map_map]
  rfl

theorem commit_outcome (env : HostEnv) {update : ControlUpdate} {trusted : Option Manifest}
    (honest : ∀ manifest, update = .newManifest manifest → trusted = some manifest)
    (rotated : Option JoinCode) (host : HostService)
    (accepts : host.view.content.Accepts host.view.world update) :
    Action.Ensures (commitVerifiedWithCode env update trusted rotated) host fun r t =>
      Outcome (Content.Commits host.view.world update host.view.content) host.view r t.view := by
  refine (commitVerifiedWithCode_outcome env honest rotated host).mono fun r t outcome =>
    outcome.mono fun next => ?_
  rintro ⟨live, admission, staged, idle, admitted, committed, documents, archived, rfl⟩
  exact ⟨accepts, live, admission, staged, documents, idle, admitted, committed, archived, rfl⟩

omit [Primitives] in
theorem Steps.of_commits [Primitives] {v : View} {update : ControlUpdate} {next : Content}
    (h : Content.Commits v.world update v.content next) : Steps v next := by
  obtain ⟨accepts, live, admission, staged, documents, idle, admitted, committed, archived, rfl⟩ := h
  exact ⟨staged, .commit accepts idle admitted committed, documents, archived, rfl⟩

theorem commitManifest_outcome (env : HostEnv) (manifest : Manifest) (host : HostService) :
    Action.Ensures (commitManifest env manifest) host fun r t =>
      (r = .ok () ∧ t.view = host.view ∧
        host.view.content.manifests[manifest.fileId]? = some manifest) ∨
      Outcome (Content.Commits host.view.world (.newManifest manifest) host.view.content)
        host.view r t.view := by
  unfold commitManifest
  refine .query (fun e _ => .inr (.refused e)) fun _ _ => ?_
  refine .query (fun e _ => .inr (.refused e)) fun _ trusted => ?_
  refine .query (fun e _ => .inr (.refused e)) fun _ held => .get ?_
  split
  · rename_i current
    exact .inl ⟨rfl, rfl, current⟩
  · obtain ⟨member, signed⟩ := verifyTrusted_eq_ok trusted
    have accepts : host.view.content.Accepts host.view.world (.newManifest manifest) :=
      ⟨member, signed, validateReplica_holds held, validateReplica_size held⟩
    refine (commit_outcome env (fun other same => ?_) none host accepts).mono
      fun r t outcome => .inr outcome
    rw [ControlUpdate.newManifest.inj same]

theorem commitManifest_effective (env : HostEnv) (manifest : Manifest) :
    Effective (commitManifest env manifest) := by
  intro host
  obtain ⟨_, same, _⟩ | outcome := commitManifest_outcome env manifest host
  · exact .of_eq same
  · exact .of_outcome outcome fun _ => Steps.of_commits

theorem kickWithCode_effective (env : HostEnv) (target : PeerId) (code : Option JoinCode) :
    Effective (kickWithCode env target code) := by
  refine .of_ensures fun host => ?_
  unfold kickWithCode
  refine .query (fun _ _ => .of_eq rfl) fun _ _ => ?_
  refine .query (fun _ _ => .of_eq rfl) fun _ member => .get ?_
  refine .require (fun _ => .of_eq rfl) fun notHost => ?_
  refine Effect.then ?_ fun _ => ?_
  · have accepts : host.view.content.Accepts host.view.world (.kick target) :=
      ⟨ensure_eq_ok.mp member, notHost⟩
    exact .of_outcome (commit_outcome env (fun _ absurd => by cases absurd) code host accepts)
      fun _ => Steps.of_commits
  · refine .bind (.of_keeps (.modify (noteRecentOp_view _ _ _))) fun _ => ?_
    refine .bind (eraseChallenge_aside target) fun _ => ?_
    exact .bind (discardPair_aside _ _) fun _ => .of_keeps (.pure _)

def CommitOutcome (v : View) (update : ControlUpdate) (r : Result Unit) (w : View) : Prop :=
  (∃ manifest, update = .newManifest manifest ∧ r = .ok () ∧ w = v ∧
    v.content.manifests[manifest.fileId]? = some manifest) ∨
  Outcome (Content.Commits v.world update v.content) v r w

theorem CommitOutcome.effect {v w : View} {update : ControlUpdate} {r : Result Unit}
    (h : CommitOutcome v update r w) : Effect v w := by
  obtain ⟨_, _, _, same, _⟩ | outcome := h
  · exact .of_eq same
  · exact .of_outcome outcome fun _ => Steps.of_commits

theorem commitInstruction_outcome (env : HostEnv) {update : ControlUpdate}
    (notKick : kickedBy update = none) (host : HostService) :
    Action.Ensures (commitInstruction env update) host fun r t =>
      CommitOutcome host.view update r t.view := by
  have plain : ∀ other, (∀ manifest, other ≠ .newManifest manifest) →
      host.view.content.Accepts host.view.world other →
      Action.Ensures (do Action.query HostService.requireRunning; commitVerified env other none)
        host fun r t => CommitOutcome host.view other r t.view := by
    intro other isOther accepts
    refine .query (fun e _ => .inr (.refused e)) fun _ _ => ?_
    exact (commit_outcome env (fun _ same => absurd same (isOther _)) none host accepts).mono
      fun _ _ outcome => .inr outcome
  cases update with
  | newManifest manifest =>
    refine (commitManifest_outcome env manifest host).mono fun r t outcome => ?_
    obtain ⟨done, same, current⟩ | outcome := outcome
    · exact .inl ⟨manifest, rfl, done, same, current⟩
    · exact .inr outcome
  | kick target => cases notKick
  | add fileId => exact plain (.add fileId) nofun trivial
  | clear fileId => exact plain (.clear fileId) nofun trivial
  | remove fileId => exact plain (.remove fileId) nofun trivial
  | link parent name child isDir => exact plain (.link parent name child isDir) nofun trivial
  | unlink parent name => exact plain (.unlink parent name) nofun trivial
  | rename srcParent srcName dstParent dstName =>
    exact plain (.rename srcParent srcName dstParent dstName) nofun trivial

theorem commitInstruction_effective (env : HostEnv) (update : ControlUpdate) :
    Effective (commitInstruction env update) := by
  cases kicked : kickedBy update with
  | none => exact fun host => (commitInstruction_outcome env kicked host).effect
  | some target =>
    cases update with
    | kick target =>
      exact .before (kickWithCode_effective env target none) fun _ => .of_keeps (.pure _)
    | _ => cases kicked

theorem fanOutControl_outcome (env : HostEnv) (sender : PeerId) {update : ControlUpdate}
    (notKick : kickedBy update = none) (host : HostService) :
    Action.Ensures (fanOutControl env sender update) host fun r t =>
      CommitOutcome host.view update r t.view := by
  unfold fanOutControl
  refine .query (fun e _ => .inr (.refused e)) fun _ _ => ?_
  refine .query (fun e _ => .inr (.refused e)) fun _ _ => .get ?_
  refine .require (fun _ => .inr (.refused _)) fun _ => ?_
  refine .bind ((commitInstruction_outcome env notKick host).mono fun r t outcome => ?_)
  cases r with
  | error e => exact outcome
  | ok _ =>
    rw [← noteRecentOp_view env sender host.state.nextControl t] at outcome
    exact outcome

theorem fanOutControl_effective (env : HostEnv) (sender : PeerId) (update : ControlUpdate) :
    Effective (fanOutControl env sender update) := by
  refine .of_ensures fun host => ?_
  unfold fanOutControl
  refine .query (fun _ _ => .of_eq rfl) fun _ _ => ?_
  refine .query (fun _ _ => .of_eq rfl) fun _ _ => .get ?_
  refine .require (fun _ => .of_eq rfl) fun _ => ?_
  exact Effect.then (commitInstruction_effective env update host) fun _ =>
    .of_keeps (.modify (noteRecentOp_view _ _ _))

theorem mkdir_effective (env : HostEnv) (sender : PeerId) (path : String) :
    Effective (mkdir env sender path) := by
  unfold mkdir
  refine .query fun _ => .query fun _ => .query fun _ => .ofExcept fun _ => ?_
  exact .before (fanOutControl_effective _ _ _) fun _ => .of_keeps (.pure _)

theorem linkFile_effective (env : HostEnv) (sender : PeerId) (path : String) (child : FileId) :
    Effective (linkFile env sender path child) := by
  unfold linkFile
  exact .query fun _ => .query fun _ => .query fun _ => fanOutControl_effective _ _ _

theorem unlink_effective (env : HostEnv) (sender : PeerId) (path : String) :
    Effective (unlink env sender path) := by
  unfold unlink
  exact .query fun _ => .query fun _ => .query fun _ => fanOutControl_effective _ _ _

theorem rename_effective (env : HostEnv) (sender : PeerId) (source destination : String) :
    Effective (rename env sender source destination) := by
  unfold rename
  exact .query fun _ => .query fun _ => .query fun _ => .query fun _ =>
    fanOutControl_effective _ _ _

end QuantumFs.Host
