import QuantumFs.Crypto.KeyStoreStep
import QuantumFs.Host.Content

/-! The commit of the host refines the commit of its content. Sealing and gating
keep the content; publishing settles it. -/
namespace QuantumFs.Host

open Lib Encoding Crypto Store

def keysView (keys : KeyStore) : LocalIdentity × Map PeerId IdentityDocument × Bool :=
  (keys.identity, keys.peers, selfPaired keys)

def sealView (keys : KeyStore) : KeyStore := { keys with keys := ∅ }

def idleView (keys : KeyStore) : KeyStore := { keys with keys := ∅, mailboxGates := ∅ }

theorem idleView_of_sealView {α : Type} {x : Action Error KeyStore α}
    (h : Action.Keeps sealView x) : Action.Keeps idleView x :=
  h.map fun keys : KeyStore => { keys with mailboxGates := ∅ }

theorem idleView_of_seal {s t : KeyStore} (h : sealView t = sealView s) :
    idleView t = idleView s :=
  show idleView (sealView t) = idleView (sealView s) from congrArg idleView h

theorem gates_of_sealView {s t : KeyStore} (h : sealView t = sealView s) :
    t.mailboxGates = s.mailboxGates :=
  show (sealView t).mailboxGates = (sealView s).mailboxGates from congrArg KeyStore.mailboxGates h

theorem keysView_of_idleView {s t : KeyStore} (h : idleView t = idleView s) :
    keysView t = keysView s :=
  show keysView (idleView t) = keysView (idleView s) from congrArg keysView h

/-- Everything but slots and gates. -/
def HostService.frame (host : HostService) : HostService :=
  { host with keys := idleView host.keys }

theorem view_of_frame {s t : HostService} (h : t.frame = s.frame) : t.view = s.view :=
  show t.frame.view = s.frame.view from congrArg HostService.view h

theorem state_of_frame {s t : HostService} (h : t.frame = s.frame) : t.state = s.state :=
  show t.frame.state = s.frame.state from congrArg HostService.state h

theorem keys_of_frame {s t : HostService} (h : t.frame = s.frame) :
    idleView t.keys = idleView s.keys :=
  congrArg HostService.keys h

theorem onKeys_keeps {α : Type} {x : Action Error KeyStore α} (h : Action.Keeps idleView x) :
    Action.Keeps HostService.frame (HostService.onKeys x) := by
  intro host
  have same := h host.keys
  simp only [HostService.onKeys, Action.zoom_apply, HostService.frame, same]

theorem blockLiveTraffic_keeps (peer : PeerId) (owner : Nat) :
    Action.Keeps idleView (KeyStore.blockLiveTraffic peer owner) :=
  .bind (.query _) fun _ => .modify fun _ => rfl

theorem unblockLiveTraffic_keeps (peer : PeerId) (owner : Nat) :
    Action.Keeps idleView (KeyStore.unblockLiveTraffic peer owner) := by
  refine .bind (.query _) fun _ => .modify fun keys => ?_
  dsimp only
  split
  · rfl
  · split <;> rfl

section

variable [Primitives]

theorem aeadSeal_keeps (handle : PairKeyHandle) (bytes aad plaintext : Bytes) :
    Action.Keeps sealView (KeyStore.aeadSeal handle bytes aad plaintext) := by
  intro keys
  have h := KeyStore.aeadSeal_outcome handle bytes aad plaintext keys
  unfold Action.Ensures at h
  obtain ⟨same, _⟩ | ⟨before, after, update, _⟩ := h
  · rw [same]
  · rw [update.same]
    rfl

theorem sealControl_keeps (session : PairSession) (record : ControlRecord) :
    Action.Keeps sealView (sealControl session record) := by
  unfold sealControl
  refine .bind (.query _) fun _ => .bind (.query _) fun _ => ?_
  exact .bind (.ofExcept _) fun _ => .bind (aeadSeal_keeps _ _ _ _) fun _ => .pure _

theorem encryptAtSend_keeps (session : PairSession) (fileId : FileId) (index : Nat)
    (plaintext : Bytes) : Action.Keeps sealView (encryptAtSend session fileId index plaintext) := by
  unfold encryptAtSend
  refine .bind (.query _) fun _ => .bind (.query _) fun _ => ?_
  exact .bind (aeadSeal_keeps _ _ _ _) fun _ => .pure _

theorem sealContent_keeps (chunks : ChunkStore) (session : PairSession) (queuedAt : Nat)
    (content : QueueContent) :
    Action.Keeps sealView (sealContent chunks session queuedAt content) := by
  cases content with
  | control record => exact .bind (sealControl_keeps _ _) fun _ => .ofExcept _
  | chunk fileId index chunkId =>
    exact .bind (.ofExcept _) fun _ => .bind (encryptAtSend_keeps _ _ _ _) fun _ => .ofExcept _

theorem refreshEntry_keeps (chunks : ChunkStore) (session : PairSession) (entry : Queued) :
    Action.Keeps sealView (refreshEntry chunks session entry) := by
  unfold refreshEntry
  split
  · exact .pure _
  · exact .bind (sealContent_keeps _ _ _ _) fun _ => .pure _

theorem refreshEntry_content {chunks : ChunkStore} {session : PairSession} {entry next : Queued}
    {s t : KeyStore} (h : refreshEntry chunks session entry s = (.ok next, t)) :
    next.content = entry.content := by
  unfold refreshEntry at h
  split at h
  · cases h
    rfl
  · obtain ⟨envelope, u, _, h⟩ := Action.bind_eq_ok.mp h
    cases h
    rfl

theorem refreshed_contents (chunks : ChunkStore) (session : PairSession) (queue : List Queued)
    (keys : KeyStore) :
    (Action.updateEach (refreshEntry chunks session) queue keys).2.2.map Queued.content =
      queue.map Queued.content :=
  Action.updateEach_map (fun _ _ _ _ h => refreshEntry_content h) queue keys

theorem resealOnline_keeps (session : PairSession) (entry : OnlineControl) :
    Action.Keeps sealView (resealOnline session entry) := by
  unfold resealOnline
  split
  · exact .pure _
  · exact .bind (sealControl_keeps _ _) fun _ => .pure _

theorem resealOnline_record {session : PairSession} {entry next : OnlineControl}
    {s t : KeyStore} (h : resealOnline session entry s = (.ok next, t)) :
    next.record = entry.record := by
  unfold resealOnline at h
  split at h
  · cases h
    rfl
  · obtain ⟨packet, u, _, h⟩ := Action.bind_eq_ok.mp h
    cases h
    rfl

theorem resealed_records (session : PairSession) (pending : List OnlineControl) (keys : KeyStore) :
    (Action.updateEach (resealOnline session) pending keys).2.2.map OnlineControl.record =
      pending.map OnlineControl.record :=
  Action.updateEach_map (fun _ _ _ _ h => resealOnline_record h) pending keys

omit [Primitives] in
theorem mailbox_insert (state : HostState) (peer other : PeerId) (queue : List Queued) :
    ({ state with mailboxes := state.mailboxes.insert peer queue } : HostState).mailbox other =
      if peer = other then queue.map Queued.content else state.mailbox other := by
  simp only [HostState.mailbox, Map.get_insert]
  split <;> rfl

omit [Primitives] in
theorem onlineRecords_insert (state : HostState) (peer other : PeerId)
    (pending : List OnlineControl) :
    ({ state with online := state.online.insert peer pending } : HostState).onlineRecords other =
      if peer = other then pending.map OnlineControl.record else state.onlineRecords other := by
  simp only [HostState.onlineRecords, Map.get_insert]
  split <;> rfl

omit [Primitives] in
theorem content_insert_mailbox {state : HostState} {peer : PeerId} {queue : List Queued}
    (h : queue.map Queued.content = state.mailbox peer) :
    ({ state with mailboxes := state.mailboxes.insert peer queue } : HostState).content =
      state.content := by
  have same : ({ state with mailboxes := state.mailboxes.insert peer queue } : HostState).mailbox =
      state.mailbox := by
    funext other
    rw [mailbox_insert]
    split
    · rename_i isPeer
      rw [← isPeer, h]
    · rfl
  unfold HostState.content
  rw [same]
  rfl

omit [Primitives] in
theorem content_insert_online {state : HostState} {peer : PeerId} {pending : List OnlineControl}
    (h : pending.map OnlineControl.record = state.onlineRecords peer) :
    ({ state with online := state.online.insert peer pending } : HostState).content =
      state.content := by
  have same : ({ state with online := state.online.insert peer pending } :
      HostState).onlineRecords = state.onlineRecords := by
    funext other
    rw [onlineRecords_insert]
    split
    · rename_i isPeer
      rw [← isPeer, h]
    · rfl
  unfold HostState.content
  rw [same]
  rfl

def HostService.idle (host : HostService) : View × KeyStore := (host.view, idleView host.keys)

omit [Primitives] in
theorem idle_of_frame {s t : HostService} (h : t.frame = s.frame) : t.idle = s.idle :=
  Prod.ext (view_of_frame h) (keys_of_frame h)

theorem refreshQueue_idle {host : HostService} {peer : PeerId} {queue : List Queued}
    (own : host.state.mailboxes[peer]?.getD [] = queue) :
    (refreshQueue peer queue host).2.idle = host.idle := by
  refine (?_ : Action.Ensures (refreshQueue peer queue) host fun _ t => t.idle = host.idle)
  unfold refreshQueue
  refine .query (fun _ _ => rfl) fun owner _ => ?_
  refine .keeps (onKeys_keeps (blockLiveTraffic_keeps peer owner))
    (fun _ t _ same => idle_of_frame same) fun _ gated _ same => ?_
  have idle : gated.idle = host.idle := idle_of_frame same
  refine .query (fun _ _ => idle) fun session _ => ?_
  refine .query (fun _ _ => idle) fun _ _ => ?_
  unfold Action.Ensures
  have keys := Action.updateEach_keeps
    (fun entry => idleView_of_sealView (refreshEntry_keeps gated.state.chunks session entry)) queue
    gated.keys
  have contents := refreshed_contents gated.state.chunks session queue gated.keys
  dsimp only
  generalize Action.updateEach (refreshEntry gated.state.chunks session) queue gated.keys =
    refreshed at keys contents ⊢
  have unchanged : refreshed.2.2.map Queued.content = gated.state.mailbox peer := by
    rw [contents, state_of_frame same, HostState.mailbox, own]
  have content := content_insert_mailbox unchanged
  have view := keysView_of_idleView keys
  simp only [keysView, Prod.mk.injEq] at view
  rw [← idle]
  simp only [HostService.idle, HostService.view, content, keys, view]

theorem refreshMailbox_idle (peer : PeerId) :
    Action.Keeps HostService.idle (refreshMailbox peer) := by
  intro host
  refine (?_ : Action.Ensures (refreshMailbox peer) host fun _ t => t.idle = host.idle)
  unfold refreshMailbox
  refine .get ?_
  split
  · exact rfl
  · exact refreshQueue_idle rfl

theorem refreshMailbox_keeps (peer : PeerId) :
    Action.Keeps HostService.view (refreshMailbox peer) :=
  (refreshMailbox_idle peer).map Prod.fst

theorem refreshMailboxes_idle : Action.Keeps HostService.idle refreshMailboxes := by
  unfold refreshMailboxes
  refine .bind (.query _) fun _ => .bind .get fun _ => ?_
  exact .forEach fun peer _ => refreshMailbox_idle peer

theorem refreshMailboxes_keeps : Action.Keeps HostService.view refreshMailboxes :=
  refreshMailboxes_idle.map Prod.fst

omit [Primitives] in
theorem reopenGates_keeps (blocked : List PeerId) :
    Action.Keeps HostService.frame (reopenGates blocked) := by
  refine .forEach fun peer _ => .bind .get fun host => ?_
  split
  · exact onKeys_keeps (unblockLiveTraffic_keeps _ _)
  · exact .pure ()

def Gated (keys : KeyStore) (peer : PeerId) : Prop := (keys.gateOwners peer).isEmpty = false

omit [Primitives] in
theorem Gated.congr {s t : KeyStore} (same : t.mailboxGates = s.mailboxGates) {peer : PeerId}
    (gated : Gated s peer) : Gated t peer := by
  rwa [Gated, KeyStore.gateOwners, same]

omit [Primitives] in
theorem Gated.not_live {keys : KeyStore} {peer : PeerId} (gated : Gated keys peer) :
    (keys.requireLiveTraffic peer).isOk = false := by
  unfold KeyStore.requireLiveTraffic
  cases keys.lock with
  | error e => rfl
  | ok _ =>
    change (ensure ((keys.gateOwners peer).isEmpty = true) _).isOk = false
    rw [ensure, if_neg (by rw [gated]; exact Bool.false_ne_true)]
    rfl

omit [Primitives] in
theorem blockLiveTraffic_gated (peer : PeerId) (owner : Nat) (keys : KeyStore) :
    Action.Ensures (KeyStore.blockLiveTraffic peer owner) keys fun r t =>
      (∀ other, Gated keys other → Gated t other) ∧ (r = .ok () → Gated t peer) := by
  unfold KeyStore.blockLiveTraffic
  refine .query (fun _ _ => ⟨fun _ gated => gated, nofun⟩) fun _ _ => ?_
  have owners : ∀ other, KeyStore.gateOwners { keys with
      mailboxGates := keys.mailboxGates.insert peer ((keys.gateOwners peer).insert owner) } other =
      if peer = other then (keys.gateOwners peer).insert owner else keys.gateOwners other := by
    intro other
    unfold KeyStore.gateOwners
    dsimp only
    rw [Map.get_insert]
    split <;> rfl
  have closed : ((keys.gateOwners peer).insert owner).isEmpty = false :=
    Std.ExtTreeSet.isEmpty_eq_false_iff.mpr Std.ExtTreeSet.insert_ne_empty
  refine ⟨fun other gated => ?_, fun _ => ?_⟩
  · change (KeyStore.gateOwners _ other).isEmpty = false
    rw [Action.modify_apply, owners]
    split
    · exact closed
    · exact gated
  · change (KeyStore.gateOwners _ peer).isEmpty = false
    rw [Action.modify_apply, owners, if_pos rfl]
    exact closed

theorem refreshMailbox_gated (peer : PeerId) (host : HostService) :
    Action.Ensures (refreshMailbox peer) host fun r t =>
      (∀ other, Gated host.keys other → Gated t.keys other) ∧
        (r = .ok () → host.state.mailbox peer ≠ [] → Gated t.keys peer) := by
  unfold refreshMailbox
  refine .get ?_
  split
  · rename_i empty
    refine ⟨fun _ gated => gated, fun _ queued => absurd ?_ queued⟩
    rw [HostState.mailbox, empty]
    rfl
  · unfold refreshQueue
    refine .query (fun _ _ => ⟨fun _ gated => gated, nofun⟩) fun owner _ => ?_
    refine .zoom (blockLiveTraffic_gated peer owner host.keys)
      (fun _ _ closed => ⟨closed.1, nofun⟩) fun _ keys closed => ?_
    refine (?_ : Action.Ensures _ _ fun _ (t : HostService) =>
      t.keys.mailboxGates = keys.mailboxGates).mono fun _ t same => ?_
    · refine .query (fun _ _ => rfl) fun session _ => .query (fun _ _ => rfl) fun _ _ => ?_
      have sealed := Action.updateEach_keeps (refreshEntry_keeps host.state.chunks session)
        (host.state.mailboxes[peer]?.getD []) keys
      exact gates_of_sealView sealed
    · exact ⟨fun other gated => (closed.1 other gated).congr same,
        fun _ _ => (closed.2 rfl).congr same⟩

theorem refreshMailboxes_gated (host : HostService) :
    Action.Ensures refreshMailboxes host fun r t =>
      r = .ok () → ∀ peer, t.state.mailbox peer ≠ [] → Gated t.keys peer := by
  have loop : ∀ (peers : List PeerId) (s : HostService),
      Action.Ensures (Action.forEach peers refreshMailbox) s fun r t =>
        (∀ other, Gated s.keys other → Gated t.keys other) ∧
          (r = .ok () → ∀ peer ∈ peers, s.state.mailbox peer ≠ [] → Gated t.keys peer) := by
    intro peers
    induction peers with
    | nil => exact fun s => ⟨fun _ gated => gated, fun _ _ mem => absurd mem List.not_mem_nil⟩
    | cons peer peers ih =>
      intro s
      have first : Action.Ensures (refreshMailbox peer) s fun r t =>
          ((∀ other, Gated s.keys other → Gated t.keys other) ∧
            (r = .ok () → s.state.mailbox peer ≠ [] → Gated t.keys peer)) ∧ t.view = s.view :=
        ⟨refreshMailbox_gated peer s, refreshMailbox_keeps peer s⟩
      refine .next first (fun _ _ known => ⟨known.1.1, nofun⟩) fun _ t known => ?_
      obtain ⟨⟨grows, own⟩, same⟩ := known
      have mailbox : t.state.mailbox = s.state.mailbox :=
        congrArg (fun v : View => v.content.mailbox) same
      refine (ih t).mono fun r u rest => ⟨fun other gated => rest.1 other (grows other gated),
        fun done other mem queued => ?_⟩
      obtain rfl | mem := List.mem_cons.mp mem
      · exact rest.1 other (own rfl queued)
      · exact rest.2 done other mem (by rwa [mailbox])
  unfold refreshMailboxes
  refine .query (fun _ _ => nofun) fun _ _ => .get ?_
  have kept : Action.Keeps HostService.view
      (Action.forEach (host.state.mailboxes.toList.map Prod.fst) refreshMailbox) :=
    .forEach fun peer _ => refreshMailbox_keeps peer
  have same := kept host
  have gated := loop (host.state.mailboxes.toList.map Prod.fst) host
  unfold Action.Ensures at gated ⊢
  have mailbox := congrArg (fun v : View => v.content.mailbox) same
  intro done peer queued
  have queued : host.state.mailbox peer ≠ [] := fun empty => queued ((congrFun mailbox peer).trans empty)
  refine gated.2 done peer ?_ queued
  cases found : host.state.mailboxes[peer]? with
  | none =>
    rw [HostState.mailbox, found] at queued
    exact absurd rfl queued
  | some queue => exact List.mem_map.mpr ⟨(peer, queue), Map.mem_toList.mpr found, rfl⟩

omit [Primitives] in
private theorem memberDocument_source {keys : KeyStore} {peer : PeerId}
    {document : IdentityDocument} (h : memberDocument keys peer = .ok (some document)) :
    (peer = keys.identity.document.peerId ∧ document = keys.identity.document) ∨
      keys.peers[peer]? = some document := by
  unfold memberDocument at h
  obtain ⟨localId, isLocal, h⟩ := Result.bind_eq_ok.mp h
  obtain ⟨_, _, isLocal⟩ := Result.bind_eq_ok.mp isLocal
  obtain rfl : keys.localId = localId := Except.ok.inj isLocal
  split at h
  · rename_i same
    obtain ⟨_, own, h⟩ := Result.bind_eq_ok.mp h
    obtain ⟨_, _, own⟩ := Result.bind_eq_ok.mp own
    cases own
    cases h
    exact .inl ⟨same, rfl⟩
  · split at h
    · rename_i loaded
      cases h
      obtain ⟨_, _, loaded⟩ := Result.bind_eq_ok.mp loaded
      exact .inr (okOr_eq_ok.mp loaded)
    · cases h
    · cases h

private theorem archiveDocument_cases {keys : KeyStore} {archive next : Map PeerId IdentityDocument}
    {peer : PeerId} (h : archiveDocument keys archive peer = .ok next) :
    next = archive ∨ ∃ document, archive[peer]? = none ∧ next = archive.insert peer document ∧
      verifyIdentity document = .ok () ∧
      ((peer = keys.identity.document.peerId ∧ document = keys.identity.document) ∨
        keys.peers[peer]? = some document) := by
  unfold archiveDocument at h
  split at h
  · cases h
    exact .inl rfl
  · rename_i unknown
    obtain ⟨found, source, h⟩ := Result.bind_eq_ok.mp h
    split at h
    · cases h
      exact .inl rfl
    · rename_i document
      obtain ⟨_, verified, h⟩ := Result.bind_eq_ok.mp h
      cases h
      have missing : archive[peer]? = none := by
        cases get : archive[peer]? with
        | none => rfl
        | some other => exact absurd (Map.contains_iff_get archive peer |>.mpr ⟨other, get⟩) unknown
      exact .inr ⟨document, missing, rfl, verified, memberDocument_source source⟩

theorem archive_loop {keys : KeyStore} (peers : List PeerId) :
    ∀ {archive next : Map PeerId IdentityDocument},
      peers.foldlM (archiveDocument keys) archive = .ok next →
      (∀ (peer : PeerId) (document : IdentityDocument), archive[peer]? = some document →
        next[peer]? = some document) ∧
      ∀ (peer : PeerId) (document : IdentityDocument), next[peer]? = some document →
        archive[peer]? = some document ∨ (verifyIdentity document = .ok () ∧
          ((peer = keys.identity.document.peerId ∧ document = keys.identity.document) ∨
            keys.peers[peer]? = some document)) := by
  induction peers with
  | nil =>
    intro archive next h
    cases h
    exact ⟨fun _ _ get => get, fun _ _ get => .inl get⟩
  | cons first rest ih =>
    intro archive next h
    obtain ⟨middle, step, h⟩ := Result.bind_eq_ok.mp (by simpa only [List.foldlM_cons] using h)
    obtain ⟨old, new⟩ := ih h
    obtain rfl | ⟨document, missing, rfl, verified, source⟩ := archiveDocument_cases step
    · exact ⟨old, new⟩
    · refine ⟨fun peer other get => old peer other ?_, fun peer other get => ?_⟩
      · rw [Map.get_insert_ne _ _ (fun same => by rw [← same, missing] at get; cases get)]
        exact get
      · obtain got | source' := new peer other get
        · rw [Map.get_insert] at got
          split at got
          · rename_i same
            subst same
            rw [← Option.some.inj got]
            exact .inr ⟨verified, source⟩
          · exact .inl got
        · exact .inr source'

theorem archiveHost_eq_ok {keys : KeyStore} {staged archived : HostState}
    (h : archiveHost keys staged = .ok archived) :
    ∃ documents, archived = { staged with
        historicalMembers := OrdSet.extend staged.historicalMembers staged.members
        identityDocuments := documents } ∧
      staged.content.Archived keys.identity.document keys.peers documents := by
  unfold archiveHost at h
  obtain ⟨documents, archive, h⟩ := Result.bind_eq_ok.mp h
  obtain ⟨_, writers, h⟩ := Result.bind_eq_ok.mp h
  obtain ⟨old, new⟩ := archive_loop _ archive
  refine ⟨documents, (Except.ok.inj h).symm, old, new, fun fileId manifest get => ?_⟩
  refine ensure_eq_ok.mp writers manifest.writerId (List.mem_append_left _ ?_)
  exact List.mem_map.mpr ⟨manifest, Map.mem_vals.mpr ⟨fileId, get⟩, rfl⟩

omit [Primitives] in
theorem content_settled (staged : HostState) (documents : Map PeerId IdentityDocument) :
    (truncateLog (refreshAdmission { staged with
      historicalMembers := OrdSet.extend staged.historicalMembers staged.members
      identityDocuments := documents })).content = staged.content.settle documents := rfl

theorem persistState_outcome (env : HostEnv) (host : HostService) (metadata : ReplicaMetadata)
    (disk : Option DurableStore) (store : ChunkStore) :
    Action.Ensures (persistState env host metadata) (disk, store) fun r after =>
      (host.deferPersistence = true ∧ r = .ok () ∧ after.1 = disk ∧
        after.2.records = store.records) ∨
      (host.deferPersistence = false ∧ PersistOutcome metadata store disk r after) := by
  unfold persistState
  split
  · rename_i deferred
    exact .inl ⟨deferred, rfl, rfl, rfl⟩
  · rename_i live
    have live : host.deferPersistence = false := by simpa using live
    split
    · refine .ofExcept (fun e _ => .inr ⟨live, .refused e⟩) fun _ _ => ?_
      exact (ChunkStore.persistMetadataWithAdmission_outcome _ _ _ _).mono
        fun _ _ h => .inr ⟨live, h⟩
    · exact (ChunkStore.persistMetadata_outcome _ _ _ _).mono fun _ _ h => .inr ⟨live, h⟩

theorem publishState_outcome (env : HostEnv) (staged : HostState) (host : HostService) :
    Action.Ensures (publishState env staged) host fun r t =>
      t.keys = host.keys ∧ Outcome (Settles host.view staged.content) host.view r t.view := by
  unfold publishState
  refine .get ?_
  refine .ofExcept (fun e _ => ⟨rfl, .refused e⟩) fun archived archivedOk => ?_
  obtain ⟨documents, rfl, archive⟩ := archiveHost_eq_ok archivedOk
  have settled := content_settled staged documents
  have settles : Settles host.view staged.content (staged.content.settle documents) :=
    ⟨documents, archive, rfl⟩
  generalize truncateLog (refreshAdmission { staged with
      historicalMembers := OrdSet.extend staged.historicalMembers staged.members
      identityDocuments := documents }) = next at settled
  rw [← settled] at settles
  have h := persistState_outcome env host next.metadata host.disk next.chunks
  unfold Action.Ensures at h ⊢
  dsimp only
  generalize persistState env host next.metadata (host.disk, next.chunks) = result at h
  obtain ⟨r, disk, chunks⟩ := result
  have shown : (HostService.view { host with disk, state := { next with chunks } }) =
      { host.view with content := { next.content with records := chunks.records }, disk } := rfl
  obtain ⟨deferred, rfl, rfl, records⟩ | ⟨live, outcome⟩ := h
  · refine ⟨rfl, .done () settles ?_⟩
    dsimp only at records ⊢
    rw [shown, records]
    exact .deferred deferred
  · generalize before : host.disk = old at outcome
    cases outcome with
    | kept records =>
      refine ⟨rfl, .done () settles ?_⟩
      dsimp only
      rw [shown, records]
      have shown : Published host.view next { host.view with content := next.content } :=
        .memory live before
      rwa [HostService.view, before] at shown ⊢
    | saved records saved =>
      refine ⟨rfl, .done () settles ?_⟩
      dsimp only
      rw [shown, records]
      exact .saved live before saved
    | refused error =>
      refine ⟨rfl, ?_⟩
      have unchanged : HostService.view { host with disk } = host.view := by
        rw [← before]
      exact unchanged ▸ .refused error
    | spoiled error spoiled =>
      exact ⟨rfl, .lost error settles (.mk live before spoiled)⟩

omit [Primitives] in
theorem filter_contents (queue : List Queued) (keep : QueueContent → Bool) :
    (queue.filter fun entry => keep entry.content).map Queued.content =
      (queue.map Queued.content).filter keep := by
  rw [List.filter_map]
  rfl

theorem queueBody_contents {chunks : ChunkStore} {session : PairSession} {current : Manifest}
    {prior : Option Manifest} {queuedAt : Nat} {queue next : List Queued} {slot : ChunkId × Nat}
    {s t : KeyStore}
    (h : queueBody chunks session current prior queuedAt queue slot s = (.ok next, t)) :
    next.map Queued.content = Content.addBody current prior (queue.map Queued.content) slot := by
  unfold queueBody at h
  unfold Content.addBody
  split at h
  · rename_i unchanged
    cases h
    rw [if_pos unchanged]
  · rename_i changed
    obtain ⟨plaintext, _, _, h⟩ := Action.bind_eq_ok.mp h
    obtain ⟨frame, _, _, h⟩ := Action.bind_eq_ok.mp h
    obtain ⟨envelope, _, _, h⟩ := Action.bind_eq_ok.mp h
    cases h
    rw [if_neg changed, List.map_append, filter_contents]
    rfl

theorem queueBody_keeps (chunks : ChunkStore) (session : PairSession) (current : Manifest)
    (prior : Option Manifest) (queuedAt : Nat) (queue : List Queued) (slot : ChunkId × Nat) :
    Action.Keeps sealView (queueBody chunks session current prior queuedAt queue slot) := by
  unfold queueBody
  split
  · exact .pure _
  · refine .bind (.ofExcept _) fun _ => .bind (encryptAtSend_keeps _ _ _ _) fun _ => ?_
    exact .bind (.ofExcept _) fun _ => .pure _

omit [Primitives] in
private theorem foldlM_keeps {α β : Type} {f : β → α → Action Error KeyStore β}
    (h : ∀ b a, Action.Keeps sealView (f b a)) (xs : List α) (b : β) :
    Action.Keeps sealView (xs.foldlM f b) := by
  induction xs generalizing b with
  | nil => exact .pure b
  | cons x xs ih => exact .bind (h b x) fun next => ih next

private theorem queueBody_loop {chunks : ChunkStore} {session : PairSession} {current : Manifest}
    {prior : Option Manifest} {queuedAt : Nat} (slots : List (ChunkId × Nat)) :
    ∀ {queue next : List Queued} {s t : KeyStore},
      slots.foldlM (queueBody chunks session current prior queuedAt) queue s = (.ok next, t) →
      next.map Queued.content =
        slots.foldl (Content.addBody current prior) (queue.map Queued.content) := by
  induction slots with
  | nil =>
    intro queue next s t h
    cases h
    rfl
  | cons slot slots ih =>
    intro queue next s t h
    obtain ⟨middle, u, first, rest⟩ := Action.bind_eq_ok.mp h
    rw [ih rest, queueBody_contents first]
    rfl

theorem queueManifest_keeps (state : HostState) (commit : Commit) (session : PairSession)
    (peer : PeerId) (queue : List Queued) :
    Action.Keeps sealView (queueManifest state commit session peer queue) := by
  unfold queueManifest
  split
  · refine .bind (.ofExcept _) fun _ => ?_
    exact foldlM_keeps (fun _ _ => queueBody_keeps _ _ _ _ _ _ _) _ _
  · exact .pure _

/-- The trusted manifest of a commit is the one it carries. -/
def Commit.Honest (commit : Commit) : Prop :=
  ∀ manifest, commit.record.update = .newManifest manifest → commit.trusted = some manifest

theorem queueManifest_contents {state : HostState} {commit : Commit} (honest : commit.Honest)
    {session : PairSession} {peer : PeerId} {queue next : List Queued} {s t : KeyStore}
    (h : queueManifest state commit session peer queue s = (.ok next, t)) :
    next.map Queued.content = match commit.record.update with
      | .newManifest current => Content.addBodies current state.manifests[current.fileId]?
          (state.bootstrapThrough.contains peer) (queue.map Queued.content)
      | _ => queue.map Queued.content := by
  unfold queueManifest at h
  cases isManifest : commit.record.update with
  | newManifest manifest =>
    rw [isManifest] at h
    obtain ⟨current, _, found, h⟩ := Action.bind_eq_ok.mp h
    obtain ⟨verified, rfl⟩ := Action.ofExcept_eq_ok.mp found
    obtain rfl : manifest = current :=
      Option.some.inj ((honest manifest isManifest).symm.trans (okOr_eq_ok.mp verified))
    dsimp only
    rw [queueBody_loop _ h, filter_contents]
    rfl
  | _ =>
    rw [isManifest] at h
    cases h
    rfl

def Outbox.look (outbox : Outbox) (peer : PeerId) : List QueueContent × List ControlRecord :=
  ((outbox.queues[peer]?.getD []).map Queued.content,
    (outbox.online[peer]?.getD []).map OnlineControl.record)

/-- What serving one recipient does to its two queues; only an open gate lets
the record onto the live one. -/
def Served (host : HostService) (commit : Commit) (peer : PeerId)
    (before after : List QueueContent × List ControlRecord) : Prop :=
  (¬ Gated host.keys peer ∧ after = (before.1, before.2 ++ [commit.record])) ∨
    after = (host.state.content.enqueue commit.record commit.removed peer before.1 before.2, [])

omit [Primitives] in
private theorem outbox_onKeys_keeps {α τ : Type} {view : KeyStore → τ}
    {x : Action Error KeyStore α} (h : Action.Keeps view x) : Action.Keeps (fun outbox : Outbox =>
      (view outbox.keys, outbox.queues, outbox.online)) (Outbox.onKeys x) := by
  intro outbox
  have same := h outbox.keys
  simp only [Outbox.onKeys, Action.zoom_apply, same]

omit [Primitives] in
private theorem look_congr {a b : Outbox} (queues : a.queues = b.queues)
    (online : a.online = b.online) : a.look = b.look := by
  funext peer
  rw [Outbox.look, Outbox.look, queues, online]

omit [Primitives] in
private theorem closeGate_keeps (owner : Nat) (peer : PeerId) (live : Bool) :
    Action.Keeps (fun outbox : Outbox => (idleView outbox.keys, outbox.queues, outbox.online))
      (closeGate owner peer live) := by
  unfold closeGate
  split
  · exact .pure ()
  · refine .bind (outbox_onKeys_keeps (blockLiveTraffic_keeps _ _)) fun _ => ?_
    exact .modify fun _ => rfl

omit [Primitives] in
private theorem closeGate_gated (owner : Nat) (peer : PeerId) (live : Bool) (s : Outbox) :
    Action.Ensures (closeGate owner peer live) s fun _ t =>
      ∀ other, Gated s.keys other → Gated t.keys other := by
  unfold closeGate
  split
  · exact fun _ gated => gated
  · exact .zoom (blockLiveTraffic_gated peer owner s.keys) (fun _ _ closed => closed.1)
      fun _ _ closed => closed.1

private theorem resealPending_keeps (session : PairSession) (peer : PeerId) :
    Action.Keeps (fun outbox : Outbox => (sealView outbox.keys, outbox.look))
      (resealPending session peer) := by
  intro outbox
  unfold resealPending
  split
  · rfl
  · rename_i pending found
    have keys := Action.updateEach_keeps (resealOnline_keeps session) pending outbox.keys
    have records := resealed_records session pending outbox.keys
    generalize Action.updateEach (resealOnline session) pending outbox.keys = resealed
      at keys records ⊢
    refine Prod.ext keys (funext fun other => ?_)
    simp only [Outbox.look, Map.get_insert]
    split
    · rename_i same
      subst same
      simp only [Option.getD_some, records, found]
    · rfl

omit [Primitives] in
theorem queuedControl_content {packet : ControlPacket} {record : ControlRecord}
    {queuedAt : Nat} {entry : Queued} (h : queuedControl packet record queuedAt = .ok entry) :
    entry.content = .control record := by
  obtain ⟨_, _, h⟩ := Result.bind_eq_ok.mp h
  cases h
  rfl

omit [Primitives] in
private theorem dropRemoved_contents (removed : Option FileId) (queue : List Queued) :
    (dropRemoved removed queue).map Queued.content =
      Content.removeBodies removed (queue.map Queued.content) := by
  cases removed with
  | none => rfl
  | some fileId => exact filter_contents queue (otherFile fileId)

private theorem queueOffline_outcome (host : HostService) {commit : Commit}
    (honest : commit.Honest) (session : PairSession) (peer : PeerId) (packet : ControlPacket)
    (s : Outbox) :
    Action.Ensures (queueOffline host.state commit session peer packet) s fun r t =>
      sealView t.keys = sealView s.keys ∧ (r = .ok () →
        (∀ other, other ≠ peer → t.look other = s.look other) ∧
        Served host commit peer (s.look peer) (t.look peer)) := by
  unfold queueOffline
  refine .get ?_
  refine .ofExcept (fun _ _ => ⟨rfl, nofun⟩) fun undelivered migrated => ?_
  refine .ofExcept (fun _ _ => ⟨rfl, nofun⟩) fun control isControl => ?_
  refine .keeps (outbox_onKeys_keeps (queueManifest_keeps host.state commit session peer _))
    (fun _ t _ same => ⟨congrArg Prod.fst same, nofun⟩) fun queue t onKeys same => ?_
  obtain ⟨keys, queued, rfl⟩ := Action.zoom_eq_ok.mp onKeys
  simp only [Prod.mk.injEq, and_true] at same
  have undeliveredContents : undelivered.map Queued.content =
      ((s.online[peer]?.getD []).map OnlineControl.record).map QueueContent.control := by
    rw [Result.map_of_mapM (fun x y h => queuedControl_content h) migrated, List.map_map]
    rfl
  have contents := queueManifest_contents honest queued
  rw [dropRemoved_contents, List.map_append, List.map_append, undeliveredContents, List.map_cons,
    List.map_nil, queuedControl_content isControl] at contents
  refine ⟨same, fun _ => ⟨fun other different => ?_, .inr ?_⟩⟩
  · simp only [Action.modify_apply, Outbox.look,
      Map.get_insert_ne _ _ (Ne.symm different), Map.get_erase_ne _ (Ne.symm different)]
  · simp only [Action.modify_apply, Outbox.look, Map.get_insert, ↓reduceIte, Option.getD_some,
      Map.get_erase, Option.getD_none, List.map_nil]
    rw [contents]
    rfl

/-- What serving the recipients one after another keeps of the keystore. -/
def Guarded (host : HostService) (keys : KeyStore) : Prop :=
  idleView keys = idleView host.keys ∧ ∀ peer, Gated host.keys peer → Gated keys peer

omit [Primitives] in
private theorem Guarded.congr {host : HostService} {s t : KeyStore} (guarded : Guarded host s)
    (same : sealView t = sealView s) : Guarded host t :=
  ⟨(idleView_of_seal same).trans guarded.1,
    fun peer gated => (guarded.2 peer gated).congr (gates_of_sealView same)⟩

theorem queueFor_outcome (env : HostEnv) (host : HostService) {commit : Commit}
    (honest : commit.Honest) (peer : PeerId) (s : Outbox) (guarded : Guarded host s.keys) :
    Action.Ensures (queueFor env host commit peer) s fun r t =>
      Guarded host t.keys ∧ (r = .ok () →
        (∀ other, other ≠ peer → t.look other = s.look other) ∧
        Served host commit peer (s.look peer) (t.look peer)) := by
  unfold queueFor
  refine .ofExcept (fun _ _ => ⟨guarded, nofun⟩) fun present _ => ?_
  refine .query (fun _ _ => ⟨guarded, nofun⟩) fun gate isGate => ?_
  generalize isLive : (present.isSome && gate.isOk) = live
  have open' : live = true → ¬ Gated host.keys peer := by
    rintro rfl gated
    obtain rfl := Except.ok.inj isGate
    have closed := (guarded.2 peer gated).not_live
    rw [closed, Bool.and_false] at isLive
    cases isLive
  have closes : Action.Ensures (closeGate host.state.gateOwner peer live) s fun _ t =>
      Guarded host t.keys ∧ t.look = s.look := by
    have same := closeGate_keeps host.state.gateOwner peer live s
    simp only [Prod.mk.injEq] at same
    exact ⟨⟨same.1.trans guarded.1, fun other gated =>
      closeGate_gated host.state.gateOwner peer live s other (guarded.2 other gated)⟩,
      look_congr same.2.1 same.2.2⟩
  refine .next closes (fun _ _ known => ⟨known.1, nofun⟩) fun _ closed known => ?_
  obtain ⟨closedGuarded, closedLook⟩ := known
  refine .query (fun _ _ => ⟨closedGuarded, nofun⟩) fun session _ => ?_
  refine .keeps (resealPending_keeps session peer)
    (fun _ t _ same => ⟨closedGuarded.congr (congrArg Prod.fst same), nofun⟩)
    fun _ resealed _ same => ?_
  simp only [Prod.mk.injEq] at same
  have resealedGuarded := closedGuarded.congr same.1
  refine .keeps (outbox_onKeys_keeps (sealControl_keeps session commit.record))
    (fun _ t _ kept => ⟨resealedGuarded.congr (congrArg Prod.fst kept), nofun⟩)
    fun packet ready _ kept => ?_
  simp only [Prod.mk.injEq] at kept
  have readyGuarded := resealedGuarded.congr kept.1
  have look : ready.look = s.look :=
    (look_congr kept.2.1 kept.2.2).trans (same.2.trans closedLook)
  split
  · rename_i isOpen
    refine ⟨readyGuarded, fun _ => ⟨fun other different => ?_, .inl ⟨open' isOpen, ?_⟩⟩⟩
    · rw [← look]
      simp only [queueOnline, Action.modify_apply, Outbox.look,
        Map.get_insert_ne _ _ (Ne.symm different)]
    · rw [← look]
      simp only [queueOnline, Action.modify_apply, Outbox.look, Map.get_insert, ↓reduceIte,
        Option.getD_some, List.map_append, List.map_cons, List.map_nil]
  · refine (queueOffline_outcome host honest session peer packet ready).mono
      fun r t served => ?_
    rw [look] at served
    exact ⟨readyGuarded.congr served.1, served.2⟩

def AllServed (host : HostService) (commit : Commit) (recipients : List PeerId)
    (outbox : Outbox) : Prop :=
  ∀ peer, if peer ∈ recipients then
      Served host commit peer (host.state.mailbox peer, host.state.onlineRecords peer)
        (outbox.look peer)
    else outbox.look peer = (host.state.mailbox peer, host.state.onlineRecords peer)

theorem prepareQueues_outcome (env : HostEnv) {commit : Commit} (honest : commit.Honest)
    {recipients : List PeerId} (nodup : recipients.Nodup) (host : HostService) :
    Action.Ensures (prepareQueues env commit recipients) host fun r t =>
      t.frame = host.frame ∧
        ∀ outbox, r = .ok outbox → AllServed host commit recipients outbox := by
  have loop := Action.Ensures.forEach_local (fun outbox => Guarded host outbox.keys)
    (fun peer s inv => queueFor_outcome env host honest peer s inv) nodup
    (s := ⟨host.keys, host.state.mailboxes, host.state.online, []⟩)
    ⟨rfl, fun _ gated => gated⟩
  unfold Action.Ensures at loop ⊢
  unfold prepareQueues
  dsimp only
  generalize Action.forEach recipients (queueFor env host commit) _ = outcome at loop ⊢
  obtain ⟨r, outbox⟩ := outcome
  obtain ⟨⟨keys, _⟩, served⟩ := loop
  have frame : HostService.frame { host with keys := outbox.keys } = host.frame := by
    simp only [HostService.frame, keys]
  cases r with
  | ok _ =>
    refine ⟨frame, fun other isOutbox => ?_⟩
    obtain rfl : outbox = other := Except.ok.inj isOutbox
    exact served rfl
  | error e =>
    have undone : Action.Ensures
        (Action.orElseUndo (Action.throw e : Action Error HostService Outbox)
          (reopenGates outbox.blocked)) { host with keys := outbox.keys }
        fun r t => t.frame = host.frame ∧ ∃ error, r = .error error := by
      refine .orElseUndo (.throw ?_)
      have reopened := reopenGates_keeps outbox.blocked { host with keys := outbox.keys }
      unfold Action.Ensures
      generalize reopenGates outbox.blocked _ = result at reopened
      obtain ⟨r, t⟩ := result
      cases r with
      | ok _ => exact ⟨reopened.trans frame, e, rfl⟩
      | error other => exact ⟨reopened.trans frame, other, rfl⟩
    obtain ⟨same, error, failed⟩ := undone
    refine ⟨same, fun other isOutbox => ?_⟩
    cases failed.symm.trans isOutbox

omit [Primitives] in
theorem recipientsOf_nodup (state : HostState) (update : ControlUpdate) :
    (recipientsOf state update).Nodup :=
  (OrdSet.toList_nodup state.members).filter _

omit [Primitives] in
theorem mem_recipientsOf {state : HostState} {update : ControlUpdate} {peer : PeerId} :
    peer ∈ recipientsOf state update ↔ state.content.recipient update peer := by
  simp [recipientsOf, Content.recipient, HostState.content]

omit [Primitives] in
private theorem stageManifest_eq_ok {commit : Commit} (honest : commit.Honest)
    {state staged : HostState} (h : stageManifest commit state = .ok staged) :
    staged = { state with manifests := match commit.record.update with
      | .newManifest manifest => state.manifests.insert manifest.fileId manifest
      | _ => state.manifests } := by
  unfold stageManifest at h
  cases isManifest : commit.record.update with
  | newManifest manifest =>
    rw [isManifest] at h
    obtain ⟨trusted, found, h⟩ := Result.bind_eq_ok.mp h
    obtain rfl : manifest = trusted :=
      Option.some.inj ((honest manifest isManifest).symm.trans (okOr_eq_ok.mp found))
    exact (Except.ok.inj h).symm
  | _ =>
    rw [isManifest] at h
    exact (Except.ok.inj h).symm

omit [Primitives] in
private theorem AllServed.live {host : HostService} {commit : Commit} {outbox : Outbox}
    (served : AllServed host commit (recipientsOf host.state commit.record.update) outbox) :
    ∃ live : PeerId → Bool, (∀ peer, live peer = true → ¬ Gated host.keys peer) ∧
      ∀ peer, outbox.look peer =
        (if host.state.content.recipient commit.record.update peer ∧ live peer = false then
            host.state.content.enqueue commit.record commit.removed peer (host.state.mailbox peer)
              (host.state.onlineRecords peer)
          else host.state.mailbox peer,
          if host.state.content.recipient commit.record.update peer then
            if live peer then host.state.onlineRecords peer ++ [commit.record] else []
          else host.state.onlineRecords peer) := by
  refine ⟨fun peer => decide (host.state.content.recipient commit.record.update peer ∧
    (outbox.look peer).2 ≠ []), fun peer isLive => ?_, fun peer => ?_⟩
  · obtain ⟨recipient, nonempty⟩ := of_decide_eq_true isLive
    have look := served peer
    rw [if_pos (mem_recipientsOf.mpr recipient)] at look
    obtain ⟨open', _⟩ | gated := look
    · exact open'
    · exact absurd (congrArg Prod.snd gated) nonempty
  · have look := served peer
    by_cases recipient : host.state.content.recipient commit.record.update peer
    · rw [if_pos (mem_recipientsOf.mpr recipient)] at look
      obtain ⟨_, live⟩ | gated := look
      · simp [live, recipient]
      · simp [gated, recipient]
    · rw [if_neg (fun mem => recipient (mem_recipientsOf.mp mem))] at look
      simp [look, recipient]

omit [Primitives] in
theorem stageCommit_content {env : HostEnv} {commit : Commit} (honest : commit.Honest)
    {rotated : Option JoinCode} {tree : DirectoryTree} {next : Nat} {outbox : Outbox}
    {host : HostService} {staged : HostState} (isNext : commit.record.id = host.state.nextControl)
    (kind : validateLinkKind host.state.manifests commit.record.update = .ok ())
    (applied : applyTreeUpdate host.state.tree commit.record.update = .ok (tree, commit.removed))
    (counted : checkedAdd host.state.nextControl 1 (.state "instruction ids exhausted") = .ok next)
    (served : AllServed host commit (recipientsOf host.state commit.record.update) outbox)
    (h : stageCommit env commit rotated tree next outbox host.state = .ok staged) :
    ∃ live, (∀ peer, live peer = true → ¬ Gated host.keys peer) ∧
      host.state.content.commit commit.record.update live staged.admission =
        .ok staged.content := by
  obtain ⟨live, gates, look⟩ := served.live
  refine ⟨live, gates, ?_⟩
  generalize host.state = state at *
  obtain ⟨⟨id, update⟩, trusted, removed, queuedAt⟩ := commit
  dsimp only at isNext kind applied look
  subst isNext
  have mailbox : ∀ peer, (outbox.queues[peer]?.getD []).map Queued.content = _ :=
    fun peer => congrArg Prod.fst (look peer)
  have online : ∀ peer, (outbox.online[peer]?.getD []).map OnlineControl.record = _ :=
    fun peer => congrArg Prod.snd (look peer)
  have kind' : validateLinkKind state.content.manifests update = .ok () := kind
  have applied' : applyTreeUpdate state.content.tree update = .ok (tree, removed) := applied
  have counted' : checkedAdd state.content.nextControl 1 (.state "instruction ids exhausted") =
      .ok next := counted
  simp only [Content.commit, kind', applied', counted', bind, Except.bind, pure, Except.pure]
  refine congrArg Except.ok ?_
  unfold stageCommit at h
  obtain ⟨withManifest, isManifest, h⟩ := Result.bind_eq_ok.mp h
  have isManifest := stageManifest_eq_ok honest isManifest
  dsimp only at h isManifest
  obtain ⟨dropped, isDropped, h⟩ := Result.bind_eq_ok.mp h
  obtain rfl := Except.ok.inj h
  subst isManifest
  cases kicked : kickedBy update with
  | none =>
    rw [kicked] at isDropped
    obtain rfl := Except.ok.inj isDropped
    have mailboxes : state.content.mailboxAfter ⟨state.content.nextControl, update⟩ removed live =
        fun peer => (outbox.queues[peer]?.getD []).map Queued.content := by
      funext peer
      rw [mailbox, Content.mailboxAfter]
      simp only [kicked, reduceCtorEq, if_false]
      rfl
    have onlines : state.content.onlineAfter ⟨state.content.nextControl, update⟩ live =
        fun peer => (outbox.online[peer]?.getD []).map OnlineControl.record := by
      funext peer
      rw [online, Content.onlineAfter]
      simp only [kicked, reduceCtorEq, if_false]
      rfl
    rw [mailboxes, onlines]
    cases removed with
    | none => rfl
    | some fileId => rfl
  | some target =>
    rw [kicked] at isDropped
    obtain ⟨admission, isAdmission, isDropped⟩ := Result.bind_eq_ok.mp isDropped
    obtain rfl := Except.ok.inj isDropped
    have mailboxes : state.content.mailboxAfter ⟨state.content.nextControl, update⟩ removed live =
        fun peer => ((outbox.queues.erase target)[peer]?.getD []).map Queued.content := by
      funext peer
      rw [Map.get_erase, Content.mailboxAfter]
      by_cases isTarget : target = peer
      · have other : ¬ state.content.recipient update peer := fun is => is.2.2 (by rw [kicked, isTarget])
        simp [kicked, isTarget, other]
      · rw [if_neg isTarget, mailbox]
        simp only [kicked, Option.some.injEq, Ne.symm isTarget, if_false]
        rfl
    have onlines : state.content.onlineAfter ⟨state.content.nextControl, update⟩ live =
        fun peer => ((outbox.online.erase target)[peer]?.getD []).map OnlineControl.record := by
      funext peer
      rw [Map.get_erase, Content.onlineAfter]
      by_cases isTarget : target = peer
      · have other : ¬ state.content.recipient update peer := fun is => is.2.2 (by rw [kicked, isTarget])
        simp [kicked, isTarget, other]
      · rw [if_neg isTarget, online]
        simp only [kicked, Option.some.injEq, Ne.symm isTarget, if_false]
        rfl
    rw [mailboxes, onlines]
    cases removed with
    | none => rfl
    | some fileId => rfl

omit [Primitives] in
theorem stageCommit_admission {env : HostEnv} {commit : Commit} {rotated : Option JoinCode}
    {tree : DirectoryTree} {next : Nat} {outbox : Outbox} {state staged : HostState}
    (h : stageCommit env commit rotated tree next outbox state = .ok staged) :
    staged.admission.isSome = state.admission.isSome := by
  unfold stageCommit at h
  obtain ⟨withManifest, isManifest, h⟩ := Result.bind_eq_ok.mp h
  obtain ⟨dropped, isDropped, h⟩ := Result.bind_eq_ok.mp h
  obtain rfl := Except.ok.inj h
  have first : withManifest.admission = state.admission := by
    unfold stageManifest at isManifest
    split at isManifest
    · obtain ⟨_, _, isManifest⟩ := Result.bind_eq_ok.mp isManifest
      obtain rfl := Except.ok.inj isManifest
      rfl
    · obtain rfl := Except.ok.inj isManifest
      rfl
  have second : (stageRemoved commit.removed withManifest).admission = state.admission := by
    unfold stageRemoved
    split <;> exact first
  unfold stageKicked at isDropped
  split at isDropped
  · obtain rfl := Except.ok.inj isDropped
    exact congrArg Option.isSome second
  · obtain ⟨admission, isAdmission, isDropped⟩ := Result.bind_eq_ok.mp isDropped
    obtain rfl := Except.ok.inj isDropped
    change (stageRemoved commit.removed withManifest).admission.mapM _ = _ at isAdmission
    rw [second] at isAdmission
    cases known : state.admission with
    | none =>
      rw [known] at isAdmission
      cases isAdmission
      rfl
    | some metadata =>
      rw [known] at isAdmission
      obtain ⟨rotated, _, isAdmission⟩ := Result.bind_eq_ok.mp isAdmission
      obtain rfl := Except.ok.inj isAdmission
      rfl

theorem commitVerifiedWithCode_outcome (env : HostEnv) {update : ControlUpdate}
    {trusted : Option Manifest}
    (honest : ∀ manifest, update = .newManifest manifest → trusted = some manifest)
    (rotated : Option JoinCode) (host : HostService) :
    Action.Ensures (commitVerifiedWithCode env update trusted rotated) host fun r t =>
      Outcome (fun next => ∃ live admission staged,
        host.view.content.Idle live ∧ admission.isSome = host.view.content.admission.isSome ∧
          host.view.content.commit update live admission = .ok staged ∧
          Settles host.view staged next) host.view r t.view := by
  unfold commitVerifiedWithCode
  refine .query (fun e _ => .refused e) fun _ kind => ?_
  refine .query (fun e _ => .refused e) fun (tree, removed) applied => ?_
  refine .keeps refreshMailboxes_keeps (fun e t _ same => same ▸ .refused e)
    fun _ fresh refreshed same => ?_
  have gated : ∀ peer, fresh.state.mailbox peer ≠ [] → Gated fresh.keys peer := by
    have gated := refreshMailboxes_gated host
    rw [Action.Ensures, refreshed] at gated
    exact gated rfl
  have content : fresh.state.content = host.state.content := congrArg View.content same
  have tree' : fresh.state.tree = host.state.tree := congrArg Content.tree content
  have manifests' : fresh.state.manifests = host.state.manifests :=
    congrArg Content.manifests content
  have applied : applyTreeUpdate fresh.state.tree update = .ok (tree, removed) := by rwa [tree']
  have kind : validateLinkKind fresh.state.manifests update = .ok () := by rwa [manifests']
  rw [← same]
  refine .get ?_
  refine .ofExcept (fun e _ => .refused e) fun next counted => ?_
  refine .ofExcept (fun e _ => .refused e) fun queuedAt _ => ?_
  refine .ofExcept (fun e _ => .refused e) fun _ _ => ?_
  have honest : Commit.Honest ⟨⟨fresh.state.nextControl, update⟩, trusted, removed, queuedAt⟩ :=
    honest
  refine .bind ((prepareQueues_outcome env honest (recipientsOf_nodup _ _) fresh).mono
    fun r prepared queued => ?_)
  have unchanged : prepared.view = fresh.view := view_of_frame queued.1
  have state : prepared.state = fresh.state := state_of_frame queued.1
  cases r with
  | error e => exact unchanged ▸ .refused e
  | ok outbox =>
    have served := queued.2 outbox rfl
    refine .orElseUndo ?_
    have published : Action.Ensures (applyCommit env
        ⟨⟨fresh.state.nextControl, update⟩, trusted, removed, queuedAt⟩ rotated tree next outbox)
        prepared fun r t => Outcome (fun next => ∃ live admission staged,
          fresh.view.content.Idle live ∧ admission.isSome = fresh.view.content.admission.isSome ∧
            fresh.view.content.commit update live admission = .ok staged ∧
            Settles fresh.view staged next) fresh.view r t.view := by
      unfold applyCommit
      refine .query (fun e _ => unchanged ▸ .refused e) fun staged isStaged => ?_
      rw [state] at isStaged
      obtain ⟨live, open', committed⟩ :=
        stageCommit_content honest rfl kind applied counted served isStaged
      have idle : fresh.view.content.Idle live := fun peer isLive =>
        Classical.byContradiction fun queued => open' peer isLive (gated peer queued)
      refine (publishState_outcome env staged prepared).mono fun r t outcome => ?_
      rw [unchanged] at outcome
      exact outcome.2.mono fun content settles =>
        ⟨live, staged.admission, _, idle, stageCommit_admission isStaged, committed, settles⟩
    refine published.mono fun r t outcome => ?_
    cases r with
    | ok _ => exact outcome
    | error e =>
      have reopened := reopenGates_keeps outbox.blocked t
      unfold Action.Ensures
      generalize reopenGates outbox.blocked t = result at reopened ⊢
      obtain ⟨r, after⟩ := result
      dsimp only at reopened ⊢
      rw [view_of_frame reopened]
      cases r with
      | ok _ => exact outcome
      | error other => exact outcome.error other

end

end QuantumFs.Host
