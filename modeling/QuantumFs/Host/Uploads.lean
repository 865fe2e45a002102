import QuantumFs.Host.Effects

/-! A save is prepared on a copy of the service and published as a whole: its
chunks, its manifest and the link of a new path. -/
namespace QuantumFs.Host

open Lib Encoding Crypto Store

variable [Primitives]

structure World.Grows (before after : World) : Prop where
  identity : after.identity = before.identity
  peers : after.peers = before.peers
  files : ∀ later ∈ after.files, ∃ earlier ∈ before.files,
    ∀ (chunkId : ChunkId) (bytes : Bytes), earlier[chunkId]? = some bytes →
      later[chunkId]? = some bytes

namespace Content

variable {before after : World} {c next : Content}

theorem Put.grows (h : Put before c next) (grows : before.Grows after) : Put after c next := by
  cases h with
  | mk fileId index plaintext missing stored =>
    refine .mk fileId index plaintext missing fun later isLater => ?_
    obtain ⟨earlier, isEarlier, files⟩ := grows.files later isLater
    obtain ⟨found, small⟩ := stored earlier isEarlier
    exact ⟨files _ _ found, small⟩

theorem puts_grow (h : Relation.ReflTransGen (Put before) c next) (grows : before.Grows after) :
    Relation.ReflTransGen (Put after) c next :=
  Relation.ReflTransGen.mono (fun _ _ put => Put.grows put grows) _ _ h

theorem Commits.grows {update : ControlUpdate} (h : Commits before update c next)
    (grows : before.Grows after) : Commits after update c next := by
  obtain ⟨identity, peers, paired, challenged, files⟩ := before
  obtain ⟨identity', peers', paired', challenged', files'⟩ := after
  obtain rfl : identity' = identity := grows.identity
  obtain rfl : peers' = peers := grows.peers
  obtain ⟨accepts, live, admission, staged, documents, idle, admitted, committed, archived, rfl⟩ := h
  refine ⟨?_, live, admission, staged, documents, idle, admitted, committed, archived, rfl⟩
  cases update with
  | newManifest manifest => exact ⟨accepts.member, accepts.signed, accepts.held, accepts.size⟩
  | _ => exact accepts

theorem Adopts.grows {manifest : Manifest} (h : Adopts before manifest c next)
    (grows : before.Grows after) : Adopts after manifest c next :=
  h.imp_right fun commits => commits.grows grows

end Content

structure Grown (v w : View) : Prop where
  deferred : w.deferred = v.deferred
  identity : w.identity = v.identity
  peers : w.peers = v.peers
  paired : w.selfPaired = v.selfPaired
  challenged : w.challenged = v.challenged
  disk : Option.Rel Stocked v.disk w.disk

namespace Grown

variable {u v w : View}

omit [Primitives] in
theorem refl (v : View) : Grown v v := ⟨rfl, rfl, rfl, rfl, rfl, Stocked.refl _⟩

omit [Primitives] in
theorem trans (first : Grown v u) (second : Grown u w) : Grown v w :=
  ⟨second.deferred.trans first.deferred, second.identity.trans first.identity,
    second.peers.trans first.peers, second.paired.trans first.paired,
    second.challenged.trans first.challenged, Stocked.trans first.disk second.disk⟩

omit [Primitives] in
theorem world (h : Grown v w) : v.world.Grows w.world where
  identity := congrArg LocalIdentity.document h.identity
  peers := h.peers
  files := fun later isLater => by
    have disk := h.disk
    unfold View.world at isLater ⊢
    dsimp only at isLater ⊢
    generalize v.disk = before at disk ⊢
    generalize w.disk = after at disk isLater
    cases disk with
    | none => cases isLater
    | some stocked =>
      obtain rfl := Option.some.inj isLater
      exact ⟨_, rfl, stocked.files⟩

end Grown

theorem onChunks_put (env : FileEnv) (fileId : FileId) (index : Nat) (plaintext : Bytes)
    (host : HostService) :
    Action.Ensures (HostService.onChunks (ChunkStore.put env fileId index plaintext)) host
      fun _ t => Grown host.view t.view ∧ t.keys = host.keys ∧
        Relation.ReflTransGen (Content.Put t.view.world) host.view.content t.view.content := by
  have outcome := ChunkStore.put_outcome env fileId index plaintext host.disk host.state.chunks
  unfold Action.Ensures at outcome ⊢
  rw [HostService.onChunks, Action.zoom_apply]
  generalize ChunkStore.put env fileId index plaintext (host.disk, host.state.chunks) = result
    at outcome
  obtain ⟨r, disk, chunks⟩ := result
  obtain ⟨stocked, same | ⟨missing, files, records⟩, _⟩ := outcome
  · refine ⟨⟨rfl, rfl, rfl, rfl, rfl, stocked⟩, rfl, ?_⟩
    dsimp only at same
    rw [same]
    exact .refl
  · refine ⟨⟨rfl, rfl, rfl, rfl, rfl, stocked⟩, rfl, .single ?_⟩
    have content : ({ host.state with chunks := chunks } : HostState).content =
        host.state.content.stored fileId index plaintext :=
      congrArg (fun records => { host.state.content with records }) records
    have put : Content.Put (View.world { host.view with disk }) host.state.content
        ({ host.state with chunks := chunks } : HostState).content :=
      content ▸ .mk fileId index plaintext missing files
    exact put

theorem stageBodies_outcome (env : HostEnv) (fileId : FileId) (bodies : List (Nat × Bytes)) :
    ∀ host : HostService, Action.Ensures (stageBodies env fileId bodies) host fun _ t =>
      Grown host.view t.view ∧ t.keys = host.keys ∧
        Relation.ReflTransGen (Content.Put t.view.world) host.view.content t.view.content := by
  induction bodies with
  | nil => exact fun host => ⟨.refl _, rfl, .refl⟩
  | cons body bodies ih =>
    intro host
    refine .bind (.bind ((onChunks_put env.files fileId body.1 body.2 host).mono
      fun r t first => ?_))
    cases r with
    | error e => exact first
    | ok _ =>
      refine .pure ((ih t).mono fun r u rest => ?_)
      refine ⟨first.1.trans rest.1, rest.2.1.trans first.2.1, ?_⟩
      exact (Content.puts_grow first.2.2 rest.1.world).trans rest.2.2

omit [Primitives] in
theorem Grown.of_published {v w : View} {next : HostState} (deferred : v.deferred = true)
    (h : Published v next w) : w = { v with content := next.content } := by
  cases h with
  | deferred _ => rfl
  | memory live _ => cases deferred.symm.trans live
  | saved live _ _ => cases deferred.symm.trans live

theorem fanOutControl_deferred (env : HostEnv) (sender : PeerId) {update : ControlUpdate}
    (notKick : kickedBy update = none) (host : HostService) (deferred : host.view.deferred = true) :
    Action.Ensures (fanOutControl env sender update) host fun r t =>
      t.view = { host.view with content := t.view.content } ∧ (r = .ok () →
        (∃ manifest, update = .newManifest manifest ∧ t.view.content = host.view.content ∧
          host.view.content.manifests[manifest.fileId]? = some manifest) ∨
        Content.Commits host.view.world update host.view.content t.view.content) := by
  refine (fanOutControl_outcome env sender notKick host).mono fun r t outcome => ?_
  obtain ⟨manifest, isManifest, _, same, current⟩ | outcome := outcome
  · rw [same]
    exact ⟨rfl, fun _ => .inl ⟨manifest, isManifest, rfl, current⟩⟩
  · generalize t.view = w at outcome ⊢
    cases outcome with
    | refused e => exact ⟨rfl, nofun⟩
    | lost e _ lost =>
      cases lost with
      | mk live _ _ =>
        cases deferred.symm.trans live
    | done _ commits published =>
      obtain rfl := Grown.of_published deferred published
      exact ⟨rfl, fun _ => .inr commits⟩

omit [Primitives] in
theorem Grown.of_content {v w : View} (h : w = { v with content := w.content }) : Grown v w := by
  rw [h]
  exact ⟨rfl, rfl, rfl, rfl, rfl, Stocked.refl _⟩

theorem stageUpload_outcome (env : HostEnv) (sender : PeerId) (manifest : Manifest)
    (bodies : Map Nat Bytes) {link : Option ControlUpdate}
    (isLink : link.all (linksFile manifest.fileId) = true) (host : HostService)
    (deferred : host.view.deferred = true) :
    Action.Ensures (stageUpload env sender manifest bodies link) host fun r t =>
      Grown host.view t.view ∧ (r = .ok () →
        Content.Uploads t.view.world manifest link host.view.content t.view.content) := by
  unfold stageUpload
  refine .bind ((stageBodies_outcome env manifest.fileId bodies.toList host).mono
    fun r stored putting => ?_)
  obtain ⟨grown, _, puts⟩ := putting
  cases r with
  | error e => exact ⟨grown, nofun⟩
  | ok _ =>
    have deferred' : stored.view.deferred = true := grown.deferred.trans deferred
    refine .bind ((fanOutControl_deferred env sender rfl stored deferred').mono
      fun r committed outcome => ?_)
    have grown' := grown.trans (.of_content outcome.1)
    cases r with
    | error e => exact ⟨grown', nofun⟩
    | ok _ =>
      have adopted : Content.Adopts stored.view.world manifest stored.view.content
          committed.view.content := by
        obtain ⟨other, same, unchanged, current⟩ | commits := outcome.2 rfl
        · obtain rfl := ControlUpdate.newManifest.inj same
          exact .inl ⟨current, unchanged⟩
        · exact .inr commits
      cases link with
      | none =>
        have grows := (Grown.of_content outcome.1).world
        exact ⟨grown', fun _ => ⟨_, _, Content.puts_grow puts grows, adopted.grows grows, rfl⟩⟩
      | some update =>
        have notKick : kickedBy update = none := by
          cases update with
          | kick target => cases isLink
          | _ => rfl
        refine (fanOutControl_deferred env sender notKick committed
          (grown'.deferred.trans deferred)).mono fun r linked last => ?_
        have grows := (Grown.of_content last.1).world
        have both := (Grown.trans (.of_content outcome.1) (.of_content last.1)).world
        refine ⟨grown'.trans (.of_content last.1), fun ok => ⟨_, _, ?_, adopted.grows both, ?_⟩⟩
        · exact Content.puts_grow puts both
        · obtain ⟨other, absurd, _⟩ | commits := last.2 ok
          · rw [absurd] at isLink
            cases isLink
          · exact commits.grows grows

/-- A save becomes visible as a whole, after its chunk files were written. -/
def UploadOutcome (v : View) (manifest : Manifest) (link : Option ControlUpdate) (r : Result Unit)
    (w : View) : Prop :=
  ∃ u, Beside v u ∧ Outcome (fun next => ∃ staged,
    Content.Uploads u.world manifest link u.content staged ∧ Settles u staged next) u r w

theorem UploadOutcome.error {v w : View} {manifest : Manifest} {link : Option ControlUpdate}
    {e : Error} (h : UploadOutcome v manifest link (.error e) w) (other : Error) :
    UploadOutcome v manifest link (.error other) w := by
  obtain ⟨u, beside, outcome⟩ := h
  exact ⟨u, beside, outcome.error other⟩

theorem UploadOutcome.effect {v w : View} {manifest : Manifest} {link : Option ControlUpdate}
    {r : Result Unit} (h : UploadOutcome v manifest link r w)
    (isLink : link.all (linksFile manifest.fileId) = true) : Effect v w := by
  obtain ⟨u, beside, outcome⟩ := h
  refine .after beside (.of_outcome outcome fun next => ?_)
  rintro ⟨staged, uploads, settles⟩
  exact ⟨staged, .upload isLink uploads, settles⟩

theorem publishUpload_outcome (env : HostEnv) (sender : PeerId) (manifest : Manifest)
    (bodies : Map Nat Bytes) {link : Option ControlUpdate}
    (isLink : link.all (linksFile manifest.fileId) = true) (host : HostService) :
    Action.Ensures (publishUpload env sender manifest bodies link) host fun r t =>
      UploadOutcome host.view manifest link r t.view := by
  unfold publishUpload
  have staging := stageUpload_outcome env sender manifest bodies isLink
    { host with deferPersistence := true, disconnects := [], recentOps := [], lastSeen := ∅ } rfl
  refine .bind ?_
  unfold Action.Ensures at staging ⊢
  unfold inTransaction
  generalize stageUpload env sender manifest bodies link _ = result at staging ⊢
  obtain ⟨r, transaction⟩ := result
  obtain ⟨grown, uploads⟩ := staging
  have beside : Beside host.view
      (HostService.view { host with keys := transaction.keys, disk := transaction.disk }) :=
    { content := rfl
      deferred := rfl
      identity := grown.identity
      peers := fun sound => by
        have same : transaction.keys.peers = host.keys.peers := grown.peers
        change SoundPeers transaction.keys.peers
        rwa [same]
      unpaired := fun unpaired => grown.paired.trans unpaired
      challenged := fun _ => .inl
      disk := grown.disk }
  have world : transaction.view.world =
      (HostService.view { host with keys := transaction.keys, disk := transaction.disk }).world := by
    have challenged : transaction.view.challenged = host.view.challenged := grown.challenged
    unfold View.world
    rw [challenged]
    rfl
  cases r with
  | error e => exact ⟨_, beside, .refused e⟩
  | ok _ =>
    have published := publishState_outcome env transaction.state
      { host with keys := transaction.keys, disk := transaction.disk }
    exact ⟨_, beside, published.2.mono fun next settles => ⟨_, world ▸ uploads rfl, settles⟩⟩

omit [Primitives] in
theorem reopenUnowned_keeps (owners : List (PeerId × Bool)) :
    Action.Keeps HostService.frame (reopenUnowned owners) := by
  refine .forEach fun owner _ => .bind .get fun host => ?_
  exact .ite (.pure _) (onKeys_keeps (unblockLiveTraffic_keeps _ _))

omit [Primitives] in
theorem noteRecentOps_view (env : HostEnv) (sender : PeerId) (first : Nat) (host : HostService) :
    (noteRecentOps env sender first host).view = host.view := by
  unfold noteRecentOps
  generalize List.range' first (host.state.nextControl - first) = ids
  induction ids generalizing host with
  | nil => rfl
  | cons id ids ih =>
    rw [List.foldl_cons, ih, noteRecentOp_view]

theorem commitWriterUpload_outcome (env : HostEnv) (sender : PeerId) (manifest : Manifest)
    (bodies : Map Nat Bytes) (link : Option ControlUpdate) (host : HostService) :
    Action.Ensures (commitWriterUpload env sender manifest bodies link) host fun r t =>
      (link.all (linksFile manifest.fileId) = true ∧
        UploadOutcome host.view manifest link r t.view) ∨ (t.view = host.view ∧ ∃ e, r = .error e) := by
  unfold commitWriterUpload
  refine .query (fun e _ => .inr ⟨rfl, e, rfl⟩) fun _ _ => ?_
  refine .require (fun _ => .inr ⟨rfl, _, rfl⟩) fun isLink => ?_
  refine .keeps refreshMailboxes_keeps (fun e _ _ same => .inr ⟨same, e, rfl⟩)
    fun _ fresh _ same => ?_
  refine .query (fun e _ => .inr ⟨same, e, rfl⟩) fun owners _ => .get ?_
  rw [← same]
  refine .bind (.orElseUndo ((publishUpload_outcome env sender manifest bodies isLink fresh).mono
    fun r t outcome => ?_))
  cases r with
  | ok _ =>
    rw [← noteRecentOps_view env sender fresh.state.nextControl t] at outcome
    exact .inl ⟨isLink, outcome⟩
  | error e =>
    have reopened := reopenUnowned_keeps owners t
    unfold Action.Ensures
    generalize reopenUnowned owners t = result at reopened ⊢
    obtain ⟨r, after⟩ := result
    have view : after.view = t.view := view_of_frame reopened
    cases r with
    | ok _ => exact .inl ⟨isLink, view ▸ outcome⟩
    | error other => exact .inl ⟨isLink, view ▸ outcome.error other⟩

theorem commitWriterUpload_effective (env : HostEnv) (sender : PeerId) (manifest : Manifest)
    (bodies : Map Nat Bytes) (link : Option ControlUpdate) :
    Effective (commitWriterUpload env sender manifest bodies link) := by
  intro host
  obtain ⟨isLink, outcome⟩ | ⟨same, _⟩ :=
    commitWriterUpload_outcome env sender manifest bodies link host
  · exact outcome.effect isLink
  · exact .of_eq same

theorem saveFile_effective (env : HostEnv) (writer : KeyStore) (path : String)
    (bodies : List Bytes) : Effective (saveFile env writer path bodies) := by
  unfold saveFile
  refine .query fun _ => .ofExcept fun sender => .query fun _ => .query fun saved => ?_
  exact .before (commitWriterUpload_effective _ _ _ _ _) fun _ => .of_keeps (.pure _)

end QuantumFs.Host
