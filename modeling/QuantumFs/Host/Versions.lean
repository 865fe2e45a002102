import QuantumFs.Host.Flush

/-! The versions of a file. A writer counts from the manifest on its own replica, and the
host takes what is signed; so versions grow as long as every save starts from the last
accepted one. -/
namespace QuantumFs.Host

open Lib Encoding Crypto Store

variable [Primitives]

/-- Every manifest is an old one, or one that `new` holds of. -/
def Within (new : Manifest → Prop) (before after : Map FileId Manifest) : Prop :=
  ∀ (fileId : FileId) (manifest : Manifest), after[fileId]? = some manifest →
    before[fileId]? = some manifest ∨ (new manifest ∧ manifest.fileId = fileId)

namespace Within

variable {new : Manifest → Prop} {before middle after : Map FileId Manifest}

omit [Primitives] in
theorem of_eq (h : after = before) : Within new before after := fun _ _ found => .inl (h ▸ found)

omit [Primitives] in
theorem trans (first : Within new before middle) (second : Within new middle after) :
    Within new before after := by
  intro fileId manifest found
  obtain found | isNew := second fileId manifest found
  · exact first fileId manifest found
  · exact .inr isNew

omit [Primitives] in
theorem mono {other : Manifest → Prop} (h : Within new before after)
    (imp : ∀ manifest, new manifest → other manifest) : Within other before after :=
  fun fileId manifest found => (h fileId manifest found).imp_right fun isNew =>
    ⟨imp _ isNew.1, isNew.2⟩

end Within

theorem Content.Commits.within {world : World} {update : ControlUpdate} {c next : Content}
    (h : Content.Commits world update c next) :
    Within (fun manifest => update = .newManifest manifest) c.manifests next.manifests := by
  obtain ⟨_, _, _, staged, _, _, _, committed, _, rfl⟩ := h
  obtain ⟨_, _, _, _, _, rfl⟩ := Content.commit_eq_ok committed
  intro fileId manifest found
  obtain ⟨_, ⟨isNew, isFile⟩ | ⟨old, _⟩⟩ := Content.manifestsAfter_eq_some.mp found
  · exact .inr ⟨isNew, isFile⟩
  · exact .inl old

theorem Content.Uploads.within {world : World} {manifest : Manifest} {link : Option ControlUpdate}
    {c next : Content} (isLink : link.all (linksFile manifest.fileId) = true)
    (h : Content.Uploads world manifest link c next) :
    Within (fun other => other = manifest) c.manifests next.manifests := by
  obtain ⟨stored, committed, puts, adopts, linked⟩ := h
  obtain ⟨records, rfl⟩ := Content.puts_records puts
  have adopted : Within (fun other => other = manifest) c.manifests committed.manifests := by
    obtain ⟨_, rfl⟩ | commits := adopts
    · exact .of_eq rfl
    · intro fileId other found
      exact (commits.within fileId other found).imp_right fun isNew =>
        ⟨(ControlUpdate.newManifest.inj isNew.1).symm, isNew.2⟩
  cases link with
  | none =>
    obtain rfl : next = _ := linked
    exact adopted
  | some update =>
    refine adopted.trans fun fileId other found => ?_
    refine (Content.Commits.within linked fileId other found).imp_right fun isNew => ?_
    rw [isNew.1] at isLink
    cases isLink

/-- The manifests of the service, and those of the snapshot that a restart would read. -/
@[ext]
structure Filed where
  shown : Map FileId Manifest
  stored : Option (Map FileId Manifest)

def View.filed (v : View) : Filed where
  shown := v.content.manifests
  stored := (v.disk.bind fun disk => disk.replicaFile).map fun file => file.2.manifests

def HostService.filed (host : HostService) : Filed := host.view.filed

def Filed.Rewritten (before after : Filed) : Prop :=
  after.shown = before.shown ∧ (after.stored = before.stored ∨ after.stored = some before.shown)

/-- Only manifests that `new` holds of are shown or written. -/
structure Filed.Recorded (new : Manifest → Prop) (before after : Filed) : Prop where
  shown : Within new before.shown after.shown
  stored : ∀ manifests, after.stored = some manifests →
    (after.stored = before.stored ∧ after.shown = before.shown) ∨
      (Within new before.shown manifests ∧
        (after.shown = before.shown ∨ after.shown = manifests))

omit [Primitives] in
theorem Filed.Rewritten.refl (filed : Filed) : filed.Rewritten filed := ⟨rfl, .inl rfl⟩

omit [Primitives] in
theorem Filed.Rewritten.recorded {new : Manifest → Prop} {before after : Filed}
    (h : before.Rewritten after) : before.Recorded new after where
  shown := .of_eq h.1
  stored := by
    intro manifests isStored
    obtain same | written := h.2
    · exact .inl ⟨same, h.1⟩
    · obtain rfl := Option.some.inj (written.symm.trans isStored)
      exact .inr ⟨.of_eq rfl, .inl h.1⟩

omit [Primitives] in
theorem Filed.Recorded.refl {new : Manifest → Prop} (filed : Filed) : filed.Recorded new filed :=
  (Filed.Rewritten.refl filed).recorded

omit [Primitives] in
theorem Filed.Recorded.of_eq {new : Manifest → Prop} {before after : Filed} (h : after = before) :
    before.Recorded new after := h ▸ .refl _

omit [Primitives] in
theorem stocked_replica {v w : View} (stocked : Option.Rel Stocked v.disk w.disk) :
    w.filed.stored = v.filed.stored := by
  unfold View.filed
  dsimp only
  generalize v.disk = before at stocked
  generalize w.disk = after at stocked
  cases stocked with
  | none => rfl
  | some stocked => simp only [Option.bind_some, stocked.replica]

theorem Beside.filed {v w : View} (h : Beside v w) : w.filed = v.filed :=
  Filed.ext (congrArg Content.manifests h.content) (stocked_replica h.disk)

theorem Grown.filed {v w : View} (h : Grown v w)
    (puts : Relation.ReflTransGen (Content.Put w.world) v.content w.content) :
    w.filed = v.filed := by
  obtain ⟨records, same⟩ := Content.puts_records puts
  refine Filed.ext ?_ (stocked_replica h.disk)
  change w.content.manifests = _
  rw [same]
  rfl

omit [Primitives] in
theorem Filed.Recorded.mono {new other : Manifest → Prop} {before after : Filed}
    (h : before.Recorded new after) (imp : ∀ manifest, new manifest → other manifest) :
    before.Recorded other after where
  shown := h.shown.mono imp
  stored := fun manifests isStored => (h.stored manifests isStored).imp_right fun written =>
    ⟨written.1.mono imp, written.2⟩

omit [Primitives] in
theorem Published.filed {v w : View} {next : HostState} (h : Published v next w) :
    w.filed.shown = next.manifests ∧ (w.filed.stored = v.filed.stored ∧
      (v.deferred = true ∨ w.filed.stored = none) ∨ w.filed.stored = some next.manifests) := by
  cases h with
  | deferred isDeferred => exact ⟨rfl, .inl ⟨rfl, .inl isDeferred⟩⟩
  | memory _ noDisk =>
    refine ⟨rfl, .inl ⟨rfl, .inr ?_⟩⟩
    simp only [View.filed, noDisk, Option.bind_none, Option.map_none]
  | saved _ _ saved =>
    refine ⟨rfl, .inr ?_⟩
    simp only [View.filed, Option.bind_some, saved.file, Option.map_some]
    rfl

omit [Primitives] in
theorem Lost.filed {v w : View} {next : HostState} (h : Lost v next w) :
    w.filed.shown = v.filed.shown ∧
      (w.filed.stored = v.filed.stored ∨ w.filed.stored = some next.manifests) := by
  obtain ⟨_, isDisk, spoiled⟩ := h
  refine ⟨rfl, ?_⟩
  simp only [View.filed, isDisk, Option.bind_some]
  obtain same | ⟨generation, written⟩ := spoiled.file
  · exact .inl (by rw [same])
  · exact .inr (by rw [written]; rfl)

omit [Primitives] in
theorem Outcome.rewritten {α : Type} {R : Content → Prop} {v w : View} {r : Result α}
    (h : Outcome R v r w) (same : ∀ next, R next → next.manifests = v.content.manifests) :
    v.filed.Rewritten w.filed := by
  cases h with
  | refused _ => exact .refl _
  | lost _ moved lost =>
    have isSame : _ = v.filed.shown := same _ moved
    exact ⟨lost.filed.1, isSame ▸ lost.filed.2⟩
  | done _ moved published =>
    have isSame : _ = v.filed.shown := same _ moved
    exact ⟨published.filed.1.trans isSame,
      isSame ▸ published.filed.2.imp_left And.left⟩

omit [Primitives] in
theorem Outcome.recorded {α : Type} {R : Content → Prop} {v w : View} {r : Result α}
    {new : Manifest → Prop} (h : Outcome R v r w) (direct : v.deferred = false)
    (within : ∀ next, R next → Within new v.content.manifests next.manifests) :
    v.filed.Recorded new w.filed := by
  cases h with
  | refused _ => exact .refl _
  | lost _ moved lost =>
    refine ⟨.of_eq lost.filed.1, fun manifests isStored => ?_⟩
    obtain same | written := lost.filed.2
    · exact .inl ⟨same, lost.filed.1⟩
    · obtain rfl := Option.some.inj (written.symm.trans isStored)
      exact .inr ⟨within _ moved, .inl lost.filed.1⟩
  | done _ moved published =>
    obtain ⟨shown, stored⟩ := published.filed
    have isWithin : Within new v.filed.shown w.filed.shown := by
      rw [shown]
      exact within _ moved
    refine ⟨isWithin, fun manifests isStored => ?_⟩
    obtain ⟨_, isDeferred | nothing⟩ | written := stored
    · cases direct.symm.trans isDeferred
    · cases nothing.symm.trans isStored
    · obtain rfl := Option.some.inj (written.symm.trans isStored)
      exact .inr ⟨within _ moved, .inr shown⟩

section

variable {base : Filed} {staged : HostState} {host : HostService}

theorem publishState_rewrites (env : HostEnv) (same : staged.manifests = base.shown)
    (known : host.filed = base) :
    Action.Ensures (publishState env staged) host fun _ t => base.Rewritten t.filed := by
  refine (publishState_outcome env staged host).mono fun r t outcome => ?_
  rw [← known]
  refine outcome.2.rewritten ?_
  rintro next ⟨documents, _, rfl⟩
  exact same.trans (congrArg Filed.shown known.symm)

omit [Primitives] in
theorem undo_rewrites {x undo : Action Error HostService Unit}
    (h : Action.Ensures x host fun _ t => base.Rewritten t.filed)
    (undone : Action.Keeps HostService.filed undo) :
    Action.Ensures (Action.orElseUndo x undo) host fun _ t => base.Rewritten t.filed := by
  refine .orElseUndo (h.mono fun r t known => ?_)
  cases r with
  | ok _ => exact known
  | error e =>
    have same := undone t
    unfold Action.Ensures
    generalize undo t = result at same
    obtain ⟨r, u⟩ := result
    have rewritten : base.Rewritten u.filed := same ▸ known
    cases r <;> exact rewritten

end

/-- A method that may write the snapshot, with the manifests as they are. -/
def Rewrites {α : Type} (x : Action Error HostService α) : Prop :=
  ∀ host, Action.Ensures x host fun _ t => host.filed.Rewritten t.filed

namespace Rewrites

variable {α β : Type}

omit [Primitives] in
theorem of_keeps {x : Action Error HostService α} (h : Action.Keeps HostService.filed x) :
    Rewrites x := by
  intro host
  have same : (x host).2.filed = host.filed := h host
  change host.filed.Rewritten (x host).2.filed
  rw [same]
  exact .refl _

omit [Primitives] in
theorem keeps_bind {x : Action Error HostService α} {f : α → Action Error HostService β}
    (hx : Action.Keeps HostService.filed x) (hf : ∀ a, Rewrites (f a)) : Rewrites (x >>= f) := by
  intro host
  refine .keeps hx (fun _ _ _ kept => kept ▸ .refl _) fun a t _ kept => ?_
  rw [← kept]
  exact hf a t

omit [Primitives] in
theorem ite {p : Prop} [Decidable p] {x y : Action Error HostService α} (hx : Rewrites x)
    (hy : Rewrites y) : Rewrites (if p then x else y) := by
  split
  · exact hx
  · exact hy

end Rewrites

omit [Primitives] in
private theorem onKeys_filed {α : Type} (x : Action Error KeyStore α) :
    Action.Keeps HostService.filed (HostService.onKeys x) := fun _ => rfl

omit [Primitives] in
private theorem reopenGates_filed (blocked : List PeerId) :
    Action.Keeps HostService.filed (reopenGates blocked) :=
  .forEach fun _ _ => .bind .get fun _ => .ite (onKeys_filed _) (.pure _)

private theorem refreshMailboxes_filed : Action.Keeps HostService.filed refreshMailboxes :=
  refreshMailboxes_keeps.map View.filed

private theorem bootstrapMember_rewrites (env : HostEnv) (document : IdentityDocument) :
    Rewrites (bootstrapMember env document) := by
  intro host
  unfold bootstrapMember
  refine .query (fun _ _ => .refl _) fun staged isStaged => ?_
  have same : staged.manifests = host.filed.shown := by
    obtain ⟨_, rfl, _⟩ := archiveHost_eq_ok isStaged
    rfl
  refine .ofExcept (fun _ _ => .refl _) fun records _ => ?_
  refine .keeps (onKeys_filed _) (fun _ _ _ kept => kept ▸ .refl _) fun queue sealed _ isSealed => ?_
  refine .keeps (onKeys_filed _) (fun _ _ _ kept => (kept.trans isSealed) ▸ .refl _)
    fun _ gated _ isGated => ?_
  exact undo_rewrites (publishState_rewrites env same (isGated.trans isSealed)) (onKeys_filed _)

private theorem addMember_rewrites (env : HostEnv) (document : IdentityDocument) :
    Rewrites (addMember env document) := by
  unfold addMember
  refine .keeps_bind (.query _) fun _ => .keeps_bind (.ofExcept _) fun _ => ?_
  refine .keeps_bind .get fun host => .keeps_bind (.require _ _) fun _ => ?_
  refine .ite (.of_keeps (.pure _)) ?_
  exact .keeps_bind (onKeys_filed _) fun _ => bootstrapMember_rewrites env document

private theorem attachAdmission_rewrites (env : HostEnv) (metadata : VaultMetadata) :
    Rewrites (attachAdmission env metadata) := by
  intro host
  unfold attachAdmission
  refine .get (.require (fun _ => .refl _) fun _ => .modify (undo_rewrites ?_ fun _ => rfl))
  refine .require (fun _ => .refl _) fun _ => publishState_rewrites env ?_ rfl
  unfold adoptAdmission
  split <;> rfl

private theorem setAdmission_rewrites (env : HostEnv) (metadata : VaultMetadata) :
    Rewrites (setAdmission env metadata) := by
  intro host
  unfold setAdmission
  refine .query (fun _ _ => .refl _) fun _ _ => .get (.require (fun _ => .refl _) fun _ => ?_)
  exact publishState_rewrites env rfl rfl

private theorem takeOnlineControl_rewrites (env : HostEnv) (recipient : PeerId) :
    Rewrites (takeOnlineControl env recipient) := by
  intro host
  unfold takeOnlineControl
  refine .query (fun _ _ => .refl _) fun _ _ => .query (fun _ _ => .refl _) fun _ _ => ?_
  refine .query (fun _ _ => .refl _) fun _ _ => .query (fun _ _ => .refl _) fun session _ => .get ?_
  refine .ite (fun _ => .pure (.refl _)) fun _ => ?_
  unfold takePending
  have resealed : Action.Keeps HostService.filed (resealLive session recipient) := fun _ => rfl
  refine .keeps resealed (fun _ _ _ kept => kept ▸ .refl _) fun _ live _ kept => .get ?_
  exact .next (publishState_rewrites env (congrArg Filed.shown kept) kept) (fun _ _ known => known)
    fun _ _ known => .pure known

private theorem appendMailbox_rewrites (env : HostEnv) (recipient : PeerId) (fileId : FileId)
    (index : Nat) : Rewrites (appendMailbox env recipient fileId index) := by
  intro host
  unfold appendMailbox
  refine .query (fun _ _ => .refl _) fun _ _ => .query (fun _ _ => .refl _) fun _ _ => ?_
  refine .query (fun _ _ => .refl _) fun manifest _ => .ofExcept (fun _ _ => .refl _)
    fun chunkId _ => ?_
  refine .keeps refreshMailboxes_filed (fun _ _ _ kept => kept ▸ .refl _) fun _ fresh _ isFresh => ?_
  unfold queueSlot
  refine .query (fun _ _ => isFresh ▸ .refl _) fun session _ => ?_
  refine .query (fun _ _ => isFresh ▸ .refl _) fun plaintext _ => ?_
  refine .get (.keeps (onKeys_filed _) (fun _ _ _ kept => (kept.trans isFresh) ▸ .refl _)
    fun _ gated _ isGated => ?_)
  refine .keeps (onKeys_filed _)
    (fun _ _ _ kept => ((kept.trans isGated).trans isFresh) ▸ .refl _) fun frame sent _ isSent => ?_
  have known := (isSent.trans isGated).trans isFresh
  refine .ofExcept (fun _ _ => known ▸ .refl _) fun queuedAt _ => ?_
  refine .ofExcept (fun _ _ => known ▸ .refl _) fun envelope _ => ?_
  exact undo_rewrites (publishState_rewrites env (congrArg Filed.shown isFresh) known)
    (reopenGates_filed _)

private theorem acknowledgeFlush_rewrites (env : HostEnv) (peer : PeerId)
    (prepared : PreparedHostFlush) : Rewrites (acknowledgeFlush env peer prepared) := by
  intro host
  unfold acknowledgeFlush
  refine .query (fun _ _ => .refl _) fun _ _ => .get (.require (fun _ => .refl _) fun _ => ?_)
  refine .require (fun _ => .refl _) fun _ => .require (fun _ => .refl _) fun _ => ?_
  refine .next (publishState_rewrites env rfl rfl) (fun _ _ known => known) fun _ _ known => ?_
  exact .modify known

private theorem acknowledgeApplied_rewrites (env : HostEnv) (peer : PeerId) (through : Nat) :
    Rewrites (acknowledgeApplied env peer through) := by
  intro host
  unfold acknowledgeApplied
  refine .query (fun _ _ => .refl _) fun _ _ => .query (fun _ _ => .refl _) fun _ _ => .get ?_
  refine .require (fun _ => .refl _) fun _ => .ite (fun _ => .pure (.refl _)) fun _ => ?_
  exact publishState_rewrites env rfl rfl

def HostOp.Carries (host : HostService) : HostOp → Manifest → Prop
  | .commit _ manifest, other => other = manifest
  | .fanOutControl _ _ update, other => update = .newManifest other
  | .commitWriterUpload _ _ manifest _ _, other => other = manifest
  | .saveFile env writer path bodies, other => ∃ sender fileId link, writer.peerId = .ok sender ∧
      prepareSave env host.state.tree host.state.manifests writer sender path bodies =
        .ok (fileId, other, link)
  | _, _ => False

/-- A method writes only manifests that `new` holds of. -/
def Writes {α : Type} (new : Manifest → Prop) (x : Action Error HostService α)
    (host : HostService) : Prop :=
  Action.Ensures x host fun _ t => host.filed.Recorded new t.filed

namespace Writes

variable {α β : Type} {new : Manifest → Prop} {host : HostService}

omit [Primitives] in
theorem of_rewrites {x : Action Error HostService α} (h : Rewrites x) : Writes new x host :=
  Action.Ensures.mono (h host) fun _ _ rewritten => rewritten.recorded

omit [Primitives] in
theorem of_keeps {x : Action Error HostService α} (h : Action.Keeps HostService.filed x) :
    Writes new x host := .of_rewrites (.of_keeps h)

omit [Primitives] in
theorem query {g : HostService → Result α} {f : α → Action Error HostService β}
    (h : ∀ a, g host = .ok a → Writes new (f a) host) : Writes new (Action.query g >>= f) host :=
  Action.Ensures.query (fun _ _ => .refl _) h

omit [Primitives] in
theorem ofExcept {y : Result α} {f : α → Action Error HostService β}
    (h : ∀ a, y = .ok a → Writes new (f a) host) : Writes new (Action.ofExcept y >>= f) host :=
  Action.Ensures.ofExcept (fun _ _ => .refl _) h

omit [Primitives] in
theorem before {x : Action Error HostService α} {f : α → Action Error HostService β}
    (hx : Writes new x host) (hf : ∀ a, Action.Keeps HostService.filed (f a)) :
    Writes new (x >>= f) host := by
  refine .next hx (fun _ _ known => known) fun a t known => ?_
  have same : (f a t).2.filed = t.filed := hf a t
  change host.filed.Recorded new (f a t).2.filed
  rw [same]
  exact known

omit [Primitives] in
theorem discard {x : Action Error HostService α} (h : Writes new x host) :
    Writes new (Host.discard x) host := h.before fun _ => .pure _

omit [Primitives] in
theorem mono {other : Manifest → Prop} {x : Action Error HostService α} (h : Writes new x host)
    (imp : ∀ manifest, new manifest → other manifest) : Writes other x host :=
  Action.Ensures.mono h fun _ _ recorded => recorded.mono imp

end Writes

theorem commitManifest_writes (env : HostEnv) (manifest : Manifest) {host : HostService}
    (direct : host.deferPersistence = false) :
    Writes (fun other => other = manifest) (commitManifest env manifest) host := by
  refine (commitManifest_outcome env manifest host).mono fun r t outcome => ?_
  obtain ⟨_, same, _⟩ | outcome := outcome
  · exact .of_eq (congrArg View.filed same)
  · refine outcome.recorded direct fun next commits => commits.within.mono fun other isNew => ?_
    exact (ControlUpdate.newManifest.inj isNew).symm

theorem kickWithCode_writes (env : HostEnv) (target : PeerId) (code : Option JoinCode)
    {host : HostService} (direct : host.deferPersistence = false) :
    Writes (fun _ => False) (kickWithCode env target code) host := by
  refine .query fun _ _ => .query fun _ member => .get ?_
  refine Action.Ensures.require (fun _ => .refl _) fun notHost => ?_
  have accepts : host.view.content.Accepts host.view.world (.kick target) :=
    ⟨ensure_eq_ok.mp member, notHost⟩
  refine Writes.before ?_ fun _ => ?_
  · refine (commit_outcome env (fun _ absurd => by cases absurd) code host accepts).mono
      fun r t outcome => outcome.recorded direct fun next commits => ?_
    exact commits.within.mono nofun
  · refine .bind (.modify fun t => ?_) fun _ => .bind (.modify fun _ => rfl) fun _ => ?_
    · exact congrArg View.filed (noteRecentOp_view _ _ _ t)
    · exact .bind (onKeys_filed _) fun _ => .pure _

theorem fanOutControl_writes (env : HostEnv) (sender : PeerId) (update : ControlUpdate)
    {host : HostService} (direct : host.deferPersistence = false) :
    Writes (fun manifest => update = .newManifest manifest) (fanOutControl env sender update) host := by
  cases kicked : kickedBy update with
  | none =>
    refine (fanOutControl_outcome env sender kicked host).mono fun r t outcome => ?_
    obtain ⟨_, _, _, same, _⟩ | outcome := outcome
    · exact .of_eq (congrArg View.filed same)
    · exact outcome.recorded direct fun next commits => commits.within
  | some target =>
    cases update with
    | kick peer =>
      refine .query fun _ _ => .query fun _ _ => .get ?_
      refine Action.Ensures.require (fun _ => .refl _) fun _ => ?_
      have kicks : Writes (fun manifest => ControlUpdate.kick peer = .newManifest manifest)
          (commitInstruction env (.kick peer)) host :=
        .before ((kickWithCode_writes env peer none direct).mono fun _ => False.elim)
          fun _ => .pure _
      refine Writes.before kicks fun _ => .modify fun t => ?_
      exact congrArg View.filed (noteRecentOp_view _ _ _ t)
    | _ => cases kicked

theorem commitWriterUpload_writes (env : HostEnv) (sender : PeerId) (manifest : Manifest)
    (bodies : Map Nat Bytes) (link : Option ControlUpdate) {host : HostService}
    (direct : host.deferPersistence = false) :
    Writes (fun other => other = manifest)
      (commitWriterUpload env sender manifest bodies link) host := by
  refine (commitWriterUpload_outcome env sender manifest bodies link host).mono
    fun r t outcome => ?_
  obtain ⟨isLink, u, beside, outcome⟩ | ⟨same, _⟩ := outcome
  · have recorded : u.filed.Recorded (fun other => other = manifest) t.view.filed := by
      refine outcome.recorded (beside.deferred.trans direct) ?_
      rintro next ⟨staged, uploads, documents, _, rfl⟩
      have within : Within _ _ staged.manifests := uploads.within isLink
      exact within
    rw [beside.filed] at recorded
    exact recorded
  · exact .of_eq (congrArg View.filed same)

theorem perform_writes (op : HostOp) (notRestart : ∀ env keys members, op ≠ .restart env keys members)
    {host : HostService} (direct : host.deferPersistence = false) :
    Writes (op.Carries host) op.perform host := by
  cases op with
  | addMember env document => exact .of_rewrites (addMember_rewrites env document)
  | commit env manifest => exact commitManifest_writes env manifest direct
  | kick env target code => exact (kickWithCode_writes env target code direct).discard
  | fanOutControl env sender update => exact fanOutControl_writes env sender update direct
  | mkdir env sender path =>
    refine .discard (.query fun _ _ => .query fun _ _ => .query fun _ _ => .ofExcept fun _ _ => ?_)
    exact .before ((fanOutControl_writes env sender _ direct).mono nofun) fun _ => .pure _
  | linkFile env sender path child =>
    refine .query fun _ _ => .query fun _ _ => .query fun _ _ => ?_
    exact (fanOutControl_writes env sender _ direct).mono nofun
  | unlink env sender path =>
    refine .query fun _ _ => .query fun _ _ => .query fun _ _ => ?_
    exact (fanOutControl_writes env sender _ direct).mono nofun
  | rename env sender source destination =>
    refine .query fun _ _ => .query fun _ _ => .query fun _ _ => .query fun _ _ => ?_
    exact (fanOutControl_writes env sender _ direct).mono nofun
  | commitWriterUpload env sender manifest bodies link =>
    exact commitWriterUpload_writes env sender manifest bodies link direct
  | saveFile env writer path bodies =>
    refine .discard (.query fun _ _ => .ofExcept fun sender isSender => .query fun _ _ => ?_)
    refine .query fun (fileId, manifest, link) prepared => ?_
    refine .before ((commitWriterUpload_writes env sender manifest _ link direct).mono ?_)
      fun _ => .pure _
    rintro _ rfl
    exact ⟨sender, fileId, link, isSender, prepared⟩
  | attachAdmission env metadata => exact .of_rewrites (attachAdmission_rewrites env metadata)
  | setAdmission env metadata => exact .of_rewrites (setAdmission_rewrites env metadata)
  | heartbeat env peer ttl =>
    exact .of_keeps ((heartbeat_keeps env peer ttl).map View.filed)
  | takeOnlineControl env recipient =>
    exact .discard (.of_rewrites (takeOnlineControl_rewrites env recipient))
  | refreshMailboxes => exact .of_keeps refreshMailboxes_filed
  | appendMailbox env recipient fileId index =>
    exact .of_rewrites (appendMailbox_rewrites env recipient fileId index)
  | issueFlushChallenge env recipient =>
    refine .discard (.of_keeps ?_)
    exact fun t => (issueFlushChallenge_aside env recipient t).filed
  | prepareFlush peer challenge signature =>
    refine .discard (.of_keeps ?_)
    exact (prepareFlush_keeps peer challenge signature).map View.filed
  | acknowledgeFlush env peer prepared =>
    exact .of_rewrites (acknowledgeFlush_rewrites env peer prepared)
  | acknowledgeApplied env peer through =>
    exact .of_rewrites (acknowledgeApplied_rewrites env peer through)
  | putChunk env fileId index plaintext =>
    refine .discard (Action.Ensures.mono (onChunks_put env.files fileId index plaintext host) ?_)
    exact fun _ t grown => .of_eq (grown.1.filed grown.2.2)
  | stop => exact .of_keeps fun _ => rfl
  | rekey keys =>
    refine .of_eq ?_
    change (replaceService _ host).2.filed = host.filed
    unfold replaceService
    split
    · rename_i replaced
      obtain ⟨_, _, same⟩ := Result.bind_eq_ok.mp replaced
      obtain rfl := Except.ok.inj same
      rfl
    · rfl
  | resume keys =>
    refine .of_eq ?_
    change (replaceService _ host).2.filed = host.filed
    unfold replaceService
    split
    · rename_i replaced
      obtain ⟨_, _, resumed⟩ := Result.bind_eq_ok.mp replaced
      change View.filed (HostService.view _) = _
      rw [(resume_view resumed).2]
      rfl
    · rfl
  | restart env keys members => exact absurd rfl (notRestart env keys members)

theorem openDurable_filed {env : HostEnv} {keys : KeyStore} {disk : DurableStore}
    {root : FileId} {members : OrdSet PeerId} {host : HostService}
    (h : openDurable env keys disk root members = .ok host) :
    host.filed.shown = (disk.replicaFile.map fun file => file.2.manifests).getD ∅ ∧
      ∀ manifests, host.filed.stored = some manifests → manifests = host.filed.shown := by
  unfold openDurable at h
  obtain ⟨⟨opened, stored, chunks⟩, isOpened, h⟩ := Result.bind_eq_ok.mp h
  obtain ⟨hostId, _, h⟩ := Result.bind_eq_ok.mp h
  obtain ⟨_, _, h⟩ := Result.bind_eq_ok.mp h
  obtain ⟨_, _, h⟩ := Result.bind_eq_ok.mp h
  obtain ⟨tree, _, h⟩ := Result.bind_eq_ok.mp h
  obtain ⟨gateOwner, _, h⟩ := Result.bind_eq_ok.mp h
  obtain ⟨isStored, sameFile, -⟩ := DurableStore.open_eq_ok isOpened
  generalize base : serviceOf keys _ _ = service at h
  have known : service.filed.shown =
      (disk.replicaFile.map fun file => file.2.manifests).getD ∅ := by
    rw [← base]
    change (stored.getD _).manifests = _
    cases file : disk.replicaFile with
    | none =>
      rw [file] at isStored
      obtain rfl := Except.ok.inj isStored
      rfl
    | some snapshot =>
      rw [file] at isStored
      obtain ⟨metadata, isRead, rfl⟩ := Result.mapM_some_eq_ok.mp isStored
      obtain ⟨tree, -, -, rfl⟩ := ReplicaMetadata.reread_eq_ok.mp isRead
      rfl
  have onDisk : service.filed.stored = disk.replicaFile.map fun file => file.2.manifests := by
    rw [← base]
    change opened.replicaFile.map _ = _
    rw [sameFile]
  have gated : Action.Keeps HostService.filed gateMailboxes :=
    fun t => congrArg View.filed (view_of_frame (gateMailboxes_keeps t))
  have outcome : Action.Ensures (gateMailboxes >>= fun _ => publishFresh env stored.isNone) service
      fun _ t => service.filed.Rewritten t.filed := by
    refine .keeps gated (fun _ _ _ kept => kept ▸ .refl _) fun _ gated _ kept => ?_
    unfold publishFresh
    refine .get (.ite (fun _ => ?_) fun _ => .pure (kept ▸ .refl _))
    exact publishState_rewrites env (congrArg Filed.shown kept) kept
  rw [Action.Ensures, returned_eq_ok h] at outcome
  refine ⟨outcome.1.trans known, fun manifests written => ?_⟩
  obtain same | fresh := outcome.2
  · rw [same, onDisk] at written
    rw [outcome.1, known, written]
    rfl
  · exact (Option.some.inj (fresh.symm.trans written)).symm.trans outcome.1.symm

def versionOf (manifests : Map FileId Manifest) (fileId : FileId) : Nat :=
  (manifests[fileId]?.map fun manifest => manifest.version.val).getD 0

def versionAfter (manifests : Map FileId Manifest) : Option FileId → Result Nat
  | some fileId => nextVersion manifests fileId
  | none => pure 1

/-- `JoinedPeer::save_file`: what a member sends to the host, decided on its own replica.
A random id is drawn also where the path has one. -/
def prepareMemberSave (env : HostEnv) (host : PeerId) (tree : DirectoryTree)
    (manifests : Map FileId Manifest) (writer : KeyStore) (path : String) (bodies : List Bytes) :
    Result (FileId × Manifest × Option ControlUpdate) := do
  writer.requireLiveTraffic host
  let (parent, name) ← tree.resolveParent path
  let existing := (tree.resolve path).toOption
  ensure (existing.all fun id => !tree.isDir id) (.invalidInput "cannot save a directory")
  let version ← versionAfter manifests existing
  let drawn ← randomBytes env.fileId
  let fileId := existing.getD drawn
  let sender ← writer.peerId
  let manifest ← signManifest writer sender fileId version bodies
  pure (fileId, manifest, match existing with
    | some _ => none
    | none => some (.link parent name fileId false))

def countsFrom (tree : DirectoryTree) (manifests : Map FileId Manifest) (path : String) : Nat :=
  match (tree.resolve path).toOption with
  | some id => versionOf manifests id
  | none => 0

/-- A host, and every manifest it has made current, in this order. -/
structure Ledger where
  host : HostService
  accepted : List (FileId × Manifest)

inductive VaultOp where
  /-- A member saves a path; its replica may be behind. -/
  | memberSave (env : HostEnv) (host : PeerId) (tree : DirectoryTree)
      (manifests : Map FileId Manifest) (writer : KeyStore) (path : String) (bodies : List Bytes)
  | atHost (op : HostOp)

def VaultOp.hostOp : VaultOp → Option HostOp
  | .memberSave env host tree manifests writer path bodies =>
    match prepareMemberSave env host tree manifests writer path bodies with
    | .ok (_, manifest, link) =>
      some (.commitWriterUpload env manifest.writerId manifest (indexed bodies) link)
    | .error _ => none
  | .atHost op => some op

def Ledger.record (ledger : Ledger) (next : HostService) : Ledger where
  host := next
  accepted := ledger.accepted ++ next.state.manifests.toList.filter fun entry =>
    ledger.host.state.manifests[entry.1]? ≠ some entry.2

def ledgers : Machine Ledger VaultOp where
  exec := fun op ledger =>
    match op.hostOp with
    | some op => ledger.record (machine.exec op ledger.host)
    | none => ledger

namespace Ledger

/-- The versions of each file grow. -/
def Increasing (ledger : Ledger) : Prop :=
  ledger.accepted.Pairwise fun earlier later => earlier.1 = later.1 →
    earlier.2.version < later.2.version

instance (ledger : Ledger) : Decidable ledger.Increasing :=
  inferInstanceAs (Decidable (List.Pairwise _ _))

def AtMost (ledger : Ledger) (fileId : FileId) (version : Nat) : Prop :=
  ∀ entry ∈ ledger.accepted, entry.1 = fileId → entry.2.version.val ≤ version

/-- Every accepted version of the file is below the one of the manifest. -/
def Newer (ledger : Ledger) (fileId : FileId) (manifest : Manifest) : Prop :=
  ∀ entry ∈ ledger.accepted, entry.1 = fileId → entry.2.version < manifest.version

/-- A save starts from the last accepted version. A manifest that is sent as it is has a
higher one, or is current already. -/
def UpToDate (ledger : Ledger) : VaultOp → Prop
  | .memberSave env host tree manifests writer path bodies => ∀ fileId manifest link,
      prepareMemberSave env host tree manifests writer path bodies = .ok (fileId, manifest, link) →
        ledger.AtMost fileId (countsFrom tree manifests path)
  | .atHost (.saveFile env writer path bodies) => ∀ sender fileId manifest link,
      prepareSave env ledger.host.state.tree ledger.host.state.manifests writer sender path bodies =
        .ok (fileId, manifest, link) →
          ledger.AtMost fileId (versionOf ledger.host.state.manifests fileId)
  | .atHost op => ∀ manifest, op.Carries ledger.host manifest →
      ledger.host.state.manifests[manifest.fileId]? = some manifest ∨
        ledger.Newer manifest.fileId manifest

end Ledger

omit [Primitives] in
theorem val_ofNat_of_le {n : Nat} (h : n ≤ u64Max) : (Fin.ofNat (2 ^ 64) n).val = n :=
  Nat.mod_eq_of_lt (by unfold u64Max at h; omega)

section

variable {env : HostEnv} {host sender : PeerId} {tree : DirectoryTree}
  {manifests : Map FileId Manifest} {writer : KeyStore} {path : String} {bodies : List Bytes} {fileId : FileId}
  {manifest : Manifest} {link : Option ControlUpdate} {version : Nat}

theorem signManifest_eq_ok (h : signManifest writer sender fileId version bodies = .ok manifest) :
    manifest.fileId = fileId ∧ manifest.version = Fin.ofNat _ version := by
  unfold signManifest at h
  obtain ⟨_, _, h⟩ := Result.bind_eq_ok.mp h
  obtain ⟨_, _, h⟩ := Result.bind_eq_ok.mp h
  obtain ⟨_, _, h⟩ := Result.bind_eq_ok.mp h
  obtain rfl := Except.ok.inj h
  exact ⟨rfl, rfl⟩

omit [Primitives] in
theorem nextVersion_eq_ok (h : nextVersion manifests fileId = .ok version) :
    version = versionOf manifests fileId + 1 ∧ version ≤ u64Max := by
  unfold nextVersion at h
  unfold versionOf
  cases found : manifests[fileId]? with
  | none =>
    rw [found] at h
    obtain rfl := Except.ok.inj h
    exact ⟨rfl, by decide⟩
  | some manifest =>
    rw [found] at h
    obtain ⟨bounded, rfl⟩ := checkedAdd_eq_ok.mp h
    exact ⟨rfl, bounded⟩

theorem prepareSave_version
    (h : prepareSave env tree manifests writer sender path bodies = .ok (fileId, manifest, link)) :
    manifest.fileId = fileId ∧ manifest.version.val = versionOf manifests fileId + 1 := by
  have rest : ∀ chosen, (do
      let version ← nextVersion manifests chosen
      let manifest ← signManifest writer sender chosen version bodies
      let link ← newLink tree path (tree.resolve path).toOption chosen
      pure (chosen, manifest, link)) = Except.ok (fileId, manifest, link) →
      manifest.fileId = fileId ∧ manifest.version.val = versionOf manifests fileId + 1 := by
    intro chosen h
    obtain ⟨version, counted, h⟩ := Result.bind_eq_ok.mp h
    obtain ⟨_, isSigned, h⟩ := Result.bind_eq_ok.mp h
    obtain ⟨_, _, h⟩ := Result.bind_eq_ok.mp h
    simp only [pure, Except.pure, Except.ok.injEq, Prod.mk.injEq] at h
    obtain ⟨rfl, rfl, rfl⟩ := h
    obtain ⟨isFile, isVersion⟩ := signManifest_eq_ok isSigned
    obtain ⟨next, bounded⟩ := nextVersion_eq_ok counted
    refine ⟨isFile, ?_⟩
    rw [isVersion, val_ofNat_of_le bounded, next]
  unfold prepareSave at h
  obtain ⟨_, _, h⟩ := Result.bind_eq_ok.mp h
  obtain ⟨_, _, h⟩ := Result.bind_eq_ok.mp h
  dsimp only at h
  split at h <;> obtain ⟨chosen, _, h⟩ := Result.bind_eq_ok.mp h <;> exact rest chosen h

theorem prepareMemberSave_version
    (h : prepareMemberSave env host tree manifests writer path bodies =
      .ok (fileId, manifest, link)) :
    manifest.fileId = fileId ∧ manifest.version.val = countsFrom tree manifests path + 1 := by
  unfold prepareMemberSave at h
  obtain ⟨_, _, h⟩ := Result.bind_eq_ok.mp h
  obtain ⟨_, _, h⟩ := Result.bind_eq_ok.mp h
  obtain ⟨_, _, h⟩ := Result.bind_eq_ok.mp h
  obtain ⟨version, counted, h⟩ := Result.bind_eq_ok.mp h
  obtain ⟨drawn, _, h⟩ := Result.bind_eq_ok.mp h
  obtain ⟨_, _, h⟩ := Result.bind_eq_ok.mp h
  obtain ⟨_, isSigned, h⟩ := Result.bind_eq_ok.mp h
  simp only [pure, Except.pure, Except.ok.injEq, Prod.mk.injEq] at h
  obtain ⟨rfl, rfl, rfl⟩ := h
  obtain ⟨isFile, isVersion⟩ := signManifest_eq_ok isSigned
  have next : version = countsFrom tree manifests path + 1 ∧ version ≤ u64Max := by
    unfold countsFrom
    cases found : (tree.resolve path).toOption with
    | none =>
      rw [found] at counted
      obtain rfl := Except.ok.inj counted
      exact ⟨rfl, by decide⟩
    | some id =>
      rw [found] at counted
      exact nextVersion_eq_ok counted
  refine ⟨isFile, ?_⟩
  rw [isVersion, val_ofNat_of_le next.2, next.1]

end

namespace Ledger

variable {ledger : Ledger} {fileId : FileId} {manifest : Manifest}

omit [Primitives] in
theorem AtMost.newer {version : Nat} (h : ledger.AtMost fileId version)
    (next : manifest.version.val = version + 1) : ledger.Newer fileId manifest := by
  intro entry isEntry isFile
  have below := h entry isEntry isFile
  exact Fin.lt_def.mpr (by omega)

/-- The host shows the last version of each file: none was unlinked. -/
def Shown (ledger : Ledger) : Prop :=
  ∀ entry ∈ ledger.accepted, entry.2.version.val ≤ versionOf ledger.host.state.manifests entry.1

instance (ledger : Ledger) : Decidable ledger.Shown := inferInstanceAs (Decidable (∀ _ ∈ _, _))

theorem Shown.upToDate {env : HostEnv} {writer : KeyStore} {path : String} {bodies : List Bytes}
    (h : ledger.Shown) : ledger.UpToDate (.atHost (.saveFile env writer path bodies)) := by
  intro sender fileId manifest link _ entry isEntry isFile
  rw [← isFile]
  exact h entry isEntry

theorem UpToDate.newer {op : VaultOp} {hostOp : HostOp} (h : ledger.UpToDate op)
    (isOp : op.hostOp = some hostOp) (carried : hostOp.Carries ledger.host manifest) :
    ledger.host.state.manifests[manifest.fileId]? = some manifest ∨
      ledger.Newer manifest.fileId manifest := by
  cases op with
  | memberSave env host tree manifests writer path bodies =>
    cases prepared : prepareMemberSave env host tree manifests writer path bodies with
    | error _ =>
      simp only [VaultOp.hostOp, prepared] at isOp
      cases isOp
    | ok sent =>
      obtain ⟨fileId, sent, link⟩ := sent
      simp only [VaultOp.hostOp, prepared] at isOp
      obtain rfl := Option.some.inj isOp
      obtain rfl : manifest = sent := carried
      obtain ⟨rfl, next⟩ := prepareMemberSave_version prepared
      exact .inr (AtMost.newer (h _ _ _ prepared) next)
  | atHost op =>
    obtain rfl := Option.some.inj isOp
    cases op with
    | saveFile env writer path bodies =>
      obtain ⟨sender, fileId, link, _, prepared⟩ := carried
      obtain ⟨rfl, next⟩ := prepareSave_version prepared
      exact .inr (AtMost.newer (h _ _ _ _ prepared) next)
    | _ => exact h manifest carried

/-- Each manifest is shown already or is newer than all that was accepted of its file. -/
def Continues (ledger : Ledger) (manifests : Map FileId Manifest) : Prop :=
  ∀ (fileId : FileId) (manifest : Manifest), manifests[fileId]? = some manifest →
    ledger.host.state.manifests[fileId]? = some manifest ∨ ledger.Newer fileId manifest

theorem UpToDate.continues {op : VaultOp} {hostOp : HostOp} {manifests : Map FileId Manifest}
    (h : ledger.UpToDate op) (isOp : op.hostOp = some hostOp)
    (within : Within (hostOp.Carries ledger.host) ledger.host.state.manifests manifests) :
    ledger.Continues manifests := by
  intro fileId manifest found
  obtain old | ⟨carried, rfl⟩ := within fileId manifest found
  · exact .inl old
  · exact h.newer isOp carried

/-- The versions grow, also over the snapshot that a restart would bring back. -/
structure Ordered (ledger : Ledger) : Prop where
  inv : Inv nobody (fun _ => True) ledger.host.view
  increasing : ledger.Increasing
  stored : ∀ manifests, ledger.host.filed.stored = some manifests → ledger.Continues manifests

omit [Primitives] in
theorem Increasing.record {next : HostService} (increasing : ledger.Increasing)
    (newer : ledger.Continues next.state.manifests) : (ledger.record next).Increasing := by
  refine List.pairwise_append.mpr ⟨increasing, ?_, fun earlier isEarlier later isLater same => ?_⟩
  · -- one step makes one manifest of a file current
    refine (List.Pairwise.filter _ (Map.toList_sorted _)).imp fun below same => ?_
    exact absurd same (ne_of_lt below)
  · obtain ⟨found, isNew⟩ := List.mem_filter.mp isLater
    obtain old | isNewer := newer later.1 later.2 (Map.mem_toList.mp found)
    · exact absurd old (of_decide_eq_true isNew)
    · exact isNewer earlier isEarlier same

omit [Primitives] in
theorem record_same {next : HostService}
    (same : next.state.manifests = ledger.host.state.manifests) :
    (ledger.record next).accepted = ledger.accepted := by
  change ledger.accepted ++ _ = _
  rw [List.filter_eq_nil_iff.mpr, List.append_nil]
  intro entry found isNew
  rw [same] at found
  exact of_decide_eq_true isNew (Map.mem_toList.mp found)

omit [Primitives] in
theorem Continues.record {next : HostService} {manifests : Map FileId Manifest}
    (h : ledger.Continues manifests)
    (same : next.state.manifests = ledger.host.state.manifests) :
    (ledger.record next).Continues manifests := by
  intro fileId manifest found
  obtain old | newer := h fileId manifest found
  · exact .inl (same ▸ old)
  · refine .inr fun entry isEntry => newer entry ?_
    rw [record_same same] at isEntry
    exact isEntry

theorem Ordered.restarted (ordered : ledger.Ordered) (env : HostEnv) (keys : KeyStore)
    (members : OrdSet PeerId) :
    let next := machine.exec (.restart env keys members) ledger.host
    ledger.Continues next.state.manifests ∧
      ∀ manifests, next.filed.stored = some manifests → (ledger.record next).Continues manifests := by
  have unchanged : ledger.Continues ledger.host.state.manifests := fun _ _ found => .inl found
  simp only [machine, HostOp.perform]
  unfold replaceService
  split
  · rename_i next restarted
    obtain ⟨_, _, restarted⟩ := Result.bind_eq_ok.mp restarted
    obtain ⟨disk, isDisk, restarted⟩ := Result.bind_eq_ok.mp restarted
    obtain ⟨shown, stored⟩ := openDurable_filed restarted
    refine ⟨fun fileId manifest found => ?_, fun manifests isStored fileId manifest found => ?_⟩
    · have onDisk : ledger.host.filed.stored =
          disk.replicaFile.map fun file => file.2.manifests := by
        unfold HostService.filed View.filed HostService.view
        rw [okOr_eq_ok.mp isDisk]
        rfl
      change next.filed.shown[fileId]? = some manifest at found
      rw [shown] at found
      cases isFile : disk.replicaFile with
      | none =>
        rw [isFile] at found
        exact absurd found (by simp)
      | some file =>
        rw [isFile] at found
        exact ordered.stored file.2.manifests (by rw [onDisk, isFile]; rfl) fileId manifest found
    · rw [stored manifests isStored] at found
      exact .inl found
  · exact ⟨unchanged, fun manifests isStored => (ordered.stored manifests isStored).record rfl⟩

theorem Ordered.step {op : VaultOp} (ordered : ledger.Ordered) (upToDate : ledger.UpToDate op) :
    (ledgers.exec op ledger).Ordered := by
  change Ordered (match op.hostOp with
    | some op => ledger.record (machine.exec op ledger.host)
    | none => ledger)
  split
  · rename_i hostOp isOp
    have inv := (ordered.inv.perform Stable.trivial hostOp).1
    by_cases restart : ∃ env keys members, hostOp = .restart env keys members
    · obtain ⟨env, keys, members, rfl⟩ := restart
      obtain ⟨shown, stored⟩ := ordered.restarted env keys members
      exact ⟨inv, ordered.increasing.record shown, stored⟩
    · have notRestart : ∀ env keys members, hostOp ≠ .restart env keys members :=
        fun env keys members same => restart ⟨env, keys, members, same⟩
      have recorded : ledger.host.filed.Recorded (hostOp.Carries ledger.host)
          (machine.exec hostOp ledger.host).filed :=
        perform_writes hostOp notRestart ordered.inv.direct
      refine ⟨inv, ordered.increasing.record (upToDate.continues isOp recorded.shown),
        fun manifests isStored => ?_⟩
      obtain ⟨old, same⟩ | ⟨within, same | shown⟩ := recorded.stored manifests isStored
      · exact (ordered.stored manifests (old.symm.trans isStored)).record same
      · exact (upToDate.continues isOp within).record same
      · intro fileId manifest found
        rw [← shown] at found
        exact .inl found
  · exact ordered

end Ledger

/-- Versions grow in every run in which each save starts from the last accepted version. -/
theorem versions_increase {start : HostService} (fresh : Fresh start) (ops : List VaultOp)
    (upToDate : ledgers.Along Ledger.UpToDate ops ⟨start, []⟩) :
    ledgers.Throughout Ledger.Increasing ops ⟨start, []⟩ := by
  have inv : Inv nobody (fun _ => True) start.view :=
    fresh.inv Stable.trivial.toSettled fun _ _ _ _ => True.intro
  have initially : Ledger.Ordered ⟨start, []⟩ := ⟨inv, .nil, fun _ _ _ _ _ => .inr nofun⟩
  have ordered := ledgers.throughout_of_step (fun _ _ => Ledger.Ordered.step) ops _ initially upToDate
  exact ordered.mono fun _ => Ledger.Ordered.increasing

section

open NonceReuse (alice bob aliceStore)

/-- Alice saves the file on her host. -/
def aliceSaves (body : Bytes) : VaultOp := .atHost (.saveFile calmEnv (aliceStore 1) "/n" [body])

omit [Primitives] in
/-- What Alice's host shows after the first save, as Bob's replica has it. -/
def firstSave : HostState :=
  letI := Primitives.plain
  (machine.run [.saveFile calmEnv (aliceStore 1) "/n" [[1]]] aliceHost).state

omit [Primitives] in
/-- Bob saves the file on a replica that has only the first version. -/
def staleSave : VaultOp :=
  .memberSave calmEnv alice.document.peerId firstSave.tree firstSave.manifests
    (NonceReuse.knowing bob alice) "/n" [[3]]

omit [Primitives] in
private theorem aliceSaves_shown :
    letI := Primitives.plain
    (ledgers.exec (aliceSaves [1]) ⟨aliceHost, []⟩).Shown := by
  decide +kernel

omit [Primitives] in
/-- Alice saves on her own host, which has the last version. -/
theorem versions_increase_two_saves :
    letI := Primitives.plain
    let ops := [aliceSaves [1], aliceSaves [2]]
    (ledgers.run ops ⟨aliceHost, []⟩).accepted.map (fun entry => entry.2.version.val) = [1, 2] ∧
      ledgers.Throughout Ledger.Increasing ops ⟨aliceHost, []⟩ :=
  letI := Primitives.plain
  ⟨by decide +kernel, versions_increase aliceHost_fresh _
    ⟨Ledger.Shown.upToDate nofun, aliceSaves_shown.upToDate, True.intro⟩⟩

omit [Primitives] in
/-- Bob saves on top of the first version while Alice's second one is accepted. -/
theorem version_reused_by_stale_save :
    letI := Primitives.plain
    let ledger := ledgers.run [aliceSaves [1], aliceSaves [2], staleSave] ⟨aliceHost, []⟩
    Fresh aliceHost ∧ ¬ ledger.Increasing ∧
      ledger.accepted.map (fun entry => entry.2.version.val) = [1, 2, 2] ∧
      (ledger.accepted.map fun entry => entry.2.chunkIds).Nodup :=
  letI := Primitives.plain
  ⟨aliceHost_fresh, by decide +kernel, by decide +kernel, by decide +kernel⟩

end

end QuantumFs.Host
