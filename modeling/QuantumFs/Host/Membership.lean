import QuantumFs.Host.Availability

/-! Members and denied peers. A kicked member never comes back: not by an
admission, not by a restart and not by what it still sends. -/
namespace QuantumFs.Host

open Lib Encoding Crypto Store

namespace Content

variable [Primitives]

/-- Nobody is a member and denied. The admission is attached, so no list of denied
peers is taken over any more. -/
structure Apart (c : Content) : Prop where
  admitted : c.admission.isSome = true
  disjoint : ∀ peer ∈ c.members, peer ∉ c.denied

/-- The state of a vault after a kick: the target is denied, has no position, and
has written nothing since `first`. -/
structure Banned (target : PeerId) (first : Nat) (known : Map FileId Manifest) (c : Content) :
    Prop extends Apart c where
  denied : target ∈ c.denied
  acked : c.ackedThrough[target]? = none
  bootstrap : c.bootstrapThrough[target]? = none
  later : first ≤ c.nextControl
  log : ∀ record ∈ c.log, ∀ manifest, record.update = .newManifest manifest →
    manifest.writerId = target → record.id < first
  manifests : ∀ (fileId : FileId) (manifest : Manifest), c.manifests[fileId]? = some manifest →
    manifest.writerId = target → known[fileId]? = some manifest

variable {c staged : Content} {target : PeerId} {first : Nat} {known : Map FileId Manifest}

omit [Primitives] in
theorem Banned.outside (banned : c.Banned target first known) : target ∉ c.members :=
  fun member => banned.disjoint target member banned.denied

omit [Primitives] in
theorem mem_dropMember {kicked : Option PeerId} {peer : PeerId} :
    peer ∈ (c.dropMember kicked).members ↔ peer ∈ c.members ∧ kicked ≠ some peer := by
  cases kicked with
  | none => simp [dropMember]
  | some target =>
    change peer ∈ c.members.erase target ↔ _
    rw [OrdSet.mem_erase]
    constructor
    · exact fun known => ⟨known.2, fun same => known.1 (Option.some.inj same)⟩
    · exact fun known => ⟨fun same => known.2 (congrArg some same), known.1⟩

omit [Primitives] in
theorem denied_dropMember {kicked : Option PeerId} {peer : PeerId} :
    peer ∈ (c.dropMember kicked).denied ↔ kicked = some peer ∨ peer ∈ c.denied := by
  cases kicked with
  | none => simp [dropMember]
  | some target =>
    change peer ∈ c.denied.insert target ↔ _
    rw [OrdSet.mem_insert, Option.some.injEq]

omit [Primitives] in
theorem Apart.commit (apart : c.Apart) {update : ControlUpdate} {live : PeerId → Bool}
    {admission : Option VaultMetadata} (admitted : admission.isSome = c.admission.isSome)
    (h : c.commit update live admission = .ok staged) : staged.Apart := by
  obtain ⟨tree, removed, _, _, _, rfl⟩ := commit_eq_ok h
  refine ⟨admitted.trans apart.admitted, fun peer member denied => ?_⟩
  obtain ⟨member, other⟩ := mem_dropMember.mp member
  obtain same | denied := denied_dropMember.mp denied
  · exact other same
  · exact apart.disjoint peer member denied

omit [Primitives] in
theorem Apart.enrol (apart : c.Apart) {document : IdentityDocument}
    (allowed : document.peerId ∉ c.denied) (documents : Map PeerId IdentityDocument)
    (records : List ControlRecord) : (c.withMember document documents records).Apart := by
  refine ⟨apart.admitted, fun peer member => ?_⟩
  obtain rfl | member := (OrdSet.mem_insert _ _ _).mp member
  · exact allowed
  · exact apart.disjoint peer member

omit [Primitives] in
theorem Apart.settle (apart : c.Apart) (documents : Map PeerId IdentityDocument) :
    (c.settle documents).Apart := by
  refine ⟨?_, apart.disjoint⟩
  change (c.admission.map _).isSome = true
  rw [Option.isSome_map]
  exact apart.admitted

end Content

variable [Primitives]

theorem stable_apart : Stable nobody Content.Apart where
  outside := fun _ isBarred => isBarred.elim
  put := fun _ apart put => by
    cases put with
    | mk fileId index plaintext _ _ => exact { apart with }
  commit := fun _ _ apart _ _ admitted committed => apart.commit admitted committed
  settle := fun _ _ apart _ => apart.settle _
  enrol := fun _ _ apart _ allowed _ _ _ => apart.enrol allowed _ _
  acknowledge := fun _ apart _ _ _ => { apart with }
  drain := fun _ apart _ => { apart with }
  take := fun _ _ apart => { apart with }
  append := fun _ apart _ _ _ _ => { apart with }
  attach := fun _ _ apart unset => by
    have attached := apart.admitted
    rw [unset] at attached
    cases attached
  admission := fun _ _ apart => { apart with admitted := rfl }
  retain := fun _ apart _ => { apart with }
  resumed := fun _ apart => { apart with }
  restored := fun _ _ apart _ => { apart with }

namespace Content

variable {c staged next : Content} {target : PeerId} {first : Nat} {known : Map FileId Manifest}

theorem Banned.commit (banned : c.Banned target first known) (sound : c.Sound) {world : World}
    {update : ControlUpdate} {live : PeerId → Bool} {admission : Option VaultMetadata}
    (accepts : c.Accepts world update) (admitted : admission.isSome = c.admission.isSome)
    (h : c.commit update live admission = .ok staged) : staged.Banned target first known := by
  have apart := banned.toApart.commit admitted h
  have isHost : c.hostId ≠ target := by
    rintro rfl
    exact banned.outside sound.host
  -- A manifest of the target would need its membership.
  have stranger : ∀ manifest, update = .newManifest manifest → manifest.writerId ≠ target := by
    rintro manifest rfl rfl
    exact banned.outside (AcceptsManifest.member accepts)
  obtain ⟨tree, removed, _, _, _, rfl⟩ := commit_eq_ok h
  refine { apart with
    denied := denied_dropMember.mpr (.inr banned.denied)
    acked := ?_
    bootstrap := ?_
    later := Nat.le_succ_of_le banned.later
    log := ?_
    manifests := ?_ }
  · dsimp only
    rw [Map.get_insert_ne _ _ isHost]
    cases kickedBy update with
    | none => exact banned.acked
    | some peer =>
      change (c.ackedThrough.erase peer)[target]? = none
      rw [Map.get_erase, banned.acked, ite_self]
  · dsimp only
    cases kickedBy update with
    | none => exact banned.bootstrap
    | some peer =>
      change (c.bootstrapThrough.erase peer)[target]? = none
      rw [Map.get_erase, banned.bootstrap, ite_self]
  · intro record mem manifest isManifest byTarget
    obtain old | new := List.mem_append.mp mem
    · exact banned.log record old manifest isManifest byTarget
    · obtain rfl := List.mem_singleton.mp new
      exact absurd byTarget (stranger manifest isManifest)
  · intro fileId manifest found byTarget
    obtain ⟨_, ⟨isManifest, _⟩ | ⟨found, _⟩⟩ := manifestsAfter_eq_some.mp found
    · exact absurd byTarget (stranger manifest isManifest)
    · exact banned.manifests fileId manifest found byTarget

omit [Primitives] in
theorem Banned.enrol (banned : c.Banned target first known) {document : IdentityDocument}
    (allowed : document.peerId ∉ c.denied) (documents : Map PeerId IdentityDocument)
    (records : List ControlRecord) :
    (c.withMember document documents records).Banned target first known := by
  refine { banned with
    toApart := banned.toApart.enrol allowed documents records
    bootstrap := ?_ }
  have other : document.peerId ≠ target := fun same => allowed (same ▸ banned.denied)
  exact (Map.get_insert_ne _ _ other).trans banned.bootstrap

omit [Primitives] in
theorem Banned.raise (banned : c.Banned target first known) {peer : PeerId}
    (other : peer ≠ target) (through : Nat) : (c.raiseAck peer through).Banned target first known :=
  { banned with acked := (Map.get_insert_ne _ _ other).trans banned.acked }

omit [Primitives] in
theorem Banned.drain (banned : c.Banned target first known) {peer : PeerId}
    (other : peer ≠ target) : (c.drained peer).Banned target first known := by
  refine { banned.raise other (c.drainedThrough peer) with bootstrap := ?_ }
  exact (Map.get_erase_ne _ other).trans banned.bootstrap

end Content

theorem stable_banned (target : PeerId) (first : Nat) (known : Map FileId Manifest) :
    Stable (fun peer => peer = target) (Content.Banned target first known) where
  outside := fun banned isTarget => isTarget ▸ banned.outside
  put := fun _ banned put => by
    cases put with
    | mk fileId index plaintext _ _ => exact { banned with }
  commit := fun _ sound banned accepts _ admitted committed =>
    banned.commit sound accepts admitted committed
  settle := fun _ _ banned _ => { banned with
    toApart := banned.toApart.settle _
    log := fun record mem => banned.log record (List.mem_filter.mp mem).1 }
  enrol := fun _ _ banned _ allowed _ _ _ => banned.enrol allowed _ _
  acknowledge := fun _ banned member _ _ =>
    banned.raise (fun same => banned.outside (same ▸ member)) _
  drain := fun _ banned other => banned.drain other
  take := fun _ _ banned => { banned with }
  append := fun _ banned _ _ _ _ => { banned with }
  attach := fun _ _ banned unset => by
    have attached := banned.admitted
    rw [unset] at attached
    cases attached
  admission := fun _ _ banned => { banned with admitted := rfl }
  retain := fun _ banned _ => { banned with }
  resumed := fun _ banned => { banned with }
  restored := fun _ _ banned _ => { banned with }

theorem kickWithCode_done (env : HostEnv) (target : PeerId) (code : Option JoinCode)
    (host : HostService) :
    Action.Ensures (kickWithCode env target code) host fun r t => ∀ a, r = .ok a →
      ∃ next x, Content.Commits host.view.world (.kick target) host.view.content next.content ∧
        Published host.view next x ∧ Beside x t.view ∧ t.view.challenged target = false := by
  unfold kickWithCode
  refine .query (fun _ _ _ => nofun) fun _ _ => ?_
  refine .query (fun _ _ _ => nofun) fun _ member => .get ?_
  refine .require (fun _ _ => nofun) fun notHost => ?_
  have accepts : host.view.content.Accepts host.view.world (.kick target) :=
    ⟨ensure_eq_ok.mp member, notHost⟩
  refine .bind ((commit_outcome env (fun _ absurd => by cases absurd) code host accepts).mono
    fun r x outcome => ?_)
  cases r with
  | error e => exact fun _ => nofun
  | ok _ =>
    obtain ⟨next, commits, published⟩ := outcome.published
    have erased := eraseChallenge_aside target
      (noteRecentOp env host.state.hostId host.state.nextControl x)
    have dropped : Beside x.view (HostService.view (dropMember target
        (noteRecentOp env host.state.hostId host.state.nextControl x))) := by
      rw [← noteRecentOp_view env host.state.hostId host.state.nextControl x]
      exact erased
    have closed : (HostService.view (dropMember target (noteRecentOp env host.state.hostId
        host.state.nextControl x))).challenged target = false := by
      change (Std.ExtTreeMap.erase _ target).contains target = false
      rw [Std.ExtTreeMap.contains_erase]
      simp
    refine .modify (.modify (.next (R := fun _ t => Beside x.view t.view ∧
      t.challenges.contains target = false) ⟨?_, ?_⟩ ?_ ?_))
    · exact dropped.trans (discardPair_aside env.keys target _)
    · exact closed
    · exact fun _ _ _ _ => nofun
    · exact fun _ t known _ _ => ⟨next, _, commits, published, known.1, known.2⟩

theorem Content.Banned.of_commits {world : World} {c next : Content} {target : PeerId}
    (apart : c.Apart) (sound : c.Sound) (h : Content.Commits world (.kick target) c next) :
    next.Banned target next.nextControl next.manifests := by
  have nextSound := (sound.commits h).1
  obtain ⟨accepts, live, admission, staged, documents, _, admitted, committed, _, rfl⟩ := h
  have stagedApart := apart.commit admitted committed
  obtain ⟨tree, removed, _, _, _, rfl⟩ := Content.commit_eq_ok committed
  refine { stagedApart.settle documents with
    denied := Content.denied_dropMember.mpr (.inl rfl)
    acked := ?_
    bootstrap := ?_
    later := le_refl _
    log := ?_
    manifests := fun _ _ found _ => found }
  · change ((c.ackedThrough.erase target).insert c.hostId c.nextControl)[target]? = none
    rw [Map.get_insert_ne _ _ accepts.2.symm, Map.get_erase, if_pos rfl]
  · change (c.bootstrapThrough.erase target)[target]? = none
    rw [Map.get_erase, if_pos rfl]
  · intro record mem _ _ _
    exact Contiguous.below nextSound.log mem

/-- The operations that kick a member, on its own or as an instruction of the host. -/
def HostOp.kicks : HostOp → Option PeerId
  | .kick _ target _ => some target
  | .fanOutControl _ _ (.kick target) => some target
  | _ => none

theorem Inv.kicked {host : HostService} (inv : Inv nobody Content.Apart host.view)
    {env : HostEnv} {target : PeerId} {code : Option JoinCode} {a : PeerId}
    (done : (kickWithCode env target code host).1 = .ok a) :
    let next := (kickWithCode env target code host).2
    Inv (fun peer => peer = target)
      (Content.Banned target next.state.nextControl next.state.manifests) next.view := by
  obtain ⟨next, x, commits, published, beside, closed⟩ :=
    kickWithCode_done env target code host a done
  have reached := inv.reached stable_apart (Steps.of_commits commits)
  have banned := Content.Banned.of_commits inv.holds inv.sound commits
  have content : x.content.nextControl = next.content.nextControl ∧
      x.content.manifests = next.content.manifests := by
    cases published <;> exact ⟨rfl, rfl⟩
  have published := (inv.published
    (stable_banned target next.content.nextControl next.content.manifests).toSettled
    { reached with holds := banned } published).1
  have after := published.beside (fun _ isBarred => isBarred.elim) beside
  have nextControl : (kickWithCode env target code host).2.state.nextControl =
      next.content.nextControl := by
    rw [← content.1, ← beside.content]
    rfl
  have manifests : (kickWithCode env target code host).2.state.manifests =
      next.content.manifests := by
    rw [← content.2, ← beside.content]
    rfl
  dsimp only
  rw [nextControl, manifests]
  exact { after with unchallenged := fun peer isTarget => isTarget ▸ closed }

theorem HostOp.kicks_view {op : HostOp} {target : PeerId} (isKick : op.kicks = some target)
    (host : HostService) :
    Action.Ensures op.perform host fun r t => r = .ok () → ∃ env code a,
      (kickWithCode env target code host).1 = .ok a ∧
        t.view = (kickWithCode env target code host).2.view := by
  cases op with
  | kick env peer code =>
    obtain rfl := Option.some.inj isKick
    exact .next (R := fun r t => r = (kickWithCode env peer code host).1 ∧
      t = (kickWithCode env peer code host).2) ⟨rfl, rfl⟩ (fun _ _ _ => nofun)
      fun a t known _ => ⟨env, code, a, known.1.symm, congrArg _ known.2⟩
  | fanOutControl env sender update =>
    cases update with
    | kick peer =>
      obtain rfl := Option.some.inj isKick
      refine (?_ : Action.Ensures (Host.fanOutControl env sender (.kick peer)) host _)
      unfold Host.fanOutControl
      refine .query (fun _ _ => nofun) fun _ _ => .query (fun _ _ => nofun) fun _ _ => .get ?_
      refine .require (fun _ => nofun) fun _ => ?_
      refine .next (R := fun r t => r = .ok () → ∃ a, (kickWithCode env peer none host).1 = .ok a ∧
        t = (kickWithCode env peer none host).2) ?_ (fun _ _ _ => nofun) fun _ t known _ => ?_
      · exact .next (R := fun r t => r = (kickWithCode env peer none host).1 ∧
          t = (kickWithCode env peer none host).2) ⟨rfl, rfl⟩ (fun _ _ _ => nofun)
          fun a t known _ => ⟨a, known.1.symm, known.2⟩
      · obtain ⟨a, kicked, rfl⟩ := known rfl
        exact ⟨env, none, a, kicked, noteRecentOp_view _ _ _ _⟩
    | _ => cases isKick
  | _ => cases isKick

theorem Inv.kicks {host : HostService} (inv : Inv nobody Content.Apart host.view) {op : HostOp}
    {target : PeerId} (isKick : op.kicks = some target) (done : (op.perform host).1 = .ok ()) :
    let next := (op.perform host).2
    Inv (fun peer => peer = target)
      (Content.Banned target next.state.nextControl next.state.manifests) next.view := by
  obtain ⟨env, code, a, kicked, view⟩ := HostOp.kicks_view isKick host done
  have banned := inv.kicked kicked
  have content := congrArg View.content view
  have nextControl : (op.perform host).2.state.nextControl = _ := congrArg Content.nextControl content
  have manifests : (op.perform host).2.state.manifests = _ := congrArg Content.manifests content
  dsimp only
  rw [view, nextControl, manifests]
  exact banned

/-- Who an operation is made for: the sender of an instruction, the writer of a manifest, the
peer that is served, or the one that acknowledges. -/
def HostOp.actor : HostOp → Option PeerId
  | .addMember _ document => some document.peerId
  | .commit _ manifest => some manifest.writerId
  | .kick _ target _ => some target
  | .fanOutControl _ sender _ | .mkdir _ sender _ | .linkFile _ sender _ _ | .unlink _ sender _
  | .rename _ sender _ _ | .commitWriterUpload _ sender _ _ _ => some sender
  | .saveFile _ writer _ _ => some writer.localId
  | .heartbeat _ peer _ | .takeOnlineControl _ peer | .appendMailbox _ peer _ _
  | .issueFlushChallenge _ peer | .prepareFlush peer _ _ | .acknowledgeFlush _ peer _
  | .acknowledgeApplied _ peer _ => some peer
  | _ => none

def Refused {α : Type} (x : Action Error HostService α) (host : HostService) : Prop :=
  Action.Ensures x host fun r t => (∃ e, r = .error e) ∧ t = host

namespace Refused

variable {α β : Type} {host : HostService}

omit [Primitives] in
theorem discard {x : Action Error HostService α} (h : Refused x host) :
    Refused (Host.discard x) host := by
  refine .next h (fun e t known => ⟨⟨e, rfl⟩, known.2⟩) fun a t known => ?_
  obtain ⟨⟨e, failed⟩, _⟩ := known
  cases failed

omit [Primitives] in
theorem query {g : HostService → Result α} {f : α → Action Error HostService β}
    (h : ∀ a, g host = .ok a → Refused (f a) host) : Refused (Action.query g >>= f) host :=
  Action.Ensures.query (fun e _ => ⟨⟨e, rfl⟩, rfl⟩) h

omit [Primitives] in
theorem ofExcept {y : Result α} {f : α → Action Error HostService β}
    (h : ∀ a, y = .ok a → Refused (f a) host) : Refused (Action.ofExcept y >>= f) host :=
  Action.Ensures.ofExcept (fun e _ => ⟨⟨e, rfl⟩, rfl⟩) h

omit [Primitives] in
theorem require {p : Prop} [Decidable p] {e : Error} {f : Unit → Action Error HostService β}
    (h : ¬ p) : Refused (Action.require p e >>= f) host :=
  Action.Ensures.require (fun _ => ⟨⟨e, rfl⟩, rfl⟩) fun holds => absurd holds h

omit [Primitives] in
theorem get {f : HostService → Action Error HostService β} (h : Refused (f host) host) :
    Refused (Action.get >>= f) host := h

omit [Primitives] in
theorem member {peer : PeerId} {f : Unit → Action Error HostService β}
    (stranger : peer ∉ host.state.members) :
    Refused (Action.query (fun host => host.requireMember peer) >>= f) host :=
  query fun _ member => absurd (ensure_eq_ok.mp member) stranger

end Refused

omit [Primitives] in
theorem fanOutControl_refused [Primitives] (env : HostEnv) {sender : PeerId} (update : ControlUpdate)
    {host : HostService} (stranger : sender ∉ host.state.members) :
    Refused (fanOutControl env sender update) host :=
  .query fun _ _ => .member stranger

theorem perform_refused {host : HostService} {op : HostOp} {peer : PeerId}
    (isActor : op.actor = some peer) (denied : peer ∈ host.state.denied)
    (stranger : peer ∉ host.state.members)
    (unchallenged : host.challenges.contains peer = false) : Refused op.perform host := by
  cases op with
  | addMember env document =>
    obtain rfl := Option.some.inj isActor
    exact .query fun _ _ => .ofExcept fun _ _ => .get (.require fun allowed => allowed denied)
  | commit env manifest =>
    obtain rfl := Option.some.inj isActor
    refine .query fun _ _ => .query fun _ trusted => absurd ?_ stranger
    exact (verifyTrusted_eq_ok trusted).1
  | kick env target code =>
    obtain rfl := Option.some.inj isActor
    exact .discard (.query fun _ _ => .member stranger)
  | fanOutControl env sender update =>
    obtain rfl := Option.some.inj isActor
    exact fanOutControl_refused env update stranger
  | mkdir env sender path =>
    obtain rfl := Option.some.inj isActor
    exact .discard (.query fun _ _ => .member stranger)
  | linkFile env sender path child =>
    obtain rfl := Option.some.inj isActor
    exact .query fun _ _ => .member stranger
  | unlink env sender path =>
    obtain rfl := Option.some.inj isActor
    exact .query fun _ _ => .member stranger
  | rename env sender source destination =>
    obtain rfl := Option.some.inj isActor
    exact .query fun _ _ => .member stranger
  | commitWriterUpload env sender manifest bodies link =>
    obtain rfl := Option.some.inj isActor
    refine .query fun _ verified => absurd ?_ stranger
    obtain ⟨_, _, verified⟩ := Result.bind_eq_ok.mp verified
    obtain ⟨_, member, _⟩ := Result.bind_eq_ok.mp verified
    exact ensure_eq_ok.mp member
  | saveFile env writer path bodies =>
    obtain rfl := Option.some.inj isActor
    refine .discard (.query fun _ _ => .ofExcept fun sender isSender => .member ?_)
    obtain rfl := peerId_eq_ok isSender
    exact stranger
  | heartbeat env target ttl =>
    obtain rfl := Option.some.inj isActor
    exact .query fun _ _ => .member stranger
  | takeOnlineControl env recipient =>
    obtain rfl := Option.some.inj isActor
    exact .discard (.query fun _ _ => .member stranger)
  | appendMailbox env recipient fileId index =>
    obtain rfl := Option.some.inj isActor
    exact .query fun _ _ => .member stranger
  | issueFlushChallenge env recipient =>
    obtain rfl := Option.some.inj isActor
    exact .discard (.query fun _ _ => .member stranger)
  | prepareFlush target challenge signature =>
    obtain rfl := Option.some.inj isActor
    exact .discard (.query fun _ _ => .member stranger)
  | acknowledgeFlush env target prepared =>
    obtain rfl := Option.some.inj isActor
    refine .query fun _ _ => .get (.require fun open' => ?_)
    have challenged := (Map.contains_iff_get _ _).mpr ⟨_, open'.2⟩
    cases unchallenged.symm.trans challenged
  | acknowledgeApplied env target through =>
    obtain rfl := Option.some.inj isActor
    exact .query fun _ _ => .member stranger
  | _ => cases isActor

/-- `VaultHost::load_or_create` and `VaultHost::open_durable` without a vault file: the
generated admission denies nobody. -/
inductive FreshVault : HostService → Prop
  | mk {env : HostEnv} {bare host : HostService} {metadata : VaultMetadata} : Fresh bare →
      metadata.denied = ∅ → attachAdmission env metadata bare = (.ok (), host) → FreshVault host

def Content.Bare (c : Content) : Prop := c.denied = ∅ ∧ c.admission = none

omit [Primitives] in
theorem settled_bare [Primitives] : Settled Content.Bare where
  settle := fun {_ c _} _ _ bare _ => by
    refine ⟨bare.1, ?_⟩
    change c.admission.map _ = none
    rw [bare.2]
    rfl
  retain := fun _ bare _ => bare

theorem attachAdmission_done (env : HostEnv) (metadata : VaultMetadata) (host : HostService) :
    Action.Ensures (attachAdmission env metadata) host fun r t => r = .ok () →
      ∃ next, Settles host.view (adoptAdmission metadata host.state).content next.content ∧
        Published host.view next t.view := by
  unfold attachAdmission
  refine .get (.require (fun _ => nofun) fun _ => .modify (.orElseUndo ?_))
  have failed : ∀ (e : Error) {p : Prop}, (Except.error e : Result Unit) = .ok () → p := nofun
  refine .require (fun _ => failed _) fun _ => ?_
  refine (publishState_outcome env _ _).mono fun r t outcome => ?_
  cases r with
  | error e => exact failed e
  | ok _ =>
    obtain ⟨next, settles, published⟩ := outcome.2.published
    exact fun _ => ⟨next, settles, published⟩

theorem FreshVault.inv {host : HostService} (fresh : FreshVault host) :
    Inv nobody Content.Apart host.view := by
  obtain ⟨bare, nobodyDenied, attached⟩ := fresh
  rename_i env before metadata
  have inv : Inv nobody Content.Bare before.view := bare.inv settled_bare fun _ _ _ _ => ⟨rfl, rfl⟩
  have done := attachAdmission_done env metadata before
  rw [Action.Ensures, attached] at done
  obtain ⟨next, settles, published⟩ := done rfl
  have adopted : (adoptAdmission metadata before.state).content = { before.view.content with
      denied := OrdSet.extend before.view.content.denied metadata.denied
      admission := some metadata } := by
    have unset : before.state.admission = none := inv.holds.2
    unfold adoptAdmission
    rw [unset]
    rfl
  rw [adopted] at settles
  have living : Living nobody (fun _ => True) before.view := { inv with holds := True.intro }
  have reached := living.reached Stable.trivial ⟨_, .attach metadata inv.holds.2, settles⟩
  have apart : next.content.Apart := by
    obtain ⟨documents, _, same⟩ := settles
    rw [same]
    refine Content.Apart.settle ⟨rfl, fun peer _ denied => ?_⟩ documents
    obtain left | right := (OrdSet.mem_extend _ _ _).mp denied
    · rw [nobodyDenied] at left
      exact OrdSet.not_mem_empty _ left
    · rw [inv.holds.1] at right
      exact OrdSet.not_mem_empty _ right
  exact (living.published stable_apart.toSettled { reached with holds := apart } published).1

theorem kick_bars {start : HostService} (fresh : FreshVault start) (ops later : List HostOp)
    {op : HostOp} {target : PeerId} (isKick : op.kicks = some target)
    (done : (op.perform (machine.run ops start)).1 = .ok ()) :
    let kicked := machine.exec op (machine.run ops start)
    let host := machine.run later kicked
    host.state.content.Banned target kicked.state.nextControl kicked.state.manifests ∧
      host.state.content.Sound ∧ host.challenges.contains target = false := by
  intro kicked host
  have inv := (fresh.inv.run stable_apart ops).kicks isKick done
  have later := inv.run (stable_banned _ _ _) later
  exact ⟨later.holds, later.sound, later.unchallenged target rfl⟩

/-- A kick is for good: whatever follows it, the target is denied and no member, nothing waits for
it, it has no challenge, nothing of it is taken, and every call that is made for it fails without a
trace. -/
theorem kick_permanent {start : HostService} (fresh : FreshVault start) (ops later : List HostOp)
    {op : HostOp} {target : PeerId} (isKick : op.kicks = some target)
    (done : (op.perform (machine.run ops start)).1 = .ok ()) :
    let kicked := machine.exec op (machine.run ops start)
    let host := machine.run later kicked
    host.state.content.Banned target kicked.state.nextControl kicked.state.manifests ∧
      host.state.mailbox target = [] ∧ host.state.onlineRecords target = [] ∧
      host.challenges.contains target = false ∧ ∀ attempt : HostOp, attempt.actor = some target →
        (∃ e, (attempt.perform host).1 = .error e) ∧ (attempt.perform host).2 = host := by
  intro kicked host
  obtain ⟨banned, sound, unchallenged⟩ := kick_bars fresh ops later isKick done
  obtain ⟨mailbox, online⟩ := sound.outside target banned.outside
  refine ⟨banned, mailbox, online, unchallenged, fun attempt isActor => ?_⟩
  exact perform_refused isActor banned.denied banned.outside unchallenged

section

open NonceReuse (alice bob)

omit [Primitives] in
/-- Alice's vault with its admission, which denies nobody. -/
def aliceVault : HostService :=
  letI := Primitives.plain
  (attachAdmission calmEnv ⟨⟨3⟩, ⟨5⟩, 0, [], ∅⟩ aliceHost).2

omit [Primitives] in
theorem aliceVault_fresh : @FreshVault Primitives.plain aliceVault :=
  letI := Primitives.plain
  .mk aliceHost_fresh rfl (Prod.ext (by decide +kernel) rfl)

omit [Primitives] in
/-- Bob is kicked, asks for a challenge and to be admitted again, and Alice goes on without him. -/
theorem kick_permanent_readmission :
    letI := Primitives.plain
    let kicked := machine.exec (.kick calmEnv bob.document.peerId none) aliceVault
    let host := machine.run [.issueFlushChallenge calmEnv bob.document.peerId,
      .mkdir calmEnv alice.document.peerId "/docs", .addMember calmEnv bob.document] kicked
    (host.state.tree.resolve "/docs").toOption.isSome = true ∧ bob.document.peerId ∈ host.state.denied ∧
      host.challenges.contains bob.document.peerId = false ∧
      ∃ e, ((HostOp.mkdir calmEnv bob.document.peerId "/mine").perform host).1 = .error e := by
  let := Primitives.plain
  let later : List HostOp := [.issueFlushChallenge calmEnv bob.document.peerId,
    .mkdir calmEnv alice.document.peerId "/docs", .addMember calmEnv bob.document]
  obtain ⟨banned, -, -, unchallenged, refused⟩ := kick_permanent aliceVault_fresh [] later
    (show (HostOp.kick calmEnv bob.document.peerId none).kicks = some bob.document.peerId from rfl)
    (by decide +kernel)
  exact ⟨by decide +kernel, banned.denied, unchallenged,
    (refused (.mkdir calmEnv bob.document.peerId "/mine") rfl).1⟩

end

end QuantumFs.Host
