import QuantumFs.Host.Run
import QuantumFs.Member.Denied

/-! A denial lasts. Over any run of a member, its restarts included, a denied peer stays denied
and is no member, unless a batch is committed that was prepared before the denial. -/
namespace QuantumFs.Member

open Lib Encoding Crypto Store Host

variable [Primitives]

/-- A commit comes in time if its batch knows what has been denied since it was prepared. -/
def Timely (client : Client) : MemberOp → Prop
  | .commit _ index => ∀ prepared, client.prepared[index]? = some prepared →
      ∀ peer ∈ client.replica.state.denied, peer ∈ prepared.staged.denied
  | _ => True

structure Client.Sound (client : Client) : Prop where
  replica : client.replica.Sound
  prepared : ∀ prepared ∈ client.prepared, prepared.staged.Apart

/-- One step of a client: it stays sound and takes no denial back. -/
structure Client.Guards (before after : Client) : Prop where
  sound : after.Sound
  denied : ∀ peer ∈ before.replica.state.denied, peer ∈ after.replica.state.denied

section

variable {replica : MemberReplica}

omit [Primitives] in
theorem newInVault_sound {keys : KeyStore} {hostId : PeerId} {members : OrdSet PeerId}
    {root : FileId} (h : newInVault keys hostId members ⟨∅, none⟩ root = .ok replica) :
    replica.Sound := by
  unfold newInVault at h
  obtain ⟨_, _, h⟩ := Result.bind_eq_ok.mp h
  obtain ⟨_, _, h⟩ := Result.bind_eq_ok.mp h
  obtain ⟨_, _, h⟩ := Result.bind_eq_ok.mp h
  obtain ⟨metadata, isMetadata, h⟩ := Result.bind_eq_ok.mp h
  obtain rfl := Except.ok.inj h
  have snapshots := (metadataFor_eq_ok isMetadata).1
  refine ⟨fun peer _ => OrdSet.not_mem_empty peer, fun other isOther => ?_, fun other isOther => ?_,
    fun isDurable => ?_⟩
  · obtain rfl := Option.some.inj isOther
    exact snapshots
  · cases isOther
  · cases isDurable

theorem openEmpty_sound {env : MemberEnv} {keys : KeyStore} {disk : DurableStore} {root : FileId}
    {hostId : PeerId} {members : OrdSet PeerId} (empty : disk.replicaFile = none)
    (h : openDurable env keys disk root hostId members = .ok replica) : replica.Sound := by
  obtain ⟨opened, stored, chunks, localId, tree, isOpened, applied⟩ := openDurable_eq_ok h
  obtain ⟨isStored, -, -⟩ := DurableStore.open_eq_ok isOpened
  rw [empty] at isStored
  obtain rfl : none = stored := Except.ok.inj isStored
  generalize isBase : restored keys hostId localId root opened
    (Option.getD none { ReplicaMetadata.new root with members }) tree chunks = base at applied
  have outcome := applyStaged_outcome env base.state base
  unfold Action.Ensures at outcome
  have isApplied : applyStaged env base.state base = (.ok (), replica) := applied
  rw [isApplied] at outcome
  have durable : replica.disk.isSome = true := by
    rw [outcome.durable, ← isBase]
    rfl
  have nothing : base.state.denied = ∅ := by
    rw [← isBase]
    rfl
  obtain ⟨failed, -⟩ | ⟨shown, -, stored⟩ := outcome.shown
  · exact absurd rfl failed
  have noneDenied : replica.state.denied = ∅ := shown.denied.trans nothing
  have apart : replica.state.Apart := by
    intro peer _
    rw [noneDenied]
    exact OrdSet.not_mem_empty peer
  obtain noDisk | ⟨written, isWritten, snapshots⟩ := stored
  · rw [noDisk] at durable
    cases durable
  have same : Snapshots replica.state written :=
    ⟨snapshots.1.trans shown.members.symm, snapshots.2.trans shown.denied.symm⟩
  refine ⟨apart, fun other isOther => ?_, fun other isOther => ?_, fun _ => ?_⟩
  · obtain ⟨members, denied⟩ := shown.cached other isOther
    exact ⟨members.trans shown.members.symm, denied.trans shown.denied.symm⟩
  · obtain rfl := Option.some.inj (isOther.symm.trans isWritten)
    refine ⟨fun peer known => ?_, same.apart apart⟩
    rw [same.2]
    exact known
  · rw [isWritten]
    rfl

theorem Fresh.sound (fresh : Fresh replica) : replica.Sound := by
  cases fresh with
  | memory isNew => exact newInVault_sound isNew
  | durable empty isOpened => exact openEmpty_sound empty isOpened

end

section

variable {client : Client}

omit [Primitives] in
theorem Client.Sound.guards (sound : client.Sound) {replica : MemberReplica}
    (guards : Member.Guards client.replica replica) :
    client.Guards { client with replica } :=
  ⟨⟨guards.sound, sound.prepared⟩, guards.denied⟩

theorem prepare_guards (sound : client.Sound) (env : MemberEnv) (envelopes : List MailboxEnvelope)
    (history : List IdentityDocument) (bootstrapThrough : Option Nat) (session : PairSession) :
    client.Guards
      (clients.exec (.prepare env envelopes history bootstrapThrough session) client) := by
  have visible := prepareMailboxForSession_visible env envelopes history bootstrapThrough session
    client.replica
  have revokes := prepareMailboxForSession_revokes env envelopes history bootstrapThrough session
    client.replica
  unfold Action.Ensures at revokes
  simp only [clients, MemberOp.exec]
  generalize prepareMailboxForSession env envelopes history bootstrapThrough session client.replica =
    result at visible revokes
  obtain ⟨r, replica⟩ := result
  have guards := Guards.of_visible sound.replica visible
  cases r with
  | error e => exact sound.guards guards
  | ok prepared =>
    refine ⟨⟨guards.sound, fun other mem => ?_⟩, guards.denied⟩
    obtain mem | mem := List.mem_append.mp mem
    · exact sound.prepared other mem
    · obtain rfl := List.mem_singleton.mp mem
      exact (revokes other rfl).apart sound.replica.apart

theorem commit_guards (sound : client.Sound) (env : MemberEnv) (index : Nat)
    (timely : Timely client (.commit env index)) :
    client.Guards (clients.exec (.commit env index) client) := by
  simp only [clients, MemberOp.exec]
  cases found : client.prepared[index]? with
  | none => exact ⟨sound, fun _ known => known⟩
  | some prepared =>
    have apart := sound.prepared prepared (List.mem_of_getElem? found)
    have guards := commitPrepared_guards env prepared sound.replica apart (timely prepared found)
    exact ⟨⟨guards.sound, fun other mem => sound.prepared other (List.mem_of_mem_eraseIdx mem)⟩,
      guards.denied⟩

theorem reopened_guards {env : MemberEnv} {keys : KeyStore} {initialMembers : OrdSet PeerId}
    {before after : MemberReplica} (sound : before.Sound)
    (h : reopened env keys initialMembers before = .ok after) : Guards before after := by
  unfold reopened at h
  obtain ⟨_, _, h⟩ := Result.bind_eq_ok.mp h
  obtain ⟨disk, isDisk, h⟩ := Result.bind_eq_ok.mp h
  refine openDurable_guards sound ?_ h
  cases known : before.disk with
  | none =>
    rw [known] at isDisk
    cases isDisk
  | some other =>
    rw [known] at isDisk
    exact congrArg some (Except.ok.inj isDisk)

theorem exec_guards (sound : client.Sound) (op : MemberOp) (timely : Timely client op) :
    client.Guards (clients.exec op client) := by
  cases op with
  | other op => exact sound.guards (op.guards sound.replica)
  | applyControl env packet => exact sound.guards (applyControl_guards env packet sound.replica)
  | prepare env envelopes history bootstrapThrough session =>
    exact prepare_guards sound env envelopes history bootstrapThrough session
  | commit env index => exact commit_guards sound env index timely
  | finishReceipts => exact sound.guards (.of_visible sound.replica rfl)
  | rekey keys =>
    simp only [clients, MemberOp.exec]
    split
    · rename_i same
      refine sound.guards (.of_visible sound.replica ?_)
      unfold MemberReplica.visible MemberReplica.stored
      rw [same]
    · exact ⟨sound, fun _ known => known⟩
  | restart env keys initialMembers =>
    simp only [clients, MemberOp.exec]
    cases isReopened : reopened env keys initialMembers client.replica with
    | error e => exact ⟨sound, fun _ known => known⟩
    | ok replica =>
      have guards := reopened_guards sound.replica isReopened
      exact ⟨⟨guards.sound, by simp⟩, guards.denied⟩

end

theorem Client.Sound.run {ops : List MemberOp} : ∀ {client : Client}, client.Sound →
    clients.Along Timely ops client → client.Guards (clients.run ops client) := by
  induction ops with
  | nil => exact fun sound _ => ⟨sound, fun _ known => known⟩
  | cons op ops ih =>
    intro client sound along
    have first := exec_guards sound op along.1
    have rest := ih first.sound along.2
    exact ⟨rest.sound, fun peer known => rest.denied peer (first.denied peer known)⟩

theorem commitPrepared_denied {env : MemberEnv} {prepared : PreparedReplicaFlush}
    {replica : MemberReplica} (done : (commitPrepared env prepared replica).1.isOk = true) :
    (commitPrepared env prepared replica).2.state.denied = prepared.staged.denied := by
  have outcome : Action.Ensures (commitPrepared env prepared) replica fun r after =>
      r.isOk = true → after.state.denied = prepared.staged.denied := by
    unfold commitPrepared
    refine .get (.ofExcept (fun _ _ failed => ?_) fun _ _ => .require (fun _ failed => ?_) fun _ => ?_)
    · cases failed
    · cases failed
    refine .next (applyStaged_outcome env prepared.staged replica) (fun _ _ _ failed => ?_)
      fun _ after applied => .pure fun _ => ?_
    · cases failed
    · obtain ⟨failed, -⟩ | ⟨shown, -⟩ := applied.shown
      · exact absurd rfl failed
      · exact shown.denied
  exact outcome done

/-- Whatever a member does from its first start on, restarts included, as long as no batch is
committed that was prepared before a denial: a peer denied once stays denied and is no member.
No other commit keeps the denials. -/
theorem denials_last {replica : MemberReplica} (fresh : Fresh replica)
    (earlier later : List MemberOp) (timely : clients.Along Timely (earlier ++ later) ⟨replica, []⟩) :
    (∀ peer ∈ (clients.run earlier ⟨replica, []⟩).replica.state.denied,
      let s := (clients.run (earlier ++ later) ⟨replica, []⟩).replica.state
      peer ∈ s.denied ∧ peer ∉ s.members) ∧
    ∀ env index prepared, let client := clients.run (earlier ++ later) ⟨replica, []⟩
      client.prepared[index]? = some prepared →
      (commitPrepared env prepared client.replica).1.isOk = true →
      ((∀ peer ∈ client.replica.state.denied,
          peer ∈ (clients.exec (.commit env index) client).replica.state.denied) ↔
        Timely client (.commit env index)) := by
  obtain ⟨before, after⟩ := (clients.along_append earlier later _).mp timely
  have initial : Client.Sound ⟨replica, []⟩ := ⟨fresh.sound, by simp⟩
  have first := initial.run before
  have rest := first.sound.run after
  rw [← clients.run_append] at rest
  refine ⟨fun peer known => ?_, ?_⟩
  · have isDenied := rest.denied peer known
    exact ⟨isDenied, fun isMember => rest.sound.replica.apart peer isMember isDenied⟩
  · intro env index prepared client found done
    have shown : (clients.exec (.commit env index) client).replica.state.denied =
        prepared.staged.denied := by
      simp only [clients, MemberOp.exec, found]
      exact commitPrepared_denied done
    rw [shown]
    constructor
    · intro known other isOther
      obtain rfl := Option.some.inj (found.symm.trans isOther)
      exact known
    · exact fun timely => timely prepared found

section

open NonceReuse (alice bob)

omit [Primitives]

def carol : LocalIdentity :=
  letI := Primitives.plain
  (LocalIdentity.new [5] [6] 0).toOption.get (by decide +kernel)

/-- Bob knows Carol's document, so that only the denial can keep her out. -/
def openBob : Result MemberReplica :=
  letI := Primitives.plain
  let keys := NonceReuse.knowing bob alice
  newInVault { keys with peers := keys.peers.insert carol.document.peerId carol.document }
    alice.document.peerId (pairOf alice.document.peerId bob.document.peerId) ⟨∅, none⟩ ⟨3⟩

def bobReplica : MemberReplica := openBob.toOption.get (by decide +kernel)

def bobEnv : MemberEnv := ⟨calmEnv.keys, calmEnv.files⟩

def deniesCarol : MemberOp :=
  .other (.reconcileMembers bobEnv (pairOf alice.document.peerId bob.document.peerId)
    (OrdSet.ofList [carol.document.peerId]))

/-- A list of members that the host could have sent before. -/
def admitsCarol : MemberOp :=
  .other (.addMembers bobEnv
    ((pairOf alice.document.peerId bob.document.peerId).insert carol.document.peerId))

/-- Carol could become a member of Bob's replica, but not once she is denied. -/
theorem denials_last_carol :
    letI := Primitives.plain
    let admitted := (clients.run [admitsCarol] ⟨bobReplica, []⟩).replica.state
    let denied := (clients.run [deniesCarol, admitsCarol] ⟨bobReplica, []⟩).replica.state
    carol.document.peerId ∈ admitted.members ∧
      carol.document.peerId ∈ denied.denied ∧ carol.document.peerId ∉ denied.members :=
  letI := Primitives.plain
  have isOpen : openBob = .ok bobReplica := eq_ok_of_get _
  ⟨by decide +kernel, (denials_last (.memory isOpen) [deniesCarol] [admitsCarol]
    ⟨trivial, trivial, trivial⟩).1 carol.document.peerId (by decide +kernel)⟩

end

end QuantumFs.Member
