import QuantumFs.Member.Apply

/-! Reading a mailbox. Only receipts, counters and chunk files change before the batch is
committed. -/
namespace QuantumFs.Member

open Lib Encoding Crypto Store Host

/-- What others see of a replica, and what it would be after a restart. -/
structure Visible where
  hostId : PeerId
  expectedRoot : FileId
  identity : LocalIdentity
  onlineReceipts : List ControlPacket
  state : StagedReplica
  lastApplied : Nat
  stored : Option ReplicaMetadata
  durable : Bool

def MemberReplica.visible (replica : MemberReplica) : Visible where
  hostId := replica.hostId
  expectedRoot := replica.expectedRoot
  identity := replica.keys.identity
  onlineReceipts := replica.onlineReceipts
  state := replica.state
  lastApplied := replica.lastApplied
  stored := replica.stored
  durable := replica.disk.isSome

theorem onKeys_visible {α : Type} {x : Action Error KeyStore α}
    (h : Action.Keeps KeyStore.identity x) :
    Action.Keeps MemberReplica.visible (MemberReplica.onKeys x) := by
  intro replica
  have same : (x replica.keys).2.identity = replica.keys.identity := h replica.keys
  change Visible.mk _ _ (x replica.keys).2.identity _ _ _ _ _ = _
  rw [same]
  rfl

def diskFrame (files : Option DurableStore × ChunkStore) : Option ReplicaMetadata × Bool :=
  (snapshotIn files.1, files.1.isSome)

theorem onChunks_visible {α : Type} {x : Action Error (Option DurableStore × ChunkStore) α}
    (h : Action.Keeps diskFrame x) (chunks : ChunkStore) :
    Action.Keeps MemberReplica.visible (MemberReplica.onChunks chunks x) := by
  intro replica
  have same := h (replica.disk, chunks)
  unfold MemberReplica.onChunks
  generalize x (replica.disk, chunks) = result at same
  obtain ⟨r, disk, next⟩ := result
  have stored : snapshotIn disk = snapshotIn replica.disk := congrArg Prod.fst same
  have durable : disk.isSome = replica.disk.isSome := congrArg Prod.snd same
  have kept : MemberReplica.visible { replica with disk } = replica.visible := by
    unfold MemberReplica.visible MemberReplica.stored
    rw [stored, durable]
  cases r <;> exact kept

variable [Primitives]

theorem put_diskFrame (env : FileEnv) (fileId : FileId) (index : Nat) (plaintext : Bytes) :
    Action.Keeps diskFrame (ChunkStore.put env fileId index plaintext) := by
  rintro ⟨disk, chunks⟩
  have stocked := (ChunkStore.put_outcome env fileId index plaintext disk chunks).1
  generalize ChunkStore.put env fileId index plaintext (disk, chunks) = result at stocked
  obtain ⟨r, after, next⟩ := result
  change Option.Rel Stocked disk after at stocked
  cases stocked with
  | none => rfl
  | some stocked =>
    unfold diskFrame snapshotIn
    simp only [Option.bind_some, stocked.replica]
    rfl

theorem put_metadata (env : FileEnv) (fileId : FileId) (index : Nat) (plaintext : Bytes) :
    Action.Keeps (fun files : Option DurableStore × ChunkStore => files.2.metadata)
      (ChunkStore.put env fileId index plaintext) := by
  rintro ⟨disk, chunks⟩
  unfold ChunkStore.put
  dsimp only
  split
  · rfl
  cases disk with
  | none => rfl
  | some disk =>
    dsimp only
    split <;> rfl

theorem aeadOpen_identity (handle : PairKeyHandle) (bytes aad ciphertext : Bytes) :
    Action.Keeps KeyStore.identity (KeyStore.aeadOpen handle bytes aad ciphertext) := by
  unfold KeyStore.aeadOpen KeyStore.withPairState
  refine .bind (.query _) fun _ => .bind (.ofExcept _) fun _ => .bind (.query _) fun _ => ?_
  refine .bind .get fun _ => .bind (.require _ _) fun _ => .bind (.ofExcept _) fun _ => ?_
  exact fun _ => rfl

theorem openControl_identity (session : PairSession) (packet : ControlPacket) :
    Action.Keeps KeyStore.identity (openControl session packet) :=
  .bind (aeadOpen_identity _ _ _ _) fun _ => .ofExcept _

theorem openChunk_identity (session : PairSession) (frame : ChunkBodyFrame) (trusted : Manifest) :
    Action.Keeps KeyStore.identity (openChunk session frame trusted) := by
  refine .bind (aeadOpen_identity _ _ _ _) fun _ => .bind (.require _ _) fun _ => ?_
  exact .bind (.ofExcept _) fun _ => .bind (.require _ _) fun _ => .pure _

theorem openFrame_identity (session : PairSession) (staged : StagedReplica) (header : PacketHeader)
    (frame : MailboxFrame) : Action.Keeps KeyStore.identity (openFrame session staged header frame) := by
  cases frame with
  | control ciphertext => exact .bind (openControl_identity _ _) fun _ => .pure _
  | chunkBody fileId index ciphertext =>
    exact .bind (.ofExcept _) fun _ => .bind (openChunk_identity _ _ _) fun _ => .pure _

theorem openEnvelope_visible (session : PairSession) (staged : StagedReplica)
    (envelope : MailboxEnvelope) (frame : MailboxFrame) :
    Action.Keeps MemberReplica.visible (openEnvelope session staged envelope frame) := by
  refine .bind .get fun replica => ?_
  split
  · exact .pure _
  · refine .bind (onKeys_visible (openFrame_identity _ _ _ _)) fun _ => ?_
    exact .bind (.modify fun _ => rfl) fun _ => .pure _

theorem readEnvelope_visible (session : PairSession) (installing : Option Nat) (batch : Batch)
    (envelope : MailboxEnvelope) :
    Action.Keeps MemberReplica.visible (readEnvelope session installing batch envelope) := by
  refine .bind (.query _) fun _ => .bind (.ofExcept _) fun _ => .bind (.ofExcept _) fun _ => ?_
  exact .bind (openEnvelope_visible _ _ _ _) fun _ => .query _

theorem writeBody_diskFrame (env : MemberEnv) (staged : StagedReplica) (written : Nat)
    (body : FileId × Nat × Bytes) : Action.Keeps diskFrame (writeBody env staged written body) := by
  refine .bind .get fun files => .ite (.pure _) ?_
  exact .bind (put_diskFrame _ _ _ _) fun _ => .pure _

theorem finishBatch_visible (env : MemberEnv) (installing : Option Nat) (batch : Batch) :
    Action.Keeps MemberReplica.visible (finishBatch env installing batch) := by
  refine .bind (onChunks_visible (.foldlM fun _ _ => writeBody_diskFrame _ _ _ _) _) fun _ => ?_
  cases installing with
  | none => exact .pure _
  | some through => exact .bind (.require _ _) fun _ => .pure _

theorem prepareMailboxForSession_visible (env : MemberEnv) (envelopes : List MailboxEnvelope)
    (history : List IdentityDocument) (bootstrapThrough : Option Nat) (session : PairSession) :
    Action.Keeps MemberReplica.visible
      (prepareMailboxForSession env envelopes history bootstrapThrough session) := by
  refine .bind .get fun _ => .bind (.require _ _) fun _ => .bind (.modify fun _ => rfl) fun _ => ?_
  refine .bind (.ofExcept _) fun _ => .bind (.ofExcept _) fun _ => ?_
  refine .bind (.foldlM fun _ _ => readEnvelope_visible _ _ _ _) fun _ => ?_
  exact .bind (finishBatch_visible _ _ _) fun _ => .bind (.query _) fun _ => .pure _

end QuantumFs.Member
