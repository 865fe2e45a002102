import QuantumFs.Member.Mailbox
import QuantumFs.Member.Locate

/-! Fetching the chunks of a file from those who hold them (`sync/pull.rs`): what arrives is
opened, compared with its slot, and stored in a copy that is shown once it has been written. -/
namespace QuantumFs.Member

open Lib Encoding Crypto Store Host Net

section

variable [Primitives]

/-- `accept` holds the lock of the chunks twice, and `meanwhile` is what others did in between. -/
def acceptPulledAmid (env : MemberEnv) (meanwhile : MemberReplica → MemberReplica)
    (responses : List ChunkBodyFrame) (trusted : Manifest) : Action Error MemberReplica Nat := do
  let replica ← Action.get
  let staged ← MemberReplica.onKeys (responses.foldlM (openPulled trusted replica.state.chunks) [])
  Action.modify meanwhile
  let replica ← Action.get
  let current := replica.state.chunks
  let (count, chunks) ← MemberReplica.onChunks current (storeAllPulled env current staged)
  Action.modify (MemberReplica.withChunks chunks)
  pure count

theorem acceptPulled_eq_amid (env : MemberEnv) (responses : List ChunkBodyFrame) (trusted : Manifest) :
    acceptPulled env responses trusted = acceptPulledAmid env id responses trusted := by
  funext replica
  unfold acceptPulled acceptPulledAmid MemberReplica.onKeys
  simp only [Action.bind_apply, Action.get_apply, Action.zoom_apply, Action.modify_apply, id]
  generalize (responses.foldlM (openPulled trusted replica.state.chunks) [] :
    Action Error KeyStore _) replica.keys = opened
  obtain ⟨_ | staged, keys⟩ := opened <;> rfl

/-- The slot of a file that the snapshot beside the chunks links. -/
def LinkedSlot (chunks : ChunkStore) (fileId : FileId) (index : Nat) (id : ChunkId) : Prop :=
  ∃ metadata, chunks.metadata = some metadata ∧
    (∃ entry ∈ metadata.dirents, entry.child = fileId ∧ entry.isDir = false) ∧
    ∃ manifest, metadata.manifests[fileId]? = some manifest ∧ manifest.chunkIds[index]? = some id

def InSlot (trusted : Manifest) (fileId : FileId) (index : Nat) (plaintext : Bytes) : Prop :=
  fileId = trusted.fileId ∧ trusted.chunkIds[index]? = some (chunkId fileId index plaintext)

def newIn (current next : ChunkStore) : Map ChunkId ChunkRecord :=
  next.records.filter fun id _ => !current.records.contains id

/-- What a call may have stored. Of what was held before, only chunks that no manifest refers to
may go. -/
structure Received (trusted : Manifest) (current next : ChunkStore) (count : Nat) : Prop where
  old : ∀ (id : ChunkId) (record : ChunkRecord), next.records[id]? = some record →
    current.records.contains id = true → current.records[id]? = some record
  fresh : ∀ (id : ChunkId) (record : ChunkRecord), (newIn current next)[id]? = some record →
    id = chunkId record.fileId record.index record.plaintext ∧
      InSlot trusted record.fileId record.index record.plaintext ∧
      LinkedSlot current record.fileId record.index id
  counted : count = (newIn current next).size

omit [Primitives] in
theorem acceptsChunk_iff {chunks : ChunkStore} {fileId : FileId} {index : Nat} {id : ChunkId} :
    acceptsChunk chunks fileId index id = true ↔ LinkedSlot chunks fileId index id := by
  unfold acceptsChunk
  rw [Option.any_eq_true]
  simp only [Bool.and_eq_true, List.any_eq_true, decide_eq_true_eq, Option.bind_eq_some_iff]
  exact Iff.rfl

theorem openChunk_inSlot (session : PairSession) (frame : ChunkBodyFrame) (trusted : Manifest)
    (keys : KeyStore) : Action.Ensures (openChunk session frame trusted) keys
      (Action.Ends (fun plaintext _ => InSlot trusted frame.fileId frame.index plaintext) fun _ _ => True) := by
  unfold openChunk
  refine .next (R := fun _ _ => True) trivial (fun _ _ _ => trivial) fun plaintext keys _ => ?_
  refine .require (fun _ => trivial) fun same => ?_
  refine .ofExcept (fun _ _ => trivial) fun expected found => ?_
  refine .require (fun _ => trivial) fun equal => ?_
  exact ⟨same, equal ▸ okOr_eq_ok.mp found⟩

theorem openPulled_inSlot (trusted : Manifest) (chunks : ChunkStore) (responses : List ChunkBodyFrame)
    (keys : KeyStore) : Action.Ensures (responses.foldlM (openPulled trusted chunks) []) keys
      (Action.Ends (fun staged _ => ∀ body ∈ staged, InSlot trusted body.1 body.2.1 body.2.2)
        fun _ _ => True) := by
  refine .foldlM (fun staged keys frame _ known => ?_) nofun
  unfold openPulled
  refine .query (fun _ _ => trivial) fun _ _ => ?_
  refine .query (fun _ _ => trivial) fun session _ => ?_
  refine .next (openChunk_inSlot session frame trusted keys) (fun _ _ _ => trivial) fun plaintext _ slot => ?_
  refine .ite (fun _ => .pure known) fun _ => .pure ?_
  intro body mem
  obtain held | isNew := List.mem_append.mp mem
  · exact known body held
  · obtain rfl := List.mem_singleton.mp isNew
    exact slot

omit [Primitives] in
theorem newIn_get {current next : ChunkStore} {id : ChunkId} {record : ChunkRecord} :
    (newIn current next)[id]? = some record ↔
      next.records[id]? = some record ∧ current.records.contains id = false := by
  unfold newIn
  rw [Map.get_filter, Option.filter_eq_some_iff]
  simp only [Bool.not_eq_true']

structure Storing (trusted : Manifest) (current next : ChunkStore) (count : Nat) : Prop where
  received : Received trusted current next count
  metadata : next.metadata = current.metadata
  holds : ∀ id : ChunkId, current.records.contains id = true → next.records.contains id = true

theorem Storing.refl (trusted : Manifest) (current : ChunkStore) : Storing trusted current current 0 where
  received := by
    have none : newIn current current = ∅ := by
      refine Map.ext_get fun id => Option.eq_none_iff_forall_ne_some.mpr fun record found => ?_
      obtain ⟨held, absent⟩ := newIn_get.mp found
      rw [(Map.contains_iff_get _ _).mpr ⟨record, held⟩] at absent
      exact nomatch absent
    refine ⟨fun _ _ found _ => found, fun id record found => ?_, ?_⟩
    · rw [none] at found
      exact nomatch found
    · rw [none]
      rfl
  metadata := rfl
  holds := fun _ held => held

theorem Storing.insert {trusted : Manifest} {current next after : ChunkStore} {count : Nat}
    (storing : Storing trusted current next count) {fileId : FileId} {index : Nat} {plaintext : Bytes}
    (slot : InSlot trusted fileId index plaintext)
    (linked : LinkedSlot current fileId index (chunkId fileId index plaintext))
    (absent : next.records.contains (chunkId fileId index plaintext) = false)
    (records : after.records = next.records.insert (chunkId fileId index plaintext) ⟨fileId, index, plaintext⟩)
    (metadata : after.metadata = next.metadata) : Storing trusted current after (count + 1) := by
  have isNew : current.records.contains (chunkId fileId index plaintext) = false := by
    cases held : current.records.contains (chunkId fileId index plaintext) with
    | false => rfl
    | true => exact absurd (storing.holds _ held) (by simp [absent])
  have added : newIn current after =
      (newIn current next).insert (chunkId fileId index plaintext) ⟨fileId, index, plaintext⟩ := by
    unfold newIn
    rw [records, Map.filter_insert, if_pos (by simp [isNew])]
  refine ⟨⟨fun id record found held => ?_, fun id record found => ?_, ?_⟩, metadata.trans storing.metadata,
    fun id held => ?_⟩
  · rw [records, Map.get_insert] at found
    split at found
    · rename_i same
      rw [← same, isNew] at held
      exact nomatch held
    · exact storing.received.old id record found held
  · rw [added, Map.get_insert] at found
    split at found
    · rename_i same
      obtain rfl := Option.some.inj found
      exact ⟨same.symm, slot, same ▸ linked⟩
    · exact storing.received.fresh id record found
  · have missing : ¬ (newIn current next).contains (chunkId fileId index plaintext) = true := by
      rw [Map.contains_iff_get]
      rintro ⟨record, found⟩
      have := (Map.contains_iff_get _ _).mpr ⟨record, (newIn_get.mp found).1⟩
      rw [absent] at this
      exact nomatch this
    rw [added, Std.ExtTreeMap.size_insert, if_neg missing, storing.received.counted]
  · rw [records]
    obtain ⟨record, found⟩ := (Map.contains_iff_get _ _).mp (storing.holds id held)
    rw [Map.contains_iff_get]
    rw [Map.get_insert]
    split
    · exact ⟨_, rfl⟩
    · exact ⟨record, found⟩

theorem storePulled_storing (env : MemberEnv) {trusted : Manifest} {current : ChunkStore} {count : Nat}
    {body : FileId × Nat × Bytes} {files : Option DurableStore × ChunkStore}
    (storing : Storing trusted current files.2 count) (slot : InSlot trusted body.1 body.2.1 body.2.2) :
    Action.Ensures (storePulled env current count body) files
      (Action.Ends (fun count after => Storing trusted current after.2 count) fun _ _ => True) := by
  obtain ⟨fileId, index, plaintext⟩ := body
  obtain ⟨disk, next⟩ := files
  unfold storePulled
  refine .get (.ite (fun wanted => ?_) fun _ => .pure storing)
  obtain ⟨accepted, absent⟩ := wanted
  refine .next ((ChunkStore.put_outcome env.files fileId index plaintext disk next).and
    (.of_keeps (put_metadata env.files fileId index plaintext))) (fun _ _ _ => trivial) ?_
  rintro id after ⟨⟨-, records, held⟩, metadata⟩
  refine .pure ?_
  obtain same | ⟨-, -, records⟩ := records
  · have := held id rfl
    rw [same, absent] at this
    exact nomatch this
  · exact storing.insert slot (acceptsChunk_iff.mp accepted) absent records metadata

theorem Received.retained {trusted : Manifest} {current next : ChunkStore} {count : Nat}
    (received : Received trusted current next count) {metadata : ReplicaMetadata} {saved : ChunkStore}
    (isMetadata : current.metadata = some metadata)
    (records : saved.records = next.records ∨ saved.records = retained metadata next.records) :
    Received trusted current saved count := by
  have kept : ∀ (id : ChunkId) (record : ChunkRecord), (newIn current next)[id]? = some record →
      saved.records[id]? = some record := by
    intro id record found
    obtain ⟨held, -⟩ := newIn_get.mp found
    obtain same | swept := records
    · rw [same, held]
    · obtain ⟨_, _, _, isLinked, _, manifest, hasManifest, listed⟩ := received.fresh id record found
      obtain rfl := Option.some.inj (isMetadata.symm.trans isLinked)
      have isRetained := mem_retainIds_of_manifest hasManifest (List.mem_of_getElem? listed)
      rw [swept, Store.retained, Map.get_filter, held, Option.filter_some, if_pos (decide_eq_true isRetained)]
  have older : ∀ (id : ChunkId) (record : ChunkRecord), saved.records[id]? = some record →
      next.records[id]? = some record := by
    intro id record found
    obtain same | swept := records
    · rwa [same] at found
    · rw [swept, Store.retained, Map.get_filter] at found
      exact (Option.filter_eq_some_iff.mp found).1
  have same : newIn current saved = newIn current next := by
    refine Map.ext_get fun id => Option.ext fun record => ?_
    constructor
    · intro found
      obtain ⟨held, absent⟩ := newIn_get.mp found
      exact newIn_get.mpr ⟨older id record held, absent⟩
    · intro found
      exact newIn_get.mpr ⟨kept id record found, (newIn_get.mp found).2⟩
  exact ⟨fun id record found => received.old id record (older id record found),
    same ▸ received.fresh, same ▸ received.counted⟩

theorem storeAllPulled_received (env : MemberEnv) {trusted : Manifest} (current : ChunkStore)
    {staged : List (FileId × Nat × Bytes)} (slots : ∀ body ∈ staged, InSlot trusted body.1 body.2.1 body.2.2)
    (disk : Option DurableStore) :
    Action.Ensures (storeAllPulled env current staged) (disk, current)
      (Action.Ends (fun count after => Received trusted current after.2 count) fun _ _ => True) := by
  have filled : Action.Ensures (staged.foldlM (storePulled env current) 0) (disk, current)
      (Action.Ends (fun count after => Storing trusted current after.2 count) fun _ _ => True) :=
    .foldlM (I := fun count (files : Option DurableStore × ChunkStore) => Storing trusted current files.2 count)
      (fun _ _ body mem storing => storePulled_storing env storing (slots body mem)) (.refl trusted current)
  unfold storeAllPulled
  refine .next filled (fun _ _ _ => trivial) fun count files storing => ?_
  obtain ⟨after, next⟩ := files
  refine .ite (fun zero => .pure (zero ▸ storing.received)) fun _ => ?_
  cases isMetadata : current.metadata with
  | none =>
    have same : next.metadata = none := storing.metadata.trans isMetadata
    unfold persistCurrent
    refine .bind (.get ?_)
    dsimp only
    rw [same]
    exact storing.received
  | some metadata =>
    have same : next.metadata = some metadata := storing.metadata.trans isMetadata
    unfold persistCurrent
    refine .bind (.get ?_)
    dsimp only
    rw [same]
    refine .mono (ChunkStore.persistMetadata_outcome env.files metadata after next) fun r saved outcome => ?_
    cases outcome with
    | kept records => exact storing.received.retained isMetadata (.inl records)
    | saved records _ => exact storing.received.retained isMetadata (.inr records)
    | refused _ => trivial
    | spoiled _ _ => trivial

/-- How a call ends on the chunks that it finds: an error leaves them as they were. -/
def Accepts (trusted : Manifest) (current : ChunkStore) : Result Nat → MemberReplica → Prop :=
  Action.Ends (fun count after => Received trusted current after.state.chunks count)
    fun _ after => after.state.chunks = current

theorem acceptPulledAmid_accepts (env : MemberEnv) (meanwhile : MemberReplica → MemberReplica)
    (responses : List ChunkBodyFrame) (trusted : Manifest) (replica : MemberReplica) :
    Action.Ensures (acceptPulledAmid env meanwhile responses trusted) replica fun result after =>
      ∃ current, (current = replica.state.chunks ∨
          ∃ keys, current = (meanwhile { replica with keys }).state.chunks) ∧
        Accepts trusted current result after := by
  unfold acceptPulledAmid
  refine .get ?_
  unfold MemberReplica.onKeys
  refine .zoom (openPulled_inSlot trusted replica.state.chunks responses replica.keys)
    (fun e keys _ => ⟨_, .inl rfl, rfl⟩) fun staged keys slots => ?_
  refine .modify (.get ?_)
  refine onChunks_next (storeAllPulled_received env _ slots _) ?_ ?_
  · exact fun e disk next _ => ⟨_, .inr ⟨keys, rfl⟩, rfl⟩
  · intro count disk next received
    exact .modify (.pure ⟨_, .inr ⟨keys, rfl⟩, received⟩)

theorem acceptPulled_accepts (env : MemberEnv) (responses : List ChunkBodyFrame) (trusted : Manifest)
    (replica : MemberReplica) :
    Action.Ensures (acceptPulled env responses trusted) replica (Accepts trusted replica.state.chunks) := by
  rw [acceptPulled_eq_amid]
  refine .mono (acceptPulledAmid_accepts env id responses trusted replica) ?_
  rintro result after ⟨_, rfl | ⟨_, rfl⟩, accepts⟩ <;> exact accepts

end

structure PullReport where
  chunksWritten : Nat
  holdersTried : Nat
  missing : List ChunkId
deriving DecidableEq

def PullReport.isComplete (report : PullReport) : Bool := report.missing.isEmpty

structure Pulling where
  replica : MemberReplica
  asked : List PeerId

def Pulling.onReplica {α : Type} (x : Action Error MemberReplica α) : Action Error Pulling α :=
  Action.zoom Pulling.replica (fun replica pulling => { pulling with replica }) x

def missingChunks (chunks : ChunkStore) (request : PullRequest) : List ChunkId :=
  request.chunkIds.filter fun id => !chunks.records.contains id

def beginPull (chunks : ChunkStore) (request : PullRequest) (trusted : Manifest) : Result PullReport := do
  ensure (¬ ∃ id ∈ request.chunkIds, id ∉ trusted.chunkIds) .authenticationFailed
  pure { chunksWritten := 0, holdersTried := 0, missing := missingChunks chunks request }

def unsolicited (holder : PeerId) (trusted : Manifest) (remaining : PullRequest) (frame : ChunkBodyFrame) :
    Bool :=
  frame.header.senderId ≠ holder ∨ frame.fileId ≠ trusted.fileId ∨
    (trusted.chunkIds[frame.index]?.all fun id => id ∉ remaining.chunkIds) = true

section

variable [Primitives]

def encryptRequest (holderId : PeerId) (request : PullRequest) : Action Error KeyStore ControlPacket := do
  Action.query fun keys => keys.requireLiveTraffic holderId
  let session ← Action.query fun keys => keys.currentSession holderId
  let senderId ← Action.query KeyStore.peerId
  let seq ← Action.query fun keys => keys.nextOutboundSeq session.keyHandle .packet
  let header : PacketHeader :=
    { version := protocolVersion, senderId, receiverId := holderId, epoch := session.epoch, seq }
  let plaintext ← Action.ofExcept (encodePullRequest request)
  let ciphertext ← KeyStore.aeadSeal session.keyHandle (nonce header .packet) (packetAad header) plaintext
  pure { header, ciphertext }

def acceptHolder (env : MemberEnv) (holder : PeerId) (responses : List ChunkBodyFrame) (trusted : Manifest)
    (remaining : PullRequest) (report : PullReport) : Action Error MemberReplica PullReport := do
  Action.require (¬ (remaining.chunkIds.length < responses.length ∨
    responses.any (unsolicited holder trusted remaining) = true)) .authenticationFailed
  let written ← acceptPulled env responses trusted
  pure { report with chunksWritten := report.chunksWritten + written }

def acceptReply (env : MemberEnv) (holder : PeerId) (trusted : Manifest) (remaining : PullRequest)
    (report : PullReport) : Result (List ChunkBodyFrame) → Action Error MemberReplica PullReport
  | .ok responses => acceptHolder env holder responses trusted remaining report
  | .error _ => pure report

/-- `fetch` runs while other tasks of the member do, so it may change all of the replica. -/
def ask (fetch : PeerId → ControlPacket → Action Error MemberReplica (List ChunkBodyFrame))
    (holder : PeerId) (packet : ControlPacket) : Action Error Pulling (Result (List ChunkBodyFrame)) := do
  Action.modify fun pulling => { pulling with asked := pulling.asked ++ [holder] }
  Pulling.onReplica (Action.attempt (fetch holder packet))

/-- The loop of `pull_from_holders`. -/
def pullFromEach (env : MemberEnv) (request : PullRequest) (trusted : Manifest)
    (fetch : PeerId → ControlPacket → Action Error MemberReplica (List ChunkBodyFrame)) :
    List PeerId → PullReport → OrdSet PeerId → Action Error Pulling PullReport
  | [], report, _ => pure report
  | holder :: holders, report, tried =>
    if report.isComplete then pure report
    else if holder ∈ tried then pullFromEach env request trusted fetch holders report tried
    else do
      let tried := tried.insert holder
      let remaining ← Action.ofExcept (PullRequest.new report.missing)
      match ← Action.attempt (Pulling.onReplica (MemberReplica.onKeys (encryptRequest holder remaining))) with
      | .error _ => pullFromEach env request trusted fetch holders report tried
      | .ok packet => do
          let report := { report with holdersTried := report.holdersTried + 1 }
          let reply ← ask fetch holder packet
          let report ← Pulling.onReplica (acceptReply env holder trusted remaining report reply)
          let pulling ← Action.get
          let missing := missingChunks pulling.replica.state.chunks request
          pullFromEach env request trusted fetch holders { report with missing } tried

def pullFromHolders (env : MemberEnv) (request : PullRequest) (trusted : Manifest) (holders : List PeerId)
    (fetch : PeerId → ControlPacket → Action Error MemberReplica (List ChunkBodyFrame)) :
    Action Error Pulling PullReport := do
  let pulling ← Action.get
  let report ← Action.ofExcept (beginPull pulling.replica.state.chunks request trusted)
  pullFromEach env request trusted fetch holders report ∅

structure Pulled (request : PullRequest) (holders : List PeerId) (report : PullReport) (pulling : Pulling) :
    Prop where
  once : pulling.asked.Nodup
  among : ∀ holder ∈ pulling.asked, holder ∈ holders
  tried : report.holdersTried = pulling.asked.length
  missing : report.missing = missingChunks pulling.replica.state.chunks request

/-- How a pull ends: no holder is asked twice, not even by one that fails. -/
def PullEnds (request : PullRequest) (holders : List PeerId) : Result PullReport → Pulling → Prop :=
  Action.Ends (Pulled request holders)
    fun _ pulling => pulling.asked.Nodup ∧ ∀ holder ∈ pulling.asked, holder ∈ holders

omit [Primitives] in
theorem ensures_attempt {ε σ α β : Type} {x : Action ε σ α} {f : Except ε α → Action ε σ β} {s : σ}
    {Q : Except ε β → σ → Prop} {R : Except ε α → σ → Prop} (first : Action.Ensures x s R)
    (rest : ∀ r t, R r t → Action.Ensures (f r) t Q) : Action.Ensures (Action.attempt x >>= f) s Q :=
  .bind (rest _ _ first)

omit [Primitives] in
theorem ask_outcome (fetch : PeerId → ControlPacket → Action Error MemberReplica (List ChunkBodyFrame))
    (holder : PeerId) (packet : ControlPacket) (pulling : Pulling) :
    Action.Ensures (ask fetch holder packet) pulling fun r after =>
      (∃ reply, r = .ok reply) ∧ after.asked = pulling.asked ++ [holder] := ⟨⟨_, rfl⟩, rfl⟩

theorem acceptReply_tried (env : MemberEnv) (holder : PeerId) (trusted : Manifest) (remaining : PullRequest)
    (report : PullReport) (reply : Result (List ChunkBodyFrame)) (replica : MemberReplica) :
    Action.Ensures (acceptReply env holder trusted remaining report reply) replica
      (Action.Ends (fun next _ => next.holdersTried = report.holdersTried) fun _ _ => True) := by
  cases reply with
  | error _ => exact .pure rfl
  | ok responses =>
    refine .require (fun _ => trivial) fun _ => ?_
    exact .next (R := fun _ _ => True) trivial (fun _ _ _ => trivial) fun _ _ _ => .pure rfl

theorem pullFromEach_ends (env : MemberEnv) (request : PullRequest) (trusted : Manifest)
    (fetch : PeerId → ControlPacket → Action Error MemberReplica (List ChunkBodyFrame))
    (all holders : List PeerId) (within : ∀ holder ∈ holders, holder ∈ all) (report : PullReport)
    (tried : OrdSet PeerId) (pulling : Pulling) (pulled : Pulled request all report pulling)
    (known : ∀ holder ∈ pulling.asked, holder ∈ tried) :
    Action.Ensures (pullFromEach env request trusted fetch holders report tried) pulling
      (PullEnds request all) := by
  induction holders generalizing report tried pulling with
  | nil => exact pulled
  | cons holder holders ih =>
    have rest := fun other mem => within other (List.mem_cons_of_mem holder mem)
    have grows : ∀ other ∈ pulling.asked, other ∈ tried.insert holder := by
      intro other mem
      exact Std.ExtTreeSet.mem_insert.mpr (.inr (known other mem))
    unfold pullFromEach
    refine .ite (fun _ => pulled) fun _ => .ite (fun _ => ?_) fun fresh => ?_
    · exact ih rest report tried pulling pulled known
    refine .ofExcept (fun _ _ => ⟨pulled.once, pulled.among⟩) fun remaining _ => ?_
    refine ensures_attempt (R := fun _ after => after.asked = pulling.asked ∧
      after.replica.state = pulling.replica.state) ⟨rfl, rfl⟩ fun sealed sent same => ?_
    obtain ⟨sameAsked, sameState⟩ := same
    cases sealed with
    | error _ =>
      refine ih rest report _ sent ⟨?_, ?_, ?_, ?_⟩ ?_
      · exact sameAsked ▸ pulled.once
      · exact sameAsked ▸ pulled.among
      · exact sameAsked ▸ pulled.tried
      · exact sameState ▸ pulled.missing
      · exact sameAsked ▸ grows
    | ok packet =>
      refine .next (ask_outcome fetch holder packet sent) (fun e _ failed => nomatch failed.1) ?_
      rintro reply asked ⟨-, isAsked⟩
      rw [sameAsked] at isAsked
      have once : asked.asked.Nodup := by
        rw [isAsked]
        refine List.nodup_append.mpr ⟨pulled.once, List.nodup_singleton _, ?_⟩
        intro other mem _ same isHolder
        obtain rfl := List.mem_singleton.mp same
        exact fresh (isHolder ▸ known other mem)
      have among : ∀ other ∈ asked.asked, other ∈ all := by
        intro other mem
        rw [isAsked] at mem
        obtain before | new := List.mem_append.mp mem
        · exact pulled.among other before
        · exact within other (List.mem_singleton.mp new ▸ List.mem_cons_self)
      have knows : ∀ other ∈ asked.asked, other ∈ tried.insert holder := by
        intro other mem
        rw [isAsked] at mem
        obtain before | new := List.mem_append.mp mem
        · exact grows other before
        · obtain rfl := List.mem_singleton.mp new
          exact Std.ExtTreeSet.mem_insert_self
      refine .zoom (acceptReply_tried env holder trusted remaining _ reply asked.replica) ?_ ?_
      · exact fun _ _ _ => ⟨once, among⟩
      · intro next after counts
        refine .get (ih rest _ _ _ ⟨once, among, ?_, rfl⟩ knows)
        rw [isAsked, List.length_append, ← pulled.tried]
        exact counts

/-- Whatever is sent, what a pull stores is a chunk of the trusted manifest in a linked slot, an error
stores nothing, and the reports agree with the store. -/
theorem pull_safety (env : MemberEnv) :
    (∀ meanwhile responses trusted replica,
      Action.Ensures (acceptPulledAmid env meanwhile responses trusted) replica fun result after =>
        ∃ current, (current = replica.state.chunks ∨
            ∃ keys, current = (meanwhile { replica with keys }).state.chunks) ∧
          Accepts trusted current result after) ∧
      (∀ responses trusted replica,
        Action.Ensures (acceptPulled env responses trusted) replica (Accepts trusted replica.state.chunks)) ∧
      ∀ request trusted holders fetch replica,
        Action.Ensures (pullFromHolders env request trusted holders fetch) ⟨replica, []⟩
          (PullEnds request holders) := by
  refine ⟨acceptPulledAmid_accepts env, acceptPulled_accepts env, ?_⟩
  intro request trusted holders fetch replica
  unfold pullFromHolders
  refine .get (.ofExcept (fun _ _ => ⟨.nil, nofun⟩) fun report begun => ?_)
  obtain ⟨_, -, begun⟩ := Result.bind_eq_ok.mp begun
  obtain rfl := Except.ok.inj begun
  exact pullFromEach_ends env request trusted fetch holders holders (fun _ mem => mem) _ ∅ _
    ⟨.nil, nofun, rfl, rfl⟩ nofun

/-- What a future returns, and after how many milliseconds. -/
abbrev Fetch : Type := PeerId → ControlPacket → MemberReplica → Nat × Result (List ChunkBodyFrame) × MemberReplica

/-- The same operation, waited for as long as it takes. -/
def Fetch.untimed (fetch : Fetch) (holder : PeerId) (packet : ControlPacket) :
    Action Error MemberReplica (List ChunkBodyFrame) := fun replica => (fetch holder packet replica).2

def fetchDeadline : Nat := 5000

/-- `tokio::time::timeout`: nothing when the deadline comes first. -/
def askTimed (fetch : Fetch) (holder : PeerId) (packet : ControlPacket) :
    Action Error Pulling (Option (Result (List ChunkBodyFrame))) := fun pulling =>
  let (elapsed, reply, replica) := fetch holder packet pulling.replica
  (.ok (if elapsed ≤ fetchDeadline then some reply else none),
    { replica, asked := pulling.asked ++ [holder] })

def acceptTimed (env : MemberEnv) (holder : PeerId) (trusted : Manifest) (remaining : PullRequest)
    (report : PullReport) : Option (Result (List ChunkBodyFrame)) → Action Error MemberReplica PullReport
  | some (.ok responses) => acceptHolder env holder responses trusted remaining report
  | _ => pure report

/-- The loop of `pull_from_holders_async`. -/
def pullFromEachAsync (env : MemberEnv) (request : PullRequest) (trusted : Manifest) (fetch : Fetch) :
    List PeerId → PullReport → OrdSet PeerId → Action Error Pulling PullReport
  | [], report, _ => pure report
  | holder :: holders, report, tried =>
    if report.isComplete then pure report
    else if holder ∈ tried then pullFromEachAsync env request trusted fetch holders report tried
    else do
      let tried := tried.insert holder
      let remaining ← Action.ofExcept (PullRequest.new report.missing)
      match ← Action.attempt (Pulling.onReplica (MemberReplica.onKeys (encryptRequest holder remaining))) with
      | .error _ => pullFromEachAsync env request trusted fetch holders report tried
      | .ok packet => do
          let report := { report with holdersTried := report.holdersTried + 1 }
          let reply ← askTimed fetch holder packet
          let report ← Pulling.onReplica (acceptTimed env holder trusted remaining report reply)
          let pulling ← Action.get
          let missing := missingChunks pulling.replica.state.chunks request
          pullFromEachAsync env request trusted fetch holders { report with missing } tried

def pullFromHoldersAsync (env : MemberEnv) (request : PullRequest) (trusted : Manifest)
    (holders : List PeerId) (fetch : Fetch) : Action Error Pulling PullReport := do
  let pulling ← Action.get
  let report ← Action.ofExcept (beginPull pulling.replica.state.chunks request trusted)
  pullFromEachAsync env request trusted fetch holders report ∅

omit [Primitives] in
theorem askTimed_eq {fetch : Fetch} (prompt : ∀ holder packet replica, (fetch holder packet replica).1 ≤ fetchDeadline)
    (holder : PeerId) (packet : ControlPacket) :
    askTimed fetch holder packet = some <$> ask fetch.untimed holder packet := by
  funext pulling
  unfold askTimed
  dsimp only
  rw [if_pos (prompt holder packet pulling.replica)]
  rfl

theorem acceptTimed_some (env : MemberEnv) (holder : PeerId) (trusted : Manifest) (remaining : PullRequest)
    (report : PullReport) (reply : Result (List ChunkBodyFrame)) :
    acceptTimed env holder trusted remaining report (some reply) =
      acceptReply env holder trusted remaining report reply := by
  cases reply <;> rfl

theorem pullFromEachAsync_eq (env : MemberEnv) (request : PullRequest) (trusted : Manifest) {fetch : Fetch}
    (prompt : ∀ holder packet replica, (fetch holder packet replica).1 ≤ fetchDeadline) (holders : List PeerId)
    (report : PullReport) (tried : OrdSet PeerId) :
    pullFromEachAsync env request trusted fetch holders report tried =
      pullFromEach env request trusted fetch.untimed holders report tried := by
  induction holders generalizing report tried with
  | nil => rfl
  | cons holder holders ih =>
    unfold pullFromEachAsync pullFromEach
    simp only [ih, askTimed_eq prompt, map_eq_bind_pure_comp, bind_assoc, Function.comp_apply, pure_bind, acceptTimed_some]

/-- Answers that arrive before the deadline, in whatever order, give the same holders and the same pull. -/
theorem async_agrees :
    (∀ (locator : Locator) (keys : KeyStore) (query : HaveQuery) (polls : List (PeerId → Bool))
        (answer : PeerId → HaveQuery → Answer),
      (∀ peerId ∈ locator.liveMemberCandidates keys, ∃ ready ∈ polls, ready peerId = true) →
      locator.holdersAsync keys query polls answer = locator.holders keys query answer) ∧
    ∀ (env : MemberEnv) (request : PullRequest) (trusted : Manifest) (holders : List PeerId) (fetch : Fetch),
      (∀ holder packet replica, (fetch holder packet replica).1 ≤ fetchDeadline) →
      pullFromHoldersAsync env request trusted holders fetch =
        pullFromHolders env request trusted holders fetch.untimed := by
  refine ⟨fun _ _ _ _ _ arrives => Locator.holdersAsync_eq arrives, ?_⟩
  intro env request trusted holders fetch prompt
  unfold pullFromHoldersAsync pullFromHolders
  simp only [pullFromEachAsync_eq env request trusted prompt]

end

section

local instance : Primitives := Primitives.plain

/-- A member with sessions to two others, while the host is away. -/
private def seeker : KeyStore :=
  let wrap : WrapMessage := ⟨[], [], 1, ⟨1⟩, ⟨2⟩, []⟩
  { KeyStore.opened ((LocalIdentity.new [1] [2] 0).toOption.get (by decide +kernel)) 0 with
    pairs := ((∅ : Map PeerId PersistedPair).insert ⟨2⟩ ⟨⟨2⟩, 1, ⟨2⟩, wrap⟩).insert ⟨3⟩ ⟨⟨3⟩, 1, ⟨3⟩, wrap⟩
    keys := ((∅ : Map Nat PairKeyState).insert 0 (.new [] ⟨2⟩ 1)).insert 1 (.new [] ⟨3⟩ 1) }

private def away : Locator := ⟨OrdSet.ofList [⟨2⟩, ⟨3⟩, ⟨4⟩], ⟨4⟩⟩

private def sought : HaveQuery := ⟨⟨7⟩, [⟨8⟩], by decide⟩

/-- The later candidate answers first. -/
theorem async_agrees_reversed :
    away.holdersAsync seeker sought [fun peer => peer = ⟨3⟩, fun peer => peer = ⟨2⟩]
        (fun _ query => ⟨.ok ⟨query.fileId, query.chunkIds, [1]⟩, seeker⟩) = [⟨2⟩, ⟨3⟩] ∧
      ∀ env request trusted,
        pullFromHoldersAsync env request trusted [⟨2⟩, ⟨3⟩] (fun _ _ replica => (20, .ok [], replica)) =
          pullFromHolders env request trusted [⟨2⟩, ⟨3⟩] fun _ _ replica => (.ok [], replica) := by
  refine ⟨(async_agrees.1 away seeker sought _ _ (by decide +kernel)).trans (by decide +kernel), ?_⟩
  exact fun env request trusted => async_agrees.2 env request trusted _ _ fun _ _ _ => (by decide : 20 ≤ fetchDeadline)

end

end QuantumFs.Member
