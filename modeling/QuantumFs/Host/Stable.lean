import QuantumFs.Host.Restart

/-! Invariants over whole runs. A property of contents that every move, every
snapshot and every restart keeps is an invariant of the service and of what its
data directory holds. -/
namespace QuantumFs.Host

open Lib Encoding Crypto Store

namespace Content

def Needs (c : Content) (chunkId : ChunkId) : Prop :=
  (∃ (fileId : FileId) (manifest : Manifest), c.manifests[fileId]? = some manifest ∧
    chunkId ∈ manifest.chunkIds) ∨
  ∃ peer fileId index, QueueContent.chunk fileId index chunkId ∈ c.mailbox peer

/-- The chunks that are left after a sweep: no new one, and every needed one. -/
structure Retains (c : Content) (records : Map ChunkId ChunkRecord) : Prop where
  old : ∀ (id : ChunkId) (record : ChunkRecord), records[id]? = some record →
    c.records[id]? = some record
  needed : ∀ id, c.Needs id → records[id]? = c.records[id]?

end Content

variable [Primitives]

/-- The keystore that works for a content is the one of its host. -/
structure World.Fits (world : World) (c : Content) : Prop where
  peers : SoundPeers world.peers
  host : world.identity.peerId = c.hostId
  unpaired : world.selfPaired = false

/-- Publishing keeps the property: the archive grows, the log is truncated and chunks that
nothing needs go. -/
structure Settled (I : Content → Prop) : Prop where
  settle : ∀ {world : World} {c : Content} {documents : Map PeerId IdentityDocument},
    world.Fits c → c.Sound → I c →
    c.Archived world.identity world.peers documents → I (c.settle documents)
  retain : ∀ {c : Content} {records : Map ChunkId ChunkRecord}, c.Sound → I c →
    c.Retains records → I { c with records }

/-- Whatever a host does keeps the property. The barred peers are no members as long as
it holds, so they never have a flush challenge. -/
structure Stable (barred : PeerId → Prop) (I : Content → Prop) : Prop extends Settled I where
  outside : ∀ {c : Content} {peer : PeerId}, I c → barred peer → peer ∉ c.members
  put : ∀ {world : World} {c next : Content}, c.Sound → I c → Content.Put world c next → I next
  commit : ∀ {world : World} {c staged : Content} {update : ControlUpdate} {live : PeerId → Bool}
    {admission : Option VaultMetadata}, world.Fits c → c.Sound → I c →
    c.Accepts world update → c.Idle live → admission.isSome = c.admission.isSome →
    c.commit update live admission = .ok staged → I staged
  enrol : ∀ {world : World} {c : Content} {document : IdentityDocument}
    {documents : Map PeerId IdentityDocument} {records : List ControlRecord},
    world.Fits c → c.Sound → I c →
    verifyIdentity document = .ok () → document.peerId ∉ c.denied → document.peerId ∉ c.members →
    Content.Archived { c with
      identityDocuments := c.identityDocuments.insert document.peerId document }
      world.identity world.peers documents →
    snapshotRecords c.expectedRoot c.tree c.manifests (c.nextControl - 1) = .ok records →
    I (c.withMember document documents records)
  acknowledge : ∀ {c : Content} {peer : PeerId} {through : Nat}, c.Sound → I c →
    peer ∈ c.members → through < c.nextControl → c.acked peer < through → I (c.raiseAck peer through)
  drain : ∀ {c : Content} {peer : PeerId}, c.Sound → I c → ¬ barred peer → I (c.drained peer)
  take : ∀ {c : Content} (peer : PeerId), c.Sound → I c → I (c.taken peer)
  append : ∀ {c : Content} {peer : PeerId} {fileId : FileId} {manifest : Manifest} {index : Nat}
    {chunkId : ChunkId}, c.Sound → I c → peer ∈ c.members → peer ≠ c.hostId →
    c.manifests[fileId]? = some manifest → manifest.chunkIds[index]? = some chunkId →
    I (c.appended peer fileId index chunkId)
  attach : ∀ {c : Content} (metadata : VaultMetadata), c.Sound → I c → c.admission = none →
    I { c with
      denied := OrdSet.extend c.denied metadata.denied
      admission := some metadata }
  admission : ∀ {c : Content} (metadata : VaultMetadata), c.Sound → I c →
    I { c with admission := some metadata }
  resumed : ∀ {c : Content}, c.Sound → I c → I c.resumed
  restored : ∀ {c : Content} {records : Map ChunkId ChunkRecord} (gateOwner : Nat), c.Sound →
    I c → c.Retains records → I (c.restored records gateOwner)

namespace Stable

variable {barred : PeerId → Prop} {I : Content → Prop} {world : World} {c next : Content}

theorem puts (stable : Stable barred I) (h : Relation.ReflTransGen (Content.Put world) c next)
    (sound : c.Sound) (holds : I c) : I next := by
  induction h with
  | refl => exact holds
  | tail earlier put ih => exact stable.put (sound.puts earlier) ih put

theorem commits (stable : Stable barred I) {update : ControlUpdate} (fits : world.Fits c)
    (sound : c.Sound) (holds : I c) (h : Content.Commits world update c next) :
    world.Fits next ∧ I next := by
  obtain ⟨accepts, live, admission, staged, documents, idle, admitted, committed, archived, rfl⟩ := h
  have stagedSound := sound.commit (fun _ kicked => Content.kicked_ne_host accepts kicked)
    (Content.committed_of_ok committed)
  have stagedFits : world.Fits staged :=
    { fits with host := fits.host.trans (Content.committed_of_ok committed).hostId.symm }
  exact ⟨{ stagedFits with }, stable.settle stagedFits stagedSound
    (stable.commit fits sound holds accepts idle admitted committed) archived⟩

theorem uploads (stable : Stable barred I) {manifest : Manifest} {link : Option ControlUpdate}
    (fits : world.Fits c) (sound : c.Sound) (holds : I c)
    (h : Content.Uploads world manifest link c next) : I next := by
  obtain ⟨stored, committed, puts, adopts, linked⟩ := h
  have storedSound := sound.puts puts
  have storedHolds := stable.puts puts sound holds
  have storedFits : world.Fits stored := by
    obtain ⟨records, rfl⟩ := Content.puts_records puts
    exact { fits with }
  have adopted : committed.Sound ∧ world.Fits committed ∧ I committed := by
    obtain ⟨_, rfl⟩ | commits := adopts
    · exact ⟨storedSound, storedFits, storedHolds⟩
    · exact ⟨(storedSound.commits commits).1,
        stable.commits storedFits storedSound storedHolds commits⟩
  obtain ⟨adoptedSound, adoptedFits, adoptedHolds⟩ := adopted
  cases link with
  | none =>
    obtain rfl : next = _ := linked
    exact adoptedHolds
  | some update => exact (stable.commits adoptedFits adoptedSound adoptedHolds linked).2

theorem move (stable : Stable barred I) (fits : world.Fits c) (sound : c.Sound) (holds : I c)
    (unchallenged : ∀ peer, barred peer → world.challenged peer = false)
    (h : Content.Move world c next) : I next := by
  cases h with
  | keep => exact holds
  | commit accepts idle admitted committed =>
    exact stable.commit fits sound holds accepts idle admitted committed
  | upload _ uploads => exact stable.uploads fits sound holds uploads
  | enrol verified allowed stranger _ archived snapshot =>
    exact stable.enrol fits sound holds verified allowed stranger archived snapshot
  | acknowledge member bounded above => exact stable.acknowledge sound holds member bounded above
  | drain peer challenged =>
    refine stable.drain sound holds fun isBarred => ?_
    cases (unchallenged peer isBarred).symm.trans challenged
  | take peer _ => exact stable.take peer sound holds
  | append member paired found slot =>
    refine stable.append sound holds member (fun isHost => ?_) found slot
    cases fits.unpaired.symm.trans (paired (isHost.trans fits.host.symm))
  | attach metadata unset => exact stable.attach metadata sound holds unset
  | admission metadata => exact stable.admission metadata sound holds

end Stable

def OnDisk (records : Map ChunkId ChunkRecord) (files : Map ChunkId Bytes) : Prop :=
  ∀ (id : ChunkId) (record : ChunkRecord), records[id]? = some record →
    files[id]? = some record.plaintext ∧ record.plaintext.length ≤ maxChunkBytes

theorem Content.Put.onDisk {world : World} {c next : Content} {files : Map ChunkId Bytes}
    (h : Content.Put world c next) (isFiles : world.files = some files)
    (onDisk : OnDisk c.records files) : OnDisk next.records files := by
  cases h with
  | mk fileId index plaintext _ written =>
    intro id record found
    change (c.records.insert _ _)[id]? = some record at found
    rw [Map.get_insert] at found
    split at found
    · rename_i same
      obtain rfl := Option.some.inj found
      rw [← same]
      exact written files isFiles
    · exact onDisk id record found

theorem Content.commits_onDisk {world : World} {update : ControlUpdate} {c next : Content}
    {files : Map ChunkId Bytes} (h : Content.Commits world update c next)
    (onDisk : OnDisk c.records files) : OnDisk next.records files := by
  obtain ⟨_, _, _, staged, _, _, _, committed, _, rfl⟩ := h
  exact fun id record found =>
    onDisk id record ((Content.committed_of_ok committed).records id record found)

theorem Content.puts_onDisk {world : World} {c next : Content} {files : Map ChunkId Bytes}
    (h : Relation.ReflTransGen (Content.Put world) c next) (isFiles : world.files = some files)
    (onDisk : OnDisk c.records files) : OnDisk next.records files := by
  induction h with
  | refl => exact onDisk
  | tail _ put ih => exact put.onDisk isFiles ih

theorem Content.Move.onDisk {world : World} {c next : Content} {files : Map ChunkId Bytes}
    (h : Content.Move world c next) (isFiles : world.files = some files)
    (onDisk : OnDisk c.records files) : OnDisk next.records files := by
  cases h with
  | commit _ _ _ committed =>
    exact fun id record found =>
      onDisk id record ((Content.committed_of_ok committed).records id record found)
  | upload _ uploads =>
    obtain ⟨stored, committed, puts, adopts, linked⟩ := uploads
    have storedOn := Content.puts_onDisk puts isFiles onDisk
    have adopted : OnDisk committed.records files := by
      obtain ⟨_, rfl⟩ | commits := adopts
      · exact storedOn
      · exact Content.commits_onDisk commits storedOn
    rename_i link _
    cases link with
    | none =>
      obtain rfl : next = _ := linked
      exact adopted
    | some update => exact Content.commits_onDisk linked adopted
  | _ => exact onDisk

omit [Primitives] in
theorem mem_persisted_chunk {c : Content} {peer : PeerId} {fileId : FileId} {index : Nat}
    {chunkId : ChunkId} : QueueContent.chunk fileId index chunkId ∈ c.persisted peer ↔
      QueueContent.chunk fileId index chunkId ∈ c.mailbox peer := by
  have filtered : (c.persisted peer).filter QueueContent.isChunk =
      (c.mailbox peer).filter QueueContent.isChunk := by
    unfold Content.persisted
    split
    · exact Content.chunks_merged c peer _
    · rfl
  have isChunk : ∀ queue : List QueueContent, QueueContent.chunk fileId index chunkId ∈
      queue.filter QueueContent.isChunk ↔ QueueContent.chunk fileId index chunkId ∈ queue :=
    fun queue => by simp [List.mem_filter, QueueContent.isChunk]
  rw [← isChunk, filtered, isChunk]

omit [Primitives] in
theorem mem_retainIds {state : HostState} {chunkId : ChunkId} :
    chunkId ∈ state.metadata.retainIds ↔ state.content.Needs chunkId := by
  unfold ReplicaMetadata.retainIds Content.Needs
  rw [OrdSet.mem_ofList, List.mem_append, List.mem_flatMap, ReplicaMetadata.mem_queuedIds]
  refine or_congr ⟨?_, ?_⟩ ⟨?_, ?_⟩
  · rintro ⟨manifest, mem, slot⟩
    obtain ⟨fileId, found⟩ := Map.mem_vals.mp mem
    exact ⟨fileId, manifest, found, slot⟩
  · rintro ⟨fileId, manifest, found, slot⟩
    exact ⟨manifest, Map.mem_vals.mpr ⟨fileId, found⟩, slot⟩
  · rintro ⟨peer, queue, found, fileId, index, mem⟩
    have queued := metadata_mailbox state peer
    rw [found, Option.getD_some] at queued
    exact ⟨peer, fileId, index, mem_persisted_chunk.mp (queued ▸ mem)⟩
  · rintro ⟨peer, fileId, index, mem⟩
    have queued := mem_persisted_chunk.mpr mem
    rw [← metadata_mailbox] at queued
    cases found : state.metadata.mailboxes[peer]? with
    | none =>
      rw [found] at queued
      cases queued
    | some queue =>
      rw [found] at queued
      exact ⟨peer, queue, found, fileId, index, queued⟩

omit [Primitives] in
theorem retains_retained (state : HostState) :
    state.content.Retains (retained state.metadata state.chunks.records) where
  old := fun id record found => by
    rw [retained, Map.get_filter] at found
    exact (Option.filter_eq_some_iff.mp found).1
  needed := fun id needs => by
    rw [retained, Map.get_filter]
    have kept : decide (id ∈ state.metadata.retainIds) = true :=
      decide_eq_true (mem_retainIds.mpr needs)
    change Option.filter (fun _ => decide (id ∈ state.metadata.retainIds)) state.chunks.records[id]? =
      state.chunks.records[id]?
    rw [kept]
    cases state.chunks.records[id]? <;> rfl

/-- The data directory holds the snapshot of a state with the property, which is
the one shown or one that follows it. -/
structure Backed (I : Content → Prop) (c : Content) (disk : DurableStore) : Prop where
  snapshot : ∃ (saved : HostState) (generation : Nat),
    disk.replicaFile = some (generation, snapshotOf saved.metadata saved.chunks.records) ∧
    saved.content.Sound ∧ I saved.content ∧ Content.Follows c saved.content ∧
    saved.hostId = c.hostId ∧ saved.expectedRoot = c.expectedRoot ∧
    OnDisk (retained saved.metadata saved.chunks.records) disk.chunkFiles ∧
    ∀ chunkId ∈ saved.metadata.queuedIds, saved.chunks.records.contains chunkId = true

structure Living (barred : PeerId → Prop) (I : Content → Prop) (v : View) : Prop where
  sound : v.content.Sound
  holds : I v.content
  direct : v.deferred = false
  host : v.identity.document.peerId = v.content.hostId
  peers : SoundPeers v.peers
  unpaired : v.selfPaired = false
  unchallenged : ∀ peer, barred peer → v.challenged peer = false
  files : ∀ disk, v.disk = some disk → disk.expectedRoot = v.content.expectedRoot ∧
    OnDisk v.content.records disk.chunkFiles

structure Inv (barred : PeerId → Prop) (I : Content → Prop) (v : View) : Prop extends
    Living barred I v where
  backed : ∀ disk, v.disk = some disk → Backed I v.content disk

variable {barred : PeerId → Prop} {I : Content → Prop}

omit [Primitives] in
theorem OnDisk.stocked {records : Map ChunkId ChunkRecord} {before after : DurableStore}
    (h : OnDisk records before.chunkFiles) (stocked : Stocked before after) :
    OnDisk records after.chunkFiles := fun id record found =>
  ⟨stocked.files id _ (h id record found).1, (h id record found).2⟩

theorem Backed.stocked {c : Content} {before after : DurableStore}
    (h : Backed I c before) (stocked : Stocked before after) : Backed I c after := by
  obtain ⟨saved, generation, file, sound, holds, follows, host, root, onDisk, queued⟩ := h.snapshot
  exact ⟨saved, generation, stocked.replica.trans file, sound, holds, follows, host, root,
    onDisk.stocked stocked, queued⟩

omit [Primitives] in
theorem stocked_cases {before after : Option DurableStore} (h : Option.Rel Stocked before after)
    {disk : DurableStore} (isDisk : after = some disk) :
    ∃ earlier, before = some earlier ∧ Stocked earlier disk := by
  cases h with
  | none => cases isDisk
  | some stocked =>
    obtain rfl := Option.some.inj isDisk
    exact ⟨_, rfl, stocked⟩

theorem Living.beside {v w : View} (living : Living barred I v)
    (outside : ∀ peer, barred peer → peer ∉ v.content.members) (beside : Beside v w) :
    Living barred I w where
  sound := beside.content ▸ living.sound
  holds := beside.content ▸ living.holds
  direct := beside.deferred.trans living.direct
  host := by rw [beside.identity, beside.content, living.host]
  peers := beside.peers living.peers
  unpaired := beside.unpaired living.unpaired
  unchallenged := fun peer isBarred => by
    refine Bool.eq_false_iff.mpr fun challenged => ?_
    obtain before | member := beside.challenged peer challenged
    · cases (living.unchallenged peer isBarred).symm.trans before
    · exact outside peer isBarred member
  files := fun disk isDisk => by
    obtain ⟨earlier, isEarlier, stocked⟩ := stocked_cases beside.disk isDisk
    obtain ⟨root, onDisk⟩ := living.files earlier isEarlier
    rw [beside.content]
    exact ⟨stocked.root.trans root, onDisk.stocked stocked⟩

theorem Inv.beside {v w : View} (inv : Inv barred I v)
    (outside : ∀ peer, barred peer → peer ∉ v.content.members) (beside : Beside v w) :
    Inv barred I w where
  toLiving := inv.toLiving.beside outside beside
  backed := fun disk isDisk => by
    obtain ⟨earlier, isEarlier, stocked⟩ := stocked_cases beside.disk isDisk
    rw [beside.content]
    exact (inv.backed earlier isEarlier).stocked stocked

structure Reached (I : Content → Prop) (v : View) (next : Content) : Prop where
  sound : next.Sound
  holds : I next
  follows : Content.Follows v.content next
  hostId : next.hostId = v.content.hostId
  root : next.expectedRoot = v.content.expectedRoot
  onDisk : ∀ disk, v.disk = some disk → OnDisk next.records disk.chunkFiles

omit [Primitives] in
theorem Content.commit_same [Primitives] {c staged : Content} {update : ControlUpdate}
    {live : PeerId → Bool} {admission : Option VaultMetadata}
    (h : c.commit update live admission = .ok staged) :
    staged.hostId = c.hostId ∧ staged.expectedRoot = c.expectedRoot :=
  ⟨(Content.committed_of_ok h).hostId, (Content.committed_of_ok h).expectedRoot⟩

theorem Content.Move.same {world : World} {c next : Content} (h : Content.Move world c next) :
    next.hostId = c.hostId ∧ next.expectedRoot = c.expectedRoot := by
  have commits : ∀ {update : ControlUpdate} {c next : Content}, Content.Commits world update c next →
      next.hostId = c.hostId ∧ next.expectedRoot = c.expectedRoot := by
    rintro update c _ ⟨_, _, _, staged, _, _, _, committed, _, rfl⟩
    obtain ⟨hostId, root⟩ := Content.commit_same committed
    exact ⟨hostId, root⟩
  cases h with
  | commit _ _ _ committed => exact Content.commit_same committed
  | upload _ uploads =>
    obtain ⟨stored, committed, puts, adopts, linked⟩ := uploads
    obtain ⟨records, rfl⟩ := Content.puts_records puts
    have adopted : committed.hostId = c.hostId ∧ committed.expectedRoot = c.expectedRoot := by
      obtain ⟨_, rfl⟩ | done := adopts
      · exact ⟨rfl, rfl⟩
      · obtain ⟨hostId, root⟩ := commits done
        exact ⟨hostId, root⟩
    rename_i link _
    cases link with
    | none =>
      obtain rfl : next = _ := linked
      exact adopted
    | some update =>
      exact ⟨(commits linked).1.trans adopted.1, (commits linked).2.trans adopted.2⟩
  | _ => exact ⟨rfl, rfl⟩

theorem Living.settled (settled : Settled I) {v : View} (living : Living barred I v)
    {next : Content} (h : Settles v v.content next) : Reached I v next := by
  obtain ⟨documents, archived, rfl⟩ := h
  have fits : v.world.Fits v.content := ⟨living.peers, living.host, living.unpaired⟩
  refine ⟨living.sound.settle documents, ?_, .of_settle _ documents, rfl, rfl, ?_⟩
  · exact settled.settle fits living.sound living.holds archived
  · exact fun disk isDisk => (living.files disk isDisk).2

theorem Living.reached (stable : Stable barred I) {v : View} (living : Living barred I v)
    {next : Content} (h : Steps v next) : Reached I v next := by
  obtain ⟨staged, move, documents, archived, rfl⟩ := h
  obtain ⟨stagedSound, follows⟩ := living.sound.move move
  have fits : v.world.Fits v.content := ⟨living.peers, living.host, living.unpaired⟩
  have stagedFits : v.world.Fits staged := { fits with host := fits.host.trans move.same.1.symm }
  refine ⟨stagedSound.settle documents, ?_, ?_, move.same.1, move.same.2, ?_⟩
  · exact stable.settle stagedFits stagedSound
      (stable.move fits living.sound living.holds living.unchallenged move) archived
  · exact follows.trans (.of_settle staged documents) fun _ mem => mem
  · intro disk isDisk
    have files : v.world.files = some disk.chunkFiles := congrArg (Option.map _) isDisk
    exact move.onDisk files (living.files disk isDisk).2

omit [Primitives] in
theorem Content.Follows.records {c next : Content} (h : Content.Follows c next)
    (records : Map ChunkId ChunkRecord) : Content.Follows c { next with records } :=
  ⟨h.acked, h.dropped⟩

omit [Primitives] in
private theorem OnDisk.retained (state : HostState) {files after : Map ChunkId Bytes}
    (onDisk : OnDisk state.chunks.records files)
    (same : ∀ id : ChunkId, (Store.retained state.metadata state.chunks.records).contains id = true →
      after[id]? = files[id]?) :
    OnDisk (Store.retained state.metadata state.chunks.records) after := by
  intro id record found
  have kept : (Store.retained state.metadata state.chunks.records).contains id = true :=
    (Map.contains_iff_get _ _).mpr ⟨record, found⟩
  rw [same id kept]
  exact onDisk id record ((retains_retained state).old id record found)

theorem Living.published {J : Content → Prop} (settled : Settled I) {v w : View}
    (living : Living barred J v) {next : HostState} (reached : Reached I v next.content)
    (h : Published v next w) : Inv barred I w ∧ Content.Follows v.content w.content := by
  cases h with
  | deferred deferred => cases living.direct.symm.trans deferred
  | memory _ none =>
    refine ⟨{ sound := reached.sound, holds := reached.holds, direct := living.direct,
              host := living.host.trans reached.hostId.symm, peers := living.peers,
              unpaired := living.unpaired, unchallenged := living.unchallenged, files := ?_,
              backed := ?_ }, reached.follows⟩
    · intro disk isDisk
      cases none.symm.trans isDisk
    · intro disk isDisk
      cases none.symm.trans isDisk
  | @saved before after _ isBefore saved =>
    have retains := retains_retained next
    have sound : Content.Sound { next.content with
        records := retained next.metadata next.chunks.records } :=
      reached.sound.records fun id record found =>
        reached.sound.addressed id record (retains.old id record found)
    have onDisk := OnDisk.retained next (reached.onDisk before isBefore) saved.files
    refine ⟨{ sound, holds := settled.retain reached.sound reached.holds retains,
              direct := living.direct, host := living.host.trans reached.hostId.symm,
              peers := living.peers, unpaired := living.unpaired,
              unchallenged := living.unchallenged, files := ?_, backed := ?_ },
      reached.follows.records _⟩
    · intro disk isDisk
      obtain rfl := Option.some.inj isDisk
      refine ⟨?_, onDisk⟩
      rw [saved.root, (living.files before isBefore).1]
      exact reached.root.symm
    · intro disk isDisk
      obtain rfl := Option.some.inj isDisk
      exact ⟨next, after.generation, saved.file, reached.sound, reached.holds,
        ⟨fun _ _ _ => le_refl _, fun _ mem gone => absurd mem gone⟩, rfl, rfl, onDisk, saved.queued⟩

theorem Inv.lost {v w : View} (inv : Inv barred I v) {next : HostState}
    (reached : Reached I v next.content) (h : Lost v next w) :
    Inv barred I w ∧ Content.Follows v.content w.content := by
  cases h with
  | @mk before after _ isBefore spoiled =>
    obtain ⟨root, onDisk⟩ := inv.files before isBefore
    refine ⟨{ inv with
      files := fun disk isDisk => ?_
      backed := fun disk isDisk => ?_ }, .refl _⟩
    · obtain rfl := Option.some.inj isDisk
      exact ⟨spoiled.root.trans root, spoiled.files ▸ onDisk⟩
    · obtain rfl := Option.some.inj isDisk
      obtain same | ⟨generation, file⟩ := spoiled.file
      · obtain ⟨saved, generation, file, rest⟩ := (inv.backed before isBefore).snapshot
        exact ⟨saved, generation, same.trans file, by rw [spoiled.files]; exact rest⟩
      · refine ⟨next, generation, file, reached.sound, reached.holds, reached.follows,
          reached.hostId, reached.root, ?_, spoiled.queued⟩
        rw [spoiled.files]
        exact OnDisk.retained next (reached.onDisk before isBefore) fun _ _ => rfl

theorem Inv.effect (stable : Stable barred I) {v w : View} (inv : Inv barred I v)
    (h : Effect v w) : Inv barred I w ∧ Content.Follows v.content w.content := by
  have outside : ∀ {v : View}, Inv barred I v → ∀ peer, barred peer → peer ∉ v.content.members :=
    fun inv peer isBarred => stable.outside inv.holds isBarred
  cases h with
  | beside beside =>
    refine ⟨inv.beside (outside inv) beside, ?_⟩
    rw [beside.content]
    exact .refl _
  | @steps _ _ u x _ before outcome after =>
    have inv := inv.beside (outside inv) before
    have reached : Inv barred I x ∧ Content.Follows u.content x.content := by
      cases outcome with
      | refused _ => exact ⟨inv, .refl _⟩
      | lost _ moved lost => exact inv.lost (inv.reached stable moved) lost
      | done _ moved published => exact inv.published stable.toSettled (inv.reached stable moved) published
    rw [after.content, ← before.content]
    exact ⟨reached.1.beside (outside reached.1) after, reached.2⟩

end QuantumFs.Host
