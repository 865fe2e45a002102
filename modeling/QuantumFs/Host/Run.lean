import QuantumFs.Crypto.NonceReuse
import QuantumFs.Host.Stable

/-! Runs of a host: any order of calls, of key exchanges and of restarts from the
data directory, starting from a vault that was just created. -/
namespace QuantumFs.Host

open Lib Encoding Crypto Store

variable [Primitives]

/-- `SoundPeers`, as it can be decided. -/
def soundPeers (peers : Map PeerId IdentityDocument) : Bool :=
  peers.toList.all fun entry =>
    decide (entry.2.peerId = entry.1) && decide (verifyIdentity entry.2 = .ok ())

theorem soundPeers_iff (peers : Map PeerId IdentityDocument) :
    soundPeers peers = true ↔ SoundPeers peers := by
  unfold soundPeers SoundPeers
  rw [List.all_eq_true]
  constructor
  · intro h peer document found
    simpa using h (peer, document) (Map.mem_toList.mpr found)
  · rintro h ⟨peer, document⟩ mem
    simpa using h peer document (Map.mem_toList.mp mem)

/-- Everything that happens to a host. -/
inductive HostOp where
  | addMember (env : HostEnv) (document : IdentityDocument)
  | commit (env : HostEnv) (manifest : Manifest)
  | kick (env : HostEnv) (target : PeerId) (code : Option JoinCode)
  | fanOutControl (env : HostEnv) (sender : PeerId) (update : ControlUpdate)
  | mkdir (env : HostEnv) (sender : PeerId) (path : String)
  | linkFile (env : HostEnv) (sender : PeerId) (path : String) (child : FileId)
  | unlink (env : HostEnv) (sender : PeerId) (path : String)
  | rename (env : HostEnv) (sender : PeerId) (source destination : String)
  | commitWriterUpload (env : HostEnv) (sender : PeerId) (manifest : Manifest)
      (bodies : Map Nat Bytes) (link : Option ControlUpdate)
  | saveFile (env : HostEnv) (writer : KeyStore) (path : String) (bodies : List Bytes)
  | attachAdmission (env : HostEnv) (metadata : VaultMetadata)
  | setAdmission (env : HostEnv) (metadata : VaultMetadata)
  | heartbeat (env : HostEnv) (peer : PeerId) (ttl : Nat)
  | takeOnlineControl (env : HostEnv) (recipient : PeerId)
  | refreshMailboxes
  | appendMailbox (env : HostEnv) (recipient : PeerId) (fileId : FileId) (index : Nat)
  | issueFlushChallenge (env : HostEnv) (recipient : PeerId)
  | prepareFlush (peer : PeerId) (challenge : FlushChallenge) (signature : Bytes)
  | acknowledgeFlush (env : HostEnv) (peer : PeerId) (prepared : PreparedHostFlush)
  | acknowledgeApplied (env : HostEnv) (peer : PeerId) (through : Nat)
  /-- A chunk is stored through the handle on the chunk store. -/
  | putChunk (env : HostEnv) (fileId : FileId) (index : Nat) (plaintext : Bytes)
  | stop
  /-- Whatever the rest of the process does to the shared keystore. -/
  | rekey (keys : KeyStore)
  | resume (keys : KeyStore)
  /-- The process ends, and a new one opens the data directory. -/
  | restart (env : HostEnv) (keys : KeyStore) (members : OrdSet PeerId)

/-- What every keystore has: its peers are verified and it is not its own peer. -/
def soundKeys (keys : KeyStore) : Prop :=
  soundPeers keys.peers = true ∧ selfPaired keys = false

def ownKeys (host : HostService) (keys : KeyStore) : Prop :=
  keys.identity = host.keys.identity ∧ soundKeys keys

instance (keys : KeyStore) : Decidable (soundKeys keys) := inferInstanceAs (Decidable (_ ∧ _))

instance (host : HostService) (keys : KeyStore) : Decidable (ownKeys host keys) :=
  inferInstanceAs (Decidable (_ ∧ _))

def replaceService (next : HostService → Result HostService) : Action Error HostService Unit :=
  fun host =>
    match next host with
    | .ok replaced => (.ok (), replaced)
    | .error error => (.error error, host)

def discard {α : Type} (x : Action Error HostService α) : Action Error HostService Unit := do
  let _ ← x
  pure ()

def HostOp.perform : HostOp → Action Error HostService Unit
  | .addMember env document => Host.addMember env document
  | .commit env manifest => commitManifest env manifest
  | .kick env target code => discard (kickWithCode env target code)
  | .fanOutControl env sender update => Host.fanOutControl env sender update
  | .mkdir env sender path => discard (Host.mkdir env sender path)
  | .linkFile env sender path child => Host.linkFile env sender path child
  | .unlink env sender path => Host.unlink env sender path
  | .rename env sender source destination => Host.rename env sender source destination
  | .commitWriterUpload env sender manifest bodies link =>
    Host.commitWriterUpload env sender manifest bodies link
  | .saveFile env writer path bodies => discard (Host.saveFile env writer path bodies)
  | .attachAdmission env metadata => Host.attachAdmission env metadata
  | .setAdmission env metadata => Host.setAdmission env metadata
  | .heartbeat env peer ttl => Host.heartbeat env peer ttl
  | .takeOnlineControl env recipient => discard (Host.takeOnlineControl env recipient)
  | .refreshMailboxes => Host.refreshMailboxes
  | .appendMailbox env recipient fileId index => Host.appendMailbox env recipient fileId index
  | .issueFlushChallenge env recipient => discard (Host.issueFlushChallenge env recipient)
  | .prepareFlush peer challenge signature => discard (Host.prepareFlush peer challenge signature)
  | .acknowledgeFlush env peer prepared => Host.acknowledgeFlush env peer prepared
  | .acknowledgeApplied env peer through => Host.acknowledgeApplied env peer through
  | .putChunk env fileId index plaintext =>
    discard (HostService.onChunks (ChunkStore.put env.files fileId index plaintext))
  | .stop => Action.modify fun host => { host with running := false }
  | .rekey keys => replaceService fun host => do
      ensure (ownKeys host keys) .keyUnavailable
      pure { host with keys }
  | .resume keys => replaceService fun host => do
      ensure (ownKeys host keys) .keyUnavailable
      Host.resume keys host.disk host.state
  | .restart env keys members => replaceService fun host => do
      ensure (ownKeys host keys) .keyUnavailable
      let disk ← okOr host.disk (.state "no data directory")
      openDurable env keys disk host.state.expectedRoot members

def machine : Machine HostService HostOp where
  exec := fun op host => (op.perform host).2

/-- A vault without a history: in memory, or in an empty data directory. -/
inductive Fresh : HostService → Prop
  | memory {env : HostEnv} {keys : KeyStore} {members : OrdSet PeerId} {root : FileId}
      {host : HostService} : soundKeys keys →
      newInVault env keys members ⟨∅, none⟩ root = .ok host → Fresh host
  | durable {env : HostEnv} {keys : KeyStore} {disk : DurableStore} {root : FileId}
      {members : OrdSet PeerId} {host : HostService} : soundKeys keys →
      disk.replicaFile = none → openDurable env keys disk root members = .ok host → Fresh host

theorem Effective.discard {α : Type} {x : Action Error HostService α} (h : Effective x) :
    Effective (Host.discard x) := .before h fun _ => .of_keeps (.pure _)

section

variable {barred : PeerId → Prop} {I : Content → Prop}

theorem Inv.put (stable : Stable barred I) {v w : View} (inv : Inv barred I v) (grown : Grown v w)
    (puts : Relation.ReflTransGen (Content.Put w.world) v.content w.content) :
    Inv barred I w ∧ Content.Follows v.content w.content := by
  have sound := inv.sound.puts puts
  have holds := stable.puts puts inv.sound inv.holds
  obtain ⟨records, same⟩ := Content.puts_records puts
  have follows : ∀ next, Content.Follows v.content next → Content.Follows w.content next := by
    intro next follows
    rw [same]
    exact ⟨follows.acked, follows.dropped⟩
  refine ⟨{ sound, holds, direct := grown.deferred.trans inv.direct, host := ?_, peers := ?_,
            unpaired := grown.paired.trans inv.unpaired, unchallenged := ?_, files := ?_,
            backed := ?_ }, ?_⟩
  · rw [grown.identity, inv.host, same]
  · rw [grown.peers]
    exact inv.peers
  · rw [grown.challenged]
    exact inv.unchallenged
  · intro disk isDisk
    obtain ⟨earlier, isEarlier, stocked⟩ := stocked_cases grown.disk isDisk
    obtain ⟨root, onDisk⟩ := inv.files earlier isEarlier
    have files : w.world.files = some disk.chunkFiles := congrArg (Option.map _) isDisk
    refine ⟨?_, Content.puts_onDisk puts files (onDisk.stocked stocked)⟩
    rw [stocked.root, root, same]
  · intro disk isDisk
    obtain ⟨earlier, isEarlier, stocked⟩ := stocked_cases grown.disk isDisk
    obtain ⟨saved, generation, file, savedSound, savedHolds, savedFollows, hostId, root, rest⟩ :=
      ((inv.backed earlier isEarlier).stocked stocked).snapshot
    refine ⟨saved, generation, file, savedSound, savedHolds, follows _ savedFollows, ?_, ?_, rest⟩
    · rw [hostId, same]
    · rw [root, same]
  · rw [same]
    exact ⟨fun _ _ _ => le_refl _, fun _ mem gone => absurd mem gone⟩

theorem Inv.resumed (stable : Stable barred I) {host next : HostService} (inv : Inv barred I host.view)
    {keys : KeyStore} (own : ownKeys host keys)
    (h : Host.resume keys host.disk host.state = .ok next) :
    Inv barred I next.view ∧ Content.Follows host.view.content next.view.content := by
  obtain ⟨isHost, view⟩ := resume_view h
  rw [view]
  refine ⟨{ sound := inv.sound.resumed, holds := stable.resumed inv.sound inv.holds, direct := rfl,
            host := isHost, peers := (soundPeers_iff _).mp own.2.1, unpaired := own.2.2,
            unchallenged := fun _ _ => rfl, files := inv.files,
            backed := fun disk isDisk => ?_ },
    ⟨fun _ _ _ => le_refl _, fun _ mem gone => absurd mem gone⟩⟩
  obtain ⟨saved, generation, file, sound, holds, follows, rest⟩ := (inv.backed disk isDisk).snapshot
  exact ⟨saved, generation, file, sound, holds, ⟨follows.acked, follows.dropped⟩, rest⟩

theorem Inv.rekeyed {host : HostService} (inv : Inv barred I host.view) {keys : KeyStore}
    (own : ownKeys host keys) : Inv barred I (HostService.view { host with keys }) where
  sound := inv.sound
  holds := inv.holds
  direct := inv.direct
  host := by
    change keys.identity.document.peerId = _
    rw [own.1]
    exact inv.host
  peers := (soundPeers_iff _).mp own.2.1
  unpaired := own.2.2
  unchallenged := inv.unchallenged
  files := inv.files
  backed := inv.backed

omit [Primitives] in
private theorem OnDisk.swept {records : Map ChunkId ChunkRecord} {disk : DurableStore}
    (onDisk : OnDisk records disk.chunkFiles) :
    OnDisk records (DurableStore.sweep (fun _ => true) records disk).chunkFiles := by
  intro id record found
  have kept : records.contains id = true := (Map.contains_iff_get _ _).mpr ⟨record, found⟩
  refine ⟨?_, (onDisk id record found).2⟩
  change (disk.chunkFiles.filter _)[id]? = _
  rw [Map.get_filter, (onDisk id record found).1, Option.filter_some]
  simp [kept]

theorem Inv.restarted (stable : Stable barred I) {host next : HostService} (inv : Inv barred I host.view)
    {env : HostEnv} {keys : KeyStore} (own : ownKeys host keys) {disk : DurableStore}
    (isDisk : host.disk = some disk) {root : FileId} {members : OrdSet PeerId}
    (h : openDurable env keys disk root members = .ok next) :
    Inv barred I next.view ∧ Content.Follows host.view.content next.view.content := by
  obtain ⟨saved, generation, file, sound, holds, follows, hostId, sameRoot, onDisk, queued⟩ :=
    (inv.backed disk isDisk).snapshot
  have ownId : keys.identity.document.peerId = saved.hostId := by
    rw [own.1, hostId]
    exact inv.host
  obtain ⟨isRoot, gateOwner, view⟩ := openDurable_of_snapshot sound.tree sound.root file ownId h
  have retains := retains_retained saved
  have records : DurableStore.readRecords (snapshotOf saved.metadata saved.chunks.records)
      disk.chunkFiles = retained saved.metadata saved.chunks.records :=
    readRecords_snapshot fun id record found => ⟨(onDisk id record found).1,
      (onDisk id record found).2, sound.addressed id record (retains.old id record found)⟩
  rw [records] at view
  rw [view]
  have restoredFollows : Content.Follows host.view.content (saved.content.restored
      (retained saved.metadata saved.chunks.records) gateOwner) :=
    ⟨follows.acked, follows.dropped⟩
  refine ⟨{ sound := ?_, holds := stable.restored gateOwner sound holds retains, direct := rfl,
            host := ownId, peers := (soundPeers_iff _).mp own.2.1, unpaired := own.2.2,
            unchallenged := fun _ _ => rfl, files := ?_, backed := ?_ },
    restoredFollows⟩
  · exact sound.restored fun id record found =>
      sound.addressed id record (retains.old id record found)
  · intro disk' isDisk'
    obtain rfl := Option.some.inj isDisk'
    exact ⟨isRoot, OnDisk.swept onDisk⟩
  · intro disk' isDisk'
    obtain rfl := Option.some.inj isDisk'
    exact ⟨saved, generation, file, sound, holds,
      ⟨fun _ _ _ => le_refl _, fun _ mem gone => absurd mem gone⟩, rfl, rfl, OnDisk.swept onDisk,
      queued⟩

omit [Primitives] in
private theorem replaced {next : HostService → Result HostService} {host : HostService}
    {P : HostService → Prop} (same : P host) (done : ∀ t, next host = .ok t → P t) :
    P (replaceService next host).2 := by
  unfold replaceService
  cases h : next host with
  | ok t => exact done t h
  | error e => exact same

theorem Inv.perform (stable : Stable barred I) {host : HostService} (inv : Inv barred I host.view)
    (op : HostOp) : Inv barred I (op.perform host).2.view ∧
      Content.Follows host.view.content (op.perform host).2.view.content := by
  have kept : ∀ {x : Action Error HostService Unit}, Effective x →
      Inv barred I (x host).2.view ∧ Content.Follows host.view.content (x host).2.view.content :=
    fun effective => inv.effect stable (effective host)
  have unchanged : Inv barred I host.view ∧ Content.Follows host.view.content host.view.content :=
    ⟨inv, .refl _⟩
  cases op with
  | addMember env document => exact kept (addMember_effective env document)
  | commit env manifest => exact kept (commitManifest_effective env manifest)
  | kick env target code => exact kept (kickWithCode_effective env target code).discard
  | fanOutControl env sender update => exact kept (fanOutControl_effective env sender update)
  | mkdir env sender path => exact kept (mkdir_effective env sender path).discard
  | linkFile env sender path child => exact kept (linkFile_effective env sender path child)
  | unlink env sender path => exact kept (unlink_effective env sender path)
  | rename env sender source destination =>
    exact kept (rename_effective env sender source destination)
  | commitWriterUpload env sender manifest bodies link =>
    exact kept (commitWriterUpload_effective env sender manifest bodies link)
  | saveFile env writer path bodies =>
    exact kept (saveFile_effective env writer path bodies).discard
  | attachAdmission env metadata => exact kept (attachAdmission_effective env metadata)
  | setAdmission env metadata => exact kept (setAdmission_effective env metadata)
  | heartbeat env peer ttl => exact kept (.of_keeps (heartbeat_keeps env peer ttl))
  | takeOnlineControl env recipient =>
    exact kept (takeOnlineControl_effective env recipient).discard
  | refreshMailboxes => exact kept (.of_keeps refreshMailboxes_keeps)
  | appendMailbox env recipient fileId index =>
    exact kept (appendMailbox_effective env recipient fileId index)
  | issueFlushChallenge env recipient =>
    exact kept (Effective.of_aside (issueFlushChallenge_aside env recipient)).discard
  | prepareFlush peer challenge signature =>
    exact kept (Effective.of_keeps (prepareFlush_keeps peer challenge signature)).discard
  | acknowledgeFlush env peer prepared => exact kept (acknowledgeFlush_effective env peer prepared)
  | acknowledgeApplied env peer through => exact kept (acknowledgeApplied_effective env peer through)
  | putChunk env fileId index plaintext =>
    have outcome : Action.Ensures (HostOp.putChunk env fileId index plaintext).perform host
        fun _ t => Grown host.view t.view ∧ t.keys = host.keys ∧
          Relation.ReflTransGen (Content.Put t.view.world) host.view.content t.view.content :=
      .next (onChunks_put env.files fileId index plaintext host) (fun _ _ known => known)
        fun _ _ known => known
    exact inv.put stable outcome.1 outcome.2.2
  | stop => exact kept (.of_keeps fun _ => rfl)
  | rekey keys =>
    refine replaced (P := fun t => Inv barred I t.view ∧ Content.Follows host.view.content t.view.content)
      unchanged fun t h => ?_
    obtain ⟨_, own, h⟩ := Result.bind_eq_ok.mp h
    obtain rfl := Except.ok.inj h
    exact ⟨inv.rekeyed (ensure_eq_ok.mp own), .refl _⟩
  | resume keys =>
    refine replaced (P := fun t => Inv barred I t.view ∧ Content.Follows host.view.content t.view.content)
      unchanged fun t h => ?_
    obtain ⟨_, own, h⟩ := Result.bind_eq_ok.mp h
    exact inv.resumed stable (ensure_eq_ok.mp own) h
  | restart env keys members =>
    refine replaced (P := fun t => Inv barred I t.view ∧ Content.Follows host.view.content t.view.content)
      unchanged fun t h => ?_
    obtain ⟨_, own, h⟩ := Result.bind_eq_ok.mp h
    obtain ⟨disk, isDisk, h⟩ := Result.bind_eq_ok.mp h
    exact inv.restarted stable (ensure_eq_ok.mp own) (okOr_eq_ok.mp isDisk) h

omit [Primitives] in
def Content.initial (hostId : PeerId) (members historical : OrdSet PeerId) (root : FileId)
    (gateOwner : Nat) : Content where
  expectedRoot := root
  tree := DirectoryTree.new root
  ackedThrough := ∅
  hostId := hostId
  members := members
  denied := ∅
  historicalMembers := historical
  identityDocuments := ∅
  bootstrapThrough := ∅
  records := ∅
  manifests := ∅
  log := []
  nextControl := 1
  mailbox := fun _ => []
  online := fun _ => []
  gateOwner := gateOwner
  admission := none

theorem Content.Sound.initial {hostId : PeerId} {members : OrdSet PeerId}
    (historical : OrdSet PeerId) (root : FileId) (gateOwner : Nat) (member : hostId ∈ members) :
    (Content.initial hostId members historical root gateOwner).Sound where
  tree := DirectoryTree.valid_new root
  root := rfl
  log := .nil (le_refl 1)
  acked := fun peer => by
    change ((∅ : Map PeerId Nat)[peer]?).getD 0 < 1
    rw [Std.ExtTreeMap.getElem?_empty]
    exact Nat.one_pos
  bootstrap := fun peer => by
    change ((∅ : Map PeerId Nat)[peer]?).getD 0 < 1
    rw [Std.ExtTreeMap.getElem?_empty]
    exact Nat.one_pos
  host := member
  outside := fun _ _ => ⟨rfl, rfl⟩
  order := fun _ => .nil
  below := fun _ _ mem => absurd mem List.not_mem_nil
  logged := fun _ _ _ mem => absurd mem List.not_mem_nil
  addressed := fun id record found => by
    change ((∅ : Map ChunkId ChunkRecord)[id]?) = some record at found
    rw [Std.ExtTreeMap.getElem?_empty] at found
    cases found

omit [Primitives] in
theorem freshState_content (hostId : PeerId) (members : OrdSet PeerId) (root : FileId)
    (gateOwner : Nat) (metadata : Option ReplicaMetadata) :
    (freshState hostId members root gateOwner ⟨∅, metadata⟩).content =
      Content.initial hostId members members root gateOwner := by
  refine Content.ext rfl rfl rfl rfl rfl rfl rfl rfl rfl rfl rfl rfl rfl ?_ ?_ rfl rfl
  · funext peer
    change ((∅ : Map PeerId (List Queued))[peer]?.getD []).map Queued.content = []
    rw [Std.ExtTreeMap.getElem?_empty]
    rfl
  · funext peer
    change ((∅ : Map PeerId (List OnlineControl))[peer]?.getD []).map OnlineControl.record = []
    rw [Std.ExtTreeMap.getElem?_empty]
    rfl

def Initially (I : Content → Prop) : Prop :=
  ∀ {hostId : PeerId} {members : OrdSet PeerId} (historical : OrdSet PeerId) (root : FileId)
    (gateOwner : Nat), hostId ∈ members → I (Content.initial hostId members historical root gateOwner)

omit [Primitives] in
private theorem no_challenge (peer : PeerId) :
    (∅ : Map PeerId FlushChallenge).contains peer = false := Std.ExtTreeMap.contains_empty

private theorem newInVault_inv (initially : Initially I) {env : HostEnv} {keys : KeyStore}
    {members : OrdSet PeerId} {root : FileId} {host : HostService}
    (ofKeys : soundKeys keys)
    (h : newInVault env keys members ⟨∅, none⟩ root = .ok host) : Inv barred I host.view := by
  obtain ⟨hostId, isHost, h⟩ := Result.bind_eq_ok.mp h
  obtain ⟨_, member, h⟩ := Result.bind_eq_ok.mp h
  obtain ⟨gateOwner, _, h⟩ := Result.bind_eq_ok.mp h
  obtain rfl := Except.ok.inj h
  have member := ensure_eq_ok.mp member
  have content := freshState_content hostId members root gateOwner
    (some (freshState hostId members root gateOwner ⟨∅, none⟩).metadata)
  have sound := Content.Sound.initial members root gateOwner member
  have holds := initially members root gateOwner member
  rw [← content] at sound holds
  exact { sound, holds, direct := rfl, host := (peerId_eq_ok isHost).symm,
          peers := (soundPeers_iff _).mp ofKeys.1, unpaired := ofKeys.2,
          unchallenged := fun peer _ => no_challenge peer, files := nofun, backed := nofun }

omit [Primitives] in
private theorem emptyState_content (hostId : PeerId) (gateOwner : Nat) (root : FileId)
    (members : OrdSet PeerId) (chunks : ChunkStore) (empty : chunks.records = ∅) :
    HostState.content { restoreState hostId gateOwner
      { ReplicaMetadata.new root with members := members } (DirectoryTree.new root) chunks with
        expectedRoot := root } = Content.initial hostId members ∅ root gateOwner := by
  refine Content.ext rfl rfl rfl rfl rfl rfl rfl rfl rfl empty rfl rfl rfl ?_ ?_ rfl rfl
  · funext peer
    refine (mailbox_restoreState hostId gateOwner
      { ReplicaMetadata.new root with members := members } (DirectoryTree.new root) chunks
      peer).trans ?_
    change ((∅ : Map PeerId (List QueueContent))[peer]?).getD [] = []
    rw [Std.ExtTreeMap.getElem?_empty]
    rfl
  · funext peer
    change ((∅ : Map PeerId (List OnlineControl))[peer]?.getD []).map OnlineControl.record = []
    rw [Std.ExtTreeMap.getElem?_empty]
    rfl

private theorem openDurable_inv (settled : Settled I) (initially : Initially I) {env : HostEnv}
    {keys : KeyStore} {disk : DurableStore} {root : FileId} {members : OrdSet PeerId}
    {host : HostService} (ofKeys : soundKeys keys) (empty : disk.replicaFile = none)
    (h : openDurable env keys disk root members = .ok host) : Inv barred I host.view := by
  unfold openDurable at h
  obtain ⟨⟨opened, stored, chunks⟩, isOpened, h⟩ := Result.bind_eq_ok.mp h
  obtain ⟨hostId, isHost, h⟩ := Result.bind_eq_ok.mp h
  obtain ⟨_, member, h⟩ := Result.bind_eq_ok.mp h
  obtain ⟨_, _, h⟩ := Result.bind_eq_ok.mp h
  obtain ⟨tree, isTree, h⟩ := Result.bind_eq_ok.mp h
  obtain ⟨gateOwner, _, h⟩ := Result.bind_eq_ok.mp h
  unfold DurableStore.open at isOpened
  obtain ⟨_, _, isOpened⟩ := Result.bind_eq_ok.mp isOpened
  rw [empty] at isOpened
  simp only [pure, Except.pure, Except.ok.injEq, Prod.mk.injEq] at isOpened
  obtain ⟨rfl, rfl, rfl⟩ := isOpened
  have member : hostId ∈ members := ensure_eq_ok.mp member
  have sameTree : tree = DirectoryTree.new root := by
    have back := DirectoryTree.fromDirents_dirents (DirectoryTree.valid_new root)
    exact Except.ok.inj (isTree.symm.trans back)
  subst sameTree
  have content := emptyState_content hostId gateOwner root members ⟨∅, none⟩ rfl
  have sound := Content.Sound.initial ∅ root gateOwner member
  have holds := initially ∅ root gateOwner member
  rw [← content] at sound holds
  generalize base : serviceOf keys _ _ = service at h
  have living : Living barred I service.view := by
    rw [← base]
    refine { sound, holds, direct := rfl, host := (peerId_eq_ok isHost).symm,
             peers := (soundPeers_iff _).mp ofKeys.1, unpaired := ofKeys.2,
             unchallenged := fun peer _ => no_challenge peer, files := ?_ }
    intro disk isDisk
    obtain rfl := Option.some.inj isDisk
    refine ⟨rfl, fun id record found => ?_⟩
    change ((∅ : Map ChunkId ChunkRecord)[id]?) = some record at found
    rw [Std.ExtTreeMap.getElem?_empty] at found
    cases found
  have outcome : Action.Ensures (gateMailboxes >>= fun _ => publishFresh env true) service
      fun r t => r = .ok () → Inv barred I t.view := by
    refine .keeps gateMailboxes_keeps (fun _ _ _ _ => nofun) fun _ gated _ same => ?_
    have living : Living barred I gated.view := view_of_frame same ▸ living
    unfold publishFresh
    refine .get ?_
    rw [if_pos rfl]
    refine (publishState_outcome env gated.state gated).mono fun r t outcome => ?_
    rintro rfl
    cases outcome.2 with
    | done _ settles published =>
      exact (living.published settled (living.settled settled settles) published).1
  have result : (gateMailboxes >>= fun _ => publishFresh env true) service = (.ok (), host) :=
    returned_eq_ok h
  rw [Action.Ensures, result] at outcome
  exact outcome rfl

theorem Fresh.inv (settled : Settled I) (initially : Initially I) {host : HostService}
    (fresh : Fresh host) : Inv barred I host.view := by
  cases fresh with
  | memory ofKeys h => exact newInVault_inv initially ofKeys h
  | durable ofKeys empty h => exact openDurable_inv settled initially ofKeys empty h

theorem Inv.run (stable : Stable barred I) {host : HostService} (inv : Inv barred I host.view)
    (ops : List HostOp) : Inv barred I (machine.run ops host).view :=
  machine.run_invariant (I := fun host => Inv barred I host.view)
    (fun _ op inv => (inv.perform stable op).1) ops host inv

def nobody : PeerId → Prop := fun _ => False

theorem Stable.trivial : Stable nobody fun _ => True where
  outside := fun _ isBarred => isBarred.elim
  put := fun _ _ _ => True.intro
  commit := fun _ _ _ _ _ _ _ => True.intro
  settle := fun _ _ _ _ => True.intro
  enrol := fun _ _ _ _ _ _ _ _ => True.intro
  acknowledge := fun _ _ _ _ _ => True.intro
  drain := fun _ _ _ => True.intro
  take := fun _ _ _ => True.intro
  append := fun _ _ _ _ _ _ => True.intro
  attach := fun _ _ _ _ => True.intro
  admission := fun _ _ _ => True.intro
  retain := fun _ _ _ => True.intro
  resumed := fun _ _ => True.intro
  restored := fun _ _ _ _ => True.intro

/-- In every reachable state the log has no gap and ends before the next id, no position is
beyond it, and the next operation neither lowers the acknowledgement of a member nor drops
a record that some member has not acknowledged. -/
theorem log_and_acknowledgements {start : HostService} (fresh : Fresh start) (ops : List HostOp)
    (op : HostOp) :
    let s := (machine.run ops start).state
    let t := (machine.exec op (machine.run ops start)).state
    (∃ first, s.log.map ControlRecord.id = List.range' first s.log.length ∧
      first + s.log.length = s.nextControl) ∧
    (∀ (peer : PeerId) (through : Nat), s.ackedThrough[peer]? = some through →
      through ≤ s.nextControl - 1) ∧
    (∀ (peer : PeerId) (through : Nat), s.bootstrapThrough[peer]? = some through →
      through ≤ s.nextControl - 1) ∧
    (∀ peer ∈ s.members, peer ∈ t.members → s.ackedThroughOf peer ≤ t.ackedThroughOf peer) ∧
    ∀ record ∈ s.log, record ∉ t.log → ∀ peer ∈ t.members, record.id ≤ t.ackedThroughOf peer := by
  have inv := (fresh.inv Stable.trivial.toSettled fun _ _ _ _ => True.intro).run Stable.trivial ops
  have follows := (inv.perform Stable.trivial op).2
  obtain ⟨first, _, count, ids⟩ := inv.sound.log
  refine ⟨⟨first, ids, count⟩, fun peer through found => ?_, fun peer through found => ?_,
    follows.acked, follows.dropped⟩
  · have below : ((machine.run ops start).state.ackedThrough[peer]?).getD 0 < _ :=
      inv.sound.acked peer
    rw [found, Option.getD_some] at below
    exact Nat.le_sub_one_of_lt below
  · have below : ((machine.run ops start).state.bootstrapThrough[peer]?).getD 0 < _ :=
      inv.sound.bootstrap peer
    rw [found, Option.getD_some] at below
    exact Nat.le_sub_one_of_lt below

end

section

open NonceReuse (alice bob keyEnv aliceStore)

/-- Every file operation succeeds, and the clock stands still. -/
def calmEnv : HostEnv where
  clock := fun _ => 0
  unixTime := some 0
  unixMillis := 0
  fileId := some ⟨7⟩
  challenge := some ⟨9⟩
  joinCode := some ⟨5⟩
  gateOwner := some 1
  keys := keyEnv 0
  files := ⟨fun _ => .written, .written, fun _ => true, true⟩

def pairOf (left right : PeerId) : OrdSet PeerId := ((∅ : OrdSet PeerId).insert left).insert right

omit [Primitives] in
theorem eq_ok_of_get {α : Type} {r : Result α} (h : r.toOption.isSome = true) :
    r = .ok (r.toOption.get h) := by
  cases r with
  | ok a => rfl
  | error e => cases h

/-- Alice hosts a vault with Bob, who has never been there. -/
def aliceHost : HostService :=
  letI := Primitives.plain
  (newInVault calmEnv (aliceStore 1) (pairOf alice.document.peerId bob.document.peerId)
    ⟨∅, none⟩ ⟨3⟩).toOption.get (by decide +kernel)

omit [Primitives] in
theorem aliceHost_fresh : @Fresh Primitives.plain aliceHost :=
  letI := Primitives.plain
  .memory (by decide +kernel) (eq_ok_of_get _)

omit [Primitives] in
/-- The record of a directory stays in the log, since Bob has not acknowledged it. -/
theorem log_and_acknowledgements_mkdir :
    letI := Primitives.plain
    let ops := [HostOp.mkdir calmEnv alice.document.peerId "/docs"]
    let s := (machine.run ops aliceHost).state
    let t := (machine.exec (.acknowledgeApplied calmEnv bob.document.peerId 1)
      (machine.run ops aliceHost)).state
    s.log.length = 1 ∧ t.log.length = 0 ∧
      ∀ record ∈ s.log, record ∉ t.log → ∀ peer ∈ t.members,
        record.id ≤ t.ackedThroughOf peer :=
  letI := Primitives.plain
  ⟨by decide +kernel, by decide +kernel,
    (log_and_acknowledgements aliceHost_fresh _ _).2.2.2.2⟩

end

end QuantumFs.Host
