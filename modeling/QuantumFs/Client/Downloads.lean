import QuantumFs.Client.Commands
import QuantumFs.Client.Workspace
import QuantumFs.Member.Locate
import QuantumFs.Store.TreeRun

/-! Downloads of a vault task (`node/vault.rs`): the files that wait, the one that is fetched a batch
at each tick, and the pulls of other commands, which take its place until they are done. -/
namespace QuantumFs.Client

open Lib Store Net

def prefetchMaxBytes : Nat := 16 * 1024 * 1024

def pullBatch : Nat := 32

structure LocalReplica where
  tree : DirectoryTree
  manifests : Map FileId Manifest
  held : OrdSet ChunkId

/-- The chunks `missing` are those the store lacked at the start. -/
structure Download where
  nodeId : FileId
  missing : List ChunkId
  trusted : Manifest
  fetched : Nat
  present : Nat
  total : Nat
  counted : total = trusted.chunkIds.length
  parted : present + missing.length = total
  within : fetched ≤ missing.length
deriving DecidableEq

namespace Download

variable (download : Download)

def outstanding : List ChunkId := download.missing.drop download.fetched

def batch : List ChunkId := download.outstanding.take pullBatch

def advance : Download where
  nodeId := download.nodeId
  missing := download.missing
  trusted := download.trusted
  fetched := download.fetched + download.batch.length
  present := download.present
  total := download.total
  counted := download.counted
  parted := download.parted
  within := by
    have short : download.batch.length ≤ download.missing.length - download.fetched := by
      rw [batch, outstanding, List.length_take, List.length_drop]
      exact min_le_right _ _
    have := download.within
    omega

def progress : ℚ := min 1 (max 0 (((download.present + download.fetched : Nat) : ℚ) / ((max download.total 1 : Nat) : ℚ)))

end Download

structure Entry where
  isDir : Bool
  sizeBytes : Nat
  availability : Availability
  progress : Option ℚ

/-- The part of a task that has to do with downloads. While `pull_batches` runs, `aside` is the
transfer that it puts back afterwards; what it keeps of its own is that of the active one. -/
structure Transfers where
  root : FileId
  vaultName : String
  replica : Option LocalReplica
  entries : Map FileId Entry
  front : List FileId
  queue : List (Nat × FileId)
  active : Option Download
  aside : Option (Option Download)
  history : List FileId

namespace Transfers

/-- `spawn` -/
def start (root : FileId) (vaultName : String) : Transfers where
  root := root
  vaultName := vaultName
  replica := none
  entries := ∅
  front := []
  queue := []
  active := none
  aside := none
  history := []

section

variable (task : Transfers)

def held : OrdSet ChunkId := (task.replica.map LocalReplica.held).getD ∅

def trustedManifest (file : FileId) : Option Manifest := task.replica.bind fun replica => replica.manifests[file]?

def isLocal (trusted : Manifest) : Bool := task.replica.isSome && trusted.chunkIds.all fun chunk => chunk ∈ task.held

def missingChunks (trusted : Manifest) : List ChunkId := trusted.chunkIds.filter fun chunk => chunk ∉ task.held

theorem length_missingChunks (trusted : Manifest) : (task.missingChunks trusted).length ≤ trusted.chunkIds.length :=
  List.length_filter_le _ _

def download (nodeId : FileId) (trusted : Manifest) : Download where
  nodeId := nodeId
  missing := task.missingChunks trusted
  trusted := trusted
  fetched := 0
  present := trusted.chunkIds.length - (task.missingChunks trusted).length
  total := trusted.chunkIds.length
  counted := rfl
  parted := Nat.sub_add_cancel (task.length_missingChunks trusted)
  within := Nat.zero_le _

def availability (file : FileId) : Availability × Option ℚ :=
  if task.replica.isNone then (.remote, none)
  else if (task.trustedManifest file).any task.isLocal then (.local, none)
  else
    match task.active with
    | some active => if active.nodeId = file then (.downloading, some active.progress) else (.remote, none)
    | none => (.remote, none)

def requestDownload (nodeId : FileId) : Except String Transfers :=
  match task.entries[nodeId]? with
  | none => .error ("Unknown node: " ++ String.ofList (Text.hex (idBytes nodeId.val)))
  | some entry =>
    if entry.isDir then .error "Can't put things inside a file"
    else if entry.availability = .local then .ok task
    else .ok { task with
      queue := task.queue.filter fun queued => queued.2 ≠ nodeId
      front := nodeId :: task.front.filter (· ≠ nodeId) }

def wanted (queue : List (Nat × FileId)) (id : FileId) (entry : Entry) : Bool :=
  !(entry.isDir || entry.availability ≠ .remote || prefetchMaxBytes < entry.sizeBytes || task.entries.contains id ||
    queue.any (fun queued => queued.2 = id) || task.front.contains id || task.active.any fun active => active.nodeId = id)

def enqueuePrefetch (entries : Map FileId Entry) : Transfers :=
  let queue := entries.toList.foldl (fun queue (id, entry) =>
    if task.wanted queue id entry then queue ++ [(entry.sizeBytes, id)] else queue) task.queue
  { task with queue := queue.mergeSort fun a b => a.1 ≤ b.1 }

/-- A folder is always local. -/
def entry (node : Node) : Entry where
  isDir := node.isDir
  sizeBytes := ((task.trustedManifest node.id).map fun manifest => manifest.size.val).getD 0
  availability := if node.isDir then .local else (task.availability node.id).1
  progress := if node.isDir then none else (task.availability node.id).2

def project : Transfers :=
  let tree := (task.replica.map LocalReplica.tree).getD (DirectoryTree.new task.root)
  let entries := (walk tree task.vaultName).foldl (fun entries node => entries.insert node.id (task.entry node)) ∅
  { task.enqueuePrefetch entries with entries := entries }

end

/-- What comes of one `pull_one`: the answers of the host, what live records made of the replica
meanwhile, and the chunks that were stored. -/
structure Exchange where
  connected : Bool
  reply : Except String HaveReply
  meanwhile : Option LocalReplica
  stored : List ChunkId
  pulled : Except String Unit

def store (chunks : List ChunkId) (task : Transfers) : Transfers := { task with
  replica := task.replica.map fun replica => { replica with held := OrdSet.extend replica.held (OrdSet.ofList chunks) } }

def follow (exchange : Exchange) (task : Transfers) : Transfers := { task with
  replica := exchange.meanwhile.or task.replica }

/-- A batch has at most the 32 identifiers that both requests may carry. -/
def pullOne (batch : List ChunkId) (exchange : Exchange) : Action String Transfers Unit :=
  if batch = [] then pure ()
  else do
    Action.require (exchange.connected = true) "Not connected to the vault server yet"
    Action.modify (follow exchange)
    let reply ← Action.ofExcept exchange.reply
    Action.require (∃ index < batch.length, reply.has index = true) "No member online has those bytes yet"
    Action.modify (store exchange.stored)
    Action.ofExcept exchange.pulled

section

variable (task : Transfers)

def nextQueued : Option (FileId × Transfers) :=
  match task.front, task.queue with
  | nodeId :: front, _ => some (nodeId, { task with front })
  | [], (_, nodeId) :: queue => some (nodeId, { task with queue })
  | [], [] => none

end

def waiting (task : Transfers) : Nat := task.front.length + task.queue.length

def startNextLoop : Nat → Transfers → Transfers
  | 0, task => task
  | turns + 1, task =>
    match task.nextQueued with
    | none => task
    | some (nodeId, next) =>
      if next.entries.contains nodeId = false then startNextLoop turns next
      else if next.replica.isNone then next
      else
        match next.trustedManifest nodeId with
        | none => startNextLoop turns next
        | some trusted =>
          if next.missingChunks trusted = [] then startNextLoop turns next
          else { next with active := some (next.download nodeId trusted) }

/-- What cannot be fetched, and what is all there, is dropped from the queues. -/
def startNextDownload (task : Transfers) : Transfers := startNextLoop task.waiting task

section

variable (task : Transfers)

/-- `log` with the kind `Downloaded` -/
def finishDownload (nodeId : FileId) : Transfers := { task with active := none, history := task.history ++ [nodeId] }

/-- The task as it goes about its transfer. -/
def begun : Transfers := if task.active.isNone then task.startNextDownload else task

def advanceDownload (exchange : Exchange) : Transfers :=
  match task.begun.active with
  | none => task.begun
  | some active =>
    if active.batch = [] then task.begun.finishDownload active.nodeId
    else
      match pullOne active.batch exchange task.begun with
      | (.ok (), task) =>
        if active.advance.missing.length ≤ active.advance.fetched then task.finishDownload active.nodeId
        else { task with active := some active.advance }
      | (.error _, task) => { task with active := none }

/-- The start of `pull_batches` for a file that is not local. -/
def pullBatches (file : FileId) : Transfers :=
  match task.trustedManifest file with
  | none => task
  | some trusted =>
    if task.missingChunks trusted = [] then task
    else { task with active := some (task.download trusted.fileId trusted), aside := some task.active }

def pullNext (background : Option Download) (exchange : Exchange) : Transfers :=
  match task.active with
  | none => task
  | some active =>
    if active.outstanding = [] then { task with active := background, aside := none }
    else
      match pullOne active.batch exchange task with
      | (.ok (), task) => { task with active := some active.advance }.project
      | (.error _, task) => { task with active := background, aside := none }

end

/-- A `changed` replica is what anything but a pull makes of it: live records, saves, removals. -/
inductive Event where
  | request (nodeId : FileId)
  | project
  | tick (exchange : Exchange)
  | pull (file : FileId)
  | next (exchange : Exchange)
  | changed (replica : LocalReplica)

/-- A command that pulls is not interrupted. -/
def exec (task : Transfers) : Event → Transfers
  | .request nodeId => if task.aside.isNone then ((task.requestDownload nodeId).toOption).getD task else task
  | .project => task.project
  | .tick exchange => if task.aside.isNone then task.advanceDownload exchange else task
  | .pull file => if task.aside.isNone then task.pullBatches file else task
  | .next exchange =>
    match task.aside with
    | none => task
    | some background => task.pullNext background exchange
  | .changed replica => { task with replica := some replica }

def machine : Machine Transfers Event := ⟨fun event task => task.exec event⟩

end Transfers

def Complete (held : OrdSet ChunkId) (trusted : Manifest) : Prop := ∀ chunk ∈ trusted.chunkIds, chunk ∈ held

def heldShare (held : OrdSet ChunkId) (trusted : Manifest) : ℚ :=
  min 1 ((trusted.chunkIds.countP (· ∈ held) : ℚ) / trusted.chunkIds.length)

namespace Download

variable (download : Download)

/-- The chunks not asked for stand at all their places, and the other ones are in the store. -/
structure Accounted (held : OrdSet ChunkId) : Prop where
  places : download.trusted.chunkIds.filter (· ∈ download.outstanding) = download.outstanding
  others : ∀ chunk ∈ download.trusted.chunkIds, chunk ∉ download.outstanding → chunk ∈ held

def Fresh (held : OrdSet ChunkId) : Prop := ∀ chunk ∈ download.outstanding, chunk ∉ held

theorem outstanding_split : download.outstanding = download.batch ++ download.advance.outstanding := by
  have taken : download.batch = download.outstanding.take download.batch.length := by
    rw [batch, List.length_take, ← List.take_eq_take_min]
  have left : download.advance.outstanding = download.outstanding.drop download.batch.length := by
    rw [outstanding, outstanding, List.drop_drop]
    rfl
  rw [left]
  conv_rhs => lhs; rw [taken]
  exact (List.take_append_drop _ _).symm

variable {download} {held : OrdSet ChunkId}

theorem Accounted.listed (accounted : download.Accounted held) {chunk : ChunkId} (mem : chunk ∈ download.outstanding) :
    chunk ∈ download.trusted.chunkIds := by
  rw [← accounted.places] at mem
  exact List.mem_of_mem_filter mem

theorem Accounted.complete (accounted : download.Accounted held) (none : download.outstanding = []) :
    Complete held download.trusted := by
  intro chunk mem
  apply accounted.others chunk mem
  simp [none]

theorem Accounted.lacking (accounted : download.Accounted held) (fresh : download.Fresh held) :
    download.trusted.chunkIds.filter (· ∉ held) = download.outstanding := by
  conv_rhs => rw [← accounted.places]
  apply List.filter_congr
  intro chunk mem
  rw [decide_eq_decide]
  constructor
  · intro lacking
    by_contra asked
    exact lacking (accounted.others chunk mem asked)
  · exact fresh chunk

theorem Accounted.count (accounted : download.Accounted held) (fresh : download.Fresh held) :
    download.trusted.chunkIds.countP (· ∈ held) = download.present + download.fetched := by
  have split := List.length_eq_countP_add_countP (fun chunk => decide (chunk ∈ held)) (l := download.trusted.chunkIds)
  have lacking : download.trusted.chunkIds.countP (fun chunk => ¬ decide (chunk ∈ held) = true) = download.outstanding.length := by
    rw [← accounted.lacking fresh, List.countP_eq_length_filter]
    simp
  rw [lacking, outstanding, List.length_drop] at split
  have counted := download.counted
  have parted := download.parted
  have within := download.within
  omega

theorem Accounted.progress_eq (accounted : download.Accounted held) (fresh : download.Fresh held) :
    download.progress = heldShare held download.trusted := by
  have counted := accounted.count fresh
  unfold progress heldShare
  rw [counted, download.counted]
  obtain none | some := Nat.eq_zero_or_pos download.trusted.chunkIds.length
  · have zero : download.present + download.fetched = 0 := by
      rw [← counted, List.countP_eq_length_filter]
      have := List.length_filter_le (fun chunk => decide (chunk ∈ held)) download.trusted.chunkIds
      omega
    simp [none, zero]
  · rw [max_eq_left (Nat.succ_le_of_lt some), max_eq_right (by positivity)]

end Download

namespace Transfers

/-- A pull of another command has fetched the rest of a file, and the file is still that. -/
def Overtaken (task : Transfers) (download : Download) : Prop :=
  Complete task.held download.trusted ∧ task.trustedManifest download.nodeId = some download.trusted

def Accurate (task : Transfers) (download : Download) : Prop :=
  (download.Accounted task.held ∧ download.Fresh task.held) ∨ task.Overtaken download

def Laid (task : Transfers) (download : Download) : Prop :=
  download.Accounted task.held ∨ task.Overtaken download

/-- Nothing that a transfer has still to ask for has come in, or all of it has. -/
def Resumable (task : Transfers) (download : Download) : Prop := download.Fresh task.held ∨ task.Overtaken download

/-- Neither what is held of a manifest in transfer changes, nor, once that is all of it, which
manifest the file has. -/
structure Undisturbed (before after : Transfers) (download : Download) : Prop where
  held : ∀ chunk ∈ download.trusted.chunkIds, chunk ∈ after.held ↔ chunk ∈ before.held
  current : Complete before.held download.trusted →
    after.trustedManifest download.nodeId = before.trustedManifest download.nodeId

variable {task after : Transfers} {download : Download}

theorem Undisturbed.refl (task : Transfers) (download : Download) : Undisturbed task task download where
  held := fun _ _ => Iff.rfl
  current := fun _ => rfl

theorem Accurate.laid (accurate : task.Accurate download) : task.Laid download := by
  obtain ⟨accounted, -⟩ | overtaken := accurate
  · exact .inl accounted
  · exact .inr overtaken

theorem Laid.resume (laid : task.Laid download) (resumable : task.Resumable download) : task.Accurate download := by
  obtain accounted | overtaken := laid
  · obtain fresh | overtaken := resumable
    · exact .inl ⟨accounted, fresh⟩
    · exact .inr overtaken
  · exact .inr overtaken

theorem Undisturbed.overtaken (calm : Undisturbed task after download) (overtaken : task.Overtaken download) :
    after.Overtaken download := by
  obtain ⟨complete, current⟩ := overtaken
  constructor
  · intro chunk mem
    exact (calm.held chunk mem).mpr (complete chunk mem)
  · rw [calm.current complete, current]

theorem Undisturbed.accounted (calm : Undisturbed task after download) (accounted : download.Accounted task.held) :
    download.Accounted after.held where
  places := accounted.places
  others := fun chunk mem asked => (calm.held chunk mem).mpr (accounted.others chunk mem asked)

theorem Undisturbed.laid (calm : Undisturbed task after download) (laid : task.Laid download) : after.Laid download := by
  obtain accounted | overtaken := laid
  · exact .inl (calm.accounted accounted)
  · exact .inr (calm.overtaken overtaken)

theorem Undisturbed.accurate (calm : Undisturbed task after download) (accurate : task.Accurate download) :
    after.Accurate download := by
  obtain ⟨accounted, fresh⟩ | overtaken := accurate
  · refine .inl ⟨calm.accounted accounted, fun chunk mem inside => ?_⟩
    exact fresh chunk mem ((calm.held chunk (accounted.listed mem)).mp inside)
  · exact .inr (calm.overtaken overtaken)

theorem Accurate.congr (accurate : task.Accurate download) (same : after.replica = task.replica) :
    after.Accurate download := by
  apply Undisturbed.accurate _ accurate
  constructor <;> simp [held, trustedManifest, same]

theorem Laid.congr (laid : task.Laid download) (same : after.replica = task.replica) : after.Laid download := by
  apply Undisturbed.laid _ laid
  constructor <;> simp [held, trustedManifest, same]

theorem accurate_download (task : Transfers) (nodeId : FileId) (trusted : Manifest) :
    task.Accurate (task.download nodeId trusted) := by
  have outstanding : (task.download nodeId trusted).outstanding = task.missingChunks trusted := List.drop_zero
  have missing : ∀ chunk ∈ trusted.chunkIds, chunk ∈ task.missingChunks trusted ↔ chunk ∉ task.held := by
    intro chunk mem
    simp [missingChunks, mem]
  refine .inl ⟨⟨?_, fun chunk mem asked => ?_⟩, fun chunk mem => ?_⟩
  · rw [outstanding]
    apply List.filter_congr
    intro chunk mem
    rw [decide_eq_decide]
    exact missing chunk mem
  · rw [outstanding, missing chunk mem] at asked
    exact not_not.mp asked
  · rw [outstanding] at mem
    exact (missing chunk (List.mem_of_mem_filter mem)).mp mem

theorem startNextLoop_spec (turns : Nat) (task : Transfers) :
    (startNextLoop turns task).replica = task.replica ∧ (startNextLoop turns task).aside = task.aside ∧
      (startNextLoop turns task).history = task.history ∧ ((startNextLoop turns task).active = task.active ∨
        ∃ download, (startNextLoop turns task).active = some download ∧ (startNextLoop turns task).Accurate download) := by
  induction turns generalizing task with
  | zero => exact ⟨rfl, rfl, rfl, .inl rfl⟩
  | succ turns ih =>
    rw [startNextLoop]
    split
    · exact ⟨rfl, rfl, rfl, .inl rfl⟩
    · rename_i nodeId next taken
      have same : next.replica = task.replica ∧ next.aside = task.aside ∧ next.history = task.history ∧
          next.active = task.active := by
        unfold nextQueued at taken
        split at taken
        · cases taken
          exact ⟨rfl, rfl, rfl, rfl⟩
        · cases taken
          exact ⟨rfl, rfl, rfl, rfl⟩
        · cases taken
      obtain ⟨replica, aside, history, active⟩ := same
      have again := ih next
      rw [replica, aside, history, active] at again
      split
      · exact again
      · split
        · exact ⟨replica, aside, history, .inl active⟩
        · split
          · exact again
          · split
            · exact again
            · exact ⟨replica, aside, history, .inr ⟨_, rfl, accurate_download next nodeId _⟩⟩

theorem begun_spec (task : Transfers) :
    task.begun.replica = task.replica ∧ task.begun.aside = task.aside ∧ task.begun.history = task.history := by
  unfold begun
  split
  · obtain ⟨replica, aside, history, -⟩ := startNextLoop_spec task.waiting task
    exact ⟨replica, aside, history⟩
  · exact ⟨rfl, rfl, rfl⟩

theorem begun_accurate (accurate : ∀ download, task.active = some download → task.Accurate download) :
    ∀ download, task.begun.active = some download → task.begun.Accurate download := by
  unfold begun
  split
  · rename_i idle
    obtain ⟨-, -, -, same | ⟨download, active, started⟩⟩ := startNextLoop_spec task.waiting task
    · intro download active
      change (startNextLoop task.waiting task).active = some download at active
      rw [same, Option.isNone_iff_eq_none.mp idle] at active
      cases active
    · intro other active'
      obtain rfl := Option.some.inj (active.symm.trans active')
      exact started
  · exact accurate

theorem mem_held_store (chunks : List ChunkId) (task : Transfers) (chunk : ChunkId) :
    chunk ∈ (store chunks task).held ↔ chunk ∈ task.held ∨ (task.replica.isSome = true ∧ chunk ∈ chunks) := by
  unfold store held
  cases task.replica with
  | none => simp
  | some replica => simp [or_comm]

theorem trustedManifest_store (chunks : List ChunkId) (task : Transfers) (file : FileId) :
    (store chunks task).trustedManifest file = task.trustedManifest file := by
  unfold store trustedManifest
  cases task.replica with
  | none => rfl
  | some replica => rfl

theorem Overtaken.store (overtaken : task.Overtaken download) (chunks : List ChunkId) :
    (store chunks task).Overtaken download := by
  constructor
  · intro chunk mem
    exact (mem_held_store chunks task chunk).mpr (.inl (overtaken.1 chunk mem))
  · rw [trustedManifest_store, overtaken.2]

theorem Laid.store (laid : task.Laid download) (chunks : List ChunkId) : (store chunks task).Laid download := by
  obtain accounted | overtaken := laid
  · refine .inl ⟨accounted.places, fun chunk mem asked => ?_⟩
    exact (mem_held_store chunks task chunk).mpr (.inl (accounted.others chunk mem asked))
  · exact .inr (overtaken.store chunks)

def Exchange.Accepted (exchange : Exchange) (batch : List ChunkId) : Prop :=
  exchange.connected = true ∧ (∃ reply, exchange.reply = .ok reply ∧ ∃ index < batch.length, reply.has index = true) ∧
    exchange.pulled = .ok ()

/-- All that the batch asks for is in the store, and nothing that is asked for later has come in. -/
structure Delivered (task : Transfers) (exchange : Exchange) (download : Download) : Prop where
  calm : Undisturbed task (follow exchange task) download
  whole : ∀ chunk ∈ download.batch, chunk ∈ (store exchange.stored (follow exchange task)).held
  only : ∀ chunk ∈ download.advance.outstanding, chunk ∈ exchange.stored → chunk ∈ task.held

theorem Delivered.accurate {exchange : Exchange} (delivered : Delivered task exchange download)
    (accurate : task.Accurate download) : (store exchange.stored (follow exchange task)).Accurate download.advance := by
  obtain ⟨accounted, fresh⟩ | overtaken := accurate
  · have split := download.outstanding_split
    have later : ∀ chunk ∈ download.advance.outstanding, chunk ∈ download.outstanding := by
      intro chunk mem
      rw [split]
      exact List.mem_append_right _ mem
    have fresh' : download.advance.Fresh (store exchange.stored (follow exchange task)).held := by
      intro chunk mem inside
      have lacking := fresh chunk (later chunk mem)
      obtain held | ⟨-, stored⟩ := (mem_held_store _ _ chunk).mp inside
      · exact lacking ((delivered.calm.held chunk (accounted.listed (later chunk mem))).mp held)
      · exact lacking (delivered.only chunk mem stored)
    refine .inl ⟨⟨?_, fun chunk mem asked => ?_⟩, fresh'⟩
    · -- What is left stands in the rest of what was left before, since no chunk of the batch is in it.
      have apart : download.batch.filter (· ∈ download.advance.outstanding) = [] := by
        simp only [List.filter_eq_nil_iff, decide_eq_true_eq]
        intro chunk mem again
        exact fresh' chunk again (delivered.whole chunk mem)
      have inside : download.advance.outstanding.filter (· ∈ download.advance.outstanding) =
          download.advance.outstanding := by
        simp
      calc download.trusted.chunkIds.filter (· ∈ download.advance.outstanding)
          = (download.trusted.chunkIds.filter (· ∈ download.outstanding)).filter (· ∈ download.advance.outstanding) := by
            rw [List.filter_filter]
            apply List.filter_congr
            intro chunk _
            by_cases mem : chunk ∈ download.advance.outstanding
            · simp [mem, later chunk mem]
            · simp [mem]
        _ = download.outstanding.filter (· ∈ download.advance.outstanding) := by rw [accounted.places]
        _ = download.advance.outstanding := by
            conv_lhs => rw [split]
            rw [List.filter_append, apart, inside, List.nil_append]
    · obtain given | later := em (chunk ∈ download.outstanding)
      · rw [split] at given
        obtain given | later := List.mem_append.mp given
        · exact delivered.whole chunk given
        · exact absurd later asked
      · have held := (delivered.calm.held chunk mem).mpr (accounted.others chunk mem later)
        exact (mem_held_store _ _ chunk).mpr (.inl held)
  · exact .inr ((delivered.calm.overtaken overtaken).store exchange.stored)

/-- A batch either goes through or fails with the replica as it was, as live records left it, or with
what was stored before the error. -/
theorem pullOne_cases {batch : List ChunkId} (some : batch ≠ []) (exchange : Exchange) (task : Transfers) :
    (exchange.Accepted batch ∧ pullOne batch exchange task = (.ok (), store exchange.stored (follow exchange task))) ∨
      (¬ exchange.Accepted batch ∧ ∃ error after, pullOne batch exchange task = (.error error, after) ∧
        (after = task ∨ (exchange.connected = true ∧
          (after = follow exchange task ∨ after = store exchange.stored (follow exchange task))))) := by
  unfold pullOne
  rw [if_neg some]
  simp only [Action.bind_apply, Action.require, Action.ofExcept_apply, Action.modify_apply]
  by_cases connected : exchange.connected = true
  · simp only [if_pos connected, Action.pure_apply]
    cases replied : exchange.reply with
    | error text => exact .inr ⟨fun accepted => by simp [Exchange.Accepted, replied] at accepted, _, _, rfl, .inr ⟨connected, .inl rfl⟩⟩
    | ok reply =>
      dsimp only
      by_cases has : ∃ index < batch.length, reply.has index = true
      · rw [if_pos has]
        cases pulled : exchange.pulled with
        | ok => exact .inl ⟨⟨connected, ⟨reply, replied, has⟩, pulled⟩, rfl⟩
        | error text => exact .inr ⟨fun accepted => by simp [Exchange.Accepted, pulled] at accepted, _, _, rfl, .inr ⟨connected, .inr rfl⟩⟩
      · rw [if_neg has]
        refine .inr ⟨?_, _, _, rfl, .inr ⟨connected, .inl rfl⟩⟩
        rintro ⟨-, ⟨reply', replied', has'⟩, -⟩
        obtain rfl := Except.ok.inj (replied.symm.trans replied')
        exact has has'
  · rw [if_neg connected]
    exact .inr ⟨fun accepted => connected accepted.1, _, _, rfl, .inl rfl⟩

/-- An event that leaves every count right: a pull that goes through has brought what it asked for and
nothing that is asked for later, a transfer that is put back has been left alone or finished, and
nothing else touches the chunks of a manifest in transfer. -/
def Regular (task : Transfers) : Event → Prop
  | .tick exchange => ∀ active, task.aside = none → task.begun.active = some active → exchange.Accepted active.batch →
      Delivered task.begun exchange active
  | .next exchange => ∀ background active, task.aside = some background → task.active = some active →
      if active.outstanding = [] then ∀ laid, background = some laid → task.Resumable laid
      else (exchange.Accepted active.batch → Delivered task exchange active) ∧ ∀ laid, background = some laid →
        (exchange.connected = true → Undisturbed task (follow exchange task) laid) ∧
          (¬ exchange.Accepted active.batch → (pullOne active.batch exchange task).2.Resumable laid)
  | .changed replica => ∀ download, task.active = some download ∨ task.aside = some (some download) →
      Undisturbed task { task with replica := some replica } download
  | _ => True

/-- What is logged in a step is logged for a transfer all of whose manifest is in the store. -/
def Reports (task : Transfers) (event : Event) : Prop :=
  (task.exec event).history = task.history ∨ ∃ active, task.begun.active = some active ∧
    (task.exec event).history = task.history ++ [active.nodeId] ∧ Complete (task.exec event).held active.trusted

/-- The progress of a file is that of its manifest in transfer. -/
def ShowsShare (task : Transfers) : Prop :=
  ∀ file progress, (task.availability file).2 = some progress →
    ∃ active, task.active = some active ∧ active.nodeId = file ∧ progress = heldShare task.held active.trusted

structure Sound (task : Transfers) : Prop where
  active : ∀ download, task.active = some download → task.Accurate download
  aside : ∀ download, task.aside = some (some download) → task.Laid download

theorem Sound.start (root : FileId) (vaultName : String) : (start root vaultName).Sound := by
  constructor <;> simp [Transfers.start]

theorem Sound.congr (sound : task.Sound) (replica : after.replica = task.replica) (active : after.active = task.active)
    (aside : after.aside = task.aside) : after.Sound where
  active := fun download found => (sound.active download (active ▸ found)).congr replica
  aside := fun download found => (sound.aside download (aside ▸ found)).congr replica

theorem Sound.showsShare (sound : task.Sound) : task.ShowsShare := by
  intro file progress shown
  unfold availability at shown
  split at shown
  · cases shown
  · rename_i opened
    split at shown
    · cases shown
    · rename_i elsewhere
      cases found : task.active with
      | none => simp [found] at shown
      | some active =>
        simp only [found] at shown
        split at shown
        · rename_i here
          obtain rfl := Option.some.inj shown
          obtain ⟨accounted, fresh⟩ | ⟨complete, current⟩ := sound.active active found
          · exact ⟨active, rfl, here, accounted.progress_eq fresh⟩
          · -- Such a file is shown as local.
            refine absurd ?_ elsewhere
            rw [← here, current, Option.any_some, isLocal, Bool.and_eq_true, List.all_eq_true]
            refine ⟨?_, fun chunk mem => decide_eq_true (complete chunk mem)⟩
            rwa [Option.isNone_iff_eq_none, ← ne_eq, Option.ne_none_iff_isSome] at opened
        · cases shown

theorem Accurate.complete (accurate : task.Accurate download) (none : download.outstanding = []) :
    Complete task.held download.trusted := by
  obtain ⟨accounted, -⟩ | overtaken := accurate
  · exact accounted.complete none
  · exact overtaken.1

theorem Download.outstanding_eq_nil_of_batch {download : Download} (none : download.batch = []) : download.outstanding = [] := by
  unfold Download.batch at none
  rw [List.take_eq_nil_iff] at none
  exact none.resolve_left (by decide)

theorem sound_advanceDownload {exchange : Exchange} (sound : task.Sound) (idle : task.aside = none)
    (regular : task.Regular (.tick exchange)) : (task.advanceDownload exchange).Sound ∧
      ((task.advanceDownload exchange).history = task.history ∨ ∃ active, task.begun.active = some active ∧
        (task.advanceDownload exchange).history = task.history ++ [active.nodeId] ∧
          Complete (task.advanceDownload exchange).held active.trusted) := by
  obtain ⟨replica, aside, history⟩ := task.begun_spec
  have accurate := begun_accurate sound.active
  rw [idle] at aside
  unfold advanceDownload
  split
  · rename_i none
    refine ⟨⟨?_, ?_⟩, .inl history⟩
    · simp [none]
    · simp [aside]
  · rename_i active found
    have known := accurate active found
    split
    · rename_i none
      refine ⟨⟨?_, ?_⟩, .inr ⟨active, found, ?_, ?_⟩⟩
      · simp [finishDownload]
      · simp [finishDownload, aside]
      · rw [finishDownload, history]
      · exact known.complete (Download.outstanding_eq_nil_of_batch none)
    · rename_i some
      obtain ⟨accepted, pulled⟩ | ⟨-, error, after, failed, left⟩ := pullOne_cases some exchange task.begun
      · rw [pulled]
        have next := (regular active idle found accepted).accurate known
        dsimp only
        split
        · rename_i enough
          refine ⟨⟨?_, ?_⟩, .inr ⟨active, found, ?_, ?_⟩⟩
          · simp [finishDownload]
          · simp [finishDownload, store, follow, aside]
          · exact congrArg (· ++ [active.nodeId]) history
          · exact next.complete (List.drop_eq_nil_of_le enough)
        · refine ⟨⟨fun download here => ?_, ?_⟩, .inl history⟩
          · obtain rfl := Option.some.inj here
            exact next.congr rfl
          · simp [store, follow, aside]
      · rw [failed]
        have kept : after.aside = none ∧ after.history = task.history := by
          obtain rfl | ⟨-, rfl | rfl⟩ := left <;> exact ⟨aside, history⟩
        refine ⟨⟨?_, ?_⟩, .inl kept.2⟩
        · simp
        · simp [kept.1]

theorem sound_pullNext {exchange : Exchange} {background : Option Download} (sound : task.Sound)
    (waits : task.aside = some background) (regular : task.Regular (.next exchange)) :
    (task.pullNext background exchange).Sound ∧ (task.pullNext background exchange).history = task.history := by
  have restored : ∀ after : Transfers, (∀ laid, background = some laid → after.Laid laid ∧ after.Resumable laid) →
      Sound { after with active := background, aside := none } := by
    intro after known
    constructor
    · intro download found
      obtain ⟨laid, resumable⟩ := known download found
      exact (laid.resume resumable).congr rfl
    · simp
  unfold pullNext
  split
  · exact ⟨sound, rfl⟩
  · rename_i active found
    have given := regular background active waits found
    have laid : ∀ laid, background = some laid → task.Laid laid := by
      rintro laid rfl
      exact sound.aside laid waits
    split
    · rename_i none
      rw [if_pos none] at given
      exact ⟨restored task fun other isIt => ⟨laid other isIt, given other isIt⟩, rfl⟩
    · rename_i remains
      rw [if_neg remains] at given
      have nonempty : active.batch ≠ [] := fun none => remains (Download.outstanding_eq_nil_of_batch none)
      have followed : exchange.connected = true → ∀ other, background = some other →
          (follow exchange task).Laid other := fun connected other isIt =>
        ((given.2 other isIt).1 connected).laid (laid other isIt)
      obtain ⟨accepted, pulled⟩ | ⟨refused, error, after, failed, left⟩ := pullOne_cases nonempty exchange task
      · rw [pulled]
        have next := (given.1 accepted).accurate (sound.active active found)
        refine ⟨⟨fun download here => ?_, fun download here => ?_⟩, rfl⟩
        · obtain rfl := Option.some.inj here
          exact next.congr rfl
        · have isIt : background = some download := Option.some.inj (waits.symm.trans here)
          exact ((followed accepted.1 download isIt).store exchange.stored).congr rfl
      · rw [failed]
        have kept : after.history = task.history := by
          obtain rfl | ⟨-, rfl | rfl⟩ := left <;> rfl
        refine ⟨restored after fun other isIt => ⟨?_, ?_⟩, kept⟩
        · obtain rfl | ⟨connected, rfl | rfl⟩ := left
          · exact laid other isIt
          · exact followed connected other isIt
          · exact (followed connected other isIt).store exchange.stored
        · have resumable := (given.2 other isIt).2 refused
          rwa [failed] at resumable

theorem sound_pullBatches (sound : task.Sound) (file : FileId) :
    (task.pullBatches file).Sound ∧ (task.pullBatches file).history = task.history := by
  unfold pullBatches
  split
  · exact ⟨sound, rfl⟩
  · rename_i trusted _
    split
    · exact ⟨sound, rfl⟩
    · refine ⟨⟨fun download here => ?_, fun download here => ?_⟩, rfl⟩
      · obtain rfl := Option.some.inj here
        exact (accurate_download task trusted.fileId trusted).congr rfl
      · exact (sound.active download (Option.some.inj here)).laid.congr rfl

theorem requestDownload_spec {nodeId : FileId} (requested : task.requestDownload nodeId = .ok after) :
    after.replica = task.replica ∧ after.active = task.active ∧ after.aside = task.aside ∧ after.history = task.history := by
  unfold requestDownload at requested
  split at requested
  · cases requested
  · split at requested
    · cases requested
    · split at requested
      · cases requested
        exact ⟨rfl, rfl, rfl, rfl⟩
      · cases requested
        exact ⟨rfl, rfl, rfl, rfl⟩

theorem sound_exec (sound : task.Sound) (event : Event) (regular : task.Regular event) :
    (task.exec event).Sound ∧ task.Reports event := by
  cases event with
  | request nodeId =>
    unfold Reports
    simp only [exec]
    split
    · cases requested : task.requestDownload nodeId with
      | error text => exact ⟨sound, .inl rfl⟩
      | ok after =>
        obtain ⟨replica, active, aside, history⟩ := requestDownload_spec requested
        exact ⟨sound.congr replica active aside, .inl history⟩
    · exact ⟨sound, .inl rfl⟩
  | project => exact ⟨sound.congr rfl rfl rfl, .inl rfl⟩
  | tick exchange =>
    unfold Reports
    simp only [exec]
    split
    · rename_i idle
      exact sound_advanceDownload sound (Option.isNone_iff_eq_none.mp idle) regular
    · exact ⟨sound, .inl rfl⟩
  | pull file =>
    unfold Reports
    simp only [exec]
    split
    · obtain ⟨kept, history⟩ := sound_pullBatches sound file
      exact ⟨kept, .inl history⟩
    · exact ⟨sound, .inl rfl⟩
  | next exchange =>
    unfold Reports
    simp only [exec]
    split
    · exact ⟨sound, .inl rfl⟩
    · rename_i background waits
      obtain ⟨kept, history⟩ := sound_pullNext sound waits regular
      exact ⟨kept, .inl history⟩
  | changed replica =>
    refine ⟨⟨fun download found => ?_, fun download found => ?_⟩, .inl rfl⟩
    · exact (regular download (.inl found)).accurate (sound.active download found)
    · exact (regular download (.inr found)).laid (sound.aside download found)

theorem downloads_counted (root : FileId) (vaultName : String) (events : List Event)
    (regular : machine.Along Regular events (start root vaultName)) :
    machine.Along Reports events (start root vaultName) ∧ machine.Throughout ShowsShare events (start root vaultName) := by
  have sound := Sound.start root vaultName
  refine ⟨?_, Machine.Throughout.mono (I := Sound) (fun _ known => known.showsShare) ?_⟩
  · exact machine.along_of_step (P := Regular) (I := Sound) (fun _ event sound regular => sound_exec sound event regular) events _ sound regular
  · exact machine.throughout_of_step (P := Regular) (I := Sound) (fun _ event sound regular => (sound_exec sound event regular).1) events _ sound regular

section

open DirectoryTree

private def chunkIds (numbers : List Nat) : List ChunkId := numbers.map fun n => ⟨Fin.ofNat _ n⟩

private def video : LocalReplica :=
  ⟨treeMachine.run [.link ⟨0⟩ "x" ⟨2⟩ false] (DirectoryTree.new ⟨0⟩),
    (∅ : Map FileId Manifest).insert ⟨2⟩ ⟨⟨2⟩, chunkIds (List.range 33), 33, ⟨1⟩, 1, []⟩, ∅⟩

/-- A host says what it has of a batch, and some of it is stored. -/
private def answer (batch : List Nat) (bits : Bytes) (stored : List Nat) : Exchange :=
  ⟨true, .ok ⟨⟨2⟩, chunkIds batch, bits⟩, none, chunkIds stored, .ok ()⟩

private def wholeBatch : Exchange := answer (List.range 32) [255, 255, 255, 255] (List.range 32)

private def oneOfBatch : Exchange := answer (List.range 32) [1, 0, 0, 0] [0]

private def lastChunk : Exchange := answer [32] [1] [32]

private def queued : Transfers := machine.run [.changed video, .project] (start ⟨0⟩ "Vault")

/-- The host sends all that it is asked for. -/
theorem downloads_counted_video :
    machine.Along Reports [.changed video, .project, .tick wholeBatch, .tick lastChunk] (start ⟨0⟩ "Vault") ∧
      machine.Throughout ShowsShare [.changed video, .project, .tick wholeBatch, .tick lastChunk]
        (start ⟨0⟩ "Vault") := by
  apply downloads_counted
  refine ⟨?_, trivial, ?_, ?_, trivial⟩
  · intro download found
    simp [start] at found
  · intro active _ found _
    have brings : ∀ active ∈ queued.begun.active, (∀ chunk ∈ active.batch,
        chunk ∈ (store wholeBatch.stored (follow wholeBatch queued.begun)).held) ∧
        ∀ chunk ∈ active.advance.outstanding, chunk ∈ wholeBatch.stored → chunk ∈ queued.begun.held := by
      decide +kernel
    exact ⟨.refl _ _, (brings active found).1, (brings active found).2⟩
  · intro active _ found _
    have brings : ∀ active ∈ (queued.exec (.tick wholeBatch)).begun.active, (∀ chunk ∈ active.batch,
        chunk ∈ (store lastChunk.stored (follow lastChunk (queued.exec (.tick wholeBatch)).begun)).held) ∧
        ∀ chunk ∈ active.advance.outstanding, chunk ∈ lastChunk.stored →
          chunk ∈ (queued.exec (.tick wholeBatch)).begun.held := by
      decide +kernel
    exact ⟨.refl _ _, (brings active found).1, (brings active found).2⟩

/-- What the host can do while nothing else touches the replica: any part of a batch is stored. -/
def Answered (task : Transfers) : Event → Prop
  | .tick exchange => exchange.meanwhile = none ∧ ∀ active, task.begun.active = some active →
      ∀ chunk ∈ exchange.stored, chunk ∈ active.batch
  | .next exchange => exchange.meanwhile = none ∧ ∀ active, task.active = some active →
      ∀ chunk ∈ exchange.stored, chunk ∈ active.batch
  | .changed _ => task.active = none
  | _ => True

/-- The host has one chunk of the first batch: the progress shows the whole batch, and the next one
ends the download. -/
theorem downloaded_with_holes :
    (¬ ∀ root vaultName events, machine.Along Answered events (start root vaultName) →
      machine.Throughout ShowsShare events (start root vaultName)) ∧
    ¬ ∀ root vaultName events, machine.Along Answered events (start root vaultName) →
      machine.Along Reports events (start root vaultName) := by
  have first : ∀ active ∈ queued.begun.active, ∀ chunk ∈ oneOfBatch.stored, chunk ∈ active.batch := by decide +kernel
  constructor
  · intro always
    have shows := (always ⟨0⟩ "Vault" [.changed video, .project, .tick oneOfBatch]
      ⟨rfl, trivial, ⟨rfl, fun active found => first active found⟩, trivial⟩).final
    have shown : ((queued.exec (.tick oneOfBatch)).availability ⟨2⟩).2 = some (32 / 33) := by decide +kernel
    obtain ⟨active, found, -, share⟩ := shows ⟨2⟩ _ shown
    have one : ∀ active ∈ (queued.exec (.tick oneOfBatch)).active,
        heldShare (queued.exec (.tick oneOfBatch)).held active.trusted = 1 / 33 := by decide +kernel
    exact absurd (share.trans (one active found)) (by norm_num)
  · intro always
    have second : ∀ active ∈ (queued.exec (.tick oneOfBatch)).begun.active, ∀ chunk ∈ lastChunk.stored,
        chunk ∈ active.batch := by decide +kernel
    have along := always ⟨0⟩ "Vault" [.changed video, .project, .tick oneOfBatch, .tick lastChunk]
      ⟨rfl, trivial, ⟨rfl, fun active found => first active found⟩, ⟨rfl, fun active found => second active found⟩, trivial⟩
    obtain silent | ⟨active, found, -, complete⟩ := along.2.2.2.1
    · have logged : ((queued.exec (.tick oneOfBatch)).exec (.tick lastChunk)).history ≠
          (queued.exec (.tick oneOfBatch)).history := by decide +kernel
      exact logged silent
    · have lacks : ∀ active ∈ (queued.exec (.tick oneOfBatch)).begun.active, ∃ chunk ∈ active.trusted.chunkIds,
          chunk ∉ ((queued.exec (.tick oneOfBatch)).exec (.tick lastChunk)).held := by decide +kernel
      obtain ⟨chunk, mem, lacking⟩ := lacks active found
      exact lacking (complete chunk mem)

end

end Transfers

end QuantumFs.Client
