import QuantumFs.Client.Copying

/-! When a duplicate of a vault task is an exact copy. The projection that is made after a pull shows the copy itself,
so that a copy into a folder of its own source can meet what it has made. -/
namespace QuantumFs.Client

open Lib Store DirectoryTree

/-- What a path below a node leads to: a folder, or the content of a file. -/
def shape (host : HostTree) : FileId → List String → Option (Bool × Option Content)
  | id, [] => some (host.tree.isDir id, if host.tree.isDir id then none else host.bodies id)
  | id, name :: names => (host.tree.entries[direntKey id name]?).bind fun entry => shape host entry.child names

section

variable {tree : DirectoryTree}

theorem below_trans {id one other : FileId} (first : Below tree id one) (second : Below tree one other) :
    Below tree id other := by
  obtain ⟨chain, way, passes⟩ := first
  induction way with
  | root => cases passes
  | @step id entry above below found up ih =>
    rw [List.map_cons, List.mem_cons] at passes
    obtain rfl | later := passes
    · rwa [(entryOf_mem found).2] at second
    · obtain ⟨chain, way, passes⟩ := ih later
      exact ⟨_, .step below found way, List.mem_cons_of_mem _ passes⟩

theorem ne_root (valid : Valid tree) {entry : Dirent} (mem : entry ∈ tree.dirents) (named : entry.name ≠ "") :
    entry.child ≠ tree.expectedRoot := fun isRoot => named ((valid.child_eq_root mem).mp isRoot)

theorem below_linked (valid : Valid tree) {entry : Dirent} (mem : entry ∈ tree.dirents) (named : entry.name ≠ "") :
    Below tree entry.child entry.child := by
  obtain ⟨above, -, way⟩ := chain_parent valid mem named
  exact below_self way

theorem isDir_child (valid : Valid tree) {entry : Dirent} (mem : entry ∈ tree.dirents) :
    tree.isDir entry.child = entry.isDir := by
  rw [Bool.eq_iff_iff, isDir_iff]
  constructor
  · rintro (isRoot | ⟨other, there, same, isDir⟩)
    · rw [valid.nameless mem ((valid.child_eq_root mem).mp isRoot)]
      rfl
    · rwa [← valid.childUnique there mem same]
  · exact fun isDir => .inr ⟨entry, mem, rfl, isDir⟩

theorem mem_of_entries (valid : Valid tree) {parent : FileId} {name : String} {entry : Dirent}
    (found : tree.entries[direntKey parent name]? = some entry) :
    entry ∈ tree.dirents ∧ entry.parent = parent ∧ entry.name = name := by
  obtain ⟨rfl, rfl⟩ := direntKey_inj.mp (valid.keyed found)
  exact ⟨DirectoryTree.mem_dirents.mpr ⟨_, found⟩, rfl, rfl⟩

theorem entries_eq_none (valid : Valid tree) {id : FileId} (empty : ∀ entry ∈ tree.dirents, entry.parent ≠ id)
    (name : String) : tree.entries[direntKey id name]? = none := by
  rw [Option.eq_none_iff_forall_ne_some]
  intro entry found
  obtain ⟨mem, isParent, -⟩ := mem_of_entries valid found
  exact empty entry mem isParent

theorem not_inside_file (valid : Valid tree) {entry : Dirent} (mem : entry ∈ tree.dirents) (isFile : entry.isDir = false)
    {other : Dirent} (there : other ∈ tree.dirents) : other.parent ≠ entry.child := by
  intro same
  have isDir := valid.parentDir there
  rw [same, isDir_child valid mem, isFile] at isDir
  cases isDir

theorem entries_of_mem (valid : Valid tree) {entry : Dirent} (mem : entry ∈ tree.dirents) :
    tree.entries[direntKey entry.parent entry.name]? = some entry := (mem_dirents_iff_get valid).mp mem

end

namespace Extends

variable {folder : FileId} {names : List String} {before after : HostTree}

theorem shape (grown : Extends folder names before after) (valid : Valid before.tree) (validAfter : Valid after.tree)
    {entry : Dirent} (mem : entry ∈ before.tree.dirents) (named : entry.name ≠ "")
    (beside : ¬Below before.tree folder entry.child) (path : List String) :
    shape after entry.child path = shape before entry.child path := by
  induction path generalizing entry with
  | nil => rw [Client.shape, Client.shape, grown.isDir validAfter mem, grown.bodies entry mem]
  | cons first path ih =>
    have other : entry.child ≠ folder := by
      rintro rfl
      exact beside (below_linked valid mem named)
    rw [Client.shape, Client.shape,
      grown.entries valid validAfter (fun absent => absent entry mem rfl) (.inl other)]
    cases found : before.tree.entries[direntKey entry.child first]? with
    | none => rfl
    | some next =>
      obtain ⟨there, parent, rfl⟩ := mem_of_entries valid found
      have nextNamed : next.name ≠ "" := by
        intro nameless
        have isRoot := valid.nameless there nameless
        rw [isRoot] at parent
        exact named ((valid.child_eq_root mem).mp parent.symm)
      refine ih there nextNamed fun below => beside (below_trans below ((below_entry valid there nextNamed).mpr (.inr ?_)))
      rw [parent]
      exact below_linked valid mem named

end Extends

section

variable {host now : HostTree} {folder : FileId} {names : List String} {vaultName : String}

theorem shownIn_extends (valid : Valid host.tree) (validNow : Valid now.tree) (grown : Extends folder names host now)
    {id : FileId} (there : ¬Absent host.tree id) (other : id ≠ folder) : shownIn now.tree id = shownIn host.tree id := by
  have irrefl : Std.Irrefl fun a b : Dirent => a.key < b.key := ⟨fun a => lt_irrefl a.key⟩
  have antisymm : Std.Antisymm fun a b : Dirent => a.key < b.key :=
    ⟨fun a b less less' => absurd (less.trans less') (lt_irrefl _)⟩
  have same : (now.tree.dirents.filter fun entry => entry.name ≠ "" ∧ entry.parent = id) =
      host.tree.dirents.filter fun entry => entry.name ≠ "" ∧ entry.parent = id := by
    refine ((dirents_sorted validNow).filter _).eq_of_mem_iff ((dirents_sorted valid).filter _) fun entry => ?_
    simp only [List.mem_filter, decide_eq_true_eq]
    refine and_congr_left fun ⟨_, isParent⟩ => ⟨fun mem => ?_, grown.kept entry⟩
    obtain old | ⟨here, -⟩ | absent := grown.new entry mem
    · exact old
    · exact absurd (isParent.symm.trans here) other
    · exact absurd (isParent ▸ absent) there
  unfold shownIn childrenOf isSidecar
  rw [same, grown.root]

theorem listed_extends (valid : Valid host.tree) (validNow : Valid now.tree) (grown : Extends folder names host now)
    (few : folderCount now.tree ≤ walkGuard) {id : FileId} (listed : Listed host.tree vaultName id) :
    Listed now.tree vaultName id := by
  by_cases below : id = host.tree.expectedRoot
  · rw [below, ← grown.root]
    exact listed_root now.tree vaultName
  · obtain ⟨entry, mem, named, rfl⟩ := entry_of_listed valid listed below
    obtain ⟨above, up, way⟩ := chain_parent valid mem named
    obtain ⟨node, there, isChild⟩ := List.mem_map.mp listed
    obtain ⟨stack, placed⟩ := placed_walk valid vaultName
    obtain ⟨chain, way', visible, -⟩ := placed.nodes node there
    rw [isChild] at way'
    obtain rfl := way'.unique way
    have stillVisible : Visible now.tree (entry :: above) := by
      intro step inside
      have hidden := visible step inside
      unfold isSidecar at hidden ⊢
      rwa [grown.root]
    obtain ⟨node', there', shows⟩ := visible_walk validNow few vaultName (grown.kept entry mem) named
      (grown.chain validNow up) stillVisible
    exact List.mem_map.mpr ⟨node', there', shows.1⟩

theorem isDir_node (valid : Valid now.tree) {entry : Dirent} (mem : entry ∈ now.tree.dirents) (named : entry.name ≠ "")
    {node : Node} (found : requireNode (walk now.tree vaultName) entry.child = .ok node) : node.isDir = entry.isDir := by
  obtain ⟨there, isChild⟩ := (requireNode_eq_ok valid).mp found
  obtain ⟨-, isRoot⟩ | ⟨other, isOther, -, -, shows⟩ := (projected_walk there).source
  · exact absurd ((valid.child_eq_root mem).mp (isChild.symm.trans isRoot)) named
  · rw [shows.2.2.2, valid.childUnique isOther mem (shows.1.symm.trans isChild)]

end

/-- What is copied where: into `target` under `name`, from a vault of which `stored` are the files that are local. -/
structure Order where
  host : HostTree
  vaultName : String
  stored : FileId → Bool
  target : FileId
  name : String

namespace Order

variable (order : Order)

def Held (file : FileId) : Prop := ∀ content ∈ order.host.bodies file, (content.isEmpty || order.stored file) = true

def IsFile (file : FileId) : Prop :=
  ∃ entry ∈ order.host.tree.dirents, entry.name ≠ "" ∧ entry.child = file ∧ entry.isDir = false

/-- Of two jobs, the first comes to the file and the second to the target. -/
def Sooner (jobs : List (FileId × String)) (file : FileId) : Prop :=
  ∃ one other, [one, other].Sublist jobs ∧ Below order.host.tree file one.1 ∧ Below order.host.tree order.target other.1

/-- The children of a folder, in the order in which they are copied. -/
def children (folder : FileId) : List (FileId × String) := (shownIn order.host.tree folder).map jobOf

/-- A copy of the node comes to the file before it comes to the target. -/
def Ahead (node file : FileId) : Prop :=
  ∃ folder, Below order.host.tree folder node ∧ order.Sooner (order.children folder) file

def Early (jobs : List (FileId × String)) (file : FileId) : Prop :=
  order.Sooner jobs file ∨ ∃ job ∈ jobs, order.Ahead job.1 file

end Order

open Classical in
/-- The folders of the tree that are `nodeId` or below it. -/
noncomputable def foldersWithin (tree : DirectoryTree) (nodeId : FileId) : Nat :=
  (tree.dirents.filter fun entry => entry.isDir ∧ Below tree entry.child nodeId).length

theorem foldersWithin_le (tree : DirectoryTree) (nodeId : FileId) : foldersWithin tree nodeId ≤ folderCount tree := by
  refine (List.monotone_filter_right _ fun entry within => ?_).length_le
  have isFolder : entry.isDir = true ∧ Below tree entry.child nodeId := by simpa using within
  exact isFolder.1

/-- An order for the folder `source`, and `top`, the copy that is made. -/
structure Plan extends Order where
  source : FileId
  top : FileId

namespace Plan

variable (plan : Plan)

def entry : Dirent := ⟨plan.target, plan.name, plan.top, true⟩

/-- The projection shows nothing of the copy. -/
structure Calm (desk : CopyDesk) : Prop where
  nodes : desk.nodes = walk plan.host.tree plan.vaultName
  stored : ∀ entry ∈ plan.host.tree.dirents, desk.stored entry.child = plan.stored entry.child

def Refreshed (desk : CopyDesk) : Prop := ∃ now : HostTree, Valid now.tree ∧ Extends plan.target [plan.name] plan.host now ∧
  plan.entry ∈ now.tree.dirents ∧ folderCount now.tree ≤ walkGuard ∧ desk.nodes = walk now.tree plan.vaultName

/-- `used` are the folders that have been copied so far. -/
structure Midway (used : List FileId) (now : HostTree) : Prop where
  valid : Valid now.tree
  grown : Extends plan.target [plan.name] plan.host now
  top : plan.entry ∈ now.tree.dirents
  nodup : used.Nodup
  folders : ∀ folder ∈ used, ∃ entry ∈ plan.host.tree.dirents, entry.child = folder ∧ entry.isDir = true ∧
    Below plan.host.tree folder plan.source
  count : folderCount now.tree ≤ folderCount plan.host.tree + used.length

/-- The jobs are in a listed folder of the source, and none of their folders has been copied. -/
structure Ready (used : List FileId) (folder : FileId) (jobs : List (FileId × String)) : Prop where
  inside : Below plan.host.tree folder plan.source
  listed : Listed plan.host.tree plan.vaultName folder
  below : folder ≠ plan.host.tree.expectedRoot
  within : jobs.Sublist (plan.children folder)
  unused : ∀ job ∈ jobs, ∀ other ∈ used, ¬Below plan.host.tree other job.1

end Plan

/-- The vault is not so large that a projection leaves a folder out. -/
structure Plan.Sound (plan : Plan) : Prop where
  valid : Valid plan.host.tree
  few : folderCount plan.host.tree + foldersWithin plan.host.tree plan.source ≤ walkGuard
  isDir : plan.host.tree.isDir plan.target = true
  vacant : plan.host.tree.entries[direntKey plan.target plan.name]? = none
  fresh : Absent plan.host.tree plan.top

section

variable {plan : Plan} {used : List FileId} {now : HostTree} {folder : FileId} {job : FileId × String}
  {jobs : List (FileId × String)}

theorem Plan.Ready.entry (sound : plan.Sound) (ready : plan.Ready used folder jobs) (mem : job ∈ jobs) :
    ∃ entry ∈ plan.host.tree.dirents, entry.name ≠ "" ∧ entry.parent = folder ∧ jobOf entry = job ∧
      Listed plan.host.tree plan.vaultName entry.child := by
  obtain ⟨entry, isEntry, rfl⟩ := List.mem_map.mp (ready.within.subset mem)
  obtain ⟨there, named, rfl, -⟩ := mem_shownIn.mp isEntry
  have few := sound.few
  exact ⟨entry, there, named, rfl, rfl, listed_inside sound.valid (by omega) there named ready.below ready.listed⟩

theorem Plan.Ready.tail (ready : plan.Ready used folder (job :: jobs)) : plan.Ready used folder jobs :=
  ⟨ready.inside, ready.listed, ready.below, (List.sublist_cons_self _ _).trans ready.within,
    fun other mem => ready.unused other (List.mem_cons_of_mem _ mem)⟩

theorem Plan.Ready.nodup (sound : plan.Sound) (ready : plan.Ready used folder jobs) : (jobs.map Prod.fst).Nodup := by
  refine (ready.within.map Prod.fst).nodup ?_
  unfold Order.children
  rw [List.map_map]
  exact nodup_shownIn sound.valid folder

theorem Plan.Ready.apart (sound : plan.Sound) (ready : plan.Ready used folder jobs) {other : FileId × String}
    (mem : job ∈ jobs) (mem' : other ∈ jobs) {id : FileId} (below : Below plan.host.tree id job.1)
    (below' : Below plan.host.tree id other.1) : job.1 = other.1 := by
  obtain ⟨entry, there, named, rfl, rfl, -⟩ := ready.entry sound mem
  obtain ⟨entry', there', named', same, rfl, -⟩ := ready.entry sound mem'
  obtain nested | nested := below_linear below below'
  · exact ((below_entry sound.valid there named).mp nested).resolve_right fun above =>
      not_below_parent sound.valid there' named' (same ▸ above)
  · exact (((below_entry sound.valid there' named').mp nested).resolve_right fun above =>
      not_below_parent sound.valid there named (same ▸ above)).symm

theorem Plan.below_children (sound : plan.Sound) {id : FileId} (below : Below plan.host.tree id folder) (other : id ≠ folder)
    (notRoot : folder ≠ plan.host.tree.expectedRoot) : ∃ job ∈ plan.children folder, Below plan.host.tree id job.1 := by
  obtain ⟨chain, way, passes⟩ := below
  induction way with
  | root => cases passes
  | @step id entry above below found up ih =>
    obtain ⟨mem, rfl⟩ := entryOf_mem found
    have named : entry.name ≠ "" := fun none => below ((sound.valid.child_eq_root mem).mpr none)
    have here := below_self (.step below found up)
    rw [List.map_cons, List.mem_cons] at passes
    by_cases isParent : entry.parent = folder
    · refine ⟨jobOf entry, List.mem_map_of_mem (mem_shownIn.mpr ⟨mem, named, isParent, ?_⟩), here⟩
      unfold isSidecar
      simp [isParent, notRoot]
    · obtain ⟨job, isJob, below⟩ := ih isParent (passes.resolve_left (Ne.symm other))
      exact ⟨job, isJob, (below_entry sound.valid mem named).mpr (.inr below)⟩

theorem Plan.below_child (sound : plan.Sound) (mem : job ∈ plan.children folder)
    (notRoot : folder ≠ plan.host.tree.expectedRoot) : Below plan.host.tree job.1 folder := by
  obtain ⟨entry, isEntry, rfl⟩ := List.mem_map.mp mem
  obtain ⟨there, named, rfl, -⟩ := mem_shownIn.mp isEntry
  obtain ⟨holder, isHolder, isChild, -⟩ := (isDir_iff.mp (sound.valid.parentDir there)).resolve_left notRoot
  have named' : holder.name ≠ "" := fun none => notRoot (isChild ▸ (sound.valid.child_eq_root isHolder).mpr none)
  have below := below_linked sound.valid isHolder named'
  rw [isChild] at below
  exact (below_entry sound.valid there named).mpr (.inr below)

theorem Plan.ahead_iff (sound : plan.Sound) (notRoot : folder ≠ plan.host.tree.expectedRoot)
    (self : Below plan.host.tree folder folder) {file : FileId} :
    plan.Ahead folder file ↔ plan.Early (plan.children folder) file := by
  constructor
  · rintro ⟨inner, below, sooner⟩
    by_cases same : inner = folder
    · exact .inl (same ▸ sooner)
    · obtain ⟨job, mem, inside⟩ := plan.below_children sound below same notRoot
      exact .inr ⟨job, mem, inner, inside, sooner⟩
  · rintro (sooner | ⟨job, mem, inner, inside, sooner⟩)
    · exact ⟨folder, self, sooner⟩
    · exact ⟨inner, below_trans inside (plan.below_child sound mem notRoot), sooner⟩

end

section

variable {plan : Plan} {env : CopyEnv} {desk : CopyDesk} {used : List FileId} {now next : HostTree} {folder parent : FileId}

theorem Plan.Sound.walks (sound : plan.Sound) : folderCount plan.host.tree ≤ walkGuard := by
  have few := sound.few
  omega

theorem Plan.read_children (sound : plan.Sound) (view : plan.Calm desk ∨ plan.Refreshed desk)
    (listed : Listed plan.host.tree plan.vaultName folder) (notRoot : folder ≠ plan.host.tree.expectedRoot)
    (other : folder = plan.target → plan.Calm desk) : copied desk.nodes folder = plan.children folder := by
  obtain ⟨entry, mem, -, rfl⟩ := entry_of_listed sound.valid listed notRoot
  by_cases calm : plan.Calm desk
  · rw [calm.nodes]
    exact copied_listed sound.valid sound.walks notRoot listed
  · obtain ⟨now, valid, grown, -, few, isWalk⟩ := view.resolve_left calm
    rw [isWalk, copied_listed valid few (by rwa [grown.root]) (listed_extends sound.valid valid grown few listed),
      shownIn_extends sound.valid valid grown (fun absent => absent entry mem rfl) (mt other calm)]
    rfl

theorem Plan.read_kind (sound : plan.Sound) (view : plan.Calm desk ∨ plan.Refreshed desk) {entry : Dirent}
    (mem : entry ∈ plan.host.tree.dirents) (named : entry.name ≠ "") {node : Node}
    (found : requireNode desk.nodes entry.child = .ok node) : node.isDir = entry.isDir := by
  obtain calm | ⟨now, valid, grown, -, few, isWalk⟩ := view
  · rw [calm.nodes] at found
    exact isDir_node sound.valid mem named found
  · rw [isWalk] at found
    exact isDir_node valid (grown.kept entry mem) named found

theorem Plan.shows_view (sound : plan.Sound) (vault : env.vaultName = plan.vaultName)
    (view : plan.Calm desk ∨ plan.Refreshed desk) : desk.Shows env := by
  obtain calm | ⟨now, valid, -, -, -, isWalk⟩ := view
  · exact ⟨_, sound.valid, by rw [calm.nodes, vault]⟩
  · exact ⟨_, valid, by rw [isWalk, vault]⟩

theorem folderCount_insertEntry {tree : DirectoryTree} {entry : Dirent} (valid : Valid tree)
    (linkable : Linkable tree entry) :
    folderCount (tree.insertEntry entry) ≤ folderCount tree + if entry.isDir then 1 else 0 := by
  have nodup : ((tree.insertEntry entry).dirents.filter (·.isDir)).Nodup := by
    refine List.Nodup.filter _ ((dirents_sorted (valid_insertEntry valid linkable)).imp fun less same => ?_)
    rw [same] at less
    exact lt_irrefl _ less
  have inside : (tree.insertEntry entry).dirents.filter (·.isDir) ⊆
      (if entry.isDir then [entry] else []) ++ tree.dirents.filter (·.isDir) := by
    intro other mem
    obtain ⟨there, isDir⟩ := List.mem_filter.mp mem
    obtain rfl | old := (mem_insertEntry linkable.vacant).mp there
    · rw [if_pos isDir]
      exact List.mem_cons_self
    · exact List.mem_append_right _ (List.mem_filter.mpr ⟨old, isDir⟩)
  have short := (nodup.subperm inside).length_le
  rw [List.length_append] at short
  unfold folderCount
  cases isDir : entry.isDir with
  | true =>
    rw [isDir, if_pos rfl, List.length_singleton] at short
    rw [if_pos rfl]
    omega
  | false =>
    rw [isDir, if_neg Bool.false_ne_true, List.length_nil] at short
    rw [if_neg Bool.false_ne_true]
    omega

namespace Plan.Midway

variable (midway : plan.Midway used now)

include midway

theorem few (sound : plan.Sound) : folderCount now.tree ≤ walkGuard := by
  have short : used.length ≤ foldersWithin plan.host.tree plan.source := by
    unfold foldersWithin
    rw [← List.length_map (f := Dirent.child)]
    refine (midway.nodup.subperm fun folder mem => ?_).length_le
    obtain ⟨entry, there, rfl, isDir, below⟩ := midway.folders folder mem
    exact List.mem_map_of_mem (List.mem_filter.mpr ⟨there, by simpa using ⟨isDir, below⟩⟩)
  have count := midway.count
  have few := sound.few
  omega

theorem insert {entry : Dirent} (linkable : Linkable now.tree entry) (absent : Absent plan.host.tree entry.parent)
    (bodies : FileId → Option Content) (same : ∀ id, id ≠ entry.child → bodies id = now.bodies id) (fresh : List FileId)
    (nodup : (fresh ++ used).Nodup)
    (folders : ∀ folder ∈ fresh, ∃ entry ∈ plan.host.tree.dirents, entry.child = folder ∧ entry.isDir = true ∧
      Below plan.host.tree folder plan.source)
    (count : (if entry.isDir then 1 else 0) ≤ fresh.length) :
    plan.Midway (fresh ++ used) ⟨now.tree.insertEntry entry, bodies⟩ where
  valid := valid_insertEntry midway.valid linkable
  grown := midway.grown.under absent (extends_insertEntry linkable bodies same)
  top := (mem_insertEntry linkable.vacant).mpr (.inr midway.top)
  nodup := nodup
  folders folder mem := (List.mem_append.mp mem).elim (folders folder) (midway.folders folder)
  count := by
    have more := folderCount_insertEntry midway.valid linkable
    have known := midway.count
    rw [List.length_append]
    dsimp only
    omega

end Plan.Midway

end

/-- What is copied of some jobs: the projection is made anew once a file has to be pulled, and the copies have the
shapes of the sources. -/
structure Plan.Done (plan : Plan) (used : List FileId) (parent : FileId) (jobs : List (FileId × String)) (desk : CopyDesk)
    (copies : List FileId) (last : CopyDesk) : Prop where
  midway : ∃ all, plan.Midway all last.host ∧ ∀ folder ∈ all, folder ∈ used ∨ ∃ job ∈ jobs, Below plan.host.tree folder job.1
  refreshed : plan.Refreshed desk → plan.Refreshed last
  calm : plan.Calm desk → (∀ file, plan.IsFile file → (∃ job ∈ jobs, Below plan.host.tree file job.1) → plan.Held file) →
    plan.Calm last
  pulled : plan.Calm desk → ∀ file, plan.IsFile file → (∃ job ∈ jobs, Below plan.host.tree file job.1) → ¬plan.Held file →
    plan.Refreshed last
  shapes : List.Forall₂ (fun job copy => (∃ isDir, ⟨parent, job.2, copy, isDir⟩ ∈ last.host.tree.dirents) ∧
    ∀ path, shape last.host copy path = shape plan.host job.1 path) jobs copies

section

variable {plan : Plan} {env : CopyEnv} {desk next last : CopyDesk} {used : List FileId} {folder parent nodeId copy : FileId}
  {name : String} {names : List String} {rest : List (FileId × String)} {copies : List FileId}

theorem Plan.Done.view (done : plan.Done used parent rest desk copies last) (view : plan.Calm desk ∨ plan.Refreshed desk) :
    plan.Calm last ∨ plan.Refreshed last := by
  obtain calm | refreshed := view
  · by_cases held : ∀ file, plan.IsFile file → (∃ job ∈ rest, Below plan.host.tree file job.1) → plan.Held file
    · exact .inl (done.calm calm held)
    · push Not at held
      obtain ⟨file, isFile, below, missing⟩ := held
      exact .inr (done.pulled calm file isFile below missing)
  · exact .inr (done.refreshed refreshed)

theorem Plan.Done.cons {now : List FileId} (first : plan.Done used parent [(nodeId, name)] desk [copy] next)
    (only : ∀ folder ∈ now, folder ∈ used ∨ Below plan.host.tree folder nodeId)
    (valid : Valid next.host.tree) (added : Added parent rest next.host copies last.host)
    (named : ∀ isDir, ⟨parent, name, copy, isDir⟩ ∈ next.host.tree.dirents → name ≠ "")
    (later : plan.Done now parent rest next copies last) :
    plan.Done used parent ((nodeId, name) :: rest) desk (copy :: copies) last where
  midway := by
    obtain ⟨all, midway, within⟩ := later.midway
    refine ⟨all, midway, fun folder mem => ?_⟩
    obtain isNow | ⟨job, isJob, below⟩ := within folder mem
    · exact (only folder isNow).imp_right fun below => ⟨_, List.mem_cons_self, below⟩
    · exact .inr ⟨job, List.mem_cons_of_mem _ isJob, below⟩
  refreshed refreshed := later.refreshed (first.refreshed refreshed)
  calm calm held := by
    refine later.calm (first.calm calm fun file isFile ⟨job, mem, below⟩ => held file isFile ⟨job, ?_, below⟩)
      fun file isFile ⟨job, mem, below⟩ => held file isFile ⟨job, List.mem_cons_of_mem _ mem, below⟩
    rw [List.mem_singleton.mp mem]
    exact List.mem_cons_self
  pulled calm file isFile below missing := by
    by_cases held : ∀ file, plan.IsFile file → (∃ job ∈ [(nodeId, name)], Below plan.host.tree file job.1) → plan.Held file
    · obtain ⟨job, mem, below⟩ := below
      obtain rfl | mem := List.mem_cons.mp mem
      · exact absurd (held file isFile ⟨_, List.mem_singleton_self _, below⟩) missing
      · exact later.pulled (first.calm calm held) file isFile ⟨job, mem, below⟩ missing
    · push Not at held
      obtain ⟨other, isOther, inside, absent⟩ := held
      exact later.refreshed (first.pulled calm other isOther inside absent)
  shapes := by
    obtain ⟨⟨⟨isDir, here⟩, same⟩, -⟩ := List.forall₂_cons.mp first.shapes
    refine .cons ⟨⟨isDir, added.grown.kept _ here⟩, fun path => ?_⟩ later.shapes
    rw [← same path]
    exact added.grown.shape valid added.valid here (named isDir here) (not_below_parent valid here (named isDir here)) path

theorem Plan.Midway.refreshed {now : HostTree} (sound : plan.Sound) (midway : plan.Midway used now)
    (walked : desk.nodes = walk now.tree plan.vaultName) : plan.Refreshed desk :=
  ⟨now, midway.valid, midway.grown, midway.top, midway.few sound, walked⟩

theorem Plan.Refreshed.congr (refreshed : plan.Refreshed desk) (same : last.nodes = desk.nodes) : plan.Refreshed last := by
  unfold Plan.Refreshed
  rw [same]
  exact refreshed

theorem Plan.below_file (sound : plan.Sound) {entry : Dirent} (mem : entry ∈ plan.host.tree.dirents) (named : entry.name ≠ "")
    (isFile : entry.isDir = false) {file : FileId} (below : Below plan.host.tree file entry.child) : file = entry.child := by
  by_contra other
  have notRoot := ne_root sound.valid mem named
  obtain ⟨job, isJob, -⟩ := plan.below_children sound below other notRoot
  obtain ⟨child, isChild, -⟩ := List.mem_map.mp isJob
  obtain ⟨there, -, isParent, -⟩ := mem_shownIn.mp isChild
  exact not_inside_file sound.valid mem isFile there isParent

theorem shape_file {host now : HostTree} {file made : Dirent} {content : Content} (valid : Valid host.tree)
    (validNow : Valid now.tree) (mem : file ∈ host.tree.dirents) (there : made ∈ now.tree.dirents) (isFile : file.isDir = false)
    (isFileNow : made.isDir = false) (holds : host.bodies file.child = some content)
    (holdsNow : now.bodies made.child = some content) (path : List String) :
    shape now made.child path = shape host file.child path := by
  cases path with
  | nil => rw [shape, shape, isDir_child validNow there, isDir_child valid mem, isFile, isFileNow, holds, holdsNow]
  | cons first path =>
    rw [shape, shape, entries_eq_none validNow fun _ inside => not_inside_file validNow there isFileNow inside,
      entries_eq_none valid fun _ inside => not_inside_file valid mem isFile inside]
    rfl

theorem Plan.done_file (sound : plan.Sound) (vault : env.vaultName = plan.vaultName) {way : List Dirent}
    (free : Free desk.host.tree parent way (name :: names)) (absent : Absent plan.host.tree parent)
    (midway : plan.Midway used desk.host) (view : plan.Calm desk ∨ plan.Refreshed desk) {entry : Dirent}
    (mem : entry ∈ plan.host.tree.dirents) (named : entry.name ≠ "") {node : Node} {content : Content} {pulled : CopyDesk}
    (found : requireNode desk.nodes entry.child = .ok node) (isFile : node.isDir = false)
    (read : desk.fileBodies env entry.child = some (content, pulled))
    (save : pulled.saveFile env ⟨vaultPath (namesOf way), name, []⟩ content = some (copy, next)) :
    plan.Done used parent [(entry.child, name)] desk [copy] next ∧ plan.Midway used next.host ∧
      Extends parent [name] desk.host next.host := by
  rw [plan.read_kind sound view mem named found] at isFile
  obtain ⟨isContent, outcome⟩ := fileBodies_eq_some read
  rw [midway.grown.bodies entry mem] at isContent
  have same : pulled.host = desk.host := by
    obtain ⟨-, rfl⟩ | ⟨-, rfl⟩ := outcome <;> rfl
  have first : name ∈ name :: names := List.mem_cons_self
  rw [← same] at free midway ⊢
  obtain ⟨linkable, rfl⟩ :=
    saveFile_place free.valid free.up free.isDir (free.plain name first) (free.vacant name first) save
  have grown := extends_insertEntry linkable (Function.update pulled.host.bodies copy (some content)) fun id other =>
    Function.update_of_ne other _ _
  have after := midway.insert linkable absent (Function.update pulled.host.bodies copy (some content))
    (fun id other => Function.update_of_ne other _ _) [] midway.nodup nofun (Nat.zero_le _)
  have here := (mem_insertEntry linkable.vacant).mpr (.inl rfl)
  have other : ∀ old ∈ plan.host.tree.dirents, old.child ≠ copy := fun old there =>
    linkable.unlinked old (midway.grown.kept old there)
  have only : ∀ file, (∃ job ∈ [(entry.child, name)], Below plan.host.tree file job.1) → file = entry.child := by
    rintro file ⟨job, isJob, below⟩
    obtain rfl := List.mem_singleton.mp isJob
    exact plan.below_file sound mem named isFile below
  have isLocal : desk.isLocal entry.child content = (content.isEmpty || desk.stored entry.child) := rfl
  have pulls : desk.isLocal entry.child content = false → plan.Refreshed pulled := by
    intro missing
    obtain ⟨held, -⟩ | ⟨-, rfl⟩ := outcome
    · rw [missing] at held
      cases held
    · exact midway.refreshed sound (congrArg (walk desk.host.tree) vault)
  refine ⟨⟨⟨used, after, fun _ isUsed => .inl isUsed⟩, fun refreshed => ?_, fun calm held => ?_,
    fun calm file isFile' below missing => ?_, .cons ⟨⟨false, here⟩, fun path => ?_⟩ .nil⟩, after, grown⟩
  · obtain ⟨-, rfl⟩ | ⟨missing, -⟩ := outcome
    · exact refreshed.congr rfl
    · exact (pulls missing).congr rfl
  · have isHeld := held entry.child ⟨entry, mem, named, rfl, isFile⟩ ⟨_, List.mem_singleton_self _, ?_⟩ content isContent
    · rw [← calm.stored entry mem, ← isLocal] at isHeld
      obtain ⟨-, rfl⟩ | ⟨missing, -⟩ := outcome
      · exact ⟨calm.nodes, fun old there => (Function.update_of_ne (other old there) _ _).trans (calm.stored old there)⟩
      · rw [missing] at isHeld
        cases isHeld
    · exact below_linked sound.valid mem named
  · rw [only file below] at missing
    refine (pulls (Bool.eq_false_iff.mpr fun held => missing fun other isOther => ?_)).congr rfl
    obtain rfl : content = other := Option.some.inj (isContent.symm.trans isOther)
    rw [← calm.stored entry mem, ← isLocal]
    exact held
  · exact shape_file sound.valid after.valid mem here isFile rfl isContent (Function.update_self _ _ _) path

theorem mem_zip_left {α β : Type} {as : List α} {bs : List β} (same : as.length = bs.length) {a : α} (mem : a ∈ as) :
    ∃ b, (a, b) ∈ as.zip bs := by
  rw [← List.map_fst_zip same.le] at mem
  obtain ⟨⟨_, b⟩, isPair, rfl⟩ := List.mem_map.mp mem
  exact ⟨b, isPair⟩

theorem shape_folder {host now : HostTree} {folder copy : FileId} (valid : Valid host.tree) (validNow : Valid now.tree)
    (isDir : host.tree.isDir folder = true) (isDirNow : now.tree.isDir copy = true)
    (same : ∀ entry ∈ host.tree.dirents, entry.parent = folder → ∃ other ∈ now.tree.dirents, other.parent = copy ∧
      other.name = entry.name ∧ ∀ path, shape now other.child path = shape host entry.child path)
    (only : ∀ other ∈ now.tree.dirents, other.parent = copy → ∃ entry ∈ host.tree.dirents,
      entry.parent = folder ∧ entry.name = other.name) (path : List String) :
    shape now copy path = shape host folder path := by
  cases path with
  | nil => rw [shape, shape, isDir, isDirNow, if_pos rfl, if_pos rfl]
  | cons first path =>
    rw [shape, shape]
    cases found : host.tree.entries[direntKey folder first]? with
    | some entry =>
      obtain ⟨mem, isParent, rfl⟩ := mem_of_entries valid found
      obtain ⟨other, there, rfl, named, shapes⟩ := same entry mem isParent
      have found' := entries_of_mem validNow there
      rw [named] at found'
      rw [found']
      exact shapes path
    | none =>
      cases found' : now.tree.entries[direntKey copy first]? with
      | none => rfl
      | some other =>
        obtain ⟨there, isParent, rfl⟩ := mem_of_entries validNow found'
        obtain ⟨entry, mem, rfl, named⟩ := only other there isParent
        rw [← named, entries_of_mem valid mem] at found
        cases found

theorem Order.mem_children {order : Order} (valid : Valid order.host.tree) {entry : Dirent}
    (mem : entry ∈ order.host.tree.dirents) (notRoot : entry.parent ≠ order.host.tree.expectedRoot) :
    jobOf entry ∈ order.children entry.parent := by
  refine List.mem_map_of_mem (mem_shownIn.mpr ⟨mem, fun nameless => notRoot ?_, rfl, ?_⟩)
  · rw [valid.nameless mem nameless]
    rfl
  · unfold isSidecar
    simp [notRoot]

theorem Plan.done_folder (sound : plan.Sound) {entry : Dirent} (mem : entry ∈ plan.host.tree.dirents) (named : entry.name ≠ "")
    (isFolder : entry.isDir = true) {made filled : CopyDesk} {inner : List FileId}
    (linkable : Linkable desk.host.tree ⟨parent, name, copy, true⟩) (valid : Valid desk.host.tree)
    (isMade : made = { desk with
      host := ⟨desk.host.tree.insertEntry ⟨parent, name, copy, true⟩, desk.host.bodies⟩
      clock := desk.clock + 1 })
    (added : Added copy (plan.children entry.child) made.host inner filled.host)
    (done : plan.Done (entry.child :: used) copy (plan.children entry.child) made inner filled) :
    plan.Done used parent [(entry.child, name)] desk [copy] filled := by
  have notRoot := ne_root sound.valid mem named
  have here := (mem_insertEntry linkable.vacant).mpr (.inl rfl)
  have down : ∀ {id}, (∃ job ∈ plan.children entry.child, Below plan.host.tree id job.1) →
      ∃ job ∈ [(entry.child, name)], Below plan.host.tree id job.1 := fun ⟨job, isJob, below⟩ =>
    ⟨_, List.mem_singleton_self _, below_trans below (plan.below_child sound isJob notRoot)⟩
  have atMade : ⟨parent, name, copy, true⟩ ∈ made.host.tree.dirents := isMade ▸ here
  have there := added.grown.kept _ atMade
  refine ⟨?_, fun refreshed => ?_, fun calm held => ?_, fun calm file isFile below missing => ?_,
    .cons ⟨⟨true, there⟩, ?_⟩ .nil⟩
  · obtain ⟨all, midway, within⟩ := done.midway
    refine ⟨all, midway, fun folder isOne => ?_⟩
    obtain isUsed | below := within folder isOne
    · obtain rfl | isUsed := List.mem_cons.mp isUsed
      · exact .inr ⟨_, List.mem_singleton_self _, below_linked sound.valid mem named⟩
      · exact .inl isUsed
    · exact .inr (down below)
  · exact done.refreshed (refreshed.congr (by rw [isMade]))
  · refine done.calm ?_ fun file isFile below => held file isFile (down below)
    rw [isMade]
    exact ⟨calm.nodes, calm.stored⟩
  · refine done.pulled ?_ file isFile ?_ missing
    · rw [isMade]
      exact ⟨calm.nodes, calm.stored⟩
    · obtain ⟨job, isJob, below⟩ := below
      obtain rfl := List.mem_singleton.mp isJob
      refine plan.below_children sound below (fun same => ?_) notRoot
      obtain ⟨other, isOther, -, isChild, notFolder⟩ := isFile
      rw [sound.valid.childUnique isOther mem (isChild.trans same), isFolder] at notFolder
      cases notFolder
  · refine shape_folder sound.valid added.valid ((isDir_child sound.valid mem).trans isFolder)
      (isDir_child added.valid there) (fun child isChild isParent => ?_) fun other isOther isParent => ?_
    · have isJob := plan.mem_children sound.valid isChild (isParent ▸ notRoot)
      rw [isParent] at isJob
      obtain ⟨id, pair⟩ := mem_zip_left done.shapes.length_eq isJob
      obtain ⟨⟨isDir, linked⟩, shapes⟩ := List.forall₂_zip done.shapes pair
      exact ⟨_, linked, rfl, rfl, shapes⟩
    · obtain old | ⟨-, isName⟩ | absent := added.grown.new other isOther
      · rw [isMade] at old
        exact absurd isParent (not_inside valid linkable old)
      · obtain ⟨job, isJob, isName⟩ := List.mem_map.mp isName
        obtain ⟨child, isChild, rfl⟩ := List.mem_map.mp isJob
        obtain ⟨there, -, inside, -⟩ := mem_shownIn.mp isChild
        exact ⟨child, there, inside, isName⟩
      · exact absurd isParent.symm (absent _ atMade)

structure Plan.Setting (plan : Plan) (used : List FileId) (source parent : FileId) (way : List Dirent)
    (jobs : List (FileId × String)) (desk : CopyDesk) : Prop where
  free : Free desk.host.tree parent way (jobs.map Prod.snd)
  absent : Absent plan.host.tree parent
  midway : plan.Midway used desk.host
  ready : plan.Ready used source jobs
  view : plan.Calm desk ∨ plan.Refreshed desk

/-- If the target is below one of the jobs, nothing has to be pulled before it is read. -/
def Plan.Safe (plan : Plan) (jobs : List (FileId × String)) (desk : CopyDesk) : Prop :=
  (∃ job ∈ jobs, Below plan.host.tree plan.target job.1) →
    plan.Calm desk ∧ ∀ file, plan.IsFile file → plan.Early jobs file → plan.Held file

theorem Plan.Setting.later (sound : plan.Sound) {source : FileId} {way : List Dirent}
    (setting : plan.Setting used source parent way ((nodeId, name) :: rest) desk)
    (first : plan.Done used parent [(nodeId, name)] desk [copy] next)
    (added : Added parent [(nodeId, name)] desk.host [copy] next.host) :
    ∃ all, plan.Setting all source parent way rest next ∧
      ∀ folder ∈ all, folder ∈ used ∨ Below plan.host.tree folder nodeId := by
  obtain ⟨all, midway, within⟩ := first.midway
  have only : ∀ folder ∈ all, folder ∈ used ∨ Below plan.host.tree folder nodeId := by
    intro folder mem
    refine (within folder mem).imp_right ?_
    rintro ⟨job, isJob, below⟩
    obtain rfl := List.mem_singleton.mp isJob
    exact below
  refine ⟨all, ⟨setting.free.later added.grown (fun _ mem => List.mem_singleton.mp mem) added.valid, setting.absent,
    midway, ?_, first.view setting.view⟩, only⟩
  have ready := setting.ready
  refine ⟨ready.inside, ready.listed, ready.below, ready.tail.within, fun job isJob folder mem below => ?_⟩
  obtain isUsed | inside := only folder mem
  · exact ready.unused job (List.mem_cons_of_mem _ isJob) folder isUsed below
  · have same := ready.apart sound List.mem_cons_self (List.mem_cons_of_mem _ isJob) inside below
    have nodup := ready.nodup sound
    rw [List.map_cons, List.nodup_cons] at nodup
    exact nodup.1 (same ▸ List.mem_map_of_mem (f := Prod.fst) isJob)

theorem Plan.Safe.later (safe : plan.Safe ((nodeId, name) :: rest) desk)
    (first : plan.Done used parent [(nodeId, name)] desk [copy] next) : plan.Safe rest next := by
  rintro ⟨job, mem, below⟩
  obtain ⟨calm, held⟩ := safe ⟨job, List.mem_cons_of_mem _ mem, below⟩
  refine ⟨first.calm calm fun file isFile ⟨one, isOne, inside⟩ => held file isFile (.inl ⟨(nodeId, name), job, ?_, ?_, below⟩),
    fun file isFile early => held file isFile ?_⟩
  · exact .cons_cons _ (List.singleton_sublist.mpr mem)
  · rwa [List.mem_singleton.mp isOne] at inside
  · obtain ⟨one, other, within, belows⟩ | ⟨one, isOne, ahead⟩ := early
    · exact .inl ⟨one, other, within.cons _, belows⟩
    · exact .inr ⟨one, List.mem_cons_of_mem _ isOne, ahead⟩

theorem Plan.setting_inside (sound : plan.Sound) (vault : env.vaultName = plan.vaultName) {way : List Dirent} {entry : Dirent}
    (mem : entry ∈ plan.host.tree.dirents) (named : entry.name ≠ "")
    (within : Below plan.host.tree entry.child plan.source)
    (listed : Listed plan.host.tree plan.vaultName entry.child) (valid : Valid desk.host.tree)
    (up : Chain desk.host.tree parent way) (linkable : Linkable desk.host.tree ⟨parent, name, copy, true⟩)
    (absent : Absent plan.host.tree copy) {made : CopyDesk}
    (isMade : made = { desk with
      host := ⟨desk.host.tree.insertEntry ⟨parent, name, copy, true⟩, desk.host.bodies⟩
      clock := desk.clock + 1 })
    (midway : plan.Midway (entry.child :: used) made.host)
    (unused : ∀ other ∈ used, ¬Below plan.host.tree other entry.child) (view : plan.Calm desk ∨ plan.Refreshed desk)
    (other : entry.child = plan.target → plan.Calm desk) :
    copied made.nodes entry.child = plan.children entry.child ∧
      plan.Setting (entry.child :: used) entry.child copy (⟨parent, name, copy, true⟩ :: way)
        (plan.children entry.child) made := by
  have notRoot := ne_root sound.valid mem named
  have calmMade : plan.Calm desk → plan.Calm made := by
    rw [isMade]
    exact fun calm => ⟨calm.nodes, calm.stored⟩
  have children := plan.read_children sound view listed notRoot other
  have free := Free.inside valid up linkable (plan.shows_view sound vault view) entry.child
  rw [children] at free
  refine ⟨by rw [isMade]; exact children, by rw [isMade]; exact free, absent, midway, ⟨within, listed, notRoot, .refl _, ?_⟩,
    view.imp calmMade fun refreshed => refreshed.congr (by rw [isMade])⟩
  intro job isJob other isUsed below
  obtain ⟨child, isChild, rfl⟩ := List.mem_map.mp isJob
  obtain ⟨there, childNamed, isParent, -⟩ := mem_shownIn.mp isChild
  obtain rfl | isUsed := List.mem_cons.mp isUsed
  · rw [← isParent] at below
    exact not_below_parent sound.valid there childNamed below
  · exact unused other isUsed (below_trans below (plan.below_child sound isJob notRoot))

theorem Free.first {tree : DirectoryTree} {way : List Dirent} (free : Free tree parent way (name :: names)) :
    Free tree parent way [name] where
  valid := free.valid
  up := free.up
  isDir := free.isDir
  plain other mem := free.plain other (List.mem_singleton.mp mem ▸ List.mem_cons_self)
  vacant other mem := free.vacant other (List.mem_singleton.mp mem ▸ List.mem_cons_self)
  nodup := List.nodup_singleton name

theorem Plan.done_cons (sound : plan.Sound) (vault : env.vaultName = plan.vaultName) {source : FileId} {way : List Dirent}
    (setting : plan.Setting used source parent way ((nodeId, name) :: rest) desk)
    (safe : plan.Safe ((nodeId, name) :: rest) desk)
    (first : Copies env (vaultPath (namesOf way)) [(nodeId, name)] desk [copy] next)
    (later : Copies env (vaultPath (namesOf way)) rest next copies last)
    (done : plan.Done used parent [(nodeId, name)] desk [copy] next)
    (ih : ∀ {all}, plan.Setting all source parent way rest next → plan.Safe rest next →
      plan.Done all parent rest next copies last) :
    plan.Done used parent ((nodeId, name) :: rest) desk (copy :: copies) last := by
  obtain ⟨entry, -, named, -, isJob, -⟩ := setting.ready.entry sound List.mem_cons_self
  cases isJob
  have added := (first.added rfl setting.free.first (plan.shows_view sound vault setting.view)).1
  obtain ⟨all, settingNext, only⟩ := setting.later sound done added
  have addedLater := (later.added rfl settingNext.free (plan.shows_view sound vault settingNext.view)).1
  exact done.cons only added.valid addedLater (fun _ _ => named) (ih settingNext (safe.later done))

theorem Plan.Setting.down (sound : plan.Sound) (vault : env.vaultName = plan.vaultName) {source : FileId} {way : List Dirent}
    (setting : plan.Setting used source parent way ((nodeId, name) :: rest) desk) {entry : Dirent}
    (mem : entry ∈ plan.host.tree.dirents) (named : entry.name ≠ "") (isFolder : entry.isDir = true)
    (isJob : jobOf entry = (nodeId, name)) (listed : Listed plan.host.tree plan.vaultName entry.child) {made : CopyDesk}
    (linkable : Linkable desk.host.tree ⟨parent, name, copy, true⟩)
    (isMade : made = { desk with
      host := ⟨desk.host.tree.insertEntry ⟨parent, name, copy, true⟩, desk.host.bodies⟩
      clock := desk.clock + 1 })
    (other : nodeId = plan.target → plan.Calm desk) : copied made.nodes nodeId = plan.children nodeId ∧
      plan.Setting (nodeId :: used) nodeId copy (⟨parent, name, copy, true⟩ :: way) (plan.children nodeId) made := by
  cases isJob
  have unused := setting.ready.unused _ List.mem_cons_self
  have ready := setting.ready
  have within := below_trans (plan.below_child sound (ready.within.subset List.mem_cons_self) ready.below) ready.inside
  refine plan.setting_inside sound vault mem named within listed setting.free.valid setting.free.up linkable
    (fun old there => linkable.unlinked old (setting.midway.grown.kept old there)) isMade ?_ unused setting.view other
  rw [isMade]
  refine setting.midway.insert linkable setting.absent _ (fun _ _ => rfl) [entry.child] ?_ ?_ (le_refl 1)
  · exact List.nodup_cons.mpr ⟨fun isUsed => unused _ isUsed (below_linked sound.valid mem named), setting.midway.nodup⟩
  · intro folder isFolder'
    rw [List.mem_singleton.mp isFolder']
    exact ⟨entry, mem, rfl, isFolder, within⟩

theorem Copies.done {folder : String} {jobs : List (FileId × String)} (h : Copies env folder jobs desk copies last)
    (sound : plan.Sound) (vault : env.vaultName = plan.vaultName) : ∀ {used : List FileId} {source parent : FileId}
      {way : List Dirent}, folder = vaultPath (namesOf way) → plan.Setting used source parent way jobs desk →
        plan.Safe jobs desk → plan.Done used parent jobs desk copies last := by
  induction h with
  | none folder desk =>
    intro used source parent way _ setting _
    exact ⟨⟨used, setting.midway, fun _ isUsed => .inl isUsed⟩, id, fun calm _ => calm,
      fun _ _ _ ⟨_, mem, _⟩ => (nomatch mem), .nil⟩
  | @file folder name nodeId copy node content desk pulled saved last rest copies found isFile read save later ih =>
    intro used source parent way isPath setting safe
    subst isPath
    obtain ⟨entry, mem, named, -, isJob, -⟩ := setting.ready.entry sound List.mem_cons_self
    cases isJob
    refine plan.done_cons sound vault setting safe (.file found isFile read save (.none _ _)) later ?_ (ih rfl)
    exact (plan.done_file sound vault setting.free setting.absent setting.midway setting.view mem named found isFile read
      save).1
  | @folder folder name nodeId copy node desk made filled last rest inner copies found isFolder make inside later ihInside
      ihLater =>
    intro used source parent way isPath setting safe
    subst isPath
    obtain ⟨entry, mem, named, -, isJob, listed⟩ := setting.ready.entry sound List.mem_cons_self
    cases isJob
    have free := setting.free
    have first : entry.name ∈ ((entry.child, entry.name) :: rest).map Prod.snd := List.mem_cons_self
    obtain ⟨linkable, isMade⟩ := mkdir_place free.valid free.up free.isDir (free.plain _ first) make
    have isDir := isFolder
    rw [plan.read_kind sound setting.view mem named found] at isDir
    have self := below_linked sound.valid mem named
    have notRoot := ne_root sound.valid mem named
    obtain ⟨children, settingInside⟩ := setting.down sound vault mem named isDir rfl listed linkable isMade fun same =>
      (safe ⟨_, List.mem_cons_self, same ▸ self⟩).1
    have path := childPath_namesOf free.valid free.up ⟨parent, entry.name, copy, true⟩
    rw [children] at inside ihInside
    have added := (inside.added path settingInside.free (plan.shows_view sound vault settingInside.view)).1
    refine plan.done_cons sound vault setting safe (.folder found isFolder make (children ▸ inside) (.none _ _)) later ?_
      (ihLater rfl)
    refine plan.done_folder sound mem named isDir linkable free.valid isMade added (ihInside path settingInside ?_)
    rintro ⟨job, isJob, below⟩
    obtain ⟨calm, held⟩ := safe ⟨_, List.mem_cons_self, below_trans below (plan.below_child sound isJob notRoot)⟩
    refine ⟨?_, fun file isFile early => held file isFile (.inr ⟨_, List.mem_cons_self, ?_⟩)⟩
    · rw [isMade]
      exact ⟨calm.nodes, calm.stored⟩
    · exact (plan.ahead_iff sound notRoot self).mpr early

end

section

variable {plan : Plan} {env : CopyEnv} {desk next last : CopyDesk} {used : List FileId} {folder parent nodeId copy : FileId}
  {name : String} {names : List String} {rest : List (FileId × String)} {copies : List FileId}

theorem Order.Sooner.target {order : Order} {jobs : List (FileId × String)} {file : FileId} (sooner : order.Sooner jobs file) :
    ∃ job ∈ jobs, Below order.host.tree order.target job.1 := by
  obtain ⟨one, other, within, -, below⟩ := sooner
  exact ⟨other, within.subset (List.mem_cons_of_mem _ List.mem_cons_self), below⟩

theorem Order.Sooner.cases {order : Order} {job : FileId × String} {jobs : List (FileId × String)} {file : FileId}
    (sooner : order.Sooner (job :: jobs) file) : order.Sooner jobs file ∨
      Below order.host.tree file job.1 ∧ ∃ other ∈ jobs, Below order.host.tree order.target other.1 := by
  obtain ⟨one, other, within, inside, below⟩ := sooner
  cases within with
  | cons _ within => exact .inl ⟨one, other, within, inside, below⟩
  | cons_cons _ within => exact .inr ⟨inside, other, List.singleton_sublist.mp within, below⟩

theorem Plan.target_inside (sound : plan.Sound) {file : FileId} (ahead : plan.Ahead nodeId file) :
    Below plan.host.tree plan.target nodeId ∧ nodeId ≠ plan.target := by
  obtain ⟨folder, inside, sooner⟩ := ahead
  have notRoot : folder ≠ plan.host.tree.expectedRoot := by
    rintro rfl
    obtain ⟨chain, way, passes⟩ := inside
    obtain rfl := way.unique .root
    cases passes
  obtain ⟨job, isJob, below⟩ := sooner.target
  refine ⟨below_trans below (below_trans (plan.below_child sound isJob notRoot) inside), fun same => ?_⟩
  obtain ⟨entry, isEntry, rfl⟩ := List.mem_map.mp isJob
  obtain ⟨there, named, isParent, -⟩ := mem_shownIn.mp isEntry
  rw [same, ← isParent] at inside
  exact not_below_parent sound.valid there named (below_trans inside below)

theorem Plan.Ready.alone (sound : plan.Sound) (ready : plan.Ready used folder ((nodeId, name) :: rest))
    (below : Below plan.host.tree plan.target nodeId) {job : FileId × String} (mem : job ∈ rest) :
    ¬Below plan.host.tree plan.target job.1 := by
  intro other
  have same := ready.apart sound List.mem_cons_self (List.mem_cons_of_mem _ mem) below other
  have nodup := ready.nodup sound
  rw [List.map_cons, List.nodup_cons] at nodup
  exact nodup.1 (same ▸ List.mem_map_of_mem (f := Prod.fst) mem)

/-- The projection shows the copy, or will before the target is read. -/
def Plan.Spoiling (plan : Plan) (jobs : List (FileId × String)) (desk : CopyDesk) : Prop :=
  plan.Refreshed desk ∨ ∃ file, plan.IsFile file ∧ plan.Early jobs file ∧ ¬plan.Held file

/-- A path that leads nowhere in the source leads somewhere in the copy. -/
def Plan.Spoilt (plan : Plan) (nodeId copy : FileId) (now : HostTree) : Prop :=
  ∃ path, shape plan.host nodeId path = none ∧ (shape now copy path).isSome

theorem Plan.Spoiling.later (sound : plan.Sound) (spoiling : plan.Spoiling ((nodeId, name) :: rest) desk)
    (first : plan.Done used parent [(nodeId, name)] desk [copy] next) (view : plan.Calm desk ∨ plan.Refreshed desk)
    (aside : ¬Below plan.host.tree plan.target nodeId) : plan.Spoiling rest next := by
  obtain refreshed | ⟨file, isFile, early, missing⟩ := spoiling
  · exact .inl (first.refreshed refreshed)
  · obtain sooner | ⟨job, mem, ahead⟩ := early
    · obtain sooner | ⟨inside, -⟩ := sooner.cases
      · exact .inr ⟨file, isFile, .inl sooner, missing⟩
      · exact .inl (view.elim (fun calm => first.pulled calm file isFile ⟨_, List.mem_singleton_self _, inside⟩ missing)
          first.refreshed)
    · obtain rfl | mem := List.mem_cons.mp mem
      · exact absurd (plan.target_inside sound ahead).1 aside
      · exact .inr ⟨file, isFile, .inr ⟨job, mem, ahead⟩, missing⟩

theorem Plan.Spoiling.inside (sound : plan.Sound) (ready : plan.Ready used folder ((nodeId, name) :: rest))
    (spoiling : plan.Spoiling ((nodeId, name) :: rest) desk) (below : Below plan.host.tree plan.target nodeId) :
    plan.Refreshed desk ∨ ∃ file, plan.IsFile file ∧ plan.Ahead nodeId file ∧ ¬plan.Held file := by
  refine spoiling.imp_right fun ⟨file, isFile, early, missing⟩ => ⟨file, isFile, ?_, missing⟩
  obtain sooner | ⟨job, mem, ahead⟩ := early
  · have later : ∃ job ∈ rest, Below plan.host.tree plan.target job.1 := sooner.cases.elim (·.target) (·.2)
    obtain ⟨job, mem, other⟩ := later
    exact absurd other (ready.alone sound below mem)
  · obtain rfl | mem := List.mem_cons.mp mem
    · exact ahead
    · exact absurd (plan.target_inside sound ahead).1 (ready.alone sound below mem)

theorem Extends.shape_isSome {before after : HostTree} (grown : Extends folder names before after)
    (valid : Valid before.tree) (validAfter : Valid after.tree) {id : FileId} {path : List String}
    (there : (Client.shape before id path).isSome) :
    (Client.shape after id path).isSome := by
  induction path generalizing id with
  | nil => rfl
  | cons first path ih =>
    rw [Client.shape] at there ⊢
    cases found : before.tree.entries[direntKey id first]? with
    | none =>
      rw [found] at there
      cases there
    | some entry =>
      obtain ⟨mem, rfl, rfl⟩ := mem_of_entries valid found
      rw [found] at there
      rw [entries_of_mem validAfter (grown.kept entry mem)]
      exact ih there

theorem Plan.Spoilt.grow {now after : HostTree} (spoilt : plan.Spoilt nodeId copy now) (valid : Valid now.tree)
    (validAfter : Valid after.tree) (grown : Extends folder names now after) : plan.Spoilt nodeId copy after := by
  obtain ⟨path, nowhere, there⟩ := spoilt
  exact ⟨path, nowhere, grown.shape_isSome valid validAfter there⟩

theorem Plan.Spoilt.up {now : HostTree} (sound : plan.Sound) (valid : Valid now.tree) {job : FileId × String} {inner : FileId}
    (spoilt : plan.Spoilt job.1 inner now) (mem : job ∈ plan.children nodeId) {isDir : Bool}
    (linked : ⟨copy, job.2, inner, isDir⟩ ∈ now.tree.dirents) : plan.Spoilt nodeId copy now := by
  obtain ⟨path, nowhere, there⟩ := spoilt
  obtain ⟨entry, isEntry, rfl⟩ := List.mem_map.mp mem
  obtain ⟨isOld, -, rfl, -⟩ := mem_shownIn.mp isEntry
  refine ⟨entry.name :: path, ?_, ?_⟩
  · rw [shape, entries_of_mem sound.valid isOld]
    exact nowhere
  · have found := entries_of_mem valid linked
    rw [jobOf] at found
    rw [shape, found]
    exact there

theorem Plan.Setting.first {source : FileId} {way : List Dirent}
    (setting : plan.Setting used source parent way ((nodeId, name) :: rest) desk) :
    plan.Setting used source parent way [(nodeId, name)] desk where
  free := setting.free.first
  absent := setting.absent
  midway := setting.midway
  ready := ⟨setting.ready.inside, setting.ready.listed, setting.ready.below,
    (List.singleton_sublist.mpr List.mem_cons_self).trans setting.ready.within,
    fun job mem => setting.ready.unused job (List.mem_singleton.mp mem ▸ List.mem_cons_self)⟩
  view := setting.view

theorem Plan.spoilt_target (sound : plan.Sound) (vault : env.vaultName = plan.vaultName) {source : FileId} {way : List Dirent}
    (setting : plan.Setting used source parent way ((plan.target, name) :: rest) desk)
    (refreshed : plan.Refreshed desk) {made filled : CopyDesk} {inner : List FileId}
    (linkable : Linkable desk.host.tree ⟨parent, name, copy, true⟩)
    (isMade : made = { desk with
      host := ⟨desk.host.tree.insertEntry ⟨parent, name, copy, true⟩, desk.host.bodies⟩
      clock := desk.clock + 1 })
    (inside : Copies env (vaultPath (namesOf (⟨parent, name, copy, true⟩ :: way))) (copied made.nodes plan.target) made
      inner filled) : plan.Spoilt plan.target copy filled.host := by
  obtain ⟨entry, mem, named, -, isJob, listed⟩ := setting.ready.entry sound List.mem_cons_self
  obtain ⟨isTarget, -⟩ := Prod.mk.inj isJob
  have notRoot : plan.target ≠ plan.host.tree.expectedRoot := by
    rw [← isTarget]
    exact ne_root sound.valid mem named
  rw [isTarget] at listed
  have shows := plan.shows_view sound vault setting.view
  have free := Free.inside setting.free.valid setting.free.up linkable shows plan.target
  have walked : made.nodes = desk.nodes := by rw [isMade]
  have added : Added copy (copied made.nodes plan.target) made.host inner filled.host := by
    refine (inside.added rfl ?_ ?_).1
    · rw [walked, isMade]
      exact free
    · rw [isMade]
      exact shows
  obtain ⟨now, valid, grown, top, few, isWalk⟩ := refreshed
  have isJob : (plan.top, plan.name) ∈ copied made.nodes plan.target := by
    rw [walked, isWalk, copied_listed valid few (by rwa [grown.root]) (listed_extends sound.valid valid grown few listed)]
    refine List.mem_map_of_mem (f := jobOf) (mem_shownIn.mpr ⟨top, fun nameless => notRoot ?_, rfl, ?_⟩)
    · exact (congrArg Dirent.parent (valid.nameless top nameless)).trans grown.root
    · unfold isSidecar
      simp [Plan.entry, grown.root, notRoot]
  obtain ⟨id, pair⟩ := mem_zip_left added.copies.length_eq isJob
  obtain ⟨-, isDir, linked⟩ := List.forall₂_zip added.copies pair
  refine ⟨[plan.name], ?_, ?_⟩
  · rw [shape, sound.vacant]
    rfl
  · have found := entries_of_mem added.valid linked
    dsimp only at found
    rw [shape, found]
    rfl

theorem Plan.spoilt_rest (sound : plan.Sound) (vault : env.vaultName = plan.vaultName) {source : FileId} {way : List Dirent}
    (setting : plan.Setting used source parent way ((nodeId, name) :: rest) desk)
    (aside : ¬Below plan.host.tree plan.target nodeId)
    (leads : ∃ job ∈ (nodeId, name) :: rest, Below plan.host.tree plan.target job.1)
    (spoiling : plan.Spoiling ((nodeId, name) :: rest) desk)
    (first : Copies env (vaultPath (namesOf way)) [(nodeId, name)] desk [copy] next)
    (ih : ∀ {all}, plan.Setting all source parent way rest next → (∃ job ∈ rest, Below plan.host.tree plan.target job.1) →
      plan.Spoiling rest next → ∃ pair ∈ rest.zip copies, plan.Spoilt pair.1.1 pair.2 last.host) :
    ∃ pair ∈ ((nodeId, name) :: rest).zip (copy :: copies), plan.Spoilt pair.1.1 pair.2 last.host := by
  have safe : plan.Safe [(nodeId, name)] desk := by
    rintro ⟨job, mem, below⟩
    rw [List.mem_singleton.mp mem] at below
    exact absurd below aside
  have done := first.done sound vault rfl setting.first safe
  have added := (first.added rfl setting.free.first (plan.shows_view sound vault setting.view)).1
  obtain ⟨all, settingNext, -⟩ := setting.later sound done added
  obtain ⟨job, mem, below⟩ := leads
  obtain rfl | mem := List.mem_cons.mp mem
  · exact absurd below aside
  · obtain ⟨pair, isPair, spoilt⟩ := ih settingNext ⟨job, mem, below⟩ (spoiling.later sound done setting.view aside)
    exact ⟨pair, List.mem_cons_of_mem _ isPair, spoilt⟩

theorem Plan.spoilt_folder (sound : plan.Sound) (vault : env.vaultName = plan.vaultName) {source : FileId} {way : List Dirent}
    (setting : plan.Setting used source parent way ((nodeId, name) :: rest) desk)
    (below : Below plan.host.tree plan.target nodeId) (spoiling : plan.Spoiling ((nodeId, name) :: rest) desk)
    {node : Node} {made filled : CopyDesk} {inner : List FileId} (found : requireNode desk.nodes nodeId = .ok node)
    (isFolder : node.isDir = true) (make : desk.mkdir env ⟨vaultPath (namesOf way), name, []⟩ = some (copy, made))
    (inside : Copies env (childPath (vaultPath (namesOf way)) name) (copied made.nodes nodeId) made inner filled)
    (ih : ∀ {used : List FileId} {source parent : FileId} {way' : List Dirent},
      childPath (vaultPath (namesOf way)) name = vaultPath (namesOf way') →
        plan.Setting used source parent way' (copied made.nodes nodeId) made →
          (∃ job ∈ copied made.nodes nodeId, Below plan.host.tree plan.target job.1) →
            plan.Spoiling (copied made.nodes nodeId) made →
              ∃ pair ∈ (copied made.nodes nodeId).zip inner, plan.Spoilt pair.1.1 pair.2 filled.host) :
    plan.Spoilt nodeId copy filled.host := by
  obtain ⟨entry, mem, named, -, isJob, listed⟩ := setting.ready.entry sound List.mem_cons_self
  obtain ⟨rfl, rfl⟩ := Prod.mk.inj isJob
  have free := setting.free
  have first : entry.name ∈ ((entry.child, entry.name) :: rest).map Prod.snd := List.mem_cons_self
  obtain ⟨linkable, isMade⟩ := mkdir_place free.valid free.up free.isDir (free.plain _ first) make
  rw [plan.read_kind sound setting.view mem named found] at isFolder
  have path := childPath_namesOf free.valid free.up ⟨parent, entry.name, copy, true⟩
  have ahead := spoiling.inside sound setting.ready below
  by_cases same : entry.child = plan.target
  · have refreshed := ahead.resolve_right fun ⟨file, _, ahead, _⟩ => (plan.target_inside sound ahead).2 same
    rw [path] at inside
    rw [same] at setting inside ⊢
    exact plan.spoilt_target sound vault setting refreshed linkable isMade inside
  · have notRoot := ne_root sound.valid mem named
    obtain ⟨children, settingInside⟩ := setting.down sound vault mem named isFolder rfl listed linkable isMade
      fun isTarget => absurd isTarget same
    rw [children] at inside ih
    have spoilingInside : plan.Spoiling (plan.children entry.child) made := by
      refine ahead.imp (fun refreshed => refreshed.congr (by rw [isMade])) fun ⟨file, isFile, ahead, missing⟩ => ?_
      exact ⟨file, isFile, (plan.ahead_iff sound notRoot (below_linked sound.valid mem named)).mp ahead, missing⟩
    obtain ⟨pair, isPair, spoilt⟩ := ih path settingInside
      (plan.below_children sound below (Ne.symm same) notRoot) spoilingInside
    have added := (inside.added path settingInside.free (plan.shows_view sound vault settingInside.view)).1
    obtain ⟨-, isDir, linked⟩ := List.forall₂_zip added.copies isPair
    exact spoilt.up sound added.valid (List.of_mem_zip isPair).1 linked

theorem Copies.spoilt {folder : String} {jobs : List (FileId × String)} (h : Copies env folder jobs desk copies last)
    (sound : plan.Sound) (vault : env.vaultName = plan.vaultName) : ∀ {used : List FileId} {source parent : FileId}
      {way : List Dirent}, folder = vaultPath (namesOf way) → plan.Setting used source parent way jobs desk →
        (∃ job ∈ jobs, Below plan.host.tree plan.target job.1) → plan.Spoiling jobs desk →
          ∃ pair ∈ jobs.zip copies, plan.Spoilt pair.1.1 pair.2 last.host := by
  induction h with
  | none folder desk =>
    rintro used source parent way - - ⟨job, mem, -⟩
    cases mem
  | @file folder name nodeId copy node content desk pulled saved last rest copies found isFile read save later ih =>
    intro used source parent way isPath setting leads spoiling
    subst isPath
    obtain ⟨entry, mem, named, -, isJob, -⟩ := setting.ready.entry sound List.mem_cons_self
    cases isJob
    refine plan.spoilt_rest sound vault setting (fun below => ?_) leads spoiling (.file found isFile read save (.none _ _))
      (ih rfl)
    rw [plan.read_kind sound setting.view mem named found] at isFile
    have isDir := sound.isDir
    rw [plan.below_file sound mem named isFile below, isDir_child sound.valid mem, isFile] at isDir
    cases isDir
  | @folder folder name nodeId copy node desk made filled last rest inner copies found isFolder make inside later ihInside
      ihLater =>
    intro used source parent way isPath setting leads spoiling
    subst isPath
    by_cases below : Below plan.host.tree plan.target nodeId
    · have whole := Copies.folder found isFolder make inside (.none _ _)
      have free := setting.free
      obtain ⟨added, shows⟩ := whole.added rfl free.first (plan.shows_view sound vault setting.view)
      have freeLater := free.later added.grown (fun _ mem => List.mem_singleton.mp mem) added.valid
      have addedLater := (later.added rfl freeLater shows).1
      have spoilt : plan.Spoilt nodeId copy filled.host :=
        plan.spoilt_folder sound vault setting below spoiling found isFolder make inside ihInside
      exact ⟨((nodeId, name), copy), List.mem_cons_self, spoilt.grow added.valid addedLater.valid addedLater.grown⟩
    · exact plan.spoilt_rest sound vault setting below leads spoiling (.folder found isFolder make inside (.none _ _))
        (ihLater rfl)

end

/-- The projection of a task that starts. -/
def CopyDesk.start (host : HostTree) (vaultName : String) (stored : FileId → Bool) : CopyDesk :=
  ⟨host, walk host.tree vaultName, stored, 0⟩

/-- What `duplicate_nodes` copies where. -/
def CopyDesk.order [Lowercase] (desk : CopyDesk) (vaultName : String) (nodeId : FileId) (toParentId : Option FileId) :
    Option Order := do
  let node ← (requireNode desk.nodes nodeId).toOption
  let own ← node.parent
  let name ← uniqueName (childNames desk.nodes (toParentId.getD own) none) node.name
  pure ⟨desk.host, vaultName, desk.stored, toParentId.getD own, name⟩

namespace Order

variable (order : Order) (nodeId : FileId)

/-- The copy is new, has the names, kinds and contents of the source, and nothing else is touched. -/
structure Exact (copy : FileId) (after : HostTree) : Prop where
  fresh : Absent order.host.tree copy
  placed : ∃ isDir, ⟨order.target, order.name, copy, isDir⟩ ∈ after.tree.dirents
  same : ∀ path, shape after copy path = shape order.host nodeId path
  kept : Extends order.target [order.name] order.host after

/-- A folder has no file that must be pulled before the copy comes to the target, and the name of a copied file is
not that of the hidden settings. -/
structure Clear : Prop where
  folder : order.host.tree.isDir nodeId = true → ∀ file, order.IsFile file → order.Ahead nodeId file → order.Held file
  file : order.host.tree.isDir nodeId = false → order.host.tree.entries[direntKey order.target order.name]? = none

end Order

section

variable {env : CopyEnv} {order : Order} {desk last : CopyDesk} {nodeId copy : FileId} {way : List Dirent} {entry : Dirent}

/-- A source and a target that `duplicate_nodes` takes. -/
structure Order.Taken (order : Order) (way : List Dirent) (entry : Dirent) : Prop where
  valid : Valid order.host.tree
  up : Chain order.host.tree order.target way
  isDir : order.host.tree.isDir order.target = true
  plain : Plain order.name
  mem : entry ∈ order.host.tree.dirents
  named : entry.name ≠ ""
  listed : Listed order.host.tree order.vaultName entry.child

theorem duplicate_eq_ok [Lowercase] {host : HostTree} {stored : FileId → Bool} {toParentId : Option FileId} {fuel : Nat}
    (valid : Valid host.tree)
    (done : duplicate env fuel nodeId toParentId (.start host env.vaultName stored) = .ok (copy, last)) :
    ∃ order way entry, (CopyDesk.start host env.vaultName stored).order env.vaultName nodeId toParentId = some order ∧
      order.host = host ∧ order.vaultName = env.vaultName ∧ order.stored = stored ∧ order.Taken way entry ∧
        entry.child = nodeId ∧
          Copies env (vaultPath (namesOf way)) [(nodeId, order.name)] (.start host env.vaultName stored) [copy] last := by
  unfold duplicate at done
  rw [except_bind_ok] at done
  obtain ⟨node, found, done⟩ := done
  rw [except_bind_ok] at done
  obtain ⟨own, isOwn, done⟩ := done
  rw [except_bind_ok] at done
  obtain ⟨parent, isFolder, done⟩ := done
  dsimp only at done
  rw [except_bind_ok] at done
  obtain ⟨name, isName, done⟩ := done
  rw [orFail_eq_ok] at found isOwn isFolder isName
  obtain ⟨there, rfl⟩ := (requireNode_eq_ok valid).mp (except_toOption found)
  obtain ⟨listed, isDir, rfl⟩ := (requireFolder_eq_ok valid).mp (except_toOption isFolder)
  obtain ⟨stack, placed⟩ := placed_walk valid env.vaultName
  obtain ⟨target, isTarget, same⟩ := List.mem_map.mp listed
  obtain ⟨way, up, -⟩ := placed.nodes target isTarget
  rw [same] at up
  have path := pathOf_chain valid up listed
  rw [CopyDesk.start] at done
  rw [path] at done
  refine ⟨⟨host, env.vaultName, stored, toParentId.getD own, name⟩, way, ?_⟩
  obtain ⟨isRoot, -⟩ | ⟨entry, mem, named, -, shows⟩ := (projected_walk there).source
  · rw [isRoot] at isOwn
    cases isOwn
  · refine ⟨entry, ?_, rfl, rfl, rfl, ⟨valid, up, isDir, ?_, mem, named, ?_⟩, shows.1.symm, Copies.of_copyInto done⟩
    · unfold CopyDesk.order
      rw [found, Option.bind_eq_bind, Option.bind_some, isOwn, Option.bind_eq_bind, Option.bind_some]
      exact congrArg (· >>= _) isName
    · refine plain_uniqueName ?_ isName
      rw [shows.2.2.1]
      exact plain_of_validateName (valid.named mem named)
    · rw [← shows.1]
      exact List.mem_map_of_mem there

theorem Order.exact_file (taken : order.Taken way entry) (isFile : entry.isDir = false)
    (h : Copies env (vaultPath (namesOf way)) [(entry.child, order.name)]
      (.start order.host order.vaultName order.stored) [copy] last) :
    order.Exact entry.child copy last.host ↔ order.host.tree.entries[direntKey order.target order.name]? = none := by
  have valid := taken.valid
  cases h with
  | folder found isFolder =>
    rw [isDir_node valid taken.mem taken.named found, isFile] at isFolder
    cases isFolder
  | @file _ _ _ _ node content _ pulled saved _ _ _ found _ read save later =>
    cases later
    obtain ⟨isContent, outcome⟩ := fileBodies_eq_some read
    have same : pulled.host = order.host := by
      obtain ⟨-, rfl⟩ | ⟨-, rfl⟩ := outcome <;> rfl
    have validPulled : Valid pulled.host.tree := same ▸ valid
    have up : Chain pulled.host.tree order.target way := same ▸ taken.up
    have isDir : pulled.host.tree.isDir order.target = true := same ▸ taken.isDir
    constructor
    · intro exact
      rw [Option.eq_none_iff_forall_ne_some]
      intro other found'
      rw [← same] at found'
      have isOther := saveFile_taken validPulled up isDir taken.plain found' save
      exact exact.fresh other (same ▸ (mem_of_entries validPulled found').1) isOther.symm
    · intro vacant
      rw [← same] at vacant
      obtain ⟨linkable, rfl⟩ := saveFile_place validPulled up isDir taken.plain vacant save
      have grown := extends_insertEntry linkable (Function.update pulled.host.bodies copy (some content)) fun id other =>
        Function.update_of_ne other _ _
      have here := (mem_insertEntry linkable.vacant).mpr (.inl rfl)
      have after : Valid (HostTree.mk _ (Function.update pulled.host.bodies copy (some content))).tree :=
        valid_insertEntry validPulled linkable
      refine ⟨fun old there => linkable.unlinked old (same ▸ there), ⟨false, here⟩, ?_, by rwa [← same]⟩
      exact shape_file valid after taken.mem here isFile rfl isContent (Function.update_self _ _ _)

theorem Order.exact_folder (taken : order.Taken way entry)
    (few : folderCount order.host.tree + foldersWithin order.host.tree entry.child ≤ walkGuard)
    (vault : env.vaultName = order.vaultName) (isFolder : entry.isDir = true)
    (h : Copies env (vaultPath (namesOf way)) [(entry.child, order.name)]
      (.start order.host order.vaultName order.stored) [copy] last) :
    order.Exact entry.child copy last.host ↔
      ∀ file, order.IsFile file → order.Ahead entry.child file → order.Held file := by
  have valid := taken.valid
  cases h with
  | file found isFile =>
    rw [isDir_node valid taken.mem taken.named found, isFolder] at isFile
    cases isFile
  | @folder _ _ _ _ node _ made _ _ _ inner _ found _ make inside later =>
    cases later
    obtain ⟨linkable, isMade⟩ := mkdir_place valid taken.up taken.isDir taken.plain make
    have sound : Plan.Sound ⟨order, entry.child, copy⟩ := ⟨valid, few, taken.isDir, linkable.vacant, linkable.unlinked⟩
    have calm : Plan.Calm ⟨order, entry.child, copy⟩ (.start order.host order.vaultName order.stored) := ⟨rfl, fun _ _ => rfl⟩
    have notRoot := ne_root valid taken.mem taken.named
    have self := below_linked valid taken.mem taken.named
    have midway : Plan.Midway ⟨order, entry.child, copy⟩ [entry.child] made.host := by
      rw [isMade]
      refine ⟨valid_insertEntry valid linkable, extends_insertEntry linkable _ fun _ _ => rfl,
        (mem_insertEntry linkable.vacant).mpr (.inl rfl), List.nodup_singleton _, fun folder isOne => ?_,
        folderCount_insertEntry valid linkable⟩
      rw [List.mem_singleton.mp isOne]
      exact ⟨entry, taken.mem, rfl, isFolder, self⟩
    obtain ⟨children, setting⟩ := Plan.setting_inside sound vault taken.mem taken.named self taken.listed valid taken.up linkable
      linkable.unlinked isMade midway nofun (.inl calm) fun _ => calm
    have path := childPath_namesOf valid taken.up ⟨order.target, order.name, copy, true⟩
    rw [children] at inside
    have added := (inside.added path setting.free (Plan.shows_view sound vault setting.view)).1
    have ahead := @Plan.ahead_iff ⟨order, entry.child, copy⟩ entry.child sound notRoot self
    constructor
    · intro exact file isFile isAhead
      by_contra missing
      obtain ⟨below, other⟩ := Plan.target_inside sound isAhead
      obtain ⟨pair, isPair, spoilt⟩ := inside.spoilt sound vault path setting
        (Plan.below_children sound below (Ne.symm other) notRoot) (.inr ⟨file, isFile, ahead.mp isAhead, missing⟩)
      obtain ⟨-, isDir, linked⟩ := List.forall₂_zip added.copies isPair
      obtain ⟨way, nowhere, there⟩ := spoilt.up sound added.valid (List.of_mem_zip isPair).1 linked
      rw [exact.same, nowhere] at there
      cases there
    · intro held
      have done := inside.done sound vault path setting fun _ => by
        rw [isMade]
        exact ⟨⟨calm.nodes, calm.stored⟩, fun file isFile early => held file isFile (ahead.mpr early)⟩
      have shapes := (Plan.done_folder sound taken.mem taken.named isFolder linkable valid isMade added done).shapes
      obtain ⟨⟨placed, same⟩, -⟩ := List.forall₂_cons.mp shapes
      exact ⟨linkable.unlinked, placed, same, midway.grown.under linkable.unlinked added.grown⟩

/-- A duplicate comes to an end, and what it makes is an exact copy unless a folder of the source leads to the target
after a file that must be pulled, or a file gets the name of the hidden settings. -/
theorem duplicate_exact_iff [Lowercase] (env : CopyEnv) (host : HostTree) (stored : FileId → Bool) (nodeId : FileId)
    (toParentId : Option FileId) (valid : Valid host.tree) :
    (∀ fuel, maxPathBytes + 1 < fuel →
      duplicate env fuel nodeId toParentId (.start host env.vaultName stored) ≠ .error .unfinished) ∧
      ∀ fuel copy last, duplicate env fuel nodeId toParentId (.start host env.vaultName stored) = .ok (copy, last) →
        ∃ order, (CopyDesk.start host env.vaultName stored).order env.vaultName nodeId toParentId = some order ∧
          ((host.tree.isDir nodeId = true → folderCount host.tree + foldersWithin host.tree nodeId ≤ walkGuard) →
            (order.Exact nodeId copy last.host ↔ order.Clear nodeId)) := by
  constructor
  · intro fuel enough
    unfold duplicate
    refine bind_finishes (orFail_finishes _) fun node _ => bind_finishes (orFail_finishes _) fun own _ => ?_
    refine bind_finishes (orFail_finishes _) fun parent _ => bind_finishes (orFail_finishes _) fun name _ => ?_
    exact copyInto_finishes env fuel nodeId _ _ (by omega) (by omega)
  · intro fuel copy last done
    obtain ⟨order, way, entry, isOrder, rfl, vault, rfl, taken, rfl, copies⟩ := duplicate_eq_ok valid done
    refine ⟨order, isOrder, fun few => ?_⟩
    rw [← vault] at copies
    have isDir := isDir_child valid taken.mem
    cases kind : entry.isDir with
    | true =>
      rw [kind] at isDir
      rw [order.exact_folder taken (few isDir) vault.symm kind copies]
      refine ⟨fun held => ⟨fun _ => held, fun isFile => ?_⟩, fun clear => clear.folder isDir⟩
      rw [isDir] at isFile
      cases isFile
    | false =>
      rw [kind] at isDir
      rw [order.exact_file taken kind copies]
      refine ⟨fun vacant => ⟨fun isFolder => ?_, fun _ => vacant⟩, fun clear => clear.file isDir⟩
      rw [isDir] at isFolder
      cases isFolder

end

theorem shownIn_eq {tree : DirectoryTree} (valid : Valid tree) (folder : FileId) : shownIn tree folder =
    (tree.dirents.filter fun entry => entry.name ≠ "" ∧ entry.parent = folder).reverse.filter (!isSidecar tree ·) := by
  refine congrArg (fun entries : List Dirent => entries.reverse.filter _) ?_
  refine List.mergeSort_of_pairwise (((dirents_sorted valid).filter _).imp_of_mem fun {one other} oneMem otherMem less => ?_)
  have isParent := (of_decide_eq_true (List.mem_filter.mp oneMem).2).2
  have isParent' := (of_decide_eq_true (List.mem_filter.mp otherMem).2).2
  rw [Dirent.key, Dirent.key, direntKey, direntKey, isParent, isParent', Prod.Lex.toLex_lt_toLex] at less
  simpa using (less.resolve_left (lt_irrefl _)).2.le

section

private def notes : HostTree :=
  ⟨treeMachine.run [.link ⟨0⟩ "notes" ⟨1⟩ true, .link ⟨1⟩ "x" ⟨2⟩ false, .link ⟨1⟩ "box" ⟨3⟩ true] (DirectoryTree.new ⟨0⟩),
    fun id => if id = ⟨2⟩ then some [[1]] else none⟩

private def steady : CopyEnv := ⟨"Vault", fun n => ⟨Fin.ofNat _ (n + 10)⟩, fun _ => false⟩

private def notesShown : List Node :=
  [⟨⟨0⟩, none, "Vault", true, "/"⟩, ⟨⟨1⟩, some ⟨0⟩, "notes", true, "/notes"⟩, ⟨⟨2⟩, some ⟨1⟩, "x", false, "/notes/x"⟩,
    ⟨⟨3⟩, some ⟨1⟩, "box", true, "/notes/box"⟩]

private theorem walk_notes : walk notes.tree "Vault" = notesShown := by
  have valid : Valid notes.tree := (Reachable.run _ _).valid
  have root : shownIn notes.tree ⟨0⟩ = [⟨⟨0⟩, "notes", ⟨1⟩, true⟩] := (shownIn_eq valid _).trans (by decide +kernel)
  have inside : shownIn notes.tree ⟨1⟩ = [⟨⟨1⟩, "x", ⟨2⟩, false⟩, ⟨⟨1⟩, "box", ⟨3⟩, true⟩] :=
    (shownIn_eq valid _).trans (by decide +kernel)
  have box : shownIn notes.tree ⟨3⟩ = [] := (shownIn_eq valid _).trans (by decide +kernel)
  rw [walk, walkGuard]
  change walkLoop notes.tree _ [(⟨0⟩, [])] [⟨⟨0⟩, _, _, _, _⟩] = _
  simp [walkLoop, root, inside, box, nodeOf, notesShown]
  decide +kernel

/-- A folder whose files are local is copied into a folder in it. -/
theorem duplicate_exact_notes : ∃ copy last order,
    @duplicate ⟨id⟩ steady 3 ⟨1⟩ (some ⟨3⟩) (.start notes steady.vaultName fun _ => true) = .ok (copy, last) ∧
      @CopyDesk.order ⟨id⟩ (.start notes steady.vaultName fun _ => true) steady.vaultName ⟨1⟩ (some ⟨3⟩) = some order ∧
        order.Exact ⟨1⟩ copy last.host := by
  have runs : (@duplicate ⟨id⟩ steady 3 ⟨1⟩ (some ⟨3⟩) (.start notes steady.vaultName fun _ => true)).toOption.isSome := by
    change (@duplicate ⟨id⟩ steady 3 ⟨1⟩ (some ⟨3⟩) ⟨notes, walk notes.tree "Vault", fun _ => true, 0⟩).toOption.isSome
    rw [walk_notes]
    decide +kernel
  cases done : @duplicate ⟨id⟩ steady 3 ⟨1⟩ (some ⟨3⟩) (.start notes steady.vaultName fun _ => true) with
  | error halt =>
    rw [done] at runs
    cases runs
  | ok made =>
    obtain ⟨order, isOrder, exact⟩ := (@duplicate_exact_iff ⟨id⟩ steady notes (fun _ => true) ⟨1⟩ (some ⟨3⟩)
      (Reachable.run _ _).valid).2 3 made.1 made.2 done
    refine ⟨made.1, made.2, order, rfl, isOrder, (exact fun _ => ?_).mpr ?_⟩
    · have few : folderCount notes.tree + folderCount notes.tree ≤ walkGuard := by decide +kernel
      exact (Nat.add_le_add_left (foldersWithin_le _ _) _).trans few
    change @CopyDesk.order ⟨id⟩ ⟨notes, walk notes.tree "Vault", fun _ => true, 0⟩ "Vault" ⟨1⟩ (some ⟨3⟩) =
      some order at isOrder
    rw [walk_notes] at isOrder
    obtain rfl : ⟨notes, "Vault", fun _ => true, ⟨3⟩, "notes"⟩ = order := Option.some.inj isOrder
    exact ⟨fun _ _ _ _ _ _ => Bool.or_true _, fun isFile => absurd isFile (by decide +kernel)⟩

private def grown : HostTree := ⟨notes.tree.insertEntry ⟨⟨3⟩, "notes", ⟨10⟩, true⟩, notes.bodies⟩

private def pulled (nodes : List Node) : CopyDesk :=
  ⟨⟨grown.tree.insertEntry ⟨⟨10⟩, "x", ⟨12⟩, false⟩, Function.update notes.bodies ⟨12⟩ (some [[1]])⟩, nodes,
    Function.update (Function.update (fun _ => false) ⟨2⟩ true) ⟨12⟩ true, 3⟩

private theorem walk_grown : walk grown.tree "Vault" = notesShown ++ [⟨⟨10⟩, some ⟨3⟩, "notes", true, "/notes/box/notes"⟩] := by
  have linked : notes.tree.link ⟨3⟩ "notes" ⟨10⟩ true = .ok grown.tree := rfl
  have valid : Valid grown.tree := valid_insertEntry (Reachable.run _ _).valid (link_eq_ok.mp linked).1
  have root : shownIn grown.tree ⟨0⟩ = [⟨⟨0⟩, "notes", ⟨1⟩, true⟩] := (shownIn_eq valid _).trans (by decide +kernel)
  have inside : shownIn grown.tree ⟨1⟩ = [⟨⟨1⟩, "x", ⟨2⟩, false⟩, ⟨⟨1⟩, "box", ⟨3⟩, true⟩] :=
    (shownIn_eq valid _).trans (by decide +kernel)
  have box : shownIn grown.tree ⟨3⟩ = [⟨⟨3⟩, "notes", ⟨10⟩, true⟩] := (shownIn_eq valid _).trans (by decide +kernel)
  have copy : shownIn grown.tree ⟨10⟩ = [] := (shownIn_eq valid _).trans (by decide +kernel)
  rw [walk, walkGuard]
  change walkLoop grown.tree _ [(⟨0⟩, [])] [⟨⟨0⟩, _, _, _, _⟩] = _
  simp [walkLoop, root, inside, box, copy, nodeOf, notesShown]
  decide +kernel

/-- A file has to be pulled before the target is read, and the copy gets into itself. -/
theorem duplicate_inexact : ¬ ∀ [Lowercase] (env : CopyEnv) (host : HostTree) (stored : FileId → Bool) (nodeId : FileId)
    (toParentId : Option FileId) (fuel : Nat) (copy : FileId) (last : CopyDesk), Reachable host.tree →
      duplicate env fuel nodeId toParentId (.start host env.vaultName stored) = .ok (copy, last) →
        ∃ order, (CopyDesk.start host env.vaultName stored).order env.vaultName nodeId toParentId = some order ∧
          order.Exact nodeId copy last.host := by
  intro always
  have first : copyInto steady 2 ⟨2⟩ ⟨"/notes/box/notes", "x", []⟩ ⟨grown, notesShown, fun _ => false, 1⟩ =
      .ok (⟨12⟩, pulled (walk grown.tree "Vault")) := rfl
  have run : @duplicate ⟨id⟩ steady 3 ⟨1⟩ (some ⟨3⟩) ⟨notes, notesShown, fun _ => false, 0⟩ =
      (copyInto steady 2 ⟨2⟩ ⟨"/notes/box/notes", "x", []⟩ ⟨grown, notesShown, fun _ => false, 1⟩ >>= fun made =>
        copyEach (copyInto steady 2) "/notes/box/notes" [(⟨3⟩, "box")] made.2 >>= fun last => pure (⟨10⟩, last)) := rfl
  rw [first, walk_grown] at run
  have inside : (copyEach (copyInto steady 2) "/notes/box/notes" [(⟨3⟩, "box")]
      (pulled (notesShown ++ [⟨⟨10⟩, some ⟨3⟩, "notes", true, "/notes/box/notes"⟩]))).toOption.any
        fun desk => (shape desk.host ⟨10⟩ ["box", "notes"]).isSome := by
    decide +kernel
  cases done : copyEach (copyInto steady 2) "/notes/box/notes" [(⟨3⟩, "box")]
      (pulled (notesShown ++ [⟨⟨10⟩, some ⟨3⟩, "notes", true, "/notes/box/notes"⟩])) with
  | error halt =>
    rw [done] at inside
    cases inside
  | ok last =>
    have whole : @duplicate ⟨id⟩ steady 3 ⟨1⟩ (some ⟨3⟩) (.start notes steady.vaultName fun _ => false) =
        .ok (⟨10⟩, last) := by
      change @duplicate ⟨id⟩ steady 3 ⟨1⟩ (some ⟨3⟩) ⟨notes, walk notes.tree "Vault", fun _ => false, 0⟩ = _
      rw [walk_notes, run]
      exact except_bind_ok.mpr ⟨_, rfl, except_bind_ok.mpr ⟨last, done, rfl⟩⟩
    obtain ⟨order, isOrder, exact⟩ := @always ⟨id⟩ steady notes _ _ _ _ _ _ (Reachable.run _ _) whole
    change @CopyDesk.order ⟨id⟩ ⟨notes, walk notes.tree "Vault", fun _ => false, 0⟩ "Vault" ⟨1⟩ (some ⟨3⟩) =
      some order at isOrder
    rw [walk_notes] at isOrder
    obtain rfl : ⟨notes, "Vault", fun _ => false, ⟨3⟩, "notes"⟩ = order := Option.some.inj isOrder
    have before : shape notes ⟨1⟩ ["box", "notes"] = none := rfl
    rw [done, Except.toOption, Option.any_some, exact.same, before] at inside
    cases inside

end

end QuantumFs.Client
