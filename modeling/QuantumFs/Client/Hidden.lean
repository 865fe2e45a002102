import QuantumFs.Client.UniqueNames

/-! The file with the settings of a vault is an entry of the root like any other. What
keeps the commands away from it is that no projection shows it. -/
namespace QuantumFs.Client

open Lib Store DirectoryTree

section

variable {tree : DirectoryTree}

theorem resolveParent_sidecarPath {parent : FileId} {name : String}
    (h : tree.resolveParent sidecarPath = .ok (parent, name)) :
    parent = tree.expectedRoot ∧ name = sidecarName := by
  simp only [resolveParent, Result.bind_eq_ok, okOr_eq_ok] at h
  obtain ⟨components, split, last, isLast, folder, parents, same⟩ := h
  cases same
  have chars : sidecarPath.toList = '/' :: sidecarName.toList := by decide
  obtain ⟨_, empty | shape⟩ := pathComponents_slashed chars split
  · rw [empty] at isLast
    cases isLast
  · have only : components = [sidecarName] := by
      rw [shape]
      decide
    rw [only] at isLast parents
    cases isLast
    cases parents
    exact ⟨rfl, rfl⟩

private theorem resolveFrom_last {components : List String} :
    ∀ {folder parent fileId : FileId} {name : String}, components.getLast? = some name →
      tree.resolveParents folder components.dropLast = .ok parent →
        tree.resolveFrom folder components = .ok fileId →
          ∃ entry, tree.entries[direntKey parent name]? = some entry ∧ entry.child = fileId := by
  induction components with
  | nil =>
    intro folder parent fileId name last
    cases last
  | cons first rest ih =>
    intro folder parent fileId name last parents found
    simp only [resolveFrom, Result.bind_eq_ok, okOr_eq_ok] at found
    obtain ⟨entry, here, found⟩ := found
    cases rest with
    | nil =>
      cases last
      cases parents
      cases found
      exact ⟨entry, here, rfl⟩
    | cons second rest =>
      rw [List.dropLast_cons_cons, resolveParents] at parents
      simp only [Result.bind_eq_ok, okOr_eq_ok] at parents
      obtain ⟨holder, there, _, _, parents⟩ := parents
      obtain rfl := Option.some.inj (here.symm.trans there)
      exact ih (List.getLast?_cons_cons ▸ last) parents found

theorem resolve_entry {path : String} {parent fileId : FileId} {name : String}
    (parents : tree.resolveParent path = .ok (parent, name)) (found : tree.resolve path = .ok fileId) :
    ∃ entry, tree.entries[direntKey parent name]? = some entry ∧ entry.child = fileId := by
  simp only [resolveParent, Result.bind_eq_ok, okOr_eq_ok] at parents
  obtain ⟨components, split, last, isLast, folder, parents, same⟩ := parents
  cases same
  simp only [resolve, Result.bind_eq_ok] at found
  obtain ⟨others, again, found⟩ := found
  obtain rfl := Except.ok.inj (split.symm.trans again)
  exact resolveFrom_last isLast parents found

end

def Job.Shown : Job → Prop
  | .mkdir target | .save target _ | .copy _ target => Slashed target.folder
  | .rename source target => Slashed source ∧ source ≠ sidecarPath ∧ Slashed target.folder
  | .unlink path => Slashed path ∧ path ≠ sidecarPath
  | .copyChildren _ destination => Slashed destination
  | .importFile _ parent _ _ => Slashed parent
  | .duplicate .. | .sidecar _ => True

theorem Seen.visible {history : List DirectoryTree} {nodes : List Node} (seen : Seen history nodes)
    {node : Node} (mem : node ∈ nodes) : node.path ≠ sidecarPath := by
  obtain rfl | ⟨tree, _, vaultName, rfl⟩ := seen
  · cases mem
  · exact (projected_walk mem).visible

section

variable [Lowercase]

theorem planMoves_shown {history : List DirectoryTree} {nodes : List Node} (seen : Seen history nodes)
    {toParentId : FileId} {folder : String} (slashed : Slashed folder) {nodeIds : List FileId} :
    ∀ {names : List String} {jobs : List Job},
      planMoves nodes toParentId folder nodeIds names = .ok jobs → ∀ job ∈ jobs, job.Shown := by
  induction nodeIds with
  | nil =>
    intro names jobs h
    cases h
    exact List.forall_mem_nil _
  | cons nodeId nodeIds ih =>
    intro names jobs h
    unfold planMoves at h
    obtain ⟨node, found, h⟩ := except_bind_ok.mp h
    split at h
    · cases h
    · split at h
      · exact ih h
      · split at h
        · cases h
        · obtain ⟨_, _, h⟩ := except_bind_ok.mp h
          obtain ⟨rest, planned, same⟩ := except_bind_ok.mp h
          cases same
          have mem := requireNode_mem found
          exact List.forall_mem_cons.mpr ⟨⟨seen.slashed mem, seen.visible mem, slashed⟩, ih planned⟩

theorem plan_shown {history : List DirectoryTree} {nodes : List Node} (seen : Seen history nodes)
    {rootId : FileId} {command : Command} {jobs : List Job} (h : plan nodes rootId command = .ok jobs) :
    ∀ job ∈ jobs, job.Shown := by
  cases command with
  | createNode parentId name isDir =>
    obtain ⟨parent, isFolder, h⟩ := except_bind_ok.mp h
    obtain ⟨_, _, same⟩ := except_bind_ok.mp h
    cases same
    refine List.forall_mem_singleton.mpr ?_
    split <;> exact seen.slashed_folder isFolder
  | renameNode nodeId name =>
    obtain ⟨node, found, h⟩ := except_bind_ok.mp h
    split at h
    · cases h
    · obtain ⟨_, _, h⟩ := except_bind_ok.mp h
      obtain ⟨parent, isFolder, same⟩ := except_bind_ok.mp h
      cases same
      have mem := requireNode_mem found
      exact List.forall_mem_singleton.mpr
        ⟨seen.slashed mem, seen.visible mem, seen.slashed_folder isFolder⟩
  | moveNodes nodeIds toParentId =>
    obtain ⟨folder, isFolder, h⟩ := except_bind_ok.mp h
    exact planMoves_shown seen (seen.slashed_folder isFolder) h
  | deleteNodes nodeIds =>
    obtain ⟨roots, _, same⟩ := except_bind_ok.mp h
    cases same
    intro job mem
    obtain ⟨path, pathMem, rfl⟩ := List.mem_map.mp mem
    obtain ⟨nodeId, _, pathMem⟩ := List.mem_flatMap.mp pathMem
    obtain ⟨id, _, found⟩ := List.mem_filterMap.mp pathMem
    obtain ⟨node, isNode, rfl⟩ := Option.map_eq_some_iff.mp found
    have mem := List.mem_of_find?_eq_some isNode
    exact ⟨seen.slashed mem, seen.visible mem⟩
  | duplicateNodes nodeIds toParentId =>
    cases h
    intro job mem
    obtain ⟨_, _, rfl⟩ := List.mem_map.mp mem
    trivial
  | importFiles parentId files =>
    obtain ⟨parent, isFolder, same⟩ := except_bind_ok.mp h
    cases same
    intro job mem
    obtain ⟨_, _, rfl⟩ := List.mem_map.mp mem
    exact seen.slashed_folder isFolder
  | writeSidecar content =>
    cases h
    exact List.forall_mem_singleton.mpr trivial

end

section

variable (root : FileId)

def hiddenKey : DirentKey := direntKey root sidecarName

/-- The entry of the settings and what the file says. -/
def sidecarOf (host : HostTree) : Option (Dirent × Option Content) :=
  host.tree.entries[hiddenKey root]?.map fun entry => (entry, host.bodies entry.child)

/-- What a command sends leaves the hidden entry alone; the settings go nowhere else. -/
structure Flight.Shown (history : List DirectoryTree) (flight : Flight) : Prop where
  source : flight.update.source ≠ some (hiddenKey root)
  overwrites : flight.settings = false → ∀ fileId content, flight.update = .overwrite fileId content →
    ∃ tree ∈ history, ∃ entry ∈ tree.dirents, entry.child = fileId ∧ entry.key ≠ hiddenKey root
  settings : flight.settings = true → ∀ place ∈ flight.update.target, place = (root, sidecarName) ∧
    ∃ child content, flight.update = .link root sidecarName child (some content)
  next : ∀ job ∈ flight.next, job.Shown

structure Task.Shown (history : List DirectoryTree) (task : Task) : Prop where
  replica : task.replica ∈ history
  nodes : Seen history task.nodes
  jobs : ∀ job ∈ task.jobs, job.Shown
  flight : ∀ flight ∈ task.flight, flight.Shown root history

def Job.fileTarget (nodes : List Node) : Job → Option Target
  | .save target _ => some target
  | .copy nodeId target =>
    if ((requireNode nodes nodeId).toOption.map (·.isDir)) = some false then some target else none
  | _ => none

def Update.Fresh (history : List DirectoryTree) : Update → Prop
  | .link _ _ child _ => ∀ tree ∈ history, ∀ entry ∈ tree.dirents, entry.child ≠ child
  | _ => True

/-- No file of a command goes over the settings that its task knows of, and nothing of a
command takes their place. Random ids are new, and the walk reaches every folder. -/
def Avoiding (fleet : Fleet) : Event → Prop
  | .work i _ _ => ∀ job ∈ (fleet.tasks i).jobs.head?, ∀ target ∈ job.fileTarget (fleet.tasks i).nodes,
    target.path = sidecarPath → (fleet.tasks i).replica.entries[hiddenKey root]? = none
  | .commit i _ _ => ∀ flight ∈ (fleet.tasks i).flight, flight.update.Fresh fleet.history ∧
    (flight.settings = false → folderCount fleet.host.tree < walkGuard ∧
      (flight.update.target = some (root, sidecarName) →
        fleet.host.tree.entries[hiddenKey root]? ≠ none))
  | .deliver .. | .project .. | .begin .. | .fail _ => True

instance (history : List DirectoryTree) : (update : Update) → Decidable (update.Fresh history)
  | .link _ _ child _ =>
    inferInstanceAs (Decidable (∀ tree ∈ history, ∀ entry ∈ tree.dirents, entry.child ≠ child))
  | .overwrite .. | .unlink .. | .rename .. => .isTrue trivial

instance (fleet : Fleet) : (event : Event) → Decidable (Avoiding root fleet event)
  | .work i _ _ => inferInstanceAs (Decidable (∀ job ∈ (fleet.tasks i).jobs.head?,
      ∀ target ∈ job.fileTarget (fleet.tasks i).nodes, _))
  | .commit i _ _ => inferInstanceAs (Decidable (∀ flight ∈ (fleet.tasks i).flight, _))
  | .deliver .. | .project .. | .begin .. | .fail _ => .isTrue trivial

/-- A file that is once hidden is nowhere else in any tree the host has had. -/
structure Settled (history : List DirectoryTree) : Prop where
  valid : ∀ tree ∈ history, Valid tree ∧ tree.expectedRoot = root
  file : ∀ tree ∈ history, ∀ entry ∈ tree.dirents, entry.key = hiddenKey root → entry.isDir = false
  single : ∀ tree ∈ history, ∀ entry ∈ tree.dirents, entry.key = hiddenKey root →
    ∀ other ∈ history, ∀ twin ∈ other.dirents, twin.child = entry.child → twin.key = hiddenKey root

structure Shielded (fleet : Fleet) : Prop where
  host : fleet.host.tree ∈ fleet.history
  settled : Settled root fleet.history
  tasks : ∀ i, (fleet.tasks i).Shown root fleet.history

variable {root}

theorem Flight.Shown.mono {history : List DirectoryTree} {flight : Flight}
    (shown : flight.Shown root history) (tree : DirectoryTree) : flight.Shown root (tree :: history) := by
  refine { shown with overwrites := fun own fileId content isUpdate => ?_ }
  obtain ⟨earlier, known, entry, linked⟩ := shown.overwrites own fileId content isUpdate
  exact ⟨earlier, List.mem_cons_of_mem _ known, entry, linked⟩

theorem Task.Shown.mono {history : List DirectoryTree} {task : Task} (shown : task.Shown root history)
    (tree : DirectoryTree) : task.Shown root (tree :: history) := by
  refine ⟨List.mem_cons_of_mem _ shown.replica, ?_, shown.jobs, fun flight mem => ?_⟩
  · refine shown.nodes.imp_right ?_
    rintro ⟨seen, known, name, same⟩
    exact ⟨seen, List.mem_cons_of_mem _ known, name, same⟩
  · exact (shown.flight flight mem).mono tree

section

variable {history : List DirectoryTree} {task : Task}

/-- Work on a job that is not the settings. -/
def Work.Shown (root : FileId) (history : List DirectoryTree) : Work → Prop
  | .expand jobs => ∀ job ∈ jobs, job.Shown
  | .send flight => flight.Shown root history

theorem source_visible (settled : Settled root history) (replica : task.replica ∈ history) {path : String}
    (slashed : Slashed path) (visible : path ≠ sidecarPath) {parent : FileId} {name : String}
    (h : (task.replica.resolveParent path).toOption = some (parent, name)) :
    direntKey parent name ≠ hiddenKey root := by
  obtain ⟨valid, isRoot⟩ := settled.valid _ replica
  intro same
  obtain ⟨rfl, rfl⟩ := direntKey_inj.mp same
  refine visible (path_eq_sidecarPath valid slashed ?_)
  rw [isRoot]
  exact except_toOption h

variable [Lowercase]

omit [Lowercase] in
theorem mkdir_shown {target : Target} {child : FileId} {next : List Job} (nextShown : ∀ job ∈ next, job.Shown)
    {work : Work} (h : task.mkdir target child next = some work) : work.Shown root history := by
  obtain ⟨⟨parent, name⟩, resolved, same⟩ := Option.bind_eq_some_iff.mp h
  cases same
  exact ⟨nofun, fun _ _ _ => nofun, nofun, nextShown⟩

omit [Lowercase] in
theorem saveFile_shown (settled : Settled root history) (replica : task.replica ∈ history) {target : Target}
    (slashed : Slashed target.folder) {child : FileId} {content : Content} {work : Work}
    (avoids : target.path = sidecarPath → task.replica.entries[hiddenKey root]? = none)
    (h : task.saveFile target child content false = some work) : work.Shown root history := by
  obtain ⟨⟨parent, name⟩, resolved, h⟩ := Option.bind_eq_some_iff.mp h
  dsimp only at h
  split at h
  · rename_i existing found
    obtain ⟨valid, isRoot⟩ := settled.valid _ replica
    obtain ⟨entry, linked, child⟩ := resolve_entry (except_toOption resolved) (except_toOption found)
    split at h
    · cases h
    · cases h
      refine ⟨nofun, fun _ fileId content same => ?_, nofun, List.forall_mem_nil _⟩
      cases same
      refine ⟨_, replica, entry, mem_dirents.mpr ⟨_, linked⟩, child, fun hidden => ?_⟩
      rw [← valid.keyed linked] at hidden
      by_cases there : target.path = sidecarPath
      · rw [← hidden, linked] at avoids
        cases avoids there
      · exact source_visible settled replica (slashed_childPath slashed target.name) there resolved hidden
  · cases h
    exact ⟨nofun, fun _ _ _ => nofun, nofun, List.forall_mem_nil _⟩

omit [Lowercase] in
theorem saveSidecar_shown (settled : Settled root history) (replica : task.replica ∈ history)
    {child : FileId} {content : Content} {work : Work}
    (h : task.saveFile Task.sidecarTarget child content true = some work) : work.Shown root history := by
  unfold Task.saveFile at h
  obtain ⟨⟨parent, name⟩, resolved, h⟩ := Option.bind_eq_some_iff.mp h
  obtain ⟨_, isRoot⟩ := settled.valid _ replica
  obtain ⟨rfl, rfl⟩ := resolveParent_sidecarPath (except_toOption resolved)
  dsimp only at h
  split at h
  · split at h
    · cases h
    · cases h
      exact ⟨nofun, nofun, fun _ => nofun, List.forall_mem_nil _⟩
  · cases h
    refine ⟨nofun, nofun, fun _ place mem => ?_, List.forall_mem_nil _⟩
    cases mem
    rw [isRoot]
    exact ⟨rfl, child, content, rfl⟩

theorem step_shown (settled : Settled root history) (shown : task.Shown root history) {job : Job}
    (jobShown : job.Shown) (avoids : ∀ target ∈ job.fileTarget task.nodes, target.path = sidecarPath →
      task.replica.entries[hiddenKey root]? = none) {child : FileId} {bodies : Content} {work : Work}
    (h : task.step child bodies job = some work) : work.Shown root history := by
  cases job with
  | mkdir target => exact mkdir_shown (List.forall_mem_nil _) h
  | save target content => exact saveFile_shown settled shown.replica jobShown (avoids target rfl) h
  | sidecar content => exact saveSidecar_shown settled shown.replica h
  | rename source target =>
    obtain ⟨⟨srcParent, srcName⟩, resolved, h⟩ := Option.bind_eq_some_iff.mp h
    obtain ⟨⟨dstParent, dstName⟩, _, same⟩ := Option.bind_eq_some_iff.mp h
    cases same
    have away := source_visible settled shown.replica jobShown.1 jobShown.2.1 resolved
    exact ⟨fun same => away (Option.some.inj same), fun _ _ _ => nofun, nofun, List.forall_mem_nil _⟩
  | unlink path =>
    obtain ⟨⟨parent, name⟩, resolved, same⟩ := Option.bind_eq_some_iff.mp h
    cases same
    have away := source_visible settled shown.replica jobShown.1 jobShown.2 resolved
    exact ⟨fun same => away (Option.some.inj same), fun _ _ _ => nofun, nofun, List.forall_mem_nil _⟩
  | duplicate nodeId toParentId =>
    obtain ⟨node, _, h⟩ := Option.bind_eq_some_iff.mp h
    obtain ⟨own, _, h⟩ := Option.bind_eq_some_iff.mp h
    obtain ⟨parent, isFolder, h⟩ := Option.bind_eq_some_iff.mp h
    obtain ⟨name, _, same⟩ := Option.bind_eq_some_iff.mp h
    cases same
    exact List.forall_mem_singleton.mpr (shown.nodes.slashed_folder (except_toOption isFolder))
  | copy nodeId target =>
    obtain ⟨node, found, h⟩ := Option.bind_eq_some_iff.mp h
    split at h
    · have next : ∀ job ∈ [Job.copyChildren nodeId target.path], job.Shown :=
        List.forall_mem_singleton.mpr (slashed_childPath jobShown target.name)
      exact mkdir_shown next h
    · rename_i isFile
      refine saveFile_shown settled shown.replica jobShown (avoids target ?_) h
      change (if ((requireNode task.nodes nodeId).toOption.map (·.isDir)) = some false then some target
        else none) = some target
      rw [found]
      exact if_pos (congrArg some (Bool.not_eq_true _ ▸ isFile))
  | copyChildren nodeId destination =>
    cases h
    have copies : ∀ (nodes : List Node) (names : List String),
        ∀ job ∈ Task.copiesOf destination nodes names, job.Shown := by
      intro nodes
      induction nodes with
      | nil => exact fun _ => List.forall_mem_nil _
      | cons node nodes ih => exact fun names => List.forall_mem_cons.mpr ⟨jobShown, ih _⟩
    exact copies _ _
  | importFile parentId parent desired content =>
    obtain ⟨_, h⟩ := Option.ite_none_left_eq_some.mp h
    obtain ⟨name, _, same⟩ := Option.bind_eq_some_iff.mp h
    cases same
    exact List.forall_mem_singleton.mpr jobShown

theorem work_shown (settled : Settled root history) (shown : task.Shown root history)
    (avoids : ∀ job ∈ task.jobs.head?, ∀ target ∈ job.fileTarget task.nodes, target.path = sidecarPath →
      task.replica.entries[hiddenKey root]? = none) (child : FileId) (bodies : Content) :
    (task.work child bodies).Shown root history := by
  unfold Task.work
  split
  · rename_i job jobs idle queue
    have queued := shown.jobs
    rw [queue] at queued avoids
    obtain ⟨first, rest⟩ := List.forall_mem_cons.mp queued
    split
    · rename_i more isWork
      have known : ∀ job ∈ more, job.Shown := step_shown settled shown first (avoids job rfl) isWork
      exact { shown with jobs := List.forall_mem_append.mpr ⟨known, rest⟩ }
    · rename_i flight isWork
      have known : flight.Shown root history := step_shown settled shown first (avoids job rfl) isWork
      refine { shown with jobs := List.forall_mem_nil _, flight := fun sent mem => ?_ }
      cases mem
      exact { known with next := List.forall_mem_append.mpr ⟨known.next, rest⟩ }
    · exact { shown with jobs := List.forall_mem_nil _ }
  · exact shown

end

theorem isSidecar_iff {tree : DirectoryTree} (isRoot : tree.expectedRoot = root) {entry : Dirent} :
    isSidecar tree entry = true ↔ entry.key = hiddenKey root := by
  unfold isSidecar Dirent.key hiddenKey
  rw [Bool.and_eq_true, decide_eq_true_eq, decide_eq_true_eq, direntKey_inj, isRoot]

theorem get_hidden {tree : DirectoryTree} (valid : Valid tree) {entry : Dirent} :
    tree.entries[hiddenKey root]? = some entry ↔ entry ∈ tree.dirents ∧ entry.key = hiddenKey root := by
  constructor
  · exact fun found => ⟨mem_dirents.mpr ⟨_, found⟩, (valid.keyed found).symm⟩
  · rintro ⟨mem, key⟩
    rw [← key]
    exact (mem_dirents_iff_get valid).mp mem

theorem folderCount_le {tree next : DirectoryTree} (valid : Valid next) {made : Dirent}
    (mem : ∀ entry ∈ next.dirents, entry = made ∨ entry ∈ tree.dirents) :
    folderCount next ≤ folderCount tree + 1 := by
  have nodup : (next.dirents.filter (·.isDir)).Nodup := by
    refine List.Nodup.filter _ ((dirents_sorted valid).imp fun less same => ?_)
    rw [same] at less
    exact lt_irrefl _ less
  have within : next.dirents.filter (·.isDir) ⊆ made :: tree.dirents.filter (·.isDir) := by
    intro entry entryMem
    obtain ⟨entryMem, dir⟩ := List.mem_filter.mp entryMem
    obtain rfl | old := mem entry entryMem
    · exact List.mem_cons_self
    · exact List.mem_cons_of_mem _ (List.mem_filter.mpr ⟨old, dir⟩)
  exact (nodup.subperm within).length_le

section

variable {history : List DirectoryTree} {host next : HostTree} {flight : Flight}

theorem made_elsewhere (settled : Settled root history) (known : host.tree ∈ history)
    (source : flight.update.source ≠ some (hiddenKey root)) (fresh : flight.update.Fresh history)
    {made : Dirent} (isMade : flight.update.made host.tree = some made) :
    ∀ tree ∈ history, ∀ entry ∈ tree.dirents, entry.key = hiddenKey root → entry.child ≠ made.child := by
  intro tree treeMem entry mem hidden same
  cases isUpdate : flight.update with
  | link parent name child content =>
    rw [isUpdate] at fresh isMade
    cases isMade
    exact fresh tree treeMem entry mem same
  | rename srcParent srcName dstParent dstName =>
    rw [isUpdate] at source isMade
    obtain ⟨moved, found, rfl⟩ := Option.map_eq_some_iff.mp isMade
    have there := settled.single tree treeMem entry mem hidden host.tree known moved
      (mem_dirents.mpr ⟨_, found⟩) same.symm
    rw [← (settled.valid _ known).1.keyed found] at there
    exact source (congrArg some there)
  | overwrite fileId content =>
    rw [isUpdate] at isMade
    cases isMade
  | unlink parent name =>
    rw [isUpdate] at isMade
    cases isMade

theorem made_shown (settled : Settled root history) (known : host.tree ∈ history)
    (shown : flight.Shown root history) (fresh : flight.update.Fresh history)
    (away : flight.update.target = some (root, sidecarName) → host.tree.entries[hiddenKey root]? ≠ none)
    (h : host.apply flight.update = .ok next) {made : Dirent}
    (isMade : flight.update.made host.tree = some made)
    (place : flight.update.target = some (made.parent, made.name))
    (mem : ∀ entry, entry ∈ next.tree.dirents ↔
      entry = made ∨ entry ∈ host.tree.dirents ∧ flight.update.source ≠ some entry.key) :
    made.key ≠ hiddenKey root := by
  intro hidden
  have valid := (settled.valid _ known).1
  obtain ⟨parent, name⟩ := direntKey_inj.mp hidden
  rw [parent, name] at place
  obtain ⟨old, found⟩ := Option.ne_none_iff_exists'.mp (away place)
  obtain ⟨oldMem, oldKey⟩ := (get_hidden valid).mp found
  have validNext := (apply_tree valid h).1
  have stays : old ∈ next.tree.dirents := (mem old).mpr (.inr ⟨oldMem, fun same =>
    shown.source (same.trans (congrArg some oldKey))⟩)
  have first := (get_hidden validNext).mpr ⟨stays, oldKey⟩
  have second := (get_hidden validNext).mpr ⟨(mem made).mpr (.inl rfl), hidden⟩
  refine made_elsewhere settled known shown.source fresh isMade _ known old oldMem oldKey ?_
  rw [Option.some.inj (first.symm.trans second)]

theorem Settled.apply (settled : Settled root history) (known : host.tree ∈ history)
    (shown : flight.Shown root history) (fresh : flight.update.Fresh history)
    (away : flight.settings = false → flight.update.target = some (root, sidecarName) →
      host.tree.entries[hiddenKey root]? ≠ none)
    (h : host.apply flight.update = .ok next) : Settled root (next.tree :: history) := by
  obtain ⟨valid, isRoot⟩ := settled.valid _ known
  obtain ⟨validNext, sameRoot, outcome⟩ := apply_tree valid h
  have trees := List.forall_mem_cons.mpr ⟨⟨validNext, sameRoot.trans isRoot⟩, settled.valid⟩
  obtain ⟨_, mem⟩ | ⟨made, isMade, place, _, mem⟩ := outcome
  · -- No entry is new.
    have old : ∀ entry ∈ next.tree.dirents, entry ∈ host.tree.dirents := fun entry entryMem =>
      ((mem entry).mp entryMem).1
    refine ⟨trees, List.forall_mem_cons.mpr ⟨fun entry entryMem => ?_, settled.file⟩, ?_⟩
    · exact settled.file _ known entry (old entry entryMem)
    · refine List.forall_mem_cons.mpr ⟨fun entry entryMem hidden => ?_, fun tree treeMem entry entryMem
        hidden => ?_⟩
      · have single := settled.single _ known entry (old entry entryMem) hidden
        exact List.forall_mem_cons.mpr ⟨fun twin twinMem => single _ known twin (old twin twinMem), single⟩
      · have single := settled.single tree treeMem entry entryMem hidden
        exact List.forall_mem_cons.mpr ⟨fun twin twinMem => single _ known twin (old twin twinMem), single⟩
  · have elsewhere := made_elsewhere settled known shown.source fresh isMade
    -- The hidden entry is an old one, or it is the new file with the settings.
    have hiddenIs : ∀ entry ∈ next.tree.dirents, entry.key = hiddenKey root →
        entry ∈ host.tree.dirents ∨ entry = made ∧ flight.settings = true := by
      intro entry entryMem hidden
      obtain rfl | ⟨oldMem, _⟩ := (mem entry).mp entryMem
      · refine .inr ⟨rfl, ?_⟩
        by_contra own
        have own : flight.settings = false := by simpa using own
        exact made_shown settled known shown fresh (away own) h isMade place mem hidden
      · exact .inl oldMem
    have settingsMade : flight.settings = true → made.isDir = false ∧
        ∀ tree ∈ history, ∀ entry ∈ tree.dirents, entry.child ≠ made.child := by
      intro own
      obtain ⟨_, child, content, isUpdate⟩ := shown.settings own _ place
      rw [isUpdate] at isMade fresh
      cases isMade
      exact ⟨rfl, fresh⟩
    refine ⟨trees, List.forall_mem_cons.mpr ⟨fun entry entryMem hidden => ?_, settled.file⟩, ?_⟩
    · obtain old | ⟨rfl, own⟩ := hiddenIs entry entryMem hidden
      · exact settled.file _ known entry old hidden
      · exact (settingsMade own).1
    · have old : ∀ tree ∈ history, ∀ entry ∈ tree.dirents, entry.key = hiddenKey root →
          ∀ other ∈ next.tree :: history, ∀ twin ∈ other.dirents, twin.child = entry.child →
            twin.key = hiddenKey root := by
        intro tree treeMem entry entryMem hidden
        have single := settled.single tree treeMem entry entryMem hidden
        refine List.forall_mem_cons.mpr ⟨fun twin twinMem same => ?_, single⟩
        obtain rfl | ⟨twinMem, _⟩ := (mem twin).mp twinMem
        · exact absurd same.symm (elsewhere tree treeMem entry entryMem hidden)
        · exact single _ known twin twinMem same
      refine List.forall_mem_cons.mpr ⟨fun entry entryMem hidden => ?_, old⟩
      obtain oldMem | ⟨rfl, own⟩ := hiddenIs entry entryMem hidden
      · exact old _ known entry oldMem hidden
      · have freshChild := (settingsMade own).2
        refine List.forall_mem_cons.mpr ⟨fun twin twinMem same => ?_, fun other otherMem twin twinMem
          same => absurd same (freshChild other otherMem twin twinMem)⟩
        obtain rfl | ⟨twinMem, _⟩ := (mem twin).mp twinMem
        · exact hidden
        · exact absurd same (freshChild _ known twin twinMem)

theorem sidecarOf_apply (settled : Settled root history) (known : host.tree ∈ history)
    (shown : flight.Shown root history) (fresh : flight.update.Fresh history)
    (own : flight.settings = false)
    (away : flight.update.target = some (root, sidecarName) → host.tree.entries[hiddenKey root]? ≠ none)
    (h : host.apply flight.update = .ok next) : sidecarOf root next = sidecarOf root host := by
  obtain ⟨valid, _⟩ := settled.valid _ known
  obtain ⟨validNext, _, outcome⟩ := apply_tree valid h
  have entries : next.tree.entries[hiddenKey root]? = host.tree.entries[hiddenKey root]? := by
    apply Option.ext
    intro entry
    rw [get_hidden validNext, get_hidden valid]
    refine and_congr_left fun hidden => ?_
    have stays : flight.update.source ≠ some entry.key := fun same =>
      shown.source (same.trans (congrArg some hidden))
    obtain ⟨_, mem⟩ | ⟨made, isMade, place, _, mem⟩ := outcome
    · exact (mem entry).trans (and_iff_left stays)
    · rw [mem, and_iff_left stays]
      refine or_iff_right fun same => ?_
      exact made_shown settled known shown fresh away h isMade place mem (same ▸ hidden)
  have bodies : ∀ entry, host.tree.entries[hiddenKey root]? = some entry →
      next.bodies entry.child = host.bodies entry.child := by
    intro entry found
    obtain ⟨mem, hidden⟩ := (get_hidden valid).mp found
    cases isUpdate : flight.update with
    | link parent name child content =>
      rw [isUpdate] at h fresh
      obtain ⟨tree, _, same⟩ := Result.bind_eq_ok.mp h
      cases same
      cases content with
      | none => rfl
      | some content => exact Function.update_of_ne (fresh _ known entry mem) _ _
    | overwrite fileId content =>
      rw [isUpdate] at h
      cases h
      refine Function.update_of_ne (fun same => ?_) _ _
      obtain ⟨tree, treeMem, other, otherMem, child, visible⟩ := shown.overwrites own _ _ isUpdate
      exact visible (settled.single _ known entry mem hidden tree treeMem other otherMem
        (child.trans same.symm))
    | unlink parent name =>
      rw [isUpdate] at h
      obtain ⟨_, _, same⟩ := Result.bind_eq_ok.mp h
      cases same
      rfl
    | rename srcParent srcName dstParent dstName =>
      rw [isUpdate] at h
      obtain ⟨_, _, same⟩ := Result.bind_eq_ok.mp h
      cases same
      rfl
  unfold sidecarOf
  rw [entries]
  cases found : host.tree.entries[hiddenKey root]? with
  | none => rfl
  | some entry => exact congrArg some (Prod.ext rfl (bodies entry found))

theorem made_visible (settled : Settled root history) (known : host.tree ∈ history)
    (shown : flight.Shown root history) (fresh : flight.update.Fresh history)
    (few : folderCount host.tree < walkGuard)
    (away : flight.update.target = some (root, sidecarName) → host.tree.entries[hiddenKey root]? ≠ none)
    (h : host.apply flight.update = .ok next) {made : Dirent}
    (isMade : flight.update.made host.tree = some made) (vaultName : String) :
    ∃ node ∈ walk next.tree vaultName, node.Shows made := by
  obtain ⟨valid, isRoot⟩ := settled.valid _ known
  obtain ⟨validNext, sameRoot, ⟨untouched, _⟩ | ⟨other, same, place, named, mem⟩⟩ := apply_tree valid h
  · cases isUpdate : flight.update with
    | link _ _ _ _ =>
      rw [isUpdate] at untouched
      cases untouched
    | rename _ _ _ _ =>
      rw [isUpdate] at untouched
      cases untouched
    | overwrite _ _ =>
      rw [isUpdate] at isMade
      cases isMade
    | unlink _ _ =>
      rw [isUpdate] at isMade
      cases isMade
  · obtain rfl := Option.some.inj (isMade.symm.trans same)
    have rootNext : next.tree.expectedRoot = root := sameRoot.trans isRoot
    have notHidden := made_shown settled known shown fresh away h isMade place mem
    have count : folderCount next.tree ≤ walkGuard := by
      have le := folderCount_le validNext fun entry entryMem => ((mem entry).mp entryMem).imp_right And.left
      omega
    refine mem_walk validNext count (fun entry entryMem hidden => ?_) vaultName ((mem made).mpr (.inl rfl))
      named ?_
    · have hidden := (isSidecar_iff rootNext).mp hidden
      obtain rfl | ⟨oldMem, _⟩ := (mem entry).mp entryMem
      · exact absurd hidden notHidden
      · exact settled.file _ known entry oldMem hidden
    · rw [← Bool.not_eq_true, isSidecar_iff rootNext]
      exact notHidden

end

/-- What a step may do: commits of the settings apart, the hidden file stays as it is and
what a command makes or moves is shown. -/
structure Protected [Lowercase] (root : FileId) (fleet : Fleet) (event : Event) : Prop where
  kept : (∃ i accepted answered, event = .commit i accepted answered ∧
      ∃ flight ∈ (fleet.tasks i).flight, flight.settings = true) ∨
    sidecarOf root (fleet.exec event).host = sidecarOf root fleet.host
  visible : ∀ i accepted answered, event = .commit i accepted answered →
    ∀ flight ∈ (fleet.tasks i).flight, flight.settings = false →
      ∀ host ∈ fleet.outcome accepted flight.update, ∀ made ∈ flight.update.made fleet.host.tree,
        ∀ vaultName, ∃ node ∈ walk host.tree vaultName, node.Shows made

section

variable [Lowercase] {fleet : Fleet}

omit [Lowercase] in
theorem Shielded.put (inv : Shielded root fleet) {i : Nat} {task : Task}
    (shown : task.Shown root fleet.history) : Shielded root (fleet.put i task) := by
  refine { inv with tasks := fun j => ?_ }
  change (Function.update fleet.tasks i task j).Shown root fleet.history
  by_cases same : j = i
  · rw [same, Function.update_self]
    exact shown
  · rw [Function.update_of_ne same]
    exact inv.tasks j

omit [Lowercase] in
theorem applied_of_outcome {accepted : Bool} {update : Update} {host : HostTree}
    (h : fleet.outcome accepted update = some host) : fleet.host.apply update = .ok host :=
  except_toOption (Option.ite_none_right_eq_some.mp h).2

omit [Lowercase] in
theorem Shielded.commit (inv : Shielded root fleet) {i : Nat} {accepted answered : Bool}
    (avoiding : Avoiding root fleet (.commit i accepted answered)) :
    Shielded root (fleet.commit i accepted answered) := by
  unfold Fleet.commit
  split
  · exact inv
  · rename_i flight sent
    have shown := (inv.tasks i).flight flight sent
    obtain ⟨fresh, away⟩ := avoiding flight sent
    split
    · exact inv.put { inv.tasks i with jobs := List.forall_mem_nil _, flight := nofun }
    · rename_i host outcome
      have grown : Shielded root { fleet with host, history := host.tree :: fleet.history } :=
        ⟨List.mem_cons_self, inv.settled.apply inv.host shown fresh (fun own => (away own).2)
          (applied_of_outcome outcome), fun j => (inv.tasks j).mono host.tree⟩
      have old := (inv.tasks i).mono host.tree
      refine grown.put ⟨?_, old.nodes, ?_, nofun⟩
      · dsimp only
        split
        · exact List.mem_cons_self
        · exact old.replica
      · dsimp only
        split
        · exact shown.next
        · exact List.forall_mem_nil _

theorem Shielded.exec (inv : Shielded root fleet) (event : Event) (avoiding : Avoiding root fleet event) :
    Shielded root (fleet.exec event) := by
  cases event with
  | deliver i age =>
    unfold Fleet.exec
    dsimp only
    split
    · rename_i tree found
      exact inv.put { inv.tasks i with replica := List.mem_of_getElem? found }
    · exact inv
  | project i vaultName =>
    exact inv.put { inv.tasks i with nodes := .inr ⟨_, (inv.tasks i).replica, vaultName, rfl⟩ }
  | begin i command =>
    change Shielded root (fleet.start i command)
    unfold Fleet.start
    split
    · split
      · rename_i jobs planned
        exact inv.put { inv.tasks i with jobs := plan_shown (inv.tasks i).nodes planned }
      · exact inv
    · exact inv
  | work i child bodies => exact inv.put (work_shown inv.settled (inv.tasks i) avoiding child bodies)
  | commit i accepted answered => exact inv.commit avoiding
  | fail i => exact inv.put { inv.tasks i with jobs := List.forall_mem_nil _, flight := nofun }

omit [Lowercase] in
theorem sidecarOf_commit (inv : Shielded root fleet) {i : Nat} {accepted answered : Bool}
    (avoiding : Avoiding root fleet (.commit i accepted answered))
    (own : ∀ flight ∈ (fleet.tasks i).flight, flight.settings = false) :
    sidecarOf root (fleet.commit i accepted answered).host = sidecarOf root fleet.host := by
  unfold Fleet.commit
  split
  · rfl
  · rename_i flight sent
    obtain ⟨fresh, away⟩ := avoiding flight sent
    have own := own flight sent
    split
    · rfl
    · rename_i host outcome
      exact sidecarOf_apply inv.settled inv.host ((inv.tasks i).flight flight sent) fresh own (away own).2
        (applied_of_outcome outcome)

theorem Shielded.protected (inv : Shielded root fleet) {event : Event}
    (avoiding : Avoiding root fleet event) : Protected root fleet event := by
  constructor
  · cases event with
    | commit i accepted answered =>
      by_cases settings : ∃ flight ∈ (fleet.tasks i).flight, flight.settings = true
      · exact .inl ⟨i, accepted, answered, rfl, settings⟩
      · refine .inr (sidecarOf_commit inv avoiding fun flight sent => ?_)
        by_contra own
        exact settings ⟨flight, sent, by simpa using own⟩
    | deliver i age =>
      refine .inr (congrArg (sidecarOf root) ?_)
      unfold Fleet.exec
      dsimp only
      split <;> rfl
    | begin i command =>
      refine .inr (congrArg (sidecarOf root) ?_)
      change (fleet.start i command).host = fleet.host
      unfold Fleet.start
      split
      · split <;> rfl
      · rfl
    | project i vaultName => exact .inr rfl
    | work i child bodies => exact .inr rfl
    | fail i => exact .inr rfl
  · rintro i accepted answered rfl flight sent own host outcome made isMade vaultName
    obtain ⟨fresh, away⟩ := avoiding flight sent
    exact made_visible inv.settled inv.host ((inv.tasks i).flight flight sent) fresh (away own).1
      (away own).2 (applied_of_outcome outcome) isMade vaultName

omit [Lowercase] in
theorem shielded_new (root : FileId) : Shielded root (Fleet.new root) := by
  have valid := valid_new root
  have nameless : ∀ entry ∈ (DirectoryTree.new root).dirents, entry.key ≠ hiddenKey root := by
    intro entry mem hidden
    obtain ⟨key, found⟩ := mem_dirents.mp mem
    unfold DirectoryTree.new at found
    rw [Map.get_insert] at found
    split at found
    · cases found
      exact absurd (direntKey_inj.mp hidden).2 (by decide : "" ≠ sidecarName)
    · rw [Std.ExtTreeMap.getElem?_empty] at found
      cases found
  refine ⟨List.mem_singleton.mpr rfl, ⟨?_, ?_, ?_⟩, fun _ => ?_⟩
  · exact List.forall_mem_singleton.mpr ⟨valid, rfl⟩
  · exact List.forall_mem_singleton.mpr fun entry mem hidden => absurd hidden (nameless entry mem)
  · exact List.forall_mem_singleton.mpr fun entry mem hidden => absurd hidden (nameless entry mem)
  · exact ⟨List.mem_singleton.mpr rfl, .inl rfl, List.forall_mem_nil _, nofun⟩

/-- In a run in which no command goes for the place of the hidden file, every step leaves
it alone and shows what it makes. -/
theorem hidden_file_protected (root : FileId) (events : List Event) (event : Event)
    (avoiding : fleetMachine.Along (Avoiding root) (events ++ [event]) (Fleet.new root)) :
    Protected root (fleetMachine.run events (Fleet.new root)) event := by
  obtain ⟨before, last⟩ := (fleetMachine.along_append events [event] _).mp avoiding
  have inv := (fleetMachine.throughout_of_step (fun _ event inv avoiding => inv.exec event avoiding) events
    (Fleet.new root) (shielded_new root) before).final
  exact inv.protected last.1

end

end

section

/-! One client: the settings are written, and then a command runs. -/

local instance : Lowercase := ⟨fun name => String.ofList (name.toList.map Char.toLower)⟩

private def vaultRoot : FileId := ⟨0⟩

private def writesSettings : List Event :=
  [.begin 0 (.writeSidecar [[1]]), .work 0 ⟨7⟩ [], .commit 0 true true, .project 0 "v"]

private def createsNode (name : String) (isDir : Bool) : List Event :=
  [.begin 0 (.createNode vaultRoot name isDir), .work 0 ⟨1⟩ []]

theorem hidden_file_protected_one :
    Protected vaultRoot (fleetMachine.run (writesSettings ++ createsNode "a" true) (Fleet.new vaultRoot))
      (.commit 0 true true) :=
  hidden_file_protected vaultRoot (writesSettings ++ createsNode "a" true) (.commit 0 true true)
    (by decide +kernel)

/-- A file created under the name of the hidden one replaces the settings by nothing. -/
theorem hidden_file_protected_created :
    let fleet := fleetMachine.run (writesSettings ++ createsNode sidecarName false) (Fleet.new vaultRoot)
    let hidden : Dirent := ⟨vaultRoot, sidecarName, ⟨7⟩, false⟩
    sidecarOf vaultRoot fleet.host = some (hidden, some [[1]]) ∧
      sidecarOf vaultRoot (fleet.exec (.commit 0 true true)).host = some (hidden, some []) ∧
        ¬ Protected vaultRoot fleet (.commit 0 true true) := by
  intro fleet hidden
  have before : sidecarOf vaultRoot fleet.host = some (hidden, some [[1]]) := by decide +kernel
  have after : sidecarOf vaultRoot (fleet.exec (.commit 0 true true)).host = some (hidden, some []) := by
    decide +kernel
  have command : ∀ flight ∈ (fleet.tasks 0).flight, flight.settings = false := by decide +kernel
  refine ⟨before, after, fun kept => ?_⟩
  obtain ⟨i, accepted, answered, same, flight, sent, settings⟩ | same := kept.kept
  · cases same
    rw [command flight sent] at settings
    cases settings
  · rw [before, after] at same
    exact absurd same (by decide)

end

end QuantumFs.Client
