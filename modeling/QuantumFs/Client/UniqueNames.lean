import QuantumFs.Client.Commands
import QuantumFs.Store.TreeRun

/-! Names of one folder that differ only in case: what a command compares with its own
projection, and what the host commits after the commands of others. -/
namespace QuantumFs.Client

open Lib Store DirectoryTree

theorem except_bind_ok {ε α β : Type} {x : Except ε α} {f : α → Except ε β} {b : β} :
    (x >>= f) = .ok b ↔ ∃ a, x = .ok a ∧ f a = .ok b := by
  cases x <;> simp [bind, Except.bind]

theorem except_toOption {ε α : Type} {x : Except ε α} {a : α} (h : x.toOption = some a) : x = .ok a := by
  cases x with
  | error _ => cases h
  | ok _ => exact congrArg Except.ok (Option.some.inj h)

def Plain (name : String) : Prop := '/' ∉ name.toList

instance (name : String) : Decidable (Plain name) := inferInstanceAs (Decidable (_ ∉ _))

theorem plain_of_validateName {name : String} (h : validateName name = .ok ()) : Plain name := by
  simp only [validateName, Result.bind_eq_ok, ensure_eq_ok] at h
  obtain ⟨_, _, _, _, allowed⟩ := h
  exact fun slash => allowed (.inl slash)

theorem plain_of_nameError {name : String} (h : nameError name = none) : Plain name := by
  unfold nameError at h
  split at h
  · cases h
  · split at h
    · cases h
    · rename_i allowed
      exact fun slash => allowed (.inl slash)

theorem plain_ofList {text : Text} (plain : '/' ∉ text) : Plain (String.ofList text) := by
  unfold Plain
  rwa [String.toList_ofList]

theorem plain_append {left right : String} (hl : Plain left) (hr : Plain right) : Plain (left ++ right) := by
  unfold Plain
  rw [String.toList_append]
  exact fun mem => (List.mem_append.mp mem).elim hl hr

theorem stripCopyWord_begins {text stem : Text} (h : stripCopyWord text = some stem) : stem <+: text := by
  unfold stripCopyWord at h
  dsimp only at h
  split at h
  · cases h
  · split at h
    · cases h
    · obtain ⟨_, same⟩ := Option.ite_none_right_eq_some.mp h
      cases same
      exact (List.rdropWhile_prefix _ _).trans (List.take_prefix _ _)

theorem parseCopySuffix_begins {base stem : Text} {number : Option Nat}
    (h : parseCopySuffix base = some (stem, number)) : stem <+: base := by
  unfold parseCopySuffix at h
  dsimp only at h
  obtain numbered | ⟨_, plain⟩ := Option.or_eq_some_iff.mp (Option.or_eq_orElse.trans h)
  · obtain ⟨_, found⟩ := Option.ite_none_right_eq_some.mp numbered
    obtain ⟨_, stripped, same⟩ := Option.map_eq_some_iff.mp found
    cases same
    exact (stripCopyWord_begins stripped).trans ((List.rdropWhile_prefix _ _).trans (List.take_prefix _ _))
  · obtain ⟨_, stripped, same⟩ := Option.map_eq_some_iff.mp plain
    cases same
    exact stripCopyWord_begins stripped

section

variable [Lowercase]

theorem plain_splitName {name : String} (plain : Plain name) :
    Plain (splitName name).1 ∧ Plain (splitName name).2 := by
  unfold splitName
  dsimp only
  split
  · exact ⟨plain_ofList fun mem => plain (List.take_subset _ _ mem),
      plain_ofList fun mem => plain (List.drop_subset _ _ mem)⟩
  · split
    · refine ⟨plain_ofList fun mem => plain (List.take_subset _ _ mem), plain_ofList fun mem => plain ?_⟩
      exact List.mem_reverse.mp ((List.takeWhile_subset _) (List.mem_reverse.mp mem))
    · exact ⟨plain, (by decide : Plain "")⟩

omit [Lowercase] in
theorem plain_copyName {root ext : String} (hr : Plain root) (he : Plain ext) (n : Nat) :
    Plain (copyName root ext n) := by
  have stem : Plain (if n = 1 then root ++ " copy" else
      root ++ " copy " ++ String.ofList (Text.decimal n)) := by
    split
    · exact plain_append hr (by decide)
    · refine plain_append (plain_append hr (by decide)) (plain_ofList ?_)
      exact Text.not_mem_decimal (by decide) n
  unfold copyName joinName
  split
  · exact stem
  · exact plain_append (plain_append stem (by decide)) he

theorem plain_uniqueName {existing : List String} {desired name : String} (plain : Plain desired)
    (h : uniqueName existing desired = some name) : Plain name := by
  have loop : ∀ fuel root ext n, Plain root → Plain ext →
      uniqueNameLoop existing root ext fuel n = some name → Plain name := by
    intro fuel root ext
    induction fuel with
    | zero =>
      intro n _ _ h
      cases h
    | succ fuel ih =>
      intro n hr he h
      unfold uniqueNameLoop at h
      dsimp only at h
      split at h
      · exact ih _ hr he h
      · cases h
        exact plain_copyName hr he _
  obtain ⟨base, ext⟩ := plain_splitName plain
  unfold uniqueName at h
  split at h
  · dsimp only at h
    split at h
    · rename_i stem number found
      exact loop _ _ _ _ (plain_ofList fun mem => base ((parseCopySuffix_begins found).subset mem)) ext h
    · exact loop _ _ _ _ base ext h
  · cases h
    exact plain

omit [Lowercase] in
theorem childPath_chars {folder : String} (slashed : Slashed folder) (name : String) :
    (childPath folder name).toList = '/' :: name.toList ∨
      ∃ above, (childPath folder name).toList = '/' :: (above ++ '/' :: name.toList) := by
  unfold childPath
  split
  · exact .inl (String.toList_ofList ..)
  · rw [String.toList_ofList]
    obtain ⟨rest, chars⟩ := slashed
    cases kept : folder.toList.rdropWhile (· = '/') with
    | nil => exact .inl rfl
    | cons c above =>
      have first : c = '/' := by
        have start : c :: above <+: folder.toList := by
          rw [← kept]
          exact List.rdropWhile_prefix _ _
        rw [chars] at start
        exact (List.cons_prefix_cons.mp start).1
      rw [first]
      exact .inr ⟨above, rfl⟩

omit [Lowercase] in
theorem slashed_childPath {folder : String} (slashed : Slashed folder) (name : String) :
    Slashed (childPath folder name) := by
  obtain chars | ⟨above, chars⟩ := childPath_chars slashed name
  · exact ⟨_, chars⟩
  · exact ⟨_, chars⟩

omit [Lowercase] in
theorem resolveParent_name {tree : DirectoryTree} {folder name : String} (slashed : Slashed folder)
    (plain : Plain name) {parent : FileId} {found : String}
    (h : tree.resolveParent (childPath folder name) = .ok (parent, found)) : found = name := by
  simp only [resolveParent, Result.bind_eq_ok, okOr_eq_ok] at h
  obtain ⟨components, split, last, isLast, _, _, same⟩ := h
  cases same
  have single : name.toList.splitOn '/' = [name.toList] := List.splitOn_eq_singleton plain
  have pieces : ∀ {rest : List Char}, (childPath folder name).toList = '/' :: rest →
      (rest.splitOn '/').getLast? = some name.toList → found = name := by
    intro rest chars lastPiece
    obtain ⟨_, empty | shape⟩ := pathComponents_slashed chars split
    · rw [empty] at isLast
      cases isLast
    · rw [shape, List.getLast?_map, lastPiece] at isLast
      exact (Option.some.inj isLast).symm.trans (String.ofList_toList ..)
  obtain chars | ⟨above, chars⟩ := childPath_chars slashed name
  · refine pieces chars ?_
    rw [single]
    rfl
  · refine pieces chars ?_
    rw [List.splitOn_append_cons_self, single]
    exact List.getLast?_concat

/-- No two entries of a folder have names that are equal ignoring case. -/
def Distinct (tree : DirectoryTree) : Prop :=
  ∀ a ∈ tree.dirents, ∀ b ∈ tree.dirents, a.name ≠ "" → b.name ≠ "" → a.parent = b.parent →
    lower a.name = lower b.name → a = b

structure Target.Cleared (target : Target) : Prop where
  free : taken target.beside target.name = false
  plain : Plain target.name
  slashed : Slashed target.folder

def Job.Cleared : Job → Prop
  | .mkdir target | .save target _ | .rename _ target | .copy _ target => target.Cleared
  | .copyChildren _ destination => Slashed destination
  | .importFile _ parent _ _ => Slashed parent
  | .unlink _ | .duplicate .. | .sidecar _ => True

/-- The folder and the name that an update fills. -/
def Update.target : Update → Option (FileId × String)
  | .link parent name _ _ => some (parent, name)
  | .rename _ _ dstParent dstName => some (dstParent, dstName)
  | .overwrite .. | .unlink .. => none

structure Flight.Cleared (flight : Flight) : Prop where
  free : ∀ place ∈ flight.update.target, taken flight.beside place.2 = false
  next : ∀ job ∈ flight.next, job.Cleared

def Seen (history : List DirectoryTree) (nodes : List Node) : Prop :=
  nodes = [] ∨ ∃ tree ∈ history, ∃ vaultName, nodes = walk tree vaultName

structure Task.Cleared (history : List DirectoryTree) (task : Task) : Prop where
  replica : task.replica ∈ history
  nodes : Seen history task.nodes
  jobs : ∀ job ∈ task.jobs, job.Cleared
  flight : ∀ flight ∈ task.flight, flight.Cleared

omit [Lowercase] in
theorem Seen.slashed {history : List DirectoryTree} {nodes : List Node} (seen : Seen history nodes)
    {node : Node} (mem : node ∈ nodes) : Slashed node.path := by
  obtain rfl | ⟨tree, _, vaultName, rfl⟩ := seen
  · cases mem
  · exact (projected_walk mem).slashed

omit [Lowercase] in
theorem Seen.plain {history : List DirectoryTree} (valid : ∀ tree ∈ history, Valid tree) {nodes : List Node}
    (seen : Seen history nodes) {node : Node} (mem : node ∈ nodes) {parent : FileId}
    (below : node.parent = some parent) : Plain node.name := by
  obtain rfl | ⟨tree, known, vaultName, rfl⟩ := seen
  · cases mem
  · obtain ⟨top, _⟩ | ⟨entry, entryMem, named, _, shows⟩ := (projected_walk mem).source
    · rw [top] at below
      cases below
    · rw [shows.2.2.1]
      exact plain_of_validateName ((valid tree known).named entryMem named)

omit [Lowercase] in
theorem mem_siblings {nodes : List Node} {parentId : FileId} {exclude : Option FileId} {node : Node} :
    node ∈ siblings nodes parentId exclude ↔
      node ∈ nodes ∧ node.parent = some parentId ∧ some node.id ≠ exclude := by
  unfold siblings
  simp only [List.mem_filter, decide_eq_true_eq]

omit [Lowercase] in
theorem requireNode_mem {nodes : List Node} {nodeId : FileId} {node : Node}
    (h : requireNode nodes nodeId = .ok node) : node ∈ nodes := by
  unfold requireNode at h
  split at h
  · rename_i found
    cases h
    exact List.mem_of_find?_eq_some found
  · cases h

omit [Lowercase] in
theorem Seen.slashed_folder {history : List DirectoryTree} {nodes : List Node} (seen : Seen history nodes)
    {nodeId : FileId} {path : String} (h : requireFolder nodes nodeId = .ok path) : Slashed path := by
  unfold requireFolder at h
  cases found : requireNode nodes nodeId with
  | error _ =>
    rw [found] at h
    cases h
  | ok node =>
    rw [found] at h
    change (if node.isDir = true then Except.ok node.path else Except.error _) = Except.ok path at h
    split at h
    · cases h
      exact seen.slashed (requireNode_mem found)
    · cases h

theorem Seen.distinct {history : List DirectoryTree} (valid : ∀ tree ∈ history, Valid tree)
    (distinct : ∀ tree ∈ history, Distinct tree) {nodes : List Node} (seen : Seen history nodes)
    (parentId : FileId) (exclude : Option FileId) :
    (siblings nodes parentId exclude).Pairwise fun a b => lower a.name ≠ lower b.name := by
  obtain rfl | ⟨tree, known, vaultName, rfl⟩ := seen
  · exact List.Pairwise.nil
  have ids : (siblings (walk tree vaultName) parentId exclude).Pairwise fun a b => a.id ≠ b.id :=
    (List.pairwise_map.mp (nodup_walk (valid tree known) vaultName)).filter _
  refine ids.imp_of_mem fun {a b} aMem bMem other same => other ?_
  obtain ⟨aMem, aParent, _⟩ := mem_siblings.mp aMem
  obtain ⟨bMem, bParent, _⟩ := mem_siblings.mp bMem
  obtain ⟨top, _⟩ | ⟨x, xMem, xNamed, _, xShows⟩ := (projected_walk aMem).source
  · rw [top] at aParent
    cases aParent
  obtain ⟨top, _⟩ | ⟨y, yMem, yNamed, _, yShows⟩ := (projected_walk bMem).source
  · rw [top] at bParent
    cases bParent
  obtain ⟨xId, xParent, xName, _⟩ := xShows
  obtain ⟨yId, yParent, yName, _⟩ := yShows
  have parents : x.parent = y.parent :=
    Option.some.inj (xParent.symm.trans (aParent.trans (bParent.symm.trans yParent)))
  rw [xName, yName] at same
  rw [xId, yId, distinct tree known x xMem y yMem xNamed yNamed parents same]

theorem taken_childNames {nodes : List Node} {parentId : FileId} {exclude : Option FileId} {name : String} :
    taken (childNames nodes parentId exclude) name =
      (siblings nodes parentId exclude).any fun node => lower node.name = lower name := by
  unfold taken childNames
  rw [List.any_map]
  rfl

theorem checkNameFree_ok {nodes : List Node} {parentId : FileId} {name : String} {exclude : Option FileId}
    (h : checkNameFree nodes parentId name exclude = .ok ()) :
    taken (childNames nodes parentId exclude) name = false ∧ Plain name := by
  unfold checkNameFree at h
  split at h
  · cases h
  · rename_i legal
    split at h
    · cases h
    · rename_i none
      refine ⟨?_, plain_of_nameError legal⟩
      rw [taken_childNames, List.any_eq_false]
      exact List.find?_eq_none.mp none

theorem planMoves_cleared {history : List DirectoryTree} (valid : ∀ tree ∈ history, Valid tree)
    {nodes : List Node} (seen : Seen history nodes) {toParentId : FileId} {folder : String}
    (slashed : Slashed folder) {nodeIds : List FileId} :
    ∀ {names : List String} {jobs : List Job},
      planMoves nodes toParentId folder nodeIds names = .ok jobs → ∀ job ∈ jobs, job.Cleared := by
  induction nodeIds with
  | nil =>
    intro names jobs h
    cases h
    exact nofun
  | cons nodeId nodeIds ih =>
    intro names jobs h
    unfold planMoves at h
    obtain ⟨node, found, h⟩ := except_bind_ok.mp h
    split at h
    · cases h
    · rename_i parentId below
      split at h
      · exact ih h
      · split at h
        · cases h
        · obtain ⟨_, free, h⟩ := except_bind_ok.mp h
          obtain ⟨rest, planned, same⟩ := except_bind_ok.mp h
          cases same
          unfold collisionWith at free
          split at free
          · cases free
          · rename_i notTaken
            refine List.forall_mem_cons.mpr ⟨⟨Bool.not_eq_true _ ▸ notTaken, ?_, slashed⟩, ih planned⟩
            exact seen.plain valid (requireNode_mem found) below

theorem plan_cleared {history : List DirectoryTree} (valid : ∀ tree ∈ history, Valid tree)
    {nodes : List Node} (seen : Seen history nodes) {rootId : FileId} {command : Command} {jobs : List Job}
    (h : plan nodes rootId command = .ok jobs) : ∀ job ∈ jobs, job.Cleared := by
  cases command with
  | createNode parentId name isDir =>
    obtain ⟨parent, isFolder, h⟩ := except_bind_ok.mp h
    obtain ⟨_, checked, same⟩ := except_bind_ok.mp h
    cases same
    obtain ⟨free, plain⟩ := checkNameFree_ok checked
    have cleared : Target.Cleared ⟨parent, trimmed name, childNames nodes parentId none⟩ :=
      ⟨free, plain, seen.slashed_folder isFolder⟩
    refine List.forall_mem_singleton.mpr ?_
    split <;> exact cleared
  | renameNode nodeId name =>
    obtain ⟨node, _, h⟩ := except_bind_ok.mp h
    split at h
    · cases h
    · rename_i parentId _
      obtain ⟨_, checked, h⟩ := except_bind_ok.mp h
      obtain ⟨parent, isFolder, same⟩ := except_bind_ok.mp h
      cases same
      obtain ⟨free, plain⟩ := checkNameFree_ok checked
      exact List.forall_mem_singleton.mpr ⟨free, plain, seen.slashed_folder isFolder⟩
  | moveNodes nodeIds toParentId =>
    obtain ⟨folder, isFolder, h⟩ := except_bind_ok.mp h
    exact planMoves_cleared valid seen (seen.slashed_folder isFolder) h
  | deleteNodes nodeIds =>
    obtain ⟨roots, _, same⟩ := except_bind_ok.mp h
    cases same
    intro job mem
    obtain ⟨_, _, rfl⟩ := List.mem_map.mp mem
    trivial
  | duplicateNodes nodeIds toParentId =>
    cases h
    intro job mem
    obtain ⟨_, _, rfl⟩ := List.mem_map.mp mem
    trivial
  | importFiles parentId files =>
    obtain ⟨parent, isFolder, same⟩ := except_bind_ok.mp h
    cases same
    intro job mem
    obtain ⟨_, _, rfl⟩ := List.mem_map.mp mem
    exact seen.slashed_folder isFolder
  | writeSidecar content =>
    cases h
    exact List.forall_mem_singleton.mpr trivial

theorem cleared_sendLink {task : Task} {target : Target} (cleared : target.Cleared) {parent : FileId}
    {name : String} (resolved : (task.replica.resolveParent target.path).toOption = some (parent, name)) :
    taken target.beside name = false := by
  rw [resolveParent_name cleared.slashed cleared.plain (except_toOption resolved)]
  exact cleared.free

/-- The work a task does next is as cleared as the job it comes from. -/
def Work.Cleared : Work → Prop
  | .expand jobs => ∀ job ∈ jobs, job.Cleared
  | .send flight => flight.Cleared

theorem mkdir_cleared {task : Task} {target : Target} (cleared : target.Cleared) {child : FileId}
    {next : List Job} (nextCleared : ∀ job ∈ next, job.Cleared) {work : Work}
    (h : task.mkdir target child next = some work) : work.Cleared := by
  obtain ⟨⟨parent, name⟩, resolved, same⟩ := Option.bind_eq_some_iff.mp h
  cases same
  refine ⟨fun place mem => ?_, nextCleared⟩
  cases mem
  exact cleared_sendLink cleared resolved

theorem saveFile_cleared {task : Task} {target : Target}
    (free : ∀ {parent name}, (task.replica.resolveParent target.path).toOption = some (parent, name) →
      taken target.beside name = false) {child : FileId} {content : Content} {settings : Bool} {work : Work}
    (h : task.saveFile target child content settings = some work) : work.Cleared := by
  obtain ⟨⟨parent, name⟩, resolved, h⟩ := Option.bind_eq_some_iff.mp h
  dsimp only at h
  split at h
  · split at h
    · cases h
    · cases h
      exact ⟨nofun, nofun⟩
  · cases h
    refine ⟨fun place mem => ?_, nofun⟩
    cases mem
    exact free resolved

theorem copiesOf_cleared {destination : String} (slashed : Slashed destination) {nodes : List Node} :
    ∀ {names : List String}, (∀ node ∈ nodes, Plain node.name ∧ taken names node.name = false) →
      (nodes.Pairwise fun a b => lower a.name ≠ lower b.name) →
        ∀ job ∈ Task.copiesOf destination nodes names, job.Cleared := by
  induction nodes with
  | nil => exact fun _ _ => nofun
  | cons node nodes ih =>
    intro names free distinct
    obtain ⟨first, rest⟩ := List.pairwise_cons.mp distinct
    obtain ⟨plain, notTaken⟩ := free node List.mem_cons_self
    refine List.forall_mem_cons.mpr ⟨⟨notTaken, plain, slashed⟩, ih (fun other mem => ?_) rest⟩
    obtain ⟨plain, notTaken⟩ := free other (List.mem_cons_of_mem _ mem)
    refine ⟨plain, ?_⟩
    unfold taken at notTaken ⊢
    rw [List.any_append, notTaken, Bool.false_or]
    simpa using first other mem

theorem step_cleared {history : List DirectoryTree} (valid : ∀ tree ∈ history, Valid tree)
    (distinct : ∀ tree ∈ history, Distinct tree) {task : Task} (seen : Seen history task.nodes)
    {job : Job} (cleared : job.Cleared) {child : FileId} {bodies : Content} {work : Work}
    (h : task.step child bodies job = some work) : work.Cleared := by
  cases job with
  | mkdir target => exact mkdir_cleared cleared (List.forall_mem_nil _) h
  | save target content => exact saveFile_cleared (cleared_sendLink cleared) h
  | sidecar content => exact saveFile_cleared (fun _ => rfl) h
  | rename source target =>
    obtain ⟨_, _, h⟩ := Option.bind_eq_some_iff.mp h
    obtain ⟨⟨parent, name⟩, resolved, same⟩ := Option.bind_eq_some_iff.mp h
    cases same
    refine ⟨fun place mem => ?_, nofun⟩
    cases mem
    exact cleared_sendLink cleared resolved
  | unlink path =>
    obtain ⟨_, _, same⟩ := Option.bind_eq_some_iff.mp h
    cases same
    exact ⟨nofun, nofun⟩
  | duplicate nodeId toParentId =>
    obtain ⟨node, found, h⟩ := Option.bind_eq_some_iff.mp h
    obtain ⟨own, below, h⟩ := Option.bind_eq_some_iff.mp h
    obtain ⟨parent, isFolder, h⟩ := Option.bind_eq_some_iff.mp h
    obtain ⟨name, unique, same⟩ := Option.bind_eq_some_iff.mp h
    cases same
    have mem := requireNode_mem (except_toOption found)
    refine List.forall_mem_singleton.mpr ⟨uniqueName_free unique, ?_, ?_⟩
    · exact plain_uniqueName (seen.plain valid mem below) unique
    · exact seen.slashed_folder (except_toOption isFolder)
  | copy nodeId target =>
    obtain ⟨node, _, h⟩ := Option.bind_eq_some_iff.mp h
    split at h
    · refine mkdir_cleared cleared (List.forall_mem_singleton.mpr ?_) h
      exact slashed_childPath cleared.slashed target.name
    · exact saveFile_cleared (cleared_sendLink cleared) h
  | copyChildren nodeId destination =>
    cases h
    refine copiesOf_cleared cleared (fun node mem => ⟨?_, rfl⟩) (seen.distinct valid distinct nodeId none)
    obtain ⟨mem, below, _⟩ := mem_siblings.mp mem
    exact seen.plain valid mem below
  | importFile parentId parent desired content =>
    obtain ⟨legal, h⟩ := Option.ite_none_left_eq_some.mp h
    obtain ⟨name, unique, same⟩ := Option.bind_eq_some_iff.mp h
    cases same
    have legal : nameError desired = none := by simpa using legal
    exact List.forall_mem_singleton.mpr
      ⟨uniqueName_free unique, plain_uniqueName (plain_of_nameError legal) unique, cleared⟩

theorem work_cleared {history : List DirectoryTree} (valid : ∀ tree ∈ history, Valid tree)
    (distinct : ∀ tree ∈ history, Distinct tree) {task : Task} (cleared : task.Cleared history)
    (child : FileId) (bodies : Content) : (task.work child bodies).Cleared history := by
  unfold Task.work
  split
  · rename_i job jobs idle queue
    have queued := cleared.jobs
    rw [queue] at queued
    obtain ⟨first, rest⟩ := List.forall_mem_cons.mp queued
    split
    · rename_i more step
      have known : ∀ job ∈ more, job.Cleared := step_cleared valid distinct cleared.nodes first step
      exact { cleared with jobs := List.forall_mem_append.mpr ⟨known, rest⟩ }
    · rename_i flight step
      have known : flight.Cleared := step_cleared valid distinct cleared.nodes first step
      refine { cleared with jobs := nofun, flight := fun sent mem => ?_ }
      cases mem
      exact ⟨known.free, List.forall_mem_append.mpr ⟨known.next, rest⟩⟩
    · exact { cleared with jobs := nofun }
  · exact cleared

def Update.source : Update → Option DirentKey
  | .unlink parent name => some (direntKey parent name)
  | .rename srcParent srcName _ _ => some (direntKey srcParent srcName)
  | .link .. | .overwrite .. => none

/-- Whatever is in the folder without the command knowing has another name. -/
def Flight.Alone (tree : DirectoryTree) (flight : Flight) : Prop :=
  ∀ place ∈ flight.update.target, ∀ entry ∈ tree.dirents, entry.parent = place.1 → entry.name ≠ "" →
    flight.update.source ≠ some entry.key → entry.name ∉ flight.beside →
      lower entry.name ≠ lower place.2

instance (tree : DirectoryTree) (flight : Flight) : Decidable (flight.Alone tree) :=
  inferInstanceAs (Decidable (∀ place ∈ flight.update.target, ∀ entry ∈ tree.dirents, _))

/-- The entry that an update makes, or the one it moves in its new place. -/
def Update.made (tree : DirectoryTree) : Update → Option Dirent
  | .link parent name child content => some ⟨parent, name, child, content.isNone⟩
  | .rename srcParent srcName dstParent dstName =>
    tree.entries[direntKey srcParent srcName]?.map fun entry =>
      { entry with parent := dstParent, name := dstName }
  | .overwrite .. | .unlink .. => none

omit [Lowercase] in
theorem apply_tree {host next : HostTree} (valid : Valid host.tree) {update : Update}
    (h : host.apply update = .ok next) :
    Valid next.tree ∧ next.tree.expectedRoot = host.tree.expectedRoot ∧
      ((update.target = none ∧ ∀ entry, entry ∈ next.tree.dirents ↔
          entry ∈ host.tree.dirents ∧ update.source ≠ some entry.key) ∨
        ∃ made, update.made host.tree = some made ∧ update.target = some (made.parent, made.name) ∧
          made.name ≠ "" ∧ ∀ entry, entry ∈ next.tree.dirents ↔
            entry = made ∨ entry ∈ host.tree.dirents ∧ update.source ≠ some entry.key) := by
  have away : ∀ {key : DirentKey} {entry : Dirent}, entry.key ≠ key ↔ some key ≠ some entry.key :=
    fun {key entry} => not_congr ⟨fun same => congrArg some same.symm, fun same => (Option.some.inj same).symm⟩
  cases update with
  | link parent name child content =>
    obtain ⟨tree, linked, same⟩ := Result.bind_eq_ok.mp h
    cases same
    refine ⟨valid_link valid linked, ?_⟩
    obtain ⟨linkable, rfl⟩ := link_eq_ok.mp linked
    refine ⟨rfl, .inr ⟨⟨parent, name, child, content.isNone⟩, rfl, rfl, ?_, fun entry => ?_⟩⟩
    · exact ne_empty_of_validateName linkable.name
    · rw [mem_insertEntry linkable.vacant]
      exact or_congr_right (and_iff_left nofun).symm
  | overwrite fileId content =>
    cases h
    exact ⟨valid, rfl, .inl ⟨rfl, fun entry => (and_iff_left nofun).symm⟩⟩
  | unlink parent name =>
    obtain ⟨⟨child, tree⟩, unlinked, same⟩ := Result.bind_eq_ok.mp h
    cases same
    refine ⟨valid_unlink valid unlinked, unlink_expectedRoot valid unlinked, .inl ⟨rfl, fun entry => ?_⟩⟩
    obtain ⟨gone, _, key, _, _, _, isNext⟩ := (unlink_eq_ok valid).mp unlinked
    change entry ∈ tree.dirents ↔ _
    rw [isNext, mem_eraseEntry valid, key]
    exact and_congr_right fun _ => away
  | rename srcParent srcName dstParent dstName =>
    obtain ⟨tree, renamed, same⟩ := Result.bind_eq_ok.mp h
    cases same
    have root : tree.expectedRoot = host.tree.expectedRoot := by
      obtain rfl | ⟨_, _, _, _, _, rfl, _⟩ := rename_cases valid renamed
      · rfl
      · rfl
    obtain ⟨entry, entryMem, key, mem⟩ := mem_dirents_rename valid renamed
    refine ⟨valid_rename valid renamed, root, .inr ⟨{ entry with parent := dstParent, name := dstName },
      ?_, rfl, ?_, fun other => (mem other).trans (or_congr_right (and_congr_right fun _ => away))⟩⟩
    · rw [Update.made, ← key, (mem_dirents_iff_get valid).mp entryMem]
      rfl
    · simp only [rename, Result.bind_eq_ok] at renamed
      obtain ⟨_, _, _, dstOk, _⟩ := renamed
      exact ne_empty_of_validateName dstOk

theorem distinct_apply {host next : HostTree} (valid : Valid host.tree) (distinct : Distinct host.tree)
    {flight : Flight} (cleared : flight.Cleared) (alone : flight.Alone host.tree)
    (h : host.apply flight.update = .ok next) : Distinct next.tree := by
  obtain ⟨_, _, ⟨_, mem⟩ | ⟨made, _, place, _, mem⟩⟩ := apply_tree valid h
  · exact fun a aMem b bMem => distinct a ((mem a).mp aMem).1 b ((mem b).mp bMem).1
  · have free := cleared.free _ place
    -- An old entry of the folder is known to the command or has another name.
    have other : ∀ entry ∈ host.tree.dirents, flight.update.source ≠ some entry.key → entry.name ≠ "" →
        entry.parent = made.parent → lower entry.name ≠ lower made.name := by
      intro entry entryMem stays named parent same
      by_cases known : entry.name ∈ flight.beside
      · refine List.any_eq_false.mp free entry.name known ?_
        exact decide_eq_true same
      · exact alone _ place entry entryMem parent named stays known same
    intro a aMem b bMem aNamed bNamed parents same
    obtain rfl | ⟨aOld, aStays⟩ := (mem a).mp aMem <;> obtain rfl | ⟨bOld, bStays⟩ := (mem b).mp bMem
    · rfl
    · exact absurd same.symm (other b bOld bStays bNamed parents.symm)
    · exact absurd same (other a aOld aStays aNamed parents)
    · exact distinct a aOld b bOld aNamed bNamed parents same

/-- Every update that reaches the host finds the folder as its command knew it, as far as
names equal to its own are concerned. -/
def Careful (fleet : Fleet) : Event → Prop
  | .commit i _ _ => ∀ flight ∈ (fleet.tasks i).flight, flight.Alone fleet.host.tree
  | _ => True

instance (fleet : Fleet) : (event : Event) → Decidable (Careful fleet event)
  | .commit i _ _ =>
    inferInstanceAs (Decidable (∀ flight ∈ (fleet.tasks i).flight, flight.Alone fleet.host.tree))
  | .deliver .. | .project .. | .begin .. | .work .. | .fail _ => .isTrue trivial

structure Orderly (fleet : Fleet) : Prop where
  host : fleet.host.tree ∈ fleet.history
  valid : ∀ tree ∈ fleet.history, Valid tree
  distinct : ∀ tree ∈ fleet.history, Distinct tree
  tasks : ∀ i, (fleet.tasks i).Cleared fleet.history

theorem Orderly.put {fleet : Fleet} (inv : Orderly fleet) {i : Nat} {task : Task}
    (cleared : task.Cleared fleet.history) : Orderly (fleet.put i task) := by
  refine { inv with tasks := fun j => ?_ }
  change (Function.update fleet.tasks i task j).Cleared fleet.history
  by_cases same : j = i
  · rw [same, Function.update_self]
    exact cleared
  · rw [Function.update_of_ne same]
    exact inv.tasks j

theorem Task.Cleared.mono {history : List DirectoryTree} {task : Task} (cleared : task.Cleared history)
    (tree : DirectoryTree) : task.Cleared (tree :: history) := by
  refine { cleared with replica := List.mem_cons_of_mem _ cleared.replica, nodes := ?_ }
  refine cleared.nodes.imp_right ?_
  rintro ⟨seen, known, name, same⟩
  exact ⟨seen, List.mem_cons_of_mem _ known, name, same⟩

theorem Orderly.commit {fleet : Fleet} (inv : Orderly fleet) {i : Nat} {accepted answered : Bool}
    (careful : Careful fleet (.commit i accepted answered)) : Orderly (fleet.commit i accepted answered) := by
  unfold Fleet.commit
  split
  · exact inv
  · rename_i flight sent
    have cleared := (inv.tasks i).flight flight sent
    split
    · exact inv.put { inv.tasks i with jobs := nofun, flight := nofun }
    · rename_i host outcome
      unfold Fleet.outcome at outcome
      obtain ⟨_, applied⟩ := Option.ite_none_right_eq_some.mp outcome
      have applied := except_toOption applied
      have valid := inv.valid _ inv.host
      have grown : Orderly { fleet with host, history := host.tree :: fleet.history } := by
        refine ⟨List.mem_cons_self, ?_, ?_, fun j => (inv.tasks j).mono host.tree⟩
        · exact List.forall_mem_cons.mpr ⟨(apply_tree valid applied).1, inv.valid⟩
        · refine List.forall_mem_cons.mpr ⟨?_, inv.distinct⟩
          exact distinct_apply valid (inv.distinct _ inv.host) cleared (careful flight sent) applied
      have old := (inv.tasks i).mono host.tree
      refine grown.put ⟨?_, old.nodes, ?_, nofun⟩
      · dsimp only
        split
        · exact List.mem_cons_self
        · exact old.replica
      · dsimp only
        split
        · exact cleared.next
        · exact List.forall_mem_nil _

theorem Orderly.exec {fleet : Fleet} (inv : Orderly fleet) (event : Event) (careful : Careful fleet event) :
    Orderly (fleet.exec event) := by
  cases event with
  | deliver i age =>
    unfold Fleet.exec
    dsimp only
    split
    · rename_i tree found
      exact inv.put { inv.tasks i with replica := List.mem_of_getElem? found }
    · exact inv
  | project i vaultName =>
    exact inv.put { inv.tasks i with nodes := .inr ⟨_, (inv.tasks i).replica, vaultName, rfl⟩ }
  | begin i command =>
    change Orderly (fleet.start i command)
    unfold Fleet.start
    split
    · split
      · rename_i jobs planned
        exact inv.put { inv.tasks i with jobs := plan_cleared inv.valid (inv.tasks i).nodes planned }
      · exact inv
    · exact inv
  | work i child bodies => exact inv.put (work_cleared inv.valid inv.distinct (inv.tasks i) child bodies)
  | commit i accepted answered => exact inv.commit careful
  | fail i => exact inv.put { inv.tasks i with jobs := nofun, flight := nofun }

theorem distinct_new (root : FileId) : Distinct (DirectoryTree.new root) := by
  intro a aMem b bMem aNamed
  have valid := valid_new root
  obtain ⟨key, found⟩ := mem_dirents.mp aMem
  unfold DirectoryTree.new at found
  rw [Map.get_insert] at found
  split at found
  · cases found
    exact absurd rfl aNamed
  · rw [Std.ExtTreeMap.getElem?_empty] at found
    cases found

theorem orderly_new (root : FileId) : Orderly (Fleet.new root) :=
  ⟨List.mem_singleton.mpr rfl, List.forall_mem_singleton.mpr (valid_new root),
    List.forall_mem_singleton.mpr (distinct_new root),
    fun _ => ⟨List.mem_singleton.mpr rfl, .inl rfl, List.forall_mem_nil _, nofun⟩⟩

/-- Names stay unique in a run in which no update meets an equal name that its command
did not know of. -/
theorem names_stay_unique (root : FileId) (events : List Event)
    (careful : fleetMachine.Along Careful events (Fleet.new root)) :
    fleetMachine.Throughout (fun fleet => Distinct fleet.host.tree) events (Fleet.new root) :=
  (fleetMachine.throughout_of_step (fun _ event inv careful => inv.exec event careful) events
    (Fleet.new root) (orderly_new root) careful).mono fun _ inv => inv.distinct _ inv.host

end

section

/-! Two clients that see an empty vault. -/

local instance : Lowercase := ⟨fun name => String.ofList (name.toList.map Char.toLower)⟩

private def emptyRoot : FileId := ⟨0⟩

/-- One client makes a folder. -/
private def makesFolder (i : Nat) (name : String) (child : FileId) : List Event :=
  [.project i "v", .begin i (.createNode emptyRoot name true), .work i child []]

/-- One client makes a folder, and then both make one that the other does not see. -/
private def takesTurns : List Event :=
  makesFolder 0 "a" ⟨1⟩ ++ [.commit 0 true true] ++ makesFolder 1 "B" ⟨2⟩ ++ makesFolder 0 "c" ⟨3⟩ ++
    [.commit 1 true true, .commit 0 true true]

theorem names_stay_unique_turns :
    ((fleetMachine.run takesTurns (Fleet.new emptyRoot)).host.tree.dirents.map Dirent.name =
      ["", "B", "a", "c"]) ∧
    fleetMachine.Throughout (fun fleet => Distinct fleet.host.tree) takesTurns (Fleet.new emptyRoot) :=
  ⟨by decide +kernel, names_stay_unique emptyRoot takesTurns (by decide +kernel)⟩

/-- Both checks pass before either folder is there. -/
theorem names_stay_unique_two :
    let fleet := fleetMachine.run (makesFolder 0 "a" ⟨1⟩ ++ makesFolder 1 "A" ⟨2⟩ ++
      [.commit 0 true true, .commit 1 true true]) (Fleet.new emptyRoot)
    ⟨emptyRoot, "a", ⟨1⟩, true⟩ ∈ fleet.host.tree.dirents ∧
      ⟨emptyRoot, "A", ⟨2⟩, true⟩ ∈ fleet.host.tree.dirents ∧ ¬ Distinct fleet.host.tree := by
  intro fleet
  have first : ⟨emptyRoot, "a", ⟨1⟩, true⟩ ∈ fleet.host.tree.dirents := by decide +kernel
  have second : ⟨emptyRoot, "A", ⟨2⟩, true⟩ ∈ fleet.host.tree.dirents := by decide +kernel
  refine ⟨first, second, fun distinct => ?_⟩
  have same := distinct _ first _ second (by decide) (by decide) rfl (by decide)
  exact absurd same (by decide)

end

end QuantumFs.Client
