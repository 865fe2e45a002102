import QuantumFs.Client.Addressing
import QuantumFs.Client.Converged
import QuantumFs.Lib.RollUp
import QuantumFs.Protocol

/-! The nodes that a vault task sends to the web view (`node/vault.rs`, `project`): what the walk
lists, with the sizes rolled up and the children counted, and the change from the nodes before. -/
namespace QuantumFs.Client

open Lib Store DirectoryTree

/-- `root_id` -/
def rootNodeId (vaultId : VaultId) : String := "root_" ++ String.ofList (Text.hex (idBytes vaultId.val))

def hexId (file : FileId) : String := String.ofList (Text.hex (idBytes file.val))

def manifestFacts (manifests : Map FileId Manifest) (file : FileId) : U64 × U64 × Option PeerId :=
  match manifests[file]? with
  | some manifest => (manifest.size, manifest.version, some manifest.writerId)
  | none => (0, 0, none)

/-- A node of the walk as the task keeps it. -/
structure Raw where
  fileId : FileId
  id : String
  parent : Option String
  name : String
  isDir : Bool
  version : U64
  size : U64
  writer : Option PeerId
  path : String

/-- What the task knows of a node from its records, its settings and its transfers. -/
structure Known where
  createdAt : Nat
  modifiedAt : Nat
  createdBy : String
  modifiedBy : String
  color : Option FolderColor
  availability : Availability
  progress : Option ℚ
  holders : List String

section

variable (tree : DirectoryTree) (vaultId : VaultId) (manifests : Map FileId Manifest)

def nodeId (file : FileId) : String := if file = tree.expectedRoot then rootNodeId vaultId else hexId file

def rawOf (node : Node) : Raw :=
  let (size, version, writer) := if node.isDir then (0, 0, none) else manifestFacts manifests node.id
  ⟨node.id, nodeId tree vaultId node.id, node.parent.map (nodeId tree vaultId), node.name, node.isDir, version, size,
    writer, node.path⟩

def rawWalk (vaultName : String) : List Raw := (walk tree vaultName).map (rawOf tree vaultId manifests)

end

def fileSizes (raw : List Raw) : String → U64 :=
  raw.foldl (fun sizes item => if item.isDir then sizes else Function.update sizes item.id item.size) fun _ => 0

/-- The pass from the last item to the first that rolls the sizes up. -/
def sizesOf (raw : List Raw) : String → U64 := RollUp.rollUp Raw.id Raw.parent raw (fileSizes raw)

def childCounts (raw : List Raw) : String → Fin (2 ^ 32) :=
  raw.foldl (fun counts item =>
    match item.parent with
    | some parent => Function.update counts parent (counts parent + 1)
    | none => counts) fun _ => 0

def wireNode (vaultHex : String) (sizes : String → U64) (counts : String → Fin (2 ^ 32)) (known : Raw → Known)
    (item : Raw) : FsNode where
  id := item.id
  vaultId := vaultHex
  parentId := item.parent
  kind := if item.isDir then .folder else .file
  name := item.name
  sizeBytes := (sizes item.id).val
  createdAt := (known item).createdAt
  modifiedAt := (known item).modifiedAt
  createdBy := (known item).createdBy
  modifiedBy := (known item).modifiedBy
  color := (known item).color
  availability := (known item).availability
  progress := (known item).progress
  holders := (known item).holders
  childCount := (counts item.id).val

def wireNodes (vaultHex : String) (known : Raw → Known) (raw : List Raw) : List FsNode :=
  raw.map (wireNode vaultHex (sizesOf raw) (childCounts raw) known)

variable {tree : DirectoryTree} {vaultId : VaultId}

theorem hexId_inj {a b : FileId} (same : hexId a = hexId b) : a = b := by
  have bytes : idBytes a.val = idBytes b.val := Text.hex_inj (String.ofList_injective same)
  have values : a.val.val = b.val.val := by
    rw [← ofBE_toBE (show a.val.val < 256 ^ 32 from a.val.isLt), ← ofBE_toBE (show b.val.val < 256 ^ 32 from b.val.isLt)]
    exact congrArg ofBE bytes
  cases a
  cases b
  exact congrArg FileId.mk (Fin.ext values)

theorem hexId_ne_root (file : FileId) : hexId file ≠ rootNodeId vaultId := by
  intro same
  have chars := congrArg String.toList same
  unfold hexId rootNodeId at chars
  rw [String.toList_ofList, String.toList_append] at chars
  have letter : 'r' ∈ Text.hex (idBytes file.val) := by
    rw [chars]
    exact List.mem_append_left _ (by decide)
  exact Text.not_mem_hex (by decide) _ letter

theorem nodeId_inj {a b : FileId} (same : nodeId tree vaultId a = nodeId tree vaultId b) : a = b := by
  unfold nodeId at same
  split at same <;> split at same
  · rename_i isRoot isRoot'
    rw [isRoot, isRoot']
  · exact absurd same.symm (hexId_ne_root _)
  · exact absurd same (hexId_ne_root _)
  · exact hexId_inj same

/-- What stands at the end of a way: the root, or the entry of a child. -/
def Node.Ends (vaultName : String) (node : Node) : List Dirent → Prop
  | [] => node.parent = none ∧ node.name = vaultName ∧ node.isDir = true
  | entry :: _ => node.Shows entry

/-- How far the walk is: each folder on the stack has been shown with the way to it, as has each node
after its parent. -/
structure Placed (tree : DirectoryTree) (vaultName : String) (stack : List (FileId × List String)) (out : List Node) :
    Prop where
  stacked : ∀ top ∈ stack, top.1 ∈ out.map Node.id ∧
    ∃ chain, Chain tree top.1 chain ∧ Visible tree chain ∧ top.2 = namesOf chain
  nodes : ∀ node ∈ out, ∃ chain, Chain tree node.id chain ∧ Visible tree chain ∧
    node.path = vaultPath (namesOf chain) ∧ node.Ends vaultName chain
  first : RollUp.ParentsFirst Node.id Node.parent out

theorem chain_shownIn (valid : Valid tree) {folder : FileId} {chain : List Dirent} (above : Chain tree folder chain)
    (visible : Visible tree chain) {entry : Dirent} (mem : entry ∈ shownIn tree folder) :
    Chain tree entry.child (entry :: chain) ∧ Visible tree (entry :: chain) := by
  obtain ⟨there, named, rfl, shown⟩ := mem_shownIn.mp mem
  have below : entry.child ≠ tree.expectedRoot := fun isRoot => named ((valid.child_eq_root there).mp isRoot)
  refine ⟨.step below ((entryOf_eq_some valid.childUnique).mpr ⟨there, rfl⟩) above, fun step inside => ?_⟩
  obtain rfl | inside := List.mem_cons.mp inside
  · exact shown
  · exact visible step inside

theorem Placed.step (valid : Valid tree) {vaultName : String} {folder : FileId} {above : List String}
    {stack : List (FileId × List String)} {out : List Node} (placed : Placed tree vaultName ((folder, above) :: stack) out) :
    Placed tree vaultName
      ((((shownIn tree folder).filter (·.isDir)).map fun entry => (entry.child, above ++ [entry.name])).reverse ++ stack)
      (out ++ (shownIn tree folder).map (nodeOf above)) := by
  obtain ⟨held, chain, way, visible, names⟩ := placed.stacked _ List.mem_cons_self
  dsimp only at held way names
  refine ⟨fun top mem => ?_, fun node mem => ?_, ?_⟩
  · obtain new | old := List.mem_append.mp mem
    · obtain ⟨entry, isDir, rfl⟩ := List.mem_map.mp (List.mem_reverse.mp new)
      have listed := List.mem_of_mem_filter isDir
      obtain ⟨way', visible'⟩ := chain_shownIn valid way visible listed
      refine ⟨?_, _, way', visible', by rw [namesOf_cons, ← names]⟩
      exact List.mem_map.mpr ⟨nodeOf above entry, List.mem_append_right _ (List.mem_map_of_mem listed), rfl⟩
    · obtain ⟨there, rest⟩ := placed.stacked top (List.mem_cons_of_mem _ old)
      rw [List.map_append]
      exact ⟨List.mem_append_left _ there, rest⟩
  · obtain old | new := List.mem_append.mp mem
    · exact placed.nodes node old
    · obtain ⟨entry, listed, rfl⟩ := List.mem_map.mp new
      obtain ⟨way', visible'⟩ := chain_shownIn valid way visible listed
      exact ⟨_, way', visible', by rw [namesOf_cons, ← names]; rfl, rfl, rfl, rfl, rfl⟩
  · refine placed.first.append fun node mem parent isParent => ?_
    obtain ⟨entry, listed, rfl⟩ := List.mem_map.mp mem
    obtain ⟨-, -, isFolder, -⟩ := mem_shownIn.mp listed
    cases isParent
    rw [isFolder]
    exact held

theorem placed_walkLoop (valid : Valid tree) {vaultName : String} (guard : Nat) {stack : List (FileId × List String)}
    {out : List Node} (placed : Placed tree vaultName stack out) :
    ∃ stack', Placed tree vaultName stack' (walkLoop tree guard stack out) := by
  induction guard generalizing stack out with
  | zero => exact ⟨stack, placed⟩
  | succ guard ih =>
    cases stack with
    | nil => exact ⟨[], placed⟩
    | cons top stack => exact ih (placed.step valid)

theorem walkLoop_starts (tree : DirectoryTree) (guard : Nat) (stack : List (FileId × List String)) (out : List Node) :
    out <+: walkLoop tree guard stack out := by
  induction guard generalizing stack out with
  | zero => exact List.prefix_rfl
  | succ guard ih =>
    cases stack with
    | nil => exact List.prefix_rfl
    | cons top stack => exact (List.prefix_append _ _).trans (ih _ _)

theorem placed_walk (valid : Valid tree) (vaultName : String) :
    ∃ stack, Placed tree vaultName stack (walk tree vaultName) := by
  refine placed_walkLoop valid walkGuard ⟨fun top mem => ?_, fun node mem => ?_, ?_⟩
  · obtain rfl := List.mem_singleton.mp mem
    exact ⟨List.mem_singleton.mpr rfl, [], .root, fun _ inside => absurd inside List.not_mem_nil, rfl⟩
  · obtain rfl := List.mem_singleton.mp mem
    exact ⟨[], .root, fun _ inside => absurd inside List.not_mem_nil, rfl, rfl, rfl, rfl⟩
  · intro before node after split parent isParent
    have mem : node ∈ before ++ node :: after := List.mem_append_right _ List.mem_cons_self
    rw [← split] at mem
    obtain rfl := List.mem_singleton.mp mem
    cases isParent

theorem fileSizes_other {raw : List Raw} {id : String} (absent : id ∉ raw.map Raw.id) (sizes : String → U64) :
    raw.foldl (fun sizes item => if item.isDir then sizes else Function.update sizes item.id item.size) sizes id =
      sizes id := by
  induction raw generalizing sizes with
  | nil => rfl
  | cons item raw ih =>
    obtain ⟨other, absent⟩ := List.ne_and_not_mem_of_not_mem_cons absent
    rw [List.foldl_cons, ih absent]
    split
    · rfl
    · exact Function.update_of_ne other _ _

theorem fileSizes_mem {raw : List Raw} (nodup : (raw.map Raw.id).Nodup) {item : Raw} (mem : item ∈ raw) :
    fileSizes raw item.id = if item.isDir then 0 else item.size := by
  have general : ∀ sizes : String → U64,
      raw.foldl (fun sizes item => if item.isDir then sizes else Function.update sizes item.id item.size) sizes item.id =
        if item.isDir then sizes item.id else item.size := by
    induction raw with
    | nil => cases mem
    | cons first raw ih =>
      intro sizes
      obtain ⟨fresh, nodup⟩ := List.nodup_cons.mp nodup
      rw [List.foldl_cons]
      obtain rfl | mem := List.mem_cons.mp mem
      · rw [fileSizes_other fresh]
        split
        · rfl
        · exact Function.update_self ..
      · have other : item.id ≠ first.id := fun same => fresh (same ▸ List.mem_map_of_mem mem)
        rw [ih nodup mem]
        split
        · split
          · rfl
          · exact Function.update_of_ne other _ _
        · rfl
  exact general _

theorem childCounts_val (raw : List Raw) (id : String) :
    (childCounts raw id).val = (raw.filter fun item => item.parent = some id).length % 2 ^ 32 := by
  have general : ∀ counts : String → Fin (2 ^ 32), (raw.foldl (fun counts item =>
      match item.parent with
      | some parent => Function.update counts parent (counts parent + 1)
      | none => counts) counts id).val =
        ((counts id).val + (raw.filter fun item => item.parent = some id).length) % 2 ^ 32 := by
    induction raw with
    | nil =>
      intro counts
      exact (Nat.mod_eq_of_lt (counts id).isLt).symm
    | cons item raw ih =>
      intro counts
      rw [List.foldl_cons, ih, List.filter_cons]
      cases parent : item.parent with
      | none => simp
      | some parent' =>
        dsimp only
        by_cases same : parent' = id
        · subst same
          rw [Function.update_self, if_pos (by simp), List.length_cons, Fin.val_add]
          have one : (1 : Fin (2 ^ 32)).val = 1 := rfl
          omega
        · rw [Function.update_of_ne (Ne.symm same), if_neg (by simpa using same)]
  rw [show childCounts raw = _ from rfl]
  unfold childCounts
  rw [general]
  simp

theorem sum_val {κ : Type} (keys : List κ) (f : κ → U64) (small : (keys.map fun k => (f k).val).sum < 2 ^ 64) :
    (keys.map f).sum.val = (keys.map fun k => (f k).val).sum := by
  induction keys with
  | nil => rfl
  | cons key keys ih =>
    rw [List.map_cons, List.sum_cons] at small ⊢
    rw [List.map_cons, List.sum_cons, Fin.val_add, ih (by omega), Nat.mod_eq_of_lt small]

theorem sum_manifests (manifests : Map FileId Manifest) {files : List FileId} (nodup : files.Nodup) :
    (files.map fun file => (manifestFacts manifests file).1.val).sum ≤
      (manifests.toList.map fun entry => entry.2.size.val).sum := by
  obtain ⟨picks, isPicks⟩ : ∃ picks, picks = files.filterMap fun file => manifests[file]?.map fun manifest => (file, manifest) :=
    ⟨_, rfl⟩
  have sums : (files.map fun file => (manifestFacts manifests file).1.val).sum =
      (picks.map fun entry => entry.2.size.val).sum := by
    rw [isPicks]
    clear isPicks nodup
    induction files with
    | nil => rfl
    | cons file files ih =>
      rw [List.map_cons, List.sum_cons, ih, List.filterMap_cons]
      unfold manifestFacts
      cases manifests[file]? with
      | none => exact Nat.zero_add _
      | some manifest => rfl
  have distinct : picks.Nodup := by
    rw [isPicks]
    refine nodup.filterMap fun file other entry here there => ?_
    obtain ⟨manifest, -, rfl⟩ := Option.map_eq_some_iff.mp here
    obtain ⟨manifest', -, same⟩ := Option.map_eq_some_iff.mp there
    exact (congrArg Prod.fst same).symm
  have within : picks ⊆ manifests.toList := by
    intro entry mem
    rw [isPicks] at mem
    obtain ⟨file, -, here⟩ := List.mem_filterMap.mp mem
    obtain ⟨manifest, found, rfl⟩ := Option.map_eq_some_iff.mp here
    exact Map.mem_toList.mpr found
  obtain ⟨kept, perm, sublist⟩ := distinct.subperm within
  rw [sums, ← (perm.map fun entry => entry.2.size.val).sum_eq]
  exact (sublist.map _).sum_le_sum fun _ _ => Nat.zero_le _

section

variable (tree : DirectoryTree) (vaultId : VaultId) (manifests : Map FileId Manifest) (vaultName : String)

theorem ids_rawWalk : (rawWalk tree vaultId manifests vaultName).map Raw.id =
    ((walk tree vaultName).map Node.id).map (nodeId tree vaultId) := by
  unfold rawWalk
  rw [List.map_map, List.map_map]
  rfl

variable {tree}

theorem nodup_rawWalk (valid : Valid tree) : ((rawWalk tree vaultId manifests vaultName).map Raw.id).Nodup := by
  rw [ids_rawWalk]
  exact (nodup_walk valid vaultName).map fun _ _ same => nodeId_inj same

theorem first_rawWalk (valid : Valid tree) :
    RollUp.ParentsFirst Raw.id Raw.parent (rawWalk tree vaultId manifests vaultName) := by
  obtain ⟨stack, placed⟩ := placed_walk valid vaultName
  exact placed.first.map (nodeId tree vaultId) (fun _ => rfl) fun _ => rfl

end

/-- A node of the task shows an entry of the tree. -/
def Raw.Shows (tree : DirectoryTree) (vaultId : VaultId) (item : Raw) (entry : Dirent) : Prop :=
  item.fileId = entry.child ∧ item.id = hexId entry.child ∧ item.parent = some (nodeId tree vaultId entry.parent) ∧
    item.name = entry.name ∧ item.isDir = entry.isDir

theorem shows_rawOf {tree : DirectoryTree} {vaultId : VaultId} {manifests : Map FileId Manifest} {node : Node}
    {entry : Dirent} (shows : node.Shows entry) (below : entry.child ≠ tree.expectedRoot) :
    (rawOf tree vaultId manifests node).Shows tree vaultId entry := by
  obtain ⟨child, parent, name, isDir⟩ := shows
  refine ⟨child, ?_, ?_, name, isDir⟩
  · change nodeId tree vaultId node.id = _
    rw [child]
    exact if_neg below
  · change node.parent.map _ = _
    rw [parent]
    rfl

theorem vaultPath_slash (names : List String) : vaultPath names = String.ofList ('/' :: joined names) := by
  cases names with
  | nil => rfl
  | cons name names => exact vaultPath_eq (List.cons_ne_nil _ _)

open Classical in
/-- What the web view is shown of a tree: `raw` is what the walk keeps, `nodes` what is sent. -/
structure Faithful (tree : DirectoryTree) (vaultId : VaultId) (manifests : Map FileId Manifest) (vaultHex : String)
    (raw : List Raw) (nodes : List FsNode) : Prop where
  ids : nodes.map FsNode.id = raw.map Raw.id ∧ nodes.map FsNode.parentId = raw.map Raw.parent
  once : (nodes.map FsNode.id).Nodup
  root : ∃ top rest, raw = top :: rest ∧ top.id = rootNodeId vaultId ∧ top.parent = none ∧
    ∀ item ∈ rest, ∃ entry ∈ tree.dirents, entry.name ≠ "" ∧ item.Shows tree vaultId entry
  listed : ∀ entry ∈ tree.dirents, entry.name ≠ "" →
    ((∃ item ∈ raw, item.Shows tree vaultId entry) ↔ ∃ chain, Chain tree entry.child chain ∧ Visible tree chain)
  first : RollUp.ParentsFirst FsNode.id FsNode.parentId nodes
  paths : ∀ item ∈ raw, ∃ chain, Chain tree item.fileId chain ∧ item.path = String.ofList ('/' :: joined (namesOf chain))
  counts : ∀ node ∈ nodes, node.childCount = (nodes.filter fun other => other.parentId = some node.id).length % 2 ^ 32
  files : ∀ entry ∈ tree.dirents, entry.isDir = false → ∀ node ∈ nodes, node.id = hexId entry.child →
    node.kind = .file ∧ node.sizeBytes = (manifestFacts manifests entry.child).1.val
  folders : ∀ node ∈ nodes, node.kind = .folder → node.sizeBytes =
    ((nodes.filter fun other => other.kind = .file ∧
      RollUp.Under FsNode.id FsNode.parentId nodes other.id node.id).map FsNode.sizeBytes).sum
  told : ∀ task : Projector, task.Of vaultHex →
    Delta.applyAll ((task.changes nodes).map FsChange.delta) task.entries = keyById nodes

section

variable {tree : DirectoryTree} {vaultId : VaultId} {manifests : Map FileId Manifest} {vaultName : String}

theorem placed_raw (valid : Valid tree) {item : Raw} (mem : item ∈ rawWalk tree vaultId manifests vaultName) :
    ∃ chain, Chain tree item.fileId chain ∧ Visible tree chain ∧
      item.path = String.ofList ('/' :: joined (namesOf chain)) ∧
      match chain with
      | [] => item.id = rootNodeId vaultId ∧ item.parent = none ∧ item.isDir = true
      | entry :: _ => entry ∈ tree.dirents ∧ entry.name ≠ "" ∧ item.Shows tree vaultId entry := by
  obtain ⟨node, there, rfl⟩ := List.mem_map.mp mem
  obtain ⟨stack, placed⟩ := placed_walk valid vaultName
  obtain ⟨chain, way, visible, path, ends⟩ := placed.nodes node there
  refine ⟨chain, way, visible, path.trans (vaultPath_slash _), ?_⟩
  generalize isId : node.id = id at way
  cases way with
  | root =>
    obtain ⟨parent, -, isDir⟩ := ends
    refine ⟨?_, ?_, isDir⟩
    · change nodeId tree vaultId node.id = _
      rw [isId]
      exact if_pos rfl
    · change node.parent.map _ = none
      rw [parent]
      rfl
  | step below found above =>
    obtain ⟨held, isChild⟩ := entryOf_mem found
    have below' : _ ≠ tree.expectedRoot := isChild ▸ below
    exact ⟨held, fun none => below' ((valid.child_eq_root held).mpr none), shows_rawOf ends below'⟩

theorem source_raw (valid : Valid tree) {item : Raw} (mem : item ∈ rawWalk tree vaultId manifests vaultName) :
    (item.id = rootNodeId vaultId ∧ item.parent = none ∧ item.isDir = true) ∨
      ∃ entry ∈ tree.dirents, entry.name ≠ "" ∧ item.Shows tree vaultId entry := by
  obtain ⟨chain, -, -, -, ends⟩ := placed_raw valid mem
  cases chain with
  | nil => exact .inl ends
  | cons entry chain => exact .inr ⟨entry, ends⟩

theorem leaf_raw (valid : Valid tree) {item : Raw} (mem : item ∈ rawWalk tree vaultId manifests vaultName)
    (file : item.isDir = false) : ∀ other ∈ rawWalk tree vaultId manifests vaultName, other.parent ≠ some item.id := by
  intro other there isParent
  obtain ⟨-, -, isDir⟩ | ⟨entry, held, named, -, isId, -, -, isDir⟩ := source_raw valid mem
  · rw [isDir] at file
    cases file
  · obtain ⟨-, none, -⟩ | ⟨entry', held', -, -, -, parent, -⟩ := source_raw valid there
    · rw [none] at isParent
      cases isParent
    · rw [parent, isId] at isParent
      have below : entry.child ≠ tree.expectedRoot := fun root => named ((valid.child_eq_root held).mp root)
      have same : nodeId tree vaultId entry'.parent = nodeId tree vaultId entry.child :=
        (Option.some.inj isParent).trans (if_neg below).symm
      obtain root | ⟨folder, folderHeld, child, folderDir⟩ := isDir_iff.mp (valid.parentDir held')
      · exact below ((nodeId_inj same).symm.trans root)
      · rw [valid.childUnique folderHeld held (child.trans (nodeId_inj same)), ← isDir, file] at folderDir
        cases folderDir

theorem size_rawOf {item : Raw} (mem : item ∈ rawWalk tree vaultId manifests vaultName) (file : item.isDir = false) :
    item.size = (manifestFacts manifests item.fileId).1 := by
  obtain ⟨node, -, rfl⟩ := List.mem_map.mp mem
  have isFile : node.isDir = false := file
  unfold rawOf
  rw [isFile]
  rfl

theorem sum_raw (valid : Valid tree) : (((rawWalk tree vaultId manifests vaultName).filter fun item => item.isDir = false).map
    fun item => item.size.val).sum ≤ (manifests.toList.map fun entry => entry.2.size.val).sum := by
  obtain ⟨files, isFiles⟩ : ∃ files, files =
    (rawWalk tree vaultId manifests vaultName).filter fun item => item.isDir = false := ⟨_, rfl⟩
  have nodup : (files.map Raw.fileId).Nodup := by
    have whole : ((rawWalk tree vaultId manifests vaultName).map Raw.fileId).Nodup := by
      unfold rawWalk
      rw [List.map_map]
      exact nodup_walk valid vaultName
    rw [isFiles]
    exact whole.sublist (List.filter_sublist.map _)
  refine le_of_eq_of_le ?_ (sum_manifests manifests nodup)
  rw [← isFiles, List.map_map]
  congr 1
  refine List.map_congr_left fun item mem => ?_
  rw [isFiles] at mem
  obtain ⟨there, file⟩ := List.mem_filter.mp mem
  rw [size_rawOf there (of_decide_eq_true file)]
  rfl

open Classical in
theorem sizesOf_val {raw : List Raw} (nodup : (raw.map Raw.id).Nodup)
    (first : RollUp.ParentsFirst Raw.id Raw.parent raw)
    (small : ((raw.filter fun item => item.isDir = false).map fun item => item.size.val).sum < 2 ^ 64) {item : Raw}
    (mem : item ∈ raw) : (sizesOf raw item.id).val = ((raw.filter fun other => other.isDir = false ∧
      RollUp.Under Raw.id Raw.parent raw other.id item.id).map fun other => other.size.val).sum := by
  -- The sums over ids are sums over files, as folders have no size of their own.
  have files : ∀ {list : List Raw}, (∀ other ∈ list, other ∈ raw) → ∀ p : String → Prop,
      (((list.map Raw.id).filter p).map fun id => (fileSizes raw id).val).sum =
        ((list.filter fun other => other.isDir = false ∧ p other.id).map fun other => other.size.val).sum := by
    intro list inside p
    induction list with
    | nil => rfl
    | cons other list ih =>
      have rest := ih fun next mem => inside next (List.mem_cons_of_mem _ mem)
      have here := fileSizes_mem nodup (inside other List.mem_cons_self)
      rw [List.map_cons, List.filter_cons, List.filter_cons]
      by_cases picked : p other.id
      · cases isDir : other.isDir with
        | false => simp [picked, rest, here, isDir]
        | true => simp [picked, rest, here, isDir]
      · simp [picked, rest]
  have bound : ∀ p : String → Prop,
      ((raw.filter fun other => other.isDir = false ∧ p other.id).map fun other => other.size.val).sum < 2 ^ 64 := by
    intro p
    refine Nat.lt_of_le_of_lt (List.Sublist.sum_le_sum (List.Sublist.map _ ?_) fun _ _ => Nat.zero_le _) small
    have both : (raw.filter fun other => other.isDir = false ∧ p other.id) =
        (raw.filter fun other => other.isDir = false).filter fun other => p other.id := by
      rw [List.filter_filter]
      refine List.filter_congr fun other _ => ?_
      simp [and_comm]
    rw [both]
    exact List.filter_sublist
  unfold sizesOf
  rw [RollUp.rollUp_eq_sum nodup first _ (List.mem_map_of_mem mem), sum_val, files fun _ mem => mem]
  rw [files fun _ mem => mem]
  exact bound fun low => RollUp.Under Raw.id Raw.parent raw low item.id

theorem ids_wireNodes (vaultHex : String) (known : Raw → Known) (raw : List Raw) :
    (wireNodes vaultHex known raw).map FsNode.id = raw.map Raw.id ∧
      (wireNodes vaultHex known raw).map FsNode.parentId = raw.map Raw.parent := by
  unfold wireNodes
  rw [List.map_map, List.map_map]
  exact ⟨rfl, rfl⟩

theorem counts_wireNodes (vaultHex : String) (known : Raw → Known) (raw : List Raw) :
    ∀ node ∈ wireNodes vaultHex known raw, node.childCount =
      ((wireNodes vaultHex known raw).filter fun other => other.parentId = some node.id).length % 2 ^ 32 := by
  intro node mem
  obtain ⟨item, -, rfl⟩ := List.mem_map.mp mem
  unfold wireNodes
  rw [List.filter_map, List.length_map]
  exact childCounts_val raw item.id

open Classical in
theorem folders_wireNodes (valid : Valid tree) (small : (manifests.toList.map fun entry => entry.2.size.val).sum < 2 ^ 64)
    (vaultHex : String) (known : Raw → Known) {item : Raw} (mem : item ∈ rawWalk tree vaultId manifests vaultName) :
    (sizesOf (rawWalk tree vaultId manifests vaultName) item.id).val =
      (((wireNodes vaultHex known (rawWalk tree vaultId manifests vaultName)).filter fun other => other.kind = .file ∧
        RollUp.Under FsNode.id FsNode.parentId (wireNodes vaultHex known (rawWalk tree vaultId manifests vaultName))
          other.id item.id).map FsNode.sizeBytes).sum := by
  have nodup := nodup_rawWalk vaultId manifests vaultName valid
  have first := first_rawWalk vaultId manifests vaultName valid
  have under : RollUp.Under FsNode.id FsNode.parentId (wireNodes vaultHex known (rawWalk tree vaultId manifests vaultName)) =
      RollUp.Under Raw.id Raw.parent (rawWalk tree vaultId manifests vaultName) :=
    RollUp.under_map (fun _ => rfl) fun _ => rfl
  rw [sizesOf_val nodup first (Nat.lt_of_le_of_lt (sum_raw valid) small) mem, under]
  unfold wireNodes
  rw [List.filter_map, List.map_map]
  have kinds : ∀ other : Raw, (wireNode vaultHex (sizesOf (rawWalk tree vaultId manifests vaultName))
      (childCounts (rawWalk tree vaultId manifests vaultName)) known other).kind = .file ↔ other.isDir = false := by
    intro other
    unfold wireNode
    cases other.isDir <;> simp
  have picked : ((rawWalk tree vaultId manifests vaultName).filter fun other => other.isDir = false ∧
      RollUp.Under Raw.id Raw.parent (rawWalk tree vaultId manifests vaultName) other.id item.id) =
      (rawWalk tree vaultId manifests vaultName).filter fun other =>
        (wireNode vaultHex (sizesOf (rawWalk tree vaultId manifests vaultName))
          (childCounts (rawWalk tree vaultId manifests vaultName)) known other).kind = .file ∧
        RollUp.Under Raw.id Raw.parent (rawWalk tree vaultId manifests vaultName) other.id item.id :=
    List.filter_congr fun other _ => decide_eq_decide.mpr (and_congr_left fun _ => (kinds other).symm)
  rw [picked]
  congr 1
  refine List.map_congr_left fun other there => ?_
  obtain ⟨held, isFile⟩ := List.mem_filter.mp there
  have file : other.isDir = false := (kinds other).mp (of_decide_eq_true isFile).1
  change other.size.val = (sizesOf (rawWalk tree vaultId manifests vaultName) other.id).val
  unfold sizesOf
  rw [RollUp.rollUp_leaf _ (leaf_raw valid held file), fileSizes_mem nodup held, file]
  rfl

theorem projection_faithful {tree : DirectoryTree} (valid : Valid tree) (few : folderCount tree ≤ walkGuard)
    (manifests : Map FileId Manifest) (small : (manifests.toList.map fun entry => entry.2.size.val).sum < 2 ^ 64)
    (vaultId : VaultId) (vaultName vaultHex : String) (known : Raw → Known) :
    Faithful tree vaultId manifests vaultHex (rawWalk tree vaultId manifests vaultName)
      (wireNodes vaultHex known (rawWalk tree vaultId manifests vaultName)) := by
  have nodup := nodup_rawWalk vaultId manifests vaultName valid
  obtain ⟨ids, parents⟩ := ids_wireNodes vaultHex known (rawWalk tree vaultId manifests vaultName)
  refine ⟨⟨ids, parents⟩, ids ▸ nodup, ?_, ?_, ?_, ?_, counts_wireNodes vaultHex known _, ?_, ?_, ?_⟩
  · obtain ⟨rest, whole⟩ := walkLoop_starts tree walkGuard [(tree.expectedRoot, [])]
      [⟨tree.expectedRoot, none, vaultName, true, "/"⟩]
    have split : rawWalk tree vaultId manifests vaultName =
        rawOf tree vaultId manifests ⟨tree.expectedRoot, none, vaultName, true, "/"⟩ ::
          rest.map (rawOf tree vaultId manifests) := by
      change (walkLoop tree walkGuard _ _).map _ = _
      rw [← whole]
      rfl
    have isTop : (rawOf tree vaultId manifests ⟨tree.expectedRoot, none, vaultName, true, "/"⟩).id = rootNodeId vaultId :=
      if_pos rfl
    refine ⟨_, _, split, isTop, rfl, fun item mem => ?_⟩
    have there : item ∈ rawWalk tree vaultId manifests vaultName := by
      rw [split]
      exact List.mem_cons_of_mem _ mem
    refine (source_raw valid there).resolve_left fun root => ?_
    rw [split, List.map_cons, List.nodup_cons, isTop, ← root.1] at nodup
    exact nodup.1 (List.mem_map_of_mem mem)
  · intro entry mem named
    constructor
    · rintro ⟨item, there, shows⟩
      obtain ⟨chain, way, visible, -⟩ := placed_raw valid there
      exact ⟨chain, shows.1 ▸ way, visible⟩
    · rintro ⟨chain, way, visible⟩
      obtain ⟨above, rfl, up⟩ := chain_of_entry valid mem named way rfl
      obtain ⟨node, there, shows⟩ := visible_walk valid few vaultName mem named up visible
      have below : entry.child ≠ tree.expectedRoot := fun root => named ((valid.child_eq_root mem).mp root)
      exact ⟨_, List.mem_map_of_mem there, shows_rawOf shows below⟩
  · exact (first_rawWalk vaultId manifests vaultName valid).map id (fun _ => rfl) fun item =>
      (Option.map_id_apply).symm
  · intro item mem
    obtain ⟨chain, way, -, path, -⟩ := placed_raw valid mem
    exact ⟨chain, way, path⟩
  · intro entry mem file node there same
    obtain ⟨item, held, rfl⟩ := List.mem_map.mp there
    have isId : item.id = hexId entry.child := same
    obtain ⟨root, -, -⟩ | ⟨entry', mem', named, child, id, -, -, isDir⟩ := source_raw valid held
    · exact absurd (isId.symm.trans root) (hexId_ne_root _)
    · have own : entry' = entry := valid.childUnique mem' mem (hexId_inj (id.symm.trans isId))
      rw [own, file] at isDir
      rw [own] at child
      constructor
      · change (if item.isDir then NodeKind.folder else NodeKind.file) = _
        rw [isDir]
        rfl
      · change (sizesOf _ item.id).val = _
        unfold sizesOf
        rw [RollUp.rollUp_leaf _ (leaf_raw valid held isDir), fileSizes_mem nodup held, isDir, size_rawOf held isDir, child]
        rfl
  · intro node mem _
    obtain ⟨item, there, rfl⟩ := List.mem_map.mp mem
    exact folders_wireNodes valid small vaultHex known there
  · intro task own
    refine Projector.applyAll_changes own fun node mem => ?_
    obtain ⟨item, -, rfl⟩ := List.mem_map.mp mem
    rfl

end

private def noted : DirectoryTree :=
  treeMachine.run [.link ⟨0⟩ "notes" ⟨1⟩ true, .link ⟨1⟩ "x" ⟨2⟩ false] (DirectoryTree.new ⟨0⟩)

/-- A folder with a file of five bytes. -/
theorem projection_faithful_noted :
    Faithful noted ⟨7⟩ ((∅ : Map FileId Manifest).insert ⟨2⟩ ⟨⟨2⟩, [], 5, ⟨1⟩, 1, []⟩) "07"
      (rawWalk noted ⟨7⟩ ((∅ : Map FileId Manifest).insert ⟨2⟩ ⟨⟨2⟩, [], 5, ⟨1⟩, 1, []⟩) "Vault")
      (wireNodes "07" (fun _ => ⟨0, 0, "", "", none, .local, none, []⟩)
        (rawWalk noted ⟨7⟩ ((∅ : Map FileId Manifest).insert ⟨2⟩ ⟨⟨2⟩, [], 5, ⟨1⟩, 1, []⟩) "Vault")) :=
  projection_faithful (Reachable.run _ _).valid (by decide +kernel) _ (by decide +kernel) _ _ _ _

private def disguised : DirectoryTree :=
  treeMachine.run [.link ⟨0⟩ sidecarName ⟨1⟩ true, .link ⟨1⟩ "x" ⟨2⟩ false] (DirectoryTree.new ⟨0⟩)

/-- A folder that has the name of the settings file hides what is in it. -/
theorem projection_hides_folder :
    ¬ ∀ tree, Valid tree → folderCount tree ≤ walkGuard → ∀ vaultId manifests vaultName, ∀ entry ∈ tree.dirents,
      entry.name ≠ "" → ¬(isSidecar tree entry = true ∧ entry.isDir = false) →
        ∃ item ∈ rawWalk tree vaultId manifests vaultName, item.Shows tree vaultId entry := by
  intro always
  have valid : Valid disguised := (Reachable.run _ _).valid
  obtain ⟨item, mem, child, -⟩ := always disguised valid (by decide +kernel) ⟨7⟩ ∅ "Vault" ⟨⟨1⟩, "x", ⟨2⟩, false⟩
    (by decide +kernel) (by decide) (by decide +kernel)
  obtain ⟨chain, way, visible, -⟩ := placed_raw valid mem
  have root : disguised.expectedRoot = ⟨0⟩ := by decide +kernel
  have whole : Chain disguised ⟨2⟩ [⟨⟨1⟩, "x", ⟨2⟩, false⟩, ⟨⟨0⟩, sidecarName, ⟨1⟩, true⟩] :=
    .step (by decide +kernel) (by decide +kernel) (.step (by decide +kernel) (by decide +kernel) (root ▸ .root))
  rw [child] at way
  obtain rfl := way.unique whole
  have hidden := visible ⟨⟨0⟩, sidecarName, ⟨1⟩, true⟩ (List.mem_cons_of_mem _ List.mem_cons_self)
  exact absurd hidden (by decide +kernel)

end QuantumFs.Client
