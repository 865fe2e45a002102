import QuantumFs.Client.Workspace

/-! The folder that the workspace is in, the trail that leads there and what is selected
(`store/workspaceStore.ts`): three fields that every action of the store writes in its own way. -/
namespace QuantumFs.Client

open Lib

/-- An object of nodes by id: its keys are distinct, and keep the order in which they came. The ids
are not among the names that every object inherits. -/
structure NodeTable where
  list : List FsNode
  distinct : (list.map FsNode.id).Nodup

namespace NodeTable

def empty : NodeTable := ⟨[], List.nodup_nil⟩

def get (nodes : NodeTable) (id : String) : Option FsNode := nodes.list.find? (·.id = id)

/-- `nodes[id] !== undefined` -/
def has (nodes : NodeTable) (id : String) : Bool := (nodes.get id).isSome

def delete (nodes : NodeTable) (id : String) : NodeTable :=
  ⟨nodes.list.filter (·.id ≠ id), nodes.distinct.sublist (List.filter_sublist.map _)⟩

def replaced (node old : FsNode) : FsNode := if old.id = node.id then node else old

theorem replaced_id (node old : FsNode) : (replaced node old).id = old.id := by
  unfold replaced
  split
  · rename_i same
    exact same.symm
  · rfl

/-- The list with `node` under its id: in the place of the node that was there, or at the end. -/
def put (node : FsNode) (list : List FsNode) : List FsNode :=
  if list.any (·.id = node.id) then list.map (replaced node) else list ++ [node]

theorem put_distinct {node : FsNode} {list : List FsNode} (distinct : (list.map FsNode.id).Nodup) :
    ((put node list).map FsNode.id).Nodup := by
  unfold put
  split
  · rw [List.map_map, show FsNode.id ∘ replaced node = FsNode.id from funext (replaced_id node)]
    exact distinct
  · rename_i absent
    rw [List.map_append]
    refine List.nodup_append.mpr ⟨distinct, List.nodup_singleton _, ?_⟩
    intro id mem other new same
    obtain ⟨old, present, rfl⟩ := List.mem_map.mp mem
    obtain rfl := List.mem_singleton.mp new
    exact absent (List.any_eq_true.mpr ⟨old, present, decide_eq_true same⟩)

def set (nodes : NodeTable) (node : FsNode) : NodeTable := ⟨put node nodes.list, put_distinct nodes.distinct⟩

def keyById (list : List FsNode) : NodeTable := list.foldl set empty

/-- The root by its name, or else the first node without a parent. -/
def rootOf (nodes : NodeTable) (vaultId : String) : Option FsNode :=
  match nodes.get ("root_" ++ vaultId) with
  | some byConvention => some byConvention
  | none => nodes.list.find? (·.parentId.isNone)

theorem has_iff {nodes : NodeTable} {id : String} : nodes.has id = true ↔ id ∈ nodes.list.map FsNode.id := by
  unfold has get
  rw [List.find?_isSome, List.mem_map]
  simp only [decide_eq_true_eq]

theorem put_ids (node : FsNode) (list : List FsNode) (id : String) :
    id ∈ (put node list).map FsNode.id ↔ id = node.id ∨ id ∈ list.map FsNode.id := by
  unfold put
  split
  · rename_i present
    obtain ⟨old, mem, same⟩ := List.any_eq_true.mp present
    rw [List.map_map, show FsNode.id ∘ replaced node = FsNode.id from funext (replaced_id node)]
    refine ⟨.inr, fun either => either.elim (fun equal => ?_) fun there => there⟩
    exact List.mem_map.mpr ⟨old, mem, (of_decide_eq_true same).trans equal.symm⟩
  · rw [List.map_append, List.mem_append, List.map_singleton, List.mem_singleton, or_comm]

theorem has_set {nodes : NodeTable} {node : FsNode} {id : String} :
    (nodes.set node).has id = true ↔ id = node.id ∨ nodes.has id = true := by
  rw [has_iff, has_iff]
  exact put_ids node nodes.list id

theorem has_delete {nodes : NodeTable} {gone id : String} :
    (nodes.delete gone).has id = true ↔ id ≠ gone ∧ nodes.has id = true := by
  rw [has_iff, has_iff]
  constructor
  · intro mem
    obtain ⟨node, kept, rfl⟩ := List.mem_map.mp mem
    obtain ⟨there, other⟩ := List.mem_filter.mp kept
    exact ⟨of_decide_eq_true other, List.mem_map_of_mem there⟩
  · rintro ⟨other, mem⟩
    obtain ⟨node, there, rfl⟩ := List.mem_map.mp mem
    exact List.mem_map_of_mem (List.mem_filter.mpr ⟨there, decide_eq_true other⟩)

theorem has_rootOf {nodes : NodeTable} {vaultId : String} {root : FsNode} (found : nodes.rootOf vaultId = some root) :
    nodes.has root.id = true := by
  rw [has_iff]
  unfold rootOf at found
  split at found
  · rename_i named
    cases found
    exact List.mem_map_of_mem (List.mem_of_find?_eq_some named)
  · exact List.mem_map_of_mem (List.mem_of_find?_eq_some found)

theorem fewer_unseen {list : List FsNode} {seen : List String} {node : FsNode} (mem : node ∈ list)
    (fresh : node.id ∉ seen) : (list.filter fun other => other.id ∉ node.id :: seen).length <
      (list.filter fun other => other.id ∉ seen).length := by
  have split : (list.filter fun other => other.id ∉ node.id :: seen) =
      (list.filter fun other => other.id ∉ seen).filter fun other => other.id ≠ node.id := by
    rw [List.filter_filter]
    refine List.filter_congr fun other _ => ?_
    simp [not_or]
  rw [split, List.length_filter_lt_length_iff_exists]
  exact ⟨node, List.mem_filter.mpr ⟨mem, decide_eq_true fresh⟩, by simp⟩

/-- The nodes above `id`, itself included, as long as they are there and none comes twice. -/
def climb (nodes : NodeTable) (seen : List String) (id : String) : List FsNode :=
  match _found : nodes.get id with
  | none => []
  | some node =>
    if _again : node.id ∈ seen then [] else
      node :: match node.parentId with
        | some parent => if parent = "" then [] else climb nodes (node.id :: seen) parent
        | none => []
termination_by (nodes.list.filter fun node => node.id ∉ seen).length
decreasing_by
  exact fewer_unseen (List.mem_of_find?_eq_some _found) _again

/-- The chain from the root down to `id`. -/
def pathOf (nodes : NodeTable) (id : String) : List FsNode := (nodes.climb [] id).reverse

end NodeTable

structure NavEntry where
  vaultId : String
  folderId : String
deriving DecidableEq

structure Nav where
  entries : List NavEntry
  index : Int
deriving DecidableEq

/-- A call of the backend that is awaited, with what its action keeps for the answer. -/
inductive Awaited where
  | openVault (vaultId : String) (token : Nat) (folderId : Option String) (select : List String)
  | refreshTree (vaultId : String)
  | createNode

/-- `client` is whether one is attached, `openToken` the counter of the module; `awaited` are the
calls without an answer yet. -/
structure WorkspaceState where
  client : Bool
  vaultId : Option String
  vaultName : String
  nodes : NodeTable
  treeLoaded : Bool
  treeError : Option String
  folderId : Option String
  nav : Nav
  selection : List String
  anchorId : Option String
  focusedId : Option String
  renamingId : Option String
  openToken : Nat
  nextCall : Nat
  awaited : Nat → Option Awaited

def truthy : Option String → Option String
  | some "" => none
  | other => other

namespace WorkspaceState

def new : WorkspaceState :=
  ⟨false, none, "", .empty, false, none, none, ⟨[], -1⟩, [], none, none, none, 0, 0, fun _ => none⟩

variable (space : WorkspaceState)

/-- `{ ...VAULT_SCOPED }` -/
def vaultScoped : WorkspaceState :=
  { space with
    vaultId := none
    vaultName := ""
    nodes := .empty
    treeLoaded := false
    treeError := none
    folderId := none
    nav := ⟨[], -1⟩
    selection := []
    anchorId := none
    focusedId := none
    renamingId := none }

def await (call : Awaited) : WorkspaceState :=
  { space with
    nextCall := space.nextCall + 1
    awaited := Function.update space.awaited space.nextCall (some call) }

def answered (call : Nat) : WorkspaceState := { space with awaited := Function.update space.awaited call none }

def attach : WorkspaceState := { space with client := true }

/-- The places that `liveNavIndex` looks at, nearest first. -/
def behind : List Nat :=
  if space.nav.index ≤ space.nav.entries.length then (List.range space.nav.index.toNat).reverse else []

def ahead : List Nat :=
  if 0 ≤ space.nav.index + 1 then
    List.range' (space.nav.index + 1).toNat (space.nav.entries.length - (space.nav.index + 1).toNat)
  else []

/-- The entry at place `i` of the trail, if its folder still exists. -/
def liveAt (i : Nat) : Option NavEntry := space.nav.entries[i]?.filter fun entry => space.nodes.has entry.folderId

def liveNavIndex (places : List Nat) : Option Nat := places.find? fun i => (space.liveAt i).isSome

def arriveAt (folderId : String) (nav : Nav) : WorkspaceState :=
  { space with
    folderId := some folderId
    nav := nav
    selection := []
    anchorId := none
    focusedId := none
    renamingId := none }

def openVault (vaultId : String) (folderId : Option String) (select : List String) : WorkspaceState :=
  if space.client then
    let token := space.openToken + 1
    { space.vaultScoped with vaultId := some vaultId, openToken := token }.await
      (.openVault vaultId token folderId select)
  else space

def closeVault : WorkspaceState := { space.vaultScoped with openToken := space.openToken + 1 }

/-- `entries.slice(0, stop)` -/
def sliceTo (entries : List NavEntry) (stop : Int) : List NavEntry :=
  if 0 ≤ stop then entries.take stop.toNat else entries.take (entries.length + stop).toNat

/-- The trail with `entry` after the place where one is, or instead of it. -/
def advanced (entry : NavEntry) (replace : Bool) : Nav :=
  let kept := sliceTo space.nav.entries (space.nav.index + 1)
  if replace then ⟨kept.dropLast ++ [entry], max 0 ((kept.length : Int) - 1)⟩
  else ⟨kept ++ [entry], kept.length⟩

def navigateTo (folderId : String) (replace : Bool) : WorkspaceState :=
  match truthy space.vaultId, space.nodes.get folderId with
  | some vaultId, some node =>
    if node.kind ≠ .folder then space
    else if space.folderId = some folderId then space
    else space.arriveAt folderId (space.advanced ⟨vaultId, folderId⟩ replace)
  | _, _ => space

/-- `back` and `forward` go to the nearest live entry among `places`. -/
def stepTo (places : List Nat) : WorkspaceState :=
  match space.liveNavIndex places with
  | none => space
  | some index =>
    match space.nav.entries[index]? with
    | some entry => space.arriveAt entry.folderId ⟨space.nav.entries, index⟩
    | none => space

def back : WorkspaceState := space.stepTo space.behind

def forward : WorkspaceState := space.stepTo space.ahead

def canBack : Bool := (space.liveNavIndex space.behind).isSome

def canForward : Bool := (space.liveNavIndex space.ahead).isSome

def up : WorkspaceState :=
  match truthy (((truthy space.folderId).bind space.nodes.get).bind FsNode.parentId) with
  | some parentId => space.navigateTo parentId false
  | none => space

def select (ids : List String) (anchor focus : Option String) : WorkspaceState :=
  let next := ids.foldl (fun next id => if space.nodes.has id ∧ id ∉ next then next ++ [id] else next) []
  { space with
    selection := next
    anchorId := anchor.or next.head?
    focusedId := focus.or next.getLast? }

def toggleSelect (id : String) : WorkspaceState :=
  if space.nodes.has id then
    if id ∈ space.selection then
      let selection := space.selection.filter (· ≠ id)
      { space with
        selection := selection
        anchorId := if space.anchorId = some id then selection.getLast? else space.anchorId
        focusedId := if space.focusedId = some id then selection.getLast? else space.focusedId }
    else { space with selection := space.selection ++ [id], anchorId := some id, focusedId := some id }
  else space

def rangeSelect (toId : String) (orderedIds : List String) : WorkspaceState :=
  let anchor := space.anchorId.getD toId
  match orderedIds.idxOf? toId with
  | none => space
  | some last =>
    match orderedIds.idxOf? anchor with
    | none => space.select [toId] none none
    | some first =>
      let lo := min first last
      let hi := max first last
      space.select ((orderedIds.take (hi + 1)).drop lo) (some anchor) (some toId)

def startRename (id : String) : WorkspaceState :=
  if space.nodes.has id then
    { space with renamingId := some id, selection := [id], anchorId := some id, focusedId := some id }
  else space

structure Applied where
  nodes : NodeTable
  vaultName : String
  touchedRemoval : Bool

def Applied.apply (applied : Applied) : FsChange → Applied
  | .upsert node =>
    { applied with
      nodes := applied.nodes.set node
      vaultName := if node.parentId.isNone then node.name else applied.vaultName }
  | .remove nodeId =>
    { applied with
      nodes := applied.nodes.delete nodeId
      touchedRemoval := applied.touchedRemoval || applied.nodes.has nodeId }

def applied (changes : List FsChange) : Applied :=
  changes.foldl Applied.apply ⟨space.nodes, space.vaultName, false⟩

/-- The entries from place `i` on, after those that were kept before. -/
def survivors (nodes : NodeTable) (index : Int) : List NavEntry → Nat → Nav → Nav
  | [], _, kept => kept
  | entry :: rest, i, kept =>
    if nodes.has entry.folderId then
      survivors nodes index rest (i + 1)
        ⟨kept.entries ++ [entry], if (i : Int) ≤ index then kept.entries.length else kept.index⟩
    else survivors nodes index rest (i + 1) kept

def prunedNav (applied : Applied) : Nav :=
  if applied.touchedRemoval ∧ space.nav.entries ≠ [] then
    let kept := survivors applied.nodes space.nav.index space.nav.entries 0 ⟨[], -1⟩
    if kept.entries.length ≠ space.nav.entries.length then kept else space.nav
  else space.nav

/-- Where to go from a folder that is gone: the nearest ancestor that is still there, or the root. -/
def survivor (nodes : NodeTable) (folderId : String) : Option String :=
  match (space.nodes.pathOf folderId).dropLast.reverse.find? fun node => nodes.has node.id with
  | some node => some node.id
  | none => (truthy space.vaultId).bind fun vaultId => (nodes.rootOf vaultId).map FsNode.id

/-- What `applyChanges` sets, before it looks whether the folder is gone. -/
def changed (applied : Applied) : WorkspaceState :=
  { space with
    nodes := applied.nodes
    vaultName := applied.vaultName
    selection := space.selection.filter fun id =>
      match applied.nodes.get id with
      | some node => space.folderId.isNone || node.parentId = space.folderId
      | none => false
    anchorId := space.anchorId.filter applied.nodes.has
    focusedId := space.focusedId.filter applied.nodes.has
    nav := space.prunedNav applied
    renamingId := space.renamingId.filter applied.nodes.has }

def applyChanges (changes : List FsChange) : WorkspaceState :=
  if changes = [] then space
  else
    let applied := space.applied changes
    let next := space.changed applied
    match space.folderId with
    | none => next
    | some folderId =>
      if applied.nodes.has folderId then next
      else
        match space.survivor applied.nodes folderId with
        | some survivor => next.navigateTo survivor true
        | none => next

def refreshTree : WorkspaceState :=
  match space.client, truthy space.vaultId with
  | true, some vaultId => space.await (.refreshTree vaultId)
  | _, _ => space

def createNode : WorkspaceState :=
  match space.client, truthy space.vaultId, truthy space.folderId with
  | true, some _, some _ => space.await .createNode
  | _, _, _ => space

def opened (vaultId : String) (folderId : Option String) (select : List String) (tree : List FsNode)
    (metaName : String) : WorkspaceState :=
  let nodes := NodeTable.keyById tree
  let root := nodes.rootOf vaultId
  let folderId := ((truthy folderId).filter nodes.has).or (root.map FsNode.id)
  let selection := select.filter nodes.has
  { space with
    nodes := nodes
    vaultName := (root.map FsNode.name).getD metaName
    treeLoaded := true
    folderId := folderId
    nav := match truthy folderId with
      | some folderId => ⟨[⟨vaultId, folderId⟩], 0⟩
      | none => ⟨[], -1⟩
    selection := selection
    anchorId := selection.head?
    focusedId := selection.getLast? }

def refreshed (vaultId : String) (tree : List FsNode) : WorkspaceState :=
  let nodes := NodeTable.keyById tree
  let root := nodes.rootOf vaultId
  { space with
    nodes := nodes
    vaultName := (root.map FsNode.name).getD space.vaultName
    treeLoaded := true
    treeError := none
    folderId := ((truthy space.folderId).filter nodes.has).or (root.map FsNode.id)
    selection := space.selection.filter nodes.has }

def created (node : FsNode) : WorkspaceState :=
  (({ space with nodes := space.nodes.set node } : WorkspaceState).select [node.id] none none).startRename node.id

end WorkspaceState

/-- The answer to a call: `tree` comes with the name of the vault where `openVault` waits for it. -/
inductive Reply where
  | tree (list : List FsNode) (metaName : String)
  | node (node : FsNode)
  | failed (message : String)

namespace WorkspaceState

variable (space : WorkspaceState)

def receive (reply : Reply) : Awaited → WorkspaceState
  | .openVault vaultId token folderId select =>
    if token = space.openToken then
      match reply with
      | .tree list metaName => space.opened vaultId folderId select list metaName
      | .failed message => { space with treeError := some message }
      | .node _ => space
    else space
  | .refreshTree vaultId =>
    match reply with
    | .tree list _ => if space.vaultId = some vaultId then space.refreshed vaultId list else space
    | _ => space
  | .createNode =>
    match reply with
    | .node node => space.created node
    | _ => space

def answer (call : Nat) (reply : Reply) : WorkspaceState :=
  match space.awaited call with
  | some awaited => (space.answered call).receive reply awaited
  | none => space

end WorkspaceState

inductive WorkspaceAction where
  | attach
  | openVault (vaultId : String) (folderId : Option String) (select : List String)
  | closeVault
  | navigateTo (folderId : String) (replace : Bool)
  | back
  | forward
  | up
  | select (ids : List String) (anchor focus : Option String)
  | toggleSelect (id : String)
  | rangeSelect (toId : String) (orderedIds : List String)
  | startRename (id : String)
  | applyChanges (changes : List FsChange)
  | refreshTree
  | createNode
  | answer (call : Nat) (reply : Reply)

namespace WorkspaceState

def exec : WorkspaceAction → WorkspaceState → WorkspaceState
  | .attach, space => space.attach
  | .openVault vaultId folderId select, space => space.openVault vaultId folderId select
  | .closeVault, space => space.closeVault
  | .navigateTo folderId replace, space => space.navigateTo folderId replace
  | .back, space => space.back
  | .forward, space => space.forward
  | .up, space => space.up
  | .select ids anchor focus, space => space.select ids anchor focus
  | .toggleSelect id, space => space.toggleSelect id
  | .rangeSelect toId orderedIds, space => space.rangeSelect toId orderedIds
  | .startRename id, space => space.startRename id
  | .applyChanges changes, space => space.applyChanges changes
  | .refreshTree, space => space.refreshTree
  | .createNode, space => space.createNode
  | .answer call reply, space => space.answer call reply

def machine : Machine WorkspaceState WorkspaceAction := ⟨exec⟩

end WorkspaceState

end QuantumFs.Client
