import QuantumFs.Lib.Feed
import QuantumFs.Lib.Machine

/-! The tree that the workspace shows (`store/workspaceStore.ts`): what the vault tasks emit
and answer (`emit_diff`, `tree_list`), and how the store puts it together. -/
namespace QuantumFs.Client

open Lib

inductive NodeKind where
  | folder
  | file
deriving DecidableEq

inductive FolderColor where
  | graphite
  | coral
  | violet
  | blue
  | teal
  | green
  | amber
  | pink
  | red
deriving DecidableEq

inductive Availability where
  | «local»
  | remote
  | downloading
deriving DecidableEq

structure FsNode where
  id : String
  vaultId : String
  parentId : Option String
  kind : NodeKind
  name : String
  sizeBytes : Nat
  createdAt : Nat
  modifiedAt : Nat
  createdBy : String
  modifiedBy : String
  color : Option FolderColor
  availability : Availability
  progress : Option ℚ
  holders : List String
  childCount : Nat
deriving DecidableEq

abbrev NodeMap : Type := String → Option FsNode

def keyById (list : List FsNode) : NodeMap := fun id => list.reverse.find? (·.id = id)

inductive FsChange where
  | upsert (node : FsNode)
  | remove (nodeId : String)
deriving DecidableEq

def FsChange.delta : FsChange → Delta String FsNode
  | .upsert node => ⟨node.id, some node⟩
  | .remove nodeId => ⟨nodeId, none⟩

def sameNode (a b : FsNode) : Bool :=
  a.parentId = b.parentId && a.kind = b.kind && a.name = b.name && a.sizeBytes = b.sizeBytes &&
    a.createdAt = b.createdAt && a.modifiedAt = b.modifiedAt && a.createdBy = b.createdBy &&
    a.modifiedBy = b.modifiedBy && a.color = b.color && a.availability = b.availability &&
    a.progress = b.progress && a.holders = b.holders && a.childCount = b.childCount

/-- `nodes` are the entries in the order of the walk. -/
structure Projector where
  nodes : List FsNode
  opened : Bool
  fullProjection : Bool

namespace Projector

variable (task : Projector)

def entries : NodeMap := keyById task.nodes

def upserts (full : Bool) (nodes : List FsNode) : List FsChange :=
  nodes.filterMap fun listed =>
    (keyById nodes listed.id).bind fun node =>
      let changed := full || match task.entries listed.id with
        | some old => !sameNode old node
        | none => true
      if changed then some (.upsert node) else none

def removes (nodes : List FsNode) : List FsChange :=
  (task.nodes.filter fun old => (keyById nodes old.id).isNone).map fun old => .remove old.id

def changes (nodes : List FsNode) : List FsChange :=
  task.upserts (task.fullProjection && task.opened) nodes ++ task.removes nodes

def emitDiff (nodes : List FsNode) : Projector × List FsChange :=
  let changes := task.changes nodes
  let full := task.fullProjection && task.opened
  ({ task with nodes := nodes, fullProjection := task.fullProjection && !(full && !changes.isEmpty) }, changes)

def treeList : Option (List FsNode) :=
  if task.opened then some (task.nodes.filterMap fun listed => task.entries listed.id) else none

end Projector

inductive Message where
  | changed (changes : List FsChange)
  | tree (call : Nat) (answer : Option (List FsNode))
  | made (call : Nat) (answer : Option (List FsNode))
deriving DecidableEq

/-- A call that is awaited: `openVault` waits for the tree and for four other answers. -/
inductive Call where
  | openVault (token : Nat) (tree : Option (List FsNode)) (others : Bool)
  | refreshTree
  | make
deriving DecidableEq

/-- The store, the tasks it talks to and what is on the way from each of them. -/
structure Workspace where
  vaultId : Option String
  nodes : NodeMap
  openToken : Nat
  nextCall : Nat
  calls : Nat → Option (String × Call)
  asked : Nat → Bool
  tasks : String → Projector
  channel : String → List Message

namespace Workspace

def new : Workspace where
  vaultId := none
  nodes := fun _ => none
  openToken := 0
  nextCall := 0
  calls := fun _ => none
  asked := fun _ => false
  tasks := fun _ => ⟨[], false, false⟩
  channel := fun _ => []

variable (space : Workspace)

def send (vault : String) (message : Message) : Workspace :=
  { space with channel := Function.update space.channel vault (space.channel vault ++ [message]) }

def begin (vault : String) (call : Call) : Workspace :=
  { space with
    nextCall := space.nextCall + 1
    calls := Function.update space.calls space.nextCall (some (vault, call))
    asked := Function.update space.asked space.nextCall true }

def finish (call : Nat) : Workspace := { space with calls := Function.update space.calls call none }

def hold (call : Nat) (vault : String) (state : Call) : Workspace :=
  { space with calls := Function.update space.calls call (some (vault, state)) }

def openVault (vault : String) : Workspace :=
  { space with vaultId := some vault, nodes := fun _ => none, openToken := space.openToken + 1 }.begin vault
    (.openVault (space.openToken + 1) none false)

def closeVault : Workspace :=
  { space with vaultId := none, nodes := fun _ => none, openToken := space.openToken + 1 }

def refreshTree : Workspace :=
  match space.vaultId with
  | some vault => space.begin vault .refreshTree
  | none => space

/-- `createNode`, `duplicateNodes` and `paste`: all insert the nodes of the answer. -/
def make : Workspace :=
  match space.vaultId with
  | some vault => space.begin vault .make
  | none => space

/-- The nodes are those of the vault of the task. -/
def project (vault : String) (nodes : List FsNode) : Workspace :=
  let (task, changes) := (space.tasks vault).emitDiff (nodes.map fun node => { node with vaultId := vault })
  let next := { space with tasks := Function.update space.tasks vault task }
  if changes = [] then next else next.send vault (.changed changes)

/-- The replica is opened, or the session begins anew. -/
def reopen (vault : String) : Workspace :=
  let task := { space.tasks vault with opened := true, fullProjection := true }
  { space with tasks := Function.update space.tasks vault task }

/-- A task comes to a call; the ids are those of the nodes a command made. -/
def answer (call : Nat) (made : Option (List String)) : Workspace :=
  match space.calls call, space.asked call with
  | some (vault, .make), true =>
    let nodes := made.map fun ids => ids.filterMap fun id => (space.tasks vault).entries id
    { space with asked := Function.update space.asked call false }.send vault (.made call nodes)
  | some (vault, _), true =>
    { space with asked := Function.update space.asked call false }.send vault
      (.tree call (space.tasks vault).treeList)
  | _, _ => space

def applyChanges (changes : List FsChange) : Workspace :=
  { space with nodes := Delta.applyAll (changes.map FsChange.delta) space.nodes }

/-- All five answers are there. -/
def opened (call : Nat) (token : Nat) (tree : List FsNode) : Workspace :=
  let next := space.finish call
  if token = space.openToken then { next with nodes := keyById tree } else next

def insert (made : List FsNode) : Workspace :=
  { space with nodes := fun id => (keyById made id).or (space.nodes id) }

def onTree (call : Nat) (answer : Option (List FsNode)) : Workspace :=
  match space.calls call, answer with
  | some (vault, .openVault token _ others), some tree =>
    if others then space.opened call token tree else space.hold call vault (.openVault token (some tree) others)
  | some (vault, .refreshTree), some tree =>
    if space.vaultId = some vault then { space.finish call with nodes := keyById tree } else space.finish call
  | some (_, .make), _ => space
  | some _, none => space.finish call
  | none, _ => space

def onMade (call : Nat) (answer : Option (List FsNode)) : Workspace :=
  match space.calls call, answer with
  | some (_, .make), some made => (space.finish call).insert made
  | some (_, .make), none => space.finish call
  | _, _ => space

/-- The other four answers of an `openVault`, or an error of one of them. -/
def others (call : Nat) (arrived : Bool) : Workspace :=
  match space.calls call with
  | some (vault, .openVault token tree _) =>
    if arrived then
      match tree with
      | some tree => space.opened call token tree
      | none => space.hold call vault (.openVault token none true)
    else space.finish call
  | _ => space

def deliver (vault : String) : Workspace :=
  match space.channel vault with
  | [] => space
  | message :: rest =>
    let next := { space with channel := Function.update space.channel vault rest }
    match message with
    | .changed changes => if space.vaultId = some vault then next.applyChanges changes else next
    | .tree call answer => next.onTree call answer
    | .made call answer => next.onMade call answer

end Workspace

inductive WorkspaceEvent where
  | openVault (vault : String)
  | closeVault
  | refreshTree
  | make
  | project (vault : String) (nodes : List FsNode)
  | reopen (vault : String)
  | answer (call : Nat) (made : Option (List String))
  | others (call : Nat) (arrived : Bool)
  | deliver (vault : String)

def Workspace.exec (space : Workspace) : WorkspaceEvent → Workspace
  | .openVault vault => space.openVault vault
  | .closeVault => space.closeVault
  | .refreshTree => space.refreshTree
  | .make => space.make
  | .project vault nodes => space.project vault nodes
  | .reopen vault => space.reopen vault
  | .answer call made => space.answer call made
  | .others call arrived => space.others call arrived
  | .deliver vault => space.deliver vault

def workspaceMachine : Machine Workspace WorkspaceEvent := ⟨fun event space => space.exec event⟩

end QuantumFs.Client
