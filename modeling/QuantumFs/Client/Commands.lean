import QuantumFs.Client.Projection
import QuantumFs.Lib.Machine

/-! The commands of a vault task (`node/vault.rs`) over the tree of the host. A task
checks a command against its own projection and resolves paths in its own replica; the
host decides in the order in which updates arrive. -/
namespace QuantumFs.Client

open Lib Store DirectoryTree

abbrev Content := List (List UInt8)

/-- Where a command puts something: `beside` are the names it took into account there. -/
structure Target where
  folder : String
  name : String
  beside : List String

def Target.path (target : Target) : String := childPath target.folder target.name

inductive Command where
  | createNode (parentId : FileId) (name : String) (isDir : Bool)
  | renameNode (nodeId : FileId) (name : String)
  | moveNodes (nodeIds : List FileId) (toParentId : FileId)
  | deleteNodes (nodeIds : List FileId)
  | duplicateNodes (nodeIds : List FileId) (toParentId : Option FileId)
  | importFiles (parentId : FileId) (files : List (Option String × Content))
  | writeSidecar (content : Content)

inductive Job where
  | mkdir (target : Target)
  | save (target : Target) (content : Content)
  | rename (source : String) (target : Target)
  | unlink (path : String)
  | duplicate (nodeId : FileId) (toParentId : Option FileId)
  | copy (nodeId : FileId) (target : Target)
  | copyChildren (nodeId : FileId) (destination : String)
  | importFile (parentId : FileId) (parent : String) (desired : String) (content : Content)
  | sidecar (content : Content)

section

variable (nodes : List Node)

def requireNode (nodeId : FileId) : Except String Node :=
  match nodes.find? (·.id = nodeId) with
  | some node => .ok node
  | none => .error ("Unknown node: " ++ String.ofList (Text.hex (idBytes nodeId.val)))

def requireFolder (nodeId : FileId) : Except String String := do
  let node ← requireNode nodes nodeId
  if node.isDir then pure node.path else .error "Can't put things inside a file"

def siblings (parentId : FileId) (exclude : Option FileId) : List Node :=
  nodes.filter fun node => node.parent = some parentId ∧ some node.id ≠ exclude

def childNames (parentId : FileId) (exclude : Option FileId) : List String :=
  (siblings nodes parentId exclude).map Node.name

def collisionMessage (isDir : Bool) : String :=
  if isDir then "A folder with that name already exists" else "A file with that name already exists"

def checkNameFree [Lowercase] (parentId : FileId) (name : String) (exclude : Option FileId) :
    Except String Unit :=
  match nameError name with
  | some message => .error message
  | none =>
    match (siblings nodes parentId exclude).find? fun node => lower node.name = lower name with
    | some node => .error (collisionMessage node.isDir)
    | none => .ok ()

def parentOf (nodeId : FileId) : Option FileId := (nodes.find? (·.id = nodeId)).bind (·.parent)

def isDescendantLoop (ancestor : FileId) : Nat → Option FileId → Bool
  | 0, _ => false
  | _ + 1, none => false
  | guard + 1, some current =>
    current = ancestor || isDescendantLoop ancestor guard (parentOf nodes current)

def isDescendant (nodeId ancestor : FileId) : Bool :=
  isDescendantLoop nodes ancestor 4097 (parentOf nodes nodeId)

def subtreeLoop : Nat → Nat → List FileId → List FileId
  | 0, _, out => out
  | fuel + 1, index, out =>
    match out[index]? with
    | none => out
    | some current =>
      subtreeLoop fuel (index + 1) (out ++ (nodes.filter fun node => node.parent = some current).map Node.id)

def subtree (nodeId : FileId) : List FileId := subtreeLoop nodes (nodes.length + 1) 0 [nodeId]

end

section

variable [Lowercase] (nodes : List Node)

def trimmed (name : String) : String := String.ofList (Text.trim name.toList)

def collisionWith (names : List String) (node : Node) : Except String Unit :=
  if taken names node.name then .error (collisionMessage node.isDir) else .ok ()

def planMoves (toParentId : FileId) (folder : String) : List FileId → List String → Except String (List Job)
  | [], _ => .ok []
  | nodeId :: nodeIds, names => do
    let node ← requireNode nodes nodeId
    match node.parent with
    | none => .error "Can't move a folder into itself"
    | some parentId =>
      if parentId = toParentId then planMoves toParentId folder nodeIds names
      else if nodeId = toParentId ∨ isDescendant nodes toParentId nodeId = true then
        .error "Can't move a folder into itself"
      else do
        collisionWith names node
        let rest ← planMoves toParentId folder nodeIds (names ++ [node.name])
        pure (.rename node.path ⟨folder, node.name, names⟩ :: rest)

/-- Whether the id is one to start from: nothing above it is selected. -/
def deletionRoot (rootId : FileId) (nodeIds : List FileId) (nodeId : FileId) : Except String Bool := do
  if nodeId = rootId then .error "Can't delete the vault root"
  else
    let node ← requireNode nodes nodeId
    if node.parent.isNone then .error "Can't delete the vault root"
    else pure !(nodeIds.any fun other => other ≠ nodeId && isDescendant nodes nodeId other)

def pathsBelow (nodeId : FileId) : List String :=
  (subtree nodes nodeId).reverse.filterMap fun id => (nodes.find? (·.id = id)).map (·.path)

/-- The jobs of a command, or why there are none. Renaming the root is `writeSidecar`. -/
def plan (rootId : FileId) : Command → Except String (List Job)
  | .createNode parentId name isDir => do
    let parent ← requireFolder nodes parentId
    checkNameFree nodes parentId (trimmed name) none
    let target := ⟨parent, trimmed name, childNames nodes parentId none⟩
    pure [if isDir then .mkdir target else .save target []]
  | .renameNode nodeId name => do
    let node ← requireNode nodes nodeId
    match node.parent with
    | none => .error "Can't delete the vault root"
    | some parentId => do
      checkNameFree nodes parentId (trimmed name) (some nodeId)
      let parent ← requireFolder nodes parentId
      pure [.rename node.path ⟨parent, trimmed name, childNames nodes parentId (some nodeId)⟩]
  | .moveNodes nodeIds toParentId => do
    let folder ← requireFolder nodes toParentId
    planMoves nodes toParentId folder nodeIds (childNames nodes toParentId none)
  | .deleteNodes nodeIds => do
    let roots ← nodeIds.filterM (deletionRoot nodes rootId nodeIds)
    pure ((roots.flatMap (pathsBelow nodes)).map .unlink)
  | .duplicateNodes nodeIds toParentId => pure (nodeIds.map fun nodeId => .duplicate nodeId toParentId)
  | .importFiles parentId files => do
    let parent ← requireFolder nodes parentId
    pure (files.map fun (name, content) => .importFile parentId parent (name.getD "Imported file") content)
  | .writeSidecar content => pure [.sidecar content]

end

inductive Update where
  /-- A folder has no content. -/
  | link (parent : FileId) (name : String) (child : FileId) (content : Option Content)
  | overwrite (fileId : FileId) (content : Content)
  | unlink (parent : FileId) (name : String)
  | rename (srcParent : FileId) (srcName : String) (dstParent : FileId) (dstName : String)

/-- The tree of a host, and what the manifest of each file says. -/
structure HostTree where
  tree : DirectoryTree
  bodies : FileId → Option Content

def HostTree.apply (host : HostTree) : Update → Result HostTree
  | .link parent name child content => do
    let tree ← host.tree.link parent name child content.isNone
    pure ⟨tree, match content with
      | some content => Function.update host.bodies child (some content)
      | none => host.bodies⟩
  | .overwrite fileId content => pure { host with bodies := Function.update host.bodies fileId (some content) }
  | .unlink parent name => do
    let (_, tree) ← host.tree.unlink parent name
    pure { host with tree }
  | .rename srcParent srcName dstParent dstName => do
    let tree ← host.tree.rename srcParent srcName dstParent dstName
    pure { host with tree }

/-- An update on its way, and what follows when the host has taken it. -/
structure Flight where
  update : Update
  beside : List String
  settings : Bool
  next : List Job

structure Task where
  replica : DirectoryTree
  nodes : List Node
  jobs : List Job
  flight : Option Flight

/-- What the next job comes to: more jobs, or an update that is sent. -/
inductive Work where
  | expand (jobs : List Job)
  | send (flight : Flight)

namespace Task

variable [Lowercase] (task : Task)

/-- `mkdir` of a joined peer; `child` is a random id. -/
def mkdir (target : Target) (child : FileId) (next : List Job) : Option Work := do
  let (parent, name) ← (task.replica.resolveParent target.path).toOption
  pure (.send ⟨.link parent name child none, target.beside, false, next⟩)

/-- `save_file`: what the replica has at the path is overwritten. -/
def saveFile (target : Target) (child : FileId) (content : Content) (settings : Bool) : Option Work := do
  let (parent, name) ← (task.replica.resolveParent target.path).toOption
  match (task.replica.resolve target.path).toOption with
  | some existing =>
    if task.replica.isDir existing then none
    else pure (.send ⟨.overwrite existing content, target.beside, settings, []⟩)
  | none => pure (.send ⟨.link parent name child (some content), target.beside, settings, []⟩)

def sidecarTarget : Target := ⟨"/", sidecarName, []⟩

/-- The children of a folder under their own names, one after another. -/
def copiesOf (destination : String) : List Node → List String → List Job
  | [], _ => []
  | node :: nodes, names =>
    .copy node.id ⟨destination, node.name, names⟩ :: copiesOf destination nodes (names ++ [node.name])

/-- `child` is a random id and `bodies` is what `file_bodies` found; no result ends the command. -/
def step (child : FileId) (bodies : Content) : Job → Option Work
  | .mkdir target => task.mkdir target child []
  | .save target content => task.saveFile target child content false
  | .sidecar content => task.saveFile sidecarTarget child content true
  | .rename source target => do
    let (srcParent, srcName) ← (task.replica.resolveParent source).toOption
    let (dstParent, dstName) ← (task.replica.resolveParent target.path).toOption
    pure (.send ⟨.rename srcParent srcName dstParent dstName, target.beside, false, []⟩)
  | .unlink path => do
    let (parent, name) ← (task.replica.resolveParent path).toOption
    pure (.send ⟨.unlink parent name, [], false, []⟩)
  | .duplicate nodeId toParentId => do
    let node ← (requireNode task.nodes nodeId).toOption
    let own ← node.parent
    let parent ← (requireFolder task.nodes (toParentId.getD own)).toOption
    let names := childNames task.nodes (toParentId.getD own) none
    let name ← uniqueName names node.name
    pure (.expand [.copy nodeId ⟨parent, name, names⟩])
  | .copy nodeId target => do
    let node ← (requireNode task.nodes nodeId).toOption
    if node.isDir then task.mkdir target child [.copyChildren nodeId target.path]
    else task.saveFile target child bodies false
  | .copyChildren nodeId destination =>
    pure (.expand (copiesOf destination (siblings task.nodes nodeId none) []))
  | .importFile parentId parent desired content =>
    if (nameError desired).isSome then none
    else do
      let names := childNames task.nodes parentId none
      let name ← uniqueName names desired
      pure (.expand [.save ⟨parent, name, names⟩ content])

def work (child : FileId) (bodies : Content) : Task :=
  match task.flight, task.jobs with
  | none, job :: jobs =>
    match task.step child bodies job with
    | some (.expand more) => { task with jobs := more ++ jobs }
    | some (.send flight) => { task with jobs := [], flight := some { flight with next := flight.next ++ jobs } }
    | none => { task with jobs := [] }
  | _, _ => task

end Task

/-- A host and any number of tasks; `history` are the trees the host has had, newest first. -/
structure Fleet where
  host : HostTree
  history : List DirectoryTree
  tasks : Nat → Task

def Fleet.new (root : FileId) : Fleet where
  host := ⟨DirectoryTree.new root, fun _ => none⟩
  history := [DirectoryTree.new root]
  tasks := fun _ => ⟨DirectoryTree.new root, [], [], none⟩

inductive Event where
  /-- Records arrive: the replica is as the host was at some time. -/
  | deliver (task : Nat) (age : Nat)
  | project (task : Nat) (vaultName : String)
  | begin (task : Nat) (command : Command)
  | work (task : Nat) (child : FileId) (bodies : Content)
  /-- The host handles the update of a task, which may not hear of it. -/
  | commit (task : Nat) (accepted answered : Bool)
  | fail (task : Nat)

namespace Fleet

variable (fleet : Fleet)

def put (i : Nat) (task : Task) : Fleet := { fleet with tasks := Function.update fleet.tasks i task }

/-- What the host makes of an update. -/
def outcome (accepted : Bool) (update : Update) : Option HostTree :=
  if accepted then (fleet.host.apply update).toOption else none

def commit (i : Nat) (accepted answered : Bool) : Fleet :=
  match (fleet.tasks i).flight with
  | none => fleet
  | some flight =>
    match fleet.outcome accepted flight.update with
    | none => fleet.put i { fleet.tasks i with jobs := [], flight := none }
    | some host => { fleet with host, history := host.tree :: fleet.history }.put i
        { fleet.tasks i with
          replica := if answered then host.tree else (fleet.tasks i).replica
          jobs := if answered then flight.next else []
          flight := none }

def start [Lowercase] (i : Nat) (command : Command) : Fleet :=
  match (fleet.tasks i).jobs, (fleet.tasks i).flight with
  | [], none =>
    match plan (fleet.tasks i).nodes fleet.host.tree.expectedRoot command with
    | .ok jobs => fleet.put i { fleet.tasks i with jobs }
    | .error _ => fleet
  | _, _ => fleet

def exec [Lowercase] : Event → Fleet
  | .deliver i age =>
    match fleet.history[age]? with
    | some tree => fleet.put i { fleet.tasks i with replica := tree }
    | none => fleet
  | .project i vaultName => fleet.put i { fleet.tasks i with
      nodes := walk (fleet.tasks i).replica vaultName }
  | .begin i command => fleet.start i command
  | .work i child bodies => fleet.put i ((fleet.tasks i).work child bodies)
  | .commit i accepted answered => fleet.commit i accepted answered
  | .fail i => fleet.put i { fleet.tasks i with jobs := [], flight := none }

end Fleet

def fleetMachine [Lowercase] : Machine Fleet Event := ⟨fun event fleet => fleet.exec event⟩

end QuantumFs.Client
