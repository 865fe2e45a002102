import QuantumFs.Ids

/-! The directory tree of a vault (`store/tree.rs`). One ordered map from
`(parent, name)` to the directory entry holds the whole tree; the root is an
entry of its own under the empty name. A failing operation returns no tree, so
the receiver keeps its old value. -/
namespace QuantumFs.Store

open Lib

def maxComponentBytes : Nat := 255
def maxPathBytes : Nat := 4096

structure Dirent where
  parent : FileId
  name : String
  child : FileId
  isDir : Bool
deriving DecidableEq

abbrev DirentKey : Type := FileId ×ₗ String

instance transOrd_direntKey : Std.TransOrd DirentKey := inferInstance

def direntKey (parent : FileId) (name : String) : DirentKey := toLex (parent, name)

def Dirent.key (entry : Dirent) : DirentKey := direntKey entry.parent entry.name

theorem direntKey_inj {parent parent' : FileId} {name name' : String} :
    direntKey parent name = direntKey parent' name' ↔ parent = parent' ∧ name = name' := by
  unfold direntKey
  rw [toLex_inj, Prod.mk.injEq]

structure DirectoryTree where
  expectedRoot : FileId
  entries : Map DirentKey Dirent
deriving DecidableEq

/-- A drive prefix is an ASCII letter followed by a colon; both are single
bytes, so the first two characters decide. -/
def hasDrivePrefix (path : String) : Bool :=
  match path.toList with
  | letter :: colon :: _ => letter.isAlpha && colon == ':'
  | _ => false

def validateName (name : String) : Result Unit := do
  ensure (¬ (name = "" ∨ name = "." ∨ name = ".."))
    (.invalidInput "invalid empty or dot path component")
  ensure (name.utf8ByteSize ≤ maxComponentBytes)
    (.invalidInput "path component exceeds 255 bytes")
  ensure (¬ ('/' ∈ name.toList ∨ '\\' ∈ name.toList ∨ '\x00' ∈ name.toList ∨
      hasDrivePrefix name = true))
    (.invalidInput "path component contains a forbidden character")

def pathComponents (path : String) : Result (List String) := do
  ensure (path.utf8ByteSize ≤ maxPathBytes) (.invalidInput "path exceeds 4096 bytes")
  ensure (¬ ('\x00' ∈ path.toList ∨ '\\' ∈ path.toList))
    (.invalidInput "path contains a forbidden character")
  let relative := match path.toList with
    | '/' :: rest => rest
    | chars => chars
  ensure (¬ (relative.head? = some '/' ∨ hasDrivePrefix (String.ofList relative) = true))
    (.invalidInput "path is not vault-relative")
  if relative = [] then
    pure []
  else
    let components := (relative.splitOn '/').map String.ofList
    components.forM validateName
    pure components

namespace DirectoryTree

def rootDirent (expectedRoot : FileId) : Dirent where
  parent := expectedRoot
  name := ""
  child := expectedRoot
  isDir := true

def new (expectedRoot : FileId) : DirectoryTree where
  expectedRoot := expectedRoot
  entries := (∅ : Map DirentKey Dirent).insert (direntKey expectedRoot "") (rootDirent expectedRoot)

variable (tree : DirectoryTree)

def dirents : List Dirent := Map.vals tree.entries

def isLinkedFile (fileId : FileId) : Bool :=
  tree.dirents.any fun entry => entry.child == fileId && !entry.isDir

def isDir (fileId : FileId) : Bool :=
  fileId == tree.expectedRoot ||
    tree.dirents.any fun entry => entry.child == fileId && entry.isDir

def entryOf (child : FileId) : Option Dirent :=
  tree.dirents.find? fun entry => entry.child == child

def resolveFrom : FileId → List String → Result FileId
  | current, [] => pure current
  | current, component :: rest => do
      let entry ← okOr tree.entries[direntKey current component]? (.state "path does not exist")
      resolveFrom entry.child rest

def resolve (path : String) : Result FileId := do
  let components ← pathComponents path
  resolveFrom tree tree.expectedRoot components

def resolveParents : FileId → List String → Result FileId
  | parent, [] => pure parent
  | parent, component :: rest => do
      let entry ← okOr tree.entries[direntKey parent component]?
        (.state "parent path does not exist")
      ensure (entry.isDir = true) (.state "path parent is not a directory")
      resolveParents entry.child rest

def resolveParent (path : String) : Result (FileId × String) := do
  let components ← pathComponents path
  let name ← okOr components.getLast? (.invalidInput "root has no parent")
  let parent ← resolveParents tree tree.expectedRoot components.dropLast
  pure (parent, name)

/-- The loop of `path_len`. Every turn puts a new child into `seen`, so it ends
within one turn more than there are entries and the last case is not reached. -/
def pathLenLoop : Nat → FileId → OrdSet FileId → Nat → Nat → Result (Nat × Nat)
  | 0, _, _, _, _ => .error (.invalidInput "directory tree contains a cycle")
  | fuel + 1, child, seen, componentBytes, componentCount =>
    if child = tree.expectedRoot then
      pure (componentBytes, componentCount)
    else do
      ensure (child ∉ seen) (.invalidInput "directory tree contains a cycle")
      let entry ← okOr (tree.entryOf child) (.invalidInput "directory entry is unreachable")
      let bytes ← checkedAdd componentBytes entry.name.utf8ByteSize
        (.invalidInput "path length overflow")
      pathLenLoop fuel entry.parent (seen.insert child) bytes (componentCount + 1)

def pathLen (child : FileId) : Result Nat :=
  if child = tree.expectedRoot then
    pure 0
  else do
    let (componentBytes, componentCount) ←
      tree.pathLenLoop (tree.dirents.length + 2) child ∅ 0 0
    let length ← checkedAdd componentBytes (componentCount - 1)
      (.invalidInput "path length overflow")
    ensure (length ≤ maxPathBytes) (.invalidInput "path exceeds 4096 bytes")
    pure length

/-- The loop of `validate_graph` from one entry to the root. -/
def reachRootLoop : Nat → FileId → OrdSet FileId → Result Unit
  | 0, _, _ => .error (.invalidInput "directory tree contains a cycle")
  | fuel + 1, current, seen =>
    if current = tree.expectedRoot then
      pure ()
    else do
      ensure (current ∉ seen) (.invalidInput "directory tree contains a cycle")
      let entry ← okOr (tree.entryOf current) (.invalidInput "directory entry is unreachable")
      reachRootLoop fuel entry.parent (seen.insert current)

def validateEntry (entry : Dirent) : Result Unit := do
  ensure (tree.isDir entry.parent = true) (.invalidInput "dirent parent is not a directory")
  tree.reachRootLoop (tree.dirents.length + 2) entry.child ∅
  let _ ← tree.pathLen entry.child
  pure ()

def validateGraph : Result Unit :=
  (tree.dirents.filter fun entry => entry.name ≠ "").forM tree.validateEntry

/-- `is_descendant` has no cycle check: on a tree whose entries reach the root
it ends within as many turns as there are entries. -/
def isDescendantLoop : Nat → FileId → FileId → Bool
  | 0, _, _ => false
  | fuel + 1, candidate, ancestor =>
    if candidate = tree.expectedRoot then
      false
    else if candidate = ancestor then
      true
    else
      match tree.entryOf candidate with
      | none => false
      | some entry => isDescendantLoop fuel entry.parent ancestor

def isDescendant (candidate ancestor : FileId) : Bool :=
  tree.isDescendantLoop (tree.dirents.length + 2) candidate ancestor

def link (parent : FileId) (name : String) (child : FileId) (isDirectory : Bool) :
    Result DirectoryTree := do
  validateName name
  ensure (tree.isDir parent = true) (.state "link parent is not a directory")
  ensure (¬ (child = tree.expectedRoot ∨ (tree.entryOf child).isSome))
    (.state "file id is already linked")
  let key := direntKey parent name
  ensure (tree.entries[key]? = none) (.state "directory name already exists")
  let parentLen ← tree.pathLen parent
  let separator := if parent = tree.expectedRoot then 0 else 1
  ensure (parentLen + separator + name.utf8ByteSize ≤ maxPathBytes)
    (.invalidInput "path exceeds 4096 bytes")
  let entry : Dirent := { parent, name, child, isDir := isDirectory }
  pure { tree with entries := tree.entries.insert key entry }

def unlink (parent : FileId) (name : String) : Result (FileId × DirectoryTree) := do
  validateName name
  let key := direntKey parent name
  let entry ← okOr tree.entries[key]? (.state "directory entry does not exist")
  ensure (¬ (entry.isDir = true ∧ tree.dirents.any (fun child => child.parent == entry.child)))
    (.state "directory is not empty")
  pure (entry.child, { tree with entries := tree.entries.erase key })

def rename (srcParent : FileId) (srcName : String) (dstParent : FileId) (dstName : String) :
    Result DirectoryTree := do
  validateName srcName
  validateName dstName
  ensure (tree.isDir dstParent = true) (.state "rename destination is not a directory")
  let sourceKey := direntKey srcParent srcName
  let destinationKey := direntKey dstParent dstName
  if sourceKey = destinationKey then
    ensure (tree.entries[sourceKey]? ≠ none) (.state "rename source does not exist")
    pure tree
  else
    ensure (tree.entries[destinationKey]? = none) (.state "rename destination already exists")
    let entry ← okOr tree.entries[sourceKey]? (.state "rename source does not exist")
    ensure (entry.name ≠ "") (.invalidInput "cannot rename the vault root")
    ensure (¬ (entry.isDir = true ∧ tree.isDescendant dstParent entry.child = true))
      (.state "cannot move a directory into its descendant")
    let moved : Dirent := { entry with parent := dstParent, name := dstName }
    let staged : DirectoryTree :=
      { tree with entries := (tree.entries.erase sourceKey).insert destinationKey moved }
    staged.validateGraph
    pure staged

def removeId (fileId : FileId) : Result DirectoryTree := do
  ensure (fileId ≠ tree.expectedRoot) (.invalidInput "cannot remove the vault root")
  match tree.entries.toList.find? fun (_, entry) => entry.child == fileId with
  | none => pure tree
  | some (key, _) => do
      let (_, next) ← tree.unlink (ofLex key).1 (ofLex key).2
      pure next

/-- One turn of the loop of `from_dirents`. -/
structure Loading where
  entries : Map DirentKey Dirent
  children : OrdSet FileId
  previous : Option DirentKey

def loadDirent (expectedRoot : FileId) (loading : Loading) (entry : Dirent) : Result Loading := do
  let key := entry.key
  ensure (∀ old ∈ loading.previous, old < key)
    (.invalidInput "dirents are not canonically ordered")
  if entry.name = "" then
    ensure (¬ (entry.parent ≠ expectedRoot ∨ entry.child ≠ expectedRoot ∨ entry.isDir = false))
      (.invalidInput "invalid root dirent")
    pure { loading with
      entries := loading.entries.insert key entry
      previous := some key }
  else
    validateName entry.name
    ensure (¬ (entry.child = expectedRoot ∨ entry.child ∈ loading.children))
      (.invalidInput "file id has multiple directory links")
    pure {
      entries := loading.entries.insert key entry
      children := loading.children.insert entry.child
      previous := some key }

def fromDirents (expectedRoot : FileId) (dirents : List Dirent) : Result DirectoryTree :=
  -- An empty list is the migration from the storage-only snapshot.
  if dirents = [] then
    pure (new expectedRoot)
  else do
    let loading ← dirents.foldlM (loadDirent expectedRoot) ⟨∅, ∅, none⟩
    ensure (loading.entries[direntKey expectedRoot ""]? ≠ none)
      (.invalidInput "missing root dirent")
    let tree : DirectoryTree := { expectedRoot, entries := loading.entries }
    tree.validateGraph
    pure tree

end DirectoryTree

end QuantumFs.Store
