import QuantumFs.Client.Moving
import QuantumFs.Client.StorableNames

/-! A duplicate of a vault task (`node/vault.rs`, `duplicate_nodes` and `copy_into`) while no other task acts: the
replica of the task is the tree of the host, and its projection is made anew when chunks have to be pulled. -/
namespace QuantumFs.Client

open Lib Store DirectoryTree

/-- Random ids, and which of the requests of a task fail. -/
structure CopyEnv where
  vaultName : String
  ids : Nat → FileId
  fails : Nat → Bool

/-- `stored` are the files whose chunks are all local; `clock` counts requests. -/
structure CopyDesk where
  host : HostTree
  nodes : List Node
  stored : FileId → Bool
  clock : Nat

inductive Halt where
  | failed
  | unfinished
deriving DecidableEq

def orFail {α : Type} : Option α → Except Halt α
  | some a => .ok a
  | none => .error .failed

namespace CopyDesk

variable (env : CopyEnv) (desk : CopyDesk)

def subject : Update → Option FileId
  | .link _ _ child _ => some child
  | .overwrite fileId _ => some fileId
  | _ => none

/-- One request to the host, of which the replica hears. -/
def request : Option Work → Option (FileId × CopyDesk)
  | some (.send flight) =>
    if env.fails desk.clock then none
    else do
      let host ← (desk.host.apply flight.update).toOption
      let fileId ← subject flight.update
      pure (fileId, { desk with host, clock := desk.clock + 1 })
  | _ => none

def task : Task := ⟨desk.host.tree, desk.nodes, [], none⟩

def mkdir (target : Target) : Option (FileId × CopyDesk) :=
  desk.request env (desk.task.mkdir target (env.ids desk.clock) [])

/-- The chunks of what was saved are put into the local store. -/
def saveFile (target : Target) (content : Content) : Option (FileId × CopyDesk) := do
  let (fileId, desk) ← desk.request env (desk.task.saveFile target (env.ids desk.clock) content false)
  pure (fileId, { desk with stored := Function.update desk.stored fileId true })

def isLocal (fileId : FileId) (content : Content) : Bool := content.isEmpty || desk.stored fileId

def fileBodies (fileId : FileId) : Option (Content × CopyDesk) := do
  let content ← desk.host.bodies fileId
  if desk.isLocal fileId content then pure (content, desk)
  else if env.fails desk.clock then none
  else pure (content, { desk with
    nodes := walk desk.host.tree env.vaultName
    stored := Function.update desk.stored fileId true
    clock := desk.clock + 1 })

end CopyDesk

/-- The children that `copy_into` goes through. -/
def copied (nodes : List Node) (folder : FileId) : List (FileId × String) :=
  (siblings nodes folder none).map fun node => (node.id, node.name)

/-- The loop over the children in `copy_into`. -/
def copyEach (copy : FileId → Target → CopyDesk → Except Halt (FileId × CopyDesk)) (destination : String) :
    List (FileId × String) → CopyDesk → Except Halt CopyDesk
  | [], desk => .ok desk
  | (child, name) :: children, desk => do
    let (_, desk) ← copy child ⟨destination, name, []⟩ desk
    copyEach copy destination children desk

def copyInto (env : CopyEnv) : Nat → FileId → Target → CopyDesk → Except Halt (FileId × CopyDesk)
  | 0, _, _, _ => .error .unfinished
  | fuel + 1, nodeId, target, desk => do
    let node ← orFail (requireNode desk.nodes nodeId).toOption
    if node.isDir then
      let (fileId, desk) ← orFail (desk.mkdir env target)
      let desk ← copyEach (copyInto env fuel) target.path (copied desk.nodes nodeId) desk
      pure (fileId, desk)
    else
      let (content, desk) ← orFail (desk.fileBodies env nodeId)
      orFail (desk.saveFile env target content)

/-- `duplicate_nodes` for one node. -/
def duplicate [Lowercase] (env : CopyEnv) (fuel : Nat) (nodeId : FileId) (toParentId : Option FileId) (desk : CopyDesk) :
    Except Halt (FileId × CopyDesk) := do
  let node ← orFail (requireNode desk.nodes nodeId).toOption
  let own ← orFail node.parent
  let parent ← orFail (requireFolder desk.nodes (toParentId.getD own)).toOption
  let names := childNames desk.nodes (toParentId.getD own) none
  let name ← orFail (uniqueName names node.name)
  copyInto env fuel nodeId ⟨parent, name, []⟩ desk

/-- The copies of some nodes into one folder, one after another, with the ids of the copies. -/
inductive Copies (env : CopyEnv) : String → List (FileId × String) → CopyDesk → List FileId → CopyDesk → Prop
  | none (folder : String) (desk : CopyDesk) : Copies env folder [] desk [] desk
  | file {folder name : String} {nodeId copy : FileId} {node : Node} {content : Content} {desk pulled saved last : CopyDesk}
      {rest : List (FileId × String)} {copies : List FileId}
      (found : requireNode desk.nodes nodeId = .ok node) (isFile : node.isDir = false)
      (read : desk.fileBodies env nodeId = some (content, pulled))
      (save : pulled.saveFile env ⟨folder, name, []⟩ content = some (copy, saved))
      (later : Copies env folder rest saved copies last) :
      Copies env folder ((nodeId, name) :: rest) desk (copy :: copies) last
  | folder {folder name : String} {nodeId copy : FileId} {node : Node} {desk made filled last : CopyDesk}
      {rest : List (FileId × String)} {inner copies : List FileId}
      (found : requireNode desk.nodes nodeId = .ok node) (isFolder : node.isDir = true)
      (make : desk.mkdir env ⟨folder, name, []⟩ = some (copy, made))
      (inside : Copies env (childPath folder name) (copied made.nodes nodeId) made inner filled)
      (later : Copies env folder rest filled copies last) :
      Copies env folder ((nodeId, name) :: rest) desk (copy :: copies) last

theorem orFail_eq_ok {α : Type} {found : Option α} {a : α} : orFail found = .ok a ↔ found = some a := by
  cases found <;> simp [orFail]

namespace Copies

variable {env : CopyEnv} {folder name : String} {nodeId copy : FileId} {rest : List (FileId × String)}
  {desk next last : CopyDesk} {copies : List FileId}

theorem cons (first : Copies env folder [(nodeId, name)] desk [copy] next)
    (later : Copies env folder rest next copies last) :
    Copies env folder ((nodeId, name) :: rest) desk (copy :: copies) last := by
  cases first with
  | file found isFile read save done =>
    cases done
    exact .file found isFile read save later
  | folder found isFolder make inside done =>
    cases done
    exact .folder found isFolder make inside later

theorem of_copyEach {fuel : Nat} (each : ∀ {nodeId : FileId} {name : String} {desk last : CopyDesk} {copy : FileId},
      copyInto env fuel nodeId ⟨folder, name, []⟩ desk = .ok (copy, last) →
        Copies env folder [(nodeId, name)] desk [copy] last)
    {jobs : List (FileId × String)} {desk : CopyDesk} (done : copyEach (copyInto env fuel) folder jobs desk = .ok last) :
    ∃ copies, Copies env folder jobs desk copies last := by
  induction jobs generalizing desk with
  | nil =>
    obtain rfl := Except.ok.inj done
    exact ⟨[], .none folder desk⟩
  | cons job jobs ih =>
    obtain ⟨nodeId, name⟩ := job
    rw [copyEach, except_bind_ok] at done
    obtain ⟨⟨copy, next⟩, first, later⟩ := done
    obtain ⟨copies, later⟩ := ih later
    exact ⟨copy :: copies, (each first).cons later⟩

theorem of_copyInto {fuel : Nat} (done : copyInto env fuel nodeId ⟨folder, name, []⟩ desk = .ok (copy, last)) :
    Copies env folder [(nodeId, name)] desk [copy] last := by
  induction fuel generalizing folder name nodeId copy desk last with
  | zero => cases done
  | succ fuel ih =>
    rw [copyInto, except_bind_ok] at done
    obtain ⟨node, found, done⟩ := done
    rw [orFail_eq_ok] at found
    have isNode := except_toOption found
    cases isDir : node.isDir with
    | true =>
      rw [if_pos isDir, except_bind_ok] at done
      obtain ⟨⟨fileId, made⟩, make, done⟩ := done
      rw [except_bind_ok] at done
      obtain ⟨filled, inside, same⟩ := done
      cases same
      obtain ⟨inner, inside⟩ := of_copyEach ih inside
      exact .folder isNode isDir (orFail_eq_ok.mp make) inside (.none folder last)
    | false =>
      rw [isDir, if_neg Bool.false_ne_true, except_bind_ok] at done
      obtain ⟨⟨content, pulled⟩, read, save⟩ := done
      exact .file isNode isDir (orFail_eq_ok.mp read) (orFail_eq_ok.mp save) (.none folder last)

end Copies

theorem childPath_longer {tree : DirectoryTree} {path : String} {place : FileId × String}
    (resolved : tree.resolveParent path = .ok place) (name : String) :
    path.utf8ByteSize ≤ maxPathBytes ∧ path.utf8ByteSize < (childPath path name).utf8ByteSize := by
  obtain ⟨components, read, resolved⟩ := Result.bind_eq_ok.mp resolved
  obtain ⟨last, isLast, -⟩ := Result.bind_eq_ok.mp resolved
  rw [okOr_eq_ok] at isLast
  have present : components ≠ [] := by
    rintro rfl
    cases isLast
  obtain ⟨short, storable, written⟩ := (pathComponents_eq_ok present).mp read
  refine ⟨short, ?_⟩
  have isEnd : path.toList.rdropWhile (· = '/') = path.toList := by
    obtain ⟨front, last, rfl⟩ : ∃ front last, components = front ++ [last] :=
      ⟨_, _, (List.dropLast_append_getLast present).symm⟩
    have whole := @vaultPath_end front last (storable last (List.mem_append_right _ List.mem_cons_self))
    rw [vaultPath_eq present, String.toList_ofList] at whole
    obtain same | same := written
    · rw [same]
      rw [List.rdropWhile_eq_self_iff] at whole ⊢
      intro some
      have isLast := whole (List.cons_ne_nil _ _)
      rwa [List.getLast_cons some] at isLast
    · rw [same, whole]
  have other : path ≠ "/" := by
    rintro rfl
    exact absurd isEnd (by decide)
  have size : (childPath path name).utf8ByteSize = path.utf8ByteSize + 1 + name.utf8ByteSize := by
    unfold childPath
    rw [if_neg other, isEnd, String.ofList_append, String.utf8ByteSize_append, String.ofList_toList, String.ofList_cons,
      String.utf8ByteSize_append, String.ofList_toList]
    have slash : (String.singleton '/').utf8ByteSize = 1 := by decide
    omega
  omega

theorem request_work {env : CopyEnv} {desk last : CopyDesk} {work : Option Work} {fileId : FileId}
    (done : desk.request env work = some (fileId, last)) : ∃ flight host, work = some (.send flight) ∧
      desk.host.apply flight.update = .ok host ∧ CopyDesk.subject flight.update = some fileId ∧
        last = { desk with host, clock := desk.clock + 1 } := by
  unfold CopyDesk.request at done
  split at done
  · rename_i flight
    split at done
    · cases done
    · obtain ⟨host, applied, done⟩ := Option.bind_eq_some_iff.mp done
      obtain ⟨id, isSubject, same⟩ := Option.bind_eq_some_iff.mp done
      cases same
      exact ⟨flight, host, rfl, Result.toOption_eq_some applied, isSubject, rfl⟩
  · cases done

theorem mkdir_path {env : CopyEnv} {desk made : CopyDesk} {target : Target} {fileId : FileId}
    (make : desk.mkdir env target = some (fileId, made)) :
    ∃ place, desk.host.tree.resolveParent target.path = .ok place := by
  obtain ⟨flight, -, isWork, -⟩ := request_work make
  obtain ⟨place, found, -⟩ := Option.bind_eq_some_iff.mp isWork
  exact ⟨place, Result.toOption_eq_some found⟩

theorem bind_finishes {α β : Type} {x : Except Halt α} {f : α → Except Halt β} (first : x ≠ .error .unfinished)
    (later : ∀ a, x = .ok a → f a ≠ .error .unfinished) : (x >>= f) ≠ .error .unfinished := by
  cases x with
  | error halt => exact fun same => first (congrArg Except.error (Except.error.inj same))
  | ok a => exact later a rfl

theorem orFail_finishes {α : Type} (found : Option α) : orFail found ≠ .error .unfinished := by
  cases found <;> simp [orFail]

theorem copyEach_finishes {copy : FileId → Target → CopyDesk → Except Halt (FileId × CopyDesk)} {destination : String}
    (each : ∀ child name desk, copy child ⟨destination, name, []⟩ desk ≠ .error .unfinished)
    (children : List (FileId × String)) (desk : CopyDesk) : copyEach copy destination children desk ≠ .error .unfinished := by
  induction children generalizing desk with
  | nil => exact nofun
  | cons child children ih =>
    obtain ⟨child, name⟩ := child
    exact bind_finishes (each child name desk) fun next _ => ih next.2

theorem copyInto_finishes (env : CopyEnv) (fuel : Nat) (nodeId : FileId) (target : Target) (desk : CopyDesk) (some : 0 < fuel)
    (enough : maxPathBytes + 1 < target.path.utf8ByteSize + fuel) :
    copyInto env fuel nodeId target desk ≠ .error .unfinished := by
  induction fuel generalizing nodeId target desk with
  | zero => exact absurd some (lt_irrefl 0)
  | succ fuel ih =>
    unfold copyInto
    refine bind_finishes (orFail_finishes _) fun node _ => ?_
    split
    · refine bind_finishes (orFail_finishes _) fun made make => ?_
      obtain ⟨place, resolved⟩ := mkdir_path (orFail_eq_ok.mp make)
      refine bind_finishes (copyEach_finishes (fun child name desk => ?_) _ _) fun _ _ => nofun
      obtain ⟨short, longer⟩ := childPath_longer resolved name
      exact ih child ⟨target.path, name, []⟩ desk (by omega) (by unfold Target.path at *; dsimp only at *; omega)
    · exact bind_finishes (orFail_finishes _) fun _ _ => orFail_finishes _

def Absent (tree : DirectoryTree) (id : FileId) : Prop := ∀ entry ∈ tree.dirents, entry.child ≠ id

/-- All that is new has one of the names in a folder, or is in a folder that is new. -/
structure Extends (folder : FileId) (names : List String) (before after : HostTree) : Prop where
  root : after.tree.expectedRoot = before.tree.expectedRoot
  kept : ∀ entry ∈ before.tree.dirents, entry ∈ after.tree.dirents
  new : ∀ entry ∈ after.tree.dirents, entry ∈ before.tree.dirents ∨
    entry.parent = folder ∧ entry.name ∈ names ∨ Absent before.tree entry.parent
  bodies : ∀ entry ∈ before.tree.dirents, after.bodies entry.child = before.bodies entry.child

namespace Extends

variable {folder inner : FileId} {names more : List String} {before between after : HostTree}

theorem absent (grown : Extends folder names before after) {id : FileId} (absent : Absent after.tree id) :
    Absent before.tree id := fun entry mem => absent entry (grown.kept entry mem)

theorem refl (host : HostTree) : Extends folder names host host :=
  ⟨rfl, fun _ mem => mem, fun _ mem => .inl mem, fun _ _ => rfl⟩

theorem trans (first : Extends folder names before between) (later : Extends folder more between after) :
    Extends folder (names ++ more) before after := by
  refine ⟨later.root.trans first.root, fun entry mem => later.kept entry (first.kept entry mem), fun entry mem => ?_,
    fun entry mem => (later.bodies entry (first.kept entry mem)).trans (first.bodies entry mem)⟩
  obtain old | ⟨here, named⟩ | absent := later.new entry mem
  · exact (first.new entry old).imp_right (Or.imp_left fun ⟨here, named⟩ => ⟨here, List.mem_append_left _ named⟩)
  · exact .inr (.inl ⟨here, List.mem_append_right _ named⟩)
  · exact .inr (.inr (first.absent absent))

theorem under (first : Extends folder names before between) (absent : Absent before.tree inner)
    (later : Extends inner more between after) : Extends folder names before after := by
  refine ⟨later.root.trans first.root, fun entry mem => later.kept entry (first.kept entry mem), fun entry mem => ?_,
    fun entry mem => (later.bodies entry (first.kept entry mem)).trans (first.bodies entry mem)⟩
  obtain old | ⟨rfl, -⟩ | absent := later.new entry mem
  · exact first.new entry old
  · exact .inr (.inr absent)
  · exact .inr (.inr (first.absent absent))

theorem entryOf (grown : Extends folder names before after) (valid : Valid after.tree) {id : FileId} {entry : Dirent}
    (found : before.tree.entryOf id = some entry) : after.tree.entryOf id = some entry := by
  obtain ⟨mem, isChild⟩ := entryOf_mem found
  exact (entryOf_eq_some valid.childUnique).mpr ⟨grown.kept entry mem, isChild⟩

theorem chain (grown : Extends folder names before after) (valid : Valid after.tree) {id : FileId} {way : List Dirent}
    (h : Chain before.tree id way) : Chain after.tree id way := by
  induction h with
  | root =>
    rw [← grown.root]
    exact .root
  | step below found _ ih => exact .step (by rwa [grown.root]) (grown.entryOf valid found) ih

theorem isDir_kept (grown : Extends folder names before after) {id : FileId} (isDir : before.tree.isDir id = true) :
    after.tree.isDir id = true := by
  rw [isDir_iff] at isDir ⊢
  obtain isRoot | ⟨entry, mem, isChild, dir⟩ := isDir
  · exact .inl (isRoot.trans grown.root.symm)
  · exact .inr ⟨entry, grown.kept entry mem, isChild, dir⟩

theorem isDir (grown : Extends folder names before after) (valid : Valid after.tree) {entry : Dirent}
    (mem : entry ∈ before.tree.dirents) : after.tree.isDir entry.child = before.tree.isDir entry.child := by
  rw [Bool.eq_iff_iff]
  refine ⟨fun isDir => ?_, grown.isDir_kept⟩
  rw [isDir_iff] at isDir ⊢
  obtain isRoot | ⟨other, there, same, dir⟩ := isDir
  · exact .inl (isRoot.trans grown.root)
  · obtain rfl := valid.childUnique there (grown.kept entry mem) same
    exact .inr ⟨other, mem, rfl, dir⟩

theorem entries (grown : Extends folder names before after) (valid : Valid before.tree) (validAfter : Valid after.tree)
    {id : FileId} (there : ¬Absent before.tree id) {name : String} (other : id ≠ folder ∨ name ∉ names) :
    after.tree.entries[direntKey id name]? = before.tree.entries[direntKey id name]? := by
  refine Option.ext fun entry => ⟨fun found => ?_, fun found => ?_⟩
  · have isKey := direntKey_inj.mp (validAfter.keyed found)
    obtain old | ⟨here, named⟩ | absent := grown.new entry (DirectoryTree.mem_dirents.mpr ⟨_, found⟩)
    · rw [mem_dirents_iff_get valid, Dirent.key, ← isKey.1, ← isKey.2] at old
      exact old
    · rw [← isKey.1] at here
      rw [← isKey.2] at named
      exact (other.elim (· here) (· named)).elim
    · exact absurd (isKey.1 ▸ absent) there
  · have isKey := direntKey_inj.mp (valid.keyed found)
    have kept := grown.kept entry (DirectoryTree.mem_dirents.mpr ⟨_, found⟩)
    rw [mem_dirents_iff_get validAfter, Dirent.key, ← isKey.1, ← isKey.2] at kept
    exact kept

end Extends

theorem extends_insertEntry {host : HostTree} {entry : Dirent} (linkable : Linkable host.tree entry)
    (bodies : FileId → Option Content) (same : ∀ id, id ≠ entry.child → bodies id = host.bodies id) :
    Extends entry.parent [entry.name] host ⟨host.tree.insertEntry entry, bodies⟩ := by
  have mem := @mem_insertEntry host.tree entry
  refine ⟨rfl, fun other old => (mem linkable.vacant).mpr (.inr old), fun other new => ?_, fun other old => ?_⟩
  · obtain rfl | old := (mem linkable.vacant).mp new
    · exact .inr (.inl ⟨rfl, List.mem_singleton_self _⟩)
    · exact .inl old
  · exact same _ (linkable.unlinked other old)

theorem storable_last {tree : DirectoryTree} {names : List String} {name : String} {place : FileId × String}
    (storable : ∀ other ∈ names, Storable other) (plain : Plain name)
    (resolved : tree.resolveParent (vaultPath (names ++ [name])) = .ok place) : Storable name := by
  obtain ⟨components, read, resolved⟩ := Result.bind_eq_ok.mp resolved
  obtain ⟨last, isLast, -⟩ := Result.bind_eq_ok.mp resolved
  rw [okOr_eq_ok] at isLast
  have present : components ≠ [] := by
    rintro rfl
    cases isLast
  obtain ⟨-, allowed, written⟩ := (pathComponents_eq_ok present).mp read
  have some : names ++ [name] ≠ [] := List.append_ne_nil_of_right_ne_nil _ (List.cons_ne_nil _ _)
  unfold Denotes at written
  rw [vaultPath_eq some, String.toList_ofList] at written
  obtain same | same := written
  · obtain ⟨-, notSlash, -⟩ := joined_head present allowed
    rw [← same] at notSlash
    exact absurd rfl notSlash
  · have parts : ∀ chars ∈ (names ++ [name]).map String.toList, '/' ∉ chars := by
      intro chars mem
      obtain ⟨other, isOther, rfl⟩ := List.mem_map.mp mem
      obtain old | last := List.mem_append.mp isOther
      · exact (storable_iff.mp (storable other old)).2.2.1
      · rw [List.mem_singleton.mp last]
        exact plain
    have split := splitOn_joined present allowed
    rw [← (List.cons.inj same).2, joined, List.splitOn_intercalate '/' parts (by simp), List.map_map] at split
    refine allowed name ?_
    rw [← split]
    exact List.mem_map.mpr ⟨name, List.mem_append_right _ List.mem_cons_self, String.ofList_toList⟩

section

variable {env : CopyEnv} {desk next : CopyDesk} {parent copy : FileId} {way : List Dirent} {name : String}

theorem resolve_place (valid : Valid desk.host.tree) (up : Chain desk.host.tree parent way)
    (isDir : desk.host.tree.isDir parent = true) (plain : Plain name) {spot : FileId × String}
    (resolved : desk.host.tree.resolveParent (Target.mk (vaultPath (namesOf way)) name []).path = .ok spot) :
    spot = (parent, name) ∧ (desk.host.tree.resolve (Target.mk (vaultPath (namesOf way)) name []).path).toOption =
      (desk.host.tree.entries[direntKey parent name]?).map Dirent.child := by
  have storable := storable_namesOf valid up
  rw [Target.path, childPath_vaultPath storable] at resolved ⊢
  have last := storable_last storable plain resolved
  have all : ∀ other ∈ namesOf way ++ [name], Storable other := by
    intro other mem
    obtain old | new := List.mem_append.mp mem
    · exact storable other old
    · rw [List.mem_singleton.mp new]
      exact last
  have present : namesOf way ++ [name] ≠ [] := List.append_ne_nil_of_right_ne_nil _ (List.cons_ne_nil _ _)
  obtain ⟨short, parents, isName⟩ := (resolveParent_vaultPath all).mp resolved
  rw [resolveParents_chain valid up isDir] at parents
  refine ⟨Prod.ext (Except.ok.inj parents).symm isName, ?_⟩
  have read := (pathComponents_eq_ok present).mpr ⟨short, all, (denotes_iff present).mpr (.inr rfl)⟩
  unfold DirectoryTree.resolve
  rw [read]
  change (desk.host.tree.resolveFrom desk.host.tree.expectedRoot (namesOf way ++ [name])).toOption = _
  rw [resolveFrom_append, resolveFrom_chain valid up]
  change (do
    let entry ← okOr desk.host.tree.entries[direntKey parent name]? (.state "path does not exist")
    pure entry.child : Result FileId).toOption = _
  cases desk.host.tree.entries[direntKey parent name]? <;> rfl

theorem mkdir_place (valid : Valid desk.host.tree) (up : Chain desk.host.tree parent way)
    (isDir : desk.host.tree.isDir parent = true) (plain : Plain name)
    (make : desk.mkdir env ⟨vaultPath (namesOf way), name, []⟩ = some (copy, next)) :
    Linkable desk.host.tree ⟨parent, name, copy, true⟩ ∧
      next = { desk with
        host := ⟨desk.host.tree.insertEntry ⟨parent, name, copy, true⟩, desk.host.bodies⟩
        clock := desk.clock + 1 } := by
  obtain ⟨flight, host, isWork, applied, isSubject, rfl⟩ := request_work make
  obtain ⟨spot, found, isWork⟩ := Option.bind_eq_some_iff.mp isWork
  obtain ⟨rfl, -⟩ := resolve_place valid up isDir plain (Result.toOption_eq_some found)
  cases isWork
  cases isSubject
  obtain ⟨tree, linked, same⟩ := Result.bind_eq_ok.mp applied
  obtain rfl := Except.ok.inj same
  obtain ⟨linkable, rfl⟩ := link_eq_ok.mp linked
  exact ⟨linkable, rfl⟩

theorem saveFile_place (valid : Valid desk.host.tree) (up : Chain desk.host.tree parent way)
    (isDir : desk.host.tree.isDir parent = true) (plain : Plain name)
    (vacant : desk.host.tree.entries[direntKey parent name]? = none) {content : Content}
    (save : desk.saveFile env ⟨vaultPath (namesOf way), name, []⟩ content = some (copy, next)) :
    Linkable desk.host.tree ⟨parent, name, copy, false⟩ ∧
      next = { desk with
        host := ⟨desk.host.tree.insertEntry ⟨parent, name, copy, false⟩, Function.update desk.host.bodies copy (some content)⟩
        stored := Function.update desk.stored copy true
        clock := desk.clock + 1 } := by
  obtain ⟨⟨fileId, sent⟩, done, same⟩ := Option.bind_eq_some_iff.mp save
  obtain ⟨flight, host, isWork, applied, isSubject, rfl⟩ := request_work done
  cases same
  obtain ⟨spot, found, isWork⟩ := Option.bind_eq_some_iff.mp isWork
  obtain ⟨rfl, nowhere⟩ := resolve_place valid up isDir plain (Result.toOption_eq_some found)
  rw [CopyDesk.task] at isWork
  dsimp only at isWork
  rw [nowhere, vacant] at isWork
  cases isWork
  cases isSubject
  obtain ⟨tree, linked, same⟩ := Result.bind_eq_ok.mp applied
  obtain rfl := Except.ok.inj same
  obtain ⟨linkable, rfl⟩ := link_eq_ok.mp linked
  exact ⟨linkable, rfl⟩

theorem saveFile_taken (valid : Valid desk.host.tree) (up : Chain desk.host.tree parent way)
    (isDir : desk.host.tree.isDir parent = true) (plain : Plain name) {entry : Dirent}
    (taken : desk.host.tree.entries[direntKey parent name]? = some entry) {content : Content}
    (save : desk.saveFile env ⟨vaultPath (namesOf way), name, []⟩ content = some (copy, next)) : copy = entry.child := by
  obtain ⟨⟨fileId, sent⟩, done, same⟩ := Option.bind_eq_some_iff.mp save
  obtain ⟨flight, host, isWork, applied, isSubject, rfl⟩ := request_work done
  cases same
  obtain ⟨spot, found, isWork⟩ := Option.bind_eq_some_iff.mp isWork
  obtain ⟨rfl, leads⟩ := resolve_place valid up isDir plain (Result.toOption_eq_some found)
  rw [CopyDesk.task] at isWork
  dsimp only at isWork
  rw [leads, taken] at isWork
  dsimp only [Option.map_some] at isWork
  split at isWork
  · cases isWork
  · cases isWork
    exact (Option.some.inj isSubject).symm

theorem fileBodies_eq_some {fileId : FileId} {content : Content} (read : desk.fileBodies env fileId = some (content, next)) :
    desk.host.bodies fileId = some content ∧
      (desk.isLocal fileId content = true ∧ next = desk ∨
        desk.isLocal fileId content = false ∧ next = { desk with
          nodes := walk desk.host.tree env.vaultName
          stored := Function.update desk.stored fileId true
          clock := desk.clock + 1 }) := by
  obtain ⟨bodies, isContent, read⟩ := Option.bind_eq_some_iff.mp read
  cases isLocal : desk.isLocal fileId bodies with
  | true =>
    rw [isLocal] at read
    cases read
    exact ⟨isContent, .inl ⟨isLocal, rfl⟩⟩
  | false =>
    rw [isLocal, if_neg Bool.false_ne_true] at read
    split at read
    · cases read
    · cases read
      exact ⟨isContent, .inr ⟨isLocal, rfl⟩⟩

end

section

variable {tree : DirectoryTree} {vaultName : String}

def jobOf (entry : Dirent) : FileId × String := (entry.child, entry.name)

/-- Of each folder that has been listed, the nodes show the entries in order, and of the others none. -/
def Blocks (tree : DirectoryTree) (listed : List FileId) (nodes : List Node) : Prop :=
  ∀ folder, copied nodes folder = if folder ∈ listed then (shownIn tree folder).map jobOf else []

theorem copied_append (front back : List Node) (folder : FileId) :
    copied (front ++ back) folder = copied front folder ++ copied back folder := by
  unfold copied siblings
  rw [List.filter_append, List.map_append]

theorem copied_nodeOf (above : List String) (listed folder : FileId) :
    copied ((shownIn tree listed).map (nodeOf above)) folder =
      if folder = listed then (shownIn tree listed).map jobOf else [] := by
  unfold copied siblings
  rw [List.filter_map, List.map_map]
  split
  · rename_i same
    rw [List.filter_eq_self.mpr]
    · rfl
    · intro entry mem
      simp [nodeOf, (mem_shownIn.mp mem).2.2.1, same]
  · rename_i other
    rw [List.filter_eq_nil_iff.mpr]
    · rfl
    · intro entry mem
      simp [nodeOf, (mem_shownIn.mp mem).2.2.1, Ne.symm other]

theorem blocks_walkLoop (valid : Valid tree) :
    ∀ (guard : Nat) (stack : List (FileId × List String)) (out : List Node) (listed : List FileId),
      Walked tree listed (stack.map Prod.fst) out → Blocks tree listed out →
        ∃ listed, Blocks tree listed (walkLoop tree guard stack out) := by
  intro guard
  induction guard with
  | zero => exact fun _ _ listed _ blocks => ⟨listed, blocks⟩
  | succ guard ih =>
    intro stack out listed walked blocks
    cases stack with
    | nil => exact ⟨listed, blocks⟩
    | cons top stack =>
      obtain ⟨folder, above⟩ := top
      have fresh : folder ∉ listed := fun mem => (List.nodup_cons.mp walked.nodup).1 (List.mem_append_right _ mem)
      refine ih _ _ (folder :: listed) ?_ fun other => ?_
      · rw [List.map_append, List.map_reverse, List.map_map]
        exact walked.step valid above
      · rw [copied_append, copied_nodeOf, blocks other]
        by_cases same : other = folder
        · rw [same, if_neg fresh, if_pos rfl, if_pos List.mem_cons_self]
          rfl
        · simp [same]

theorem blocks_walk (valid : Valid tree) (vaultName : String) : ∃ listed, Blocks tree listed (walk tree vaultName) := by
  refine blocks_walkLoop valid walkGuard _ _ [] (walked_root tree _) fun folder => ?_
  simp [copied, siblings]

theorem copied_walk (valid : Valid tree) (vaultName : String) (folder : FileId) :
    copied (walk tree vaultName) folder = (shownIn tree folder).map jobOf ∨ copied (walk tree vaultName) folder = [] := by
  obtain ⟨listed, blocks⟩ := blocks_walk valid vaultName
  rw [blocks folder]
  split
  · exact .inl rfl
  · exact .inr rfl

theorem mem_copied (valid : Valid tree) {folder child : FileId} {name : String}
    (mem : (child, name) ∈ copied (walk tree vaultName) folder) :
    ∃ entry ∈ tree.dirents, entry.name ≠ "" ∧ entry.parent = folder ∧ entry.child = child ∧ entry.name = name := by
  obtain shown | none := copied_walk valid vaultName folder
  · rw [shown] at mem
    obtain ⟨entry, isEntry, same⟩ := List.mem_map.mp mem
    cases same
    obtain ⟨there, named, parent, -⟩ := mem_shownIn.mp isEntry
    exact ⟨entry, there, named, parent, rfl, rfl⟩
  · rw [none] at mem
    cases mem

theorem nodup_names (valid : Valid tree) (folder : FileId) : ((shownIn tree folder).map Dirent.name).Nodup := by
  refine List.Nodup.map_on (fun a aMem b bMem same => ?_) (nodup_shownIn valid folder).of_map
  obtain ⟨aThere, -, aParent, -⟩ := mem_shownIn.mp aMem
  obtain ⟨bThere, -, bParent, -⟩ := mem_shownIn.mp bMem
  have aGet := (mem_dirents_iff_get valid).mp aThere
  have bGet := (mem_dirents_iff_get valid).mp bThere
  rw [Dirent.key, aParent, same] at aGet
  rw [Dirent.key, bParent] at bGet
  exact Option.some.inj (aGet.symm.trans bGet)

theorem nodup_copied (valid : Valid tree) (folder : FileId) :
    ((copied (walk tree vaultName) folder).map Prod.snd).Nodup := by
  obtain shown | none := copied_walk valid vaultName folder
  · rw [shown, List.map_map]
    exact nodup_names valid folder
  · rw [none]
    exact List.nodup_nil

theorem copied_listed (valid : Valid tree) (few : folderCount tree ≤ walkGuard) {folder : FileId}
    (below : folder ≠ tree.expectedRoot) (listed : Listed tree vaultName folder) :
    copied (walk tree vaultName) folder = (shownIn tree folder).map jobOf := by
  obtain shown | none := copied_walk valid vaultName folder
  · exact shown
  · cases entries : shownIn tree folder with
    | nil => rw [none, List.map_nil]
    | cons entry rest =>
      have isEntry : entry ∈ shownIn tree folder := by
        rw [entries]
        exact List.mem_cons_self
      obtain ⟨there, named, rfl, -⟩ := mem_shownIn.mp isEntry
      have inside := listed_inside valid few there named below listed
      obtain ⟨above, -, way⟩ := chain_parent valid there named
      obtain ⟨node, isNode, shows, -⟩ := node_of_entry valid way inside
      have isChild : (node.id, node.name) ∈ copied (walk tree vaultName) entry.parent :=
        List.mem_map_of_mem (f := fun node : Node => (node.id, node.name))
          (mem_siblings.mpr ⟨isNode, shows.2.1, Option.some_ne_none _⟩)
      rw [none] at isChild
      cases isChild

end

section

variable {env : CopyEnv} {parent copy : FileId} {way : List Dirent} {names : List String} {desk made last : CopyDesk}

theorem childPath_namesOf {tree : DirectoryTree} (valid : Valid tree) (up : Chain tree parent way) (entry : Dirent) :
    childPath (vaultPath (namesOf way)) entry.name = vaultPath (namesOf (entry :: way)) := by
  rw [childPath_vaultPath (storable_namesOf valid up), namesOf_cons]

/-- The projection of a task is the walk of some tree. -/
def CopyDesk.Shows (env : CopyEnv) (desk : CopyDesk) : Prop := ∃ tree, Valid tree ∧ desk.nodes = walk tree env.vaultName

structure Free (tree : DirectoryTree) (parent : FileId) (way : List Dirent) (names : List String) : Prop where
  valid : Valid tree
  up : Chain tree parent way
  isDir : tree.isDir parent = true
  plain : ∀ name ∈ names, Plain name
  vacant : ∀ name ∈ names, tree.entries[direntKey parent name]? = none
  nodup : names.Nodup

/-- The copies are in the folder under their names, and nothing else is new outside them. -/
structure Added (parent : FileId) (jobs : List (FileId × String)) (before : HostTree) (copies : List FileId)
    (after : HostTree) : Prop where
  valid : Valid after.tree
  grown : Extends parent (jobs.map Prod.snd) before after
  copies : List.Forall₂ (fun job copy => Absent before.tree copy ∧
    ∃ isDir, ⟨parent, job.2, copy, isDir⟩ ∈ after.tree.dirents) jobs copies

theorem not_absent (valid : Valid desk.host.tree) (isDir : desk.host.tree.isDir parent = true) :
    ¬Absent desk.host.tree parent := by
  intro absent
  obtain rfl | ⟨entry, mem, isChild, -⟩ := isDir_iff.mp isDir
  · exact absent _ (rootDirent_mem valid) rfl
  · exact absent entry mem isChild

theorem Free.later {name : String} (free : Free desk.host.tree parent way (name :: names)) {added : List String}
    (grown : Extends parent added desk.host last.host) (only : ∀ other ∈ added, other = name) (valid : Valid last.host.tree) :
    Free last.host.tree parent way names where
  valid := valid
  up := grown.chain valid free.up
  isDir := grown.isDir_kept free.isDir
  plain other mem := free.plain other (List.mem_cons_of_mem _ mem)
  vacant other mem := by
    have apart : other ∉ added := by
      intro isAdded
      rw [only other isAdded] at mem
      exact (List.nodup_cons.mp free.nodup).1 mem
    rw [grown.entries free.valid valid (not_absent free.valid free.isDir) (.inr apart)]
    exact free.vacant other (List.mem_cons_of_mem _ mem)
  nodup := (List.nodup_cons.mp free.nodup).2

theorem not_inside {tree : DirectoryTree} (valid : Valid tree) {entry : Dirent} (linkable : Linkable tree entry)
    {other : Dirent} (mem : other ∈ (tree.insertEntry entry).dirents) : other.parent ≠ entry.child := by
  have folder : tree.isDir other.parent = true := by
    obtain rfl | old := (mem_insertEntry linkable.vacant).mp mem
    · exact linkable.parent
    · exact valid.parentDir old
  intro same
  rw [same, isDir_iff] at folder
  obtain isRoot | ⟨holder, there, isHolder, -⟩ := folder
  · exact linkable.child isRoot
  · exact linkable.unlinked holder there isHolder

theorem Free.inside {name : String} (valid : Valid desk.host.tree) (up : Chain desk.host.tree parent way)
    (linkable : Linkable desk.host.tree ⟨parent, name, copy, true⟩) (shows : desk.Shows env) (folder : FileId) :
    Free (desk.host.tree.insertEntry ⟨parent, name, copy, true⟩) copy (⟨parent, name, copy, true⟩ :: way)
      ((copied desk.nodes folder).map Prod.snd) := by
  obtain ⟨tree, validTree, same⟩ := shows
  have validNext := valid_insertEntry valid linkable
  have mem := @mem_insertEntry desk.host.tree ⟨parent, name, copy, true⟩
  have here := (mem linkable.vacant).mpr (.inl rfl)
  have grown := extends_insertEntry linkable desk.host.bodies fun _ _ => rfl
  refine ⟨validNext, ?_, ?_, fun other isName => ?_, fun other _ => ?_, ?_⟩
  · exact .step linkable.child ((entryOf_eq_some validNext.childUnique).mpr ⟨here, rfl⟩) (grown.chain validNext up)
  · exact isDir_iff.mpr (.inr ⟨_, here, rfl, rfl⟩)
  · obtain ⟨⟨child, name⟩, isJob, rfl⟩ := List.mem_map.mp isName
    rw [same] at isJob
    obtain ⟨entry, there, named, -, -, rfl⟩ := mem_copied validTree isJob
    exact plain_of_validateName (validTree.named there named)
  · rw [Option.eq_none_iff_forall_ne_some]
    intro entry found
    exact not_inside valid linkable (DirectoryTree.mem_dirents.mpr ⟨_, found⟩)
      (direntKey_inj.mp (validNext.keyed found)).1.symm
  · rw [same]
    exact nodup_copied validTree folder

theorem Added.cons {nodeId : FileId} {name : String} {rest : List (FileId × String)} {before next after : HostTree}
    {copies : List FileId} {isDir : Bool} (grown : Extends parent [name] before next) (absent : Absent before.tree copy)
    (here : ⟨parent, name, copy, isDir⟩ ∈ next.tree.dirents) (later : Added parent rest next copies after) :
    Added parent ((nodeId, name) :: rest) before (copy :: copies) after where
  valid := later.valid
  grown := grown.trans later.grown
  copies := .cons ⟨absent, isDir, later.grown.kept _ here⟩
    (later.copies.imp fun _ _ ⟨absent, linked⟩ => ⟨grown.absent absent, linked⟩)

theorem Copies.added {folder : String} {jobs : List (FileId × String)} {copies : List FileId}
    (h : Copies env folder jobs desk copies last) : ∀ {parent : FileId} {way : List Dirent},
      folder = vaultPath (namesOf way) → Free desk.host.tree parent way (jobs.map Prod.snd) → desk.Shows env →
        Added parent jobs desk.host copies last.host ∧ last.Shows env := by
  induction h with
  | none folder desk =>
    intro parent way _ free shows
    exact ⟨⟨free.valid, .refl _, .nil⟩, shows⟩
  | @file folder name nodeId copy node content desk pulled saved last rest copies found isFile read save later ih =>
    intro parent way isPath free shows
    subst isPath
    obtain ⟨-, outcome⟩ := fileBodies_eq_some read
    have same : pulled.host = desk.host := by
      obtain ⟨-, rfl⟩ | ⟨-, rfl⟩ := outcome <;> rfl
    have showsPulled : pulled.Shows env := by
      obtain ⟨-, rfl⟩ | ⟨-, rfl⟩ := outcome
      · exact shows
      · exact ⟨_, free.valid, rfl⟩
    have first : name ∈ ((nodeId, name) :: rest).map Prod.snd := List.mem_cons_self
    rw [← same] at free
    obtain ⟨linkable, rfl⟩ :=
      saveFile_place free.valid free.up free.isDir (free.plain name first) (free.vacant name first) save
    have grown := extends_insertEntry linkable (Function.update pulled.host.bodies copy (some content)) fun id other =>
      Function.update_of_ne other _ _
    have valid := valid_insertEntry free.valid linkable
    obtain ⟨added, showsLast⟩ := ih rfl (free.later grown (fun _ mem => List.mem_singleton.mp mem) valid) showsPulled
    rw [← same]
    exact ⟨.cons grown linkable.unlinked ((mem_insertEntry linkable.vacant).mpr (.inl rfl)) added, showsLast⟩
  | @folder folder name nodeId copy node desk made filled last rest inner copies found isFolder make inside later ihInside
      ihLater =>
    intro parent way isPath free shows
    subst isPath
    have first : name ∈ ((nodeId, name) :: rest).map Prod.snd := List.mem_cons_self
    obtain ⟨linkable, rfl⟩ := mkdir_place free.valid free.up free.isDir (free.plain name first) make
    have grown := extends_insertEntry linkable desk.host.bodies fun _ _ => rfl
    have path := childPath_namesOf free.valid free.up ⟨parent, name, copy, true⟩
    obtain ⟨inner, showsFilled⟩ := ihInside path (Free.inside free.valid free.up linkable shows nodeId) shows
    have grown := grown.under linkable.unlinked inner.grown
    obtain ⟨added, showsLast⟩ := ihLater rfl (free.later grown (fun _ mem => List.mem_singleton.mp mem) inner.valid) showsFilled
    have here := inner.grown.kept _ ((mem_insertEntry linkable.vacant).mpr (.inl rfl))
    exact ⟨.cons grown linkable.unlinked here added, showsLast⟩

end

end QuantumFs.Client
