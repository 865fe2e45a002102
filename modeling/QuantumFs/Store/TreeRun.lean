import QuantumFs.Store.TreeInvariant
import QuantumFs.Lib.Action
import QuantumFs.Lib.Machine

/-! The directory tree as a receiver: every method runs its checks in the order of
the source and writes the tree at its end. Over any sequence of calls the tree
satisfies its invariant and is recovered from its persisted entries. -/
namespace QuantumFs.Store.DirectoryTree

open Lib

def linkTo (parent : FileId) (name : String) (child : FileId) (isDirectory : Bool) :
    Action Error DirectoryTree Unit := do
  Action.ofExcept (validateName name)
  let tree ← Action.get
  Action.require (tree.isDir parent = true) (.state "link parent is not a directory")
  Action.require (¬ (child = tree.expectedRoot ∨ (tree.entryOf child).isSome))
    (.state "file id is already linked")
  let key := direntKey parent name
  Action.require (tree.entries[key]? = none) (.state "directory name already exists")
  let parentLen ← Action.ofExcept (tree.pathLen parent)
  let separator := if parent = tree.expectedRoot then 0 else 1
  Action.require (parentLen + separator + name.utf8ByteSize ≤ maxPathBytes)
    (.invalidInput "path exceeds 4096 bytes")
  Action.modify fun tree =>
    { tree with entries := tree.entries.insert key { parent, name, child, isDir := isDirectory } }

def unlinkFrom (parent : FileId) (name : String) : Action Error DirectoryTree FileId := do
  Action.ofExcept (validateName name)
  let tree ← Action.get
  let key := direntKey parent name
  let entry ← Action.ofExcept
    (okOr tree.entries[key]? (.state "directory entry does not exist"))
  Action.require
    (¬ (entry.isDir = true ∧ tree.dirents.any (fun child => child.parent == entry.child)))
    (.state "directory is not empty")
  Action.modify fun tree => { tree with entries := tree.entries.erase key }
  pure entry.child

def renameTo (srcParent : FileId) (srcName : String) (dstParent : FileId) (dstName : String) :
    Action Error DirectoryTree Unit := do
  Action.ofExcept (validateName srcName)
  Action.ofExcept (validateName dstName)
  let tree ← Action.get
  Action.require (tree.isDir dstParent = true) (.state "rename destination is not a directory")
  let sourceKey := direntKey srcParent srcName
  let destinationKey := direntKey dstParent dstName
  if sourceKey = destinationKey then
    Action.require (tree.entries[sourceKey]? ≠ none) (.state "rename source does not exist")
  else
    Action.require (tree.entries[destinationKey]? = none)
      (.state "rename destination already exists")
    let entry ← Action.ofExcept
      (okOr tree.entries[sourceKey]? (.state "rename source does not exist"))
    Action.require (entry.name ≠ "") (.invalidInput "cannot rename the vault root")
    Action.require (¬ (entry.isDir = true ∧ tree.isDescendant dstParent entry.child = true))
      (.state "cannot move a directory into its descendant")
    let moved : Dirent := { entry with parent := dstParent, name := dstName }
    let staged : DirectoryTree :=
      { tree with entries := (tree.entries.erase sourceKey).insert destinationKey moved }
    Action.ofExcept staged.validateGraph
    Action.modify fun _ => staged

def removeIdFrom (fileId : FileId) : Action Error DirectoryTree Unit := do
  let tree ← Action.get
  Action.require (fileId ≠ tree.expectedRoot) (.invalidInput "cannot remove the vault root")
  match tree.entries.toList.find? fun (_, entry) => entry.child == fileId with
  | none => pure ()
  | some (key, _) => do
      let _ ← unlinkFrom (ofLex key).1 (ofLex key).2

/-- A call that returns a tree writes it; one that fails writes nothing. -/
def receive {α β : Type} (value : β → α) (next : β → DirectoryTree) (outcome : Result β) :
    Action Error DirectoryTree α := fun tree =>
  match outcome with
  | .ok b => (.ok (value b), next b)
  | .error error => (.error error, tree)

section

variable {α β γ : Type} {value : β → α} {next : β → DirectoryTree} {tree : DirectoryTree}

private theorem receive_ofExcept {x : Result γ} {f : γ → Result β}
    {g : γ → Action Error DirectoryTree α} (rest : ∀ c, g c tree = receive value next (f c) tree) :
    (Action.ofExcept x >>= g) tree = receive value next (x >>= f) tree := by
  cases x with
  | error e => rfl
  | ok c => exact rest c

private theorem receive_require {p : Prop} [Decidable p] {e : Error} {f : Unit → Result β}
    {g : Unit → Action Error DirectoryTree α} (rest : g () tree = receive value next (f ()) tree) :
    (Action.require p e >>= g) tree = receive value next (ensure p e >>= f) tree := by
  unfold Action.require ensure
  by_cases h : p
  · simp only [if_pos h]
    exact rest
  · simp only [if_neg h]
    rfl

end

theorem linkTo_eq (parent : FileId) (name : String) (child : FileId) (isDirectory : Bool)
    (tree : DirectoryTree) : linkTo parent name child isDirectory tree =
      receive (fun _ => ()) id (tree.link parent name child isDirectory) tree := by
  unfold linkTo link
  refine receive_ofExcept fun _ => ?_
  change (Action.require _ _ >>= _) tree = _
  refine receive_require (receive_require (receive_require (receive_ofExcept fun _ => ?_)))
  exact receive_require rfl

theorem unlinkFrom_eq (parent : FileId) (name : String) (tree : DirectoryTree) :
    unlinkFrom parent name tree = receive Prod.fst Prod.snd (tree.unlink parent name) tree := by
  unfold unlinkFrom unlink
  refine receive_ofExcept fun _ => ?_
  change (Action.ofExcept _ >>= _) tree = _
  exact receive_ofExcept fun _ => receive_require rfl

theorem renameTo_eq (srcParent : FileId) (srcName : String) (dstParent : FileId) (dstName : String)
    (tree : DirectoryTree) : renameTo srcParent srcName dstParent dstName tree =
      receive (fun _ => ()) id (tree.rename srcParent srcName dstParent dstName) tree := by
  unfold renameTo rename
  refine receive_ofExcept fun _ => receive_ofExcept fun _ => ?_
  change (Action.require _ _ >>= _) tree = _
  refine receive_require ?_
  dsimp only
  split
  · unfold Action.require ensure
    split
    · rfl
    · rfl
  · refine receive_require (receive_ofExcept fun _ => receive_require (receive_require ?_))
    exact receive_ofExcept fun _ => rfl

theorem removeIdFrom_eq (fileId : FileId) (tree : DirectoryTree) :
    removeIdFrom fileId tree = receive (fun _ => ()) id (tree.removeId fileId) tree := by
  unfold removeIdFrom removeId
  change (Action.require _ _ >>= _) tree = _
  refine receive_require ?_
  dsimp only
  generalize tree.entries.toList.find? (fun (_, entry) => entry.child == fileId) = found
  cases found with
  | none => rfl
  | some linked =>
    have unlinked := unlinkFrom_eq (ofLex linked.1).1 (ofLex linked.1).2 tree
    change (unlinkFrom (ofLex linked.1).1 (ofLex linked.1).2 >>= fun _ => pure ()) tree = _
    rw [Action.bind_apply, unlinked]
    dsimp only
    cases tree.unlink (ofLex linked.1).1 (ofLex linked.1).2 with
    | error e => rfl
    | ok result => rfl

inductive TreeOp where
  | link (parent : FileId) (name : String) (child : FileId) (isDirectory : Bool)
  | unlink (parent : FileId) (name : String)
  | rename (srcParent : FileId) (srcName : String) (dstParent : FileId) (dstName : String)
  | removeId (fileId : FileId)

def TreeOp.perform (tree : DirectoryTree) : TreeOp → Result Unit × DirectoryTree
  | .link parent name child isDirectory => linkTo parent name child isDirectory tree
  | .unlink parent name =>
    let outcome := unlinkFrom parent name tree
    (outcome.1.map fun _ => (), outcome.2)
  | .rename srcParent srcName dstParent dstName => renameTo srcParent srcName dstParent dstName tree
  | .removeId fileId => removeIdFrom fileId tree

def treeMachine : Machine DirectoryTree TreeOp := ⟨fun op tree => (op.perform tree).2⟩

/-- The tree that an accepted call returns. -/
def TreeOp.next (tree : DirectoryTree) : TreeOp → Result DirectoryTree
  | .link parent name child isDirectory => tree.link parent name child isDirectory
  | .unlink parent name => (tree.unlink parent name).map Prod.snd
  | .rename srcParent srcName dstParent dstName => tree.rename srcParent srcName dstParent dstName
  | .removeId fileId => tree.removeId fileId

theorem perform_eq (op : TreeOp) (tree : DirectoryTree) :
    op.perform tree = receive (fun _ => ()) id (op.next tree) tree := by
  cases op with
  | link parent name child isDirectory => exact linkTo_eq parent name child isDirectory tree
  | unlink parent name =>
    rw [TreeOp.perform, TreeOp.next, unlinkFrom_eq]
    cases tree.unlink parent name with
    | error e => rfl
    | ok result => rfl
  | rename srcParent srcName dstParent dstName =>
    exact renameTo_eq srcParent srcName dstParent dstName tree
  | removeId fileId => exact removeIdFrom_eq fileId tree

theorem perform_error {op : TreeOp} {tree : DirectoryTree} {error : Error}
    (rejected : (op.perform tree).1 = .error error) : (op.perform tree).2 = tree := by
  rw [perform_eq] at rejected ⊢
  cases returned : op.next tree with
  | error e => rfl
  | ok next =>
    rw [returned] at rejected
    cases rejected

theorem perform_ok {op : TreeOp} {tree : DirectoryTree} (accepted : (op.perform tree).1 = .ok ()) :
    op.next tree = .ok (op.perform tree).2 := by
  rw [perform_eq] at accepted ⊢
  cases returned : op.next tree with
  | ok next => rfl
  | error e =>
    rw [returned] at accepted
    cases accepted

variable {tree : DirectoryTree}

theorem unlink_expectedRoot (valid : Valid tree) {parent child : FileId} {name : String}
    {next : DirectoryTree} (h : tree.unlink parent name = .ok (child, next)) :
    next.expectedRoot = tree.expectedRoot := by
  obtain ⟨entry, -, -, -, -, -, rfl⟩ := (unlink_eq_ok valid).mp h
  rfl

theorem valid_next (valid : Valid tree) {op : TreeOp} {next : DirectoryTree}
    (accepted : op.next tree = .ok next) : Valid next ∧ next.expectedRoot = tree.expectedRoot := by
  cases op with
  | link parent name child isDirectory =>
    refine ⟨valid_link valid accepted, ?_⟩
    obtain ⟨-, rfl⟩ := link_eq_ok.mp accepted
    rfl
  | unlink parent name =>
    rw [TreeOp.next] at accepted
    cases unlinked : tree.unlink parent name with
    | error e =>
      rw [unlinked] at accepted
      cases accepted
    | ok result =>
      rw [unlinked] at accepted
      cases accepted
      exact ⟨valid_unlink valid unlinked, unlink_expectedRoot valid unlinked⟩
  | rename srcParent srcName dstParent dstName =>
    refine ⟨valid_rename valid accepted, ?_⟩
    obtain rfl | ⟨entry, -, -, -, -, rfl, -⟩ := rename_cases valid accepted
    · rfl
    · rfl
  | removeId fileId =>
    refine ⟨valid_removeId valid accepted, ?_⟩
    obtain ⟨-, ⟨rfl, -⟩ | ⟨parent, name, unlinked⟩⟩ := removeId_cases valid accepted
    · rfl
    · exact unlink_expectedRoot valid unlinked

theorem perform_valid (valid : Valid tree) (op : TreeOp) :
    Valid (op.perform tree).2 ∧ (op.perform tree).2.expectedRoot = tree.expectedRoot := by
  cases result : (op.perform tree).1 with
  | error error =>
    rw [perform_error result]
    exact ⟨valid, rfl⟩
  | ok _ => exact valid_next valid (perform_ok result)

theorem run_valid (root : FileId) (ops : List TreeOp) :
    Valid (treeMachine.run ops (new root)) ∧ (treeMachine.run ops (new root)).expectedRoot = root := by
  refine treeMachine.run_invariant (I := fun tree => Valid tree ∧ tree.expectedRoot = root)
    (fun tree op known => ?_) ops (new root) ⟨valid_new root, rfl⟩
  obtain ⟨valid, sameRoot⟩ := perform_valid known.1 op
  exact ⟨valid, sameRoot.trans known.2⟩

/-- The way from a child to the root passes a directory. -/
def Below (tree : DirectoryTree) (child ancestor : FileId) : Prop :=
  ∃ chain, Chain tree child chain ∧ ancestor ∈ chain.map Dirent.child

theorem Below.transfer {other : DirectoryTree} {moved child : FileId}
    (root : other.expectedRoot = tree.expectedRoot)
    (same : ∀ id, id ≠ moved → other.entryOf id = tree.entryOf id)
    (arrives : ∃ chain, Chain other moved chain) (notRoot : moved ≠ tree.expectedRoot)
    (below : Below tree child moved) : Below other child moved := by
  obtain ⟨chain, isChain, mem⟩ := below
  induction isChain with
  | root => simp at mem
  | @step child entry rest notTop found above ih =>
    have isChild := (entryOf_mem found).2
    by_cases here : child = moved
    · subst here
      obtain ⟨whole, arrives⟩ := arrives
      refine ⟨whole, arrives, ?_⟩
      cases arrives with
      | root => exact absurd root.symm (fun h => notRoot h.symm)
      | step _ first _ => exact List.mem_map.mpr ⟨_, List.mem_cons_self, (entryOf_mem first).2⟩
    · rw [List.map_cons, List.mem_cons, isChild] at mem
      obtain same | later := mem
      · exact absurd same.symm here
      · obtain ⟨whole, isWhole, passes⟩ := ih later
        refine ⟨entry :: whole, .step (by rwa [root]) (by rw [same child here, found]) isWhole, ?_⟩
        exact List.mem_cons_of_mem _ passes

theorem rename_moves (valid : Valid tree) {srcParent dstParent : FileId} {srcName dstName : String}
    {next : DirectoryTree} (accepted : tree.rename srcParent srcName dstParent dstName = .ok next) :
    (direntKey srcParent srcName = direntKey dstParent dstName ∧ next = tree) ∨
      ∃ entry, tree.entries[direntKey srcParent srcName]? = some entry ∧
        next.entries = (tree.entries.erase (direntKey srcParent srcName)).insert
          (direntKey dstParent dstName) { entry with parent := dstParent, name := dstName } ∧
        ∀ child, Below next child entry.child ↔ Below tree child entry.child := by
  have validNext := valid_rename valid accepted
  simp only [rename, Result.bind_eq_ok, ensure_eq_ok] at accepted
  obtain ⟨_, _, _, dstOk, _, _, accepted⟩ := accepted
  split at accepted
  · rename_i same
    obtain ⟨_, _, result⟩ := Result.bind_eq_ok.mp accepted
    exact .inl ⟨same, (Except.ok.inj result).symm⟩
  · rename_i different
    simp only [Result.bind_eq_ok, okOr_eq_ok, ensure_eq_ok] at accepted
    obtain ⟨_, vacant, entry, found, _, named, _, _, _, _, result⟩ := accepted
    let moved : Dirent := { entry with parent := dstParent, name := dstName }
    let staged := (tree.entries.erase (direntKey srcParent srcName)).insert
      (direntKey dstParent dstName) moved
    have isNext : next = { tree with entries := staged } := (Except.ok.inj result).symm
    refine .inr ⟨entry, found, by rw [isNext], fun child => ?_⟩
    have mem : entry ∈ tree.dirents := mem_dirents.mpr ⟨_, found⟩
    have movedMem : moved ∈ next.dirents := by
      rw [isNext]
      exact mem_dirents.mpr ⟨direntKey dstParent dstName, by rw [Map.get_insert, if_pos rfl]⟩
    have notRoot : entry.child ≠ tree.expectedRoot := fun root =>
      named ((valid.child_eq_root mem).mp root)
    have sameRoot : next.expectedRoot = tree.expectedRoot := by rw [isNext]
    have others : ∀ other : Dirent, other.child ≠ entry.child →
        (other ∈ next.dirents ↔ other ∈ tree.dirents) := by
      intro other differs
      rw [isNext, mem_dirents, mem_dirents]
      constructor
      · rintro ⟨key, get⟩
        rw [Map.get_insert] at get
        split at get
        · cases get
          exact absurd rfl differs
        · rw [Map.get_erase] at get
          split at get
          · cases get
          · exact ⟨key, get⟩
      · rintro ⟨key, get⟩
        refine ⟨key, ?_⟩
        rw [Map.get_insert_ne, Map.get_erase_ne, get]
        · rintro rfl
          rw [found] at get
          cases get
          exact differs rfl
        · rintro rfl
          rw [vacant] at get
          cases get
    have sameEntries : ∀ id, id ≠ entry.child → next.entryOf id = tree.entryOf id := by
      intro id differs
      apply Option.ext
      intro other
      rw [entryOf_eq_some validNext.childUnique, entryOf_eq_some valid.childUnique]
      constructor
      · rintro ⟨otherMem, rfl⟩
        exact ⟨(others other differs).mp otherMem, rfl⟩
      · rintro ⟨otherMem, rfl⟩
        exact ⟨(others other differs).mpr otherMem, rfl⟩
    have arrives : ∃ chain, Chain next entry.child chain :=
      let ⟨chain, isChain, _⟩ := validNext.reachable movedMem
      ⟨chain, isChain⟩
    have departs : ∃ chain, Chain tree entry.child chain :=
      let ⟨chain, isChain, _⟩ := valid.reachable mem
      ⟨chain, isChain⟩
    constructor
    · exact Below.transfer sameRoot.symm (fun id differs => (sameEntries id differs).symm) departs
        (by rwa [sameRoot])
    · exact Below.transfer sameRoot sameEntries arrives notRoot

theorem mem_dirents_rename (valid : Valid tree) {srcParent dstParent : FileId} {srcName dstName : String}
    {next : DirectoryTree} (accepted : tree.rename srcParent srcName dstParent dstName = .ok next) :
    ∃ entry ∈ tree.dirents, entry.key = direntKey srcParent srcName ∧ ∀ other, other ∈ next.dirents ↔
      other = { entry with parent := dstParent, name := dstName } ∨
        other ∈ tree.dirents ∧ other.key ≠ direntKey srcParent srcName := by
  have vacant : direntKey srcParent srcName ≠ direntKey dstParent dstName →
      tree.entries[direntKey dstParent dstName]? = none := by
    intro different
    simp only [rename, Result.bind_eq_ok, ensure_eq_ok, if_neg different] at accepted
    obtain ⟨_, _, _, _, _, _, _, vacant, _⟩ := accepted
    exact vacant
  have present : direntKey srcParent srcName = direntKey dstParent dstName →
      tree.entries[direntKey srcParent srcName]? ≠ none := by
    intro same
    simp only [rename, Result.bind_eq_ok, ensure_eq_ok, if_pos same] at accepted
    obtain ⟨_, _, _, _, _, _, _, present, _⟩ := accepted
    exact present
  obtain ⟨same, rfl⟩ | ⟨entry, found, entries, _⟩ := rename_moves valid accepted
  · obtain ⟨entry, found⟩ := Option.ne_none_iff_exists'.mp (present same)
    have key := valid.keyed found
    obtain ⟨parent, name⟩ := direntKey_inj.mp (same.symm.trans key)
    refine ⟨entry, mem_dirents.mpr ⟨_, found⟩, key.symm, fun other => ?_⟩
    rw [parent, name]
    constructor
    · intro mem
      by_cases here : other.key = direntKey srcParent srcName
      · have get := (mem_dirents_iff_get valid).mp mem
        rw [here, found] at get
        exact .inl (Option.some.inj get).symm
      · exact .inr ⟨mem, here⟩
    · rintro (rfl | ⟨mem, _⟩)
      · exact mem_dirents.mpr ⟨_, found⟩
      · exact mem
  · refine ⟨entry, mem_dirents.mpr ⟨_, found⟩, (valid.keyed found).symm, fun other => ?_⟩
    rw [mem_dirents_iff_get (valid_rename valid accepted), entries, Map.get_insert]
    constructor
    · intro get
      split at get
      · exact .inl (Option.some.inj get).symm
      · rw [Map.get_erase] at get
        split at get
        · cases get
        · rename_i different
          exact .inr ⟨mem_dirents.mpr ⟨_, get⟩, Ne.symm different⟩
    · rintro (rfl | ⟨mem, different⟩)
      · exact if_pos rfl
      · have get := (mem_dirents_iff_get valid).mp mem
        rw [if_neg, Map.get_erase_ne _ different.symm, get]
        intro same
        have moves : direntKey srcParent srcName ≠ direntKey dstParent dstName := fun noMove =>
          different (same.symm.trans noMove.symm)
        have empty := vacant moves
        rw [same, get] at empty
        cases empty

/-- Over every sequence of calls, accepted or rejected, the tree satisfies its invariant:
a rejected call leaves it unchanged, and an accepted rename changes the key of the moved
entry alone. -/
theorem tree_representation (root : FileId) (ops : List TreeOp) :
    let tree := treeMachine.run ops (new root)
    Valid tree ∧ tree.expectedRoot = root ∧
      (∀ (op : TreeOp) (error : Error), (op.perform tree).1 = .error error →
        (op.perform tree).2 = tree) ∧
      ∀ (srcParent : FileId) (srcName : String) (dstParent : FileId) (dstName : String),
        let renamed := TreeOp.perform tree (.rename srcParent srcName dstParent dstName)
        renamed.1 = .ok () →
        (direntKey srcParent srcName = direntKey dstParent dstName ∧ renamed.2 = tree) ∨
          ∃ entry, tree.entries[direntKey srcParent srcName]? = some entry ∧
            renamed.2.entries = (tree.entries.erase (direntKey srcParent srcName)).insert
              (direntKey dstParent dstName) { entry with parent := dstParent, name := dstName } ∧
            ∀ child, Below renamed.2 child entry.child ↔ Below tree child entry.child := by
  intro tree
  obtain ⟨valid, sameRoot⟩ := run_valid root ops
  refine ⟨valid, sameRoot, fun _ _ => perform_error, ?_⟩
  intro srcParent srcName dstParent dstName renamed accepted
  exact rename_moves valid (perform_ok accepted)

/-- A tree is persisted exactly: every reachable tree is read back, and a list of entries
is read if and only if it lists, in the order of its keys, a tree that satisfies the
invariant. -/
theorem tree_persistence (root : FileId) :
    (∀ ops : List TreeOp, fromDirents root (treeMachine.run ops (new root)).dirents =
      .ok (treeMachine.run ops (new root))) ∧
    ∀ entries : List Dirent, entries ≠ [] →
      ((∃ tree, fromDirents root entries = .ok tree) ↔
        (entries.Pairwise fun a b => a.key < b.key) ∧
          ∃ tree, Valid tree ∧ tree.expectedRoot = root ∧
            ∀ entry, entry ∈ entries ↔ entry ∈ tree.dirents) ∧
      ∀ tree, fromDirents root entries = .ok tree → Valid tree ∧ tree.dirents = entries := by
  refine ⟨fun ops => ?_, fun entries present => ⟨⟨?_, ?_⟩, fun tree loaded => ?_⟩⟩
  · obtain ⟨valid, sameRoot⟩ := run_valid root ops
    have back := fromDirents_dirents valid
    rwa [sameRoot] at back
  · rintro ⟨tree, loaded⟩
    obtain ⟨same, sorted⟩ := dirents_of_fromDirents present loaded
    obtain ⟨valid, sameRoot⟩ := valid_of_fromDirents present loaded
    exact ⟨sorted, tree, valid, sameRoot, fun entry => by rw [same]⟩
  · rintro ⟨sorted, tree, valid, sameRoot, sameEntries⟩
    have irreflexive : Std.Irrefl fun a b : Dirent => a.key < b.key := ⟨fun a => lt_irrefl a.key⟩
    have antisymmetric : Std.Antisymm fun a b : Dirent => a.key < b.key :=
      ⟨fun a b less more => absurd (less.trans more) (lt_irrefl a.key)⟩
    have listing : entries = tree.dirents :=
      List.Pairwise.eq_of_mem_iff sorted (dirents_sorted valid) sameEntries
    have back := fromDirents_dirents valid
    rw [sameRoot, ← listing] at back
    exact ⟨tree, back⟩
  · exact ⟨(valid_of_fromDirents present loaded).1, (dirents_of_fromDirents present loaded).1⟩

end QuantumFs.Store.DirectoryTree
