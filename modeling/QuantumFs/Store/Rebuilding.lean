import QuantumFs.Lib.Passes
import QuantumFs.Store.TreeInvariant

/-! A tree is rebuilt from the empty one by its own links, in any order that links a
directory before what it holds. -/
namespace QuantumFs.Store.DirectoryTree

open Lib

def hasDir (directories : OrdSet FileId) (fileId : FileId) : Bool := decide (fileId ∈ directories)

def learnDir (directories : OrdSet FileId) (entry : Dirent) : OrdSet FileId :=
  if entry.isDir then directories.insert entry.child else directories

def givesDir (entry : Dirent) (fileId : FileId) : Prop := entry.isDir = true ∧ entry.child = fileId

theorem dirs_lawful : Passes.Lawful hasDir learnDir givesDir where
  keeps := by
    intro directories entry fileId known
    unfold hasDir learnDir at *
    split
    · exact decide_eq_true ((OrdSet.mem_insert _ _ _).mpr (.inr (of_decide_eq_true known)))
    · exact known
  learns := by
    rintro directories entry fileId ⟨isDir, rfl⟩
    unfold hasDir learnDir
    rw [if_pos isDir]
    exact decide_eq_true ((OrdSet.mem_insert _ _ _).mpr (.inl rfl))

/-- The entries of a tree besides its root. -/
def links (tree : DirectoryTree) : List Dirent := tree.dirents.filter fun entry => entry.name ≠ ""

def linkEntry (tree : DirectoryTree) (entry : Dirent) : Result DirectoryTree :=
  tree.link entry.parent entry.name entry.child entry.isDir

/-- Every order in which each directory comes before its entries. -/
def LinkOrder (directories : OrdSet FileId) (entries : List Dirent) : Prop :=
  Passes.Ordered hasDir learnDir Dirent.parent directories entries

structure Part (part tree : DirectoryTree) : Prop where
  valid : Valid part
  root : part.expectedRoot = tree.expectedRoot
  entries : ∀ entry ∈ part.dirents, entry ∈ tree.dirents

variable {tree part : DirectoryTree}

theorem mem_links {entry : Dirent} : entry ∈ tree.links ↔ entry ∈ tree.dirents ∧ entry.name ≠ "" := by
  unfold links
  rw [List.mem_filter, decide_eq_true_eq]

theorem dirents_nodup (valid : Valid tree) : tree.dirents.Nodup :=
  (dirents_sorted valid).imp fun less same => ne_of_lt less (congrArg Dirent.key same)

theorem ext_dirents (valid : Valid tree) {other : DirectoryTree} (validOther : Valid other)
    (root : other.expectedRoot = tree.expectedRoot)
    (same : ∀ entry, entry ∈ other.dirents ↔ entry ∈ tree.dirents) : other = tree := by
  have entries : other.entries = tree.entries := by
    refine Map.ext_get fun key => Option.ext fun entry => ?_
    constructor
    · intro found
      rw [validOther.keyed found]
      exact (mem_dirents_iff_get valid).mp ((same entry).mp (mem_dirents.mpr ⟨key, found⟩))
    · intro found
      rw [valid.keyed found]
      exact (mem_dirents_iff_get validOther).mp ((same entry).mpr (mem_dirents.mpr ⟨key, found⟩))
  cases tree
  cases other
  cases root
  cases entries
  rfl

theorem links_grounded (valid : Valid tree) : ∀ entry ∈ tree.links,
    Passes.Grounded hasDir Dirent.parent givesDir ((∅ : OrdSet FileId).insert tree.expectedRoot)
      tree.links entry := by
  -- Induction on the way from the parent to the root.
  have above : ∀ {parent : FileId} {chain : List Dirent}, Chain tree parent chain →
      ∀ entry ∈ tree.links, entry.parent = parent → Passes.Grounded hasDir Dirent.parent givesDir
        ((∅ : OrdSet FileId).insert tree.expectedRoot) tree.links entry := by
    intro parent chain way
    induction way with
    | root =>
      intro entry mem isRoot
      refine .start (decide_eq_true ?_)
      rw [isRoot]
      exact (OrdSet.mem_insert _ _ _).mpr (.inl rfl)
    | @step parent holder rest below found _ ih =>
      intro entry mem isParent
      obtain ⟨holderMem, isChild⟩ := entryOf_mem found
      have named : holder.name ≠ "" := by
        rw [← isChild] at below
        exact fun nameless => below ((valid.child_eq_root holderMem).mpr nameless)
      have isDir : holder.isDir = true := by
        obtain isRoot | ⟨other, otherMem, same, isDir⟩ :=
          isDir_iff.mp (valid.parentDir (mem_links.mp mem).1)
        · exact absurd (isParent.symm.trans isRoot) below
        · rw [← valid.childUnique otherMem holderMem (same.trans (isParent.trans isChild.symm))]
          exact isDir
      have holderLink := mem_links.mpr ⟨holderMem, named⟩
      exact .after holderLink ⟨isDir, isChild.trans isParent.symm⟩ (ih holder holderLink rfl)
  intro entry mem
  obtain isRoot | ⟨holder, holderMem, same, -⟩ := isDir_iff.mp (valid.parentDir (mem_links.mp mem).1)
  · exact above .root entry mem isRoot
  · obtain ⟨chain, way, -⟩ := valid.reachable holderMem
    exact above way entry mem same.symm

theorem Part.linkable (isPart : Part part tree) (valid : Valid tree) {entry : Dirent}
    (mem : entry ∈ tree.links) (fresh : entry ∉ part.dirents) (parent : part.isDir entry.parent = true) :
    Linkable part entry := by
  obtain ⟨mem, named⟩ := mem_links.mp mem
  have below : entry.child ≠ tree.expectedRoot :=
    fun isRoot => named ((valid.child_eq_root mem).mp isRoot)
  refine ⟨valid.named mem named, parent, isPart.root ▸ below, fun other otherMem same => ?_, ?_, ?_⟩
  · exact fresh (valid.childUnique (isPart.entries other otherMem) mem same ▸ otherMem)
  · cases found : part.entries[entry.key]? with
    | none => rfl
    | some other =>
      have otherMem : other ∈ part.dirents := mem_dirents.mpr ⟨_, found⟩
      have here := (mem_dirents_iff_get valid).mp (isPart.entries other otherMem)
      rw [← isPart.valid.keyed found, (mem_dirents_iff_get valid).mp mem] at here
      exact absurd (Option.some.inj here ▸ otherMem) fresh
  · have way : ∃ chain, Chain part entry.parent chain := by
      obtain isRoot | ⟨holder, holderMem, same, -⟩ := isDir_iff.mp parent
      · exact ⟨[], isRoot ▸ .root⟩
      · obtain ⟨chain, way, -⟩ := isPart.valid.reachable holderMem
        exact ⟨chain, same ▸ way⟩
    obtain ⟨chain, way⟩ := way
    refine ⟨chain, way, ?_⟩
    have whole : Chain tree entry.parent chain := by
      refine way.congr isPart.root.symm fun other otherMem => ?_
      have inPart := way.mem_dirents otherMem
      rw [(entryOf_eq_some valid.childUnique).mpr ⟨isPart.entries other inPart, rfl⟩,
        (entryOf_eq_some isPart.valid.childUnique).mpr ⟨inPart, rfl⟩]
    obtain ⟨longer, way', short⟩ := valid.reachable mem
    have found : tree.entryOf entry.child = some entry :=
      (entryOf_eq_some valid.childUnique).mpr ⟨mem, rfl⟩
    rw [way'.unique (.step below found whole)] at short
    exact short

theorem Part.linkEntry (isPart : Part part tree) (valid : Valid tree) {entry : Dirent}
    (mem : entry ∈ tree.links) (fresh : entry ∉ part.dirents) (parent : part.isDir entry.parent = true) :
    part.linkEntry entry = .ok (part.insertEntry entry) ∧ Part (part.insertEntry entry) tree ∧
      ∀ other, other ∈ (part.insertEntry entry).dirents ↔ other = entry ∨ other ∈ part.dirents := by
  have linkable := isPart.linkable valid mem fresh parent
  have inserted := @mem_insertEntry part entry
  refine ⟨link_eq_ok.mpr ⟨linkable, rfl⟩, ⟨valid_insertEntry isPart.valid linkable, isPart.root,
    fun other otherMem => ?_⟩, fun other => inserted linkable.vacant⟩
  obtain rfl | old := (inserted linkable.vacant).mp otherMem
  · exact (mem_links.mp mem).1
  · exact isPart.entries other old

theorem Part.foldlM (valid : Valid tree) {entries : List Dirent} :
    ∀ {part : DirectoryTree} {directories : OrdSet FileId}, Part part tree →
      (∀ fileId ∈ directories, part.isDir fileId = true) → LinkOrder directories entries →
      entries.Nodup → (∀ entry ∈ entries, entry ∈ tree.links ∧ entry ∉ part.dirents) →
      ∃ whole, entries.foldlM DirectoryTree.linkEntry part = .ok whole ∧ Part whole tree ∧
        ∀ other, other ∈ whole.dirents ↔ other ∈ entries ∨ other ∈ part.dirents := by
  induction entries with
  | nil =>
    intro part directories isPart _ _ _ _
    exact ⟨part, rfl, isPart, fun other => by simp only [List.not_mem_nil, false_or]⟩
  | cons entry rest ih =>
    intro part directories isPart known ordered nodup left
    obtain ⟨ready, ordered⟩ := ordered
    obtain ⟨apart, nodup⟩ := List.nodup_cons.mp nodup
    obtain ⟨mem, fresh⟩ := left entry List.mem_cons_self
    have parent := known entry.parent (of_decide_eq_true ready)
    obtain ⟨linked, isPartNext, mems⟩ := isPart.linkEntry valid mem fresh parent
    have knownNext : ∀ fileId ∈ learnDir directories entry,
        (part.insertEntry entry).isDir fileId = true := by
      have keeps : ∀ fileId, part.isDir fileId = true → (part.insertEntry entry).isDir fileId = true := by
        intro fileId isDir
        refine isDir_iff.mpr ((isDir_iff.mp isDir).imp id ?_)
        rintro ⟨holder, holderMem, same⟩
        exact ⟨holder, (mems holder).mpr (.inr holderMem), same⟩
      intro fileId fileMem
      unfold learnDir at fileMem
      split at fileMem
      · rename_i isDir
        obtain rfl | old := (OrdSet.mem_insert _ _ _).mp fileMem
        · exact isDir_iff.mpr (.inr ⟨entry, (mems entry).mpr (.inl rfl), rfl, isDir⟩)
        · exact keeps fileId (known fileId old)
      · exact keeps fileId (known fileId fileMem)
    obtain ⟨whole, done, isWhole, wholeMems⟩ := ih isPartNext knownNext ordered nodup fun other otherMem => by
      obtain ⟨otherLink, otherFresh⟩ := left other (List.mem_cons_of_mem _ otherMem)
      refine ⟨otherLink, fun inserted => ?_⟩
      obtain rfl | old := (mems other).mp inserted
      · exact apart otherMem
      · exact otherFresh old
    refine ⟨whole, ?_, isWhole, fun other => ?_⟩
    · rw [List.foldlM_cons, linked]
      exact done
    · rw [wholeMems, mems, List.mem_cons, or_left_comm, or_assoc]

theorem part_new (valid : Valid tree) : Part (new tree.expectedRoot) tree ∧
    ∀ entry, entry ∈ (new tree.expectedRoot).dirents ↔ entry = rootDirent tree.expectedRoot := by
  have only : ∀ entry, entry ∈ (new tree.expectedRoot).dirents ↔ entry = rootDirent tree.expectedRoot := by
    intro entry
    rw [mem_dirents]
    constructor
    · rintro ⟨key, found⟩
      rw [new, Map.get_insert] at found
      split at found
      · exact (Option.some.inj found).symm
      · simp at found
    · rintro rfl
      exact ⟨direntKey tree.expectedRoot "", by simp [new]⟩
  refine ⟨⟨valid_new tree.expectedRoot, rfl, fun entry mem => ?_⟩, only⟩
  rw [(only entry).mp mem]
  exact rootDirent_mem valid

theorem rebuild (valid : Valid tree) {entries : List Dirent} (perm : entries.Perm tree.links)
    (ordered : LinkOrder ((∅ : OrdSet FileId).insert tree.expectedRoot) entries) :
    entries.foldlM linkEntry (new tree.expectedRoot) = .ok tree := by
  obtain ⟨isPart, only⟩ := part_new valid
  have known : ∀ fileId ∈ (∅ : OrdSet FileId).insert tree.expectedRoot,
      (new tree.expectedRoot).isDir fileId = true := by
    intro fileId mem
    obtain rfl | never := (OrdSet.mem_insert _ _ _).mp mem
    · exact isDir_iff.mpr (.inl rfl)
    · exact absurd never (OrdSet.not_mem_empty _)
  have nodup : entries.Nodup := perm.nodup_iff.mpr ((dirents_nodup valid).filter _)
  obtain ⟨whole, done, isWhole, mems⟩ := Part.foldlM valid isPart known ordered nodup
    fun entry mem => by
      have link := perm.mem_iff.mp mem
      refine ⟨link, fun isRoot => (mem_links.mp link).2 ?_⟩
      rw [(only entry).mp isRoot]
      rfl
  rw [done]
  refine congrArg Except.ok (ext_dirents valid isWhole.valid isWhole.root fun entry => ?_)
  rw [mems, only, perm.mem_iff, mem_links]
  constructor
  · rintro (⟨mem, _⟩ | rfl)
    · exact mem
    · exact rootDirent_mem valid
  · intro mem
    by_cases named : entry.name = ""
    · exact .inr (valid.nameless mem named)
    · exact .inl ⟨mem, named⟩

end QuantumFs.Store.DirectoryTree
