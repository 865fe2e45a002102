import QuantumFs.Client.Staging

/-! What is handed to another program: whether the copy at the registered path is the
file, with the version number beside it. -/
namespace QuantumFs.Client

open Lib

/-- The file `open_node` is at, from its first look at the manifest until it registers. -/
def Activity.opening : Activity → Option FileId
  | .pulling nodeId _ _ | .checking nodeId _ _ _ | .writing nodeId _ _ _ | .indexing nodeId _ _
  | .statting nodeId _ | .registering nodeId _ _ => some nodeId
  | _ => none

def Activity.halfWritten [FileNames] : Activity → Option CopyPath
  | .indexing nodeId name _ => some (stagedPath nodeId name)
  | _ => none

def Outcome.Succeeds (outcome : Outcome) : Prop := ∀ left, outcome ≠ .failed left

section

variable [ChunkBodies] [FileNames]

/-- Where `register_open` is reached, the copy is the file. -/
def Desk.Staged (desk : Desk) : Prop :=
  ∀ nodeId name facts, desk.activity = .registering nodeId name facts →
    ∃ manifest copy, desk.manifests nodeId = some manifest ∧
      desk.copies (stagedPath nodeId name) = some copy ∧ copy.bytes = content manifest ∧
        desk.versionOf nodeId = some manifest.version

/-- Nothing else was staged for the node, under none of the names it had. -/
def Desk.OnlyCopy (desk : Desk) (nodeId : FileId) (path : CopyPath) : Prop :=
  ∀ other, other.folder = nodeId → other ≠ indexPath nodeId → other ≠ path → desk.copies other = none

/-- No other program writes, no write fails or is cut off, a version number of a file
stands for one content, a file keeps its manifest while it is opened and after it is
written back, and the number changes only where there is no second copy. -/
def Steady (contents : FileId → U64 → Bytes) (desk : Desk) : DeskEvent → Prop
  | .external _ _ => False
  | .manifest fileId manifest =>
    (desk.activity.opening = some fileId → manifest = desk.manifests fileId) ∧
      ∀ m, manifest = some m → content m = contents fileId m.version
  | .restart => desk.activity.halfWritten = none
  | .openNode nodeId =>
    ∀ node, desk.node nodeId = some node → stagedPath nodeId node.name ≠ indexPath nodeId
  | .write outcome => outcome.Succeeds
  | .index outcome =>
    outcome.Succeeds ∧ ∀ nodeId name version, desk.activity = .indexing nodeId name version →
      desk.versionOf nodeId = some version ∨ desk.OnlyCopy nodeId (stagedPath nodeId name)
  | .settled _ outcome =>
    outcome.Succeeds ∧ ∀ source bytes fileId manifest, desk.activity = .settling source bytes fileId →
      desk.manifests fileId = some manifest → desk.folders fileId = true →
        content manifest = bytes ∧
          (desk.versionOf fileId = some manifest.version ∨ desk.OnlyCopy fileId source)
  | _ => True

def Desk.Doing (desk : Desk) : Prop :=
  match desk.activity with
  | .pulling nodeId name trusted =>
    stagedPath nodeId name ≠ indexPath nodeId ∧ desk.manifests nodeId = some trusted
  | .checking nodeId name assembled version | .writing nodeId name assembled version =>
    stagedPath nodeId name ≠ indexPath nodeId ∧
      ∃ manifest, desk.manifests nodeId = some manifest ∧ content manifest = assembled ∧
        manifest.version = version
  | .indexing nodeId name version =>
    stagedPath nodeId name ≠ indexPath nodeId ∧
      ∃ manifest copy, desk.manifests nodeId = some manifest ∧ manifest.version = version ∧
        desk.copies (stagedPath nodeId name) = some copy ∧ copy.bytes = content manifest
  | .statting nodeId name | .registering nodeId name _ =>
    ∃ manifest copy, desk.manifests nodeId = some manifest ∧
      desk.copies (stagedPath nodeId name) = some copy ∧ copy.bytes = content manifest ∧
        desk.versionOf nodeId = some manifest.version
  | .rereading _ source bytes | .saving _ source bytes _ | .settling source bytes _ =>
    ∃ copy, desk.copies source = some copy ∧ copy.bytes = bytes
  | .idle | .watching _ | .reading _ _ => True

/-- Every copy holds the content that the number beside it stands for. -/
structure Fresh (contents : FileId → U64 → Bytes) (desk : Desk) : Prop where
  known : ∀ fileId manifest, desk.manifests fileId = some manifest →
    content manifest = contents fileId manifest.version
  labelled : ∀ path version, desk.versionOf path.folder = some version → path ≠ indexPath path.folder →
    desk.activity.halfWritten ≠ some path → ∀ copy, desk.copies path = some copy →
      copy.bytes = contents path.folder version
  doing : desk.Doing

theorem Fresh.staged {contents : FileId → U64 → Bytes} {desk : Desk} (fresh : Fresh contents desk) :
    desk.Staged := by
  intro nodeId name facts activity
  have doing := fresh.doing
  unfold Desk.Doing at doing
  rw [activity] at doing
  exact doing

theorem fresh_new (contents : FileId → U64 → Bytes) : Fresh contents Desk.new where
  known := fun _ _ h => nomatch h
  labelled := fun _ _ _ _ _ _ h => nomatch h
  doing := trivial

namespace Fresh

variable {contents : FileId → U64 → Bytes} {desk : Desk}

theorem move (fresh : Fresh contents desk) {next : Desk} (manifests : next.manifests = desk.manifests)
    (copies : next.copies = desk.copies) (whole : desk.activity.halfWritten = none) (doing : next.Doing) :
    Fresh contents next where
  known := by
    rw [manifests]
    exact fresh.known
  labelled := by
    intro path version number other _ copy held
    unfold Desk.versionOf at number
    rw [copies] at number held
    refine fresh.labelled path version number other ?_ copy held
    rw [whole]
    exact nofun
  doing := doing

theorem openNode (fresh : Fresh contents desk) {nodeId : FileId}
    (named : ∀ node, desk.node nodeId = some node → stagedPath nodeId node.name ≠ indexPath nodeId) :
    Fresh contents (desk.openNode nodeId) := by
  unfold Desk.openNode
  split
  · rename_i node trusted idle found manifest
    split
    · exact fresh
    · refine fresh.move rfl rfl ?_ ⟨named node found, manifest⟩
      rw [idle]
      rfl
  · exact fresh

theorem pulled (fresh : Fresh contents desk) (complete : Bool) : Fresh contents (desk.pulled complete) := by
  unfold Desk.pulled
  split
  · rename_i nodeId name trusted activity
    have doing := fresh.doing
    simp only [Desk.Doing, activity] at doing
    have whole : desk.activity.halfWritten = none := by
      rw [activity]
      rfl
    dsimp only
    split
    · refine fresh.move rfl rfl whole ⟨doing.1, trusted, doing.2, rfl, ?_⟩
      rw [doing.2]
      rfl
    · exact fresh.move rfl rfl whole trivial
  · exact fresh

theorem check (fresh : Fresh contents desk) (made : Bool) : Fresh contents (desk.check made) := by
  unfold Desk.check
  split
  · rename_i nodeId name assembled version activity
    have doing := fresh.doing
    simp only [Desk.Doing, activity] at doing
    have whole : desk.activity.halfWritten = none := by
      rw [activity]
      rfl
    dsimp only
    split
    · exact fresh.move rfl rfl whole trivial
    · split
      · exact fresh.move rfl rfl whole doing
      · rename_i notStale
        obtain ⟨number, present⟩ := not_or.mp notStale
        have number := not_ne_iff.mp number
        obtain ⟨copy, held⟩ := Option.ne_none_iff_exists'.mp present
        obtain ⟨named, manifest, current, _, same⟩ := doing
        refine fresh.move rfl rfl whole ⟨manifest, copy, current, held, ?_, same ▸ number⟩
        rw [fresh.known nodeId manifest current, same]
        refine fresh.labelled (stagedPath nodeId name) version number named ?_ copy held
        rw [whole]
        exact nofun
  · exact fresh

theorem write (fresh : Fresh contents desk) {outcome : Outcome} (succeeds : outcome.Succeeds) :
    Fresh contents (desk.write outcome) := by
  unfold Desk.write
  split
  · rename_i nodeId name assembled version activity
    have doing := fresh.doing
    simp only [Desk.Doing, activity] at doing
    obtain ⟨named, manifest, current, bodies, same⟩ := doing
    cases outcome with
    | failed left => exact absurd rfl (succeeds left)
    | done mtime =>
      refine ⟨fresh.known, ?_, named, manifest, ⟨assembled, mtime⟩, current, same, ?_, bodies.symm⟩
      · intro path number versionOf other notHalf copy held
        have apart : path ≠ stagedPath nodeId name := fun same => notHalf (congrArg some same.symm)
        have before : desk.copies path = some copy := (desk.put_copies_ne apart assembled (.done mtime)).symm.trans held
        have versionBefore : desk.versionOf path.folder = some number := by
          rw [← versionOf]
          by_cases folder : path.folder = nodeId
          · rw [folder]
            exact (desk.versionOf_put_ne named assembled (.done mtime)).symm
          · refine (desk.versionOf_put_ne (fun same => folder ?_) assembled (.done mtime)).symm
            exact (congrArg CopyPath.folder same).symm
        refine fresh.labelled path number versionBefore other ?_ copy before
        rw [activity]
        exact nofun
      · exact desk.put_copies_self (stagedPath nodeId name) assembled (.done mtime)
  · exact fresh

theorem number (fresh : Fresh contents desk) {nodeId : FileId} {manifest : Manifest} {path : CopyPath}
    (current : desk.manifests nodeId = some manifest)
    (alone : desk.versionOf nodeId = some manifest.version ∨ desk.OnlyCopy nodeId path)
    (half : ∀ other, desk.activity.halfWritten = some other → other = path ∧ path.folder = nodeId)
    (holds : ∀ copy, path.folder = nodeId → desk.copies path = some copy → copy.bytes = content manifest)
    (mtime : Nat) {next : Desk} (manifests : next.manifests = desk.manifests)
    (copies : next.copies = (desk.put (indexPath nodeId) (writeVersion manifest.version) (.done mtime)).copies)
    (doing : next.Doing) : Fresh contents next where
  known := by
    rw [manifests]
    exact fresh.known
  labelled := by
    intro other version number notIndex _ copy held
    unfold Desk.versionOf at number
    rw [copies] at number held
    have apart : other ≠ indexPath nodeId := fun same => notIndex (by rw [same]; rfl)
    rw [desk.put_copies_ne apart] at held
    by_cases folder : other.folder = nodeId
    · have same : version = manifest.version := by
        rw [folder] at number
        exact Option.some.inj (number.symm.trans (desk.versionOf_put_index nodeId manifest.version mtime))
      rw [folder, same, ← fresh.known nodeId manifest current]
      by_cases isPath : other = path
      · exact holds copy (isPath ▸ folder) (isPath ▸ held)
      · obtain before | only := alone
        · rw [fresh.known nodeId manifest current, ← folder]
          refine fresh.labelled other manifest.version (folder ▸ before) notIndex ?_ copy held
          exact fun isHalf => isPath (half other isHalf).1
        · rw [only other folder apart isPath] at held
          cases held
    · have before : desk.versionOf other.folder = some version := by
        rw [← number]
        refine (desk.versionOf_put_ne (fun same => folder ?_) _ _).symm
        exact (congrArg CopyPath.folder same).symm
      refine fresh.labelled other version before notIndex (fun isHalf => folder ?_) copy held
      obtain ⟨same, inside⟩ := half other isHalf
      exact (congrArg CopyPath.folder same).trans inside
  doing := doing

theorem index (fresh : Fresh contents desk) {outcome : Outcome} (succeeds : outcome.Succeeds)
    (alone : ∀ nodeId name version, desk.activity = .indexing nodeId name version →
      desk.versionOf nodeId = some version ∨ desk.OnlyCopy nodeId (stagedPath nodeId name)) :
    Fresh contents (desk.index outcome) := by
  unfold Desk.index
  split
  · rename_i nodeId name version activity
    have doing := fresh.doing
    simp only [Desk.Doing, activity] at doing
    obtain ⟨named, manifest, copy, current, same, held, bodies⟩ := doing
    cases outcome with
    | failed left => exact absurd rfl (succeeds left)
    | done mtime =>
      subst same
      refine fresh.number current (alone nodeId name manifest.version activity) ?_ ?_ mtime rfl rfl ?_
      · intro other half
        rw [activity] at half
        cases half
        exact ⟨rfl, rfl⟩
      · intro other _ found
        rw [held] at found
        cases found
        exact bodies
      · refine ⟨manifest, copy, current, ?_, bodies, desk.versionOf_put_index nodeId manifest.version mtime⟩
        exact (desk.put_copies_ne named _ _).trans held
  · exact fresh

theorem stat (fresh : Fresh contents desk) (readable : Bool) : Fresh contents (desk.stat readable) := by
  unfold Desk.stat
  split
  · rename_i nodeId name activity
    have doing := fresh.doing
    simp only [Desk.Doing, activity] at doing
    have whole : desk.activity.halfWritten = none := by
      rw [activity]
      rfl
    split
    · exact fresh.move rfl rfl whole doing
    · exact fresh.move rfl rfl whole trivial
  · exact fresh

theorem register (fresh : Fresh contents desk) : Fresh contents desk.register := by
  unfold Desk.register
  split
  · rename_i nodeId name facts activity
    refine fresh.move rfl rfl ?_ trivial
    rw [activity]
    rfl
  · exact fresh

theorem tick (fresh : Fresh contents desk) : Fresh contents desk.tick := by
  unfold Desk.tick
  split
  · rename_i activity
    split
    · exact fresh
    · refine fresh.move rfl rfl ?_ trivial
      rw [activity]
      rfl
  · exact fresh

theorem writeBack (fresh : Fresh contents desk) (whole : desk.activity.halfWritten = none) (index : Nat) :
    Fresh contents (desk.writeBack index) := by
  unfold Desk.writeBack
  split
  · exact fresh.move rfl rfl whole trivial
  · split
    · exact fresh.move rfl rfl whole trivial
    · exact fresh.move rfl rfl whole trivial

theorem look (fresh : Fresh contents desk) (now : Nat) (readable : Bool) :
    Fresh contents (desk.look now readable) := by
  unfold Desk.look
  split
  · rename_i activity
    refine fresh.move rfl rfl ?_ trivial
    rw [activity]
    rfl
  · rename_i rounds activity
    have whole : desk.activity.halfWritten = none := by
      rw [activity]
      rfl
    have next : Fresh contents { desk with cursor := (desk.cursor + 1) % 2 ^ 64, activity := .watching rounds } :=
      fresh.move rfl rfl whole trivial
    dsimp only
    split
    · exact next
    · split
      · split
        · exact fresh.move rfl rfl whole trivial
        · split
          · exact next.writeBack rfl _
          · exact next
      · exact next
  · exact fresh

theorem read (fresh : Fresh contents desk) (readable : Bool) : Fresh contents (desk.read readable) := by
  unfold Desk.read
  split
  · rename_i index source activity
    have whole : desk.activity.halfWritten = none := by
      rw [activity]
      rfl
    split
    · rename_i copy held
      exact fresh.move rfl rfl whole ⟨copy, held, rfl⟩
    · exact fresh.move rfl rfl whole trivial
  · exact fresh

theorem reread (fresh : Fresh contents desk) (readable : Bool) : Fresh contents (desk.reread readable) := by
  unfold Desk.reread
  split
  · rename_i index source bytes activity
    have doing := fresh.doing
    simp only [Desk.Doing, activity] at doing
    have whole : desk.activity.halfWritten = none := by
      rw [activity]
      rfl
    split
    · exact fresh.move rfl rfl whole doing
    · exact fresh.move rfl rfl whole trivial
  · exact fresh

theorem saved (fresh : Fresh contents desk) (answer : Option FileId) : Fresh contents (desk.saved answer) := by
  unfold Desk.saved
  split
  · rename_i index source bytes facts activity
    have doing := fresh.doing
    simp only [Desk.Doing, activity] at doing
    have whole : desk.activity.halfWritten = none := by
      rw [activity]
      rfl
    split
    · exact fresh.move rfl rfl whole doing
    · exact fresh.move rfl rfl whole trivial
  · exact fresh

theorem settled (fresh : Fresh contents desk) {nodes : List Node} {outcome : Outcome}
    (succeeds : outcome.Succeeds)
    (own : ∀ source bytes fileId manifest, desk.activity = .settling source bytes fileId →
      desk.manifests fileId = some manifest → desk.folders fileId = true → content manifest = bytes ∧
        (desk.versionOf fileId = some manifest.version ∨ desk.OnlyCopy fileId source)) :
    Fresh contents (desk.settled nodes outcome) := by
  unfold Desk.settled
  split
  · rename_i source bytes fileId activity
    have doing := fresh.doing
    simp only [Desk.Doing, activity] at doing
    obtain ⟨copy, held, same⟩ := doing
    have whole : desk.activity.halfWritten = none := by
      rw [activity]
      rfl
    dsimp only
    split
    · rename_i manifest _ current made
      obtain ⟨bodies, alone⟩ := own source bytes fileId manifest activity current made
      cases outcome with
      | failed left => exact absurd rfl (succeeds left)
      | done mtime =>
        refine fresh.number current alone ?_ ?_ mtime rfl rfl trivial
        · intro other half
          rw [whole] at half
          cases half
        · intro other _ found
          rw [held] at found
          cases found
          exact same.trans bodies.symm
    · exact fresh.move rfl rfl whole trivial
  · exact fresh

theorem manifest (fresh : Fresh contents desk) {fileId : FileId} {manifest : Option Manifest}
    (closed : desk.activity.opening = some fileId → manifest = desk.manifests fileId)
    (known : ∀ m, manifest = some m → content m = contents fileId m.version) :
    Fresh contents { desk with manifests := Function.update desk.manifests fileId manifest } where
  known := by
    intro other m held
    have held : Function.update desk.manifests fileId manifest other = some m := held
    by_cases same : other = fileId
    · subst same
      rw [Function.update_self] at held
      exact known m held
    · rw [Function.update_of_ne same] at held
      exact fresh.known other m held
  labelled := fresh.labelled
  doing := by
    have doing := fresh.doing
    unfold Desk.Doing at doing ⊢
    have kept : ∀ nodeId, desk.activity.opening = some nodeId →
        Function.update desk.manifests fileId manifest nodeId = desk.manifests nodeId := by
      intro nodeId opening
      by_cases same : nodeId = fileId
      · subst same
        rw [Function.update_self]
        exact closed opening
      · exact Function.update_of_ne same ..
    cases activity : desk.activity <;> rw [activity] at doing kept <;> dsimp only at doing ⊢ <;>
      first
      | exact doing
      | (rw [kept _ rfl]
         exact doing)

theorem exec (fresh : Fresh contents desk) (event : DeskEvent) (steady : Steady contents desk event) :
    Fresh contents (desk.exec event) := by
  cases event with
  | external path copy => exact steady.elim
  | manifest fileId manifest => exact fresh.manifest steady.1 steady.2
  | project nodes => exact ⟨fresh.known, fresh.labelled, fresh.doing⟩
  | connection up => exact ⟨fresh.known, fresh.labelled, fresh.doing⟩
  | restart => exact fresh.move rfl rfl steady trivial
  | openNode nodeId => exact fresh.openNode steady
  | pulled complete => exact fresh.pulled complete
  | check made => exact fresh.check made
  | write outcome => exact fresh.write steady
  | index outcome => exact fresh.index steady.1 steady.2
  | stat readable => exact fresh.stat readable
  | register => exact fresh.register
  | tick => exact fresh.tick
  | look now readable => exact fresh.look now readable
  | read readable => exact fresh.read readable
  | reread readable => exact fresh.reread readable
  | saved answer => exact fresh.saved answer
  | settled nodes outcome => exact fresh.settled steady.1 steady.2

end Fresh

/-- In a run whose steps are steady, every copy that is handed over is the file. -/
theorem staged_copy_is_file (contents : FileId → U64 → Bytes) (events : List DeskEvent)
    (steady : deskMachine.Along (Steady contents) events Desk.new) :
    deskMachine.Throughout Desk.Staged events Desk.new :=
  (deskMachine.throughout_of_step (fun _ event fresh steady => fresh.exec event steady) events Desk.new
    (fresh_new contents) steady).mono fun _ fresh => fresh.staged

end

section

/-! One file of one byte, saved as `A` and then as `B`. -/

local instance : FileNames := ⟨id⟩

local instance : ChunkBodies := ⟨fun chunk => [UInt8.ofNat chunk.val.val]⟩

def letter (byte : Nat) (version : U64) : Manifest where
  fileId := ⟨1⟩
  chunkIds := [⟨Fin.ofNat _ byte⟩]
  size := 1
  writerId := ⟨0⟩
  version := version
  signature := []

def showsAs (name : String) : DeskEvent := .project [⟨⟨1⟩, some ⟨0⟩, name, false, "/" ++ name⟩]

def stages : List DeskEvent :=
  [.openNode ⟨1⟩, .pulled true, .check true, .write (.done 5), .index (.done 5), .stat true]

def opensLetter (name : String) : List DeskEvent :=
  [.manifest ⟨1⟩ (some (letter 65 1)), showsAs name] ++ stages

/-- Opened as `a` and, after a rename and a save, as `b`; then renamed back. -/
private def renamesBack : List DeskEvent :=
  opensLetter "a" ++ [.register, .manifest ⟨1⟩ (some (letter 66 2)), showsAs "b"] ++ stages ++
    [.register, showsAs "a", .openNode ⟨1⟩, .pulled true, .check true, .stat true]

theorem staged_copy_is_file_one : deskMachine.Throughout Desk.Staged (opensLetter "a") Desk.new := by
  refine staged_copy_is_file (fun _ _ => [65]) (opensLetter "a") ⟨⟨nofun, ?_⟩, trivial, ?_, trivial, trivial,
    nofun, ⟨nofun, ?_⟩, trivial, trivial⟩
  · intro m held
    cases held
    decide
  · have plain : ∀ node ∈ (deskMachine.run [.manifest ⟨1⟩ (some (letter 65 1)), showsAs "a"] Desk.new).node ⟨1⟩,
        stagedPath ⟨1⟩ node.name ≠ indexPath ⟨1⟩ := by decide
    exact plain
  · intro nodeId name version activity
    obtain ⟨rfl, rfl, rfl⟩ := Activity.indexing.inj activity
    exact .inr fun other _ _ apart => Function.update_of_ne apart _ _

/-- A file called `version.json` is replaced by its version number, and a node renamed
back is opened with what it held before. -/
theorem staged_copy_is_file_not :
    ((∀ event ∈ opensLetter versionFile, event.inside) ∧
      ¬ (deskMachine.run (opensLetter versionFile) Desk.new).Staged) ∧
    (∀ event ∈ renamesBack, event.inside) ∧ ¬ (deskMachine.run renamesBack Desk.new).Staged := by
  refine ⟨⟨by decide, fun staged => ?_⟩, by decide, fun staged => ?_⟩
  · obtain ⟨manifest, copy, current, held, same, _⟩ := staged ⟨1⟩ versionFile (1, 5) (by decide +kernel)
    have isLetter : (deskMachine.run (opensLetter versionFile) Desk.new).manifests ⟨1⟩ = some (letter 65 1) := by
      decide +kernel
    have isNumber : (deskMachine.run (opensLetter versionFile) Desk.new).copies (stagedPath ⟨1⟩ versionFile) =
        some ⟨[49], 5⟩ := by
      decide +kernel
    rw [isLetter] at current
    rw [isNumber] at held
    cases current
    cases held
    exact absurd same (by decide)
  · obtain ⟨manifest, copy, current, held, same, _⟩ := staged ⟨1⟩ "a" (1, 5) (by decide +kernel)
    have isNew : (deskMachine.run renamesBack Desk.new).manifests ⟨1⟩ = some (letter 66 2) := by decide +kernel
    have isOld : (deskMachine.run renamesBack Desk.new).copies (stagedPath ⟨1⟩ "a") = some ⟨[65], 5⟩ := by
      decide +kernel
    rw [isNew] at current
    rw [isOld] at held
    cases current
    cases held
    exact absurd same (by decide)

end

end QuantumFs.Client
