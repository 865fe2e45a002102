import QuantumFs.Client.StagedCopy

/-! Edits that other programs make to the copies: what the registry knows of them between
the moment they happen and the moment they are saved. -/
namespace QuantumFs.Client

open Lib

/-- A tick is about to look at a copy that is there, of a node that is still shown. -/
structure Desk.LooksAt (desk : Desk) (index : Nat) (watched : OpenFile) (copy : Copy) : Prop where
  busy : ∃ rounds, desk.activity = .watching (rounds + 1)
  cursor : desk.cursor % desk.openFiles.length = index
  found : desk.openFiles[index]? = some watched
  held : desk.copies watched.path = some copy
  shown : (desk.node watched.nodeId).isSome

/-- The next look begins to save the copy or arms it, and then a look after it has been
left alone begins to save it. -/
def Desk.Heeds (desk : Desk) (index : Nat) (watched : OpenFile) (copy : Copy) : Prop :=
  ∀ now, (desk.look now true).activity = .reading index watched.path ∨
    ∃ armed changed, (desk.look now true).openFiles[index]? = some armed ∧ armed.path = watched.path ∧
      armed.changedAt = some changed ∧ ∀ (later : Desk) (soon : Nat), later.LooksAt index armed copy →
        changed + writeBackSettle ≤ soon → (later.look soon true).activity = .reading index armed.path

/-- A watched copy whose bytes were changed since the task put or saved them is seen to
be changed, is saved by a later tick, and `open_node` writes over no such copy. -/
structure Desk.KeepsEdits [FileNames] (desk : Desk) : Prop where
  noticed : ∀ watched ∈ desk.openFiles, ∀ copy ∈ desk.copies watched.path,
    desk.kept watched.path ≠ some copy.bytes → copy.facts ≠ watched.facts ∨ watched.changedAt ≠ none
  heeded : ∀ index watched copy, desk.LooksAt index watched copy →
    desk.kept watched.path ≠ some copy.bytes → desk.Heeds index watched copy
  spared : ∀ nodeId name assembled version, desk.activity = .writing nodeId name assembled version →
    ∀ copy ∈ desk.copies (stagedPath nodeId name), desk.kept (stagedPath nodeId name) = some copy.bytes

/-- A write of another program changes the size or the time. -/
def ChangesFacts (desk : Desk) : DeskEvent → Prop
  | .external path copy => ∀ written ∈ copy, ∀ before ∈ desk.copies path, written.facts ≠ before.facts
  | _ => True

instance (desk : Desk) : (event : DeskEvent) → Decidable (ChangesFacts desk event)
  | .external path copy =>
    inferInstanceAs (Decidable (∀ written ∈ copy, ∀ before ∈ desk.copies path, written.facts ≠ before.facts))
  | .manifest .. | .project .. | .connection .. | .restart | .openNode .. | .pulled .. | .check .. | .write ..
  | .index .. | .stat .. | .register | .tick | .look .. | .read .. | .reread .. | .saved .. | .settled .. =>
    .isTrue trivial

/-- The copy between a look at it and the note of its size and time. -/
def Activity.exposed [FileNames] : Activity → Option CopyPath
  | .writing nodeId name _ _ | .indexing nodeId name _ | .statting nodeId name => some (stagedPath nodeId name)
  | .rereading _ source _ => some source
  | _ => none

/-- The size and time that are about to be recorded. -/
def Activity.noted [FileNames] : Activity → Option (CopyPath × Facts)
  | .registering nodeId name facts => some (stagedPath nodeId name, facts)
  | .saving _ source _ facts => some (source, facts)
  | _ => none

/-- No write falls between a look at a copy and the note of its size and time, none gives
a copy the size and time on record before it was seen to change, and no node is opened
whose copy has an edit that is not saved. -/
def Undisturbed [FileNames] (desk : Desk) : DeskEvent → Prop
  | .external path copy => ∀ written ∈ copy,
    desk.activity.exposed ≠ some path ∧
      (∀ watched ∈ desk.openFiles, watched.path = path →
        written.facts ≠ watched.facts ∨ watched.changedAt ≠ none) ∧
      ∀ facts, desk.activity.noted = some (path, facts) → written.facts ≠ facts
  | .check _ => ∀ nodeId name assembled version, desk.activity = .checking nodeId name assembled version →
    ∀ copy ∈ desk.copies (stagedPath nodeId name), desk.kept (stagedPath nodeId name) = some copy.bytes
  | _ => True

namespace Desk

variable {desk : Desk} {index : Nat} {watched : OpenFile} {copy : Copy}

theorem look_reads (looks : desk.LooksAt index watched copy) (same : copy.facts = watched.facts) {now : Nat}
    (settled : settledAt now watched = true) : (desk.look now true).activity = .reading index watched.path := by
  obtain ⟨⟨rounds, busy⟩, rfl, found, held, shown⟩ := looks
  obtain ⟨node, shown⟩ := Option.isSome_iff_exists.mp shown
  unfold look
  rw [busy]
  dsimp only
  rw [found]
  dsimp only
  rw [held]
  dsimp only
  rw [if_neg (not_ne_iff.mpr same), if_pos settled]
  unfold writeBack
  rw [found]
  dsimp only
  split
  · rename_i gone
    cases gone.symm.trans shown
  · rfl

theorem look_arms (looks : desk.LooksAt index watched copy) (differs : copy.facts ≠ watched.facts) (now : Nat) :
    (desk.look now true).openFiles[index]? =
      some { watched with len := copy.facts.1, mtime := copy.facts.2, changedAt := some now } := by
  obtain ⟨⟨rounds, busy⟩, rfl, found, held, _⟩ := looks
  obtain ⟨inside, _⟩ := List.getElem?_eq_some_iff.mp found
  unfold look
  rw [busy]
  dsimp only
  rw [found]
  dsimp only
  rw [held]
  dsimp only
  rw [if_pos differs, List.getElem?_set_self inside]

theorem look_waits (looks : desk.LooksAt index watched copy) (same : copy.facts = watched.facts) {now : Nat}
    (moving : settledAt now watched = false) : (desk.look now true).openFiles = desk.openFiles := by
  obtain ⟨⟨rounds, busy⟩, rfl, found, held, _⟩ := looks
  unfold look
  rw [busy]
  dsimp only
  rw [found]
  dsimp only
  rw [held]
  dsimp only
  rw [if_neg (not_ne_iff.mpr same), if_neg (moving ▸ Bool.false_ne_true)]

theorem heeds_of_due (looks : desk.LooksAt index watched copy)
    (due : copy.facts ≠ watched.facts ∨ watched.changedAt ≠ none) : desk.Heeds index watched copy := by
  have held : ∀ {armed : OpenFile} {changed : Nat}, armed.changedAt = some changed →
      copy.facts = armed.facts → ∀ (later : Desk) (soon : Nat), later.LooksAt index armed copy →
        changed + writeBackSettle ≤ soon → (later.look soon true).activity = .reading index armed.path := by
    intro armed changed at_ same later soon looks late
    refine look_reads looks same ?_
    unfold settledAt
    rw [at_]
    exact decide_eq_true late
  intro now
  by_cases same : copy.facts = watched.facts
  · obtain ⟨changed, armed⟩ := Option.ne_none_iff_exists'.mp (due.resolve_left (not_ne_iff.mpr same))
    cases settled : settledAt now watched with
    | true => exact .inl (look_reads looks same settled)
    | false =>
      refine .inr ⟨watched, changed, ?_, rfl, armed, held armed same⟩
      rw [look_waits looks same settled]
      exact looks.found
  · exact .inr ⟨_, now, look_arms looks same now, rfl, rfl, held rfl rfl⟩

end Desk

theorem mem_registerOpen {nodeId : FileId} {path : CopyPath} {facts : Facts} {watched : OpenFile} :
    ∀ {files : List OpenFile}, watched ∈ Desk.registerOpen nodeId path facts files →
      watched = ⟨nodeId, path, facts.1, facts.2, none⟩ ∨ watched ∈ files := by
  intro files
  induction files with
  | nil => exact fun mem => .inl (List.mem_singleton.mp mem)
  | cons first rest ih =>
    intro mem
    unfold Desk.registerOpen at mem
    split at mem
    · obtain same | mem := List.mem_cons.mp mem
      · exact .inl same
      · exact .inr (List.mem_cons_of_mem first mem)
    · obtain same | mem := List.mem_cons.mp mem
      · exact .inr (same ▸ List.mem_cons_self)
      · exact (ih mem).imp_right (List.mem_cons_of_mem first)

theorem mem_modify {α : Type} {f : α → α} {items : List α} {index : Nat} {item : α}
    (mem : item ∈ items.modify index f) :
    ∃ i before, items[i]? = some before ∧ item = if index = i then f before else before := by
  obtain ⟨i, found⟩ := List.mem_iff_getElem?.mp mem
  rw [List.getElem?_modify] at found
  cases held : items[i]? with
  | none =>
    rw [held] at found
    cases found
  | some before =>
    rw [held] at found
    refine ⟨i, before, held, ?_⟩
    split
    · rename_i same
      simpa [same] using found.symm
    · rename_i other
      simpa [other] using found.symm

/-- The bytes at a path are those the task put there or saved, or it can tell. -/
def Desk.Accounted (desk : Desk) (path : CopyPath) (facts : Facts) (armed : Prop) : Prop :=
  ∀ copy ∈ desk.copies path, desk.kept path = some copy.bytes ∨ copy.facts ≠ facts ∨ armed

def Desk.Untouched (desk : Desk) (path : CopyPath) : Prop :=
  ∀ copy ∈ desk.copies path, desk.kept path = some copy.bytes

def Desk.Guarded [FileNames] (desk : Desk) : Prop :=
  match desk.activity with
  | .writing nodeId name _ _ | .indexing nodeId name _ | .statting nodeId name =>
    desk.Untouched (stagedPath nodeId name)
  | .registering nodeId name facts => desk.Accounted (stagedPath nodeId name) facts False
  | .reading index source => ∀ watched ∈ desk.openFiles[index]?, watched.path = source
  | .rereading index source bytes =>
    (∀ watched ∈ desk.openFiles[index]?, watched.path = source) ∧
      ∀ copy ∈ desk.copies source, copy.bytes = bytes
  | .saving index source bytes facts =>
    (∀ watched ∈ desk.openFiles[index]?, watched.path = source) ∧
      ∀ copy ∈ desk.copies source, copy.bytes = bytes ∨ copy.facts ≠ facts ∧
        ∀ watched ∈ desk.openFiles, watched.path = source →
          copy.facts ≠ watched.facts ∨ watched.changedAt ≠ none
  | _ => True

structure Desk.Vigilant [FileNames] (desk : Desk) : Prop where
  watched : ∀ watched ∈ desk.openFiles,
    desk.Accounted watched.path watched.facts (watched.changedAt ≠ none)
  guarded : desk.Guarded

namespace Desk

variable [FileNames] {desk : Desk}

theorem Vigilant.keepsEdits (vigilant : desk.Vigilant) : desk.KeepsEdits where
  noticed := fun watched mem copy held edited => (vigilant.watched watched mem copy held).resolve_left edited
  heeded := by
    intro index watched copy looks edited
    have mem : watched ∈ desk.openFiles := List.mem_of_getElem? looks.found
    exact heeds_of_due looks ((vigilant.watched watched mem copy looks.held).resolve_left edited)
  spared := by
    intro nodeId name assembled version activity
    have guarded := vigilant.guarded
    unfold Guarded at guarded
    rw [activity] at guarded
    exact guarded

theorem vigilant_new : Desk.new.Vigilant where
  watched := fun _ mem => nomatch mem
  guarded := trivial

omit [FileNames] in
theorem untouched_put (path : CopyPath) (bytes : Bytes) (outcome : Outcome) :
    (desk.put path bytes outcome).Untouched path := by
  intro copy held
  rw [put_copies_self] at held
  change Function.update desk.kept path _ path = _
  rw [Function.update_self, Option.mem_def.mp held]
  rfl

omit [FileNames] in
theorem kept_put_ne {path other : CopyPath} (h : other ≠ path) (bytes : Bytes) (outcome : Outcome) :
    (desk.put path bytes outcome).kept other = desk.kept other := Function.update_of_ne h ..

omit [FileNames] in
theorem Accounted.put {other : CopyPath} {facts : Facts} {armed : Prop} (h : desk.Accounted other facts armed)
    (path : CopyPath) (bytes : Bytes) (outcome : Outcome) :
    (desk.put path bytes outcome).Accounted other facts armed := by
  intro copy held
  by_cases same : other = path
  · subst same
    exact .inl (untouched_put other bytes outcome copy held)
  · rw [put_copies_ne desk same] at held
    rw [kept_put_ne same]
    exact h copy held

omit [FileNames] in
theorem Untouched.put {other : CopyPath} (h : desk.Untouched other) (path : CopyPath) (bytes : Bytes)
    (outcome : Outcome) : (desk.put path bytes outcome).Untouched other := by
  intro copy held
  by_cases same : other = path
  · subst same
    exact untouched_put other bytes outcome copy held
  · rw [put_copies_ne desk same] at held
    rw [kept_put_ne same]
    exact h copy held

namespace Vigilant

theorem move (vigilant : desk.Vigilant) {next : Desk} (files : next.openFiles = desk.openFiles)
    (copies : next.copies = desk.copies) (kept : next.kept = desk.kept) (guarded : next.Guarded) :
    next.Vigilant where
  watched := by
    intro watched mem copy held
    rw [files] at mem
    rw [copies] at held
    rw [kept]
    exact vigilant.watched watched mem copy held
  guarded := guarded

theorem openNode (vigilant : desk.Vigilant) (nodeId : FileId) : (desk.openNode nodeId).Vigilant := by
  unfold Desk.openNode
  split
  · split
    · exact vigilant
    · exact vigilant.move rfl rfl rfl trivial
  · exact vigilant

theorem pulled [ChunkBodies] (vigilant : desk.Vigilant) (complete : Bool) : (desk.pulled complete).Vigilant := by
  unfold Desk.pulled
  split
  · dsimp only
    split
    · exact vigilant.move rfl rfl rfl trivial
    · exact vigilant.move rfl rfl rfl trivial
  · exact vigilant

theorem check (vigilant : desk.Vigilant) {made : Bool}
    (saved : ∀ nodeId name assembled version, desk.activity = .checking nodeId name assembled version →
      desk.Untouched (stagedPath nodeId name)) : (desk.check made).Vigilant := by
  unfold Desk.check
  split
  · rename_i nodeId name assembled version activity
    have untouched := saved nodeId name assembled version activity
    dsimp only
    split
    · exact vigilant.move rfl rfl rfl trivial
    · split
      · exact vigilant.move rfl rfl rfl untouched
      · exact vigilant.move rfl rfl rfl untouched
  · exact vigilant

theorem write (vigilant : desk.Vigilant) (outcome : Outcome) : (desk.write outcome).Vigilant := by
  unfold Desk.write
  split
  · rename_i nodeId name assembled version activity
    refine ⟨fun watched mem => (vigilant.watched watched mem).put _ assembled outcome, ?_⟩
    cases outcome with
    | done mtime => exact untouched_put (stagedPath nodeId name) assembled (.done mtime)
    | failed left => trivial
  · exact vigilant

theorem index (vigilant : desk.Vigilant) (outcome : Outcome) : (desk.index outcome).Vigilant := by
  unfold Desk.index
  split
  · rename_i nodeId name version activity
    have guarded := vigilant.guarded
    simp only [Guarded, activity] at guarded
    exact ⟨fun watched mem => (vigilant.watched watched mem).put _ _ outcome, guarded.put _ _ outcome⟩
  · exact vigilant

theorem stat (vigilant : desk.Vigilant) (readable : Bool) : (desk.stat readable).Vigilant := by
  unfold Desk.stat
  split
  · rename_i nodeId name activity
    have guarded := vigilant.guarded
    simp only [Guarded, activity] at guarded
    split
    · exact vigilant.move rfl rfl rfl fun copy held => .inl (guarded copy held)
    · exact vigilant.move rfl rfl rfl trivial
  · exact vigilant

theorem register (vigilant : desk.Vigilant) : desk.register.Vigilant := by
  unfold Desk.register
  split
  · rename_i nodeId name facts activity
    have guarded := vigilant.guarded
    simp only [Guarded, activity] at guarded
    refine ⟨fun watched mem => ?_, trivial⟩
    obtain rfl | mem := mem_registerOpen mem
    · exact fun copy held => (guarded copy held).imp_right fun h => .inl (h.resolve_right id)
    · exact vigilant.watched watched mem
  · exact vigilant

theorem tick (vigilant : desk.Vigilant) : desk.tick.Vigilant := by
  unfold Desk.tick
  split
  · split
    · exact vigilant
    · exact vigilant.move rfl rfl rfl trivial
  · exact vigilant

theorem writeBack (vigilant : desk.Vigilant) (index : Nat) : (desk.writeBack index).Vigilant := by
  unfold Desk.writeBack
  split
  · exact vigilant.move rfl rfl rfl trivial
  · rename_i watched found
    split
    · exact ⟨fun other mem => vigilant.watched other (List.mem_of_mem_eraseIdx mem), trivial⟩
    · refine vigilant.move rfl rfl rfl fun other same => ?_
      rw [Option.mem_def, found] at same
      cases same
      rfl

theorem look (vigilant : desk.Vigilant) (now : Nat) (readable : Bool) : (desk.look now readable).Vigilant := by
  unfold Desk.look
  split
  · exact vigilant.move rfl rfl rfl trivial
  · rename_i rounds activity
    have next : ({ desk with cursor := (desk.cursor + 1) % 2 ^ 64, activity := .watching rounds } : Desk).Vigilant :=
      vigilant.move rfl rfl rfl trivial
    dsimp only
    split
    · exact next
    · split
      · split
        · refine ⟨fun watched mem => ?_, trivial⟩
          obtain mem | rfl := List.mem_or_eq_of_mem_set mem
          · exact vigilant.watched watched mem
          · exact fun _ _ => .inr (.inr nofun)
        · split
          · exact next.writeBack _
          · exact next
      · exact next
  · exact vigilant

theorem read (vigilant : desk.Vigilant) (readable : Bool) : (desk.read readable).Vigilant := by
  unfold Desk.read
  split
  · rename_i index source activity
    have guarded := vigilant.guarded
    simp only [Guarded, activity] at guarded
    split
    · rename_i copy held
      refine vigilant.move rfl rfl rfl ⟨guarded, fun other same => ?_⟩
      rw [Option.mem_def, held] at same
      cases same
      rfl
    · exact vigilant.move rfl rfl rfl trivial
  · exact vigilant

theorem reread (vigilant : desk.Vigilant) (readable : Bool) : (desk.reread readable).Vigilant := by
  unfold Desk.reread
  split
  · rename_i index source bytes activity
    have guarded := vigilant.guarded
    simp only [Guarded, activity] at guarded
    split
    · exact vigilant.move rfl rfl rfl ⟨guarded.1, fun copy held => .inl (guarded.2 copy held)⟩
    · exact vigilant.move rfl rfl rfl trivial
  · exact vigilant

theorem saved (vigilant : desk.Vigilant) (answer : Option FileId) : (desk.saved answer).Vigilant := by
  unfold Desk.saved
  split
  · rename_i index source bytes facts activity
    have guarded := vigilant.guarded
    simp only [Guarded, activity] at guarded
    obtain ⟨atSource, since⟩ := guarded
    split
    · refine ⟨fun watched mem copy held => ?_, trivial⟩
      obtain ⟨i, before, found, same⟩ := mem_modify mem
      have held : copy ∈ desk.copies watched.path := held
      change Function.update desk.kept source (some bytes) watched.path = some copy.bytes ∨ _
      by_cases isIndex : index = i
      · rw [if_pos isIndex] at same
        subst same
        have path : before.path = source := atSource before (isIndex ▸ found)
        dsimp only at held ⊢
        rw [path] at held ⊢
        rw [Function.update_self]
        obtain same | ⟨changed, _⟩ := since copy held
        · exact .inl (congrArg some same.symm)
        · exact .inr (.inl changed)
      · rw [if_neg isIndex] at same
        subst same
        have known : watched ∈ desk.openFiles := List.mem_of_getElem? found
        by_cases path : watched.path = source
        · rw [path] at held ⊢
          rw [Function.update_self]
          obtain same | ⟨_, others⟩ := since copy held
          · exact .inl (congrArg some same.symm)
          · exact .inr (others watched known path)
        · rw [Function.update_of_ne path]
          exact vigilant.watched watched known copy held
    · exact vigilant.move rfl rfl rfl trivial
  · exact vigilant

theorem settled (vigilant : desk.Vigilant) (nodes : List Node) (outcome : Outcome) :
    (desk.settled nodes outcome).Vigilant := by
  unfold Desk.settled
  split
  · dsimp only
    split
    · exact ⟨fun watched mem => (vigilant.watched watched mem).put _ _ outcome, trivial⟩
    · exact vigilant.move rfl rfl rfl trivial
  · exact vigilant

theorem external (vigilant : desk.Vigilant) {path : CopyPath} {copy : Option Copy}
    (undisturbed : Undisturbed desk (.external path copy)) :
    Vigilant { desk with copies := Function.update desk.copies path copy } := by
  have elsewhere : ∀ {other : CopyPath}, other ≠ path →
      Function.update desk.copies path copy other = desk.copies other := fun apart =>
    Function.update_of_ne apart _ _
  have here : Function.update desk.copies path copy path = copy := Function.update_self ..
  refine ⟨fun watched mem written held => ?_, ?_⟩
  · have held : written ∈ Function.update desk.copies path copy watched.path := held
    by_cases same : watched.path = path
    · rw [same, here] at held
      exact .inr ((undisturbed written held).2.1 watched mem same)
    · rw [elsewhere same] at held
      exact vigilant.watched watched mem written held
  · have exposed : ∀ {other : CopyPath} {written : Copy}, desk.activity.exposed = some other →
        written ∈ Function.update desk.copies path copy other → written ∈ desk.copies other := by
      intro other written isExposed held
      by_cases same : other = path
      · rw [same, here] at held
        exact absurd (same ▸ isExposed) (undisturbed written held).1
      · exact elsewhere same ▸ held
    have guarded := vigilant.guarded
    unfold Guarded at guarded ⊢
    dsimp only
    cases activity : desk.activity with
    | writing nodeId name assembled version =>
      rw [activity] at guarded exposed
      exact fun written held => guarded written (exposed rfl held)
    | indexing nodeId name version =>
      rw [activity] at guarded exposed
      exact fun written held => guarded written (exposed rfl held)
    | statting nodeId name =>
      rw [activity] at guarded exposed
      exact fun written held => guarded written (exposed rfl held)
    | registering nodeId name facts =>
      rw [activity] at guarded
      intro written held
      have held : written ∈ Function.update desk.copies path copy (stagedPath nodeId name) := held
      by_cases same : stagedPath nodeId name = path
      · rw [same, here] at held
        refine .inr (.inl ((undisturbed written held).2.2 facts ?_))
        rw [activity, ← same]
        rfl
      · rw [elsewhere same] at held
        exact guarded written held
    | reading index source =>
      rw [activity] at guarded
      exact guarded
    | rereading index source bytes =>
      rw [activity] at guarded exposed
      exact ⟨guarded.1, fun written held => guarded.2 written (exposed rfl held)⟩
    | saving index source bytes facts =>
      rw [activity] at guarded
      refine ⟨guarded.1, fun written held => ?_⟩
      have held : written ∈ Function.update desk.copies path copy source := held
      by_cases same : source = path
      · rw [same, here] at held
        obtain ⟨_, watched, noted⟩ := undisturbed written held
        refine .inr ⟨noted facts ?_, fun other mem isSource => watched other mem (isSource.trans same)⟩
        rw [activity, ← same]
        rfl
      · rw [elsewhere same] at held
        exact guarded.2 written held
    | idle => trivial
    | pulling => trivial
    | checking => trivial
    | watching => trivial
    | settling => trivial

theorem exec [ChunkBodies] (vigilant : desk.Vigilant) (event : DeskEvent)
    (undisturbed : Undisturbed desk event) : (desk.exec event).Vigilant := by
  cases event with
  | external path copy => exact vigilant.external undisturbed
  | manifest fileId manifest => exact ⟨vigilant.watched, vigilant.guarded⟩
  | project nodes => exact ⟨vigilant.watched, vigilant.guarded⟩
  | connection up => exact ⟨vigilant.watched, vigilant.guarded⟩
  | restart => exact ⟨List.forall_mem_nil _, trivial⟩
  | openNode nodeId => exact vigilant.openNode nodeId
  | pulled complete => exact vigilant.pulled complete
  | check made => exact vigilant.check undisturbed
  | write outcome => exact vigilant.write outcome
  | index outcome => exact vigilant.index outcome
  | stat readable => exact vigilant.stat readable
  | register => exact vigilant.register
  | tick => exact vigilant.tick
  | look now readable => exact vigilant.look now readable
  | read readable => exact vigilant.read readable
  | reread readable => exact vigilant.reread readable
  | saved answer => exact vigilant.saved answer
  | settled nodes outcome => exact vigilant.settled nodes outcome

end Vigilant

end Desk

/-- In a run without such writes and openings, no edit is forgotten. -/
theorem edits_are_kept [ChunkBodies] [FileNames] (events : List DeskEvent)
    (undisturbed : deskMachine.Along Undisturbed events Desk.new) :
    deskMachine.Throughout Desk.KeepsEdits events Desk.new :=
  (deskMachine.throughout_of_step (fun _ event vigilant undisturbed => vigilant.exec event undisturbed) events
    Desk.new Desk.vigilant_new undisturbed).mono fun _ vigilant => vigilant.keepsEdits

section

/-! A copy that is edited after it was opened. -/

local instance : FileNames := ⟨id⟩

local instance : ChunkBodies := ⟨fun chunk => [UInt8.ofNat chunk.val.val]⟩

private def editsLetter : List DeskEvent :=
  opensLetter "a" ++ [.register, .external ⟨⟨1⟩, "a"⟩ (some ⟨[67], 9⟩)]

/-- Opened again before the edit is saved. -/
private def opensAgain : List DeskEvent :=
  editsLetter ++ [.openNode ⟨1⟩, .pulled true, .check true, .stat true, .register]

/-- Opened again when there is a newer version. -/
private def opensNewer : List DeskEvent :=
  editsLetter ++ [.manifest ⟨1⟩ (some (letter 66 2)), .openNode ⟨1⟩, .pulled true, .check true]

theorem edits_are_kept_one : deskMachine.Throughout Desk.KeepsEdits editsLetter Desk.new := by
  refine edits_are_kept editsLetter ⟨trivial, trivial, trivial, trivial, ?_, trivial, trivial, trivial, trivial,
    ?_, trivial⟩
  · intro nodeId name assembled version activity
    obtain ⟨rfl, rfl, rfl, rfl⟩ := Activity.checking.inj activity
    exact nofun
  · intro written same
    cases same
    exact ⟨by decide +kernel, by decide +kernel, nofun⟩

/-- The edit is put on record as if it were the task's own, or is written over. -/
theorem edits_are_kept_not :
    (deskMachine.Along ChangesFacts opensAgain Desk.new ∧
      ¬ (deskMachine.run opensAgain Desk.new).KeepsEdits) ∧
    deskMachine.Along ChangesFacts opensNewer Desk.new ∧ ¬ (deskMachine.run opensNewer Desk.new).KeepsEdits := by
  refine ⟨⟨by decide +kernel, fun keeps => ?_⟩, by decide +kernel, fun keeps => ?_⟩
  · have recorded := keeps.noticed ⟨⟨1⟩, ⟨⟨1⟩, "a"⟩, 1, 9, none⟩ (by decide +kernel) ⟨[67], 9⟩ (by decide +kernel)
      (by decide +kernel)
    exact absurd recorded (by decide)
  · have kept := keeps.spared ⟨1⟩ "a" [66] 2 (by decide +kernel) ⟨[67], 9⟩ (by decide +kernel)
    exact absurd kept (by decide +kernel)

end

end QuantumFs.Client
