import QuantumFs.Client.NavigationKept

/-! What is left of the trail when folders are taken away. -/
namespace QuantumFs.Client

open Lib

namespace WorkspaceState

def living (nodes : NodeTable) (entries : List NavEntry) : List NavEntry :=
  entries.filter fun entry => nodes.has entry.folderId

/-- What belongs where one is: the entry that is there, or that of the nearest folder that is left. -/
def repaired (space : WorkspaceState) (nodes : NodeTable) (here : NavEntry) : List NavEntry :=
  if nodes.has here.folderId then [here]
  else ((space.survivor nodes here.folderId).map fun folderId => ⟨space.vaultId.getD "", folderId⟩).toList

/-- The trail `before`, `here`, `after` of `space` in the state `later`: its living entries in their
order and nothing new but what belongs in the middle, and a way back to the newest of those before. -/
structure TrailKept (space later : WorkspaceState) (before : List NavEntry) (here : NavEntry)
    (after : List NavEntry) : Prop where
  kept : living later.nodes later.nav.entries =
    living later.nodes before ++ space.repaired later.nodes here ++ living later.nodes after
  only : later.nav.entries.Sublist (before ++ space.repaired later.nodes here ++ after)
  place : ∀ entry ∈ space.repaired later.nodes here, later.folderId = some entry.folderId ∧
    ∃ i : Nat, later.nav.index = i ∧ later.nav.entries[i]? = some entry ∧
      living later.nodes (later.nav.entries.take i) = living later.nodes before
  back : ∀ newest, (living later.nodes before).getLast? = some newest →
    ∃ j : Nat, later.back = later.arriveAt newest.folderId ⟨later.nav.entries, j⟩ ∧
      living later.nodes (later.nav.entries.take (j + 1)) = living later.nodes before

/-- The folder stays; or none is left to go to, and none was visited before; or one is left, and no
other entry of the trail lives. -/
def Repairs (space : WorkspaceState) (changes : List FsChange) (before : List NavEntry) (here : NavEntry)
    (after : List NavEntry) : Prop :=
  let nodes := (space.applied changes).nodes
  nodes.has here.folderId = true ∨
    match space.survivor nodes here.folderId with
    | none => living nodes before = []
    | some target => truthy space.vaultId ≠ none ∧ (nodes.get target).map FsNode.kind = some .folder ∧
      living nodes before = [] ∧ living nodes after = []

section

variable {nodes : NodeTable}

theorem living_here {entry : NavEntry} (here : nodes.has entry.folderId = true) (entries : List NavEntry) :
    living nodes (entry :: entries) = entry :: living nodes entries := by
  unfold living
  rw [List.filter_cons, if_pos here]

theorem living_gone {entry : NavEntry} (gone : ¬nodes.has entry.folderId = true) (entries : List NavEntry) :
    living nodes (entry :: entries) = living nodes entries := by
  unfold living
  rw [List.filter_cons, if_neg gone]

theorem living_append (front back : List NavEntry) : living nodes (front ++ back) = living nodes front ++ living nodes back :=
  List.filter_append ..

theorem living_living (entries : List NavEntry) : living nodes (living nodes entries) = living nodes entries := by
  unfold living
  rw [List.filter_filter]
  simp

theorem living_take (entries : List NavEntry) (n : Nat) : (living nodes (entries.take n)).length ≤ n :=
  (List.length_filter_le _ _).trans (List.length_take_le _ _)

theorem last_living {entries : List NavEntry} {newest : NavEntry} (last : (living nodes entries).getLast? = some newest) :
    ∃ front rest, entries = front ++ newest :: rest ∧ nodes.has newest.folderId = true ∧ living nodes rest = [] := by
  have whole := List.dropLast_append_getLast? newest last
  obtain ⟨front, back, rfl, -, ends⟩ := List.filter_eq_append_iff.mp whole.symm
  obtain ⟨dead, rest, rfl, -, here, none⟩ := List.filter_eq_cons_iff.mp ends
  exact ⟨front ++ dead, rest, (List.append_assoc ..).symm, here, none⟩

end

theorem find_nearest {meant : Nat → Bool} {bound found : Nat} (below : found < bound) (met : meant found = true)
    (between : ∀ i, found < i → i < bound → meant i = false) : (List.range bound).reverse.find? meant = some found := by
  induction bound with
  | zero => omega
  | succ bound ih =>
    rw [List.range_succ, List.reverse_append, List.reverse_singleton, List.singleton_append]
    obtain rfl | lower := Nat.lt_succ_iff_lt_or_eq.mp below |>.symm
    · rw [List.find?_cons_of_pos met]
    · rw [List.find?_cons_of_neg (by rw [between bound lower bound.lt_succ_self]; exact Bool.false_ne_true)]
      exact ih lower fun i above under => between i above (Nat.lt_succ_of_lt under)

theorem survivors_append {nodes : NodeTable} {index : Int} (front rest : List NavEntry) {i : Nat}
    (until' : ((i + front.length : Nat) : Int) ≤ index + 1) (kept : List NavEntry) :
    survivors nodes index (front ++ rest) i ⟨kept, kept.length - 1⟩ =
      survivors nodes index rest (i + front.length)
        ⟨kept ++ living nodes front, (kept ++ living nodes front).length - 1⟩ := by
  induction front generalizing i kept with
  | nil => simp [living]
  | cons entry front ih =>
    rw [List.length_cons] at until'
    rw [List.cons_append, List.length_cons, survivors, show i + (front.length + 1) = i + 1 + front.length by omega]
    by_cases here : nodes.has entry.folderId
    · rw [if_pos here, living_here here, if_pos (by omega)]
      have next := @ih (i + 1) (by omega) (kept ++ [entry])
      rw [List.append_assoc, List.length_append, List.length_singleton, Nat.cast_add, Nat.cast_one, add_sub_cancel_right] at next
      exact next
    · rw [if_neg here, living_gone here]
      exact ih (by omega) kept

variable {space : WorkspaceState} {before after : List NavEntry} {here : NavEntry}

theorem survivors_living (nodes : NodeTable) (index : Int) (entries : List NavEntry) :
    (survivors nodes index entries 0 ⟨[], -1⟩).entries = living nodes entries := by
  rw [survivors_entries, List.nil_append]
  rfl

theorem prunedNav_living (trail : space.nav = ⟨before ++ here :: after, before.length⟩) {applied : Applied}
    (touched : applied.touchedRemoval = true) (fewer : living applied.nodes (before ++ here :: after) ≠ before ++ here :: after) :
    space.prunedNav applied = ⟨living applied.nodes (before ++ here :: after),
      (living applied.nodes (before ++ [here])).length - 1⟩ := by
  have counted := @survivors_append applied.nodes before.length (before ++ [here]) after 0 (by simp) []
  rw [List.nil_append, Nat.zero_add, List.append_assoc, List.singleton_append] at counted
  have size : (before ++ [here]).length = before.length + 1 := List.length_append
  have entries := survivors_living applied.nodes before.length (before ++ here :: after)
  unfold prunedNav
  rw [trail, if_pos ⟨touched, by simp⟩]
  dsimp only
  rw [if_pos ?_]
  · have index : (survivors applied.nodes before.length (before ++ here :: after) 0 ⟨[], -1⟩).index =
        (living applied.nodes (before ++ [here])).length - 1 := by
      refine (congrArg Nav.index counted).trans ?_
      rw [survivors_index after (by rw [size]; omega)]
    rw [← index]
    exact congrArg (Nav.mk · _) entries
  · rw [entries]
    exact fun same => fewer (List.filter_eq_self.mpr (List.length_filter_eq_length_iff.mp same))

theorem prunedNav_stays (trail : space.nav = ⟨before ++ here :: after, before.length⟩) {applied : Applied}
    (stays : applied.nodes.has here.folderId = true) : ∃ front rest,
      space.prunedNav applied = ⟨front ++ here :: rest, front.length⟩ ∧
      (front = before ∧ rest = after ∨ front = living applied.nodes before ∧ rest = living applied.nodes after) := by
  by_cases whole : living applied.nodes (before ++ here :: after) = before ++ here :: after
  · have entries := survivors_living applied.nodes before.length (before ++ here :: after)
    refine ⟨before, after, ?_, .inl ⟨rfl, rfl⟩⟩
    unfold prunedNav
    rw [trail]
    dsimp only
    split
    · rw [entries, if_neg (not_not.mpr (congrArg List.length whole))]
    · rfl
  · cases touched : applied.touchedRemoval with
    | false =>
      refine ⟨before, after, ?_, .inl ⟨rfl, rfl⟩⟩
      unfold prunedNav
      rw [if_neg (by rw [touched]; exact fun both => Bool.false_ne_true both.1), trail]
    | true =>
      refine ⟨_, _, ?_, .inr ⟨rfl, rfl⟩⟩
      rw [prunedNav_living trail touched whole, living_append, living_append, living_here stays, living_here stays,
        List.length_append]
      simp [living]

theorem prunedNav_leaves (trail : space.nav = ⟨before ++ here :: after, before.length⟩) {applied : Applied}
    (touched : applied.touchedRemoval = true) (gone : ¬applied.nodes.has here.folderId = true) :
    space.prunedNav applied = ⟨living applied.nodes before ++ living applied.nodes after,
      (living applied.nodes before).length - 1⟩ := by
  have fewer : living applied.nodes (before ++ here :: after) ≠ before ++ here :: after := by
    intro same
    have mem : here ∈ living applied.nodes (before ++ here :: after) := by
      rw [same]
      simp
    exact gone (List.mem_filter.mp mem).2
  rw [prunedNav_living trail touched fewer, living_append, living_append, living_gone gone, living_gone gone]
  simp [living]

theorem back_eq {front rest : List NavEntry} {newest : NavEntry} (trail : space.nav = ⟨front ++ rest, front.length⟩)
    (last : (living space.nodes front).getLast? = some newest) : ∃ j : Nat,
      space.back = space.arriveAt newest.folderId ⟨space.nav.entries, j⟩ ∧
      living space.nodes (space.nav.entries.take (j + 1)) = living space.nodes front := by
  obtain ⟨older, dead, rfl, alive, none⟩ := last_living last
  have found : space.liveNavIndex space.behind = some older.length := by
    unfold liveNavIndex behind
    rw [trail]
    dsimp only
    rw [if_pos (by simp), Int.toNat_natCast]
    refine find_nearest (by simp) ?_ fun i above below => ?_
    · have place : space.liveAt older.length = some newest := by
        rw [liveAt_eq_some, trail]
        exact ⟨by simp, alive⟩
      rw [place]
      rfl
    · rw [Bool.eq_false_iff]
      intro live
      obtain ⟨entry, live⟩ := Option.isSome_iff_exists.mp live
      obtain ⟨place, there⟩ := liveAt_eq_some.mp live
      rw [trail] at place
      have among : entry ∈ dead := by
        rw [List.append_assoc, List.getElem?_append_right (by omega), List.cons_append,
          show i - older.length = (i - older.length - 1) + 1 by omega, List.getElem?_cons_succ,
          List.getElem?_append_left (by rw [List.length_append, List.length_cons] at below; omega)] at place
        exact List.mem_of_getElem? place
      have mem : entry ∈ living space.nodes dead := List.mem_filter.mpr ⟨among, there⟩
      rw [none] at mem
      cases mem
  obtain ⟨entry, place, -, arrives⟩ := liveNavIndex_eq_some found
  refine ⟨older.length, ?_, ?_⟩
  · rw [trail] at place
    obtain rfl : newest = entry := by simpa using place
    exact arrives
  · have taken : (older ++ newest :: dead ++ rest).take (older.length + 1) = older ++ [newest] := by
      simp [List.take_append]
    rw [trail]
    dsimp only
    rw [taken, living_append, living_append, living_here alive, living_here alive, none]
    rfl

theorem trailKept_of_entry {later : WorkspaceState} {entry : NavEntry} {front rest : List NavEntry}
    (stands : space.repaired later.nodes here = [entry]) (trail : later.nav = ⟨front ++ entry :: rest, front.length⟩)
    (place : later.folderId = some entry.folderId) (alive : later.nodes.has entry.folderId = true)
    (fronts : living later.nodes front = living later.nodes before) (older : front.Sublist before)
    (rests : living later.nodes rest = living later.nodes after) (newer : rest.Sublist after) :
    TrailKept space later before here after where
  kept := by
    rw [stands, trail, living_append, living_here alive, fronts, rests, List.append_assoc]
    rfl
  only := by
    rw [stands, trail, List.append_assoc]
    exact older.append (newer.cons_cons entry)
  place other mem := by
    rw [stands, List.mem_singleton] at mem
    subst mem
    refine ⟨place, front.length, ?_, ?_, ?_⟩
    · rw [trail]
    · rw [trail]
      simp
    · rw [trail, List.take_left]
      exact fronts
  back newest last := by
    rw [← fronts] at last ⊢
    exact back_eq trail last

theorem back_skips {older newer : List NavEntry} {newest : NavEntry} {f : String}
    (trail : space.nav = ⟨older ++ newer, older.length - 1⟩) (last : (living space.nodes older).getLast? = some newest)
    (place : space.folderId = some f) (gone : ¬space.nodes.has f = true) (j : Nat)
    (returns : space.back = space.arriveAt newest.folderId ⟨space.nav.entries, j⟩) : j + 1 < older.length := by
  cases found : space.liveNavIndex space.behind with
  | none =>
    unfold back stepTo at returns
    rw [found] at returns
    have same : space.folderId = some newest.folderId := congrArg folderId returns
    have alive : space.nodes.has newest.folderId = true := (List.mem_filter.mp (List.mem_of_getLast? last)).2
    rw [place] at same
    exact absurd (Option.some.inj same ▸ alive) gone
  | some k =>
    obtain ⟨entry, -, -, arrives⟩ := liveNavIndex_eq_some found
    have index : (k : Int) = j := congrArg (fun space => space.nav.index) (arrives.symm.trans returns)
    unfold liveNavIndex behind at found
    rw [trail] at found
    dsimp only at found
    rw [if_pos (by rw [List.length_append]; omega)] at found
    have below := (find_below found).1
    omega

theorem applyChanges_stays {changes : List FsChange} {f : String} (place : space.folderId = some f)
    (some : changes ≠ []) (stays : (space.applied changes).nodes.has f = true) :
    space.applyChanges changes = space.changed (space.applied changes) := by
  unfold applyChanges
  rw [if_neg some, place]
  dsimp only
  rw [if_pos stays]

theorem applyChanges_leaves {changes : List FsChange} {f : String} (place : space.folderId = some f)
    (some : changes ≠ []) (gone : ¬(space.applied changes).nodes.has f = true) :
    space.applyChanges changes = match space.survivor (space.applied changes).nodes f with
      | .some target => (space.changed (space.applied changes)).navigateTo target true
      | none => space.changed (space.applied changes) := by
  unfold applyChanges
  rw [if_neg some, place]
  exact if_neg gone

theorem navigateTo_stays {f : String} {replace : Bool}
    (cannot : ¬(truthy space.vaultId ≠ none ∧ (space.nodes.get f).map FsNode.kind = some .folder)) :
    space.navigateTo f replace = space := by
  unfold navigateTo
  split
  · rename_i vaultId node vault found
    refine if_pos fun kind => cannot ⟨by rw [vault]; nofun, ?_⟩
    rw [found, Option.map_some, kind]
  · rfl

theorem survivor_has {nodes : NodeTable} {f target : String} (found : space.survivor nodes f = some target) :
    nodes.has target = true := by
  unfold survivor at found
  split at found
  · rename_i node ancestor
    cases found
    have kept := List.find?_some ancestor
    exact kept
  · obtain ⟨vaultId, -, found⟩ := Option.bind_eq_some_iff.mp found
    obtain ⟨root, named, rfl⟩ := Option.map_eq_some_iff.mp found
    exact NodeTable.has_rootOf named

theorem advanced_pruned {older newer : List NavEntry} (trail : space.nav = ⟨older ++ newer, older.length - 1⟩)
    (entry : NavEntry) : space.advanced entry true = ⟨older.dropLast ++ [entry], max 0 (older.length - 1)⟩ := by
  unfold advanced sliceTo
  rw [trail]
  dsimp only
  rw [if_pos rfl, if_pos (by omega), show ((older.length : Int) - 1 + 1).toNat = older.length by omega, List.take_left]

section

variable {changes : List FsChange} (place : space.folderId = some here.folderId)
  (trail : space.nav = ⟨before ++ here :: after, before.length⟩) (present : space.nodes.has here.folderId = true)

include place trail present

theorem trailKept_stays (stays : (space.applied changes).nodes.has here.folderId = true) :
    TrailKept space (space.applyChanges changes) before here after := by
  by_cases none : changes = []
  · subst none
    refine trailKept_of_entry (if_pos present) trail place present rfl (List.Sublist.refl _) rfl (List.Sublist.refl _)
  · rw [applyChanges_stays place none stays]
    obtain ⟨front, rest, pruned, ⟨rfl, rfl⟩ | ⟨rfl, rfl⟩⟩ := prunedNav_stays trail stays
    · exact trailKept_of_entry (if_pos stays) pruned place stays rfl (List.Sublist.refl _) rfl (List.Sublist.refl _)
    · exact trailKept_of_entry (if_pos stays) pruned place stays (living_living _) List.filter_sublist
        (living_living _) List.filter_sublist

theorem trailKept_nowhere (some : changes ≠ []) (gone : ¬(space.applied changes).nodes.has here.folderId = true)
    (none : space.survivor (space.applied changes).nodes here.folderId = none) :
    TrailKept space (space.applyChanges changes) before here after ↔ living (space.applied changes).nodes before = [] := by
  have touched : (space.applied changes).touchedRemoval = true :=
    foldl_touched changes (.inl present) (Bool.eq_false_iff.mpr gone)
  have pruned := prunedNav_leaves trail touched gone
  have stands : space.repaired (space.applied changes).nodes here = [] := by
    unfold repaired
    rw [if_neg gone, none]
    rfl
  rw [applyChanges_leaves place some gone, none]
  change TrailKept space (space.changed (space.applied changes)) before here after ↔ _
  generalize space.applied changes = applied at *
  constructor
  · intro kept
    by_contra visited
    obtain ⟨newest, last⟩ := Option.ne_none_iff_exists'.mp (List.getLast?_eq_none_iff.not.mpr visited)
    obtain ⟨j, returns, whole⟩ := kept.back newest last
    have skips := @back_skips (space.changed applied) _ _ newest _ pruned (by rw [← last]; exact congrArg _ (living_living _))
      place gone j returns
    have few := @living_take applied.nodes (space.changed applied).nav.entries (j + 1)
    change living applied.nodes ((space.changed applied).nav.entries.take (j + 1)) = living applied.nodes before at whole
    rw [whole] at few
    omega
  · intro nothing
    refine ⟨?_, ?_, ?_, fun newest last => ?_⟩
    · change living applied.nodes (space.prunedNav applied).entries =
        living applied.nodes before ++ space.repaired applied.nodes here ++ living applied.nodes after
      rw [pruned, stands, List.append_nil, living_append, living_living, living_living]
    · change (space.prunedNav applied).entries.Sublist (before ++ space.repaired applied.nodes here ++ after)
      rw [pruned, stands, List.append_nil]
      exact List.filter_sublist.append List.filter_sublist
    · change ∀ entry ∈ space.repaired applied.nodes here, _
      rw [stands]
      nofun
    · change (living applied.nodes before).getLast? = _ at last
      rw [nothing] at last
      cases last

theorem trailKept_leaves (some : changes ≠ []) (gone : ¬(space.applied changes).nodes.has here.folderId = true)
    {target : String} (found : space.survivor (space.applied changes).nodes here.folderId = .some target) :
    TrailKept space (space.applyChanges changes) before here after ↔ truthy space.vaultId ≠ none ∧
      ((space.applied changes).nodes.get target).map FsNode.kind = .some .folder ∧
      living (space.applied changes).nodes before = [] ∧ living (space.applied changes).nodes after = [] := by
  have touched : (space.applied changes).touchedRemoval = true :=
    foldl_touched changes (.inl present) (Bool.eq_false_iff.mpr gone)
  have pruned := prunedNav_leaves trail touched gone
  have there := survivor_has found
  have stands : space.repaired (space.applied changes).nodes here = [⟨space.vaultId.getD "", target⟩] := by
    unfold repaired
    rw [if_neg gone, found]
    rfl
  rw [applyChanges_leaves place some gone, found]
  change TrailKept space ((space.changed (space.applied changes)).navigateTo target true) before here after ↔ _
  generalize space.applied changes = applied at *
  by_cases can : truthy space.vaultId ≠ none ∧ (applied.nodes.get target).map FsNode.kind = .some .folder
  · obtain ⟨vault, folder⟩ := can
    obtain ⟨vaultId, named⟩ := Option.ne_none_iff_exists'.mp vault
    have other : space.folderId ≠ .some target := by
      rw [place]
      rintro ⟨⟩
      exact gone there
    rw [@navigateTo_eq (space.changed applied) _ true _ named folder other,
      @advanced_pruned (space.changed applied) _ _ pruned]
    have same : space.vaultId.getD "" = vaultId := by
      rw [(truthy_eq_some.mp named).1]
      rfl
    constructor
    · intro kept
      have lengths := congrArg List.length kept.kept
      change (living applied.nodes ((living applied.nodes before).dropLast ++ [⟨vaultId, target⟩])).length =
        (living applied.nodes before ++ space.repaired applied.nodes here ++ living applied.nodes after).length at lengths
      have few := List.length_filter_le (fun entry => applied.nodes.has entry.folderId)
        ((living applied.nodes before).dropLast ++ [⟨vaultId, target⟩])
      unfold living at lengths few
      rw [stands] at lengths
      simp only [List.length_append, List.length_singleton, List.length_dropLast] at lengths few
      refine ⟨vault, folder, List.length_eq_zero_iff.mp ?_, List.length_eq_zero_iff.mp ?_⟩ <;>
        · unfold living
          omega
    · rintro ⟨-, -, none, nothing⟩
      rw [none]
      refine @trailKept_of_entry _ _ _ _ _ ⟨vaultId, target⟩ [] [] ?_ rfl rfl there ?_ (List.nil_sublist _) ?_ (List.nil_sublist _)
      · rw [← same]
        exact stands
      · exact none.symm
      · exact nothing.symm
  · rw [@navigateTo_stays (space.changed applied) _ _ can]
    refine iff_of_false (fun kept => ?_) fun all => can ⟨all.1, all.2.1⟩
    have lengths := congrArg List.length kept.kept
    change (living applied.nodes (space.prunedNav applied).entries).length =
      (living applied.nodes before ++ space.repaired applied.nodes here ++ living applied.nodes after).length at lengths
    rw [pruned, living_append, living_living, living_living, stands] at lengths
    simp at lengths

/-- Taking folders away keeps the trail just where the folder that one is in stays, or where nothing
of the trail lives that replacing the last living entry could take. -/
theorem trail_kept : TrailKept space (space.applyChanges changes) before here after ↔ Repairs space changes before here after := by
  unfold Repairs
  dsimp only
  by_cases stays : (space.applied changes).nodes.has here.folderId = true
  · exact iff_of_true (trailKept_stays place trail present stays) (.inl stays)
  · have some : changes ≠ [] := by
      rintro rfl
      exact stays present
    rw [or_iff_right stays]
    cases found : space.survivor (space.applied changes).nodes here.folderId with
    | none => exact trailKept_nowhere place trail present some stays found
    | some target => exact trailKept_leaves place trail present some stays found

end

/-- Two folders in the root of the vault `v`, and one after the other visited. -/
def sampleTrail : WorkspaceState :=
  machine.run [.attach, .openVault "v" none [],
    .answer 0 (.tree [sampleFolder "root_v" none, sampleFolder "a" (some "root_v"), sampleFolder "b" (some "root_v")] "v"),
    .navigateTo "a" false, .navigateTo "b" false] new

/-- Taking away the folder that was visited before keeps the rest of the trail. -/
theorem trail_kept_before : TrailKept sampleTrail (sampleTrail.applyChanges [.remove "a"])
    [⟨"v", "root_v"⟩, ⟨"v", "a"⟩] ⟨"v", "b"⟩ [] :=
  (trail_kept (by decide +kernel) (by decide +kernel) (by decide +kernel)).mpr (.inl (by decide +kernel))

/-- Taking away the folder where one is loses the one that was visited before. -/
theorem trail_lost : (sampleTrail.applyChanges [.remove "b"]).nav = ⟨[⟨"v", "root_v"⟩, ⟨"v", "root_v"⟩], 1⟩ ∧
    ¬TrailKept sampleTrail (sampleTrail.applyChanges [.remove "b"]) [⟨"v", "root_v"⟩, ⟨"v", "a"⟩] ⟨"v", "b"⟩ [] := by
  refine ⟨by decide +kernel, fun kept => ?_⟩
  have lengths := congrArg List.length kept.kept
  revert lengths
  decide +kernel

end WorkspaceState

end QuantumFs.Client
