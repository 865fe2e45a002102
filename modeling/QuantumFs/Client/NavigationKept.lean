import QuantumFs.Client.Navigation

/-! What the actions of the workspace keep of the folder, the trail and the selection. -/
namespace QuantumFs.Client

open Lib

namespace WorkspaceState

/-- The place of the trail where one is has the folder `f`. -/
def Points (nav : Nav) (f : String) : Prop :=
  ∃ i : Nat, nav.index = i ∧ nav.entries[i]?.map NavEntry.folderId = some f

def root (space : WorkspaceState) : Option FsNode := space.vaultId.bind space.nodes.rootOf

structure Consistent (space : WorkspaceState) : Prop where
  folder : ∀ f, space.folderId = some f → space.root ≠ none → space.nodes.has f = true ∧ Points space.nav f
  selection : space.selection.Nodup ∧ ∀ id ∈ space.selection, space.nodes.has id = true
  returns : ∀ f, space.folderId = some f → space.canBack = true → space.back.canForward = true →
    space.back.forward.folderId = some f

/-- The folder stays as it is, or what the code goes to instead can be gone to. -/
def SafeChanges (space : WorkspaceState) (changes : List FsChange) : Prop :=
  ∀ f ∈ space.folderId, changes ≠ [] →
    if (space.applied changes).nodes.has f then space.nodes.has f = true
    else
      match space.survivor (space.applied changes).nodes f with
      | some survivor => ((space.applied changes).nodes.get survivor).map FsNode.kind = some .folder
      | none => ∀ entry ∈ space.nav.entries, (space.applied changes).nodes.has entry.folderId = false

def SafeOpened (nodes : NodeTable) (vaultId : String) (select : List String) : Prop :=
  vaultId ≠ "" ∧ (nodes.rootOf vaultId).map FsNode.id ≠ some "" ∧ (select.filter nodes.has).Nodup

/-- The folder is in the tree that is loaded, as in the one before, or neither it nor a root is. -/
def SafeRefreshed (space : WorkspaceState) (vaultId : String) (nodes : NodeTable) : Prop :=
  match (truthy space.folderId).filter nodes.has with
  | some f => space.nodes.has f = true
  | none => nodes.rootOf vaultId = none

def SafeCreated (space : WorkspaceState) (node : FsNode) : Prop :=
  ∀ f ∈ space.folderId, space.nodes.has f = true ∨ f ≠ node.id ∧
    ∀ vaultId ∈ space.vaultId, (space.nodes.set node).rootOf vaultId = none

def SafeReply (space : WorkspaceState) : Reply → Awaited → Prop
  | .tree list _, .openVault vaultId token _ select =>
    token = space.openToken → SafeOpened (.keyById list) vaultId select
  | .tree list _, .refreshTree vaultId => space.vaultId = some vaultId → space.SafeRefreshed vaultId (.keyById list)
  | .node node, .createNode => space.SafeCreated node
  | _, _ => True

def Safe (space : WorkspaceState) : WorkspaceAction → Prop
  | .applyChanges changes => space.SafeChanges changes
  | .answer call reply => ∀ awaited ∈ space.awaited call, space.SafeReply reply awaited
  | _ => True

structure Sound (space : WorkspaceState) : Prop where
  distinct : space.selection.Nodup
  selected : ∀ id ∈ space.selection, space.nodes.has id = true
  vault : space.folderId ≠ none ∨ space.nav.entries ≠ [] → truthy space.vaultId ≠ none
  opening : ∀ call vaultId token folderId select,
    space.awaited call = some (.openVault vaultId token folderId select) →
      token ≤ space.openToken ∧ (token = space.openToken → space.vaultId = some vaultId)

/-- There is no folder, one is where the trail says, or the folder is gone with the root and the trail. -/
structure Settled (space : WorkspaceState) : Prop extends Sound space where
  placed : ∀ f, space.folderId = some f → space.nodes.has f = true ∧ Points space.nav f ∨
    space.nodes.has f = false ∧ space.nav.entries = [] ∧ space.root = none

theorem truthy_ne_none {text : Option String} : truthy text ≠ none ↔ ∃ word, text = some word ∧ word ≠ "" := by
  cases text with
  | none => simp [truthy]
  | some word => by_cases same : word = "" <;> simp [truthy, same]

theorem truthy_eq_some {text : Option String} {word : String} : truthy text = some word ↔ text = some word ∧ word ≠ "" := by
  cases text with
  | none => simp [truthy]
  | some other =>
    by_cases same : other = ""
    · subst same
      simp only [truthy, Option.some.injEq, false_iff, not_and, not_not, reduceCtorEq]
      exact Eq.symm
    · simp only [truthy, same, imp_self, Option.some.injEq]
      exact ⟨fun equal => ⟨equal, equal ▸ same⟩, And.left⟩

theorem liveAt_eq_some {space : WorkspaceState} {i : Nat} {entry : NavEntry} :
    space.liveAt i = some entry ↔ space.nav.entries[i]? = some entry ∧ space.nodes.has entry.folderId = true := by
  unfold liveAt
  rw [Option.filter_eq_some_iff]

theorem settled_arriveAt {space : WorkspaceState} (sound : Sound space) (vault : truthy space.vaultId ≠ none)
    {f : String} {nav : Nav} (here : space.nodes.has f = true) (points : Points nav f) :
    Settled (space.arriveAt f nav) where
  distinct := List.nodup_nil
  selected := nofun
  vault _ := vault
  opening := sound.opening
  placed _ same := .inl (Option.some.inj same ▸ ⟨here, points⟩)

theorem points_advanced (space : WorkspaceState) (vaultId f : String) (replace : Bool) :
    Points (space.advanced ⟨vaultId, f⟩ replace) f := by
  unfold advanced
  dsimp only
  generalize sliceTo space.nav.entries (space.nav.index + 1) = kept
  cases replace with
  | false =>
    refine ⟨kept.length, rfl, ?_⟩
    change (kept ++ [_])[kept.length]?.map _ = _
    rw [List.getElem?_concat_length]
    rfl
  | true =>
    refine ⟨kept.dropLast.length, ?_, ?_⟩
    · change max 0 ((kept.length : Int) - 1) = _
      rw [List.length_dropLast]
      omega
    · change (kept.dropLast ++ [_])[kept.dropLast.length]?.map _ = _
      rw [List.getElem?_concat_length]
      rfl

theorem navigateTo_eq {space : WorkspaceState} {f : String} (replace : Bool) {vaultId : String}
    (vault : truthy space.vaultId = some vaultId) (folder : (space.nodes.get f).map FsNode.kind = some .folder)
    (other : space.folderId ≠ some f) :
    space.navigateTo f replace = space.arriveAt f (space.advanced ⟨vaultId, f⟩ replace) := by
  obtain ⟨node, found, kind⟩ := Option.map_eq_some_iff.mp folder
  unfold navigateTo
  rw [vault, found]
  dsimp only
  rw [if_neg (not_not.mpr kind), if_neg other]

theorem navigateTo_cases (space : WorkspaceState) (f : String) (replace : Bool) :
    space.navigateTo f replace = space ∨ space.nodes.has f = true ∧ ∃ vaultId, truthy space.vaultId = some vaultId ∧
      space.navigateTo f replace = space.arriveAt f (space.advanced ⟨vaultId, f⟩ replace) := by
  unfold navigateTo
  split
  · rename_i vaultId node vault found
    split
    · exact .inl rfl
    · split
      · exact .inl rfl
      · exact .inr ⟨by unfold NodeTable.has; rw [found]; rfl, vaultId, vault, rfl⟩
  · exact .inl rfl

theorem settled_navigateTo {space : WorkspaceState} (settled : Settled space) (f : String) (replace : Bool) :
    Settled (space.navigateTo f replace) := by
  obtain same | ⟨here, vaultId, vault, arrives⟩ := space.navigateTo_cases f replace
  · rw [same]
    exact settled
  · rw [arrives]
    exact settled_arriveAt settled.toSound (vault ▸ nofun) here (space.points_advanced vaultId f replace)

theorem settled_up {space : WorkspaceState} (settled : Settled space) : Settled space.up := by
  unfold up
  split
  · exact settled_navigateTo settled _ _
  · exact settled

theorem liveNavIndex_eq_some {space : WorkspaceState} {places : List Nat} {index : Nat}
    (found : space.liveNavIndex places = some index) : ∃ entry, space.nav.entries[index]? = some entry ∧
      space.nodes.has entry.folderId = true ∧
      space.stepTo places = space.arriveAt entry.folderId ⟨space.nav.entries, index⟩ := by
  have live := List.find?_some found
  obtain ⟨entry, live⟩ := Option.isSome_iff_exists.mp live
  obtain ⟨place, here⟩ := liveAt_eq_some.mp live
  refine ⟨entry, place, here, ?_⟩
  unfold stepTo
  rw [found]
  dsimp only
  rw [place]

theorem settled_stepTo {space : WorkspaceState} (settled : Settled space) (places : List Nat) :
    Settled (space.stepTo places) := by
  cases found : space.liveNavIndex places with
  | none =>
    unfold stepTo
    rw [found]
    exact settled
  | some index =>
    obtain ⟨entry, place, here, arrives⟩ := liveNavIndex_eq_some found
    rw [arrives]
    have some : space.nav.entries ≠ [] := fun none => by simp [none] at place
    exact settled_arriveAt settled.toSound (settled.vault (.inr some)) here ⟨index, rfl, by rw [place]; rfl⟩

theorem Settled.reselect {space later : WorkspaceState} (settled : Settled space) (distinct : later.selection.Nodup)
    (selected : ∀ id ∈ later.selection, space.nodes.has id = true)
    (frame : later = { space with
      selection := later.selection
      anchorId := later.anchorId
      focusedId := later.focusedId
      renamingId := later.renamingId }) : Settled later := by
  rw [frame]
  exact ⟨⟨distinct, selected, settled.vault, settled.opening⟩, settled.placed⟩

theorem select_selection {nodes : NodeTable} (ids next : List String) (distinct : next.Nodup)
    (selected : ∀ id ∈ next, nodes.has id = true) :
    (ids.foldl (fun next id => if nodes.has id ∧ id ∉ next then next ++ [id] else next) next).Nodup ∧
      ∀ id ∈ ids.foldl (fun next id => if nodes.has id ∧ id ∉ next then next ++ [id] else next) next,
        nodes.has id = true := by
  induction ids generalizing next with
  | nil => exact ⟨distinct, selected⟩
  | cons id ids ih =>
    rw [List.foldl_cons]
    split
    · rename_i fresh
      refine ih (next ++ [id]) (List.nodup_append.mpr ⟨distinct, List.nodup_singleton _, ?_⟩) ?_
      · rintro old mem other new rfl
        exact fresh.2 (List.mem_singleton.mp new ▸ mem)
      · intro other mem
        obtain old | new := List.mem_append.mp mem
        · exact selected other old
        · exact List.mem_singleton.mp new ▸ fresh.1
    · exact ih next distinct selected

theorem settled_select {space : WorkspaceState} (settled : Settled space) (ids : List String)
    (anchor focus : Option String) : Settled (space.select ids anchor focus) :=
  have selection := @select_selection space.nodes ids [] List.nodup_nil nofun
  settled.reselect selection.1 selection.2 rfl

theorem settled_toggleSelect {space : WorkspaceState} (settled : Settled space) (id : String) :
    Settled (space.toggleSelect id) := by
  unfold toggleSelect
  split
  · rename_i here
    split
    · refine settled.reselect (settled.distinct.filter _) (fun other mem => ?_) rfl
      exact settled.selected other (List.mem_filter.mp mem).1
    · rename_i absent
      refine settled.reselect (List.nodup_append.mpr ⟨settled.distinct, List.nodup_singleton _, ?_⟩) ?_ rfl
      · rintro old mem other new rfl
        exact absent (List.mem_singleton.mp new ▸ mem)
      · intro other mem
        obtain old | new := List.mem_append.mp mem
        · exact settled.selected other old
        · exact List.mem_singleton.mp new ▸ here
  · exact settled

theorem settled_rangeSelect {space : WorkspaceState} (settled : Settled space) (toId : String) (orderedIds : List String) :
    Settled (space.rangeSelect toId orderedIds) := by
  unfold rangeSelect
  dsimp only
  split
  · exact settled
  · split <;> exact settled_select settled _ _ _

theorem settled_startRename {space : WorkspaceState} (settled : Settled space) (id : String) :
    Settled (space.startRename id) := by
  unfold startRename
  split
  · rename_i here
    exact settled.reselect (List.nodup_singleton _) (fun other mem => List.mem_singleton.mp mem ▸ here) rfl
  · exact settled

theorem settled_vaultScoped {space : WorkspaceState} (settled : Settled space) (vaultId : Option String) :
    Settled { space.vaultScoped with vaultId := vaultId, openToken := space.openToken + 1 } where
  distinct := List.nodup_nil
  selected := nofun
  vault := Or.rec (absurd rfl) (absurd rfl)
  opening call _ token folderId select awaited := by
    have older := (settled.opening call _ token folderId select awaited).1
    exact ⟨older.trans (Nat.le_succ _), fun same => absurd same (Nat.ne_of_lt (Nat.lt_succ_of_le older))⟩
  placed := nofun

theorem Settled.await {space : WorkspaceState} (settled : Settled space) {call : Awaited}
    (current : ∀ vaultId token folderId select, call = .openVault vaultId token folderId select →
      token ≤ space.openToken ∧ (token = space.openToken → space.vaultId = some vaultId)) :
    Settled (space.await call) where
  distinct := settled.distinct
  selected := settled.selected
  vault := settled.vault
  placed := settled.placed
  opening other vaultId token folderId select awaited := by
    change Function.update space.awaited space.nextCall (some call) other = _ at awaited
    rw [Function.update_apply] at awaited
    split at awaited
    · exact current vaultId token folderId select (Option.some.inj awaited)
    · exact settled.opening other vaultId token folderId select awaited

theorem settled_openVault {space : WorkspaceState} (settled : Settled space) (vaultId : String)
    (folderId : Option String) (select : List String) : Settled (space.openVault vaultId folderId select) := by
  unfold openVault
  split
  · refine (settled_vaultScoped settled (some vaultId)).await ?_
    rintro _ _ _ _ ⟨⟩
    exact ⟨le_rfl, fun _ => rfl⟩
  · exact settled

theorem settled_refreshTree {space : WorkspaceState} (settled : Settled space) : Settled space.refreshTree := by
  unfold refreshTree
  split
  · exact settled.await nofun
  · exact settled

theorem settled_createNode {space : WorkspaceState} (settled : Settled space) : Settled space.createNode := by
  unfold createNode
  split
  · exact settled.await nofun
  · exact settled

theorem settled_answered {space : WorkspaceState} (settled : Settled space) (call : Nat) :
    Settled (space.answered call) where
  distinct := settled.distinct
  selected := settled.selected
  vault := settled.vault
  placed := settled.placed
  opening other vaultId token folderId select awaited := by
    change Function.update space.awaited call none other = _ at awaited
    rw [Function.update_apply] at awaited
    split at awaited
    · cases awaited
    · exact settled.opening other vaultId token folderId select awaited

theorem kept_or_root {nodes : NodeTable} {vaultId f : String} {folderId : Option String}
    (isHere : ((truthy folderId).filter nodes.has).or ((nodes.rootOf vaultId).map FsNode.id) = some f) :
    nodes.has f = true ∧ (f ≠ "" ∨ (nodes.rootOf vaultId).map FsNode.id = some f) := by
  obtain kept | ⟨-, isRoot⟩ := Option.or_eq_some_iff.mp isHere
  · obtain ⟨wanted, here⟩ := Option.filter_eq_some_iff.mp kept
    exact ⟨here, .inl (truthy_eq_some.mp wanted).2⟩
  · obtain ⟨root, found, rfl⟩ := Option.map_eq_some_iff.mp isRoot
    exact ⟨NodeTable.has_rootOf found, .inr isRoot⟩

theorem settled_opened {space : WorkspaceState} (settled : Settled space) {vaultId : String}
    (vault : space.vaultId = some vaultId) {folderId : Option String} {select : List String} {tree : List FsNode}
    {metaName : String} (safe : SafeOpened (.keyById tree) vaultId select) :
    Settled (space.opened vaultId folderId select tree metaName) where
  distinct := safe.2.2
  selected id mem := (List.mem_filter.mp mem).2
  vault _ := truthy_ne_none.mpr ⟨vaultId, vault, safe.1⟩
  opening := settled.opening
  placed f same := by
    obtain ⟨here, named⟩ := kept_or_root same
    have visible : f ≠ "" := by
      rintro rfl
      exact named.elim (absurd rfl) safe.2.1
    refine .inl ⟨here, 0, ?_⟩
    change (match truthy (space.opened vaultId folderId select tree metaName).folderId with
      | some folderId => (⟨[⟨vaultId, folderId⟩], 0⟩ : Nav)
      | none => ⟨[], -1⟩).index = _ ∧ (match truthy (space.opened vaultId folderId select tree metaName).folderId with
      | some folderId => (⟨[⟨vaultId, folderId⟩], 0⟩ : Nav)
      | none => ⟨[], -1⟩).entries[0]?.map _ = _
    rw [truthy_eq_some.mpr ⟨same, visible⟩]
    exact ⟨rfl, rfl⟩

theorem settled_refreshed {space : WorkspaceState} (settled : Settled space) {vaultId : String} {tree : List FsNode}
    (safe : space.SafeRefreshed vaultId (.keyById tree)) : Settled (space.refreshed vaultId tree) := by
  -- the folder that stays is the one of before, at its place of the trail
  have stays (f : String) (same : (space.refreshed vaultId tree).folderId = some f) :
      space.folderId = some f ∧ (NodeTable.keyById tree).has f = true ∧ space.nodes.has f = true := by
    change ((truthy space.folderId).filter _).or _ = _ at same
    unfold SafeRefreshed at safe
    split at safe
    · rename_i f' kept
      rw [kept, Option.some_or] at same
      cases same
      obtain ⟨wanted, here⟩ := Option.filter_eq_some_iff.mp kept
      exact ⟨(truthy_eq_some.mp wanted).1, here, safe⟩
    · rename_i gone
      rw [gone, safe] at same
      cases same
  refine ⟨⟨settled.distinct.filter _, fun id mem => (List.mem_filter.mp mem).2, fun either => ?_, settled.opening⟩, ?_⟩
  · refine settled.vault (either.imp_left fun some => ?_)
    obtain ⟨f, same⟩ := Option.ne_none_iff_exists'.mp some
    rw [(stays f same).1]
    exact Option.some_ne_none f
  · intro f same
    obtain ⟨before, here, there⟩ := stays f same
    obtain at' | lost := settled.placed f before
    · exact .inl ⟨here, at'.2⟩
    · rw [lost.1] at there
      cases there

theorem settled_created {space : WorkspaceState} (settled : Settled space) {node : FsNode}
    (safe : space.SafeCreated node) : Settled (space.created node) := by
  have more (id : String) (here : space.nodes.has id = true) : (space.nodes.set node).has id = true :=
    NodeTable.has_set.mpr (.inr here)
  refine settled_startRename (@settled_select { space with nodes := space.nodes.set node } ?_ _ _ _) _
  refine ⟨⟨settled.distinct, fun id mem => more id (settled.selected id mem), settled.vault, settled.opening⟩, ?_⟩
  intro f same
  obtain here | lost := settled.placed f same
  · exact .inl ⟨more f here.1, here.2⟩
  · obtain there | ⟨other, rootless⟩ := safe f same
    · rw [lost.1] at there
      cases there
    · refine .inr ⟨?_, lost.2.1, ?_⟩
      · rw [Bool.eq_false_iff, ne_eq, NodeTable.has_set]
        rintro (equal | there)
        · exact other equal
        · rw [lost.1] at there
          cases there
      · exact Option.bind_eq_none_iff.mpr rootless

theorem settled_receive {space : WorkspaceState} (settled : Settled space) {reply : Reply} {awaited : Awaited}
    (current : ∀ vaultId folderId select, awaited = .openVault vaultId space.openToken folderId select →
      space.vaultId = some vaultId) (safe : space.SafeReply reply awaited) : Settled (space.receive reply awaited) := by
  cases awaited with
  | openVault vaultId token folderId select =>
    simp only [receive]
    split
    · rename_i same
      subst same
      cases reply with
      | tree list metaName => exact settled_opened settled (current _ _ _ rfl) (safe rfl)
      | node node => exact settled
      | failed message => exact ⟨⟨settled.distinct, settled.selected, settled.vault, settled.opening⟩, settled.placed⟩
    · exact settled
  | refreshTree vaultId =>
    cases reply with
    | tree list metaName =>
      change Settled (if space.vaultId = some vaultId then space.refreshed vaultId list else space)
      split
      · rename_i same
        exact settled_refreshed settled (safe same)
      · exact settled
    | node node => exact settled
    | failed message => exact settled
  | createNode =>
    cases reply with
    | tree list metaName => exact settled
    | node node => exact settled_created settled safe
    | failed message => exact settled

theorem settled_answer {space : WorkspaceState} (settled : Settled space) (call : Nat) (reply : Reply)
    (safe : ∀ awaited ∈ space.awaited call, space.SafeReply reply awaited) : Settled (space.answer call reply) := by
  unfold answer
  split
  · rename_i awaited waits
    refine settled_receive (settled_answered settled call) ?_ (safe awaited waits)
    rintro vaultId folderId select rfl
    exact (settled.opening call vaultId _ folderId select waits).2 rfl
  · exact settled

theorem survivors_entries (nodes : NodeTable) (index : Int) (entries : List NavEntry) (i : Nat) (kept : Nav) :
    (survivors nodes index entries i kept).entries =
      kept.entries ++ entries.filter fun entry => nodes.has entry.folderId := by
  induction entries generalizing i kept with
  | nil => exact (List.append_nil _).symm
  | cons entry rest ih =>
    unfold survivors
    split
    · rename_i here
      rw [ih, List.filter_cons, if_pos here, List.append_assoc]
      rfl
    · rename_i gone
      rw [ih, List.filter_cons, if_neg gone]

theorem survivors_index {nodes : NodeTable} {index : Int} (entries : List NavEntry) {i : Nat} (past : index < i)
    (kept : Nav) : (survivors nodes index entries i kept).index = kept.index := by
  induction entries generalizing i kept with
  | nil => rfl
  | cons entry rest ih =>
    have later : index < (i + 1 : Nat) := by omega
    unfold survivors
    split
    · rw [ih later, if_neg (not_le.mpr past)]
    · exact ih later kept

theorem points_survivors {nodes : NodeTable} {f : String} (here : nodes.has f = true) {entries : List NavEntry}
    {i place : Nat} (points : entries[place]?.map NavEntry.folderId = some f) (kept : Nav) :
    Points (survivors nodes ((i + place : Nat) : Int) entries i kept) f := by
  induction entries generalizing i place kept with
  | nil => cases points
  | cons entry rest ih =>
    cases place with
    | zero =>
      have same : entry.folderId = f := Option.some.inj points
      refine ⟨kept.entries.length, ?_, ?_⟩
      · rw [survivors, if_pos (same ▸ here), survivors_index rest (by omega), if_pos (by omega)]
      · rw [survivors_entries, List.filter_cons, if_pos (same ▸ here), List.getElem?_append_right le_rfl, Nat.sub_self]
        exact congrArg some same
    | succ place =>
      rw [show i + (place + 1) = i + 1 + place by omega]
      unfold survivors
      split
      · exact ih points _
      · exact ih points _

theorem points_prunedNav {space : WorkspaceState} {applied : Applied} {f : String} (here : applied.nodes.has f = true)
    (points : Points space.nav f) : Points (space.prunedNav applied) f := by
  obtain ⟨place, index, there⟩ := points
  unfold prunedNav
  split
  · dsimp only
    split
    · rw [index]
      have kept := points_survivors here (i := 0) there ⟨[], -1⟩
      rwa [Nat.zero_add] at kept
    · exact ⟨place, index, there⟩
  · exact ⟨place, index, there⟩

theorem prunedNav_nil {space : WorkspaceState} (none : space.nav.entries = []) (applied : Applied) :
    (space.prunedNav applied).entries = [] := by
  unfold prunedNav
  rw [if_neg fun both => both.2 none]
  exact none

theorem prunedNav_gone {space : WorkspaceState} {applied : Applied} (touched : applied.touchedRemoval = true)
    (gone : ∀ entry ∈ space.nav.entries, applied.nodes.has entry.folderId = false) :
    (space.prunedNav applied).entries = [] := by
  by_cases none : space.nav.entries = []
  · exact prunedNav_nil none applied
  · have nothing : (survivors applied.nodes space.nav.index space.nav.entries 0 ⟨[], -1⟩).entries = [] := by
      rw [survivors_entries, List.nil_append, List.filter_eq_nil_iff]
      exact fun entry mem => by rw [gone entry mem]; exact Bool.false_ne_true
    unfold prunedNav
    rw [if_pos ⟨touched, none⟩]
    dsimp only
    split
    · exact nothing
    · rename_i same
      rw [not_not, nothing] at same
      exact List.length_eq_zero_iff.mp same.symm

theorem foldl_touched (changes : List FsChange) {applied : Applied} {f : String}
    (before : applied.nodes.has f = true ∨ applied.touchedRemoval = true)
    (after : (changes.foldl Applied.apply applied).nodes.has f = false) :
    (changes.foldl Applied.apply applied).touchedRemoval = true := by
  induction changes generalizing applied with
  | nil => exact before.elim (fun here => absurd after (here ▸ Bool.true_eq_false_eq_False)) fun touched => touched
  | cons change changes ih =>
    refine ih ?_ after
    cases change with
    | upsert node => exact before.imp_left fun here => NodeTable.has_set.mpr (.inr here)
    | remove nodeId =>
      change _ ∨ (applied.touchedRemoval || applied.nodes.has nodeId) = true
      obtain here | touched := before
      · by_cases same : f = nodeId
        · exact .inr (by rw [← same, here, Bool.or_true])
        · exact .inl (NodeTable.has_delete.mpr ⟨same, here⟩)
      · exact .inr (by rw [touched, Bool.true_or])

theorem sound_changed {space : WorkspaceState} (sound : Sound space) (applied : Applied) :
    Sound (space.changed applied) where
  distinct := sound.distinct.filter _
  selected id mem := by
    have kept := (List.mem_filter.mp mem).2
    change (applied.nodes.get id).isSome = true
    cases found : applied.nodes.get id with
    | none =>
      rw [found] at kept
      cases kept
    | some node => rfl
  vault either := sound.vault (either.imp_right fun some none => some (prunedNav_nil none applied))
  opening := sound.opening

theorem root_of_survivor {space : WorkspaceState} {nodes : NodeTable} {f : String} (vault : truthy space.vaultId ≠ none)
    (none : space.survivor nodes f = none) : space.vaultId.bind nodes.rootOf = Option.none := by
  obtain ⟨vaultId, same⟩ := Option.ne_none_iff_exists'.mp vault
  unfold survivor at none
  split at none
  · cases none
  · rw [same, Option.bind_some, Option.map_eq_none_iff] at none
    rw [(truthy_eq_some.mp same).1]
    exact none

theorem settled_applyChanges {space : WorkspaceState} (settled : Settled space) {changes : List FsChange}
    (safe : space.SafeChanges changes) : Settled (space.applyChanges changes) := by
  unfold applyChanges
  split
  · exact settled
  · rename_i some
    have sound := sound_changed settled.toSound (space.applied changes)
    dsimp only
    split
    · rename_i nowhere
      refine ⟨sound, fun f same => ?_⟩
      rw [show (space.changed (space.applied changes)).folderId = space.folderId from rfl, nowhere] at same
      cases same
    · rename_i f place
      have vault := settled.vault (.inl (place ▸ nofun))
      have safe := safe f place some
      split
      · rename_i here
        rw [if_pos here] at safe
        refine ⟨sound, fun f' same => ?_⟩
        obtain rfl : f = f' := Option.some.inj (place.symm.trans same)
        obtain at' | lost := settled.placed f place
        · exact .inl ⟨here, points_prunedNav here at'.2⟩
        · rw [lost.1] at safe
          cases safe
      · rename_i gone
        rw [if_neg gone] at safe
        split
        · rename_i target found
          rw [found] at safe
          obtain ⟨vaultId, same⟩ := Option.ne_none_iff_exists'.mp vault
          have there : (space.applied changes).nodes.has target = true := by
            obtain ⟨node, found, -⟩ := Option.map_eq_some_iff.mp safe
            unfold NodeTable.has
            rw [found]
            rfl
          have other : space.folderId ≠ Option.some target := by
            rw [place]
            rintro ⟨⟩
            exact gone there
          rw [@navigateTo_eq (space.changed (space.applied changes)) _ true _ same safe other]
          exact settled_arriveAt sound vault there (points_advanced _ _ _ _)
        · rename_i none
          rw [none] at safe
          refine ⟨sound, fun f' same => ?_⟩
          obtain rfl : f = f' := Option.some.inj (place.symm.trans same)
          refine .inr ⟨Bool.eq_false_iff.mpr gone, ?_, @root_of_survivor space _ f vault none⟩
          obtain at' | lost := settled.placed f place
          · exact prunedNav_gone (foldl_touched changes (.inl at'.1) (Bool.eq_false_iff.mpr gone)) safe
          · exact prunedNav_nil lost.2.1 _

theorem find_below {meant : Nat → Bool} {bound found : Nat} (h : (List.range bound).reverse.find? meant = some found) :
    found < bound ∧ meant found = true ∧ ∀ i, found < i → i < bound → meant i = false := by
  induction bound with
  | zero => cases h
  | succ bound ih =>
    rw [List.range_succ, List.reverse_append, List.reverse_singleton, List.singleton_append, List.find?_cons] at h
    cases last : meant bound with
    | true =>
      rw [last] at h
      cases h
      exact ⟨Nat.lt_succ_self _, last, fun i above below => absurd (Nat.lt_succ_iff.mp below) (not_le.mpr above)⟩
    | false =>
      rw [last] at h
      obtain ⟨below, met, between⟩ := ih h
      refine ⟨Nat.lt_succ_of_lt below, met, fun i above below => ?_⟩
      obtain rfl | lower := Nat.lt_succ_iff_lt_or_eq.mp below |>.symm
      · exact last
      · exact between i above lower

theorem returns_of_settled {space : WorkspaceState} (settled : Settled space) {f : String}
    (place : space.folderId = some f) (possible : space.canBack = true) : space.back.forward.folderId = some f := by
  unfold canBack at possible
  obtain ⟨j, found⟩ := Option.isSome_iff_exists.mp possible
  obtain ⟨entry, there, alive, arrives⟩ := liveNavIndex_eq_some found
  have some : space.nav.entries ≠ [] := fun none => by simp [none] at there
  obtain ⟨here, k, index, points⟩ | lost := settled.placed f place
  · obtain ⟨last, stands, named⟩ := Option.map_eq_some_iff.mp points
    have inside : k < space.nav.entries.length := (List.getElem?_eq_some_iff.mp stands).1
    unfold liveNavIndex behind at found
    rw [index, if_pos (by omega), Int.toNat_natCast] at found
    obtain ⟨before, -, between⟩ := find_below found
    -- from the entry before, the next one that is alive is the one where one was
    have again : space.back.liveNavIndex space.back.ahead = Option.some k := by
      change space.stepTo space.behind = _ at arrives
      unfold back
      rw [arrives]
      have places : (space.arriveAt entry.folderId ⟨space.nav.entries, j⟩).ahead =
          List.range' (j + 1) (space.nav.entries.length - (j + 1)) := by
        change (if (0 : Int) ≤ j + 1 then List.range' ((j : Int) + 1).toNat
          (space.nav.entries.length - ((j : Int) + 1).toNat) else []) = _
        rw [if_pos (by omega), show ((j : Int) + 1).toNat = j + 1 by omega]
      unfold liveNavIndex
      rw [places, List.find?_range'_eq_some]
      refine ⟨?_, List.mem_range'_1.mpr ⟨before, by omega⟩, fun i above below => ?_⟩
      · have live : space.liveAt k = Option.some last := liveAt_eq_some.mpr ⟨stands, named ▸ here⟩
        change (space.liveAt k).isSome = true
        rw [live]
        rfl
      · have dead := between i above below
        change (!(space.liveAt i).isSome) = true
        rw [dead]
        rfl
    obtain ⟨next, stood, -, arrived⟩ := liveNavIndex_eq_some again
    change space.back.stepTo space.back.ahead = _ at arrived
    unfold forward
    rw [arrived]
    have same : space.back.nav.entries = space.nav.entries := by
      change (space.stepTo space.behind).nav.entries = _
      rw [arrives]
      rfl
    rw [same, stands] at stood
    cases stood
    exact congrArg Option.some named
  · exact absurd lost.2.1 some

theorem consistent_of_settled {space : WorkspaceState} (settled : Settled space) : Consistent space where
  folder f place rooted := by
    obtain at' | lost := settled.placed f place
    · exact at'
    · exact absurd lost.2.2 rooted
  selection := ⟨settled.distinct, settled.selected⟩
  returns _ place possible _ := returns_of_settled settled place possible

theorem settled_new : Settled new :=
  ⟨⟨List.nodup_nil, nofun, Or.rec (absurd rfl) (absurd rfl), nofun⟩, nofun⟩

theorem settled_exec (space : WorkspaceState) (action : WorkspaceAction) (settled : Settled space)
    (safe : space.Safe action) : Settled (exec action space) := by
  cases action with
  | attach => exact ⟨⟨settled.distinct, settled.selected, settled.vault, settled.opening⟩, settled.placed⟩
  | openVault vaultId folderId select => exact settled_openVault settled vaultId folderId select
  | closeVault => exact settled_vaultScoped settled none
  | navigateTo folderId replace => exact settled_navigateTo settled folderId replace
  | back => exact settled_stepTo settled _
  | forward => exact settled_stepTo settled _
  | up => exact settled_up settled
  | select ids anchor focus => exact settled_select settled ids anchor focus
  | toggleSelect id => exact settled_toggleSelect settled id
  | rangeSelect toId orderedIds => exact settled_rangeSelect settled toId orderedIds
  | startRename id => exact settled_startRename settled id
  | applyChanges changes => exact settled_applyChanges settled safe
  | refreshTree => exact settled_refreshTree settled
  | createNode => exact settled_createNode settled
  | answer call reply => exact settled_answer settled call reply safe

/-- The folder, the trail and the selection agree throughout a run without a step that leaves
one of them behind. -/
theorem navigation_consistent (actions : List WorkspaceAction) (safe : machine.Along Safe actions new) :
    machine.Throughout Consistent actions new :=
  Machine.Throughout.mono (fun _ => consistent_of_settled)
    (machine.throughout_of_step settled_exec actions new settled_new safe)

theorem safeRefreshed_of_kept {space : WorkspaceState} {vaultId : String} {nodes : NodeTable} {f : String}
    (kept : (truthy space.folderId).filter nodes.has = some f) (here : space.nodes.has f = true) :
    space.SafeRefreshed vaultId nodes := by
  unfold SafeRefreshed
  rw [kept]
  exact here

/-- A folder of the vault `v`. -/
def sampleFolder (id : String) (parentId : Option String) : FsNode :=
  ⟨id, "v", parentId, .folder, id, 0, 0, 0, "", "", none, .local, none, [], 0⟩

/-- The vault `v` with a folder in its root, and what is done there. -/
def sampleTree : List FsNode := [sampleFolder "root_v" none, sampleFolder "inner" (some "root_v")]

def sampleVisit : List WorkspaceAction :=
  [.attach, .openVault "v" none ["inner"], .answer 0 (.tree sampleTree "v"), .navigateTo "inner" false,
    .applyChanges [.upsert (sampleFolder "other" (some "inner")), .remove "other"], .back, .refreshTree,
    .answer 1 (.tree sampleTree "v"), .forward]

theorem navigation_consistent_visit : machine.Throughout Consistent sampleVisit new := by
  refine navigation_consistent sampleVisit
    ⟨trivial, trivial, ?_, trivial, ?_, trivial, trivial, ?_, trivial, trivial⟩
  · intro awaited waits
    obtain rfl : Awaited.openVault "v" 1 none ["inner"] = awaited := Option.some.inj waits
    exact fun _ => ⟨by decide, by decide +kernel, by decide +kernel⟩
  · intro f place _
    obtain rfl : "inner" = f := Option.some.inj place
    rw [if_pos (by decide +kernel)]
    decide +kernel
  · intro awaited waits
    obtain rfl : Awaited.refreshTree "v" = awaited := Option.some.inj waits
    exact fun _ => @safeRefreshed_of_kept _ "v" _ "root_v" (by decide +kernel) (by decide +kernel)

/-- The folder where one is is not in the tree that is loaded again. -/
def sampleStale : List WorkspaceAction :=
  [.attach, .openVault "v" none [], .answer 0 (.tree sampleTree "v"), .navigateTo "inner" false, .refreshTree,
    .answer 1 (.tree [sampleFolder "root_v" none] "v")]

theorem navigation_left_behind : ¬Consistent (machine.run sampleStale new) := by
  intro consistent
  obtain ⟨-, i, index, points⟩ := consistent.folder "root_v" (by decide +kernel) (by decide +kernel)
  have last : (machine.run sampleStale new).nav = ⟨[⟨"v", "root_v"⟩, ⟨"v", "inner"⟩], 1⟩ := by decide +kernel
  rw [last] at index points
  obtain rfl : 1 = i := Int.ofNat.inj index
  exact absurd points (by decide)

end WorkspaceState

end QuantumFs.Client
