import QuantumFs.Client.Workspace

/-! Whether the tree that the workspace shows is the tree of the open vault, once all that
was sent has arrived. -/
namespace QuantumFs.Client

open Lib

theorem keyById_some {list : List FsNode} {id : String} {node : FsNode} (h : keyById list id = some node) :
    node ∈ list ∧ node.id = id := by
  unfold keyById at h
  have isId := List.find?_some h
  exact ⟨List.mem_reverse.mp (List.mem_of_find?_eq_some h), of_decide_eq_true isId⟩

theorem keyById_isSome {list : List FsNode} {node : FsNode} (mem : node ∈ list) :
    ∃ listed, keyById list node.id = some listed :=
  Option.isSome_iff_exists.mp (List.find?_isSome.mpr ⟨node, List.mem_reverse.mpr mem, decide_eq_true rfl⟩)

theorem keyById_eq_none {list : List FsNode} {id : String} :
    keyById list id = none ↔ ∀ node ∈ list, node.id ≠ id := by
  unfold keyById
  simp only [List.find?_eq_none, List.mem_reverse, decide_eq_true_eq, ne_eq]

theorem eq_of_sameNode {a b : FsNode} (same : sameNode a b = true) (id : a.id = b.id)
    (vault : a.vaultId = b.vaultId) : a = b := by
  simp only [sameNode, Bool.and_eq_true, decide_eq_true_eq] at same
  obtain ⟨⟨⟨⟨⟨⟨⟨⟨⟨⟨⟨⟨_, _⟩, _⟩, _⟩, _⟩, _⟩, _⟩, _⟩, _⟩, _⟩, _⟩, _⟩, _⟩ := same
  cases a
  cases b
  simp_all only

/-- All nodes of a task are of its vault. -/
def Projector.Of (task : Projector) (vault : String) : Prop := ∀ node ∈ task.nodes, node.vaultId = vault

namespace Projector

variable {task : Projector} {vault : String} {nodes : List FsNode}

theorem mem_upserts {full : Bool} {change : FsChange} (mem : change ∈ task.upserts full nodes) :
    ∃ node, change = .upsert node ∧ keyById nodes node.id = some node := by
  obtain ⟨listed, _, made⟩ := List.mem_filterMap.mp mem
  obtain ⟨node, found, made⟩ := Option.bind_eq_some_iff.mp made
  dsimp only at made
  obtain ⟨_, same⟩ := Option.ite_none_right_eq_some.mp made
  refine ⟨node, (Option.some.inj same).symm, ?_⟩
  rw [(keyById_some found).2]
  exact found

theorem mem_removes {change : FsChange} (mem : change ∈ task.removes nodes) :
    ∃ id, change = .remove id ∧ keyById nodes id = none := by
  obtain ⟨old, gone, rfl⟩ := List.mem_map.mp mem
  exact ⟨old.id, rfl, Option.isNone_iff_eq_none.mp (List.mem_filter.mp gone).2⟩

theorem applyAll_changes (own : task.Of vault) (ownNew : ∀ node ∈ nodes, node.vaultId = vault) :
    Delta.applyAll ((task.changes nodes).map FsChange.delta) task.entries = keyById nodes := by
  refine Delta.applyAll_eq (fun delta mem => ?_) (fun id differs => ?_)
  · obtain ⟨change, told, rfl⟩ := List.mem_map.mp mem
    obtain upserted | removed := List.mem_append.mp told
    · obtain ⟨node, rfl, found⟩ := mem_upserts upserted
      exact found.symm
    · obtain ⟨id, rfl, missing⟩ := mem_removes removed
      exact missing.symm
  · cases found : keyById nodes id with
    | none =>
      rw [found] at differs
      obtain ⟨old, held⟩ := Option.ne_none_iff_exists'.mp differs
      obtain ⟨mem, rfl⟩ := keyById_some held
      refine ⟨_, List.mem_map.mpr ⟨.remove old.id, List.mem_append.mpr (.inr ?_), rfl⟩, rfl⟩
      refine List.mem_map.mpr ⟨old, List.mem_filter.mpr ⟨mem, ?_⟩, rfl⟩
      rw [found]
      rfl
    | some node =>
      rw [found] at differs
      obtain ⟨mem, rfl⟩ := keyById_some found
      refine ⟨_, List.mem_map.mpr ⟨.upsert node, List.mem_append.mpr (.inl ?_), rfl⟩, rfl⟩
      refine List.mem_filterMap.mpr ⟨node, mem, ?_⟩
      rw [found, Option.bind_some]
      dsimp only
      refine if_pos ?_
      rw [Bool.or_eq_true]
      refine .inr ?_
      split
      · rename_i old held
        obtain ⟨oldMem, oldId⟩ := keyById_some held
        rw [Bool.not_eq_true', ← Bool.not_eq_true]
        intro same
        refine differs (held.trans (congrArg some ?_))
        exact eq_of_sameNode same oldId ((own old oldMem).trans (ownNew node mem).symm)
      · rfl

theorem changes_eq_nil (own : task.Of vault) (ownNew : ∀ node ∈ nodes, node.vaultId = vault)
    (nothing : task.changes nodes = []) : keyById nodes = task.entries := by
  have same := applyAll_changes own ownNew
  rw [nothing] at same
  exact same.symm

theorem keyById_treeList {tree : List FsNode} (h : task.treeList = some tree) : keyById tree = task.entries := by
  obtain ⟨_, same⟩ := Option.ite_none_right_eq_some.mp h
  cases same
  have entered : ∀ node ∈ task.nodes.filterMap fun listed => task.entries listed.id,
      task.entries node.id = some node := by
    intro node mem
    obtain ⟨listed, _, held⟩ := List.mem_filterMap.mp mem
    rw [(keyById_some held).2, held]
  funext id
  cases held : task.entries id with
  | none =>
    refine keyById_eq_none.mpr fun node mem isId => ?_
    rw [← isId, entered node mem] at held
    cases held
  | some node =>
    obtain ⟨mem, rfl⟩ := keyById_some held
    have again : node ∈ task.nodes.filterMap fun listed => task.entries listed.id :=
      List.mem_filterMap.mpr ⟨node, mem, held⟩
    obtain ⟨listed, found⟩ := keyById_isSome again
    obtain ⟨again, sameId⟩ := keyById_some found
    rw [found, ← held, ← sameId, entered listed again]

theorem made_known (ids : List String) (id : String) :
    (keyById (ids.filterMap fun id => task.entries id) id).or (task.entries id) = task.entries id := by
  cases found : keyById (ids.filterMap fun id => task.entries id) id with
  | none => rfl
  | some node =>
    obtain ⟨mem, rfl⟩ := keyById_some found
    obtain ⟨other, _, held⟩ := List.mem_filterMap.mp mem
    rw [(keyById_some held).2, held]
    rfl

end Projector

/-- Nothing is on the way from the task and none of the calls made so far is awaited. -/
def Workspace.Quiet (space : Workspace) (vault : String) : Prop :=
  space.channel vault = [] ∧ ∀ call < space.nextCall, space.calls call = none

/-- Once it is quiet, the store shows the entries of the open vault. -/
def Workspace.Converged (space : Workspace) : Prop :=
  ∀ vault, space.vaultId = some vault → space.Quiet vault → space.nodes = (space.tasks vault).entries

/-- The call is the `openVault` that the store waits for. -/
def Workspace.Loading (space : Workspace) (call : Nat) : Prop :=
  ∃ vault tree others, space.calls call = some (vault, .openVault space.openToken tree others)

def Workspace.Holding (space : Workspace) (call : Nat) : Prop :=
  ∃ vault tree others, space.calls call = some (vault, .openVault space.openToken (some tree) others)

/-- No change of the vault arrives between the tree and the other answers of `openVault`,
none of these is an error, and nodes that were made arrive while their vault is open. -/
def Unbroken (space : Workspace) : WorkspaceEvent → Prop
  | .deliver vault =>
    match space.channel vault with
    | .changed _ :: _ => space.vaultId = some vault → ∀ call, ¬ space.Holding call
    | .tree call none :: _ => ¬ space.Loading call
    | .made call (some made) :: _ =>
      made ≠ [] → ∀ from_, space.calls call = some (from_, .make) → space.vaultId = some from_ ∨ space.vaultId = none
    | _ => True
  | .others call arrived => arrived = false → ¬ space.Loading call
  | _ => True

def Message.call : Message → Option Nat
  | .changed _ => none
  | .tree asker _ | .made asker _ => some asker

/-- A message as part of the feed of its task. -/
def Message.item : Message → FeedItem String FsNode
  | .changed changes => .change (changes.map FsChange.delta)
  | .tree _ (some nodes) => .report fun view => keyById nodes = view
  | .made _ (some nodes) => .report fun view => ∀ id, (keyById nodes id).or (view id) = view id
  | .tree _ none | .made _ none => .report fun _ => True

/-- `mirror` is what a store that follows every vault would show. -/
structure Linked (mirror : String → NodeMap) (space : Workspace) : Prop where
  own : ∀ vault, (space.tasks vault).Of vault
  feeds : ∀ vault, Conveys ((space.channel vault).map Message.item) (mirror vault) (space.tasks vault).entries
  routed : ∀ vault, ∀ message ∈ space.channel vault, ∀ call ∈ message.call,
    ∀ other state, space.calls call = some (other, state) → other = vault
  numbered : ∀ call, space.nextCall ≤ call →
    space.calls call = none ∧ ∀ vault, ∀ message ∈ space.channel vault, message.call ≠ some call
  pending : ∀ call vault token tree others, space.calls call = some (vault, .openVault token tree others) →
    token ≤ space.openToken ∧ (token = space.openToken → space.vaultId = some vault)
  single : ∀ call other, space.Loading call → space.Loading other → call = other
  held : ∀ call vault tree others,
    space.calls call = some (vault, .openVault space.openToken (some tree) others) → keyById tree = mirror vault
  shown : ∀ vault, space.vaultId = some vault → (∀ call, ¬ space.Loading call) → space.nodes = mirror vault

theorem Linked.converged {mirror : String → NodeMap} {space : Workspace} (linked : Linked mirror space) :
    space.Converged := by
  intro vault isOpen quiet
  have idle : ∀ call, ¬ space.Loading call := by
    rintro call ⟨_, _, _, pending⟩
    by_cases below : call < space.nextCall
    · rw [quiet.2 call below] at pending
      cases pending
    · rw [(linked.numbered call (Nat.not_lt.mp below)).1] at pending
      cases pending
  have feed := linked.feeds vault
  rw [quiet.1] at feed
  exact (linked.shown vault isOpen idle).trans feed

theorem linked_new : Linked (fun _ _ => none) Workspace.new where
  own := fun _ _ mem => nomatch mem
  feeds := fun _ => rfl
  routed := fun _ _ mem => nomatch mem
  numbered := fun _ _ => ⟨rfl, fun _ _ mem => nomatch mem⟩
  pending := fun _ _ _ _ _ h => nomatch h
  single := by
    rintro _ _ ⟨_, _, _, h⟩
    cases h
  held := fun _ _ _ _ h => nomatch h
  shown := fun _ h => nomatch h

namespace Linked

variable {mirror : String → NodeMap} {space : Workspace}

theorem begin (linked : Linked mirror space) (vault : String) {call : Call}
    (plain : ∀ token tree others, call ≠ .openVault token tree others) : Linked mirror (space.begin vault call) := by
  have old : ∀ {other : Nat} {state : String × Call}, (space.begin vault call).calls other = some state →
      (∃ token tree others, state.2 = .openVault token tree others) → space.calls other = some state := by
    intro other state held isOpen
    obtain ⟨token, tree, others, isOpen⟩ := isOpen
    have held : Function.update space.calls space.nextCall (some (vault, call)) other = some state := held
    by_cases same : other = space.nextCall
    · rw [same, Function.update_self] at held
      cases held
      exact absurd isOpen (plain token tree others)
    · rw [Function.update_of_ne same] at held
      exact held
  have loading : ∀ other, (space.begin vault call).Loading other ↔ space.Loading other := by
    intro other
    constructor
    · rintro ⟨of, tree, others, held⟩
      exact ⟨of, tree, others, old held ⟨_, _, _, rfl⟩⟩
    · rintro ⟨of, tree, others, held⟩
      refine ⟨of, tree, others, ?_⟩
      have apart : other ≠ space.nextCall := by
        rintro rfl
        rw [(linked.numbered _ (Nat.le_refl _)).1] at held
        cases held
      exact (Function.update_of_ne apart _ _).trans held
  refine ⟨linked.own, linked.feeds, ?_, ?_, ?_, ?_, ?_, ?_⟩
  · intro of message mem other isCall place state held
    have held : Function.update space.calls space.nextCall (some (vault, call)) other = some (place, state) := held
    by_cases same : other = space.nextCall
    · exact absurd (same ▸ isCall) ((linked.numbered _ (Nat.le_refl _)).2 of message mem)
    · rw [Function.update_of_ne same] at held
      exact linked.routed of message mem other isCall place state held
  · intro other above
    have above : space.nextCall + 1 ≤ other := above
    obtain ⟨free, unused⟩ := linked.numbered other (by omega)
    exact ⟨(Function.update_of_ne (by omega) _ _).trans free, unused⟩
  · exact fun other of token tree others held => linked.pending other of token tree others (old held ⟨_, _, _, rfl⟩)
  · exact fun one other first second => linked.single one other ((loading one).mp first) ((loading other).mp second)
  · exact fun other of tree others held => linked.held other of tree others (old held ⟨_, _, _, rfl⟩)
  · exact fun of isOpen idle => linked.shown of isOpen fun other isLoading => idle other ((loading other).mpr isLoading)

theorem openVault (linked : Linked mirror space) (vault : String) : Linked mirror (space.openVault vault) := by
  have here : (space.openVault vault).calls space.nextCall =
      some (vault, .openVault (space.openToken + 1) none false) := Function.update_self ..
  have elsewhere : ∀ {call : Nat}, call ≠ space.nextCall →
      (space.openVault vault).calls call = space.calls call := fun apart => Function.update_of_ne apart _ _
  -- the calls of before have older tokens
  have current : ∀ call, (space.openVault vault).Loading call → call = space.nextCall := by
    rintro call ⟨of, tree, others, held⟩
    by_contra apart
    rw [elsewhere apart] at held
    have older : space.openToken + 1 ≤ space.openToken := (linked.pending call of _ tree others held).1
    omega
  refine ⟨linked.own, linked.feeds, ?_, ?_, ?_, ?_, ?_, ?_⟩
  · intro of message mem call isCall place state held
    by_cases same : call = space.nextCall
    · exact absurd (same ▸ isCall) ((linked.numbered _ (Nat.le_refl _)).2 of message mem)
    · rw [elsewhere same] at held
      exact linked.routed of message mem call isCall place state held
  · intro call above
    have above : space.nextCall + 1 ≤ call := above
    obtain ⟨free, unused⟩ := linked.numbered call (by omega)
    exact ⟨(elsewhere (by omega)).trans free, unused⟩
  · intro call of token tree others held
    change token ≤ space.openToken + 1 ∧ (token = space.openToken + 1 → some vault = some of)
    by_cases same : call = space.nextCall
    · rw [same, here] at held
      cases held
      exact ⟨Nat.le_refl _, fun _ => rfl⟩
    · rw [elsewhere same] at held
      have older := (linked.pending call of token tree others held).1
      exact ⟨by omega, fun isNew => by omega⟩
  · exact fun one other first second => (current one first).trans (current other second).symm
  · intro call of tree others held
    have same := current call ⟨of, some tree, others, held⟩
    rw [same, here] at held
    cases held
  · exact fun _ _ idle => absurd ⟨vault, none, false, here⟩ (idle space.nextCall)

theorem closeVault (linked : Linked mirror space) : Linked mirror space.closeVault := by
  have older : ∀ {call of tree others},
      space.calls call ≠ some (of, .openVault (space.openToken + 1) tree others) := by
    intro call of tree others held
    have := (linked.pending call of _ tree others held).1
    omega
  refine ⟨linked.own, linked.feeds, linked.routed, linked.numbered, ?_, ?_, ?_, nofun⟩
  · intro call of token tree others held
    change token ≤ space.openToken + 1 ∧ (token = space.openToken + 1 → none = some of)
    have := (linked.pending call of token tree others held).1
    exact ⟨by omega, fun isNew => by omega⟩
  · rintro one other ⟨of, tree, others, held⟩
    exact absurd held older
  · exact fun call of tree others held => absurd held older

theorem finishWith (linked : Linked mirror space) (call : Nat) {nodes : NodeMap}
    (same : ∀ vault, space.vaultId = some vault → (∀ one, space.Loading one → one = call) → nodes = mirror vault) :
    Linked mirror { space.finish call with nodes := nodes } := by
  have here : (space.finish call).calls call = none := Function.update_self ..
  have still : ∀ {one : Nat} {state : String × Call}, (space.finish call).calls one = some state →
      space.calls one = some state := by
    intro one state held
    by_cases same : one = call
    · rw [same, here] at held
      cases held
    · exact (Function.update_of_ne same _ _).symm.trans held
  refine ⟨linked.own, linked.feeds, ?_, ?_, ?_, ?_, ?_, ?_⟩
  · exact fun of message mem one isCall place state held =>
      linked.routed of message mem one isCall place state (still held)
  · intro one above
    obtain ⟨free, unused⟩ := linked.numbered one above
    refine ⟨?_, unused⟩
    cases held : (space.finish call).calls one with
    | none => rfl
    | some state =>
      rw [still held] at free
      cases free
  · exact fun one of token tree others held => linked.pending one of token tree others (still held)
  · rintro one two ⟨of, tree, others, first⟩ ⟨of', tree', others', second⟩
    exact linked.single one two ⟨of, tree, others, still first⟩ ⟨of', tree', others', still second⟩
  · exact fun one of tree others held => linked.held one of tree others (still held)
  · intro vault isOpen idle
    refine same vault isOpen fun one isLoading => ?_
    obtain ⟨of, tree, others, held⟩ := isLoading
    by_contra apart
    exact idle one ⟨of, tree, others, (Function.update_of_ne apart _ _).trans held⟩

theorem finish (linked : Linked mirror space) {call : Nat} (other : ¬ space.Loading call) :
    Linked mirror (space.finish call) := by
  refine linked.finishWith call fun vault isOpen only => linked.shown vault isOpen fun one isLoading => other ?_
  rw [← only one isLoading]
  exact isLoading

theorem opened (linked : Linked mirror space) {call token : Nat} {vault : String} {tree : Option (List FsNode)}
    {others : Bool} (pending : space.calls call = some (vault, .openVault token tree others))
    {nodes : List FsNode} (same : token = space.openToken → keyById nodes = mirror vault) :
    Linked mirror (space.opened call token nodes) := by
  unfold Workspace.opened
  dsimp only
  split
  · rename_i current
    refine linked.finishWith call fun of isOpen _ => ?_
    rw [(linked.pending call vault token tree others pending).2 current] at isOpen
    cases isOpen
    exact same current
  · rename_i stale
    refine linked.finish fun isLoading => stale ?_
    obtain ⟨_, _, _, isLoading⟩ := isLoading
    rw [pending] at isLoading
    cases isLoading
    rfl

theorem hold (linked : Linked mirror space) {call token : Nat} {vault : String} {tree : Option (List FsNode)}
    {others : Bool} (pending : space.calls call = some (vault, .openVault token tree others))
    {got : Option (List FsNode)} {rest : Bool}
    (same : ∀ nodes, got = some nodes → token = space.openToken → keyById nodes = mirror vault) :
    Linked mirror (space.hold call vault (.openVault token got rest)) := by
  have here : (space.hold call vault (.openVault token got rest)).calls call =
      some (vault, .openVault token got rest) := Function.update_self ..
  have elsewhere : ∀ {one : Nat}, one ≠ call →
      (space.hold call vault (.openVault token got rest)).calls one = space.calls one := fun apart =>
    Function.update_of_ne apart _ _
  have loading : ∀ one, (space.hold call vault (.openVault token got rest)).Loading one ↔ space.Loading one := by
    intro one
    by_cases isCall : one = call
    · subst isCall
      constructor
      · rintro ⟨of, nodes, others, held⟩
        have held : some (vault, Call.openVault token got rest) = some (of, .openVault space.openToken nodes others) :=
          here.symm.trans held
        cases held
        exact ⟨_, _, _, pending⟩
      · rintro ⟨of, nodes, others, held⟩
        rw [pending] at held
        cases held
        exact ⟨_, _, _, here⟩
    · constructor
      · rintro ⟨of, nodes, others, held⟩
        exact ⟨of, nodes, others, (elsewhere isCall).symm.trans held⟩
      · rintro ⟨of, nodes, others, held⟩
        exact ⟨of, nodes, others, (elsewhere isCall).trans held⟩
  refine ⟨linked.own, linked.feeds, ?_, ?_, ?_, ?_, ?_, ?_⟩
  · intro of message mem one isAsker place state held
    by_cases isCall : one = call
    · subst isCall
      rw [here] at held
      cases held
      exact linked.routed of message mem one isAsker _ _ pending
    · exact linked.routed of message mem one isAsker place state ((elsewhere isCall).symm.trans held)
  · intro one above
    obtain ⟨free, unused⟩ := linked.numbered one above
    have isCall : one ≠ call := by
      rintro rfl
      rw [pending] at free
      cases free
    exact ⟨(elsewhere isCall).trans free, unused⟩
  · intro one of other nodes others held
    by_cases isCall : one = call
    · subst isCall
      rw [here] at held
      cases held
      exact linked.pending one _ _ _ _ pending
    · exact linked.pending one of other nodes others ((elsewhere isCall).symm.trans held)
  · exact fun one two first second => linked.single one two ((loading one).mp first) ((loading two).mp second)
  · intro one of nodes others held
    by_cases isCall : one = call
    · subst isCall
      have held : some (vault, Call.openVault token got rest) =
          some (of, .openVault space.openToken (some nodes) others) := here.symm.trans held
      cases held
      exact same nodes rfl rfl
    · exact linked.held one of nodes others ((elsewhere isCall).symm.trans held)
  · exact fun of isOpen idle => linked.shown of isOpen fun one isLoading => idle one ((loading one).mpr isLoading)

theorem others (linked : Linked mirror space) {call : Nat} {arrived : Bool}
    (unbroken : arrived = false → ¬ space.Loading call) : Linked mirror (space.others call arrived) := by
  unfold Workspace.others
  split
  · rename_i vault token tree others pending
    split
    · split
      · rename_i nodes
        refine linked.opened pending fun current => ?_
        subst current
        exact linked.held call vault nodes others pending
      · exact linked.hold pending nofun
    · rename_i refused
      exact linked.finish (unbroken (Bool.eq_false_iff.mpr refused))
  · exact linked

theorem advance (linked : Linked mirror space) {vault : String} {task : Projector} (own : task.Of vault)
    {channel : String → List Message} (asked : Nat → Bool) {sent : List Message}
    (here : channel vault = space.channel vault ++ sent)
    (elsewhere : ∀ of, of ≠ vault → channel of = space.channel of)
    (feed : Conveys ((channel vault).map Message.item) (mirror vault) task.entries)
    (calls : ∀ message ∈ sent, ∀ call ∈ message.call, call < space.nextCall ∧
      ∀ other state, space.calls call = some (other, state) → other = vault) :
    Linked mirror { space with
      tasks := Function.update space.tasks vault task
      channel := channel
      asked := asked } := by
  have mem : ∀ {of : String} {message : Message}, message ∈ channel of →
      message ∈ space.channel of ∨ of = vault ∧ message ∈ sent := by
    intro of message mem
    by_cases isVault : of = vault
    · subst isVault
      rw [here] at mem
      exact (List.mem_append.mp mem).imp_right fun mem => ⟨rfl, mem⟩
    · rw [elsewhere of isVault] at mem
      exact .inl mem
  refine ⟨?_, ?_, ?_, ?_, linked.pending, linked.single, linked.held, linked.shown⟩
  · intro of
    change (Function.update space.tasks vault task of).Of of
    by_cases isVault : of = vault
    · subst isVault
      rw [Function.update_self]
      exact own
    · rw [Function.update_of_ne isVault]
      exact linked.own of
  · intro of
    change Conveys ((channel of).map Message.item) (mirror of) (Function.update space.tasks vault task of).entries
    by_cases isVault : of = vault
    · subst isVault
      rw [Function.update_self]
      exact feed
    · rw [Function.update_of_ne isVault, elsewhere of isVault]
      exact linked.feeds of
  · intro of message isSent call isCall other state held
    obtain old | ⟨rfl, new⟩ := mem isSent
    · exact linked.routed of message old call isCall other state held
    · exact (calls message new call isCall).2 other state held
  · intro call above
    obtain ⟨free, unused⟩ := linked.numbered call above
    refine ⟨free, fun of message isSent isCall => ?_⟩
    obtain old | ⟨rfl, new⟩ := mem isSent
    · exact unused of message old isCall
    · exact absurd above (Nat.not_le.mpr (calls message new call isCall).1)

theorem project (linked : Linked mirror space) (vault : String) (nodes : List FsNode) :
    Linked mirror (space.project vault nodes) := by
  let listed := nodes.map fun node => { node with vaultId := vault }
  have ownNew : ∀ node ∈ listed, node.vaultId = vault := by
    intro node mem
    obtain ⟨_, _, rfl⟩ := List.mem_map.mp mem
    rfl
  have own : ((space.tasks vault).emitDiff listed).1.Of vault := ownNew
  have feed := linked.feeds vault
  unfold Workspace.project
  dsimp only
  split
  · rename_i nothing
    have same : keyById listed = (space.tasks vault).entries :=
      Projector.changes_eq_nil (linked.own vault) ownNew nothing
    refine linked.advance own space.asked (List.append_nil _).symm (fun _ _ => rfl) ?_ nofun
    rw [← same] at feed
    exact feed
  · refine linked.advance own space.asked (Function.update_self ..) (fun of apart => Function.update_of_ne apart _ _) ?_ ?_
    · have leads := Projector.applyAll_changes (linked.own vault) ownNew
      change Conveys ((Function.update space.channel vault _ vault).map Message.item) _ (keyById listed)
      rw [Function.update_self, List.map_append, ← leads]
      exact feed.change _
    · intro message mem call isCall
      cases List.mem_singleton.mp mem
      cases isCall

theorem reopen (linked : Linked mirror space) (vault : String) : Linked mirror (space.reopen vault) := by
  have own : ({ space.tasks vault with opened := true, fullProjection := true } : Projector).Of vault :=
    linked.own vault
  exact linked.advance own space.asked (List.append_nil _).symm (fun _ _ => rfl) (linked.feeds vault) nofun

theorem reply (linked : Linked mirror space) {vault : String} {call : Nat} {state : Call}
    (pending : space.calls call = some (vault, state)) {message : Message} (isReply : message.call = some call)
    {holds : NodeMap → Prop} (isReport : message.item = .report holds) (truth : holds (space.tasks vault).entries)
    {asked : Nat → Bool} : Linked mirror ({ space with asked := asked }.send vault message) := by
  have below : call < space.nextCall := by
    by_contra above
    rw [(linked.numbered call (Nat.not_lt.mp above)).1] at pending
    cases pending
  have feed : Conveys ((Function.update space.channel vault (space.channel vault ++ [message]) vault).map Message.item)
      (mirror vault) (space.tasks vault).entries := by
    rw [Function.update_self, List.map_append, List.map_singleton, isReport]
    exact (linked.feeds vault).report truth
  have next := linked.advance (linked.own vault) asked (Function.update_self ..)
    (fun of apart => Function.update_of_ne apart _ _) feed (by
      intro other mem isCall called
      cases List.mem_singleton.mp mem
      rw [isReply] at called
      cases called
      refine ⟨below, fun place kind held => ?_⟩
      rw [pending] at held
      cases held
      rfl)
  rw [Function.update_eq_self] at next
  exact next

theorem answer (linked : Linked mirror space) (call : Nat) (made : Option (List String)) :
    Linked mirror (space.answer call made) := by
  unfold Workspace.answer
  split
  · rename_i vault pending _
    cases made with
    | none => exact linked.reply pending rfl rfl trivial
    | some ids => exact linked.reply pending rfl rfl ((space.tasks vault).made_known ids)
  · rename_i vault state _ pending _
    cases tree : (space.tasks vault).treeList with
    | none => exact linked.reply pending rfl rfl trivial
    | some nodes => exact linked.reply pending rfl rfl (Projector.keyById_treeList tree)
  · exact linked

theorem onTree (linked : Linked mirror space) {vault : String} {call : Nat} {tree : Option (List FsNode)}
    (routed : ∀ other state, space.calls call = some (other, state) → other = vault)
    (same : ∀ nodes, tree = some nodes → keyById nodes = mirror vault)
    (unbroken : tree = none → ¬ space.Loading call) : Linked mirror (space.onTree call tree) := by
  unfold Workspace.onTree
  split
  · rename_i of token _ others nodes pending
    cases routed _ _ pending
    split
    · exact linked.opened pending fun _ => same nodes rfl
    · exact linked.hold pending fun other isTree _ => by
        cases isTree
        exact same nodes rfl
  · rename_i of nodes pending
    cases routed _ _ pending
    split
    · rename_i isOpen
      refine linked.finishWith call fun other isOther _ => ?_
      rw [isOpen] at isOther
      cases isOther
      exact same nodes rfl
    · refine linked.finish fun isLoading => ?_
      obtain ⟨_, _, _, held⟩ := isLoading
      rw [pending] at held
      cases held
  · exact linked
  · exact linked.finish (unbroken rfl)
  · exact linked

theorem onMade (linked : Linked mirror space) {vault : String} {call : Nat} {made : Option (List FsNode)}
    (routed : ∀ other state, space.calls call = some (other, state) → other = vault)
    (known : ∀ nodes, made = some nodes → ∀ id, (keyById nodes id).or (mirror vault id) = mirror vault id)
    (unbroken : ∀ nodes, made = some nodes → nodes ≠ [] → ∀ from_, space.calls call = some (from_, .make) →
      space.vaultId = some from_ ∨ space.vaultId = none) : Linked mirror (space.onMade call made) := by
  unfold Workspace.onMade
  split
  · rename_i of nodes pending
    cases routed _ _ pending
    have notLoading : ¬ space.Loading call := by
      rintro ⟨_, _, _, held⟩
      rw [pending] at held
      cases held
    refine linked.finishWith call fun other isOpen only => ?_
    have shown := linked.shown other isOpen fun one isLoading => notLoading (only one isLoading ▸ isLoading)
    funext id
    change (keyById nodes id).or (space.nodes id) = mirror other id
    rw [shown]
    cases nodes with
    | nil => rfl
    | cons first rest =>
      obtain here | closed := unbroken (first :: rest) rfl (List.cons_ne_nil _ _) vault pending
      · rw [isOpen] at here
        cases here
        exact known (first :: rest) rfl id
      · rw [isOpen] at closed
        cases closed
  · rename_i of pending
    refine linked.finish fun isLoading => ?_
    obtain ⟨_, _, _, held⟩ := isLoading
    rw [pending] at held
    cases held
  · exact linked

theorem pop (linked : Linked mirror space) {vault : String} {message : Message} {rest : List Message}
    (head : space.channel vault = message :: rest) {next : NodeMap}
    (feed : Conveys (rest.map Message.item) next (space.tasks vault).entries) (nodes : NodeMap)
    (held : next = mirror vault ∨ (space.vaultId = some vault → ∀ call, ¬ space.Holding call))
    (shown : ∀ of, space.vaultId = some of → (∀ call, ¬ space.Loading call) →
      nodes = Function.update mirror vault next of) :
    Linked (Function.update mirror vault next)
      { space with channel := Function.update space.channel vault rest, nodes := nodes } := by
  have mem : ∀ {of : String} {other : Message}, other ∈ Function.update space.channel vault rest of →
      other ∈ space.channel of := by
    intro of other mem
    by_cases isVault : of = vault
    · subst isVault
      rw [Function.update_self] at mem
      rw [head]
      exact List.mem_cons_of_mem message mem
    · rw [Function.update_of_ne isVault] at mem
      exact mem
  refine ⟨linked.own, ?_, ?_, ?_, linked.pending, linked.single, ?_, shown⟩
  · intro of
    change Conveys ((Function.update space.channel vault rest of).map Message.item) _ _
    by_cases isVault : of = vault
    · subst isVault
      rw [Function.update_self, Function.update_self]
      exact feed
    · rw [Function.update_of_ne isVault, Function.update_of_ne isVault]
      exact linked.feeds of
  · exact fun of other isSent => linked.routed of other (mem isSent)
  · intro call above
    obtain ⟨free, unused⟩ := linked.numbered call above
    exact ⟨free, fun of other isSent => unused of other (mem isSent)⟩
  · intro call of tree others pending
    have same := linked.held call of tree others pending
    by_cases isVault : of = vault
    · subst isVault
      rw [Function.update_self]
      obtain isSame | never := held
      · rw [isSame]
        exact same
      · have isOpen := (linked.pending call of _ _ others pending).2 rfl
        exact absurd ⟨of, tree, others, pending⟩ (never isOpen call)
    · rw [Function.update_of_ne isVault]
      exact same

theorem deliver (linked : Linked mirror space) {vault : String} (unbroken : Unbroken space (.deliver vault)) :
    ∃ next, Linked next (space.deliver vault) := by
  unfold Workspace.deliver
  split
  · exact ⟨mirror, linked⟩
  · rename_i message rest head
    have feed := linked.feeds vault
    rw [head] at feed
    have sent : message ∈ space.channel vault := head ▸ List.mem_cons_self
    -- a reply leaves every view as it is
    have popped : ∀ {holds : NodeMap → Prop}, message.item = .report holds →
        holds (mirror vault) ∧ Linked mirror { space with channel := Function.update space.channel vault rest } := by
      intro holds isReport
      rw [List.map_cons, isReport] at feed
      refine ⟨feed.1, ?_⟩
      have next := linked.pop head feed.2 space.nodes (.inl rfl) (by
        rw [Function.update_eq_self]
        exact linked.shown)
      rw [Function.update_eq_self] at next
      exact next
    unfold Unbroken at unbroken
    dsimp only at unbroken ⊢
    rw [head] at unbroken
    cases message with
    | changed changes =>
      dsimp only at unbroken ⊢
      have next : ∀ nodes : NodeMap, (∀ of, space.vaultId = some of → (∀ call, ¬ space.Loading call) →
          nodes = Function.update mirror vault (Delta.applyAll (changes.map FsChange.delta) (mirror vault)) of) →
            Linked (Function.update mirror vault (Delta.applyAll (changes.map FsChange.delta) (mirror vault)))
              { space with channel := Function.update space.channel vault rest, nodes := nodes } :=
        fun nodes shown => linked.pop head feed nodes (.inr unbroken) shown
      refine ⟨Function.update mirror vault (Delta.applyAll (changes.map FsChange.delta) (mirror vault)), ?_⟩
      split
      · rename_i isOpen
        refine next _ fun of isOf idle => ?_
        rw [isOpen] at isOf
        cases isOf
        rw [Function.update_self, linked.shown vault isOpen idle]
      · rename_i other
        refine next space.nodes fun of isOf idle => ?_
        have apart : of ≠ vault := by
          rintro rfl
          exact other isOf
        rw [Function.update_of_ne apart]
        exact linked.shown of isOf idle
    | tree call answer =>
      cases answer with
      | none =>
        obtain ⟨_, next⟩ := popped rfl
        exact ⟨mirror, next.onTree (linked.routed vault _ sent call rfl) nofun fun _ => unbroken⟩
      | some nodes =>
        obtain ⟨same, next⟩ := popped rfl
        refine ⟨mirror, next.onTree (linked.routed vault _ sent call rfl) (fun _ isTree => ?_) nofun⟩
        cases isTree
        exact same
    | made call answer =>
      cases answer with
      | none =>
        obtain ⟨_, next⟩ := popped rfl
        exact ⟨mirror, next.onMade (linked.routed vault _ sent call rfl) nofun nofun⟩
      | some nodes =>
        obtain ⟨known, next⟩ := popped rfl
        refine ⟨mirror, next.onMade (linked.routed vault _ sent call rfl) (fun _ isMade => ?_) fun _ isMade => ?_⟩
        · cases isMade
          exact known
        · cases isMade
          exact unbroken

theorem exec (linked : Linked mirror space) (event : WorkspaceEvent) (unbroken : Unbroken space event) :
    ∃ next, Linked next (space.exec event) := by
  cases event with
  | openVault vault => exact ⟨mirror, linked.openVault vault⟩
  | closeVault => exact ⟨mirror, linked.closeVault⟩
  | refreshTree =>
    refine ⟨mirror, ?_⟩
    change Linked mirror space.refreshTree
    unfold Workspace.refreshTree
    split
    · exact linked.begin _ nofun
    · exact linked
  | make =>
    refine ⟨mirror, ?_⟩
    change Linked mirror space.make
    unfold Workspace.make
    split
    · exact linked.begin _ nofun
    · exact linked
  | project vault nodes => exact ⟨mirror, linked.project vault nodes⟩
  | reopen vault => exact ⟨mirror, linked.reopen vault⟩
  | answer call made => exact ⟨mirror, linked.answer call made⟩
  | others call arrived => exact ⟨mirror, linked.others unbroken⟩
  | deliver vault => exact linked.deliver unbroken

end Linked

/-- In every unbroken run, whenever everything has arrived, the workspace shows the entries
of the open vault. -/
theorem workspace_converges (events : List WorkspaceEvent)
    (unbroken : workspaceMachine.Along Unbroken events Workspace.new) :
    workspaceMachine.Throughout Workspace.Converged events Workspace.new := by
  have run := workspaceMachine.throughout_of_step (fun space event (h : ∃ mirror, Linked mirror space) unbroken => by
    obtain ⟨mirror, linked⟩ := h
    exact linked.exec event unbroken) events Workspace.new ⟨_, linked_new⟩ unbroken
  exact run.mono fun _ ⟨_, linked⟩ => linked.converged

section

/-! One file that is added while its vault is opened, or made while another is. -/

private def plainNode (id : String) (parentId : Option String) (kind : NodeKind) : FsNode :=
  ⟨id, "v", parentId, kind, id, 0, 0, 0, "", "", none, .local, none, [], 0⟩

private def onlyRoot : List FsNode := [plainNode "root_v" none .folder]

private def withFile : List FsNode := onlyRoot ++ [plainNode "f" (some "root_v") .file]

private def asksFor (vault : String) : List WorkspaceEvent :=
  [.reopen vault, .project vault onlyRoot, .deliver vault, .openVault vault]

private def opensVault : List WorkspaceEvent := asksFor "v" ++ [.answer 0 none, .others 0 true, .deliver "v"]

/-- The file comes after the tree and before the other answers. -/
private def addsMeanwhile : List WorkspaceEvent :=
  asksFor "v" ++ [.answer 0 none, .deliver "v", .project "v" withFile, .deliver "v", .others 0 true]

/-- The answer to `createNode` comes when another vault is open. -/
private def switchesMeanwhile : List WorkspaceEvent :=
  opensVault ++ [.make] ++ asksFor "w" ++ [.answer 2 none, .others 2 true, .deliver "w", .project "v" withFile,
    .answer 1 (some ["f"]), .deliver "v", .deliver "v"]

private def withFolder : List FsNode := withFile ++ [plainNode "g" (some "root_v") .folder]

/-- A file comes as a change, the tree is read again, and a folder is made. -/
private def worksOn : List WorkspaceEvent :=
  opensVault ++ [.project "v" withFile, .deliver "v", .refreshTree, .answer 1 none, .deliver "v"] ++
    [.make, .project "v" withFolder, .answer 2 (some ["g"]), .deliver "v", .deliver "v"]

private theorem unbroken_worksOn : workspaceMachine.Along Unbroken worksOn Workspace.new := by
  refine ⟨trivial, trivial, ?_, trivial, trivial, ?_, trivial, trivial, ?_, trivial, trivial, trivial, trivial,
    trivial, trivial, ?_, ?_, trivial⟩
  · intro opened
    cases opened
  · intro failed
    cases failed
  · -- The call that opened the vault has come to its end.
    rintro _ call ⟨vault, tree, others, held⟩
    cases call with
    | zero => cases held
    | succ call => cases held
  · rintro _ call ⟨vault, tree, others, held⟩
    obtain _ | _ | _ | call := call
    · cases held
    · cases held
    · cases held
    · cases held
  · intro _ vault asked
    cases asked
    exact .inl rfl

theorem workspace_converges_opened : workspaceMachine.Throughout Workspace.Converged worksOn Workspace.new :=
  workspace_converges worksOn unbroken_worksOn

theorem workspace_converges_not :
    ¬ (workspaceMachine.run addsMeanwhile Workspace.new).Converged ∧
      ¬ (workspaceMachine.run switchesMeanwhile Workspace.new).Converged := by
  constructor
  · intro converged
    have same := congrFun (converged "v" (by decide +kernel) ⟨by decide +kernel, by decide +kernel⟩) "f"
    exact absurd same (by decide +kernel)
  · intro converged
    have same := congrFun (converged "w" (by decide +kernel) ⟨by decide +kernel, by decide +kernel⟩) "f"
    exact absurd same (by decide +kernel)

end

end QuantumFs.Client
