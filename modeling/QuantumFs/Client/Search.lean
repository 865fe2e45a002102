import QuantumFs.Client.MirroredUnique
import QuantumFs.Client.Navigation
import QuantumFs.Client.Query

/-! The search over the loaded trees (`lib/search/index.ts`): a filter for every node, and the names
of its ancestors from a cache that is filled while climbing. -/
namespace QuantumFs.Client.Search

open Lib
open QuantumFs.Client.Path (Units units UnicodeLowercase lowerUnits)
open QuantumFs.Client.Query (Calendar Instant ParsedQuery parseQuery)

/-- `localeCompare` is a consistent comparison. -/
class Collation where
  localeCompare : String → String → Int
  either_le : ∀ a b, localeCompare a b ≤ 0 ∨ localeCompare b a ≤ 0
  le_trans : ∀ a b c, localeCompare a b ≤ 0 → localeCompare b c ≤ 0 → localeCompare a c ≤ 0

export Collation (localeCompare)

local instance unicodeLowered [UnicodeLowercase] : UnitLowercase := ⟨lowerUnits⟩

/-- `nodesByVault` is an object: its keys are distinct, and listed as `Object.keys` lists them. -/
structure SearchContext where
  nodesByVault : List (String × NodeTable)
  distinct : (nodesByVault.map Prod.fst).Nodup
  vaultNames : String → Option String
  memberNames : String → Option String
  categoryOf : String → String
  now : Option Int

structure SearchOptions where
  vaultId : Option String
  limit : Int

structure RankedHit where
  node : FsNode
  vaultName : String
  path : List String
  score : Int
  runs : List (Nat × Nat)

/-- `includes` -/
def includes (text fragment : Units) : Bool := fragment <:+: text

/-- The fragment that a filter looks for; one that is empty is no filter. -/
def fragmentOf [UnicodeLowercase] (fragment : Option Units) : Option Units :=
  (fragment.filter (· ≠ [])).map lowerUnits |>.filter (· ≠ [])

/-- `time < instant` -/
def before (time : Int) (instant : Instant) : Bool := instant.any fun bound => time < bound

section

variable [UnicodeLowercase]

def matchesPerson (peerId : String) (fragment : Units) (memberNames : String → Option String) : Bool :=
  includes (lowerUnits (units peerId)) fragment ||
    (memberNames peerId).any fun name => includes (lowerUnits (units name)) fragment

def passes (q : ParsedQuery) (ctx : SearchContext) (node : FsNode) : Bool :=
  (q.kinds.all fun kinds => kinds.contains node.kind) &&
  (q.availability.all fun availability => node.availability = availability) &&
  (q.modifiedAfter.all fun after => !before node.modifiedAt after) &&
  (q.exts.all fun exts => exts.contains (lowerUnits (Path.splitName (units node.name)).2)) &&
  ((q.category.filter (· ≠ [])).all fun category => units (ctx.categoryOf node.name) = category) &&
  ((fragmentOf q.by).all fun fragment =>
    matchesPerson node.createdBy fragment ctx.memberNames || matchesPerson node.modifiedBy fragment ctx.memberNames)

/-- The filter that looks at the names of the ancestors. -/
def inside (q : ParsedQuery) (path : List String) : Bool :=
  (fragmentOf q.inFolder).all fun fragment => path.any fun name => includes (lowerUnits (units name)) fragment

def joined (path : List String) : Units := units ("/".intercalate path)

/-- `Math.round` of the score times `PATH_WEIGHT`, which is a half. -/
def pathScore (score : Int) : Int := (score + 1) / 2

/-- What comes after the path of a node is known. -/
def hitOf (q : ParsedQuery) (vaultName : String) (node : FsNode) (path : List String) : Option RankedHit :=
  if inside q path = false then none
  else if q.text.length = 0 then some ⟨node, vaultName, path, 0, []⟩
  else
    let nameHit := fuzzyMatch q.text (units node.name)
    let pathHit := if 0 < path.length then fuzzyMatch q.text (joined path) else none
    if nameHit.isNone ∧ pathHit.isNone then none
    else
      some ⟨node, vaultName, path,
        (match nameHit with | some hit => hit.score | none => 0) +
          (match pathHit with | some hit => pathScore hit.score | none => 0),
        match nameHit with | some hit => hit.runs | none => []⟩

end

abbrev PathCache : Type := String → Option (List String)

/-- `nodes[node.parentId]` -/
def parentOf (nodes : NodeTable) (node : FsNode) : Option FsNode := (truthy node.parentId).bind nodes.get

/-- The climb to the first node whose ancestors are known: it, the nodes passed on the way with the
nearest first, and the names above it. It has no bound of its own. -/
def climbFrom (nodes : NodeTable) (cache : PathCache) :
    Nat → List String → List FsNode → FsNode → Option (FsNode × List FsNode × List String)
  | 0, _, _, _ => none
  | rounds + 1, seen, passed, current =>
    match parentOf nodes current with
    | none => some (current, passed, [])
    | some parent =>
      if parent.parentId = none ∨ parent.id ∈ seen then some (current, passed, [])
      else
        match cache parent.id with
        | some above => some (current, passed, above ++ [parent.name])
        | none => climbFrom nodes cache rounds (parent.id :: seen) (current :: passed) parent

/-- The way back down, filling the cache for every node that the climb passed. -/
def unwind (cache : PathCache) (names : List String) (top : FsNode) : List FsNode → List String × PathCache
  | [] => (names, Function.update cache top.id (some names))
  | next :: passed => unwind (Function.update cache top.id (some names)) (names ++ [top.name]) next passed

def ancestorNames (rounds : Nat) (nodes : NodeTable) (cache : PathCache) (node : FsNode) :
    Option (List String × PathCache) :=
  match cache node.id with
  | some names => some (names, cache)
  | none => (climbFrom nodes cache rounds [node.id] [] node).map fun (top, passed, names) => unwind cache names top passed

section

variable [UnicodeLowercase] (rounds : Nat) (q : ParsedQuery) (ctx : SearchContext)

def visit (vaultName : String) (nodes : NodeTable) (state : PathCache × List RankedHit) (node : FsNode) :
    Option (PathCache × List RankedHit) :=
  if node.parentId = none ∨ passes q ctx node = false then some state
  else
    (ancestorNames rounds nodes state.1 node).map fun (path, cache) =>
      (cache, state.2 ++ (hitOf q vaultName node path).toList)

def searchVault (hits : List RankedHit) (vaultId : String) : Option (List RankedHit) :=
  match ctx.nodesByVault.lookup vaultId with
  | none => some hits
  | some nodes =>
    let vaultName := (ctx.vaultNames vaultId).getD ""
    (nodes.list.foldlM (visit rounds q ctx vaultName nodes) (fun _ => none, hits)).map Prod.snd

def vaultIds (opts : SearchOptions) : List String :=
  match opts.vaultId with
  | none => ctx.nodesByVault.map Prod.fst
  | some vaultId => [vaultId]

variable [Collation] [Calendar] (clock : Int) (raw : Units)

/-- The comparison of the ranking; `a` does not come after `b` where it is not positive. -/
def compareHits (a b : RankedHit) : Int :=
  if b.score ≠ a.score then b.score - a.score
  else if b.node.modifiedAt ≠ a.node.modifiedAt then (b.node.modifiedAt : Int) - a.node.modifiedAt
  else localeCompare a.node.name b.node.name

def searchNodes (opts : SearchOptions) : Option (List RankedHit) :=
  let q := parseQuery (ctx.now.getD clock) raw
  let limit := max 0 opts.limit
  if limit = 0 then some []
  else ((vaultIds ctx opts).foldlM (searchVault rounds q ctx) []).map fun hits =>
    let hits := hits.mergeSort fun a b => compareHits a b ≤ 0
    if limit < hits.length then hits.take limit.toNat else hits

end

section

variable (nodes : NodeTable)

/-- No node is above itself. -/
def Acyclic : Prop :=
  ∀ node ∈ nodes.list, ¬Relation.TransGen (fun low high => parentOf nodes low = some high) node node

def Topmost (node : FsNode) : Prop := ∀ parent, parentOf nodes node = some parent → parent.parentId = none

/-- The names on a way up from the node, without its own. On a map without cycles the way ends below
the root, or where a parent is missing. -/
inductive Climbs : FsNode → List String → Prop where
  | stop {node : FsNode} (top : Acyclic nodes → Topmost nodes node) : Climbs node []
  | up {node parent : FsNode} {names : List String} (found : parentOf nodes node = some parent)
      (inner : parent.parentId ≠ none) (above : Climbs parent names) : Climbs node (names ++ [parent.name])

def Tracked (cache : PathCache) : Prop :=
  ∀ node ∈ nodes.list, ∀ names, cache node.id = some names → Climbs nodes node names

def Linked (chain : List FsNode) : Prop :=
  chain.IsChain (fun high low => parentOf nodes low = some high ∧ high.parentId ≠ none) ∧ ∀ node ∈ chain, node ∈ nodes.list

variable {nodes}

theorem mem_of_get {id : String} {node : FsNode} (found : nodes.get id = some node) : node ∈ nodes.list ∧ node.id = id := by
  have same := List.find?_some found
  exact ⟨List.mem_of_find?_eq_some found, of_decide_eq_true same⟩

theorem mem_of_parentOf {node parent : FsNode} (found : parentOf nodes node = some parent) : parent ∈ nodes.list := by
  obtain ⟨id, -, get⟩ := Option.bind_eq_some_iff.mp found
  exact (mem_of_get get).1

theorem eq_of_id {node other : FsNode} (mem : node ∈ nodes.list) (mem' : other ∈ nodes.list) (same : node.id = other.id) :
    node = other :=
  List.inj_on_of_nodup_map nodes.distinct mem mem' same

theorem Linked.reaches {current : FsNode} {passed : List FsNode} (linked : Linked nodes (current :: passed)) {node : FsNode}
    (mem : node ∈ current :: passed) :
    Relation.ReflTransGen (fun low high => parentOf nodes low = some high) node current := by
  obtain ⟨chain, -⟩ := linked
  induction passed generalizing current with
  | nil =>
    rw [List.mem_singleton.mp mem]
  | cons next passed ih =>
    obtain ⟨⟨found, -⟩, chain⟩ := List.isChain_cons_cons.mp chain
    obtain rfl | mem := List.mem_cons.mp mem
    · exact .refl
    · exact (ih mem chain).tail found

theorem not_again (acyclic : Acyclic nodes) {current parent : FsNode} {passed : List FsNode}
    (linked : Linked nodes (current :: passed)) (found : parentOf nodes current = some parent) :
    parent.id ∉ (current :: passed).map FsNode.id := by
  intro again
  obtain ⟨node, mem, same⟩ := List.mem_map.mp again
  have there := mem_of_parentOf found
  obtain rfl := eq_of_id (linked.2 node mem) there same
  exact acyclic node there (Relation.TransGen.tail' (linked.reaches mem) found)

theorem climbFrom_ends {cache : PathCache} (sound : Tracked nodes cache) {seen : List String} {current : FsNode}
    {passed : List FsNode} (linked : Linked nodes (current :: passed))
    (visited : ∀ id ∈ seen, id ∈ (current :: passed).map FsNode.id) :
    ∃ top below names, Climbs nodes top names ∧ Linked nodes (top :: below) ∧
      (top :: below).getLast? = (current :: passed).getLast? ∧
      ∀ rounds, (nodes.list.filter fun node => node.id ∉ seen).length < rounds →
        climbFrom nodes cache rounds seen passed current = some (top, below, names) := by
  generalize size : (nodes.list.filter fun node => node.id ∉ seen).length = n
  induction n using Nat.strong_induction_on generalizing seen current passed with
  | _ n ih =>
    subst size
    have unfolded : ∀ {rounds}, (nodes.list.filter fun node => node.id ∉ seen).length < rounds →
        ∃ fewer, rounds = fewer + 1 := fun enough => Nat.exists_eq_add_one_of_ne_zero (Nat.ne_zero_of_lt enough)
    cases found : parentOf nodes current with
    | none =>
      refine ⟨current, passed, [], .stop fun _ parent other => ?_, linked, rfl, fun rounds enough => ?_⟩
      · rw [found] at other
        cases other
      · obtain ⟨fewer, rfl⟩ := unfolded enough
        rw [climbFrom, found]
    | some parent =>
      by_cases stop : parent.parentId = none ∨ parent.id ∈ seen
      · refine ⟨current, passed, [], .stop fun acyclic other isParent => ?_, linked, rfl, fun rounds enough => ?_⟩
        · rw [found] at isParent
          cases isParent
          exact stop.resolve_right fun again => not_again acyclic linked found (visited _ again)
        · obtain ⟨fewer, rfl⟩ := unfolded enough
          rw [climbFrom, found]
          exact if_pos stop
      · obtain ⟨inner, fresh⟩ := not_or.mp stop
        have there := mem_of_parentOf found
        cases known : cache parent.id with
        | some above =>
          refine ⟨current, passed, above ++ [parent.name], .up found inner (sound parent there above known), linked, rfl,
            fun rounds enough => ?_⟩
          obtain ⟨fewer, rfl⟩ := unfolded enough
          rw [climbFrom, found]
          dsimp only
          rw [if_neg stop, known]
        | none =>
          have linked' : Linked nodes (parent :: current :: passed) := by
            refine ⟨List.isChain_cons_cons.mpr ⟨⟨found, inner⟩, linked.1⟩, fun node mem => ?_⟩
            obtain rfl | mem := List.mem_cons.mp mem
            · exact there
            · exact linked.2 node mem
          have visited' : ∀ id ∈ parent.id :: seen, id ∈ (parent :: current :: passed).map FsNode.id := by
            intro id mem
            obtain rfl | mem := List.mem_cons.mp mem
            · exact List.mem_cons_self
            · exact List.mem_cons_of_mem _ (visited id mem)
          have fewer := NodeTable.fewer_unseen there fresh
          obtain ⟨top, below, names, climbs, chain, last, ends⟩ := ih _ fewer linked' visited' rfl
          refine ⟨top, below, names, climbs, chain, last.trans List.getLast?_cons_cons, fun rounds enough => ?_⟩
          obtain ⟨less, rfl⟩ := unfolded enough
          rw [climbFrom, found]
          dsimp only
          rw [if_neg stop, known]
          exact ends less (Nat.lt_of_lt_of_le fewer (Nat.lt_succ_iff.mp enough))

theorem Tracked.update {cache : PathCache} (sound : Tracked nodes cache) {node : FsNode} {names : List String}
    (mem : node ∈ nodes.list) (climbs : Climbs nodes node names) :
    Tracked nodes (Function.update cache node.id (some names)) := by
  intro other mem' found get
  by_cases same : other.id = node.id
  · rw [same, Function.update_self] at get
    cases get
    rw [eq_of_id mem' mem same]
    exact climbs
  · rw [Function.update_of_ne same] at get
    exact sound other mem' found get

theorem unwind_sound {cache : PathCache} (sound : Tracked nodes cache) {names : List String} {top : FsNode}
    {below : List FsNode} (climbs : Climbs nodes top names) (linked : Linked nodes (top :: below)) {node : FsNode}
    (last : (top :: below).getLast? = some node) :
    Climbs nodes node (unwind cache names top below).1 ∧ Tracked nodes (unwind cache names top below).2 := by
  induction below generalizing cache names top with
  | nil =>
    cases last
    exact ⟨climbs, sound.update (linked.2 _ List.mem_cons_self) climbs⟩
  | cons next below ih =>
    obtain ⟨⟨found, inner⟩, chain⟩ := List.isChain_cons_cons.mp linked.1
    rw [List.getLast?_cons_cons] at last
    rw [unwind]
    exact ih (sound.update (linked.2 _ List.mem_cons_self) climbs) (.up found inner climbs)
      ⟨chain, fun other mem => linked.2 other (List.mem_cons_of_mem _ mem)⟩ last

theorem ancestorNames_ends {cache : PathCache} (sound : Tracked nodes cache) {node : FsNode} (mem : node ∈ nodes.list) :
    ∃ names cache', Climbs nodes node names ∧ Tracked nodes cache' ∧
      ∀ rounds, nodes.list.length < rounds → ancestorNames rounds nodes cache node = some (names, cache') := by
  cases known : cache node.id with
  | some names =>
    refine ⟨names, cache, sound node mem names known, sound, fun rounds _ => ?_⟩
    rw [ancestorNames, known]
  | none =>
    have linked : Linked nodes [node] := ⟨List.isChain_singleton _, fun other same => List.mem_singleton.mp same ▸ mem⟩
    obtain ⟨top, below, names, climbs, chain, last, ends⟩ :=
      @climbFrom_ends nodes cache sound [node.id] node [] linked fun id here => here
    obtain ⟨climbed, sound'⟩ := unwind_sound sound climbs chain last
    refine ⟨_, _, climbed, sound', fun rounds enough => ?_⟩
    rw [ancestorNames, known]
    dsimp only
    rw [ends rounds (Nat.lt_of_le_of_lt (List.length_filter_le _ _) enough)]
    rfl

/-- The caches that the visits of any nodes, in any order, lead to. -/
inductive Filled (nodes : NodeTable) : PathCache → Prop where
  | empty : Filled nodes fun _ => none
  | ask {cache after : PathCache} {rounds : Nat} {node : FsNode} {names : List String} (filled : Filled nodes cache)
      (mem : node ∈ nodes.list) (enough : nodes.list.length < rounds)
      (asked : ancestorNames rounds nodes cache node = some (names, after)) : Filled nodes after

theorem tracked_empty : Tracked nodes fun _ => none := by
  intro node _ names known
  cases known

theorem Filled.tracked {cache : PathCache} (filled : Filled nodes cache) : Tracked nodes cache := by
  induction filled with
  | empty => exact tracked_empty
  | ask _ mem enough asked ih =>
    obtain ⟨names, after, -, sound, ends⟩ := ancestorNames_ends ih mem
    rw [ends _ enough] at asked
    cases asked
    exact sound

/-- The names on the chain from the root down to the node, without the root's and its own. -/
def directNames (nodes : NodeTable) (node : FsNode) : List String :=
  ((nodes.pathOf node.id).dropLast.filter fun above => above.parentId.isSome).map FsNode.name

theorem get_of_mem {node : FsNode} (mem : node ∈ nodes.list) : nodes.get node.id = some node := by
  unfold NodeTable.get
  cases found : nodes.list.find? (·.id = node.id) with
  | none => exact absurd (List.find?_eq_none.mp found node mem) (by simp)
  | some other =>
    obtain ⟨there, same⟩ := mem_of_get found
    rw [eq_of_id mem there same.symm]

theorem climb_step {seen : List String} {node : FsNode} (mem : node ∈ nodes.list) (fresh : node.id ∉ seen) :
    nodes.climb seen node.id =
      node :: match parentOf nodes node with
        | some parent => nodes.climb (node.id :: seen) parent.id
        | none => [] := by
  rw [NodeTable.climb]
  split
  · rename_i none
    rw [get_of_mem mem] at none
    cases none
  · rename_i found some
    rw [get_of_mem mem] at some
    cases some
    rw [dif_neg fresh]
    unfold parentOf
    cases node.parentId with
    | none => rfl
    | some parent =>
      dsimp only
      split
      · rename_i blank
        rw [blank]
        rfl
      · rename_i named
        have asked : truthy (.some parent) = .some parent := by
          unfold truthy
          split
          · rename_i blank
            exact absurd (Option.some.inj blank) named
          · rfl
        rw [asked, Option.bind_some]
        cases get : nodes.get parent with
        | none =>
          rw [NodeTable.climb]
          split
          · rfl
          · rename_i other
            rw [get] at other
            cases other
        | some above =>
          dsimp only
          rw [(mem_of_get get).2]

theorem climb_root {seen : List String} {root : FsNode} (mem : root ∈ nodes.list) (isRoot : root.parentId = none) :
    (nodes.climb seen root.id).filter (fun above => above.parentId.isSome) = [] := by
  by_cases again : root.id ∈ seen
  · rw [NodeTable.climb]
    split
    · rfl
    · rename_i found some
      rw [get_of_mem mem] at some
      cases some
      rw [dif_pos again]
      rfl
  · have none : parentOf nodes root = none := by
      unfold parentOf
      rw [isRoot]
      rfl
    rw [climb_step mem again, none]
    simp [isRoot]

theorem Climbs.direct {node : FsNode} {names : List String} (climbs : Climbs nodes node names) (acyclic : Acyclic nodes)
    (mem : node ∈ nodes.list) {seen : List String}
    (lower : ∀ id ∈ seen, ∃ low ∈ nodes.list, low.id = id ∧
      Relation.TransGen (fun low high => parentOf nodes low = some high) low node) :
    nodes.climb seen node.id = node :: (nodes.climb seen node.id).tail ∧
      (((nodes.climb seen node.id).tail.filter fun above => above.parentId.isSome).reverse.map FsNode.name) = names := by
  induction climbs generalizing seen with
  | @stop node top =>
    have fresh : node.id ∉ seen := by
      intro again
      obtain ⟨low, there, same, below⟩ := lower _ again
      rw [eq_of_id there mem same] at below
      exact acyclic node mem below
    rw [climb_step mem fresh]
    refine ⟨rfl, ?_⟩
    rw [List.tail_cons]
    cases found : parentOf nodes node with
    | none => rfl
    | some parent =>
      dsimp only
      rw [climb_root (mem_of_parentOf found) (top acyclic parent found)]
      rfl
  | @up node parent names found inner above ih =>
    have fresh : node.id ∉ seen := by
      intro again
      obtain ⟨low, there, same, below⟩ := lower _ again
      rw [eq_of_id there mem same] at below
      exact acyclic node mem below
    have lower' : ∀ id ∈ node.id :: seen, ∃ low ∈ nodes.list, low.id = id ∧
        Relation.TransGen (fun low high => parentOf nodes low = some high) low parent := by
      intro id here
      obtain rfl | here := List.mem_cons.mp here
      · exact ⟨node, mem, rfl, .single found⟩
      · obtain ⟨low, there, same, below⟩ := lower id here
        exact ⟨low, there, same, below.tail found⟩
    obtain ⟨starts, rest⟩ := ih (mem_of_parentOf found) lower'
    rw [climb_step mem fresh, found]
    refine ⟨rfl, ?_⟩
    dsimp only
    have kept : parent.parentId.isSome = true := Option.isSome_iff_ne_none.mpr inner
    rw [List.tail_cons, starts, List.filter_cons, if_pos kept, List.reverse_cons, List.map_append, rest]
    rfl

theorem Climbs.eq_direct {node : FsNode} {names : List String} (climbs : Climbs nodes node names)
    (acyclic : Acyclic nodes) (mem : node ∈ nodes.list) : names = directNames nodes node := by
  obtain ⟨-, rest⟩ := @Climbs.direct _ _ _ climbs acyclic mem [] fun id here => absurd here List.not_mem_nil
  unfold directNames NodeTable.pathOf
  rw [← rest, List.dropLast_reverse, List.filter_reverse]

end

section

variable [Collation] {a b c : RankedHit}

theorem compareHits_trans (first : compareHits a b ≤ 0) (second : compareHits b c ≤ 0) :
    compareHits a c ≤ 0 := by
  have names := Collation.le_trans a.node.name b.node.name c.node.name
  unfold compareHits at first second ⊢
  grind

theorem compareHits_total (a b : RankedHit) : compareHits a b ≤ 0 ∨ compareHits b a ≤ 0 := by
  have names := Collation.either_le a.node.name b.node.name
  unfold compareHits
  grind

end

/-- The vaults that are searched. -/
def searched (ctx : SearchContext) (opts : SearchOptions) : List (String × NodeTable) :=
  ctx.nodesByVault.filter fun entry => opts.vaultId.all fun vaultId => vaultId = entry.1

theorem lookup_of_mem {list : List (String × NodeTable)} (distinct : (list.map Prod.fst).Nodup)
    {entry : String × NodeTable} (mem : entry ∈ list) : list.lookup entry.1 = some entry.2 := by
  induction list with
  | nil => cases mem
  | cons first list ih =>
    rw [List.map_cons, List.nodup_cons] at distinct
    obtain rfl | mem := List.mem_cons.mp mem
    · rw [List.lookup_cons, beq_self_eq_true]
    · have other : (entry.1 == first.1) = false :=
        beq_eq_false_iff_ne.mpr fun same => distinct.1 (same ▸ List.mem_map_of_mem mem)
      rw [List.lookup_cons, other]
      exact ih distinct.2 mem

theorem mem_of_lookup {list : List (String × NodeTable)} {vaultId : String} {nodes : NodeTable}
    (here : list.lookup vaultId = some nodes) : (vaultId, nodes) ∈ list := by
  obtain ⟨before, after, rfl, -⟩ := List.lookup_eq_some_iff.mp here
  exact List.mem_append_right _ List.mem_cons_self

theorem filter_key (list : List (String × NodeTable)) (distinct : (list.map Prod.fst).Nodup) (vaultId : String) :
    list.filter (fun entry => vaultId = entry.1) =
      match list.lookup vaultId with | none => [] | some nodes => [(vaultId, nodes)] := by
  induction list with
  | nil => rfl
  | cons first list ih =>
    rw [List.map_cons, List.nodup_cons] at distinct
    by_cases same : vaultId = first.1
    · have rest : list.filter (fun entry => vaultId = entry.1) = [] := by
        rw [List.filter_eq_nil_iff]
        intro entry mem equal
        exact distinct.1 ((same.symm.trans (of_decide_eq_true equal)) ▸ List.mem_map_of_mem mem)
      rw [List.filter_cons, if_pos (decide_eq_true same), rest, List.lookup_cons, beq_iff_eq.mpr same, same]
    · rw [List.filter_cons, if_neg (by simpa using same), List.lookup_cons, beq_eq_false_iff_ne.mpr same]
      exact ih distinct.2

theorem flatMap_vaultIds {α : Type} (ctx : SearchContext) (opts : SearchOptions) (pick : String × NodeTable → List α) :
    ((vaultIds ctx opts).flatMap fun vaultId =>
        match ctx.nodesByVault.lookup vaultId with | none => [] | some nodes => pick (vaultId, nodes)) =
      (searched ctx opts).flatMap pick := by
  unfold vaultIds searched
  cases opts.vaultId with
  | none =>
    dsimp only [Option.all_none]
    rw [List.flatMap_map, List.filter_eq_self.mpr fun entry _ => rfl]
    refine List.flatMap_congr fun entry mem => ?_
    rw [lookup_of_mem ctx.distinct mem]
  | some vaultId =>
    dsimp only [Option.all_some]
    rw [filter_key ctx.nodesByVault ctx.distinct, List.flatMap_singleton]
    cases ctx.nodesByVault.lookup vaultId with
    | none => rfl
    | some nodes => rw [List.flatMap_singleton]

section

variable [UnicodeLowercase]

structure Satisfies (q : ParsedQuery) (ctx : SearchContext) (node : FsNode) (path : List String) : Prop where
  kind : ∀ kinds, q.kinds = some kinds → node.kind ∈ kinds
  availability : ∀ availability, q.availability = some availability → node.availability = availability
  modified : ∀ instant, q.modifiedAfter = some (some instant) → instant ≤ node.modifiedAt
  extension : ∀ exts, q.exts = some exts → lowerUnits (Path.splitName (units node.name)).2 ∈ exts
  category : ∀ category, q.category = some category → category ≠ [] → units (ctx.categoryOf node.name) = category
  person : ∀ person, q.by = some person → ∃ peerId, (peerId = node.createdBy ∨ peerId = node.modifiedBy) ∧
    ∃ called, (called = peerId ∨ ctx.memberNames peerId = some called) ∧ lowerUnits person <:+: lowerUnits (units called)
  folder : ∀ folder, q.inFolder = some folder → lowerUnits folder ≠ [] →
    ∃ name ∈ path, lowerUnits folder <:+: lowerUnits (units name)

/-- The node is not the root, satisfies all filters, and matches the text, if there is one, in its name or
in the joined path: the small letters of the text come in it in this order. -/
structure Found (q : ParsedQuery) (ctx : SearchContext) (node : FsNode) (path : List String) : Prop where
  inner : node.parentId ≠ none
  filters : Satisfies q ctx node path
  text : q.text ≠ [] → (lowerUnits q.text).Sublist (lowerUnits (units node.name)) ∨
    (lowerUnits q.text).Sublist (lowerUnits (joined path))

/-- What the search tests. -/
def found (q : ParsedQuery) (ctx : SearchContext) (node : FsNode) (path : List String) : Bool :=
  node.parentId.isSome && passes q ctx node && inside q path &&
    (q.text = [] || (fuzzyMatch q.text (units node.name)).isSome || (fuzzyMatch q.text (joined path)).isSome)

variable {q : ParsedQuery} {ctx : SearchContext}

theorem lowerUnits_nil : lowerUnits ([] : Units) = [] := by
  have mapped := UnicodeLowercase.lower_mapping ""
  have none : Lowercase.lower "" = "" := by
    rw [← String.toList_eq_nil_iff, ← List.map_eq_nil_iff, mapped]
    rfl
  have same := UnicodeLowercase.lowerUnits_units ""
  rw [none] at same
  exact same

theorem fragmentOf_eq_some {fragment : Option Units} {lowered : Units} : fragmentOf fragment = some lowered ↔
    ∃ text, fragment = some text ∧ lowerUnits text = lowered ∧ lowered ≠ [] := by
  unfold fragmentOf
  simp only [Option.filter_eq_some_iff, Option.map_eq_some_iff, decide_eq_true_eq]
  constructor
  · rintro ⟨⟨text, ⟨given, -⟩, same⟩, written⟩
    exact ⟨text, given, same, written⟩
  · rintro ⟨text, given, rfl, written⟩
    exact ⟨⟨text, ⟨given, fun blank => written (blank ▸ lowerUnits_nil)⟩, rfl⟩, written⟩

theorem matchesPerson_iff {peerId : String} {fragment : Units} : matchesPerson peerId fragment ctx.memberNames = true ↔
    ∃ called, (called = peerId ∨ ctx.memberNames peerId = some called) ∧ fragment <:+: lowerUnits (units called) := by
  simp only [matchesPerson, includes, Bool.or_eq_true, decide_eq_true_eq, Option.any_eq_true]
  constructor
  · rintro (here | ⟨name, known, here⟩)
    · exact ⟨peerId, .inl rfl, here⟩
    · exact ⟨name, .inr known, here⟩
  · rintro ⟨called, rfl | known, here⟩
    · exact .inl here
    · exact .inr ⟨called, known, here⟩

omit [UnicodeLowercase] in
theorem not_before {time : Int} {instant : Instant} :
    (!before time instant) = true ↔ ∀ bound, instant = some bound → bound ≤ time := by
  unfold before
  cases instant with
  | none => simp
  | some bound => simp

theorem satisfies_iff {node : FsNode} {path : List String} :
    passes q ctx node = true ∧ inside q path = true ↔ Satisfies q ctx node path := by
  simp only [passes, inside, Bool.and_eq_true, Option.all_eq_true, fragmentOf_eq_some, not_before, List.contains_iff_mem,
    decide_eq_true_eq, Bool.or_eq_true, matchesPerson_iff, List.any_eq_true, includes, Option.filter_eq_some_iff]
  constructor
  · rintro ⟨⟨⟨⟨⟨⟨kind, availability⟩, modified⟩, extension⟩, category⟩, person⟩, folder⟩
    refine ⟨kind, availability, fun instant given => modified _ given _ rfl, extension,
      fun category' given written => category category' ⟨given, written⟩, fun person' given => ?_,
      fun folder' given written => folder _ ⟨folder', given, rfl, written⟩⟩
    by_cases blank : lowerUnits person' = []
    · exact ⟨node.createdBy, .inl rfl, node.createdBy, .inl rfl, blank ▸ List.nil_infix⟩
    · obtain here | here := person _ ⟨person', given, rfl, blank⟩
      · exact ⟨node.createdBy, .inl rfl, here⟩
      · exact ⟨node.modifiedBy, .inr rfl, here⟩
  · intro satisfies
    refine ⟨⟨⟨⟨⟨⟨satisfies.kind, satisfies.availability⟩, ?_⟩, satisfies.extension⟩, ?_⟩, ?_⟩, ?_⟩
    · rintro instant given bound rfl
      exact satisfies.modified bound given
    · exact fun category given => satisfies.category category given.1 given.2
    · rintro _ ⟨person, given, rfl, -⟩
      obtain ⟨peerId, rfl | rfl, here⟩ := satisfies.person person given
      · exact .inl here
      · exact .inr here
    · rintro _ ⟨folder, given, rfl, written⟩
      exact satisfies.folder folder given written

theorem found_iff {node : FsNode} {path : List String} : found q ctx node path = true ↔ Found q ctx node path := by
  simp only [found, Bool.and_eq_true, Bool.or_eq_true, decide_eq_true_eq, Option.isSome_iff_ne_none (o := node.parentId),
    fuzzyMatch_isSome]
  constructor
  · rintro ⟨⟨⟨inner, passed⟩, inFolder⟩, text⟩
    refine ⟨inner, satisfies_iff.mp ⟨passed, inFolder⟩, fun written => ?_⟩
    rw [or_assoc] at text
    exact text.resolve_left written
  · intro here
    obtain ⟨passed, inFolder⟩ := satisfies_iff.mpr here.filters
    refine ⟨⟨⟨here.inner, passed⟩, inFolder⟩, ?_⟩
    rw [or_assoc, or_iff_not_imp_left]
    exact here.text

instance {node : FsNode} {path : List String} : Decidable (Found q ctx node path) := decidable_of_iff _ found_iff

theorem name_of_joined_nil {text name : Units} (matched : (fuzzyMatch text (joined [])).isSome = true) :
    (fuzzyMatch text name).isSome = true := by
  rw [fuzzyMatch_isSome] at matched ⊢
  have none : lowerUnits (joined []) = [] := lowerUnits_nil
  change (lowerUnits text).Sublist (lowerUnits (joined [])) at matched
  change (lowerUnits text).Sublist _
  rw [none, List.sublist_nil] at matched
  rw [matched]
  exact List.nil_sublist _

theorem hitOf_eq_some {vaultName : String} {node : FsNode} {path : List String} {hit : RankedHit}
    (here : hitOf q vaultName node path = some hit) : hit.node = node ∧ hit.path = path := by
  unfold hitOf at here
  obtain ⟨-, here⟩ := Option.ite_none_left_eq_some.mp here
  by_cases blank : q.text.length = 0
  · rw [if_pos blank] at here
    cases here
    exact ⟨rfl, rfl⟩
  · rw [if_neg blank] at here
    obtain ⟨-, here⟩ := Option.ite_none_left_eq_some.mp here
    cases here
    exact ⟨rfl, rfl⟩

theorem hitOf_isSome {vaultName : String} {node : FsNode} {path : List String} :
    (hitOf q vaultName node path).isSome = (inside q path &&
      (q.text = [] || (fuzzyMatch q.text (units node.name)).isSome || (fuzzyMatch q.text (joined path)).isSome)) := by
  unfold hitOf
  cases inside q path with
  | false => rfl
  | true =>
    rw [if_neg (by decide), Bool.true_and]
    by_cases blank : q.text = []
    · rw [if_pos (List.length_eq_zero_iff.mpr blank)]
      simp [blank]
    · rw [if_neg (mt List.length_eq_zero_iff.mp blank)]
      dsimp only
      cases path with
      | nil =>
        cases name : fuzzyMatch q.text (units node.name) with
        | some hit => simp
        | none =>
          have noPath : (fuzzyMatch q.text (joined [])).isSome = false := by
            rw [← Bool.not_eq_true]
            intro matched
            have := @name_of_joined_nil _ _ (units node.name) matched
            rw [name] at this
            cases this
          simp [blank, noPath]
      | cons first rest =>
        rw [if_pos (show 0 < (first :: rest).length from Nat.succ_pos _)]
        cases fuzzyMatch q.text (units node.name) <;> cases fuzzyMatch q.text (joined (first :: rest)) <;> simp [blank]

/-- What the visit of a node adds when these are the names above it. -/
def added (q : ParsedQuery) (ctx : SearchContext) (vaultName : String) (node : FsNode) (path : List String) :
    Option RankedHit :=
  if node.parentId = none ∨ passes q ctx node = false then none else hitOf q vaultName node path

theorem visits {nodes : NodeTable} (vaultName : String) {list : List FsNode} (nodup : list.Nodup)
    (inside : ∀ node ∈ list, node ∈ nodes.list) {cache : PathCache} (tracked : Tracked nodes cache) :
    ∃ (paths : FsNode → List String) (after : PathCache), (∀ node ∈ list, Climbs nodes node (paths node)) ∧
      ∀ rounds, nodes.list.length < rounds → ∀ hits,
        list.foldlM (visit rounds q ctx vaultName nodes) (cache, hits) =
          some (after, hits ++ list.filterMap fun node => added q ctx vaultName node (paths node)) := by
  induction list generalizing cache with
  | nil =>
    refine ⟨fun _ => [], cache, fun node mem => absurd mem List.not_mem_nil, fun rounds _ hits => ?_⟩
    rw [List.filterMap_nil, List.append_nil]
    rfl
  | cons node list ih =>
    obtain ⟨fresh, nodup⟩ := List.nodup_cons.mp nodup
    obtain ⟨names, filled, climbs, tracked', ends⟩ := ancestorNames_ends tracked (inside node List.mem_cons_self)
    have inside' : ∀ other ∈ list, other ∈ nodes.list := fun other mem => inside other (List.mem_cons_of_mem _ mem)
    -- A node that is filtered out leaves the cache as it is.
    have step : ∃ next : PathCache, Tracked nodes next ∧ ∀ rounds, nodes.list.length < rounds → ∀ hits,
        visit rounds q ctx vaultName nodes (cache, hits) node =
          some (next, hits ++ (added q ctx vaultName node names).toList) := by
      unfold visit added
      by_cases skipped : node.parentId = none ∨ passes q ctx node = false
      · refine ⟨cache, tracked, fun rounds _ hits => ?_⟩
        rw [if_pos skipped, if_pos skipped, Option.toList_none, List.append_nil]
      · refine ⟨filled, tracked', fun rounds enough hits => ?_⟩
        rw [if_neg skipped, if_neg skipped, ends rounds enough]
        rfl
    obtain ⟨next, trackedNext, visited⟩ := step
    obtain ⟨paths, after, climbs', rest⟩ := ih nodup inside' trackedNext
    have same : ∀ other ∈ list, Function.update paths node names other = paths other := by
      intro other mem
      refine Function.update_of_ne (fun equal => ?_) _ _
      subst equal
      exact fresh mem
    refine ⟨Function.update paths node names, after, ?_, fun rounds enough hits => ?_⟩
    · intro other mem
      obtain rfl | mem := List.mem_cons.mp mem
      · rw [Function.update_self]
        exact climbs
      · rw [same other mem]
        exact climbs' other mem
    · have later : (list.filterMap fun other => added q ctx vaultName other (Function.update paths node names other)) =
          list.filterMap fun other => added q ctx vaultName other (paths other) :=
        List.filterMap_congr fun other mem => by rw [same other mem]
      rw [List.foldlM_cons, visited rounds enough, Option.bind_eq_bind, Option.bind_some, rest rounds enough,
        List.filterMap_cons, Function.update_self, List.append_assoc, later]
      cases added q ctx vaultName node names <;> rfl

def addedBy (q : ParsedQuery) (ctx : SearchContext) (paths : String → FsNode → List String)
    (entry : String × NodeTable) : List RankedHit :=
  entry.2.list.filterMap fun node => added q ctx ((ctx.vaultNames entry.1).getD "") node (paths entry.1 node)

theorem searchVault_adds (q : ParsedQuery) (ctx : SearchContext) :
    ∃ paths : String → FsNode → List String,
      (∀ entry ∈ ctx.nodesByVault, ∀ node ∈ entry.2.list, Climbs entry.2 node (paths entry.1 node)) ∧
      ∀ rounds, (∀ entry ∈ ctx.nodesByVault, entry.2.list.length < rounds) → ∀ hits vaultId,
        searchVault rounds q ctx hits vaultId = some (hits ++
          match ctx.nodesByVault.lookup vaultId with
          | none => []
          | some nodes => addedBy q ctx paths (vaultId, nodes)) := by
  have one : ∀ vaultId, ∃ paths : FsNode → List String, ∀ nodes, ctx.nodesByVault.lookup vaultId = some nodes →
      (∀ node ∈ nodes.list, Climbs nodes node (paths node)) ∧
      ∀ rounds, nodes.list.length < rounds → ∀ hits, searchVault rounds q ctx hits vaultId = some (hits ++
        nodes.list.filterMap fun node => added q ctx ((ctx.vaultNames vaultId).getD "") node (paths node)) := by
    intro vaultId
    cases here : ctx.nodesByVault.lookup vaultId with
    | none => exact ⟨fun _ => [], fun nodes other => by cases other⟩
    | some nodes =>
      obtain ⟨paths, after, climbs, ends⟩ := @visits _ q ctx nodes ((ctx.vaultNames vaultId).getD "") nodes.list
        nodes.distinct.of_map (fun _ mem => mem) _ tracked_empty
      refine ⟨paths, fun other same => ?_⟩
      cases same
      refine ⟨climbs, fun rounds enough hits => ?_⟩
      unfold searchVault
      rw [here]
      dsimp only
      rw [ends rounds enough]
      rfl
  choose paths known using one
  refine ⟨paths, fun entry mem => (known entry.1 entry.2 (lookup_of_mem ctx.distinct mem)).1, ?_⟩
  intro rounds enough hits vaultId
  cases here : ctx.nodesByVault.lookup vaultId with
  | none =>
    unfold searchVault
    rw [here, List.append_nil]
  | some nodes => exact (known vaultId nodes here).2 rounds (enough _ (mem_of_lookup here)) hits

theorem searchVault_all {rounds : Nat} {pick : String → List RankedHit}
    (adds : ∀ hits vaultId, searchVault rounds q ctx hits vaultId = some (hits ++ pick vaultId)) (ids : List String)
    (hits : List RankedHit) : ids.foldlM (searchVault rounds q ctx) hits = some (hits ++ ids.flatMap pick) := by
  induction ids generalizing hits with
  | nil =>
    rw [List.flatMap_nil, List.append_nil]
    rfl
  | cons id ids ih =>
    rw [List.foldlM_cons, adds, Option.bind_eq_bind, Option.bind_some, ih, List.flatMap_cons, List.append_assoc]

theorem addedBy_found (paths : String → FsNode → List String) (entry : String × NodeTable) :
    (addedBy q ctx paths entry).map (fun hit => (hit.node, hit.path)) =
      (entry.2.list.filter fun node => found q ctx node (paths entry.1 node)).map fun node => (node, paths entry.1 node) := by
  unfold addedBy
  induction entry.2.list with
  | nil => rfl
  | cons node list ih =>
    have same : (added q ctx ((ctx.vaultNames entry.1).getD "") node (paths entry.1 node)).isSome =
        found q ctx node (paths entry.1 node) := by
      unfold added found
      cases parent : node.parentId with
      | none => rfl
      | some parent =>
        cases passed : passes q ctx node with
        | false => rfl
        | true =>
          rw [if_neg (by simp), hitOf_isSome, Option.isSome_some, Bool.true_and, Bool.true_and]
    rw [List.filterMap_cons, List.filter_cons, ← same]
    cases hit : added q ctx ((ctx.vaultNames entry.1).getD "") node (paths entry.1 node) with
    | none => exact ih
    | some hit' =>
      unfold added at hit
      obtain ⟨-, hit⟩ := Option.ite_none_left_eq_some.mp hit
      obtain ⟨isNode, isPath⟩ := hitOf_eq_some hit
      rw [Option.isSome_some, if_pos rfl, List.map_cons, List.map_cons, ih, isNode, isPath]

/-- A search ends with the first hits, in their order, of the nodes that are to be found, and the names
above a node do not depend on what was asked before. -/
theorem search_exact [Collation] [Calendar] (clock : Int) (raw : Units) (ctx : SearchContext) (opts : SearchOptions) :
    (∃ paths : String → FsNode → List String,
      (∀ entry ∈ ctx.nodesByVault, ∀ node ∈ entry.2.list, Climbs entry.2 node (paths entry.1 node) ∧
        (Acyclic entry.2 → paths entry.1 node = directNames entry.2 node)) ∧
      ∃ ranked : List RankedHit,
        (ranked.map fun hit => (hit.node, hit.path)).Perm ((searched ctx opts).flatMap fun entry =>
          (entry.2.list.filter fun node =>
            Found (parseQuery (ctx.now.getD clock) raw) ctx node (paths entry.1 node)).map fun node =>
              (node, paths entry.1 node)) ∧
        (∀ hit ∈ ranked, ∃ entry ∈ searched ctx opts, hit.node ∈ entry.2.list ∧
          hitOf (parseQuery (ctx.now.getD clock) raw) ((ctx.vaultNames entry.1).getD "") hit.node hit.path = some hit) ∧
        (ranked.Pairwise fun a b => compareHits a b ≤ 0) ∧
        ∀ rounds, (∀ entry ∈ ctx.nodesByVault, entry.2.list.length < rounds) →
          searchNodes rounds ctx clock raw opts = some (ranked.take opts.limit.toNat)) ∧
    ∀ nodes, Acyclic nodes → ∀ cache, Filled nodes cache → ∀ node ∈ nodes.list, ∃ after,
      ∀ rounds, nodes.list.length < rounds →
        ancestorNames rounds nodes cache node = some (directNames nodes node, after) := by
  obtain ⟨q, isQuery⟩ : ∃ q, q = parseQuery (ctx.now.getD clock) raw := ⟨_, rfl⟩
  rw [← isQuery]
  constructor
  · obtain ⟨paths, climbs, adds⟩ := searchVault_adds q ctx
    obtain ⟨hits, isHits⟩ : ∃ hits, hits = (searched ctx opts).flatMap (addedBy q ctx paths) := ⟨_, rfl⟩
    refine ⟨paths, fun entry mem node there => ⟨climbs entry mem node there, fun acyclic =>
      (climbs entry mem node there).eq_direct acyclic there⟩, hits.mergeSort fun a b => compareHits a b ≤ 0, ?_⟩
    refine ⟨?_, ?_, ?_, fun rounds enough => ?_⟩
    · refine ((List.mergeSort_perm hits _).map _).trans (List.Perm.of_eq ?_)
      rw [isHits, List.map_flatMap]
      refine List.flatMap_congr fun entry _ => ?_
      rw [addedBy_found]
      congr 2
      funext node
      exact Bool.eq_iff_iff.mpr (found_iff.trans decide_eq_true_iff.symm)
    · intro hit mem
      rw [List.mem_mergeSort, isHits] at mem
      obtain ⟨entry, isSearched, mem⟩ := List.mem_flatMap.mp mem
      obtain ⟨node, there, here⟩ := List.mem_filterMap.mp mem
      obtain ⟨-, here⟩ := Option.ite_none_left_eq_some.mp here
      obtain ⟨isNode, isPath⟩ := hitOf_eq_some here
      rw [isNode, isPath]
      exact ⟨entry, isSearched, there, here⟩
    · refine (List.pairwise_mergeSort (fun a b c first second => ?_) (fun a b => ?_) hits).imp of_decide_eq_true
      · exact decide_eq_true (compareHits_trans (of_decide_eq_true first) (of_decide_eq_true second))
      · rw [Bool.or_eq_true, decide_eq_true_eq, decide_eq_true_eq]
        exact compareHits_total a b
    · have listed := searchVault_all (adds rounds enough) (vaultIds ctx opts) []
      rw [flatMap_vaultIds ctx opts (addedBy q ctx paths), List.nil_append, ← isHits] at listed
      unfold searchNodes
      dsimp only
      rw [← isQuery, listed, Option.map_some]
      have limit : (max 0 opts.limit).toNat = opts.limit.toNat := by omega
      by_cases none : max 0 opts.limit = 0
      · rw [if_pos none, ← limit, none, Int.toNat_zero, List.take_zero]
      · rw [if_neg none]
        split
        · rw [limit]
        · rename_i whole
          rw [List.take_of_length_le (by omega)]
  · intro nodes acyclic cache filled node mem
    obtain ⟨names, after, climbs, -, ends⟩ := ancestorNames_ends filled.tracked mem
    exact ⟨after, climbs.eq_direct acyclic mem ▸ ends⟩

end

theorem acyclic_of_depth {nodes : NodeTable} (depth : FsNode → Nat)
    (falls : ∀ low ∈ nodes.list, ∀ high ∈ parentOf nodes low, depth high < depth low) : Acyclic nodes := by
  have below : ∀ low ∈ nodes.list, ∀ high, Relation.TransGen (fun low high => parentOf nodes low = some high) low high →
      high ∈ nodes.list ∧ depth high < depth low := by
    intro low mem high chain
    induction chain with
    | single found => exact ⟨mem_of_parentOf found, falls low mem _ found⟩
    | tail _ found ih => exact ⟨mem_of_parentOf found, (falls _ ih.1 _ found).trans ih.2⟩
  exact fun node mem chain => Nat.lt_irrefl _ (below node mem node chain).2

section

local instance : UnicodeLowercase := Path.asciiLowercase

local instance : Calendar := Query.universalTime

/-- The order of the characters, for names without accents. -/
local instance byCharacters : Collation where
  localeCompare a b := if a ≤ b then if b ≤ a then 0 else -1 else 1
  either_le a b := by
    obtain here | here := le_total a b
    · exact .inl (by rw [if_pos here]; split <;> decide)
    · exact .inr (by rw [if_pos here]; split <;> decide)
  le_trans a b c first second := by
    have left : a ≤ b := by
      by_contra other
      rw [if_neg other] at first
      exact absurd first (by decide)
    have right : b ≤ c := by
      by_contra other
      rw [if_neg other] at second
      exact absurd second (by decide)
    rw [if_pos (left.trans right)]
    split <;> decide

private def entryNode (id : String) (parentId : Option String) (kind : NodeKind) (name : String) (modifiedAt : Nat) : FsNode where
  id
  vaultId := "v"
  parentId
  kind
  name
  sizeBytes := 0
  createdAt := 0
  modifiedAt
  createdBy := "peer"
  modifiedBy := "peer"
  color := none
  availability := .local
  progress := none
  holders := []
  childCount := 0

private def album : FsNode := entryNode "r" none .folder "Album" 1
private def holiday : FsNode := entryNode "f" (some "r") .folder "Holiday" 2
private def itinerary : FsNode := entryNode "n" (some "f") .file "notes.txt" 3
private def beach : FsNode := entryNode "p" (some "f") .file "beach.png" 4

private def tree : NodeTable := ⟨[album, holiday, itinerary, beach], by decide⟩

private def loaded : SearchContext where
  nodesByVault := [("v", tree)]
  distinct := by decide
  vaultNames := fun _ => some "Album"
  memberNames := fun _ => some "Ann"
  categoryOf := fun _ => "image"
  now := some 5

private def typed : Units := units "is:file by:ann hol"

private theorem acyclic_tree : Acyclic tree :=
  acyclic_of_depth (fun node => if node.id = "r" then 0 else if node.id = "f" then 1 else 2) (by decide +kernel)

private theorem climbs_file {node : FsNode} (found : parentOf tree node = some holiday) :
    Climbs tree node ["Holiday"] := by
  have top : Climbs tree holiday [] := by
    refine .stop fun _ parent isParent => ?_
    have isRoot : parentOf tree holiday = some album := by decide +kernel
    rw [isRoot] at isParent
    cases isParent
    rfl
  exact .up found (by decide) top

private theorem matched_files {paths : FsNode → List String} (first : paths itinerary = ["Holiday"])
    (second : paths beach = ["Holiday"]) :
    tree.list.filter (fun node => Found (parseQuery 5 typed) loaded node (paths node)) = [itinerary, beach] := by
  have root : ¬Found (parseQuery 5 typed) loaded album (paths album) := fun here => here.inner rfl
  have folder : ¬Found (parseQuery 5 typed) loaded holiday (paths holiday) := by
    intro here
    have kinds : (parseQuery 5 typed).kinds = some [.file] := by decide +kernel
    exact absurd (here.filters.kind _ kinds) (by decide)
  have foundItinerary : Found (parseQuery 5 typed) loaded itinerary ["Holiday"] := by decide +kernel
  have foundBeach : Found (parseQuery 5 typed) loaded beach ["Holiday"] := by decide +kernel
  rw [← first] at foundItinerary
  rw [← second] at foundBeach
  change List.filter _ [album, holiday, itinerary, beach] = _
  simp [root, folder, foundItinerary, foundBeach]

private theorem score_file {hit : RankedHit} (mem : hit.node ∈ [itinerary, beach]) (path : hit.path = ["Holiday"])
    (here : hitOf (parseQuery 5 typed) "Album" hit.node hit.path = some hit) : hit.score = 60 := by
  have scores : ∀ node ∈ [itinerary, beach],
      (hitOf (parseQuery 5 typed) "Album" node ["Holiday"]).map RankedHit.score = some 60 := by decide +kernel
  have score := scores hit.node mem
  rw [← path, here] at score
  exact Option.some.inj score

private theorem beach_first {first second : RankedHit} (scores : first.score = 60 ∧ second.score = 60)
    (pairs : [(first.node, first.path), (second.node, second.path)].Perm [(itinerary, ["Holiday"]), (beach, ["Holiday"])])
    (sorted : compareHits first second ≤ 0) :
    (first.node, first.path) = (beach, ["Holiday"]) ∧ (second.node, second.path) = (itinerary, ["Holiday"]) := by
  obtain here | here := List.mem_pair.mp (pairs.subset List.mem_cons_self)
  · rw [here, List.perm_cons, List.singleton_perm_singleton] at pairs
    rw [compareHits, scores.1, scores.2, (Prod.mk.inj here).1, (Prod.mk.inj pairs).1] at sorted
    exact absurd sorted (by decide)
  · have swapped := pairs.trans (.swap _ _ [])
    rw [here, List.perm_cons, List.singleton_perm_singleton] at swapped
    exact ⟨here, swapped⟩

/-- The two files of the folder match its name, and the one that was changed last comes first. -/
theorem search_exact_holiday :
    (∃ first second, searchNodes 5 loaded 0 typed ⟨none, 2⟩ = some [first, second] ∧
      (first.node, first.path) = (beach, ["Holiday"]) ∧ (second.node, second.path) = (itinerary, ["Holiday"])) ∧
    ∃ cache after, Filled tree cache ∧ ancestorNames 5 tree cache beach = some (["Holiday"], after) := by
  obtain ⟨⟨paths, known, ranked, same, scored, sorted, ends⟩, direct⟩ := search_exact 0 typed loaded ⟨none, 2⟩
  have names : ∀ node ∈ tree.list, parentOf tree node = some holiday → directNames tree node = ["Holiday"] :=
    fun node mem found => ((climbs_file found).eq_direct acyclic_tree mem).symm
  have above : ∀ node ∈ tree.list, parentOf tree node = some holiday → paths "v" node = ["Holiday"] := by
    intro node mem found
    rw [(known _ (List.mem_singleton.mpr rfl) node mem).2 acyclic_tree, names node mem found]
  constructor
  · have aboveItinerary := above itinerary (by decide) (by decide +kernel)
    have aboveBeach := above beach (by decide) (by decide +kernel)
    have pairs : (ranked.map fun hit => (hit.node, hit.path)).Perm [(itinerary, ["Holiday"]), (beach, ["Holiday"])] := by
      refine same.trans (List.Perm.of_eq ?_)
      change List.map (fun node => (node, paths "v" node)) (tree.list.filter fun node =>
        Found (parseQuery 5 typed) loaded node (paths "v" node)) ++ [] = _
      rw [matched_files aboveItinerary aboveBeach, List.map_cons, List.map_cons, aboveItinerary, aboveBeach]
      rfl
    obtain ⟨first, second, rfl⟩ := List.length_eq_two.mp (@List.length_map _ _ ranked _ ▸ pairs.length_eq)
    have whole := ends 5 fun entry mem => by
      rw [List.mem_singleton.mp mem]
      decide
    have score : ∀ hit ∈ [first, second], hit.score = 60 := by
      intro hit mem
      obtain ⟨entry, isSearched, -, here⟩ := scored hit mem
      obtain rfl := List.mem_singleton.mp isSearched
      have listed := pairs.subset (List.mem_map_of_mem mem)
      refine score_file ?_ ?_ here
      · exact List.mem_map_of_mem (f := Prod.fst) listed
      · obtain same | same := List.mem_pair.mp listed
        · exact (Prod.mk.inj same).2
        · exact (Prod.mk.inj same).2
    have ordered := List.rel_of_pairwise_cons sorted (List.mem_singleton.mpr rfl)
    refine ⟨first, second, whole, beach_first ⟨score first ?_, score second ?_⟩ pairs ordered⟩
    · exact List.mem_cons_self
    · exact List.mem_cons_of_mem _ List.mem_cons_self
  · have mem : ∀ node ∈ [itinerary, beach], node ∈ tree.list := by decide
    have filled : Filled tree (unwind (fun _ => none) [] holiday [itinerary]).2 :=
      .ask .empty (mem itinerary List.mem_cons_self) (by decide : 4 < 5) rfl
    obtain ⟨after, ends⟩ := direct tree acyclic_tree _ filled beach (mem beach (by decide))
    have asked := ends 5 (by decide)
    rw [names beach (mem beach (by decide)) (by decide +kernel)] at asked
    exact ⟨_, after, filled, asked⟩

end

end QuantumFs.Client.Search
