import QuantumFs.Host.Run
import QuantumFs.Net.VaultHost

/-! Tasks of one vault that advertise, rotate and kick at the same time. Each
reserves its messages while it holds the vault and sends them later, so messages
of different tasks can arrive in any order. The directory takes only newer ones,
and a message that is refused ends its task. -/
namespace QuantumFs.Net

open Lib Encoding Crypto Host DirectoryStore

/-- The vault, the directory, and what each task has still to send, oldest task first. -/
structure Routing (Addr : Type) where
  host : HostService
  directory : DirectoryStore Addr
  tasks : List (List (DirectoryMessage Addr))

inductive RoutingStep (Addr : Type) where
  | republish (env : HostEnv) (addr : Addr)
  | rotate (env : HostEnv) (addr : Addr) (code : JoinCode)
  | kick (env : HostEnv) (addr : Addr) (target : PeerId) (code : JoinCode)
  | deliver (task : Nat) (now : U64) (outcome : Store.WriteOutcome)

def DirectoryMessage.request {Addr : Type} : DirectoryMessage Addr → DirectoryRequest Addr
  | .put code ad => .put code ad
  | .forget request => .forget request

namespace Routing

variable {Addr : Type} [NumericAddr Addr] [Primitives]

omit [NumericAddr Addr] [Primitives] in
/-- Start a task: its messages are reserved at once, or it ends. -/
def start (x : Action Error HostService (List (DirectoryMessage Addr))) (s : Routing Addr) :
    Routing Addr :=
  match x s.host with
  | (.ok messages, host) => { s with host, tasks := s.tasks ++ [messages] }
  | (.error _, host) => { s with host }

/-- Deliver the next message of a task; a refusal ends the task. -/
def deliver (task : Nat) (now : U64) (outcome : Store.WriteOutcome) (s : Routing Addr) :
    Routing Addr :=
  match s.tasks[task]? with
  | some (message :: rest) =>
    match handle ⟨now, message.request, outcome⟩ s.directory with
    | (.ok _, directory) => { s with directory, tasks := s.tasks.set task rest }
    | (.error _, directory) => { s with directory, tasks := s.tasks.set task [] }
  | _ => s

def routing : Machine (Routing Addr) (RoutingStep Addr) where
  exec
    | .republish env addr => start (VaultHost.republish env addr)
    | .rotate env addr code => start (VaultHost.rotateCodeWith env addr code)
    | .kick env addr target code => start (VaultHost.kickWithCode env addr target code)
    | .deliver task now outcome => deliver task now outcome

/-- No task has anything left to send. -/
def Finished (s : Routing Addr) : Prop := ∀ task ∈ s.tasks, task = []

instance (s : Routing Addr) [DecidableEq Addr] : Decidable s.Finished :=
  inferInstanceAs (Decidable (∀ task ∈ s.tasks, task = []))

end Routing

namespace DirectoryStore

variable {Addr : Type} [NumericAddr Addr]

/-- The maps fit into the file. -/
def fits (ads : Map JoinCode (DirectoryAd Addr)) (watermarks : Map WatermarkKey DirectoryWatermark) :
    Bool :=
  match encodeDirectoryState (stateOf ads watermarks) with
  | .ok bytes => bytes.length ≤ maxStateBytes
  | .error _ => false

theorem commit_fits {ads : Map JoinCode (DirectoryAd Addr)}
    {watermarks : Map WatermarkKey DirectoryWatermark} (room : fits ads watermarks = true)
    (store : DirectoryStore Addr) :
    ∃ file, commit .written ads watermarks store = (.ok (), { store with ads, watermarks, file }) := by
  unfold fits at room
  unfold commit
  split at room
  · rename_i bytes encoded
    refine ⟨some bytes, ?_⟩
    rw [encoded]
    change (writeState .written bytes >>= fun _ => _) store = _
    have written : writeState .written bytes store = (.ok (), { store with file := some bytes }) := by
      unfold writeState
      rw [if_neg (not_lt.mpr (of_decide_eq_true room))]
    exact Action.bind_ok written
  · cases room

omit [NumericAddr Addr] in
theorem requireHealthy_ok {store : DirectoryStore Addr} (healthy : store.failed = false) :
    requireHealthy store = (.ok (), store) :=
  (Action.require_eq_ok _ _ _ _).mpr ⟨healthy, rfl⟩

variable [Primitives] {store : DirectoryStore Addr} {now : U64}

omit [NumericAddr Addr] [Primitives] in
private theorem require_ok {p : Prop} [Decidable p] {e : Error} (h : p) :
    (Action.require p e : Action Error (DirectoryStore Addr) Unit) store = (.ok (), store) :=
  (Action.require_eq_ok _ _ _ _).mpr ⟨h, rfl⟩

theorem put_accepted {code : JoinCode} {ad : DirectoryAd Addr} (healthy : store.failed = false)
    (verified : ad.verify now = .ok ())
    (owner : ∀ existing ∈ (store.prunedAds now)[code]?, existing.peerId = ad.peerId)
    (newer : ∀ watermark ∈ (store.prunedWatermarks now)[ad.key]?, watermark.issuedAt < ad.issuedAt)
    (room : (store.prunedWatermarks now).contains ad.key = true ∨
      (store.prunedWatermarks now).size < maxTotalAds)
    (share : (∃ existing ∈ (store.prunedAds now)[code]?, existing.peerId = ad.peerId) ∨
      peerCount (store.prunedAds now) ad.peerId < maxAdsPerPeer)
    (space : (store.prunedAds now).contains code = true ∨ (store.prunedAds now).size < maxTotalAds)
    (written : fits ((store.prunedAds now).insert code ad)
      ((store.prunedWatermarks now).insert ad.key ad.watermark) = true) :
    ∃ file, put .written code ad now store = (.ok (), { store with
      ads := (store.prunedAds now).insert code ad
      watermarks := (store.prunedWatermarks now).insert ad.key ad.watermark
      file }) := by
  obtain ⟨file, committed⟩ := commit_fits written store
  refine ⟨file, ?_⟩
  unfold put
  rw [Action.bind_ok (requireHealthy_ok healthy), verified]
  refine (Action.bind_ok rfl).trans ((Action.bind_ok rfl).trans ?_)
  rw [Action.bind_ok (require_ok owner), Action.bind_ok (require_ok newer),
    Action.bind_ok (require_ok room), Action.bind_ok (require_ok share),
    Action.bind_ok (require_ok space)]
  exact committed

theorem forget_accepted {request : DirForget} {watermark : DirectoryWatermark}
    (healthy : store.failed = false)
    (owner : ∀ existing ∈ (store.prunedAds now)[request.joinCode]?,
      existing.peerId = request.peerId ∧ existing.vaultId = request.vaultId)
    (found : (store.prunedWatermarks now)[request.key]? = some watermark)
    (verified : request.verify watermark.vk now = .ok ())
    (newer : watermark.issuedAt < request.issuedAt)
    (written : fits ((store.prunedAds now).erase request.joinCode)
      ((store.prunedWatermarks now).insert request.key (request.watermark watermark.vk)) = true) :
    ∃ file, forget .written request now store = (.ok (), { store with
      ads := (store.prunedAds now).erase request.joinCode
      watermarks := (store.prunedWatermarks now).insert request.key (request.watermark watermark.vk)
      file }) := by
  obtain ⟨file, committed⟩ := commit_fits written store
  refine ⟨file, ?_⟩
  unfold forget
  rw [Action.bind_ok (requireHealthy_ok healthy)]
  refine (Action.bind_ok rfl).trans ?_
  rw [Action.bind_ok (require_ok owner), found]
  refine (Action.bind_ok rfl).trans ?_
  rw [verified]
  refine (Action.bind_ok rfl).trans ?_
  rw [Action.bind_ok (require_ok newer)]
  exact committed

def routes (store : DirectoryStore Addr) (key : WatermarkKey) : Set JoinCode :=
  {code | ∃ ad, store.ads[code]? = some ad ∧ ad.key = key}

def Unexpired (now : U64) (key : WatermarkKey) (store : DirectoryStore Addr) : Prop :=
  (∀ watermark ∈ store.watermarks[key]?, isExpired watermark.issuedAt now = false) ∧
    ∀ entry ∈ store.ads.toList, entry.2.key = key → isExpired entry.2.issuedAt now = false

variable {key : WatermarkKey}

omit [NumericAddr Addr] [Primitives] in
theorem Unexpired.watermark (unexpired : Unexpired now key store) :
    (store.prunedWatermarks now)[key]? = store.watermarks[key]? := by
  rw [get_prunedWatermarks]
  cases found : store.watermarks[key]? with
  | none => rfl
  | some watermark => rw [Option.filter_some, unexpired.1 watermark found, Bool.not_false, if_pos rfl]

omit [NumericAddr Addr] [Primitives] in
theorem Unexpired.ad (unexpired : Unexpired now key store) {code : JoinCode}
    {ad : DirectoryAd Addr} (own : ad.key = key) :
    (store.prunedAds now)[code]? = some ad ↔ store.ads[code]? = some ad := by
  rw [get_prunedAds, Option.filter_eq_some_iff, and_iff_left_iff_imp]
  intro found
  rw [unexpired.2 (code, ad) (Map.mem_toList.mpr found) own]
  rfl

theorem put_routes {code : JoinCode} {ad : DirectoryAd Addr} {watermark : DirectoryWatermark}
    (unexpired : Unexpired now ad.key store) (healthy : store.failed = false)
    (found : store.watermarks[ad.key]? = some watermark) (newer : watermark.issuedAt < ad.issuedAt)
    (verified : ad.verify now = .ok ())
    (owner : ∀ existing ∈ (store.prunedAds now)[code]?, existing.peerId = ad.peerId)
    (share : (∃ existing ∈ (store.prunedAds now)[code]?, existing.peerId = ad.peerId) ∨
      peerCount (store.prunedAds now) ad.peerId < maxAdsPerPeer)
    (space : (store.prunedAds now).contains code = true ∨ (store.prunedAds now).size < maxTotalAds)
    (written : fits ((store.prunedAds now).insert code ad)
      ((store.prunedWatermarks now).insert ad.key ad.watermark) = true) :
    ∃ next, put .written code ad now store = (.ok (), next) ∧ next.failed = false ∧
      next.watermarks[ad.key]? = some ad.watermark ∧
      next.routes ad.key = insert code (store.routes ad.key) := by
  have current := unexpired.watermark.trans found
  have known : (store.prunedWatermarks now).contains ad.key = true :=
    (Map.contains_iff_get _ _).mpr ⟨_, current⟩
  obtain ⟨file, done⟩ := put_accepted healthy verified owner
    (fun other same => Option.some.inj (current.symm.trans same) ▸ newer) (.inl known) share space
    written
  refine ⟨_, done, healthy, by rw [Map.get_insert, if_pos rfl], Set.ext fun other => ?_⟩
  change (∃ found, ((store.prunedAds now).insert code ad)[other]? = some found ∧ _) ↔ _
  rw [Map.get_insert]
  by_cases same : code = other
  · subst same
    rw [if_pos rfl]
    exact ⟨fun _ => .inl rfl, fun _ => ⟨ad, rfl, rfl⟩⟩
  · rw [if_neg same]
    constructor
    · rintro ⟨standing, kept, own⟩
      exact .inr ⟨standing, (unexpired.ad own).mp kept, own⟩
    · rintro (rfl | ⟨standing, kept, own⟩)
      · exact absurd rfl same
      · exact ⟨standing, (unexpired.ad own).mpr kept, own⟩

theorem forget_routes {request : DirForget} {watermark : DirectoryWatermark}
    (unexpired : Unexpired now request.key store) (healthy : store.failed = false)
    (found : store.watermarks[request.key]? = some watermark)
    (newer : watermark.issuedAt < request.issuedAt)
    (own : request.joinCode ∈ store.routes request.key)
    (verified : request.verify watermark.vk now = .ok ())
    (written : fits ((store.prunedAds now).erase request.joinCode)
      ((store.prunedWatermarks now).insert request.key (request.watermark watermark.vk)) = true) :
    ∃ next, forget .written request now store = (.ok (), next) ∧ next.failed = false ∧
      next.watermarks[request.key]? = some (request.watermark watermark.vk) ∧
      next.routes request.key = store.routes request.key \ {request.joinCode} := by
  have current := unexpired.watermark.trans found
  obtain ⟨ad, standing, mine⟩ := own
  have kept := (unexpired.ad mine).mpr standing
  obtain ⟨file, done⟩ := forget_accepted healthy
    (fun existing same => by
      obtain rfl := Option.some.inj (kept.symm.trans same)
      exact ⟨congrArg WatermarkKey.peerId mine, congrArg WatermarkKey.vaultId mine⟩)
    current verified newer written
  refine ⟨_, done, healthy, by rw [Map.get_insert, if_pos rfl], Set.ext fun other => ?_⟩
  change (∃ found, ((store.prunedAds now).erase request.joinCode)[other]? = some found ∧ _) ↔ _
  rw [Map.get_erase]
  by_cases same : request.joinCode = other
  · subst same
    rw [if_pos rfl]
    refine iff_of_false ?_ fun out => out.2 rfl
    rintro ⟨_, gone, _⟩
    cases gone
  · rw [if_neg same]
    constructor
    · rintro ⟨ad, kept, own⟩
      exact ⟨⟨ad, (unexpired.ad own).mp kept, own⟩, fun equal => same equal.symm⟩
    · rintro ⟨⟨ad, kept, own⟩, _⟩
      exact ⟨ad, (unexpired.ad own).mpr kept, own⟩

theorem put_stale (outcome : Store.WriteOutcome) (code : JoinCode) {ad : DirectoryAd Addr}
    {watermark : DirectoryWatermark} (unexpired : Unexpired now ad.key store)
    (found : store.watermarks[ad.key]? = some watermark) (stale : ad.issuedAt ≤ watermark.issuedAt) :
    Action.Ensures (put outcome code ad now) store fun r t => t = store ∧ ∃ e, r = .error e := by
  unfold put requireHealthy
  rw [bind_assoc]
  refine .get (.require (fun _ => ⟨rfl, _, rfl⟩) fun _ => ?_)
  refine .ofExcept (fun _ _ => ⟨rfl, _, rfl⟩) fun _ _ => .get ?_
  refine .require (fun _ => ⟨rfl, _, rfl⟩) fun _ => ?_
  refine .require (fun _ => ⟨rfl, _, rfl⟩) fun newer => ?_
  exact absurd (newer watermark (unexpired.watermark.trans found)) (not_lt.mpr stale)

end DirectoryStore

namespace DirectoryMessage

variable {Addr : Type}

def key : DirectoryMessage Addr → WatermarkKey
  | .put _ ad => ad.key
  | .forget request => request.key

end DirectoryMessage

/-- Sent in the order of the tasks, the messages newer than `newest` lead from
these codes to one. -/
inductive Leads {Addr : Type} (newest : U64) :
    Set JoinCode → List (List (DirectoryMessage Addr)) → JoinCode → Prop
  | done {code : JoinCode} : Leads newest {code} [] code
  | finished {codes : Set JoinCode} {tasks : List (List (DirectoryMessage Addr))} {code : JoinCode} :
      Leads newest codes tasks code → Leads newest codes ([] :: tasks) code
  | stale {codes : Set JoinCode} {old : JoinCode} {ad : DirectoryAd Addr}
      {tasks : List (List (DirectoryMessage Addr))} {code : JoinCode} : ad.issuedAt ≤ newest →
      Leads newest codes tasks code → Leads newest codes ([.put old ad] :: tasks) code
  | refresh {standing : JoinCode} {ad : DirectoryAd Addr}
      {tasks : List (List (DirectoryMessage Addr))} {code : JoinCode} : newest < ad.issuedAt →
      Leads newest {standing} tasks code → Leads newest {standing} ([.put standing ad] :: tasks) code
  | replace {new : JoinCode} {ad : DirectoryAd Addr} {request : DirForget}
      {tasks : List (List (DirectoryMessage Addr))} {code : JoinCode} : newest < ad.issuedAt →
      ad.issuedAt < request.issuedAt → request.joinCode ≠ new → Leads newest {new} tasks code →
      Leads newest {request.joinCode} ([.put new ad, .forget request] :: tasks) code
  | retire {new : JoinCode} {request : DirForget} {tasks : List (List (DirectoryMessage Addr))}
      {code : JoinCode} : newest < request.issuedAt → request.joinCode ≠ new →
      Leads newest {new} tasks code →
      Leads newest {request.joinCode, new} ([.forget request] :: tasks) code

namespace Leads

variable {Addr : Type} {newest : U64} {codes : Set JoinCode} {code : JoinCode}
  {tasks more : List (List (DirectoryMessage Addr))}

theorem settled (leads : Leads newest codes tasks code) (empty : ∀ task ∈ tasks, task = []) :
    codes = {code} := by
  induction leads with
  | done => rfl
  | finished _ ih => exact ih fun task mem => empty task (List.mem_cons_of_mem _ mem)
  | stale => cases empty _ List.mem_cons_self
  | refresh => cases empty _ List.mem_cons_self
  | replace => cases empty _ List.mem_cons_self
  | retire => cases empty _ List.mem_cons_self

theorem append (leads : Leads newest codes tasks code) {task : List (DirectoryMessage Addr)}
    {next : JoinCode} (last : Leads newest {code} [task] next) :
    Leads newest codes (tasks ++ [task]) next := by
  induction leads with
  | done => exact last
  | finished _ ih => exact .finished (ih last)
  | stale old _ ih => exact .stale old (ih last)
  | refresh newer _ ih => exact .refresh newer (ih last)
  | replace newer later changed _ ih => exact .replace newer later changed (ih last)
  | retire newer changed _ ih => exact .retire newer changed (ih last)

theorem rest (leads : Leads newest codes (tasks ++ more) code)
    (quiet : ∀ task ∈ tasks, Refreshing task) : Leads newest codes more code := by
  induction tasks generalizing codes with
  | nil => exact leads
  | cons task tasks ih =>
    have later : ∀ task ∈ tasks, Refreshing task := fun task mem =>
      quiet task (List.mem_cons_of_mem _ mem)
    cases leads with
    | finished leads => exact ih leads later
    | stale _ leads => exact ih leads later
    | refresh _ leads => exact ih leads later
    | replace => exact (quiet _ List.mem_cons_self).elim
    | retire => exact (quiet _ List.mem_cons_self).elim

theorem overtaken (leads : Leads newest codes more code)
    (quiet : ∀ task ∈ tasks, Refreshing task)
    (old : ∀ task ∈ tasks, ∀ message ∈ task, message.issuedAt ≤ newest) :
    Leads newest codes (tasks ++ more) code := by
  induction tasks with
  | nil => exact leads
  | cons task tasks ih =>
    have later := ih (fun task mem => quiet task (List.mem_cons_of_mem _ mem))
      fun task mem => old task (List.mem_cons_of_mem _ mem)
    have first := quiet task List.mem_cons_self
    have ages := old task List.mem_cons_self
    match task with
    | [] => exact .finished later
    | [.put _ _] => exact .stale (ages _ List.mem_cons_self) later
    | .forget _ :: _ => exact first.elim
    | .put _ _ :: _ :: _ => exact first.elim

theorem rise {newer : U64} (leads : Leads newest codes tasks code) (le : newest ≤ newer)
    (above : ∀ task ∈ tasks, ∀ message ∈ task, newer < message.issuedAt) :
    Leads newer codes tasks code := by
  induction leads with
  | done => exact .done
  | finished _ ih => exact .finished (ih fun task mem => above task (List.mem_cons_of_mem _ mem))
  | stale old =>
    exact absurd (old.trans le) (not_le.mpr (above _ List.mem_cons_self _ List.mem_cons_self))
  | refresh _ _ ih =>
    exact .refresh (above _ List.mem_cons_self _ List.mem_cons_self)
      (ih fun task mem => above task (List.mem_cons_of_mem _ mem))
  | replace _ later changed _ ih =>
    exact .replace (above _ List.mem_cons_self _ List.mem_cons_self) later changed
      (ih fun task mem => above task (List.mem_cons_of_mem _ mem))
  | retire _ changed _ ih =>
    exact .retire (above _ List.mem_cons_self _ List.mem_cons_self) changed
      (ih fun task mem => above task (List.mem_cons_of_mem _ mem))

end Leads

theorem Plan.leads {Addr : Type} {identity : IdentityDocument} {old new : VaultMetadata}
    {messages : List (DirectoryMessage Addr)}
    {newest : U64} (plan : Plan identity old new messages)
    (changed : Refreshing messages ∨ old.joinCode ≠ new.joinCode)
    (older : newest.val ≤ old.issuedAt) : Leads newest {old.joinCode} [messages] new.joinCode := by
  cases plan with
  | refresh same _ later _ =>
    rw [same]
    exact .refresh (Nat.lt_of_le_of_lt older later) .done
  | replace _ _ gone later after _ =>
    obtain absurd | changed := changed
    · exact absurd.elim
    · rw [← gone] at changed ⊢
      exact .replace (Nat.lt_of_le_of_lt older later) after changed .done

theorem Plan.stamps {Addr : Type} {identity : IdentityDocument} {old new : VaultMetadata}
    {messages : List (DirectoryMessage Addr)}
    (plan : Plan identity old new messages) :
    old.issuedAt < new.issuedAt ∧
    (∀ message ∈ messages, message.Speaks identity old.vaultId ∧
      old.issuedAt < message.issuedAt.val ∧ message.issuedAt.val ≤ new.issuedAt) ∧
    messages.Pairwise fun first second => first.issuedAt < second.issuedAt := by
  cases plan with
  | refresh _ speaks later same =>
    refine ⟨same ▸ later, fun message mem => ?_, List.pairwise_singleton _ _⟩
    rw [List.mem_singleton] at mem
    subst mem
    exact ⟨speaks, later, same.ge⟩
  | replace speaks own _ later after same =>
    refine ⟨same ▸ later.trans after, fun message mem => ?_, List.pairwise_pair.mpr after⟩
    rw [List.mem_pair] at mem
    obtain rfl | rfl := mem
    · exact ⟨speaks, later, same ▸ after.le⟩
    · exact ⟨own, later.trans after, same.ge⟩

namespace DirectoryStore

variable {Addr : Type} [NumericAddr Addr] [Primitives]

def Taken (now : U64) (store : DirectoryStore Addr) : DirectoryMessage Addr → Prop
  | .put code ad => ad.verify now = .ok () ∧
      (∀ existing ∈ (store.prunedAds now)[code]?, existing.peerId = ad.peerId) ∧
      ((∃ existing ∈ (store.prunedAds now)[code]?, existing.peerId = ad.peerId) ∨
        peerCount (store.prunedAds now) ad.peerId < maxAdsPerPeer) ∧
      ((store.prunedAds now).contains code = true ∨
        (store.prunedAds now).size < maxTotalAds) ∧
      fits ((store.prunedAds now).insert code ad)
        ((store.prunedWatermarks now).insert ad.key ad.watermark) = true
  | .forget request => ∀ watermark ∈ store.watermarks[request.key]?,
      request.verify watermark.vk now = .ok () ∧
      fits ((store.prunedAds now).erase request.joinCode)
        ((store.prunedWatermarks now).insert request.key (request.watermark watermark.vk)) = true

instance (now : U64) (store : DirectoryStore Addr) : DecidablePred (Taken now store)
  | .put _ ad => inferInstanceAs (Decidable (ad.verify now = .ok () ∧ _ ∧ _ ∧ _ ∧ _))
  | .forget request => inferInstanceAs (Decidable (∀ watermark ∈ store.watermarks[request.key]?, _))

def Received (now : U64) (outcome : Store.WriteOutcome) (message : DirectoryMessage Addr)
    (store : DirectoryStore Addr) : Prop :=
  Unexpired now message.key store ∧
    ((∀ watermark ∈ store.watermarks[message.key]?, watermark.issuedAt < message.issuedAt) →
      outcome = .written ∧ Taken now store message)

instance (now : U64) (outcome : Store.WriteOutcome) (message : DirectoryMessage Addr)
    (store : DirectoryStore Addr) : Decidable (Received now outcome message store) :=
  inferInstanceAs (Decidable (((∀ watermark ∈ store.watermarks[message.key]?, _) ∧
    ∀ entry ∈ store.ads.toList, _) ∧ (_ → _)))

end DirectoryStore

namespace Routing

variable {Addr : Type} [NumericAddr Addr] [Primitives]

def Kickable (target : PeerId) (host : HostService) : Prop :=
  host.requireRunning = .ok () ∧ host.requireMember target = .ok () ∧ target ≠ host.state.hostId

instance (target : PeerId) (host : HostService) : Decidable (Kickable target host) :=
  inferInstanceAs (Decidable (_ ∧ _ ∧ _))

/-- A rotation or kick replaces the code by another one, a kick of a member can
send its messages, and no message overtakes one of an earlier rotation or kick. -/
def Orderly (s : Routing Addr) : RoutingStep Addr → Prop
  | .republish _ _ => True
  | .rotate _ _ code => ∀ old ∈ s.host.state.admission, old.joinCode ≠ code
  | .kick env addr target code => Kickable target s.host →
      (∀ old ∈ s.host.state.admission, old.joinCode ≠ code) ∧
      env.keys.persists = true ∧ Signable s.host.keys addr
  | .deliver task now outcome => ∀ message ∈ (s.tasks[task]?.getD []).head?,
      (∀ earlier ∈ s.tasks.take task, Refreshing earlier) ∧
      Received now outcome message s.directory

instance (s : Routing Addr) : DecidablePred s.Orderly
  | .republish _ _ => .isTrue trivial
  | .rotate _ _ _ => inferInstanceAs (Decidable (∀ old ∈ s.host.state.admission, _))
  | .kick _ addr target _ => inferInstanceAs (Decidable (Kickable target s.host →
      (∀ old ∈ s.host.state.admission, _) ∧ _ ∧ Signable s.host.keys addr))
  | .deliver task _ _ =>
    inferInstanceAs (Decidable (∀ message ∈ (s.tasks[task]?.getD []).head?, _ ∧ _))

/-- The vault is advertised under its current code alone. -/
def Converged (identity : IdentityDocument) (s : Routing Addr) : Prop :=
  ∃ metadata, s.host.state.admission = some metadata ∧
    s.directory.routes ⟨identity.peerId, metadata.vaultId⟩ = {metadata.joinCode}

/-- Advertised, and nothing is under way. -/
structure Settled (s : Routing Addr) : Prop where
  healthy : s.directory.failed = false
  finished : s.Finished
  advertised : ∃ metadata watermark, s.host.state.admission = some metadata ∧
    s.directory.watermarks[(⟨s.host.keys.identity.document.peerId, metadata.vaultId⟩ :
      WatermarkKey)]? = some watermark ∧ watermark.issuedAt.val ≤ metadata.issuedAt ∧
    s.directory.routes ⟨s.host.keys.identity.document.peerId, metadata.vaultId⟩ =
      {metadata.joinCode}

/-- The tasks lead the directory to the current code, each message by its own time. -/
structure Converging (identity : IdentityDocument) (vaultId : VaultId) (s : Routing Addr)
    (metadata : VaultMetadata) (watermark : DirectoryWatermark) : Prop where
  own : s.host.keys.identity.document = identity
  healthy : s.directory.failed = false
  admission : s.host.state.admission = some metadata
  vault : metadata.vaultId = vaultId
  found : s.directory.watermarks[(⟨identity.peerId, vaultId⟩ : WatermarkKey)]? = some watermark
  issued : watermark.issuedAt.val ≤ metadata.issuedAt
  leads : Leads watermark.issuedAt (s.directory.routes ⟨identity.peerId, vaultId⟩) s.tasks
    metadata.joinCode
  pending : ∀ message ∈ s.tasks.flatten, message.Speaks identity vaultId ∧
    message.issuedAt.val ≤ metadata.issuedAt
  increasing : s.tasks.flatten.Pairwise fun first second => first.issuedAt < second.issuedAt

variable {identity : IdentityDocument} {vaultId : VaultId} {s : Routing Addr}
  {metadata : VaultMetadata} {watermark : DirectoryWatermark}

omit [NumericAddr Addr] [Primitives] in
theorem Converging.reserve (converging : Converging identity vaultId s metadata watermark)
    {host : HostService} {messages : List (DirectoryMessage Addr)}
    (reserved : Reserved s.host host messages)
    (changed : Refreshing messages ∨
      ∀ new ∈ host.state.admission, metadata.joinCode ≠ new.joinCode) :
    ∃ next, Converging identity vaultId { s with host, tasks := s.tasks ++ [messages] } next
      watermark := by
  obtain ⟨old, new, known, stored, vault, plan⟩ := reserved.admission
  obtain rfl := Option.some.inj (converging.admission.symm.trans known)
  rw [converging.own] at plan
  obtain ⟨later, sent, ordered⟩ := plan.stamps
  refine ⟨new, ⟨?_, converging.healthy, stored, vault.trans converging.vault, converging.found,
    converging.issued.trans later.le, ?_, ?_, ?_⟩⟩
  · exact (congrArg LocalIdentity.document reserved.identity).trans converging.own
  · exact converging.leads.append (plan.leads (changed.imp_right fun new' => new' new stored)
      converging.issued)
  · intro message mem
    rw [List.flatten_append, List.flatten_singleton, List.mem_append] at mem
    obtain waiting | added := mem
    · exact (converging.pending message waiting).imp_right fun bound => bound.trans later.le
    · exact (sent message added).imp (fun speaks => converging.vault ▸ speaks) And.right
  · rw [List.flatten_append, List.flatten_singleton, List.pairwise_append]
    exact ⟨converging.increasing, ordered, fun first waiting second added =>
      Nat.lt_of_le_of_lt (converging.pending first waiting).2 (sent second added).2.1⟩

omit [NumericAddr Addr] [Primitives] in
theorem Converging.start (converging : Converging identity vaultId s metadata watermark)
    {x : Action Error HostService (List (DirectoryMessage Addr))}
    (h : Action.Ensures x s.host fun r t => match r with
      | .ok messages => Reserved s.host t messages ∧ (Refreshing messages ∨
          ∀ new ∈ t.state.admission, metadata.joinCode ≠ new.joinCode)
      | .error _ => t.keys.identity = s.host.keys.identity ∧
          t.state.admission = s.host.state.admission) :
    ∃ next, Converging identity vaultId (start x s) next watermark := by
  unfold Action.Ensures at h
  unfold Routing.start
  generalize x s.host = outcome at h
  obtain ⟨r, t⟩ := outcome
  cases r with
  | ok messages => exact converging.reserve h.1 h.2
  | error e =>
    refine ⟨metadata, { converging with own := ?_, admission := h.2.trans converging.admission }⟩
    exact (congrArg LocalIdentity.document h.1).trans converging.own

omit [NumericAddr Addr] [Primitives] in
private theorem fresh_code {t : HostService} {code : JoinCode}
    (converging : Converging identity vaultId s metadata watermark)
    (other : ∀ old ∈ s.host.state.admission, old.joinCode ≠ code)
    (chosen : t.state.admission.map (·.joinCode) = some code) :
    ∀ new ∈ t.state.admission, metadata.joinCode ≠ new.joinCode := by
  intro new stored same
  rw [Option.mem_def.mp stored, Option.map_some, Option.some.injEq] at chosen
  exact other metadata converging.admission (same.trans chosen)

theorem kickWithCode_refused {env : HostEnv} {addr : Addr} {target : PeerId} {code : JoinCode}
    {host : HostService} (refused : ¬ Kickable target host) :
    Action.Ensures (VaultHost.kickWithCode env addr target code) host fun r t =>
      t = host ∧ ∃ e, r = .error e := by
  have early : Action.Ensures (Host.kickWithCode env target (some code)) host fun r t =>
      t = host ∧ ∃ e, r = .error e := by
    unfold Host.kickWithCode
    refine .query (fun _ _ => ⟨rfl, _, rfl⟩) fun _ running => ?_
    refine .query (fun _ _ => ⟨rfl, _, rfl⟩) fun _ member => .get ?_
    refine .require (fun _ => ⟨rfl, _, rfl⟩) fun other => ?_
    exact absurd ⟨running, member, other⟩ refused
  unfold VaultHost.kickWithCode
  refine .query (fun _ _ => ⟨rfl, _, rfl⟩) fun _ _ => ?_
  refine .next early (fun _ _ kept => ⟨kept.1, _, rfl⟩) fun _ _ kept => ?_
  obtain ⟨-, e, failed⟩ := kept
  cases failed

theorem Converging.local (converging : Converging identity vaultId s metadata watermark)
    {step : RoutingStep Addr} (orderly : Orderly s step)
    (isLocal : ∀ task now outcome, step ≠ .deliver task now outcome) :
    ∃ next, Converging identity vaultId (routing.exec step s) next watermark := by
  cases step with
  | republish env addr =>
    refine converging.start ((VaultHost.republish_reserved env addr s.host).mono fun r t done => ?_)
    cases r with
    | ok _ => exact done.imp_right .inl
    | error _ =>
      exact ⟨congrArg KeyStore.identity done.2, congrArg HostState.admission done.1⟩
  | rotate env addr code =>
    refine converging.start
      ((VaultHost.rotateCodeWith_reserved env addr code s.host).mono fun r t done => ?_)
    cases r with
    | ok _ => exact done.imp_right fun chosen => .inr (fresh_code converging orderly chosen)
    | error _ =>
      exact ⟨congrArg KeyStore.identity done.2, congrArg HostState.admission done.1⟩
  | kick env addr target code =>
    by_cases started : Kickable target s.host
    swap
    · refine converging.start ((kickWithCode_refused started).mono fun r t kept => ?_)
      obtain ⟨rfl, e, rfl⟩ := kept
      exact ⟨rfl, rfl⟩
    obtain ⟨other, saved, signable⟩ := orderly started
    refine converging.start
      ((VaultHost.kickWithCode_reserved env addr target code s.host).mono fun r t done => ?_)
    cases r with
    | ok _ => exact done.2.imp_right fun chosen => .inr (fresh_code converging other chosen)
    | error _ =>
      obtain ⟨same, kept | ⟨unable, _⟩⟩ := done
      · exact ⟨same, kept⟩
      · exact absurd ⟨saved, signable⟩ unable
  | deliver task now outcome => exact absurd rfl (isLocal task now outcome)

omit [NumericAddr Addr] [Primitives] in
theorem Converging.next (converging : Converging identity vaultId s metadata watermark)
    {before after : List (List (DirectoryMessage Addr))} {message : DirectoryMessage Addr}
    {rest left : List (DirectoryMessage Addr)} (split : s.tasks = before ++ (message :: rest) :: after)
    (quiet : ∀ task ∈ before, Refreshing task) {directory : DirectoryStore Addr}
    {newest : DirectoryWatermark} (healthy : directory.failed = false)
    (found : directory.watermarks[(⟨identity.peerId, vaultId⟩ : WatermarkKey)]? = some newest)
    (age : message.issuedAt ≤ newest.issuedAt) (issued : newest.issuedAt.val ≤ metadata.issuedAt)
    (leads : Leads newest.issuedAt (directory.routes ⟨identity.peerId, vaultId⟩) (left :: after)
      metadata.joinCode) (part : left.Sublist rest) :
    Converging identity vaultId { s with directory, tasks := before ++ left :: after } metadata
      newest := by
  have fewer : (before ++ left :: after).flatten.Sublist s.tasks.flatten := by
    rw [split, List.flatten_append, List.flatten_append, List.flatten_cons, List.flatten_cons]
    exact (List.Sublist.refl _).append ((part.cons message).append (.refl _))
  have increasing := converging.increasing
  rw [split, List.flatten_append, List.pairwise_append] at increasing
  refine ⟨converging.own, healthy, converging.admission, converging.vault, found, issued, ?_,
    fun message mem => converging.pending message (fewer.subset mem),
    converging.increasing.sublist fewer⟩
  refine leads.overtaken quiet fun task mem earlier inTask => ?_
  have sooner := increasing.2.2 earlier (List.mem_flatten.mpr ⟨task, mem, inTask⟩) message
    (List.mem_flatten.mpr ⟨_, List.mem_cons_self, List.mem_cons_self⟩)
  exact sooner.le.trans age

omit [NumericAddr Addr] [Primitives] in
private theorem above {before after : List (List (DirectoryMessage Addr))}
    {message : DirectoryMessage Addr} {rest : List (DirectoryMessage Addr)}
    (converging : Converging identity vaultId s metadata watermark)
    (split : s.tasks = before ++ (message :: rest) :: after) :
    (∀ other ∈ rest, message.issuedAt < other.issuedAt) ∧
      ∀ task ∈ after, ∀ other ∈ task, message.issuedAt < other.issuedAt := by
  have increasing := converging.increasing
  rw [split, List.flatten_append, List.flatten_cons, List.cons_append, List.pairwise_append,
    List.pairwise_cons] at increasing
  have later := increasing.2.1.1
  exact ⟨fun other mem => later other (List.mem_append_left _ mem), fun task mem other inTask =>
    later other (List.mem_append_right _ (List.mem_flatten.mpr ⟨task, mem, inTask⟩))⟩

theorem deliver_accepted {task : Nat} {now : U64} {outcome : Store.WriteOutcome}
    {message : DirectoryMessage Addr} {rest : List (DirectoryMessage Addr)}
    (waiting : s.tasks[task]? = some (message :: rest)) {directory : DirectoryStore Addr}
    (handled : handle ⟨now, message.request, outcome⟩ s.directory = (.ok (), directory)) :
    deliver task now outcome s = { s with directory, tasks := s.tasks.set task rest } := by
  unfold deliver
  rw [waiting]
  dsimp only
  rw [handled]

theorem deliver_refused {task : Nat} {now : U64} {outcome : Store.WriteOutcome}
    {message : DirectoryMessage Addr} {rest : List (DirectoryMessage Addr)}
    (waiting : s.tasks[task]? = some (message :: rest)) {directory : DirectoryStore Addr} {e : Error}
    (handled : handle ⟨now, message.request, outcome⟩ s.directory = (.error e, directory)) :
    deliver task now outcome s = { s with directory, tasks := s.tasks.set task [] } := by
  unfold deliver
  rw [waiting]
  dsimp only
  rw [handled]

theorem Converging.deliver (converging : Converging identity vaultId s metadata watermark)
    {task : Nat} {now : U64} {outcome : Store.WriteOutcome}
    (orderly : Orderly s (.deliver task now outcome)) :
    ∃ newest, Converging identity vaultId (deliver task now outcome s) metadata newest := by
  match waiting : s.tasks[task]? with
  | none | some [] =>
    refine ⟨watermark, ?_⟩
    unfold Routing.deliver
    rw [waiting]
    exact converging
  | some (message :: rest) =>
    obtain ⟨quiet, unexpired, taken⟩ := orderly message (by rw [waiting]; rfl)
    obtain ⟨inside, isTask⟩ := List.getElem?_eq_some_iff.mp waiting
    have split : s.tasks = s.tasks.take task ++ (message :: rest) :: s.tasks.drop (task + 1) := by
      rw [← isTask, List.cons_getElem_drop_succ, List.take_append_drop]
    have replaced : ∀ left, s.tasks.set task left =
        s.tasks.take task ++ left :: s.tasks.drop (task + 1) := fun left => by
      rw [List.set_eq_take_append_cons_drop, if_pos inside]
    obtain ⟨speaks, issued⟩ := converging.pending message (by
      rw [split, List.flatten_append, List.flatten_cons]
      exact List.mem_append_right _ (List.mem_append_left _ List.mem_cons_self))
    obtain ⟨_, afterLater⟩ := above converging split
    have healthy := converging.healthy
    have known := converging.found
    have leads := converging.leads
    rw [split] at leads
    replace leads := leads.rest quiet
    generalize isCodes : s.directory.routes _ = codes at leads
    cases leads with
    | @stale _ code ad _ _ old tail =>
      rw [← show ad.key = _ from speaks.1] at known
      obtain ⟨same, e, refused⟩ := put_stale outcome code unexpired known old
      rw [deliver_refused waiting (Prod.ext refused same), replaced]
      refine ⟨watermark, converging.next split quiet healthy converging.found old
        converging.issued ?_ (.refl _)⟩
      rw [isCodes]
      exact .finished tail
    | @refresh code ad _ _ newer tail =>
      have own : ad.key = _ := speaks.1
      rw [← own] at known isCodes
      obtain ⟨rfl, verified, owner, share, space, written⟩ := taken fun _ same =>
        Option.some.inj (known.symm.trans same) ▸ newer
      obtain ⟨next, accepted, healthy', found, codes⟩ := put_routes unexpired healthy known newer
        verified owner share space written
      rw [deliver_accepted waiting accepted, replaced]
      rw [own] at found codes isCodes
      refine ⟨_, converging.next split quiet healthy' found le_rfl issued ?_ (.refl _)⟩
      rw [codes, isCodes, Set.pair_eq_singleton]
      exact .finished (tail.rise newer.le afterLater)
    | @replace new ad request _ _ newer later changed tail =>
      have own : ad.key = _ := speaks.1
      rw [← own] at known isCodes
      obtain ⟨rfl, verified, owner, share, space, written⟩ := taken fun _ same =>
        Option.some.inj (known.symm.trans same) ▸ newer
      obtain ⟨next, accepted, healthy', found, codes⟩ := put_routes unexpired healthy known newer
        verified owner share space written
      rw [deliver_accepted waiting accepted, replaced]
      rw [own] at found codes isCodes
      refine ⟨_, converging.next split quiet healthy' found le_rfl issued ?_ (.refl _)⟩
      rw [codes, isCodes, Set.pair_comm]
      exact .retire later changed (tail.rise newer.le afterLater)
    | @retire new request _ _ newer changed tail =>
      have own : request.key = _ := speaks
      rw [← own] at known isCodes
      obtain ⟨rfl, each⟩ := taken fun _ same => Option.some.inj (known.symm.trans same) ▸ newer
      obtain ⟨verified, written⟩ := each watermark known
      obtain ⟨next, accepted, healthy', found, codes⟩ := forget_routes unexpired healthy known newer
        (isCodes ▸ Set.mem_insert _ _) verified written
      rw [deliver_accepted waiting accepted, replaced]
      rw [own] at found codes isCodes
      refine ⟨_, converging.next split quiet healthy' found le_rfl issued ?_ (.refl _)⟩
      rw [codes, isCodes, Set.pair_sdiff_left changed]
      exact .finished (tail.rise newer.le afterLater)

theorem Converging.exec (converging : Converging identity vaultId s metadata watermark)
    {step : RoutingStep Addr} (orderly : Orderly s step) :
    ∃ metadata watermark, Converging identity vaultId (routing.exec step s) metadata watermark := by
  by_cases isLocal : ∀ task now outcome, step ≠ .deliver task now outcome
  · obtain ⟨next, converging⟩ := converging.local orderly isLocal
    exact ⟨next, watermark, converging⟩
  · push Not at isLocal
    obtain ⟨task, now, outcome, rfl⟩ := isLocal
    exact ⟨metadata, converging.deliver orderly⟩

omit [NumericAddr Addr] [Primitives] in
theorem Converging.converged (converging : Converging identity vaultId s metadata watermark)
    (finished : s.Finished) : s.Converged identity := by
  refine ⟨metadata, converging.admission, ?_⟩
  rw [converging.vault]
  exact converging.leads.settled finished

omit [NumericAddr Addr] [Primitives] in
theorem Settled.converging (settled : s.Settled) : ∃ vaultId metadata watermark,
    Converging s.host.keys.identity.document vaultId s metadata watermark := by
  obtain ⟨metadata, watermark, admission, found, issued, routes⟩ := settled.advertised
  have empty : s.tasks.flatten = [] := List.flatten_eq_nil_iff.mpr settled.finished
  refine ⟨_, metadata, watermark, rfl, settled.healthy, admission, rfl, found, issued, ?_, ?_, ?_⟩
  · rw [routes]
    have quiet : ∀ task ∈ s.tasks, Refreshing task := fun task mem => by
      rw [settled.finished task mem]
      trivial
    have done : Leads watermark.issuedAt {metadata.joinCode} (s.tasks ++ []) metadata.joinCode := by
      refine Leads.done.overtaken quiet fun task mem message inTask => ?_
      rw [settled.finished task mem] at inTask
      cases inTask
    rwa [List.append_nil] at done
  · rw [empty]
    exact fun _ mem => absurd mem List.not_mem_nil
  · rw [empty]
    exact .nil

/-- Tasks started in any number from a vault that is advertised, and their messages
delivered in any order in which none overtakes one of an earlier rotation or kick:
whenever all tasks have finished, the current code leads to the vault and no other. -/
theorem directory_converges (s : Routing Addr) (settled : s.Settled) (steps : List (RoutingStep Addr))
    (orderly : routing.Along Orderly steps s) :
    routing.Throughout (fun t => t.Finished → t.Converged s.host.keys.identity.document) steps s := by
  obtain ⟨vaultId, metadata, watermark, converging⟩ := settled.converging
  have invariant := routing.throughout_of_step
    (I := fun t => ∃ metadata watermark,
      Converging s.host.keys.identity.document vaultId t metadata watermark)
    (fun _ _ ⟨_, _, converging⟩ orderly => converging.exec orderly) steps s
    ⟨metadata, watermark, converging⟩ orderly
  exact invariant.mono fun t ⟨_, _, converging⟩ => converging.converged

omit [NumericAddr Addr] [Primitives] in
theorem routes_eq_singleton {store : DirectoryStore Addr} {key : WatermarkKey} {code : JoinCode}
    (h : (store.ads.toList.filter fun entry => entry.2.key = key).map Prod.fst = [code]) :
    store.routes key = {code} := by
  have member : ∀ other, other ∈ store.routes key ↔
      other ∈ (store.ads.toList.filter fun entry => entry.2.key = key).map Prod.fst := by
    intro other
    simp only [List.mem_map, List.mem_filter, decide_eq_true_eq, Prod.exists]
    constructor
    · rintro ⟨ad, found, own⟩
      exact ⟨other, ad, ⟨Map.mem_toList.mpr found, own⟩, rfl⟩
    · rintro ⟨_, ad, ⟨mem, own⟩, rfl⟩
      exact ⟨ad, Map.mem_toList.mp mem, own⟩
  ext other
  rw [member, h, List.mem_singleton, Set.mem_singleton_iff]

end Routing

/-! A vault that is advertised rotates its code and refreshes its advertisement at once. -/

namespace Routing

local instance : Primitives := Primitives.plain

private def advertisedVault : Routing Loopback :=
  routing.run [.republish calmEnv .v6, .deliver 0 0 .written]
    { host := (attachAdmission calmEnv ⟨⟨3⟩, ⟨5⟩, 0, [], ∅⟩ aliceHost).2
      directory := ⟨∅, ∅, false, none⟩
      tasks := [] }

private def advertisedMetadata : VaultMetadata :=
  advertisedVault.host.state.admission.get (by decide +kernel)

private def advertisedWatermark : DirectoryWatermark :=
  (advertisedVault.directory.watermarks[(⟨advertisedVault.host.keys.identity.document.peerId,
    advertisedMetadata.vaultId⟩ : WatermarkKey)]?).get (by decide +kernel)

private theorem advertisedVault_settled : advertisedVault.Settled :=
  ⟨by decide +kernel, by decide +kernel, advertisedMetadata, advertisedWatermark,
    (Option.some_get _).symm, (Option.some_get _).symm, by decide +kernel,
    routes_eq_singleton (by decide +kernel)⟩

private def overtaken : List (RoutingStep Loopback) :=
  [.rotate calmEnv .v6 ⟨6⟩, .republish calmEnv .v6, .deliver 2 0 .written, .deliver 1 0 .written]

/-- The refresh arrives before the rotation: both messages of the rotation are lost,
and the old code is not forgotten. -/
theorem directory_converges_overtaken : advertisedVault.Settled ∧
    ¬ routing.Throughout
      (fun t => t.Finished → t.Converged advertisedVault.host.keys.identity.document) overtaken
      advertisedVault := by
  refine ⟨advertisedVault_settled, fun throughout => ?_⟩
  obtain ⟨metadata, admission, routes⟩ := throughout.final (by decide +kernel)
  have rotated : (routing.run overtaken advertisedVault).host.state.admission.map
      (fun metadata => (metadata.vaultId, metadata.joinCode)) = some (⟨3⟩, ⟨6⟩) := by decide +kernel
  have kept : ((routing.run overtaken advertisedVault).directory.ads[(⟨5⟩ : JoinCode)]?).map
      DirectoryAd.key = some ⟨advertisedVault.host.keys.identity.document.peerId, ⟨3⟩⟩ := by
    decide +kernel
  obtain ⟨ad, found, own⟩ := Option.map_eq_some_iff.mp kept
  rw [admission, Option.map_some, Option.some.injEq, Prod.mk.injEq] at rotated
  rw [rotated.1, rotated.2] at routes
  have old : (⟨5⟩ : JoinCode) ∈ ({⟨6⟩} : Set JoinCode) := routes ▸ ⟨ad, found, own⟩
  exact absurd (Set.mem_singleton_iff.mp old) (by decide)

theorem directory_converges_rotated : advertisedVault.Settled ∧
    routing.Throughout
      (fun t => t.Finished → t.Converged advertisedVault.host.keys.identity.document)
      [.rotate calmEnv .v6 ⟨6⟩, .republish calmEnv .v6, .deliver 1 0 .written,
        .deliver 1 0 .written, .deliver 2 0 .written] advertisedVault :=
  ⟨advertisedVault_settled, directory_converges _ advertisedVault_settled _ (by decide +kernel)⟩

end Routing

end QuantumFs.Net
