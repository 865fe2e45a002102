import QuantumFs.Host.Run

/-! The operations that the host remembers for its operator (`recent_ops` in `sync/host.rs`): the ids
its instructions consumed, each with the member that sent it. -/
namespace QuantumFs.Host

open Lib Encoding Crypto Store

namespace HostService

variable (host : HostService)

/-- Committed control ids newer than `since`, oldest first. -/
def recentOpsSince (since : Nat) : List (Nat × PeerId × Nat) :=
  host.recentOps.filter fun (id, _, _) => since < id

def ring : List (Nat × PeerId) := host.recentOps.map fun op => (op.1, op.2.1)

def Ringed : Prop := host.ring.length ≤ recentOpsLimit ∧ ∀ op ∈ host.ring, op.1 < host.state.nextControl

end HostService

def consumed (s t : HostService) : List Nat :=
  List.range' s.state.nextControl (t.state.nextControl - s.state.nextControl)

/-- What was consumed since `s` is in the ring, under the name of `sender`. -/
structure Noted (sender : PeerId) (s t : HostService) : Prop where
  grows : s.state.nextControl ≤ t.state.nextControl
  ring : t.ring = (s.ring ++ (consumed s t).map (·, sender)).rtake recentOpsLimit

structure Unnoted (s t : HostService) : Prop where
  grows : s.state.nextControl ≤ t.state.nextControl
  ring : t.recentOps = s.recentOps

variable {s t : HostService} {sender : PeerId}

theorem ring_congr (same : t.recentOps = s.recentOps) : t.ring = s.ring := congrArg (List.map _) same

theorem rtake_of_length_le {α : Type} {items : List α} {n : Nat} (short : items.length ≤ n) :
    items.rtake n = items := by
  rw [List.rtake, Nat.sub_eq_zero_of_le short, List.drop_zero]

theorem rtake_append_rtake {α : Type} (front back : List α) (n : Nat) :
    (front.rtake n ++ back).rtake n = (front ++ back).rtake n := by
  simp only [List.rtake_eq_reverse_take_reverse, List.reverse_append, List.reverse_reverse, List.take_append,
    List.take_take, Nat.min_eq_left (Nat.sub_le _ _)]

theorem consumed_of_eq (same : t.state.nextControl = s.state.nextControl) : consumed s t = [] := by
  rw [consumed, same, Nat.sub_self, List.range'_zero]

theorem Noted.of_same (ringed : s.Ringed) (ring : t.recentOps = s.recentOps)
    (next : t.state.nextControl = s.state.nextControl) : Noted sender s t where
  grows := next.ge
  ring := by
    rw [consumed_of_eq next, List.map_nil, List.append_nil, rtake_of_length_le ringed.1, ring_congr ring]

theorem noteRecentOp_state (env : HostEnv) (sender : PeerId) (id : Nat) (host : HostService) :
    (noteRecentOp env sender id host).state = host.state := by
  unfold noteRecentOp
  split <;> rfl

theorem noteRecentOp_ring (env : HostEnv) (sender : PeerId) {id : Nat} {host : HostService}
    (isConsumed : id < host.state.nextControl) (newer : ∀ op ∈ host.ring, op.1 < id)
    (short : host.ring.length ≤ recentOpsLimit) :
    (noteRecentOp env sender id host).ring = (host.ring ++ [(id, sender)]).rtake recentOpsLimit := by
  have fresh : ¬(host.state.nextControl ≤ id ∨ host.recentOps.getLast?.any (·.1 = id) = true) := by
    rintro (early | again)
    · omega
    · obtain ⟨op, isLast, same⟩ := (Option.any_eq_true _ _).mp again
      have := newer _ (List.mem_map_of_mem (f := fun op : Nat × PeerId × Nat => (op.1, op.2.1))
        (List.mem_of_getLast? isLast))
      simp at same this
      omega
  have length : host.ring.length = host.recentOps.length := List.length_map _
  unfold noteRecentOp
  rw [if_neg fresh]
  unfold HostService.ring at *
  dsimp only
  rw [List.map_append, List.map_singleton, List.rtake, List.length_append, List.length_singleton, length]
  by_cases full : recentOpsLimit ≤ host.recentOps.length
  · rw [if_pos full, show host.recentOps.length + 1 - recentOpsLimit = 1 by omega, List.map_tail,
      List.drop_append_of_le_length (by unfold recentOpsLimit at full; omega), List.drop_one]
  · rw [if_neg full, show host.recentOps.length + 1 - recentOpsLimit = 0 by omega, List.drop_zero]

theorem noteRecentOp_ignored (env : HostEnv) (sender : PeerId) {id : Nat} {host : HostService}
    (again : host.state.nextControl ≤ id ∨ ∃ op, host.ring.getLast? = some op ∧ op.1 = id) :
    noteRecentOp env sender id host = host := by
  unfold noteRecentOp
  refine if_pos (again.imp_right ?_)
  rintro ⟨op, isLast, same⟩
  obtain ⟨entry, isEntry, rfl⟩ := Option.map_eq_some_iff.mp (List.getLast?_map.symm.trans isLast)
  rw [isEntry]
  simpa using same

theorem noted_foldl (env : HostEnv) (sender : PeerId) (count : Nat) :
    ∀ (first : Nat) (host : HostService), first + count ≤ host.state.nextControl →
      (∀ op ∈ host.ring, op.1 < first) → host.ring.length ≤ recentOpsLimit →
      ((List.range' first count).foldl (fun host id => noteRecentOp env sender id host) host).ring =
        (host.ring ++ (List.range' first count).map (·, sender)).rtake recentOpsLimit := by
  induction count with
  | zero =>
    intro first host _ _ short
    rw [List.range'_zero, List.foldl_nil, List.map_nil, List.append_nil, rtake_of_length_le short]
  | succ count ih =>
    intro first host bound newer short
    have ring := noteRecentOp_ring env sender (show first < host.state.nextControl by omega) newer short
    rw [List.range'_succ, List.foldl_cons, ih, ring, rtake_append_rtake, List.map_cons, List.append_assoc]
    · rfl
    · rw [noteRecentOp_state]
      omega
    · rw [ring]
      intro op mem
      obtain mem | mem := List.mem_append.mp (List.mem_of_mem_drop mem)
      · exact Nat.lt_succ_of_lt (newer op mem)
      · rw [List.mem_singleton.mp mem]
        exact Nat.lt_succ_self first
    · rw [ring, List.rtake, List.length_drop]
      omega

theorem noteRecentOps_state (env : HostEnv) (sender : PeerId) (first : Nat) (host : HostService) :
    (noteRecentOps env sender first host).state = host.state := by
  unfold noteRecentOps
  generalize List.range' first (host.state.nextControl - first) = ids
  induction ids generalizing host with
  | nil => rfl
  | cons id ids ih => rw [List.foldl_cons, ih, noteRecentOp_state]

theorem noteRecentOps_noted (env : HostEnv) (sender : PeerId) (ringed : s.Ringed) (ring : t.recentOps = s.recentOps)
    (grows : s.state.nextControl ≤ t.state.nextControl) {first : Nat} (isFirst : first = s.state.nextControl) :
    Noted sender s (noteRecentOps env sender first t) := by
  subst isFirst
  have same := noteRecentOps_state env sender s.state.nextControl t
  refine ⟨same ▸ grows, ?_⟩
  unfold consumed
  rw [same, ← ring_congr ring]
  refine noted_foldl env sender _ _ t (by omega) ?_ ?_
  · rw [ring_congr ring]
    exact ringed.2
  · rw [ring_congr ring]
    exact ringed.1

theorem noteRecentOp_noted (env : HostEnv) (sender : PeerId) (ringed : s.Ringed) (ring : t.recentOps = s.recentOps)
    (grows : s.state.nextControl ≤ t.state.nextControl) (one : t.state.nextControl ≤ s.state.nextControl + 1) :
    Noted sender s (noteRecentOp env sender s.state.nextControl t) := by
  have same : noteRecentOp env sender s.state.nextControl t = noteRecentOps env sender s.state.nextControl t := by
    unfold noteRecentOps
    obtain none | one : t.state.nextControl = s.state.nextControl ∨
        t.state.nextControl = s.state.nextControl + 1 := by omega
    · rw [none, Nat.sub_self]
      exact noteRecentOp_ignored env sender (.inl none.le)
    · rw [one, Nat.add_sub_cancel_left]
      rfl
  rw [same]
  exact noteRecentOps_noted env sender ringed ring grows rfl

theorem Noted.again (noted : Noted sender s t) (one : t.state.nextControl ≤ s.state.nextControl + 1) (env : HostEnv)
    (other : PeerId) : noteRecentOp env other s.state.nextControl t = t := by
  refine noteRecentOp_ignored env other ?_
  obtain none | one : t.state.nextControl = s.state.nextControl ∨ t.state.nextControl = s.state.nextControl + 1 := by
    have := noted.grows
    omega
  · exact .inl none.le
  · refine .inr ⟨(s.state.nextControl, sender), ?_, rfl⟩
    have ids : consumed s t = [s.state.nextControl] := by
      rw [consumed, one, Nat.add_sub_cancel_left]
      rfl
    rw [noted.ring, ids, List.map_singleton, show recentOpsLimit = 2047 + 1 from rfl, List.rtake_concat_succ,
      List.getLast?_concat]

theorem Noted.congr {u : HostService} (noted : Noted sender s t) (ring : u.recentOps = t.recentOps)
    (next : u.state.nextControl = t.state.nextControl) : Noted sender s u where
  grows := next ▸ noted.grows
  ring := by
    rw [ring_congr ring, noted.ring]
    unfold consumed
    rw [next]

variable [Primitives]

omit [Primitives] in
theorem onKeys_ring {α : Type} (x : Action Error KeyStore α) :
    Action.Keeps HostService.recentOps (HostService.onKeys x) := by
  intro host
  rw [HostService.onKeys, Action.zoom_apply]

omit [Primitives] in
theorem reopenGates_ring (blocked : List PeerId) : Action.Keeps HostService.recentOps (reopenGates blocked) :=
  .forEach fun _ _ => .bind .get fun _ => .ite (onKeys_ring _) (.pure _)

theorem refreshMailboxes_ring : Action.Keeps HostService.recentOps refreshMailboxes := by
  unfold refreshMailboxes
  refine .bind (.query _) fun _ => .bind .get fun _ => .forEach fun peer _ => ?_
  unfold refreshMailbox
  refine .bind .get fun host => ?_
  split
  · exact .pure _
  · unfold refreshQueue
    refine .bind (.query _) fun _ => .bind (onKeys_ring _) fun _ => .bind (.query _) fun _ => ?_
    exact .bind (.query _) fun _ _ => rfl

theorem publishState_ring (env : HostEnv) (staged : HostState) :
    Action.Keeps HostService.recentOps (publishState env staged) := by
  intro host
  refine (?_ : Action.Ensures (publishState env staged) host fun _ t => t.recentOps = host.recentOps)
  unfold publishState
  refine .get (.ofExcept (fun _ _ => rfl) fun archived _ => ?_)
  unfold Action.Ensures
  dsimp only
  split <;> rfl

theorem commitVerifiedWithCode_ring (env : HostEnv) (update : ControlUpdate) (trusted : Option Manifest)
    (rotated : Option JoinCode) :
    Action.Keeps HostService.recentOps (commitVerifiedWithCode env update trusted rotated) := by
  unfold commitVerifiedWithCode
  refine .bind (.query _) fun _ => .bind (.query _) fun _ => .bind refreshMailboxes_ring fun _ => .bind .get fun _ => ?_
  refine .bind (.ofExcept _) fun _ => .bind (.ofExcept _) fun _ => .bind (.ofExcept _) fun _ => ?_
  refine .bind ?_ fun outbox => .orElseUndo (.bind (.query _) fun _ => publishState_ring _ _) (reopenGates_ring _)
  intro host
  unfold prepareQueues
  generalize Action.forEach _ _ _ = queued
  obtain ⟨r, outbox⟩ := queued
  cases r with
  | ok _ => rfl
  | error e => exact Action.Keeps.orElseUndo (fun _ => rfl) (reopenGates_ring _) _

theorem commitManifest_ring (env : HostEnv) (manifest : Manifest) :
    Action.Keeps HostService.recentOps (commitManifest env manifest) := by
  unfold commitManifest
  refine .bind (.query _) fun _ => .bind (.query _) fun _ => .bind (.query _) fun _ => .bind .get fun _ => ?_
  exact .ite (.pure _) (commitVerifiedWithCode_ring _ _ _ _)

theorem publishUpload_ring (env : HostEnv) (sender : PeerId) (manifest : Manifest) (bodies : Map Nat Bytes)
    (link : Option ControlUpdate) : Action.Keeps HostService.recentOps (publishUpload env sender manifest bodies link) :=
  .bind (fun _ => rfl) fun _ => publishState_ring _ _

theorem Content.Commits.next {world : World} {update : ControlUpdate} {c next : Content}
    (h : Content.Commits world update c next) : next.nextControl = c.nextControl + 1 := by
  obtain ⟨_, live, admission, staged, documents, _, _, committed, _, rfl⟩ := h
  obtain ⟨tree, removed, _, _, _, rfl⟩ := Content.commit_eq_ok committed
  rfl

theorem Content.Adopts.consumes {world : World} {manifest : Manifest} {c next : Content}
    (h : Content.Adopts world manifest c next) : c.nextControl ≤ next.nextControl := by
  obtain ⟨_, rfl⟩ | commits := h
  · exact le_refl _
  · exact commits.next ▸ Nat.le_succ _

theorem Content.Uploads.consumes {world : World} {manifest : Manifest} {link : Option ControlUpdate} {c next : Content}
    (h : Content.Uploads world manifest link c next) : c.nextControl ≤ next.nextControl := by
  obtain ⟨stored, committed, puts, adopts, linked⟩ := h
  obtain ⟨records, rfl⟩ := Content.puts_records puts
  refine adopts.consumes.trans ?_
  cases link with
  | none => rw [linked]
  | some update => exact linked.next ▸ Nat.le_succ _

theorem Content.Move.consumes {world : World} {c staged : Content} (h : Content.Move world c staged) :
    c.nextControl ≤ staged.nextControl := by
  cases h with
  | commit _ _ _ committed =>
    obtain ⟨tree, removed, _, _, _, rfl⟩ := Content.commit_eq_ok committed
    exact Nat.le_succ _
  | upload _ uploads => exact uploads.consumes
  | _ => exact le_refl _

omit [Primitives] in
theorem Published.next {v w : View} {next : HostState} (h : Published v next w) :
    w.content.nextControl = next.content.nextControl := by
  cases h <;> rfl

omit [Primitives] in
theorem Outcome.kept {α : Type} {R : Content → Prop} {v w : View} {e : Error}
    (h : Outcome (α := α) R v (.error e) w) : w.content = v.content := by
  cases h with
  | refused => rfl
  | lost _ _ lost => cases lost; rfl

omit [Primitives] in
theorem Outcome.consumes {α : Type} {R : Content → Prop} {v w : View} {r : Result α} (h : Outcome R v r w)
    (step : ∀ next, R next → v.content.nextControl ≤ next.nextControl) :
    v.content.nextControl ≤ w.content.nextControl := by
  cases r with
  | error e => rw [h.kept]
  | ok a =>
    obtain ⟨next, moved, published⟩ := h.published
    exact published.next ▸ step next.content moved

theorem Effect.consumes {v w : View} (h : Effect v w) : v.content.nextControl ≤ w.content.nextControl := by
  cases h with
  | beside beside => rw [beside.content]
  | steps first outcome last =>
    rw [last.content, ← first.content]
    refine outcome.consumes ?_
    rintro next ⟨staged, move, documents, _, rfl⟩
    exact move.consumes

/-- An instruction that fails consumes no id, and one that is accepted consumes one at most. -/
structure Spent (s : HostService) (r : Result Unit) (t : HostService) : Prop where
  ring : t.recentOps = s.recentOps
  grows : s.state.nextControl ≤ t.state.nextControl
  one : t.state.nextControl ≤ s.state.nextControl + 1
  refused : ∀ e, r = .error e → t.state.nextControl = s.state.nextControl

omit [Primitives] in
theorem Spent.of_outcome {R : Content → Prop} {r : Result Unit} (ring : t.recentOps = s.recentOps)
    (outcome : Outcome R s.view r t.view) (step : ∀ next, R next → next.nextControl = s.state.nextControl + 1) :
    Spent s r t := by
  cases r with
  | error e =>
    have same : t.state.nextControl = s.state.nextControl := congrArg Content.nextControl outcome.kept
    exact ⟨ring, same.ge, by omega, fun _ _ => same⟩
  | ok _ =>
    obtain ⟨next, moved, published⟩ := outcome.published
    have same : t.state.nextControl = s.state.nextControl + 1 := published.next.trans (step _ moved)
    exact ⟨ring, by omega, same.le, nofun⟩

theorem commit_spent (env : HostEnv) {update : ControlUpdate} {trusted : Option Manifest}
    (honest : ∀ manifest, update = .newManifest manifest → trusted = some manifest) (rotated : Option JoinCode)
    (host : HostService) :
    Action.Ensures (commitVerifiedWithCode env update trusted rotated) host fun r t => Spent host r t := by
  refine ((Action.Ensures.of_keeps (commitVerifiedWithCode_ring env update trusted rotated)).and
    (commitVerifiedWithCode_outcome env honest rotated host)).mono fun r t ⟨ring, outcome⟩ => ?_
  refine .of_outcome ring outcome ?_
  rintro next ⟨live, admission, staged, _, _, committed, documents, _, rfl⟩
  obtain ⟨tree, removed, _, _, _, rfl⟩ := Content.commit_eq_ok committed
  rfl

theorem commitInstruction_spent (env : HostEnv) {update : ControlUpdate} (notKick : kickedBy update = none)
    (host : HostService) : Action.Ensures (commitInstruction env update) host fun r t => Spent host r t := by
  have refused (r : Result Unit) : Spent host r host := ⟨rfl, le_refl _, Nat.le_succ _, fun _ _ => rfl⟩
  have plain (other : ControlUpdate) (isOther : ∀ manifest, other ≠ .newManifest manifest) :
      Action.Ensures (do Action.query HostService.requireRunning; commitVerified env other none) host
        fun r t => Spent host r t :=
    .query (fun _ _ => refused _) fun _ _ => commit_spent env (fun _ same => absurd same (isOther _)) none host
  cases update with
  | newManifest manifest =>
    change Action.Ensures (commitManifest env manifest) host fun r t => Spent host r t
    unfold commitManifest
    refine .query (fun _ _ => refused _) fun _ _ => .query (fun _ _ => refused _) fun _ _ => ?_
    refine .query (fun _ _ => refused _) fun _ _ => .get (.ite (fun _ => .pure (refused _)) fun _ => ?_)
    exact commit_spent env (fun _ same => congrArg some (ControlUpdate.newManifest.inj same)) none host
  | kick target => cases notKick
  | add fileId => exact plain (.add fileId) nofun
  | clear fileId => exact plain (.clear fileId) nofun
  | remove fileId => exact plain (.remove fileId) nofun
  | link parent name child isDir => exact plain (.link parent name child isDir) nofun
  | unlink parent name => exact plain (.unlink parent name) nofun
  | rename srcParent srcName dstParent dstName => exact plain (.rename srcParent srcName dstParent dstName) nofun

section

variable {host : HostService} (ringed : host.Ringed)
include ringed

theorem kickWithCode_noted (env : HostEnv) (target : PeerId) (code : Option JoinCode) :
    Action.Ensures (kickWithCode env target code) host fun _ t =>
      Noted host.state.hostId host t ∧ t.state.nextControl ≤ host.state.nextControl + 1 := by
  have refused : Noted host.state.hostId host host ∧ host.state.nextControl ≤ host.state.nextControl + 1 :=
    ⟨.of_same ringed rfl rfl, Nat.le_succ _⟩
  unfold kickWithCode
  refine .query (fun _ _ => refused) fun _ _ => .query (fun _ _ => refused) fun _ _ => .get ?_
  refine .require (fun _ => refused) fun _ => ?_
  refine .next (commit_spent env (fun _ absurd => by cases absurd) code host) (fun e t spent => ?_) fun _ t spent => ?_
  · exact ⟨.of_same ringed spent.ring (spent.refused e rfl), spent.one⟩
  · have noted := noteRecentOp_noted env host.state.hostId ringed spent.ring spent.grows spent.one
    have one : (noteRecentOp env host.state.hostId host.state.nextControl t).state.nextControl ≤
        host.state.nextControl + 1 := by
      rw [noteRecentOp_state]
      exact spent.one
    refine .modify (.modify ?_)
    refine .zoom (R := fun _ _ => True) trivial (fun _ _ _ => ?_) fun _ _ _ => .pure ?_
    all_goals exact ⟨noted.congr rfl rfl, one⟩

theorem fanOutControl_noted (env : HostEnv) (sender : PeerId) (update : ControlUpdate) :
    Action.Ensures (fanOutControl env sender update) host fun _ t => Noted sender host t := by
  have refused : Noted sender host host := .of_same ringed rfl rfl
  unfold fanOutControl
  refine .query (fun _ _ => refused) fun _ _ => .query (fun _ _ => refused) fun _ _ => .get ?_
  refine .require (fun _ => refused) fun may => ?_
  cases kicked : kickedBy update with
  | none =>
    refine .next (commitInstruction_spent env kicked host) (fun e t spent => ?_) fun _ t spent => .modify (.pure ?_)
    · exact .of_same ringed spent.ring (spent.refused e rfl)
    · exact noteRecentOp_noted env sender ringed spent.ring spent.grows spent.one
  | some target =>
    cases update with
    | kick target =>
      obtain rfl : sender = host.state.hostId := of_decide_eq_true may
      have kicks : Action.Ensures (commitInstruction env (.kick target)) host fun _ t =>
          Noted host.state.hostId host t ∧ t.state.nextControl ≤ host.state.nextControl + 1 :=
        .next (kickWithCode_noted ringed env target none) (fun _ _ known => known) fun _ _ known => .pure known
      refine .next kicks (fun _ _ known => known.1) fun _ t known => .modify (.pure ?_)
      rw [known.1.again known.2]
      exact known.1
    | _ => cases kicked

omit ringed [Primitives] in
theorem discard_ensures {α : Type} {x : Action Error HostService α} {Q : HostService → Prop}
    (h : Action.Ensures x host fun _ t => Q t) : Action.Ensures (discard x) host fun _ t => Q t :=
  .next h (fun _ _ known => known) fun _ _ known => .pure known

theorem mkdir_noted (env : HostEnv) (sender : PeerId) (path : String) :
    Action.Ensures (mkdir env sender path) host fun _ t => Noted sender host t := by
  have refused : Noted sender host host := .of_same ringed rfl rfl
  unfold mkdir
  refine .query (fun _ _ => refused) fun _ _ => .query (fun _ _ => refused) fun _ _ => ?_
  refine .query (fun _ _ => refused) fun _ _ => .ofExcept (fun _ _ => refused) fun child _ => ?_
  exact .next (fanOutControl_noted ringed env sender _) (fun _ _ known => known) fun _ _ known => .pure known

theorem linkFile_noted (env : HostEnv) (sender : PeerId) (path : String) (child : FileId) :
    Action.Ensures (linkFile env sender path child) host fun _ t => Noted sender host t := by
  have refused : Noted sender host host := .of_same ringed rfl rfl
  unfold linkFile
  refine .query (fun _ _ => refused) fun _ _ => .query (fun _ _ => refused) fun _ _ => ?_
  exact .query (fun _ _ => refused) fun _ _ => fanOutControl_noted ringed env sender _

theorem unlink_noted (env : HostEnv) (sender : PeerId) (path : String) :
    Action.Ensures (unlink env sender path) host fun _ t => Noted sender host t := by
  have refused : Noted sender host host := .of_same ringed rfl rfl
  unfold unlink
  refine .query (fun _ _ => refused) fun _ _ => .query (fun _ _ => refused) fun _ _ => ?_
  exact .query (fun _ _ => refused) fun _ _ => fanOutControl_noted ringed env sender _

theorem rename_noted (env : HostEnv) (sender : PeerId) (source destination : String) :
    Action.Ensures (rename env sender source destination) host fun _ t => Noted sender host t := by
  have refused : Noted sender host host := .of_same ringed rfl rfl
  unfold rename
  refine .query (fun _ _ => refused) fun _ _ => .query (fun _ _ => refused) fun _ _ => ?_
  refine .query (fun _ _ => refused) fun _ _ => .query (fun _ _ => refused) fun _ _ => ?_
  exact fanOutControl_noted ringed env sender _

theorem commitWriterUpload_noted (env : HostEnv) (sender : PeerId) (manifest : Manifest) (bodies : Map Nat Bytes)
    (link : Option ControlUpdate) :
    Action.Ensures (commitWriterUpload env sender manifest bodies link) host fun _ t => Noted sender host t := by
  have refreshed : Action.Keeps (fun host => (host.view, host.recentOps)) refreshMailboxes :=
    fun s => Prod.ext (refreshMailboxes_keeps s) (refreshMailboxes_ring s)
  have refused : ∀ {t : HostService}, (t.view, t.recentOps) = (host.view, host.recentOps) → Noted sender host t := by
    intro t same
    simp only [Prod.mk.injEq] at same
    exact .of_same ringed same.2 (congrArg (fun v => v.content.nextControl) same.1)
  unfold commitWriterUpload
  refine .query (fun _ _ => refused rfl) fun _ _ => .require (fun _ => refused rfl) fun isLink => ?_
  refine .keeps refreshed (fun _ _ _ same => refused same) fun _ fresh _ same => ?_
  refine .query (fun _ _ => refused same) fun owners _ => .get (.bind (.orElseUndo ?_))
  simp only [Prod.mk.injEq] at same
  have begins : fresh.state.nextControl = host.state.nextControl :=
    congrArg (fun v => v.content.nextControl) same.1
  refine ((Action.Ensures.of_keeps (publishUpload_ring env sender manifest bodies link)).and
    (publishUpload_outcome env sender manifest bodies isLink fresh)).mono fun r t ⟨ring, outcome⟩ => ?_
  cases r with
  | ok _ =>
    have grows : fresh.state.nextControl ≤ t.state.nextControl := (outcome.effect isLink).consumes
    exact noteRecentOps_noted env sender ringed (ring.trans same.2) (begins ▸ grows) begins
  | error e =>
    obtain ⟨u, beside, outcome⟩ := outcome
    have kept : t.state.nextControl = host.state.nextControl :=
      (congrArg Content.nextControl (outcome.kept.trans beside.content)).trans begins
    refine (Action.Ensures.of_keeps (reopenUnowned_keeps owners)).mono fun r after undone => ?_
    have noted : Noted sender host after := .of_same ringed
      ((congrArg HostService.recentOps undone).trans (ring.trans same.2))
      ((congrArg (fun host => host.state.nextControl) undone).trans kept)
    cases r with
    | ok _ => exact noted
    | error _ => exact noted

theorem saveFile_noted (env : HostEnv) {writer : KeyStore} {sender : PeerId} (isSender : writer.peerId = .ok sender)
    (path : String) (bodies : List Bytes) :
    Action.Ensures (saveFile env writer path bodies) host fun _ t => Noted sender host t := by
  have refused : Noted sender host host := .of_same ringed rfl rfl
  unfold saveFile
  refine .query (fun _ _ => refused) fun _ _ => .ofExcept (fun _ _ => refused) fun other isOther => ?_
  obtain rfl := Except.ok.inj (isSender.symm.trans isOther)
  refine .query (fun _ _ => refused) fun _ _ => .query (fun _ _ => refused) fun saved _ => ?_
  exact .next (commitWriterUpload_noted ringed env sender _ _ _) (fun _ _ known => known) fun _ _ known => .pure known

end

theorem addMember_ring (env : HostEnv) (document : IdentityDocument) :
    Action.Keeps HostService.recentOps (addMember env document) := by
  unfold addMember
  refine .bind (.query _) fun _ => .bind (.ofExcept _) fun _ => .bind .get fun _ => .bind (.require _ _) fun _ => ?_
  refine .ite (.pure _) (.bind (onKeys_ring _) fun _ => ?_)
  unfold bootstrapMember
  refine .bind (.query _) fun staged => .bind (.ofExcept _) fun _ => .bind (onKeys_ring _) fun _ => ?_
  exact .bind (onKeys_ring _) fun _ => .orElseUndo (publishState_ring _ _) (onKeys_ring _)

theorem attachAdmission_ring (env : HostEnv) (metadata : VaultMetadata) :
    Action.Keeps HostService.recentOps (attachAdmission env metadata) := by
  unfold attachAdmission
  refine .bind .get fun _ => .bind (.require _ _) fun _ => .bind (.modify fun _ => rfl) fun _ => ?_
  exact .orElseUndo (.bind (.require _ _) fun _ => publishState_ring _ _) (.modify fun _ => rfl)

theorem setAdmission_ring (env : HostEnv) (metadata : VaultMetadata) :
    Action.Keeps HostService.recentOps (setAdmission env metadata) := by
  unfold setAdmission
  exact .bind (.query _) fun _ => .bind .get fun _ => .bind (.require _ _) fun _ => publishState_ring _ _

omit [Primitives] in
theorem heartbeat_ring (env : HostEnv) (peer : PeerId) (ttl : Nat) :
    Action.Keeps HostService.recentOps (heartbeat env peer ttl) := by
  unfold heartbeat
  exact .bind (.query _) fun _ => .bind (.query _) fun _ => .bind (.ofExcept _) fun _ => .modify fun _ => rfl

theorem takeOnlineControl_ring (env : HostEnv) (recipient : PeerId) :
    Action.Keeps HostService.recentOps (takeOnlineControl env recipient) := by
  unfold takeOnlineControl
  refine .bind (.query _) fun _ => .bind (.query _) fun _ => .bind (.query _) fun _ => .bind (.query _) fun session => ?_
  refine .bind .get fun _ => .ite (.pure _) ?_
  exact .bind (fun _ => rfl) fun _ => .bind .get fun _ => .bind (publishState_ring _ _) fun _ => .pure _

theorem appendMailbox_ring (env : HostEnv) (recipient : PeerId) (fileId : FileId) (index : Nat) :
    Action.Keeps HostService.recentOps (appendMailbox env recipient fileId index) := by
  unfold appendMailbox
  refine .bind (.query _) fun _ => .bind (.query _) fun _ => .bind (.query _) fun _ => .bind (.ofExcept _) fun _ => ?_
  refine .bind refreshMailboxes_ring fun _ => ?_
  unfold queueSlot
  refine .bind (.query _) fun _ => .bind (.query _) fun _ => .bind .get fun _ => .bind (onKeys_ring _) fun _ => ?_
  refine .bind (onKeys_ring _) fun _ => .bind (.ofExcept _) fun _ => .bind (.ofExcept _) fun _ => ?_
  exact .orElseUndo (publishState_ring _ _) (reopenGates_ring _)

omit [Primitives] in
theorem issueFlushChallenge_ring (env : HostEnv) (recipient : PeerId) :
    Action.Keeps HostService.recentOps (issueFlushChallenge env recipient) := by
  unfold issueFlushChallenge
  refine .bind (.query _) fun _ => .bind (.query _) fun _ => .bind (.ofExcept _) fun _ => ?_
  exact .bind (.modify fun _ => rfl) fun _ => .pure _

theorem prepareFlush_ring (peer : PeerId) (challenge : FlushChallenge) (signature : Bytes) :
    Action.Keeps HostService.recentOps (prepareFlush peer challenge signature) := by
  unfold prepareFlush
  refine .bind (.query _) fun _ => .bind (.query _) fun _ => .bind .get fun _ => .bind (.require _ _) fun _ => ?_
  refine .bind (.query _) fun _ => .bind (.ofExcept _) fun _ => .bind refreshMailboxes_ring fun _ => ?_
  exact .bind (onKeys_ring _) fun _ => .bind .get fun _ => .pure _

theorem acknowledgeFlush_ring (env : HostEnv) (peer : PeerId) (prepared : PreparedHostFlush) :
    Action.Keeps HostService.recentOps (acknowledgeFlush env peer prepared) := by
  unfold acknowledgeFlush
  refine .bind (.query _) fun _ => .bind .get fun _ => .bind (.require _ _) fun _ => .bind (.require _ _) fun _ => ?_
  refine .bind (.require _ _) fun _ => .bind (publishState_ring _ _) fun _ => ?_
  exact .bind (.modify fun _ => rfl) fun _ => onKeys_ring _

theorem acknowledgeApplied_ring (env : HostEnv) (peer : PeerId) (through : Nat) :
    Action.Keeps HostService.recentOps (acknowledgeApplied env peer through) := by
  unfold acknowledgeApplied
  refine .bind (.query _) fun _ => .bind (.query _) fun _ => .bind .get fun _ => .bind (.require _ _) fun _ => ?_
  exact .ite (.pure _) (publishState_ring _ _)

omit [Primitives] in
theorem gateMailboxes_ring : Action.Keeps HostService.recentOps gateMailboxes := by
  unfold gateMailboxes
  exact .bind .get fun _ => .forEach fun _ _ => .ite (.pure _) (onKeys_ring _)

theorem resume_ring {keys : KeyStore} {disk : Option DurableStore} {state : HostState} {host : HostService}
    (h : Host.resume keys disk state = .ok host) : host.recentOps = [] := by
  obtain ⟨_, _, h⟩ := Result.bind_eq_ok.mp h
  obtain ⟨_, _, h⟩ := Result.bind_eq_ok.mp h
  obtain ⟨migrated, _, h⟩ := Result.bind_eq_ok.mp h
  have kept : Action.Keeps HostService.recentOps (gateMailboxes >>= fun _ => refreshMailboxes) :=
    .bind gateMailboxes_ring fun _ => refreshMailboxes_ring
  exact kept.of_ok (returned_eq_ok h)

theorem openDurable_ring {env : HostEnv} {keys : KeyStore} {disk : DurableStore} {root : FileId}
    {members : OrdSet PeerId} {host : HostService} (h : openDurable env keys disk root members = .ok host) :
    host.recentOps = [] := by
  unfold openDurable at h
  obtain ⟨⟨opened, stored, chunks⟩, _, h⟩ := Result.bind_eq_ok.mp h
  obtain ⟨_, _, h⟩ := Result.bind_eq_ok.mp h
  obtain ⟨_, _, h⟩ := Result.bind_eq_ok.mp h
  obtain ⟨_, _, h⟩ := Result.bind_eq_ok.mp h
  obtain ⟨_, _, h⟩ := Result.bind_eq_ok.mp h
  obtain ⟨_, _, h⟩ := Result.bind_eq_ok.mp h
  have kept : Action.Keeps HostService.recentOps (gateMailboxes >>= fun _ => publishFresh env stored.isNone) :=
    .bind gateMailboxes_ring fun _ => .bind .get fun _ => .ite (publishState_ring _ _) (.pure _)
  exact kept.of_ok (returned_eq_ok h)

/-- The member that an instruction, a kick or an upload is sent by. -/
def HostOp.sender? (host : HostService) : HostOp → Option PeerId
  | .kick _ _ _ => some host.state.hostId
  | .fanOutControl _ sender _ | .mkdir _ sender _ | .linkFile _ sender _ _ | .unlink _ sender _
  | .rename _ sender _ _ | .commitWriterUpload _ sender _ _ _ => some sender
  | .saveFile _ writer _ _ => writer.peerId.toOption
  | _ => none

def HostOp.renews : HostOp → Bool
  | .resume _ | .restart _ _ _ => true
  | _ => false

/-- What an operation enters into the ledger. -/
def HostOp.entries (op : HostOp) (s t : HostService) : List (Nat × PeerId) :=
  match op.sender? s with
  | some sender => (consumed s t).map (·, sender)
  | none => []

/-- A host, and every id that was consumed since it started, with the member that sent the instruction. -/
structure Operated where
  host : HostService
  committed : List (Nat × PeerId)

def Operated.after (s : Operated) (op : HostOp) (result : Result Unit) (host : HostService) : Operated where
  host := host
  committed := if op.renews && result.isOk then [] else s.committed ++ op.entries s.host host

def operated : Machine Operated HostOp where
  exec := fun op s => s.after op (op.perform s.host).1 (op.perform s.host).2

/-- The ring has the latest of the ids that were consumed. -/
structure Operated.Exact (s : Operated) : Prop where
  ring : s.host.ring = s.committed.rtake recentOpsLimit
  increasing : (s.committed.map Prod.fst).Pairwise (· < ·)
  consumed : ∀ op ∈ s.committed, op.1 < s.host.state.nextControl
  ordered : (s.host.recentOps.map Prod.fst).Pairwise (· < ·)
  shown : ∀ since, (s.host.recentOpsSince since).map (fun op => (op.1, op.2.1)) =
    (s.committed.rtake recentOpsLimit).filter fun op => since < op.1

theorem HostOp.unnoted {host : HostService} {op : HostOp} (notSent : op.sender? host = none) (old : op.renews = false) :
    Unnoted host (op.perform host).2 := by
  have quiet : ∀ {x : Action Error HostService Unit}, Effective x → Action.Keeps HostService.recentOps x →
      Unnoted host (x host).2 := fun effective ring => ⟨(effective host).consumes, ring host⟩
  have discarded : ∀ {α : Type} {x : Action Error HostService α}, Action.Keeps HostService.recentOps x →
      Action.Keeps HostService.recentOps (discard x) := fun ring => .bind ring fun _ => .pure _
  cases op with
  | addMember env document => exact quiet (addMember_effective env document) (addMember_ring env document)
  | commit env manifest => exact quiet (commitManifest_effective env manifest) (commitManifest_ring env manifest)
  | attachAdmission env metadata =>
    exact quiet (attachAdmission_effective env metadata) (attachAdmission_ring env metadata)
  | setAdmission env metadata => exact quiet (setAdmission_effective env metadata) (setAdmission_ring env metadata)
  | heartbeat env peer ttl => exact quiet (.of_keeps (heartbeat_keeps env peer ttl)) (heartbeat_ring env peer ttl)
  | takeOnlineControl env recipient =>
    exact quiet (takeOnlineControl_effective env recipient).discard (discarded (takeOnlineControl_ring env recipient))
  | refreshMailboxes => exact quiet (.of_keeps refreshMailboxes_keeps) refreshMailboxes_ring
  | appendMailbox env recipient fileId index =>
    exact quiet (appendMailbox_effective env recipient fileId index) (appendMailbox_ring env recipient fileId index)
  | issueFlushChallenge env recipient =>
    exact quiet (Effective.of_aside (issueFlushChallenge_aside env recipient)).discard
      (discarded (issueFlushChallenge_ring env recipient))
  | prepareFlush peer challenge signature =>
    exact quiet (Effective.of_keeps (prepareFlush_keeps peer challenge signature)).discard
      (discarded (prepareFlush_ring peer challenge signature))
  | acknowledgeFlush env peer prepared =>
    exact quiet (acknowledgeFlush_effective env peer prepared) (acknowledgeFlush_ring env peer prepared)
  | acknowledgeApplied env peer through =>
    exact quiet (acknowledgeApplied_effective env peer through) (acknowledgeApplied_ring env peer through)
  | putChunk env fileId index plaintext =>
    have stored : Action.Ensures (HostOp.putChunk env fileId index plaintext).perform host
        fun _ t => t.state.nextControl = host.state.nextControl ∧ t.recentOps = host.recentOps :=
      .bind (by
        unfold Action.Ensures
        rw [HostService.onChunks, Action.zoom_apply]
        generalize ChunkStore.put _ _ _ _ _ = result
        obtain ⟨r, disk, chunks⟩ := result
        cases r with
        | ok _ => exact ⟨rfl, rfl⟩
        | error _ => exact ⟨rfl, rfl⟩)
    exact ⟨stored.1.ge, stored.2⟩
  | stop => exact ⟨le_refl _, rfl⟩
  | rekey keys =>
    unfold HostOp.perform replaceService
    dsimp only
    split
    · rename_i replaced h
      obtain ⟨_, _, h⟩ := Result.bind_eq_ok.mp h
      obtain rfl := Except.ok.inj h
      exact ⟨le_refl _, rfl⟩
    · exact ⟨le_refl _, rfl⟩
  | saveFile env writer path bodies =>
    have missing : writer.peerId.toOption = none := notSent
    have same : Action.Ensures (Host.saveFile env writer path bodies) host fun _ t => t = host := by
      unfold Host.saveFile
      refine .query (fun _ _ => rfl) fun _ _ => .ofExcept (fun _ _ => rfl) fun other isOther => ?_
      rw [isOther] at missing
      cases missing
    have same : (HostOp.perform (.saveFile env writer path bodies) host).2 = host :=
      discard_ensures (Q := fun t => t = host) same
    rw [same]
    exact ⟨le_refl _, rfl⟩
  | resume | restart => cases old
  | kick | fanOutControl | mkdir | linkFile | unlink | rename | commitWriterUpload => cases notSent

theorem HostOp.noted {host : HostService} (ringed : host.Ringed) {op : HostOp} {sender : PeerId}
    (isSender : op.sender? host = some sender) : Noted sender host (op.perform host).2 := by
  cases op with
  | kick env target code =>
    obtain rfl := Option.some.inj isSender
    exact discard_ensures (Action.Ensures.mono (kickWithCode_noted ringed env target code) fun _ _ known => known.1)
  | fanOutControl env other update =>
    obtain rfl := Option.some.inj isSender
    exact fanOutControl_noted ringed env other update
  | mkdir env other path =>
    obtain rfl := Option.some.inj isSender
    exact discard_ensures (mkdir_noted ringed env other path)
  | linkFile env other path child =>
    obtain rfl := Option.some.inj isSender
    exact linkFile_noted ringed env other path child
  | unlink env other path =>
    obtain rfl := Option.some.inj isSender
    exact unlink_noted ringed env other path
  | rename env other source destination =>
    obtain rfl := Option.some.inj isSender
    exact rename_noted ringed env other source destination
  | commitWriterUpload env other manifest bodies link =>
    obtain rfl := Option.some.inj isSender
    exact commitWriterUpload_noted ringed env other manifest bodies link
  | saveFile env writer path bodies =>
    have isSender : writer.peerId = .ok sender := by
      change writer.peerId.toOption = some sender at isSender
      cases known : writer.peerId with
      | ok other =>
        rw [known] at isSender
        exact congrArg Except.ok (Option.some.inj isSender)
      | error e =>
        rw [known] at isSender
        cases isSender
    exact discard_ensures (saveFile_noted ringed env isSender path bodies)
  | _ => cases isSender

theorem HostOp.renewed (host : HostService) {op : HostOp} (new : op.renews = true) :
    if (op.perform host).1.isOk then (op.perform host).2.recentOps = [] else (op.perform host).2 = host := by
  have replaced : ∀ next : HostService → Result HostService, (∀ t, next host = .ok t → t.recentOps = []) →
      if (replaceService next host).1.isOk then (replaceService next host).2.recentOps = []
      else (replaceService next host).2 = host := by
    intro next empty
    unfold replaceService
    cases h : next host with
    | ok t => exact empty t h
    | error e => exact rfl
  cases op with
  | resume keys =>
    refine replaced _ fun t h => ?_
    obtain ⟨_, _, h⟩ := Result.bind_eq_ok.mp h
    exact resume_ring h
  | restart env keys members =>
    refine replaced _ fun t h => ?_
    obtain ⟨_, _, h⟩ := Result.bind_eq_ok.mp h
    obtain ⟨disk, _, h⟩ := Result.bind_eq_ok.mp h
    exact openDurable_ring h
  | _ => cases new

namespace Operated

variable {s : Operated}

omit [Primitives] in
theorem Exact.of_ring (ring : s.host.ring = s.committed.rtake recentOpsLimit)
    (increasing : (s.committed.map Prod.fst).Pairwise (· < ·))
    (consumed : ∀ op ∈ s.committed, op.1 < s.host.state.nextControl) : s.Exact where
  ring := ring
  increasing := increasing
  consumed := consumed
  ordered := by
    have ids : s.host.recentOps.map Prod.fst = s.host.ring.map Prod.fst := by
      rw [HostService.ring, List.map_map]
      rfl
    rw [ids, ring]
    exact increasing.sublist ((List.drop_sublist _ _).map _)
  shown := fun since => by
    rw [← ring, HostService.ring, List.filter_map]
    rfl

omit [Primitives] in
theorem Exact.start {host : HostService} (empty : host.recentOps = []) : Exact ⟨host, []⟩ :=
  .of_ring (by rw [HostService.ring, empty, List.rtake_nil, List.map_nil]) .nil nofun

omit [Primitives] in
theorem Exact.ringed (exact : s.Exact) : s.host.Ringed := by
  unfold HostService.Ringed
  rw [exact.ring, List.rtake, List.length_drop]
  exact ⟨by omega, fun op mem => exact.consumed op (List.mem_of_mem_drop mem)⟩

omit [Primitives] in
theorem Exact.noted (exact : s.Exact) {sender : PeerId} {t : HostService} (noted : Noted sender s.host t) :
    Exact ⟨t, s.committed ++ (Host.consumed s.host t).map (·, sender)⟩ := by
  have grows := noted.grows
  refine .of_ring ?_ ?_ fun op mem => ?_
  · rw [noted.ring, exact.ring, rtake_append_rtake]
  · have ids : ((Host.consumed s.host t).map (·, sender)).map Prod.fst = Host.consumed s.host t := by
      rw [List.map_map]
      exact List.map_id _
    rw [List.map_append, ids]
    refine List.pairwise_append.mpr ⟨exact.increasing, List.pairwise_lt_range', fun id earlier next later => ?_⟩
    obtain ⟨op, mem, rfl⟩ := List.mem_map.mp earlier
    exact (exact.consumed op mem).trans_le (List.mem_range'_1.mp later).1
  · obtain mem | mem := List.mem_append.mp mem
    · exact (exact.consumed op mem).trans_le grows
    · obtain ⟨id, isId, rfl⟩ := List.mem_map.mp mem
      have := (List.mem_range'_1.mp isId).2
      dsimp only
      omega

omit [Primitives] in
theorem Exact.unnoted (exact : s.Exact) {t : HostService} (unnoted : Unnoted s.host t) : Exact ⟨t, s.committed⟩ :=
  .of_ring ((ring_congr unnoted.ring).trans exact.ring) exact.increasing fun op mem =>
    (exact.consumed op mem).trans_le unnoted.grows

theorem Exact.exec (exact : s.Exact) (op : HostOp) : (operated.exec op s).Exact := by
  change (s.after op (op.perform s.host).1 (op.perform s.host).2).Exact
  unfold after HostOp.entries
  cases new : op.renews with
  | true =>
    have renewed := HostOp.renewed s.host new
    have nobody : op.sender? s.host = none := by
      cases op with
      | resume | restart => rfl
      | _ => cases new
    rw [nobody, List.append_nil, Bool.true_and]
    generalize op.perform s.host = outcome at renewed
    split at renewed
    · rename_i ok
      rw [if_pos ok]
      exact .start renewed
    · rename_i failed
      rw [if_neg failed, renewed]
      exact exact
  | false =>
    rw [Bool.false_and, if_neg Bool.false_ne_true]
    cases sent : op.sender? s.host with
    | none =>
      rw [List.append_nil]
      exact exact.unnoted (HostOp.unnoted sent new)
    | some sender => exact exact.noted (HostOp.noted exact.ringed sent)

end Operated

/-- In every run the ring of the operator has the latest of the ids that were consumed by instructions, kicks
and uploads, each once and under the member that sent it, and no other. -/
theorem operator_ring {host : HostService} (started : host.recentOps = []) (ops : List HostOp) :
    (operated.run ops ⟨host, []⟩).Exact :=
  operated.run_invariant (I := Operated.Exact) (fun _ op exact => exact.exec op) ops _
    (.start started)

section

open NonceReuse (alice bob)

omit [Primitives] in
/-- Two directories and a kick, which the fan-out would note a second time. -/
theorem operator_ring_kick :
    letI := Primitives.plain
    let ops := [HostOp.mkdir calmEnv alice.document.peerId "/docs", .mkdir calmEnv bob.document.peerId "/docs",
      .fanOutControl calmEnv alice.document.peerId (.kick bob.document.peerId)]
    aliceHost.recentOps = [] ∧
      (operated.run ops ⟨aliceHost, []⟩).committed = [(1, alice.document.peerId), (2, alice.document.peerId)] ∧
      (operated.run ops ⟨aliceHost, []⟩).Exact :=
  letI := Primitives.plain
  ⟨by decide +kernel, by decide +kernel, operator_ring (by decide +kernel) _⟩

end

end QuantumFs.Host
