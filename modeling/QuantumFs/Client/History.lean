import QuantumFs.Client.Revocation
import QuantumFs.Lib.Machine

/-! The history of a vault (`node/vault.rs`, `node/state.rs`): events are logged under a counted
id, cut to a maximum, saved and loaded again, and the host is asked for the actors of those that
nobody signed. -/
namespace QuantumFs.Client.History

open Lib Net

def backfillGiveUpMs : Nat := 30000

/-- `serial` is not in the source: it tells apart the calls of `log`, over every restart. -/
structure HistoryEvent where
  id : Text
  vaultId : Text
  nodeId : Text
  kind : HistoryKind
  time : Nat
  actor : Text
  source : Option Text
  target : Option Text
  summary : Text
  serial : Nat
deriving DecidableEq

/-- An event that waits for its actor; `serial` is that of the call which logged it. -/
structure Unresolved where
  eventId : Text
  record : Nat
  askedAt : Nat
  serial : Nat
deriving DecidableEq

structure AdminOp where
  recordId : Nat
  actor : Text
  time : Nat
deriving DecidableEq

/-- What one task never changes: its vault, and the two names of its own peer. -/
structure Vault where
  vaultHex : Text
  profilePeer : Text
  selfPeer : PeerId

/-- What a call of `log` is given, with the two readings of the clock that it makes. -/
structure Logged where
  nodeId : Text
  kind : HistoryKind
  actor : Text
  source : Option Text
  target : Option Text
  summary : Text
  record : Option Nat
  now : Nat
  askedAt : Nat
deriving DecidableEq

/-- `saved` is the file, `none` until it is written; `logged` counts every call of `log`. -/
structure Task where
  history : List HistoryEvent
  historyCounter : Nat
  unresolved : List Unresolved
  historyDirty : Bool
  saved : Option (List HistoryEvent)
  logged : Nat
deriving DecidableEq

def start : Task := ⟨[], 0, [], false, none, 0⟩

def eventId (vault : Vault) (number : Nat) : Text :=
  ['h', '_'] ++ vault.vaultHex ++ ['_'] ++ Text.decimal number

def truncated (history : List HistoryEvent) : List HistoryEvent :=
  history.drop (history.length - maxHistory)

def event (vault : Vault) (entry : Logged) (number serial : Nat) : HistoryEvent :=
  ⟨eventId vault number, vault.vaultHex, entry.nodeId, entry.kind, entry.now, entry.actor, entry.source,
    entry.target, entry.summary, serial⟩

def log (vault : Vault) (entry : Logged) (task : Task) : Task :=
  let number := task.historyCounter + 1
  let serial := task.logged + 1
  { task with
    historyCounter := number
    history := truncated (task.history ++ [event vault entry number serial])
    unresolved := if entry.actor = [] then
        match entry.record with
        | some record => task.unresolved ++ [⟨eventId vault number, record, entry.askedAt, serial⟩]
        | none => task.unresolved
      else task.unresolved
    historyDirty := true
    logged := serial }

def present (vault : Vault) (peer : PeerId) : Text :=
  if peer = vault.selfPeer then vault.profilePeer else idText peer.val

def presentHex (vault : Vault) (peerHex : Text) : Text :=
  match unhex32 peerHex with
  | some value => present vault ⟨value⟩
  | none => peerHex

/-- The map of the answer by record: of several rows about one record the last stays. -/
def byRecord (ops : List AdminOp) (record : Nat) : Option AdminOp :=
  ops.reverse.find? fun op => op.recordId = record

def attributed (vault : Vault) (op : AdminOp) (event : HistoryEvent) : HistoryEvent :=
  { event with
    actor := presentHex vault op.actor
    time := if 0 < op.time then op.time else event.time }

structure Resolution where
  history : List HistoryEvent
  resolved : Bool
  remaining : List Unresolved

def resolve (vault : Vault) (ops : List AdminOp) (resolution : Resolution) (asked : Unresolved) : Resolution :=
  match byRecord ops asked.record with
  | none => { resolution with remaining := resolution.remaining ++ [asked] }
  | some op =>
    let found := resolution.history.findIdx fun event => event.id = asked.eventId
    if found < resolution.history.length then
      { resolution with
        history := resolution.history.modify found (attributed vault op)
        resolved := true }
    else resolution

def sinceRecord (asking : List Unresolved) : Nat :=
  ((asking.map Unresolved.record).min?.getD 0) - 1

def stillAsked (now : Nat) (task : Task) : List Unresolved :=
  task.unresolved.filter fun asked => now - backfillGiveUpMs ≤ asked.askedAt

/-- `due` is the look at `next_backfill`; `answer` is what the host gives for the records since a
given one, `none` where there is no host to ask or the asking fails. -/
def backfill (vault : Vault) (now : Nat) (due : Bool) (answer : Nat → Option (List AdminOp)) (task : Task) : Task :=
  let asking := stillAsked now task
  let task := { task with unresolved := asking }
  if asking = [] ∨ due = false then task
  else
    match answer (sinceRecord asking) with
    | none => task
    | some [] => task
    | some ops =>
      let resolution := asking.foldl (resolve vault ops) ⟨task.history, false, []⟩
      { task with
        history := resolution.history
        unresolved := resolution.remaining
        historyDirty := task.historyDirty || resolution.resolved }

/-- `written` is whether the temporary file was written and renamed. -/
def saveNow (written : Bool) (task : Task) : Task :=
  if task.historyDirty then
    { task with
      saved := if written then some (truncated task.history) else task.saved
      historyDirty := false }
  else task

/-- What `load_history` gives; `readable` is whether the file can be opened. -/
def loadHistory (readable : Bool) (task : Task) : List HistoryEvent :=
  if readable then task.saved.getD [] else []

def spawn (readable : Bool) (task : Task) : Task :=
  let history := loadHistory readable task
  { task with history := history, historyCounter := history.length, unresolved := [], historyDirty := false }

inductive Op where
  | log (entry : Logged)
  | backfill (now : Nat) (due : Bool) (answer : Nat → Option (List AdminOp))
  | saveNow (written : Bool)
  | spawn (readable : Bool)

def exec (vault : Vault) : Op → Task → Task
  | .log entry => log vault entry
  | .backfill now due answer => backfill vault now due answer
  | .saveNow written => saveNow written
  | .spawn readable => spawn readable

def machine (vault : Vault) : Machine Task Op := ⟨exec vault⟩

/-- What the host is heard to answer in a tick: nothing where it is not asked. -/
def heard (now : Nat) (due : Bool) (answer : Nat → Option (List AdminOp)) (task : Task) : List AdminOp :=
  if stillAsked now task = [] ∨ due = false then [] else (answer (sinceRecord (stillAsked now task))).getD []

/-- The row about the record which the call that logged `event` left to ask about. -/
def answerTo (ops : List AdminOp) (asking : List Unresolved) (event : HistoryEvent) : Option AdminOp :=
  (asking.find? fun asked => asked.serial = event.serial).bind fun asked => byRecord ops asked.record

def settled (vault : Vault) (ops : List AdminOp) (asking : List Unresolved) (event : HistoryEvent) : HistoryEvent :=
  (answerTo ops asking event).elim event fun op => attributed vault op event

structure Correct (vault : Vault) (task : Task) : Prop where
  distinct : (task.history.map HistoryEvent.id).Nodup
  attributes : ∀ now due answer, (backfill vault now due answer task).history =
    task.history.map (settled vault (heard now due answer task) (stillAsked now task))

/-- The numbers of a history that is loaded: none lies above the length of the list without
lying so far above it that its event is dropped before the counter gets there. -/
def Recounted (vault : Vault) (history : List HistoryEvent) : Prop :=
  ∀ (i : Nat) (event : HistoryEvent), history[i]? = some event → ∀ number,
    history.length < number → number ≤ maxHistory + i → event.id ≠ eventId vault number

def SafeSpawn (vault : Vault) (task : Task) : Op → Prop
  | .spawn readable => Recounted vault (loadHistory readable task)
  | _ => True

theorem eventId_inj {vault : Vault} {left right : Nat} : eventId vault left = eventId vault right ↔ left = right := by
  refine ⟨fun same => ?_, fun same => same ▸ rfl⟩
  exact Text.decimal_inj (List.append_cancel_left same)

@[simp] theorem settled_id {vault : Vault} {ops : List AdminOp} {asking : List Unresolved} {event : HistoryEvent} :
    (settled vault ops asking event).id = event.id := by
  unfold settled
  cases answerTo ops asking event <;> rfl

@[simp] theorem settled_serial {vault : Vault} {ops : List AdminOp} {asking : List Unresolved} {event : HistoryEvent} :
    (settled vault ops asking event).serial = event.serial := by
  unfold settled
  cases answerTo ops asking event <;> rfl

theorem settled_of_not_asked {vault : Vault} {ops : List AdminOp} {asking : List Unresolved} {event : HistoryEvent}
    (other : ∀ asked ∈ asking, asked.serial ≠ event.serial) : settled vault ops asking event = event := by
  have none : (asking.find? fun asked => asked.serial = event.serial) = none :=
    List.find?_eq_none.mpr fun asked mem => by simpa using other asked mem
  unfold settled answerTo
  rw [none]
  rfl

theorem settled_unheard (vault : Vault) (asking : List Unresolved) : settled vault [] asking = id := by
  funext event
  unfold settled answerTo
  cases asking.find? fun asked => asked.serial = event.serial <;> rfl

theorem modify_findIdx {α : Type} (meant : α → Bool) (change : α → α) {items : List α}
    (single : items.Pairwise fun x y => ¬(meant x = true ∧ meant y = true)) :
    items.modify (items.findIdx meant) change = items.map fun x => if meant x then change x else x := by
  induction items with
  | nil => rfl
  | cons x items ih =>
    obtain ⟨alone, single⟩ := List.pairwise_cons.mp single
    rw [List.findIdx_cons, List.map_cons]
    cases mine : meant x with
    | false => simp [ih single]
    | true =>
      have rest : items.map (fun y => if meant y then change y else y) = items := by
        refine (List.map_congr_left fun y mem => ?_).trans (List.map_id items)
        exact if_neg fun yours => alone y mem ⟨mine, yours⟩
      simp [rest]

/-- The asked-for events are told by their ids as by the calls that logged them. -/
def Identifies (asking : List Unresolved) (history : List HistoryEvent) : Prop :=
  ∀ asked ∈ asking, ∀ event ∈ history, event.id = asked.eventId ↔ event.serial = asked.serial

theorem Identifies.map {asking : List Unresolved} {history : List HistoryEvent}
    (identifies : Identifies asking history) {f : HistoryEvent → HistoryEvent} (sameId : ∀ event, (f event).id = event.id)
    (sameSerial : ∀ event, (f event).serial = event.serial) : Identifies asking (history.map f) := by
  intro asked mem event kept
  obtain ⟨event, before, rfl⟩ := List.mem_map.mp kept
  rw [sameId, sameSerial]
  exact identifies asked mem event before

theorem map_id_settled {vault : Vault} {ops : List AdminOp} {asking : List Unresolved} (history : List HistoryEvent) :
    (history.map (settled vault ops asking)).map HistoryEvent.id = history.map HistoryEvent.id := by
  rw [List.map_map]
  exact List.map_congr_left fun _ _ => settled_id

theorem resolve_history {vault : Vault} {ops : List AdminOp} {resolution : Resolution} {asked : Unresolved}
    (distinct : (resolution.history.map HistoryEvent.id).Nodup)
    (identifies : ∀ event ∈ resolution.history, event.id = asked.eventId ↔ event.serial = asked.serial) :
    (resolve vault ops resolution asked).history = resolution.history.map (settled vault ops [asked]) := by
  have answer (event : HistoryEvent) (mem : event ∈ resolution.history) : settled vault ops [asked] event =
      if event.id = asked.eventId then (byRecord ops asked.record).elim event (attributed vault · event)
      else event := by
    rw [if_congr (identifies event mem) rfl rfl]
    unfold settled answerTo
    by_cases same : event.serial = asked.serial
    · rw [if_pos same, List.find?_cons_of_pos (by simp [same])]
      rfl
    · rw [if_neg same, List.find?_cons_of_neg (by simp [Ne.symm same])]
      rfl
  rw [List.map_congr_left answer]
  unfold resolve
  cases row : byRecord ops asked.record with
  | none => simp
  | some op =>
    have single : resolution.history.Pairwise fun x y =>
        ¬(decide (x.id = asked.eventId) = true ∧ decide (y.id = asked.eventId) = true) := by
      refine (List.pairwise_map.mp distinct).imp fun differ both => differ ?_
      rw [of_decide_eq_true both.1, of_decide_eq_true both.2]
    have change := modify_findIdx (fun event => decide (event.id = asked.eventId)) (attributed vault op) single
    simp only [decide_eq_true_eq] at change
    dsimp only
    split
    · exact change
    · rename_i absent
      rw [List.modify_eq_self (not_lt.mp absent)] at change
      exact change

theorem resolve_remaining (vault : Vault) (ops : List AdminOp) (resolution : Resolution) (asked : Unresolved) :
    (resolve vault ops resolution asked).remaining =
      resolution.remaining ++ [asked].filter fun asked => (byRecord ops asked.record).isNone := by
  unfold resolve
  cases row : byRecord ops asked.record with
  | none => simp [row]
  | some op =>
    dsimp only
    split <;> simp [row]

theorem foldl_remaining (vault : Vault) (ops : List AdminOp) (asking : List Unresolved) (resolution : Resolution) :
    (asking.foldl (resolve vault ops) resolution).remaining =
      resolution.remaining ++ asking.filter fun asked => (byRecord ops asked.record).isNone := by
  induction asking generalizing resolution with
  | nil => simp
  | cons asked asking ih =>
    rw [List.foldl_cons, ih, resolve_remaining, List.append_assoc, ← List.filter_append]
    rfl

theorem settled_cons {vault : Vault} {ops : List AdminOp} {asked : Unresolved} {asking : List Unresolved}
    (once : asked.serial ∉ asking.map Unresolved.serial) (event : HistoryEvent) :
    settled vault ops asking (settled vault ops [asked] event) = settled vault ops (asked :: asking) event := by
  by_cases same : asked.serial = event.serial
  · have first : settled vault ops (asked :: asking) event = settled vault ops [asked] event := by
      unfold settled answerTo
      rw [List.find?_cons_of_pos (by simp [same]), List.find?_cons_of_pos (by simp [same])]
    rw [first]
    refine settled_of_not_asked fun other mem again => once (List.mem_map.mpr ⟨other, mem, ?_⟩)
    rw [again, settled_serial, same]
  · rw [@settled_of_not_asked _ _ [asked] _ fun other mem => by rwa [List.mem_singleton.mp mem]]
    unfold settled answerTo
    rw [List.find?_cons_of_neg (by simp [same])]

theorem foldl_history {vault : Vault} {ops : List AdminOp} {asking : List Unresolved} {resolution : Resolution}
    (distinct : (resolution.history.map HistoryEvent.id).Nodup) (identifies : Identifies asking resolution.history)
    (once : (asking.map Unresolved.serial).Nodup) :
    (asking.foldl (resolve vault ops) resolution).history = resolution.history.map (settled vault ops asking) := by
  induction asking generalizing resolution with
  | nil =>
    refine Eq.symm ((List.map_congr_left fun event _ => ?_).trans (List.map_id _))
    exact settled_of_not_asked nofun
  | cons asked asking ih =>
    obtain ⟨alone, once⟩ := List.nodup_cons.mp once
    have step : (resolve vault ops resolution asked).history = resolution.history.map (settled vault ops [asked]) :=
      resolve_history distinct (identifies asked List.mem_cons_self)
    have later : Identifies asking resolution.history := fun other mem => identifies other (List.mem_cons_of_mem _ mem)
    rw [List.foldl_cons, ih _ _ once, step, List.map_map]
    · exact List.map_congr_left fun event _ => settled_cons alone event
    · rwa [step, map_id_settled]
    · rw [step]
      exact later.map (fun _ => settled_id) fun _ => settled_serial

structure Numbered (vault : Vault) (logged : Nat) (history : List HistoryEvent) : Prop where
  short : history.length ≤ maxHistory
  distinct : (history.map HistoryEvent.id).Nodup
  numbers : ∀ event ∈ history, ∃ number, event.id = eventId vault number
  serials : ∀ event ∈ history, event.serial ≤ logged

/-- A number that the counter has not reached belongs to an event that is gone when it does. -/
def Ahead (vault : Vault) (counter : Nat) (history : List HistoryEvent) : Prop :=
  ∀ (i : Nat) (event : HistoryEvent), history[i]? = some event → ∀ number, counter < number →
    number ≤ counter + (maxHistory - history.length) + i → event.id ≠ eventId vault number

structure Held (vault : Vault) (task : Task) : Prop where
  numbered : Numbered vault task.logged task.history
  ahead : Ahead vault task.historyCounter task.history
  saved : ∀ history, task.saved = some history → Numbered vault task.logged history
  once : (task.unresolved.map Unresolved.serial).Nodup
  asked : ∀ asked ∈ task.unresolved, asked.serial ≤ task.logged ∧
    ∃ number ≤ task.historyCounter, asked.eventId = eventId vault number
  identifies : Identifies task.unresolved task.history

theorem truncated_eq_self {history : List HistoryEvent} (short : history.length ≤ maxHistory) :
    truncated history = history := by
  unfold truncated
  rw [Nat.sub_eq_zero_of_le short, List.drop_zero]

theorem truncated_snoc (history : List HistoryEvent) (event : HistoryEvent) :
    truncated (history ++ [event]) = history.drop (history.length + 1 - maxHistory) ++ [event] := by
  have room : 0 < maxHistory := by decide
  unfold truncated
  rw [List.length_append, List.length_singleton, List.drop_append_of_le_length (by omega)]

theorem Numbered.mono {vault : Vault} {logged later : Nat} {history : List HistoryEvent}
    (numbered : Numbered vault logged history) (more : logged ≤ later) : Numbered vault later history :=
  ⟨numbered.short, numbered.distinct, numbered.numbers,
    fun event mem => (numbered.serials event mem).trans more⟩

theorem Numbered.nil (vault : Vault) (logged : Nat) : Numbered vault logged [] :=
  ⟨Nat.zero_le _, List.nodup_nil, nofun, nofun⟩

theorem held_start (vault : Vault) : Held vault start :=
  ⟨.nil vault 0, nofun, nofun, List.nodup_nil, nofun, nofun⟩

theorem Ahead.fresh {vault : Vault} {counter : Nat} {history : List HistoryEvent} (ahead : Ahead vault counter history)
    (short : history.length ≤ maxHistory) :
    ∀ event ∈ history.drop (history.length + 1 - maxHistory), event.id ≠ eventId vault (counter + 1) := by
  intro event mem
  obtain ⟨i, place⟩ := List.mem_iff_getElem?.mp mem
  rw [List.getElem?_drop] at place
  exact ahead _ event place (counter + 1) (Nat.lt_succ_self _) (by omega)

theorem Ahead.snoc {vault : Vault} {counter : Nat} {history : List HistoryEvent} (ahead : Ahead vault counter history)
    (short : history.length ≤ maxHistory) {event : HistoryEvent} (named : event.id = eventId vault (counter + 1)) :
    Ahead vault (counter + 1) (history.drop (history.length + 1 - maxHistory) ++ [event]) := by
  intro i held place number above below
  rw [List.getElem?_append] at place
  split at place
  · rename_i old
    rw [List.length_append, List.length_drop, List.length_singleton] at below
    rw [List.length_drop] at old
    rw [List.getElem?_drop] at place
    exact ahead _ held place number (by omega) (by omega)
  · obtain rfl := List.mem_singleton.mp (List.mem_of_getElem? place)
    rw [named, ne_eq, eventId_inj]
    omega

theorem Numbered.snoc {vault : Vault} {logged : Nat} {history : List HistoryEvent} (numbered : Numbered vault logged history)
    {entry : Logged} {number : Nat}
    (fresh : ∀ event ∈ history.drop (history.length + 1 - maxHistory), event.id ≠ eventId vault number) :
    Numbered vault (logged + 1)
      (history.drop (history.length + 1 - maxHistory) ++ [event vault entry number (logged + 1)]) := by
  have short := numbered.short
  have room : 0 < maxHistory := by decide
  have kept {event : HistoryEvent} (mem : event ∈ history.drop (history.length + 1 - maxHistory)) : event ∈ history :=
    List.mem_of_mem_drop mem
  refine ⟨?_, ?_, fun event mem => ?_, fun event mem => ?_⟩
  · rw [List.length_append, List.length_drop, List.length_singleton]
    omega
  · rw [List.map_append, List.map_drop]
    refine List.nodup_append.mpr ⟨numbered.distinct.sublist (List.drop_sublist _ _), List.nodup_singleton _, ?_⟩
    intro id old other new same
    rw [← List.map_drop] at old
    obtain ⟨event, mem, rfl⟩ := List.mem_map.mp old
    obtain rfl := List.mem_singleton.mp new
    exact fresh event mem same
  · obtain old | new := List.mem_append.mp mem
    · exact numbered.numbers event (kept old)
    · exact ⟨number, List.mem_singleton.mp new ▸ rfl⟩
  · obtain old | new := List.mem_append.mp mem
    · exact (numbered.serials event (kept old)).trans (Nat.le_succ _)
    · exact List.mem_singleton.mp new ▸ le_rfl

theorem log_unresolved (vault : Vault) (entry : Logged) (task : Task) : ∃ record,
    (log vault entry task).unresolved = task.unresolved ∨ (log vault entry task).unresolved = task.unresolved ++
      [⟨eventId vault (task.historyCounter + 1), record, entry.askedAt, task.logged + 1⟩] := by
  unfold log
  dsimp only
  split
  · split
    · rename_i record _
      exact ⟨record, .inr rfl⟩
    · exact ⟨0, .inl rfl⟩
  · exact ⟨0, .inl rfl⟩

theorem log_history (vault : Vault) (entry : Logged) (task : Task) : (log vault entry task).history =
    task.history.drop (task.history.length + 1 - maxHistory) ++
      [event vault entry (task.historyCounter + 1) (task.logged + 1)] := by
  unfold log
  dsimp only
  rw [truncated_snoc]

theorem log_frame (vault : Vault) (entry : Logged) (task : Task) :
    (log vault entry task).historyCounter = task.historyCounter + 1 ∧
      (log vault entry task).saved = task.saved ∧ (log vault entry task).logged = task.logged + 1 := by
  unfold log
  exact ⟨rfl, rfl, rfl⟩

theorem held_log {vault : Vault} {task : Task} (held : Held vault task) (entry : Logged) :
    Held vault (log vault entry task) := by
  have short := held.numbered.short
  have fresh := held.ahead.fresh short
  have history := log_history vault entry task
  obtain ⟨counter, saved, logged⟩ := log_frame vault entry task
  obtain ⟨record, asks⟩ := log_unresolved vault entry task
  -- what was asked before is an event of before: the new one has another id and another serial
  have older : Identifies task.unresolved (log vault entry task).history := by
    intro asked mem event place
    rw [history] at place
    obtain old | new := List.mem_append.mp place
    · exact held.identifies asked mem event (List.mem_of_mem_drop old)
    · obtain rfl := List.mem_singleton.mp new
      obtain ⟨before, number, counted, named⟩ := held.asked asked mem
      refine iff_of_false (fun same => ?_) fun same => ?_
      · have := eventId_inj.mp (same.trans named)
        omega
      · change task.logged + 1 = asked.serial at same
        omega
  refine ⟨?_, ?_, fun file written => ?_, ?_, ?_, ?_⟩
  · rw [history, logged]
    exact held.numbered.snoc fresh
  · rw [history, counter]
    exact held.ahead.snoc short rfl
  · rw [saved] at written
    rw [logged]
    exact (held.saved file written).mono (Nat.le_succ _)
  · obtain same | more := asks
    · rw [same]
      exact held.once
    · rw [more, List.map_append]
      refine List.nodup_append.mpr ⟨held.once, List.nodup_singleton _, ?_⟩
      intro serial old other new same
      obtain ⟨asked, mem, rfl⟩ := List.mem_map.mp old
      obtain rfl := List.mem_singleton.mp new
      have := (held.asked asked mem).1
      change asked.serial = task.logged + 1 at same
      omega
  · rw [logged, counter]
    intro asked mem
    have before (old : asked ∈ task.unresolved) : asked.serial ≤ task.logged + 1 ∧
        ∃ number ≤ task.historyCounter + 1, asked.eventId = eventId vault number := by
      obtain ⟨logged, number, counted, named⟩ := held.asked asked old
      exact ⟨logged.trans (Nat.le_succ _), number, counted.trans (Nat.le_succ _), named⟩
    obtain same | more := asks
    · rw [same] at mem
      exact before mem
    · rw [more] at mem
      obtain old | new := List.mem_append.mp mem
      · exact before old
      · obtain rfl := List.mem_singleton.mp new
        exact ⟨le_rfl, _, le_rfl, rfl⟩
  · obtain same | more := asks
    · rw [same]
      exact older
    · rw [more]
      intro asked mem
      obtain old | new := List.mem_append.mp mem
      · exact older asked old
      · obtain rfl := List.mem_singleton.mp new
        intro held' place
        rw [history] at place
        obtain old | new := List.mem_append.mp place
        · refine iff_of_false (fresh held' old) fun same => ?_
          have := held.numbered.serials held' (List.mem_of_mem_drop old)
          change held'.serial = task.logged + 1 at same
          omega
        · obtain rfl := List.mem_singleton.mp new
          exact iff_of_true rfl rfl

theorem Held.relabel {vault : Vault} {task later : Task} (held : Held vault task) {ops : List AdminOp}
    {asking : List Unresolved} (history : later.history = task.history.map (settled vault ops asking))
    (counter : later.historyCounter = task.historyCounter) (fewer : later.unresolved.Sublist task.unresolved)
    (saved : later.saved = task.saved) (logged : later.logged = task.logged) : Held vault later := by
  have numbered := held.numbered
  refine ⟨?_, ?_, ?_, held.once.sublist (fewer.map _), ?_, ?_⟩
  · rw [history, logged]
    refine ⟨?_, ?_, fun event mem => ?_, fun event mem => ?_⟩
    · rw [List.length_map]
      exact numbered.short
    · rw [map_id_settled]
      exact numbered.distinct
    · obtain ⟨before, old, rfl⟩ := List.mem_map.mp mem
      rw [settled_id]
      exact numbered.numbers before old
    · obtain ⟨before, old, rfl⟩ := List.mem_map.mp mem
      rw [settled_serial]
      exact numbered.serials before old
  · intro i event place number
    rw [history, List.getElem?_map] at place
    obtain ⟨before, found, rfl⟩ := Option.map_eq_some_iff.mp place
    rw [history, counter, List.length_map, settled_id]
    exact held.ahead i before found number
  · rw [saved, logged]
    exact held.saved
  · intro asked mem
    rw [logged, counter]
    exact held.asked asked (fewer.subset mem)
  · intro asked mem
    rw [history]
    exact (held.identifies.map (fun _ => settled_id) fun _ => settled_serial) asked (fewer.subset mem)

theorem backfill_history {vault : Vault} {task : Task} (held : Held vault task) (now : Nat) (due : Bool)
    (answer : Nat → Option (List AdminOp)) : (backfill vault now due answer task).history =
      task.history.map (settled vault (heard now due answer task) (stillAsked now task)) := by
  have quiet : task.history = task.history.map (settled vault [] (stillAsked now task)) := by
    rw [settled_unheard, List.map_id]
  have fewer : (stillAsked now task).Sublist task.unresolved := List.filter_sublist
  unfold backfill heard
  dsimp only
  split
  · exact quiet
  · cases answer (sinceRecord (stillAsked now task)) with
    | none => exact quiet
    | some ops =>
      cases ops with
      | nil => exact quiet
      | cons op ops =>
        exact foldl_history held.numbered.distinct (fun asked mem => held.identifies asked (fewer.subset mem))
          (held.once.sublist (fewer.map _))

theorem backfill_unresolved (vault : Vault) (now : Nat) (due : Bool) (answer : Nat → Option (List AdminOp)) (task : Task) :
    (backfill vault now due answer task).unresolved.Sublist task.unresolved := by
  have fewer : (stillAsked now task).Sublist task.unresolved := List.filter_sublist
  unfold backfill
  dsimp only
  split
  · exact fewer
  · split
    · exact fewer
    · exact fewer
    · dsimp only
      rw [foldl_remaining, List.nil_append]
      exact List.filter_sublist.trans fewer

theorem backfill_frame (vault : Vault) (now : Nat) (due : Bool) (answer : Nat → Option (List AdminOp)) (task : Task) :
    (backfill vault now due answer task).historyCounter = task.historyCounter ∧
      (backfill vault now due answer task).saved = task.saved ∧
      (backfill vault now due answer task).logged = task.logged := by
  unfold backfill
  dsimp only
  split
  · exact ⟨rfl, rfl, rfl⟩
  · split <;> exact ⟨rfl, rfl, rfl⟩

theorem held_backfill {vault : Vault} {task : Task} (held : Held vault task) (now : Nat) (due : Bool)
    (answer : Nat → Option (List AdminOp)) : Held vault (backfill vault now due answer task) := by
  obtain ⟨counter, saved, logged⟩ := backfill_frame vault now due answer task
  exact held.relabel (backfill_history held now due answer) counter (backfill_unresolved vault now due answer task)
    saved logged

theorem held_saveNow {vault : Vault} {task : Task} (held : Held vault task) (written : Bool) :
    Held vault (saveNow written task) := by
  unfold saveNow
  split
  · refine { held with saved := fun file saved => ?_ }
    dsimp only at saved
    split at saved
    · rw [truncated_eq_self held.numbered.short] at saved
      exact Option.some.inj saved ▸ held.numbered
    · exact held.saved file saved
  · exact held

theorem numbered_load {vault : Vault} {task : Task} (held : Held vault task) (readable : Bool) :
    Numbered vault task.logged (loadHistory readable task) := by
  unfold loadHistory
  split
  · cases saved : task.saved with
    | none => exact .nil vault _
    | some file => exact held.saved file saved
  · exact .nil vault _

theorem held_spawn {vault : Vault} {task : Task} (held : Held vault task) {readable : Bool}
    (recounted : Recounted vault (loadHistory readable task)) : Held vault (spawn readable task) := by
  have numbered := numbered_load held readable
  refine ⟨numbered, fun i event place number above below => ?_, held.saved, List.nodup_nil, nofun, nofun⟩
  refine recounted i event place number above (below.trans ?_)
  change (loadHistory readable task).length + (maxHistory - (loadHistory readable task).length) + i ≤ maxHistory + i
  rw [Nat.add_sub_cancel' numbered.short]

theorem held_exec {vault : Vault} (task : Task) (op : Op) (held : Held vault task) (safe : SafeSpawn vault task op) :
    Held vault (exec vault op task) := by
  cases op with
  | log entry => exact held_log held entry
  | backfill now due answer => exact held_backfill held now due answer
  | saveNow written => exact held_saveNow held written
  | spawn readable => exact held_spawn held safe

/-- Where every list that is loaded is counted past its numbers, the ids of the history never meet
and every answer goes to the event that asked. -/
theorem ids_distinct (vault : Vault) (ops : List Op) (safe : (machine vault).Along (SafeSpawn vault) ops start) :
    (machine vault).Throughout (Correct vault) ops start := by
  refine Machine.Throughout.mono (fun task held => ?_)
    ((machine vault).throughout_of_step held_exec ops start (held_start vault) safe)
  exact ⟨held.numbered.distinct, backfill_history held⟩

/-- A vault, and something that is done in it. -/
def sampleVault : Vault := ⟨['a', 'b'], ['m', 'e'], ⟨0⟩⟩

def sampleEntry : Logged := ⟨['n'], .modified, [], none, none, [], some 7, 0, 0⟩

theorem ids_distinct_reloaded : (machine sampleVault).Throughout (Correct sampleVault)
    [.log sampleEntry, .saveNow true, .spawn true, .log sampleEntry] start := by
  have loaded : loadHistory true (saveNow true (log sampleVault sampleEntry start)) =
      [event sampleVault sampleEntry 1 1] := by decide +kernel
  refine ids_distinct sampleVault _ ⟨trivial, trivial, ?_, trivial, trivial⟩
  change Recounted sampleVault (loadHistory true (saveNow true (log sampleVault sampleEntry start)))
  rw [loaded]
  intro i held place number above below
  obtain rfl := List.mem_singleton.mp (List.mem_of_getElem? place)
  exact fun same => absurd (eventId_inj.mp same) (Nat.ne_of_lt above)

def busy (vault : Vault) (entry : Logged) (count : Nat) : Task :=
  (machine vault).run (List.replicate count (.log entry)) start

theorem busy_succ (vault : Vault) (entry : Logged) (count : Nat) :
    busy vault entry (count + 1) = log vault entry (busy vault entry count) := by
  unfold busy
  rw [List.replicate_succ', Machine.run_append]
  rfl

theorem busy_counter (vault : Vault) (entry : Logged) (count : Nat) :
    (busy vault entry count).historyCounter = count := by
  induction count with
  | zero => rfl
  | succ count ih => rw [busy_succ, (log_frame vault entry _).1, ih]

theorem range'_slide {size : Nat} (room : 0 < size) (count : Nat) :
    (List.range' (count - size + 1) (min count size)).drop (min count size + 1 - size) ++ [count + 1] =
      List.range' (count + 1 - size + 1) (min (count + 1) size) := by
  rw [List.drop_range']
  obtain below | full := Nat.lt_or_ge count size
  · have grown : min (count + 1) size = count + 1 := by omega
    rw [grown, List.range'_1_concat, Nat.min_eq_left below.le]
    congr 2 <;> omega
  · obtain ⟨kept, rfl⟩ : ∃ kept, size = kept + 1 := ⟨size - 1, by omega⟩
    have stays : min (count + 1) (kept + 1) = kept + 1 := by omega
    rw [stays, List.range'_1_concat, Nat.min_eq_right full]
    congr 2 <;> omega

theorem busy_ids (vault : Vault) (entry : Logged) (count : Nat) : (busy vault entry count).history.map HistoryEvent.id =
    (List.range' (count - maxHistory + 1) (min count maxHistory)).map (eventId vault) := by
  induction count with
  | zero => rfl
  | succ count ih =>
    have size := congrArg List.length ih
    rw [List.length_map, List.length_map, List.length_range'] at size
    have named : [event vault entry (count + 1) ((busy vault entry count).logged + 1)].map HistoryEvent.id =
      [count + 1].map (eventId vault) := rfl
    rw [busy_succ, log_history, List.map_append, List.map_drop, ih, busy_counter, named, ← List.map_drop, size,
      ← List.map_append, range'_slide (by decide)]

theorem reloaded {task : Task} (dirty : task.historyDirty = true) (short : task.history.length ≤ maxHistory) :
    (spawn true (saveNow true task)).history = task.history ∧
      (spawn true (saveNow true task)).historyCounter = task.history.length := by
  have file : loadHistory true (saveNow true task) = task.history := by
    unfold saveNow loadHistory
    rw [if_pos dirty, if_pos rfl, if_pos rfl, truncated_eq_self short, Option.getD_some]
  unfold spawn
  rw [file]
  exact ⟨rfl, rfl⟩

/-- A task that logged more events than the history holds, but not twice as many, is started again:
the next event gets an id that the history has. -/
theorem busy_repeats {vault : Vault} {entry : Logged} {count : Nat} (more : maxHistory < count)
    (less : count < 2 * maxHistory) :
    ¬((log vault entry (spawn true (saveNow true (busy vault entry count)))).history.map HistoryEvent.id).Nodup := by
  have ids := busy_ids vault entry count
  rw [Nat.min_eq_right more.le] at ids
  have size := congrArg List.length ids
  rw [List.length_map, List.length_map, List.length_range'] at size
  have dirty : (busy vault entry count).historyDirty = true := by
    obtain ⟨before, rfl⟩ : ∃ before, count = before + 1 := ⟨count - 1, by omega⟩
    rw [busy_succ]
    unfold log
    rfl
  obtain ⟨history, counter⟩ := reloaded dirty size.le
  rw [log_history, history, counter, size, Nat.add_sub_cancel_left, List.map_append, List.map_drop, ids,
    ← List.map_drop, List.drop_range']
  intro distinct
  refine (List.nodup_append.mp distinct).2.2 (eventId vault (maxHistory + 1)) ?_ _ (List.mem_singleton.mpr rfl) rfl
  refine List.mem_map_of_mem (List.mem_range'_1.mpr ?_)
  omega

theorem busy_restarted (vault : Vault) (entry : Logged) (count : Nat) :
    (machine vault).run (List.replicate count (.log entry) ++ [.saveNow true, .spawn true, .log entry]) start =
      log vault entry (spawn true (saveNow true (busy vault entry count))) := by
  rw [Machine.run_append]
  rfl

theorem ids_repeated : ¬(((machine sampleVault).run (List.replicate (maxHistory + 1) (.log sampleEntry) ++
    [.saveNow true, .spawn true, .log sampleEntry]) start).history.map HistoryEvent.id).Nodup := by
  rw [busy_restarted]
  exact busy_repeats (Nat.lt_succ_self _) (by decide)

end QuantumFs.Client.History
