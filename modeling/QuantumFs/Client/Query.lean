import QuantumFs.Client.Fuzzy
import QuantumFs.Client.Workspace

/-! The words of the search field (`lib/search/query.ts`): filters that are typed among free text, and
put back into it where they are not understood. -/
namespace QuantumFs.Client.Query

open Lib Search
open QuantumFs.Client.Path (Units units trim space)

def blank : UInt16 := 32
def quote : UInt16 := 34
def comma : UInt16 := 44
def dot : UInt16 := 46
def colon : UInt16 := 58

/-- `typed` is for the statements only: the token as it stands in the field. -/
structure Token where
  key : Option Units
  value : Units
  typed : Units
deriving DecidableEq

/-- The inner loop of `tokenize`. -/
structure Scan where
  key : Option Units
  buffer : Units
  quoted : Bool
  inQuote : Bool
  typed : Units

namespace Scan

def start : Scan := ⟨none, [], false, false, []⟩

variable [UnitLowercase] (scan : Scan)

def feed (ch : UInt16) : Scan :=
  let scan := { scan with typed := scan.typed ++ [ch] }
  if ch = quote then { scan with inQuote := !scan.inQuote, quoted := true }
  else if ch = colon ∧ scan.inQuote = false ∧ scan.quoted = false ∧ scan.key = none ∧ scan.buffer ≠ [] then
    { scan with key := some (toLowerCase scan.buffer), buffer := [] }
  else { scan with buffer := scan.buffer ++ [ch] }

def token : Option Token :=
  if scan.key ≠ none ∨ scan.buffer ≠ [] then some ⟨scan.key, scan.buffer, scan.typed⟩ else none

end Scan

section

variable [UnitLowercase]

def tokensFrom (scan : Scan) : Units → List Token
  | [] => scan.token.toList
  | ch :: rest =>
    if scan.inQuote = false ∧ ch = blank then scan.token.toList ++ tokensFrom .start rest
    else tokensFrom (scan.feed ch) rest

def tokenize (raw : Units) : List Token := tokensFrom .start raw

/-- Comma-separated values, trimmed and in lower case, without the empty ones. -/
def values (value : Units) : List Units :=
  ((value.splitOn comma).map fun part => toLowerCase (trim part)).filter (· ≠ [])

end

/-- A time in milliseconds; `none` is before every other. -/
abbrev Instant : Type := Option Int

class Calendar where
  startOfDay : Int → Int

export Calendar (startOfDay)

def day : Nat := 86400000

def minus (left : Int) (right : Double) : Instant :=
  right.map fun value => (left - value).sign * roundDouble (left - value).natAbs

def times (left : Double) (right : Nat) : Double := left.bind fun value => Double.ofNat (value * right)

structure Resolved where
  after : Instant
  bucket : Units
deriving DecidableEq

def isDigit (unit : UInt16) : Bool := 48 ≤ unit.toNat && unit.toNat ≤ 57

def relative (unit : UInt16) (value : Units) : Option Double :=
  if value.getLast? = some unit ∧ value.dropLast ≠ [] ∧ value.dropLast.all isDigit = true then
    some (Double.ofNat (value.dropLast.foldl (fun number digit => number * 10 + (digit.toNat - 48)) 0))
  else none

def resolveModified [Calendar] (now : Int) (value : Units) : Option Resolved :=
  if value = units "today" then some ⟨some (startOfDay now), units "today"⟩
  else if value = units "yesterday" then some ⟨minus (startOfDay now) (some day), units "yesterday"⟩
  else match relative 100 value with
    | some days => some ⟨minus now (times days day), Text.utf16 (Double.toText days) ++ units "d"⟩
    | none =>
      match relative 121 value with
      | some years => some ⟨minus now (times (times years 365) day), Text.utf16 (Double.toText years) ++ units "y"⟩
      | none => none

structure ParsedQuery where
  text : Units
  exts : Option (List Units)
  kinds : Option (List NodeKind)
  «by» : Option Units
  availability : Option Availability
  modifiedAfter : Option Instant
  modifiedBucket : Option Units
  inFolder : Option Units
  category : Option Units

def categories : List Units :=
  ["image", "video", "audio", "document", "code", "archive", "design", "data"].map units

inductive Field where
  | ext
  | type
  | is
  | kind
  | «by»
  | inFolder
  | modified
deriving DecidableEq

def fieldOf (key : Units) : Option Field :=
  if key = units "ext" then some .ext
  else if key = units "type" then some .type
  else if key = units "is" then some .is
  else if key = units "kind" then some .kind
  else if key = units "by" then some .by
  else if key = units "in" then some .inFolder
  else if key = units "modified" ∨ key = units "mod" then some .modified
  else none

/-- What `parseQuery` collects. -/
structure Draft where
  text : List Units
  exts : List Units
  kinds : List NodeKind
  «by» : Option Units
  availability : Option Availability
  modifiedAfter : Option Instant
  modifiedBucket : Option Units
  inFolder : Option Units
  category : Option Units

namespace Draft

def empty : Draft := ⟨[], [], [], none, none, none, none, none, none⟩

def push (draft : Draft) (text : Units) : Draft := { draft with text := draft.text ++ [text] }

end Draft

def dotless (ext : Units) : Units := if ext.head? = some dot then ext.tail else ext

def kindNamed (item : Units) : Option NodeKind :=
  if item = units "folder" then some .folder else if item = units "file" then some .file else none

def availabilityNamed (item : Units) : Option Availability :=
  if item = units "local" then some .local else if item = units "remote" then some .remote else none

/-- One value of `is:` or `kind:`; only the first has availabilities. -/
def visit (withAvailability : Bool) : Draft × Bool → Units → Draft × Bool
  | (draft, understood), item =>
    match kindNamed item with
    | some kind => ({ draft with kinds := draft.kinds ++ [kind] }, understood)
    | none =>
      match if withAvailability then availabilityNamed item else none with
      | some availability => ({ draft with availability := some availability }, understood)
      | none => (draft, false)

def literal (key value : Units) : Units := key ++ [colon] ++ value

section

variable [UnitLowercase] [Calendar] (now : Int)

def stepKinds (withAvailability : Bool) (draft : Draft) (key value : Units) : Draft :=
  let (draft, understood) := (values value).foldl (visit withAvailability) (draft, !(values value).isEmpty)
  if understood then draft else draft.push (literal key value)

def stepKey (draft : Draft) (key value : Units) : Draft :=
  match fieldOf key with
  | some .ext =>
    let parsed := ((values value).map dotless).filter (· ≠ [])
    if parsed = [] then draft.push (literal key value) else { draft with exts := draft.exts ++ parsed }
  | some .type =>
    match (values value).find? categories.contains with
    | some category => { draft with category := some category }
    | none => draft.push (literal key value)
  | some .is => stepKinds true draft key value
  | some .kind => stepKinds false draft key value
  | some .by =>
    if (trim value).length = 0 then draft.push (literal key value) else { draft with «by» := some (trim value) }
  | some .inFolder =>
    if (trim value).length = 0 then draft.push (literal key value) else { draft with inFolder := some (trim value) }
  | some .modified =>
    match resolveModified now (toLowerCase (trim value)) with
    | none => draft.push (literal key value)
    | some resolved =>
      { draft with modifiedAfter := some resolved.after, modifiedBucket := some resolved.bucket }
  | none => draft.push (literal key value)

/-- The loop body of `parseQuery`. -/
def step (draft : Draft) (token : Token) : Draft :=
  match token.key with
  | none => if 0 < token.value.length then draft.push token.value else draft
  | some key => stepKey now draft key token.value

def someOf {α : Type} [DecidableEq α] (items : List α) : Option (List α) :=
  if items = [] then none else some items.eraseDups

def Draft.finish (draft : Draft) : ParsedQuery where
  text := trim ([blank].intercalate draft.text)
  exts := someOf draft.exts
  kinds := someOf draft.kinds
  «by» := draft.by
  availability := draft.availability
  modifiedAfter := draft.modifiedAfter
  modifiedBucket := draft.modifiedBucket
  inFolder := draft.inFolder
  category := draft.category

def parseQuery (raw : Units) : ParsedQuery := ((tokenize raw).foldl (step now) .empty).finish

end

/-- What one part of the query adds to another; of the filters with one value the later counts. -/
def Draft.merge (earlier later : Draft) : Draft where
  text := earlier.text ++ later.text
  exts := earlier.exts ++ later.exts
  kinds := earlier.kinds ++ later.kinds
  «by» := later.by.or earlier.by
  availability := later.availability.or earlier.availability
  modifiedAfter := later.modifiedAfter.or earlier.modifiedAfter
  modifiedBucket := later.modifiedBucket.or earlier.modifiedBucket
  inFolder := later.inFolder.or earlier.inFolder
  category := later.category.or earlier.category

namespace Draft

@[simp] theorem merge_empty (draft : Draft) : draft.merge .empty = draft := by
  simp [merge, empty]

@[simp] theorem empty_merge (draft : Draft) : Draft.empty.merge draft = draft := by
  simp [merge, empty]

theorem merge_assoc (a b c : Draft) : (a.merge b).merge c = a.merge (b.merge c) := by
  simp only [merge, List.append_assoc, Option.or_assoc]

@[simp] theorem push_empty (draft : Draft) (text : Units) : draft.merge (Draft.empty.push text) = draft.push text := by
  simp [merge, empty, push]

end Draft

def availabilityOf (withAvailability : Bool) (item : Units) : Option Availability :=
  if (kindNamed item).isSome then none else if withAvailability then availabilityNamed item else none

def known (withAvailability : Bool) (item : Units) : Bool :=
  (kindNamed item).isSome || (availabilityOf withAvailability item).isSome

/-- What the values of `is:` or `kind:` add. -/
def kindsOf (withAvailability : Bool) (items : List Units) : Draft :=
  { Draft.empty with
    kinds := items.filterMap kindNamed
    availability := (items.filterMap (availabilityOf withAvailability)).getLast? }

theorem kindsOf_append (withAvailability : Bool) (front back : List Units) :
    kindsOf withAvailability (front ++ back) =
      (kindsOf withAvailability front).merge (kindsOf withAvailability back) := by
  simp [kindsOf, Draft.merge, Draft.empty]

theorem visit_eq (withAvailability : Bool) (draft : Draft) (understood : Bool) (item : Units) :
    visit withAvailability (draft, understood) item =
      (draft.merge (kindsOf withAvailability [item]), understood && known withAvailability item) := by
  unfold visit
  cases isKind : kindNamed item with
  | some kind => simp [kindsOf, Draft.merge, Draft.empty, availabilityOf, known, isKind]
  | none =>
    have same : (if withAvailability then availabilityNamed item else none) = availabilityOf withAvailability item := by
      simp [availabilityOf, isKind]
    dsimp only
    rw [same]
    cases isAvailability : availabilityOf withAvailability item <;>
      simp [kindsOf, Draft.merge, Draft.empty, known, isKind, isAvailability]

theorem foldl_visit (withAvailability : Bool) (items : List Units) :
    ∀ (draft : Draft) (understood : Bool), items.foldl (visit withAvailability) (draft, understood) =
      (draft.merge (kindsOf withAvailability items), understood && items.all (known withAvailability)) := by
  induction items with
  | nil =>
    intro draft understood
    rw [List.foldl_nil, List.all_nil, Bool.and_true]
    exact Prod.ext (draft.merge_empty).symm rfl
  | cons item items ih =>
    intro draft understood
    rw [List.foldl_cons, visit_eq, ih, Draft.merge_assoc, ← kindsOf_append, List.singleton_append, List.all_cons,
      Bool.and_assoc]

theorem collected_list {α : Type} {f : Draft → List α} (merges : ∀ a b : Draft, f (a.merge b) = f a ++ f b)
    (drafts : List Draft) (draft : Draft) : f (drafts.foldl Draft.merge draft) = f draft ++ drafts.flatMap f := by
  induction drafts generalizing draft with
  | nil => exact (List.append_nil _).symm
  | cons first drafts ih => rw [List.foldl_cons, ih, merges, List.flatMap_cons, List.append_assoc]

theorem collected_single {α : Type} {f : Draft → Option α} (merges : ∀ a b : Draft, f (a.merge b) = (f b).or (f a))
    {value : α} {drafts : List Draft} (agree : ∀ draft ∈ drafts, ∀ other, f draft = some other → other = value)
    (draft : Draft) (isSet : f draft = some value ∨ f draft = none ∧ ∃ first ∈ drafts, f first = some value) :
    f (drafts.foldl Draft.merge draft) = some value := by
  induction drafts generalizing draft with
  | nil => exact isSet.resolve_right fun ⟨_, _, mem, _⟩ => absurd mem List.not_mem_nil
  | cons first drafts ih =>
    rw [List.foldl_cons]
    refine ih (fun draft mem => agree draft (List.mem_cons_of_mem _ mem)) _ ?_
    rw [merges]
    cases sets : f first with
    | some other =>
      rw [agree first List.mem_cons_self other sets]
      exact .inl rfl
    | none =>
      rw [Option.none_or]
      refine isSet.imp_right fun ⟨unset, found, mem, isValue⟩ => ⟨unset, ?_⟩
      obtain rfl | mem := List.mem_cons.mp mem
      · rw [sets] at isValue
        cases isValue
      · exact ⟨found, mem, isValue⟩

theorem mem_someOf {α : Type} [DecidableEq α] {items : List α} {item : α} :
    (∃ kept ∈ someOf items, item ∈ kept) ↔ item ∈ items := by
  unfold someOf
  split
  · rename_i empty
    simp [empty]
  · simp

section

variable [UnitLowercase] [Calendar] {now : Int}

/-- What a token contributes by itself. -/
def own (now : Int) (token : Token) : Draft := step now .empty token

omit [Calendar] in
theorem stepKinds_eq (withAvailability : Bool) (draft : Draft) (key value : Units) :
    stepKinds withAvailability draft key value = draft.merge (stepKinds withAvailability .empty key value) := by
  unfold stepKinds
  rw [foldl_visit, foldl_visit]
  dsimp only
  split
  · simp [Draft.merge, Draft.empty]
  · simp [Draft.merge, Draft.empty, Draft.push]

theorem stepKey_eq (draft : Draft) (key value : Units) :
    stepKey now draft key value = draft.merge (stepKey now .empty key value) := by
  unfold stepKey
  split
  · dsimp only
    split
    · rw [Draft.push_empty]
    · simp [Draft.merge, Draft.empty]
  · split
    · simp [Draft.merge, Draft.empty]
    · rw [Draft.push_empty]
  · exact stepKinds_eq true draft key value
  · exact stepKinds_eq false draft key value
  · split
    · rw [Draft.push_empty]
    · simp [Draft.merge, Draft.empty]
  · split
    · rw [Draft.push_empty]
    · simp [Draft.merge, Draft.empty]
  · split
    · rw [Draft.push_empty]
    · simp [Draft.merge, Draft.empty]
  · rw [Draft.push_empty]

theorem step_eq (draft : Draft) (token : Token) : step now draft token = draft.merge (own now token) := by
  unfold own step
  split
  · split
    · rw [Draft.push_empty]
    · rw [Draft.merge_empty]
  · exact stepKey_eq ..

theorem foldl_step (tokens : List Token) (draft : Draft) :
    tokens.foldl (step now) draft = (tokens.map (own now)).foldl Draft.merge draft := by
  rw [List.foldl_map]
  exact List.foldl_ext _ _ _ fun draft token _ => step_eq draft token

def understood (now : Int) (key value : Units) : Bool :=
  match fieldOf key with
  | some .ext => (values value).any fun item => dotless item ≠ []
  | some .type => (values value).any categories.contains
  | some .is => !(values value).isEmpty && (values value).all (known true)
  | some .kind => !(values value).isEmpty && (values value).all (known false)
  | some .by | some .inFolder => trim value ≠ []
  | some .modified => (resolveModified now (toLowerCase (trim value))).isSome
  | none => false

def nonBlank (value : Units) : Option Units := if trim value = [] then none else some (trim value)

def filtersOf (now : Int) (key value : Units) : Draft :=
  match fieldOf key with
  | some .ext => { Draft.empty with exts := ((values value).map dotless).filter (· ≠ []) }
  | some .type => { Draft.empty with category := (values value).find? categories.contains }
  | some .is => kindsOf true (values value)
  | some .kind => kindsOf false (values value)
  | some .by => { Draft.empty with «by» := nonBlank value }
  | some .inFolder => { Draft.empty with inFolder := nonBlank value }
  | some .modified =>
    let resolved := resolveModified now (toLowerCase (trim value))
    { Draft.empty with modifiedAfter := resolved.map Resolved.after, modifiedBucket := resolved.map Resolved.bucket }
  | none => .empty

omit [Calendar] in
theorem stepKinds_empty (withAvailability : Bool) (key value : Units) :
    stepKinds withAvailability .empty key value =
      if !(values value).isEmpty && (values value).all (known withAvailability) then
        kindsOf withAvailability (values value)
      else (kindsOf withAvailability (values value)).push (literal key value) := by
  unfold stepKinds
  rw [foldl_visit, Draft.empty_merge]

theorem stepKey_empty (key value : Units) :
    stepKey now .empty key value =
      if understood now key value then filtersOf now key value
      else (filtersOf now key value).push (literal key value) := by
  unfold stepKey understood filtersOf
  cases fieldOf key with
  | none => rfl
  | some field =>
    cases field with
    | ext =>
      have none : ((values value).map dotless).filter (· ≠ []) = [] ↔
          ((values value).any fun item => decide (dotless item ≠ [])) = false := by simp
      dsimp only
      by_cases empty : ((values value).map dotless).filter (· ≠ []) = []
      · rw [if_pos empty, none.mp empty, empty]
        rfl
      · have some := Bool.of_not_eq_false (mt none.mpr empty)
        rw [if_neg empty, some]
        rfl
    | type =>
      dsimp only
      cases found : (values value).find? categories.contains with
      | none =>
        have unknown : (values value).any categories.contains = false := by
          rw [List.any_eq_false]
          exact List.find?_eq_none.mp found
        rw [unknown]
        rfl
      | some category =>
        have isKnown : (values value).any categories.contains = true :=
          List.any_eq_true.mpr ⟨category, List.mem_of_find?_eq_some found, List.find?_some found⟩
        rw [isKnown]
        rfl
    | is => exact stepKinds_empty true key value
    | kind => exact stepKinds_empty false key value
    | «by» =>
      dsimp only
      by_cases empty : trim value = []
      · simp [empty, Draft.empty, Draft.push, nonBlank]
      · simp [empty, Draft.empty, nonBlank]
    | inFolder =>
      dsimp only
      by_cases empty : trim value = []
      · simp [empty, Draft.empty, Draft.push, nonBlank]
      · simp [empty, Draft.empty, nonBlank]
    | modified =>
      dsimp only
      cases resolveModified now (toLowerCase (trim value)) <;> rfl

def Draft.Unfiltered (draft : Draft) : Prop := { draft with text := [] } = Draft.empty

theorem own_of_key {token : Token} {key : Units} (isKey : token.key = some key) :
    own now token = if understood now key token.value then filtersOf now key token.value
      else (filtersOf now key token.value).push (literal key token.value) := by
  unfold own step
  rw [isKey]
  exact stepKey_empty key token.value

theorem text_filtersOf (key value : Units) : (filtersOf now key value).text = [] := by
  unfold filtersOf
  cases fieldOf key with
  | none => rfl
  | some field => cases field <;> rfl

/-- A value of `is:` or `kind:` is one of the kinds, or the availability. -/
def ReflectedKind (withAvailability : Bool) (query : ParsedQuery) (item : Units) : Prop :=
  (∃ kind, kindNamed item = some kind ∧ ∃ kinds ∈ query.kinds, kind ∈ kinds) ∨
    ∃ availability, availabilityOf withAvailability item = some availability ∧ query.availability = some availability

def Reflected (now : Int) (query : ParsedQuery) (key value : Units) : Prop :=
  match fieldOf key with
  | some .ext => ∀ item ∈ values value, ∃ exts ∈ query.exts, dotless item ∈ exts
  | some .type => ∀ item ∈ values value, query.category = some item
  | some .is => ∀ item ∈ values value, ReflectedKind true query item
  | some .kind => ∀ item ∈ values value, ReflectedKind false query item
  | some .by => query.by = some (trim value)
  | some .inFolder => query.inFolder = some (trim value)
  | some .modified => ∃ resolved, resolveModified now (toLowerCase (trim value)) = some resolved ∧
      query.modifiedAfter = some resolved.after ∧ query.modifiedBucket = some resolved.bucket
  | none => False

/-- A token without a key is in the text, and a token with one either is reflected in the filters, or stands in
the text as it was typed; and the text is just these tokens. -/
structure Lossless (now : Int) (raw : Units) : Prop where
  text : (parseQuery now raw).text = [blank].intercalate ((tokenize raw).flatMap fun token => (own now token).text)
  keyless : ∀ token ∈ tokenize raw, token.key = none →
    (own now token).text = [token.value] ∧ (own now token).Unfiltered
  keyed : ∀ token ∈ tokenize raw, ∀ key, token.key = some key →
    ((own now token).text = [] ∧ Reflected now (parseQuery now raw) key token.value) ∨
      ((own now token).text = [token.typed] ∧ (own now token).Unfiltered)

/-- None of the values of `is:` or `kind:` is known. -/
def Unknown (key value : Units) : Prop :=
  match fieldOf key with
  | some .is => ∀ item ∈ values value, known true item = false
  | some .kind => ∀ item ∈ values value, known false item = false
  | _ => True

def categoriesIn (key value : Units) : List Units :=
  if fieldOf key = some .type ∧ (values value).any categories.contains = true then values value else []

def availabilitiesIn (key value : Units) : List Availability :=
  if fieldOf key = some .is then (values value).filterMap (availabilityOf true) else []

def peopleIn (key value : Units) : List Units := if fieldOf key = some .by then (nonBlank value).toList else []

def foldersIn (key value : Units) : List Units := if fieldOf key = some .inFolder then (nonBlank value).toList else []

def datesIn (now : Int) (key value : Units) : List Resolved :=
  if fieldOf key = some .modified then (resolveModified now (toLowerCase (trim value))).toList else []

def given {α : Type} (values : Units → Units → List α) (raw : Units) : List α :=
  (tokenize raw).flatMap fun token => match token.key with
    | some key => values key token.value
    | none => []

def Alike {α : Type} (items : List α) : Prop := ∀ a ∈ items, ∀ b ∈ items, a = b

def spoken (now : Int) (raw : Units) : List Units :=
  (tokenize raw).flatMap fun token => match token.key with
    | some key => if understood now key token.value then [] else [token.typed]
    | none => [token.value]

/-- What is put back was typed with the key in lower case and without quotes, and has no value that is
understood; no extension is just a dot among others; each filter that takes one value is given one; and what is
left does not begin or end with white space. -/
structure Plain (now : Int) (raw : Units) : Prop where
  putBack : ∀ token ∈ tokenize raw, ∀ key, token.key = some key → understood now key token.value = false →
    token.typed = literal key token.value ∧ Unknown key token.value
  exts : ∀ token ∈ tokenize raw, ∀ key, token.key = some key → fieldOf key = some .ext →
    understood now key token.value = true → [dot] ∉ values token.value
  category : Alike (given categoriesIn raw)
  availability : Alike (given availabilitiesIn raw)
  people : Alike (given peopleIn raw)
  folders : Alike (given foldersIn raw)
  dates : Alike (given (datesIn now) raw)
  front : ∀ words ∈ (spoken now raw).head?, ∀ unit ∈ words.head?, space unit.toNat = false
  back : ∀ words ∈ (spoken now raw).getLast?, ∀ unit ∈ words.getLast?, space unit.toNat = false

omit [Calendar] in
theorem mem_given {α : Type} {values : Units → Units → List α} {raw : Units} {token : Token} (mem : token ∈ tokenize raw)
    {key : Units} (isKey : token.key = some key) {item : α} (isItem : item ∈ values key token.value) :
    item ∈ given values raw :=
  List.mem_flatMap.mpr ⟨token, mem, by rw [isKey]; exact isItem⟩

omit [UnitLowercase] [Calendar] in
theorem kindsOf_eq_empty {withAvailability : Bool} {items : List Units} :
    kindsOf withAvailability items = .empty ↔ ∀ item ∈ items, known withAvailability item = false := by
  simp only [kindsOf, Draft.empty, known, Draft.mk.injEq, List.filterMap_eq_nil_iff, List.getLast?_eq_none_iff,
    Bool.or_eq_false_iff, Option.isSome_eq_false_iff, Option.isNone_iff_eq_none, true_and, and_true]
  exact ⟨fun both item mem => ⟨both.1 item mem, both.2 item mem⟩,
    fun both => ⟨fun item mem => (both item mem).1, fun item mem => (both item mem).2⟩⟩

theorem filtersOf_eq_empty {key value : Units} (refused : understood now key value = false) :
    filtersOf now key value = .empty ↔ Unknown key value := by
  unfold understood at refused
  unfold filtersOf Unknown
  cases isField : fieldOf key with
  | none => simp
  | some field =>
    rw [isField] at refused
    cases field with
    | ext => simpa [Draft.empty] using refused
    | type =>
      refine iff_of_true ?_ trivial
      have unknown : (values value).find? categories.contains = none :=
        List.find?_eq_none.mpr (List.any_eq_false.mp refused)
      dsimp only
      rw [unknown]
      rfl
    | is => exact kindsOf_eq_empty
    | kind => exact kindsOf_eq_empty
    | «by» => simpa [Draft.empty, nonBlank] using refused
    | inFolder => simpa [Draft.empty, nonBlank] using refused
    | modified =>
      refine iff_of_true ?_ trivial
      dsimp only at refused ⊢
      rw [Option.isSome_eq_false_iff, Option.isNone_iff_eq_none] at refused
      rw [refused]
      rfl

theorem unfiltered_own {token : Token} {key : Units} (isKey : token.key = some key)
    (refused : understood now key token.value = false) : (own now token).Unfiltered ↔ Unknown key token.value := by
  rw [← filtersOf_eq_empty refused, own_of_key isKey, refused, Draft.Unfiltered]
  have same : { (filtersOf now key token.value).push (literal key token.value) with text := [] } =
      filtersOf now key token.value := by
    rw [← text_filtersOf key token.value]
    rfl
  rw [if_neg Bool.false_ne_true, same]

theorem text_own {token : Token} {key : Units} (isKey : token.key = some key) : (own now token).text =
    if understood now key token.value then [] else [literal key token.value] := by
  rw [own_of_key isKey]
  split
  · exact text_filtersOf key token.value
  · rw [Draft.push, text_filtersOf]
    rfl

omit [UnitLowercase] [Calendar] in
theorem Scan.token_eq_some {scan : Scan} {token : Token} (isToken : scan.token = some token) :
    (token.key ≠ none ∨ token.value ≠ []) ∧ token.typed = scan.typed := by
  unfold Scan.token at isToken
  split at isToken
  · rename_i kept
    cases isToken
    exact ⟨kept, rfl⟩
  · cases isToken

omit [Calendar] in
theorem written_of_mem {token : Token} {raw : Units} {scan : Scan} (mem : token ∈ tokensFrom scan raw) :
    token.key ≠ none ∨ token.value ≠ [] := by
  induction raw generalizing scan with
  | nil => exact (Scan.token_eq_some (Option.mem_toList.mp mem)).1
  | cons ch rest ih =>
    rw [tokensFrom] at mem
    split at mem
    · obtain here | later := List.mem_append.mp mem
      · exact (Scan.token_eq_some (Option.mem_toList.mp here)).1
      · exact ih later
    · exact ih mem

theorem own_keyless {raw : Units} {token : Token} (mem : token ∈ tokenize raw) (noKey : token.key = none) :
    own now token = Draft.empty.push token.value := by
  have written : token.value ≠ [] := (written_of_mem mem).resolve_left (not_not_intro noKey)
  unfold own step
  rw [noKey]
  exact if_pos (List.length_pos_iff.mpr written)

theorem text_parseQuery (raw : Units) : (parseQuery now raw).text =
    trim ([blank].intercalate ((tokenize raw).flatMap fun token => (own now token).text)) := by
  unfold parseQuery Draft.finish
  dsimp only
  rw [foldl_step, collected_list (f := Draft.text) fun _ _ => rfl, List.flatMap_map]
  rfl

theorem written_text {raw : Units} {piece : Units}
    (mem : piece ∈ (tokenize raw).flatMap fun token => (own now token).text) : piece ≠ [] := by
  obtain ⟨token, isToken, mem⟩ := List.mem_flatMap.mp mem
  cases isKey : token.key with
  | none =>
    rw [own_keyless isToken isKey] at mem
    rw [List.mem_singleton.mp mem]
    exact (written_of_mem isToken).resolve_left (not_not_intro isKey)
  | some key =>
    rw [text_own isKey] at mem
    split at mem
    · cases mem
    · rw [List.mem_singleton.mp mem]
      simp [literal]

theorem exts_parseQuery (raw : Units) :
    (parseQuery now raw).exts = someOf ((tokenize raw).flatMap fun token => (own now token).exts) := by
  unfold parseQuery Draft.finish
  dsimp only
  rw [foldl_step, collected_list (f := Draft.exts) fun _ _ => rfl, List.flatMap_map]
  rfl

theorem kinds_parseQuery (raw : Units) :
    (parseQuery now raw).kinds = someOf ((tokenize raw).flatMap fun token => (own now token).kinds) := by
  unfold parseQuery Draft.finish
  dsimp only
  rw [foldl_step, collected_list (f := Draft.kinds) fun _ _ => rfl, List.flatMap_map]
  rfl

theorem mem_given_of_own {α : Type} {f : Draft → Option α} {values : Units → Units → List α}
    (unset : f .empty = none) (pushes : ∀ draft text, f (draft.push text) = f draft)
    (sets : ∀ key value item, f (filtersOf now key value) = some item → item ∈ values key value)
    {raw : Units} {token : Token} (mem : token ∈ tokenize raw) {item : α} (isItem : f (own now token) = some item) :
    item ∈ given values raw := by
  cases isKey : token.key with
  | none =>
    rw [own_keyless mem isKey, pushes, unset] at isItem
    cases isItem
  | some key =>
    refine mem_given mem isKey (sets key token.value item ?_)
    rw [← isItem, own_of_key isKey]
    split
    · rfl
    · rw [pushes]

theorem single {α : Type} {f : Draft → Option α} {values : Units → Units → List α} {raw : Units}
    (merges : ∀ a b : Draft, f (a.merge b) = (f b).or (f a)) (unset : f .empty = none)
    (pushes : ∀ draft text, f (draft.push text) = f draft)
    (sets : ∀ key value item, f (filtersOf now key value) = some item → item ∈ values key value)
    (alike : Alike (given values raw)) {token : Token} (mem : token ∈ tokenize raw) {item : α}
    (isItem : f (own now token) = some item) : f ((tokenize raw).foldl (step now) .empty) = some item := by
  have isGiven := mem_given_of_own unset pushes sets mem isItem
  rw [foldl_step]
  refine collected_single merges (fun draft isDraft other isOther => ?_) .empty
    (.inr ⟨unset, own now token, List.mem_map_of_mem mem, isItem⟩)
  obtain ⟨source, isSource, rfl⟩ := List.mem_map.mp isDraft
  exact alike _ (mem_given_of_own unset pushes sets isSource isOther) _ isGiven

theorem category_filtersOf (key value item : Units) (isItem : (filtersOf now key value).category = some item) :
    item ∈ categoriesIn key value := by
  unfold filtersOf at isItem
  unfold categoriesIn
  cases isField : fieldOf key with
  | none => simp [isField, Draft.empty] at isItem
  | some field =>
    rw [isField] at isItem
    cases field <;> try cases isItem
    have found : (values value).find? categories.contains = some item := isItem
    have mem := List.mem_of_find?_eq_some found
    rw [if_pos ⟨rfl, List.any_eq_true.mpr ⟨item, mem, List.find?_some found⟩⟩]
    exact mem

theorem availability_filtersOf (key value : Units) (item : Availability)
    (isItem : (filtersOf now key value).availability = some item) : item ∈ availabilitiesIn key value := by
  unfold filtersOf at isItem
  unfold availabilitiesIn
  cases isField : fieldOf key with
  | none => simp [isField, Draft.empty] at isItem
  | some field =>
    rw [isField] at isItem
    cases field <;> try cases isItem
    · rw [if_pos rfl]
      exact List.mem_of_getLast? isItem
    · have mem : item ∈ (values value).filterMap (availabilityOf false) := List.mem_of_getLast? isItem
      obtain ⟨_, _, absent⟩ := List.mem_filterMap.mp mem
      simp [availabilityOf] at absent

theorem by_filtersOf (key value item : Units) (isItem : (filtersOf now key value).by = some item) :
    item ∈ peopleIn key value := by
  unfold filtersOf at isItem
  unfold peopleIn
  cases isField : fieldOf key with
  | none => simp [isField, Draft.empty] at isItem
  | some field =>
    rw [isField] at isItem
    cases field <;> try cases isItem
    rw [if_pos rfl]
    exact Option.mem_toList.mpr isItem

theorem inFolder_filtersOf (key value item : Units) (isItem : (filtersOf now key value).inFolder = some item) :
    item ∈ foldersIn key value := by
  unfold filtersOf at isItem
  unfold foldersIn
  cases isField : fieldOf key with
  | none => simp [isField, Draft.empty] at isItem
  | some field =>
    rw [isField] at isItem
    cases field <;> try cases isItem
    rw [if_pos rfl]
    exact Option.mem_toList.mpr isItem

theorem modified_filtersOf (key value : Units) :
    (filtersOf now key value).modifiedAfter = (datesIn now key value).head?.map Resolved.after ∧
      (filtersOf now key value).modifiedBucket = (datesIn now key value).head?.map Resolved.bucket := by
  unfold filtersOf datesIn
  cases fieldOf key with
  | none => exact ⟨rfl, rfl⟩
  | some field =>
    cases field with
    | modified =>
      dsimp only
      rw [if_pos rfl]
      cases resolveModified now (toLowerCase (trim value)) <;> exact ⟨rfl, rfl⟩
    | _ => exact ⟨rfl, rfl⟩

theorem modifiedAfter_filtersOf (key value : Units) (item : Instant)
    (isItem : (filtersOf now key value).modifiedAfter = some item) :
    item ∈ (datesIn now key value).map Resolved.after := by
  rw [(modified_filtersOf key value).1, Option.map_eq_some_iff] at isItem
  obtain ⟨resolved, isHead, rfl⟩ := isItem
  exact List.mem_map_of_mem (List.mem_of_head? isHead)

theorem modifiedBucket_filtersOf (key value item : Units)
    (isItem : (filtersOf now key value).modifiedBucket = some item) :
    item ∈ (datesIn now key value).map Resolved.bucket := by
  rw [(modified_filtersOf key value).2, Option.map_eq_some_iff] at isItem
  obtain ⟨resolved, isHead, rfl⟩ := isItem
  exact List.mem_map_of_mem (List.mem_of_head? isHead)

omit [UnitLowercase] [Calendar] in
theorem dotless_eq_nil {item : Units} (written : item ≠ []) : dotless item = [] ↔ item = [dot] := by
  unfold dotless
  cases item with
  | nil => exact absurd rfl written
  | cons first rest => by_cases isDot : first = dot <;> simp [isDot]

omit [Calendar] in
theorem written_of_mem_values {value item : Units} (mem : item ∈ values value) : item ≠ [] :=
  of_decide_eq_true (List.mem_filter.mp mem).2

omit [Calendar] in
theorem Alike.map {α β : Type} {f : α → β} {values : Units → Units → List α} {raw : Units}
    (alike : Alike (given values raw)) : Alike (given (fun key value => (values key value).map f) raw) := by
  have image : given (fun key value => (values key value).map f) raw = (given values raw).map f := by
    unfold given
    rw [List.map_flatMap]
    refine List.flatMap_congr fun token _ => ?_
    cases token.key <;> rfl
  intro a memA b memB
  rw [image] at memA memB
  obtain ⟨first, memFirst, rfl⟩ := List.mem_map.mp memA
  obtain ⟨second, memSecond, rfl⟩ := List.mem_map.mp memB
  rw [alike first memFirst second memSecond]

omit [Calendar] in
theorem alike_given {α : Type} {f : Option α} {values : Units → Units → List α} {raw : Units}
    (each : ∀ token ∈ tokenize raw, ∀ key, token.key = some key → ∀ item ∈ values key token.value, f = some item) :
    Alike (given values raw) := by
  have all : ∀ item ∈ given values raw, f = some item := by
    intro item mem
    obtain ⟨token, isToken, isItem⟩ := List.mem_flatMap.mp mem
    cases isKey : token.key with
    | none =>
      rw [isKey] at isItem
      cases isItem
    | some key =>
      rw [isKey] at isItem
      exact each token isToken key isKey item isItem
  intro a memA b memB
  exact Option.some.inj ((all a memA).symm.trans (all b memB))

theorem reflectedKind {raw : Units} (plain : Plain now raw) {token : Token} (mem : token ∈ tokenize raw) {key : Units}
    (isKey : token.key = some key) {withAvailability : Bool} {items : List Units}
    (isOwn : own now token = kindsOf withAvailability items)
    (inAvailabilities : ∀ availability ∈ items.filterMap (availabilityOf withAvailability),
      availability ∈ availabilitiesIn key token.value)
    {item : Units} (isItem : item ∈ items) (isKnown : known withAvailability item = true) :
    ReflectedKind withAvailability (parseQuery now raw) item := by
  cases isKind : kindNamed item with
  | some kind =>
    refine .inl ⟨kind, isKind, ?_⟩
    rw [kinds_parseQuery, mem_someOf]
    refine List.mem_flatMap.mpr ⟨token, mem, ?_⟩
    rw [isOwn]
    exact List.mem_filterMap.mpr ⟨item, isItem, isKind⟩
  | none =>
    rw [known, isKind, Option.isSome_none, Bool.false_or] at isKnown
    obtain ⟨availability, isAvailability⟩ := Option.isSome_iff_exists.mp isKnown
    have among : availability ∈ items.filterMap (availabilityOf withAvailability) :=
      List.mem_filterMap.mpr ⟨item, isItem, isAvailability⟩
    obtain ⟨last, isLast⟩ := Option.isSome_iff_exists.mp (List.getLast?_isSome.mpr (List.ne_nil_of_mem among))
    have isSet : (own now token).availability = some last := by
      rw [isOwn]
      exact isLast
    have same : availability = last := plain.availability _ (mem_given mem isKey (inAvailabilities _ among)) _
      (mem_given mem isKey (inAvailabilities _ (List.mem_of_getLast? isLast)))
    refine .inr ⟨availability, isAvailability, ?_⟩
    rw [same]
    exact single (f := Draft.availability) (fun _ _ => rfl) rfl (fun _ _ => rfl) availability_filtersOf
      plain.availability mem isSet

theorem reflected {raw : Units} (plain : Plain now raw) {token : Token} (mem : token ∈ tokenize raw) {key : Units}
    (isKey : token.key = some key) (taken : understood now key token.value = true) :
    Reflected now (parseQuery now raw) key token.value := by
  have isOwn : own now token = filtersOf now key token.value := by
    rw [own_of_key isKey, taken]
    rfl
  have isTaken := taken
  unfold understood at isTaken
  unfold filtersOf at isOwn
  unfold Reflected
  cases isField : fieldOf key with
  | none =>
    rw [isField] at isTaken
    cases isTaken
  | some field =>
    rw [isField] at isTaken isOwn
    cases field with
    | ext =>
      intro item isItem
      have named : dotless item ≠ [] := by
        intro empty
        have onlyDot : item = [dot] := (dotless_eq_nil (written_of_mem_values isItem)).mp empty
        exact plain.exts token mem key isKey isField taken (onlyDot ▸ isItem)
      rw [exts_parseQuery, mem_someOf]
      refine List.mem_flatMap.mpr ⟨token, mem, ?_⟩
      rw [isOwn]
      exact List.mem_filter.mpr ⟨List.mem_map_of_mem isItem, decide_eq_true named⟩
    | type =>
      intro item isItem
      have all : ∀ item ∈ values token.value, item ∈ categoriesIn key token.value := by
        intro item isItem
        unfold categoriesIn
        rw [if_pos ⟨isField, isTaken⟩]
        exact isItem
      obtain ⟨category, isCategory⟩ := Option.isSome_iff_exists.mp (List.find?_isSome.mpr (List.any_eq_true.mp isTaken))
      have isSet : (own now token).category = some category := by
        rw [isOwn]
        exact isCategory
      have same : item = category := plain.category _ (mem_given mem isKey (all _ isItem)) _
        (mem_given mem isKey (all _ (List.mem_of_find?_eq_some isCategory)))
      rw [same]
      exact single (f := Draft.category) (fun _ _ => rfl) rfl (fun _ _ => rfl) category_filtersOf plain.category mem isSet
    | is =>
      intro item isItem
      have isKnown := List.all_eq_true.mp (Bool.and_eq_true_iff.mp isTaken).2
      refine reflectedKind plain mem isKey isOwn (fun availability among => ?_) isItem (isKnown item isItem)
      unfold availabilitiesIn
      rw [if_pos isField]
      exact among
    | kind =>
      intro item isItem
      have isKnown := List.all_eq_true.mp (Bool.and_eq_true_iff.mp isTaken).2
      refine reflectedKind plain mem isKey isOwn (fun availability among => ?_) isItem (isKnown item isItem)
      obtain ⟨_, _, absent⟩ := List.mem_filterMap.mp among
      simp [availabilityOf] at absent
    | «by» =>
      refine single (f := Draft.by) (fun _ _ => rfl) rfl (fun _ _ => rfl) by_filtersOf plain.people mem ?_
      rw [isOwn]
      exact if_neg (of_decide_eq_true isTaken)
    | inFolder =>
      refine single (f := Draft.inFolder) (fun _ _ => rfl) rfl (fun _ _ => rfl) inFolder_filtersOf plain.folders mem ?_
      rw [isOwn]
      exact if_neg (of_decide_eq_true isTaken)
    | modified =>
      obtain ⟨resolved, isResolved⟩ := Option.isSome_iff_exists.mp isTaken
      refine ⟨resolved, isResolved, ?_, ?_⟩
      · refine single (f := Draft.modifiedAfter) (fun _ _ => rfl) rfl (fun _ _ => rfl) modifiedAfter_filtersOf
          (plain.dates.map (f := Resolved.after)) mem ?_
        rw [isOwn]
        dsimp only
        rw [isResolved]
        rfl
      · refine single (f := Draft.modifiedBucket) (fun _ _ => rfl) rfl (fun _ _ => rfl) modifiedBucket_filtersOf
          (plain.dates.map (f := Resolved.bucket)) mem ?_
        rw [isOwn]
        dsimp only
        rw [isResolved]
        rfl

theorem spoken_eq {raw : Units} (putBack : ∀ token ∈ tokenize raw, ∀ key, token.key = some key →
      understood now key token.value = false → token.typed = literal key token.value) :
    ((tokenize raw).flatMap fun token => (own now token).text) = spoken now raw := by
  refine List.flatMap_congr fun token mem => ?_
  cases isKey : token.key with
  | none => rw [own_keyless mem isKey]; rfl
  | some key =>
    rw [text_own isKey]
    dsimp only
    cases taken : understood now key token.value with
    | true => rfl
    | false => rw [putBack token mem key isKey taken]

omit [UnitLowercase] [Calendar] in
theorem dropWhile_eq_self {α : Type} {p : α → Bool} {l : List α} :
    l.dropWhile p = l ↔ ∀ item ∈ l.head?, p item = false := by
  rw [List.dropWhile_eq_self_iff]
  cases l <;> simp

omit [UnitLowercase] [Calendar] in
theorem trim_eq_self {text : Units} : trim text = text ↔
    (∀ unit ∈ text.head?, space unit.toNat = false) ∧ ∀ unit ∈ text.getLast?, space unit.toNat = false := by
  have atFront := dropWhile_eq_self (p := fun unit : UInt16 => space unit.toNat) (l := text)
  have atBack := dropWhile_eq_self (p := fun unit : UInt16 => space unit.toNat) (l := text.reverse)
  rw [List.head?_reverse] at atBack
  rw [trim, ← atFront, ← atBack]
  constructor
  · intro same
    have short := (List.dropWhile_suffix (fun unit : UInt16 => space unit.toNat) (l := text)).length_le
    have shorter := (List.dropWhile_suffix (fun unit : UInt16 => space unit.toNat)
      (l := (text.dropWhile fun unit => space unit.toNat).reverse)).length_le
    have long := congrArg List.length same
    rw [List.length_reverse] at shorter long
    have front : text.dropWhile (fun unit => space unit.toNat) = text :=
      (List.dropWhile_suffix _).eq_of_length (by omega)
    rw [front] at same
    exact ⟨front, List.reverse_eq_iff.mp same⟩
  · rintro ⟨front, back⟩
    rw [front, back, List.reverse_reverse]

omit [UnitLowercase] [Calendar] in
theorem head?_intercalate {pieces : List Units} (written : ∀ piece ∈ pieces, piece ≠ []) :
    ([blank].intercalate pieces).head? = pieces.head?.bind List.head? := by
  cases pieces with
  | nil => rfl
  | cons first rest =>
    cases rest with
    | nil => rw [List.intercalate_singleton]; rfl
    | cons second rest =>
      rw [List.intercalate_cons_cons, List.append_assoc,
        List.head?_append_of_ne_nil _ (written first List.mem_cons_self)]
      rfl

omit [UnitLowercase] [Calendar] in
theorem getLast?_intercalate {pieces : List Units} (written : ∀ piece ∈ pieces, piece ≠ []) :
    ([blank].intercalate pieces).getLast? = pieces.getLast?.bind List.getLast? := by
  induction pieces with
  | nil => rfl
  | cons first rest ih =>
    cases rest with
    | nil => rw [List.intercalate_singleton]; rfl
    | cons second rest =>
      have tail : ∀ piece ∈ second :: rest, piece ≠ [] := fun piece mem => written piece (List.mem_cons_of_mem _ mem)
      have more : [blank].intercalate (second :: rest) ≠ [] := by
        intro empty
        have isHead := head?_intercalate tail
        rw [empty] at isHead
        exact tail second List.mem_cons_self (List.head?_eq_none_iff.mp isHead.symm)
      rw [List.intercalate_cons_cons, List.getLast?_append_of_ne_nil _ more, ih tail, List.getLast?_cons_cons]

theorem text_eq_iff {raw : Units} (putBack : ∀ token ∈ tokenize raw, ∀ key, token.key = some key →
      understood now key token.value = false → token.typed = literal key token.value) :
    (parseQuery now raw).text = [blank].intercalate ((tokenize raw).flatMap fun token => (own now token).text) ↔
      (∀ words ∈ (spoken now raw).head?, ∀ unit ∈ words.head?, space unit.toNat = false) ∧
        ∀ words ∈ (spoken now raw).getLast?, ∀ unit ∈ words.getLast?, space unit.toNat = false := by
  have said := spoken_eq putBack
  have written : ∀ words ∈ spoken now raw, words ≠ [] := by
    intro words mem
    rw [← said] at mem
    exact written_text mem
  rw [text_parseQuery, said, trim_eq_self, head?_intercalate written, getLast?_intercalate written]
  simp only [Option.mem_bind_iff, forall_exists_index, and_imp]
  exact and_congr ⟨fun all words first unit isUnit => all unit words first isUnit,
      fun all unit words first isUnit => all words first unit isUnit⟩
    ⟨fun all words last unit isUnit => all unit words last isUnit,
      fun all unit words last isUnit => all words last unit isUnit⟩

theorem written_exts {token : Token} {ext : Units} (mem : ext ∈ (own now token).exts) : ext ≠ [] := by
  cases isKey : token.key with
  | none =>
    unfold own step at mem
    rw [isKey] at mem
    dsimp only at mem
    split at mem <;> cases mem
  | some key =>
    have inFilters : ext ∈ (filtersOf now key token.value).exts := by
      rw [own_of_key isKey] at mem
      split at mem <;> exact mem
    unfold filtersOf at inFilters
    cases isField : fieldOf key with
    | none =>
      rw [isField] at inFilters
      cases inFilters
    | some field =>
      rw [isField] at inFilters
      cases field with
      | ext => exact of_decide_eq_true (List.mem_filter.mp inFilters).2
      | _ => cases inFilters

namespace Lossless

variable {raw : Units} (lossless : Lossless now raw) {token : Token} {key : Units}

include lossless

theorem reflects (mem : token ∈ tokenize raw) (isKey : token.key = some key)
    (taken : understood now key token.value = true) : Reflected now (parseQuery now raw) key token.value := by
  refine (lossless.keyed token mem key isKey).elim And.right fun ⟨inText, _⟩ => ?_
  rw [text_own isKey, if_pos taken] at inText
  cases inText

theorem putBack (mem : token ∈ tokenize raw) (isKey : token.key = some key)
    (refused : understood now key token.value = false) :
    token.typed = literal key token.value ∧ Unknown key token.value := by
  have isLiteral : (own now token).text = [literal key token.value] := by
    rw [text_own isKey, refused]
    rfl
  obtain ⟨inText, _⟩ | ⟨inText, unfiltered⟩ := lossless.keyed token mem key isKey
  · rw [isLiteral] at inText
    cases inText
  · rw [isLiteral] at inText
    exact ⟨(List.cons.inj inText).1.symm, (unfiltered_own isKey refused).mp unfiltered⟩

theorem exts (mem : token ∈ tokenize raw) (isKey : token.key = some key) (isExt : fieldOf key = some .ext)
    (taken : understood now key token.value = true) : [dot] ∉ values token.value := by
  intro onlyDot
  have inFilters := lossless.reflects mem isKey taken
  unfold Reflected at inFilters
  rw [isExt] at inFilters
  have absent := inFilters [dot] onlyDot
  rw [exts_parseQuery, mem_someOf] at absent
  obtain ⟨source, _, isEmpty⟩ := List.mem_flatMap.mp absent
  exact written_exts isEmpty rfl

theorem category : Alike (given categoriesIn raw) := by
  refine alike_given (f := (parseQuery now raw).category) fun token mem key isKey item among => ?_
  unfold categoriesIn at among
  split at among
  · rename_i isType
    have taken : understood now key token.value = true := by
      unfold understood
      rw [isType.1]
      exact isType.2
    have inFilters := lossless.reflects mem isKey taken
    unfold Reflected at inFilters
    rw [isType.1] at inFilters
    exact inFilters item among
  · cases among

theorem availability : Alike (given availabilitiesIn raw) := by
  refine alike_given (f := (parseQuery now raw).availability) fun token mem key isKey item among => ?_
  unfold availabilitiesIn at among
  split at among
  · rename_i isIs
    obtain ⟨word, isWord, isAvailability⟩ := List.mem_filterMap.mp among
    have taken : understood now key token.value = true := by
      refine Bool.of_not_eq_false fun refused => ?_
      have unknown := (lossless.putBack mem isKey refused).2
      unfold Unknown at unknown
      rw [isIs] at unknown
      have absent := unknown word isWord
      rw [known, isAvailability, Option.isSome_some, Bool.or_true] at absent
      cases absent
    have inFilters := lossless.reflects mem isKey taken
    unfold Reflected at inFilters
    rw [isIs] at inFilters
    obtain ⟨kind, isKind, _⟩ | ⟨availability, same, isSet⟩ := inFilters word isWord
    · rw [availabilityOf, isKind] at isAvailability
      cases isAvailability
    · rw [isSet, ← same, isAvailability]
  · cases among

theorem people : Alike (given peopleIn raw) := by
  refine alike_given (f := (parseQuery now raw).by) fun token mem key isKey item among => ?_
  unfold peopleIn nonBlank at among
  split at among
  · rename_i isBy
    split at among
    · cases among
    · rename_i written
      have taken : understood now key token.value = true := by
        unfold understood
        rw [isBy]
        exact decide_eq_true written
      have inFilters := lossless.reflects mem isKey taken
      unfold Reflected at inFilters
      rw [isBy] at inFilters
      rw [List.mem_singleton.mp among]
      exact inFilters
  · cases among

theorem folders : Alike (given foldersIn raw) := by
  refine alike_given (f := (parseQuery now raw).inFolder) fun token mem key isKey item among => ?_
  unfold foldersIn nonBlank at among
  split at among
  · rename_i isIn
    split at among
    · cases among
    · rename_i written
      have taken : understood now key token.value = true := by
        unfold understood
        rw [isIn]
        exact decide_eq_true written
      have inFilters := lossless.reflects mem isKey taken
      unfold Reflected at inFilters
      rw [isIn] at inFilters
      rw [List.mem_singleton.mp among]
      exact inFilters
  · cases among

theorem dates : Alike (given (datesIn now) raw) := by
  refine alike_given (f := (parseQuery now raw).modifiedAfter.bind fun after =>
    (parseQuery now raw).modifiedBucket.map (Resolved.mk after)) fun token mem key isKey item among => ?_
  unfold datesIn at among
  split at among
  · rename_i isModified
    rw [Option.mem_toList] at among
    have taken : understood now key token.value = true := by
      unfold understood
      rw [isModified]
      exact Option.isSome_of_mem among
    have inFilters := lossless.reflects mem isKey taken
    unfold Reflected at inFilters
    rw [isModified] at inFilters
    obtain ⟨resolved, same, inAfter, inBucket⟩ := inFilters
    rw [inAfter, inBucket, ← Option.mem_unique same among]
    rfl
  · cases among

theorem plain : Plain now raw := by
  have ends := (text_eq_iff fun token mem key isKey refused => (lossless.putBack mem isKey refused).1).mp lossless.text
  exact {
    putBack := fun _ mem _ isKey => lossless.putBack mem isKey
    exts := fun _ mem _ isKey => lossless.exts mem isKey
    category := lossless.category
    availability := lossless.availability
    people := lossless.people
    folders := lossless.folders
    dates := lossless.dates
    front := ends.1
    back := ends.2 }

end Lossless

/-- A query loses nothing exactly when it is plain. -/
theorem lossless_iff_plain (now : Int) (raw : Units) : Lossless now raw ↔ Plain now raw := by
  refine ⟨Lossless.plain, fun plain => ?_⟩
  constructor
  · exact (text_eq_iff fun token mem key isKey refused => (plain.putBack token mem key isKey refused).1).mpr
      ⟨plain.front, plain.back⟩
  · intro token mem noKey
    rw [own_keyless mem noKey]
    exact ⟨rfl, rfl⟩
  · intro token mem key isKey
    cases taken : understood now key token.value with
    | true =>
      refine .inl ⟨?_, reflected plain mem isKey taken⟩
      rw [text_own isKey, if_pos taken]
    | false =>
      have unheeded := plain.putBack token mem key isKey taken
      refine .inr ⟨?_, (unfiltered_own isKey taken).mpr unheeded.2⟩
      rw [text_own isKey, taken, unheeded.1]
      rfl

end

local instance lowercase : UnitLowercase := dottedLowercase.toUnitLowercase

local instance universalTime : Calendar := ⟨fun time => time - time % day⟩

/-- A value beside a category is lost, as is the first of two people; a value beside a kind is kept twice, and a
key in capitals is put back in small letters. -/
theorem not_lossless : ¬Lossless 0 (units "type:image,foo") ∧ ¬Lossless 0 (units "by:ann by:bob") ∧
    ¬Lossless 0 (units "is:folder,foo") ∧ ¬Lossless 0 (units "Draft:foo") := by
  refine ⟨fun lossless => ?_, fun lossless => ?_, fun lossless => ?_, fun lossless => ?_⟩
  · obtain ⟨-, inFilters⟩ | ⟨inText, -⟩ := lossless.keyed
      ⟨some (units "type"), units "image,foo", units "type:image,foo"⟩ (by decide +kernel) _ rfl
    · have lost : (parseQuery 0 (units "type:image,foo")).category = some (units "foo") :=
        inFilters (units "foo") (by decide +kernel)
      revert lost
      decide +kernel
    · revert inText
      decide +kernel
  · obtain ⟨-, inFilters⟩ | ⟨inText, -⟩ := lossless.keyed
      ⟨some (units "by"), units "ann", units "by:ann"⟩ (by decide +kernel) _ rfl
    · have lost : (parseQuery 0 (units "by:ann by:bob")).by = some (units "ann") := inFilters
      revert lost
      decide +kernel
    · revert inText
      decide +kernel
  · obtain ⟨inText, -⟩ | ⟨-, unfiltered⟩ := lossless.keyed
      ⟨some (units "is"), units "folder,foo", units "is:folder,foo"⟩ (by decide +kernel) _ rfl
    · revert inText
      decide +kernel
    · have twice : (own 0 ⟨some (units "is"), units "folder,foo", units "is:folder,foo"⟩).kinds = [] :=
        congrArg Draft.kinds unfiltered
      revert twice
      decide +kernel
  · obtain ⟨inText, -⟩ | ⟨inText, -⟩ := lossless.keyed
      ⟨some (units "draft"), units "foo", units "Draft:foo"⟩ (by decide +kernel) _ rfl
    · revert inText
      decide +kernel
    · revert inText
      decide +kernel

end QuantumFs.Client.Query
