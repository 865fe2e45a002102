import QuantumFs.Encoding.Control
import QuantumFs.Lib.Collections
import QuantumFs.Lib.Machine
import QuantumFs.Net.Base64

/-! The display names that a directory keeps for its clients (`net/profiles.rs`): requests of one
line each, and a file with a reader of its own for the one shape it has. -/
namespace QuantumFs.Net.Profiles

open Lib Encoding

structure Profile where
  name : String
  updatedMs : UInt64
deriving DecidableEq

abbrev Entries : Type := Map String Profile

def maxProfiles : Nat := 10000
def maxNameChars : Nat := 64
def maxStoreBytes : Nat := 16 * 1024 * 1024

/-- 32 bytes, each a digit of lower case hexadecimal and so a character by itself. -/
def isClientId (value : String) : Bool :=
  value.utf8ByteSize = 32 && value.toList.all fun c => ('0' ≤ c && c ≤ '9') || ('a' ≤ c && c ≤ 'f')

/-- `char::is_control` -/
def isControl (c : Char) : Bool := c.toNat < 0x20 || (0x7F ≤ c.toNat && c.toNat ≤ 0x9F)

def normalizeName (value : String) : Option String :=
  let trimmed := Text.trim value.toList
  if trimmed.length = 0 ∨ maxNameChars < trimmed.length ∨ trimmed.any isControl then none
  else some (String.ofList trimmed)

def escapeChar (character : Char) : Text :=
  if character = '"' then ['\\', '"'] else if character = '\\' then ['\\', '\\'] else [character]

def escape (value : Text) : Text := value.flatMap escapeChar

def encodeEntry (entry : String × Profile) : Text :=
  '"' :: entry.1.toList ++ "\":\x7b\"name\":\"".toList ++ escape entry.2.name.toList ++ "\",\"updatedMs\":".toList ++
    Text.decimal entry.2.updatedMs.toNat ++ ['\x7d']

def encode (entries : Entries) : Text :=
  '\x7b' :: Text.joinWith ',' (entries.toList.map encodeEntry) ++ ['\x7d']

def isAsciiWhitespace (c : Char) : Bool := [' ', '\t', '\n', '\x0c', '\r'].contains c

def skipWhitespace (text : Text) : Text := text.dropWhile isAsciiWhitespace

def eat (expected : Char) (text : Text) : Bool × Text :=
  match skipWhitespace text with
  | c :: rest => if c = expected then (true, rest) else (false, c :: rest)
  | [] => (false, [])

def expect (expected : Char) (text : Text) : Option Text :=
  match eat expected text with
  | (true, rest) => some rest
  | (false, _) => none

/-- `to_digit(16)` -/
def hexDigit (c : Char) : Option Nat :=
  if '0' ≤ c ∧ c ≤ '9' then some (c.toNat - '0'.toNat)
  else if 'a' ≤ c ∧ c ≤ 'f' then some (c.toNat - 'a'.toNat + 10)
  else if 'A' ≤ c ∧ c ≤ 'F' then some (c.toNat - 'A'.toNat + 10)
  else none

/-- `char::from_u32` of four digits. -/
def unicode (digits : List Char) : Option Char := do
  let code ← digits.foldlM (fun code digit => (hexDigit digit).map (code * 16 + ·)) 0
  if h : code.isValidChar then some (Char.ofNatAux code h) else none

def unescape (escaped : Char) : Option Char :=
  [('"', '"'), ('\\', '\\'), ('/', '/'), ('n', '\n'), ('r', '\r'), ('t', '\t'), ('b', '\x08'), ('f', '\x0c')].lookup escaped

/-- The rest of a string, after the characters that were read before. -/
def stringFrom (value : Text) : Text → Option (Text × Text)
  | [] => none
  | c :: text =>
    if c = '"' then some (value, text)
    else if c = '\\' then
      match text with
      | [] => none
      | 'u' :: a :: b :: c :: d :: rest => (unicode [a, b, c, d]).bind fun read => stringFrom (value ++ [read]) rest
      | escaped :: rest => (unescape escaped).bind fun read => stringFrom (value ++ [read]) rest
    else stringFrom (value ++ [c]) text

def string (text : Text) : Option (Text × Text) := do
  let text ← expect '"' text
  stringFrom [] text

def number (text : Text) : Option (UInt64 × Text) :=
  let text := skipWhitespace text
  let digits := text.takeWhile Char.isDigit
  if digits = [] then none
  else (Text.parseU64 digits).map fun value => (UInt64.ofNat value, text.drop digits.length)

/-- The fields of an object up to one that no comma follows; each round reads at least one. -/
def fields : Nat → Option Text → Option UInt64 → Text → Option (Option Text × Option UInt64 × Text)
  | 0, _, _, _ => none
  | rounds + 1, name, updatedMs, text => do
    let (key, text) ← string text
    let next := fun name updatedMs text =>
      match eat ',' text with
      | (true, text) => fields rounds name updatedMs text
      | (false, text) => some (name, updatedMs, text)
    if key = "name".toList then
      let text ← expect ':' text
      let (value, text) ← string text
      next (some value) updatedMs text
    else if key = "updatedMs".toList then
      let text ← expect ':' text
      let (value, text) ← number text
      next name (some value) text
    else none

def entriesFrom : Nat → Entries → Text → Option (Entries × Text)
  | 0, _, _ => none
  | rounds + 1, entries, text => do
    let (clientId, text) ← string text
    let text ← expect ':' text
    let text ← expect '\x7b' text
    let (name, updatedMs, text) ← fields (text.length + 1) none none text
    let text ← expect '\x7d' text
    if ¬isClientId (String.ofList clientId) ∨ maxProfiles ≤ entries.size then none
    else
      let name ← name
      let name ← normalizeName (String.ofList name)
      let updatedMs ← updatedMs
      let entries := entries.insert (String.ofList clientId) ⟨name, updatedMs⟩
      match eat ',' text with
      | (true, text) => entriesFrom rounds entries text
      | (false, text) => some (entries, text)

def decode (bytes : Bytes) : Option Entries := do
  let text ← String.fromUTF8? ⟨bytes.toArray⟩
  let text ← expect '\x7b' text.toList
  let (entries, text) ←
    match eat '\x7d' text with
    | (true, text) => some (∅, text)
    | (false, text) => do
      let (entries, text) ← entriesFrom (text.length + 1) ∅ text
      let text ← expect '\x7d' text
      some (entries, text)
  if skipWhitespace text = [] then some entries else none

/-- How a write ends: `late` after the new file has taken the place of the old one. -/
inductive Written where
  | done
  | refused (reason : String)
  | late (reason : String)
deriving DecidableEq

/-- `file` is what is on disk under the path of the store. -/
structure ProfileStore where
  file : Option Bytes
  entries : Entries

/-- `ProfileStore::open`: what cannot be read is an empty store. -/
def readEntries (file : Option Bytes) : Entries :=
  match file with
  | none => ∅
  | some bytes => if bytes.length = 0 ∨ maxStoreBytes < bytes.length then ∅ else (decode bytes).getD ∅

namespace ProfileStore

def «open» (file : Option Bytes) : ProfileStore := ⟨file, readEntries file⟩

def get (store : ProfileStore) (clientId : String) : Option String := store.entries[clientId]?.map Profile.name

def older (best : Option (String × Profile)) (entry : String × Profile) : Option (String × Profile) :=
  match best with
  | none => some entry
  | some (id, profile) => if entry.2.updatedMs < profile.updatedMs then some entry else some (id, profile)

def oldest (entries : List (String × Profile)) : Option String := (entries.foldl older none).map Prod.fst

def evict (clientId : String) : Nat → Entries → Entries
  | 0, entries => entries
  | rounds + 1, entries =>
    if maxProfiles < entries.size then
      match oldest (entries.toList.filter (·.1 ≠ clientId)) with
      | some id => evict clientId rounds (entries.erase id)
      | none => entries
    else entries

def put (store : ProfileStore) (clientId name : String) (now : UInt64) (written : Written) :
    Except String Unit × ProfileStore :=
  let entries := store.entries.insert clientId ⟨name, now⟩
  let entries := evict clientId entries.size entries
  let bytes := utf8 (String.ofList (encode entries))
  if maxStoreBytes < bytes.length then (.error "keystore file is too large", store)
  else
    match written with
    | .done => (.ok (), ⟨some bytes, entries⟩)
    | .refused reason => (.error reason, store)
    | .late reason => (.error reason, { store with file := some bytes })

end ProfileStore

/-- A line, the clock, and how a write ends if there is one. -/
structure Request where
  line : Text
  now : UInt64
  written : Written

def handlePut (store : ProfileStore) (clientId nameB64 : Text) (now : UInt64) (written : Written) : Text × ProfileStore :=
  if ¬isClientId (String.ofList clientId) then ("ERR bad client id".toList, store)
  else
    match ((decodeBase64 nameB64).bind fun bytes => String.fromUTF8? ⟨bytes.toArray⟩).bind normalizeName with
    | none => ("ERR bad name".toList, store)
    | some name =>
      match store.put (String.ofList clientId) name now written with
      | (.error reason, store) => ("ERR ".toList ++ Text.oneLine reason.toList, store)
      | (.ok (), store) => ("OK".toList, store)

def handleGet (store : ProfileStore) (clientId : Text) : Text :=
  if ¬isClientId (String.ofList clientId) then "ERR bad client id".toList
  else
    match store.get (String.ofList clientId) with
    | some name => "OK ".toList ++ encodeBase64 (utf8 name)
    | none => "ERR not found".toList

def handle (store : ProfileStore) (request : Request) : Text × ProfileStore :=
  match Text.splitWhitespace request.line with
  | [] => ("ERR unknown command".toList, store)
  | command :: words =>
    if command = "PING".toList then ("OK".toList, store)
    else if command = "PROFILE_PUT".toList then
      match words with
      | clientId :: name :: _ => handlePut store clientId name request.now request.written
      | _ => ("ERR bad request".toList, store)
    else if command = "PROFILE_GET".toList then
      match words with
      | clientId :: _ => (handleGet store clientId, store)
      | _ => ("ERR bad request".toList, store)
    else ("ERR unknown command".toList, store)

def machine : Machine ProfileStore Request := ⟨fun request store => (handle store request).2⟩

theorem eat_here {c : Char} (solid : isAsciiWhitespace c = false) (rest : Text) : eat c (c :: rest) = (true, rest) := by
  unfold eat skipWhitespace
  rw [List.dropWhile_cons_of_neg (by rw [solid]; exact Bool.false_ne_true)]
  exact if_pos rfl

theorem eat_other {c d : Char} (solid : isAsciiWhitespace d = false) (other : d ≠ c) (rest : Text) :
    eat c (d :: rest) = (false, d :: rest) := by
  unfold eat skipWhitespace
  rw [List.dropWhile_cons_of_neg (by rw [solid]; exact Bool.false_ne_true)]
  exact if_neg other

theorem expect_here {c : Char} (solid : isAsciiWhitespace c = false) (rest : Text) : expect c (c :: rest) = some rest := by
  unfold expect
  rw [eat_here solid]

theorem stringFrom_quote (value rest : Text) : stringFrom value ('"' :: rest) = some (value, rest) := by
  rw [stringFrom.eq_def]
  rfl

theorem stringFrom_plain (value rest : Text) {c : Char} (notQuote : c ≠ '"') (notBackslash : c ≠ '\\') :
    stringFrom value (c :: rest) = stringFrom (value ++ [c]) rest := by
  rw [stringFrom.eq_def]
  dsimp only
  rw [if_neg notQuote, if_neg notBackslash]

theorem stringFrom_escape (value text rest : Text) :
    stringFrom value (escape text ++ '"' :: rest) = some (value ++ text, rest) := by
  induction text generalizing value with
  | nil =>
    rw [List.append_nil]
    exact stringFrom_quote value rest
  | cons c text ih =>
    have next := ih (value ++ [c])
    rw [List.append_assoc, List.singleton_append] at next
    rw [← next]
    change stringFrom value ((escapeChar c ++ escape text) ++ '"' :: rest) = _
    unfold escapeChar
    split
    · rename_i quote
      subst quote
      rfl
    · rename_i notQuote
      split
      · rename_i backslash
        subst backslash
        rfl
      · rename_i notBackslash
        rw [List.singleton_append, List.cons_append, stringFrom_plain _ _ notQuote notBackslash]

theorem string_escape (text rest : Text) : string ('"' :: escape text ++ '"' :: rest) = some (text, rest) := by
  unfold string
  rw [List.cons_append, expect_here (by decide)]
  exact stringFrom_escape [] text rest

theorem escape_plain {text : Text} (plain : ∀ c ∈ text, c ≠ '"' ∧ c ≠ '\\') : escape text = text := by
  refine (List.flatMap_congr fun c mem => ?_).trans (List.flatMap_singleton' text)
  obtain ⟨notQuote, notBackslash⟩ := plain c mem
  unfold escapeChar
  rw [if_neg notQuote, if_neg notBackslash]

theorem string_plain {text : Text} (plain : ∀ c ∈ text, c ≠ '"' ∧ c ≠ '\\') (rest : Text) :
    string ('"' :: text ++ '"' :: rest) = some (text, rest) := by
  have read := string_escape text rest
  rwa [escape_plain plain] at read

theorem number_decimal (value : UInt64) {c : Char} (notDigit : c.isDigit = false) (rest : Text) :
    number (Text.decimal value.toNat ++ c :: rest) = some (value, c :: rest) := by
  have digits : ∀ c ∈ Text.decimal value.toNat, c.isDigit = true := fun c mem => Text.isDigit_of_mem_decimal mem
  have start : skipWhitespace (Text.decimal value.toNat ++ c :: rest) = Text.decimal value.toNat ++ c :: rest := by
    unfold skipWhitespace
    cases first : Text.decimal value.toNat with
    | nil => exact absurd first (Text.decimal_ne_nil _)
    | cons d digits' =>
      have digit := digits d (first ▸ List.mem_cons_self)
      have solid : isAsciiWhitespace d = false := by
        unfold isAsciiWhitespace
        simp only [List.contains_eq_mem, List.mem_cons, List.not_mem_nil, or_false, decide_eq_false_iff_not]
        rintro (rfl | rfl | rfl | rfl | rfl) <;> exact absurd digit (by decide)
      rw [List.cons_append, List.dropWhile_cons_of_neg (by rw [solid]; exact Bool.false_ne_true)]
  have taken : (Text.decimal value.toNat ++ c :: rest).takeWhile Char.isDigit = Text.decimal value.toNat := by
    rw [List.takeWhile_append_of_pos digits, List.takeWhile_cons_of_neg (by rw [notDigit]; exact Bool.false_ne_true),
      List.append_nil]
  unfold number
  dsimp only
  rw [start, taken, if_neg (Text.decimal_ne_nil _), Text.parseU64_decimal, if_pos value.toNat_lt, Option.map_some,
    List.drop_left, UInt64.ofNat_toNat]

theorem fields_name (rounds : Nat) (name : Option Text) (updatedMs : Option UInt64) (value text : Text) :
    fields (rounds + 1) name updatedMs ('"' :: "name".toList ++ '"' :: ':' :: ('"' :: escape value ++ '"' :: ',' :: text)) =
      fields rounds (some value) updatedMs text := by
  have plain : ∀ c ∈ "name".toList, c ≠ '"' ∧ c ≠ '\\' := by simp
  rw [fields, string_plain plain]
  simp only [Option.bind_eq_bind, Option.bind_some, if_true]
  rw [expect_here (by decide), Option.bind_some, string_escape, Option.bind_some, eat_here (by decide)]

theorem fields_updatedMs (rounds : Nat) (name : Option Text) (updatedMs : Option UInt64) (value : UInt64) (rest : Text) :
    fields (rounds + 1) name updatedMs
      ('"' :: "updatedMs".toList ++ '"' :: ':' :: (Text.decimal value.toNat ++ '\x7d' :: rest)) =
      some (name, some value, '\x7d' :: rest) := by
  have plain : ∀ c ∈ "updatedMs".toList, c ≠ '"' ∧ c ≠ '\\' := by simp
  have different : "updatedMs".toList ≠ "name".toList := by simp
  rw [fields, string_plain plain]
  generalize "updatedMs".toList = key at different
  generalize "name".toList = other at different
  simp only [Option.bind_eq_bind, Option.bind_some, if_neg different, if_true]
  rw [expect_here (by decide), Option.bind_some, number_decimal _ (by decide), Option.bind_some,
    eat_other (by decide) (by decide)]

theorem fields_entry (rounds : Nat) (name : Text) (updatedMs : UInt64) (rest : Text) :
    fields (rounds + 2) none none ("\"name\":\"".toList ++ escape name ++ "\",\"updatedMs\":".toList ++
      Text.decimal updatedMs.toNat ++ '\x7d' :: rest) = some (some name, some updatedMs, '\x7d' :: rest) := by
  have split : "\"name\":\"".toList ++ escape name ++ "\",\"updatedMs\":".toList ++ Text.decimal updatedMs.toNat ++
      '\x7d' :: rest = '"' :: "name".toList ++ '"' :: ':' :: ('"' :: escape name ++ '"' :: ',' ::
        ('"' :: "updatedMs".toList ++ '"' :: ':' :: (Text.decimal updatedMs.toNat ++ '\x7d' :: rest))) := by
    simp
  rw [split, fields_name, fields_updatedMs]

theorem plain_clientId {id : String} (valid : isClientId id = true) : ∀ c ∈ id.toList, c ≠ '"' ∧ c ≠ '\\' := by
  unfold isClientId at valid
  rw [Bool.and_eq_true, List.all_eq_true] at valid
  intro c mem
  have digit := valid.2 c mem
  constructor <;> rintro rfl <;> exact absurd digit (by decide)

/-- What a read keeps of an entry. -/
def Valid (entry : String × Profile) : Prop :=
  isClientId entry.1 = true ∧ normalizeName entry.2.name = some entry.2.name

theorem entriesFrom_entry (rounds : Nat) {entries : Entries} {entry : String × Profile} (valid : Valid entry)
    (room : entries.size < maxProfiles) (text : Text) :
    entriesFrom (rounds + 1) entries (encodeEntry entry ++ text) =
      match eat ',' text with
      | (true, text) => entriesFrom rounds (entries.insert entry.1 entry.2) text
      | (false, text) => some (entries.insert entry.1 entry.2, text) := by
  obtain ⟨id, name, updatedMs⟩ := entry
  obtain ⟨clientId, normal⟩ := valid
  have split : encodeEntry (id, ⟨name, updatedMs⟩) ++ text = '"' :: id.toList ++ '"' :: ':' :: '\x7b' ::
      ("\"name\":\"".toList ++ escape name.toList ++ "\",\"updatedMs\":".toList ++ Text.decimal updatedMs.toNat ++
        '\x7d' :: text) := by
    unfold encodeEntry
    simp
  have read : fields (("\"name\":\"".toList ++ escape name.toList ++ "\",\"updatedMs\":".toList ++
      Text.decimal updatedMs.toNat ++ '\x7d' :: text).length + 1) none none ("\"name\":\"".toList ++
      escape name.toList ++ "\",\"updatedMs\":".toList ++ Text.decimal updatedMs.toNat ++ '\x7d' :: text) =
      some (some name.toList, some updatedMs, '\x7d' :: text) := by
    rw [List.length_append, List.length_cons, ← Nat.add_assoc]
    exact fields_entry _ name.toList updatedMs text
  rw [split, entriesFrom, string_plain (plain_clientId clientId)]
  dsimp only [Option.bind_eq_bind, Option.bind_some]
  rw [expect_here (by decide), Option.bind_some, expect_here (by decide), Option.bind_some, read, Option.bind_some]
  dsimp only
  have free : ¬(¬isClientId (String.ofList id.toList) = true ∨ maxProfiles ≤ entries.size) := by
    rw [String.ofList_toList]
    exact not_or.mpr ⟨not_not.mpr clientId, Nat.not_le.mpr room⟩
  rw [expect_here (by decide), Option.bind_some, if_neg free, Option.bind_some, String.ofList_toList, normal,
    Option.bind_some, Option.bind_some, String.ofList_toList]

theorem joinWith_cons (separator : Char) (part next : Text) (parts : List Text) :
    Text.joinWith separator (part :: next :: parts) = part ++ separator :: Text.joinWith separator (next :: parts) := rfl

theorem entriesFrom_list {list : List (String × Profile)} (some : list ≠ []) (valid : ∀ entry ∈ list, Valid entry)
    {rounds : Nat} {entries : Entries} (enough : list.length ≤ rounds) (room : entries.size + list.length ≤ maxProfiles)
    (text : Text) :
    entriesFrom rounds entries (Text.joinWith ',' (list.map encodeEntry) ++ '\x7d' :: text) =
      .some (entries.insertMany list, '\x7d' :: text) := by
  induction list generalizing rounds entries with
  | nil => exact absurd rfl some
  | cons entry list ih =>
    obtain ⟨rounds, rfl⟩ := Nat.exists_eq_add_of_lt (Nat.lt_of_lt_of_le (Nat.succ_pos _) enough)
    rw [List.length_cons] at room enough
    have here := valid entry List.mem_cons_self
    have first := @entriesFrom_entry rounds entries entry here (by omega)
    rw [Nat.zero_add]
    cases list with
    | nil =>
      rw [List.map_cons, List.map_nil, Text.joinWith, first, eat_other (by decide) (by decide)]
      rfl
    | cons next list =>
      have size := Std.ExtTreeMap.size_insert_le (t := entries) (k := entry.1) (v := entry.2)
      rw [List.map_cons, List.map_cons, joinWith_cons, List.append_assoc, List.cons_append, first,
        eat_here (by decide)]
      dsimp only
      rw [← List.map_cons, ih (List.cons_ne_nil _ _) (fun later mem => valid later (List.mem_cons_of_mem _ mem))
        (by omega) (by omega), ← Std.ExtTreeMap.insertMany_cons]

def Kept (entries : Entries) : Prop :=
  (∀ id profile, entries[id]? = some profile → Valid (id, profile)) ∧ entries.size ≤ maxProfiles

theorem length_le_joinWith (separator : Char) (parts : List Text) :
    parts.length ≤ (Text.joinWith separator parts).length + 1 := by
  induction parts with
  | nil => exact Nat.zero_le _
  | cons part parts ih =>
    cases parts with
    | nil => exact Nat.le_add_left _ _
    | cons next parts =>
      rw [joinWith_cons, List.length_append, List.length_cons, List.length_cons (a := separator)]
      omega

theorem decode_encode {entries : Entries} (kept : Kept entries) :
    decode (utf8 (String.ofList (encode entries))) = some entries := by
  have valid : ∀ entry ∈ entries.toList, Valid entry := fun entry mem => kept.1 entry.1 entry.2 (Map.mem_toList.mp mem)
  unfold decode encode
  rw [fromUTF8_utf8]
  dsimp only [Option.bind_eq_bind, Option.bind_some]
  rw [String.toList_ofList, List.cons_append, expect_here (by decide), Option.bind_some]
  cases list : entries.toList with
  | nil =>
    have none : entries = ∅ := by rw [← Map.ofList_toList entries, list]; rfl
    rw [List.map_nil, Text.joinWith, List.nil_append, eat_here (by decide), none]
    rfl
  | cons entry rest =>
    rw [list] at valid
    have size : entries.size = (entry :: rest).length := by rw [← list, Std.ExtTreeMap.length_toList]
    have starts : ∃ more, Text.joinWith ',' ((entry :: rest).map encodeEntry) = '"' :: more := by
      cases rest with
      | nil => exact ⟨_, rfl⟩
      | cons next rest => exact ⟨_, rfl⟩
    have read := @entriesFrom_list _ (List.cons_ne_nil entry rest) valid
      ((Text.joinWith ',' ((entry :: rest).map encodeEntry) ++ ['\x7d']).length + 1) ∅
      (by
        have := length_le_joinWith ',' ((entry :: rest).map encodeEntry)
        rw [List.length_map] at this
        rw [List.length_append]
        omega)
      (by rw [Std.ExtTreeMap.size_empty, Nat.zero_add, ← size]; exact kept.2) []
    obtain ⟨more, starts⟩ := starts
    rw [starts] at read ⊢
    rw [List.cons_append, eat_other (by decide) (by decide)]
    dsimp only
    rw [← List.cons_append, read, Option.bind_some]
    dsimp only
    rw [expect_here (by decide), Option.bind_some, ← Std.ExtTreeMap.ofList_eq_insertMany_empty, ← list, Map.ofList_toList]
    rfl

theorem kept_empty : Kept ∅ := by
  constructor
  · intro id profile found
    rw [Std.ExtTreeMap.getElem?_empty] at found
    cases found
  · exact Nat.zero_le _

theorem valid_insert {entries : Entries} (valid : ∀ id profile, entries[id]? = some profile → Valid (id, profile))
    {id : String} {profile : Profile} (new : Valid (id, profile)) (other : String) (found : Profile)
    (get : (entries.insert id profile)[other]? = some found) : Valid (other, found) := by
  rw [Map.get_insert] at get
  split at get
  · rename_i same
    subst same
    cases get
    exact new
  · exact valid other found get

theorem normalizeName_normal {value name : String} (normal : normalizeName value = some name) :
    normalizeName name = some name := by
  unfold normalizeName at normal ⊢
  dsimp only at normal ⊢
  split at normal
  · cases normal
  · rename_i fine
    cases normal
    rw [String.toList_ofList, Text.trim_trim, if_neg fine]

theorem kept_entriesFrom {rounds : Nat} {entries result : Entries} {text rest : Text} (kept : Kept entries)
    (read : entriesFrom rounds entries text = some (result, rest)) : Kept result := by
  induction rounds generalizing entries text with
  | zero => cases read
  | succ rounds ih =>
    rw [entriesFrom] at read
    simp only [Option.bind_eq_bind, Option.bind_eq_some_iff] at read
    obtain ⟨⟨clientId, text⟩, -, text, -, text, -, ⟨name, updatedMs, text⟩, -, text, -, read⟩ := read
    dsimp only at read
    split at read
    · cases read
    · rename_i free
      obtain ⟨valid, room⟩ := not_or.mp free
      simp only [Option.bind_eq_some_iff] at read
      obtain ⟨name, -, normal, normalized, updatedMs, -, read⟩ := read
      have next : Kept (entries.insert (String.ofList clientId) ⟨normal, updatedMs⟩) := by
        refine ⟨valid_insert kept.1 ⟨not_not.mp valid, normalizeName_normal normalized⟩, ?_⟩
        have size := Std.ExtTreeMap.size_insert_le (t := entries) (k := String.ofList clientId) (v := ⟨normal, updatedMs⟩)
        omega
      split at read
      · exact ih next read
      · cases read
        exact next

theorem kept_decode {bytes : Bytes} {entries : Entries} (read : decode bytes = some entries) : Kept entries := by
  unfold decode at read
  simp only [Option.bind_eq_bind, Option.bind_eq_some_iff] at read
  obtain ⟨text, -, text, -, read⟩ := read
  split at read
  · rw [Option.bind_some] at read
    obtain ⟨-, same⟩ := Option.ite_none_right_eq_some.mp read
    cases same
    exact kept_empty
  · simp only [Option.bind_eq_some_iff] at read
    obtain ⟨⟨found, text⟩, listed, text, -, ⟨found', text'⟩, same, last⟩ := read
    cases same
    obtain ⟨-, same⟩ := Option.ite_none_right_eq_some.mp last
    cases same
    exact kept_entriesFrom kept_empty listed

theorem kept_readEntries (file : Option Bytes) : Kept (readEntries file) := by
  unfold readEntries
  cases file with
  | none => exact kept_empty
  | some bytes =>
    dsimp only
    split
    · exact kept_empty
    · cases read : decode bytes with
      | none => exact kept_empty
      | some entries => exact kept_decode read

namespace ProfileStore

theorem foldl_older (list : List (String × Profile)) (entry : String × Profile) :
    ∃ found ∈ entry :: list, list.foldl older (some entry) = some found := by
  induction list generalizing entry with
  | nil => exact ⟨entry, List.mem_cons_self, rfl⟩
  | cons next list ih =>
    rw [List.foldl_cons, older]
    split
    · obtain ⟨found, mem, eq⟩ := ih next
      exact ⟨found, List.mem_cons_of_mem _ mem, eq⟩
    · obtain ⟨found, mem, eq⟩ := ih entry
      refine ⟨found, ?_, eq⟩
      rw [List.mem_cons] at mem ⊢
      exact mem.imp_right (List.mem_cons_of_mem _)

theorem oldest_mem {list : List (String × Profile)} {id : String} (found : oldest list = some id) :
    ∃ entry ∈ list, entry.1 = id := by
  unfold oldest at found
  cases list with
  | nil => cases found
  | cons entry list =>
    obtain ⟨best, mem, eq⟩ := foldl_older list entry
    rw [List.foldl_cons, older, eq, Option.map_some] at found
    exact ⟨best, mem, Option.some.inj found⟩

theorem oldest_eq_none {list : List (String × Profile)} (none : oldest list = none) : list = [] := by
  unfold oldest at none
  cases list with
  | nil => rfl
  | cons entry list =>
    obtain ⟨best, -, eq⟩ := foldl_older list entry
    rw [List.foldl_cons, older, eq] at none
    cases none

theorem exists_other {entries : Entries} (clientId : String) (several : 1 < entries.size) :
    entries.toList.filter (·.1 ≠ clientId) ≠ [] := by
  rw [← Std.ExtTreeMap.length_toList] at several
  intro none
  have own : ∀ entry ∈ entries.toList, entry.1 = clientId := by simpa using none
  match list : entries.toList with
  | [] => rw [list] at several; exact absurd several (by decide)
  | [entry] => rw [list] at several; exact absurd several (Nat.lt_irrefl 1)
  | first :: second :: rest =>
    have sorted := Map.toList_sorted entries
    rw [list] at own sorted
    have less := (List.pairwise_cons.mp sorted).1 second List.mem_cons_self
    rw [own first List.mem_cons_self, own second (List.mem_cons_of_mem _ List.mem_cons_self)] at less
    exact less.ne rfl

theorem size_evict {clientId : String} {rounds : Nat} {entries : Entries} (enough : entries.size ≤ maxProfiles + rounds) :
    (evict clientId rounds entries).size ≤ maxProfiles := by
  induction rounds generalizing entries with
  | zero => exact enough
  | succ rounds ih =>
    rw [evict]
    split
    · rename_i full
      split
      · rename_i id found
        obtain ⟨entry, mem, rfl⟩ := oldest_mem found
        have present : entries.contains entry.1 = true :=
          (Map.contains_iff_get _ _).mpr ⟨entry.2, Map.mem_toList.mp (List.mem_of_mem_filter mem)⟩
        apply ih
        rw [Std.ExtTreeMap.size_erase, if_pos present]
        omega
      · rename_i none
        exact absurd (oldest_eq_none none) (exists_other clientId (Nat.lt_of_le_of_lt (by decide) full))
    · rename_i fits
      exact Nat.not_lt.mp fits

theorem get_evict {clientId : String} {rounds : Nat} {entries : Entries} {id : String} {profile : Profile}
    (found : (evict clientId rounds entries)[id]? = some profile) : entries[id]? = some profile := by
  induction rounds generalizing entries with
  | zero => exact found
  | succ rounds ih =>
    rw [evict] at found
    split at found
    · split at found
      · have before := ih found
        rw [Map.get_erase] at before
        split at before
        · cases before
        · exact before
      · exact found
    · exact found

theorem get_evict_self (clientId : String) (rounds : Nat) (entries : Entries) :
    (evict clientId rounds entries)[clientId]? = entries[clientId]? := by
  induction rounds generalizing entries with
  | zero => rfl
  | succ rounds ih =>
    rw [evict]
    split
    · split
      · rename_i id found
        obtain ⟨entry, mem, rfl⟩ := oldest_mem found
        have other : entry.1 ≠ clientId := by simpa using List.of_mem_filter mem
        rw [ih, Map.get_erase_ne _ other]
      · rfl
    · rfl

theorem kept_put {entries : Entries} (kept : Kept entries) {clientId : String} {profile : Profile}
    (valid : Valid (clientId, profile)) :
    Kept (evict clientId (entries.insert clientId profile).size (entries.insert clientId profile)) := by
  constructor
  · intro id found get
    exact valid_insert kept.1 valid id found (get_evict get)
  · exact size_evict (Nat.le_add_left _ _)

end ProfileStore

/-- Reading the file back gives what is in memory. -/
def Agrees (store : ProfileStore) : Prop := readEntries store.file = store.entries

theorem readEntries_encode {entries : Entries} (kept : Kept entries)
    (small : ¬maxStoreBytes < (utf8 (String.ofList (encode entries))).length) :
    readEntries (some (utf8 (String.ofList (encode entries)))) = entries := by
  have starts : (utf8 (String.ofList (encode entries))).length ≠ 0 := by
    intro none
    have read := decode_encode kept
    rw [List.length_eq_zero_iff.mp none] at read
    cases read
  unfold readEntries
  dsimp only
  rw [if_neg (not_or.mpr ⟨starts, small⟩), decode_encode kept, Option.getD_some]

theorem agrees_put {store : ProfileStore} (kept : Kept store.entries) (agrees : Agrees store) {clientId name : String}
    {now : UInt64} {written : Written} (valid : Valid (clientId, ⟨name, now⟩))
    (settled : (store.put clientId name now written).1 = .ok () ∨ ∀ reason, written ≠ .late reason) :
    Agrees (store.put clientId name now written).2 := by
  unfold ProfileStore.put at settled ⊢
  dsimp only at settled ⊢
  split
  · exact agrees
  · rename_i small
    rw [if_neg small] at settled
    cases written with
    | done => exact readEntries_encode (ProfileStore.kept_put kept valid) small
    | refused reason => exact agrees
    | late reason =>
      obtain accepted | other := settled
      · cases accepted
      · exact absurd rfl (other reason)

theorem entries_put {store : ProfileStore} (kept : Kept store.entries) {clientId name : String} {now : UInt64}
    {written : Written} (valid : Valid (clientId, ⟨name, now⟩)) : Kept (store.put clientId name now written).2.entries := by
  unfold ProfileStore.put
  dsimp only
  split
  · exact kept
  · cases written with
    | done => exact ProfileStore.kept_put kept valid
    | refused reason => exact kept
    | late reason => exact kept

theorem answer_put {store after : ProfileStore} {clientId nameB64 : Text} {now : UInt64} {written : Written} {reply : Text}
    (handled : handlePut store clientId nameB64 now written = (reply, after)) :
    (after = store ∧ reply ≠ "OK".toList) ∨
      ∃ bytes text name, decodeBase64 nameB64 = some bytes ∧ String.fromUTF8? ⟨bytes.toArray⟩ = some text ∧
        normalizeName text = some name ∧ Valid (String.ofList clientId, ⟨name, now⟩) ∧
        after = (store.put (String.ofList clientId) name now written).2 ∧
        (reply = "OK".toList → (store.put (String.ofList clientId) name now written).1 = .ok ()) := by
  unfold handlePut at handled
  split at handled
  · cases handled
    exact .inl ⟨rfl, by simp⟩
  · rename_i clientIdValid
    split at handled
    · cases handled
      exact .inl ⟨rfl, by simp⟩
    · rename_i name normal
      obtain ⟨text, read, normal⟩ := Option.bind_eq_some_iff.mp normal
      obtain ⟨bytes, decoded, read⟩ := Option.bind_eq_some_iff.mp read
      have valid : Valid (String.ofList clientId, ⟨name, now⟩) := ⟨not_not.mp clientIdValid, normalizeName_normal normal⟩
      refine .inr ⟨bytes, text, name, decoded, read, normal, valid, ?_⟩
      split at handled
      · rename_i reason other put
        cases handled
        rw [put]
        exact ⟨rfl, fun ok => by simp at ok⟩
      · rename_i other put
        cases handled
        rw [put]
        exact ⟨rfl, fun _ => rfl⟩

theorem handle_cases (store : ProfileStore) (request : Request) :
    (handle store request).2 = store ∨ ∃ id name, Valid (id, ⟨name, request.now⟩) ∧
      (handle store request).2 = (store.put id name request.now request.written).2 ∧
      ((handle store request).1 = "OK".toList → (store.put id name request.now request.written).1 = .ok ()) := by
  unfold handle
  split
  · exact .inl rfl
  · rename_i command words
    split
    · exact .inl rfl
    · split
      · split
        · rename_i clientId nameB64 rest
          obtain ⟨same, -⟩ | ⟨bytes, text, name, -, -, -, valid, eq, ok⟩ := answer_put (rfl : handlePut _ _ _ _ _ = _)
          · exact .inl same
          · exact .inr ⟨String.ofList clientId, name, valid, eq, ok⟩
        · exact .inl rfl
      · split
        · split <;> exact .inl rfl
        · exact .inl rfl

/-- The request was accepted, or at least did not fail after the file was replaced. -/
def Settled (store : ProfileStore) (request : Request) : Prop :=
  (handle store request).1 = "OK".toList ∨ ∀ reason, request.written ≠ .late reason

theorem agrees_handle {store : ProfileStore} (kept : Kept store.entries) (agrees : Agrees store) {request : Request}
    (settled : Settled store request) :
    Kept (handle store request).2.entries ∧ Agrees (handle store request).2 := by
  obtain same | ⟨id, name, valid, after, ok⟩ := handle_cases store request
  · rw [same]
    exact ⟨kept, agrees⟩
  · rw [after]
    exact ⟨entries_put kept valid, agrees_put kept agrees valid (settled.imp_left ok)⟩

theorem agrees_run {file : Option Bytes} {requests : List Request}
    (settled : machine.Along Settled requests (ProfileStore.open file)) :
    machine.Throughout Agrees requests (ProfileStore.open file) := by
  have start : Kept (ProfileStore.open file).entries ∧ Agrees (ProfileStore.open file) := ⟨kept_readEntries file, rfl⟩
  have kept : machine.Throughout (fun store => Kept store.entries ∧ Agrees store) requests (ProfileStore.open file) :=
    machine.throughout_of_step (fun _ _ here settled => agrees_handle here.1 here.2 settled) requests _ start settled
  exact kept.mono fun _ here => here.2

theorem accepted_put {store : ProfileStore} {clientId name : String} {now : UInt64} {written : Written}
    (accepted : (store.put clientId name now written).1 = .ok ()) :
    (store.put clientId name now written).2.entries = ProfileStore.evict clientId
      (store.entries.insert clientId ⟨name, now⟩).size (store.entries.insert clientId ⟨name, now⟩) := by
  unfold ProfileStore.put at accepted ⊢
  dsimp only at accepted ⊢
  split at accepted
  · cases accepted
  · rename_i small
    rw [if_neg small]
    cases written with
    | done => rfl
    | refused reason => cases accepted
    | late reason => cases accepted

theorem get_put {store : ProfileStore} {clientId name : String} {now : UInt64} {written : Written}
    (accepted : (store.put clientId name now written).1 = .ok ()) :
    (store.put clientId name now written).2.get clientId = some name := by
  unfold ProfileStore.get
  rw [accepted_put accepted, ProfileStore.get_evict_self, Map.get_insert, if_pos rfl]
  rfl

theorem other_put {store : ProfileStore} {clientId name : String} {now : UInt64} {written : Written}
    (accepted : (store.put clientId name now written).1 = .ok ()) {id : String} (other : id ≠ clientId) :
    (∀ profile, (store.put clientId name now written).2.entries[id]? = some profile → store.entries[id]? = some profile) ∧
    ((store.entries.insert clientId ⟨name, now⟩).size ≤ maxProfiles →
      (store.put clientId name now written).2.entries[id]? = store.entries[id]?) := by
  rw [accepted_put accepted]
  constructor
  · intro profile found
    have before := ProfileStore.get_evict found
    rwa [Map.get_insert_ne _ _ other.symm] at before
  · intro room
    have kept : ∀ rounds, ProfileStore.evict clientId rounds (store.entries.insert clientId ⟨name, now⟩) =
        store.entries.insert clientId ⟨name, now⟩ := by
      intro rounds
      cases rounds with
      | zero => rfl
      | succ rounds => exact if_neg (Nat.not_lt.mpr room)
    rw [kept, Map.get_insert_ne _ _ other.symm]

theorem profiles_survive (file : Option Bytes) (requests : List Request)
    (settled : machine.Along Settled requests (ProfileStore.open file)) :
    machine.Throughout (fun store => readEntries store.file = store.entries) requests (ProfileStore.open file) ∧
    (∀ (store after : ProfileStore) (clientId nameB64 : Text) (now : UInt64) (written : Written),
      handlePut store clientId nameB64 now written = ("OK".toList, after) →
      ∃ bytes text name, decodeBase64 nameB64 = some bytes ∧ String.fromUTF8? ⟨bytes.toArray⟩ = some text ∧
        normalizeName text = some name ∧ after.get (String.ofList clientId) = some name ∧
        ∀ id, id ≠ String.ofList clientId →
          (∀ profile, after.entries[id]? = some profile → store.entries[id]? = some profile) ∧
          ((store.entries.insert (String.ofList clientId) ⟨name, now⟩).size ≤ maxProfiles →
            after.entries[id]? = store.entries[id]?)) ∧
    ∀ (value : Text) (bytes : List UInt8),
      decodeBase64 value = some bytes ↔ bytes ≠ [] ∧ value = encodeBase64 bytes := by
  refine ⟨agrees_run settled, ?_, fun _ _ => decodeBase64_eq_some⟩
  intro store after clientId nameB64 now written handled
  obtain ⟨-, refused⟩ | ⟨bytes, text, name, decoded, read, normal, -, eq, ok⟩ := answer_put handled
  · exact absurd rfl refused
  · refine ⟨bytes, text, name, decoded, read, normal, ?_, fun id other => ?_⟩
    · rw [eq, get_put (ok rfl)]
    · rw [eq]
      exact other_put (ok rfl) other

private def annId : Text := "0123456789abcdef0123456789abcdef".toList

private def putAnn : Request := ⟨"PROFILE_PUT ".toList ++ annId ++ " IlwiIMOp".toList, 7, .done⟩

/-- A name with quotes, a backslash and an accent; the same request comes twice. -/
theorem profiles_survive_put :
    machine.Throughout (fun store => readEntries store.file = store.entries) [putAnn, putAnn] (ProfileStore.open none) ∧
    (handle (ProfileStore.open none) putAnn).1 = "OK".toList ∧
    (handle (ProfileStore.open none) putAnn).2.get (String.ofList annId) = some "\"\\\" é" := by
  have accepted : (handle (ProfileStore.open none) putAnn).1 = "OK".toList := by decide +kernel
  have put : handle (ProfileStore.open none) putAnn =
      handlePut (ProfileStore.open none) annId "IlwiIMOp".toList 7 .done := by
    have words : Text.splitWhitespace putAnn.line = ["PROFILE_PUT".toList, annId, "IlwiIMOp".toList] := by decide +kernel
    unfold handle
    rw [words]
    rfl
  obtain ⟨agree, named, -⟩ := profiles_survive none [putAnn, putAnn]
    ⟨.inr fun _ => Written.noConfusion, .inr fun _ => Written.noConfusion, trivial⟩
  have answered : handlePut (ProfileStore.open none) annId "IlwiIMOp".toList 7 .done =
      ("OK".toList, (handle (ProfileStore.open none) putAnn).2) := by
    rw [← put, ← accepted]
  obtain ⟨bytes, text, name, decoded, read, normal, found, -⟩ := named _ _ _ _ _ _ answered
  have spelled : ((decodeBase64 "IlwiIMOp".toList).bind fun bytes => String.fromUTF8? ⟨bytes.toArray⟩).bind normalizeName =
      some "\"\\\" é" := by decide +kernel
  rw [decoded, Option.bind_some, read, Option.bind_some, normal] at spelled
  exact ⟨agree, accepted, found.trans spelled⟩

end QuantumFs.Net.Profiles
