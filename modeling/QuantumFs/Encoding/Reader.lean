import QuantumFs.Lib.Parsing
import QuantumFs.Ids

/-! The cursor of `encoding.rs`: fixed-width big-endian integers, raw arrays and
fields with a four-byte length. The state of a reader is what is left to read;
the offset of the source cannot overflow, since a length field has 32 bits. -/
namespace QuantumFs.Encoding

open Lib

def u32Max : Nat := 2 ^ 32 - 1

def pushLength (length : Nat) : Result Bytes :=
  if length ≤ u32Max then .ok (toBE 4 length)
  else .error (.invalidInput "variable field exceeds u32 encoding limit")

def pushVariable (value : Bytes) : Result Bytes := do
  let length ← pushLength value.length
  pure (length ++ value)

/-- A count, then every element. -/
def encodeSection {α : Type} (encode : α → Result Bytes) (elements : List α) : Result Bytes := do
  let count ← pushLength elements.length
  let parts ← elements.mapM encode
  pure (count ++ parts.flatten)

/-- Elements in ascending order of their keys; an order broken is an error. -/
def encodeAscending {α κ : Type} [LT κ] [DecidableRel (α := κ) (· < ·)] (key : α → κ)
    (disorder : Error) (encode : α → Result Bytes) : (previous : Option κ) → List α → Result Bytes
  | _, [] => pure []
  | previous, x :: rest => do
      ensure (∀ before ∈ previous, before < key x) disorder
      let encoded ← encode x
      let rest ← encodeAscending key disorder encode (some (key x)) rest
      pure (encoded ++ rest)

def localFormatVersion : UInt8 := 1

namespace Reader

def take (length : Nat) : Action Error Bytes Bytes := fun bytes =>
  if length ≤ bytes.length then (.ok (bytes.take length), bytes.drop length)
  else (.error (.invalidInput "truncated local encoding"), bytes)

def readId : Action Error Bytes (Fin (2 ^ 256)) := do
  let bytes ← take 32
  pure (Fin.ofNat (2 ^ 256) (ofBE bytes))

def byte : Action Error Bytes UInt8 := do
  let bytes ← take 1
  pure (bytes.headD 0)

def u32 : Action Error Bytes Nat := do
  let bytes ← take 4
  pure (ofBE bytes)

def u64 : Action Error Bytes Nat := do
  let bytes ← take 8
  pure (ofBE bytes)

def readVariable : Action Error Bytes Bytes := do
  let length ← u32
  take length

def count (minimumRecordSize : Nat) : Action Error Bytes Nat := do
  let count ← u32
  let rest ← Action.get
  Action.require (count ≤ rest.length / minimumRecordSize)
    (.invalidInput "invalid local encoding record count")
  pure count

def finish : Action Error Bytes Unit := do
  let rest ← Action.get
  Action.require (rest = []) (.invalidInput "trailing local encoding bytes")

def times {α : Type} (read : Action Error Bytes α) : Nat → Action Error Bytes (List α)
  | 0 => pure []
  | n + 1 => do
      let x ← read
      let xs ← times read n
      pure (x :: xs)

/-- The loop over a counted section; each element is read in sight of those before it. -/
def readSection {α : Type} (minimumRecordSize : Nat) (read : List α → Action Error Bytes α) :
    Action Error Bytes (List α) := do
  let count ← count minimumRecordSize
  collect read [] count

def readCappedSection {α : Type} (minimumRecordSize cap : Nat) (exceeded : Error)
    (read : List α → Action Error Bytes α) : Action Error Bytes (List α) := do
  let count ← count minimumRecordSize
  Action.require (count ≤ cap) exceeded
  collect read [] count

def readEmbedded {α : Type} (decode : Bytes → Result α) : Action Error Bytes α := do
  let bytes ← readVariable
  Action.ofExcept (decode bytes)

def requirePrefix (magic : Bytes) : Action Error Bytes Unit := do
  let found ← take magic.length
  Action.require (found = magic) (.invalidInput "invalid local encoding magic")

def requireVersion : Action Error Bytes Unit := do
  let found ← take 1
  Action.require (found = [localFormatVersion])
    (.invalidInput "unsupported local encoding version")

end Reader

/-- The order check of a canonical section: the key is above the one before it. -/
def Follows {α κ : Type} [LT κ] (key : α → κ) (done : List α) (next : κ) : Prop :=
  ∀ before ∈ done.getLast?, key before < next

instance {α κ : Type} [LT κ] [DecidableRel (α := κ) (· < ·)] (key : α → κ) (done : List α)
    (next : κ) : Decidable (Follows key done next) :=
  inferInstanceAs (Decidable (∀ before ∈ done.getLast?, key before < next))

theorem follows_of_sorted {α κ : Type} [LT κ] {key : α → κ} {before after : List α} {x : α}
    (sorted : (before ++ x :: after).Pairwise fun a b => key a < key b) :
    Follows key before (key x) := by
  intro last found
  have mem := List.mem_of_mem_getLast? found
  exact (List.pairwise_append.mp sorted).2.2 last mem x List.mem_cons_self

theorem encodeAscending_eq_ok {α κ : Type} [Preorder κ] [DecidableRel (α := κ) (· < ·)]
    {key : α → κ} {disorder : Error} {encode : α → Result Bytes} :
    ∀ {elements : List α} {previous : Option κ} {out : Bytes},
      encodeAscending key disorder encode previous elements = .ok out →
      (∀ x ∈ elements, ∀ before ∈ previous, before < key x) ∧
      (elements.Pairwise fun a b => key a < key b) ∧
      ∃ parts, List.Forall₂ (fun x part => encode x = .ok part) elements parts ∧
        out = parts.flatten := by
  intro elements
  induction elements with
  | nil =>
    intro previous out written
    cases written
    exact ⟨nofun, .nil, [], .nil, rfl⟩
  | cons x elements ih =>
    intro previous out written
    unfold encodeAscending at written
    obtain ⟨_, ordered, written⟩ := Result.bind_eq_ok.mp written
    obtain ⟨part, encoded, written⟩ := Result.bind_eq_ok.mp written
    obtain ⟨_, others, done⟩ := Result.bind_eq_ok.mp written
    cases done
    obtain ⟨above, sorted, parts, pairs, rfl⟩ := ih others
    have first : ∀ y ∈ elements, key x < key y := fun y mem => above y mem (key x) rfl
    have ordered := ensure_eq_ok.mp ordered
    refine ⟨?_, List.pairwise_cons.mpr ⟨first, sorted⟩, part :: parts, .cons encoded pairs, rfl⟩
    intro y mem before found
    obtain rfl | later := List.mem_cons.mp mem
    · exact ordered before found
    · exact (ordered before found).trans (first y later)

theorem pushLength_eq_ok {length : Nat} {out : Bytes} :
    pushLength length = .ok out ↔ length ≤ u32Max ∧ out = toBE 4 length := by
  unfold pushLength
  split
  · rename_i h
    simp [h, eq_comm]
  · rename_i h
    simp [h]

theorem pushVariable_eq_ok {value out : Bytes} :
    pushVariable value = .ok out ↔ value.length ≤ u32Max ∧ out = toBE 4 value.length ++ value := by
  simp only [pushVariable, Result.bind_eq_ok, pushLength_eq_ok, pure, Except.pure,
    Except.ok.injEq]
  constructor
  · rintro ⟨_, ⟨small, rfl⟩, rfl⟩
    exact ⟨small, rfl⟩
  · rintro ⟨small, rfl⟩
    exact ⟨_, ⟨small, rfl⟩, rfl⟩

theorem encodeSection_eq_ok {α : Type} {encode : α → Result Bytes} {elements : List α}
    {out : Bytes} : encodeSection encode elements = .ok out ↔ elements.length ≤ u32Max ∧
      ∃ parts, List.Forall₂ (fun x part => encode x = .ok part) elements parts ∧
        out = toBE 4 elements.length ++ parts.flatten := by
  simp only [encodeSection, Result.bind_eq_ok, pushLength_eq_ok, Result.mapM_eq_ok, pure,
    Except.pure, Except.ok.injEq]
  constructor
  · rintro ⟨_, ⟨small, rfl⟩, parts, each, rfl⟩
    exact ⟨small, parts, each, rfl⟩
  · rintro ⟨small, parts, each, rfl⟩
    exact ⟨_, ⟨small, rfl⟩, parts, each, rfl⟩

namespace Reader

variable {α : Type} {y : α} {back : Bytes}

theorem reads_take {bytes : Bytes} {length : Nat} (h : bytes.length = length) :
    Reads (take length) bytes bytes := by
  subst h
  intro rest
  simp [take]

theorem reads_number {width value : Nat} (small : value < 256 ^ width) :
    Reads (take width >>= fun bytes => pure (ofBE bytes)) (toBE width value) value := by
  have read := Reads.map (reads_take (length_toBE width value)) ofBE
  rwa [ofBE_toBE small] at read

theorem reads_u64 {value : Nat} (small : value ≤ u64Max) : Reads u64 (toBE 8 value) value := by
  apply reads_number
  unfold u64Max at small
  omega

theorem reads_u32 {value : Nat} (small : value ≤ u32Max) : Reads u32 (toBE 4 value) value := by
  apply reads_number
  unfold u32Max at small
  omega

theorem ofNat_ofBE_idBytes (value : Fin (2 ^ 256)) :
    Fin.ofNat (2 ^ 256) (ofBE (idBytes value)) = value := by
  have small : value.val < 256 ^ 32 := by
    have := value.isLt
    omega
  apply Fin.ext
  rw [Fin.val_ofNat, idBytes, ofBE_toBE small]
  exact Nat.mod_eq_of_lt value.isLt

theorem reads_id (value : Fin (2 ^ 256)) : Reads readId (idBytes value) value := by
  have read := Reads.map (reads_take (length_idBytes value))
    fun bytes => Fin.ofNat (2 ^ 256) (ofBE bytes)
  rwa [ofNat_ofBE_idBytes] at read

theorem reads_byte (value : UInt8) : Reads byte [value] value :=
  Reads.map (@reads_take [value] 1 rfl) fun bytes => bytes.headD 0

theorem reads_tag {next : UInt8 → Action Error Bytes α} (value : UInt8)
    (rest : Reads (next value) back y) : Reads (byte >>= next) (value :: back) y :=
  Reads.bind (reads_byte value) rest

theorem readsAll_tag {next : UInt8 → Action Error Bytes α} (value : UInt8)
    (rest : ReadsAll (next value) back y) : ReadsAll (byte >>= next) (value :: back) y :=
  ReadsAll.bind (reads_byte value) rest

theorem readsAll_finish : ReadsAll finish [] () := rfl

theorem readsAll_finished {read : Action Error Bytes α} {out : Bytes} (h : ReadsAll read out y) :
    ReadsAll (do
      let x ← read
      finish
      pure x) out y :=
  ReadsAll.then_nil h (ReadsAll.then_nil readsAll_finish (ReadsAll.pure y))

theorem reads_variable {value out : Bytes} (written : pushVariable value = .ok out) :
    Reads readVariable out value := by
  obtain ⟨small, same⟩ := pushVariable_eq_ok.mp written
  have length := reads_u32 small
  have content : Reads (take value.length) value value := reads_take rfl
  rw [same]
  exact Reads.bind length content

theorem count_append {value width : Nat} (small : value ≤ u32Max) (positive : 0 < width)
    (room : value * width ≤ back.length) :
    count width (toBE 4 value ++ back) = (.ok value, back) := by
  have fits : value ≤ back.length / width := (Nat.le_div_iff_mul_le positive).mpr room
  have guard := (Action.require_eq_ok (value ≤ back.length / width)
    (Error.invalidInput "invalid local encoding record count") back back).mpr ⟨fits, rfl⟩
  rw [count, Action.bind_ok (reads_u32 small back), Action.bind_ok (Action.get_apply back),
    Action.bind_ok guard, Action.pure_apply]

theorem reads_count {next : Nat → Action Error Bytes α} {value width : Nat}
    (small : value ≤ u32Max) (positive : 0 < width) (room : value * width ≤ back.length)
    (rest : Reads (next value) back y) : Reads (count width >>= next) (toBE 4 value ++ back) y := by
  intro after
  have enough : value * width ≤ (back ++ after).length := by
    rw [List.length_append]
    omega
  rw [List.append_assoc, Action.bind_ok (count_append small positive enough)]
  exact rest after

theorem readsAll_count {next : Nat → Action Error Bytes α} {value width : Nat}
    (small : value ≤ u32Max) (positive : 0 < width) (room : value * width ≤ back.length)
    (rest : ReadsAll (next value) back y) :
    ReadsAll (count width >>= next) (toBE 4 value ++ back) y := by
  unfold ReadsAll
  rw [Action.bind_ok (count_append small positive room)]
  exact rest

theorem fails_count {next : Nat → Action Error Bytes α} {value width : Nat} {e : Error}
    (small : value ≤ u32Max) (positive : 0 < width) (room : value * width ≤ back.length)
    (fails : Fails (next value) back e) : Fails (count width >>= next) (toBE 4 value ++ back) e := by
  intro after
  have enough : value * width ≤ (back ++ after).length := by
    rw [List.length_append]
    omega
  rw [List.append_assoc, Action.bind_ok (count_append small positive enough)]
  exact fails after

theorem length_flatten_le {width : Nat} {parts : List Bytes}
    (wide : ∀ part ∈ parts, width ≤ part.length) : parts.length * width ≤ parts.flatten.length := by
  induction parts with
  | nil => simp
  | cons part parts ih =>
    have first := wide part List.mem_cons_self
    have rest := ih fun other mem => wide other (List.mem_cons_of_mem _ mem)
    rw [List.length_cons, List.flatten_cons, List.length_append, Nat.succ_mul]
    omega

theorem forall₂_wide {R : α → Bytes → Prop} {width : Nat} {elements : List α} {parts : List Bytes}
    (pairs : List.Forall₂ R elements parts)
    (wide : ∀ x ∈ elements, ∀ part, R x part → width ≤ part.length) :
    ∀ part ∈ parts, width ≤ part.length := by
  induction pairs with
  | nil => simp
  | @cons x part elements parts head tail ih =>
    intro other mem
    obtain rfl | later := List.mem_cons.mp mem
    · exact wide x List.mem_cons_self other head
    · exact ih (fun y yMem => wide y (List.mem_cons_of_mem _ yMem)) other later

section

variable {encode : α → Result Bytes} {read : List α → Action Error Bytes α} {elements : List α}
  {width : Nat}

theorem reads_parts {parts : List Bytes} (small : elements.length ≤ u32Max)
    (pairs : List.Forall₂ (fun x part => encode x = .ok part) elements parts)
    (positive : 0 < width)
    (wide : ∀ x ∈ elements, ∀ part, encode x = .ok part → width ≤ part.length)
    (each : ∀ before x after part, elements = before ++ x :: after → encode x = .ok part →
      Reads (read before) part x) :
    Reads (readSection width read) (toBE 4 elements.length ++ parts.flatten) elements := by
  have room : elements.length * width ≤ parts.flatten.length := by
    rw [pairs.length_eq]
    exact length_flatten_le (forall₂_wide pairs wide)
  unfold readSection
  exact reads_count small positive room (Reads.collect pairs each)

theorem reads_cappedParts {parts : List Bytes} {cap : Nat} {exceeded : Error}
    (small : elements.length ≤ u32Max)
    (pairs : List.Forall₂ (fun x part => encode x = .ok part) elements parts)
    (positive : 0 < width) (capped : elements.length ≤ cap)
    (wide : ∀ x ∈ elements, ∀ part, encode x = .ok part → width ≤ part.length)
    (each : ∀ before x after part, elements = before ++ x :: after → encode x = .ok part →
      Reads (read before) part x) :
    Reads (readCappedSection width cap exceeded read)
      (toBE 4 elements.length ++ parts.flatten) elements := by
  have room : elements.length * width ≤ parts.flatten.length := by
    rw [pairs.length_eq]
    exact length_flatten_le (forall₂_wide pairs wide)
  unfold readCappedSection
  exact reads_count small positive room (Reads.require capped (Reads.collect pairs each))

theorem reads_section {out : Bytes} (written : encodeSection encode elements = .ok out)
    (positive : 0 < width)
    (wide : ∀ x ∈ elements, ∀ part, encode x = .ok part → width ≤ part.length)
    (each : ∀ before x after part, elements = before ++ x :: after → encode x = .ok part →
      Reads (read before) part x) :
    Reads (readSection width read) out elements := by
  obtain ⟨small, parts, pairs, same⟩ := encodeSection_eq_ok.mp written
  rw [same]
  exact reads_parts small pairs positive wide each

end

theorem reads_embedded {x : α} {decode : Bytes → Result α} {content out : Bytes}
    (written : pushVariable content = .ok out) (decoded : decode content = .ok x) :
    Reads (readEmbedded decode) out x := by
  apply Reads.last (reads_variable written)
  intro rest
  exact Action.ofExcept_eq_ok.mpr ⟨decoded, rfl⟩

theorem fails_embedded {e : Error} {decode : Bytes → Result α} {content out : Bytes}
    (written : pushVariable content = .ok out) (refused : decode content = .error e) :
    Fails (readEmbedded decode) out e := by
  intro rest
  unfold readEmbedded
  rw [Action.bind_ok (reads_variable written rest), Action.ofExcept_apply]
  exact refused

theorem reads_times {read : Action Error Bytes α} {encode : α → Bytes}
    (h : ∀ x, Reads read (encode x) x) (xs : List α) :
    Reads (times read xs.length) (xs.map encode).flatten xs := by
  induction xs with
  | nil => exact Reads.pure []
  | cons x xs ih => exact Reads.bind (h x) (Reads.map ih (x :: ·))

theorem reads_prefix (magic : Bytes) : Reads (requirePrefix magic) magic () := by
  unfold requirePrefix
  apply Reads.last (reads_take rfl)
  intro rest
  exact (Action.require_eq_ok _ _ _ _).mpr ⟨rfl, rfl⟩

theorem reads_version : Reads requireVersion [localFormatVersion] () := by
  unfold requireVersion
  apply Reads.last (@reads_take [localFormatVersion] 1 rfl)
  intro rest
  exact (Action.require_eq_ok _ _ _ _).mpr ⟨rfl, rfl⟩

variable {bytes rest : Bytes}

theorem take_eq_ok {length : Nat} {taken : Bytes} :
    take length bytes = (.ok taken, rest) ↔ bytes = taken ++ rest ∧ taken.length = length := by
  constructor
  · intro read
    unfold take at read
    split at read
    · rename_i enough
      cases read
      exact ⟨(List.take_append_drop length bytes).symm, List.length_take_of_le enough⟩
    · cases read
  · rintro ⟨rfl, size⟩
    exact reads_take size rest

theorem number_eq_ok {width value : Nat} :
    (take width >>= fun bytes => pure (ofBE bytes)) bytes = (.ok value, rest) ↔
      bytes = toBE width value ++ rest ∧ value < 256 ^ width := by
  constructor
  · intro read
    obtain ⟨taken, _, first, done⟩ := Action.bind_eq_ok.mp read
    obtain ⟨rfl, size⟩ := take_eq_ok.mp first
    cases done
    have bound := ofBE_lt taken
    have back := toBE_ofBE taken
    rw [size] at bound back
    exact ⟨by rw [back], bound⟩
  · rintro ⟨rfl, small⟩
    exact reads_number small rest

theorem u64_eq_ok {value : Nat} :
    u64 bytes = (.ok value, rest) ↔ bytes = toBE 8 value ++ rest ∧ value ≤ u64Max := by
  have bound : value < 256 ^ 8 ↔ value ≤ u64Max := by
    unfold u64Max
    omega
  rw [← bound]
  exact number_eq_ok

theorem u32_eq_ok {value : Nat} :
    u32 bytes = (.ok value, rest) ↔ bytes = toBE 4 value ++ rest ∧ value ≤ u32Max := by
  have bound : value < 256 ^ 4 ↔ value ≤ u32Max := by
    unfold u32Max
    omega
  rw [← bound]
  exact number_eq_ok

theorem readId_eq_ok {value : Fin (2 ^ 256)} :
    readId bytes = (.ok value, rest) ↔ bytes = idBytes value ++ rest := by
  constructor
  · intro read
    obtain ⟨taken, _, first, done⟩ := Action.bind_eq_ok.mp read
    obtain ⟨rfl, size⟩ := take_eq_ok.mp first
    cases done
    have bound := ofBE_lt taken
    have back := toBE_ofBE taken
    rw [size] at bound back
    have small : ofBE taken < 2 ^ 256 := by omega
    rw [idBytes, Fin.val_ofNat, Nat.mod_eq_of_lt small, back]
  · rintro rfl
    exact reads_id value rest

theorem byte_eq_ok {value : UInt8} : byte bytes = (.ok value, rest) ↔ bytes = value :: rest := by
  constructor
  · intro read
    obtain ⟨taken, _, first, done⟩ := Action.bind_eq_ok.mp read
    obtain ⟨rfl, size⟩ := take_eq_ok.mp first
    obtain ⟨single, rfl⟩ := List.length_eq_one_iff.mp size
    cases done
    rfl
  · rintro rfl
    exact reads_byte value rest

theorem readVariable_eq_ok {value : Bytes} : readVariable bytes = (.ok value, rest) ↔
    ∃ out, pushVariable value = .ok out ∧ bytes = out ++ rest := by
  constructor
  · intro read
    obtain ⟨length, _, first, second⟩ := Action.bind_eq_ok.mp read
    obtain ⟨rfl, small⟩ := u32_eq_ok.mp first
    obtain ⟨rfl, rfl⟩ := take_eq_ok.mp second
    exact ⟨_, pushVariable_eq_ok.mpr ⟨small, rfl⟩, (List.append_assoc _ _ _).symm⟩
  · rintro ⟨out, written, rfl⟩
    exact reads_variable written rest

theorem count_eq_ok {value width : Nat} (read : count width bytes = (.ok value, rest)) :
    bytes = toBE 4 value ++ rest ∧ value ≤ u32Max := by
  obtain ⟨found, _, first, second⟩ := Action.bind_eq_ok.mp read
  obtain ⟨left, _, got, third⟩ := Action.bind_eq_ok.mp second
  obtain ⟨_, _, checked, done⟩ := Action.bind_eq_ok.mp third
  obtain ⟨rfl, small⟩ := u32_eq_ok.mp first
  cases got
  obtain ⟨_, rfl⟩ := (Action.require_eq_ok _ _ _ _).mp checked
  cases done
  exact ⟨rfl, small⟩

theorem finish_eq_ok {u : Unit} : finish bytes = (.ok u, rest) ↔ bytes = [] ∧ rest = [] := by
  constructor
  · intro read
    obtain ⟨_, _, got, checked⟩ := Action.bind_eq_ok.mp read
    cases got
    obtain ⟨empty, rfl⟩ := (Action.require_eq_ok _ _ _ _).mp checked
    exact ⟨empty, empty⟩
  · rintro ⟨rfl, rfl⟩
    rfl

theorem times_eq_ok {read : Action Error Bytes α} {encode : α → Bytes}
    (h : ∀ {bytes rest x}, read bytes = (.ok x, rest) → bytes = encode x ++ rest) :
    ∀ {n : Nat} {bytes rest : Bytes} {xs : List α}, times read n bytes = (.ok xs, rest) →
      bytes = (xs.map encode).flatten ++ rest ∧ xs.length = n := by
  intro n
  induction n with
  | zero =>
    intro bytes rest xs read
    cases read
    exact ⟨rfl, rfl⟩
  | succ n ih =>
    intro bytes rest xs read
    obtain ⟨x, _, first, read⟩ := Action.bind_eq_ok.mp read
    obtain ⟨others, _, second, done⟩ := Action.bind_eq_ok.mp read
    cases done
    obtain ⟨rfl, size⟩ := ih second
    exact ⟨by rw [h first, List.map_cons, List.flatten_cons, List.append_assoc],
      by rw [List.length_cons, size]⟩

end Reader

end QuantumFs.Encoding
