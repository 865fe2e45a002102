import QuantumFs.Encoding.Reader
import QuantumFs.Net.Messages

/-! Frames on a byte stream (`net/frame.rs`). A stream can end at any byte; the
reader then hands out the frames that arrived whole. -/
namespace QuantumFs.Net

open Lib Encoding

def frameVersion : UInt8 := 1

/-- `validate_kind` -/
def validateKind (kind : Nat) : Result Unit :=
  ensure (Frame.minKind ≤ kind ∧ kind ≤ Frame.maxKind) (.invalidInput "unknown TCP frame type")

def readExact (length : Nat) : Action Error Bytes Bytes := fun bytes =>
  if length ≤ bytes.length then (.ok (bytes.take length), bytes.drop length) else (.error .io, [])

def readFrame : Action Error Bytes Frame := do
  let version ← readExact 1
  Action.require (version = [frameVersion]) (.invalidInput "unsupported TCP frame version")
  let length ← readExact 4
  Action.require (ofBE length ≠ 0) (.invalidInput "TCP frame body omits type")
  Action.require (ofBE length ≤ Frame.maxBodyLen) (.invalidInput "TCP frame body exceeds 1 MiB")
  let body ← readExact (ofBE length)
  let kind := (body.headD 0).toNat
  Action.ofExcept (validateKind kind)
  pure { kind, payload := body.tail }

/-- The bytes `write_frame` puts on the stream. -/
def writeFrame (frame : Frame) : Result Bytes := do
  validateKind frame.kind
  ensure (frame.payload.length + 1 ≤ u32Max)
    (.invalidInput "TCP frame body exceeds u32 encoding limit")
  ensure (frame.payload.length + 1 ≤ Frame.maxBodyLen) (.invalidInput "TCP frame body exceeds 1 MiB")
  pure (frameVersion :: (toBE 4 (frame.payload.length + 1) ++ UInt8.ofNat frame.kind :: frame.payload))

def writeFrames : List Frame → Result Bytes
  | [] => pure []
  | frame :: frames => do
    let first ← writeFrame frame
    let rest ← writeFrames frames
    pure (first ++ rest)

def readFrames : (fuel : Nat) → Bytes → List Frame × Error
  | 0, _ => ([], .io)
  | fuel + 1, bytes =>
    match readFrame bytes with
    | (.error error, _) => ([], error)
    | (.ok frame, rest) => (frame :: (readFrames fuel rest).1, (readFrames fuel rest).2)

/-- Every frame takes at least one byte, so this many rounds reach the end. -/
def received (bytes : Bytes) : List Frame × Error := readFrames (bytes.length + 1) bytes

theorem readExact_eq_ok {length : Nat} {bytes taken rest : Bytes} :
    readExact length bytes = (.ok taken, rest) ↔ bytes = taken ++ rest ∧ taken.length = length := by
  unfold readExact
  constructor
  · intro read
    split at read
    · rename_i enough
      cases read
      exact ⟨(List.take_append_drop length bytes).symm, List.length_take_of_le enough⟩
    · cases read
  · rintro ⟨rfl, rfl⟩
    rw [if_pos (by simp), List.take_left, List.drop_left]

theorem readExact_short {length : Nat} {bytes : Bytes} (short : bytes.length < length) :
    readExact length bytes = (.error .io, []) := if_neg (Nat.not_le_of_lt short)

theorem writeFrame_eq_ok {frame : Frame} {out : Bytes} : writeFrame frame = .ok out ↔
    (Frame.minKind ≤ frame.kind ∧ frame.kind ≤ Frame.maxKind) ∧
      frame.payload.length + 1 ≤ Frame.maxBodyLen ∧
      out = frameVersion :: (toBE 4 (frame.payload.length + 1) ++
        UInt8.ofNat frame.kind :: frame.payload) := by
  have fits : frame.payload.length + 1 ≤ Frame.maxBodyLen → frame.payload.length + 1 ≤ u32Max := by
    unfold Frame.maxBodyLen u32Max
    omega
  simp only [writeFrame, validateKind, Result.bind_eq_ok, ensure_eq_ok, pure, Except.pure,
    Except.ok.injEq, @eq_comm _ _ out]
  constructor
  · rintro ⟨_, kind, _, _, _, small, same⟩
    exact ⟨kind, small, same⟩
  · rintro ⟨kind, small, same⟩
    exact ⟨(), kind, (), fits small, (), small, same⟩

theorem ofBE_length {payload : Bytes} (small : payload.length + 1 ≤ Frame.maxBodyLen) :
    ofBE (toBE 4 (payload.length + 1)) = payload.length + 1 := by
  apply ofBE_toBE
  unfold Frame.maxBodyLen at small
  omega

theorem reads_frame {frame : Frame} {out : Bytes} (written : writeFrame frame = .ok out) :
    Reads readFrame out frame := by
  obtain ⟨kind, small, rfl⟩ := writeFrame_eq_ok.mp written
  have size := ofBE_length small
  have version : Reads (readExact 1) [frameVersion] [frameVersion] :=
    fun rest => readExact_eq_ok.mpr ⟨rfl, rfl⟩
  have length : Reads (readExact 4) (toBE 4 (frame.payload.length + 1))
      (toBE 4 (frame.payload.length + 1)) := fun rest => readExact_eq_ok.mpr ⟨rfl, length_toBE _ _⟩
  have body : Reads (readExact (frame.payload.length + 1)) (UInt8.ofNat frame.kind :: frame.payload)
      (UInt8.ofNat frame.kind :: frame.payload) := fun rest => readExact_eq_ok.mpr ⟨rfl, rfl⟩
  have byte : (UInt8.ofNat frame.kind).toNat = frame.kind := by
    have := kind.2
    unfold Frame.maxKind at this
    rw [UInt8.toNat_ofNat']
    omega
  unfold readFrame
  change Reads _ ([frameVersion] ++ _) _
  apply Reads.bind version
  apply Reads.require rfl
  apply Reads.bind length
  apply Reads.require (by rw [size]; omega)
  apply Reads.require (by rw [size]; exact small)
  rw [size]
  apply Reads.last body
  have known : validateKind ((UInt8.ofNat frame.kind :: frame.payload).headD 0).toNat = .ok () := by
    apply ensure_eq_ok.mpr
    change Frame.minKind ≤ (UInt8.ofNat frame.kind).toNat ∧ (UInt8.ofNat frame.kind).toNat ≤ Frame.maxKind
    rwa [byte]
  apply Reads.ofExcept known
  change Reads (pure ⟨(UInt8.ofNat frame.kind).toNat, frame.payload⟩) [] frame
  rw [byte]
  exact Reads.pure frame

theorem readFrame_short {frame : Frame} {out arrived missing : Bytes}
    (written : writeFrame frame = .ok out) (cut : out = arrived ++ missing) (lost : missing ≠ []) :
    readFrame arrived = (.error .io, []) := by
  obtain ⟨-, small, rfl⟩ := writeFrame_eq_ok.mp written
  have size := ofBE_length small
  have left := List.length_pos_iff.mpr lost
  cases arrived with
  | nil => exact Action.bind_error (readExact_short Nat.one_pos)
  | cons version rest =>
    rw [List.cons_append] at cut
    obtain ⟨rfl, same⟩ := List.cons.inj cut
    have version : readExact 1 (frameVersion :: rest) = (.ok [frameVersion], rest) :=
      readExact_eq_ok.mpr ⟨rfl, rfl⟩
    unfold readFrame
    rw [Action.bind_ok version, Action.bind_ok ((Action.require_eq_ok _ _ _ _).mpr ⟨rfl, rfl⟩)]
    by_cases short : rest.length < 4
    · exact Action.bind_error (readExact_short short)
    · obtain ⟨more, rfl, lengths⟩ : ∃ more, rest = toBE 4 (frame.payload.length + 1) ++ more ∧
          UInt8.ofNat frame.kind :: frame.payload = more ++ missing := by
        have long : (toBE 4 (frame.payload.length + 1)).length ≤ rest.length := by
          rw [length_toBE]
          omega
        obtain ⟨more, rfl⟩ := List.prefix_of_prefix_length_le (List.prefix_append _ _) ⟨missing, same.symm⟩ long
        rw [List.append_assoc] at same
        exact ⟨more, rfl, List.append_cancel_left same⟩
      have length : readExact 4 (toBE 4 (frame.payload.length + 1) ++ more) =
          (.ok (toBE 4 (frame.payload.length + 1)), more) :=
        readExact_eq_ok.mpr ⟨rfl, length_toBE _ _⟩
      have sizes := congrArg List.length lengths
      rw [List.length_cons, List.length_append] at sizes
      rw [Action.bind_ok length, size,
        Action.bind_ok ((Action.require_eq_ok _ _ _ _).mpr ⟨Nat.succ_ne_zero _, rfl⟩),
        Action.bind_ok ((Action.require_eq_ok _ _ _ _).mpr ⟨small, rfl⟩)]
      exact Action.bind_error (readExact_short (by omega))

theorem writeFrame_ne_nil {frame : Frame} {out : Bytes} (written : writeFrame frame = .ok out) :
    0 < out.length := by
  obtain ⟨-, -, rfl⟩ := writeFrame_eq_ok.mp written
  exact Nat.succ_pos _

theorem writeFrames_cons {frame : Frame} {frames : List Frame} {out : Bytes} :
    writeFrames (frame :: frames) = .ok out ↔ ∃ first rest, writeFrame frame = .ok first ∧
      writeFrames frames = .ok rest ∧ out = first ++ rest := by
  simp only [writeFrames, Result.bind_eq_ok, pure, Except.pure, Except.ok.injEq, @eq_comm _ _ out]
  constructor
  · rintro ⟨first, written, rest, others, same⟩
    exact ⟨first, rest, written, others, same⟩
  · rintro ⟨first, rest, written, others, same⟩
    exact ⟨first, written, rest, others, same⟩

/-- `count` of the frames arrived whole. -/
def Whole (frames : List Frame) (arrived : Bytes) (count : Nat) : Prop :=
  ∀ n ≤ frames.length, ∀ front, writeFrames (frames.take n) = .ok front →
    (n ≤ count ↔ front <+: arrived)

theorem Whole.none {frame : Frame} {frames : List Frame} {first arrived : Bytes}
    (written : writeFrame frame = .ok first) (short : arrived.length < first.length) :
    Whole (frame :: frames) arrived 0 := by
  intro n _ front wrote
  cases n with
  | zero =>
    cases wrote
    exact iff_of_true (le_refl 0) (List.nil_prefix)
  | succ n =>
    obtain ⟨first', rest, written', -, rfl⟩ := writeFrames_cons.mp wrote
    obtain rfl := Except.ok.inj (written.symm.trans written')
    refine iff_of_false (Nat.not_succ_le_zero n) fun isPrefix => ?_
    have := isPrefix.length_le
    rw [List.length_append] at this
    omega

theorem Whole.cons {frame : Frame} {frames : List Frame} {first arrived : Bytes} {count : Nat}
    (written : writeFrame frame = .ok first) (rest : Whole frames arrived count) :
    Whole (frame :: frames) (first ++ arrived) (count + 1) := by
  intro n bound front wrote
  cases n with
  | zero =>
    cases wrote
    exact iff_of_true (Nat.zero_le _) List.nil_prefix
  | succ n =>
    obtain ⟨first', others, written', wrote', rfl⟩ := writeFrames_cons.mp wrote
    obtain rfl := Except.ok.inj (written.symm.trans written')
    rw [List.prefix_append_right_inj, Nat.succ_le_succ_iff]
    exact rest n (Nat.le_of_succ_le_succ bound) others wrote'

theorem readFrames_cut {frames : List Frame} :
    ∀ {out arrived : Bytes} {fuel : Nat}, writeFrames frames = .ok out → arrived <+: out →
      arrived.length < fuel → ∃ count, readFrames fuel arrived = (frames.take count, .io) ∧
        count ≤ frames.length ∧ Whole frames arrived count := by
  induction frames with
  | nil =>
    intro out arrived fuel written cut enough
    cases written
    obtain rfl := List.prefix_nil.mp cut
    obtain ⟨fuel, rfl⟩ := Nat.exists_eq_add_one_of_ne_zero (Nat.ne_zero_of_lt enough)
    refine ⟨0, ?_, le_refl 0, fun n bound front wrote => ?_⟩
    · have ended : readFrame [] = (.error .io, []) := Action.bind_error (readExact_short Nat.one_pos)
      rw [readFrames, ended]
      rfl
    · obtain rfl := Nat.le_zero.mp bound
      cases wrote
      exact iff_of_true (le_refl 0) (List.prefix_refl _)
  | cons frame frames ih =>
    intro out arrived fuel written cut enough
    obtain ⟨fuel, rfl⟩ := Nat.exists_eq_add_one_of_ne_zero (Nat.ne_zero_of_lt enough)
    obtain ⟨first, rest, wrote, others, rfl⟩ := writeFrames_cons.mp written
    by_cases short : arrived.length < first.length
    · obtain ⟨missing, same⟩ := List.prefix_of_prefix_length_le cut (List.prefix_append _ _) short.le
      have lost : missing ≠ [] := by
        rintro rfl
        rw [List.append_nil] at same
        exact absurd short (same ▸ lt_irrefl _)
      refine ⟨0, ?_, Nat.zero_le _, .none wrote short⟩
      rw [readFrames, readFrame_short wrote same.symm lost]
      rfl
    · obtain ⟨after, rfl⟩ :=
        List.prefix_of_prefix_length_le (List.prefix_append first rest) cut (Nat.le_of_not_lt short)
      rw [List.prefix_append_right_inj] at cut
      have long := writeFrame_ne_nil wrote
      rw [List.length_append] at enough
      obtain ⟨count, read, bound, whole⟩ := ih others cut (show after.length < fuel by omega)
      refine ⟨count + 1, ?_, Nat.succ_le_succ bound, whole.cons wrote⟩
      rw [readFrames, reads_frame wrote after]
      dsimp only
      rw [read]
      rfl

/-- Whatever is sent, a stream that is cut at any byte hands out, in order, just the
frames that arrived whole; a stream that is not cut hands out all of them. -/
theorem cut_stream {frames : List Frame} {out : Bytes} (written : writeFrames frames = .ok out) :
    received out = (frames, .io) ∧ ∀ arrived, arrived <+: out →
      ∃ count, received arrived = (frames.take count, .io) ∧ Whole frames arrived count := by
  have cut : ∀ arrived, arrived <+: out → ∃ count,
      received arrived = (frames.take count, .io) ∧ count ≤ frames.length ∧ Whole frames arrived count :=
    fun arrived isPrefix => readFrames_cut written isPrefix (Nat.lt_succ_self _)
  refine ⟨?_, fun arrived isPrefix => ?_⟩
  · obtain ⟨count, read, bound, whole⟩ := cut out (List.prefix_refl _)
    have all := (whole frames.length (le_refl _) out (by rwa [List.take_length])).mpr (List.prefix_refl _)
    rw [read, le_antisymm bound all, List.take_length]
  · obtain ⟨count, read, _, whole⟩ := cut arrived isPrefix
    exact ⟨count, read, whole⟩

theorem cut_stream_heartbeats : received
    [1, 0, 0, 0, 2, 14, 7, 1, 0, 0, 0, 1, 13] = ([⟨14, [7]⟩, ⟨13, []⟩], .io) ∧
    ∀ arrived, arrived <+: [1, 0, 0, 0, 2, 14, 7, 1, 0, 0, 0, 1, 13] → ∃ count,
      received arrived = (([⟨14, [7]⟩, ⟨13, []⟩] : List Frame).take count, .io) ∧
        Whole [⟨14, [7]⟩, ⟨13, []⟩] arrived count :=
  @cut_stream [⟨14, [7]⟩, ⟨13, []⟩] _ (by decide)

end QuantumFs.Net
