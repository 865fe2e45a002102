import QuantumFs.Encoding.Wire

/-! Control records are canonical: the decoder takes back what the encoder wrote,
and accepts no other bytes. -/
namespace QuantumFs.Encoding

open Lib

theorem fin_ofNat_val {n : Nat} [NeZero n] (value : Fin n) : Fin.ofNat n value.val = value :=
  Fin.ext (Nat.mod_eq_of_lt value.isLt)

theorem u64_le (value : U64) : value.val ≤ u64Max := by
  have := value.isLt
  unfold u64Max
  omega

theorem toBE_fin_ofNat {value : Nat} (small : value ≤ u64Max) :
    toBE 8 (Fin.ofNat (2 ^ 64) value).val = toBE 8 value := by
  rw [Fin.val_ofNat, Nat.mod_eq_of_lt]
  unfold u64Max at small
  omega

theorem fromUTF8_utf8 (text : String) :
    String.fromUTF8? ⟨(utf8 text).toArray⟩ = some text := by
  unfold utf8 String.fromUTF8?
  have same : (⟨text.toByteArray.data.toList.toArray⟩ : ByteArray) = text.toByteArray := by simp
  rw [same, dif_pos text.isValidUTF8]
  rfl

theorem decodeUtf8Name_utf8 (name : String) : decodeUtf8Name (utf8 name) = .ok name := by
  unfold decodeUtf8Name
  rw [okOr_eq_ok, fromUTF8_utf8]

theorem reads_name {name : String} {out : Bytes} (written : pushVariable (utf8 name) = .ok out) :
    Reads readName out name := by
  apply Reads.last (Reader.reads_variable written)
  intro rest
  rw [decodeUtf8Name_utf8]
  rfl

theorem reads_directoryFlag (isDir : Bool) :
    Reads readDirectoryFlag [if isDir then 1 else 0] isDir := by
  cases isDir
  · exact Reader.reads_tag 0 (Reads.pure false)
  · exact Reader.reads_tag 1 (Reads.pure true)

theorem flatten_idBytes_length {α : Type} (val : α → Fin (2 ^ 256)) (xs : List α) :
    (xs.map fun x => idBytes (val x)).flatten.length = xs.length * 32 := by
  induction xs with
  | nil => rfl
  | cons x xs ih =>
    rw [List.map_cons, List.flatten_cons, List.length_append, ih, length_idBytes, List.length_cons]
    omega

theorem readsAll_manifestMessage {manifest : Manifest} {out : Bytes}
    (written : manifestM manifest = .ok out) :
    ReadsAll (readManifestMessage manifest.signature) out manifest := by
  simp only [manifestM, Result.bind_eq_ok, pushLength_eq_ok, pure, Except.pure,
    Except.ok.injEq] at written
  obtain ⟨_, ⟨small, rfl⟩, rfl⟩ := written
  have chunks : Reads (Reader.times Reader.readId manifest.chunkIds.length)
      (manifest.chunkIds.map fun chunkId => idBytes chunkId.val).flatten
      (manifest.chunkIds.map ChunkId.val) := by
    have read := Reader.reads_times Reader.reads_id (manifest.chunkIds.map ChunkId.val)
    rwa [List.length_map, List.map_map] at read
  have ids : (manifest.chunkIds.map ChunkId.val).map ChunkId.mk = manifest.chunkIds := by
    rw [List.map_map]
    exact List.map_id _
  have built : ({
      fileId := ⟨manifest.fileId.val⟩
      chunkIds := (manifest.chunkIds.map ChunkId.val).map ChunkId.mk
      size := Fin.ofNat _ manifest.size.val
      writerId := ⟨manifest.writerId.val⟩
      version := Fin.ofNat _ manifest.version.val
      signature := manifest.signature } : Manifest) = manifest := by
    rw [ids, fin_ofNat_val, fin_ofNat_val]
  simp only [List.append_assoc]
  unfold readManifestMessage
  apply ReadsAll.bind (Reader.reads_id _)
  apply ReadsAll.bind (Reader.reads_u64 (u64_le manifest.version))
  apply ReadsAll.bind (Reader.reads_u64 (u64_le manifest.size))
  apply ReadsAll.bind (Reader.reads_id _)
  apply Reader.readsAll_count small (by decide) (flatten_idBytes_length _ _).ge
  apply ReadsAll.then_nil chunks.all
  apply ReadsAll.then_nil Reader.readsAll_finish
  rw [built]
  exact ReadsAll.pure manifest

theorem decodeManifestMessage_manifestM {manifest : Manifest} {out : Bytes}
    (written : manifestM manifest = .ok out) :
    decodeManifestMessage out manifest.signature = .ok manifest :=
  (readsAll_manifestMessage written).result

theorem reads_controlUpdate {update : ControlUpdate} {out : Bytes}
    (written : encodeControlUpdate update = .ok out) : Reads readControlUpdate out update := by
  unfold readControlUpdate
  cases update with
  | newManifest manifest =>
    simp only [encodeControlUpdate, Result.bind_eq_ok, pure, Except.pure,
      Except.ok.injEq] at written
    obtain ⟨message, encoded, _, framed, _, signed, rfl⟩ := written
    apply Reader.reads_tag
    apply Reads.bind (Reader.reads_variable framed)
    apply Reads.last (Reader.reads_variable signed)
    exact Reads.ofExcept (decodeManifestMessage_manifestM encoded) (Reads.pure _)
  | add fileId =>
    cases written
    exact Reader.reads_tag 1 (Reads.map (Reader.reads_id fileId.val) _)
  | clear fileId =>
    cases written
    exact Reader.reads_tag 2 (Reads.map (Reader.reads_id fileId.val) _)
  | remove fileId =>
    cases written
    exact Reader.reads_tag 3 (Reads.map (Reader.reads_id fileId.val) _)
  | link parent name child isDir =>
    simp only [encodeControlUpdate, Result.bind_eq_ok, pure, Except.pure,
      Except.ok.injEq] at written
    obtain ⟨_, named, rfl⟩ := written
    simp only [List.append_assoc]
    apply Reader.reads_tag
    apply Reads.bind (Reader.reads_id parent.val)
    apply Reads.bind (reads_name named)
    apply Reads.bind (Reader.reads_id child.val)
    exact Reads.map (reads_directoryFlag isDir) _
  | unlink parent name =>
    simp only [encodeControlUpdate, Result.bind_eq_ok, pure, Except.pure,
      Except.ok.injEq] at written
    obtain ⟨_, named, rfl⟩ := written
    apply Reader.reads_tag
    apply Reads.bind (Reader.reads_id parent.val)
    exact Reads.map (reads_name named) _
  | rename srcParent srcName dstParent dstName =>
    simp only [encodeControlUpdate, Result.bind_eq_ok, pure, Except.pure,
      Except.ok.injEq] at written
    obtain ⟨_, source, _, destination, rfl⟩ := written
    simp only [List.append_assoc]
    apply Reader.reads_tag
    apply Reads.bind (Reader.reads_id srcParent.val)
    apply Reads.bind (reads_name source)
    apply Reads.bind (Reader.reads_id dstParent.val)
    exact Reads.map (reads_name destination) _
  | kick target =>
    cases written
    exact Reader.reads_tag 7 (Reads.map (Reader.reads_id target.val) _)

theorem readsAll_controlRecord {record : ControlRecord} {out : Bytes} (small : record.id ≤ u64Max)
    (written : encodeControlRecord record = .ok out) : ReadsAll readControlRecord out record := by
  simp only [encodeControlRecord, Result.bind_eq_ok, pure, Except.pure, Except.ok.injEq] at written
  obtain ⟨_, update, rfl⟩ := written
  unfold readControlRecord
  apply ReadsAll.bind (Reader.reads_u64 small)
  apply ReadsAll.then_nil (reads_controlUpdate update).all
  exact ReadsAll.then_nil Reader.readsAll_finish (ReadsAll.pure record)

theorem decodeControlRecord_encode {record : ControlRecord} {out : Bytes}
    (small : record.id ≤ u64Max) (written : encodeControlRecord record = .ok out) :
    decodeControlRecord out = .ok record :=
  (readsAll_controlRecord small written).result

theorem utf8_of_decodeUtf8Name {bytes : Bytes} {name : String}
    (decoded : decodeUtf8Name bytes = .ok name) : utf8 name = bytes := by
  unfold decodeUtf8Name at decoded
  rw [okOr_eq_ok] at decoded
  unfold String.fromUTF8? at decoded
  split at decoded
  · cases decoded
    rfl
  · cases decoded

theorem readName_eq_ok {bytes rest : Bytes} {name : String}
    (read : readName bytes = (.ok name, rest)) :
    ∃ out, pushVariable (utf8 name) = .ok out ∧ bytes = out ++ rest := by
  obtain ⟨content, _, first, second⟩ := Action.bind_eq_ok.mp read
  obtain ⟨decoded, rfl⟩ := Action.ofExcept_eq_ok.mp second
  rw [utf8_of_decodeUtf8Name decoded]
  exact Reader.readVariable_eq_ok.mp first

theorem readDirectoryFlag_eq_ok {bytes rest : Bytes} {isDir : Bool}
    (read : readDirectoryFlag bytes = (.ok isDir, rest)) :
    bytes = [if isDir then 1 else 0] ++ rest := by
  obtain ⟨flag, _, first, second⟩ := Action.bind_eq_ok.mp read
  obtain rfl := Reader.byte_eq_ok.mp first
  split at second
  · cases second
    rfl
  · cases second
    rfl
  · cases second

theorem manifestM_of_decode {message signature : Bytes} {manifest : Manifest}
    (decoded : decodeManifestMessage message signature = .ok manifest) :
    manifestM manifest = .ok message ∧ manifest.signature = signature := by
  obtain ⟨rest, read⟩ : ∃ rest, readManifestMessage signature message = (.ok manifest, rest) :=
    ⟨_, Prod.ext decoded rfl⟩
  obtain ⟨fileId, _, first, read⟩ := Action.bind_eq_ok.mp read
  obtain ⟨version, _, second, read⟩ := Action.bind_eq_ok.mp read
  obtain ⟨size, _, third, read⟩ := Action.bind_eq_ok.mp read
  obtain ⟨writerId, _, fourth, read⟩ := Action.bind_eq_ok.mp read
  obtain ⟨count, _, fifth, read⟩ := Action.bind_eq_ok.mp read
  obtain ⟨chunkIds, _, sixth, read⟩ := Action.bind_eq_ok.mp read
  obtain ⟨_, _, ended, done⟩ := Action.bind_eq_ok.mp read
  cases done
  obtain rfl := Reader.readId_eq_ok.mp first
  obtain ⟨rfl, versionSmall⟩ := Reader.u64_eq_ok.mp second
  obtain ⟨rfl, sizeSmall⟩ := Reader.u64_eq_ok.mp third
  obtain rfl := Reader.readId_eq_ok.mp fourth
  obtain ⟨rfl, countSmall⟩ := Reader.count_eq_ok fifth
  obtain ⟨rfl, counted⟩ := Reader.times_eq_ok Reader.readId_eq_ok.mp sixth
  obtain ⟨rfl, -⟩ := Reader.finish_eq_ok.mp ended
  subst counted
  have ids : ((chunkIds.map ChunkId.mk).map fun chunkId => idBytes chunkId.val) =
      chunkIds.map idBytes := by
    rw [List.map_map]
    rfl
  refine ⟨?_, rfl⟩
  unfold manifestM
  rw [Result.bind_eq_ok, List.length_map]
  refine ⟨_, pushLength_eq_ok.mpr ⟨countSmall, rfl⟩, ?_⟩
  rw [toBE_fin_ofNat versionSmall, toBE_fin_ofNat sizeSmall, ids, List.append_nil]
  simp only [List.append_assoc]
  rfl

theorem encodeControlUpdate_of_read {bytes rest : Bytes} {update : ControlUpdate}
    (accepted : readControlUpdate bytes = (.ok update, rest)) :
    ∃ out, encodeControlUpdate update = .ok out ∧ bytes = out ++ rest := by
  obtain ⟨kind, _, tagged, read⟩ := Action.bind_eq_ok.mp accepted
  obtain rfl := Reader.byte_eq_ok.mp tagged
  split at read
  · obtain ⟨message, _, framed, read⟩ := Action.bind_eq_ok.mp read
    obtain ⟨signature, _, signed, read⟩ := Action.bind_eq_ok.mp read
    obtain ⟨manifest, _, decoded, done⟩ := Action.bind_eq_ok.mp read
    obtain ⟨first, encodedFirst, rfl⟩ := Reader.readVariable_eq_ok.mp framed
    obtain ⟨second, encodedSecond, rfl⟩ := Reader.readVariable_eq_ok.mp signed
    obtain ⟨parsed, rfl⟩ := Action.ofExcept_eq_ok.mp decoded
    cases done
    obtain ⟨encoded, rfl⟩ := manifestM_of_decode parsed
    refine ⟨0 :: (first ++ second), ?_, by simp⟩
    simp [encodeControlUpdate, encoded, encodedFirst, encodedSecond, bind, Except.bind, pure,
      Except.pure]
  · obtain ⟨fileId, _, first, done⟩ := Action.bind_eq_ok.mp read
    obtain rfl := Reader.readId_eq_ok.mp first
    cases done
    exact ⟨_, rfl, rfl⟩
  · obtain ⟨fileId, _, first, done⟩ := Action.bind_eq_ok.mp read
    obtain rfl := Reader.readId_eq_ok.mp first
    cases done
    exact ⟨_, rfl, rfl⟩
  · obtain ⟨fileId, _, first, done⟩ := Action.bind_eq_ok.mp read
    obtain rfl := Reader.readId_eq_ok.mp first
    cases done
    exact ⟨_, rfl, rfl⟩
  · obtain ⟨parent, _, first, read⟩ := Action.bind_eq_ok.mp read
    obtain ⟨name, _, second, read⟩ := Action.bind_eq_ok.mp read
    obtain ⟨child, _, third, read⟩ := Action.bind_eq_ok.mp read
    obtain ⟨isDir, _, fourth, done⟩ := Action.bind_eq_ok.mp read
    obtain rfl := Reader.readId_eq_ok.mp first
    obtain ⟨named, encoded, rfl⟩ := readName_eq_ok second
    obtain rfl := Reader.readId_eq_ok.mp third
    obtain rfl := readDirectoryFlag_eq_ok fourth
    cases done
    refine ⟨4 :: (idBytes parent ++ named ++ idBytes child ++ [if isDir then 1 else 0]), ?_,
      by simp⟩
    simp [encodeControlUpdate, encoded, bind, Except.bind, pure, Except.pure]
  · obtain ⟨parent, _, first, read⟩ := Action.bind_eq_ok.mp read
    obtain ⟨name, _, second, done⟩ := Action.bind_eq_ok.mp read
    obtain rfl := Reader.readId_eq_ok.mp first
    obtain ⟨named, encoded, rfl⟩ := readName_eq_ok second
    cases done
    refine ⟨5 :: (idBytes parent ++ named), ?_, by simp⟩
    simp [encodeControlUpdate, encoded, bind, Except.bind, pure, Except.pure]
  · obtain ⟨srcParent, _, first, read⟩ := Action.bind_eq_ok.mp read
    obtain ⟨srcName, _, second, read⟩ := Action.bind_eq_ok.mp read
    obtain ⟨dstParent, _, third, read⟩ := Action.bind_eq_ok.mp read
    obtain ⟨dstName, _, fourth, done⟩ := Action.bind_eq_ok.mp read
    obtain rfl := Reader.readId_eq_ok.mp first
    obtain ⟨source, encodedSource, rfl⟩ := readName_eq_ok second
    obtain rfl := Reader.readId_eq_ok.mp third
    obtain ⟨destination, encodedDestination, rfl⟩ := readName_eq_ok fourth
    cases done
    refine ⟨6 :: (idBytes srcParent ++ source ++ idBytes dstParent ++ destination), ?_, by simp⟩
    simp [encodeControlUpdate, encodedSource, encodedDestination, bind, Except.bind, pure,
      Except.pure]
  · obtain ⟨target, _, first, done⟩ := Action.bind_eq_ok.mp read
    obtain rfl := Reader.readId_eq_ok.mp first
    cases done
    exact ⟨_, rfl, rfl⟩
  · cases read

theorem encodeControlRecord_of_decode {bytes : Bytes} {record : ControlRecord}
    (decoded : decodeControlRecord bytes = .ok record) :
    encodeControlRecord record = .ok bytes := by
  obtain ⟨rest, read⟩ : ∃ rest, readControlRecord bytes = (.ok record, rest) :=
    ⟨_, Prod.ext decoded rfl⟩
  obtain ⟨recordId, _, first, read⟩ := Action.bind_eq_ok.mp read
  obtain ⟨update, _, second, read⟩ := Action.bind_eq_ok.mp read
  obtain ⟨_, _, ended, done⟩ := Action.bind_eq_ok.mp read
  cases done
  obtain ⟨rfl, small⟩ := Reader.u64_eq_ok.mp first
  obtain ⟨out, encoded, rfl⟩ := encodeControlUpdate_of_read second
  obtain ⟨rfl, -⟩ := Reader.finish_eq_ok.mp ended
  unfold encodeControlRecord
  rw [Result.bind_eq_ok]
  exact ⟨out, encoded, by rw [List.append_nil]; rfl⟩

/-- The decoder inverts the encoder on every record it can be given, accepts only
what the encoder writes, and so accepts one encoding of a record. -/
theorem control_records_canonical :
    (∀ record out, record.id ≤ u64Max → encodeControlRecord record = .ok out →
      decodeControlRecord out = .ok record) ∧
    (∀ bytes record, decodeControlRecord bytes = .ok record →
      encodeControlRecord record = .ok bytes) ∧
    ∀ bytes other record, decodeControlRecord bytes = .ok record →
      decodeControlRecord other = .ok record → bytes = other := by
  refine ⟨fun record out small written => decodeControlRecord_encode small written,
    fun bytes record decoded => encodeControlRecord_of_decode decoded, ?_⟩
  intro bytes other record first second
  have same := encodeControlRecord_of_decode first
  rw [encodeControlRecord_of_decode second] at same
  exact (Except.ok.inj same).symm

theorem control_records_canonical_kick :
    decodeControlRecord (toBE 8 3 ++ 7 :: idBytes 5) = .ok { id := 3, update := .kick ⟨5⟩ } :=
  control_records_canonical.1 _ _ (by decide) rfl

end QuantumFs.Encoding
