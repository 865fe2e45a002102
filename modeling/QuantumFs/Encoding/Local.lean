import QuantumFs.Crypto.KeyStore
import QuantumFs.Encoding.Replica
import QuantumFs.Encoding.RoundTrip

/-! The local files of `encoding.rs`: the admission record of a vault and its
transaction, the pair state of a keystore and the state of a directory. Each
ends in sections that older files do not have. -/
namespace QuantumFs.Encoding

open Lib Net Crypto

def readVaultMember (done : List PeerId) : Action Error Bytes PeerId := do
  let member ← Reader.readId
  Action.require ((⟨member⟩ : PeerId) ∉ done) (.invalidInput "duplicate vault member")
  pure ⟨member⟩

def readVaultExtension : Action Error Bytes (OrdSet PeerId) := do
  let version ← Reader.byte
  Action.require (version = 1) (.invalidInput "unsupported vault metadata extension version")
  let denied ← Reader.readSection 32
    (readPeerId (.invalidInput "vault denylist is not canonical"))
  Reader.finish
  pure (OrdSet.ofList denied)

def readVaultMetadata : Action Error Bytes VaultMetadata := do
  Reader.requirePrefix (ascii "qfs/local/vault/")
  Reader.requireVersion
  let vaultId ← Reader.readId
  let joinCode ← readJoinCode
  let issuedAt ← Reader.u64
  let members ← Reader.readSection 32 readVaultMember
  let denied ← readExtension ∅ readVaultExtension
  Reader.finish
  pure { vaultId := ⟨vaultId⟩, joinCode, issuedAt, members, denied }

def decodeVaultMetadata (bytes : Bytes) : Result VaultMetadata := (readVaultMetadata bytes).1

def maxVaultMetadataBytes : Nat := 1024 * 1024

def admissionTransactionMagic : Bytes := ascii "qfs/local/admission-txn/"

def encodeAdmissionTransaction [Primitives] (oldReplica oldAdmission : Bytes) : Result Bytes := do
  ensure (oldReplica.length ≤ maxReplicaBytes ∧ oldAdmission.length ≤ maxVaultMetadataBytes)
    (.invalidInput "admission transaction field is too large")
  let replica ← pushVariable oldReplica
  let admission ← pushVariable oldAdmission
  let content := admissionTransactionMagic ++ [localFormatVersion] ++ replica ++ admission
  pure (content ++ idBytes (sha256 content))

def readAdmissionTransaction : Action Error Bytes (Bytes × Bytes) := do
  Reader.requirePrefix admissionTransactionMagic
  Reader.requireVersion
  let oldReplica ← Reader.readVariable
  let oldAdmission ← Reader.readVariable
  Action.require (oldReplica.length ≤ maxReplicaBytes ∧ oldAdmission.length ≤ maxVaultMetadataBytes)
    (.invalidInput "admission transaction field is too large")
  Reader.finish
  pure (oldReplica, oldAdmission)

def decodeAdmissionTransaction [Primitives] (bytes : Bytes) : Result (Bytes × Bytes) := do
  let maximum := admissionTransactionMagic.length + 1 + 4 + maxReplicaBytes + 4 +
    maxVaultMetadataBytes + 32
  ensure (bytes.length ≤ maximum ∧ admissionTransactionMagic.length + 1 + 8 + 32 ≤ bytes.length)
    (.invalidInput "invalid admission transaction length")
  let content := bytes.take (bytes.length - 32)
  ensure (idBytes (sha256 content) = bytes.drop (bytes.length - 32)) .authenticationFailed
  (readAdmissionTransaction content).1

def encodeVaultMigration (vaultId : VaultId) (phase : Nat) : Result Bytes := do
  ensure (phase ≤ 3) (.invalidInput "invalid vault migration phase")
  pure (idBytes vaultId.val ++ [UInt8.ofNat phase])

def decodeVaultMigration (bytes : Bytes) : Result (VaultId × Nat) := do
  ensure (bytes.length = 33 ∧ (bytes.getLastD 0).toNat ≤ 3)
    (.invalidInput "invalid vault migration marker")
  pure (⟨Fin.ofNat (2 ^ 256) (ofBE (bytes.take 32))⟩, (bytes.getLastD 0).toNat)

def storeStateMagic : Bytes := ascii "qfs/local/keys/"

def encodePersistedPair (pair : PersistedPair) : Result Bytes := do
  let message ← wrapM pair.wrap
  let message ← pushVariable message
  let signature ← pushVariable pair.wrap.signature
  pure (idBytes pair.peerId.val ++ toBE 8 pair.epoch ++ idBytes pair.initiator.val ++ message ++
    signature)

def encodePersistedKey (key : PersistedKey) : Result Bytes :=
  pure (toBE 8 key.slot ++ idBytes key.peerId.val ++ toBE 8 key.epoch ++ key.key)

def candidateDisorder : Error := .invalidInput "candidate pairs are not canonical"

def encodeCandidates (candidates : List PersistedPair) : Result Bytes :=
  if candidates ≠ [] then do
    ensure (candidates.length ≤ maxAdmissionCandidates) (.invalidInput "candidate pair cap exceeded")
    let count ← pushLength candidates.length
    let pairs ← encodeAscending PersistedPair.peerId candidateDisorder encodePersistedPair none
      candidates
    pushVariable (1 :: (count ++ pairs))
  else
    pure []

def encodeStoreState (state : PersistedState) : Result Bytes := do
  let peers ← encodeSection encodeIdentity state.peers
  let pairs ← encodeSection encodePersistedPair state.pairs
  let keys ← encodeSection encodePersistedKey state.keys
  let watermarks ← encodeSection encodePosition state.epochWatermarks
  let candidates ← encodeCandidates state.candidates
  pure (storeStateMagic ++ [localFormatVersion] ++ idBytes state.localId.val ++
    toBE 8 state.nextSlot ++ peers ++ pairs ++ keys ++ watermarks ++ candidates)

def readStoredPeer : Action Error Bytes IdentityDocument := do
  let message ← Reader.readVariable
  let signature ← Reader.readVariable
  Action.ofExcept (decodeIdentityDocument message signature)

def readPairOf (peerId : PeerId) : Action Error Bytes PersistedPair := do
  let epoch ← Reader.u64
  let initiator ← Reader.readId
  let message ← Reader.readVariable
  let signature ← Reader.readVariable
  let wrap ← Action.ofExcept (decodeWrapMessage message signature)
  pure { peerId, epoch, initiator := ⟨initiator⟩, wrap }

def readPersistedPair : Action Error Bytes PersistedPair := do
  let peerId ← Reader.readId
  readPairOf ⟨peerId⟩

def readCandidate (done : List PersistedPair) : Action Error Bytes PersistedPair := do
  let peerId ← Reader.readId
  Action.require (Follows PersistedPair.peerId done (⟨peerId⟩ : PeerId)) candidateDisorder
  readPairOf ⟨peerId⟩

def readPersistedKey : Action Error Bytes PersistedKey := do
  let slot ← Reader.u64
  let peerId ← Reader.readId
  let epoch ← Reader.u64
  let key ← Reader.take 32
  pure { slot, peerId := ⟨peerId⟩, epoch, key }

def readPosition : Action Error Bytes (PeerId × Nat) := do
  let peerId ← Reader.readId
  let position ← Reader.u64
  pure (⟨peerId⟩, position)

def readWatermarks : Action Error Bytes (List (PeerId × Nat)) := do
  let rest ← Action.get
  if rest = [] then
    pure []
  else
    Reader.readSection 40 fun _ => readPosition

def readCandidates : Action Error Bytes (List PersistedPair) := do
  let version ← Reader.byte
  Action.require (version = 1) (.invalidInput "unsupported candidate extension version")
  let candidates ← Reader.readCappedSection 160 maxAdmissionCandidates
    (.invalidInput "candidate pair cap exceeded") readCandidate
  Reader.finish
  pure candidates

def readStoreState : Action Error Bytes PersistedState := do
  Reader.requirePrefix storeStateMagic
  Reader.requireVersion
  let localId ← Reader.readId
  let nextSlot ← Reader.u64
  let peers ← Reader.readSection 52 fun _ => readStoredPeer
  let pairs ← Reader.readSection 160 fun _ => readPersistedPair
  let keys ← Reader.readSection 80 fun _ => readPersistedKey
  let epochWatermarks ← readWatermarks
  let candidates ← readExtension [] readCandidates
  Reader.finish
  pure { localId := ⟨localId⟩, nextSlot, peers, pairs, candidates, keys, epochWatermarks }

def decodeStoreState (bytes : Bytes) : Result PersistedState := (readStoreState bytes).1

section

variable {Addr : Type} [SocketAddr Addr]

def directoryStateMagic : Bytes := ascii "qfs/local/directory/"

def maxDirectoryRecords : Nat := 10000

def encodeStoredAd (entry : JoinCode × DirectoryAd Addr) : Result Bytes := do
  let ad ← encodeDirectoryAd entry.2
  let ad ← pushVariable ad
  pure (joinCodeBytes entry.1 ++ ad)

def encodeDirectoryWatermark (watermark : DirectoryWatermark) : Result Bytes := do
  let vk ← pushVariable watermark.vk
  pure (idBytes watermark.peerId.val ++ idBytes watermark.vaultId.val ++
    toBE 8 watermark.issuedAt.val ++ vk)

def encodeDirectoryState (state : DirectoryState Addr) : Result Bytes := do
  let ads ← encodeSection encodeStoredAd state.ads
  let watermarks ← encodeSection encodeDirectoryWatermark state.watermarks
  pure (directoryStateMagic ++ [localFormatVersion] ++ ads ++ watermarks)

def readStoredAd : Action Error Bytes (JoinCode × DirectoryAd Addr) := do
  let joinCode ← readJoinCode
  let ad ← Reader.readEmbedded decodeDirectoryAd
  pure (joinCode, ad)

def readDirectoryWatermark : Action Error Bytes DirectoryWatermark := do
  let peerId ← Reader.readId
  let vaultId ← Reader.readId
  let issuedAt ← Reader.u64
  let vk ← Reader.readVariable
  pure { peerId := ⟨peerId⟩, vaultId := ⟨vaultId⟩, issuedAt := Fin.ofNat _ issuedAt, vk }

def readDirectoryState : Action Error Bytes (DirectoryState Addr) := do
  Reader.requirePrefix directoryStateMagic
  Reader.requireVersion
  let ads ← Reader.readCappedSection 20 maxDirectoryRecords
    (.invalidInput "directory ad count exceeds cap") fun _ => readStoredAd
  let watermarks ← Reader.readCappedSection 76 maxDirectoryRecords
    (.invalidInput "directory watermark count exceeds cap") fun _ => readDirectoryWatermark
  Reader.finish
  pure { ads, watermarks }

def decodeDirectoryState (bytes : Bytes) : Result (DirectoryState Addr) :=
  (readDirectoryState bytes).1

end

theorem reads_joinCode (joinCode : JoinCode) : Reads readJoinCode (joinCodeBytes joinCode) joinCode := by
  have small : joinCode.val.val < 256 ^ 16 := by
    have := joinCode.val.isLt
    omega
  have same : Fin.ofNat (2 ^ 128) (ofBE (joinCodeBytes joinCode)) = joinCode.val := by
    unfold joinCodeBytes
    rw [ofBE_toBE small, fin_ofNat_val]
  unfold readJoinCode
  apply Reads.last (Reader.reads_take (length_toBE 16 joinCode.val.val))
  change Reads (pure ⟨Fin.ofNat (2 ^ 128) (ofBE (joinCodeBytes joinCode))⟩) [] joinCode
  rw [same]
  exact Reads.pure joinCode

theorem decodeVaultMigration_encode {vaultId : VaultId} {phase : Nat} {out : Bytes}
    (written : encodeVaultMigration vaultId phase = .ok out) :
    decodeVaultMigration out = .ok (vaultId, phase) ∧ out.length = 33 := by
  obtain ⟨_, bounded, written⟩ := Result.bind_eq_ok.mp written
  cases written
  have small : phase ≤ 3 := ensure_eq_ok.mp bounded
  have last : ((idBytes vaultId.val ++ [UInt8.ofNat phase]).getLastD 0).toNat = phase := by
    rw [List.getLastD_eq_getLast?, List.getLast?_concat, Option.getD_some, UInt8.toNat_ofNat']
    exact Nat.mod_eq_of_lt (by omega)
  have size : (idBytes vaultId.val ++ [UInt8.ofNat phase]).length = 33 := by
    rw [List.length_append, length_idBytes, List.length_singleton]
  have first : (idBytes vaultId.val ++ [UInt8.ofNat phase]).take 32 = idBytes vaultId.val :=
    List.take_left' (length_idBytes _)
  refine ⟨?_, size⟩
  unfold decodeVaultMigration
  rw [show ensure _ _ = .ok () from ensure_eq_ok.mpr ⟨size, last.trans_le small⟩, last, first,
    idBytes, ofBE_toBE (by have := vaultId.val.isLt; omega), fin_ofNat_val]
  rfl

theorem decodeVaultMetadata_encode {metadata : VaultMetadata} {out : Bytes}
    (small : metadata.issuedAt ≤ u64Max) (distinct : metadata.members.Nodup)
    (written : encodeVaultMetadata metadata = .ok out) :
    decodeVaultMetadata out = .ok metadata := by
  simp only [encodeVaultMetadata, Result.bind_eq_ok, pure, Except.pure, Except.ok.injEq] at written
  obtain ⟨members, first, denied, second, extension, third, rfl⟩ := written
  have listed : Reads (Reader.readSection 32 readVaultMember) members metadata.members := by
    apply Reader.reads_section first (by decide)
    · intro peer _ part encoded
      cases encoded
      rw [length_idBytes]
    · intro before peer after part split encoded
      cases encoded
      rw [split] at distinct
      have fresh : peer ∉ before := fun mem =>
        (List.nodup_append.mp distinct).2.2 peer mem peer List.mem_cons_self rfl
      apply Reads.last (Reader.reads_id peer.val)
      exact Reads.require fresh (Reads.pure peer)
  have inner : ReadsAll readVaultExtension (1 :: denied) metadata.denied := by
    unfold readVaultExtension
    apply Reader.readsAll_tag
    apply ReadsAll.require rfl
    apply ReadsAll.then_nil (reads_peerIds second).all
    apply ReadsAll.then_nil Reader.readsAll_finish
    rw [ofList_toList]
    exact ReadsAll.pure _
  apply ReadsAll.result
  unfold readVaultMetadata
  simp only [List.append_assoc]
  apply ReadsAll.bind (Reader.reads_prefix _)
  apply ReadsAll.bind Reader.reads_version
  apply ReadsAll.bind (Reader.reads_id _)
  apply ReadsAll.bind (reads_joinCode metadata.joinCode)
  apply ReadsAll.bind (Reader.reads_u64 small)
  apply ReadsAll.bind listed
  apply ReadsAll.then_nil (readsAll_extension third inner)
  exact ReadsAll.then_nil Reader.readsAll_finish (ReadsAll.pure metadata)

theorem fails_members {members : List PeerId} : ∀ {done : List PeerId} {parts : List Bytes},
    List.Forall₂ (fun peer part => encodePeerId peer = .ok part) members parts → done.Nodup →
      ¬(done ++ members).Nodup →
      Fails (collect readVaultMember done members.length) parts.flatten
        (.invalidInput "duplicate vault member") := by
  induction members with
  | nil =>
    intro done parts _ distinct repeated
    rw [List.append_nil] at repeated
    exact absurd distinct repeated
  | cons peer members ih =>
    intro done parts written distinct repeated
    cases written with
    | cons encoded written =>
      cases encoded
      rw [List.flatten_cons]
      by_cases known : peer ∈ done
      · have refused : Fails (readVaultMember done) (idBytes peer.val ++ [])
            (.invalidInput "duplicate vault member") := by
          unfold readVaultMember
          apply Fails.later (Reader.reads_id peer.val)
          exact Fails.refused (not_not_intro known) []
        rw [List.append_nil] at refused
        exact (Fails.first refused).append _
      · have member : Reads (readVaultMember done) (idBytes peer.val) peer := by
          apply Reads.last (Reader.reads_id peer.val)
          exact Reads.require known (Reads.pure peer)
        refine Fails.later member (ih written ?_ ?_)
        · exact List.nodup_append.mpr ⟨distinct, List.nodup_singleton _, fun other mem _ here =>
            List.mem_singleton.mp here ▸ fun same => known (same ▸ mem)⟩
        · rwa [List.append_assoc]

theorem decodeVaultMetadata_fails {bytes : Bytes} {e : Error} (fails : Fails readVaultMetadata bytes e) :
    decodeVaultMetadata bytes = .error e := fails.result

theorem decodeVaultMetadata_repeated {metadata : VaultMetadata} {out : Bytes}
    (small : metadata.issuedAt ≤ u64Max) (repeated : ¬metadata.members.Nodup)
    (written : encodeVaultMetadata metadata = .ok out) :
    decodeVaultMetadata out = .error (.invalidInput "duplicate vault member") := by
  simp only [encodeVaultMetadata, Result.bind_eq_ok, pure, Except.pure, Except.ok.injEq] at written
  obtain ⟨members, first, denied, -, extension, -, rfl⟩ := written
  obtain ⟨counted, parts, pairs, rfl⟩ := encodeSection_eq_ok.mp first
  have wide : ∀ part ∈ parts, 32 ≤ part.length :=
    Reader.forall₂_wide pairs fun peer _ part encoded => by
      cases encoded
      rw [length_idBytes]
  have room : metadata.members.length * 32 ≤ parts.flatten.length :=
    pairs.length_eq ▸ Reader.length_flatten_le wide
  have listed : Fails (Reader.readSection 32 readVaultMember)
      (toBE 4 metadata.members.length ++ parts.flatten) (.invalidInput "duplicate vault member") := by
    unfold Reader.readSection
    exact Reader.fails_count counted (by decide) room (fails_members pairs .nil repeated)
  apply decodeVaultMetadata_fails
  unfold readVaultMetadata
  simp only [List.append_assoc]
  apply Fails.later (Reader.reads_prefix _)
  apply Fails.later Reader.reads_version
  apply Fails.later (Reader.reads_id _)
  apply Fails.later (reads_joinCode metadata.joinCode)
  apply Fails.later (Reader.reads_u64 small)
  rw [← List.append_assoc]
  exact (Fails.first listed).append extension

theorem decodeAdmissionTransaction_encode [Primitives] {oldReplica oldAdmission out : Bytes}
    (written : encodeAdmissionTransaction oldReplica oldAdmission = .ok out) :
    decodeAdmissionTransaction out = .ok (oldReplica, oldAdmission) := by
  simp only [encodeAdmissionTransaction, Result.bind_eq_ok, ensure_eq_ok, pure, Except.pure,
    Except.ok.injEq] at written
  obtain ⟨_, sizes, replica, first, admission, second, rfl⟩ := written
  have inner : ReadsAll readAdmissionTransaction
      (admissionTransactionMagic ++ [localFormatVersion] ++ replica ++ admission)
      (oldReplica, oldAdmission) := by
    unfold readAdmissionTransaction
    simp only [List.append_assoc]
    apply ReadsAll.bind (Reader.reads_prefix _)
    apply ReadsAll.bind Reader.reads_version
    apply ReadsAll.bind (Reader.reads_variable first)
    apply ReadsAll.then_nil (Reader.reads_variable second).all
    apply ReadsAll.require sizes
    exact ReadsAll.then_nil Reader.readsAll_finish (ReadsAll.pure _)
  have length : (admissionTransactionMagic ++ [localFormatVersion] ++ replica ++
      admission).length = admissionTransactionMagic.length + 1 + (4 + oldReplica.length) +
        (4 + oldAdmission.length) := by
    simp only [List.length_append, List.length_singleton, length_pushVariable first,
      length_pushVariable second]
  generalize admissionTransactionMagic ++ [localFormatVersion] ++ replica ++ admission = content
    at inner length ⊢
  have cut : (content ++ idBytes (sha256 content)).length - 32 = content.length := by
    rw [List.length_append, length_idBytes]
    omega
  unfold decodeAdmissionTransaction
  simp only [Result.bind_eq_ok, ensure_eq_ok]
  rw [cut, List.take_left, List.drop_left, List.length_append, length_idBytes]
  exact ⟨(), by omega, (), rfl, inner.result⟩

theorem admissionTransaction_sizes [Primitives] {oldReplica oldAdmission out : Bytes}
    (written : encodeAdmissionTransaction oldReplica oldAdmission = .ok out) :
    out.length = 65 + oldReplica.length + oldAdmission.length ∧
      oldReplica.length ≤ maxReplicaBytes ∧ oldAdmission.length ≤ maxVaultMetadataBytes := by
  simp only [encodeAdmissionTransaction, Result.bind_eq_ok, ensure_eq_ok, pure, Except.pure,
    Except.ok.injEq] at written
  obtain ⟨_, sizes, replica, first, admission, second, rfl⟩ := written
  have magic : admissionTransactionMagic.length = 24 := rfl
  refine ⟨?_, sizes⟩
  simp only [List.length_append, List.length_singleton, length_pushVariable first,
    length_pushVariable second, length_idBytes, magic]
  omega

/-- The fields that are `u64` and `[u8; 32]` in the source. -/
structure PairFits (pair : PersistedPair) : Prop where
  epoch : pair.epoch ≤ u64Max
  wrapEpoch : pair.wrap.epoch ≤ u64Max

structure KeyFits (key : PersistedKey) : Prop where
  slot : key.slot ≤ u64Max
  epoch : key.epoch ≤ u64Max
  bytes : key.key.length = 32

structure StoreFits (state : PersistedState) : Prop where
  nextSlot : state.nextSlot ≤ u64Max
  pairs : ∀ pair ∈ state.pairs, PairFits pair
  candidates : ∀ pair ∈ state.candidates, PairFits pair
  keys : ∀ key ∈ state.keys, KeyFits key
  watermarks : ∀ entry ∈ state.epochWatermarks, entry.2 ≤ u64Max

theorem encodePersistedPair_eq_ok {pair : PersistedPair} {out : Bytes} :
    encodePersistedPair pair = .ok out ↔ ∃ message framed signature,
      wrapM pair.wrap = .ok message ∧ pushVariable message = .ok framed ∧
      pushVariable pair.wrap.signature = .ok signature ∧
      out = idBytes pair.peerId.val ++ toBE 8 pair.epoch ++ idBytes pair.initiator.val ++ framed ++
        signature := by
  simp only [encodePersistedPair, Result.bind_eq_ok, pure, Except.pure, Except.ok.injEq,
    @eq_comm _ _ out]
  constructor
  · rintro ⟨message, first, framed, second, signature, third, same⟩
    exact ⟨message, framed, signature, first, second, third, same⟩
  · rintro ⟨message, framed, signature, first, second, third, same⟩
    exact ⟨message, first, framed, second, signature, third, same⟩

theorem length_encodePersistedPair {pair : PersistedPair} {out : Bytes}
    (written : encodePersistedPair pair = .ok out) : 160 ≤ out.length := by
  obtain ⟨message, framed, signature, first, second, third, rfl⟩ :=
    encodePersistedPair_eq_ok.mp written
  have inner := length_wrapM first
  simp only [List.length_append, length_idBytes, length_toBE, length_pushVariable second,
    length_pushVariable third]
  omega

theorem split_encodePersistedPair {pair : PersistedPair} {out : Bytes} (fits : PairFits pair)
    (written : encodePersistedPair pair = .ok out) :
    ∃ rest, out = idBytes pair.peerId.val ++ rest ∧ Reads (readPairOf pair.peerId) rest pair := by
  obtain ⟨message, framed, signature, first, second, third, rfl⟩ :=
    encodePersistedPair_eq_ok.mp written
  simp only [List.append_assoc]
  refine ⟨_, rfl, ?_⟩
  unfold readPairOf
  apply Reads.bind (Reader.reads_u64 fits.epoch)
  apply Reads.bind (Reader.reads_id _)
  apply Reads.bind (Reader.reads_variable second)
  apply Reads.last (Reader.reads_variable third)
  exact Reads.ofExcept (decodeWrapMessage_wrapM fits.wrapEpoch first) (Reads.pure pair)

theorem reads_storedPeer {document : IdentityDocument} {out : Bytes}
    (written : encodeIdentity document = .ok out) : Reads readStoredPeer out document := by
  obtain ⟨message, framed, signature, first, second, third, rfl⟩ := encodeIdentity_eq_ok.mp written
  unfold readStoredPeer
  apply Reads.bind (Reader.reads_variable second)
  apply Reads.last (Reader.reads_variable third)
  intro rest
  exact Action.ofExcept_eq_ok.mpr ⟨decodeIdentityDocument_identityM first, rfl⟩

theorem length_encodeIdentity {document : IdentityDocument} {out : Bytes}
    (written : encodeIdentity document = .ok out) : 56 ≤ out.length := by
  obtain ⟨message, framed, signature, first, second, third, rfl⟩ := encodeIdentity_eq_ok.mp written
  have inner := length_identityM first
  rw [List.length_append, length_pushVariable second, length_pushVariable third]
  omega

theorem reads_position {entry : PeerId × Nat} {out : Bytes} (small : entry.2 ≤ u64Max)
    (written : encodePosition entry = .ok out) : Reads readPosition out entry := by
  cases written
  unfold readPosition
  apply Reads.bind (Reader.reads_id _)
  exact Reads.map (Reader.reads_u64 small) _

theorem readsAll_candidates {candidates : List PersistedPair} {out : Bytes}
    (fits : ∀ pair ∈ candidates, PairFits pair) (written : encodeCandidates candidates = .ok out) :
    ReadsAll (readExtension [] readCandidates) out candidates := by
  unfold encodeCandidates at written
  split at written
  · simp only [Result.bind_eq_ok, ensure_eq_ok, pushLength_eq_ok] at written
    obtain ⟨_, capped, _, ⟨small, rfl⟩, _, encoded, framed⟩ := written
    obtain ⟨_, sorted, parts, pairs, rfl⟩ := encodeAscending_eq_ok encoded
    apply readsAll_extension framed
    unfold readCandidates
    apply Reader.readsAll_tag
    apply ReadsAll.require rfl
    apply Reader.readsAll_finished
    apply Reads.all
    apply Reader.reads_cappedParts small pairs (by decide) capped
    · intro pair _ part encoded
      exact length_encodePersistedPair encoded
    · intro before pair after part split encoded
      have member : pair ∈ candidates := by simp [split]
      obtain ⟨rest, rfl, inner⟩ := split_encodePersistedPair (fits pair member) encoded
      rw [split] at sorted
      apply Reads.bind (Reader.reads_id pair.peerId.val)
      exact Reads.require (follows_of_sorted sorted) inner
  · rename_i absent
    cases written
    rw [not_not.mp absent]
    exact readsAll_noExtension _ _

theorem readsAll_watermarks {entries : List (PeerId × Nat)} {out : Bytes}
    (fits : ∀ entry ∈ entries, entry.2 ≤ u64Max)
    (written : encodeSection encodePosition entries = .ok out) (rest : Bytes) :
    readWatermarks (out ++ rest) = (.ok entries, rest) := by
  have present : out ++ rest ≠ [] := by
    obtain ⟨_, parts, _, rfl⟩ := encodeSection_eq_ok.mp written
    intro empty
    have size := congrArg List.length empty
    simp at size
  unfold readWatermarks
  rw [Action.bind_ok (Action.get_apply _), if_neg present]
  apply Reader.reads_section written (by decide)
  · intro entry _ part encoded
    cases encoded
    simp
  · intro before entry after part split encoded
    exact reads_position (fits entry (by simp [split])) encoded

theorem decodeStoreState_encode {state : PersistedState} {out : Bytes} (fits : StoreFits state)
    (written : encodeStoreState state = .ok out) : decodeStoreState out = .ok state := by
  simp only [encodeStoreState, Result.bind_eq_ok, pure, Except.pure, Except.ok.injEq] at written
  obtain ⟨peers, first, pairs, second, keys, third, watermarks, fourth, candidates, fifth, rfl⟩ :=
    written
  have readPeers : Reads (Reader.readSection 52 fun _ => readStoredPeer) peers state.peers := by
    apply Reader.reads_section first (by decide)
    · intro document _ part encoded
      have := length_encodeIdentity encoded
      omega
    · intro before document after part _ encoded
      exact reads_storedPeer encoded
  have readPairs : Reads (Reader.readSection 160 fun _ => readPersistedPair) pairs state.pairs := by
    apply Reader.reads_section second (by decide)
    · intro pair _ part encoded
      exact length_encodePersistedPair encoded
    · intro before pair after part split encoded
      have member : pair ∈ state.pairs := by simp [split]
      obtain ⟨rest, rfl, inner⟩ := split_encodePersistedPair (fits.pairs pair member) encoded
      exact Reads.bind (Reader.reads_id pair.peerId.val) inner
  have readKeys : Reads (Reader.readSection 80 fun _ => readPersistedKey) keys state.keys := by
    apply Reader.reads_section third (by decide)
    · intro key member part encoded
      cases encoded
      have size := (fits.keys key member).bytes
      simp only [List.length_append, length_idBytes, length_toBE]
      omega
    · intro before key after part split encoded
      have keyFits := fits.keys key (by simp [split])
      cases encoded
      simp only [List.append_assoc]
      unfold readPersistedKey
      apply Reads.bind (Reader.reads_u64 keyFits.slot)
      apply Reads.bind (Reader.reads_id _)
      apply Reads.bind (Reader.reads_u64 keyFits.epoch)
      exact Reads.map (Reader.reads_take keyFits.bytes) _
  apply ReadsAll.result
  unfold readStoreState
  simp only [List.append_assoc]
  apply ReadsAll.bind (Reader.reads_prefix _)
  apply ReadsAll.bind Reader.reads_version
  apply ReadsAll.bind (Reader.reads_id _)
  apply ReadsAll.bind (Reader.reads_u64 fits.nextSlot)
  apply ReadsAll.bind readPeers
  apply ReadsAll.bind readPairs
  apply ReadsAll.bind readKeys
  apply ReadsAll.bind (readsAll_watermarks fits.watermarks fourth)
  apply ReadsAll.then_nil (readsAll_candidates fits.candidates fifth)
  exact ReadsAll.then_nil Reader.readsAll_finish (ReadsAll.pure state)

section

variable {Addr : Type} [SocketAddr Addr]

theorem reads_storedAd
    (parses : ∀ addr : Addr, SocketAddr.parse (SocketAddr.print addr) = some addr)
    {entry : JoinCode × DirectoryAd Addr} {out : Bytes} (written : encodeStoredAd entry = .ok out) :
    20 ≤ out.length ∧ Reads readStoredAd out entry := by
  simp only [encodeStoredAd, Result.bind_eq_ok, pure, Except.pure, Except.ok.injEq] at written
  obtain ⟨_, inner, _, framed, rfl⟩ := written
  constructor
  · rw [List.length_append, length_pushVariable framed, joinCodeBytes, length_toBE]
    omega
  · apply Reads.bind (reads_joinCode entry.1)
    exact Reads.map (Reader.reads_embedded framed (decodeDirectoryAd_encode parses inner)) _

omit [SocketAddr Addr] in
theorem reads_directoryWatermark {watermark : DirectoryWatermark} {out : Bytes}
    (written : encodeDirectoryWatermark watermark = .ok out) :
    76 ≤ out.length ∧ Reads readDirectoryWatermark out watermark := by
  simp only [encodeDirectoryWatermark, Result.bind_eq_ok, pure, Except.pure,
    Except.ok.injEq] at written
  obtain ⟨_, framed, rfl⟩ := written
  constructor
  · simp only [List.length_append, length_idBytes, length_toBE, length_pushVariable framed]
    omega
  · simp only [List.append_assoc]
    apply Reads.bind (Reader.reads_id _)
    apply Reads.bind (Reader.reads_id _)
    apply Reads.bind (Reader.reads_u64 (u64_le watermark.issuedAt))
    apply Reads.last (Reader.reads_variable framed)
    rw [fin_ofNat_val]
    exact Reads.pure watermark

theorem decodeDirectoryState_encode
    (parses : ∀ addr : Addr, SocketAddr.parse (SocketAddr.print addr) = some addr)
    {state : DirectoryState Addr} {out : Bytes} (ads : state.ads.length ≤ maxDirectoryRecords)
    (watermarks : state.watermarks.length ≤ maxDirectoryRecords)
    (written : encodeDirectoryState state = .ok out) : decodeDirectoryState out = .ok state := by
  simp only [encodeDirectoryState, Result.bind_eq_ok, pure, Except.pure, Except.ok.injEq] at written
  obtain ⟨adBytes, first, markBytes, second, rfl⟩ := written
  have readAds : Reads (Reader.readCappedSection 20 maxDirectoryRecords
      (.invalidInput "directory ad count exceeds cap") fun _ => readStoredAd) adBytes
      state.ads := by
    obtain ⟨small, parts, pairs, same⟩ := encodeSection_eq_ok.mp first
    rw [same]
    exact Reader.reads_cappedParts small pairs (by decide) ads
      (fun entry _ part encoded => (reads_storedAd parses encoded).1)
      (fun before entry after part _ encoded => (reads_storedAd parses encoded).2)
  have readMarks : Reads (Reader.readCappedSection 76 maxDirectoryRecords
      (.invalidInput "directory watermark count exceeds cap") fun _ => readDirectoryWatermark)
      markBytes state.watermarks := by
    obtain ⟨small, parts, pairs, same⟩ := encodeSection_eq_ok.mp second
    rw [same]
    exact Reader.reads_cappedParts small pairs (by decide) watermarks
      (fun watermark _ part encoded => (reads_directoryWatermark encoded).1)
      (fun before watermark after part _ encoded => (reads_directoryWatermark encoded).2)
  apply ReadsAll.result
  unfold readDirectoryState
  simp only [List.append_assoc]
  apply ReadsAll.bind (Reader.reads_prefix _)
  apply ReadsAll.bind Reader.reads_version
  apply ReadsAll.bind readAds
  apply ReadsAll.then_nil readMarks.all
  exact ReadsAll.then_nil Reader.readsAll_finish (ReadsAll.pure state)

/-- Every format returns what its encoder accepted: the absent, the empty and the
present extension are told apart whatever they hold. -/
theorem codecs_round_trip [Primitives]
    (parses : ∀ addr : Addr, SocketAddr.parse (SocketAddr.print addr) = some addr) :
    (∀ state out, StoreFits state → encodeStoreState state = .ok out →
      decodeStoreState out = .ok state) ∧
    (∀ (state : DirectoryState Addr) out, state.ads.length ≤ maxDirectoryRecords →
      state.watermarks.length ≤ maxDirectoryRecords → encodeDirectoryState state = .ok out →
      decodeDirectoryState out = .ok state) ∧
    (∀ metadata out, metadata.issuedAt ≤ u64Max → metadata.members.Nodup →
      encodeVaultMetadata metadata = .ok out → decodeVaultMetadata out = .ok metadata) ∧
    (∀ oldReplica oldAdmission out, encodeAdmissionTransaction oldReplica oldAdmission = .ok out →
      decodeAdmissionTransaction out = .ok (oldReplica, oldAdmission)) ∧
    (∀ welcome out, encodeNetWelcome welcome = .ok out → decodeNetWelcome out = .ok welcome) ∧
    (∀ control out, encodeNetControl control = .ok out → decodeNetControl out = .ok control) ∧
    ∀ offer out, encodeFlushOffer offer = .ok out → decodeFlushOffer out = .ok offer :=
  ⟨fun _ _ fits written => decodeStoreState_encode fits written,
    fun _ _ ads watermarks written => decodeDirectoryState_encode parses ads watermarks written,
    fun _ _ small distinct written => decodeVaultMetadata_encode small distinct written,
    fun _ _ _ written => decodeAdmissionTransaction_encode written,
    fun _ _ written => decodeNetWelcome_encode written,
    fun _ _ written => decodeNetControl_encode written,
    fun _ _ written => decodeFlushOffer_encode written⟩

end

private def loopbackDirectory : DirectoryState Loopback where
  ads := [(⟨7⟩, {
    peerId := ⟨1⟩
    vaultId := ⟨2⟩
    addr := .v6
    ek := [3]
    vk := [4, 4]
    issuedAt := 5
    signature := [6] })]
  watermarks := [{ peerId := ⟨1⟩, vaultId := ⟨2⟩, issuedAt := 5, vk := [4, 4] }]

theorem codecs_round_trip_loopback :
    ∃ out, encodeDirectoryState loopbackDirectory = .ok out ∧
      decodeDirectoryState out = .ok loopbackDirectory := by
  let := Primitives.plain
  have trip := (codecs_round_trip Loopback.parse_print).2.1 loopbackDirectory
  exact ⟨_, rfl, trip _ (by decide) (by decide) rfl⟩

end QuantumFs.Encoding
