import QuantumFs.Encoding.Local
import QuantumFs.Store.TreeInvariant

/-! Reading a replica snapshot back. The decoder counts, orders and bounds every
section on its own; none of its checks refuses what the encoder wrote. -/
namespace QuantumFs.Encoding

open Lib Store Crypto

def readDirentFlag : Action Error Bytes Bool := do
  match ← Reader.byte with
  | 0 => pure false
  | 1 => pure true
  | _ => Action.throw (.invalidInput "invalid dirent directory flag")

def readDirent : Action Error Bytes Dirent := do
  let parent ← Reader.readId
  let name ← readName
  let child ← Reader.readId
  let isDir ← readDirentFlag
  pure { parent := ⟨parent⟩, name, child := ⟨child⟩, isDir }

def readManifestEntry (done : List (FileId × Manifest)) :
    Action Error Bytes (FileId × Manifest) := do
  let message ← Reader.readVariable
  let signature ← Reader.readVariable
  let manifest ← Action.ofExcept (decodeManifestMessage message signature)
  Action.require (Follows Prod.fst done manifest.fileId)
    (.invalidInput "replica manifests are not canonical")
  pure (manifest.fileId, manifest)

def readLogRecord (done : List ControlRecord) : Action Error Bytes ControlRecord := do
  let record ← Reader.readEmbedded decodeControlRecord
  Action.require (Follows ControlRecord.id done record.id)
    (.invalidInput "instruction log is not strictly ordered")
  pure record

def readQueueContent : Action Error Bytes QueueContent := do
  match ← Reader.byte with
  | 0 => do
      let record ← Reader.readEmbedded decodeControlRecord
      pure (.control record)
  | 1 => do
      let fileId ← Reader.readId
      let index ← Reader.u64
      let chunkId ← Reader.readId
      pure (.chunk ⟨fileId⟩ index ⟨chunkId⟩)
  | _ => Action.throw (.invalidInput "unknown durable mailbox content kind")

/-- An entry of a map that is keyed by peers: the order is checked before the rest
of the entry is read. -/
def readPeerEntry {β : Type} (disorder : Error) (read : Action Error Bytes β)
    (done : List (PeerId × β)) : Action Error Bytes (PeerId × β) := do
  let peer ← readPeerId disorder (done.map Prod.fst)
  let value ← read
  pure (peer, value)

def readChunkEntry (done : List (ChunkId × FileId × Nat)) :
    Action Error Bytes (ChunkId × FileId × Nat) := do
  let chunkId ← Reader.readId
  Action.require (Follows Prod.fst done (⟨chunkId⟩ : ChunkId))
    (.invalidInput "replica chunk index is not canonical")
  let fileId ← Reader.readId
  let index ← Reader.u64
  pure (⟨chunkId⟩, ⟨fileId⟩, index)

structure ReplicaExtension where
  denied : OrdSet PeerId
  admission : Option VaultMetadata
  historicalMembers : OrdSet PeerId
  identityDocuments : Map PeerId IdentityDocument
  bootstrapThrough : Map PeerId Nat

def ReplicaExtension.absent (members : OrdSet PeerId) : ReplicaExtension where
  denied := ∅
  admission := none
  historicalMembers := members
  identityDocuments := ∅
  bootstrapThrough := ∅

def readAdmission : Action Error Bytes (Option VaultMetadata) := do
  match ← Reader.byte with
  | 0 => pure none
  | 1 => do
      let admission ← Reader.readEmbedded decodeVaultMetadata
      pure (some admission)
  | _ => Action.throw (.invalidInput "invalid replica admission flag")

def readDocument (done : List (PeerId × IdentityDocument)) :
    Action Error Bytes (PeerId × IdentityDocument) := do
  let peer ← readPeerId (.invalidInput "identity documents are not canonical") (done.map Prod.fst)
  let document ← Reader.readEmbedded decodeIdentity
  Action.require (document.peerId = peer)
    (.invalidInput "identity document map key does not match peer id")
  pure (peer, document)

def readBootstrap (members : OrdSet PeerId) (nextControl : Nat) (done : List (PeerId × Nat)) :
    Action Error Bytes (PeerId × Nat) := do
  let peer ← Reader.readId
  let through ← Reader.u64
  Action.require (Follows Prod.fst done (⟨peer⟩ : PeerId) ∧ (⟨peer⟩ : PeerId) ∈ members ∧
      through < nextControl)
    (.invalidInput "invalid replica bootstrap coverage")
  pure (⟨peer⟩, through)

def readBootstraps (version : UInt8) (members : OrdSet PeerId) (nextControl : Nat) :
    Action Error Bytes (List (PeerId × Nat)) :=
  if 2 ≤ version then
    Reader.readSection 40 (readBootstrap members nextControl)
  else
    pure []

def readReplicaExtension (members : OrdSet PeerId) (nextControl : Nat) :
    Action Error Bytes ReplicaExtension := do
  let version ← Reader.byte
  Action.require (version = 1 ∨ version = 2)
    (.invalidInput "unsupported replica extension version")
  let denied ← Reader.readSection 32
    (readPeerId (.invalidInput "replica denylist is not canonical"))
  let admission ← readAdmission
  let historical ← Reader.readSection 32
    (readPeerId (.invalidInput "historical members are not canonical"))
  let documents ← Reader.readSection 36 readDocument
  let bootstraps ← readBootstraps version members nextControl
  Reader.finish
  pure {
    denied := OrdSet.ofList denied
    admission
    historicalMembers := OrdSet.ofList historical
    identityDocuments := .ofList documents compare
    bootstrapThrough := .ofList bootstraps compare }

def readReplicaBody (expectedRoot : FileId) : Action Error Bytes ReplicaMetadata := do
  let storedRoot ← Reader.readId
  Action.require ((⟨storedRoot⟩ : FileId) = expectedRoot)
    (.state "replica belongs to a different vault root")
  let dirents ← Reader.readSection 69 fun _ => readDirent
  let tree ← Action.ofExcept (DirectoryTree.fromDirents expectedRoot dirents)
  let members ← Reader.readSection 32
    (readPeerId (.invalidInput "replica members are not canonical"))
  let manifests ← Reader.readSection (4 + 4) readManifestEntry
  let log ← Reader.readSection 4 readLogRecord
  let nextControl ← Reader.u64
  let mailboxes ← Reader.readSection (32 + 4)
    (readPeerEntry (.invalidInput "replica mailboxes are not canonical")
      (Reader.readSection 1 fun _ => readQueueContent))
  let ackedThrough ← Reader.readSection 40
    (readPeerEntry (.invalidInput "replica acknowledgements are not canonical") Reader.u64)
  let chunkIndex ← Reader.readSection 72 readChunkEntry
  let extension ← readExtension (ReplicaExtension.absent (OrdSet.ofList members))
    (readReplicaExtension (OrdSet.ofList members) nextControl)
  Reader.finish
  pure {
    expectedRoot
    dirents := tree.dirents
    members := OrdSet.ofList members
    manifests := .ofList manifests compare
    log
    nextControl
    mailboxes := .ofList mailboxes compare
    ackedThrough := .ofList ackedThrough compare
    chunkIndex := .ofList chunkIndex compare
    denied := extension.denied
    admission := extension.admission
    historicalMembers := extension.historicalMembers
    identityDocuments := extension.identityDocuments
    bootstrapThrough := extension.bootstrapThrough }

def replicaMagic : Bytes := ascii "qfs/local/replica/"

/-- No field of the body is read before the length and the digest hold. -/
def decodeReplica [Primitives] (bytes : Bytes) (expectedRoot : FileId) :
    Result (Nat × ReplicaMetadata) := do
  let headerLen := replicaMagic.length + 1 + 8 + 4
  ensure (bytes.length ≤ maxReplicaBytes ∧ headerLen + 32 ≤ bytes.length)
    (.invalidInput "invalid replica metadata length")
  ensure (bytes.take replicaMagic.length = replicaMagic)
    (.invalidInput "invalid replica metadata magic")
  ensure (bytes[replicaMagic.length]? = some localFormatVersion)
    (.invalidInput "unsupported replica metadata version")
  let generation := ofBE ((bytes.drop (replicaMagic.length + 1)).take 8)
  let bodyLen := ofBE ((bytes.drop (replicaMagic.length + 1 + 8)).take 4)
  let bodyEnd := headerLen + bodyLen
  ensure (bodyEnd + 32 = bytes.length) (.invalidInput "replica metadata length mismatch")
  ensure (idBytes (sha256 (bytes.take bodyEnd)) = bytes.drop bodyEnd) .authenticationFailed
  let metadata ← (readReplicaBody expectedRoot ((bytes.take bodyEnd).drop headerLen)).1
  pure (generation, metadata)

/-- The counters that are `u64` in the source. -/
def ContentFits : QueueContent → Prop
  | .control record => record.id ≤ u64Max
  | .chunk _ index _ => index ≤ u64Max

instance : (content : QueueContent) → Decidable (ContentFits content)
  | .control record => inferInstanceAs (Decidable (record.id ≤ u64Max))
  | .chunk _ index _ => inferInstanceAs (Decidable (index ≤ u64Max))

structure ReplicaFits (metadata : ReplicaMetadata) : Prop where
  log : ∀ record ∈ metadata.log, record.id ≤ u64Max
  nextControl : metadata.nextControl ≤ u64Max
  mailboxes : ∀ entry ∈ metadata.mailboxes.toList, ∀ content ∈ entry.2, ContentFits content
  ackedThrough : ∀ entry ∈ metadata.ackedThrough.toList, entry.2 ≤ u64Max
  chunkIndex : ∀ entry ∈ metadata.chunkIndex.toList, entry.2.2 ≤ u64Max
  issuedAt : ∀ admission ∈ metadata.admission, admission.issuedAt ≤ u64Max

section

variable {out : Bytes}

theorem reads_direntFlag (isDir : Bool) : Reads readDirentFlag [if isDir then 1 else 0] isDir := by
  cases isDir
  · exact Reader.reads_tag 0 (Reads.pure false)
  · exact Reader.reads_tag 1 (Reads.pure true)

theorem reads_dirents {dirents : List Dirent} (written : encodeSection encodeDirent dirents = .ok out) :
    Reads (Reader.readSection 69 fun _ => readDirent) out dirents := by
  apply Reader.reads_section written (by decide)
  · intro entry _ part encoded
    obtain ⟨name, named, done⟩ := Result.bind_eq_ok.mp encoded
    cases done
    simp only [List.length_append, length_idBytes, length_pushVariable named, List.length_singleton]
    omega
  · intro before entry after part _ encoded
    obtain ⟨name, named, done⟩ := Result.bind_eq_ok.mp encoded
    cases done
    unfold readDirent
    simp only [List.append_assoc]
    apply Reads.bind (Reader.reads_id _)
    apply Reads.bind (reads_name named)
    apply Reads.bind (Reader.reads_id _)
    exact Reads.map (reads_direntFlag entry.isDir) _

theorem reads_manifests {manifests : Map FileId Manifest}
    (written : encodeSection encodeManifestEntry manifests.toList = .ok out) :
    Reads (Reader.readSection (4 + 4) readManifestEntry) out manifests.toList := by
  have sorted := Map.toList_sorted manifests
  apply Reader.reads_section written (by decide)
  · intro entry _ part encoded
    simp only [encodeManifestEntry, Result.bind_eq_ok, ensure_eq_ok, pure, Except.pure,
      Except.ok.injEq] at encoded
    obtain ⟨_, _, message, _, framed, first, signature, second, rfl⟩ := encoded
    rw [List.length_append, length_pushVariable first, length_pushVariable second]
    omega
  · rintro before ⟨fileId, manifest⟩ after part split encoded
    simp only [encodeManifestEntry, Result.bind_eq_ok, ensure_eq_ok, pure, Except.pure,
      Except.ok.injEq] at encoded
    obtain ⟨_, rfl, message, encoded, framed, first, signature, second, rfl⟩ := encoded
    rw [split] at sorted
    unfold readManifestEntry
    apply Reads.bind (Reader.reads_variable first)
    apply Reads.last (Reader.reads_variable second)
    apply Reads.ofExcept (decodeManifestMessage_manifestM encoded)
    exact Reads.require (follows_of_sorted sorted) (Reads.pure _)

theorem encodeLog_eq (previous : Option Nat) (log : List ControlRecord) :
    encodeLog previous log = encodeAscending ControlRecord.id
      (.invalidInput "instruction log is not strictly ordered")
      (fun record => encodeControlRecord record >>= pushVariable) previous log := by
  induction log generalizing previous with
  | nil => rfl
  | cons record log ih =>
    unfold encodeLog encodeAscending
    simp only [ih, bind_assoc]

theorem reads_log {log : List ControlRecord} (fits : ∀ record ∈ log, record.id ≤ u64Max)
    (counted : log.length ≤ u32Max) (written : encodeLog none log = .ok out) :
    Reads (Reader.readSection 4 readLogRecord) (toBE 4 log.length ++ out) log := by
  rw [encodeLog_eq] at written
  obtain ⟨_, sorted, parts, pairs, rfl⟩ := encodeAscending_eq_ok written
  apply Reader.reads_parts counted pairs (by decide)
  · intro record _ part encoded
    obtain ⟨inner, _, framed⟩ := Result.bind_eq_ok.mp encoded
    rw [length_pushVariable framed]
    omega
  · intro before record after part split encoded
    obtain ⟨inner, encoded, framed⟩ := Result.bind_eq_ok.mp encoded
    have small := fits record (by simp [split])
    rw [split] at sorted
    unfold readLogRecord
    apply Reads.last (Reader.reads_embedded framed (decodeControlRecord_encode small encoded))
    exact Reads.require (follows_of_sorted sorted) (Reads.pure record)

theorem reads_queueContent {content : QueueContent} (fits : ContentFits content)
    (written : encodeQueueContent content = .ok out) : Reads readQueueContent out content := by
  unfold readQueueContent
  cases content with
  | control record =>
    simp only [encodeQueueContent, Result.bind_eq_ok, pure, Except.pure, Except.ok.injEq] at written
    obtain ⟨inner, encoded, framed, pushed, rfl⟩ := written
    apply Reader.reads_tag
    exact Reads.map (Reader.reads_embedded pushed (decodeControlRecord_encode fits encoded)) _
  | chunk fileId index chunkId =>
    cases written
    apply Reader.reads_tag
    apply Reads.bind (Reader.reads_id fileId.val)
    apply Reads.bind (Reader.reads_u64 fits)
    exact Reads.map (Reader.reads_id chunkId.val) _

theorem length_encodeQueueContent {content : QueueContent}
    (written : encodeQueueContent content = .ok out) : 1 ≤ out.length := by
  cases content with
  | control record =>
    simp only [encodeQueueContent, Result.bind_eq_ok, pure, Except.pure, Except.ok.injEq] at written
    obtain ⟨inner, _, framed, _, rfl⟩ := written
    simp
  | chunk fileId index chunkId =>
    cases written
    simp

theorem reads_queue {queue : List QueueContent} (fits : ∀ content ∈ queue, ContentFits content)
    (written : encodeSection encodeQueueContent queue = .ok out) :
    Reads (Reader.readSection 1 fun _ => readQueueContent) out queue := by
  apply Reader.reads_section written (by decide)
  · exact fun content _ part encoded => length_encodeQueueContent encoded
  · intro before content after part split encoded
    exact reads_queueContent (fits content (by simp [split])) encoded

theorem reads_entryPeer {β : Type} {disorder : Error} {entry : PeerId × β}
    {before after : List (PeerId × β)}
    (sorted : (before ++ entry :: after).Pairwise fun a b => a.1 < b.1) :
    Reads (readPeerId disorder (before.map Prod.fst)) (idBytes entry.1.val) entry.1 := by
  have mapped : (before.map Prod.fst ++ entry.1 :: after.map Prod.fst).Pairwise
      fun a b => id a < id b := by
    have := List.pairwise_map.mpr sorted
    rwa [List.map_append, List.map_cons] at this
  apply Reads.last (Reader.reads_id entry.1.val)
  exact Reads.require (follows_of_sorted mapped) (Reads.pure entry.1)

theorem reads_peerEntry {β : Type} {disorder : Error} {read : Action Error Bytes β}
    {entry : PeerId × β} {before after : List (PeerId × β)} {value : Bytes}
    (sorted : (before ++ entry :: after).Pairwise fun a b => a.1 < b.1)
    (inner : Reads read value entry.2) :
    Reads (readPeerEntry disorder read before) (idBytes entry.1.val ++ value) entry := by
  apply Reads.bind (reads_entryPeer sorted)
  exact Reads.map inner _

theorem reads_mailboxes {disorder : Error} {mailboxes : Map PeerId (List QueueContent)}
    (fits : ∀ entry ∈ mailboxes.toList, ∀ content ∈ entry.2, ContentFits content)
    (written : encodeSection encodeMailbox mailboxes.toList = .ok out) :
    Reads (Reader.readSection (32 + 4) (readPeerEntry disorder
      (Reader.readSection 1 fun _ => readQueueContent))) out mailboxes.toList := by
  have sorted := Map.toList_sorted mailboxes
  apply Reader.reads_section written (by decide)
  · intro entry _ part encoded
    obtain ⟨queue, inner, done⟩ := Result.bind_eq_ok.mp encoded
    obtain ⟨_, parts, _, rfl⟩ := encodeSection_eq_ok.mp inner
    cases done
    rw [List.length_append, length_idBytes, List.length_append, length_toBE]
    omega
  · intro before entry after part split encoded
    obtain ⟨queue, inner, done⟩ := Result.bind_eq_ok.mp encoded
    cases done
    have read := reads_queue (fits entry (by simp [split])) inner
    rw [split] at sorted
    exact reads_peerEntry sorted read

theorem reads_acks {disorder : Error} {acks : Map PeerId Nat}
    (fits : ∀ entry ∈ acks.toList, entry.2 ≤ u64Max)
    (written : encodeSection encodePosition acks.toList = .ok out) :
    Reads (Reader.readSection 40 (readPeerEntry disorder Reader.u64)) out acks.toList := by
  have sorted := Map.toList_sorted acks
  apply Reader.reads_section written (by decide)
  · intro entry _ part encoded
    cases encoded
    rw [List.length_append, length_idBytes, length_toBE]
  · intro before entry after part split encoded
    cases encoded
    have read := Reader.reads_u64 (fits entry (by simp [split]))
    rw [split] at sorted
    exact reads_peerEntry sorted read

theorem reads_chunkIndex {chunkIndex : Map ChunkId (FileId × Nat)}
    (fits : ∀ entry ∈ chunkIndex.toList, entry.2.2 ≤ u64Max)
    (written : encodeSection encodeChunkIndex chunkIndex.toList = .ok out) :
    Reads (Reader.readSection 72 readChunkEntry) out chunkIndex.toList := by
  have sorted := Map.toList_sorted chunkIndex
  apply Reader.reads_section written (by decide)
  · intro entry _ part encoded
    cases encoded
    rw [List.length_append, List.length_append, length_idBytes, length_idBytes, length_toBE]
  · intro before entry after part split encoded
    cases encoded
    have small := fits entry (by simp [split])
    rw [split] at sorted
    rw [List.append_assoc]
    apply Reads.bind (Reader.reads_id entry.1.val)
    apply Reads.require (follows_of_sorted sorted)
    apply Reads.bind (Reader.reads_id entry.2.1.val)
    exact Reads.map (Reader.reads_u64 small) _

theorem reads_admission {admission : Option VaultMetadata}
    (fits : ∀ metadata ∈ admission, metadata.issuedAt ≤ u64Max)
    (distinct : ∀ metadata ∈ admission, metadata.members.Nodup)
    (written : encodeAdmission admission = .ok out) : Reads readAdmission out admission := by
  unfold readAdmission
  cases admission with
  | none =>
    cases written
    exact Reader.reads_tag 0 (Reads.pure none)
  | some metadata =>
    simp only [encodeAdmission, Result.bind_eq_ok, pure, Except.pure, Except.ok.injEq] at written
    obtain ⟨inner, encoded, framed, pushed, rfl⟩ := written
    have decoded := decodeVaultMetadata_encode (fits metadata rfl) (distinct metadata rfl) encoded
    apply Reader.reads_tag
    exact Reads.map (Reader.reads_embedded pushed decoded) some

theorem fails_admission {metadata : VaultMetadata} (fits : metadata.issuedAt ≤ u64Max)
    (repeated : ¬metadata.members.Nodup) (written : encodeAdmission (some metadata) = .ok out) :
    Fails readAdmission out (.invalidInput "duplicate vault member") := by
  simp only [encodeAdmission, Result.bind_eq_ok, pure, Except.pure, Except.ok.injEq] at written
  obtain ⟨inner, encoded, framed, pushed, rfl⟩ := written
  unfold readAdmission
  apply Fails.later (Reader.reads_byte 1)
  exact .first (Reader.fails_embedded pushed (decodeVaultMetadata_repeated fits repeated encoded))

theorem reads_documents {documents : Map PeerId IdentityDocument}
    (written : encodeSection encodeDocument documents.toList = .ok out) :
    Reads (Reader.readSection 36 readDocument) out documents.toList := by
  have sorted := Map.toList_sorted documents
  apply Reader.reads_section written (by decide)
  · intro entry _ part encoded
    simp only [encodeDocument, Result.bind_eq_ok, ensure_eq_ok, pure, Except.pure,
      Except.ok.injEq] at encoded
    obtain ⟨_, _, inner, _, framed, pushed, rfl⟩ := encoded
    rw [List.length_append, length_idBytes, length_pushVariable pushed]
    omega
  · intro before entry after part split encoded
    simp only [encodeDocument, Result.bind_eq_ok, ensure_eq_ok, pure, Except.pure,
      Except.ok.injEq] at encoded
    obtain ⟨_, keyed, inner, encoded, framed, pushed, rfl⟩ := encoded
    rw [split] at sorted
    unfold readDocument
    apply Reads.bind (reads_entryPeer sorted)
    apply Reads.last (Reader.reads_embedded pushed (decodeIdentity_encodeIdentity encoded))
    exact Reads.require keyed (Reads.pure entry)

theorem reads_bootstraps {metadata : ReplicaMetadata} (small : metadata.nextControl ≤ u64Max)
    (written : encodeSection (encodeBootstrap metadata) metadata.bootstrapThrough.toList = .ok out) :
    Reads (readBootstraps 2 metadata.members metadata.nextControl) out
      metadata.bootstrapThrough.toList := by
  have sorted := Map.toList_sorted metadata.bootstrapThrough
  unfold readBootstraps
  rw [if_pos (by decide)]
  apply Reader.reads_section written (by decide)
  · intro entry _ part encoded
    obtain ⟨_, _, encoded⟩ := Result.bind_eq_ok.mp encoded
    cases encoded
    rw [List.length_append, length_idBytes, length_toBE]
  · intro before entry after part split encoded
    obtain ⟨_, covered, encoded⟩ := Result.bind_eq_ok.mp encoded
    obtain ⟨member, below⟩ := ensure_eq_ok.mp covered
    cases encoded
    have fits : entry.2 ≤ u64Max := by omega
    rw [split] at sorted
    unfold readBootstrap
    apply Reads.bind (Reader.reads_id entry.1.val)
    apply Reads.last (Reader.reads_u64 fits)
    exact Reads.require ⟨follows_of_sorted sorted, member, below⟩ (Reads.pure entry)

def extensionOf (metadata : ReplicaMetadata) : ReplicaExtension where
  denied := metadata.denied
  admission := metadata.admission
  historicalMembers := metadata.historicalMembers
  identityDocuments := metadata.identityDocuments
  bootstrapThrough := metadata.bootstrapThrough

theorem readsAll_replicaExtension {metadata : ReplicaMetadata} (fits : ReplicaFits metadata)
    (distinct : ∀ admission ∈ metadata.admission, admission.members.Nodup)
    (written : encodeExtension metadata = .ok out) :
    ReadsAll (readReplicaExtension metadata.members metadata.nextControl) out
      (extensionOf metadata) := by
  simp only [encodeExtension, Result.bind_eq_ok, pure, Except.pure, Except.ok.injEq] at written
  obtain ⟨denied, first, admission, second, historical, third, documents, fourth, bootstraps, fifth,
    rfl⟩ := written
  have built : ({
      denied := OrdSet.ofList metadata.denied.toList
      admission := metadata.admission
      historicalMembers := OrdSet.ofList metadata.historicalMembers.toList
      identityDocuments := .ofList metadata.identityDocuments.toList compare
      bootstrapThrough := .ofList metadata.bootstrapThrough.toList compare } : ReplicaExtension) =
        extensionOf metadata := by
    rw [ofList_toList, ofList_toList, Map.ofList_toList, Map.ofList_toList]
    rfl
  unfold readReplicaExtension
  simp only [List.append_assoc]
  apply Reader.readsAll_tag
  apply ReadsAll.require (.inr rfl)
  apply ReadsAll.bind (reads_peerIds first)
  apply ReadsAll.bind (reads_admission fits.issuedAt distinct second)
  apply ReadsAll.bind (reads_peerIds third)
  apply ReadsAll.bind (reads_documents fourth)
  apply ReadsAll.then_nil (reads_bootstraps fits.nextControl fifth).all
  apply ReadsAll.then_nil Reader.readsAll_finish
  rw [built]
  exact ReadsAll.pure _

theorem fails_replicaExtension {metadata : ReplicaMetadata} {admission : VaultMetadata}
    (fits : ReplicaFits metadata) (isAdmission : metadata.admission = some admission)
    (repeated : ¬admission.members.Nodup) (written : encodeExtension metadata = .ok out) :
    Fails (readReplicaExtension metadata.members metadata.nextControl) out
      (.invalidInput "duplicate vault member") := by
  simp only [encodeExtension, Result.bind_eq_ok, pure, Except.pure, Except.ok.injEq] at written
  obtain ⟨denied, first, record, second, historical, -, documents, -, bootstraps, -, rfl⟩ := written
  rw [isAdmission] at second
  have refused := fails_admission (fits.issuedAt admission isAdmission) repeated second
  unfold readReplicaExtension
  simp only [List.append_assoc]
  apply Fails.later (Reader.reads_byte 2)
  apply Fails.require (.inr rfl)
  apply Fails.later (reads_peerIds first)
  exact (Fails.first refused).append _

theorem readsAll_replicaBody {metadata : ReplicaMetadata} (fits : ReplicaFits metadata)
    (distinct : ∀ admission ∈ metadata.admission, admission.members.Nodup)
    (written : encodeReplicaBody metadata = .ok out) :
    ∃ tree, DirectoryTree.fromDirents metadata.expectedRoot metadata.dirents = .ok tree ∧
      ReadsAll (readReplicaBody metadata.expectedRoot) out
        { metadata with dirents := tree.dirents } := by
  simp only [encodeReplicaBody, Result.bind_eq_ok, pushLength_eq_ok, pure, Except.pure,
    Except.ok.injEq] at written
  obtain ⟨tree, loaded, dirents, first, members, second, manifests, third, _, ⟨counted, rfl⟩, log,
    fourth, mailboxes, fifth, acks, sixth, chunks, seventh, inner, eighth, extension, ninth, rfl⟩ :=
    written
  refine ⟨tree, loaded, ?_⟩
  have records := reads_log fits.log counted fourth
  have queues := @reads_mailboxes _ (.invalidInput "replica mailboxes are not canonical") _
    fits.mailboxes fifth
  have positions := @reads_acks _ (.invalidInput "replica acknowledgements are not canonical") _
    fits.ackedThrough sixth
  have index := reads_chunkIndex fits.chunkIndex seventh
  have extended := @readsAll_extension _ (ReplicaExtension.absent metadata.members) _ _ _ _ ninth
    (readsAll_replicaExtension fits distinct eighth)
  unfold readReplicaBody
  simp only [List.append_assoc]
  apply ReadsAll.bind (Reader.reads_id _)
  apply ReadsAll.require rfl
  apply ReadsAll.bind (reads_dirents first)
  apply ReadsAll.ofExcept (DirectoryTree.fromDirents_idem loaded).1
  apply ReadsAll.bind (reads_peerIds second)
  apply ReadsAll.bind (reads_manifests third)
  rw [← List.append_assoc]
  apply ReadsAll.bind records
  apply ReadsAll.bind (Reader.reads_u64 fits.nextControl)
  apply ReadsAll.bind queues
  apply ReadsAll.bind positions
  apply ReadsAll.bind index
  rw [ofList_toList]
  apply ReadsAll.then_nil extended
  apply ReadsAll.then_nil Reader.readsAll_finish
  rw [Map.ofList_toList, Map.ofList_toList, Map.ofList_toList, Map.ofList_toList]
  exact ReadsAll.pure _

theorem fails_replicaBody {metadata : ReplicaMetadata} {admission : VaultMetadata}
    (fits : ReplicaFits metadata) (isAdmission : metadata.admission = some admission)
    (repeated : ¬admission.members.Nodup) (written : encodeReplicaBody metadata = .ok out) :
    Fails (readReplicaBody metadata.expectedRoot) out (.invalidInput "duplicate vault member") := by
  simp only [encodeReplicaBody, Result.bind_eq_ok, pushLength_eq_ok, pure, Except.pure,
    Except.ok.injEq] at written
  obtain ⟨tree, loaded, dirents, first, members, second, manifests, third, _, ⟨counted, rfl⟩, log,
    fourth, mailboxes, fifth, acks, sixth, chunks, seventh, inner, eighth, extension, ninth, rfl⟩ :=
    written
  have records := reads_log fits.log counted fourth
  have queues := @reads_mailboxes _ (.invalidInput "replica mailboxes are not canonical") _
    fits.mailboxes fifth
  have positions := @reads_acks _ (.invalidInput "replica acknowledgements are not canonical") _
    fits.ackedThrough sixth
  have index := reads_chunkIndex fits.chunkIndex seventh
  have refused := @fails_extension _ (ReplicaExtension.absent metadata.members) _ _ _ _ ninth
    (fails_replicaExtension fits isAdmission repeated eighth)
  unfold readReplicaBody
  simp only [List.append_assoc]
  apply Fails.later (Reader.reads_id _)
  apply Fails.require rfl
  apply Fails.later (reads_dirents first)
  apply Fails.ofExcept (DirectoryTree.fromDirents_idem loaded).1
  apply Fails.later (reads_peerIds second)
  apply Fails.later (reads_manifests third)
  rw [← List.append_assoc]
  apply Fails.later records
  apply Fails.later (Reader.reads_u64 fits.nextControl)
  apply Fails.later queues
  apply Fails.later positions
  apply Fails.later index
  rw [ofList_toList]
  exact .first refused

end

theorem take_drop_field {before field after : Bytes} {start length : Nat}
    (offset : before.length = start) (width : field.length = length) :
    ((before ++ (field ++ after)).drop start).take length = field := by
  rw [List.drop_left' offset, List.take_left' width]

def signedReplica (generation : Nat) (body : Bytes) : Bytes :=
  ascii "qfs/local/replica/" ++ [localFormatVersion] ++ toBE 8 generation ++ toBE 4 body.length ++
    body

theorem length_signedReplica (generation : Nat) (body : Bytes) :
    (signedReplica generation body).length = replicaMagic.length + 1 + 8 + 4 + body.length := by
  simp only [signedReplica, replicaMagic, List.length_append, List.length_singleton, length_toBE]

theorem decodeReplica_signed [Primitives] {generation : Nat} {body : Bytes} {root : FileId}
    (small : generation ≤ u64Max) (bounded : body.length ≤ u32Max)
    (limited : (signedReplica generation body ++
      idBytes (sha256 (signedReplica generation body))).length ≤ maxReplicaBytes) :
    decodeReplica (signedReplica generation body ++
      idBytes (sha256 (signedReplica generation body))) root =
        ((readReplicaBody root body).1 >>= fun metadata => pure (generation, metadata)) := by
  have size := length_signedReplica generation body
  generalize sealed : idBytes (sha256 (signedReplica generation body)) = digest at limited ⊢
  have digestSize : digest.length = 32 := by rw [← sealed, length_idBytes]
  have whole : (signedReplica generation body ++ digest).length =
      replicaMagic.length + 1 + 8 + 4 + body.length + 32 := by
    rw [List.length_append, size, digestSize]
  have magic : (signedReplica generation body ++ digest).take replicaMagic.length = replicaMagic := by
    simp only [signedReplica, List.append_assoc]
    exact List.take_left' rfl
  have version : (signedReplica generation body ++ digest)[replicaMagic.length]? =
      some localFormatVersion := by
    simp only [signedReplica, List.append_assoc]
    rw [replicaMagic, List.getElem?_append_right (Nat.le_refl _), Nat.sub_self]
    rfl
  have generationField : ofBE (((signedReplica generation body ++ digest).drop
      (replicaMagic.length + 1)).take 8) = generation := by
    rw [signedReplica, List.append_assoc, List.append_assoc, List.append_assoc,
      take_drop_field (by simp [replicaMagic]) (length_toBE 8 generation)]
    apply ofBE_toBE
    unfold u64Max at small
    omega
  have bodyField : ofBE (((signedReplica generation body ++ digest).drop
      (replicaMagic.length + 1 + 8)).take 4) = body.length := by
    rw [signedReplica, List.append_assoc, List.append_assoc,
      take_drop_field (by simp [replicaMagic]) (length_toBE 4 body.length)]
    apply ofBE_toBE
    unfold u32Max at bounded
    omega
  have front : (signedReplica generation body ++ digest).take
      (replicaMagic.length + 1 + 8 + 4 + body.length) = signedReplica generation body :=
    List.take_left' size
  have back : (signedReplica generation body ++ digest).drop
      (replicaMagic.length + 1 + 8 + 4 + body.length) = digest := List.drop_left' size
  have inner : (signedReplica generation body).drop (replicaMagic.length + 1 + 8 + 4) = body :=
    List.drop_left' (by simp [replicaMagic])
  have sized : (signedReplica generation body ++ digest).length ≤ maxReplicaBytes ∧
      replicaMagic.length + 1 + 8 + 4 + 32 ≤ (signedReplica generation body ++ digest).length :=
    ⟨limited, by omega⟩
  unfold decodeReplica
  simp only [bodyField, generationField, front, back, inner]
  rw [ensure_bind sized, ensure_bind magic, ensure_bind version, ensure_bind whole.symm, ensure_bind sealed]

theorem encodeReplica_eq_ok [Primitives] {metadata : ReplicaMetadata} {generation : Nat} {out : Bytes}
    (written : encodeReplica metadata generation = .ok out) :
    ∃ body, encodeReplicaBody metadata = .ok body ∧ body.length ≤ u32Max ∧
      out = signedReplica generation body ++ idBytes (sha256 (signedReplica generation body)) ∧
      out.length ≤ maxReplicaBytes := by
  obtain ⟨body, encoded, written⟩ := Result.bind_eq_ok.mp written
  obtain ⟨_, bounded, written⟩ := Result.bind_eq_ok.mp written
  obtain ⟨_, limited, done⟩ := Result.bind_eq_ok.mp written
  obtain rfl := Except.ok.inj done
  have bounded := ensure_eq_ok.mp bounded
  refine ⟨body, encoded, ?_, rfl, ensure_eq_ok.mp limited⟩
  unfold maxReplicaBytes at bounded
  unfold u32Max
  omega

theorem decodeReplica_encodeReplica [Primitives] {metadata : ReplicaMetadata} {generation : Nat}
    {out : Bytes} (fits : ReplicaFits metadata)
    (distinct : ∀ admission ∈ metadata.admission, admission.members.Nodup)
    (small : generation ≤ u64Max) (written : encodeReplica metadata generation = .ok out) :
    ∃ tree, DirectoryTree.fromDirents metadata.expectedRoot metadata.dirents = .ok tree ∧
      decodeReplica out metadata.expectedRoot =
        .ok (generation, { metadata with dirents := tree.dirents }) := by
  obtain ⟨body, encoded, counted, rfl, limited⟩ := encodeReplica_eq_ok written
  obtain ⟨tree, loaded, read⟩ := readsAll_replicaBody fits distinct encoded
  refine ⟨tree, loaded, (decodeReplica_signed small counted limited).trans ?_⟩
  rw [read.result]
  rfl

theorem fails_otherRoot {metadata : ReplicaMetadata} {root : FileId} {out : Bytes}
    (other : metadata.expectedRoot ≠ root) (written : encodeReplicaBody metadata = .ok out) :
    Fails (readReplicaBody root) out (.state "replica belongs to a different vault root") := by
  simp only [encodeReplicaBody, Result.bind_eq_ok, pure, Except.pure, Except.ok.injEq] at written
  obtain ⟨_, -, _, -, _, -, _, -, _, -, _, -, _, -, _, -, _, -, _, -, _, -, rfl⟩ := written
  unfold readReplicaBody
  simp only [List.append_assoc]
  apply Fails.later (Reader.reads_id _)
  exact Fails.refused other _

theorem decodeReplica_written [Primitives] {metadata : ReplicaMetadata} {generation : Nat} {out : Bytes}
    (fits : ReplicaFits metadata) (small : generation ≤ u64Max)
    (written : encodeReplica metadata generation = .ok out) (root : FileId) :
    decodeReplica out root = (do
      ensure (metadata.expectedRoot = root) (.state "replica belongs to a different vault root")
      let stored ← metadata.reread
      pure (generation, stored)) := by
  obtain ⟨body, encoded, counted, isOut, limited⟩ := encodeReplica_eq_ok written
  by_cases same : metadata.expectedRoot = root
  · subst same
    rw [ensure_bind rfl]
    by_cases distinct : ∀ admission ∈ metadata.admission, admission.members.Nodup
    · obtain ⟨tree, loaded, decoded⟩ := decodeReplica_encodeReplica fits distinct small written
      rw [decoded, ReplicaMetadata.reread_eq_ok.mpr ⟨tree, loaded, distinct, rfl⟩]
      rfl
    · obtain ⟨tree, loaded⟩ := fromDirents_of_encodeReplica written
      have refused : metadata.reread = .error (.invalidInput "duplicate vault member") := by
        unfold ReplicaMetadata.reread
        rw [loaded, show ensure _ _ = .error _ from ensure_eq_error.mpr ⟨distinct, rfl⟩]
        rfl
      simp only [not_forall, exists_prop] at distinct
      obtain ⟨admission, isAdmission, repeated⟩ := distinct
      rw [isOut] at limited ⊢
      rw [decodeReplica_signed small counted limited,
        (fails_replicaBody fits isAdmission repeated encoded).result, refused]
  · rw [isOut] at limited ⊢
    rw [decodeReplica_signed small counted limited, (fails_otherRoot same encoded).result,
      show ensure (metadata.expectedRoot = root) _ = .error _ from ensure_eq_error.mpr ⟨same, rfl⟩]
    rfl

/-- A snapshot that was written opens again, with its generation and with the
entries of its directory tree in canonical order. -/
theorem replica_snapshot_round_trip [Primitives] (metadata : ReplicaMetadata) (generation : Nat)
    (out : Bytes) (fits : ReplicaFits metadata)
    (distinct : ∀ admission ∈ metadata.admission, admission.members.Nodup)
    (small : generation ≤ u64Max) (written : encodeReplica metadata generation = .ok out) :
    ∃ dirents, decodeReplica out metadata.expectedRoot =
        .ok (generation, { metadata with dirents }) ∧
      (dirents.Pairwise fun a b => a.key < b.key) ∧
      (metadata.dirents ≠ [] → dirents = metadata.dirents) ∧
      (metadata.dirents = [] → dirents = [DirectoryTree.rootDirent metadata.expectedRoot]) := by
  obtain ⟨tree, loaded, decoded⟩ := decodeReplica_encodeReplica fits distinct small written
  refine ⟨tree.dirents, decoded, (DirectoryTree.fromDirents_idem loaded).2, ?_, ?_⟩
  · exact fun present => (DirectoryTree.dirents_of_fromDirents present loaded).1
  · intro absent
    rw [DirectoryTree.fromDirents, if_pos absent] at loaded
    cases loaded
    rfl

/-- Two members share a folder with one file, whose instruction and chunk wait for the second one. -/
def sharedSnapshot : ReplicaMetadata where
  expectedRoot := ⟨1⟩
  dirents := [DirectoryTree.rootDirent ⟨1⟩, ⟨⟨1⟩, "docs", ⟨5⟩, true⟩, ⟨⟨5⟩, "note", ⟨2⟩, false⟩]
  members := OrdSet.ofList [⟨11⟩, ⟨12⟩]
  manifests := (∅ : Map FileId Manifest).insert ⟨2⟩ ⟨⟨2⟩, [⟨21⟩, ⟨22⟩], 6, ⟨11⟩, 1, [7, 8]⟩
  log := [⟨1, .link ⟨1⟩ "docs" ⟨5⟩ true⟩, ⟨2, .newManifest ⟨⟨2⟩, [⟨21⟩, ⟨22⟩], 6, ⟨11⟩, 1, [7, 8]⟩⟩,
    ⟨3, .link ⟨5⟩ "note" ⟨2⟩ false⟩]
  nextControl := 4
  mailboxes := (∅ : Map PeerId (List QueueContent)).insert ⟨12⟩
    [.control ⟨3, .link ⟨5⟩ "note" ⟨2⟩ false⟩, .chunk ⟨2⟩ 1 ⟨22⟩]
  ackedThrough := ((∅ : Map PeerId Nat).insert ⟨11⟩ 3).insert ⟨12⟩ 2
  chunkIndex := ((∅ : Map ChunkId (FileId × Nat)).insert ⟨21⟩ (⟨2⟩, 0)).insert ⟨22⟩ (⟨2⟩, 1)
  denied := OrdSet.ofList [⟨13⟩]
  admission := some ⟨⟨31⟩, ⟨32⟩, 5, [⟨12⟩, ⟨11⟩], OrdSet.ofList [⟨13⟩]⟩
  historicalMembers := OrdSet.ofList [⟨11⟩, ⟨12⟩, ⟨13⟩]
  identityDocuments := (∅ : Map PeerId IdentityDocument).insert ⟨12⟩ ⟨⟨12⟩, [1], [2], 3, [4]⟩
  bootstrapThrough := (∅ : Map PeerId Nat).insert ⟨12⟩ 1

theorem replica_snapshot_round_trip_shared :
    letI := Primitives.plain
    ∃ out, encodeReplica sharedSnapshot 9 = .ok out ∧ decodeReplica out ⟨1⟩ = .ok (9, sharedSnapshot) := by
  let := Primitives.plain
  have fits : ReplicaFits sharedSnapshot := by
    constructor <;> decide +kernel
  have isSome : (encodeReplica sharedSnapshot 9).toOption.isSome = true := by decide +kernel
  cases written : encodeReplica sharedSnapshot 9 with
  | error e =>
    rw [written] at isSome
    cases isSome
  | ok out =>
    obtain ⟨dirents, decoded, -, same, -⟩ :=
      replica_snapshot_round_trip sharedSnapshot 9 out fits (by decide +kernel) (by decide) written
    rw [same (List.cons_ne_nil _ _)] at decoded
    exact ⟨out, rfl, decoded⟩

end QuantumFs.Encoding
