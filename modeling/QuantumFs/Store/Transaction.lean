import QuantumFs.Lib.Crash
import QuantumFs.Encoding.Local
import QuantumFs.Store.Chunks

/-! The paired update of a replica snapshot and the admission file of its vault
(`store/transaction.rs`), on a disk whose writes and removals are atomic. The
journal holds the old pair; recovery puts it back. -/
namespace QuantumFs.Store

open Lib Encoding

structure FileAt (δ : Type) where
  get : δ → Option Bytes
  put : Option Bytes → δ → δ

section

variable {δ : Type}

def readBounded (file : FileAt δ) (maximum : Nat) : Program Error δ (Option Bytes) :=
  .read .io fun disk =>
    match file.get disk with
    | none => .ok none
    | some bytes =>
      if bytes.length ≤ maximum then .ok (some bytes)
      else .error (.invalidInput "invalid admission transaction file")

def atomicPrivateWriteBounded (file : FileAt δ) (bytes : Bytes) (maximum : Nat) :
    Program Error δ Unit := do
  .require (bytes.length ≤ maximum) (.invalidInput "keystore file is too large")
  .change .io (file.put (some bytes))

def atomicPrivateWrite (file : FileAt δ) (bytes : Bytes) : Program Error δ Unit :=
  atomicPrivateWriteBounded file bytes maxStoreBytes

def removeAndSync (file : FileAt δ) : Program Error δ Unit := .change .io (file.put none)

def restore (file : FileAt δ) (bytes : Bytes) : Program Error δ Unit :=
  if bytes ≠ [] then atomicPrivateWrite file bytes else removeAndSync file

variable {file : FileAt δ} {disk : δ} {β : Type} {f : Unit → Program Error δ β}
  {Q : Except (Halt Error) β → δ → Prop}

theorem readBounded_ends {maximum : Nat} {f : Option Bytes → Program Error δ β}
    (err : ∀ stop, Q (.error stop) disk)
    (ok : (∀ bytes ∈ file.get disk, bytes.length ≤ maximum) → (f (file.get disk)).Ends disk Q) :
    (readBounded file maximum >>= f).Ends disk Q := by
  refine .read_bind err fun found h => ?_
  split at h
  · rename_i missing
    cases h
    rw [missing] at ok
    exact ok nofun
  · rename_i bytes present
    split at h
    · rename_i small
      cases h
      rw [present] at ok
      exact ok fun _ same => Option.some.inj same ▸ small
    · cases h

theorem atomicPrivateWriteBounded_ends {bytes : Bytes} {maximum : Nat}
    {Q : Except (Halt Error) Unit → δ → Prop} (undone : ∀ stop, Q (.error stop) disk)
    (done : ∀ stop, Q (.error stop) (file.put (some bytes) disk))
    (ok : Q (.ok ()) (file.put (some bytes) disk)) :
    (atomicPrivateWriteBounded file bytes maximum).Ends disk Q := by
  unfold atomicPrivateWriteBounded
  exact .require undone fun _ => .change ok undone done

theorem atomicPrivateWriteBounded_bind {bytes : Bytes} {maximum : Nat}
    (undone : ∀ stop, Q (.error stop) disk)
    (done : ∀ stop, Q (.error stop) (file.put (some bytes) disk))
    (ok : (f ()).Ends (file.put (some bytes) disk) Q) :
    (atomicPrivateWriteBounded file bytes maximum >>= f).Ends disk Q :=
  .bind (atomicPrivateWriteBounded_ends undone done ok)

theorem restore_ends {old : Option Bytes} (present : old ≠ some [])
    (undone : ∀ stop, Q (.error stop) disk) (done : ∀ stop, Q (.error stop) (file.put old disk))
    (ok : (f ()).Ends (file.put old disk) Q) : (restore file (old.getD []) >>= f).Ends disk Q := by
  unfold restore
  cases old with
  | none =>
    rw [if_neg (by simp)]
    exact .change_bind undone done ok
  | some bytes =>
    have filled : bytes ≠ [] := fun empty => present (congrArg some empty)
    rw [Option.getD_some, if_pos filled]
    exact atomicPrivateWriteBounded_bind undone done ok

theorem readBounded_quiet {maximum : Nat} (small : ∀ bytes ∈ file.get disk, bytes.length ≤ maximum) :
    readBounded file maximum ⟨disk, []⟩ = (.ok (file.get disk), ⟨disk, []⟩) := by
  apply Program.read_quiet
  cases found : file.get disk with
  | none => rfl
  | some bytes => exact if_pos (small bytes found)

theorem atomicPrivateWriteBounded_quiet {bytes : Bytes} {maximum : Nat}
    (small : bytes.length ≤ maximum) :
    atomicPrivateWriteBounded file bytes maximum ⟨disk, []⟩ =
      (.ok (), ⟨file.put (some bytes) disk, []⟩) := by
  unfold atomicPrivateWriteBounded
  exact Action.bind_ok ((Action.require_eq_ok _ _ _ _).mpr ⟨small, rfl⟩)

theorem restore_quiet {old : Option Bytes} (present : old ≠ some [])
    (small : ∀ bytes ∈ old, bytes.length ≤ maxStoreBytes) :
    restore file (old.getD []) ⟨disk, []⟩ = (.ok (), ⟨file.put old disk, []⟩) := by
  unfold restore
  cases old with
  | none => rfl
  | some bytes =>
    have filled : bytes ≠ [] := fun empty => present (congrArg some empty)
    rw [Option.getD_some, if_pos filled]
    exact atomicPrivateWriteBounded_quiet (small bytes rfl)

end

def maxAdmissionBytes : Nat := 1024 * 1024

def maxJournalBytes : Nat := 17 * 1024 * 1024 + 256

structure Pair where
  replica : Option Bytes
  admission : Option Bytes
deriving DecidableEq

/-- The files of one vault directory that a transaction touches. -/
structure VaultFiles extends Pair where
  journal : Option Bytes
deriving DecidableEq

namespace VaultFiles

def replicaFile : FileAt VaultFiles := ⟨(·.replica), fun bytes files => { files with replica := bytes }⟩

def admissionFile : FileAt VaultFiles :=
  ⟨(·.admission), fun bytes files => { files with admission := bytes }⟩

def journalFile : FileAt VaultFiles := ⟨(·.journal), fun bytes files => { files with journal := bytes }⟩

end VaultFiles

open VaultFiles

variable [Crypto.Primitives]

def publish (replica admission : Bytes) : Program Error VaultFiles Unit := do
  atomicPrivateWrite admissionFile admission
  atomicPrivateWrite replicaFile replica
  removeAndSync journalFile

def rollBack (oldReplica oldAdmission : Bytes) : Program Error VaultFiles Unit := do
  restore admissionFile oldAdmission
  restore replicaFile oldReplica
  removeAndSync journalFile

def persistInner (replica admission : Bytes) : Program Error VaultFiles Unit := do
  .require (admission.length ≤ maxAdmissionBytes) (.invalidInput "vault admission file is too large")
  let oldReplica ← readBounded replicaFile maxReplicaBytes
  let oldAdmission ← readBounded admissionFile maxAdmissionBytes
  let journal ← .compute
    (encodeAdmissionTransaction (oldReplica.getD []) (oldAdmission.getD []))
  atomicPrivateWriteBounded journalFile journal maxJournalBytes
  .onError (publish replica admission) fun error => do
    atomicPrivateWriteBounded journalFile journal maxJournalBytes
    rollBack (oldReplica.getD []) (oldAdmission.getD [])
    .fail error

/-- `persist`; a store without a data directory has no snapshot to write. -/
def persistPair (replica : Option Bytes) (admission : Bytes) : Program Error VaultFiles Unit :=
  match replica with
  | none => do
    let oldAdmission ← readBounded admissionFile maxAdmissionBytes
    .onError (atomicPrivateWrite admissionFile admission) fun error => do
      restore admissionFile (oldAdmission.getD [])
      .fail error
  | some replica => persistInner replica admission

def recoverAdmissionTransaction : Program Error VaultFiles Unit := do
  match ← readBounded journalFile maxJournalBytes with
  | none => pure ()
  | some bytes =>
    let old ← .compute (decodeAdmissionTransaction bytes)
    rollBack old.1 old.2

/-- No file is empty. Opening a vault decodes both files and refuses empty ones
before anything is persisted. -/
structure Pair.Stored (pair : Pair) : Prop where
  replica : pair.replica ≠ some []
  admission : pair.admission ≠ some []

/-- Either the journal is gone and the pair is one of the two, or the journal
holds the old pair and the files do not matter. -/
inductive Covered (old new : Pair) : VaultFiles → Prop
  | settled {files : VaultFiles} : files.journal = none → files.toPair = old ∨ files.toPair = new →
      Covered old new files
  | journaled {files : VaultFiles} {bytes : Bytes} : files.journal = some bytes →
      encodeAdmissionTransaction (old.replica.getD []) (old.admission.getD []) = .ok bytes →
      Covered old new files

variable {old new : Pair}

theorem rollBack_ends (new : Pair) (stored : old.Stored) {bytes : Bytes}
    (written : encodeAdmissionTransaction (old.replica.getD []) (old.admission.getD []) = .ok bytes)
    {files : VaultFiles} (journal : files.journal = some bytes) :
    (rollBack (old.replica.getD []) (old.admission.getD [])).Ends files fun r next =>
      Covered old new next ∧ (r = .ok () → next.journal = none ∧ next.toPair = old) := by
  have partway : ∀ {next : VaultFiles} (stop : Halt Error), next.journal = some bytes →
      Covered old new next ∧ (Except.error stop = .ok () → next.journal = none ∧ next.toPair = old) :=
    fun _ kept => ⟨.journaled kept written, nofun⟩
  unfold rollBack
  refine restore_ends stored.admission (partway · journal) (partway · journal) ?_
  refine restore_ends stored.replica (partway · journal) (partway · journal) ?_
  refine .change ⟨.settled rfl (.inl rfl), fun _ => ⟨rfl, rfl⟩⟩ (partway · journal) fun stop => ?_
  exact ⟨.settled rfl (.inl rfl), nofun⟩

theorem recoverAdmissionTransaction_ends (stored : old.Stored) {files : VaultFiles}
    (covered : Covered old new files) :
    recoverAdmissionTransaction.Ends files fun r next =>
      Covered old new next ∧ (r = .ok () → next.journal = none) := by
  unfold recoverAdmissionTransaction
  refine readBounded_ends (fun _ => ⟨covered, nofun⟩) fun _ => ?_
  cases covered with
  | settled journal pair =>
    change Program.Ends (match files.journal with | none => _ | some bytes => _) files _
    rw [journal]
    exact .pure ⟨.settled journal pair, fun _ => journal⟩
  | journaled journal written =>
    change Program.Ends (match files.journal with | none => _ | some bytes => _) files _
    rw [journal]
    refine .compute_bind (fun _ => ⟨.journaled journal written, nofun⟩) fun found decoded => ?_
    rw [decodeAdmissionTransaction_encode written] at decoded
    cases decoded
    exact (rollBack_ends _ stored written journal).mono fun r next ends =>
      ⟨ends.1, fun ok => (ends.2 ok).1⟩

omit [Crypto.Primitives] in
theorem publish_ends {files : VaultFiles} (bytes : Bytes) {replica admission : Bytes}
    (journal : files.journal = some bytes) :
    (publish replica admission).Ends files fun r next =>
      (r = .ok () → next.journal = none) ∧
        (next.journal = some bytes ∨ next = ⟨⟨some replica, some admission⟩, none⟩) := by
  unfold publish
  refine atomicPrivateWriteBounded_bind (fun _ => ⟨nofun, .inl journal⟩)
    (fun _ => ⟨nofun, .inl journal⟩) ?_
  refine atomicPrivateWriteBounded_bind (fun _ => ⟨nofun, .inl journal⟩)
    (fun _ => ⟨nofun, .inl journal⟩) ?_
  exact .change ⟨fun _ => rfl, .inr rfl⟩ (fun _ => ⟨nofun, .inl journal⟩) fun _ => ⟨nofun, .inr rfl⟩

theorem persistInner_ends {files : VaultFiles} (clean : files.journal = none)
    (stored : files.Stored) (replica admission : Bytes) :
    (persistInner replica admission).Ends files fun r next =>
      Covered files.toPair ⟨some replica, some admission⟩ next ∧
        (r = .ok () → next = ⟨⟨some replica, some admission⟩, none⟩) := by
  have before : ∀ stop : Halt Error, Covered files.toPair ⟨some replica, some admission⟩ files ∧
      (Except.error stop = .ok () → files = ⟨⟨some replica, some admission⟩, none⟩) :=
    fun _ => ⟨.settled clean (.inl rfl), nofun⟩
  unfold persistInner
  refine .require before fun _ => readBounded_ends before fun _ => readBounded_ends before fun _ => ?_
  refine .compute_bind before fun journal written => ?_
  refine atomicPrivateWriteBounded_bind before (fun _ => ⟨.journaled rfl written, nofun⟩) ?_
  refine .onError ((publish_ends journal rfl).mono fun r next done => ?_)
  cases r with
  | ok _ =>
    obtain ⟨gone, kept | rfl⟩ := done
    · rw [gone rfl] at kept
      cases kept
    · exact ⟨.settled rfl (.inr rfl), fun _ => rfl⟩
  | error stop =>
    have covered : Covered files.toPair ⟨some replica, some admission⟩ next := by
      obtain ⟨_, kept | rfl⟩ := done
      · exact .journaled kept written
      · exact .settled rfl (.inr rfl)
    cases stop with
    | crash => exact ⟨covered, nofun⟩
    | error e =>
      refine atomicPrivateWriteBounded_bind (fun _ => ⟨covered, nofun⟩)
        (fun _ => ⟨.journaled rfl written, nofun⟩) ?_
      refine .bind ((rollBack_ends ⟨some replica, some admission⟩ stored written rfl).mono
        fun r last ends => ?_)
      cases r with
      | ok _ => exact .fail ⟨ends.1, nofun⟩
      | error stop => exact ⟨ends.1, nofun⟩

/-- The pair after an update. -/
def Pair.updated (pair : Pair) (replica : Option Bytes) (admission : Bytes) : Pair :=
  ⟨replica <|> pair.replica, some admission⟩

theorem persistPair_ends {files : VaultFiles} (clean : files.journal = none)
    (stored : files.Stored) (replica : Option Bytes) (admission : Bytes) :
    (persistPair replica admission).Ends files fun r next =>
      Covered files.toPair (files.updated replica admission) next ∧
        (r = .ok () → next = ⟨files.updated replica admission, none⟩) := by
  cases replica with
  | some replica => exact persistInner_ends clean stored replica admission
  | none =>
    have before : ∀ stop : Halt Error, Covered files.toPair (files.updated none admission) files ∧
        (Except.error stop = .ok () → files = ⟨files.updated none admission, none⟩) :=
      fun _ => ⟨.settled clean (.inl rfl), nofun⟩
    have written : Covered files.toPair (files.updated none admission)
        (admissionFile.put (some admission) files) := .settled clean (.inr rfl)
    unfold persistPair
    refine readBounded_ends before fun _ => .onError ?_
    have again : ∀ (next : VaultFiles) (e : Error),
        Covered files.toPair (files.updated none admission) next →
        admissionFile.put files.admission next = files →
        Program.Ends (do restore admissionFile (files.admission.getD []); .fail e) next fun r last =>
          Covered files.toPair (files.updated none admission) last ∧
            (r = .ok () → last = ⟨files.updated none admission, none⟩) := by
      intro next e known back
      refine restore_ends stored.admission (fun _ => ⟨known, nofun⟩) ?_ ?_
      · rw [back]
        exact before
      · rw [back]
        exact .fail (before _)
    refine atomicPrivateWriteBounded_ends (fun stop => ?_) (fun stop => ?_) ⟨written, fun _ => ?_⟩
    · cases stop with
      | crash => exact before _
      | error e => exact again _ e (before .crash).1 rfl
    · cases stop with
      | crash => exact ⟨written, nofun⟩
      | error e => exact again _ e written rfl
    · rw [VaultFiles.mk.injEq]
      exact ⟨rfl, clean⟩

theorem Covered.pair {files : VaultFiles} (covered : Covered old new files)
    (journal : files.journal = none) : files.toPair = old ∨ files.toPair = new := by
  cases covered with
  | settled _ pair => exact pair
  | journaled kept _ =>
    rw [kept] at journal
    cases journal

theorem recoverAdmissionTransaction_skips {files : VaultFiles} (clean : files.journal = none) :
    recoverAdmissionTransaction ⟨files, []⟩ = (.ok (), ⟨files, []⟩) := by
  have small : ∀ bytes ∈ journalFile.get files, bytes.length ≤ maxJournalBytes := by
    intro bytes found
    rw [show journalFile.get files = none from clean] at found
    cases found
  unfold recoverAdmissionTransaction
  rw [Action.bind_ok (readBounded_quiet small), show journalFile.get files = none from clean]
  rfl

theorem recoverAdmissionTransaction_quiet (stored : old.Stored) {files : VaultFiles}
    (covered : Covered old new files) :
    ∃ next, recoverAdmissionTransaction ⟨files, []⟩ = (.ok (), ⟨next, []⟩) := by
  unfold recoverAdmissionTransaction
  cases covered with
  | settled journal _ =>
    exact ⟨files, recoverAdmissionTransaction_skips journal⟩
  | journaled journal written =>
    rename_i bytes
    obtain ⟨whole, replica, admission⟩ := admissionTransaction_sizes written
    unfold maxReplicaBytes at replica
    unfold maxVaultMetadataBytes at admission
    have small : ∀ found ∈ journalFile.get files, found.length ≤ maxJournalBytes := by
      intro found known
      rw [show journalFile.get files = some bytes from journal] at known
      cases known
      unfold maxJournalBytes
      omega
    rw [Action.bind_ok (readBounded_quiet small),
      show journalFile.get files = some bytes from journal]
    dsimp only
    rw [decodeAdmissionTransaction_encode written]
    change ∃ next, rollBack (old.replica.getD []) (old.admission.getD []) ⟨files, []⟩ =
      (.ok (), ⟨next, []⟩)
    unfold rollBack
    have bound : ∀ {saved : Option Bytes}, (saved.getD []).length ≤ 16 * 1024 * 1024 →
        ∀ bytes ∈ saved, bytes.length ≤ maxStoreBytes := by
      rintro _ limit bytes rfl
      exact limit
    rw [Action.bind_ok (restore_quiet stored.admission (bound (by omega))),
      Action.bind_ok (restore_quiet stored.replica (bound replica))]
    exact ⟨_, rfl⟩

theorem recoverAdmissionTransaction_idle {p : Prop} {files : VaultFiles}
    (clean : files.journal = none) :
    recoverAdmissionTransaction.Finishes p files fun _ next => next = files := by
  refine ⟨?_, fun _ => ⟨(), files, recoverAdmissionTransaction_skips clean⟩⟩
  unfold recoverAdmissionTransaction
  refine readBounded_ends (fun _ => rfl) fun _ => ?_
  rw [show journalFile.get files = none from clean]
  exact .pure rfl

theorem recoverAdmissionTransaction_finishes {p : Prop} (stored : old.Stored) {files : VaultFiles}
    (covered : Covered old new files) :
    recoverAdmissionTransaction.Finishes p files fun r next =>
      Covered old new next ∧ (r = .ok () → next.journal = none) ∧
        (files.journal = none → next = files) :=
  ⟨fun faults => ⟨(recoverAdmissionTransaction_ends stored covered faults).1,
      (recoverAdmissionTransaction_ends stored covered faults).2,
      fun clean => (recoverAdmissionTransaction_idle (p := True) clean).ends faults⟩,
    fun _ => by
      obtain ⟨next, quiet⟩ := recoverAdmissionTransaction_quiet stored covered
      exact ⟨(), next, quiet⟩⟩

/-- Stop the update of a vault's pair anywhere, and stop any number of recoveries
anywhere. The first recovery that completes leaves the old pair or the new one
and no journal, and later ones change nothing. One that is not disturbed does
complete. -/
theorem admission_journal_atomic (files : VaultFiles) (clean : files.journal = none)
    (stored : files.Stored) (replica : Option Bytes) (admission : Bytes) (faults : List Fault)
    (stopped : List (List Fault)) :
    let left := recoverAdmissionTransaction.diskAfterAll stopped
      ((persistPair replica admission).diskAfter faults files)
    (∀ last, recoverAdmissionTransaction.resultOf last left = .ok () →
      let final := recoverAdmissionTransaction.diskAfter last left
      final.journal = none ∧
        (final.toPair = files.toPair ∨ final.toPair = files.updated replica admission) ∧
        ∀ again, recoverAdmissionTransaction.diskAfter again final = final) ∧
    recoverAdmissionTransaction.resultOf [] left = .ok () := by
  intro left
  have covered : Covered files.toPair (files.updated replica admission) left :=
    Program.Ends.all
      (fun _ known => (recoverAdmissionTransaction_ends stored known).mono fun _ _ ends => ends.1)
      stopped _ (persistPair_ends clean stored replica admission faults).1
  obtain ⟨next, quiet⟩ := recoverAdmissionTransaction_quiet stored covered
  refine ⟨fun last done => ?_, congrArg Prod.fst quiet⟩
  intro final
  obtain ⟨ends, gone⟩ := recoverAdmissionTransaction_ends stored covered last
  have journal : final.journal = none := gone done
  exact ⟨journal, ends.pair journal, (recoverAdmissionTransaction_idle (p := True) journal).ends⟩

omit [Crypto.Primitives] in
/-- The machine stops between the two files, then inside the first recovery. -/
theorem admission_journal_atomic_torn :
    let := Crypto.Primitives.plain
    let files : VaultFiles := ⟨⟨none, some [1]⟩, none⟩
    let torn := (persistPair (some [2]) [3]).diskAfter [.none, .none, .none, .none, .lost] files
    let final := recoverAdmissionTransaction.diskAfter []
      (recoverAdmissionTransaction.diskAfterAll [[.none, .lost]] torn)
    torn.toPair = ⟨none, some [3]⟩ ∧ torn.journal ≠ none ∧ final.journal = none ∧
      (final.toPair = files.toPair ∨ final.toPair = files.updated (some [2]) [3]) := by
  let := Crypto.Primitives.plain
  have atomic := admission_journal_atomic ⟨⟨none, some [1]⟩, none⟩ rfl ⟨nofun, nofun⟩ (some [2]) [3]
    [.none, .none, .none, .none, .lost] [[.none, .lost]]
  obtain ⟨journal, pair, _⟩ := atomic.1 [] atomic.2
  exact ⟨by decide +kernel, by decide +kernel, journal, pair⟩

end QuantumFs.Store
