import QuantumFs.Encoding.Snapshot
import QuantumFs.Lib.Machine
import QuantumFs.Store.Transaction

/-! The vaults of one data directory (`store/vaults.rs`) and the migration of a vault
that lies in the data directory itself. A marker file says how many of its three
parts have been moved. -/
namespace QuantumFs.Store

open Lib Encoding Crypto

def readPrivate {δ : Type} (file : FileAt δ) : Program Error δ (Option Bytes) :=
  .read .io fun disk =>
    match file.get disk with
    | none => .ok none
    | some bytes =>
      if bytes.length ≤ maxStoreBytes then .ok (some bytes)
      else .error (.invalidInput "keystore file is too large")

abbrev ChunkFiles : Type := Map ChunkId Bytes

structure VaultDir extends VaultFiles where
  chunks : Option ChunkFiles
deriving DecidableEq

namespace VaultDir

def empty : VaultDir := ⟨⟨⟨none, none⟩, none⟩, none⟩

def withFiles (files : VaultFiles) (directory : VaultDir) : VaultDir :=
  { directory with toVaultFiles := files }

end VaultDir

/-- The data directory of a host. Beside its own files it can hold one directory for
each vault. -/
structure DataDir where
  top : VaultDir
  marker : Option Bytes
  vaults : Option (Map VaultId VaultDir)

namespace DataDir

def vaultDir (vaultId : VaultId) (disk : DataDir) : Option VaultDir := disk.vaults.bind (·[vaultId]?)

def setVaultDir (vaultId : VaultId) (directory : VaultDir) (disk : DataDir) : DataDir :=
  { disk with vaults := some ((disk.vaults.getD ∅).insert vaultId directory) }

/-- The files in the directory of a vault; there are none without a directory. -/
def vaultFiles (vaultId : VaultId) (disk : DataDir) : VaultDir := (disk.vaultDir vaultId).getD .empty

def markerFile : FileAt DataDir := ⟨(·.marker), fun bytes disk => { disk with marker := bytes }⟩

def topFile (file : FileAt VaultFiles) : FileAt DataDir where
  get := fun disk => file.get disk.top.toVaultFiles
  put := fun bytes disk =>
    { disk with top := disk.top.withFiles (file.put bytes disk.top.toVaultFiles) }

def vaultFile (vaultId : VaultId) (file : FileAt VaultFiles) : FileAt DataDir where
  get := fun disk => file.get (disk.vaultFiles vaultId).toVaultFiles
  put := fun bytes disk => disk.setVaultDir vaultId
    ((disk.vaultFiles vaultId).withFiles (file.put bytes (disk.vaultFiles vaultId).toVaultFiles))

end DataDir

inductive Part where
  | replica
  | chunks
  | vault
deriving DecidableEq

namespace Part

def present : Part → VaultDir → Bool
  | .replica, directory => directory.replica.isSome
  | .chunks, directory => directory.chunks.isSome
  | .vault, directory => directory.admission.isSome

def move : Part → VaultDir → VaultDir → VaultDir × VaultDir
  | .replica, source, target =>
    ({ source with replica := none }, { target with replica := source.replica })
  | .chunks, source, target =>
    ({ source with chunks := none }, { target with chunks := source.chunks })
  | .vault, source, target =>
    ({ source with admission := none }, { target with admission := source.admission })

end Part

inductive Home where
  | dataDir
  | vaultDir (vaultId : VaultId)
deriving DecidableEq

namespace DataDir

open VaultFiles

/-- `ensure_private_directory` for `vaults`. -/
def ensureRoot : Program Error DataDir Unit := do
  let made ← .read .io fun disk => .ok disk.vaults.isSome
  if made then pure () else .change .io fun disk => { disk with vaults := some (disk.vaults.getD ∅) }

/-- `ensure_private_directory` for the directory of a vault. -/
def ensureVaultDir (vaultId : VaultId) : Program Error DataDir Unit := do
  let made ← .read .io fun disk => .ok (disk.vaultDir vaultId).isSome
  if made then pure () else .change .io fun disk => disk.setVaultDir vaultId .empty

def prepareVaultDirectory (vaultId : VaultId) : Program Error DataDir Unit := do
  ensureRoot
  ensureVaultDir vaultId

def moveOnce (vaultId : VaultId) (part : Part) : Program Error DataDir Unit := do
  let source ← .read .io fun disk => .ok (part.present disk.top)
  let target ← .read .io fun disk => .ok (part.present (disk.vaultFiles vaultId))
  match source, target with
  | true, false => .change .io fun disk =>
      let moved := part.move disk.top (disk.vaultFiles vaultId)
      { disk.setVaultDir vaultId moved.2 with top := moved.1 }
  | false, true => .change .io id
  | true, true => .fail (.state "vault migration source and destination both exist")
  | false, false => .fail (.state "vault migration source and destination are missing")

def phases : List (Part × Nat) := [(.replica, 1), (.chunks, 2), (.vault, 3)]

def movePhase (vaultId : VaultId) (step : Part × Nat) : Program Error DataDir Unit := do
  moveOnce vaultId step.1
  let marker ← .compute (encodeVaultMigration vaultId step.2)
  atomicPrivateWrite markerFile marker

variable [Primitives]

def recoverTop : Program Error DataDir Unit :=
  .within (·.top.toVaultFiles) (fun files disk => { disk with top := disk.top.withFiles files })
    recoverAdmissionTransaction

def recoverVaultDir (vaultId : VaultId) : Program Error DataDir Unit :=
  .within (fun disk => (disk.vaultFiles vaultId).toVaultFiles)
    (fun files disk => disk.setVaultDir vaultId ((disk.vaultFiles vaultId).withFiles files))
    recoverAdmissionTransaction

def verifyReplica (file : FileAt DataDir) (vaultId : VaultId) : Program Error DataDir Unit := do
  let bytes ← readPrivate file
  let bytes ← .compute (okOr bytes (.state "vault replica is missing"))
  let _ ← .compute (decodeReplica bytes ⟨vaultId.val⟩)
  pure ()

def resumeMigration : Program Error DataDir Unit := do
  recoverTop
  match ← readPrivate markerFile with
  | none => pure ()
  | some marker => do
    let (vaultId, phase) ← .compute (decodeVaultMigration marker)
    prepareVaultDirectory vaultId
    recoverVaultDir vaultId
    let atSource ← .read .io fun disk => .ok disk.top.replica.isSome
    verifyReplica (if atSource then topFile replicaFile else vaultFile vaultId replicaFile) vaultId
    Action.forEach (phases.drop phase) (movePhase vaultId)
    removeAndSync markerFile

def migrateLegacy : Program Error DataDir Unit := do
  recoverTop
  let marked ← .read .io fun disk => .ok disk.marker.isSome
  if marked then resumeMigration
  else
    match ← readPrivate (topFile admissionFile) with
    | none => pure ()
    | some admission => do
      let metadata ← .compute (decodeVaultMetadata admission)
      verifyReplica (topFile replicaFile) metadata.vaultId
      prepareVaultDirectory metadata.vaultId
      let marker ← .compute (encodeVaultMigration metadata.vaultId 0)
      atomicPrivateWrite markerFile marker
      resumeMigration

/-- The vault in the data directory itself, if it is still there. -/
def discoverLegacy : Program Error DataDir (List (VaultId × Home)) := do
  match ← readPrivate (topFile admissionFile) with
  | none => pure []
  | some admission => do
    let metadata ← .compute (decodeVaultMetadata admission)
    verifyReplica (topFile replicaFile) metadata.vaultId
    pure [(metadata.vaultId, .dataDir)]

/-- One entry of `vaults`. -/
def discoverVault (found : List (VaultId × Home)) (vaultId : VaultId) :
    Program Error DataDir (List (VaultId × Home)) := do
  recoverVaultDir vaultId
  let admission ← readPrivate (vaultFile vaultId admissionFile)
  let admission ← .compute (okOr admission (.state "vault admission file is missing"))
  let metadata ← .compute (decodeVaultMetadata admission)
  .require (metadata.vaultId = vaultId) (.state "vault directory id differs from admission file")
  .require (vaultId ∉ found.map Prod.fst) (.state "duplicate vault id on disk")
  verifyReplica (vaultFile vaultId replicaFile) vaultId
  pure (found ++ [(vaultId, .vaultDir vaultId)])

def discoverVaults : Program Error DataDir (List (VaultId × Home)) := do
  recoverTop
  resumeMigration
  let legacy ← discoverLegacy
  let entries ← .read .io fun disk => .ok ((disk.vaults.getD ∅).toList.map Prod.fst)
  let found ← entries.foldlM discoverVault legacy
  pure (found.insertionSort fun x y => x.1 ≤ y.1)

end DataDir

structure VaultPair where
  replica : Bytes
  admission : Bytes

namespace VaultPair

variable [Primitives]

def pair (vault : VaultPair) : Pair := ⟨some vault.replica, some vault.admission⟩

/-- Both files can be read and are of one vault. -/
structure Of (vault : VaultPair) (vaultId : VaultId) : Prop where
  replica : ∃ snapshot, decodeReplica vault.replica ⟨vaultId.val⟩ = .ok snapshot
  admission : ∃ metadata, decodeVaultMetadata vault.admission = .ok metadata ∧
    metadata.vaultId = vaultId
  small : vault.admission.length ≤ maxAdmissionBytes

theorem Of.replica_length {vault : VaultPair} {vaultId : VaultId} (known : vault.Of vaultId) :
    0 < vault.replica.length ∧ vault.replica.length ≤ maxStoreBytes := by
  obtain ⟨snapshot, decoded⟩ := known.replica
  unfold decodeReplica at decoded
  obtain ⟨_, bounds, _⟩ := Result.bind_eq_ok.mp decoded
  have bounds := ensure_eq_ok.mp bounds
  unfold maxReplicaBytes at bounds
  unfold maxStoreBytes
  omega

theorem Of.admission_length {vault : VaultPair} {vaultId : VaultId} (known : vault.Of vaultId) :
    vault.admission.length ≤ maxStoreBytes := by
  have small := known.small
  unfold maxAdmissionBytes at small
  unfold maxStoreBytes
  omega

theorem Of.stored {vault : VaultPair} {vaultId : VaultId} (known : vault.Of vaultId) :
    vault.pair.Stored := by
  refine ⟨fun isEmpty => ?_, fun isEmpty => ?_⟩
  · have length := known.replica_length
    rw [Option.some.inj isEmpty] at length
    exact absurd length.1 (Nat.lt_irrefl 0)
  · obtain ⟨metadata, decoded, _⟩ := known.admission
    rw [Option.some.inj isEmpty] at decoded
    cases decoded

end VaultPair

section

variable [Primitives]

/-- The files of a vault, with an update of its pair that was stopped anywhere. -/
def Intact (vaultId : VaultId) (directory : VaultDir) : Prop :=
  ∃ old new : VaultPair, old.Of vaultId ∧ new.Of vaultId ∧
    Covered old.pair new.pair directory.toVaultFiles

def Housed (vaultId : VaultId) (directory : VaultDir) : Prop :=
  Intact vaultId directory ∨ directory = .empty

end

section

variable {δ α : Type} {p : Prop} {disk : δ} {Q : Except (Halt Error) α → δ → Prop}

theorem readPrivate_bind {file : FileAt δ} {f : Option Bytes → Program Error δ α}
    (works : p → ∀ bytes ∈ file.get disk, bytes.length ≤ maxStoreBytes)
    (err : ∀ stop, Q (.error stop) disk) (ok : (f (file.get disk)).Finishes p disk Q) :
    (readPrivate file >>= f).Finishes p disk Q := by
  refine .read_bind (fun holds => ?_) err fun found h => ?_
  · have small := works holds
    cases present : file.get disk with
    | none => exact ⟨none, rfl⟩
    | some bytes => exact ⟨some bytes, if_pos (small bytes present)⟩
  · cases present : file.get disk with
    | none =>
      rw [present] at h ok
      cases h
      exact ok
    | some bytes =>
      rw [present] at h ok
      dsimp only at h
      split at h
      · cases h
        exact ok
      · cases h

end

namespace DataDir

open VaultFiles

variable {disk : DataDir} {vaultId other : VaultId} {directory : VaultDir}

theorem vaultDir_set : (disk.setVaultDir vaultId directory).vaultDir other =
    if vaultId = other then some directory else disk.vaultDir other := by
  unfold vaultDir setVaultDir
  rw [Option.bind_some, Map.get_insert]
  split
  · rfl
  · cases disk.vaults with
    | none => exact Std.ExtTreeMap.getElem?_empty
    | some vaults => rfl

theorem setVaultDir_self (entry : disk.vaultDir vaultId = some directory) :
    disk.setVaultDir vaultId directory = disk := by
  unfold vaultDir at entry
  obtain ⟨vaults, present, found⟩ := Option.bind_eq_some_iff.mp entry
  have same : vaults.insert vaultId directory = vaults := by
    apply Map.ext_get
    intro other
    rw [Map.get_insert]
    split
    · rename_i isOther
      subst isOther
      exact found.symm
    · rfl
  unfold setVaultDir
  rw [present, Option.getD_some, same, ← present]

theorem vaultFiles_of_entry (entry : disk.vaultDir vaultId = some directory) :
    disk.vaultFiles vaultId = directory := by
  unfold vaultFiles
  rw [entry]
  rfl

variable [Primitives] {p : Prop}

theorem verifyReplica_bind {α : Type} {file : FileAt DataDir} {f : Unit → Program Error DataDir α}
    {Q : Except (Halt Error) α → DataDir → Prop}
    (works : p → ∃ vault : VaultPair, vault.Of vaultId ∧ file.get disk = some vault.replica)
    (err : ∀ stop, Q (.error stop) disk) (ok : (f ()).Finishes p disk Q) :
    (verifyReplica file vaultId >>= f).Finishes p disk Q := by
  unfold verifyReplica
  rw [bind_assoc]
  refine readPrivate_bind (fun holds => ?_) err ?_
  · obtain ⟨vault, known, found⟩ := works holds
    rw [found]
    exact fun _ same => Option.some.inj same ▸ known.replica_length.2
  rw [bind_assoc]
  refine .compute_bind (fun holds => ?_) err fun bytes found => ?_
  · obtain ⟨vault, _, found⟩ := works holds
    exact ⟨vault.replica, okOr_eq_ok.mpr found⟩
  rw [bind_assoc]
  refine .compute_bind (fun holds => ?_) err fun _ _ => ok
  obtain ⟨vault, known, present⟩ := works holds
  obtain rfl := Option.some.inj ((okOr_eq_ok.mp found).symm.trans present)
  exact known.replica

theorem recoverVaultDir_finishes (entry : disk.vaultDir vaultId = some directory)
    (housed : Housed vaultId directory) :
    (recoverVaultDir vaultId).Finishes p disk fun r next => ∃ files,
      next = disk.setVaultDir vaultId (directory.withFiles files) ∧
        (Intact vaultId directory → Intact vaultId (directory.withFiles files)) ∧
        (directory.journal = none → directory.withFiles files = directory) ∧
        (r = .ok () → files.journal = none) := by
  unfold recoverVaultDir
  apply Program.Finishes.within
  rw [vaultFiles_of_entry entry]
  obtain ⟨old, new, ofOld, ofNew, covered⟩ | rfl := housed
  · refine (recoverAdmissionTransaction_finishes ofOld.stored covered).mono fun r files done => ?_
    refine ⟨files, rfl, fun _ => ⟨old, new, ofOld, ofNew, done.1⟩, fun clean => ?_, done.2.1⟩
    rw [done.2.2 clean]
    rfl
  · refine (recoverAdmissionTransaction_idle rfl).mono fun r files same => ?_
    subst same
    exact ⟨_, rfl, id, fun _ => rfl, fun _ => rfl⟩

structure Recovered (disk next : DataDir) : Prop where
  top : next.top = disk.top
  marker : next.marker = disk.marker
  absent : ∀ vaultId, disk.vaultDir vaultId = none → next.vaultDir vaultId = none
  present : ∀ vaultId directory, disk.vaultDir vaultId = some directory → ∃ left,
    next.vaultDir vaultId = some left ∧ (Intact vaultId directory → Intact vaultId left) ∧
      (directory.journal = none → left = directory)

theorem Recovered.refl (disk : DataDir) : Recovered disk disk :=
  ⟨rfl, rfl, fun _ absent => absent, fun _ directory found => ⟨directory, found, id, fun _ => rfl⟩⟩

theorem Recovered.trans {next last : DataDir} (first : Recovered disk next)
    (second : Recovered next last) : Recovered disk last := by
  refine ⟨second.top.trans first.top, second.marker.trans first.marker,
    fun vaultId absent => second.absent vaultId (first.absent vaultId absent),
    fun vaultId directory found => ?_⟩
  obtain ⟨middle, isMiddle, intact, idle⟩ := first.present vaultId directory found
  obtain ⟨left, isLeft, stays, rests⟩ := second.present vaultId middle isMiddle
  refine ⟨left, isLeft, fun known => stays (intact known), fun clean => ?_⟩
  obtain rfl := idle clean
  exact rests clean

theorem Recovered.set {left : VaultDir} (entry : disk.vaultDir vaultId = some directory)
    (intact : Intact vaultId directory → Intact vaultId left)
    (idle : directory.journal = none → left = directory) :
    Recovered disk (disk.setVaultDir vaultId left) := by
  refine ⟨rfl, rfl, fun other absent => ?_, fun other found isFound => ?_⟩
  · rw [vaultDir_set]
    split
    · rename_i same
      rw [← same, entry] at absent
      cases absent
    · exact absent
  · rw [vaultDir_set]
    split
    · rename_i same
      subst same
      obtain rfl := Option.some.inj (entry.symm.trans isFound)
      exact ⟨left, rfl, intact, idle⟩
    · exact ⟨found, isFound, id, fun _ => rfl⟩

theorem discoverVault_finishes {found : List (VaultId × Home)}
    (entry : disk.vaultDir vaultId = some directory) (housed : Housed vaultId directory) :
    (discoverVault found vaultId).Finishes
        (Intact vaultId directory ∧ vaultId ∉ found.map Prod.fst) disk fun r next =>
      Recovered disk next ∧ (directory.journal = none → next = disk) ∧
        ∀ result, r = .ok result → result = found ++ [(vaultId, .vaultDir vaultId)] ∧
          ∀ left, next.vaultDir vaultId = some left → left.journal = none := by
  unfold discoverVault
  refine .next (recoverVaultDir_finishes entry housed) ?_ ?_
  · rintro stop _ ⟨files, rfl, intact, idle, _⟩
    refine ⟨.set entry intact idle, fun clean => ?_, nofun⟩
    rw [idle clean]
    exact setVaultDir_self entry
  rintro _ _ ⟨files, rfl, intact, idle, clean⟩
  have found' : (disk.setVaultDir vaultId (directory.withFiles files)).vaultDir vaultId =
      some (directory.withFiles files) := by
    rw [vaultDir_set, if_pos rfl]
  have recovered := Recovered.set entry intact idle
  have rests : directory.journal = none →
      disk.setVaultDir vaultId (directory.withFiles files) = disk := fun clean => by
    rw [idle clean]
    exact setVaultDir_self entry
  have isVault : Intact vaultId directory → ∃ vault : VaultPair, vault.Of vaultId ∧
      files.toPair = vault.pair := fun known => by
    obtain ⟨old, new, ofOld, ofNew, covered⟩ := intact known
    obtain isOld | isNew := covered.pair (clean rfl)
    · exact ⟨old, ofOld, isOld⟩
    · exact ⟨new, ofNew, isNew⟩
  generalize disk.setVaultDir vaultId (directory.withFiles files) = next at found' recovered rests
  have stopped : ∀ stop : Halt Error, Recovered disk next ∧ (directory.journal = none → next = disk) ∧
      ∀ result, Except.error stop = .ok result → result = found ++ [(vaultId, .vaultDir vaultId)] ∧
        ∀ left, next.vaultDir vaultId = some left → left.journal = none :=
    fun _ => ⟨recovered, rests, nofun⟩
  have isAdmission : (vaultFile vaultId admissionFile).get next = files.admission := by
    unfold vaultFile
    dsimp only
    rw [vaultFiles_of_entry found']
    rfl
  have isReplica : (vaultFile vaultId replicaFile).get next = files.replica := by
    unfold vaultFile
    dsimp only
    rw [vaultFiles_of_entry found']
    rfl
  refine readPrivate_bind (fun ⟨known, _⟩ => ?_) stopped ?_
  · obtain ⟨vault, ofVault, same⟩ := isVault known
    rw [isAdmission, show files.admission = _ from congrArg Pair.admission same]
    intro bytes isBytes
    obtain rfl := Option.some.inj isBytes
    exact ofVault.admission_length
  rw [isAdmission]
  refine .compute_bind (fun ⟨known, _⟩ => ?_) stopped fun admission read => ?_
  · obtain ⟨vault, _, same⟩ := isVault known
    exact ⟨vault.admission, okOr_eq_ok.mpr (congrArg Pair.admission same)⟩
  have read := okOr_eq_ok.mp read
  have ofBytes : Intact vaultId directory → ∃ metadata,
      decodeVaultMetadata admission = .ok metadata ∧ metadata.vaultId = vaultId := fun known => by
    obtain ⟨vault, ofVault, same⟩ := isVault known
    obtain rfl := Option.some.inj (read.symm.trans (congrArg Pair.admission same))
    exact ofVault.admission
  refine .compute_bind (fun ⟨known, _⟩ => ?_) stopped fun metadata decoded => ?_
  · obtain ⟨metadata, decoded, _⟩ := ofBytes known
    exact ⟨metadata, decoded⟩
  refine .require (fun ⟨known, _⟩ => ?_) stopped fun _ => .require And.right stopped fun _ => ?_
  · obtain ⟨other, isOther, same⟩ := ofBytes known
    obtain rfl := Except.ok.inj (decoded.symm.trans isOther)
    exact same
  refine verifyReplica_bind (fun ⟨known, _⟩ => ?_) stopped (.pure ⟨recovered, rests, ?_⟩)
  · obtain ⟨vault, ofVault, same⟩ := isVault known
    exact ⟨vault, ofVault, isReplica.trans (congrArg Pair.replica same)⟩
  · rintro _ same
    cases same
    refine ⟨rfl, fun left isLeft => ?_⟩
    obtain rfl := Option.some.inj (found'.symm.trans isLeft)
    exact clean rfl

def Quiet (disk : DataDir) : Prop :=
  ∀ vaultId directory, disk.vaultDir vaultId = some directory → directory.journal = none

theorem discoverEach_finishes {entries : List VaultId} : ∀ {found : List (VaultId × Home)}
    {disk : DataDir}, entries.Nodup → (p → ∀ vaultId ∈ entries, vaultId ∉ found.map Prod.fst) →
    (∀ vaultId ∈ entries, ∃ directory, disk.vaultDir vaultId = some directory) →
    (∀ vaultId directory, disk.vaultDir vaultId = some directory → Housed vaultId directory) →
    (p → ∀ vaultId directory, disk.vaultDir vaultId = some directory → Intact vaultId directory) →
    (entries.foldlM discoverVault found).Finishes p disk fun r next =>
      Recovered disk next ∧ (disk.Quiet → next = disk) ∧
        ∀ result, r = .ok result →
          result = found ++ entries.map (fun vaultId => (vaultId, .vaultDir vaultId)) ∧
            ∀ vaultId ∈ entries, ∀ left, next.vaultDir vaultId = some left → left.journal = none := by
  induction entries with
  | nil =>
    intro found disk _ _ _ _ _
    refine .pure ⟨.refl disk, fun _ => rfl, fun result same => ?_⟩
    cases same
    exact ⟨(List.append_nil found).symm, fun _ mem => absurd mem List.not_mem_nil⟩
  | cons vaultId entries ih =>
    intro found disk nodup fresh present housed intact
    obtain ⟨new, nodup⟩ := List.nodup_cons.mp nodup
    obtain ⟨directory, entry⟩ := present vaultId List.mem_cons_self
    rw [List.foldlM_cons]
    have first := (discoverVault_finishes entry (housed vaultId directory entry)).weaken
      fun holds : p => ⟨intact holds vaultId directory entry, fresh holds vaultId List.mem_cons_self⟩
    refine .next first (fun stop next done => ?_) fun result next done => ?_
    · exact ⟨done.1, fun quiet => done.2.1 (quiet vaultId directory entry), nofun⟩
    obtain ⟨recovered, rests, isResult⟩ := done
    obtain ⟨rfl, clean⟩ := isResult result rfl
    have stays : ∀ other left, next.vaultDir other = some left → ∃ before,
        disk.vaultDir other = some before ∧ (Intact other before → Intact other left) ∧
          (before.journal = none → left = before) := by
      intro other left isLeft
      cases before : disk.vaultDir other with
      | none =>
        rw [recovered.absent other before] at isLeft
        cases isLeft
      | some standing =>
        obtain ⟨found, isFound, rest⟩ := recovered.present other standing before
        obtain rfl := Option.some.inj (isFound.symm.trans isLeft)
        exact ⟨standing, rfl, rest⟩
    refine (ih nodup (fun holds other mem => ?_) (fun other mem => ?_) (fun other left isLeft => ?_)
      fun holds other left isLeft => ?_).mono fun r last done => ?_
    · rw [List.map_append, List.mem_append, not_or]
      refine ⟨fresh holds other (List.mem_cons_of_mem _ mem), fun same => ?_⟩
      obtain rfl := List.mem_singleton.mp same
      exact new mem
    · obtain ⟨standing, isStanding⟩ := present other (List.mem_cons_of_mem _ mem)
      obtain ⟨left, isLeft, _⟩ := recovered.present other standing isStanding
      exact ⟨left, isLeft⟩
    · obtain ⟨before, isBefore, kept, idle⟩ := stays other left isLeft
      obtain known | rfl := housed other before isBefore
      · exact .inl (kept known)
      · exact .inr (idle rfl)
    · obtain ⟨before, isBefore, kept, _⟩ := stays other left isLeft
      exact kept (intact holds other before isBefore)
    obtain ⟨rest, idle, isLast⟩ := done
    refine ⟨recovered.trans rest, fun quiet => ?_, fun final same => ?_⟩
    · obtain rfl := rests (quiet vaultId directory entry)
      exact idle quiet
    · obtain ⟨rfl, others⟩ := isLast final same
      refine ⟨List.append_assoc .., fun other mem left isLeft => ?_⟩
      obtain rfl | mem := List.mem_cons.mp mem
      · obtain ⟨middle, isMiddle, _⟩ := recovered.present _ directory entry
        obtain ⟨final, isFinal, _, settled⟩ := rest.present _ middle isMiddle
        obtain rfl := Option.some.inj (isFinal.symm.trans isLeft)
        rw [settled (clean middle isMiddle)]
        exact clean middle isMiddle
      · exact others other mem left isLeft

end DataDir

namespace VaultPair

/-- What is still in the data directory after some parts were moved. -/
def left (vault : VaultPair) (chunks : ChunkFiles) (moved : Nat) : VaultDir where
  replica := if moved < 1 then some vault.replica else none
  admission := if moved < 3 then some vault.admission else none
  journal := none
  chunks := if moved < 2 then some chunks else none

/-- And what has arrived in the directory of the vault. -/
def arrived (vault : VaultPair) (chunks : ChunkFiles) (moved : Nat) : VaultDir where
  replica := if moved < 1 then none else some vault.replica
  admission := if moved < 3 then none else some vault.admission
  journal := none
  chunks := if moved < 2 then none else some chunks

end VaultPair

namespace DataDir

open VaultFiles

/-- The vault is where discovery looks for it, all of it and nowhere else. -/
structure Migrated (vaultId : VaultId) (old new : VaultPair) (chunks : ChunkFiles) (disk : DataDir) :
    Prop where
  marker : disk.marker = none
  top : disk.top = .empty
  vault : ∃ vault, (vault = old ∨ vault = new) ∧
    disk.vaultDir vaultId = some (vault.arrived chunks 3)

section

variable [Primitives]

/-- The vaults beside this one have directories of their own. -/
def Others (vaultId : VaultId) (disk : DataDir) : Prop :=
  ∀ other directory, other ≠ vaultId → disk.vaultDir other = some directory → Intact other directory

/-- Some parts have been moved; the last one may not have been recorded yet. -/
structure Moving (vaultId : VaultId) (vault : VaultPair) (chunks : ChunkFiles) (phase moved : Nat)
    (disk : DataDir) : Prop where
  marker : ∃ bytes, encodeVaultMigration vaultId phase = .ok bytes ∧ disk.marker = some bytes
  recorded : phase ≤ moved ∧ moved ≤ phase + 1 ∧ moved ≤ 3
  top : disk.top = vault.left chunks moved
  vault : disk.vaultDir vaultId = some (vault.arrived chunks moved)
  others : disk.Others vaultId

/-- Nothing has been moved, and the vault has no more than an empty directory. -/
structure Legacy (vaultId : VaultId) (old new : VaultPair) (chunks : ChunkFiles) (disk : DataDir) :
    Prop where
  marker : disk.marker = none
  files : Covered old.pair new.pair disk.top.toVaultFiles
  chunks : disk.top.chunks = some chunks
  vault : disk.vaultDir vaultId = none ∨ disk.vaultDir vaultId = some .empty

inductive Stage (vaultId : VaultId) (old new : VaultPair) (chunks : ChunkFiles) (disk : DataDir) :
    Prop where
  | legacy : disk.Legacy vaultId old new chunks → Stage vaultId old new chunks disk
  | moving (vault : VaultPair) (phase moved : Nat) : vault = old ∨ vault = new →
      disk.Moving vaultId vault chunks phase moved → Stage vaultId old new chunks disk
  | migrated : disk.Migrated vaultId old new chunks → Stage vaultId old new chunks disk

structure Layout (vaultId : VaultId) (old new : VaultPair) (chunks : ChunkFiles) (disk : DataDir) :
    Prop where
  stage : disk.Stage vaultId old new chunks
  others : disk.Others vaultId

end

/-- The migration of the vault has been recorded, whether or not it is finished. -/
def Begun (vaultId : VaultId) (disk : DataDir) : Prop :=
  disk.marker ≠ none ∨ ∃ directory, disk.vaultDir vaultId = some directory ∧ directory.admission ≠ none

section

variable {disk : DataDir} {vaultId : VaultId} {old new vault : VaultPair} {chunks : ChunkFiles}
  {phase moved : Nat} {p : Prop}

theorem prepareVaultDirectory_bind {α : Type} {f : Unit → Program Error DataDir α}
    {Q : Except (Halt Error) α → DataDir → Prop} {directory : VaultDir}
    (entry : disk.vaultDir vaultId = some directory) (err : ∀ stop, Q (.error stop) disk)
    (ok : (f ()).Finishes p disk Q) : (prepareVaultDirectory vaultId >>= f).Finishes p disk Q := by
  have root : disk.vaults.isSome = true := by
    obtain ⟨vaults, present, _⟩ := Option.bind_eq_some_iff.mp entry
    rw [present]
    rfl
  unfold prepareVaultDirectory ensureRoot ensureVaultDir
  simp only [bind_assoc]
  refine .read_bind (fun _ => ⟨_, rfl⟩) err fun made isMade => ?_
  obtain rfl := (Except.ok.inj isMade).symm.trans root
  refine .read_bind (fun _ => ⟨_, rfl⟩) err fun made isMade => ?_
  rw [entry] at isMade
  obtain rfl := Except.ok.inj isMade
  exact ok

theorem phases_cases {part : Part} (stage : phases[phase]? = some (part, phase + 1)) :
    phase = 0 ∧ part = .replica ∨ phase = 1 ∧ part = .chunks ∨ phase = 2 ∧ part = .vault := by
  match phase with
  | 0 => exact .inl ⟨rfl, (congrArg Prod.fst (Option.some.inj stage)).symm⟩
  | 1 => exact .inr (.inl ⟨rfl, (congrArg Prod.fst (Option.some.inj stage)).symm⟩)
  | 2 => exact .inr (.inr ⟨rfl, (congrArg Prod.fst (Option.some.inj stage)).symm⟩)
  | n + 3 => cases stage

theorem present_left {part : Part} (stage : phases[phase]? = some (part, phase + 1)) (moved : Nat) :
    part.present (vault.left chunks moved) = decide (moved ≤ phase) := by
  unfold Part.present VaultPair.left
  obtain ⟨rfl, rfl⟩ | ⟨rfl, rfl⟩ | ⟨rfl, rfl⟩ := phases_cases stage
  all_goals
    dsimp only
    split <;> simp <;> omega

theorem present_arrived {part : Part} (stage : phases[phase]? = some (part, phase + 1))
    (moved : Nat) : part.present (vault.arrived chunks moved) = decide (phase < moved) := by
  unfold Part.present VaultPair.arrived
  obtain ⟨rfl, rfl⟩ | ⟨rfl, rfl⟩ | ⟨rfl, rfl⟩ := phases_cases stage
  all_goals
    dsimp only
    split <;> simp <;> omega

theorem move_part {part : Part} (stage : phases[phase]? = some (part, phase + 1)) :
    part.move (vault.left chunks phase) (vault.arrived chunks phase) =
      (vault.left chunks (phase + 1), vault.arrived chunks (phase + 1)) := by
  obtain ⟨rfl, rfl⟩ | ⟨rfl, rfl⟩ | ⟨rfl, rfl⟩ := phases_cases stage <;> rfl

variable [Primitives]

theorem moveOnce_bind {part : Part} {α : Type} {f : Unit → Program Error DataDir α}
    {Q : Except (Halt Error) α → DataDir → Prop}
    (stage : phases[phase]? = some (part, phase + 1))
    (moving : disk.Moving vaultId vault chunks phase moved)
    (err : ∀ stop moved next, next.Moving vaultId vault chunks phase moved → Q (.error stop) next)
    (ok : ∀ next, next.Moving vaultId vault chunks phase (phase + 1) → (f ()).Finishes p next Q) :
    (moveOnce vaultId part >>= f).Finishes p disk Q := by
  have stopped := fun stop => err stop moved disk moving
  obtain ⟨low, high, bound⟩ := moving.recorded
  unfold moveOnce
  simp only [bind_assoc]
  refine .read_bind (fun _ => ⟨_, rfl⟩) stopped fun source isSource => ?_
  refine .read_bind (fun _ => ⟨_, rfl⟩) stopped fun target isTarget => ?_
  rw [moving.top, present_left stage] at isSource
  rw [vaultFiles_of_entry moving.vault, present_arrived stage] at isTarget
  obtain rfl | rfl : moved = phase ∨ moved = phase + 1 := by omega
  · -- the part has not been moved yet
    obtain rfl : true = source := by simpa using isSource
    obtain rfl : false = target := by simpa using isTarget
    have after : Moving vaultId vault chunks moved (moved + 1)
        { disk.setVaultDir vaultId (part.move disk.top (disk.vaultFiles vaultId)).2 with
          top := (part.move disk.top (disk.vaultFiles vaultId)).1 } := by
      rw [moving.top, vaultFiles_of_entry moving.vault, move_part stage]
      refine ⟨moving.marker, ⟨by omega, le_rfl, ?_⟩, rfl, vaultDir_set.trans (if_pos rfl),
        fun other directory different entry => ?_⟩
      · obtain ⟨rfl, _⟩ | ⟨rfl, _⟩ | ⟨rfl, _⟩ := phases_cases stage <;> decide
      · change (disk.setVaultDir vaultId _).vaultDir other = _ at entry
        rw [vaultDir_set, if_neg different.symm] at entry
        exact moving.others other directory different entry
    exact .change_bind stopped (fun stop => err stop _ _ after) (ok _ after)
  · obtain rfl : false = source := by simpa using isSource
    obtain rfl : true = target := by simpa using isTarget
    exact .change_bind stopped stopped (ok disk moving)

theorem movePhase_bind {part : Part} {α : Type} {f : Unit → Program Error DataDir α}
    {Q : Except (Halt Error) α → DataDir → Prop}
    (stage : phases[phase]? = some (part, phase + 1))
    (moving : disk.Moving vaultId vault chunks phase moved)
    (err : ∀ stop phase moved next, next.Moving vaultId vault chunks phase moved →
      Q (.error stop) next)
    (ok : ∀ next, next.Moving vaultId vault chunks (phase + 1) (phase + 1) →
      (f ()).Finishes p next Q) :
    (movePhase vaultId (part, phase + 1) >>= f).Finishes p disk Q := by
  have small : phase + 1 ≤ 3 := by
    obtain ⟨rfl, _⟩ | ⟨rfl, _⟩ | ⟨rfl, _⟩ := phases_cases stage <;> decide
  unfold movePhase
  rw [bind_assoc]
  refine moveOnce_bind stage moving (fun stop moved next => err stop phase moved next)
    fun next moving => ?_
  have stopped := fun stop => err stop phase _ next moving
  rw [bind_assoc]
  have encoded : ∃ bytes, encodeVaultMigration vaultId (phase + 1) = .ok bytes := by
    unfold encodeVaultMigration
    rw [show ensure _ _ = .ok () from ensure_eq_ok.mpr small]
    exact ⟨_, rfl⟩
  refine .compute_bind (fun _ => encoded) stopped fun marker written => ?_
  have after : Moving vaultId vault chunks (phase + 1) (phase + 1)
      (markerFile.put (some marker) next) :=
    ⟨⟨marker, written, rfl⟩, ⟨le_rfl, by omega, small⟩, moving.top, moving.vault, moving.others⟩
  unfold atomicPrivateWrite atomicPrivateWriteBounded
  rw [bind_assoc]
  refine .require (fun _ => ?_) stopped fun _ => .change_bind stopped
    (fun stop => err stop _ _ _ after) (ok _ after)
  rw [(decodeVaultMigration_encode written).2]
  decide

theorem movePhases_finishes {left : List (Part × Nat)} : ∀ {phase moved : Nat} {disk : DataDir},
    phases.drop phase = left → disk.Moving vaultId vault chunks phase moved →
    Program.Finishes p (Action.forEach left (movePhase vaultId)) disk fun r next =>
      (∃ phase moved, next.Moving vaultId vault chunks phase moved) ∧
        (r = .ok () → next.Moving vaultId vault chunks 3 3) := by
  induction left with
  | nil =>
    intro phase moved disk finished moving
    have ended : 3 ≤ phase := List.drop_eq_nil_iff.mp finished
    obtain ⟨low, high, bound⟩ := moving.recorded
    obtain ⟨rfl, rfl⟩ : phase = 3 ∧ moved = 3 := by omega
    exact .pure ⟨⟨3, 3, moving⟩, fun _ => moving⟩
  | cons step left ih =>
    intro phase moved disk remaining moving
    have isStep : phases[phase]? = some step := by
      have head := congrArg List.head? remaining
      rwa [List.head?_drop] at head
    have stage : phases[phase]? = some (step.1, phase + 1) := by
      match phase with
      | 0 => exact isStep.trans (by cases isStep; rfl)
      | 1 => exact isStep.trans (by cases isStep; rfl)
      | 2 => exact isStep.trans (by cases isStep; rfl)
      | n + 3 => cases isStep
    obtain ⟨part, next⟩ := step
    obtain rfl : phase + 1 = next := congrArg Prod.snd (Option.some.inj (stage.symm.trans isStep))
    refine movePhase_bind stage moving (fun stop phase moved next moving => ?_) fun next moving => ?_
    · exact ⟨⟨phase, moved, moving⟩, nofun⟩
    · refine ih ?_ moving
      rw [← List.tail_drop, remaining]
      rfl

theorem Moving.stage (moving : disk.Moving vaultId vault chunks phase moved)
    (known : vault = old ∨ vault = new) : disk.Stage vaultId old new chunks :=
  .moving vault phase moved known moving

theorem Moving.begun (moving : disk.Moving vaultId vault chunks phase moved) :
    disk.Begun vaultId := by
  obtain ⟨bytes, _, marked⟩ := moving.marker
  refine .inl fun missing => ?_
  rw [marked] at missing
  cases missing

omit [Primitives] in
theorem Migrated.begun (migrated : disk.Migrated vaultId old new chunks) : disk.Begun vaultId := by
  obtain ⟨vault, _, entry⟩ := migrated.vault
  exact .inr ⟨_, entry, Option.some_ne_none _⟩

theorem Legacy.not_begun (legacy : disk.Legacy vaultId old new chunks) : ¬ disk.Begun vaultId := by
  rintro (marked | ⟨directory, entry, present⟩)
  · exact marked legacy.marker
  · obtain absent | isEmpty := legacy.vault
    · rw [absent] at entry
      cases entry
    · rw [isEmpty] at entry
      obtain rfl := Option.some.inj entry
      exact present rfl

theorem Stage.clean (stage : disk.Stage vaultId old new chunks) :
    disk.Legacy vaultId old new chunks ∨ disk.top.journal = none := by
  cases stage with
  | legacy legacy => exact .inl legacy
  | moving vault phase moved _ moving =>
    rw [moving.top]
    exact .inr rfl
  | migrated migrated =>
    rw [migrated.top]
    exact .inr rfl

theorem recoverTop_finishes (ofOld : old.Of vaultId) (layout : disk.Layout vaultId old new chunks) :
    recoverTop.Finishes p disk fun r next =>
      next.Layout vaultId old new chunks ∧ next.vaults = disk.vaults ∧ next.marker = disk.marker ∧
        (disk.top.journal = none → next = disk) ∧ (r = .ok () → next.top.journal = none) := by
  unfold recoverTop
  apply Program.Finishes.within
  obtain legacy | clean := layout.stage.clean
  · refine (recoverAdmissionTransaction_finishes ofOld.stored legacy.files).mono fun r files done => ?_
    refine ⟨⟨.legacy ⟨legacy.marker, done.1, legacy.chunks, legacy.vault⟩, layout.others⟩, rfl, rfl,
      fun clean => ?_, done.2.1⟩
    rw [done.2.2 clean]
    rfl
  · refine (recoverAdmissionTransaction_idle clean).mono fun r files same => ?_
    subst same
    exact ⟨layout, rfl, rfl, fun _ => rfl, fun _ => clean⟩

theorem recoverVaultDir_idle {directory : VaultDir} (entry : disk.vaultDir vaultId = some directory)
    (clean : directory.journal = none) :
    (recoverVaultDir vaultId).Finishes p disk fun _ next => next = disk := by
  unfold recoverVaultDir
  apply Program.Finishes.within
  rw [vaultFiles_of_entry entry]
  refine (recoverAdmissionTransaction_idle clean).mono fun r files same => ?_
  subst same
  exact setVaultDir_self entry

theorem resumeMoving_finishes (known : vault.Of vaultId)
    (moving : disk.Moving vaultId vault chunks phase moved) :
    Program.Finishes p (do
      prepareVaultDirectory vaultId
      recoverVaultDir vaultId
      let atSource ← .read .io fun disk => .ok disk.top.replica.isSome
      verifyReplica (if atSource then topFile replicaFile else vaultFile vaultId replicaFile) vaultId
      Action.forEach (phases.drop phase) (movePhase vaultId)
      removeAndSync markerFile : Program Error DataDir Unit) disk fun r next =>
        next.Others vaultId ∧ ((∃ phase moved, next.Moving vaultId vault chunks phase moved) ∨
          next.Migrated vaultId vault vault chunks) ∧
        (r = .ok () → next.Migrated vaultId vault vault chunks) := by
  have stopped : ∀ stop : Halt Error, disk.Others vaultId ∧
      ((∃ phase moved, disk.Moving vaultId vault chunks phase moved) ∨
        disk.Migrated vaultId vault vault chunks) ∧
      (Except.error stop = .ok () → disk.Migrated vaultId vault vault chunks) :=
    fun _ => ⟨moving.others, .inl ⟨phase, moved, moving⟩, nofun⟩
  refine prepareVaultDirectory_bind moving.vault stopped ?_
  refine .next (recoverVaultDir_idle moving.vault rfl) (fun stop next same => ?_) fun _ next same => ?_
  · subst same
    exact stopped stop
  subst same
  refine .read_bind (fun _ => ⟨_, rfl⟩) stopped fun atSource isSource => ?_
  refine verifyReplica_bind (fun _ => ⟨vault, known, ?_⟩) stopped ?_
  · obtain rfl := Except.ok.inj isSource
    rw [moving.top]
    by_cases start : moved < 1
    · rw [show (vault.left chunks moved).replica = some vault.replica from if_pos start]
      change next.top.replica = _
      rw [moving.top]
      exact if_pos start
    · rw [show (vault.left chunks moved).replica = none from if_neg start]
      change (next.vaultFiles vaultId).replica = _
      rw [vaultFiles_of_entry moving.vault]
      exact if_neg start
  refine .next (movePhases_finishes rfl moving) (fun stop last done => ?_) fun _ last done => ?_
  · obtain ⟨⟨phase, moved, moving⟩, _⟩ := done
    exact ⟨moving.others, .inl ⟨phase, moved, moving⟩, nofun⟩
  have moving := done.2 rfl
  have migrated : (markerFile.put none last).Migrated vaultId vault vault chunks :=
    ⟨rfl, moving.top, vault, .inl rfl, moving.vault⟩
  exact .change (fun _ => ⟨moving.others, .inl ⟨3, 3, moving⟩, nofun⟩)
    (fun _ => ⟨moving.others, .inr migrated, nofun⟩) ⟨moving.others, .inr migrated, fun _ => migrated⟩

omit [Primitives] in
theorem begun_congr {next : DataDir} (marker : next.marker = disk.marker)
    (entry : next.vaultDir vaultId = disk.vaultDir vaultId) :
    next.Begun vaultId ↔ disk.Begun vaultId := by
  unfold Begun
  rw [marker, entry]

omit [Primitives] in
theorem vaultDir_congr {next : DataDir} (vaults : next.vaults = disk.vaults) :
    next.vaultDir vaultId = disk.vaultDir vaultId := by
  unfold vaultDir
  rw [vaults]

omit [Primitives] in
theorem Migrated.of_known (migrated : disk.Migrated vaultId vault vault chunks)
    (known : vault = old ∨ vault = new) : disk.Migrated vaultId old new chunks := by
  obtain ⟨same, isSame, entry⟩ := migrated.vault
  refine ⟨migrated.marker, migrated.top, same, ?_, entry⟩
  rwa [isSame.elim id id]

theorem resumeMigration_finishes (ofOld : old.Of vaultId) (ofNew : new.Of vaultId)
    (layout : disk.Layout vaultId old new chunks) :
    resumeMigration.Finishes p disk fun r next =>
      next.Layout vaultId old new chunks ∧ (next.Begun vaultId ↔ disk.Begun vaultId) ∧
        (disk.marker = none → disk.top.journal = none → next = disk) ∧
        (r = .ok () → next.marker = none ∧ next.top.journal = none) := by
  unfold resumeMigration
  refine .next (recoverTop_finishes ofOld layout) (fun stop next done => ?_) fun _ next done => ?_
  · obtain ⟨layout, vaults, marker, idle, _⟩ := done
    exact ⟨layout, begun_congr marker (vaultDir_congr vaults), fun _ clean => idle clean, nofun⟩
  obtain ⟨layout, vaults, marker, idle, clean⟩ := done
  have same : next.Begun vaultId ↔ disk.Begun vaultId := begun_congr marker (vaultDir_congr vaults)
  have stopped : ∀ stop : Halt Error, next.Layout vaultId old new chunks ∧
      (next.Begun vaultId ↔ disk.Begun vaultId) ∧
      (disk.marker = none → disk.top.journal = none → next = disk) ∧
      (Except.error stop = .ok () → next.marker = none ∧ next.top.journal = none) :=
    fun _ => ⟨layout, same, fun _ clean => idle clean, nofun⟩
  have marks : next.marker = none ∨ ∃ vault phase moved, (vault = old ∨ vault = new) ∧
      next.Moving vaultId vault chunks phase moved := by
    cases layout.stage with
    | legacy legacy => exact .inl legacy.marker
    | migrated migrated => exact .inl migrated.marker
    | moving vault phase moved known moving => exact .inr ⟨vault, phase, moved, known, moving⟩
  obtain unmarked | ⟨vault, phase, moved, known, moving⟩ := marks
  · refine readPrivate_bind (fun _ => ?_) stopped ?_
    · rw [show markerFile.get next = none from unmarked]
      nofun
    · rw [show markerFile.get next = none from unmarked]
      exact .pure ⟨layout, same, fun _ clean => idle clean, fun _ => ⟨unmarked, clean rfl⟩⟩
  · have ofVault : vault.Of vaultId := by
      obtain rfl | rfl := known
      · exact ofOld
      · exact ofNew
    obtain ⟨bytes, written, marked⟩ := moving.marker
    obtain ⟨decoded, length⟩ := decodeVaultMigration_encode written
    refine readPrivate_bind (fun _ => ?_) stopped ?_
    · rw [show markerFile.get next = some bytes from marked]
      intro found isFound
      obtain rfl := Option.some.inj isFound
      rw [length]
      decide
    rw [show markerFile.get next = some bytes from marked]
    refine .compute_bind (fun _ => ⟨_, decoded⟩) stopped fun named isNamed => ?_
    obtain rfl := Except.ok.inj (decoded.symm.trans isNamed)
    refine (resumeMoving_finishes ofVault moving).mono fun r last done => ?_
    obtain ⟨others, stage, finished⟩ := done
    have begun : last.Begun vaultId := by
      obtain ⟨_, _, moving⟩ | migrated := stage
      · exact moving.begun
      · exact migrated.begun
    refine ⟨⟨?_, others⟩, iff_of_true begun (same.mp moving.begun), fun unmarked => ?_, fun ok => ?_⟩
    · obtain ⟨phase, moved, moving⟩ | migrated := stage
      · exact moving.stage known
      · exact .migrated (migrated.of_known known)
    · rw [← marker, marked] at unmarked
      cases unmarked
    · have migrated := finished ok
      exact ⟨migrated.marker, congrArg (·.journal) migrated.top⟩

theorem Layout.settled (layout : disk.Layout vaultId old new chunks) (unmarked : disk.marker = none) :
    disk.Legacy vaultId old new chunks ∨ disk.Migrated vaultId old new chunks := by
  cases layout.stage with
  | legacy legacy => exact .inl legacy
  | moving vault phase moved known moving =>
    obtain ⟨bytes, _, marked⟩ := moving.marker
    rw [unmarked] at marked
    cases marked
  | migrated migrated => exact .inr migrated

theorem Layout.migrated (layout : disk.Layout vaultId old new chunks) (begun : disk.Begun vaultId)
    (unmarked : disk.marker = none) : disk.Migrated vaultId old new chunks :=
  (layout.settled unmarked).resolve_left fun legacy => legacy.not_begun begun

theorem prepare_legacy_bind {α : Type} {f : Unit → Program Error DataDir α}
    {Q : Except (Halt Error) α → DataDir → Prop} (legacy : disk.Legacy vaultId old new chunks)
    (others : disk.Others vaultId)
    (err : ∀ stop next, next.Legacy vaultId old new chunks → next.Others vaultId →
      Q (.error stop) next)
    (ok : ∀ next, next.Legacy vaultId old new chunks → next.Others vaultId →
      next.top = disk.top → next.vaultDir vaultId = some .empty → (f ()).Finishes p next Q) :
    (prepareVaultDirectory vaultId >>= f).Finishes p disk Q := by
  have target : ∀ next : DataDir, next.Legacy vaultId old new chunks → next.Others vaultId →
      next.top = disk.top → (ensureVaultDir vaultId >>= f).Finishes p next Q := by
    intro next legacy others top
    have stopped := fun stop => err stop next legacy others
    have made : (next.setVaultDir vaultId .empty).Legacy vaultId old new chunks :=
      ⟨legacy.marker, legacy.files, legacy.chunks, .inr (vaultDir_set.trans (if_pos rfl))⟩
    have beside : (next.setVaultDir vaultId .empty).Others vaultId :=
      fun other directory different entry => by
        rw [vaultDir_set, if_neg different.symm] at entry
        exact others other directory different entry
    unfold ensureVaultDir
    rw [bind_assoc]
    refine .read_bind (fun _ => ⟨_, rfl⟩) stopped fun exist isExist => ?_
    obtain rfl := Except.ok.inj isExist
    obtain absent | isEmpty := legacy.vault
    · rw [absent]
      exact .change_bind stopped (fun stop => err stop _ made beside)
        (ok _ made beside top (vaultDir_set.trans (if_pos rfl)))
    · rw [isEmpty]
      exact ok next legacy others top isEmpty
  have stopped := fun stop => err stop disk legacy others
  unfold prepareVaultDirectory ensureRoot
  simp only [bind_assoc]
  refine .read_bind (fun _ => ⟨_, rfl⟩) stopped fun exist isExist => ?_
  obtain rfl := Except.ok.inj isExist
  cases root : disk.vaults with
  | some vaults => exact target disk legacy others rfl
  | none =>
    have empty : ∀ other, vaultDir other { disk with vaults := some (disk.vaults.getD ∅) } = none := by
      intro other
      unfold vaultDir
      rw [root]
      exact Std.ExtTreeMap.getElem?_empty
    have made : Legacy vaultId old new chunks { disk with vaults := some (disk.vaults.getD ∅) } :=
      ⟨legacy.marker, legacy.files, legacy.chunks, .inl (empty vaultId)⟩
    have beside : Others vaultId { disk with vaults := some (disk.vaults.getD ∅) } :=
      fun other directory _ entry => by
        rw [empty other] at entry
        cases entry
    simp only [Option.isSome_none, Bool.false_eq_true, if_false]
    refine .change_bind stopped (fun stop => ?_) ?_
    · exact err stop _ made beside
    · exact target _ made beside rfl

theorem migrateLegacy_finishes (ofOld : old.Of vaultId) (ofNew : new.Of vaultId)
    (layout : disk.Layout vaultId old new chunks) :
    migrateLegacy.Finishes p disk fun r next =>
      next.Layout vaultId old new chunks ∧ (disk.marker = none → disk.top = .empty → next = disk) ∧
        (r = .ok () → next.Migrated vaultId old new chunks) := by
  unfold migrateLegacy
  refine .next (recoverTop_finishes ofOld layout) (fun stop next done => ?_) fun _ next done => ?_
  · exact ⟨done.1, fun _ top => done.2.2.2.1 (top ▸ rfl), nofun⟩
  obtain ⟨layout, vaults, marker, idle, clean⟩ := done
  have stopped : ∀ stop : Halt Error, next.Layout vaultId old new chunks ∧
      (disk.marker = none → disk.top = .empty → next = disk) ∧
      (Except.error stop = .ok () → next.Migrated vaultId old new chunks) :=
    fun _ => ⟨layout, fun _ top => idle (top ▸ rfl), nofun⟩
  refine .read_bind (fun _ => ⟨_, rfl⟩) stopped fun marked isMarked => ?_
  obtain rfl := Except.ok.inj isMarked
  cases layout.stage with
  | moving vault phase moved known moving =>
    obtain ⟨bytes, _, isBytes⟩ := moving.marker
    rw [isBytes]
    refine (resumeMigration_finishes ofOld ofNew layout).mono fun r last done => ?_
    refine ⟨done.1, fun unmarked => ?_, fun ok => ?_⟩
    · rw [← marker, isBytes] at unmarked
      cases unmarked
    · exact done.1.migrated (done.2.1.mpr moving.begun) (done.2.2.2 ok).1
  | migrated migrated =>
    rw [migrated.marker]
    have gone : (topFile admissionFile).get next = none := congrArg (·.admission) migrated.top
    refine readPrivate_bind (fun _ => ?_) stopped ?_
    · rw [gone]
      nofun
    · rw [gone]
      exact .pure ⟨layout, fun _ top => idle (top ▸ rfl), fun _ => migrated⟩
  | legacy legacy =>
    rw [legacy.marker]
    have settled : ∃ vault : VaultPair, (vault = old ∨ vault = new) ∧ vault.Of vaultId ∧
        next.top = vault.left chunks 0 := by
      have same : ∀ vault : VaultPair, next.top.toPair = vault.pair →
          next.top = vault.left chunks 0 := fun vault isVault => by
        rw [VaultDir.mk.injEq, VaultFiles.mk.injEq]
        exact ⟨⟨isVault, clean rfl⟩, legacy.chunks⟩
      obtain isOld | isNew := legacy.files.pair (clean rfl)
      · exact ⟨old, .inl rfl, ofOld, same old isOld⟩
      · exact ⟨new, .inr rfl, ofNew, same new isNew⟩
    obtain ⟨vault, known, ofVault, top⟩ := settled
    have present : (topFile admissionFile).get next = some vault.admission :=
      congrArg (·.admission) top
    refine readPrivate_bind (fun _ => ?_) stopped ?_
    · rw [present]
      intro bytes isBytes
      obtain rfl := Option.some.inj isBytes
      exact ofVault.admission_length
    rw [present]
    obtain ⟨metadata, decoded, rfl⟩ := ofVault.admission
    refine .compute_bind (fun _ => ⟨metadata, decoded⟩) stopped fun found isFound => ?_
    obtain rfl := Except.ok.inj (decoded.symm.trans isFound)
    refine verifyReplica_bind (fun _ => ⟨vault, ofVault, congrArg (·.replica) top⟩) stopped ?_
    have never : ∀ last : DataDir, disk.marker = none → disk.top = .empty → last = disk :=
      fun _ _ isEmpty => by
        obtain rfl := idle (isEmpty ▸ rfl)
        rw [isEmpty] at top
        cases top
    have kept : ∀ (stop : Halt Error) (last : DataDir), last.Legacy metadata.vaultId old new chunks →
        last.Others metadata.vaultId → last.Layout metadata.vaultId old new chunks ∧
        (disk.marker = none → disk.top = .empty → last = disk) ∧
        (Except.error stop = .ok () → last.Migrated metadata.vaultId old new chunks) :=
      fun _ last legacy others => ⟨⟨.legacy legacy, others⟩, never last, nofun⟩
    refine prepare_legacy_bind legacy layout.others kept fun made legacy others sameTop entry => ?_
    have stopped := fun stop => kept stop made legacy others
    have encoded : ∃ bytes, encodeVaultMigration metadata.vaultId 0 = .ok bytes := ⟨_, rfl⟩
    refine .compute_bind (fun _ => encoded) stopped fun bytes written => ?_
    have moving : Moving metadata.vaultId vault chunks 0 0 (markerFile.put (some bytes) made) :=
      ⟨⟨bytes, written, rfl⟩, by omega, sameTop.trans top, entry, others⟩
    have recorded : Layout metadata.vaultId old new chunks (markerFile.put (some bytes) made) :=
      ⟨moving.stage known, others⟩
    unfold atomicPrivateWrite atomicPrivateWriteBounded
    rw [bind_assoc]
    refine .require (fun _ => ?_) stopped fun _ =>
      .change_bind stopped (fun _ => ⟨recorded, never _, nofun⟩) ?_
    · rw [(decodeVaultMigration_encode written).2]
      decide
    refine (resumeMigration_finishes ofOld ofNew recorded).mono fun r last done => ?_
    exact ⟨done.1, never last, fun ok => done.1.migrated (done.2.1.mpr moving.begun) (done.2.2.2 ok).1⟩

theorem Recovered.own {next : DataDir} (recovered : Recovered disk next)
    (clean : ∀ directory, disk.vaultDir vaultId = some directory → directory.journal = none) :
    next.vaultDir vaultId = disk.vaultDir vaultId := by
  cases entry : disk.vaultDir vaultId with
  | none => exact recovered.absent vaultId entry
  | some directory =>
    obtain ⟨left, isLeft, _, same⟩ := recovered.present vaultId directory entry
    rw [isLeft, same (clean directory entry)]

theorem Layout.clean (layout : disk.Layout vaultId old new chunks) (unmarked : disk.marker = none) :
    ∀ directory, disk.vaultDir vaultId = some directory → directory.journal = none := by
  intro directory entry
  obtain legacy | migrated := layout.settled unmarked
  · obtain absent | isEmpty := legacy.vault
    · rw [absent] at entry
      cases entry
    · rw [isEmpty] at entry
      obtain rfl := Option.some.inj entry
      rfl
  · obtain ⟨vault, _, isVault⟩ := migrated.vault
    rw [isVault] at entry
    obtain rfl := Option.some.inj entry
    rfl

theorem Layout.recovered {next : DataDir} (layout : disk.Layout vaultId old new chunks)
    (unmarked : disk.marker = none) (recovered : Recovered disk next) :
    next.Layout vaultId old new chunks ∧ (next.Begun vaultId ↔ disk.Begun vaultId) := by
  have own := recovered.own (layout.clean unmarked)
  refine ⟨⟨?_, fun other directory different entry => ?_⟩, begun_congr recovered.marker own⟩
  · obtain legacy | migrated := layout.settled unmarked
    · exact .legacy ⟨recovered.marker.trans legacy.marker, recovered.top ▸ legacy.files,
        recovered.top ▸ legacy.chunks, own ▸ legacy.vault⟩
    · exact .migrated ⟨recovered.marker.trans migrated.marker, recovered.top.trans migrated.top,
        own ▸ migrated.vault⟩
  · cases before : disk.vaultDir other with
    | none =>
      rw [recovered.absent other before] at entry
      cases entry
    | some standing =>
      obtain ⟨left, isLeft, intact, _⟩ := recovered.present other standing before
      obtain rfl := Option.some.inj (isLeft.symm.trans entry)
      exact intact (layout.others other standing different before)

theorem Migrated.intact (migrated : disk.Migrated vaultId old new chunks) (ofOld : old.Of vaultId)
    (ofNew : new.Of vaultId) (others : disk.Others vaultId) :
    ∀ other directory, disk.vaultDir other = some directory → Intact other directory := by
  intro other directory entry
  by_cases own : other = vaultId
  · subst own
    obtain ⟨vault, known, isVault⟩ := migrated.vault
    rw [isVault] at entry
    obtain rfl := Option.some.inj entry
    have ofVault : vault.Of other := by
      obtain rfl | rfl := known
      · exact ofOld
      · exact ofNew
    exact ⟨vault, vault, ofVault, ofVault, .settled rfl (.inl rfl)⟩
  · exact others other directory own entry

theorem Layout.housed (layout : disk.Layout vaultId old new chunks) (unmarked : disk.marker = none)
    (ofOld : old.Of vaultId) (ofNew : new.Of vaultId) :
    ∀ other directory, disk.vaultDir other = some directory → Housed other directory := by
  intro other directory entry
  obtain legacy | migrated := layout.settled unmarked
  · by_cases own : other = vaultId
    · subst own
      obtain absent | isEmpty := legacy.vault
      · rw [absent] at entry
        cases entry
      · exact .inr (Option.some.inj (entry.symm.trans isEmpty))
    · exact .inl (layout.others other directory own entry)
  · exact .inl (migrated.intact ofOld ofNew layout.others other directory entry)

theorem discoverLegacy_finishes :
    discoverLegacy.Finishes (disk.top = .empty) disk fun r next =>
      next = disk ∧ (disk.top = .empty → ∀ found, r = .ok found → found = []) := by
  unfold discoverLegacy
  refine readPrivate_bind (fun isEmpty => ?_) (fun _ => ⟨rfl, fun _ => nofun⟩) ?_
  · rw [show (topFile admissionFile).get disk = none from congrArg (·.admission) isEmpty]
    nofun
  cases present : (topFile admissionFile).get disk with
  | none =>
    refine .pure ⟨rfl, fun _ found same => ?_⟩
    cases same
    rfl
  | some admission =>
    have absurd : disk.top ≠ .empty := fun isEmpty => by
      rw [show (topFile admissionFile).get disk = none from congrArg (·.admission) isEmpty] at present
      cases present
    have stopped : ∀ stop : Halt Error, disk = disk ∧ (disk.top = .empty →
        ∀ found, Except.error stop = .ok found → found = ([] : List (VaultId × Home))) :=
      fun _ => ⟨rfl, fun _ => nofun⟩
    refine .compute_bind (fun isEmpty => (absurd isEmpty).elim) stopped fun metadata _ => ?_
    refine verifyReplica_bind (fun isEmpty => (absurd isEmpty).elim) stopped (.pure ⟨rfl, ?_⟩)
    exact fun isEmpty => (absurd isEmpty).elim

omit [Primitives] in
theorem mem_entries : vaultId ∈ (disk.vaults.getD ∅).toList.map Prod.fst ↔
    ∃ directory, disk.vaultDir vaultId = some directory := by
  unfold vaultDir
  cases disk.vaults with
  | none => simp
  | some vaults =>
    rw [Option.getD_some, Option.bind_some, List.mem_map]
    constructor
    · rintro ⟨entry, mem, rfl⟩
      exact ⟨entry.2, Map.mem_toList.mp mem⟩
    · rintro ⟨directory, found⟩
      exact ⟨(vaultId, directory), Map.mem_toList.mpr found, rfl⟩

omit [Primitives] in
theorem nodup_entries (disk : DataDir) : ((disk.vaults.getD ∅).toList.map Prod.fst).Nodup := by
  rw [List.Nodup, List.pairwise_map]
  exact (Map.toList_sorted _).imp fun less => less.ne

omit [Primitives] in
theorem filter_entries {entries : List VaultId} (nodup : entries.Nodup) (mem : vaultId ∈ entries) :
    ((entries.map fun other => (other, Home.vaultDir other)).insertionSort fun x y => x.1 ≤ y.1).filter
      (fun found => found.1 = vaultId) = [(vaultId, .vaultDir vaultId)] := by
  have one : entries.filter (fun other => other = vaultId) = [vaultId] := by
    rw [List.filter_eq, List.count_eq_one_of_mem nodup mem]
    rfl
  have sorted := (List.perm_insertionSort (fun x y : VaultId × Home => x.1 ≤ y.1)
    (entries.map fun other => (other, Home.vaultDir other))).filter fun found => found.1 = vaultId
  rw [List.filter_map] at sorted
  change List.Perm _ ((entries.filter fun other => other = vaultId).map _) at sorted
  rw [one] at sorted
  exact List.perm_singleton.mp sorted

/-- Discovery takes an interrupted migration up again and then finds the vault in its
own directory. Where the migration was not recorded, nothing is moved. -/
theorem discoverVaults_finishes (ofOld : old.Of vaultId) (ofNew : new.Of vaultId)
    (layout : disk.Layout vaultId old new chunks) :
    discoverVaults.Finishes (disk.Begun vaultId) disk fun r next =>
      next.Layout vaultId old new chunks ∧ (next.Begun vaultId ↔ disk.Begun vaultId) ∧
        (disk.Migrated vaultId old new chunks → disk.Quiet → next = disk) ∧
        ∀ vaults, r = .ok vaults → disk.Begun vaultId → next.Migrated vaultId old new chunks ∧
          next.Quiet ∧ vaults.filter (fun found => found.1 = vaultId) =
            [(vaultId, .vaultDir vaultId)] := by
  unfold discoverVaults
  refine .next (recoverTop_finishes ofOld layout) (fun stop next done => ?_) fun _ next done => ?_
  · obtain ⟨layout, vaults, marker, idle, _⟩ := done
    exact ⟨layout, begun_congr marker (vaultDir_congr vaults),
      fun migrated _ => idle (congrArg (·.journal) migrated.top), nofun⟩
  obtain ⟨layout, vaults, marker, idle, clean⟩ := done
  have same : next.Begun vaultId ↔ disk.Begun vaultId := begun_congr marker (vaultDir_congr vaults)
  refine .next (resumeMigration_finishes ofOld ofNew layout) (fun stop last done => ?_)
    fun _ last done => ?_
  · obtain ⟨layout, begun, rests, _⟩ := done
    refine ⟨layout, begun.trans same, fun migrated _ => ?_, nofun⟩
    obtain rfl := idle (congrArg (·.journal) migrated.top)
    exact rests migrated.marker (congrArg (·.journal) migrated.top)
  obtain ⟨layout, begun, rests, resumed⟩ := done
  obtain ⟨unmarked, topClean⟩ := resumed rfl
  have begun := begun.trans same
  have unmoved : disk.Migrated vaultId old new chunks → last = disk := fun migrated => by
    obtain rfl := idle (congrArg (·.journal) migrated.top)
    exact rests migrated.marker (congrArg (·.journal) migrated.top)
  have arrived : disk.Begun vaultId → last.Migrated vaultId old new chunks :=
    fun known => layout.migrated (begun.mpr known) unmarked
  refine .next (discoverLegacy_finishes.weaken fun known => (arrived known).top)
    (fun stop found done => ?_) fun legacy found done => ?_
  · rw [done.1]
    exact ⟨layout, begun, fun migrated _ => unmoved migrated, nofun⟩
  obtain ⟨isLast, isEmpty⟩ := done
  subst isLast
  refine .read_bind (fun _ => ⟨_, rfl⟩) (fun _ => ?_) fun entries isEntries => ?_
  · exact ⟨layout, begun, fun migrated _ => unmoved migrated, nofun⟩
  obtain rfl := Except.ok.inj isEntries
  refine .next (discoverEach_finishes (nodup_entries found) (fun known => ?_)
    (fun other mem => mem_entries.mp mem) (layout.housed unmarked ofOld ofNew)
    fun known => (arrived known).intact ofOld ofNew layout.others) (fun stop final done => ?_)
    fun list final done => ?_
  · rw [isEmpty (arrived known).top legacy rfl]
    exact fun _ _ => List.not_mem_nil
  · obtain ⟨recovered, quiet, _⟩ := done
    obtain ⟨layout, still⟩ := layout.recovered unmarked recovered
    refine ⟨layout, still.trans begun, fun migrated isQuiet => ?_, nofun⟩
    obtain rfl := unmoved migrated
    exact quiet isQuiet
  obtain ⟨recovered, quiet, isList⟩ := done
  obtain ⟨layout, still⟩ := layout.recovered unmarked recovered
  obtain ⟨isList, cleaned⟩ := isList list rfl
  refine .pure ⟨layout, still.trans begun, fun migrated isQuiet => ?_, fun vaults isVaults known => ?_⟩
  · obtain rfl := unmoved migrated
    exact quiet isQuiet
  cases isVaults
  have there := arrived known
  have migrated := layout.migrated ((still.trans begun).mpr known)
    (recovered.marker.trans unmarked)
  refine ⟨migrated, fun other directory entry => ?_, ?_⟩
  · refine cleaned other (mem_entries.mpr ?_) directory entry
    by_contra missing
    rw [not_exists] at missing
    rw [recovered.absent other (Option.eq_none_iff_forall_ne_some.mpr missing)] at entry
    cases entry
  · obtain ⟨vault, _, own⟩ := there.vault
    rw [isList, isEmpty there.top legacy rfl, List.nil_append]
    exact filter_entries (nodup_entries found) (mem_entries.mpr ⟨_, own⟩)

/-- One start of a host, stopped or not. -/
inductive Start where
  | migrate (faults : List Fault)
  | discover (faults : List Fault)

/-- The data directory through any number of starts. -/
def starts : Machine DataDir Start where
  exec := fun start disk =>
    match start with
    | .migrate faults => migrateLegacy.diskAfter faults disk
    | .discover faults => discoverVaults.diskAfter faults disk

theorem Layout.starts (ofOld : old.Of vaultId) (ofNew : new.Of vaultId) (start : Start)
    (layout : disk.Layout vaultId old new chunks) :
    (starts.exec start disk).Layout vaultId old new chunks := by
  cases start with
  | migrate faults => exact ((migrateLegacy_finishes (p := True) ofOld ofNew layout).ends faults).1
  | discover faults => exact ((discoverVaults_finishes ofOld ofNew layout).ends faults).1

/-- A discovery that is not disturbed finds the vault once, in its own directory with
its snapshot, chunks and admission file. Nothing of it is left elsewhere, and no
later start changes anything. -/
def FindsMigrated (vaultId : VaultId) (old new : VaultPair) (chunks : ChunkFiles) (disk : DataDir) :
    Prop :=
  ∃ vaults next, discoverVaults ⟨disk, []⟩ = (.ok vaults, ⟨next, []⟩) ∧
    vaults.filter (fun found => found.1 = vaultId) = [(vaultId, .vaultDir vaultId)] ∧
    next.Migrated vaultId old new chunks ∧ ∀ start, starts.exec start next = next

/-- Stop the migration of a vault anywhere, any number of times, and stop any number of
discoveries in between. The next discovery gets it to its own directory if and only
if the marker has been written. -/
theorem vault_migration_crash_safe (ofOld : old.Of vaultId) (ofNew : new.Of vaultId)
    (legacy : disk.Legacy vaultId old new chunks) (others : disk.Others vaultId)
    (history : List Start) :
    (starts.run history disk).FindsMigrated vaultId old new chunks ↔
      (starts.run history disk).Begun vaultId := by
  have layout : (starts.run history disk).Layout vaultId old new chunks :=
    starts.run_invariant (fun _ start layout => layout.starts ofOld ofNew start) history disk
      ⟨.legacy legacy, others⟩
  generalize starts.run history disk = left at layout
  have found := discoverVaults_finishes ofOld ofNew layout
  constructor
  · rintro ⟨vaults, next, run, _, migrated, _⟩
    have ends := found.ends []
    unfold Program.resultOf Program.diskAfter at ends
    rw [run] at ends
    exact ends.2.1.mp migrated.begun
  · intro begun
    obtain ⟨vaults, next, run, layout, _, _, isFound⟩ := found.succeeds begun
    obtain ⟨migrated, quiet, once⟩ := isFound vaults rfl begun
    refine ⟨vaults, next, run, once, migrated, fun start => ?_⟩
    cases start with
    | migrate faults =>
      exact ((migrateLegacy_finishes (p := True) ofOld ofNew layout).ends faults).2.1
        migrated.marker migrated.top
    | discover faults =>
      exact ((discoverVaults_finishes ofOld ofNew layout).ends faults).2.2.1 migrated quiet

end

/-! A vault of the old layout, without chunks, in a data directory of its own. -/

section

local instance : Primitives := Primitives.plain

private def oldVault : VaultPair where
  replica := (encodeReplica (ReplicaMetadata.new ⟨3⟩) 1).toOption.get (by decide +kernel)
  admission := (encodeVaultMetadata ⟨⟨3⟩, ⟨5⟩, 0, [], ∅⟩).toOption.get (by decide +kernel)

private theorem oldVault_of : oldVault.Of ⟨3⟩ := by
  refine ⟨⟨(decodeReplica oldVault.replica ⟨3⟩).toOption.get (by decide +kernel),
    Result.toOption_eq_some (Option.some_get _).symm⟩, ⟨⟨⟨3⟩, ⟨5⟩, 0, [], ∅⟩, by decide +kernel, rfl⟩, by decide +kernel⟩

private def oldDisk : DataDir := ⟨oldVault.left ∅ 0, none, none⟩

private theorem oldDisk_legacy : oldDisk.Legacy ⟨3⟩ oldVault oldVault ∅ :=
  ⟨rfl, .settled rfl (.inl rfl), rfl, .inl rfl⟩

/-- The machine stops when the directory of the vault has been made and the marker has
not been written: discovery then refuses to start. -/
theorem vault_migration_crash_safe_unmarked :
    oldVault.Of ⟨3⟩ ∧ oldDisk.Legacy ⟨3⟩ oldVault oldVault ∅ ∧ oldDisk.Others ⟨3⟩ ∧
      ¬ (starts.run [.migrate (List.replicate 8 .none ++ [.lost])] oldDisk).FindsMigrated ⟨3⟩
        oldVault oldVault ∅ := by
  refine ⟨oldVault_of, oldDisk_legacy, nofun, ?_⟩
  have refused : discoverVaults.resultOf []
      (starts.run [.migrate (List.replicate 8 .none ++ [.lost])] oldDisk) =
        .error (.error (.state "vault admission file is missing")) := by decide +kernel
  rintro ⟨vaults, next, run, _⟩
  unfold Program.resultOf at refused
  rw [run] at refused
  cases refused

/-- The machine stops after the first move and again inside the next discovery. -/
theorem vault_migration_crash_safe_resumed :
    (starts.run [.migrate (List.replicate 18 .none ++ [.last]), .discover [.none, .lost]]
      oldDisk).FindsMigrated ⟨3⟩ oldVault oldVault ∅ :=
  (vault_migration_crash_safe oldVault_of oldVault_of oldDisk_legacy nofun _).mpr
    (.inl (by decide +kernel))

end

end DataDir

end QuantumFs.Store
