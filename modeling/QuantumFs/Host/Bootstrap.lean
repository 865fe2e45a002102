import QuantumFs.Host.Availability
import QuantumFs.Store.Rebuilding

/-! The records that a new member starts from. They can be made in every state of the host:
whatever is in the vault took at least as many instructions as it takes to make it again, and
every directory can be linked before what it holds. -/
namespace QuantumFs.Host

open Lib Encoding Crypto Store DirectoryTree

theorem visit_eq (entries : List Dirent) : ∀ (directories : OrdSet FileId) (links : List ControlUpdate)
    (deferred : List Dirent), entries.foldl LinkRound.visit ⟨directories, links, deferred⟩ =
      ⟨(Passes.pass hasDir learnDir Dirent.parent directories entries).1,
        links ++ (Passes.pass hasDir learnDir Dirent.parent directories entries).2.1.map linkOf,
        deferred ++ (Passes.pass hasDir learnDir Dirent.parent directories entries).2.2⟩ := by
  induction entries with
  | nil =>
    intro directories links deferred
    simp [Passes.pass]
  | cons entry rest ih =>
    intro directories links deferred
    rw [List.foldl_cons]
    by_cases known : entry.parent ∈ directories
    · have first : LinkRound.visit ⟨directories, links, deferred⟩ entry =
          ⟨learnDir directories entry, links ++ [linkOf entry], deferred⟩ := by
        unfold LinkRound.visit
        rw [if_pos known]
        rfl
      have here : hasDir directories entry.parent = true := decide_eq_true known
      rw [first, ih, Passes.pass, if_pos here]
      simp
    · have first : LinkRound.visit ⟨directories, links, deferred⟩ entry =
          ⟨directories, links, deferred ++ [entry]⟩ := by
        unfold LinkRound.visit
        rw [if_neg known]
      have unknown : ¬ hasDir directories entry.parent = true := fun h => known (of_decide_eq_true h)
      rw [first, ih, Passes.pass, if_neg unknown]
      simp

theorem linkRounds_eq {fuel : Nat} : ∀ {directories : OrdSet FileId} {entries sorted : List Dirent},
    Passes.passes hasDir learnDir Dirent.parent fuel directories entries = some sorted →
      linkRounds fuel directories entries = .ok (sorted.map linkOf) := by
  induction fuel with
  | zero =>
    intro directories entries sorted done
    cases entries with
    | nil =>
      cases done
      rfl
    | cons _ _ => cases done
  | succ fuel ih =>
    intro directories entries sorted done
    cases entries with
    | nil =>
      cases done
      rfl
    | cons entry rest =>
      obtain ⟨-, -, perm⟩ := Passes.pass_spec hasDir learnDir Dirent.parent directories (entry :: rest)
      unfold Passes.passes at done
      unfold linkRounds
      rw [visit_eq]
      generalize Passes.pass hasDir learnDir Dirent.parent directories (entry :: rest) = result
        at done perm ⊢
      obtain ⟨after, taken, waiting⟩ := result
      dsimp only at done perm ⊢
      split at done
      · cases done
      · rename_i takes
        obtain ⟨later, isLater, rfl⟩ := Option.map_eq_some_iff.mp done
        have fewer : waiting.length ≠ (entry :: rest).length := by
          have total := perm.length_eq
          have some := List.length_pos_iff.mpr takes
          rw [List.length_append] at total
          omega
        refine Result.bind_eq_ok.mpr ⟨(), ensure_eq_ok.mpr fewer, ?_⟩
        refine Result.bind_eq_ok.mpr ⟨_, ih isLater, ?_⟩
        rw [List.map_append]
        rfl

theorem linkRounds_ok {tree : DirectoryTree} (valid : tree.Valid) :
    ∃ sorted : List Dirent, sorted.Perm tree.links ∧
      LinkOrder ((∅ : OrdSet FileId).insert tree.expectedRoot) sorted ∧
      linkRounds tree.links.length ((∅ : OrdSet FileId).insert tree.expectedRoot) tree.links =
        .ok (sorted.map linkOf) := by
  obtain ⟨sorted, done, perm, ordered⟩ := Passes.passes_eq_some dirs_lawful (links_grounded valid)
  exact ⟨sorted, perm, ordered, linkRounds_eq done⟩

theorem numberRecords_ok (first : Nat) (updates : List ControlUpdate) : ∀ (offset : Nat),
    first + offset + updates.length ≤ u64Max + 1 → ∃ records, (updates.zipIdx offset).mapM
      (fun (update, offset) => do
        let id ← checkedAdd first offset (.state "bootstrap instruction id overflow")
        pure (⟨id, update⟩ : ControlRecord)) = .ok records ∧ records.map ControlRecord.update = updates := by
  induction updates with
  | nil => exact fun _ _ => ⟨[], rfl, rfl⟩
  | cons update updates ih =>
    intro offset small
    rw [List.length_cons] at small
    obtain ⟨records, done, same⟩ := ih (offset + 1) (by omega)
    refine ⟨⟨first + offset, update⟩ :: records, ?_, by rw [List.map_cons, same]⟩
    rw [List.zipIdx_cons, List.mapM_cons]
    have numbered : first + offset ≤ u64Max := by omega
    refine Result.bind_eq_ok.mpr ⟨⟨first + offset, update⟩, ?_, Result.bind_eq_ok.mpr ⟨records, done, rfl⟩⟩
    exact Result.bind_eq_ok.mpr ⟨first + offset, checkedAdd_eq_ok.mpr ⟨numbered, rfl⟩, rfl⟩

/-- The updates of a snapshot, with the one that ends an empty one. -/
def updatesOf (manifests : Map FileId Manifest) (sorted : List Dirent) (through : Nat) :
    List ControlUpdate :=
  let updates := (Map.vals manifests).map ControlUpdate.newManifest ++ sorted.map linkOf
  if updates = [] ∧ through ≠ 0 then [.add ⟨0⟩] else updates

theorem updatesOf_ne_nil {manifests : Map FileId Manifest} {sorted : List Dirent} {through : Nat}
    (nonzero : through ≠ 0) : updatesOf manifests sorted through ≠ [] := by
  unfold updatesOf
  dsimp only
  split
  · exact List.cons_ne_nil _ _
  · rename_i something
    exact fun nothing => something ⟨nothing, nonzero⟩

theorem length_vals {κ β : Type} [LinearOrder κ] (m : Map κ β) :
    (Map.vals m).length = m.size := by
  unfold Map.vals
  rw [List.length_map, Std.ExtTreeMap.length_toList]

theorem length_links {tree : DirectoryTree} (valid : tree.Valid) :
    tree.links.length + 1 ≤ tree.entries.size := by
  rw [← length_vals]
  change (tree.dirents.filter _).length + 1 ≤ tree.dirents.length
  have fewer := List.length_filter_lt_length_iff_exists (p := fun entry : Dirent => decide (entry.name ≠ ""))
    (l := tree.dirents) |>.mpr ⟨rootDirent tree.expectedRoot, rootDirent_mem valid, by simp [rootDirent]⟩
  omega

theorem snapshotRecords_ok {tree : DirectoryTree} {manifests : Map FileId Manifest} {through : Nat}
    (valid : tree.Valid) (counted : manifests.size + tree.entries.size ≤ through + 1)
    (small : through + 1 ≤ u64Max) : ∃ sorted records, sorted.Perm tree.links ∧
      LinkOrder ((∅ : OrdSet FileId).insert tree.expectedRoot) sorted ∧
      snapshotRecords tree.expectedRoot tree manifests through = .ok records ∧
      records.map ControlRecord.update = updatesOf manifests sorted through := by
  obtain ⟨sorted, perm, ordered, linked⟩ := linkRounds_ok valid
  have bound : (updatesOf manifests sorted through).length ≤ through := by
    have fewer := length_links valid
    unfold updatesOf
    dsimp only
    split
    · rename_i empty
      rw [List.length_singleton]
      omega
    · rw [List.length_append, List.length_map, List.length_map, length_vals, perm.length_eq]
      omega
  obtain ⟨records, numbered, same⟩ := numberRecords_ok
    (through - (updatesOf manifests sorted through).length + 1) (updatesOf manifests sorted through) 0
    (by omega)
  refine ⟨sorted, records, perm, ordered, ?_, same⟩
  refine Result.bind_eq_ok.mpr ⟨updatesOf manifests sorted through, ?_, ?_⟩
  · exact Result.bind_eq_ok.mpr ⟨_, linked, rfl⟩
  · refine Result.bind_eq_ok.mpr ⟨(), ensure_eq_ok.mpr bound, ?_⟩
    exact Result.bind_eq_ok.mpr ⟨_, checkedAdd_eq_ok.mpr ⟨by omega, rfl⟩, numbered⟩

theorem applyTreeUpdate_entries {tree next : DirectoryTree} {update : ControlUpdate}
    {removed : Option FileId} (valid : tree.Valid)
    (h : applyTreeUpdate tree update = .ok (next, removed)) :
    (∀ fileId, next.isDir fileId = true → tree.isDir fileId = true ∨
      ∃ parent name, update = .link parent name fileId true) ∧
    (next.entries.size ≤ tree.entries.size + 1) ∧
    ((∃ manifest, update = .newManifest manifest) → next = tree) := by
  have same : (∀ fileId, tree.isDir fileId = true → tree.isDir fileId = true ∨
      ∃ parent name, update = .link parent name fileId true) ∧
      (tree.entries.size ≤ tree.entries.size + 1) ∧
      ((∃ manifest, update = .newManifest manifest) → tree = tree) :=
    ⟨fun _ isDir => .inl isDir, Nat.le_succ _, fun _ => rfl⟩
  have erased : ∀ entry : Dirent, (∀ fileId, (tree.eraseEntry entry).isDir fileId = true →
      tree.isDir fileId = true) ∧ (tree.eraseEntry entry).entries.size ≤ tree.entries.size := by
    refine fun entry => ⟨fun fileId isDir => ?_, Std.ExtTreeMap.size_erase_le⟩
    refine isDir_iff.mpr ((isDir_iff.mp isDir).imp id ?_)
    rintro ⟨other, mem, known⟩
    exact ⟨other, ((mem_eraseEntry valid).mp mem).1, known⟩
  have unlinked : ∀ {parent child : FileId} {name : String} {after : DirectoryTree},
      tree.unlink parent name = .ok (child, after) → (∀ fileId, after.isDir fileId = true →
        tree.isDir fileId = true) ∧ after.entries.size ≤ tree.entries.size := by
    intro parent child name after ok
    obtain ⟨entry, -, -, -, -, -, rfl⟩ := (unlink_eq_ok valid).mp ok
    exact erased entry
  cases update with
  | newManifest manifest =>
    obtain ⟨_, _, h⟩ := Result.bind_eq_ok.mp h
    cases h
    exact same
  | kick target =>
    cases h
    exact same
  | add fileId =>
    cases h
    exact same
  | clear fileId =>
    cases h
    exact same
  | remove fileId =>
    obtain ⟨after, ok, h⟩ := Result.bind_eq_ok.mp h
    cases h
    obtain ⟨_, ⟨rfl, _⟩ | ⟨parent, name, ok⟩⟩ := removeId_cases valid ok
    · exact same
    · obtain ⟨dirs, size⟩ := unlinked ok
      refine ⟨fun fileId isDir => .inl (dirs fileId isDir), size.trans (Nat.le_succ _), ?_⟩
      rintro ⟨_, never⟩
      cases never
  | link parent name child isDir =>
    obtain ⟨after, ok, h⟩ := Result.bind_eq_ok.mp h
    cases h
    obtain ⟨linkable, rfl⟩ := link_eq_ok.mp ok
    refine ⟨fun fileId dir => ?_, Std.ExtTreeMap.size_insert_le, ?_⟩
    · obtain isRoot | ⟨other, mem, isChild, otherDir⟩ := isDir_iff.mp dir
      · exact .inl (isDir_iff.mpr (.inl isRoot))
      · obtain rfl | old := (mem_insertEntry linkable.vacant).mp mem
        · obtain rfl : isDir = true := otherDir
          exact .inr ⟨parent, name, by rw [← isChild]⟩
        · exact .inl (isDir_iff.mpr (.inr ⟨other, old, isChild, otherDir⟩))
    · rintro ⟨_, never⟩
      cases never
  | unlink parent name =>
    obtain ⟨⟨child, after⟩, ok, h⟩ := Result.bind_eq_ok.mp h
    cases h
    obtain ⟨dirs, size⟩ := unlinked ok
    refine ⟨fun fileId isDir => .inl (dirs fileId isDir), size.trans (Nat.le_succ _), ?_⟩
    rintro ⟨_, never⟩
    cases never
  | rename srcParent srcName dstParent dstName =>
    obtain ⟨after, ok, h⟩ := Result.bind_eq_ok.mp h
    cases h
    obtain rfl | ⟨entry, entryMem, _, _, vacant, rfl, _⟩ := rename_cases valid ok
    · exact same
    refine ⟨fun fileId dir => .inl ?_, ?_, ?_⟩
    · obtain isRoot | ⟨other, mem, isChild, otherDir⟩ := isDir_iff.mp dir
      · exact isDir_iff.mpr (.inl isRoot)
      · obtain rfl | old := (mem_insertEntry vacant).mp mem
        · exact isDir_iff.mpr (.inr ⟨entry, entryMem, isChild, otherDir⟩)
        · exact isDir_iff.mpr (.inr ⟨other, ((mem_eraseEntry valid).mp old).1, isChild, otherDir⟩)
    · exact Std.ExtTreeMap.size_insert_le.trans (Nat.succ_le_succ (erased entry).2)
    · rintro ⟨_, never⟩
      cases never

namespace Content

variable {c : Content}

/-- No directory has a manifest, and the vault holds no more than has been instructed. -/
structure Rebuildable (c : Content) : Prop where
  filed : ∀ (fileId : FileId) (manifest : Manifest), c.manifests[fileId]? = some manifest →
    manifest.fileId = fileId
  files : ∀ (fileId : FileId) (manifest : Manifest), c.manifests[fileId]? = some manifest →
    c.tree.isDir fileId = false
  counted : c.manifests.size + c.tree.entries.size ≤ c.nextControl
  small : c.nextControl ≤ u64Max

theorem size_manifestsAfter (update : ControlUpdate) (removed : Option FileId) :
    (c.manifestsAfter update removed).size ≤ c.manifests.size + 1 ∧
      ((∀ manifest, update ≠ .newManifest manifest) →
        (c.manifestsAfter update removed).size ≤ c.manifests.size) := by
  unfold manifestsAfter
  cases removed with
  | none =>
    cases update with
    | newManifest manifest =>
      exact ⟨Std.ExtTreeMap.size_insert_le, fun never => absurd rfl (never manifest)⟩
    | _ => exact ⟨Nat.le_succ _, fun _ => le_refl _⟩
  | some fileId =>
    cases update with
    | newManifest manifest =>
      refine ⟨Std.ExtTreeMap.size_erase_le.trans Std.ExtTreeMap.size_insert_le, fun never => ?_⟩
      exact absurd rfl (never manifest)
    | _ =>
      refine ⟨Std.ExtTreeMap.size_erase_le.trans (Nat.le_succ _), fun _ => ?_⟩
      exact Std.ExtTreeMap.size_erase_le

theorem Rebuildable.commit [Primitives] {staged : Content} {update : ControlUpdate}
    {live : PeerId → Bool} {admission : Option VaultMetadata} (rebuildable : c.Rebuildable)
    (sound : c.Sound) (h : c.commit update live admission = .ok staged) : staged.Rebuildable := by
  obtain ⟨tree, removed, kind, applied, small, rfl⟩ := commit_eq_ok h
  obtain ⟨dirs, grows, still⟩ := applyTreeUpdate_entries sound.tree applied
  obtain ⟨one, none⟩ := @size_manifestsAfter c update removed
  refine ⟨fun fileId manifest found => ?_, fun fileId manifest found => ?_, ?_, small⟩
  · obtain ⟨_, ⟨_, isFile⟩ | ⟨before, _⟩⟩ := manifestsAfter_eq_some.mp found
    · exact isFile
    · exact rebuildable.filed fileId manifest before
  · obtain ⟨_, ⟨rfl, rfl⟩ | ⟨before, _⟩⟩ := manifestsAfter_eq_some.mp found
    · obtain rfl := still ⟨manifest, rfl⟩
      obtain ⟨_, isFile, _⟩ := Result.bind_eq_ok.mp applied
      exact ensure_eq_ok.mp isFile
    · cases isDir : tree.isDir fileId with
      | false => rfl
      | true =>
        obtain old | ⟨parent, name, rfl⟩ := dirs fileId isDir
        · rw [rebuildable.files fileId manifest before] at old
          cases old
        · have unused : c.manifests.contains fileId = false := ensure_eq_ok.mp kind
          rw [(Map.contains_iff_get _ _).mpr ⟨manifest, before⟩] at unused
          cases unused
  · have counted := rebuildable.counted
    change (c.manifestsAfter update removed).size + tree.entries.size ≤ c.nextControl + 1
    by_cases isManifest : ∃ manifest, update = .newManifest manifest
    · rw [still isManifest]
      omega
    · have fewer := none fun manifest same => isManifest ⟨manifest, same⟩
      omega

end Content

theorem initially_rebuildable : Initially Content.Rebuildable := by
  intro hostId members historical root gateOwner _
  have one : 1 ≤ u64Max := by decide
  have none : ∀ {fileId : FileId} {manifest : Manifest},
      ((∅ : Map FileId Manifest)[fileId]?) = some manifest → False := by
    intro fileId manifest found
    rw [Std.ExtTreeMap.getElem?_empty] at found
    cases found
  refine ⟨fun _ _ found => (none found).elim, fun _ _ found => (none found).elim, ?_, one⟩
  change (∅ : Map FileId Manifest).size + (DirectoryTree.new root).entries.size ≤ 1
  have alone : (DirectoryTree.new root).entries.size ≤ (∅ : Map DirentKey Dirent).size + 1 :=
    Std.ExtTreeMap.size_insert_le
  rw [Std.ExtTreeMap.size_empty] at alone ⊢
  omega

end QuantumFs.Host
