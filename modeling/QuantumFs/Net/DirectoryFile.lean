import QuantumFs.Net.Directory

/-! Opening the directory (`DirectoryStore::open`). Every record of the file is
checked again, against the other records too, and one that fails refuses the
whole store; so each commit has to leave a file that passes. -/
namespace QuantumFs.Net

open Lib Encoding Crypto

section

variable {α κ β : Type} [LinearOrder κ]

/-- Check each record and file it under its key; keys are not repeated. -/
def collect (key : α → κ) (value : α → β) (check : α → Result Unit) (duplicate : Error)
    (entries : List α) : Result (Map κ β) :=
  entries.foldlM (fun done entry => do
    check entry
    ensure (done.contains (key entry) = false) duplicate
    pure (done.insert (key entry) (value entry))) ∅

variable {key : α → κ} {value : α → β} {check : α → Result Unit} {duplicate : Error}

private theorem collect_from (value : α → β) (duplicate : Error) {entries : List α} :
    ∀ (done : Map κ β), (∀ entry ∈ entries, check entry = .ok ()) →
      entries.Pairwise (fun a b => key a ≠ key b) → (∀ entry ∈ entries, done[key entry]? = none) →
      ∃ all : Map κ β, entries.foldlM (fun done entry => do
          check entry
          ensure (done.contains (key entry) = false) duplicate
          pure (done.insert (key entry) (value entry))) done = .ok all ∧
        ∀ (k : κ) (v : β), all[k]? = some v ↔
          done[k]? = some v ∨ ∃ entry ∈ entries, key entry = k ∧ value entry = v := by
  induction entries with
  | nil => exact fun done _ _ _ => ⟨done, rfl, by simp⟩
  | cons entry entries ih =>
    intro done checks distinct fresh
    obtain ⟨others, distinct⟩ := List.pairwise_cons.mp distinct
    have missing := fresh entry List.mem_cons_self
    obtain ⟨all, result, filed⟩ := ih (done.insert (key entry) (value entry))
      (fun later mem => checks later (List.mem_cons_of_mem _ mem)) distinct fun later mem => by
        rw [Map.get_insert_ne _ _ (others later mem)]
        exact fresh later (List.mem_cons_of_mem _ mem)
    refine ⟨all, ?_, fun k v => ?_⟩
    · rw [List.foldlM_cons]
      refine Result.bind_eq_ok.mpr ⟨_, ?_, result⟩
      refine Result.bind_eq_ok.mpr ⟨(), checks entry List.mem_cons_self, ?_⟩
      refine Result.bind_eq_ok.mpr ⟨(), ensure_eq_ok.mpr ?_, rfl⟩
      rw [← Bool.not_eq_true, Map.contains_iff_get, missing]
      exact nofun
    · rw [filed, Map.get_insert]
      constructor
      · rintro (h | ⟨later, mem, same⟩)
        · split at h
          · rename_i same
            exact .inr ⟨entry, List.mem_cons_self, same, Option.some.inj h⟩
          · exact .inl h
        · exact .inr ⟨later, List.mem_cons_of_mem _ mem, same⟩
      · rintro (h | ⟨later, mem, rfl, rfl⟩)
        · refine .inl ?_
          rw [if_neg]
          · exact h
          · rintro rfl
            rw [missing] at h
            cases h
        · obtain rfl | mem := List.mem_cons.mp mem
          · exact .inl (if_pos rfl)
          · exact .inr ⟨later, mem, rfl, rfl⟩

theorem collect_eq_ok {entries : List α} {all : Map κ β}
    (checks : ∀ entry ∈ entries, check entry = .ok ())
    (distinct : entries.Pairwise fun a b => key a ≠ key b)
    (filed : ∀ (k : κ) (v : β), all[k]? = some v ↔ ∃ entry ∈ entries, key entry = k ∧ value entry = v) :
    collect key value check duplicate entries = .ok all := by
  obtain ⟨found, result, same⟩ := collect_from value duplicate ∅ checks distinct fun _ _ => by simp
  unfold collect
  rw [result]
  congr 1
  apply Map.ext_get
  intro k
  apply Option.ext
  intro v
  rw [same, filed]
  simp

private theorem mem_collect_from {entries : List α} {all : Map κ β} {k : κ} {v : β}
    (found : all[k]? = some v) :
    ∀ {done : Map κ β}, entries.foldlM (fun done entry => do
        check entry
        ensure (done.contains (key entry) = false) duplicate
        pure (done.insert (key entry) (value entry))) done = .ok all →
      done[k]? = some v ∨
        ∃ entry ∈ entries, key entry = k ∧ value entry = v ∧ check entry = .ok () := by
  induction entries with
  | nil =>
    intro done h
    cases h
    exact .inl found
  | cons entry entries ih =>
    intro done h
    rw [List.foldlM_cons] at h
    obtain ⟨next, first, rest⟩ := Result.bind_eq_ok.mp h
    obtain ⟨_, checked, first⟩ := Result.bind_eq_ok.mp first
    obtain ⟨_, _, first⟩ := Result.bind_eq_ok.mp first
    cases first
    obtain before | ⟨later, mem, filed⟩ := ih rest
    · rw [Map.get_insert] at before
      split at before
      · rename_i same
        exact .inr ⟨entry, List.mem_cons_self, same, Option.some.inj before, checked⟩
      · exact .inl before
    · exact .inr ⟨later, List.mem_cons_of_mem _ mem, filed⟩

theorem mem_collect {entries : List α} {all : Map κ β}
    (h : collect key value check duplicate entries = .ok all) {k : κ} {v : β}
    (found : all[k]? = some v) :
    ∃ entry ∈ entries, key entry = k ∧ value entry = v ∧ check entry = .ok () := by
  obtain before | filed := mem_collect_from found h
  · simp at before
  · exact filed

end

namespace DirectoryStore

variable {Addr : Type} [NumericAddr Addr] [Primitives]

omit [Primitives] in
def readState (file : Option Bytes) : Result (DirectoryState Addr) :=
  match file with
  | none => pure ⟨[], []⟩
  | some bytes => do
    ensure (bytes.length ≤ maxStateBytes) (.invalidInput "directory store is too large")
    if bytes ≠ [] then decodeDirectoryState bytes else pure ⟨[], []⟩

def checkWatermark (watermark : DirectoryWatermark) : Result Unit :=
  ensure (watermark.peerId = Encoding.peerId watermark.vk) .authenticationFailed

omit [NumericAddr Addr] [Primitives] in
def requirePeerCaps (ads : Map JoinCode (DirectoryAd Addr)) : Result Unit :=
  ensure (∀ ad ∈ Map.vals ads, peerCount ads ad.peerId ≤ maxAdsPerPeer)
    (.invalidInput "directory peer ad cap exceeded")

omit [NumericAddr Addr] [Primitives] in
def requireWatermark (watermarks : Map WatermarkKey DirectoryWatermark) (ad : DirectoryAd Addr) :
    Result Unit := do
  let watermark ← okOr watermarks[ad.key]? (.invalidInput "directory ad has no watermark")
  ensure (ad.issuedAt ≤ watermark.issuedAt ∧ watermark.vk = ad.vk)
    (.invalidInput "directory ad watermark mismatch")

def «open» (file : Option Bytes) : Result (DirectoryStore Addr) := do
  let state ← readState file
  let ads ← collect Prod.fst Prod.snd (fun entry => entry.2.verifySignature)
    (.invalidInput "duplicate directory join code") state.ads
  let watermarks ← collect (fun watermark => ⟨watermark.peerId, watermark.vaultId⟩) id checkWatermark
    (.invalidInput "duplicate directory watermark") state.watermarks
  ensure (ads.size ≤ maxTotalAds ∧ watermarks.size ≤ maxTotalAds)
    (.invalidInput "directory store exceeds entry cap")
  requirePeerCaps ads
  (Map.vals ads).forM (requireWatermark watermarks)
  pure { ads, watermarks, failed := false, file }

/-- What opening checks of the two maps. -/
structure Reopens (ads : Map JoinCode (DirectoryAd Addr))
    (watermarks : Map WatermarkKey DirectoryWatermark) : Prop where
  signed : ∀ (code : JoinCode) (ad : DirectoryAd Addr), ads[code]? = some ad →
    ad.verifySignature = .ok ()
  keyed : ∀ (key : WatermarkKey) (watermark : DirectoryWatermark),
    watermarks[key]? = some watermark → watermark.peerId = Encoding.peerId watermark.vk ∧
      key = ⟨watermark.peerId, watermark.vaultId⟩
  adCap : ads.size ≤ maxTotalAds
  watermarkCap : watermarks.size ≤ maxTotalAds
  peerCap : ∀ peer, peerCount ads peer ≤ maxAdsPerPeer
  covered : ∀ (code : JoinCode) (ad : DirectoryAd Addr), ads[code]? = some ad →
    ∃ watermark, watermarks[ad.key]? = some watermark ∧ ad.issuedAt ≤ watermark.issuedAt ∧
      watermark.vk = ad.vk

omit [NumericAddr Addr] [Primitives] in
theorem requireWatermark_eq_ok {watermarks : Map WatermarkKey DirectoryWatermark}
    {ad : DirectoryAd Addr} : requireWatermark watermarks ad = .ok () ↔
      ∃ watermark, watermarks[ad.key]? = some watermark ∧ ad.issuedAt ≤ watermark.issuedAt ∧
        watermark.vk = ad.vk := by
  unfold requireWatermark
  rw [Result.bind_eq_ok]
  simp only [okOr_eq_ok, ensure_eq_ok]

omit [NumericAddr Addr] [Primitives] in
theorem peerCount_eq_zero {ads : Map JoinCode (DirectoryAd Addr)} {peer : PeerId}
    (none : ∀ ad ∈ Map.vals ads, ad.peerId ≠ peer) : peerCount ads peer = 0 := by
  unfold peerCount
  have empty : (ads.filter fun _ ad => decide (ad.peerId = peer)) = ∅ := by
    apply Map.ext_get
    intro code
    rw [Map.get_filter]
    cases found : ads[code]? with
    | none => simp
    | some ad => simp [none ad (Map.mem_vals.mpr ⟨code, found⟩)]
  rw [empty]
  simp

theorem open_reopens {file : Option Bytes} {store : DirectoryStore Addr}
    (opened : «open» file = .ok store) :
    Reopens store.ads store.watermarks ∧ store.failed = false ∧ store.file = file := by
  unfold «open» at opened
  obtain ⟨state, _, opened⟩ := Result.bind_eq_ok.mp opened
  obtain ⟨ads, collected, opened⟩ := Result.bind_eq_ok.mp opened
  obtain ⟨watermarks, marked, opened⟩ := Result.bind_eq_ok.mp opened
  obtain ⟨_, caps, opened⟩ := Result.bind_eq_ok.mp opened
  obtain ⟨_, shares, opened⟩ := Result.bind_eq_ok.mp opened
  obtain ⟨_, related, opened⟩ := Result.bind_eq_ok.mp opened
  cases opened
  obtain ⟨adCap, watermarkCap⟩ := ensure_eq_ok.mp caps
  refine ⟨⟨fun code ad found => ?_, fun key watermark found => ?_, adCap, watermarkCap,
    fun peer => ?_, fun code ad found => ?_⟩, rfl, rfl⟩
  · obtain ⟨entry, _, _, rfl, checked⟩ := mem_collect collected found
    exact checked
  · obtain ⟨entry, _, rfl, rfl, checked⟩ := mem_collect marked found
    exact ⟨ensure_eq_ok.mp checked, rfl⟩
  · by_cases some : ∃ ad ∈ Map.vals ads, ad.peerId = peer
    · obtain ⟨ad, mem, rfl⟩ := some
      exact ensure_eq_ok.mp shares ad mem
    · rw [peerCount_eq_zero fun ad mem same => some ⟨ad, mem, same⟩]
      exact Nat.zero_le _
  · exact requireWatermark_eq_ok.mp (Result.forM_eq_ok.mp related ad (Map.mem_vals.mpr ⟨code, found⟩))

theorem open_stored (parses : ∀ addr : Addr, SocketAddr.parse (SocketAddr.print addr) = some addr)
    {ads : Map JoinCode (DirectoryAd Addr)} {watermarks : Map WatermarkKey DirectoryWatermark}
    (reopens : Reopens ads watermarks) {file : Option Bytes} (holds : Holds ads watermarks file) :
    «open» file = .ok { ads, watermarks, failed := false, file } := by
  obtain ⟨bytes, written, small, rfl⟩ := holds
  have decoded : decodeDirectoryState bytes = .ok (stateOf ads watermarks) := by
    refine decodeDirectoryState_encode parses ?_ ?_ written
    · exact Std.ExtTreeMap.length_toList.trans_le reopens.adCap
    · refine le_trans (le_of_eq ?_) reopens.watermarkCap
      exact (List.length_map _).trans Std.ExtTreeMap.length_toList
  have state : readState (some bytes) = .ok (stateOf ads watermarks) := by
    refine Result.bind_eq_ok.mpr ⟨(), ensure_eq_ok.mpr small, ?_⟩
    have filled : bytes ≠ [] := by
      rintro rfl
      cases decoded
    rw [if_pos filled]
    exact decoded
  have collected : collect Prod.fst Prod.snd (fun entry => entry.2.verifySignature)
      (.invalidInput "duplicate directory join code") (stateOf ads watermarks).ads = .ok ads := by
    refine collect_eq_ok (fun entry mem => ?_) ?_ fun code ad => ?_
    · exact reopens.signed entry.1 entry.2 (Map.mem_toList.mp mem)
    · exact (Map.toList_sorted ads).imp fun less => less.ne
    · rw [← Map.mem_toList]
      constructor
      · exact fun mem => ⟨(code, ad), mem, rfl, rfl⟩
      · rintro ⟨entry, mem, rfl, rfl⟩
        exact mem
  have keyOf : ∀ entry ∈ watermarks.toList,
      (⟨entry.2.peerId, entry.2.vaultId⟩ : WatermarkKey) = entry.1 :=
    fun entry mem => (reopens.keyed entry.1 entry.2 (Map.mem_toList.mp mem)).2.symm
  have marked : collect (fun watermark => ⟨watermark.peerId, watermark.vaultId⟩) id checkWatermark
      (.invalidInput "duplicate directory watermark") (stateOf ads watermarks).watermarks =
        .ok watermarks := by
    refine collect_eq_ok (fun watermark mem => ?_) ?_ fun key watermark => ?_
    · obtain ⟨key, found⟩ := Map.mem_vals.mp mem
      exact ensure_eq_ok.mpr (reopens.keyed key watermark found).1
    · refine List.pairwise_map.mpr ((Map.toList_sorted watermarks).imp_of_mem ?_)
      intro first second left right less
      rw [keyOf first left, keyOf second right]
      exact less.ne
    · constructor
      · intro found
        refine ⟨watermark, Map.mem_vals.mpr ⟨key, found⟩, ?_, rfl⟩
        exact (reopens.keyed key watermark found).2.symm
      · rintro ⟨entry, mem, rfl, rfl⟩
        obtain ⟨key, found⟩ := Map.mem_vals.mp mem
        rw [← (reopens.keyed key entry found).2]
        exact found
  unfold «open»
  refine Result.bind_eq_ok.mpr ⟨_, state, Result.bind_eq_ok.mpr ⟨_, collected, ?_⟩⟩
  refine Result.bind_eq_ok.mpr ⟨_, marked, Result.bind_eq_ok.mpr ⟨(), ?_, ?_⟩⟩
  · exact ensure_eq_ok.mpr ⟨reopens.adCap, reopens.watermarkCap⟩
  refine Result.bind_eq_ok.mpr ⟨(), ensure_eq_ok.mpr fun ad _ => reopens.peerCap ad.peerId, ?_⟩
  refine Result.bind_eq_ok.mpr ⟨(), Result.forM_eq_ok.mpr fun ad mem => ?_, rfl⟩
  obtain ⟨code, found⟩ := Map.mem_vals.mp mem
  exact requireWatermark_eq_ok.mpr (reopens.covered code ad found)

variable {store : DirectoryStore Addr} {now : U64}

omit [NumericAddr Addr] [Primitives] in
theorem prunedAds_le : (store.prunedAds now).size ≤ store.ads.size :=
  Std.ExtTreeMap.size_filter_le_size

omit [NumericAddr Addr] [Primitives] in
theorem prunedWatermarks_le : (store.prunedWatermarks now).size ≤ store.watermarks.size :=
  Std.ExtTreeMap.size_filter_le_size

omit [NumericAddr Addr] [Primitives] in
theorem peerCount_prunedAds (peer : PeerId) :
    peerCount (store.prunedAds now) peer ≤ peerCount store.ads peer := by
  unfold peerCount prunedAds
  rw [Map.filter_comm]
  exact Std.ExtTreeMap.size_filter_le_size

omit [NumericAddr Addr] [Primitives] in
theorem peerCount_erase (ads : Map JoinCode (DirectoryAd Addr)) (code : JoinCode) (peer : PeerId) :
    peerCount (ads.erase code) peer ≤ peerCount ads peer := by
  unfold peerCount
  rw [Map.filter_erase]
  exact Std.ExtTreeMap.size_erase_le

omit [NumericAddr Addr] [Primitives] in
theorem peerCount_insert {ads : Map JoinCode (DirectoryAd Addr)} {code : JoinCode}
    {ad : DirectoryAd Addr} (within : ∀ peer, peerCount ads peer ≤ maxAdsPerPeer)
    (room : (∃ existing ∈ ads[code]?, existing.peerId = ad.peerId) ∨
      peerCount ads ad.peerId < maxAdsPerPeer) (peer : PeerId) :
    peerCount (ads.insert code ad) peer ≤ maxAdsPerPeer := by
  have before := within peer
  unfold peerCount at before ⊢
  rw [Map.filter_insert]
  split
  · rename_i own
    have own : ad.peerId = peer := of_decide_eq_true own
    rw [Std.ExtTreeMap.size_insert]
    split
    · exact before
    · rename_i new
      obtain ⟨existing, found, same⟩ | room := room
      · refine absurd ((Map.contains_iff_get _ _).mpr ⟨existing, ?_⟩) new
        rw [Map.get_filter, Option.mem_def.mp found]
        simp [same, own]
      · subst own
        exact room
  · exact Std.ExtTreeMap.size_erase_le.trans before

theorem Reopens.pruned (reopens : Reopens store.ads store.watermarks) (now : U64) :
    Reopens (store.prunedAds now) (store.prunedWatermarks now) where
  signed := fun code ad found => by
    rw [get_prunedAds, Option.filter_eq_some_iff] at found
    exact reopens.signed code ad found.1
  keyed := fun key watermark found => by
    rw [get_prunedWatermarks, Option.filter_eq_some_iff] at found
    exact reopens.keyed key watermark found.1
  adCap := prunedAds_le.trans reopens.adCap
  watermarkCap := prunedWatermarks_le.trans reopens.watermarkCap
  peerCap := fun peer => (peerCount_prunedAds peer).trans (reopens.peerCap peer)
  covered := fun code ad found => by
    rw [get_prunedAds, Option.filter_eq_some_iff] at found
    obtain ⟨found, fresh⟩ := found
    obtain ⟨watermark, marked, newer, same⟩ := reopens.covered code ad found
    refine ⟨watermark, ?_, newer, same⟩
    rw [get_prunedWatermarks, marked, Option.filter_eq_some_iff]
    refine ⟨rfl, ?_⟩
    cases expired : isExpired watermark.issuedAt now with
    | false => rfl
    | true =>
      rw [isExpired_mono expired newer le_rfl] at fresh
      cases fresh

/-- The keys of all advertisements are among these. -/
def KeysIn (keys : Set Bytes) (ads : Map JoinCode (DirectoryAd Addr)) : Prop :=
  ∀ (code : JoinCode) (ad : DirectoryAd Addr), ads[code]? = some ad → ad.vk ∈ keys

theorem verifySignature_peerId {ad : DirectoryAd Addr} (h : ad.verifySignature = .ok ()) :
    ad.peerId = Encoding.peerId ad.vk := by
  obtain ⟨_, _, h⟩ := Result.bind_eq_ok.mp h
  obtain ⟨_, _, h⟩ := Result.bind_eq_ok.mp h
  obtain ⟨_, same, _⟩ := Result.bind_eq_ok.mp h
  exact ensure_eq_ok.mp same

theorem Reopens.mark {ads : Map JoinCode (DirectoryAd Addr)}
    {watermarks : Map WatermarkKey DirectoryWatermark} (reopens : Reopens ads watermarks)
    (key : WatermarkKey) (watermark : DirectoryWatermark)
    (filed : key = ⟨watermark.peerId, watermark.vaultId⟩)
    (own : watermark.peerId = Encoding.peerId watermark.vk)
    (newer : ∀ old ∈ watermarks[key]?, old.issuedAt < watermark.issuedAt)
    (room : watermarks.contains key = true ∨ watermarks.size < maxTotalAds)
    (same : ∀ (code : JoinCode) (ad : DirectoryAd Addr), ads[code]? = some ad → ad.key = key →
      ad.vk = watermark.vk) : Reopens ads (watermarks.insert key watermark) where
  signed := reopens.signed
  keyed := fun other found mem => by
    rw [Map.get_insert] at mem
    split at mem
    · rename_i equal
      cases mem
      exact ⟨own, equal ▸ filed⟩
    · exact reopens.keyed other found mem
  adCap := reopens.adCap
  watermarkCap := by
    rw [Std.ExtTreeMap.size_insert]
    split
    · exact reopens.watermarkCap
    · rename_i missing
      exact room.resolve_left missing
  peerCap := reopens.peerCap
  covered := fun code ad found => by
    obtain ⟨old, marked, older, vk⟩ := reopens.covered code ad found
    rw [Map.get_insert]
    split
    · rename_i equal
      subst equal
      exact ⟨watermark, rfl, older.trans (newer old marked).le, (same code ad found rfl).symm⟩
    · exact ⟨old, marked, older, vk⟩

theorem Reopens.file {ads : Map JoinCode (DirectoryAd Addr)}
    {watermarks : Map WatermarkKey DirectoryWatermark} (reopens : Reopens ads watermarks)
    {code : JoinCode} {ad : DirectoryAd Addr} (verified : ad.verifySignature = .ok ())
    (marked : ∃ watermark, watermarks[ad.key]? = some watermark ∧
      ad.issuedAt ≤ watermark.issuedAt ∧ watermark.vk = ad.vk)
    (share : (∃ existing ∈ ads[code]?, existing.peerId = ad.peerId) ∨
      peerCount ads ad.peerId < maxAdsPerPeer)
    (space : ads.contains code = true ∨ ads.size < maxTotalAds) :
    Reopens (ads.insert code ad) watermarks where
  signed := fun other found mem => by
    rw [Map.get_insert] at mem
    split at mem
    · cases mem
      exact verified
    · exact reopens.signed other found mem
  keyed := reopens.keyed
  adCap := by
    rw [Std.ExtTreeMap.size_insert]
    split
    · exact reopens.adCap
    · rename_i missing
      exact space.resolve_left missing
  watermarkCap := reopens.watermarkCap
  peerCap := peerCount_insert reopens.peerCap share
  covered := fun other found mem => by
    rw [Map.get_insert] at mem
    split at mem
    · cases mem
      exact marked
    · exact reopens.covered other found mem

theorem Reopens.unfile {ads : Map JoinCode (DirectoryAd Addr)}
    {watermarks : Map WatermarkKey DirectoryWatermark} (reopens : Reopens ads watermarks)
    (code : JoinCode) : Reopens (ads.erase code) watermarks := by
  have kept : ∀ (other : JoinCode) (ad : DirectoryAd Addr), (ads.erase code)[other]? = some ad →
      ads[other]? = some ad := by
    intro other ad found
    rw [Map.get_erase] at found
    split at found
    · cases found
    · exact found
  exact {
    signed := fun other ad found => reopens.signed other ad (kept other ad found)
    keyed := reopens.keyed
    adCap := Std.ExtTreeMap.size_erase_le.trans reopens.adCap
    watermarkCap := reopens.watermarkCap
    peerCap := fun peer => (peerCount_erase ads code peer).trans (reopens.peerCap peer)
    covered := fun other ad found => reopens.covered other ad (kept other ad found) }

theorem Asks.reopens {keys : Set Bytes} (distinct : Set.InjOn Encoding.peerId keys)
    {request : DirectoryRequest Addr} {ads : Map JoinCode (DirectoryAd Addr)}
    {watermarks : Map WatermarkKey DirectoryWatermark} (asks : Asks now store request ads watermarks)
    (reopens : Reopens store.ads store.watermarks) (known : KeysIn keys store.ads)
    (sent : ∀ code ad, request = .put code ad → ad.vk ∈ keys) :
    Reopens ads watermarks ∧ KeysIn keys ads := by
  have kept := reopens.pruned now
  have knownKept : KeysIn keys (store.prunedAds now) := by
    intro code ad found
    rw [get_prunedAds, Option.filter_eq_some_iff] at found
    exact known code ad found.1
  cases asks with
  | @put code ad verified owner newer room share space =>
    obtain ⟨_, _, signed⟩ := Result.bind_eq_ok.mp verified
    have own := verifySignature_peerId signed
    have same : ∀ (other : JoinCode) (existing : DirectoryAd Addr),
        (store.prunedAds now)[other]? = some existing → existing.key = ad.key →
          existing.vk = ad.vk := by
      intro other existing found equal
      refine distinct (knownKept other existing found) (sent code ad rfl) ?_
      rw [← own, ← verifySignature_peerId (kept.signed other existing found)]
      exact congrArg WatermarkKey.peerId equal
    have marked := kept.mark ad.key ad.watermark rfl own newer room same
    refine ⟨marked.file signed ⟨ad.watermark, ?_, le_rfl, rfl⟩ share space, ?_⟩
    · rw [Map.get_insert, if_pos rfl]
    · intro other found mem
      rw [Map.get_insert] at mem
      split at mem
      · cases mem
        exact sent code ad rfl
      · exact knownKept other found mem
  | @forget request watermark owner found verified newer =>
    obtain ⟨_, _, verified⟩ := Result.bind_eq_ok.mp verified
    obtain ⟨_, own, _⟩ := Result.bind_eq_ok.mp verified
    have same : ∀ (other : JoinCode) (existing : DirectoryAd Addr),
        (store.prunedAds now)[other]? = some existing → existing.key = request.key →
          existing.vk = watermark.vk := by
      intro other existing mem equal
      obtain ⟨old, marked, _, vk⟩ := kept.covered other existing mem
      rw [equal, found] at marked
      exact Option.some.inj marked ▸ vk.symm
    have marked := kept.mark request.key (request.watermark watermark.vk) rfl
      (ensure_eq_ok.mp own) (fun old mem => Option.some.inj (found.symm.trans mem) ▸ newer)
      (.inl ((Map.contains_iff_get _ _).mpr ⟨watermark, found⟩)) same
    refine ⟨marked.unfile request.joinCode, fun other ad mem => ?_⟩
    rw [Map.get_erase] at mem
    split at mem
    · cases mem
    · exact knownKept other ad mem
  | lookup => exact ⟨kept, knownKept⟩

/-- The store can be opened again from its file, and while it serves, the file
holds what it serves. -/
structure Reopenable (keys : Set Bytes) (store : DirectoryStore Addr) : Prop where
  reopens : Reopens store.ads store.watermarks
  known : KeysIn keys store.ads
  opens : ∃ found : DirectoryStore Addr, «open» store.file = .ok found
  same : store.failed = false → «open» store.file = .ok store

theorem Reopenable.exec (parses : ∀ addr : Addr, SocketAddr.parse (SocketAddr.print addr) = some addr)
    {keys : Set Bytes} (distinct : Set.InjOn Encoding.peerId keys) (h : Reopenable keys store)
    (op : DirectoryOp Addr) (sent : ∀ code ad, op.request = .put code ad → ad.vk ∈ keys) :
    Reopenable keys (directory.exec op store) := by
  have step : Step op store (handle op store).1 (directory.exec op store) := handle_ensures op store
  generalize directory.exec op store = next at step ⊢
  generalize (handle op store).1 = r at step
  cases step with
  | committed asks holds healthy =>
    obtain ⟨reopens, known⟩ := asks.reopens distinct h.reopens h.known sent
    have opened := open_stored parses reopens holds
    refine ⟨reopens, known, ⟨_, opened⟩, fun _ => ?_⟩
    rw [opened, healthy]
  | unchanged => exact h
  | refused error failed sticks =>
    refine ⟨h.reopens, h.known, h.opens, fun served => ?_⟩
    have served : failed = false := served
    subst served
    have healthy : store.failed = false := by
      cases before : store.failed with
      | false => rfl
      | true => cases sticks before
    rw [← healthy]
    exact h.same healthy
  | unsure error asks holds =>
    obtain ⟨reopens, _⟩ := asks.reopens distinct h.reopens h.known sent
    exact ⟨h.reopens, h.known, ⟨_, open_stored parses reopens holds⟩, nofun⟩

/-- Whatever requests a directory has processed, under any clock and with any
failed writes, its two maps pass what opening checks; the file always opens, and
with the maps that are served. -/
theorem directory_reopens
    (parses : ∀ addr : Addr, SocketAddr.parse (SocketAddr.print addr) = some addr) {keys : Set Bytes}
    (distinct : Set.InjOn Encoding.peerId keys) {file : Option Bytes} {store : DirectoryStore Addr}
    (opened : «open» file = .ok store) (known : KeysIn keys store.ads)
    (ops : List (DirectoryOp Addr))
    (sent : ∀ op ∈ ops, ∀ code ad, op.request = .put code ad → ad.vk ∈ keys) :
    let last := directory.run ops store
    Reopens last.ads last.watermarks ∧ (∃ found : DirectoryStore Addr, «open» last.file = .ok found) ∧
      (last.failed = false → «open» last.file = .ok last) := by
  intro last
  have start : Reopenable keys store := by
    obtain ⟨reopens, _, rfl⟩ := open_reopens opened
    exact ⟨reopens, known, ⟨store, opened⟩, fun _ => opened⟩
  have final : Reopenable keys last := by
    clear opened known
    induction ops generalizing store with
    | nil => exact start
    | cons op ops ih =>
      refine ih (fun later mem => sent later (List.mem_cons_of_mem _ mem)) ?_
      exact start.exec parses distinct op (sent op List.mem_cons_self)
  exact ⟨final.reopens, final.opens, final.same⟩

end DirectoryStore

/-! A directory that has served one advertisement, opened again years later. -/

namespace DirectoryStore

local instance : Primitives := Primitives.plain

private def served : DirectoryAd Loopback :=
  let unsigned : DirectoryAd Loopback := {
    peerId := Encoding.peerId [4]
    vaultId := ⟨2⟩
    addr := .v4
    ek := [3]
    vk := [4]
    issuedAt := 5
    signature := [] }
  { unsigned with signature :=
      ((directoryAdM unsigned).toOption.map (mlDsaSign [4] .directory)).getD [] }

private def serving : List (DirectoryOp Loopback) :=
  [⟨9, .put ⟨7⟩ served, .written⟩, ⟨3, .lookup ⟨7⟩, .written⟩]

theorem directory_reopens_served :
    (directory.run serving ⟨∅, ∅, false, none⟩).ads[(⟨7⟩ : JoinCode)]? = some served ∧
      «open» (directory.run serving ⟨∅, ∅, false, none⟩).file =
        .ok (directory.run serving ⟨∅, ∅, false, none⟩) := by
  have fresh : «open» none = .ok (⟨∅, ∅, false, none⟩ : DirectoryStore Loopback) := rfl
  have known : ∀ op ∈ serving, ∀ code ad, op.request = .put code ad → ad.vk ∈ ({[4]} : Set Bytes) := by
    simp [serving, served]
  have reopens := directory_reopens Loopback.parse_print (Set.injOn_singleton _ _) fresh
    (fun _ _ found => by simp at found) serving known
  exact ⟨by decide +kernel, reopens.2.2 (by decide +kernel)⟩

end DirectoryStore

end QuantumFs.Net
