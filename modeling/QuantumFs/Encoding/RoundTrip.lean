import QuantumFs.Encoding.Control
import QuantumFs.Encoding.Net

/-! The network formats round trip: what an encoder accepts, its decoder returns. -/
namespace QuantumFs.Encoding

open Lib Net

theorem identityM_eq_ok {document : IdentityDocument} {out : Bytes} :
    identityM document = .ok out ↔ ∃ ek vk, pushVariable document.ek = .ok ek ∧
      pushVariable document.vk = .ok vk ∧
      out = idBytes document.peerId.val ++ ek ++ vk ++ toBE 8 document.createdAt.val := by
  simp only [identityM, Result.bind_eq_ok, pure, Except.pure, Except.ok.injEq, @eq_comm _ _ out]
  constructor
  · rintro ⟨ek, first, vk, second, same⟩
    exact ⟨ek, vk, first, second, same⟩
  · rintro ⟨ek, vk, first, second, same⟩
    exact ⟨ek, first, vk, second, same⟩

theorem length_pushVariable {value out : Bytes} (written : pushVariable value = .ok out) :
    out.length = 4 + value.length := by
  obtain ⟨_, rfl⟩ := pushVariable_eq_ok.mp written
  rw [List.length_append, length_toBE]

theorem length_identityM {document : IdentityDocument} {out : Bytes}
    (written : identityM document = .ok out) : 48 ≤ out.length := by
  obtain ⟨ek, vk, first, second, rfl⟩ := identityM_eq_ok.mp written
  simp only [List.length_append, length_idBytes, length_toBE, length_pushVariable first,
    length_pushVariable second]
  omega

theorem decodeIdentityDocument_identityM {document : IdentityDocument} {out : Bytes}
    (written : identityM document = .ok out) :
    decodeIdentityDocument out document.signature = .ok document := by
  obtain ⟨ek, vk, first, second, rfl⟩ := identityM_eq_ok.mp written
  apply ReadsAll.result
  unfold readIdentityDocument
  simp only [List.append_assoc]
  apply ReadsAll.bind (Reader.reads_id _)
  apply ReadsAll.bind (Reader.reads_variable first)
  apply ReadsAll.bind (Reader.reads_variable second)
  apply ReadsAll.then_nil (Reader.reads_u64 (u64_le document.createdAt)).all
  apply ReadsAll.then_nil Reader.readsAll_finish
  rw [fin_ofNat_val]
  exact ReadsAll.pure document

theorem encodeIdentity_eq_ok {document : IdentityDocument} {out : Bytes} :
    encodeIdentity document = .ok out ↔ ∃ message framed signature,
      identityM document = .ok message ∧ pushVariable message = .ok framed ∧
      pushVariable document.signature = .ok signature ∧ out = framed ++ signature := by
  simp only [encodeIdentity, Result.bind_eq_ok, pure, Except.pure, Except.ok.injEq,
    @eq_comm _ _ out]
  constructor
  · rintro ⟨message, first, framed, second, signature, third, same⟩
    exact ⟨message, framed, signature, first, second, third, same⟩
  · rintro ⟨message, framed, signature, first, second, third, same⟩
    exact ⟨message, first, framed, second, signature, third, same⟩

theorem decodeIdentity_encodeIdentity {document : IdentityDocument} {out : Bytes}
    (written : encodeIdentity document = .ok out) : decodeIdentity out = .ok document := by
  obtain ⟨message, framed, signature, first, second, third, rfl⟩ := encodeIdentity_eq_ok.mp written
  apply ReadsAll.result
  unfold readIdentity
  apply ReadsAll.bind (Reader.reads_variable second)
  apply ReadsAll.then_nil (Reader.reads_variable third).all
  apply ReadsAll.then_nil Reader.readsAll_finish
  rw [decodeIdentityDocument_identityM first]
  rfl

theorem pushIdentity_eq_ok {document : IdentityDocument} {out : Bytes} :
    pushIdentity document = .ok out ↔
      ∃ encoded, encodeIdentity document = .ok encoded ∧ pushVariable encoded = .ok out :=
  Result.bind_eq_ok

theorem reads_pushIdentity {document : IdentityDocument} {out : Bytes}
    (written : pushIdentity document = .ok out) :
    Reads (Reader.readEmbedded decodeIdentity) out document := by
  obtain ⟨encoded, first, second⟩ := pushIdentity_eq_ok.mp written
  exact Reader.reads_embedded second (decodeIdentity_encodeIdentity first)

theorem length_pushIdentity {document : IdentityDocument} {out : Bytes}
    (written : pushIdentity document = .ok out) : 60 ≤ out.length := by
  obtain ⟨encoded, first, second⟩ := pushIdentity_eq_ok.mp written
  obtain ⟨message, framed, signature, third, fourth, fifth, rfl⟩ := encodeIdentity_eq_ok.mp first
  have inner := length_identityM third
  have sizes := length_pushVariable second
  rw [List.length_append, length_pushVariable fourth, length_pushVariable fifth] at sizes
  omega

theorem wrapM_eq_ok {wrap : WrapMessage} {out : Bytes} :
    wrapM wrap = .ok out ↔ wrap.minId < wrap.maxId ∧ ∃ kemCt wrapCt,
      pushVariable wrap.kemCt = .ok kemCt ∧ pushVariable wrap.wrapCt = .ok wrapCt ∧
      out = kemCt ++ wrapCt ++ toBE 8 wrap.epoch ++ idBytes wrap.minId.val ++
        idBytes wrap.maxId.val := by
  simp only [wrapM, requireSortedPair, Result.bind_eq_ok, ensure_eq_ok, pure, Except.pure,
    Except.ok.injEq, @eq_comm _ _ out]
  constructor
  · rintro ⟨_, sorted, kemCt, first, wrapCt, second, same⟩
    exact ⟨sorted, kemCt, wrapCt, first, second, same⟩
  · rintro ⟨sorted, kemCt, wrapCt, first, second, same⟩
    exact ⟨(), sorted, kemCt, first, wrapCt, second, same⟩

theorem length_wrapM {wrap : WrapMessage} {out : Bytes} (written : wrapM wrap = .ok out) :
    80 ≤ out.length := by
  obtain ⟨_, kemCt, wrapCt, first, second, rfl⟩ := wrapM_eq_ok.mp written
  simp only [List.length_append, length_idBytes, length_toBE, length_pushVariable first,
    length_pushVariable second]
  omega

theorem decodeWrapMessage_wrapM {wrap : WrapMessage} {out : Bytes} (small : wrap.epoch ≤ u64Max)
    (written : wrapM wrap = .ok out) : decodeWrapMessage out wrap.signature = .ok wrap := by
  obtain ⟨sorted, kemCt, wrapCt, first, second, rfl⟩ := wrapM_eq_ok.mp written
  apply ReadsAll.result
  unfold readWrapMessage
  simp only [List.append_assoc]
  apply ReadsAll.bind (Reader.reads_variable first)
  apply ReadsAll.bind (Reader.reads_variable second)
  apply ReadsAll.bind (Reader.reads_u64 small)
  apply ReadsAll.bind (Reader.reads_id _)
  apply ReadsAll.then_nil (Reader.reads_id _).all
  apply ReadsAll.then_nil Reader.readsAll_finish
  have ordered : requireSortedPair wrap.minId wrap.maxId = .ok () := ensure_eq_ok.mpr sorted
  exact ReadsAll.ofExcept ordered (ReadsAll.pure wrap)

theorem pushVariable_inj {left right front back front' back' : Bytes}
    (first : pushVariable left = .ok front) (second : pushVariable right = .ok front')
    (same : front ++ back = front' ++ back') : left = right ∧ back = back' := by
  have read := Reader.reads_variable first back
  rw [same, Reader.reads_variable second back'] at read
  simpa [eq_comm] using read

theorem idBytes_append_inj {left right : Fin (2 ^ 256)} {back back' : Bytes}
    (same : idBytes left ++ back = idBytes right ++ back') : left = right ∧ back = back' := by
  have read := Reader.reads_id left back
  rw [same, Reader.reads_id right back'] at read
  simpa [eq_comm] using read

theorem toBE_u64_inj {left right : U64} (same : toBE 8 left.val = toBE 8 right.val) :
    left = right := by
  have read := (Reader.reads_u64 (u64_le left)).unique (same ▸ Reader.reads_u64 (u64_le right))
  exact Fin.ext read

theorem forall₂_parts_inj {α : Type} {encode : α → Result Bytes} {R : α → α → Prop} :
    ∀ {xs ys : List α} {parts parts' : List Bytes}, xs.length = ys.length →
      (∀ x ∈ xs, ∀ y ∈ ys, ∀ {front front' back back'}, encode x = .ok front →
        encode y = .ok front' → front ++ back = front' ++ back' → R x y ∧ back = back') →
      List.Forall₂ (fun x part => encode x = .ok part) xs parts →
      List.Forall₂ (fun x part => encode x = .ok part) ys parts' →
      parts.flatten = parts'.flatten → List.Forall₂ R xs ys := by
  intro xs
  induction xs with
  | nil =>
    intro ys parts parts' length _ _ _ _
    rw [List.length_eq_zero_iff.mp length.symm]
    exact .nil
  | cons x xs ih =>
    intro ys parts parts' length each first second same
    cases ys with
    | nil => cases length
    | cons y ys =>
      cases first with
      | cons head tail =>
        cases second with
        | cons head' tail' =>
          rw [List.flatten_cons, List.flatten_cons] at same
          obtain ⟨related, rest⟩ := each x List.mem_cons_self y List.mem_cons_self head head' same
          refine .cons related (ih (Nat.succ.inj length) ?_ tail tail' rest)
          intro x' xMem y' yMem
          exact each x' (List.mem_cons_of_mem _ xMem) y' (List.mem_cons_of_mem _ yMem)

theorem encodeSection_inj {α : Type} {encode : α → Result Bytes} {R : α → α → Prop}
    {xs ys : List α} {out : Bytes}
    (each : ∀ x ∈ xs, ∀ y ∈ ys, ∀ {front front' back back'}, encode x = .ok front →
      encode y = .ok front' → front ++ back = front' ++ back' → R x y ∧ back = back')
    (first : encodeSection encode xs = .ok out) (second : encodeSection encode ys = .ok out) :
    List.Forall₂ R xs ys := by
  obtain ⟨small, parts, pairs, rfl⟩ := encodeSection_eq_ok.mp first
  obtain ⟨small', parts', pairs', same⟩ := encodeSection_eq_ok.mp second
  have counted := Reader.reads_u32 small parts.flatten
  rw [same, Reader.reads_u32 small' parts'.flatten] at counted
  obtain ⟨length, rest⟩ := Prod.mk.inj counted
  exact forall₂_parts_inj (Except.ok.inj length).symm each pairs pairs' rest.symm

theorem pushIdentity_inj {left right : IdentityDocument} {front back front' back' : Bytes}
    (first : pushIdentity left = .ok front) (second : pushIdentity right = .ok front')
    (same : front ++ back = front' ++ back') : left = right ∧ back = back' := by
  have read := reads_pushIdentity first back
  rw [same, reads_pushIdentity second back'] at read
  simpa [eq_comm] using read

theorem reads_history {disorder : Error} {historical : List IdentityDocument} {out : Bytes}
    (written : encodeHistory disorder historical = .ok out) :
    Reads (readHistory disorder) out historical := by
  simp only [encodeHistory, Result.bind_eq_ok, pushLength_eq_ok, pure, Except.pure,
    Except.ok.injEq] at written
  obtain ⟨_, ⟨small, rfl⟩, _, documents, rfl⟩ := written
  obtain ⟨_, sorted, parts, pairs, rfl⟩ := encodeAscending_eq_ok documents
  apply Reader.reads_parts small pairs (by decide)
  · intro document _ part encoded
    have := length_pushIdentity encoded
    omega
  · intro before document after part split encoded
    apply Reads.last (reads_pushIdentity encoded)
    rw [split] at sorted
    exact Reads.require (follows_of_sorted sorted) (Reads.pure document)

theorem reads_peerIds {disorder : Error} {peers : OrdSet PeerId} {out : Bytes}
    (written : encodeSection encodePeerId peers.toList = .ok out) :
    Reads (Reader.readSection 32 (readPeerId disorder)) out peers.toList := by
  have sorted := OrdSet.toList_sorted peers
  apply Reader.reads_section written (by decide)
  · intro peer _ part encoded
    cases encoded
    rw [length_idBytes]
  · intro before peer after part split encoded
    cases encoded
    apply Reads.last (Reader.reads_id peer.val)
    rw [split] at sorted
    exact Reads.require (follows_of_sorted sorted) (Reads.pure peer)

theorem ofList_toList (peers : OrdSet PeerId) : OrdSet.ofList peers.toList = peers := by
  apply OrdSet.ext_mem
  intro peer
  rw [OrdSet.mem_ofList, OrdSet.mem_toList]

theorem readsAll_extension {α : Type} {absent x : α} {read : Action Error Bytes α}
    {content out : Bytes} (written : pushVariable content = .ok out)
    (inner : ReadsAll read content x) : ReadsAll (readExtension absent read) out x := by
  have present : out ≠ [] := by
    have size := length_pushVariable written
    rintro rfl
    simp at size
    omega
  apply ReadsAll.get
  rw [if_neg present]
  exact (Reader.reads_embedded written inner.result).all

theorem fails_extension {α : Type} {absent : α} {read : Action Error Bytes α} {e : Error}
    {content out : Bytes} (written : pushVariable content = .ok out)
    (inner : Fails read content e) : Fails (readExtension absent read) out e := by
  intro rest
  have present : out ++ rest ≠ [] := by
    have size := length_pushVariable written
    intro nothing
    rw [(List.append_eq_nil_iff.mp nothing).1, List.length_nil] at size
    omega
  unfold readExtension
  rw [Action.bind_ok (Action.get_apply _), if_neg present]
  exact Reader.fails_embedded written inner.result rest

theorem readsAll_noExtension {α : Type} (absent : α) (read : Action Error Bytes α) :
    ReadsAll (readExtension absent read) [] absent := rfl

theorem decodeNetWelcome_encode {welcome : NetWelcome} {out : Bytes}
    (written : encodeNetWelcome welcome = .ok out) : decodeNetWelcome out = .ok welcome := by
  simp only [encodeNetWelcome, Result.bind_eq_ok, pure, Except.pure, Except.ok.injEq] at written
  obtain ⟨members, first, historical, second, denied, third, extension, fourth, rfl⟩ := written
  have inner : ReadsAll readWelcomeExtension (1 :: (historical ++ denied))
      (welcome.historical, welcome.denied) := by
    unfold readWelcomeExtension
    apply Reader.readsAll_tag
    apply ReadsAll.require rfl
    apply ReadsAll.bind (reads_history second)
    apply ReadsAll.then_nil (reads_peerIds third).all
    apply ReadsAll.then_nil Reader.readsAll_finish
    rw [ofList_toList]
    exact ReadsAll.pure _
  have known : Reads (Reader.readSection 56 fun _ => Reader.readEmbedded decodeIdentity) members
      welcome.members := by
    apply Reader.reads_section first (by decide)
    · intro document _ part encoded
      have := length_pushIdentity encoded
      omega
    · intro before document after part _ encoded
      exact reads_pushIdentity encoded
  apply ReadsAll.result
  unfold readNetWelcome
  simp only [List.append_assoc]
  apply ReadsAll.bind (Reader.reads_id _)
  apply ReadsAll.bind known
  apply ReadsAll.then_nil (readsAll_extension fourth inner)
  exact ReadsAll.then_nil Reader.readsAll_finish (ReadsAll.pure welcome)

theorem readsAll_flushExtension {offer : FlushOffer} {out : Bytes}
    (written : encodeFlushExtension offer = .ok out) :
    ReadsAll (readExtension ([], none) readFlushExtension) out
      (offer.historical, offer.bootstrapThrough) := by
  unfold encodeFlushExtension at written
  split at written
  · obtain ⟨historical, first, second⟩ := Result.bind_eq_ok.mp written
    apply readsAll_extension second
    unfold readFlushExtension
    cases position : offer.bootstrapThrough with
    | some through =>
      apply Reader.readsAll_tag
      apply ReadsAll.require (.inr rfl)
      apply ReadsAll.bind (reads_history first)
      rw [if_pos rfl]
      apply ReadsAll.then_nil (Reader.reads_u64 (u64_le through)).all
      apply ReadsAll.then_nil Reader.readsAll_finish
      rw [fin_ofNat_val]
      exact ReadsAll.pure _
    | none =>
      apply Reader.readsAll_tag
      apply ReadsAll.require (.inl rfl)
      apply ReadsAll.then_nil (reads_history first).all
      rw [if_neg (by decide)]
      exact ReadsAll.then_nil Reader.readsAll_finish (ReadsAll.pure _)
  · rename_i absent
    cases written
    obtain ⟨noHistory, noPosition⟩ := not_or.mp absent
    have empty : offer.historical = [] := not_not.mp noHistory
    have missing : offer.bootstrapThrough = none := by simpa using noPosition
    rw [empty, missing]
    exact readsAll_noExtension _ _

theorem decodeFlushOffer_encode {offer : FlushOffer} {out : Bytes}
    (written : encodeFlushOffer offer = .ok out) : decodeFlushOffer out = .ok offer := by
  simp only [encodeFlushOffer, Result.bind_eq_ok, ensure_eq_ok, pure, Except.pure,
    Except.ok.injEq] at written
  obtain ⟨_, capped, extension, encoded, rfl⟩ := written
  have small : offer.frameCount ≤ u32Max := by
    unfold maxFlushFrames at capped
    unfold u32Max
    omega
  apply ReadsAll.result
  unfold readFlushOffer
  simp only [List.append_assoc]
  apply ReadsAll.bind (Reader.reads_id _)
  apply ReadsAll.bind (Reader.reads_u32 small)
  apply ReadsAll.then_nil (readsAll_flushExtension encoded)
  apply ReadsAll.then_nil Reader.readsAll_finish
  exact ReadsAll.require capped (ReadsAll.pure offer)

theorem readsAll_netControlBody {control : NetControl} {kind : UInt8} {out : Bytes}
    (written : encodeNetControl control = .ok (kind :: out)) :
    ReadsAll (readNetControlBody kind) out control := by
  cases control with
  | joinAccepted vaultId members historical denied =>
    simp only [encodeNetControl, Result.bind_eq_ok, pure, Except.pure, Except.ok.injEq,
      List.cons.injEq] at written
    obtain ⟨_, encoded, rfl, rfl⟩ := written
    apply ReadsAll.get
    apply ReadsAll.then_nil (Reader.reads_take rfl).all
    exact ReadsAll.ofExcept (decodeNetWelcome_encode encoded) (ReadsAll.pure _)
  | flushEnd digest =>
    cases written
    exact (Reads.map (Reader.reads_id digest) _).all
  | flushApplied digest =>
    cases written
    exact (Reads.map (Reader.reads_id digest) _).all
  | ready =>
    cases written
    exact ReadsAll.pure _
  | heartbeat =>
    cases written
    exact ReadsAll.pure _
  | heartbeatApplied through =>
    cases written
    apply ReadsAll.get
    rw [length_toBE, if_neg (by decide), if_pos rfl]
    apply ReadsAll.then_nil (Reader.reads_u64 (u64_le through)).all
    rw [fin_ofNat_val]
    exact ReadsAll.pure _
  | joinRejected bound requested =>
    cases written
    exact ReadsAll.bind (Reader.reads_id bound.val) (Reads.map (Reader.reads_id requested.val) _).all
  | admissionDenied =>
    cases written
    exact ReadsAll.pure _

theorem encodeNetControl_cons {control : NetControl} {out : Bytes}
    (written : encodeNetControl control = .ok out) :
    ∃ kind body, out = kind :: body ∧ 1 ≤ kind ∧ kind ≤ 7 := by
  cases control with
  | joinAccepted vaultId members historical denied =>
    simp only [encodeNetControl, Result.bind_eq_ok, pure, Except.pure, Except.ok.injEq] at written
    obtain ⟨welcome, _, rfl⟩ := written
    exact ⟨1, welcome, rfl, by decide, by decide⟩
  | _ =>
    cases written
    exact ⟨_, _, rfl, by decide, by decide⟩

theorem decodeNetControl_encode {control : NetControl} {out : Bytes}
    (written : encodeNetControl control = .ok out) : decodeNetControl out = .ok control := by
  obtain ⟨kind, body, rfl, -⟩ := encodeNetControl_cons written
  apply ReadsAll.result
  unfold readNetControl
  apply Reader.readsAll_tag
  exact Reader.readsAll_finished (readsAll_netControlBody written)

section

variable {Addr : Type} [SocketAddr Addr]

theorem directoryAdM_eq_ok {ad : DirectoryAd Addr} {out : Bytes} :
    directoryAdM ad = .ok out ↔ ∃ addr ek vk,
      pushVariable (utf8 (SocketAddr.print ad.addr)) = .ok addr ∧
      pushVariable ad.ek = .ok ek ∧ pushVariable ad.vk = .ok vk ∧
      out = idBytes ad.peerId.val ++ idBytes ad.vaultId.val ++ addr ++ ek ++ vk ++
        toBE 8 ad.issuedAt.val := by
  simp only [directoryAdM, Result.bind_eq_ok, pure, Except.pure, Except.ok.injEq, @eq_comm _ _ out]
  constructor
  · rintro ⟨addr, first, ek, second, vk, third, same⟩
    exact ⟨addr, ek, vk, first, second, third, same⟩
  · rintro ⟨addr, ek, vk, first, second, third, same⟩
    exact ⟨addr, first, ek, second, vk, third, same⟩

theorem parseAddr_print (parses : ∀ addr : Addr, SocketAddr.parse (SocketAddr.print addr) = some addr)
    (addr : Addr) : parseAddr (utf8 (SocketAddr.print addr)) = .ok addr := by
  unfold parseAddr
  rw [Result.bind_eq_ok]
  refine ⟨SocketAddr.print addr, ?_, okOr_eq_ok.mpr (parses addr)⟩
  rw [okOr_eq_ok]
  exact fromUTF8_utf8 _

theorem decodeDirectoryAd_encode
    (parses : ∀ addr : Addr, SocketAddr.parse (SocketAddr.print addr) = some addr)
    {ad : DirectoryAd Addr} {out : Bytes} (written : encodeDirectoryAd ad = .ok out) :
    decodeDirectoryAd out = .ok ad := by
  simp only [encodeDirectoryAd, Result.bind_eq_ok, pure, Except.pure, Except.ok.injEq] at written
  obtain ⟨message, encoded, framed, first, signature, second, rfl⟩ := written
  have inner : decodeDirectoryAdMessage message ad.signature = .ok ad := by
    obtain ⟨addr, ek, vk, third, fourth, fifth, rfl⟩ := directoryAdM_eq_ok.mp encoded
    apply ReadsAll.result
    unfold readDirectoryAdMessage
    simp only [List.append_assoc]
    apply ReadsAll.bind (Reader.reads_id _)
    apply ReadsAll.bind (Reader.reads_id _)
    apply ReadsAll.bind (Reader.reads_embedded third (parseAddr_print parses ad.addr))
    apply ReadsAll.bind (Reader.reads_variable fourth)
    apply ReadsAll.bind (Reader.reads_variable fifth)
    apply ReadsAll.then_nil (Reader.reads_u64 (u64_le ad.issuedAt)).all
    apply ReadsAll.then_nil Reader.readsAll_finish
    rw [fin_ofNat_val]
    exact ReadsAll.pure ad
  apply ReadsAll.result
  unfold readDirectoryAd
  apply ReadsAll.bind (Reader.reads_variable first)
  apply ReadsAll.then_nil (Reader.reads_variable second).all
  apply ReadsAll.then_nil Reader.readsAll_finish
  rw [inner]
  rfl

end

end QuantumFs.Encoding
