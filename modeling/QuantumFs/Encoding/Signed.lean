import QuantumFs.Encoding.Local

/-! What is signed. A signature covers bytes that determine the object: within one
signing context, equal bytes come from one kind of object with equal fields. -/
namespace QuantumFs.Encoding

open Lib Net Crypto

variable {Addr : Type}

/-- The objects the program signs. -/
inductive Signed (Addr : Type) where
  | identity (document : IdentityDocument)
  | wrap (message : WrapMessage)
  | manifest (record : Manifest)
  | flush (challenge : FlushChallenge)
  | join (request : JoinRequest)
  | directoryAd (ad : DirectoryAd Addr)
  | dirForget (request : DirForget)

namespace Signed

def context : Signed Addr → SigningContext
  | .identity _ => .identity
  | .wrap _ => .wrap
  | .manifest _ => .manifest
  | .flush _ => .flush
  | .join _ => .join
  | .directoryAd _ => .directory
  | .dirForget _ => .directory

/-- The bytes under the signature. -/
def message [SocketAddr Addr] : Signed Addr → Result Bytes
  | .identity document => identityM document
  | .wrap message => wrapM message
  | .manifest record => manifestM record
  | .flush challenge => .ok (flushM challenge)
  | .join request => joinRequestM request
  | .directoryAd ad => directoryAdM ad
  | .dirForget request => .ok (dirForgetM request)

/-- The object without the signatures it carries. -/
def unsigned : Signed Addr → Signed Addr
  | .identity document => .identity { document with signature := [] }
  | .wrap message => .wrap { message with signature := [] }
  | .manifest record => .manifest { record with signature := [] }
  | .flush challenge => .flush challenge
  | .join request => .join { request with
      document := { request.document with signature := [] }
      signature := [] }
  | .directoryAd ad => .directoryAd { ad with signature := [] }
  | .dirForget request => .dirForget { request with signature := [] }

/-- The epoch of a wrap is a `u64`. -/
def Fits : Signed Addr → Prop
  | .wrap message => message.epoch ≤ u64Max
  | _ => True

end Signed

theorem joinCode_append_inj {left right : JoinCode} {back back' : Bytes}
    (same : joinCodeBytes left ++ back = joinCodeBytes right ++ back') :
    left = right ∧ back = back' := by
  have read := reads_joinCode left back
  rw [same, reads_joinCode right back'] at read
  simpa [eq_comm] using read

theorem identityM_inj {left right : IdentityDocument} {out : Bytes}
    (first : identityM left = .ok out) (second : identityM right = .ok out) :
    { left with signature := [] } = { right with signature := [] } := by
  have decoded : decodeIdentityDocument out [] = .ok { left with signature := [] } :=
    @decodeIdentityDocument_identityM { left with signature := [] } out first
  have other : decodeIdentityDocument out [] = .ok { right with signature := [] } :=
    @decodeIdentityDocument_identityM { right with signature := [] } out second
  exact Except.ok.inj (decoded.symm.trans other)

theorem wrapM_inj {left right : WrapMessage} {out : Bytes} (small : left.epoch ≤ u64Max)
    (small' : right.epoch ≤ u64Max) (first : wrapM left = .ok out) (second : wrapM right = .ok out) :
    { left with signature := [] } = { right with signature := [] } := by
  have decoded : decodeWrapMessage out [] = .ok { left with signature := [] } :=
    @decodeWrapMessage_wrapM { left with signature := [] } out small first
  have other : decodeWrapMessage out [] = .ok { right with signature := [] } :=
    @decodeWrapMessage_wrapM { right with signature := [] } out small' second
  exact Except.ok.inj (decoded.symm.trans other)

theorem manifestM_inj {left right : Manifest} {out : Bytes} (first : manifestM left = .ok out)
    (second : manifestM right = .ok out) :
    { left with signature := [] } = { right with signature := [] } := by
  have decoded : decodeManifestMessage out [] = .ok { left with signature := [] } :=
    @decodeManifestMessage_manifestM { left with signature := [] } out first
  have other : decodeManifestMessage out [] = .ok { right with signature := [] } :=
    @decodeManifestMessage_manifestM { right with signature := [] } out second
  exact Except.ok.inj (decoded.symm.trans other)

theorem joinRequestM_inj {left right : JoinRequest} {out : Bytes}
    (first : joinRequestM left = .ok out) (second : joinRequestM right = .ok out) :
    left.vaultId = right.vaultId ∧ left.joinCode = right.joinCode ∧
      { left.document with signature := [] } = { right.document with signature := [] } := by
  simp only [joinRequestM, Result.bind_eq_ok, pure, Except.pure, Except.ok.injEq] at first second
  obtain ⟨document, encoded, rfl⟩ := first
  obtain ⟨document', encoded', same⟩ := second
  simp only [List.append_assoc] at same
  obtain ⟨vault, same⟩ := idBytes_append_inj same
  obtain ⟨code, rfl⟩ := joinCode_append_inj same
  exact ⟨congrArg VaultId.mk vault.symm, code.symm, identityM_inj encoded encoded'⟩

theorem dirForgetM_inj {left right : DirForget} (same : dirForgetM left = dirForgetM right) :
    { left with signature := [] } = { right with signature := [] } := by
  obtain ⟨peer, vault, code, issued, _⟩ := left
  obtain ⟨peer', vault', code', issued', _⟩ := right
  simp only [dirForgetM, List.append_assoc] at same
  obtain ⟨peers, same⟩ := idBytes_append_inj same
  obtain ⟨vaults, same⟩ := idBytes_append_inj same
  obtain ⟨rfl, times⟩ := joinCode_append_inj same
  obtain rfl := toBE_u64_inj times
  obtain rfl : peer = peer' := congrArg PeerId.mk peers
  obtain rfl : vault = vault' := congrArg VaultId.mk vaults
  rfl

section

variable [SocketAddr Addr]

theorem directoryAdM_inj (prints : Function.Injective (SocketAddr.print : Addr → String))
    {left right : DirectoryAd Addr} {out : Bytes} (first : directoryAdM left = .ok out)
    (second : directoryAdM right = .ok out) :
    { left with signature := [] } = { right with signature := [] } := by
  obtain ⟨addr, ek, vk, third, fourth, fifth, rfl⟩ := directoryAdM_eq_ok.mp first
  obtain ⟨addr', ek', vk', third', fourth', fifth', same⟩ := directoryAdM_eq_ok.mp second
  obtain ⟨peer, vault, location, leftEk, leftVk, issued, _⟩ := left
  obtain ⟨peer', vault', location', rightEk, rightVk, issued', _⟩ := right
  simp only [List.append_assoc] at same
  obtain ⟨peers, same⟩ := idBytes_append_inj same
  obtain ⟨vaults, same⟩ := idBytes_append_inj same
  obtain ⟨texts, same⟩ := pushVariable_inj third third' same
  obtain ⟨rfl, keys⟩ := pushVariable_inj fourth fourth' same
  obtain ⟨rfl, times⟩ := pushVariable_inj fifth fifth' keys
  obtain rfl := toBE_u64_inj times
  obtain rfl : peer = peer' := congrArg PeerId.mk peers
  obtain rfl : vault = vault' := congrArg VaultId.mk vaults
  obtain rfl : location = location' := by
    apply prints
    have back := fromUTF8_utf8 (SocketAddr.print location)
    rw [texts, fromUTF8_utf8] at back
    exact (Option.some.inj back).symm
  rfl

omit [SocketAddr Addr] in
theorem length_dirForgetM (request : DirForget) : (dirForgetM request).length = 88 := by
  simp [dirForgetM, joinCodeBytes]

theorem length_directoryAdM (long : ∀ addr : Addr, 9 ≤ (utf8 (SocketAddr.print addr)).length)
    {ad : DirectoryAd Addr} {out : Bytes} (written : directoryAdM ad = .ok out) :
    88 < out.length := by
  obtain ⟨addr, ek, vk, first, second, third, rfl⟩ := directoryAdM_eq_ok.mp written
  have text := long ad.addr
  simp only [List.length_append, length_idBytes, length_toBE, length_pushVariable first,
    length_pushVariable second, length_pushVariable third]
  omega

/-- Under one context, equal signed bytes come from objects that are equal up to
their signatures. -/
theorem signed_payload_injective
    (prints : Function.Injective (SocketAddr.print : Addr → String))
    (long : ∀ addr : Addr, 9 ≤ (utf8 (SocketAddr.print addr)).length) (left right : Signed Addr)
    (leftFits : left.Fits) (rightFits : right.Fits) (sameContext : left.context = right.context)
    (out : Bytes) (first : left.message = .ok out) (second : right.message = .ok out) :
    left.unsigned = right.unsigned := by
  cases left with
  | identity document =>
    cases right with
    | identity other => exact congrArg Signed.identity (identityM_inj first second)
    | _ => cases sameContext
  | wrap message =>
    cases right with
    | wrap other => exact congrArg Signed.wrap (wrapM_inj leftFits rightFits first second)
    | _ => cases sameContext
  | manifest record =>
    cases right with
    | manifest other => exact congrArg Signed.manifest (manifestM_inj first second)
    | _ => cases sameContext
  | flush challenge =>
    cases right with
    | flush other =>
      cases first
      obtain ⟨same, -⟩ := @idBytes_append_inj other.val challenge.val [] []
        (by rw [List.append_nil, List.append_nil]; exact Except.ok.inj second)
      exact congrArg Signed.flush (congrArg FlushChallenge.mk same.symm)
    | _ => cases sameContext
  | join request =>
    cases right with
    | join other =>
      obtain ⟨vault, code, document⟩ := joinRequestM_inj first second
      simp only [Signed.unsigned, vault, code, document]
    | _ => cases sameContext
  | directoryAd ad =>
    cases right with
    | directoryAd other => exact congrArg Signed.directoryAd (directoryAdM_inj prints first second)
    | dirForget request =>
      cases second
      have longer := length_directoryAdM long first
      rw [length_dirForgetM] at longer
      omega
    | _ => cases sameContext
  | dirForget request =>
    cases right with
    | dirForget other =>
      cases first
      exact congrArg Signed.dirForget (dirForgetM_inj (Except.ok.inj second).symm)
    | directoryAd ad =>
      cases first
      have longer := length_directoryAdM long second
      rw [length_dirForgetM] at longer
      omega
    | _ => cases sameContext

end

private def loopbackAd (signature : Bytes) : Signed Loopback :=
  .directoryAd {
    peerId := ⟨1⟩
    vaultId := ⟨2⟩
    addr := .v6
    ek := [3]
    vk := [4]
    issuedAt := 5
    signature }

theorem signed_payload_injective_loopback :
    (loopbackAd [6]).unsigned = (loopbackAd [7]).unsigned := by
  have prints : Function.Injective (SocketAddr.print : Loopback → String) := by
    intro left right same
    have parsed := Loopback.parse_print left
    rw [same, Loopback.parse_print] at parsed
    exact (Option.some.inj parsed).symm
  have long : ∀ addr : Loopback, 9 ≤ (utf8 (SocketAddr.print addr)).length := by
    intro addr
    cases addr <;> decide
  exact signed_payload_injective prints long (loopbackAd [6]) (loopbackAd [7]) trivial trivial rfl _
    rfl rfl

end QuantumFs.Encoding
