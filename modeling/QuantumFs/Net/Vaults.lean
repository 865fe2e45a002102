import QuantumFs.Net.VaultHost

/-! The vaults that one host serves (`VaultSet` in `net/vaults.rs`). They share a
keystore, and a peer has one pair with the host: its binding says for which vault. -/
namespace QuantumFs.Net

open Lib Encoding Crypto Host

structure VaultHost where
  host : HostService
  activePeers : OrdSet PeerId

structure PairBinding where
  vaultId : VaultId
  confirmedEpoch : Option Nat
deriving DecidableEq

structure VaultSet where
  keys : KeyStore
  vaults : Map VaultId VaultHost
  bindings : Map PeerId PairBinding

namespace VaultSet

def bindMember (keys : KeyStore) (own : PeerId) (vaultId : VaultId)
    (bindings : Map PeerId PairBinding) (member : PeerId) : Result (Map PeerId PairBinding) :=
  if member = own ∨ (keys.currentSession member).isOk = false then pure bindings
  else
    let bound := bindings.insert member { vaultId, confirmedEpoch := none }
    match bindings[member]? with
    | none => pure bound
    | some old =>
      if old.vaultId ≠ vaultId then .error (.vaultSessionConflict member old.vaultId vaultId)
      else pure bound

def insert (vault : VaultHost) : Action Error VaultSet Unit := do
  let admission ← Action.ofExcept (VaultHost.admission vault.host)
  let peerId ← Action.ofExcept vault.host.keys.peerId
  let own ← Action.query fun set => set.keys.peerId
  Action.require (peerId = own) (.invalidInput "vault host identity differs from vault set")
  let set ← Action.get
  Action.require (set.vaults.contains admission.vaultId = false)
    (.invalidInput "vault is already hosted")
  let bindings ← Action.ofExcept
    (vault.host.state.members.toList.foldlM (bindMember set.keys own admission.vaultId) set.bindings)
  Action.modify fun set =>
    { set with bindings, vaults := set.vaults.insert admission.vaultId vault }

def withHost (vaultId : VaultId) (vault : VaultHost) (host : HostService) (set : VaultSet) :
    VaultSet :=
  { set with keys := host.keys, vaults := set.vaults.insert vaultId { vault with host } }

def onVault {α : Type} (vaultId : VaultId) (x : Action Error HostService α) :
    Action Error VaultSet α := fun set =>
  match set.vaults[vaultId]? with
  | none => (.error (.invalidInput "unknown vault"), set)
  | some vault =>
    match x { vault.host with keys := set.keys } with
    | (r, host) => (r, set.withHost vaultId vault host)

end VaultSet

end QuantumFs.Net
