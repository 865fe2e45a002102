import QuantumFs.Ids

/-! The cryptographic packages the program calls. Their code is not part of the
repository: each function is a parameter, and what the program relies on is a
named law. -/
namespace QuantumFs.Crypto

open Lib

class Primitives where
  /-- SHA-256, read as one unsigned big-endian number. -/
  sha256 : Bytes → Fin (2 ^ 256)
  /-- The ML-DSA-65 verification key of a signing seed. -/
  verificationKey : (seed : Bytes) → Bytes
  sign : (seed context message : Bytes) → Bytes
  verify : (verificationKey context message signature : Bytes) → Bool
  /-- The X-Wing public key of a decapsulation seed. -/
  publicKey : (seed : Bytes) → Bytes
  validPublicKey : Bytes → Bool
  /-- Shared secret and ciphertext. -/
  encapsulate : (publicKey randomness : Bytes) → Bytes × Bytes
  /-- Missing for a ciphertext of the wrong length. -/
  decapsulate : (seed ciphertext : Bytes) → Option Bytes
  hkdf : (secret info : Bytes) → Bytes
  gcmEncrypt : (key nonce aad message : Bytes) → Bytes
  gcmDecrypt : (key nonce aad ciphertext : Bytes) → Option Bytes

export Primitives (sha256 gcmEncrypt gcmDecrypt hkdf encapsulate decapsulate)

/-- An instance that computes: keys are their seeds, a signature is what it signs, and
encryption appends its tag. Runs of the model are evaluated in it. -/
@[reducible] def Primitives.plain : Primitives where
  sha256 := fun bytes => Fin.ofNat (2 ^ 256) (ofBE bytes)
  verificationKey := fun seed => seed
  sign := fun seed context message => seed ++ context ++ message
  verify := fun vk context message signature => signature = vk ++ context ++ message
  publicKey := fun seed => seed
  validPublicKey := fun _ => true
  encapsulate := fun publicKey randomness => (publicKey ++ randomness, randomness)
  decapsulate := fun seed ciphertext => some (seed ++ ciphertext)
  hkdf := fun secret info => secret ++ info
  gcmEncrypt := fun _ _ _ message => message ++ List.replicate 16 0
  gcmDecrypt := fun _ _ _ ciphertext =>
    if ciphertext.drop (ciphertext.length - 16) = List.replicate 16 0 then
      some (ciphertext.take (ciphertext.length - 16))
    else none

end QuantumFs.Crypto
