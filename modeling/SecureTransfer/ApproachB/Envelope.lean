import SecureTransfer.Library.PyValues
import SecureTransfer.Util

/-! # The envelope both sides share

`envelope.py`: names, key derivation, nonces, associated data and the canonical bytes
of a manifest. The primitives of the cryptography package are a parameter; what a
result relies on of them is one of the laws below.
-/

namespace SecureTransfer.ApproachB

open Library

def manifestVersion : String := "cmpe272-approach-b/v1"

def cipherName : String := "ChaCha20-Poly1305"

def kdfName : String := "HKDF-SHA256"

def sigName : String := "Ed25519"

def keyLen : Nat := 32

def transferIdLen : Nat := 16

def freshnessWindowS : Int := 24 * 3600

def clockSkewS : Int := 300

/-! ## Primitives -/

/-- The raw bytes of an X25519 key, private or public. -/
abbrev RawKey : Type := { raw : Bytes // raw.length = 32 }

/-- What the two programs call of `hashlib` and of the cryptography package. -/
structure Primitives where
  sha256 : Sha256
  x25519Public : RawKey → RawKey
  /-- `private.exchange(public)`; `none` where it raises `ValueError`. -/
  exchange : RawKey → RawKey → Option Bytes
  privatePem : RawKey → String
  loadPem : String → Option RawKey
  hkdf : Nat → Bytes → Bytes → Bytes → Bytes
  /-- `ChaCha20Poly1305(key).encrypt(nonce, data, aad)`. -/
  encrypt : Bytes → Bytes → Bytes → Bytes → Bytes
  /-- `ChaCha20Poly1305(key).decrypt(nonce, data, aad)`; `none` where it raises `InvalidTag`. -/
  decrypt : Bytes → Bytes → Bytes → Bytes → Option Bytes
  ed25519Public : Bytes → Bytes
  sign : Bytes → Bytes → Bytes
  /-- `public.verify(signature, data)`; `false` where it raises `InvalidSignature`. -/
  verify : Bytes → Bytes → Bytes → Bool

namespace Primitives

/-- Both ends of an exchange between generated keys get the same secret, and a private
    key is read back from its PEM text. -/
structure Agreement (P : Primitives) : Prop where
  shared : ∀ a b, ∃ secret, P.exchange a (P.x25519Public b) = some secret
  agree : ∀ a b, P.exchange a (P.x25519Public b) = P.exchange b (P.x25519Public a)
  pem : ∀ a, P.loadPem (P.privatePem a) = some a

/-- What was encrypted is decrypted with the same key, nonce and associated data. -/
def Opens (P : Primitives) : Prop :=
  ∀ key nonce plain aad, P.decrypt key nonce (P.encrypt key nonce plain aad) aad = some plain

def SignsFor (P : Primitives) : Prop :=
  ∀ key message, P.verify (P.ed25519Public key) (P.sign key message) message = true

/-- HKDF is injective on its inputs. -/
def HkdfInjective (P : Primitives) : Prop :=
  ∀ {salt info secret salt' info' secret'},
    P.hkdf keyLen salt info secret = P.hkdf keyLen salt' info' secret' →
      salt = salt' ∧ info = info' ∧ secret = secret'

def hexDigest (P : Primitives) (data : Bytes) : String := hex (P.sha256.digest data)

end Primitives

/-- `X25519PublicKey.from_public_bytes`. -/
def publicFromBytes (raw : Bytes) : Except PyError RawKey :=
  if h : raw.length = 32 then .ok ⟨raw, h⟩ else .error .valueError

@[simp] theorem publicFromBytes_raw (key : RawKey) : publicFromBytes key.1 = .ok key :=
  dif_pos key.2

/-! ## Derivation, nonce and associated data -/

def deriveChunkKey (P : Primitives) (sharedSecret transferId ephemeralPubRaw receiverPubRaw : Bytes) :
    Bytes :=
  let info := encodeText manifestVersion.toList ++ encodeText "|chunkkey|".toList ++
    ephemeralPubRaw ++ receiverPubRaw
  P.hkdf keyLen transferId info sharedSecret

/-- `n.to_bytes(8, "big")`. -/
def toBytes8 (n : Nat) : Except PyError Bytes :=
  if n < 2 ^ 64 then .ok (bigEndian 8 n) else .error .overflowError

def chunkNonce (index : Nat) : Except PyError Bytes := do
  let counter ← toBytes8 index
  pure ([0, 0, 0, 0] ++ counter)

def chunkAad (transferId : Bytes) (index totalChunks : Nat) : Except PyError Bytes := do
  let position ← toBytes8 index
  let total ← toBytes8 totalChunks
  pure (transferId ++ position ++ total)

theorem toBytes8_ok {n : Nat} {bytes : Bytes} (h : toBytes8 n = .ok bytes) :
    n < 2 ^ 64 ∧ bytes = bigEndian 8 n := by
  unfold toBytes8 at h
  split at h
  · cases h
    exact ⟨by assumption, rfl⟩
  · cases h

theorem chunkNonce_eq {index : Nat} (h : index < 2 ^ 64) :
    chunkNonce index = .ok ([0, 0, 0, 0] ++ bigEndian 8 index) := by
  simp only [chunkNonce, toBytes8, if_pos h]
  rfl

theorem chunkAad_eq {transferId : Bytes} {index totalChunks : Nat} (hi : index < 2 ^ 64)
    (ht : totalChunks < 2 ^ 64) :
    chunkAad transferId index totalChunks =
      .ok (transferId ++ bigEndian 8 index ++ bigEndian 8 totalChunks) := by
  simp only [chunkAad, toBytes8, if_pos hi, if_pos ht]
  rfl

theorem chunkNonce_ok {index : Nat} {nonce : Bytes} (h : chunkNonce index = .ok nonce) :
    index < 2 ^ 64 ∧ nonce = [0, 0, 0, 0] ++ bigEndian 8 index := by
  cases counter : toBytes8 index with
  | error e =>
      rw [chunkNonce, counter] at h
      cases h
  | ok bytes =>
      have small := (toBytes8_ok counter).1
      rw [chunkNonce_eq small] at h
      cases h
      exact ⟨small, rfl⟩

theorem chunkAad_ok {transferId aad : Bytes} {index totalChunks : Nat}
    (h : chunkAad transferId index totalChunks = .ok aad) :
    index < 2 ^ 64 ∧ totalChunks < 2 ^ 64 ∧
      aad = transferId ++ bigEndian 8 index ++ bigEndian 8 totalChunks := by
  cases position : toBytes8 index with
  | error e =>
      rw [chunkAad, position] at h
      cases h
  | ok first =>
      cases count : toBytes8 totalChunks with
      | error e =>
          rw [chunkAad, position, count] at h
          cases h
      | ok second =>
          have small := (toBytes8_ok position).1
          have few := (toBytes8_ok count).1
          rw [chunkAad_eq small few] at h
          cases h
          exact ⟨small, few, rfl⟩

/-! ## Manifest and key names -/

def canonicalManifestBytes (manifest : Json) : Bytes :=
  encodeText (Json.dumps false (Json.sortKeys manifest))

/-- `f"{n:08d}"`. -/
def decimal8 (n : Nat) : List Char :=
  List.replicate (8 - (Nat.toDigits 10 n).length) '0' ++ Nat.toDigits 10 n

def manifestKey (transferIdHex : String) : String := transferIdHex ++ "/manifest"

def signatureKey (transferIdHex : String) : String := transferIdHex ++ "/manifest.sig"

def chunkKey (transferIdHex : String) (index : Nat) : String :=
  transferIdHex ++ "/chunk_" ++ String.ofList (decimal8 index)

end SecureTransfer.ApproachB
