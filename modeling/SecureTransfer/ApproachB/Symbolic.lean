import SecureTransfer.Library.DolevYao
import SecureTransfer.ApproachB.Transfer

/-! # A transfer in symbols

What `send` derives and publishes, as terms over the private keys of both ends and the
contents of the chunks, and the bytes that each term denotes.
-/

namespace SecureTransfer.ApproachB

open Library

/-- What a manifest says beside a key and digests. `places` has the index and the length of
    every chunk. -/
structure Header where
  transferIdHex : String
  createdAt : Int
  basename : String
  fileSize : Nat
  total : Nat
  places : List (Nat × Nat)

/-- The canonical bytes of the manifest with that key and those digests. -/
def Header.bytes (header : Header) (ephemeralPub plaintextDigest : Bytes) (digests : List Bytes) : Bytes :=
  canonicalManifestBytes (.obj [
    ("version", .str manifestVersion),
    ("transfer_id", .str header.transferIdHex),
    ("created_at", .int header.createdAt),
    ("filename", .str header.basename),
    ("file_size", .int header.fileSize),
    ("chunk_size", .int chunkSize),
    ("total_chunks", .int header.total),
    ("cipher", .str cipherName),
    ("kdf", .str kdfName),
    ("signature_alg", .str sigName),
    ("ephemeral_x25519_pub", .str (hex ephemeralPub)),
    ("plaintext_sha256", .str (hex plaintextDigest)),
    ("chunks", .arr (List.zipWith (fun place digest => .obj [
      ("index", .int place.1),
      ("plaintext_len", .int place.2),
      ("ciphertext_sha256", .str (hex digest))]) header.places digests))])

/-- Confidential data are the contents of chunks. -/
abbrev Symbol : Type := Term RawKey Bytes Bytes Bytes Header

/-- The bytes a term stands for. -/
inductive Denotes (P : Primitives) : Symbol → Bytes → Prop where
  | literal (bytes : Bytes) : Denotes P (.literal bytes) bytes
  | secret (bytes : Bytes) : Denotes P (.secret bytes) bytes
  | privateKey (key : RawKey) : Denotes P (.privateKey key) key.1
  | publicKey (key : RawKey) : Denotes P (.publicKey key) (P.x25519Public key).1
  | shared {mine theirs : RawKey} {secret : Bytes}
      (h : P.exchange mine (P.x25519Public theirs) = some secret) :
      Denotes P (.shared s(mine, theirs)) secret
  | hkdf {salt info secret : Symbol} {a b c : Bytes} (first : Denotes P salt a) (second : Denotes P info b)
      (third : Denotes P secret c) : Denotes P (.hkdf salt info secret) (P.hkdf keyLen a b c)
  | sealed {key nonce plain aad : Symbol} {a b c d : Bytes} (first : Denotes P key a)
      (second : Denotes P nonce b) (third : Denotes P plain c) (fourth : Denotes P aad d) :
      Denotes P (.sealed key nonce plain aad) (P.encrypt a b c d)
  | hash {data : Symbol} {a : Bytes} (h : Denotes P data a) : Denotes P (.hash data) (P.sha256.digest a)
  | pair {left right : Symbol} {a b : Bytes} (first : Denotes P left a) (second : Denotes P right b) :
      Denotes P (.pair left right) (a ++ b)
  | signed {message : Symbol} {a : Bytes} (key : Bytes) (h : Denotes P message a) :
      Denotes P (.signed key message) (P.sign key a)
  | manifest {ephemeralPub digest : Symbol} {a b : Bytes} (header : Header) (digests : List (Symbol × Bytes))
      (first : Denotes P ephemeralPub a) (second : Denotes P digest b)
      (third : ∀ entry ∈ digests, Denotes P entry.1 entry.2) :
      Denotes P (.encoded header (.pair ephemeralPub (.pair digest (tuple [] (digests.map Prod.fst)))))
        (header.bytes a b (digests.map Prod.snd))

variable {P : Primitives}

theorem denotes_tuple {entries : List (Symbol × Bytes)} (h : ∀ entry ∈ entries, Denotes P entry.1 entry.2) :
    Denotes P (tuple [] (entries.map Prod.fst)) (entries.map Prod.snd).flatten := by
  induction entries with
  | nil => exact .literal []
  | cons entry rest ih =>
      have later := ih fun other member => h other (List.mem_cons_of_mem entry member)
      exact .pair (h entry List.mem_cons_self) later

namespace Transfer

variable (t : Transfer P) (receiver : RawKey)

/-! ## The terms of a transfer -/

/-- `derive_chunk_key` for the ephemeral key of the saved state. -/
def keySymbol : Symbol :=
  .hkdf (.literal t.saved.id.1)
    (.pair (.literal (encodeText manifestVersion.toList ++ encodeText "|chunkkey|".toList))
      (.pair (.publicKey t.saved.ephemeral) (.publicKey receiver)))
    (.shared s(t.saved.ephemeral, receiver))

def blobSymbol (index : Nat) : Symbol :=
  .sealed (t.keySymbol receiver) (.literal (nonce index)) (.secret (t.plain index)) (.literal (t.aad index))

def header : Header where
  transferIdHex := t.hexId
  createdAt := t.saved.createdAt
  basename := t.basename
  fileSize := t.file.length
  total := t.total
  places := (List.range t.total).map fun index => (index, (t.plain index).length)

def manifestSymbol : Symbol :=
  .encoded t.header (.pair (.publicKey t.saved.ephemeral)
    (.pair (.hash (tuple [] ((List.range t.total).map fun index => .secret (t.plain index))))
      (tuple [] ((List.range t.total).map fun index => .hash (t.blobSymbol receiver index)))))

def signatureSymbol (signingKey : Bytes) : Symbol := .signed signingKey (t.manifestSymbol receiver)

/-! ## What they denote -/

variable {t receiver} (laws : P.Agreement) (held : t.receiverPub = P.x25519Public receiver)

include laws

/-- The ephemeral key is the one in the state file. -/
theorem session_saved : ∃ shared, P.exchange t.saved.ephemeral t.receiverPub = some shared ∧
    t.session.ephemeralPubRaw = (P.x25519Public t.saved.ephemeral).1 ∧
    t.session.chunkKey =
      deriveChunkKey P shared t.saved.id.1 (P.x25519Public t.saved.ephemeral).1 t.receiverPub.1 := by
  obtain ⟨ephemeral, shared, loaded, exchanged, session⟩ := openSession_json t.opened
  rw [laws.pem] at loaded
  cases loaded
  rw [session]
  exact ⟨shared, exchanged, rfl, rfl⟩

/-- The manifest lists its public parts around the key and the digests. -/
theorem header_bytes : t.header.bytes (P.x25519Public t.saved.ephemeral).1 (P.sha256.digest t.plaintext)
    ((List.range t.total).map fun index => P.sha256.digest (t.ciphertext index)) = t.manifestBytes := by
  obtain ⟨_, _, ephemeral, _⟩ := session_saved (t := t) laws
  rw [manifestBytes, members, manifestMembers, ephemeral, t.session_id.1, Header.bytes, header]
  simp only [List.zipWith_map, List.zipWith_self]
  rfl

include held

theorem denotes_key : Denotes P (t.keySymbol receiver) t.session.chunkKey := by
  obtain ⟨shared, exchanged, _, key⟩ := session_saved (t := t) laws
  rw [held] at exchanged key
  rw [key, deriveChunkKey, List.append_assoc _ _ (P.x25519Public receiver).1]
  exact .hkdf (.literal _) (.pair (.literal _) (.pair (.publicKey _) (.publicKey _))) (.shared exchanged)

theorem denotes_blob (index : Nat) : Denotes P (t.blobSymbol receiver index) (t.ciphertext index) :=
  .sealed (denotes_key laws held) (.literal _) (.secret _) (.literal _)

theorem denotes_manifest : Denotes P (t.manifestSymbol receiver) t.manifestBytes := by
  let contents : List (Symbol × Bytes) :=
    (List.range t.total).map fun index => (.secret (t.plain index), t.plain index)
  let digests : List (Symbol × Bytes) :=
    (List.range t.total).map fun index =>
      (.hash (t.blobSymbol receiver index), P.sha256.digest (t.ciphertext index))
  have read : Denotes P (tuple [] (contents.map Prod.fst)) (contents.map Prod.snd).flatten := by
    apply denotes_tuple
    intro entry member
    obtain ⟨index, _, rfl⟩ := List.mem_map.mp member
    exact .secret _
  have hashed : ∀ entry ∈ digests, Denotes P entry.1 entry.2 := by
    intro entry member
    obtain ⟨index, _, rfl⟩ := List.mem_map.mp member
    exact .hash (denotes_blob laws held index)
  have whole := Denotes.manifest t.header digests (.publicKey t.saved.ephemeral) (.hash read) hashed
  simp only [contents, digests, List.map_map, Function.comp_def] at whole
  rw [← header_bytes laws]
  exact whole

theorem denotes_signature (signingKey : Bytes) :
    Denotes P (t.signatureSymbol receiver signingKey) (P.sign signingKey t.manifestBytes) :=
  .signed signingKey (denotes_manifest laws held)

end Transfer

/-! ## What a run sends -/

/-- A PUT of the transfer, and its data in symbols. -/
inductive Message (t : Transfer P) (receiver : RawKey) (signingKey : Bytes) :
    String × Bytes → Symbol → Prop where
  | blob {index : Nat} (inside : index < t.total) :
      Message t receiver signingKey (chunkKey t.hexId index, t.ciphertext index) (t.blobSymbol receiver index)
  | manifest : Message t receiver signingKey (manifestKey t.hexId, t.manifestBytes) (t.manifestSymbol receiver)
  | signature : Message t receiver signingKey (signatureKey t.hexId, P.sign signingKey t.manifestBytes)
      (t.signatureSymbol receiver signingKey)

theorem Message.denotes {t : Transfer P} {receiver : RawKey} {signingKey : Bytes} {put : String × Bytes}
    {m : Symbol} (laws : P.Agreement) (held : t.receiverPub = P.x25519Public receiver)
    (h : Message t receiver signingKey put m) : Denotes P m put.2 := by
  cases h with
  | blob inside => exact Transfer.denotes_blob laws held _
  | manifest => exact Transfer.denotes_manifest laws held
  | signature => exact Transfer.denotes_signature laws held signingKey

end SecureTransfer.ApproachB
