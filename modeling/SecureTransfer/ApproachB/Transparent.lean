import SecureTransfer.ApproachB.Transfer

/-! # Transparent primitives

Primitives that hide nothing but satisfy the laws, to evaluate the two programs on:
derived keys spell out their inputs, and a ciphertext is the plaintext with a tag.
-/

namespace SecureTransfer.ApproachB

open Library

/-- The bytes behind their length in unary. -/
def delimit (bytes : Bytes) : Bytes := List.replicate bytes.length 1 ++ 0 :: bytes

theorem unary_inj {n m : Nat} {a b : Bytes}
    (h : List.replicate n 1 ++ 0 :: a = List.replicate m 1 ++ 0 :: b) : n = m ∧ a = b := by
  induction n generalizing m with
  | zero =>
      cases m with
      | zero => exact ⟨rfl, (List.cons.inj h).2⟩
      | succ m => exact absurd (List.cons.inj h).1 (by decide)
  | succ n ih =>
      cases m with
      | zero => exact absurd (List.cons.inj h).1 (by decide)
      | succ m =>
          obtain ⟨same, rest⟩ := ih (List.cons.inj h).2
          exact ⟨by rw [same], rest⟩

theorem delimit_inj {a b rest tail : Bytes} (h : delimit a ++ rest = delimit b ++ tail) :
    a = b ∧ rest = tail := by
  simp only [delimit, List.append_assoc, List.cons_append] at h
  obtain ⟨size, same⟩ := unary_inj h
  exact List.append_inj same size

def tag (key nonce plain aad : Bytes) : Bytes :=
  (Sha256.keepFirst.digest (delimit key ++ delimit nonce ++ delimit aad ++ plain)).take 16

/-- `accepts` decides which messages verify under which key. -/
def transparent (accepts : Bytes → Bytes → Bool) : Primitives where
  sha256 := .keepFirst
  x25519Public key := key
  exchange a b := some (List.zipWith (· ^^^ ·) a.1 b.1)
  privatePem key := hex key.1
  loadPem text := (fromHex text).bind fun raw => if h : raw.length = 32 then some ⟨raw, h⟩ else none
  hkdf _ salt info secret := delimit salt ++ delimit info ++ secret
  encrypt key nonce plain aad := plain ++ tag key nonce plain aad
  decrypt key nonce ct aad :=
    let plain := ct.take (ct.length - 16)
    if ct = plain ++ tag key nonce plain aad then some plain else none
  ed25519Public key := key
  sign key message := key ++ message
  verify key signature message := accepts key message && decide (signature = key ++ message)

theorem tag_length (key nonce plain aad : Bytes) : (tag key nonce plain aad).length = 16 := by
  rw [tag, List.length_take, Sha256.digest_length]
  rfl

variable (accepts : Bytes → Bytes → Bool)

theorem transparent_agreement : (transparent accepts).Agreement where
  shared a b := ⟨_, rfl⟩
  agree a b := by
    simp only [transparent, Option.some.injEq]
    exact List.zipWith_comm_of_comm (fun x y => UInt8.xor_comm x y)
  pem a := by
    simp only [transparent, fromHex_hex, Option.bind_some, dif_pos a.2]

theorem transparent_opens : (transparent accepts).Opens := by
  intro key nonce plain aad
  have size : (plain ++ tag key nonce plain aad).length - 16 = plain.length := by
    rw [List.length_append, tag_length, Nat.add_sub_cancel]
  simp only [transparent, size, List.take_left', if_true]

theorem transparent_hkdf : (transparent accepts).HkdfInjective := by
  intro salt info secret salt' info' secret' h
  simp only [transparent, List.append_assoc] at h
  obtain ⟨salts, rest⟩ := delimit_inj h
  obtain ⟨infos, secrets⟩ := delimit_inj rest
  exact ⟨salts, infos, secrets⟩

theorem transparent_signsFor : (transparent fun _ _ => true).SignsFor := by
  intro key message
  simp [transparent]

/-- What verifies plays no part in what is sent. -/
def Transfer.accepting {accepts : Bytes → Bytes → Bool} (t : Transfer (transparent accepts))
    (accepts' : Bytes → Bytes → Bool) : Transfer (transparent accepts') where
  saved := t.saved
  receiverPub := t.receiverPub
  file := t.file
  basename := t.basename
  session := t.session
  opened := t.opened
  sized := t.sized

/-! ## A source of one byte -/

def oneByte (byte : UInt8) (id : { raw : Bytes // raw.length = transferIdLen }) : SendArgs where
  file := some [byte]
  basename := "source"
  signingKey := []
  receiverPub := ⟨List.replicate 32 9, rfl⟩
  now := 0
  freshId := id
  freshKey := ⟨List.replicate 32 4, rfl⟩

theorem oneByte_transfer (byte : UInt8) (id : { raw : Bytes // raw.length = transferIdLen }) :
    ∃ t : Transfer (transparent accepts), t.saved = (oneByte byte id).fresh 1 ∧
      t.receiverPub = (oneByte byte id).receiverPub ∧ t.file = [byte] ∧
      t.basename = (oneByte byte id).basename ∧ t.total = 1 := by
  obtain ⟨t, saved, receiver, file, named⟩ := exists_transfer (transparent_agreement accepts)
    ((oneByte byte id).fresh 1) (oneByte byte id).receiverPub "source" [byte] rfl
  refine ⟨t, saved, receiver, file, named, ?_⟩
  have one_chunk : totalChunks 1 = 1 := by decide
  rw [Transfer.total, file]
  exact one_chunk

/-- The digest shows the first byte. -/
theorem keepFirst_head {data : Bytes} {byte : UInt8} (first : data.head? = some byte) :
    (Sha256.keepFirst.digest data).head? = some byte := by
  obtain ⟨rest, rfl⟩ := List.head?_eq_some_iff.mp first
  rfl

/-- The digest of its ciphertext shows the byte. -/
theorem oneByte_digest {accepts : Bytes → Bytes → Bool} {byte : UInt8} (t : Transfer (transparent accepts))
    (file : t.file = [byte]) :
    ((transparent accepts).sha256.digest (t.ciphertext 0)).head? = some byte := by
  have plain : t.plain 0 = [byte] := by
    rw [Transfer.plain, file, chunk, Nat.zero_mul, List.drop_zero, List.take_of_length_le]
    exact chunkSize_pos
  rw [Transfer.ciphertext, plain]
  rfl

/-! ## A source of two chunks -/

/-- A mebibyte of zeros and one of ones. -/
def twoMebibytes : Bytes := List.replicate chunkSize 0 ++ List.replicate chunkSize 1

theorem twoMebibytes_length : twoMebibytes.length = 2097152 := by
  rw [twoMebibytes, List.length_append, List.length_replicate, List.length_replicate]
  rfl

def twoChunks (id : { raw : Bytes // raw.length = transferIdLen }) : SendArgs :=
  { oneByte 1 id with file := some twoMebibytes }

section TwoMebibytes

variable {accepts : Bytes → Bytes → Bool} {t : Transfer (transparent accepts)} (file : t.file = twoMebibytes)

include file

theorem twoMebibytes_total : t.total = 2 := by
  have chunks : totalChunks 2097152 = 2 := by decide
  rw [Transfer.total, file, twoMebibytes_length, chunks]

theorem twoMebibytes_plain {i : Nat} (inside : i < 2) : t.plain i = List.replicate chunkSize (UInt8.ofNat i) := by
  rw [Transfer.plain, file, chunk, twoMebibytes]
  obtain rfl | rfl : i = 0 ∨ i = 1 := by omega
  · rw [Nat.zero_mul, List.drop_zero]
    exact List.take_left' List.length_replicate
  · rw [Nat.one_mul, List.drop_left' List.length_replicate]
    exact List.take_of_length_le (by rw [List.length_replicate])

/-- The digest of a ciphertext shows which one it is. -/
theorem twoMebibytes_digests :
    Set.InjOn (transparent accepts).sha256.digest {data | ∃ i < t.total, data = t.ciphertext i} := by
  rw [twoMebibytes_total file]
  have shows : ∀ i < 2, ((transparent accepts).sha256.digest (t.ciphertext i)).head? = some (UInt8.ofNat i) := by
    intro i inside
    have tagged : t.ciphertext i = t.plain i ++ tag t.session.chunkKey (Transfer.nonce i) (t.plain i) (t.aad i) := rfl
    rw [tagged, twoMebibytes_plain file inside]
    refine keepFirst_head ?_
    rw [List.head?_append, List.head?_replicate, if_neg (by decide)]
    rfl
  rintro _ ⟨i, bound, rfl⟩ _ ⟨j, bound', rfl⟩ same
  have first := shows i bound
  rw [same, shows j bound'] at first
  have equal := congrArg UInt8.toNat (Option.some.inj first)
  rw [UInt8.toNat_ofNat', UInt8.toNat_ofNat', Nat.mod_eq_of_lt (by omega), Nat.mod_eq_of_lt (by omega)] at equal
  rw [equal]

end TwoMebibytes

theorem twoChunks_transfer (accepts : Bytes → Bytes → Bool) (id : { raw : Bytes // raw.length = transferIdLen }) :
    ∃ t : Transfer (transparent accepts), t.saved = (twoChunks id).fresh twoMebibytes.length ∧
      t.receiverPub = (twoChunks id).receiverPub ∧ t.file = twoMebibytes ∧
      t.basename = (twoChunks id).basename ∧ t.total = 2 := by
  obtain ⟨t, saved, receiver, file, named⟩ := exists_transfer (transparent_agreement accepts)
    ((twoChunks id).fresh twoMebibytes.length) (twoChunks id).receiverPub "source" twoMebibytes rfl
  exact ⟨t, saved, receiver, file, named, twoMebibytes_total file⟩

end SecureTransfer.ApproachB
