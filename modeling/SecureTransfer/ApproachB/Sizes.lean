import SecureTransfer.ApproachB.Connection
import SecureTransfer.ApproachB.Transparent
import Mathlib.Algebra.Order.BigOperators.Group.List

/-! # The size of a manifest

A manifest lists a record of a few hundred bytes for every chunk, so it is short enough for a
frame unless the source is absurdly long.
-/

namespace SecureTransfer.ApproachB

open Library

variable {P : Primitives} {t : Transfer P} {signature : Bytes}

/-- What `t` publishes is short enough for a frame: the source is small, its name is short, the
    clock shows no absurd time, and neither a ciphertext nor the signature is long. -/
structure Transfer.Modest (t : Transfer P) (signature : Bytes) : Prop where
  small : t.file.length < 2 ^ 53
  named : t.basename.toList.length < 2 ^ 32
  dated : t.saved.createdAt.natAbs < 2 ^ 64
  chunks : ∀ i < t.total, Sendable (t.ciphertext i)
  signature : Sendable signature

theorem Primitives.hexDigest_length (P : Primitives) (data : Bytes) : (P.hexDigest data).toList.length = 64 := by
  rw [Primitives.hexDigest, hex, String.toList_ofList, hexChars_length, Sha256.digest_length]
  rfl

theorem Transfer.hexId_length (t : Transfer P) : t.hexId.toList.length = 32 := by
  rw [Transfer.hexId, hex, String.toList_ofList, hexChars_length, t.saved.id.2]
  rfl

theorem chunkRecord_length {index plaintextLen : Nat} (few : index < 2 ^ 64) (small : plaintextLen < 2 ^ 64)
    (ct : Bytes) : (Json.dumps false (Json.sortKeys (chunkRecord P index plaintextLen ct))).length ≤ 2000 := by
  have number := Json.intText_length (i := (index : Int)) few
  have size := Json.intText_length (i := (plaintextLen : Int)) small
  have names : (Json.strText "index").length ≤ 100 ∧ (Json.strText "plaintext_len").length ≤ 200 ∧
      (Json.strText "ciphertext_sha256").length ≤ 300 := by
    refine ⟨(Json.strText_length _).trans ?_, (Json.strText_length _).trans ?_, (Json.strText_length _).trans ?_⟩ <;>
      simp
  rw [chunkRecord]
  have short := Primitives.hexDigest_length P ct
  generalize P.hexDigest ct = digest at short ⊢
  have text := Json.strText_length digest
  refine (Json.dumps_sorted_length _).trans ?_
  simp only [List.map_cons, List.map_nil, List.sum_cons, List.sum_nil, Json.sortKeys, Json.dumps]
  omega

namespace Transfer.Modest

variable (modest : t.Modest signature)
include modest

theorem whole : t.Whole := t.whole modest.small

theorem few : t.total ≤ 2 ^ 33 := by
  rw [modest.whole.covers]
  by_contra many
  have last := (lt_chunkCount chunkSize_pos).mp (not_le.mp many)
  have small := modest.small
  rw [chunkSize] at last
  omega

theorem records_length :
    (Json.dumps false (Json.sortKeys (.arr ((List.range t.total).map t.record)))).length ≤ 2 ^ 45 := by
  have few := modest.few
  have each : ∀ n ∈ (List.range t.total).map fun i => (Json.dumps false (Json.sortKeys (t.record i))).length + 1,
      n ≤ 2001 := by
    intro n inside
    obtain ⟨i, member, rfl⟩ := List.mem_map.mp inside
    exact Nat.succ_le_succ (chunkRecord_length ((List.mem_range.mp member).trans modest.whole.numbered)
      (lt_of_le_of_lt (t.plain_length i) (by decide)) _)
  have sum := List.sum_le_card_nsmul _ 2001 each
  have items := Json.dumpsItems_length (((List.range t.total).map t.record).map Json.sortKeys)
  rw [List.map_map, List.map_map] at items
  rw [List.length_map, List.length_range, Nat.nsmul_eq_mul] at sum
  rw [Json.sortKeys_arr, Json.dumps, List.length_append, List.length_cons, List.length_singleton]
  have joined := items.trans sum
  rw [List.map_map]
  omega

/-- No value of the manifest is long. -/
theorem value_length {member : String × Json} (inside : member ∈ t.members) :
    (Json.dumps false (Json.sortKeys member.2)).length ≤ 2 ^ 45 := by
  have small := modest.small
  have few := modest.few
  have text : ∀ s : String, s.toList.length < 2 ^ 32 →
      (Json.dumps false (Json.sortKeys (.str s))).length ≤ 2 ^ 45 := by
    intro s short
    have bound := Json.strText_length s
    simp only [Json.sortKeys, Json.dumps]
    omega
  have number : ∀ i : Int, i.natAbs < 2 ^ 64 → (Json.dumps false (Json.sortKeys (.int i))).length ≤ 2 ^ 45 := by
    intro i short
    have bound := Json.intText_length short
    simp only [Json.sortKeys, Json.dumps]
    omega
  have raw : t.session.ephemeralPubRaw.length = 32 := by
    obtain ⟨ephemeral, shared, _, _, same⟩ := openSession_json t.opened
    rw [same]
    exact (P.x25519Public ephemeral).2
  simp only [members, manifestMembers, List.mem_cons, List.not_mem_nil, or_false] at inside
  rcases inside with rfl | rfl | rfl | rfl | rfl | rfl | rfl | rfl | rfl | rfl | rfl | rfl | rfl
  · exact text _ (by decide)
  · refine text _ ?_
    rw [t.session_id.1, hexId_length]
    decide
  · exact number _ modest.dated
  · exact text _ modest.named
  · refine number _ ?_
    rw [Int.natAbs_natCast]
    omega
  · exact number _ (by decide)
  · refine number _ ?_
    rw [Int.natAbs_natCast]
    omega
  · exact text _ (by decide)
  · exact text _ (by decide)
  · exact text _ (by decide)
  · refine text _ ?_
    rw [hex, String.toList_ofList, hexChars_length, raw]
    decide
  · refine text _ ?_
    rw [Primitives.hexDigest_length]
    decide
  · exact modest.records_length

theorem manifest : Sendable t.manifestBytes := by
  have keys : t.members.map Prod.fst = ["version", "transfer_id", "created_at", "filename", "file_size", "chunk_size",
    "total_chunks", "cipher", "kdf", "signature_alg", "ephemeral_x25519_pub", "plaintext_sha256", "chunks"] := rfl
  have table : ∀ name ∈ ["version", "transfer_id", "created_at", "filename", "file_size", "chunk_size",
      "total_chunks", "cipher", "kdf", "signature_alg", "ephemeral_x25519_pub", "plaintext_sha256", "chunks"],
      name.toList.length ≤ 20 := by decide
  rw [← keys] at table
  have each : ∀ n ∈ t.members.map fun member =>
      (Json.strText member.1).length + (Json.dumps false (Json.sortKeys member.2)).length + 2, n ≤ 2 ^ 46 := by
    intro n inside
    obtain ⟨member, here, rfl⟩ := List.mem_map.mp inside
    have name := Json.strText_length member.1
    have short := table member.1 (List.mem_map_of_mem here)
    have value := modest.value_length here
    omega
  have sum := List.sum_le_card_nsmul _ _ each
  have text := Json.dumps_sorted_length t.members
  have bytes := encodeText_length (Json.dumps false (Json.sortKeys (.obj t.members)))
  have few : t.members.length = 13 := rfl
  rw [List.length_map, few, Nat.nsmul_eq_mul] at sum
  rw [Sendable, manifestBytes, canonicalManifestBytes]
  omega

end Transfer.Modest

theorem transparent_modest {accepts : Bytes → Bytes → Bool} {t : Transfer (transparent accepts)}
    (small : t.file.length < 2 ^ 53) (named : t.basename.toList.length < 2 ^ 32)
    (dated : t.saved.createdAt.natAbs < 2 ^ 64) :
    t.Modest ((transparent accepts).sign [] t.manifestBytes) := by
  have short : ∀ i < t.total, Sendable (t.ciphertext i) := by
    intro i _
    have plain : (t.plain i).length ≤ 1048576 := t.plain_length i
    have tagged : t.ciphertext i = t.plain i ++ tag t.session.chunkKey (Transfer.nonce i) (t.plain i) (t.aad i) := rfl
    rw [Sendable, tagged, List.length_append, tag_length]
    omega
  have bare : t.Modest [] := ⟨small, named, dated, short, show 0 < 2 ^ 64 by decide⟩
  exact { bare with signature := bare.manifest }

end SecureTransfer.ApproachB
