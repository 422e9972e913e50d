import SecureTransfer.ApproachB.Connection
import SecureTransfer.Library.JsonContent

/-! # What a signature covers

The bytes that `canonical_manifest_bytes` makes of a dict, and that the sender signs, depend on
its content alone and tell it.
-/

namespace SecureTransfer.ApproachB

open Library

/-- Dicts give the same bytes to sign exactly when they have the same content, at every depth and
    in whatever order they were filled, and what is loaded from the bytes has that content. -/
theorem canonical_bytes_content (members fields : List (String × Json))
    (plain : (Json.obj members).plain = true) (plain' : (Json.obj fields).plain = true)
    (distinct : (Json.obj members).Distinct) (distinct' : (Json.obj fields).Distinct) :
    (canonicalManifestBytes (.obj members) = canonicalManifestBytes (.obj fields) ↔
      (Json.obj members).SameContent (.obj fields)) ∧
    (members ≠ [] → ∃ loaded, Json.loadBytes (canonicalManifestBytes (.obj members)) = .ok loaded ∧
      loaded.SameContent (.obj members)) := by
  refine ⟨?_, fun some_member => ⟨_, Json.loadBytes_canonical some_member plain, Json.sameContent_sortKeys distinct⟩⟩
  rw [← Json.sortKeys_eq_iff distinct distinct']
  constructor
  · intro same
    have text := encodeText_injective same
    have loaded := Json.loads_dumps false (Json.plain_sortKeys plain)
    rw [text, Json.loads_dumps false (Json.plain_sortKeys plain')] at loaded
    exact (Option.some.inj loaded).symm
  · intro same
    rw [canonicalManifestBytes, canonicalManifestBytes, same]

/-- A dict filled in two orders. -/
theorem canonical_bytes_content_twoOrders :
    canonicalManifestBytes (.obj [("version", .str "1"), ("chunks", .arr [.int 5])]) =
      canonicalManifestBytes (.obj [("chunks", .arr [.int 5]), ("version", .str "1")]) := by
  have text : (Json.str "1").Distinct := .atom (by intro first; cases first <;> rfl) (by simp)
  have number : (Json.int 5).Distinct := .atom (by intro first; cases first <;> rfl) (by simp)
  have list : (Json.arr [.int 5]).Distinct := .arr (List.forall_mem_singleton.mpr number)
  have keys : (["version", "chunks"] : List String).Nodup := by decide
  have distinct : (Json.obj [("version", .str "1"), ("chunks", .arr [.int 5])]).Distinct :=
    .obj keys (List.forall_mem_cons.mpr ⟨text, List.forall_mem_singleton.mpr list⟩)
  have swapped : (Json.obj [("chunks", .arr [.int 5]), ("version", .str "1")]).Distinct :=
    .obj (by decide) (List.forall_mem_cons.mpr ⟨list, List.forall_mem_singleton.mpr text⟩)
  exact (canonical_bytes_content _ _ rfl rfl distinct swapped).1.mpr (.perm (List.Perm.swap _ _ _) keys)

end SecureTransfer.ApproachB
