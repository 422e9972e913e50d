import SecureTransfer.ApproachB.BrokerStore

/-! # The names and encodings of an envelope

Nonces, associated data and the keys of the blobs of all transfers, as one family each:
no two members have one encoding, and the broker stores and lists every key.
-/

namespace SecureTransfer.ApproachB

open Library

/-- A transfer id that a namespace can be named after. -/
structure HexId where
  text : String
  some_chars : text.toList ≠ []
  short : text.toList.length ≤ 128
  digits : ∀ c ∈ text.toList, (hexValue c).isSome = true

/-- The blobs of all transfers. -/
inductive EnvelopeKey where
  | manifest (id : HexId)
  | signature (id : HexId)
  | chunk (id : HexId) (index : Nat) (small : index < 2 ^ 64)

namespace EnvelopeKey

def id : EnvelopeKey → HexId
  | .manifest id => id
  | .signature id => id
  | .chunk id _ _ => id

def text : EnvelopeKey → String
  | .manifest id => manifestKey id.text
  | .signature id => signatureKey id.text
  | .chunk id index _ => chunkKey id.text index

/-- What stands behind the slash. -/
def name : EnvelopeKey → String
  | .manifest _ => "manifest"
  | .signature _ => "manifest.sig"
  | .chunk _ index _ => chunkName index

theorem text_eq (k : EnvelopeKey) : k.text = k.id.text ++ "/" ++ k.name := by
  cases k with
  | manifest id => exact manifestKey_join id.text
  | signature id => exact signatureKey_join id.text
  | chunk id index small => exact chunkKey_join id.text index

theorem name_segment (k : EnvelopeKey) : isSegment isNameChar k.name.toList = true := by
  cases k with
  | manifest id => exact (by decide : isSegment isNameChar "manifest".toList = true)
  | signature id => exact (by decide : isSegment isNameChar "manifest.sig".toList = true)
  | chunk id index small => exact chunkName_segment small

theorem name_plain (k : EnvelopeKey) : hasDots k.name.toList = false := by
  cases k with
  | manifest id => exact (by decide : hasDots "manifest".toList = false)
  | signature id => exact (by decide : hasDots "manifest.sig".toList = false)
  | chunk id index small => exact hasDots_chunkName index

theorem name_visible (k : EnvelopeKey) : isTmp k.name = false := by
  cases k with
  | manifest id => exact (by decide : isTmp "manifest" = false)
  | signature id => exact (by decide : isTmp "manifest.sig" = false)
  | chunk id index small => exact isTmp_chunkName index

end EnvelopeKey

theorem hexValue_class {c : Char} (digit : (hexValue c).isSome = true) : isNamespaceChar c = true := by
  have alphanum : c.isAlphanum = true := by
    have ranges : c.isAlphanum = (decide ('A'.val ≤ c.val ∧ c.val ≤ 'Z'.val) ||
        (decide ('a'.val ≤ c.val) && decide (c.val ≤ 'z'.val)) ||
        (decide ('0'.val ≤ c.val) && decide (c.val ≤ '9'.val))) := rfl
    simp only [ranges, Bool.or_eq_true, Bool.and_eq_true, decide_eq_true_eq, UInt32.le_iff_toNat_le]
    unfold hexValue at digit
    split_ifs at digit with decimal lower upper
    · exact .inr decimal
    · have last : c.val.toNat ≤ 'f'.val.toNat := lower.2
      exact .inl (.inr ⟨lower.1, last.trans (by decide)⟩)
    · have last : c.val.toNat ≤ 'F'.val.toNat := upper.2
      exact .inl (.inl ⟨upper.1, last.trans (by decide)⟩)
    · cases digit
  rw [isNamespaceChar, alphanum, Bool.true_or, Bool.true_or]

theorem HexId.segment (id : HexId) : isSegment isNamespaceChar id.text.toList = true := by
  have classes : id.text.toList.all isNamespaceChar = true :=
    List.all_eq_true.mpr fun c member => hexValue_class (id.digits c member)
  have size : 1 ≤ id.text.toList.length := List.length_pos_iff.mpr id.some_chars
  simp only [isSegment, classes, size, id.short, decide_true, Bool.and_self]

namespace EnvelopeKey

/-- The broker accepts every key. -/
theorem safePath_text (k : EnvelopeKey) : safePath k.text = some (k.id.text, k.name) := by
  have joined : k.text = String.ofList (k.id.text.toList ++ '/' :: k.name.toList) := by
    apply String.toList_injective
    rw [text_eq]
    simp
  rw [joined, safePath_join k.id.segment k.name_segment k.name_plain, String.ofList_toList,
    String.ofList_toList]

theorem text_injective : Function.Injective EnvelopeKey.text := by
  intro k k' same
  have paths : (k.id.text, k.name) = (k'.id.text, k'.name) := by
    have accepted := k.safePath_text
    rw [same, k'.safePath_text] at accepted
    exact (Option.some.inj accepted).symm
  obtain ⟨ids, names⟩ := Prod.mk.inj paths
  have id_eq : k.id = k'.id := by
    cases hk : k.id
    cases hk' : k'.id
    rw [hk, hk'] at ids
    simp only at ids
    subst ids
    rfl
  cases k with
  | manifest id =>
      cases k' with
      | manifest id' => exact congrArg EnvelopeKey.manifest id_eq
      | signature id' => exact absurd names (by decide : "manifest" ≠ "manifest.sig")
      | chunk id' j small' => exact absurd names.symm (chunkName_ne j).1
  | signature id =>
      cases k' with
      | manifest id' => exact absurd names (by decide : "manifest.sig" ≠ "manifest")
      | signature id' => exact congrArg EnvelopeKey.signature id_eq
      | chunk id' j small' => exact absurd names.symm (chunkName_ne j).2
  | chunk id i small =>
      cases k' with
      | manifest id' => exact absurd names (chunkName_ne i).1
      | signature id' => exact absurd names (chunkName_ne i).2
      | chunk id' j small' =>
          obtain rfl : i = j := chunkName_inj names
          obtain rfl : id = id' := id_eq
          rfl

/-- No key is the temporary name of another. -/
theorem text_ne_tmp (k k' : EnvelopeKey) : k.text ≠ k'.text ++ ".tmp" := by
  intro same
  have slash : '/' ∉ (k'.name ++ ".tmp").toList := by
    rw [String.toList_append, List.mem_append, not_or]
    exact ⟨(safePath_parts k'.safePath_text).2.2, by decide⟩
  have accepted := k.safePath_text
  rw [same, text_eq, String.append_assoc] at accepted
  have names := (Prod.mk.inj (safePath_suffix slash accepted)).2
  have visible := k.name_visible
  rw [names, isTmp_append] at visible
  cases visible

theorem name_clean (k : EnvelopeKey) : '\n' ∉ k.id.text.toList ∧ '\n' ∉ k.name.toList := by
  exact ⟨fun member => absurd (isSegment_class k.id.segment '\n' member) (by decide),
    fun member => absurd (isSegment_class k.name_segment '\n' member) (by decide)⟩

/-- Two keys of the family have different paths, also as temporary names. -/
theorem path_ne {k k' : EnvelopeKey} (differ : k' ≠ k) :
    (k'.id.text, k'.name) ≠ (k.id.text, k.name) ∧ (k'.id.text, k'.name) ≠ (k.id.text, k.name ++ ".tmp") := by
  constructor
  · intro same
    obtain ⟨ids, names⟩ := Prod.mk.inj same
    exact differ (text_injective (by rw [text_eq, text_eq, ids, names]))
  · intro same
    have visible := k'.name_visible
    rw [(Prod.mk.inj same).2, isTmp_append] at visible
    cases visible

/-- What is stored under a key is listed under its namespace. -/
theorem listed {store : Storage} {k : EnvelopeKey} (stored : (store.get k.text).isSome = true) :
    k.text ∈ (store.list (k.id.text ++ "/")).flatMap splitLines := by
  obtain ⟨data, present⟩ := Option.isSome_iff_exists.mp stored
  rw [Storage.get_eq k.safePath_text] at present
  obtain ⟨space, name⟩ := k.name_clean
  have member := listed_of_find present k.name_visible space name
  rw [text_eq]
  exact member

/-- An upload stores its blob and leaves those of the other keys alone. -/
theorem put (k : EnvelopeKey) (store : Storage) (data : Bytes) :
    ∃ after, store.put k.text data = some after ∧ after.get k.text = some data ∧
      ∀ k', k' ≠ k → after.get k'.text = store.get k'.text := by
  have named : k.name ≠ "." := by
    cases k with
    | manifest id => exact (by decide : "manifest" ≠ ".")
    | signature id => exact (by decide : "manifest.sig" ≠ ".")
    | chunk id index small =>
        intro dot
        have noDot := chunkName_noDot index
        rw [show chunkName index = "." from dot] at noDot
        exact noDot (by decide)
  obtain ⟨after, stored⟩ := store.put_some data k.safePath_text named
  have found := Storage.put_lookup k.safePath_text stored
  refine ⟨after, stored, ?_, fun k' differ => ?_⟩
  · rw [Storage.get_eq k.safePath_text, found, if_pos rfl]
  · obtain ⟨other, tmp⟩ := path_ne differ
    rw [Storage.get_eq k'.safePath_text, Storage.get_eq k'.safePath_text, found, if_neg other, if_neg tmp]

end EnvelopeKey

theorem chunkNonce_injective {i j : Nat} (hi : i < 2 ^ 64) (hj : j < 2 ^ 64)
    (same : chunkNonce i = chunkNonce j) : i = j := by
  rw [chunkNonce_eq hi, chunkNonce_eq hj] at same
  exact bigEndian_injective 8 hi hj (List.append_cancel_left (Except.ok.inj same))

/-- The id has any length: the two numbers behind it have eight bytes each. -/
theorem chunkAad_injective {id id' : Bytes} {i i' n n' : Nat} (hi : i < 2 ^ 64) (hi' : i' < 2 ^ 64)
    (hn : n < 2 ^ 64) (hn' : n' < 2 ^ 64) (same : chunkAad id i n = chunkAad id' i' n') :
    id = id' ∧ i = i' ∧ n = n' := by
  rw [chunkAad_eq hi hn, chunkAad_eq hi' hn'] at same
  obtain ⟨front, totals⟩ := List.append_inj' (Except.ok.inj same) (by rw [bigEndian_length, bigEndian_length])
  obtain ⟨ids, indices⟩ := List.append_inj' front (by rw [bigEndian_length, bigEndian_length])
  exact ⟨ids, bigEndian_injective 8 hi hi' indices, bigEndian_injective 8 hn hn' totals⟩

/-- **Nothing collides and everything is stored.** Nonces, associated data and keys determine what
    they are made of; the broker accepts every key, and an upload neither overwrites nor hides the
    blob of another key. -/
theorem envelope_encodings :
    (∀ i < 2 ^ 64, ∀ j < 2 ^ 64, chunkNonce i = chunkNonce j → i = j) ∧
    (∀ id id' : Bytes, ∀ i < 2 ^ 64, ∀ i' < 2 ^ 64, ∀ n < 2 ^ 64, ∀ n' < 2 ^ 64,
      chunkAad id i n = chunkAad id' i' n' → id = id' ∧ i = i' ∧ n = n') ∧
    Function.Injective EnvelopeKey.text ∧
    (∀ k : EnvelopeKey, (safePath k.text).isSome = true) ∧
    (∀ k k' : EnvelopeKey, k.text ≠ k'.text ++ ".tmp") ∧
    ∀ (k : EnvelopeKey) (store : Storage) (data : Bytes), ∃ after, store.put k.text data = some after ∧
      after.get k.text = some data ∧
      (∀ k' : EnvelopeKey, k' ≠ k → after.get k'.text = store.get k'.text) ∧
      ∀ k' : EnvelopeKey, (after.get k'.text).isSome = true →
        k'.text ∈ (after.list (k'.id.text ++ "/")).flatMap splitLines := by
  refine ⟨fun i hi j hj => chunkNonce_injective hi hj,
    fun id id' i hi i' hi' n hn n' hn' => chunkAad_injective hi hi' hn hn', EnvelopeKey.text_injective,
    fun k => by rw [k.safePath_text]; rfl, EnvelopeKey.text_ne_tmp, fun k store data => ?_⟩
  obtain ⟨after, stored, here, others⟩ := k.put store data
  exact ⟨after, stored, here, others, fun k' => EnvelopeKey.listed⟩

end SecureTransfer.ApproachB
