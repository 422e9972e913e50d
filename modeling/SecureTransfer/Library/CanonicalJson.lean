import SecureTransfer.Library.PyValues
import Mathlib.Data.List.Perm.Basic
import Mathlib.Data.Nat.Digits.Defs

/-! # Canonical JSON

Sorting the keys of a value keeps what is found under each key, and the compact text
of a dict with sorted keys is loaded back to it, as bytes.
-/

namespace SecureTransfer.Library.Json

/-! ## Lookup -/

theorem lookup_none {key : String} {members : List (String × Json)}
    (h : key ∉ members.map Prod.fst) : lookup key members = none := by
  induction members with
  | nil => rfl
  | cons member members ih =>
      cases member with
      | mk name value =>
          simp only [List.map_cons, List.mem_cons, not_or] at h
          simp only [lookup, ih h.2, if_neg (Ne.symm h.1)]

theorem lookup_eq_some {key : String} {value : Json} {members : List (String × Json)}
    (distinct : (members.map Prod.fst).Nodup) :
    lookup key members = some value ↔ (key, value) ∈ members := by
  induction members with
  | nil => simp [lookup]
  | cons member members ih =>
      cases member with
      | mk name other =>
          simp only [List.map_cons, List.nodup_cons] at distinct
          by_cases same : name = key
          · subst same
            have notLater : ∀ v, (name, v) ∉ members := fun v member =>
              distinct.1 (List.mem_map_of_mem (f := Prod.fst) member)
            simp [lookup, lookup_none distinct.1, notLater, eq_comm]
          · have later := ih distinct.2
            cases found : lookup key members with
            | none =>
                rw [found] at later
                have absent : (key, value) ∉ members := fun member => by
                  cases later.mpr member
                simp [lookup, found, same, absent, Ne.symm same]
            | some v =>
                rw [found] at later
                simp [lookup, found, later, Ne.symm same]

theorem lookup_perm {members others : List (String × Json)} (h : members.Perm others)
    (distinct : (members.map Prod.fst).Nodup) (key : String) :
    lookup key members = lookup key others := by
  have distinct' : (others.map Prod.fst).Nodup := (h.map Prod.fst).nodup_iff.mp distinct
  cases found : lookup key others with
  | some value =>
      rw [lookup_eq_some distinct, h.mem_iff, ← lookup_eq_some distinct', found]
  | none =>
      cases other : lookup key members with
      | none => rfl
      | some value =>
          rw [lookup_eq_some distinct, h.mem_iff, ← lookup_eq_some distinct', found] at other
          cases other

theorem lookup_map (f : Json → Json) (key : String) (members : List (String × Json)) :
    lookup key (members.map fun member => (member.1, f member.2)) =
      (lookup key members).map f := by
  induction members with
  | nil => rfl
  | cons member members ih =>
      cases member with
      | mk name value =>
          simp only [List.map_cons, lookup, ih]
          cases lookup key members with
          | some later => rfl
          | none =>
              simp only [Option.map_none]
              split <;> rfl

/-! ## Sorted keys -/

theorem sortKeysItems_eq (items : List Json) : sortKeysItems items = items.map sortKeys := by
  induction items with
  | nil => rfl
  | cons item items ih => simp only [sortKeysItems, ih, List.map_cons]

theorem sortKeysMembers_eq (members : List (String × Json)) :
    sortKeysMembers members = members.map fun member => (member.1, sortKeys member.2) := by
  induction members with
  | nil => rfl
  | cons member members ih =>
      cases member with
      | mk key value => simp only [sortKeysMembers, ih, List.map_cons]

/-- The members of a dict as `sort_keys` orders them. -/
def sortedMembers (members : List (String × Json)) : List (String × Json) :=
  (sortKeysMembers members).mergeSort fun a b => decide (a.1 ≤ b.1)

theorem sortKeys_obj (members : List (String × Json)) :
    sortKeys (.obj members) = .obj (sortedMembers members) := by
  rw [sortKeys, sortedMembers]

theorem sortKeys_arr (items : List Json) : sortKeys (.arr items) = .arr (items.map sortKeys) := by
  rw [sortKeys, sortKeysItems_eq]

theorem lookup_sortedMembers {members : List (String × Json)}
    (distinct : (members.map Prod.fst).Nodup) (key : String) :
    lookup key (sortedMembers members) = (lookup key members).map sortKeys := by
  have perm : (sortedMembers members).Perm (sortKeysMembers members) := List.mergeSort_perm _ _
  have same : (sortKeysMembers members).map Prod.fst = members.map Prod.fst := by
    simp [sortKeysMembers_eq, Function.comp_def]
  rw [← lookup_perm perm.symm (same ▸ distinct) key, sortKeysMembers_eq, lookup_map]

theorem item_sortKeys {members : List (String × Json)} (distinct : (members.map Prod.fst).Nodup)
    (name : String) :
    (sortKeys (.obj members)).item name = ((Json.obj members).item name).map sortKeys := by
  rw [sortKeys_obj]
  simp only [item, lookup_sortedMembers distinct]
  cases lookup name members <;> rfl

theorem get_sortKeys {members : List (String × Json)} (distinct : (members.map Prod.fst).Nodup)
    (name : String) :
    (sortKeys (.obj members)).get name = .ok ((lookup name members).map sortKeys) := by
  rw [sortKeys_obj]
  simp only [get, lookup_sortedMembers distinct]

theorem plainItems_eq (items : List Json) : plainItems items = items.all plain := by
  induction items with
  | nil => rfl
  | cons item items ih => simp only [plainItems, ih, List.all_cons]

theorem plainMembers_eq (members : List (String × Json)) :
    plainMembers members = members.all fun member => plain member.2 := by
  induction members with
  | nil => rfl
  | cons member members ih =>
      cases member with
      | mk key value => simp only [plainMembers, ih, List.all_cons]

mutual
theorem plain_sortKeys {j : Json} (h : plain j = true) : plain (sortKeys j) = true := by
  cases j with
  | null => rfl
  | bool b => rfl
  | int i => rfl
  | float lexeme => cases h
  | str s => rfl
  | arr items =>
      simp only [plain] at h
      simp only [sortKeys, plain]
      exact plainItems_sortKeys h
  | obj members =>
      simp only [plain] at h
      have sorted := plainMembers_sortKeys h
      rw [plainMembers_eq] at sorted
      rw [sortKeys_obj, plain, plainMembers_eq, sortedMembers, (List.mergeSort_perm _ _).all_eq]
      exact sorted
termination_by sizeOf j

theorem plainItems_sortKeys {items : List Json} (h : plainItems items = true) :
    plainItems (sortKeysItems items) = true := by
  cases items with
  | nil => rfl
  | cons item items =>
      simp only [plainItems, Bool.and_eq_true] at h
      simp only [sortKeysItems, plainItems, Bool.and_eq_true]
      exact ⟨plain_sortKeys h.1, plainItems_sortKeys h.2⟩
termination_by sizeOf items

theorem plainMembers_sortKeys {members : List (String × Json)} (h : plainMembers members = true) :
    plainMembers (sortKeysMembers members) = true := by
  cases members with
  | nil => rfl
  | cons member members =>
      cases member with
      | mk key value =>
          simp only [plainMembers, Bool.and_eq_true] at h
          simp only [sortKeysMembers, plainMembers, Bool.and_eq_true]
          exact ⟨plain_sortKeys h.1, plainMembers_sortKeys h.2⟩
termination_by sizeOf members
end

/-! ## Bytes -/

theorem dumps_obj_start (members : List (String × Json)) (some_member : members ≠ []) :
    ∃ text, dumps false (.obj members) = '\x7b' :: '"' :: text := by
  cases members with
  | nil => exact absurd rfl some_member
  | cons member members =>
      cases member with
      | mk key value =>
          cases members with
          | nil => exact ⟨_, rfl⟩
          | cons next members => exact ⟨_, rfl⟩

/-- Bytes that open with those of a brace and a quote are detected as UTF-8. -/
theorem decodeDetected_utf8 (rest : Bytes) :
    decodeDetected (0x7b :: 0x22 :: rest) = decodeText (0x7b :: 0x22 :: rest) := by
  cases rest with
  | nil => rfl
  | cons c rest =>
      cases rest with
      | nil => rfl
      | cons d rest => rfl

theorem decodeDetected_object (text : List Char) :
    decodeDetected (encodeText ('\x7b' :: '"' :: text)) = some ('\x7b' :: '"' :: text) := by
  have bytes : encodeText ('\x7b' :: '"' :: text) = 0x7b :: 0x22 :: encodeText text := rfl
  rw [bytes, decodeDetected_utf8, ← bytes, decodeText_encodeText]

theorem loadBytes_canonical {members : List (String × Json)} (some_member : members ≠ [])
    (h : plain (.obj members) = true) :
    loadBytes (encodeText (dumps false (sortKeys (.obj members)))) = .ok (sortKeys (.obj members)) := by
  have sorted := plain_sortKeys h
  have loaded := loads_dumps false sorted
  rw [sortKeys_obj] at loaded ⊢
  have nonempty : sortedMembers members ≠ [] := by
    intro empty
    have size := (List.mergeSort_perm (sortKeysMembers members) fun a b => decide (a.1 ≤ b.1)).length_eq
    rw [← sortedMembers, empty, sortKeysMembers_eq, List.length_map, List.length_nil, eq_comm,
      List.length_eq_zero_iff] at size
    exact some_member size
  obtain ⟨text, start⟩ := dumps_obj_start _ nonempty
  rw [start] at loaded ⊢
  simp only [loadBytes, decodeDetected_object, loaded]

/-! ## The length of a text -/

theorem escapeChar_length (c : Char) : (escapeChar c).length ≤ 12 := by
  unfold escapeChar
  split
  · simp
  · split
    · simp
    · split <;> simp [hex4]

theorem strText_length (s : String) : (strText s).length ≤ 12 * s.toList.length + 2 := by
  have each : ∀ text : List Char, (text.flatMap escapeChar).length ≤ 12 * text.length := by
    intro text
    induction text with
    | nil => exact Nat.le_refl _
    | cons c text ih =>
        have here := escapeChar_length c
        rw [List.flatMap_cons, List.length_append, List.length_cons]
        omega
  have inside := each s.toList
  simp only [strText, List.length_cons, List.length_append, List.length_nil]
  omega

theorem intText_length {i : Int} (small : i.natAbs < 2 ^ 64) : (intText i).length ≤ 21 := by
  cases i with
  | ofNat n => exact (Nat.toDigits_length 10 n 20 (by decide) (lt_trans small (by decide))).trans (by decide)
  | negSucc n => exact Nat.succ_le_succ (Nat.toDigits_length 10 (n + 1) 20 (by decide) (lt_trans small (by decide)))

theorem dumpsItems_length (items : List Json) :
    (dumpsItems false items).length ≤ (items.map fun item => (dumps false item).length + 1).sum := by
  induction items with
  | nil => exact Nat.le_refl _
  | cons item items ih =>
      cases items with
      | nil => simp [dumpsItems]
      | cons next items =>
          simp only [dumpsItems, padding, Bool.false_eq_true, if_false, List.length_append, List.length_cons,
            List.nil_append, List.map_cons, List.sum_cons] at ih ⊢
          omega

theorem dumpsMembers_length (members : List (String × Json)) : (dumpsMembers false members).length ≤
    (members.map fun member => (strText member.1).length + (dumps false member.2).length + 2).sum := by
  induction members with
  | nil => exact Nat.le_refl _
  | cons member members ih =>
      obtain ⟨key, value⟩ := member
      cases members with
      | nil =>
          simp only [dumpsMembers, padding, Bool.false_eq_true, if_false, List.length_append, List.length_cons,
            List.nil_append, List.map_cons, List.map_nil, List.sum_cons, List.sum_nil]
          omega
      | cons next members =>
          obtain ⟨key', value'⟩ := next
          simp only [dumpsMembers, padding, Bool.false_eq_true, if_false, List.length_append, List.length_cons,
            List.nil_append, List.map_cons, List.sum_cons] at ih ⊢
          omega

/-- The text of a sorted object is no longer than its members need. -/
theorem dumps_sorted_length (members : List (String × Json)) : (dumps false (sortKeys (.obj members))).length ≤
    (members.map fun member => (strText member.1).length + (dumps false (sortKeys member.2)).length + 2).sum + 2 := by
  have perm : (sortedMembers members).Perm (sortKeysMembers members) := List.mergeSort_perm _ _
  have bound := dumpsMembers_length (sortedMembers members)
  rw [(perm.map _).sum_eq, sortKeysMembers_eq, List.map_map] at bound
  rw [sortKeys_obj, dumps, List.length_append, List.length_cons, List.length_singleton]
  exact Nat.add_le_add_right (Nat.succ_le_succ bound) 1

end SecureTransfer.Library.Json
