import SecureTransfer.ApproachB.ReceiveRuns
import SecureTransfer.Library.CanonicalJson

/-! # The ledger of completed transfers

Whatever JSON a ledger file holds, `_record_completed` writes one that lists the new id
and every id that was listed before, or raises.
-/

namespace SecureTransfer.ApproachB

open Library

theorem text_keyed (s : String) : (Json.str s).key = some (.text s) := rfl

theorem text_injective : Function.Injective Key.text := fun _ _ same => Key.text.inj same

theorem str_key {s id : String} : (Json.str s).key = some (.text id) ↔ id = s := by
  rw [text_keyed, Option.some.injEq, Key.text.injEq, eq_comm]

/-- Ids as the receiver keeps them. -/
def idList (ids : List String) : List Json := ids.map fun id => .str id

/-- The ledger lists an id. -/
def Listed (ledger : Option Bytes) (transferIdHex : String) : Prop :=
  ∃ seen, loadLedger ledger = .ok seen ∧ Json.contains (.text transferIdHex) seen = true

/-- What `_record_completed` can sort holds ids only. -/
theorem recorded_ids {seen items : List Json} {transferIdHex : String}
    (sorts : Json.sorted (Json.insert seen (.str transferIdHex)) = .ok items) :
    ∃ ids, items = idList ids ∧
      ∀ id, id ∈ ids ↔ id = transferIdHex ∨ Json.contains (.text id) seen = true := by
  have perm := Json.sorted_perm sorts
  have present : Json.contains (.text transferIdHex) (Json.insert seen (.str transferIdHex)) = true :=
    (Json.contains_insert _ _ _).mpr (.inr rfl)
  obtain ⟨value, member, key⟩ := Json.contains_iff.mp present
  -- a set that holds a text sorts only if it holds nothing else
  have texts : ∀ value ∈ Json.insert seen (.str transferIdHex), Json.isText value = true := by
    have isText : Json.isText value = true := by simp only [Json.isText, key]
    unfold Json.sorted at sorts
    split at sorts
    · rename_i single
      intro other member'
      have same : other = value := by
        match h : Json.insert seen (.str transferIdHex), single with
        | [], _ =>
            rw [h] at member
            cases member
        | [only], _ =>
            rw [h] at member member'
            rw [List.mem_singleton.mp member, List.mem_singleton.mp member']
      rw [same, isText]
    · split at sorts
      · rename_i numbers
        have number := List.all_eq_true.mp numbers value member
        simp only [Json.isNumber, key] at number
        cases number
      · split at sorts
        · rename_i all
          exact List.all_eq_true.mp all
        · cases sorts
  have strings : ∀ value ∈ items, value = .str value.textOrEmpty := by
    intro value member
    have text := texts value (perm.mem_iff.mp member)
    unfold Json.isText at text
    split at text
    · rename_i s key
      have equal : Json.eqStr value s = true := by rw [Json.eqStr, key, beq_self_eq_true]
      rw [Json.eqStr_iff.mp equal, Json.textOrEmpty]
    · cases text
  have same : items = idList (items.map Json.textOrEmpty) := by
    rw [idList, List.map_map]
    exact (List.map_id items).symm.trans (List.map_congr_left strings)
  refine ⟨items.map Json.textOrEmpty, same, fun id => ?_⟩
  have inside : id ∈ items.map Json.textOrEmpty ↔ Json.contains (.text id) items = true := by
    conv => rhs; rw [same]
    exact (Json.contains_map text_keyed text_injective).symm
  rw [inside, Json.contains_perm perm, Json.contains_insert]
  constructor
  · rintro (before | new)
    · exact .inr before
    · exact .inl (Key.text.inj (Option.some.inj new)).symm
  · rintro (rfl | before)
    · exact .inr rfl
    · exact .inl before

theorem loadLedger_written (ids : List String) :
    ∃ all, loadLedger (some (Json.dumpFile (.arr (idList ids)))) = .ok (idList all) ∧
      ∀ id, id ∈ all ↔ id ∈ ids := by
  have plain : Json.plain (.arr (idList ids)) = true := by
    rw [Json.plain, Json.plainItems_eq, List.all_eq_true]
    intro value member
    obtain ⟨id, _, rfl⟩ := List.mem_map.mp member
    rfl
  obtain ⟨all, set, members⟩ := Json.setOf_map text_keyed text_injective ids
  refine ⟨all, ?_, members⟩
  simp only [loadLedger, Json.loadFile_dumpFile plain, bind, Except.bind, Json.iterate]
  exact set

/-- What is written lists the new id and whatever the loaded set held. -/
theorem listed_written {seen items : List Json} {transferIdHex : String}
    (sorts : Json.sorted (Json.insert seen (.str transferIdHex)) = .ok items) (id : String) :
    Listed (some (Json.dumpFile (.arr items))) id ↔
      Json.contains (.text id) (Json.insert seen (.str transferIdHex)) = true := by
  obtain ⟨ids, rfl, members⟩ := recorded_ids sorts
  obtain ⟨all, loads', same⟩ := loadLedger_written ids
  have listed : Listed (some (Json.dumpFile (.arr (idList ids)))) id ↔ id ∈ ids := by
    rw [← same, ← Json.contains_map text_keyed text_injective]
    constructor
    · rintro ⟨_, again, found⟩
      rw [loads'] at again
      cases again
      exact found
    · intro found
      exact ⟨_, loads', found⟩
  rw [listed, members, Json.contains_insert, str_key, or_comm]

/-- A ledger that was written lists the new id and whatever was listed before. -/
theorem Listed.recorded {ledger : Option Bytes} {seen items : List Json} {transferIdHex : String}
    (loads : loadLedger ledger = .ok seen)
    (sorts : Json.sorted (Json.insert seen (.str transferIdHex)) = .ok items) (id : String) :
    Listed (some (Json.dumpFile (.arr items))) id ↔ id = transferIdHex ∨ Listed ledger id := by
  have before : Listed ledger id ↔ Json.contains (.text id) seen = true := by
    constructor
    · rintro ⟨_, again, found⟩
      rw [loads] at again
      cases again
      exact found
    · intro found
      exact ⟨_, loads, found⟩
  rw [listed_written sorts, Json.contains_insert, str_key, before, or_comm]

/-! ## Ledgers of ids -/

/-- The ledger loads and lists `ids`, as a file the receiver wrote, a missing one and one
    that was cut off do. -/
def Recorded (ledger : Option Bytes) (ids : List String) : Prop :=
  ∃ all, loadLedger ledger = .ok (idList all) ∧ ∀ id, id ∈ all ↔ id ∈ ids

theorem Recorded.missing : Recorded none [] := ⟨[], rfl, by simp⟩

theorem Recorded.unseen {ledger : Option Bytes} {ids : List String} (h : Recorded ledger ids)
    {transferIdHex : String} (absent : transferIdHex ∉ ids) :
    ∃ seen, loadLedger ledger = .ok seen ∧ ¬ Json.contains (.text transferIdHex) seen = true := by
  obtain ⟨all, loads, same⟩ := h
  refine ⟨_, loads, fun present => absent ((same _).mp ?_)⟩
  exact (Json.contains_map text_keyed text_injective).mp present

theorem sorted_idList (ids : List String) :
    ∃ all, Json.sorted (idList ids) = .ok (idList all) ∧ all.Perm ids := by
  obtain ⟨out, sorts⟩ : ∃ out, Json.sorted (idList ids) = .ok out := by
    refine Json.sorted_texts fun value member => ?_
    obtain ⟨id, _, rfl⟩ := List.mem_map.mp member
    rfl
  obtain ⟨same, perm⟩ := Json.perm_map Json.textOrEmpty (fun _ => rfl) (Json.sorted_perm sorts)
  refine ⟨out.map Json.textOrEmpty, ?_, perm⟩
  rw [sorts]
  exact congrArg Except.ok same

theorem recordCompleted_run {β : Type} (transferIdHex : String) {ids : List String} {w : World β}
    (h : Recorded w.ledger ids) :
    ∃ ledger, recordCompleted transferIdHex w = (.ok (), { w with ledger }) ∧
      Recorded ledger (transferIdHex :: ids) := by
  obtain ⟨all, loads, same⟩ := h
  obtain ⟨next, inserted, members⟩ := Json.insert_map_mem text_keyed text_injective all transferIdHex
  obtain ⟨listed, sorts, perm⟩ := sorted_idList next
  obtain ⟨written, rereads, members'⟩ := loadLedger_written listed
  refine ⟨some (Json.dumpFile (.arr (idList listed))), ?_, written, rereads, fun id => ?_⟩
  · rw [recordCompleted, Prog.bind_ok (Prog.get_run w), Prog.bind_ok (python_run_ok loads w),
      Prog.bind_ok (Prog.update_run _ _)]
    have ordered : Json.sorted (Json.insert (idList all) (.str transferIdHex)) = .ok (idList listed) := by
      rw [idList, inserted]
      exact sorts
    rw [Prog.bind_ok (python_run_ok ordered _)]
    rfl
  · rw [members', perm.mem_iff, members, same, List.mem_cons]

end SecureTransfer.ApproachB
