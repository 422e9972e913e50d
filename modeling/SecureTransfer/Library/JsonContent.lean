import SecureTransfer.Library.CanonicalJson

/-! # The content of a JSON value

Two values have the same content when they agree at every path, in whatever order the members
of their objects stand. Sorting the keys keeps the content, and values of the same content become
the same value when they are sorted.
-/

namespace SecureTransfer.Library.Json

/-- Induction over the items of an array and the values of an object. -/
theorem induct {motive : Json → Prop}
    (atom : ∀ j, (∀ items, j ≠ .arr items) → (∀ members, j ≠ .obj members) → motive j)
    (arr : ∀ items, (∀ item ∈ items, motive item) → motive (.arr items))
    (obj : ∀ members, (∀ member ∈ members, motive member.2) → motive (.obj members)) (j : Json) : motive j := by
  cases j with
  | arr items => exact arr items fun item _ => induct atom arr obj item
  | obj members => exact obj members fun member _ => induct atom arr obj member.2
  | null | bool | int | float | str => exact atom _ (by simp) (by simp)
termination_by sizeOf j
decreasing_by
  · rename_i inside
    have := List.sizeOf_lt_of_mem inside
    simp only [Json.arr.sizeOf_spec]
    omega
  · rename_i inside
    have := List.sizeOf_lt_of_mem inside
    have : sizeOf member.2 < sizeOf member := by
      cases member
      simp
    simp only [Json.obj.sizeOf_spec]
    omega

/-! ## Paths -/

inductive Step where
  | index (i : Nat)
  | key (name : String)

def step : Step → Json → Option Json
  | .index i, .arr items => items[i]?
  | .key name, .obj members => lookup name members
  | _, _ => none

def follow : List Step → Json → Option Json
  | [], j => some j
  | first :: path, j => (step first j).bind (follow path)

/-- A value without what is in it. -/
def shape : Json → Json
  | .arr items => .arr (items.map fun _ => .null)
  | .obj _ => .obj []
  | atom => atom

def SameContent (j k : Json) : Prop := ∀ path, (follow path j).map shape = (follow path k).map shape

/-- No object in the value has a key twice. -/
def Distinct (j : Json) : Prop :=
  ∀ path members, follow path j = some (.obj members) → (members.map Prod.fst).Nodup

variable {j k : Json} {items others : List Json} {members fields : List (String × Json)}

theorem Distinct.step (h : Distinct j) (first : Step) (inside : Json.step first j = some k) : Distinct k := by
  intro path members here
  apply h (first :: path) members
  rw [follow, inside]
  exact here

theorem Distinct.keys (h : Distinct (.obj members)) : (members.map Prod.fst).Nodup := h [] members rfl

theorem Distinct.item (h : Distinct (.arr items)) : ∀ item ∈ items, Distinct item := by
  intro item member
  obtain ⟨i, inside, rfl⟩ := List.mem_iff_getElem.mp member
  exact h.step (.index i) (List.getElem?_eq_getElem inside)

theorem Distinct.member (h : Distinct (.obj members)) : ∀ member ∈ members, Distinct member.2 :=
  fun member inside => h.step (.key member.1) ((lookup_eq_some h.keys).mpr inside)

theorem Distinct.of_steps (keys : ∀ members, j = .obj members → (members.map Prod.fst).Nodup)
    (inside : ∀ first k, Json.step first j = some k → Distinct k) : Distinct j := by
  intro path members here
  cases path with
  | nil => exact keys members (Option.some.inj here)
  | cons first path =>
      obtain ⟨k, one, later⟩ := Option.bind_eq_some_iff.mp here
      exact inside first k one path members later

theorem Distinct.atom (none_inside : ∀ first, Json.step first j = none) (notObj : ∀ members, j ≠ .obj members) :
    Distinct j := by
  refine .of_steps (fun members same => absurd same (notObj members)) fun first k one => ?_
  rw [none_inside] at one
  cases one

theorem Distinct.arr (inside : ∀ item ∈ items, Distinct item) : Distinct (.arr items) := by
  refine .of_steps (by simp) fun first k one => ?_
  cases first with
  | index i => exact inside k (List.mem_of_getElem? one)
  | key name => cases one

theorem Distinct.obj (keys : (members.map Prod.fst).Nodup) (inside : ∀ member ∈ members, Distinct member.2) :
    Distinct (.obj members) := by
  refine .of_steps (fun others same => Json.obj.inj same ▸ keys) fun first k one => ?_
  cases first with
  | index i => cases one
  | key name => exact inside (name, k) ((lookup_eq_some keys).mp one)

/-! ## Sorting -/

theorem shape_sortKeys (j : Json) : shape (sortKeys j) = shape j := by
  cases j with
  | arr items => simp [sortKeys_arr, shape, Function.comp_def]
  | obj members => rw [sortKeys_obj, shape, shape]
  | null | bool | int | float | str => rfl

theorem step_sortKeys (h : Distinct j) (first : Step) : step first (sortKeys j) = (step first j).map sortKeys := by
  cases j with
  | arr items =>
      rw [sortKeys_arr]
      cases first with
      | index i => simp [step]
      | key name => rfl
  | obj members =>
      rw [sortKeys_obj]
      cases first with
      | index i => rfl
      | key name => exact lookup_sortedMembers h.keys name
  | null | bool | int | float | str => cases first <;> rfl

/-- Sorting changes nothing at any path. -/
theorem follow_sortKeys (h : Distinct j) (path : List Step) :
    follow path (sortKeys j) = (follow path j).map sortKeys := by
  induction path generalizing j with
  | nil => rfl
  | cons first path ih =>
      rw [follow, follow, step_sortKeys h]
      cases inside : step first j with
      | none => rfl
      | some k => exact ih (h.step _ inside)

theorem sameContent_sortKeys (h : Distinct j) : SameContent (sortKeys j) j := by
  intro path
  rw [follow_sortKeys h, Option.map_map]
  exact congrArg (Option.map · _) (funext shape_sortKeys)

/-! ## Values of the same content -/

theorem SameContent.refl (j : Json) : SameContent j j := fun _ => rfl

theorem SameContent.symm (h : SameContent j k) : SameContent k j := fun path => (h path).symm

theorem SameContent.trans {l : Json} (h : SameContent j k) (h' : SameContent k l) : SameContent j l :=
  fun path => (h path).trans (h' path)

theorem SameContent.shape (h : SameContent j k) : Json.shape j = Json.shape k := Option.some.inj (h [])

/-- One step into both. -/
theorem SameContent.step (h : SameContent j k) (first : Step) {a : Json} (inside : Json.step first j = some a) :
    ∃ b, Json.step first k = some b ∧ SameContent a b := by
  have here : ∀ path, ((some a).bind (follow path)).map Json.shape =
      ((Json.step first k).bind (follow path)).map Json.shape := by
    intro path
    rw [← inside]
    exact h (first :: path)
  cases found : Json.step first k with
  | none =>
      have nothing := here []
      rw [found] at nothing
      cases nothing
  | some b =>
      rw [found] at here
      exact ⟨b, rfl, here⟩

theorem SameContent.lookup (h : SameContent (.obj members) (.obj fields)) {name : String} {a : Json}
    (found : Json.lookup name members = some a) : ∃ b, Json.lookup name fields = some b ∧ SameContent a b :=
  h.step (.key name) found

/-- The order of the members is no content. -/
theorem SameContent.perm (h : members.Perm fields) (distinct : (members.map Prod.fst).Nodup) :
    SameContent (.obj members) (.obj fields) := by
  intro path
  cases path with
  | nil => rfl
  | cons first path =>
      have same : Json.step first (.obj members) = Json.step first (.obj fields) := by
        cases first with
        | index i => rfl
        | key name => exact lookup_perm h distinct name
      rw [follow, follow, same]

/-- A list without equal keys is sorted in one way. -/
theorem mergeSort_perm_eq {a b : List (String × Json)} (perm : a.Perm b) (distinct : (a.map Prod.fst).Nodup) :
    (a.mergeSort fun x y => decide (x.1 ≤ y.1)) = b.mergeSort fun x y => decide (x.1 ≤ y.1) := by
  have sorted : ∀ l : List (String × Json),
      (l.mergeSort fun x y => decide (x.1 ≤ y.1)).Pairwise fun x y => x.1 ≤ y.1 := by
    intro l
    let before (x y : String × Json) : Bool := decide (x.1 ≤ y.1)
    have trans : ∀ x y z, before x y → before y z → before x z := by
      intro x y z first second
      simp only [before, decide_eq_true_eq] at first second ⊢
      exact String.le_trans first second
    have total : ∀ x y, before x y || before y x := by
      intro x y
      simp only [before, Bool.or_eq_true, decide_eq_true_eq]
      exact String.le_total _ _
    exact (List.pairwise_mergeSort trans total l).imp of_decide_eq_true
  apply List.Perm.eq_of_pairwise ?_ (sorted a) (sorted b)
  · exact ((List.mergeSort_perm a _).trans perm).trans (List.mergeSort_perm b _).symm
  · intro x y inside inside' first second
    have here : x ∈ a := List.mem_mergeSort.mp inside
    have there : y ∈ a := perm.mem_iff.mpr (List.mem_mergeSort.mp inside')
    exact List.inj_on_of_nodup_map distinct here there (String.le_antisymm first second)

theorem sortedMembers_eq (distinct : (members.map Prod.fst).Nodup) (distinct' : (fields.map Prod.fst).Nodup)
    (same : ∀ name, (Json.lookup name members).map sortKeys = (Json.lookup name fields).map sortKeys) :
    sortedMembers members = sortedMembers fields := by
  have keys : ∀ l : List (String × Json), (l.map Prod.fst).Nodup → ((sortKeysMembers l).map Prod.fst).Nodup := by
    intro l distinct
    rw [sortKeysMembers_eq, List.map_map]
    exact distinct
  have found : ∀ l : List (String × Json), (l.map Prod.fst).Nodup → ∀ name value,
      (name, value) ∈ sortKeysMembers l ↔ (Json.lookup name l).map sortKeys = some value := by
    intro l distinct name value
    rw [← lookup_eq_some (keys l distinct), sortKeysMembers_eq, lookup_map]
  apply mergeSort_perm_eq ?_ (keys members distinct)
  apply (List.perm_ext_iff_of_nodup (keys members distinct).of_map (keys fields distinct').of_map).mpr
  rintro ⟨name, value⟩
  rw [found members distinct, found fields distinct', same]

theorem sortKeys_eq (h : Distinct j) (h' : Distinct k) (same : SameContent j k) : sortKeys j = sortKeys k := by
  induction j using induct generalizing k with
  | atom j notArr notObj =>
      have apart := same.shape
      cases k with
      | arr others =>
          cases j with
          | arr items => exact absurd rfl (notArr items)
          | obj | null | bool | int | float | str => cases apart
      | obj fields =>
          cases j with
          | obj members => exact absurd rfl (notObj members)
          | arr | null | bool | int | float | str => cases apart
      | null | bool | int | float | str =>
          cases j with
          | arr items => exact absurd rfl (notArr items)
          | obj members => exact absurd rfl (notObj members)
          | null | bool | int | float | str => exact congrArg sortKeys apart
  | arr items ih =>
      have apart := same.shape
      cases k with
      | arr others =>
          have lengths : items.length = others.length := by
            have := congrArg List.length (Json.arr.inj apart)
            simpa using this
          rw [sortKeys_arr, sortKeys_arr]
          congr 1
          apply List.ext_getElem (by simpa using lengths)
          intro i inside inside'
          rw [List.getElem_map, List.getElem_map]
          rw [List.length_map] at inside inside'
          obtain ⟨b, there, alike⟩ := same.step (.index i) (List.getElem?_eq_getElem inside)
          obtain rfl : others[i] = b := Option.some.inj ((List.getElem?_eq_getElem inside').symm.trans there)
          exact ih _ (List.getElem_mem inside) (h.item _ (List.getElem_mem _)) (h'.item _ (List.getElem_mem _)) alike
      | obj | null | bool | int | float | str => cases apart
  | obj members ih =>
      have apart := same.shape
      cases k with
      | obj fields =>
          rw [sortKeys_obj, sortKeys_obj]
          congr 1
          apply sortedMembers_eq h.keys h'.keys
          intro name
          cases found : Json.lookup name members with
          | none =>
              cases found' : Json.lookup name fields with
              | none => rfl
              | some b =>
                  obtain ⟨a, there, _⟩ := same.symm.lookup found'
                  rw [found] at there
                  cases there
          | some a =>
              obtain ⟨b, there, alike⟩ := same.lookup found
              have inside := (lookup_eq_some h.keys).mp found
              have inside' := (lookup_eq_some h'.keys).mp there
              rw [there]
              exact congrArg some (ih _ inside (h.member _ inside) (h'.member _ inside') alike)
      | arr | null | bool | int | float | str => cases apart

/-- **Canonical order.** Two values sort to the same value exactly when they have the same content. -/
theorem sortKeys_eq_iff (h : Distinct j) (h' : Distinct k) : sortKeys j = sortKeys k ↔ SameContent j k := by
  constructor
  · intro same
    exact (sameContent_sortKeys h).symm.trans (same ▸ sameContent_sortKeys h')
  · exact sortKeys_eq h h'

end SecureTransfer.Library.Json
