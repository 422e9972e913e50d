import Mathlib.Data.List.TakeWhile

/-! # Patterns of `re`

Anchors, single characters and bounded runs of a class, in a row. The matcher tries the
longest run first and backtracks; which texts it accepts is what the relation says.
-/

namespace SecureTransfer.Library

inductive PatternItem where
  /-- `^` without `re.MULTILINE`. -/
  | start
  /-- `$` without `re.MULTILINE`: the end, or before a newline that ends the text. -/
  | finish
  | literal (c : Char)
  /-- `[class]{least,most}`. -/
  | repeated (inClass : Char → Bool) (least most : Nat)

abbrev Pattern : Type := List PatternItem

namespace Pattern

/-- What each way to match at `pos` leaves of `text`, in the order they are tried. -/
def rests : Pattern → Nat → List Char → List (List Char)
  | [], _, text => [text]
  | .start :: items, pos, text => if pos = 0 then rests items pos text else []
  | .finish :: items, pos, text => if text = [] ∨ text = ['\n'] then rests items pos text else []
  | .literal _ :: _, _, [] => []
  | .literal c :: items, pos, d :: text => if d = c then rests items (pos + 1) text else []
  | .repeated inClass least most :: items, pos, text =>
      let longest := min most (text.takeWhile inClass).length
      ((List.range (longest + 1)).reverse.filter (least ≤ ·)).flatMap fun n =>
        rests items (pos + n) (text.drop n)

/-- `re.match(pattern, text) is not None`. -/
def accepts (items : Pattern) (text : List Char) : Bool := rests items 0 text ≠ []

/-- The items match `text` from `pos` on, up to `rest`. -/
def Matches : Pattern → Nat → List Char → List Char → Prop
  | [], _, text, rest => rest = text
  | .start :: items, pos, text, rest => pos = 0 ∧ Matches items pos text rest
  | .finish :: items, pos, text, rest => (text = [] ∨ text = ['\n']) ∧ Matches items pos text rest
  | .literal c :: items, pos, text, rest => ∃ later, text = c :: later ∧ Matches items (pos + 1) later rest
  | .repeated inClass least most :: items, pos, text, rest =>
      ∃ run later, text = run ++ later ∧ least ≤ run.length ∧ run.length ≤ most ∧
        (∀ c ∈ run, inClass c = true) ∧ Matches items (pos + run.length) later rest

/-- A run of the class at the start of a text is one of its longest run. -/
theorem run_iff {inClass : Char → Bool} {text : List Char} {n : Nat} :
    n ≤ (text.takeWhile inClass).length ↔ n ≤ text.length ∧ ∀ c ∈ text.take n, inClass c = true := by
  induction text generalizing n with
  | nil => simp
  | cons c text ih =>
      cases n with
      | zero => simp
      | succ n =>
          by_cases head : inClass c = true
          · rw [List.takeWhile_cons_of_pos head, List.length_cons, List.length_cons, List.take_succ_cons,
              Nat.succ_le_succ_iff, Nat.succ_le_succ_iff, ih, List.forall_mem_cons]
            simp only [head, true_and]
          · rw [List.takeWhile_cons_of_neg head]
            simp [head]

theorem mem_rests {items : Pattern} {pos : Nat} {text rest : List Char} :
    rest ∈ rests items pos text ↔ Matches items pos text rest := by
  induction items generalizing pos text with
  | nil => simp [rests, Matches]
  | cons item items ih =>
      cases item with
      | start =>
          rw [rests, Matches]
          split
          · rename_i first
            rw [ih]
            exact ⟨fun later => ⟨first, later⟩, And.right⟩
          · rename_i later
            exact ⟨nofun, fun both => absurd both.1 later⟩
      | finish =>
          rw [rests, Matches]
          split
          · rename_i last
            rw [ih]
            exact ⟨fun later => ⟨last, later⟩, And.right⟩
          · rename_i more
            exact ⟨nofun, fun both => absurd both.1 more⟩
      | literal c =>
          cases text with
          | nil => simp [rests, Matches]
          | cons d text =>
              by_cases same : d = c
              · subst same
                simp only [rests, Matches, if_true, ih]
                constructor
                · exact fun later => ⟨text, rfl, later⟩
                · rintro ⟨later, split, matched⟩
                  rwa [(List.cons.inj split).2]
              · simp only [rests, Matches, if_neg same, List.not_mem_nil, false_iff]
                rintro ⟨later, split, _⟩
                exact same (List.cons.inj split).1
      | repeated inClass least most =>
          simp only [rests, Matches, List.mem_flatMap, List.mem_filter, List.mem_reverse, List.mem_range,
            decide_eq_true_eq, ih]
          constructor
          · rintro ⟨n, ⟨longest, enough⟩, matched⟩
            obtain ⟨inside, classes⟩ := run_iff.mp (show n ≤ (text.takeWhile inClass).length by omega)
            have size : (text.take n).length = n := by rw [List.length_take]; omega
            refine ⟨text.take n, text.drop n, (List.take_append_drop n text).symm, ?_, ?_, classes, ?_⟩
            · omega
            · omega
            · rwa [size]
          · rintro ⟨run, later, rfl, enough, few, classes, matched⟩
            have longest : run.length ≤ ((run ++ later).takeWhile inClass).length := by
              rw [run_iff, List.take_left' rfl, List.length_append]
              exact ⟨Nat.le_add_right _ _, classes⟩
            refine ⟨run.length, ⟨by omega, enough⟩, ?_⟩
            rwa [List.drop_left' rfl]

theorem accepts_iff {items : Pattern} {text : List Char} :
    accepts items text = true ↔ ∃ rest, Matches items 0 text rest := by
  rw [accepts, decide_eq_true_eq, ← List.isEmpty_eq_false_iff, List.isEmpty_eq_false_iff_exists_mem]
  exact exists_congr fun rest => mem_rests

end Pattern

end SecureTransfer.Library
