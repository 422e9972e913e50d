import SecureTransfer.Library.PyValues

/-! # Texts that stop short

A scan that came to an end reads the same when more text follows. The printed text of an
object ends with its bracket, so no text that stops before that is one.
-/

namespace SecureTransfer.Library.Json

/-! ## Strings -/

theorem push_eq_some {c : Char} {scanned : Option (List Char × List Char)} {chars rest : List Char}
    (h : push c scanned = some (chars, rest)) : ∃ tail, scanned = some (tail, rest) ∧ chars = c :: tail := by
  obtain ⟨⟨tail, rest'⟩, found, same⟩ := Option.map_eq_some_iff.mp h
  cases same
  exact ⟨tail, found, rfl⟩

theorem scanString_append {text chars rest : List Char} (h : scanString text = some (chars, rest))
    (more : List Char) : scanString (text ++ more) = some (chars, rest ++ more) := by
  fun_induction scanString text generalizing chars rest with
  | case1 | case3 | case4 | case6 | case7 | case8 | case11 | case12 => cases h
  | case2 =>
      cases h
      rfl
  | case5 a b c d n known high e f g i text m known' low ih =>
      obtain ⟨tail, scanned, rfl⟩ := push_eq_some h
      simp [scanString, known, known', high, low, ih scanned, push]
  | case9 a b c d text n known notHigh notLow ih =>
      obtain ⟨tail, scanned, rfl⟩ := push_eq_some h
      simp [scanString, known, notHigh, notLow, ih scanned, push]
  | case10 c text _ e known ih =>
      obtain ⟨tail, scanned, rfl⟩ := push_eq_some h
      have notU : c ≠ 'u' := by
        rintro rfl
        cases known
      rw [List.cons_append, List.cons_append, scanString_short notU, known]
      simp only [ih scanned, push, Option.map_some]
  | case13 c text notQuote _ _ ordinary ih =>
      obtain ⟨tail, scanned, rfl⟩ := push_eq_some h
      rw [not_or] at ordinary
      rw [List.cons_append, scanString_plain notQuote ordinary.2 (Char.not_lt.mp ordinary.1), ih scanned]
      rfl

/-! ## Numbers -/

theorem span_append {p : Char → Bool} {text rest : List Char} {c : Char} (stops : text.dropWhile p = c :: rest)
    (more : List Char) :
    (text ++ more).takeWhile p = text.takeWhile p ∧ (text ++ more).dropWhile p = text.dropWhile p ++ more := by
  induction text with
  | nil => cases stops
  | cons d text ih =>
      cases here : p d with
      | true =>
          rw [List.dropWhile_cons_of_pos here] at stops
          simp [here, ih stops]
      | false => simp [here]

theorem drop_takeWhile (p : Char → Bool) (text : List Char) :
    text.drop (text.takeWhile p).length = text.dropWhile p := by
  conv => lhs; rw [← List.takeWhile_append_dropWhile (p := p) (l := text)]
  exact List.drop_left' (by rw [List.takeWhile_append_dropWhile])

theorem scanFraction_append {text rest : List Char} {c : Char}
    (stops : text.drop (scanFraction text).length = c :: rest) (notPoint : c ≠ '.') (more : List Char) :
    scanFraction (text ++ more) = scanFraction text := by
  unfold scanFraction at stops ⊢
  split at stops
  · rename_i text
    by_cases none_found : text.takeWhile Char.isDigit = []
    · rw [if_pos none_found] at stops
      exact absurd (List.cons.inj stops).1.symm notPoint
    · rw [if_neg none_found, List.length_cons, List.drop_succ_cons, drop_takeWhile] at stops
      simp only [List.cons_append, (span_append stops more).1]
  · rename_i noPoint
    cases text with
    | nil => cases stops
    | cons d text =>
        rw [List.cons_append]
        split
        · rename_i point
          exact (noPoint text (by rw [(List.cons.inj point).1])).elim
        · rfl

theorem scanExponent_append {text rest : List Char} {c : Char}
    (stops : text.drop (scanExponent text).length = c :: rest) (notE : c ≠ 'e' ∧ c ≠ 'E') (more : List Char) :
    scanExponent (text ++ more) = scanExponent text := by
  cases text with
  | nil => cases stops
  | cons d text =>
      simp only [List.cons_append, scanExponent] at stops ⊢
      by_cases letter : d = 'e' ∨ d = 'E'
      · rw [if_pos letter, if_pos letter]
        rw [if_pos letter] at stops
        cases text with
        | nil =>
            obtain ⟨rfl, _⟩ := List.cons.inj stops
            exact absurd letter (not_or.mpr notE)
        | cons f text =>
            -- whether a sign stands there shows on the first character
            have sign : ((f :: text ++ more).takeWhile fun c => c = '+' || c = '-').take 1 =
                ((f :: text).takeWhile fun c => c = '+' || c = '-').take 1 := by
              cases signed : (decide (f = '+') || decide (f = '-')) <;> simp [signed]
            have short : (((f :: text).takeWhile fun c => c = '+' || c = '-').take 1).length ≤
                (f :: text).length := by
              rw [List.length_take, List.length_cons]
              omega
            rw [sign, List.drop_append_of_le_length short]
            by_cases none_found : ((f :: text).drop
                (((f :: text).takeWhile fun c => c = '+' || c = '-').take 1).length).takeWhile Char.isDigit = []
            · rw [if_pos none_found] at stops
              obtain ⟨rfl, _⟩ := List.cons.inj stops
              exact absurd letter (not_or.mpr notE)
            · rw [if_neg none_found, List.length_cons, List.drop_succ_cons, List.length_append,
                ← List.drop_drop, drop_takeWhile] at stops
              rw [(span_append stops more).1]
      · rw [if_neg letter, if_neg letter]

theorem drop_append_of_cons {text rest : List Char} {c : Char} {n : Nat} (left : text.drop n = c :: rest)
    (more : List Char) : (text ++ more).drop n = text.drop n ++ more := by
  apply List.drop_append_of_le_length
  have size := congrArg List.length left
  rw [List.length_drop, List.length_cons] at size
  omega

/-- A number that another character ends reads the same when more follows. -/
theorem scanUnsigned_append {negative : Bool} {text rest : List Char} {c : Char} {value : Json}
    (h : scanUnsigned negative text = some (value, c :: rest)) (stops : Delimited (c :: rest))
    (more : List Char) :
    scanUnsigned negative (text ++ more) = some (value, c :: rest ++ more) := by
  obtain ⟨_, notPoint, notE⟩ := stops c rfl
  simp only [scanUnsigned] at h ⊢
  generalize whole : text.dropWhile Char.isDigit = tail at h
  have final : (tail.drop (scanFraction tail).length).drop
      (scanExponent (tail.drop (scanFraction tail).length)).length = c :: rest := by
    split at h
    · cases h
    split at h
    · rename_i integer
      obtain ⟨noFraction, noExponent⟩ := List.append_eq_nil_iff.mp integer
      cases h
      rw [noExponent, noFraction]
      rfl
    · rw [List.drop_drop]
      exact (Prod.mk.inj (Option.some.inj h)).2
  have exponent := scanExponent_append final notE more
  cases after : tail.drop (scanFraction tail).length with
  | nil =>
      rw [after] at final
      cases final
  | cons d later =>
      have notPoint' : d ≠ '.' := by
        rintro rfl
        rw [after] at final
        exact notPoint (List.cons.inj final).1.symm
      have fraction := scanFraction_append after notPoint' more
      cases tail with
      | nil => cases after
      | cons e tail =>
          obtain ⟨digits, left⟩ := span_append whole more
          rw [digits, left, whole, fraction, drop_append_of_cons after, exponent]
          split at h
          · cases h
          rename_i number
          rw [if_neg number]
          split at h
          · rename_i integer
            obtain ⟨noFraction, noExponent⟩ := List.append_eq_nil_iff.mp integer
            cases h
            rw [if_pos integer]
          · rename_i noInteger
            obtain ⟨value, rest⟩ := Prod.mk.inj (Option.some.inj h)
            rw [if_neg noInteger, drop_append_of_cons rest, value, rest]

theorem scanUnsigned_head {negative : Bool} {text : List Char} {found : Json × List Char}
    (h : scanUnsigned negative text = some found) : ∃ c rest, text = c :: rest ∧ c.isDigit = true := by
  cases text with
  | nil => cases h
  | cons c rest =>
      refine ⟨c, rest, rfl, ?_⟩
      by_contra other
      rw [scanUnsigned, if_pos (.inl (List.takeWhile_cons_of_neg other))] at h
      cases h

theorem scanNegative_append {text rest : List Char} {c : Char} {value : Json}
    (h : scanNegative text = some (value, c :: rest)) (stops : Delimited (c :: rest)) (more : List Char) :
    scanNegative (text ++ more) = some (value, c :: rest ++ more) := by
  unfold scanNegative at h
  split at h
  · cases h
    rfl
  · obtain ⟨d, tail, rfl, digit⟩ := scanUnsigned_head h
    rw [List.cons_append, scanNegative_digit digit]
    exact scanUnsigned_append h stops more

theorem scanBare_append {text rest : List Char} {c : Char} {value : Json}
    (h : scanBare text = some (value, c :: rest)) (stops : Delimited (c :: rest)) (more : List Char) :
    scanBare (text ++ more) = some (value, c :: rest ++ more) := by
  unfold scanBare at h
  split at h
  · cases h
    rfl
  · cases h
    rfl
  · cases h
    rfl
  · cases h
    rfl
  · cases h
    rfl
  · obtain ⟨d, tail, rfl, digit⟩ := scanUnsigned_head h
    rw [List.cons_append, scanBare_digit digit]
    exact scanUnsigned_append h stops more

/-! ## Values -/

theorem skipSpace_append {text rest : List Char} {c : Char} (stops : skipSpace text = c :: rest)
    (more : List Char) : skipSpace (text ++ more) = c :: rest ++ more := by
  rw [skipSpace, (span_append stops more).2]
  exact congrArg (· ++ more) stops

theorem Delimited.of_skipSpace {rest tail : List Char} {c : Char} (next : skipSpace rest = c :: tail)
    (stops : Delimited (c :: tail)) : ∃ d later, rest = d :: later ∧ Delimited (d :: later) := by
  cases rest with
  | nil => cases next
  | cons d later =>
      refine ⟨d, later, rfl, ?_⟩
      cases space : isSpace d with
      | true =>
          simp only [isSpace, Bool.or_eq_true, decide_eq_true_eq] at space
          rcases space with ((rfl | rfl) | rfl) | rfl <;> exact .cons later (by decide)
      | false =>
          rw [skipSpace_stop space] at next
          rw [next]
          exact stops

theorem parseValue_nil (fuel : Nat) : parseValue fuel [] = none := by
  cases fuel <;> rfl

theorem parseItems_nil (fuel : Nat) : parseItems fuel [] = none := by
  cases fuel with
  | zero => rfl
  | succ fuel => rw [parseItems, parseValue_nil]

theorem parseMembers_nil (fuel : Nat) : parseMembers fuel [] = none := by
  cases fuel <;> rfl

/-- A scan that is not `none` on the empty text started at a character. -/
theorem exists_cons {α : Type} {scan : List Char → Option α} {text : List Char} {found : α}
    (nothing : scan [] = none) (h : scan text = some found) : ∃ c rest, text = c :: rest := by
  cases text with
  | nil =>
      rw [nothing] at h
      cases h
  | cons c rest => exact ⟨c, rest, rfl⟩

/-- What `scan` reads, `scan'` reads where more text follows, if `P` holds of what was left. -/
def Extends {α : Type} (P : List Char → Prop) (scan scan' : List Char → Option (α × List Char)) : Prop :=
  ∀ text value rest, P rest → scan text = some (value, rest) →
    ∀ more, scan' (text ++ more) = some (value, rest ++ more)

/-- Something is left, and it does not go on with a number before it. -/
def Stops (rest : List Char) : Prop := ∃ c tail, rest = c :: tail ∧ Delimited (c :: tail)

section Step

variable {fuel fuel' : Nat}

theorem parseItems_extends (values : Extends Stops (parseValue fuel) (parseValue fuel'))
    (items : Extends (fun _ => True) (parseItems fuel) (parseItems fuel')) :
    Extends (fun _ => True) (parseItems (fuel + 1)) (parseItems (fuel' + 1)) := by
  intro text found left _ h more
  rw [parseItems] at h ⊢
  cases first : parseValue fuel text with
  | none =>
      rw [first] at h
      cases h
  | some read =>
      obtain ⟨item, rest⟩ := read
      simp only [first] at h
      split at h
      · rename_i next
        cases h
        have stops := Delimited.of_skipSpace next (.cons _ (by decide))
        simp only [values text item rest stops first more, skipSpace_append next, List.cons_append]
      · rename_i later next
        have stops := Delimited.of_skipSpace next (.cons _ (by decide))
        obtain ⟨⟨others, left'⟩, parsed, same⟩ := Option.map_eq_some_iff.mp h
        cases same
        obtain ⟨c, tail, begins⟩ := exists_cons (parseItems_nil fuel) parsed
        rw [begins] at parsed
        simp only [values text item rest stops first more, skipSpace_append next, List.cons_append,
          skipSpace_append begins]
        rw [← List.cons_append, items _ _ _ trivial parsed more]
        rfl
      · cases h

theorem parseMembers_extends (values : Extends Stops (parseValue fuel) (parseValue fuel'))
    (members : Extends (fun _ => True) (parseMembers fuel) (parseMembers fuel')) :
    Extends (fun _ => True) (parseMembers (fuel + 1)) (parseMembers (fuel' + 1)) := by
  intro text found left _ h more
  obtain ⟨head, text, rfl⟩ := exists_cons (parseMembers_nil _) h
  rw [parseMembers] at h
  rw [List.cons_append, parseMembers]
  split at h
  · cases h
  rename_i quote
  rw [if_neg quote]
  cases name : scanString text with
  | none =>
      rw [name] at h
      cases h
  | some read =>
      obtain ⟨key, rest⟩ := read
      simp only [name] at h
      split at h
      · rename_i afterKey colon
        cases first : parseValue fuel (skipSpace afterKey) with
        | none =>
            rw [first] at h
            cases h
        | some read =>
            obtain ⟨value, rest'⟩ := read
            simp only [first] at h
            obtain ⟨c, tail, begins⟩ := exists_cons (parseValue_nil fuel) first
            rw [begins] at first
            split at h
            · rename_i next
              cases h
              have stops := Delimited.of_skipSpace next (.cons _ (by decide))
              have again := values _ value rest' stops first more
              simp only [scanString_append name, skipSpace_append colon, List.cons_append,
                skipSpace_append begins] at again ⊢
              simp only [again, skipSpace_append next, List.cons_append]
            · rename_i later next
              have stops := Delimited.of_skipSpace next (.cons _ (by decide))
              have again := values _ value rest' stops first more
              obtain ⟨⟨others, left'⟩, parsed, same⟩ := Option.map_eq_some_iff.mp h
              cases same
              obtain ⟨d, tail', begins'⟩ := exists_cons (parseMembers_nil fuel) parsed
              rw [begins'] at parsed
              have others := members _ _ _ trivial parsed more
              simp only [scanString_append name, skipSpace_append colon, List.cons_append,
                skipSpace_append begins] at again others ⊢
              simp only [again, skipSpace_append next, List.cons_append, skipSpace_append begins', others,
                Option.map_some]
            · cases h
      · cases h

theorem parseObject_extends (members : Extends (fun _ => True) (parseMembers fuel) (parseMembers fuel'))
    {text left : List Char} {value : Json} (h : parseValue (fuel + 1) ('\x7b' :: text) = some (value, left))
    (more : List Char) : parseValue (fuel' + 1) ('\x7b' :: text ++ more) = some (value, left ++ more) := by
  rw [parseValue, if_neg (by decide), if_neg (by decide), if_pos rfl] at h
  rw [List.cons_append, parseValue, if_neg (by decide), if_neg (by decide), if_pos rfl]
  split at h
  · rename_i closed
    cases h
    rw [skipSpace_append closed]
    rfl
  · rename_i rest notClosed
    obtain ⟨⟨found, left⟩, parsed, same⟩ := Option.map_eq_some_iff.mp h
    cases same
    obtain ⟨d, tail, begins⟩ := exists_cons (parseMembers_nil fuel) parsed
    rw [begins] at parsed
    rw [skipSpace_append begins, List.cons_append]
    split
    · rename_i same
      rw [(List.cons.inj same).1] at begins
      exact absurd begins (notClosed _)
    · rw [← List.cons_append, members _ _ _ trivial parsed more]
      rfl

theorem parseValue_extends (items : Extends (fun _ => True) (parseItems fuel) (parseItems fuel'))
    (members : Extends (fun _ => True) (parseMembers fuel) (parseMembers fuel')) :
    Extends Stops (parseValue (fuel + 1)) (parseValue (fuel' + 1)) := by
  rintro text found _ ⟨c, tail, rfl, stops⟩ h more
  obtain ⟨head, text, rfl⟩ := exists_cons (parseValue_nil _) h
  by_cases brace : head = '\x7b'
  · subst brace
    exact parseObject_extends members h more
  rw [parseValue] at h
  rw [List.cons_append, parseValue]
  split at h
  · rename_i quote
    obtain ⟨⟨chars, left⟩, scanned, same⟩ := Option.map_eq_some_iff.mp h
    cases same
    rw [if_pos quote, scanString_append scanned]
    rfl
  rename_i noQuote
  rw [if_neg noQuote]
  split at h
  · rename_i bracket
    rw [if_pos bracket]
    split at h
    · rename_i closed
      cases h
      rw [skipSpace_append closed]
      rfl
    · rename_i rest notClosed
      obtain ⟨⟨found, left⟩, parsed, same⟩ := Option.map_eq_some_iff.mp h
      cases same
      obtain ⟨d, tail', begins⟩ := exists_cons (parseItems_nil fuel) parsed
      rw [begins] at parsed
      rw [skipSpace_append begins, List.cons_append]
      split
      · rename_i same
        rw [(List.cons.inj same).1] at begins
        exact absurd begins (notClosed _)
      · rename_i same
        rw [← List.cons_append, items _ _ _ trivial parsed more]
        rfl
  rename_i noBracket
  rw [if_neg noBracket, if_neg brace]
  split at h
  · rename_i minus
    rw [if_pos minus]
    exact scanNegative_append h stops more
  · rename_i noMinus
    rw [if_neg noMinus, ← List.cons_append]
    exact scanBare_append h stops more

end Step

theorem parse_extends {fuel fuel' : Nat} (enough : fuel ≤ fuel') :
    Extends Stops (parseValue fuel) (parseValue fuel') ∧
      Extends (fun _ => True) (parseItems fuel) (parseItems fuel') ∧
      Extends (fun _ => True) (parseMembers fuel) (parseMembers fuel') := by
  induction fuel generalizing fuel' with
  | zero =>
      refine ⟨?_, ?_, ?_⟩ <;>
        (intro _ _ _ _ h
         cases h)
  | succ fuel ih =>
      obtain ⟨n, rfl⟩ : ∃ n, fuel' = n + 1 := ⟨fuel' - 1, by omega⟩
      obtain ⟨values, items, members⟩ := ih (by omega : fuel ≤ n)
      exact ⟨parseValue_extends items members, parseItems_extends values items,
        parseMembers_extends values members⟩

/-! ## Texts of objects -/

/-- **No beginning of an object's text is a text**, but the whole of it. -/
theorem loads_beginning (spaced : Bool) {members : List (String × Json)} (h : plain (.obj members) = true)
    {part rest : List Char} (split : dumps spaced (.obj members) = part ++ rest) (short : rest ≠ []) :
    loads part = none := by
  cases part with
  | nil => rfl
  | cons c part =>
      obtain rfl : '\x7b' = c := (List.cons.inj split).1
      have whole := parseValue_dumps spaced ((dumps spaced (.obj members)).length + 1) [] h (by omega) .nil
      rw [List.append_nil, split] at whole
      cases first : parseValue (('\x7b' :: part).length + 1) ('\x7b' :: part) with
      | none => rw [loads, skipSpace_stop (by decide), first]
      | some read =>
          -- with the rest behind it, it would be read as it was, and the rest would be left
          obtain ⟨value, left⟩ := read
          have longer : ('\x7b' :: part).length ≤ ('\x7b' :: part ++ rest).length := by simp
          have again := parseObject_extends (parse_extends longer).2.2 first rest
          rw [whole] at again
          have nothing := (Prod.mk.inj (Option.some.inj again)).2
          exact absurd (List.append_eq_nil_iff.mp nothing.symm).2 short

/-- A file that holds less than the whole text of an object does not load. -/
theorem loadFile_beginning {members : List (String × Json)} (h : plain (.obj members) = true) {part : Bytes}
    (start : part <+: dumpFile (.obj members)) (short : part ≠ dumpFile (.obj members)) :
    ∀ value, loadFile part ≠ .ok (some value) := by
  intro value loaded
  cases decoded : decodeText part with
  | none =>
      simp only [loadFile, decoded] at loaded
      cases loaded
  | some text =>
      obtain rfl := decodeText_sound decoded
      obtain ⟨rest, split⟩ := encodeText_prefix start
      have nothing : loads text = none := by
        apply loads_beginning true h split.symm
        rintro rfl
        rw [List.append_nil] at split
        exact short (congrArg encodeText split)
      simp only [loadFile, decoded, nothing] at loaded
      cases loaded

end SecureTransfer.Library.Json
