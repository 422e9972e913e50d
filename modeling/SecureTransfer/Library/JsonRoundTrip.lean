import SecureTransfer.Library.Json
import Mathlib.Data.List.TakeWhile
import Mathlib.Tactic.SplitIfs

/-! # `loads` inverts `dumps`

The printed text of a value without floats is parsed back to that value, in the
spaced and in the compact form, also when more text follows.
-/

namespace SecureTransfer.Library.Json

/-! ## Numbers -/

theorem toDigits_digit {n : Nat} {c : Char} (h : c ∈ Nat.toDigits 10 n) : c.isDigit = true :=
  Nat.isDigit_of_mem_toDigits (by decide) (by decide) h

theorem toDigits_cons (n : Nat) : ∃ c rest, Nat.toDigits 10 n = c :: rest ∧ c.isDigit = true := by
  cases digits : Nat.toDigits 10 n with
  | nil => exact absurd digits Nat.toDigits_ne_nil
  | cons c rest => exact ⟨c, rest, rfl, toDigits_digit (n := n) (by rw [digits]; exact List.mem_cons_self)⟩

/-- Only zero prints with a leading `0`. -/
theorem toDigits_head (n : Nat) :
    (Nat.toDigits 10 n).head? = some '0' → Nat.toDigits 10 n = ['0'] := by
  induction n using Nat.strong_induction_on with
  | _ n ih =>
      intro zero
      by_cases small : n < 10
      · rw [Nat.toDigits_of_lt_base small] at zero ⊢
        exact congrArg (fun c => [c]) (Option.some.inj zero)
      · have split := Nat.toDigits_of_base_le (b := 10) (n := n) (by decide) (by omega)
        have nonempty : Nat.toDigits 10 (n / 10) ≠ [] := Nat.toDigits_ne_nil
        rw [split, List.head?_append, List.head?_eq_some_head nonempty, Option.some_or,
          ← List.head?_eq_some_head nonempty] at zero
        have only := ih (n / 10) (by omega) zero
        have value := Nat.ofDigitChars_ten_toDigits (n := n / 10)
        rw [only] at value
        have : n / 10 = 0 := by rw [← value]; decide
        omega

/-- A text that does not go on with the number before it. -/
def Delimited (rest : List Char) : Prop :=
  ∀ c ∈ rest.head?, c.isDigit = false ∧ c ≠ '.' ∧ c ≠ 'e' ∧ c ≠ 'E'

theorem Delimited.nil : Delimited [] := by
  intro c member
  cases member

theorem Delimited.cons {c : Char} (rest : List Char)
    (h : c.isDigit = false ∧ c ≠ '.' ∧ c ≠ 'e' ∧ c ≠ 'E') : Delimited (c :: rest) := by
  intro d member
  cases member
  exact h

theorem Delimited.digits {rest : List Char} (h : Delimited rest) (n : Nat) :
    (Nat.toDigits 10 n ++ rest).takeWhile Char.isDigit = Nat.toDigits 10 n ∧
      (Nat.toDigits 10 n ++ rest).dropWhile Char.isDigit = rest := by
  have all : ∀ c ∈ Nat.toDigits 10 n, c.isDigit = true := fun c member => toDigits_digit member
  cases rest with
  | nil =>
      rw [List.append_nil, List.takeWhile_eq_self_iff.mpr all, List.dropWhile_eq_nil_iff.mpr all]
      exact ⟨rfl, rfl⟩
  | cons c rest =>
      have stop := (h c rfl).1
      rw [List.takeWhile_append_of_pos all, List.dropWhile_append_of_pos all,
        List.takeWhile_cons_of_neg (by simp [stop]), List.dropWhile_cons_of_neg (by simp [stop]),
        List.append_nil]
      exact ⟨rfl, rfl⟩

theorem Delimited.fraction {rest : List Char} (h : Delimited rest) : scanFraction rest = [] := by
  cases rest with
  | nil => rfl
  | cons c rest =>
      have := (h c rfl).2.1
      simp [scanFraction, this]

theorem Delimited.exponent {rest : List Char} (h : Delimited rest) : scanExponent rest = [] := by
  cases rest with
  | nil => rfl
  | cons c rest =>
      obtain ⟨_, _, notLower, notUpper⟩ := h c rfl
      simp [scanExponent, notLower, notUpper]

theorem scanUnsigned_toDigits {rest : List Char} (h : Delimited rest) (negative : Bool) (n : Nat) :
    scanUnsigned negative (Nat.toDigits 10 n ++ rest) =
      some (.int (if negative then -(n : Int) else n), rest) := by
  obtain ⟨taken, left⟩ := h.digits n
  have shape : ¬ (Nat.toDigits 10 n = [] ∨
      ((Nat.toDigits 10 n).head? = some '0' ∧ Nat.toDigits 10 n ≠ ['0'])) := by
    rintro (empty | ⟨zero, more⟩)
    · exact Nat.toDigits_ne_nil empty
    · exact more (toDigits_head n zero)
  simp only [scanUnsigned, taken, left, if_neg shape, h.fraction, List.length_nil, List.drop_zero,
    h.exponent, List.append_nil, if_true, Nat.ofDigitChars_ten_toDigits]

/-! ## Strings -/

theorem hex4Value_hex4 {n : Nat} (h : n < 65536) (rest : List Char) :
    ∃ a b c d, hex4 n ++ rest = a :: b :: c :: d :: rest ∧ hex4Value a b c d = some n := by
  refine ⟨_, _, _, _, rfl, ?_⟩
  have w := (hexChar_table (n / 4096 % 16) (by omega)).1
  have x := (hexChar_table (n / 256 % 16) (by omega)).1
  have y := (hexChar_table (n / 16 % 16) (by omega)).1
  have z := (hexChar_table (n % 16) (by omega)).1
  simp only [hex4Value, w, x, y, z, Option.some.injEq]
  omega

theorem unescape_shortEscape {c e : Char} (h : shortEscape c = some e) :
    unescape e = some c ∧ e ≠ 'u' := by
  unfold shortEscape at h
  split_ifs at h
  all_goals
    subst_vars
    cases h
    decide

theorem scanString_short {e : Char} (notU : e ≠ 'u') (rest : List Char) :
    scanString ('\\' :: e :: rest) =
      match unescape e with
      | some c => push c (scanString rest)
      | none => none := by
  cases known : unescape e <;> simp [scanString, notU, known]

theorem scanString_plain {c : Char} (notQuote : c ≠ '"') (notSlash : c ≠ '\\')
    (printable : ' ' ≤ c) (rest : List Char) :
    scanString (c :: rest) = push c (scanString rest) := by
  have notControl : ¬ (c < ' ' ∨ c = '\\') := by
    rintro (low | slash)
    · exact absurd printable (Char.not_le.mpr low)
    · exact notSlash slash
  rw [scanString.eq_def]
  split <;> simp_all

theorem scanString_unicode {n : Nat} (small : n < 65536) (notHigh : ¬ (0xd800 ≤ n ∧ n < 0xdc00))
    (notLow : ¬ (0xdc00 ≤ n ∧ n < 0xe000)) (rest : List Char) :
    scanString ('\\' :: 'u' :: (hex4 n ++ rest)) = push (Char.ofNat n) (scanString rest) := by
  obtain ⟨a, b, c, d, split, value⟩ := hex4Value_hex4 small rest
  rw [split, scanString]
  simp only [value, if_neg notHigh, if_neg notLow]

theorem scanString_surrogates {n m : Nat} (high : 0xd800 ≤ n ∧ n < 0xdc00)
    (low : 0xdc00 ≤ m ∧ m < 0xe000) (rest : List Char) :
    scanString ('\\' :: 'u' :: (hex4 n ++ '\\' :: 'u' :: (hex4 m ++ rest))) =
      push (Char.ofNat (0x10000 + (n - 0xd800) * 0x400 + (m - 0xdc00))) (scanString rest) := by
  obtain ⟨a, b, c, d, split, value⟩ :=
    hex4Value_hex4 (n := n) (by omega) ('\\' :: 'u' :: (hex4 m ++ rest))
  obtain ⟨e, f, g, h, split', value'⟩ := hex4Value_hex4 (n := m) (by omega) rest
  rw [split, split', scanString]
  simp only [value, value', if_pos high, if_pos low]

/-- No character is a surrogate, and none is above `0x10ffff`. -/
theorem char_range (c : Char) :
    (c.toNat < 0xd800 ∨ 0xe000 ≤ c.toNat) ∧ c.toNat < 0x110000 := by
  have valid := c.valid
  have same : c.val.toNat = c.toNat := rfl
  simp only [UInt32.isValidChar, Nat.isValidChar, same] at valid
  omega

theorem scanString_escapeChar (c : Char) (rest : List Char) :
    scanString (escapeChar c ++ rest) = push c (scanString rest) := by
  obtain ⟨notSurrogate, bounded⟩ := char_range c
  unfold escapeChar
  split
  · rename_i e short
    obtain ⟨back, notU⟩ := unescape_shortEscape short
    rw [List.cons_append, List.singleton_append, scanString_short notU]
    simp only [back]
  · rename_i long
    have notQuote : c ≠ '"' := by
      rintro rfl
      exact absurd long (by decide)
    have notSlash : c ≠ '\\' := by
      rintro rfl
      exact absurd long (by decide)
    split
    · rename_i printable
      exact scanString_plain notQuote notSlash printable.1 rest
    · split
      · rename_i small
        rw [List.cons_append, List.cons_append,
          scanString_unicode small (by omega) (by omega), Char.ofNat_toNat]
      · rename_i large
        have joined : 0x10000 + (0xd800 + (c.toNat - 0x10000) / 0x400 - 0xd800) * 0x400 +
            (0xdc00 + (c.toNat - 0x10000) % 0x400 - 0xdc00) = c.toNat := by omega
        simp only [List.cons_append, List.append_assoc]
        rw [scanString_surrogates (by omega) (by omega), joined, Char.ofNat_toNat]

theorem scanString_strText (s : String) (rest : List Char) :
    scanString (s.toList.flatMap escapeChar ++ '"' :: rest) = some (s.toList, rest) := by
  induction s.toList with
  | nil => rfl
  | cons c text ih =>
      rw [List.flatMap_cons, List.append_assoc, scanString_escapeChar, ih]
      rfl

/-! ## Values -/

mutual
/-- The value contains no float. -/
def plain : Json → Bool
  | .float _ => false
  | .arr items => plainItems items
  | .obj members => plainMembers members
  | _ => true

def plainItems : List Json → Bool
  | [] => true
  | item :: rest => plain item && plainItems rest

def plainMembers : List (String × Json) → Bool
  | [] => true
  | (_, value) :: rest => plain value && plainMembers rest
end

/-- What a value's text starts with. -/
def Starts (text : List Char) : Prop :=
  ∃ c rest, text = c :: rest ∧ isSpace c = false ∧ c ≠ ']'

theorem starts_toDigits (n : Nat) : Starts (Nat.toDigits 10 n) := by
  obtain ⟨c, rest, digits, digit⟩ := toDigits_cons n
  refine ⟨c, rest, digits, ?_, ?_⟩
  · by_contra space
    simp only [isSpace, Bool.or_eq_true, decide_eq_true_eq, Bool.not_eq_false] at space
    rcases space with ((rfl | rfl) | rfl) | rfl <;> exact absurd digit (by decide)
  · rintro rfl
    exact absurd digit (by decide)

theorem starts_dumps (spaced : Bool) {j : Json} (h : plain j = true) : Starts (dumps spaced j) := by
  cases j with
  | null => exact ⟨_, _, rfl, by decide, by decide⟩
  | bool b => cases b <;> exact ⟨_, _, rfl, by decide, by decide⟩
  | int i =>
      cases i with
      | ofNat n => exact starts_toDigits n
      | negSucc n => exact ⟨_, _, rfl, by decide, by decide⟩
  | float lexeme => cases h
  | str s => exact ⟨_, _, rfl, by decide, by decide⟩
  | arr items => exact ⟨_, _, rfl, by decide, by decide⟩
  | obj members => exact ⟨_, _, rfl, by decide, by decide⟩

theorem starts_dumpsItems (spaced : Bool) {item : Json} (items : List Json)
    (h : plain item = true) : Starts (dumpsItems spaced (item :: items)) := by
  obtain ⟨c, text, same, notSpace, notClose⟩ := starts_dumps spaced h
  cases items with
  | nil => exact ⟨c, text, same, notSpace, notClose⟩
  | cons next items =>
      refine ⟨c, text ++ ',' :: (padding spaced ++ dumpsItems spaced (next :: items)), ?_,
        notSpace, notClose⟩
      rw [dumpsItems, same, List.cons_append]
      exact List.cons_ne_nil _ _

theorem Starts.skipSpace {text : List Char} (h : Starts text) (spaced : Bool) (rest : List Char) :
    skipSpace (padding spaced ++ (text ++ rest)) = text ++ rest := by
  obtain ⟨c, tail, rfl, notSpace, _⟩ := h
  have blank : isSpace ' ' = true := by decide
  cases spaced <;> simp [Json.skipSpace, padding, notSpace, blank]

theorem skipSpace_stop {c : Char} (h : isSpace c = false) (rest : List Char) :
    skipSpace (c :: rest) = c :: rest := by
  simp [skipSpace, h]

/-- A digit starts neither a constant nor any other value. -/
theorem digit_ne {c d : Char} (digit : c.isDigit = true) (h : d.isDigit = false) : c ≠ d := by
  rintro rfl
  rw [digit] at h
  cases h

theorem scanBare_digit {c : Char} (digit : c.isDigit = true) (text : List Char) :
    scanBare (c :: text) = scanUnsigned false (c :: text) := by
  unfold scanBare
  split
  all_goals first
    | rfl
    | rename_i same
      rw [(List.cons.inj same).1] at digit
      exact absurd digit (by decide)

theorem scanNegative_digit {c : Char} (digit : c.isDigit = true) (text : List Char) :
    scanNegative (c :: text) = scanUnsigned true (c :: text) := by
  unfold scanNegative
  split
  · rename_i same
    rw [(List.cons.inj same).1] at digit
    exact absurd digit (by decide)
  · rfl

theorem parseValue_digits (fuel n : Nat) {rest : List Char} (h : Delimited rest) :
    parseValue (fuel + 1) (Nat.toDigits 10 n ++ rest) = some (.int n, rest) := by
  have scanned := scanUnsigned_toDigits h false n
  obtain ⟨c, text, digits, digit⟩ := toDigits_cons n
  rw [digits, List.cons_append] at scanned
  rw [digits, List.cons_append, parseValue, if_neg (digit_ne digit (by decide)),
    if_neg (digit_ne digit (by decide)), if_neg (digit_ne digit (by decide)),
    if_neg (digit_ne digit (by decide)), scanBare_digit digit]
  exact scanned

theorem parseValue_negative (fuel n : Nat) {rest : List Char} (h : Delimited rest) :
    parseValue (fuel + 1) ('-' :: Nat.toDigits 10 n ++ rest) = some (.int (-(n : Int)), rest) := by
  have scanned := scanUnsigned_toDigits h true n
  obtain ⟨c, text, digits, digit⟩ := toDigits_cons n
  rw [digits, List.cons_append] at scanned
  rw [digits, List.cons_append, parseValue, if_neg (by decide), if_neg (by decide),
    if_neg (by decide), if_pos rfl, List.cons_append, scanNegative_digit digit]
  exact scanned

theorem parseValue_int (fuel : Nat) (i : Int) {rest : List Char} (h : Delimited rest) :
    parseValue (fuel + 1) (intText i ++ rest) = some (.int i, rest) := by
  cases i with
  | ofNat n => exact parseValue_digits fuel n h
  | negSucc n => exact parseValue_negative fuel (n + 1) h

theorem parseValue_str (fuel : Nat) (s : String) (rest : List Char) :
    parseValue (fuel + 1) (strText s ++ rest) = some (.str s, rest) := by
  have scanned := scanString_strText s rest
  simp only [strText, List.cons_append, List.append_assoc, List.nil_append,
    parseValue, if_true, scanned, Option.map_some, String.ofList_toList]

mutual
/-- The parser reads a printed value back and stops behind it. -/
theorem parseValue_dumps (spaced : Bool) (fuel : Nat) (rest : List Char) {j : Json}
    (hp : plain j = true) (hf : (dumps spaced j).length ≤ fuel) (hr : Delimited rest) :
    parseValue fuel (dumps spaced j ++ rest) = some (j, rest) := by
  cases fuel with
  | zero =>
      obtain ⟨c, text, same, _⟩ := starts_dumps spaced hp
      rw [same, List.length_cons] at hf
      omega
  | succ fuel =>
      cases j with
      | null => rfl
      | bool b => cases b <;> rfl
      | int i => exact parseValue_int fuel i hr
      | float lexeme => cases hp
      | str s => exact parseValue_str fuel s rest
      | arr items =>
          cases items with
          | nil => rfl
          | cons item items =>
              simp only [plain, plainItems, Bool.and_eq_true] at hp
              have starts := starts_dumpsItems spaced items hp.1
              have parsed := parseItems_dumps spaced fuel rest hp.1 hp.2
                (by simpa [dumps] using hf)
              have stop := starts.skipSpace false (']' :: rest)
              obtain ⟨c, text, same, _, notClose⟩ := starts
              rw [same] at parsed stop
              simp only [padding, Bool.false_eq_true, if_false, List.nil_append] at stop
              simp only [dumps, same, List.cons_append, List.append_assoc, List.nil_append] at stop ⊢
              rw [parseValue, if_neg (by decide), if_pos rfl, stop]
              split
              · rename_i same'
                exact absurd (List.cons.inj same').1 notClose
              · rw [← List.cons_append, parsed, Option.map_some]
      | obj members =>
          cases members with
          | nil => rfl
          | cons member members =>
              cases member with
              | mk key value =>
                  simp only [plain, plainMembers, Bool.and_eq_true] at hp
                  have parsed := parseMembers_dumps spaced fuel rest key hp.1 hp.2
                    (by simpa [dumps] using hf)
                  obtain ⟨text, same⟩ : ∃ text, dumpsMembers spaced ((key, value) :: members) =
                      '"' :: text := by
                    cases members <;> exact ⟨_, rfl⟩
                  rw [same] at parsed
                  have stop := skipSpace_stop (c := '"') (by decide) (text ++ '\x7d' :: rest)
                  simp only [dumps, same, List.cons_append, List.append_assoc, List.nil_append]
                  rw [parseValue, if_neg (by decide), if_neg (by decide), if_pos rfl, stop]
                  split
                  · rename_i same'
                    exact absurd (List.cons.inj same').1 (by decide)
                  · rw [← List.cons_append, parsed, Option.map_some]
termination_by sizeOf j

theorem parseItems_dumps (spaced : Bool) (fuel : Nat) (rest : List Char) {item : Json}
    {items : List Json} (hp : plain item = true) (hps : plainItems items = true)
    (hf : (dumpsItems spaced (item :: items)).length + 1 ≤ fuel) :
    parseItems fuel (dumpsItems spaced (item :: items) ++ ']' :: rest) =
      some (item :: items, rest) := by
  cases fuel with
  | zero => omega
  | succ fuel =>
      cases items with
      | nil =>
          simp only [dumpsItems] at hf ⊢
          have parsed := parseValue_dumps spaced fuel (']' :: rest) hp (by omega)
            (.cons rest (by decide))
          simp only [parseItems, parsed, skipSpace_stop (c := ']') (by decide)]
      | cons next items =>
          simp only [dumpsItems, List.length_append, List.length_cons] at hf
          simp only [plainItems, Bool.and_eq_true] at hps
          have parsed := parseValue_dumps spaced fuel
            (',' :: (padding spaced ++ (dumpsItems spaced (next :: items) ++ ']' :: rest))) hp
            (by omega) (.cons _ (by decide))
          have later := parseItems_dumps spaced fuel rest hps.1 hps.2 (by omega)
          have starts := starts_dumpsItems spaced items hps.1
          simp only [dumpsItems, List.append_assoc, List.cons_append, parseItems] at parsed ⊢
          simp only [parsed, skipSpace_stop (c := ',') (by decide), starts.skipSpace spaced, later,
            Option.map_some]
termination_by sizeOf item + sizeOf items

theorem parseMembers_dumps (spaced : Bool) (fuel : Nat) (rest : List Char) (key : String)
    {value : Json} {members : List (String × Json)} (hp : plain value = true)
    (hps : plainMembers members = true)
    (hf : (dumpsMembers spaced ((key, value) :: members)).length + 1 ≤ fuel) :
    parseMembers fuel (dumpsMembers spaced ((key, value) :: members) ++ '\x7d' :: rest) =
      some ((key, value) :: members, rest) := by
  cases fuel with
  | zero => omega
  | succ fuel =>
      have starts := starts_dumps spaced hp
      cases members with
      | nil =>
          simp only [dumpsMembers, strText, List.length_append, List.length_cons] at hf
          have parsed := parseValue_dumps spaced fuel ('\x7d' :: rest) hp
            (by omega) (.cons rest (by decide))
          simp only [dumpsMembers, strText, List.cons_append, List.append_assoc,
            List.nil_append, parseMembers, ne_eq, not_true_eq_false, if_false,
            scanString_strText, skipSpace_stop (c := ':') (by decide), starts.skipSpace spaced,
            parsed, skipSpace_stop (c := '\x7d') (by decide), String.ofList_toList]
      | cons next members =>
          cases next with
          | mk name other =>
              simp only [dumpsMembers, strText, List.length_append, List.length_cons] at hf
              simp only [plainMembers, Bool.and_eq_true] at hps
              have parsed := parseValue_dumps spaced fuel
                (',' :: (padding spaced ++
                  (dumpsMembers spaced ((name, other) :: members) ++ '\x7d' :: rest))) hp
                (by omega) (.cons _ (by decide))
              have later := parseMembers_dumps spaced fuel rest name hps.1 hps.2 (by omega)
              have quote : Starts (dumpsMembers spaced ((name, other) :: members)) := by
                cases members <;> exact ⟨_, _, rfl, by decide, by decide⟩
              rw [dumpsMembers]
              · simp only [strText, List.cons_append, List.append_assoc,
                  List.nil_append, parseMembers, ne_eq, not_true_eq_false, if_false, scanString_strText,
                  skipSpace_stop (c := ':') (by decide), starts.skipSpace spaced, parsed,
                  skipSpace_stop (c := ',') (by decide), quote.skipSpace spaced, later, Option.map_some,
                  String.ofList_toList]
              · exact List.cons_ne_nil _ _
termination_by sizeOf value + sizeOf members
end

/-- **Round trip.** -/
theorem loads_dumps (spaced : Bool) {j : Json} (hp : plain j = true) :
    loads (dumps spaced j) = some j := by
  have starts := starts_dumps spaced hp
  have parsed := parseValue_dumps spaced ((dumps spaced j).length + 1) [] hp (by omega) .nil
  have stop := starts.skipSpace false []
  simp only [List.append_nil, padding, Bool.false_eq_true, if_false, List.nil_append] at parsed stop
  rw [loads, stop, parsed]
  rfl

end SecureTransfer.Library.Json
