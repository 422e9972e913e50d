import SecureTransfer.Library.JsonRoundTrip
import Mathlib.Data.Rat.Floor
import Mathlib.Data.List.Sort

/-! # JSON values as Python objects

What a program does with a value it got from `json.load`: `get` and `[]` on a dict,
iteration, `int`, comparison with a number or a text, sets and `sorted`, and the
decoding of the bytes it was loaded from.
-/

namespace SecureTransfer.Library

inductive PyError where
  | keyError (key : String)
  | attributeError
  | typeError
  | valueError
  | unicodeDecodeError
  | overflowError
  | fileNotFoundError
deriving DecidableEq, Repr

/-- What `==` and `hash` see of a value: `True`, `1` and `1.0` are one key. -/
inductive Key where
  | none
  | number (q : Rat)
  | special (lexeme : List Char)
  | text (s : String)
deriving DecidableEq

namespace Json

/-! ## Numbers -/

def digitsValue (digits : List Char) : Nat := Nat.ofDigitChars 10 digits 0

/-- The number a decimal lexeme without a sign writes. -/
def decimalValue (lexeme : List Char) : Rat :=
  let whole := lexeme.takeWhile Char.isDigit
  let rest := lexeme.dropWhile Char.isDigit
  let fraction := (scanFraction rest).drop 1
  let exponent := (scanExponent (rest.drop (scanFraction rest).length)).drop 1
  let shift := digitsValue (exponent.filter Char.isDigit)
  let mantissa : Rat := digitsValue (whole ++ fraction) / (10 ^ fraction.length : Nat)
  if exponent.head? = some '-' then mantissa / (10 ^ shift : Nat) else mantissa * (10 ^ shift : Nat)

def roundHalfEven (q : Rat) : Int :=
  let below := q.floor
  if q - below < 1 / 2 then below
  else if 1 / 2 < q - below then below + 1
  else if below % 2 = 0 then below
  else below + 1

def twoPow (e : Int) : Rat := if 0 ≤ e then (2 ^ e.toNat : Nat) else 1 / (2 ^ (-e).toNat : Nat)

/-- The double next to a positive number; `none` where it is infinite. -/
def roundDouble (q : Rat) : Option Rat :=
  let guess : Int := Nat.log2 q.num.natAbs - Nat.log2 q.den
  let e := if q < twoPow guess then guess - 1 else guess
  let quantum := max (e - 52) (-1074)
  let rounded := roundHalfEven (q / twoPow quantum) * twoPow quantum
  if rounded < twoPow 1024 then some rounded else none

/-- `float(lexeme)`; `none` for an infinity or `nan`. -/
def floatValue : List Char → Option Rat
  | '-' :: lexeme => if lexeme.head? = some 'I' then none else (roundDouble (decimalValue lexeme)).map (-·)
  | lexeme =>
      if lexeme.head? = some 'I' ∨ lexeme.head? = some 'N' then none
      else roundDouble (decimalValue lexeme)

/-- An infinity or `nan`, however it was written. -/
def specialLexeme (lexeme : List Char) : List Char :=
  if lexeme.head? = some 'N' then lexeme
  else if lexeme.head? = some '-' then "-Infinity".toList
  else "Infinity".toList

/-! ## Keys -/

/-- `none` for a list or a dict, which have no hash. -/
def key : Json → Option Key
  | .null => some .none
  | .bool b => some (.number (if b then 1 else 0))
  | .int i => some (.number i)
  | .float lexeme =>
      match floatValue lexeme with
      | some q => some (.number q)
      | none => some (.special (specialLexeme lexeme))
  | .str s => some (.text s)
  | .arr _ => none
  | .obj _ => none

@[simp] theorem key_int (i : Int) : key (.int i) = some (.number i) := rfl

@[simp] theorem key_str (s : String) : key (.str s) = some (.text s) := rfl

/-- `value == n` for an `int` on the right. -/
def eqInt (value : Json) (n : Int) : Bool := value.key == some (.number n)

/-- `value == s` for a `str` on the right. -/
def eqStr (value : Json) (s : String) : Bool := value.key == some (.text s)

@[simp] theorem eqInt_int (i n : Int) : eqInt (.int i) n = true ↔ i = n := by
  simp [eqInt]

@[simp] theorem eqStr_str (s t : String) : eqStr (.str s) t = true ↔ s = t := by
  simp [eqStr]

theorem eqStr_iff {value : Json} {s : String} : eqStr value s = true ↔ value = .str s := by
  cases value with
  | str t => simp [eqStr]
  | float lexeme =>
      simp only [eqStr, key]
      split <;> simp
  | null => simp [eqStr, key]
  | bool b => simp [eqStr, key]
  | int i => simp [eqStr, key]
  | arr items => simp [eqStr, key]
  | obj members => simp [eqStr, key]

/-! ## Access -/

/-- `value.get(name)`. -/
def get (name : String) : Json → Except PyError (Option Json)
  | .obj members => .ok (lookup name members)
  | _ => .error .attributeError

/-- `value[name]`. -/
def item (name : String) : Json → Except PyError Json
  | .obj members =>
      match lookup name members with
      | some value => .ok value
      | none => .error (.keyError name)
  | _ => .error .typeError

/-- `for x in value`. -/
def iterate : Json → Except PyError (List Json)
  | .arr items => .ok items
  | .str s => .ok (s.toList.map fun c => .str (String.ofList [c]))
  | .obj members => .ok ((members.map Prod.fst).dedup.map Json.str)
  | _ => .error .typeError

/-- `int(text)`, for the digits of ASCII. -/
def intOfText (text : List Char) : Option Int :=
  let bare := ((text.dropWhile Char.isWhitespace).reverse.dropWhile Char.isWhitespace).reverse
  let negative := bare.head? = some '-'
  let body := if bare.head? = some '-' ∨ bare.head? = some '+' then bare.drop 1 else bare
  let groups := body.splitOn '_'
  if groups.all fun group => group ≠ [] && group.all Char.isDigit then
    let n : Int := digitsValue groups.flatten
    some (if negative then -n else n)
  else none

/-- `int(value)`. -/
def toInt : Json → Except PyError Int
  | .int i => .ok i
  | .bool b => .ok (if b then 1 else 0)
  | .float lexeme =>
      match floatValue lexeme with
      | some q => .ok (if q < 0 then q.ceil else q.floor)
      | none => .error (if lexeme.head? = some 'N' then .valueError else .overflowError)
  | .str s =>
      match intOfText s.toList with
      | some i => .ok i
      | none => .error .valueError
  | _ => .error .typeError

/-! ## Sets -/

def contains (k : Key) (set : List Json) : Bool := set.any fun value => value.key == some k

def insert (set : List Json) (value : Json) : List Json :=
  if set.any fun other => other.key == value.key then set else set ++ [value]

/-- `set(values)`. -/
def setOf (values : List Json) : Except PyError (List Json) :=
  if values.all fun value => value.key.isSome then .ok (values.foldl insert [])
  else .error .typeError

theorem contains_iff {k : Key} {set : List Json} :
    contains k set = true ↔ ∃ value ∈ set, value.key = some k := by
  simp [contains]

theorem contains_insert (k : Key) (set : List Json) (value : Json) :
    contains k (insert set value) = true ↔ contains k set = true ∨ value.key = some k := by
  unfold insert
  split
  · rename_i present
    simp only [List.any_eq_true, beq_iff_eq] at present
    obtain ⟨other, member, same⟩ := present
    constructor
    · exact .inl
    · rintro (inside | here)
      · exact inside
      · exact contains_iff.mpr ⟨other, member, same.trans here⟩
  · simp [contains]

/-! ## Sorting -/

def isNumber (value : Json) : Bool :=
  match value.key with
  | some (.number _) => true
  | some (.special _) => true
  | _ => false

def isText (value : Json) : Bool :=
  match value.key with
  | some (.text _) => true
  | _ => false

/-- The text of a string, empty for anything else. -/
def textOrEmpty : Json → String
  | .str s => s
  | _ => ""

/-- The natural number of an integer, 0 for anything else. -/
def natOrZero : Json → Nat
  | .int i => i.toNat
  | _ => 0

/-- The order of numbers, `nan` last. -/
def numberLe (a b : Json) : Bool :=
  match a.key, b.key with
  | some (.number p), some (.number q) => p ≤ q
  | some (.special lexeme), _ => lexeme.head? == some '-'
  | _, some (.special lexeme) => lexeme.head? != some '-'
  | _, _ => true

def textLe (a b : Json) : Bool :=
  match a, b with
  | .str s, .str t => decide (s ≤ t)
  | _, _ => true

/-- `sorted(set)`: two values of different kinds do not compare. -/
def sorted (set : List Json) : Except PyError (List Json) :=
  if set.length ≤ 1 then .ok set
  else if set.all isNumber then .ok (set.mergeSort numberLe)
  else if set.all isText then .ok (set.mergeSort textLe)
  else .error .typeError

theorem sorted_perm {set out : List Json} (h : sorted set = .ok out) : out.Perm set := by
  unfold sorted at h
  split at h
  · cases h
    exact .refl _
  · split at h
    · cases h
      exact List.mergeSort_perm _ _
    · split at h
      · cases h
        exact List.mergeSort_perm _ _
      · cases h

theorem sorted_numbers {set : List Json} (h : ∀ value ∈ set, isNumber value = true) :
    ∃ out, sorted set = .ok out := by
  unfold sorted
  split
  · exact ⟨_, rfl⟩
  · rw [if_pos (List.all_eq_true.mpr h)]
    exact ⟨_, rfl⟩

theorem sorted_texts {set : List Json} (h : ∀ value ∈ set, isText value = true) :
    ∃ out, sorted set = .ok out := by
  unfold sorted
  split
  · exact ⟨_, rfl⟩
  · split
    · exact ⟨_, rfl⟩
    · rw [if_pos (List.all_eq_true.mpr h)]
      exact ⟨_, rfl⟩

theorem contains_perm {a b : List Json} (h : a.Perm b) (k : Key) : contains k a = contains k b :=
  h.any_eq

/-! ## Values of one kind -/

section Uniform

variable {α : Type} [DecidableEq α] {f : α → Json} {k : α → Key} (keyed : ∀ a, (f a).key = some (k a))
  (injective : Function.Injective k)
include keyed injective

omit [DecidableEq α] in
theorem contains_map {values : List α} {a : α} : contains (k a) (values.map f) = true ↔ a ∈ values := by
  rw [contains_iff]
  constructor
  · rintro ⟨value, member, same⟩
    obtain ⟨b, inside, rfl⟩ := List.mem_map.mp member
    rw [keyed] at same
    rw [← injective (Option.some.inj same)]
    exact inside
  · intro inside
    exact ⟨f a, List.mem_map_of_mem inside, keyed a⟩

theorem insert_map (values : List α) (a : α) :
    insert (values.map f) (f a) = if a ∈ values then values.map f else (values ++ [a]).map f := by
  have found : ((values.map f).any fun other => other.key == (f a).key) = contains (k a) (values.map f) := by
    rw [keyed]
    rfl
  rw [insert, found]
  by_cases inside : a ∈ values
  · rw [if_pos ((contains_map keyed injective).mpr inside), if_pos inside]
  · have absent : ¬ contains (k a) (values.map f) = true := fun present =>
      inside ((contains_map keyed injective).mp present)
    rw [if_neg absent, if_neg inside, List.map_append, List.map_singleton]

theorem insert_map_mem (values : List α) (a : α) :
    ∃ all : List α, insert (values.map f) (f a) = all.map f ∧ ∀ b, b ∈ all ↔ b = a ∨ b ∈ values := by
  rw [insert_map keyed injective]
  by_cases inside : a ∈ values
  · rw [if_pos inside]
    refine ⟨values, rfl, fun b => ⟨.inr, ?_⟩⟩
    rintro (rfl | member)
    · exact inside
    · exact member
  · rw [if_neg inside]
    exact ⟨values ++ [a], rfl, by simp [or_comm]⟩

theorem foldl_insert_map (values set : List α) :
    ∃ all : List α, (values.map f).foldl insert (set.map f) = all.map f ∧
      ∀ a, a ∈ all ↔ a ∈ set ∨ a ∈ values := by
  induction values generalizing set with
  | nil => exact ⟨set, rfl, by simp⟩
  | cons value values ih =>
      obtain ⟨next, inserted, members⟩ := insert_map_mem keyed injective set value
      obtain ⟨all, folded, same⟩ := ih next
      refine ⟨all, ?_, fun a => ?_⟩
      · rw [List.map_cons, List.foldl_cons, inserted, folded]
      · rw [same, members, List.mem_cons]
        grind

theorem setOf_map (values : List α) :
    ∃ all : List α, setOf (values.map f) = .ok (all.map f) ∧ ∀ a, a ∈ all ↔ a ∈ values := by
  obtain ⟨all, folded, same⟩ := foldl_insert_map keyed injective values []
  refine ⟨all, ?_, fun a => by rw [same]; simp⟩
  have hashable : (values.map f).all (fun value => value.key.isSome) = true := by
    simp [keyed]
  rw [setOf, if_pos hashable]
  exact congrArg Except.ok folded

end Uniform

/-- A permutation of values of one kind is a list of values of that kind. -/
theorem perm_map {α : Type} {f : α → Json} (back : Json → α) (inverse : ∀ a, back (f a) = a)
    {values : List α} {out : List Json} (perm : out.Perm (values.map f)) :
    out = (out.map back).map f ∧ (out.map back).Perm values := by
  constructor
  · have same : out.map (fun value => f (back value)) = out.map id := by
      refine List.map_congr_left fun value member => ?_
      obtain ⟨a, _, rfl⟩ := List.mem_map.mp (perm.mem_iff.mp member)
      rw [inverse]
      rfl
    rw [List.map_map]
    exact (same.trans (List.map_id out)).symm
  · have mapped := perm.map back
    have identity : back ∘ f = id := funext inverse
    rwa [List.map_map, identity, List.map_id] at mapped

/-! ## Loading -/

def codeUnits (big : Bool) : Bytes → Option (List Nat)
  | [] => some []
  | [_] => none
  | a :: b :: rest =>
      (codeUnits big rest).map fun units =>
        (if big then a.toNat * 256 + b.toNat else b.toNat * 256 + a.toNat) :: units

/-- Characters of UTF-16 code units; a lone surrogate is no character. -/
def utf16Chars : List Nat → Option (List Char)
  | [] => some []
  | unit :: rest =>
      if 0xd800 ≤ unit ∧ unit < 0xdc00 then
        match rest with
        | low :: rest =>
            if 0xdc00 ≤ low ∧ low < 0xe000 then
              (utf16Chars rest).map fun text =>
                Char.ofNat (0x10000 + (unit - 0xd800) * 0x400 + (low - 0xdc00)) :: text
            else none
        | [] => none
      else if 0xdc00 ≤ unit ∧ unit < 0xe000 then none
      else (utf16Chars rest).map fun text => Char.ofNat unit :: text

def utf32Chars (big : Bool) : Bytes → Option (List Char)
  | [] => some []
  | a :: b :: c :: d :: rest =>
      let n := fromBigEndian (if big then [a, b, c, d] else [d, c, b, a])
      if n.isValidChar then (utf32Chars big rest).map fun text => Char.ofNat n :: text else none
  | _ => none

/-- `bytes.decode(json.detect_encoding(bytes))`. -/
def decodeDetected (bytes : Bytes) : Option (List Char) :=
  match bytes with
  | 0x00 :: 0x00 :: 0xfe :: 0xff :: rest => utf32Chars true rest
  | 0xff :: 0xfe :: 0x00 :: 0x00 :: rest => utf32Chars false rest
  | 0xfe :: 0xff :: rest => (codeUnits true rest).bind utf16Chars
  | 0xff :: 0xfe :: rest => (codeUnits false rest).bind utf16Chars
  | 0xef :: 0xbb :: 0xbf :: rest => decodeText rest
  | a :: b :: c :: d :: _ =>
      if a = 0 then
        if b = 0 then utf32Chars true bytes else (codeUnits true bytes).bind utf16Chars
      else if b = 0 then
        if c = 0 ∧ d = 0 then utf32Chars false bytes else (codeUnits false bytes).bind utf16Chars
      else decodeText bytes
  | [a, b] =>
      if a = 0 then (codeUnits true bytes).bind utf16Chars
      else if b = 0 then (codeUnits false bytes).bind utf16Chars
      else decodeText bytes
  | _ => decodeText bytes

/-- `json.loads(bytes)`. -/
def loadBytes (bytes : Bytes) : Except PyError Json :=
  match decodeDetected bytes with
  | none => .error .unicodeDecodeError
  | some text =>
      match loads text with
      | some value => .ok value
      | none => .error .valueError

/-- `json.load(f)` on a file opened as text; `none` where it raises `JSONDecodeError`. -/
def loadFile (bytes : Bytes) : Except PyError (Option Json) :=
  match decodeText bytes with
  | none => .error .unicodeDecodeError
  | some text => .ok (loads text)

/-- `json.dump(value, f)`. -/
def dumpFile (value : Json) : Bytes := encodeText (dumps true value)

theorem loadFile_dumpFile {value : Json} (h : plain value = true) :
    loadFile (dumpFile value) = .ok (some value) := by
  simp only [loadFile, dumpFile, decodeText_encodeText, loads_dumps true h]

end Json

end SecureTransfer.Library
