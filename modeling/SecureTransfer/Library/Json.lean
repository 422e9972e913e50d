import SecureTransfer.Library.Bytes

/-! # JSON values and their text

The values of Python's `json` module, `dumps` with `ensure_ascii` in its spaced and
its compact form, and `loads`. A number with a fraction or an exponent stays an
uninterpreted `float`, and an escaped lone surrogate, which is no `Char`, is refused.
-/

namespace SecureTransfer.Library

inductive Json where
  | null
  | bool (b : Bool)
  | int (i : Int)
  | float (lexeme : List Char)
  | str (s : String)
  | arr (items : List Json)
  | obj (members : List (String × Json))

namespace Json

/-- `dict.get(key)`: of two members with one key the later counts. -/
def lookup (key : String) : List (String × Json) → Option Json
  | [] => none
  | (name, value) :: rest =>
      match lookup key rest with
      | some later => some later
      | none => if name = key then some value else none

/-! ## Printing -/

def intText : Int → List Char
  | .ofNat n => Nat.toDigits 10 n
  | .negSucc n => '-' :: Nat.toDigits 10 (n + 1)

def hex4 (n : Nat) : List Char :=
  [hexChar (n / 4096 % 16), hexChar (n / 256 % 16), hexChar (n / 16 % 16), hexChar (n % 16)]

/-- The two-character escapes of `ESCAPE_DCT`, as what follows the backslash. -/
def shortEscape (c : Char) : Option Char :=
  if c = '"' then some '"'
  else if c = '\\' then some '\\'
  else if c = '\n' then some 'n'
  else if c = '\r' then some 'r'
  else if c = '\t' then some 't'
  else if c = '\x08' then some 'b'
  else if c = '\x0c' then some 'f'
  else none

/-- `py_encode_basestring_ascii` on one character. -/
def escapeChar (c : Char) : List Char :=
  match shortEscape c with
  | some e => ['\\', e]
  | none =>
      if ' ' ≤ c ∧ c ≤ '~' then [c]
      else if c.toNat < 0x10000 then '\\' :: 'u' :: hex4 c.toNat
      else
        ('\\' :: 'u' :: hex4 (0xd800 + (c.toNat - 0x10000) / 0x400)) ++
          ('\\' :: 'u' :: hex4 (0xdc00 + (c.toNat - 0x10000) % 0x400))

def strText (s : String) : List Char := '"' :: s.toList.flatMap escapeChar ++ ['"']

/-- What follows a `,` or a `:` with `separators=(", ", ": ")`, and with `(",", ":")`
    when `spaced` is false. -/
def padding (spaced : Bool) : List Char := if spaced then [' '] else []

mutual
/-- `json.dumps`, as text. -/
def dumps (spaced : Bool) : Json → List Char
  | .null => ['n', 'u', 'l', 'l']
  | .bool true => ['t', 'r', 'u', 'e']
  | .bool false => ['f', 'a', 'l', 's', 'e']
  | .int i => intText i
  | .float lexeme => lexeme
  | .str s => strText s
  | .arr items => '[' :: dumpsItems spaced items ++ [']']
  | .obj members => '\x7b' :: dumpsMembers spaced members ++ ['\x7d']

def dumpsItems (spaced : Bool) : List Json → List Char
  | [] => []
  | [item] => dumps spaced item
  | item :: rest => dumps spaced item ++ ',' :: (padding spaced ++ dumpsItems spaced rest)

def dumpsMembers (spaced : Bool) : List (String × Json) → List Char
  | [] => []
  | [(key, value)] => strText key ++ ':' :: (padding spaced ++ dumps spaced value)
  | (key, value) :: rest =>
      strText key ++ ':' :: (padding spaced ++ dumps spaced value ++
        ',' :: (padding spaced ++ dumpsMembers spaced rest))
end

mutual
/-- What `sort_keys=True` prints. -/
def sortKeys : Json → Json
  | .arr items => .arr (sortKeysItems items)
  | .obj members =>
      .obj ((sortKeysMembers members).mergeSort fun a b => decide (a.1 ≤ b.1))
  | atom => atom

def sortKeysItems : List Json → List Json
  | [] => []
  | item :: rest => sortKeys item :: sortKeysItems rest

def sortKeysMembers : List (String × Json) → List (String × Json)
  | [] => []
  | (key, value) :: rest => (key, sortKeys value) :: sortKeysMembers rest
end

/-! ## Parsing -/

def isSpace (c : Char) : Bool := c = ' ' || c = '\t' || c = '\n' || c = '\r'

def skipSpace (text : List Char) : List Char := text.dropWhile isSpace

def hex4Value (a b c d : Char) : Option Nat :=
  match hexValue a, hexValue b, hexValue c, hexValue d with
  | some w, some x, some y, some z => some (((w * 16 + x) * 16 + y) * 16 + z)
  | _, _, _, _ => none

def unescape (c : Char) : Option Char :=
  if c = '"' then some '"'
  else if c = '\\' then some '\\'
  else if c = '/' then some '/'
  else if c = 'n' then some '\n'
  else if c = 'r' then some '\r'
  else if c = 't' then some '\t'
  else if c = 'b' then some '\x08'
  else if c = 'f' then some '\x0c'
  else none

def push (c : Char) (scanned : Option (List Char × List Char)) : Option (List Char × List Char) :=
  scanned.map fun p => (c :: p.1, p.2)

/-- `scanstring`: the characters up to the closing quote, and what follows it. -/
def scanString : List Char → Option (List Char × List Char)
  | [] => none
  | '"' :: rest => some ([], rest)
  | '\\' :: 'u' :: a :: b :: c :: d :: rest =>
      match hex4Value a b c d with
      | none => none
      | some n =>
          if 0xd800 ≤ n ∧ n < 0xdc00 then
            -- a high surrogate stands for a character only with the low one after it
            match rest with
            | '\\' :: 'u' :: e :: f :: g :: h :: rest =>
                match hex4Value e f g h with
                | none => none
                | some m =>
                    if 0xdc00 ≤ m ∧ m < 0xe000 then
                      push (Char.ofNat (0x10000 + (n - 0xd800) * 0x400 + (m - 0xdc00)))
                        (scanString rest)
                    else none
            | _ => none
          else if 0xdc00 ≤ n ∧ n < 0xe000 then none
          else push (Char.ofNat n) (scanString rest)
  | '\\' :: c :: rest =>
      match unescape c with
      | some e => push e (scanString rest)
      | none => none
  | c :: rest => if c < ' ' ∨ c = '\\' then none else push c (scanString rest)

def scanFraction : List Char → List Char
  | '.' :: rest =>
      let digits := rest.takeWhile Char.isDigit
      if digits = [] then [] else '.' :: digits
  | _ => []

def scanExponent : List Char → List Char
  | e :: rest =>
      if e = 'e' ∨ e = 'E' then
        let sign := (rest.takeWhile fun c => c = '+' || c = '-').take 1
        let digits := (rest.drop sign.length).takeWhile Char.isDigit
        if digits = [] then [] else e :: sign ++ digits
      else []
  | [] => []

/-- An optional sign stands before `text`, which starts at the digits. -/
def scanUnsigned (negative : Bool) (text : List Char) : Option (Json × List Char) :=
  let digits := text.takeWhile Char.isDigit
  let rest := text.dropWhile Char.isDigit
  if digits = [] ∨ (digits.head? = some '0' ∧ digits ≠ ['0']) then none
  else
    let fraction := scanFraction rest
    let exponent := scanExponent (rest.drop fraction.length)
    if fraction ++ exponent = [] then
      let n := Nat.ofDigitChars 10 digits 0
      some (.int (if negative then -(n : Int) else n), rest)
    else
      some (.float ((if negative then ['-'] else []) ++ digits ++ fraction ++ exponent),
        rest.drop (fraction.length + exponent.length))

def scanNegative : List Char → Option (Json × List Char)
  | 'I' :: 'n' :: 'f' :: 'i' :: 'n' :: 'i' :: 't' :: 'y' :: rest =>
      some (.float "-Infinity".toList, rest)
  | text => scanUnsigned true text

/-- A constant or a number without a sign. -/
def scanBare : List Char → Option (Json × List Char)
  | 'n' :: 'u' :: 'l' :: 'l' :: rest => some (.null, rest)
  | 't' :: 'r' :: 'u' :: 'e' :: rest => some (.bool true, rest)
  | 'f' :: 'a' :: 'l' :: 's' :: 'e' :: rest => some (.bool false, rest)
  | 'N' :: 'a' :: 'N' :: rest => some (.float "NaN".toList, rest)
  | 'I' :: 'n' :: 'f' :: 'i' :: 'n' :: 'i' :: 't' :: 'y' :: rest =>
      some (.float "Infinity".toList, rest)
  | text => scanUnsigned false text

mutual
/-- `scan_once`: one value at the start of the text, and what follows it. -/
def parseValue : Nat → List Char → Option (Json × List Char)
  | 0, _ => none
  | _ + 1, [] => none
  | fuel + 1, head :: rest =>
      if head = '"' then (scanString rest).map fun p => (.str (String.ofList p.1), p.2)
      else if head = '[' then
        match skipSpace rest with
        | ']' :: rest => some (.arr [], rest)
        | rest => (parseItems fuel rest).map fun p => (.arr p.1, p.2)
      else if head = '\x7b' then
        match skipSpace rest with
        | '\x7d' :: rest => some (.obj [], rest)
        | rest => (parseMembers fuel rest).map fun p => (.obj p.1, p.2)
      else if head = '-' then scanNegative rest
      else scanBare (head :: rest)

def parseItems : Nat → List Char → Option (List Json × List Char)
  | 0, _ => none
  | fuel + 1, text =>
      match parseValue fuel text with
      | none => none
      | some (item, rest) =>
          match skipSpace rest with
          | ']' :: rest => some ([item], rest)
          | ',' :: rest => (parseItems fuel (skipSpace rest)).map fun p => (item :: p.1, p.2)
          | _ => none

def parseMembers : Nat → List Char → Option (List (String × Json) × List Char)
  | 0, _ => none
  | _ + 1, [] => none
  | fuel + 1, head :: text =>
      if head ≠ '"' then none
      else
        match scanString text with
        | none => none
        | some (key, rest) =>
            match skipSpace rest with
            | ':' :: rest =>
                match parseValue fuel (skipSpace rest) with
                | none => none
                | some (value, rest) =>
                    match skipSpace rest with
                    | '\x7d' :: rest => some ([(String.ofList key, value)], rest)
                    | ',' :: rest =>
                        (parseMembers fuel (skipSpace rest)).map fun p =>
                          ((String.ofList key, value) :: p.1, p.2)
                    | _ => none
            | _ => none
end

/-- `json.loads` on text; `none` where it raises `JSONDecodeError`. -/
def loads (text : List Char) : Option Json :=
  match parseValue (text.length + 1) (skipSpace text) with
  | some (value, rest) => if skipSpace rest = [] then some value else none
  | none => none

end Json

end SecureTransfer.Library
