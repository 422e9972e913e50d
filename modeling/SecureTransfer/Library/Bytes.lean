import Mathlib.Data.List.Induction
import Mathlib.Tactic.Ring

/-! # Byte strings

Fixed-width big-endian numbers, lower-case hexadecimal and UTF-8 text, each with
the decoder that inverts it.
-/

namespace SecureTransfer.Library

abbrev Bytes := List UInt8

/-! ## Big-endian numbers -/

/-- `n.to_bytes(width, "big")` for a number that fits; a larger one wraps. -/
def bigEndian : Nat → Nat → Bytes
  | 0, _ => []
  | width + 1, n => bigEndian width (n / 256) ++ [UInt8.ofNat (n % 256)]

/-- `int.from_bytes(bytes, "big")`. -/
def fromBigEndian (bytes : Bytes) : Nat := bytes.foldl (fun n b => n * 256 + b.toNat) 0

@[simp] theorem bigEndian_length (width n : Nat) : (bigEndian width n).length = width := by
  induction width generalizing n with
  | zero => rfl
  | succ width ih => simp only [bigEndian, List.length_append, ih, List.length_singleton]

theorem fromBigEndian_concat (bytes : Bytes) (b : UInt8) :
    fromBigEndian (bytes ++ [b]) = fromBigEndian bytes * 256 + b.toNat := by
  simp only [fromBigEndian, List.foldl_append, List.foldl_cons, List.foldl_nil]

theorem fromBigEndian_bigEndian (width n : Nat) :
    fromBigEndian (bigEndian width n) = n % 256 ^ width := by
  induction width generalizing n with
  | zero => simp [bigEndian, fromBigEndian, Nat.mod_one]
  | succ width ih =>
      have low : (UInt8.ofNat (n % 256)).toNat = n % 256 := by simp
      rw [bigEndian, fromBigEndian_concat, ih, low, pow_succ, mul_comm (256 ^ width), Nat.mod_mul]
      ring

theorem fromBigEndian_lt (bytes : Bytes) : fromBigEndian bytes < 256 ^ bytes.length := by
  induction bytes using List.reverseRecOn with
  | nil => simp [fromBigEndian]
  | append_singleton bytes b ih =>
      have small := b.toNat_lt
      rw [fromBigEndian_concat, List.length_append, List.length_singleton, pow_succ]
      omega

theorem bigEndian_fromBigEndian (bytes : Bytes) :
    bigEndian bytes.length (fromBigEndian bytes) = bytes := by
  induction bytes using List.reverseRecOn with
  | nil => rfl
  | append_singleton bytes b ih =>
      have small := b.toNat_lt
      rw [List.length_append, List.length_singleton, bigEndian, fromBigEndian_concat]
      have high : (fromBigEndian bytes * 256 + b.toNat) / 256 = fromBigEndian bytes := by omega
      have low : (fromBigEndian bytes * 256 + b.toNat) % 256 = b.toNat := by omega
      rw [high, low, ih, UInt8.ofNat_toNat]

theorem bigEndian_injective (width : Nat) {n m : Nat} (hn : n < 256 ^ width) (hm : m < 256 ^ width)
    (h : bigEndian width n = bigEndian width m) : n = m := by
  have same := congrArg fromBigEndian h
  rwa [fromBigEndian_bigEndian, fromBigEndian_bigEndian, Nat.mod_eq_of_lt hn,
    Nat.mod_eq_of_lt hm] at same

/-! ## Hexadecimal -/

def hexChar (digit : Nat) : Char := "0123456789abcdef".toList.getD digit '0'

def hexValue (c : Char) : Option Nat :=
  if '0' ≤ c ∧ c ≤ '9' then some (c.toNat - '0'.toNat)
  else if 'a' ≤ c ∧ c ≤ 'f' then some (c.toNat - 'a'.toNat + 10)
  else if 'A' ≤ c ∧ c ≤ 'F' then some (c.toNat - 'A'.toNat + 10)
  else none

def hexChars (bytes : Bytes) : List Char :=
  bytes.flatMap fun b => [hexChar (b.toNat / 16), hexChar (b.toNat % 16)]

/-- `bytes.hex()`. -/
def hex (bytes : Bytes) : String := String.ofList (hexChars bytes)

/-- The whitespace `bytes.fromhex` skips between two bytes. -/
def isAsciiSpace (c : Char) : Bool := c = ' ' || ('\t' ≤ c && c ≤ '\r')

def fromHexChars : List Char → Option Bytes
  | [] => some []
  | c :: rest =>
      if isAsciiSpace c then fromHexChars rest
      else
        match rest with
        | [] => none
        | d :: rest =>
            match hexValue c, hexValue d, fromHexChars rest with
            | some high, some low, some bytes => some (UInt8.ofNat (high * 16 + low) :: bytes)
            | _, _, _ => none

/-- `bytes.fromhex(text)`; `none` where it raises `ValueError`. -/
def fromHex (text : String) : Option Bytes := fromHexChars text.toList

theorem hexChar_table : ∀ digit, digit < 16 →
    hexValue (hexChar digit) = some digit ∧ isAsciiSpace (hexChar digit) = false := by
  decide

theorem fromHexChars_hexChars (bytes : Bytes) : fromHexChars (hexChars bytes) = some bytes := by
  induction bytes with
  | nil => rfl
  | cons b bytes ih =>
      have small := b.toNat_lt
      obtain ⟨high, notSpace⟩ := hexChar_table (b.toNat / 16) (by omega)
      obtain ⟨low, _⟩ := hexChar_table (b.toNat % 16) (by omega)
      have joined : b.toNat / 16 * 16 + b.toNat % 16 = b.toNat := by omega
      have split : hexChars (b :: bytes) =
          hexChar (b.toNat / 16) :: hexChar (b.toNat % 16) :: hexChars bytes := rfl
      simp only [split, fromHexChars, notSpace, high, low, ih, joined, UInt8.ofNat_toNat,
        Bool.false_eq_true, if_false]

@[simp] theorem fromHex_hex (bytes : Bytes) : fromHex (hex bytes) = some bytes := by
  simp only [fromHex, hex, String.toList_ofList, fromHexChars_hexChars]

theorem hex_injective : Function.Injective hex := by
  intro a b h
  have same := congrArg fromHex h
  simpa only [fromHex_hex, Option.some.injEq] using same

/-! ## Text -/

/-- `text.encode("utf-8")`. -/
def encodeText (text : List Char) : Bytes := text.flatMap String.utf8EncodeChar

/-- `bytes.decode("utf-8")`; `none` where it raises `UnicodeDecodeError`. -/
def decodeText (bytes : Bytes) : Option (List Char) :=
  (ByteArray.mk bytes.toArray).utf8Decode?.map Array.toList

@[simp] theorem decodeText_encodeText (text : List Char) :
    decodeText (encodeText text) = some text := by
  have same : ByteArray.mk (encodeText text).toArray = text.utf8Encode := by
    ext1
    simp [encodeText, List.utf8Encode]
  simp [decodeText, same]

theorem decodeText_sound {bytes : Bytes} {text : List Char} (h : decodeText bytes = some text) :
    encodeText text = bytes := by
  obtain ⟨chars, decoded, rfl⟩ := Option.map_eq_some_iff.mp h
  have found : (ByteArray.mk bytes.toArray).utf8Decode?.isSome = true := by rw [decoded]; rfl
  have back := ByteArray.utf8Encode_get_utf8Decode? (h := found)
  simp only [decoded, Option.get_some] at back
  have same := congrArg (fun b : ByteArray => b.data.toList) back
  simpa [encodeText, List.utf8Encode] using same

theorem encodeText_cons (c : Char) (text : List Char) :
    encodeText (c :: text) = String.utf8EncodeChar c ++ encodeText text := rfl

theorem decode_first (c : Char) (bytes : Bytes) :
    (String.utf8EncodeChar c ++ bytes).toByteArray.utf8DecodeChar? 0 = some c := by
  rw [List.toByteArray_append]
  exact ByteArray.utf8DecodeChar?_utf8EncodeChar_append

/-- A beginning of the bytes that is a text is a beginning of the text. -/
theorem encodeText_prefix {part text : List Char} (h : encodeText part <+: encodeText text) : part <+: text := by
  induction part generalizing text with
  | nil => exact List.nil_prefix
  | cons c part ih =>
      obtain ⟨rest, split⟩ := h
      rw [encodeText_cons, List.append_assoc] at split
      have first := decode_first c (encodeText part ++ rest)
      cases text with
      | nil =>
          have size := congrArg List.length split
          have pos := c.utf8Size_pos
          rw [List.length_append, String.length_utf8EncodeChar] at size
          simp only [encodeText, List.flatMap_nil, List.length_nil] at size
          omega
      | cons d text =>
          rw [split, encodeText_cons, decode_first] at first
          obtain rfl := Option.some.inj first
          rw [encodeText_cons] at split
          exact (List.prefix_cons_inj d).mpr (ih ⟨rest, List.append_cancel_left split⟩)

/-- Whether `b` may follow `a` in an encoding of three bytes or four. -/
def isSecondByte (a b : UInt8) : Bool :=
  if a = 0xe0 then 0xa0 ≤ b && b ≤ 0xbf
  else if a = 0xed then 0x80 ≤ b && b ≤ 0x9f
  else if a = 0xf0 then 0x90 ≤ b && b ≤ 0xbf
  else if a = 0xf4 then 0x80 ≤ b && b ≤ 0x8f
  else 0xe1 ≤ a && a ≤ 0xf3 && 0x80 ≤ b && b ≤ 0xbf

/-- How many bytes one replacement character stands for: the longest start of an encoding
    that they begin with, at least one. -/
def replacedLength : Bytes → Nat
  | a :: b :: rest =>
      if !isSecondByte a b then 1
      else if a < 0xf0 then 2
      else
        match rest with
        | c :: _ => if 0x80 ≤ c && c ≤ 0xbf then 3 else 2
        | [] => 2
  | _ => 1

/-- `fuel` bounds the number of characters. -/
def decodeReplaceFrom : Nat → Bytes → List Char
  | 0, _ => []
  | fuel + 1, bytes =>
      if bytes = [] then []
      else
        match bytes.toByteArray.utf8DecodeChar? 0 with
        | some c => c :: decodeReplaceFrom fuel (bytes.drop c.utf8Size)
        | none => '\ufffd' :: decodeReplaceFrom fuel (bytes.drop (replacedLength bytes))

/-- `bytes.decode("utf-8", "replace")`. -/
def decodeReplace (bytes : Bytes) : List Char := decodeReplaceFrom bytes.length bytes

theorem decodeReplaceFrom_encodeText (text : List Char) {fuel : Nat}
    (enough : (encodeText text).length ≤ fuel) : decodeReplaceFrom fuel (encodeText text) = text := by
  induction text generalizing fuel with
  | nil => cases fuel <;> rfl
  | cons c text ih =>
      have size : (String.utf8EncodeChar c).length = c.utf8Size := String.length_utf8EncodeChar c
      have pos := c.utf8Size_pos
      rw [encodeText_cons, List.length_append, size] at enough
      cases fuel with
      | zero => omega
      | succ fuel =>
          have some_bytes : String.utf8EncodeChar c ++ encodeText text ≠ [] := by
            rw [← List.length_pos_iff, List.length_append]
            omega
          rw [decodeReplaceFrom, encodeText_cons, if_neg some_bytes]
          simp only [decode_first]
          rw [List.drop_left' size, ih (by omega)]

@[simp] theorem decodeReplace_encodeText (text : List Char) : decodeReplace (encodeText text) = text :=
  decodeReplaceFrom_encodeText text (le_refl _)

end SecureTransfer.Library
