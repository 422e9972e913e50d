import SecureTransfer.ApproachB.BrokerClient
import Mathlib.Data.List.AList
import Mathlib.Data.Nat.Digits.Defs

/-! # The repository's broker

`_handle_command` of `broker.py` on a store of blobs, each command as one step, seen
through the client. A connection may fail at a command, before or after its effect.
-/

namespace SecureTransfer.ApproachB

open Library

/-! ## Keys -/

/-- The namespace and the name of a blob, which are its two path components. -/
abbrev BlobPath : Type := String × String

def isNamespaceChar (c : Char) : Bool := c.isAlphanum || c = '_' || c = '-'

def isNameChar (c : Char) : Bool := isNamespaceChar c || c = '.'

/-- `".." in key`. -/
def hasDots : List Char → Bool
  | '.' :: '.' :: _ => true
  | _ :: rest => hasDots rest
  | [] => false

/-- `[class]{1,128}` on a whole segment. -/
def isSegment (inClass : Char → Bool) (segment : List Char) : Bool :=
  1 ≤ segment.length && segment.length ≤ 128 && segment.all inClass

/-- What of a name the pattern sees: its `$` also matches before a final newline. -/
def bareName (name : List Char) : List Char :=
  if name.getLast? = some '\n' then name.dropLast else name

/-- `_safe_path` below the storage root; `none` where it raises `ValueError`. -/
def safePath (key : String) : Option BlobPath :=
  let space := key.toList.takeWhile (· ≠ '/')
  let name := (key.toList.dropWhile (· ≠ '/')).drop 1
  if isSegment isNamespaceChar space && isSegment isNameChar (bareName name) &&
      !hasDots key.toList then
    some (String.ofList space, String.ofList name)
  else none

def isTmp (name : String) : Bool := ".tmp".toList.isSuffixOf name.toList

/-! ## Store -/

/-- The blobs under the storage root. Every path came out of `_safe_path`. -/
structure Storage where
  blobs : AList fun _ : BlobPath => Bytes
  legal : ∀ path ∈ blobs, ∃ key, safePath key = some path

namespace Storage

def empty : Storage where
  blobs := ∅
  legal _ member := absurd member (AList.notMem_empty _)

def find (store : Storage) (path : BlobPath) : Option Bytes := store.blobs.lookup path

/-- PUT: write `path + ".tmp"`, then rename it onto `path`; `none` where that fails. -/
def put (store : Storage) (key : String) (data : Bytes) : Option Storage :=
  match h : safePath key with
  | none => none
  | some path =>
      if path.2 = "." then none
      else some {
        blobs := (store.blobs.erase (path.1, path.2 ++ ".tmp")).insert path data
        legal other member := by
          rcases AList.mem_insert _ |>.mp member with rfl | old
          · exact ⟨key, h⟩
          · exact store.legal other (AList.mem_erase.mp old).2 }

/-- GET: `none` is MISSING. -/
def get (store : Storage) (key : String) : Option Bytes := (safePath key).bind store.find

/-- LIST. -/
def list (store : Storage) (start : String) : List String :=
  let paths := (store.blobs.keys.filter fun path => !isTmp path.2).mergeSort fun a b =>
    decide (a.1 < b.1 ∨ (a.1 = b.1 ∧ a.2 ≤ b.2))
  let keys := paths.map fun path => path.1 ++ "/" ++ path.2
  keys.filter fun key => start.toList.isPrefixOf key.toList

end Storage

/-- What the client makes of one line of the joined keys. -/
def splitLines (key : String) : List String :=
  ((key.toList.splitOn '\n').filter (· ≠ [])).map String.ofList

/-! ## The broker seen through the client -/

/-- What becomes of one operation. -/
inductive Outcome where
  | answered
  | dropped
  | droppedAfter
deriving DecidableEq

def unreachable : String := "broker unreachable after 5 attempts"

/-- The outcome of the next operation, and the rest of the script. -/
def nextOutcome (script : List Outcome) : Outcome := script.headD .answered

/-- The repository's broker behind connections that fail as the script says. -/
def storeBroker : Broker (Storage × List Outcome) where
  list start := fun (store, script) =>
    match nextOutcome script with
    | .answered => (.ok ((store.list start).flatMap splitLines), (store, script.tail))
    | _ => (.error unreachable, (store, script.tail))
  get key := fun (store, script) =>
    match nextOutcome script with
    | .answered => (.ok (store.get key), (store, script.tail))
    | _ => (.error unreachable, (store, script.tail))
  put key data := fun (store, script) =>
    match nextOutcome script, store.put key data with
    | .answered, some after => (.ok (), (after, script.tail))
    | .answered, none => (.error ("PUT " ++ key ++ " failed"), (store, script.tail))
    | .droppedAfter, some after => (.error unreachable, (after, script.tail))
    | _, _ => (.error unreachable, (store, script.tail))

/-! ## Lemmas -/

/-- A PUT changes what is under its path and removes what was under its temporary name. -/
theorem Storage.put_lookup {store after : Storage} {key : String} {data : Bytes} {path : BlobPath}
    (safe : safePath key = some path) (h : store.put key data = some after) (other : BlobPath) :
    after.find other =
      if other = path then some data
      else if other = (path.1, path.2 ++ ".tmp") then none else store.find other := by
  unfold Storage.put at h
  split at h
  · cases h
  · rename_i found same
    rw [safe] at same
    cases same
    split at h
    · cases h
    · cases h
      by_cases here : other = path
      · rw [here, if_pos rfl, Storage.find, AList.lookup_insert]
      · rw [if_neg here, Storage.find, AList.lookup_insert_ne here]
        by_cases tmp : other = (path.1, path.2 ++ ".tmp")
        · rw [if_pos tmp, tmp, AList.lookup_erase]
        · rw [if_neg tmp, AList.lookup_erase_ne tmp]
          rfl

theorem isTmp_append (name : String) : isTmp (name ++ ".tmp") = true := by
  simp [isTmp]

theorem Storage.put_find {store after : Storage} {key : String} {data : Bytes} {path : BlobPath}
    (safe : safePath key = some path) (h : store.put key data = some after) (other : BlobPath)
    (visible : isTmp other.2 = false) :
    after.find other = if other = path then some data else store.find other := by
  have apart : other ≠ (path.1, path.2 ++ ".tmp") := by
    rintro rfl
    rw [isTmp_append] at visible
    cases visible
  rw [Storage.put_lookup safe h, if_neg apart]

theorem Storage.put_some (store : Storage) {key : String} {path : BlobPath} (data : Bytes)
    (safe : safePath key = some path) (named : path.2 ≠ ".") : ∃ after, store.put key data = some after := by
  unfold Storage.put
  split
  · rename_i none_found
    rw [safe] at none_found
    cases none_found
  · rename_i found same
    rw [safe] at same
    cases same
    rw [if_neg named]
    exact ⟨_, rfl⟩

theorem Storage.list_empty (start : String) : Storage.empty.list start = [] := by
  have keys : Storage.empty.blobs.keys = [] := rfl
  simp [Storage.list, keys]

theorem Storage.get_eq {store : Storage} {key : String} {path : BlobPath}
    (safe : safePath key = some path) : store.get key = store.find path := by
  rw [Storage.get, safe, Option.bind_some]

/-- The two components of an accepted key, as the pattern sees them. -/
theorem safePath_segments {key : String} {path : BlobPath} (h : safePath key = some path) :
    isSegment isNamespaceChar path.1.toList = true ∧ isSegment isNameChar (bareName path.2.toList) = true ∧
      hasDots key.toList = false := by
  unfold safePath at h
  simp only at h
  split at h
  · rename_i accepted
    cases h
    simp only [Bool.and_eq_true, Bool.not_eq_true'] at accepted
    simp only [String.toList_ofList]
    exact ⟨accepted.1.1, accepted.1.2, accepted.2⟩
  · cases h

theorem mem_bareName {name : List Char} {c : Char} (inside : c ∈ name) (solid : c ≠ '\n') :
    c ∈ bareName name := by
  unfold bareName
  split
  · rename_i last
    obtain ⟨front, rfl⟩ := List.getLast?_eq_some_iff.mp last
    rw [List.dropLast_concat]
    exact (List.mem_append.mp inside).resolve_right fun newline => solid (List.mem_singleton.mp newline)
  · exact inside

theorem isSegment_class {inClass : Char → Bool} {segment : List Char} (h : isSegment inClass segment = true) :
    ∀ c ∈ segment, inClass c = true := by
  rw [isSegment, Bool.and_eq_true] at h
  exact List.all_eq_true.mp h.2

/-- What stands before a slash has no slash. -/
theorem takeWhile_slash {a : List Char} (b : List Char) (free : '/' ∉ a) :
    (a ++ '/' :: b).takeWhile (· ≠ '/') = a := by
  rw [List.takeWhile_append_of_pos, List.takeWhile_cons_of_neg (by decide), List.append_nil]
  intro c inside
  apply decide_eq_true
  rintro rfl
  exact free inside

theorem dropWhile_slash {a : List Char} (b : List Char) (free : '/' ∉ a) :
    (a ++ '/' :: b).dropWhile (· ≠ '/') = '/' :: b := by
  rw [List.dropWhile_append_of_pos, List.dropWhile_cons_of_neg (by decide)]
  intro c inside
  apply decide_eq_true
  rintro rfl
  exact free inside

/-- An accepted key is its two components joined by its only slash. -/
theorem safePath_parts {key : String} {path : BlobPath} (h : safePath key = some path) :
    key.toList = path.1.toList ++ '/' :: path.2.toList ∧ '/' ∉ path.1.toList ∧
      '/' ∉ path.2.toList := by
  obtain ⟨space, name, _⟩ := safePath_segments h
  have noSlash : '/' ∉ path.1.toList := fun member => absurd (isSegment_class space '/' member) (by decide)
  have noSlash' : '/' ∉ path.2.toList := fun member =>
    absurd (isSegment_class name '/' (mem_bareName member (by decide))) (by decide)
  refine ⟨?_, noSlash, noSlash'⟩
  unfold safePath at h
  simp only at h
  split at h
  · cases h
    simp only [String.toList_ofList] at name ⊢
    cases rest : key.toList.dropWhile (· ≠ '/') with
    | nil =>
        rw [rest] at name
        exact absurd name (by decide)
    | cons c name =>
        have slash : c = '/' := by
          have stop := List.head?_dropWhile_not (· ≠ '/') key.toList
          rw [rest] at stop
          simpa using stop
        conv => lhs; rw [← List.takeWhile_append_dropWhile (p := (· ≠ '/')) (l := key.toList), rest]
        rw [slash]
        rfl
  · cases h

/-- An accepted key is its path, so two keys of one path are one. -/
theorem safePath_inj {key key' : String} {path : BlobPath} (h : safePath key = some path)
    (h' : safePath key' = some path) : key = key' := by
  apply String.toList_injective
  rw [(safePath_parts h).1, (safePath_parts h').1]

theorem Storage.get_of_find {store : Storage} {path : BlobPath} {data : Bytes}
    (h : store.find path = some data) : store.get (path.1 ++ "/" ++ path.2) = some data := by
  have member : path ∈ store.blobs := by
    rw [← AList.lookup_isSome]
    exact Option.isSome_iff_exists.mpr ⟨data, h⟩
  obtain ⟨key, safe⟩ := store.legal path member
  have joined : path.1 ++ "/" ++ path.2 = key := by
    apply String.toList_injective
    rw [(safePath_parts safe).1]
    simp
  rw [joined, Storage.get_eq safe, h]

theorem safePath_namespace {key : String} {path : BlobPath} (h : safePath key = some path) :
    '/' ∉ path.1.toList := (safePath_parts h).2.1

/-- A key that ends in a slash and a name is accepted with that name only. -/
theorem safePath_suffix {space name : String} {path : BlobPath} (hn : '/' ∉ name.toList)
    (h : safePath (space ++ "/" ++ name) = some path) : path = (space, name) := by
  obtain ⟨split, noSlash, noSlash'⟩ := safePath_parts h
  simp only [String.toList_append] at split
  have slash : "/".toList = ['/'] := rfl
  rw [slash, List.append_assoc, List.singleton_append] at split
  have after : ∀ (a b : List Char), '/' ∉ b →
      ((a ++ '/' :: b).reverse.takeWhile (· ≠ '/')).reverse = b := by
    intro a b free
    rw [List.reverse_append, List.reverse_cons, List.append_assoc, List.takeWhile_append_of_pos,
      List.singleton_append, List.takeWhile_cons_of_neg (by decide), List.append_nil,
      List.reverse_reverse]
    intro c inside
    apply decide_eq_true
    rintro rfl
    exact free (List.mem_reverse.mp inside)
  have names : name.toList = path.2.toList := by
    rw [← after space.toList name.toList hn, split, after _ _ noSlash']
  rw [names] at split
  have spaces := List.append_cancel_right split
  exact Prod.ext (String.toList_injective spaces.symm) (String.toList_injective names.symm)

theorem Storage.find_of_get {store : Storage} {space name : String} {data : Bytes}
    (hn : '/' ∉ name.toList) (h : store.get (space ++ "/" ++ name) = some data) :
    store.find (space, name) = some data := by
  rw [Storage.get, Option.bind_eq_some_iff] at h
  obtain ⟨path, safe, present⟩ := h
  rw [← safePath_suffix hn safe]
  exact present

theorem hasDots_append {start rest : List Char} (h : '.' ∉ start) : hasDots (start ++ rest) = hasDots rest := by
  induction start with
  | nil => rfl
  | cons c start ih =>
      simp only [List.mem_cons, not_or] at h
      rw [List.cons_append, hasDots.eq_def]
      split
      · rename_i same
        exact absurd (List.cons.inj same).1.symm h.1
      · rename_i same
        rw [← (List.cons.inj same).2, ih h.2]
      · rename_i same
        cases same

/-- Two segments of their characters, joined by a slash, are a key. -/
theorem safePath_join {space name : List Char} (hs : isSegment isNamespaceChar space = true)
    (hn : isSegment isNameChar name = true) (plain : hasDots name = false) :
    safePath (String.ofList (space ++ '/' :: name)) = some (String.ofList space, String.ofList name) := by
  have classes := isSegment_class hs
  have noSlash : '/' ∉ space := fun member => absurd (classes '/' member) (by decide)
  have noDot : '.' ∉ space := fun member => absurd (classes '.' member) (by decide)
  have noNewline : name.getLast? ≠ some '\n' := fun last =>
    absurd (isSegment_class hn '\n' (List.mem_of_getLast? last)) (by decide)
  have taken := takeWhile_slash name noSlash
  have dropped := dropWhile_slash name noSlash
  have dots : hasDots (space ++ '/' :: name) = false := by
    rw [hasDots_append noDot]
    cases name with
    | nil => rfl
    | cons c name => exact plain
  have bare : bareName name = name := if_neg noNewline
  simp only [safePath, String.toList_ofList, taken, dropped, List.drop_one, List.tail_cons, bare, hs, hn, dots,
    Bool.not_false, Bool.and_self, if_true]

/-! ## The blobs of a transfer -/

/-- The name `chunk_key` gives a chunk in its namespace. -/
def chunkName (index : Nat) : String := "chunk_" ++ String.ofList (decimal8 index)

theorem manifestKey_join (transferIdHex : String) :
    manifestKey transferIdHex = transferIdHex ++ "/" ++ "manifest" := by
  apply String.toList_injective
  simp [manifestKey]

theorem signatureKey_join (transferIdHex : String) :
    signatureKey transferIdHex = transferIdHex ++ "/" ++ "manifest.sig" := by
  apply String.toList_injective
  simp [signatureKey]

theorem chunkKey_join (transferIdHex : String) (index : Nat) :
    chunkKey transferIdHex index = transferIdHex ++ "/" ++ chunkName index := by
  apply String.toList_injective
  simp [chunkKey, chunkName]

theorem hexChars_class (bytes : Bytes) : ∀ c ∈ hexChars bytes, isNamespaceChar c = true := by
  have table : ∀ digit, digit < 16 → isNamespaceChar (hexChar digit) = true := by decide
  intro c member
  simp only [hexChars, List.mem_flatMap, List.mem_cons, List.not_mem_nil, or_false] at member
  obtain ⟨b, _, high | low⟩ := member
  · rw [high]
    exact table _ (by have := b.toNat_lt; omega)
  · rw [low]
    exact table _ (by omega)

theorem hexChars_length (bytes : Bytes) : (hexChars bytes).length = 2 * bytes.length := by
  induction bytes with
  | nil => rfl
  | cons b bytes ih =>
      have split : hexChars (b :: bytes) =
          hexChar (b.toNat / 16) :: hexChar (b.toNat % 16) :: hexChars bytes := rfl
      rw [split]
      simp only [List.length_cons, ih]
      omega

theorem hex_segment {id : Bytes} (size : id.length = transferIdLen) :
    isSegment isNamespaceChar (hexChars id) = true := by
  have length : (hexChars id).length = 32 := by
    rw [hexChars_length, size]
    rfl
  simp only [isSegment, length, List.all_eq_true.mpr (hexChars_class id), Bool.and_true]
  decide

theorem decimal8_digit (n : Nat) : ∀ c ∈ decimal8 n, c.isDigit = true := by
  intro c member
  simp only [decimal8, List.mem_append, List.mem_replicate] at member
  rcases member with ⟨_, zero⟩ | digit
  · rw [zero]
    decide
  · exact Json.toDigits_digit digit

theorem decimal8_length {n : Nat} (h : n < 2 ^ 64) : (decimal8 n).length ≤ 20 := by
  have digits := Nat.toDigits_length 10 n 20 (by decide) (by omega)
  simp only [decimal8, List.length_append, List.length_replicate]
  omega

theorem decimal8_inj {n m : Nat} (h : decimal8 n = decimal8 m) : n = m := by
  have value : ∀ k n : Nat, Nat.ofDigitChars 10 (List.replicate k '0' ++ Nat.toDigits 10 n) 0 = n := by
    intro k n
    induction k with
    | zero => exact Nat.ofDigitChars_ten_toDigits
    | succ k ih =>
        rw [List.replicate_succ, List.cons_append]
        simpa [Nat.ofDigitChars] using ih
  have same := congrArg (Nat.ofDigitChars 10 · 0) h
  simp only [decimal8, value] at same
  exact same

theorem chunkName_inj {i j : Nat} (h : chunkName i = chunkName j) : i = j := by
  have same := congrArg String.toList h
  simp only [chunkName, String.toList_append, String.toList_ofList] at same
  exact decimal8_inj (List.append_cancel_left same)

theorem chunkName_class (index : Nat) :
    ∀ c ∈ (chunkName index).toList, isNamespaceChar c = true := by
  intro c member
  simp only [chunkName, String.toList_append, String.toList_ofList, List.mem_append] at member
  rcases member with fixed | digit
  · have table : "chunk_".toList.all isNamespaceChar = true := by decide
    exact List.all_eq_true.mp table c fixed
  · simp only [isNamespaceChar, Char.isAlphanum, decimal8_digit index c digit, Bool.or_true,
      Bool.true_or]

theorem chunkName_ne (index : Nat) : chunkName index ≠ "manifest" ∧ chunkName index ≠ "manifest.sig" := by
  have start : (chunkName index).toList.head? = some 'c' := by
    simp [chunkName]
  constructor
  · intro same
    rw [same] at start
    exact absurd start (by decide)
  · intro same
    rw [same] at start
    exact absurd start (by decide)

/-- A name without a dot is no temporary name. -/
theorem isTmp_of_noDot {name : String} (h : '.' ∉ name.toList) : isTmp name = false := by
  rw [isTmp, ← Bool.not_eq_true, List.isSuffixOf_iff_suffix]
  rintro ⟨start, same⟩
  apply h
  rw [← same]
  exact List.mem_append_right _ (by decide)

theorem chunkName_noDot (index : Nat) : '.' ∉ (chunkName index).toList := fun member =>
  absurd (chunkName_class index '.' member) (by decide)

theorem isTmp_chunkName (index : Nat) : isTmp (chunkName index) = false :=
  isTmp_of_noDot (chunkName_noDot index)

theorem hasDots_chunkName (index : Nat) : hasDots (chunkName index).toList = false := by
  rw [← List.append_nil (chunkName index).toList, hasDots_append (chunkName_noDot index)]
  rfl

theorem chunkName_segment {index : Nat} (small : index < 2 ^ 64) :
    isSegment isNameChar (chunkName index).toList = true := by
  have length := decimal8_length small
  have whole : (chunkName index).toList.length = 6 + (decimal8 index).length := by
    simp only [chunkName, String.toList_append, String.toList_ofList, List.length_append]
    rfl
  have classes : (chunkName index).toList.all isNameChar = true := by
    refine List.all_eq_true.mpr fun c member => ?_
    rw [isNameChar, chunkName_class index c member, Bool.true_or]
  simp only [isSegment, classes, whole, Bool.and_true, Bool.and_eq_true, decide_eq_true_eq]
  omega

section Keys

variable {id : Bytes} (size : id.length = transferIdLen)
include size

theorem safePath_hex (name : List Char) (hn : isSegment isNameChar name = true)
    (plain : hasDots name = false) :
    safePath (hex id ++ "/" ++ String.ofList name) = some (hex id, String.ofList name) := by
  have joined : hex id ++ "/" ++ String.ofList name = String.ofList (hexChars id ++ '/' :: name) := by
    apply String.toList_injective
    simp [hex]
  rw [joined, safePath_join (hex_segment size) hn plain]
  rfl

theorem safePath_manifestKey : safePath (manifestKey (hex id)) = some (hex id, "manifest") := by
  have safe := safePath_hex size "manifest".toList (by decide) (by decide)
  rwa [String.ofList_toList, ← manifestKey_join] at safe

theorem safePath_signatureKey :
    safePath (signatureKey (hex id)) = some (hex id, "manifest.sig") := by
  have safe := safePath_hex size "manifest.sig".toList (by decide) (by decide)
  rwa [String.ofList_toList, ← signatureKey_join] at safe

theorem safePath_chunkKey {index : Nat} (small : index < 2 ^ 64) :
    safePath (chunkKey (hex id) index) = some (hex id, chunkName index) := by
  have safe := safePath_hex size (chunkName index).toList (chunkName_segment small) (hasDots_chunkName index)
  rwa [String.ofList_toList, ← chunkKey_join] at safe

end Keys

theorem splitLines_single {key : String} (some_chars : key.toList ≠ []) (h : '\n' ∉ key.toList) :
    splitLines key = [key] := by
  have whole : key.toList.splitOn '\n' = [key.toList] := by
    rw [List.splitOn, List.splitOnP_eq_singleton]
    · intro c member
      apply beq_eq_false_iff_ne.mpr
      rintro rfl
      exact h member
  simp [splitLines, whole, some_chars]

/-- What is put of `key` at most adds its blob. -/
theorem Storage.put_find_some {store after : Storage} {key : String} {data found : Bytes}
    {path other : BlobPath} (safe : safePath key = some path) (h : store.put key data = some after)
    (present : after.find other = some found) :
    (other = path ∧ found = data) ∨ (other ≠ path ∧ store.find other = some found) := by
  rw [Storage.put_lookup safe h] at present
  by_cases here : other = path
  · rw [if_pos here] at present
    exact .inl ⟨here, (Option.some.inj present).symm⟩
  · rw [if_neg here] at present
    split at present
    · cases present
    · exact .inr ⟨here, present⟩

/-- A blob without a newline in its path is listed under its namespace. -/
theorem listed_of_find {store : Storage} {path : BlobPath} {data : Bytes}
    (h : store.find path = some data) (visible : isTmp path.2 = false)
    (space : '\n' ∉ path.1.toList) (name : '\n' ∉ path.2.toList) :
    path.1 ++ "/" ++ path.2 ∈ (store.list (path.1 ++ "/")).flatMap splitLines := by
  have member : path ∈ store.blobs.keys :=
    AList.mem_keys.mp (AList.lookup_isSome.mp (Option.isSome_iff_exists.mpr ⟨data, h⟩))
  have single : splitLines (path.1 ++ "/" ++ path.2) = [path.1 ++ "/" ++ path.2] := by
    apply splitLines_single (by simp)
    simp only [String.toList_append, List.mem_append, not_or]
    exact ⟨⟨space, by decide⟩, name⟩
  refine List.mem_flatMap.mpr ⟨path.1 ++ "/" ++ path.2, ?_, by rw [single]; simp⟩
  simp only [Storage.list, List.mem_filter, List.mem_map, List.mem_mergeSort]
  refine ⟨⟨path, ⟨member, by rw [visible]; rfl⟩, rfl⟩, ?_⟩
  rw [List.isPrefixOf_iff_prefix]
  exact ⟨path.2.toList, String.toList_append.symm⟩

/-- A chunk key that is listed under the namespace of its transfer is there, if the names
    in that namespace hold no newline. -/
theorem listed_chunk {store : Storage} {id : Bytes} {index : Nat}
    (clean : ∀ name data, store.find (hex id, name) = some data → '\n' ∉ name.toList)
    (h : chunkKey (hex id) index ∈ (store.list (hex id ++ "/")).flatMap splitLines) :
    ∃ data, store.find (hex id, chunkName index) = some data := by
  obtain ⟨key, listed, line⟩ := List.mem_flatMap.mp h
  simp only [Storage.list, List.mem_filter, List.mem_map, List.mem_mergeSort] at listed
  obtain ⟨⟨path, ⟨member, _⟩, rfl⟩, start⟩ := listed
  obtain ⟨data, present⟩ : ∃ data, store.find path = some data := by
    have inside : path ∈ store.blobs := AList.mem_keys.mpr member
    rw [← AList.lookup_isSome, Option.isSome_iff_exists] at inside
    exact inside
  obtain ⟨key', safe⟩ := store.legal path (AList.mem_keys.mpr member)
  have noSlash := safePath_namespace safe
  have hexClass := hexChars_class id
  have hexText : (hex id).toList = hexChars id := by rw [hex, String.toList_ofList]
  have hexNoSlash : '/' ∉ hexChars id := fun slash => absurd (hexClass '/' slash) (by decide)
  have hexNoNewline : '\n' ∉ hexChars id := fun newline => absurd (hexClass '\n' newline) (by decide)
  -- the namespace is what stands before the first slash
  have space : path.1 = hex id := by
    rw [List.isPrefixOf_iff_prefix] at start
    obtain ⟨rest, split⟩ := start
    simp only [String.toList_append, hexText, List.append_assoc] at split
    have cut := congrArg (List.takeWhile (· ≠ '/')) split
    have slash : "/".toList = ['/'] := rfl
    rw [slash, List.singleton_append, List.singleton_append, takeWhile_slash _ hexNoSlash,
      takeWhile_slash _ noSlash] at cut
    apply String.toList_injective
    rw [hexText, cut]
  have name_clean : '\n' ∉ path.2.toList := clean path.2 data (by rw [← space]; exact present)
  have single : splitLines (path.1 ++ "/" ++ path.2) = [path.1 ++ "/" ++ path.2] := by
    refine splitLines_single ?_ ?_
    · simp
    · simp only [String.toList_append, space, hexText, List.mem_append, not_or]
      exact ⟨⟨hexNoNewline, by decide⟩, name_clean⟩
  rw [single, List.mem_singleton, space] at line
  have named : path.2 = chunkName index := by
    apply String.toList_injective
    have same := congrArg String.toList line
    simp only [chunkKey, String.toList_append, List.append_assoc] at same
    have rest := List.append_cancel_left same
    rw [chunkName, String.toList_append]
    exact (List.cons.inj rest).2.symm
  refine ⟨data, ?_⟩
  rw [← named, ← space]
  exact present

end SecureTransfer.ApproachB
