import Mathlib.Data.List.Induction
import Mathlib.Algebra.Order.Ring.Nat

/-! # Files cut into chunks

A file is a list over any type, and `c` is the size of its chunks. The section on
`writeAt` describes a seek followed by a write, pointwise; the one on `assemble`
describes a file that is filled chunk by chunk in any order, and says exactly when
the result is the file the chunks were cut from.
-/

namespace SecureTransfer.Library

variable {α : Type}

/-! ## Chunks -/

/-- What reading `c` elements at position `i * c` returns. -/
def chunk (c i : Nat) (xs : List α) : List α := (xs.drop (i * c)).take c

/-- The number of chunks of a file of `n` elements. -/
def chunkCount (c n : Nat) : Nat := (n + c - 1) / c

theorem lt_chunkCount {c n i : Nat} (hc : 0 < c) : i < chunkCount c n ↔ i * c < n := by
  rw [chunkCount, Nat.lt_iff_add_one_le, Nat.le_div_iff_mul_le hc, add_mul, one_mul]
  omega

theorem chunk_getElem? (c i k : Nat) (xs : List α) :
    (chunk c i xs)[k]? = if k < c then xs[i * c + k]? else none := by
  rw [chunk, List.getElem?_take, List.getElem?_drop]

@[simp] theorem chunk_length (c i : Nat) (xs : List α) :
    (chunk c i xs).length = min c (xs.length - i * c) := by
  simp [chunk]

theorem chunk_ne_nil {c i : Nat} {xs : List α} (hc : 0 < c) (h : i * c < xs.length) :
    chunk c i xs ≠ [] := by
  rw [← List.length_pos_iff, chunk_length]
  omega

/-- Reading the chunks one after another returns the file up to where they end. -/
theorem chunks_flatten (c n : Nat) (xs : List α) :
    ((List.range n).map fun i => chunk c i xs).flatten = xs.take (n * c) := by
  induction n with
  | zero => simp
  | succ n ih =>
      rw [List.range_succ, List.map_append, List.flatten_append, ih, List.map_singleton,
        List.flatten_singleton, chunk, Nat.succ_mul, List.take_add]

theorem chunks_flatten_all {c : Nat} (hc : 0 < c) (xs : List α) :
    ((List.range (chunkCount c xs.length)).map fun i => chunk c i xs).flatten = xs := by
  rw [chunks_flatten, List.take_of_length_le]
  by_contra short
  exact absurd ((lt_chunkCount hc).mpr (not_le.mp short)) (lt_irrefl _)

/-- The indices before one of them, and the others. -/
theorem range_split {j n : Nat} (below : j < n) : ∃ rest, List.range n = List.range j ++ j :: rest := by
  obtain ⟨k, rfl⟩ : ∃ k, n = j + (k + 1) := ⟨n - j - 1, by omega⟩
  rw [List.range_add, List.range_succ_eq_map, List.map_cons]
  exact ⟨_, rfl⟩

/-- A file is read by repeated reads of `c` elements until one returns nothing. -/
def pieces (c : Nat) (xs : List α) : List (List α) :=
  if c = 0 ∨ xs = [] then [] else xs.take c :: pieces c (xs.drop c)
termination_by xs.length
decreasing_by
  rename_i more
  simp only [not_or, ← List.length_pos_iff] at more
  simp only [List.length_drop]
  omega

theorem pieces_flatten {c : Nat} (hc : 0 < c) (xs : List α) : (pieces c xs).flatten = xs := by
  fun_induction pieces c xs with
  | case1 xs stop =>
      rcases stop with zero | empty
      · omega
      · rw [empty, List.flatten_nil]
  | case2 xs _ ih => rw [List.flatten_cons, ih, List.take_append_drop]

theorem mem_pieces {c : Nat} {xs piece : List α} (h : piece ∈ pieces c xs) :
    piece ≠ [] ∧ piece.length ≤ c := by
  fun_induction pieces c xs with
  | case1 xs stop => cases h
  | case2 xs more ih =>
      simp only [not_or] at more
      rcases List.mem_cons.mp h with rfl | later
      · refine ⟨?_, List.length_take_le c xs⟩
        simp only [ne_eq, List.take_eq_nil_iff, not_or]
        exact more
      · exact ih later

/-! ## Seek and write -/

/-- `f.seek(offset); f.write(data)`: what lies between the end of the file and the
    offset reads as `z`, and writing nothing changes nothing. -/
def writeAt (z : α) (offset : Nat) (data file : List α) : List α :=
  if data = [] then file
  else (file ++ List.replicate (offset - file.length) z).take offset ++ data ++
    file.drop (offset + data.length)

@[simp] theorem writeAt_nil (z : α) (offset : Nat) (file : List α) :
    writeAt z offset [] file = file := by
  simp only [writeAt, if_true]

theorem writeAt_end (z : α) (data file : List α) :
    writeAt z file.length data file = file ++ data := by
  by_cases empty : data = []
  · rw [empty, writeAt_nil, List.append_nil]
  · rw [writeAt, if_neg empty, Nat.sub_self, List.replicate_zero, List.append_nil, List.take_length,
      List.drop_eq_nil_of_le (Nat.le_add_right _ _), List.append_nil]

theorem writeAt_getElem? (z : α) (offset p : Nat) {data : List α} (hd : data ≠ [])
    (file : List α) :
    (writeAt z offset data file)[p]? =
      if p < offset then if p < file.length then file[p]? else some z
      else if p < offset + data.length then data[p - offset]?
      else file[p]? := by
  have padded : ((file ++ List.replicate (offset - file.length) z).take offset).length = offset := by
    simp only [List.length_take, List.length_append, List.length_replicate]
    omega
  rw [writeAt, if_neg hd, List.append_assoc]
  by_cases before : p < offset
  · rw [List.getElem?_append_left (by omega), List.getElem?_take_of_lt before, if_pos before]
    by_cases inside : p < file.length
    · rw [List.getElem?_append_left inside, if_pos inside]
    · rw [List.getElem?_append_right (by omega), List.getElem?_replicate, if_pos (by omega),
        if_neg inside]
  · rw [List.getElem?_append_right (by omega), padded, if_neg before]
    by_cases within : p < offset + data.length
    · rw [List.getElem?_append_left (by omega), if_pos within]
    · rw [List.getElem?_append_right (by omega), List.getElem?_drop, if_neg within]
      congr 1
      omega

theorem writeAt_length_le (z : α) {offset n : Nat} {data file : List α} (short : file.length ≤ n)
    (fits : offset + data.length ≤ n) : (writeAt z offset data file).length ≤ n := by
  unfold writeAt
  split
  · exact short
  · simp only [List.length_append, List.length_take, List.length_replicate, List.length_drop]
    omega

/-- From `offset` on, the file starts with `data`. -/
def HoldsAt (file : List α) (offset : Nat) (data : List α) : Prop := data <+: file.drop offset

theorem holdsAt_iff {file data : List α} {offset : Nat} :
    HoldsAt file offset data ↔ ∀ k < data.length, file[offset + k]? = data[k]? := by
  constructor
  · rintro ⟨rest, split⟩ k inside
    rw [← List.getElem?_drop, ← split, List.getElem?_append_left inside]
  · intro agree
    refine ⟨(file.drop offset).drop data.length, List.ext_getElem? fun k => ?_⟩
    by_cases inside : k < data.length
    · rw [List.getElem?_append_left inside, List.getElem?_drop, agree k inside]
    · rw [List.getElem?_append_right (by omega), List.getElem?_drop, Nat.add_sub_cancel' (by omega)]

theorem HoldsAt.nil (file : List α) (offset : Nat) : HoldsAt file offset [] := List.nil_prefix

theorem holdsAt_writeAt (z : α) (offset : Nat) (data file : List α) :
    HoldsAt (writeAt z offset data file) offset data := by
  rw [holdsAt_iff]
  intro k inside
  have some_data : data ≠ [] := by
    rintro rfl
    exact absurd inside (Nat.not_lt_zero k)
  rw [writeAt_getElem? z offset (offset + k) some_data, if_neg (by omega), if_pos (by omega),
    Nat.add_sub_cancel_left]

/-- Writing what is there changes nothing. -/
theorem HoldsAt.writeAt_eq {file data : List α} {offset : Nat} (z : α) (h : HoldsAt file offset data) :
    writeAt z offset data file = file := by
  by_cases empty : data = []
  · rw [empty, writeAt_nil]
  · have inside : offset + data.length ≤ file.length := by
      have size := List.IsPrefix.length_le h
      have some_data := List.length_pos_iff.mpr empty
      rw [List.length_drop] at size
      omega
    rw [holdsAt_iff] at h
    refine List.ext_getElem? fun p => ?_
    rw [writeAt_getElem? z offset p empty]
    split
    · rw [if_pos (by omega)]
    · split
      · rw [← h (p - offset) (by omega), Nat.add_sub_cancel' (by omega)]
      · rfl

theorem HoldsAt.take {file data : List α} {offset : Nat} (h : HoldsAt file offset data) (n : Nat) :
    HoldsAt file offset (data.take n) := (List.take_prefix n data).trans h

/-- A write leaves alone what another range of the file holds. -/
theorem HoldsAt.writeAt_disjoint {file data other : List α} {offset at_ : Nat} (z : α)
    (h : HoldsAt file at_ other)
    (apart : at_ + other.length ≤ offset ∨ offset + data.length ≤ at_) :
    HoldsAt (writeAt z offset data file) at_ other := by
  by_cases empty : data = []
  · rwa [empty, writeAt_nil]
  · rw [holdsAt_iff] at h ⊢
    intro k inside
    have present : at_ + k < file.length := by
      by_contra missing
      have none_left := h k inside
      rw [List.getElem?_eq_none (by omega), eq_comm, List.getElem?_eq_none_iff] at none_left
      omega
    rw [writeAt_getElem? z offset (at_ + k) empty]
    rcases apart with after | before
    · rw [if_pos (by omega), if_pos present, h k inside]
    · rw [if_neg (by omega), if_neg (by omega), h k inside]

/-- Ranges of at most `c` elements that start at different multiples of `c`. -/
theorem chunks_apart {c i j n m : Nat} (other : i ≠ j) (small : n ≤ c) (small' : m ≤ c) :
    i * c + n ≤ j * c ∨ j * c + m ≤ i * c := by
  rcases Nat.lt_or_gt_of_ne other with below | above
  · have := Nat.mul_le_mul_right c (Nat.succ_le_of_lt below)
    rw [Nat.succ_mul] at this
    omega
  · have := Nat.mul_le_mul_right c (Nat.succ_le_of_lt above)
    rw [Nat.succ_mul] at this
    omega

/-! ## Assembling a file from its chunks -/

/-- Write the chunks `is` of `xs`, in order, into `file`. -/
def assemble (z : α) (c : Nat) (xs : List α) (is : List Nat) (file : List α) : List α :=
  is.foldl (fun file i => writeAt z (i * c) (chunk c i xs) file) file

theorem assemble_cons (z : α) (c : Nat) (xs : List α) (i : Nat) (is : List Nat) (file : List α) :
    assemble z c xs (i :: is) file = assemble z c xs is (writeAt z (i * c) (chunk c i xs) file) := by
  simp only [assemble, List.foldl_cons]

theorem assemble_concat (z : α) (c : Nat) (xs : List α) (is : List Nat) (i : Nat)
    (file : List α) :
    assemble z c xs (is ++ [i]) file =
      writeAt z (i * c) (chunk c i xs) (assemble z c xs is file) := by
  simp only [assemble, List.foldl_append, List.foldl_cons, List.foldl_nil]

/-- A chunk that is in place stays there when others are written, and so does a written one. -/
theorem holdsAt_assemble (z : α) (c : Nat) (xs : List α) {i : Nat} {is : List Nat} {file : List α}
    (h : i ∈ is ∨ HoldsAt file (i * c) (chunk c i xs)) :
    HoldsAt (assemble z c xs is file) (i * c) (chunk c i xs) := by
  induction is generalizing file with
  | nil => exact h.resolve_left List.not_mem_nil
  | cons j is ih =>
      rw [assemble_cons]
      by_cases here : i = j
      · exact ih (.inr (here ▸ holdsAt_writeAt z _ _ file))
      · rcases h with member | held
        · exact ih (.inl ((List.mem_cons.mp member).resolve_left here))
        · refine ih (.inr (held.writeAt_disjoint z ?_))
          exact chunks_apart here (by simp) (by simp)

/-- Lengthening a list with `z` fills every gap that its reading leaves. -/
theorem getElem?_filled {l xs file : List α} {z : α} {p : Nat} {written gap : Prop} [Decidable written]
    [Decidable gap] (small : written → p < xs.length)
    (reads : l[p]? = if written then xs[p]? else if p < file.length then file[p]?
      else if gap then some z else none) :
    (if p < l.length then l[p]? else some z) =
      if written then xs[p]? else if p < file.length then file[p]? else some z := by
  by_cases old : p < l.length
  · rw [if_pos old, reads]
    split
    · rfl
    · split
      · rfl
      · rename_i notWritten notFile
        have reached := List.getElem?_eq_getElem old
        rw [reads, if_neg notWritten, if_neg notFile] at reached
        split at reached
        · rename_i found
          rw [if_pos found]
        · cases reached
  · have past := List.getElem?_eq_none (not_lt.mp old)
    rw [reads] at past
    rw [if_neg old]
    split at past
    · rename_i here
      rw [List.getElem?_eq_getElem (small here)] at past
      cases past
    · split at past
      · rename_i inFile
        rw [List.getElem?_eq_getElem inFile] at past
        cases past
      · rename_i notWritten notFile
        rw [if_neg notWritten, if_neg notFile]

theorem written_above {c i p n : Nat} (hc : 0 < c) (is : List Nat) (above : i * c + min c (n - i * c) ≤ p) :
    (p / c ∈ is ++ [i] ∧ p < n) ↔ (p / c ∈ is ∧ p < n) := by
  constructor
  · rintro ⟨member, small⟩
    rcases List.mem_append.mp member with old | new
    · exact ⟨old, small⟩
    · have home := (Nat.div_eq_iff hc).mp (List.mem_singleton.mp new)
      omega
  · rintro ⟨member, small⟩
    exact ⟨List.mem_append_left _ member, small⟩

theorem gap_above {c i p : Nat} (is : List Nat) (above : i * c ≤ p) :
    (∃ j ∈ is ++ [i], p < j * c) ↔ ∃ j ∈ is, p < j * c := by
  simp only [List.mem_append, List.mem_singleton]
  constructor
  · rintro ⟨j, old | rfl, small⟩
    · exact ⟨j, old, small⟩
    · omega
  · rintro ⟨j, old, small⟩
    exact ⟨j, .inl old, small⟩

/-- Position by position: a written chunk reads as `xs`, an unwritten position keeps
    what the file had, and a gap below a later written chunk reads as `z`. -/
theorem assemble_getElem? (z : α) {c : Nat} (hc : 0 < c) (xs file : List α) (is : List Nat)
    (inside : ∀ i ∈ is, i * c < xs.length) (p : Nat) :
    (assemble z c xs is file)[p]? =
      if p / c ∈ is ∧ p < xs.length then xs[p]?
      else if p < file.length then file[p]?
      else if ∃ i ∈ is, p < i * c then some z else none := by
  induction is using List.reverseRecOn with
  | nil =>
      simp only [assemble, List.foldl_nil, List.not_mem_nil, false_and, if_false, exists_false]
      split
      · rfl
      · exact List.getElem?_eq_none (by omega)
  | append_singleton is i ih =>
      have here : i * c < xs.length := inside i (by simp)
      have earlier := ih fun j member => inside j (by simp [member])
      have size : (chunk c i xs).length = min c (xs.length - i * c) := chunk_length c i xs
      have home : p / c = i ↔ i * c ≤ p ∧ p < i * c + c := by
        rw [Nat.div_eq_iff hc]
        omega
      rw [assemble_concat, writeAt_getElem? z _ _ (chunk_ne_nil hc here)]
      by_cases below : p < i * c
      · -- below the new chunk: what was there, or the gap the seek leaves
        have notHome : p / c ≠ i := fun h => by omega
        have gap : ∃ j ∈ is ++ [i], p < j * c := ⟨i, by simp, below⟩
        rw [if_pos below, if_pos gap]
        simp only [List.mem_append, List.mem_singleton, notHome, or_false]
        exact getElem?_filled And.right earlier
      · rw [if_neg below]
        by_cases within : p < i * c + (chunk c i xs).length
        · -- inside the new chunk
          have written : p / c ∈ is ++ [i] ∧ p < xs.length := by
            refine ⟨?_, by omega⟩
            rw [home.mpr (by omega)]
            simp
          rw [if_pos within, if_pos written, chunk_getElem?, if_pos (by omega)]
          congr 1
          omega
        · -- above the new chunk: nothing changes
          have above : i * c + min c (xs.length - i * c) ≤ p := by omega
          have sameWritten := written_above hc is above
          have sameGap := gap_above is (not_lt.mp below)
          rw [if_neg within, earlier]
          simp only [sameWritten, sameGap]

/-- The file lengthened with `z` to at least `n` elements. -/
def padTo (z : α) (n : Nat) (file : List α) : List α :=
  file ++ List.replicate (n - file.length) z

theorem padTo_getElem? (z : α) (n p : Nat) (file : List α) :
    (padTo z n file)[p]? =
      if p < file.length then file[p]? else if p < n then some z else none := by
  rw [padTo]
  by_cases inside : p < file.length
  · rw [List.getElem?_append_left inside, if_pos inside]
  · rw [List.getElem?_append_right (by omega), List.getElem?_replicate, if_neg inside]
    congr 1
    exact propext (by omega)

/-- The position below which a gap reads as `z`: where the last written chunk starts. -/
def lastStart (c : Nat) (is : List Nat) : Nat := (is.map (· * c)).foldr max 0

theorem lt_lastStart {c p : Nat} {is : List Nat} : p < lastStart c is ↔ ∃ i ∈ is, p < i * c := by
  induction is with
  | nil => simp [lastStart]
  | cons i is ih =>
      have step : lastStart c (i :: is) = max (i * c) (lastStart c is) := rfl
      rw [step, lt_max_iff, ih]
      simp

theorem assemble_unwritten (z : α) {c : Nat} (hc : 0 < c) (xs file : List α) (is : List Nat)
    (inside : ∀ i ∈ is, i * c < xs.length) {p : Nat} (h : ¬ (p / c ∈ is ∧ p < xs.length)) :
    (assemble z c xs is file)[p]? = (padTo z (lastStart c is) file)[p]? := by
  simp only [assemble_getElem? z hc xs file is inside, if_neg h, padTo_getElem?, lt_lastStart]

/-- Writing the chunks `is` makes the file `xs` exactly when the file was not longer
    than `xs` and already agreed with it on every other chunk. -/
theorem assemble_eq_iff (z : α) {c : Nat} (hc : 0 < c) (xs file : List α) (is : List Nat)
    (inside : ∀ i ∈ is, i * c < xs.length) :
    assemble z c xs is file = xs ↔
      file.length ≤ xs.length ∧
        ∀ i, i * c < xs.length → i ∉ is → chunk c i (padTo z (lastStart c is) file) = chunk c i xs := by
  constructor
  · intro complete
    constructor
    · by_contra long
      have beyond := assemble_unwritten z hc xs file is inside (p := xs.length) (by omega)
      rw [complete, padTo_getElem?, if_pos (by omega), List.getElem?_eq_none (le_refl _),
        List.getElem?_eq_getElem (by omega)] at beyond
      cases beyond
    · intro i here absent
      refine List.ext_getElem? fun k => ?_
      rw [chunk_getElem?, chunk_getElem?]
      split
      · rename_i small
        have home : (i * c + k) / c = i := by
          rw [Nat.div_eq_iff hc]
          omega
        rw [← assemble_unwritten z hc xs file is inside (by simp [home, absent]), complete]
      · rfl
  · rintro ⟨short, agree⟩
    refine List.ext_getElem? fun p => ?_
    by_cases written : p / c ∈ is ∧ p < xs.length
    · rw [assemble_getElem? z hc xs file is inside, if_pos written]
    · rw [assemble_unwritten z hc xs file is inside written]
      have place : p / c * c + p % c = p := by
        rw [mul_comm]
        exact Nat.div_add_mod p c
      by_cases small : p < xs.length
      · have absent : p / c ∉ is := fun member => written ⟨member, small⟩
        have same := congrArg (·[p % c]?) (agree (p / c) (by omega) absent)
        simpa only [chunk_getElem?, if_pos (Nat.mod_lt p hc), place] using same
      · have noGap : ¬ p < lastStart c is := by
          rw [lt_lastStart]
          rintro ⟨i, member, low⟩
          have := inside i member
          omega
        rw [padTo_getElem?, if_neg (by omega), if_neg noGap, List.getElem?_eq_none (by omega)]

/-- A file no longer than `xs` that holds every chunk outside `is` is completed. -/
theorem assemble_complete (z : α) {c : Nat} (hc : 0 < c) (xs file : List α) (is : List Nat)
    (inside : ∀ i ∈ is, i * c < xs.length) (short : file.length ≤ xs.length)
    (held : ∀ i, i * c < xs.length → i ∉ is → HoldsAt file (i * c) (chunk c i xs)) :
    assemble z c xs is file = xs := by
  refine (assemble_eq_iff z hc xs file is inside).mpr ⟨short, fun i here absent => ?_⟩
  have agree := holdsAt_iff.mp (held i here absent)
  refine List.ext_getElem? fun k => ?_
  have size : (chunk c i xs).length = min c (xs.length - i * c) := chunk_length c i xs
  rw [chunk_getElem?]
  split
  · rename_i small
    by_cases within : k < (chunk c i xs).length
    · have here := agree k within
      have present : i * c + k < file.length := by
        by_contra missing
        rw [List.getElem?_eq_none (by omega), List.getElem?_eq_getElem within] at here
        cases here
      rw [padTo_getElem?, if_pos present, here]
    · have noGap : ¬ i * c + k < lastStart c is := by
        rw [lt_lastStart]
        rintro ⟨j, member, low⟩
        have := inside j member
        omega
      rw [padTo_getElem?, if_neg (by omega), if_neg noGap, List.getElem?_eq_none (by omega)]
  · rw [chunk_getElem?, if_neg (by assumption)]

end SecureTransfer.Library
