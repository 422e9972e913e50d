import SecureTransfer.Library.ChunkedFile

/-! # Files behind a write buffer

A file as it lies on disk, and what was written to it since the last flush. The process
reads all of that. A kill keeps a beginning of it, cut at any byte. A seek flushes, and what is
longer than the buffer is written through.
-/

namespace SecureTransfer.Library

variable {α : Type}

/-- Seeks and writes, the first one first. -/
def applyWrites (z : α) (writes : List (Nat × List α)) (file : List α) : List α :=
  writes.foldl (fun file write => writeAt z write.1 write.2 file) file

theorem applyWrites_concat (z : α) (writes : List (Nat × List α)) (write : Nat × List α) (file : List α) :
    applyWrites z (writes ++ [write]) file = writeAt z write.1 write.2 (applyWrites z writes file) := by
  simp only [applyWrites, List.foldl_append, List.foldl_cons, List.foldl_nil]

/-- `kept` is a beginning of the bytes of `writes`. -/
inductive Torn : List (Nat × List α) → List (Nat × List α) → Prop where
  | lost (writes : List (Nat × List α)) : Torn writes []
  | cut (offset n : Nat) (data : List α) (rest : List (Nat × List α)) :
      Torn ((offset, data) :: rest) [(offset, data.take n)]
  | kept {rest kept : List (Nat × List α)} (write : Nat × List α) (h : Torn rest kept) :
      Torn (write :: rest) (write :: kept)

theorem Torn.all (writes : List (Nat × List α)) : Torn writes writes := by
  induction writes with
  | nil => exact .lost []
  | cons write rest ih => exact .kept write ih

/-- Writing the beginning of a chunk leaves every chunk in place that was. -/
theorem holdsAt_writeAt_chunk (z : α) {c i j n : Nat} {xs file : List α}
    (held : HoldsAt file (i * c) (chunk c i xs)) :
    HoldsAt (writeAt z (j * c) ((chunk c j xs).take n) file) (i * c) (chunk c i xs) := by
  by_cases here : i = j
  · rw [← here, (held.take n).writeAt_eq z]
    exact held
  · refine held.writeAt_disjoint z (chunks_apart here (by simp) ?_)
    exact (List.length_take_le' n (chunk c j xs)).trans (by simp)

/-- The last of some writes is lost, or all others are kept. -/
theorem Torn.concat_cases {writes kept : List (Nat × List α)} {offset : Nat} {data : List α}
    (torn : Torn (writes ++ [(offset, data)]) kept) :
    Torn writes kept ∨ ∃ n, kept = writes ++ [(offset, data.take n)] := by
  induction writes generalizing kept with
  | nil =>
      cases torn with
      | lost => exact .inl (.lost _)
      | cut _ n => exact .inr ⟨n, rfl⟩
      | kept _ h =>
          cases h
          exact .inr ⟨data.length, by rw [List.take_length]; rfl⟩
  | cons write rest ih =>
      cases torn with
      | lost => exact .inl (.lost _)
      | cut offset n data => exact .inl (.cut offset n data rest)
      | kept _ h =>
          rcases ih h with torn | ⟨n, rfl⟩
          · exact .inl (.kept write torn)
          · exact .inr ⟨n, rfl⟩

/-- However much arrives of chunks that are written, a chunk that was in place stays there. -/
theorem Torn.holdsAt_chunk {writes kept : List (Nat × List α)} (torn : Torn writes kept) (z : α) {c i : Nat}
    {xs file : List α} (chunks : ∀ write ∈ writes, ∃ j, write = (j * c, chunk c j xs))
    (held : HoldsAt file (i * c) (chunk c i xs)) :
    HoldsAt (applyWrites z kept file) (i * c) (chunk c i xs) := by
  induction torn generalizing file with
  | lost => exact held
  | cut offset n data rest =>
      obtain ⟨j, same⟩ := chunks _ List.mem_cons_self
      cases same
      exact holdsAt_writeAt_chunk z held
  | kept write h ih =>
      obtain ⟨j, rfl⟩ := chunks write List.mem_cons_self
      refine ih (fun other member => chunks other (List.mem_cons_of_mem _ member)) ?_
      rw [← List.take_length (l := chunk c j xs)]
      exact holdsAt_writeAt_chunk z held

structure BufferedFile (α : Type) where
  disk : List α
  pending : List (Nat × List α)

namespace BufferedFile

variable (z : α) (file : BufferedFile α)

/-- What the process reads. -/
def view : List α := applyWrites z file.pending file.disk

def write (offset : Nat) (data : List α) : BufferedFile α :=
  { file with pending := file.pending ++ [(offset, data)] }

def flush : BufferedFile α := ⟨file.view z, []⟩

/-- A seek, which flushes, and the beginning of a write behind it. -/
def seekWrite (offset : Nat) (data : List α) : BufferedFile α := (file.flush z).write offset data

/-- The end of a write: a buffer of this capacity keeps the data only if they fit. -/
def settle (capacity : Nat) : BufferedFile α :=
  if capacity < (file.pending.map fun write => write.2.length).sum then file.flush z else file

/-- What a kill may leave on disk. -/
def Survives (left : List α) : Prop := ∃ kept, Torn file.pending kept ∧ left = applyWrites z kept file.disk

@[simp] theorem view_write (offset : Nat) (data : List α) :
    (file.write offset data).view z = writeAt z offset data (file.view z) := applyWrites_concat z ..

@[simp] theorem view_flush : (file.flush z).view z = file.view z := rfl

@[simp] theorem view_seekWrite (offset : Nat) (data : List α) :
    (file.seekWrite z offset data).view z = writeAt z offset data (file.view z) := view_write ..

@[simp] theorem view_settle (capacity : Nat) : (file.settle z capacity).view z = file.view z := by
  unfold settle
  split <;> rfl

theorem view_single {offset : Nat} {data : List α} (pending : file.pending = [(offset, data)]) :
    file.view z = writeAt z offset data file.disk := by
  rw [view, pending]
  rfl

theorem settle_single (capacity : Nat) {offset : Nat} {data : List α} (pending : file.pending = [(offset, data)]) :
    file.settle z capacity = if capacity < data.length then file.flush z else file := by
  rw [settle, pending, List.map_singleton, List.sum_singleton]

theorem survives_disk : file.Survives z file.disk := ⟨[], .lost _, rfl⟩

theorem survives_view : file.Survives z (file.view z) := ⟨file.pending, Torn.all _, rfl⟩

/-- A kill leaves what was on disk and a beginning of what came behind it. -/
def Growing : Prop := ∀ left, file.Survives z left → file.disk <+: left ∧ left <+: file.view z

variable {z file}

theorem growing_opened (disk : List α) : (⟨disk, []⟩ : BufferedFile α).Growing z := by
  rintro left ⟨kept, torn, rfl⟩
  cases torn
  exact ⟨List.prefix_rfl, List.prefix_rfl⟩

/-- Appending keeps it so. -/
theorem Growing.write (growing : file.Growing z) (data : List α) :
    (file.write (file.view z).length data).Growing z := by
  rintro left ⟨kept, torn, rfl⟩
  rw [view_write, writeAt_end]
  rcases torn.concat_cases with before | ⟨n, rfl⟩
  · obtain ⟨longer, start⟩ := growing _ ⟨kept, before, rfl⟩
    exact ⟨longer, start.trans (List.prefix_append _ _)⟩
  · have left : applyWrites z (file.pending ++ [((file.view z).length, data.take n)]) file.disk =
        file.view z ++ data.take n := by rw [applyWrites_concat, ← view, writeAt_end]
    change file.disk <+: applyWrites z (file.pending ++ _) file.disk ∧ applyWrites z (file.pending ++ _) file.disk <+: _
    rw [left]
    exact ⟨(growing _ (survives_view z file)).1.trans (List.prefix_append _ _),
      (List.prefix_append_right_inj _).mpr (List.take_prefix n data)⟩

end BufferedFile

end SecureTransfer.Library
