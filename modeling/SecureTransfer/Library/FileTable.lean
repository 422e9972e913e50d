import SecureTransfer.Library.ChunkedFile
import Mathlib.Logic.Function.Basic

/-! # Names, files and open files

A directory maps names to files, and a file goes on existing under its number when its
name is given to another one. So what is open keeps the file it was opened on: a writer
may write to a file that was renamed, and a reader may read one that was replaced.
-/

namespace SecureTransfer.Library

variable {ν α : Type} [DecidableEq ν]

/-- Each file has at most one name, and `next` is a number no file has. -/
structure FileTable (ν α : Type) where
  names : ν → Option Nat
  contents : Nat → List α
  next : Nat
  single : ∀ {a b n}, names a = some n → names b = some n → a = b
  below : ∀ {a n}, names a = some n → n < next

namespace FileTable

def empty : FileTable ν α where
  names _ := none
  contents _ := []
  next := 0
  single h := nomatch h
  below h := nomatch h

/-- `open(name, "wb")`: the file under that name is truncated, or a new one is made. -/
def openTruncate (name : ν) (t : FileTable ν α) : Nat × FileTable ν α :=
  match h : t.names name with
  | some file => (file, { t with contents := Function.update t.contents file [] })
  | none => (t.next, {
      names := Function.update t.names name (some t.next)
      contents := Function.update t.contents t.next []
      next := t.next + 1
      single := by
        intro a b n ha hb
        by_cases first : a = name
        · by_cases second : b = name
          · rw [first, second]
          · rw [first, Function.update_self] at ha
            rw [Function.update_of_ne second] at hb
            cases ha
            exact absurd (t.below hb) (lt_irrefl _)
        · rw [Function.update_of_ne first] at ha
          by_cases second : b = name
          · rw [second, Function.update_self] at hb
            cases hb
            exact absurd (t.below ha) (lt_irrefl _)
          · rw [Function.update_of_ne second] at hb
            exact t.single ha hb
      below := by
        intro a n ha
        by_cases first : a = name
        · rw [first, Function.update_self] at ha
          cases ha
          exact Nat.lt_succ_self _
        · rw [Function.update_of_ne first] at ha
          exact Nat.lt_succ_of_lt (t.below ha) })

/-- A write through an open file, at the writer's own offset. -/
def write (z : α) (file offset : Nat) (piece : List α) (t : FileTable ν α) : FileTable ν α :=
  { t with contents := Function.update t.contents file (writeAt z offset piece (t.contents file)) }

/-- `os.replace(source, target)` for two different names; `none` where there is no `source`. -/
def rename (source target : ν) (t : FileTable ν α) : Option (FileTable ν α) :=
  match h : t.names source with
  | none => none
  | some file => some {
      names := Function.update (Function.update t.names target (some file)) source none
      contents := t.contents
      next := t.next
      single := by
        intro a b n ha hb
        have origin : ∀ c, Function.update (Function.update t.names target (some file)) source none c = some n →
            (c = target ∧ n = file) ∨ (c ≠ source ∧ t.names c = some n) := by
          intro c hc
          by_cases gone : c = source
          · rw [gone, Function.update_self] at hc
            cases hc
          · rw [Function.update_of_ne gone] at hc
            by_cases new : c = target
            · rw [new, Function.update_self] at hc
              cases hc
              exact .inl ⟨new, rfl⟩
            · rw [Function.update_of_ne new] at hc
              exact .inr ⟨gone, hc⟩
        rcases origin a ha with ⟨first, same⟩ | ⟨kept, old⟩
        · rcases origin b hb with ⟨second, _⟩ | ⟨kept', old'⟩
          · rw [first, second]
          · rw [same] at old'
            exact absurd (t.single old' h) kept'
        · rcases origin b hb with ⟨_, same⟩ | ⟨_, old'⟩
          · rw [same] at old
            exact absurd (t.single old h) kept
          · exact t.single old old'
      below := by
        intro a n ha
        by_cases gone : a = source
        · rw [gone, Function.update_self] at ha
          cases ha
        · rw [Function.update_of_ne gone] at ha
          by_cases new : a = target
          · rw [new, Function.update_self] at ha
            cases ha
            exact t.below h
          · rw [Function.update_of_ne new] at ha
            exact t.below ha }

/-! ## What each operation does -/

variable {t t' : FileTable ν α} {name other source target : ν}

theorem openTruncate_names : (t.openTruncate name).2.names name = some (t.openTruncate name).1 := by
  unfold openTruncate
  split
  · assumption
  · exact Function.update_self ..

theorem openTruncate_other (apart : other ≠ name) :
    (t.openTruncate name).2.names other = t.names other := by
  unfold openTruncate
  split
  · rfl
  · exact Function.update_of_ne apart ..

@[simp] theorem openTruncate_contents :
    (t.openTruncate name).2.contents = Function.update t.contents (t.openTruncate name).1 [] := by
  unfold openTruncate
  split
  · rfl
  · rfl

/-- The opened file was the named one, or it is new. -/
theorem openTruncate_file (t : FileTable ν α) (name : ν) :
    t.names name = some (t.openTruncate name).1 ∨ (t.openTruncate name).1 = t.next := by
  unfold openTruncate
  split
  · rename_i file here
    exact .inl here
  · exact .inr rfl

theorem openTruncate_next : t.next ≤ (t.openTruncate name).2.next := by
  unfold openTruncate
  split
  · exact le_refl _
  · exact Nat.le_succ _

theorem rename_some {file : Nat} (target : ν) (h : t.names source = some file) :
    ∃ t', t.rename source target = some t' ∧ t'.contents = t.contents ∧ t'.next = t.next ∧
      t'.names = Function.update (Function.update t.names target (some file)) source none := by
  unfold rename
  split
  · rename_i missing
    rw [h] at missing
    cases missing
  · rename_i found here
    rw [h] at here
    cases here
    exact ⟨_, rfl, rfl, rfl, rfl⟩

end FileTable

end SecureTransfer.Library
