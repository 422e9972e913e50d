import Mathlib.Data.List.TakeWhile

/-! # POSIX paths

`os.path.join` and `os.path.normpath`. Joining a component and normalising is normalising
and then taking one step.
-/

namespace SecureTransfer.Library.PosixPath

/-- `os.path.join(path, part)`. -/
def join (path part : List Char) : List Char :=
  if part.head? = some '/' then part
  else if path = [] ∨ path.getLast? = some '/' then path ++ part
  else path ++ '/' :: part

/-- What `os.path.normpath` puts together again: how many slashes stand first, and the
    components behind them. -/
structure Normal where
  slashes : Nat
  parts : List (List Char)
deriving DecidableEq

/-- Two slashes at the start stay two, any other number is one. -/
def initialSlashes (path : List Char) : Nat :=
  match (path.takeWhile (· = '/')).length with
  | 0 => 0
  | 2 => 2
  | _ => 1

/-- One turn of the loop of `normpath`. -/
def Normal.step (path : Normal) (part : List Char) : Normal :=
  if part = [] ∨ part = ['.'] then path
  else if part ≠ ['.', '.'] ∨ (path.slashes = 0 ∧ path.parts = []) ∨ path.parts.getLast? = some ['.', '.'] then
    { path with parts := path.parts ++ [part] }
  else { path with parts := path.parts.dropLast }

def normpath (path : List Char) : Normal :=
  (path.splitOn '/').foldl Normal.step ⟨initialSlashes path, []⟩

theorem initialSlashes_join (path : List Char) {part : List Char} (relative : '/' ∉ part) :
    initialSlashes (join path part) = initialSlashes path := by
  have first : part.head? ≠ some '/' := fun head => relative (List.mem_of_head? head)
  have none_first : part.takeWhile (· = '/') = [] := by
    cases part with
    | nil => rfl
    | cons c part => exact List.takeWhile_cons_of_neg (by simpa using first)
  suffices same : (join path part).takeWhile (· = '/') = path.takeWhile (· = '/') by
    rw [initialSlashes, same, initialSlashes]
  rw [join, if_neg first]
  split
  · -- what follows the path starts no further slash
    rw [List.takeWhile_append, none_first, List.append_nil]
    split
    · rename_i all
      exact ((List.takeWhile_prefix _).eq_of_length all).symm
    · rfl
  · rename_i open_end
    rw [not_or] at open_end
    rw [List.takeWhile_append, if_neg]
    intro all
    have slashes := List.takeWhile_eq_self_iff.mp ((List.takeWhile_prefix (· = '/')).eq_of_length all)
    have last := List.getLast?_eq_some_getLast open_end.1
    rw [of_decide_eq_true (slashes _ (List.getLast_mem open_end.1))] at last
    exact open_end.2 last

theorem splitOn_concat {path part : List Char} (relative : '/' ∉ part) :
    (path ++ '/' :: part).splitOn '/' = path.splitOn '/' ++ [part] := by
  rw [List.splitOn_append_cons_self, List.splitOn_eq_singleton relative]

/-- **Joining then normalising** is normalising then one step. -/
theorem normpath_join {path part : List Char} (relative : '/' ∉ part) :
    normpath (join path part) = (normpath path).step part := by
  have first : part.head? ≠ some '/' := fun head => relative (List.mem_of_head? head)
  have slashes := initialSlashes_join path relative
  have one_more : ∀ front : List Char, (front ++ '/' :: part).splitOn '/' = front.splitOn '/' ++ [part] :=
    fun front => splitOn_concat relative
  have unchanged : ∀ n : Normal, n.step [] = n := fun n => if_pos (.inl rfl)
  rw [normpath, normpath, slashes, join, if_neg first]
  split
  · rename_i closed
    rcases closed with rfl | slash
    · rw [List.nil_append, List.splitOn_eq_singleton relative, List.splitOn_nil, List.foldl_cons, List.foldl_nil,
        List.foldl_cons, List.foldl_nil, unchanged]
    · obtain ⟨front, rfl⟩ := List.getLast?_eq_some_iff.mp slash
      have shorter : (front ++ ['/']).splitOn '/' = front.splitOn '/' ++ [[]] := by
        rw [List.splitOn_append_cons_self, List.splitOn_nil]
      rw [List.append_assoc, List.singleton_append, one_more, shorter, List.foldl_append, List.foldl_append,
        List.foldl_cons, List.foldl_nil, List.foldl_cons, List.foldl_nil, unchanged]
  · rw [one_more, List.foldl_append, List.foldl_cons, List.foldl_nil]

/-- A component that is neither empty nor made of dots is one level further down. -/
theorem Normal.step_down {path : Normal} {part : List Char} (some_chars : part ≠ []) (dot : part ≠ ['.'])
    (dots : part ≠ ['.', '.']) : path.step part = { path with parts := path.parts ++ [part] } := by
  rw [Normal.step, if_neg (by simp [some_chars, dot]), if_pos (.inl dots)]

theorem Normal.step_dot (path : Normal) : path.step ['.'] = path := if_pos (.inr rfl)

end SecureTransfer.Library.PosixPath
