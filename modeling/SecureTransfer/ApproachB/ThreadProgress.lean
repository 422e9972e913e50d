import SecureTransfer.ApproachB.Simulation
import Mathlib.Data.Set.Card
import Mathlib.Data.Set.Finite.Lemmas

/-! # Threads that get to their replies

A thread beside which no other one works on a file gets to the reply of its command, and threads that
do can be brought to an end one after the other, those with the shorter names first.
-/

namespace SecureTransfer.ApproachB

open Library

namespace Threads

variable {κ : Type} [DecidableEq κ] {commands : κ → BlobCommand} {s s' : Threads κ} {i : κ} {path : BlobPath}
  {data : Bytes} {store : Storage}

/-- An undisturbed step of the thread `i`. -/
def Next (commands : κ → BlobCommand) (i : κ) (a b : Threads κ) : Prop :=
  ∃ count, a.Undisturbed commands (.next i count) ∧ a.step commands (.next i count) = some b

/-- The thread `i` makes undisturbed steps. -/
def Alone (commands : κ → BlobCommand) (i : κ) : Threads κ → Threads κ → Prop := Relation.ReflTransGen (Next commands i)

/-- A thread has a file open, or is about to rename one. -/
def Holds (s : Threads κ) (i : κ) : Prop :=
  (s.stages i).window.isSome ∨ ∃ path file, s.stages i = .getOpened path file

theorem Next.others (next : Next commands i s s') : ∀ j, j ≠ i → s'.stages j = s.stages j := by
  obtain ⟨count, _, moved⟩ := next
  exact (step_next_stages moved).2.2

theorem Next.undisturbedStep (next : Next commands i s s') : UndisturbedStep commands s s' := by
  obtain ⟨count, undisturbed, moved⟩ := next
  exact ⟨_, undisturbed, moved⟩

theorem Alone.others (alone : Alone commands i s s') : ∀ j, j ≠ i → s'.stages j = s.stages j := by
  induction alone with
  | refl => exact fun _ _ => rfl
  | tail _ next ih => exact fun j other => (next.others j other).trans (ih j other)

theorem Alone.kept (alone : Alone commands i s s') (kept : s.Kept commands) : s'.Kept commands := by
  induction alone with
  | refl => exact kept
  | tail _ next ih => exact kept_preserved _ _ ih next.undisturbedStep

/-- An undisturbed step in which no thread but `i` moves. -/
def Only (commands : κ → BlobCommand) (i : κ) (a b : Threads κ) : Prop :=
  UndisturbedStep commands a b ∧ ∀ j, j ≠ i → b.stages j = a.stages j

theorem Alone.only (alone : Alone commands i s s') : Relation.ReflTransGen (Only commands i) s s' :=
  Relation.ReflTransGen.mono (fun _ _ next => ⟨next.undisturbedStep, next.others⟩) _ _ alone

/-- A command whose outcome is open is served once, or not yet. -/
theorem serves (run : Relation.ReflTransGen (Only commands i) s s') (shows : s.Shows commands store)
    (pending : s.outcome i = none) :
    (s'.outcome i = none ∧ s'.Shows commands store) ∨
      (s'.outcome i = some (serve (commands i) store).1 ∧ s'.Shows commands (serve (commands i) store).2) := by
  induction run with
  | refl => exact .inl ⟨pending, shows⟩
  | @tail a b _ only ih =>
      have mine : ∀ j, a.outcome j = none → (b.outcome j).isSome → j = i := by
        intro j before after
        by_contra other
        rw [outcome_isSome (only.2 j other), before] at after
        cases after
      rcases ih with ⟨open_, shows⟩ | ⟨settled, shows⟩
      · rcases commits_step _ _ _ shows only.1 with ⟨same, shows'⟩ | ⟨j, before, after, shows'⟩
        · exact .inl ⟨(congrFun same i).trans open_, shows'⟩
        · obtain rfl := mine j before (by rw [after, Function.update_self]; rfl)
          exact .inr ⟨by rw [after, Function.update_self], shows'⟩
      · rcases commits_step _ _ _ shows only.1 with ⟨same, shows'⟩ | ⟨j, before, after, _⟩
        · exact .inr ⟨(congrFun same i).trans settled, shows'⟩
        · obtain rfl := mine j before (by rw [after, Function.update_self]; rfl)
          exact absurd (before.symm.trans settled) (Option.some_ne_none _).symm

/-! ## One thread -/

theorem Alone.next (count : Nat) {files : FileTable BlobPath UInt8} {stage stage' : Stage}
    (alone : Alone commands i s s') (here : s'.stages i = stage)
    (moved : stage.next count s'.files = some (files, stage'))
    (undisturbed : s'.Undisturbed commands (.next i count)) :
    ∃ t, Alone commands i s t ∧ t.stages i = stage' ∧ t.files = files :=
  ⟨setStage i stage' { s' with files := files },
    alone.tail ⟨count, undisturbed, step_next (by rw [here]; exact moved)⟩, setStage_self, rfl⟩

/-- A PUT writes the rest of its file and closes it. -/
theorem Alone.closes {file offset : Nat} (alone : Alone commands i s s')
    (here : s'.stages i = .putWriting path data file offset) :
    ∃ t, Alone commands i s t ∧ t.stages i = .putClosed path data := by
  have free : ∀ {t : Threads κ} {count offset : Nat}, t.stages i = .putWriting path data file offset →
      t.Undisturbed commands (.next i count) := by
    intro t count offset here
    simp only [Undisturbed, here]
  by_cases more : offset < data.length
  · obtain ⟨t, written, stage, _⟩ := alone.next data.length here (by rw [Stage.next, if_pos more]) (free here)
    have whole : ¬ offset + ((data.drop offset).take data.length).length < data.length := by
      rw [List.length_take, List.length_drop]
      omega
    obtain ⟨t', closed, stage', _⟩ := written.next 0 stage (by rw [Stage.next, if_neg whole]) (free stage)
    exact ⟨t', closed, stage'⟩
  · obtain ⟨t, closed, stage, _⟩ := alone.next 0 here (by rw [Stage.next, if_neg more]) (free here)
    exact ⟨t, closed, stage⟩

/-- It renames its file if no other PUT has the name for a temporary one. -/
theorem Alone.renames (alone : Alone commands i s s') (kept : s'.Kept commands)
    (here : s'.stages i = .putClosed path data) (free : ¬ s'.Uses path) :
    ∃ t, Alone commands i s t ∧ t.stages i = .answered .ok := by
  have fits := kept.fits i
  rw [here] at fits
  obtain ⟨_, _, _, named⟩ := (fits_putting rfl).mp fits
  obtain ⟨file, tmp, _⟩ := kept.windows i path data (by rw [here]; rfl)
  obtain ⟨files, renamed, _⟩ := FileTable.rename_some path tmp
  obtain ⟨t, published, stage, _⟩ := alone.next 0 here (by rw [Stage.next, if_neg named, renamed])
    (by simp only [Undisturbed, here]; exact free)
  obtain ⟨t', answered, stage', _⟩ := published.next 0 stage rfl (by simp only [Undisturbed, stage])
  exact ⟨t', answered, stage'⟩

/-- A PUT with an open file gets to its reply if no other PUT has its name for a temporary one. -/
theorem Kept.finishes (kept : s.Kept commands) {held : Bytes} (window : (s.stages i).window = some (path, held))
    (free : ∀ j, j ≠ i → ∀ other bytes, (s.stages j).window = some (other, bytes) → tmpPath other ≠ path) :
    ∃ t, Alone commands i s t ∧ t.stages i = .answered .ok := by
  have unused : ∀ {t : Threads κ} {data : Bytes}, Alone commands i s t → t.stages i = .putClosed path data →
      ¬ t.Uses path := by
    rintro t data alone here ⟨j, other, bytes, held, named⟩
    by_cases same : j = i
    · rw [same, here] at held
      cases held
      exact tmpPath_ne path named.symm
    · rw [alone.others j same] at held
      exact free j same other bytes held named
  cases here : s.stages i with
  | putWriting path' data file offset =>
      rw [here] at window
      cases window
      obtain ⟨t, closed, stage⟩ := Alone.closes (.refl : Alone commands i s s) here
      exact closed.renames (closed.kept kept) stage (unused closed stage)
  | putClosed path' data =>
      rw [here] at window
      cases window
      exact Alone.renames .refl kept here (unused .refl here)
  | _ =>
      rw [here] at window
      cases window

/-- A thread that has read its command gets to its reply while no other one holds a file. -/
theorem Kept.gets_reply (kept : s.Kept commands) (rests : ∀ j, j ≠ i → ¬ s.Holds j)
    (here : s.stages i = received (commands i)) (legal : (commands i).Legal) :
    ∃ t reply, Alone commands i s t ∧ t.stages i = .answered reply := by
  have idle : ∀ {t : Threads κ}, Alone commands i s t → (t.stages i).window = none → ∀ name, ¬ t.Uses name := by
    rintro t alone own name ⟨j, other, bytes, held, _⟩
    by_cases same : j = i
    · rw [same, own] at held
      cases held
    · rw [alone.others j same] at held
      exact rests j same (.inl (by rw [held]; rfl))
  have others : ∀ j, j ≠ i → ∀ other bytes, (s.stages j).window = some (other, bytes) → False :=
    fun j same other bytes held => rests j same (.inl (by rw [held]; rfl))
  cases command : commands i with
  | put key data =>
      obtain ⟨path, safe, _⟩ := legal.storable key data command
      have first : s.stages i = .putAccepted path data := by
        rw [here, command, received, safe, Option.elim_some]
      obtain ⟨t, opened, stage, _⟩ := Alone.next 0 (.refl : Alone commands i s s) first rfl (by
        simp only [Undisturbed, first]
        refine ⟨idle .refl (by rw [first]; rfl) _, fun j file opened => ?_⟩
        by_cases same : j = i
        · rw [same, first] at opened
          cases opened
        · exact rests j same (.inr ⟨_, _, opened⟩))
      have window : (t.stages i).window = some (path, data.take 0) := by
        rw [stage]
        rfl
      obtain ⟨t', finished, answered⟩ := (opened.kept kept).finishes window
        fun j same other bytes held => by
          rw [opened.others j same] at held
          exact absurd held (others j same other bytes)
      exact ⟨t', .ok, opened.trans finished, answered⟩
  | get key =>
      cases safe : safePath key with
      | none =>
          refine ⟨s, .missing, .refl, ?_⟩
          rw [here, command, received, safe, Option.elim_none]
      | some path =>
          have first : s.stages i = .getAccepted path := by
            rw [here, command, received, safe, Option.elim_some]
          cases given : s.files.names path with
          | none =>
              have missing : Stage.next 0 s.files (.getAccepted path) = some (s.files, .answered .missing) := by
                simp [Stage.next, given]
              obtain ⟨t, answered, stage, _⟩ := Alone.next 0 .refl first missing (by simp only [Undisturbed, first])
              exact ⟨t, _, answered, stage⟩
          | some file =>
              have finds : Stage.next 0 s.files (.getAccepted path) = some (s.files, .getFound path) := by
                simp [Stage.next, given]
              have opens : Stage.next 0 s.files (.getFound path) = some (s.files, .getOpened path file) := by
                simp [Stage.next, given]
              obtain ⟨t, found, stage, files⟩ := Alone.next 0 .refl first finds (by simp only [Undisturbed, first])
              obtain ⟨t', opened, stage', _⟩ := found.next 0 stage (files ▸ opens) (by
                simp only [Undisturbed, stage]
                exact idle found (by rw [stage]; rfl) path)
              obtain ⟨t'', answered, stage'', _⟩ := opened.next 0 stage' rfl (by simp only [Undisturbed, stage'])
              exact ⟨t'', _, answered, stage''⟩

/-- A thread serves the command that it receives, while no other one holds a file. -/
theorem Shows.handles (shows : s.Shows commands store) (rests : ∀ j, ¬ s.Holds j) (waiting : s.stages i = .waiting)
    (legal : (commands i).Legal) :
    ∃ t, Alone commands i (s.setStage i (received (commands i))) t ∧
      t.stages i = .answered (serve (commands i) store).1 ∧ t.Shows commands (serve (commands i) store).2 ∧
      ∀ j, ¬ t.Holds j := by
  have receives : Only commands i s (s.setStage i (received (commands i))) := by
    refine ⟨⟨.receive i, legal.storable, ?_⟩, fun j other => setStage_other other⟩
    rw [step, waiting]
  have rests' : ∀ j, j ≠ i → ¬ (s.setStage i (received (commands i))).Holds j := by
    intro j other held
    rw [Holds, receives.2 j other] at held
    exact rests j held
  have kept : (s.setStage i (received (commands i))).Kept commands := kept_preserved _ _ shows.kept receives.1
  obtain ⟨t, reply, alone, answered⟩ := kept.gets_reply rests' setStage_self legal
  have outcome : t.outcome i = some reply := by
    rw [Threads.outcome, answered]
    rfl
  have served := serves (.head receives alone.only) shows (outcome_waiting waiting)
  rw [outcome] at served
  rcases served with ⟨pending, _⟩ | ⟨settled, shows'⟩
  · cases pending
  obtain rfl := Option.some.inj settled
  refine ⟨t, alone, answered, shows', fun j held => ?_⟩
  by_cases here : j = i
  · rw [here, Holds, answered] at held
    rcases held with window | ⟨path, file, opened⟩
    · cases window
    · cases opened
  · rw [Holds, alone.others j here] at held
    exact rests' j here held

/-! ## All threads -/

/-- Threads make undisturbed steps. -/
def Turns (commands : κ → BlobCommand) : Threads κ → Threads κ → Prop :=
  Relation.ReflTransGen fun a b => ∃ i, Next commands i a b

theorem Alone.turns (alone : Alone commands i s s') : Turns commands s s' :=
  Relation.ReflTransGen.mono (fun _ _ next => ⟨i, next⟩) _ _ alone

theorem Alone.fewer (alone : Alone commands i s s') (held : s.Holds i) (done : ∃ reply, s'.stages i = .answered reply)
    (few : Set.Finite {j | s.Holds j}) :
    Set.Finite {j | s'.Holds j} ∧ Set.ncard {j | s'.Holds j} < Set.ncard {j | s.Holds j} := by
  obtain ⟨reply, answered⟩ := done
  have released : ¬ s'.Holds i := by
    rintro (window | ⟨path, file, opened⟩)
    · rw [answered] at window
      cases window
    · rw [answered] at opened
      cases opened
  have fewer : {j | s'.Holds j} ⊂ {j | s.Holds j} := by
    refine (Set.ssubset_iff_of_subset fun j held' => ?_).mpr ⟨i, held, released⟩
    have other : j ≠ i := by
      rintro rfl
      exact released held'
    change s.Holds j
    rw [Holds, ← alone.others j other]
    exact held'
  exact ⟨few.subset fewer.subset, Set.ncard_lt_ncard fewer few⟩

/-- Finitely many threads that hold a file can all be brought to their replies. -/
theorem Kept.rests (kept : s.Kept commands) (few : Set.Finite {j | s.Holds j}) :
    ∃ t, Turns commands s t ∧ ∀ j, ¬ t.Holds j := by
  generalize size : Set.ncard {j | s.Holds j} = n
  induction n using Nat.strong_induction_on generalizing s with
  | _ n ih =>
      subst size
      have go : ∀ {i t}, Alone commands i s t → s.Holds i → (∃ reply, t.stages i = .answered reply) →
          ∃ t, Turns commands s t ∧ ∀ j, ¬ t.Holds j := by
        intro i t alone held done
        obtain ⟨few', fewer⟩ := alone.fewer held done few
        obtain ⟨t', turns, rests⟩ := ih _ fewer (alone.kept kept) few' rfl
        exact ⟨t', alone.turns.trans turns, rests⟩
      by_cases reader : ∃ i path file, s.stages i = .getOpened path file
      · obtain ⟨i, path, file, opened⟩ := reader
        obtain ⟨t, alone, answered, _⟩ := Alone.next 0 (.refl : Alone commands i s s) opened rfl
          (by simp only [Undisturbed, opened])
        exact go alone (.inr ⟨path, file, opened⟩) ⟨_, answered⟩
      by_cases writer : ∃ i, s.Holds i
      · -- the shortest name is the temporary one of no other
        let size (j : κ) : Nat := (s.stages j).window.elim 0 fun held => held.1.2.length
        obtain ⟨i, held, least⟩ := Set.exists_min_image {j | s.Holds j} size few writer
        obtain ⟨⟨path, bytes⟩, window⟩ :=
          Option.isSome_iff_exists.mp (held.resolve_right fun opened => reader ⟨i, opened⟩)
        obtain ⟨t, alone, answered⟩ := kept.finishes window fun j other path' bytes' window' named => by
          have shorter := least j (.inl (by rw [window']; rfl))
          have longer := congrArg (fun path : BlobPath => path.2.length) named
          simp only [size, window, window', Option.elim_some] at shorter
          simp only [tmpPath, String.length_append] at longer
          have four : ".tmp".length = 4 := rfl
          omega
        exact go alone held ⟨_, answered⟩
      · exact ⟨s, .refl, not_exists.mp writer⟩

end Threads

end SecureTransfer.ApproachB
