import SecureTransfer.Library.Linearization
import SecureTransfer.ApproachB.BrokerThreads

/-! # Broker threads as one store

In undisturbed runs the threads answer as if each command had been served at once, on the
store that `storeBroker` keeps: a PUT when it renames its file, a GET when it opens the
blob or does not find it.
-/

namespace SecureTransfer.ApproachB

open Library

/-- `_handle_command` at once. -/
def serve : BlobCommand → Storage → BlobReply × Storage
  | .put key data, store => ((store.put key data).elim .illegalKey fun _ => .ok, (store.put key data).getD store)
  | .get key, store => ((store.get key).elim .missing .blob, store)

/-- The reply that a thread has or is bound to give. -/
def Stage.outcome (files : FileTable BlobPath UInt8) : Stage → Option BlobReply
  | .putRenamed => some .ok
  | .getOpened _ file => some (.blob (files.contents file))
  | .answered reply => some reply
  | _ => none

namespace Threads

variable {ι : Type} (commands : ι → BlobCommand)

def outcome (s : Threads ι) (i : ι) : Option BlobReply := (s.stages i).outcome s.files

/-- The directory shows the store, but for the temporary files in use. -/
structure Shows [DecidableEq ι] (store : Storage) (s : Threads ι) : Prop where
  kept : s.Kept commands
  same : ∀ path, ¬ s.Uses path → s.content path = store.find path

variable {commands} [DecidableEq ι] {s s' : Threads ι} {i : ι} {stage : Stage} {store : Storage}
  {files : FileTable BlobPath UInt8}

/-! ## One step -/

theorem outcome_setStage (stage : Stage) (unread : ∀ j path file, j ≠ i → s.stages j = .getOpened path file →
      files.contents file = s.files.contents file) :
    (Threads.setStage i stage { s with files := files }).outcome =
      Function.update s.outcome i (stage.outcome files) := by
  funext j
  by_cases here : j = i
  · rw [here, Function.update_self, outcome, setStage_self]
    rfl
  · rw [Function.update_of_ne here, outcome, setStage_other here]
    show (s.stages j).outcome files = (s.stages j).outcome s.files
    cases stands : s.stages j with
    | getOpened path file => exact congrArg (some ∘ BlobReply.blob) (unread j path file here stands)
    | _ => rfl

/-- A thread that moves between two stages with one outcome, on an unchanged directory. -/
theorem Shows.move (shows : s.Shows commands store) (kept : (s.setStage i stage).Kept commands)
    (window : stage.window = (s.stages i).window)
    (outcome : stage.outcome s.files = (s.stages i).outcome s.files) :
    (s.setStage i stage).outcome = s.outcome ∧ (s.setStage i stage).Shows commands store := by
  refine ⟨?_, kept, fun path free => shows.same path fun used => free ((uses_same window path).mpr used)⟩
  have after : (s.setStage i stage).outcome = _ := outcome_setStage stage fun _ _ _ _ _ => rfl
  rw [outcome] at after
  exact after.trans (Function.update_eq_self i s.outcome)

/-- A GET that gets its outcome from the store, on an unchanged directory. -/
theorem Shows.look (shows : s.Shows commands store) (kept : (s.setStage i stage).Kept commands)
    {key : String} (command : commands i = .get key) (before : s.outcome i = none)
    (window : stage.window = (s.stages i).window)
    (outcome : stage.outcome s.files = some ((store.get key).elim .missing .blob)) :
    ∃ j, s.outcome j = none ∧ (s.setStage i stage).outcome =
        Function.update s.outcome j (some (serve (commands j) store).1) ∧
      (s.setStage i stage).Shows commands (serve (commands j) store).2 := by
  have after : (s.setStage i stage).outcome = _ := outcome_setStage stage fun _ _ _ _ _ => rfl
  rw [outcome] at after
  have served : serve (commands i) store = ((store.get key).elim .missing .blob, store) := by
    rw [command]
    rfl
  refine ⟨i, before, ?_, ?_⟩
  · rw [served]
    exact after
  · rw [served]
    exact ⟨kept, fun path free => shows.same path fun used => free ((uses_same window path).mpr used)⟩

theorem content_setStage {name : BlobPath} (names : files.names name = s.files.names name)
    (contents : ∀ file, s.files.names name = some file → files.contents file = s.files.contents file) :
    (Threads.setStage i stage { s with files := files }).content name = s.content name := by
  show (files.names name).map files.contents = (s.files.names name).map s.files.contents
  rw [names]
  exact Option.map_congr contents

/-- A PUT opens or fills its temporary file, which has no other name and no reader. -/
theorem Shows.window (shows : s.Shows commands store) {path : BlobPath} {data bytes : Bytes} {file offset : Nat}
    (kept : (Threads.setStage i (.putWriting path data file offset) { s with files := files }).Kept commands)
    (before : s.outcome i = none) (mine : ∀ other held, (s.stages i).window = some (other, held) → other = path)
    (names : ∀ name, name ≠ tmpPath path → files.names name = s.files.names name)
    (contents : files.contents = Function.update s.files.contents file bytes)
    (apart : ∀ name, name ≠ tmpPath path → s.files.names name ≠ some file)
    (unread : ∀ j other, s.stages j ≠ .getOpened other file) :
    let s' := Threads.setStage i (.putWriting path data file offset) { s with files := files }
    s'.outcome = s.outcome ∧ s'.Shows commands store := by
  refine ⟨?_, kept, fun name unused => ?_⟩
  · rw [outcome_setStage (.putWriting path data file offset)]
    · exact (congrArg (Function.update s.outcome i) before.symm).trans (Function.update_eq_self i s.outcome)
    · intro j other found _ opened
      rw [contents, Function.update_of_ne]
      rintro rfl
      exact unread j other opened
  · have uses : (Threads.setStage i (.putWriting path data file offset) { s with files := files }).Uses name ↔ _ :=
      uses_window rfl mine name
    rw [uses, not_or] at unused
    rw [← shows.same name unused.1]
    apply content_setStage (names name unused.2)
    intro found given
    rw [contents, Function.update_of_ne]
    rintro rfl
    exact apart name unused.2 given

theorem Shows.opens (shows : s.Shows commands store) {path : BlobPath} {data : Bytes}
    (here : s.stages i = .putAccepted path data) (free : ¬ s.Uses (tmpPath path))
    (unread : ∀ j file, s.stages j ≠ .getOpened (tmpPath path) file) :
    let opened := s.files.openTruncate (tmpPath path)
    let s' := Threads.setStage i (.putWriting path data opened.1 0) { s with files := opened.2 }
    s'.outcome = s.outcome ∧ s'.Shows commands store := by
  have old_or_new := s.files.openTruncate_file (tmpPath path)
  apply shows.window (shows.kept.opens here free unread)
  case before =>
    rw [outcome, here]
    rfl
  case mine =>
    intro other held window
    rw [here] at window
    cases window
  case names => exact fun name => FileTable.openTruncate_other
  case contents => exact FileTable.openTruncate_contents
  case apart =>
    intro name differ given
    rcases old_or_new with old | new
    · exact differ (s.files.single given old)
    · exact absurd new (Nat.ne_of_lt (s.files.below given))
  case unread =>
    intro j other opened
    obtain ⟨_, below, named⟩ := shows.kept.readers j other _ opened
    rcases old_or_new with old | new
    · obtain ⟨rfl, _⟩ := named _ old
      exact unread j _ opened
    · exact absurd new (Nat.ne_of_lt below)

theorem Shows.writes (shows : s.Shows commands store) {path : BlobPath} {data : Bytes} {file offset : Nat}
    (here : s.stages i = .putWriting path data file offset) (count : Nat) :
    let piece := (data.drop offset).take count
    let s' := Threads.setStage i (.putWriting path data file (offset + piece.length))
      { s with files := s.files.write 0 file offset piece }
    s'.outcome = s.outcome ∧ s'.Shows commands store := by
  obtain ⟨named, _⟩ := shows.kept.writers i path data file offset here
  have window : (s.stages i).window = some (path, data.take offset) := by
    rw [here]
    rfl
  apply shows.window (shows.kept.writes here count)
  case before =>
    rw [outcome, here]
    rfl
  case mine =>
    intro other held window'
    rw [window] at window'
    cases window'
    rfl
  case names => exact fun _ _ => rfl
  case contents => rfl
  case apart =>
    intro name differ given
    exact differ (s.files.single given named)
  case unread =>
    intro j other opened
    obtain ⟨_, _, names⟩ := shows.kept.readers j other file opened
    exact (names _ named).2 ⟨i, path, _, window, rfl⟩

/-- A PUT renames its temporary file, which commits it. -/
theorem Shows.renames (shows : s.Shows commands store) {path : BlobPath} {data : Bytes}
    (here : s.stages i = .putClosed path data) (free : ¬ s.Uses path)
    {file : Nat} (tmp : s.files.names (tmpPath path) = some file) (contents : files.contents = s.files.contents)
    (next : files.next = s.files.next)
    (names : files.names =
      Function.update (Function.update s.files.names path (some file)) (tmpPath path) none) :
    ∃ j, s.outcome j = none ∧ (Threads.setStage i .putRenamed { s with files := files }).outcome =
        Function.update s.outcome j (some (serve (commands j) store).1) ∧
      (Threads.setStage i .putRenamed { s with files := files }).Shows commands (serve (commands j) store).2 := by
  have window : (s.stages i).window = some (path, data) := by
    rw [here]
    rfl
  obtain ⟨key, command, safe, named⟩ :
      ∃ key, commands i = .put key data ∧ safePath key = some path ∧ path.2 ≠ "." := by
    have fits := shows.kept.fits i
    rw [here] at fits
    exact (fits_putting rfl).mp fits
  obtain ⟨after, stored⟩ := store.put_some data safe named
  have served : serve (commands i) store = (.ok, after) := by
    simp only [command, serve, stored, Option.elim_some, Option.getD_some]
  have holds : s.files.contents file = data := by
    obtain ⟨found, given, holds⟩ := shows.kept.windows i path data window
    rw [tmp] at given
    cases given
    exact holds
  refine ⟨i, by rw [outcome, here]; rfl, ?_, ?_⟩
  · rw [served]
    exact outcome_setStage _ fun j other found _ _ => congrFun contents found
  rw [served]
  refine ⟨shows.kept.rename here free tmp contents next names, fun name unused => ?_⟩
  have uses := shows.kept.uses_released window (rfl : Stage.putRenamed.window = none) name
  have unused' : ¬ (s.Uses name ∧ name ≠ tmpPath path) := fun used => unused (uses.mpr used)
  rw [Storage.put_lookup safe stored]
  show (files.names name).map files.contents = _
  rw [names, contents]
  by_cases temporary : name = tmpPath path
  · rw [temporary, Function.update_self, Option.map_none, if_neg (tmpPath_ne path).symm]
    exact (if_pos rfl).symm
  rw [Function.update_of_ne temporary]
  by_cases target : name = path
  · rw [target, Function.update_self, Option.map_some, holds, if_pos rfl]
  · rw [Function.update_of_ne target, if_neg target]
    have elsewhere : name ≠ (path.1, path.2 ++ ".tmp") := temporary
    rw [if_neg elsewhere]
    exact shows.same name fun used => unused' ⟨used, temporary⟩

theorem received_outcome (files : FileTable BlobPath UInt8) (command : BlobCommand) :
    (received command).outcome files = none ∨ (∃ key data, command = .put key data ∧ safePath key = none) ∨
      ∃ key, command = .get key ∧ safePath key = none ∧ (received command).outcome files = some .missing := by
  cases command with
  | put key data =>
      cases safe : safePath key with
      | none => exact .inr (.inl ⟨key, data, rfl, safe⟩)
      | some path =>
          simp only [received, safe, Option.elim_some]
          exact .inl rfl
  | get key =>
      cases safe : safePath key with
      | none =>
          simp only [received, safe, Option.elim_none]
          exact .inr (.inr ⟨key, rfl, safe, rfl⟩)
      | some path =>
          simp only [received, safe, Option.elim_some]
          exact .inl rfl

/-- Each undisturbed step leaves all outcomes as they are or commits one command. -/
theorem commits_step :
    Commits serve commands Threads.outcome (UndisturbedStep commands) (Shows commands) := by
  rintro store s s' shows ⟨action, undisturbed, step⟩
  have kept := shows.kept.step undisturbed step
  have fits := shows.kept.fits
  cases action with
  | receive i =>
      simp only [Threads.step] at step
      split at step
      case h_2 => cases step
      rename_i waiting
      cases step
      obtain ⟨_, _, window, _⟩ := received_fits undisturbed
      have idle : (s.stages i).window = none := by rw [waiting]; rfl
      rcases received_outcome s.files (commands i) with
        open_call | ⟨key, data, command, refused⟩ | ⟨key, command, unsafe_key, answered⟩
      · apply Or.inl
        apply shows.move kept (window.trans idle.symm)
        rw [open_call, waiting]
        rfl
      · obtain ⟨path, safe, _⟩ := undisturbed key data command
        rw [refused] at safe
        cases safe
      · apply Or.inr
        apply shows.look kept command (by rw [outcome, waiting]; rfl) (window.trans idle.symm)
        rw [answered, Storage.get, unsafe_key]
        rfl
  | next i count =>
      simp only [Threads.step, Option.map_eq_some_iff] at step
      obtain ⟨⟨files, stage⟩, moved, rfl⟩ := step
      simp only [Undisturbed] at undisturbed
      specialize fits i
      cases here : s.stages i with
      | waiting | answered _ | failed =>
          rw [here] at moved
          cases moved
      | putAccepted path data =>
          rw [here] at moved undisturbed
          cases moved
          exact .inl (shows.opens here undisturbed.1 undisturbed.2)
      | putWriting path data file offset =>
          rw [here] at moved
          simp only [Stage.next] at moved
          split at moved
          · cases moved
            exact .inl (shows.writes here count)
          · cases moved
            have whole : data.take offset = data := List.take_of_length_le (by omega)
            apply Or.inl
            apply shows.move kept
            · rw [here, Stage.window, Stage.window, whole]
            · rw [here]
              rfl
      | putClosed path data =>
          rw [here] at moved fits undisturbed
          obtain ⟨key, command, safe, named⟩ := (fits_putting rfl).mp fits
          obtain ⟨file, tmp, _⟩ := shows.kept.windows i path data (by rw [here]; rfl)
          obtain ⟨files', renamed, contents, next, names⟩ := FileTable.rename_some path tmp
          simp only [Stage.next, if_neg named, renamed] at moved
          cases moved
          exact .inr (shows.renames here undisturbed tmp contents next names)
      | putRenamed =>
          rw [here] at moved
          cases moved
          apply Or.inl
          apply shows.move kept
          · rw [here]
            rfl
          · rw [here]
            rfl
      | getAccepted path =>
          rw [here] at moved fits
          obtain ⟨key, command, safe⟩ := (fits_getting rfl).mp fits
          simp only [Stage.next] at moved
          split at moved
          · cases moved
            apply Or.inl
            apply shows.move kept
            · rw [here]
              rfl
            · rw [here]
              rfl
          · rename_i absent
            cases moved
            have missing : s.files.names path = none := Option.not_isSome_iff_eq_none.mp absent
            -- a name in use is given, so the store has no blob either
            have free : ¬ s.Uses path := by
              rintro ⟨j, other, bytes, window, rfl⟩
              obtain ⟨file, given, _⟩ := shows.kept.windows j other bytes window
              rw [missing] at given
              cases given
            have nothing : store.get key = none := by
              rw [Storage.get_eq safe, ← shows.same path free, content, missing, Option.map_none]
            apply Or.inr
            apply shows.look kept command (by rw [outcome, here]; rfl) (by rw [here]; rfl)
            rw [nothing]
            rfl
      | getFound path =>
          rw [here] at moved fits undisturbed
          obtain ⟨key, command, safe⟩ := (fits_getting rfl).mp fits
          simp only [Stage.next] at moved
          split at moved
          · rename_i file given
            cases moved
            have found : store.get key = some (s.files.contents file) := by
              rw [Storage.get_eq safe, ← shows.same path undisturbed, content, given, Option.map_some]
            apply Or.inr
            apply shows.look kept command (by rw [outcome, here]; rfl) (by rw [here]; rfl)
            rw [found]
            rfl
          · cases moved
            apply Or.inl
            apply shows.move kept
            · rw [here]
              rfl
            · rw [here]
              rfl
      | getOpened path file =>
          rw [here] at moved
          cases moved
          apply Or.inl
          apply shows.move kept
          · rw [here]
            rfl
          · rw [here]
            rfl

theorem shows_start : (start : Threads ι).Shows commands .empty := ⟨kept_start, fun _ _ => rfl⟩

/-! ## Main result -/

/-- What one order of whole commands says of a state: the replies are those of serving the
    commands in that order on an empty store, and the directory shows that store. -/
structure Served (commands : ι → BlobCommand) (order : List ι) (s : Threads ι) : Prop where
  once : order.Nodup
  begun : ∀ i ∈ order, s.stages i ≠ .waiting
  replies : ∀ i reply, s.stages i = .answered reply → ∃ before after, order = before ++ i :: after ∧
    (serve (commands i) (stateAfter serve commands .empty before)).1 = reply
  shown : ∀ path, ¬ s.Uses path → s.content path = (stateAfter serve commands .empty order).find path

theorem Shows.served {order : List ι} (explains : Explains serve commands .empty order s.outcome)
    (shows : s.Shows commands (stateAfter serve commands .empty order)) : Served commands order s where
  once := explains.once
  begun i member waiting := by
    apply explains.mem_iff.mp member
    rw [outcome, waiting]
    rfl
  replies i reply answered := by
    apply (explains.replies i reply).mp
    rw [outcome, answered]
    rfl
  shown := shows.same

/-- **The threads are one store.** The commands of an undisturbed run have one order in which a
    store that serves each at once gives all replies of the run and holds what the directory
    shows, at its end and, up to there, at every state before. A command that was answered
    when another had not arrived comes before it. -/
theorem threads_linearizable {states : List (Threads ι)}
    (run : List.IsChain (UndisturbedStep commands) (start :: states)) :
    ∃ order, (∀ s, (start :: states).getLast? = some s → Served commands order s) ∧
      ∀ s ∈ start :: states, (∃ past rest, order = past ++ rest ∧ Served commands past s) ∧
        ∀ i j reply, s.stages i = .answered reply → s.stages j = .waiting →
          ∀ before after, order = before ++ j :: after → i ∈ before := by
  have none_yet : Explains serve commands .empty [] (start : Threads ι).outcome := .start fun _ => rfl
  obtain ⟨order, all, ends⟩ := commits_step.linearize none_yet shows_start run
  rw [List.nil_append] at all ends
  refine ⟨order, fun s last => (ends s last).2.served (ends s last).1, fun s member => ?_⟩
  obtain ⟨past, rest, split, explains, shows⟩ := all s member
  refine ⟨⟨past, rest, split, shows.served explains⟩, ?_⟩
  intro i j reply answered waiting before after cut
  apply explains.before (i := i) ?_ ?_ (split.symm.trans cut)
  · rw [outcome, answered]
    exact Option.some_ne_none _
  · rw [outcome, waiting]
    rfl

/-- In the order of this run the GET comes between the two PUTs that it overlaps. -/
theorem threads_linearizable_renamedUnderGet : ∃ order s,
    undisturbedSteps twoPuts renamedUnderGet start = some s ∧ Served twoPuts order s ∧
      s.stages 2 = .answered (.blob [1]) ∧ s.content ("n", "a") = some [2] := by
  obtain ⟨s, run, got, shown⟩ : ∃ s, undisturbedSteps twoPuts renamedUnderGet start = some s ∧
      s.stages 2 = .answered (.blob [1]) ∧ s.content ("n", "a") = some [2] := ⟨_, rfl, rfl, rfl⟩
  obtain ⟨states, chain, ends⟩ := List.exists_isChain_cons_of_relationReflTransGen (undisturbedSteps_run run)
  obtain ⟨order, served, _⟩ := threads_linearizable chain
  refine ⟨order, s, run, served s ?_, got, shown⟩
  rw [← ends]
  exact List.getLast?_eq_some_getLast _

end Threads

end SecureTransfer.ApproachB
