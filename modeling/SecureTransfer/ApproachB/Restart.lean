import SecureTransfer.Library.JsonPrefix
import SecureTransfer.ApproachB.Uploads
import SecureTransfer.ApproachB.History
import SecureTransfer.ApproachB.Transparent

/-! # Senders that are killed

The state file of `sender.py` while a run goes on: it is truncated, written and closed,
read at the start of the next run and removed at the end. A kill may come before any step
and leaves the file as it is then.
-/

namespace SecureTransfer.ApproachB

open Library

/-- Where a run stands. Uploads, manifest and signature come while it is `working`. -/
inductive SendStage where
  | starting
  | writing (todo : Bytes)
  | working
  | finished

/-- A run and the state file. -/
structure StateRun where
  file : Option Bytes
  stage : SendStage

namespace StateRun

def start (file : Option Bytes) : StateRun := ⟨file, .starting⟩

/-- What `_load_or_create_state` returns or raises. -/
def opens (P : Primitives) (args : SendArgs) (source : Bytes) (file : Option Bytes) : Except Raised Json :=
  (loadOrCreateState P args source.length (⟨(), file, [], []⟩ : SenderWorld Unit)).1

/-- The steps of a run as far as they concern the state file. -/
inductive Moves (P : Primitives) (args : SendArgs) : StateRun → StateRun → Prop where
  | resume {file : Option Bytes} {source : Bytes} {state : Json} (reads : args.file = some source)
      (known : creates file args = none) (loads : opens P args source file = .ok state) :
      Moves P args ⟨file, .starting⟩ ⟨file, .working⟩
  | create {file : Option Bytes} {source : Bytes} {saved : Saved} (reads : args.file = some source)
      (new : creates file args = some saved) (loads : opens P args source file = .ok (saved.json P)) :
      Moves P args ⟨file, .starting⟩ ⟨some [], .writing (saved.bytes P)⟩
  | write (written todo : Bytes) (n : Nat) :
      Moves P args ⟨some written, .writing todo⟩ ⟨some (written ++ todo.take n), .writing (todo.drop n)⟩
  | close (file : Option Bytes) : Moves P args ⟨file, .writing []⟩ ⟨file, .working⟩
  | remove (file : Option Bytes) : Moves P args ⟨file, .working⟩ ⟨none, .finished⟩

/-- Any number of steps. -/
def Reaches (P : Primitives) (args : SendArgs) : StateRun → StateRun → Prop :=
  Relation.ReflTransGen (Moves P args)

/-- The state file is open for writing and not all of it is written. -/
def Torn (run : StateRun) : Prop := ∃ todo, run.stage = .writing todo ∧ todo ≠ []

end StateRun

/-- A run on one of the source files ends or is killed, but not while its state file is torn. -/
def EndsWhole (P : Primitives) (files files' : String → Option Bytes) : Prop :=
  ∃ path args run, StateRun.Reaches P args (.start (files path)) run ∧ ¬ run.Torn ∧
    files' = Function.update files path run.file

/-- What a run of `args` on `source` makes of the state file it finds. -/
structure Restarts (P : Primitives) (args : SendArgs) (source : Bytes) (left : Option Bytes) : Prop where
  past : ∃ saved : Saved,
    (left = some (saved.bytes P) ∧ saved.fileSize = source.length ∨ saved = args.fresh source.length) ∧
    ∀ (β : Type) (w : SenderWorld β), w.state = left →
      loadOrCreateState P args source.length w = (.ok (saved.json P), { w with state := some (saved.bytes P) })
  returns : P.Agreement → ∀ receiver, args.receiverPub = P.x25519Public receiver →
    totalChunks source.length < 2 ^ 64 →
    ∀ w : StoreWorld, w.state = left → w.broker.2 = [] → ∃ w', send P storeBroker args w = (.ok 0, w')

variable {P : Primitives} {args : SendArgs}

/-! ## What a kill leaves -/

/-- The state file at each stage of a run that found `saved`. -/
def StateRun.Keeps (P : Primitives) (saved : Option Saved) (run : StateRun) : Prop :=
  match run.stage with
  | .starting => run.file = saved.map (·.bytes P)
  | .writing todo => ∃ new written, run.file = some written ∧ Saved.bytes P new = written ++ todo
  | .working => ∃ saved : Saved, run.file = some (saved.bytes P)
  | .finished => run.file = none

theorem StateRun.Moves.keeps {saved : Option Saved} {run run' : StateRun} (moves : Moves P args run run')
    (keeps : run.Keeps P saved) : run'.Keeps P saved := by
  cases moves with
  | resume reads known loads =>
      cases saved with
      | none =>
          simp only [Keeps, Option.map_none] at keeps
          simp [creates, reads, keeps, resumes] at known
      | some saved => exact ⟨saved, keeps⟩
  | create reads new loads => exact ⟨_, [], rfl, rfl⟩
  | write written todo n =>
      obtain ⟨new, _, same, bytes⟩ := keeps
      cases same
      exact ⟨new, _, rfl, by rw [bytes, List.append_assoc, List.take_append_drop]⟩
  | close file =>
      obtain ⟨new, written, same, bytes⟩ := keeps
      rw [List.append_nil] at bytes
      exact ⟨new, by rw [bytes]; exact same⟩
  | remove file => rfl

theorem StateRun.Reaches.keeps {saved : Option Saved} {file : Option Bytes} {run : StateRun}
    (reached : Reaches P args (start file) run) (persisted : file = saved.map (·.bytes P)) :
    run.Keeps P saved := by
  have steps : Preserves (Moves P args) (Keeps P saved) := fun _ _ keeps moves => moves.keeps keeps
  have first : (start file).Keeps P saved := persisted
  exact steps.run first reached

/-- A run that is not torn leaves no state or a whole one. -/
theorem StateRun.Keeps.whole {saved : Option Saved} {run : StateRun} (keeps : run.Keeps P saved)
    (whole : ¬ run.Torn) :
    ∃ left : Option Saved, run.file = left.map (·.bytes P) := by
  obtain ⟨file, stage⟩ := run
  cases stage with
  | starting => exact ⟨saved, keeps⟩
  | writing todo =>
      obtain ⟨new, written, same, bytes⟩ := keeps
      have nothing : todo = [] := by_contra fun more => whole ⟨todo, rfl, more⟩
      rw [nothing, List.append_nil] at bytes
      exact ⟨some new, by rw [Option.map_some, bytes]; exact same⟩
  | working =>
      obtain ⟨new, same⟩ := keeps
      exact ⟨some new, same⟩
  | finished => exact ⟨none, keeps⟩

theorem EndsWhole.persisted {files : String → Option Bytes}
    (reached : Relation.ReflTransGen (EndsWhole P) (fun _ => none) files) (path : String) :
    ∃ saved : Option Saved, files path = saved.map (·.bytes P) := by
  have steps : Preserves (EndsWhole P) fun files =>
      ∀ path, ∃ saved : Option Saved, files path = saved.map (·.bytes P) := by
    rintro files _ before ⟨at', args, run, reaches, whole, rfl⟩ path
    by_cases here : path = at'
    · obtain ⟨saved, persisted⟩ := before at'
      obtain ⟨left, same⟩ := (reaches.keeps persisted).whole whole
      exact ⟨left, by rw [here, Function.update_self, same]⟩
    · rw [Function.update_of_ne here]
      exact before path
  exact steps.run (fun _ => ⟨none, rfl⟩) reached path

/-- A run gets to its uploads with the state it chose. -/
theorem reaches_working {source : Bytes} {file : Option Bytes} {saved : Option Saved}
    (reads : args.file = some source) (persisted : file = saved.map (·.bytes P)) :
    StateRun.Reaches P args (.start file) ⟨some ((chosen saved args source.length).bytes P), .working⟩ := by
  have loads : StateRun.opens P args source file = .ok ((chosen saved args source.length).json P) := by
    rw [StateRun.opens, loadOrCreateState_run P args source.length saved persisted]
  rcases creates_chosen reads persisted with ⟨kept, _, known⟩ | ⟨fresh, new⟩
  · have same : file = some ((chosen saved args source.length).bytes P) := by
      rw [persisted, kept, Option.map_some, ← kept]
    rw [← same]
    exact .single (.resume reads known loads)
  · rw [fresh] at loads ⊢
    refine .tail (.tail (.single (.create reads new loads)) ?_) (.close _)
    have write : StateRun.Moves P args _ _ := .write [] ((args.fresh source.length).bytes P)
      ((args.fresh source.length).bytes P).length
    rwa [List.take_length, List.drop_length, List.nil_append] at write

/-- Every run of `send`, against any broker, is one that ends whole. -/
theorem send_reaches {β : Type} {broker : Broker β} {w : SenderWorld β} {saved : Option Saved}
    (persisted : w.state = saved.map (·.bytes P)) :
    ∃ run, StateRun.Reaches P args (.start w.state) run ∧ ¬ run.Torn ∧
      run.file = (send P broker args w).2.state := by
  have not_torn {file : Option Bytes} {stage : SendStage} (elsewhere : ∀ todo, stage ≠ .writing todo) :
      ¬ StateRun.Torn ⟨file, stage⟩ := by
    rintro ⟨todo, here, _⟩
    exact elsewhere todo here
  cases reads : args.file with
  | none => exact ⟨.start w.state, .refl, not_torn (by simp), by simp only [send, reads]; rfl⟩
  | some source =>
      have working := reaches_working reads persisted
      cases run : sendFile P broker args source w with
      | mk r w' =>
          simp only [send, reads, run]
          rcases sendFile_cases persisted run with ⟨rfl, _⟩ | ⟨t, saves, _, _, _, _, _, returns, sent, _, _⟩
          · exact ⟨_, working, not_torn (by simp), rfl⟩
          · cases returns with
            | false => exact ⟨_, working, not_torn (by simp), by rw [sent.state, saves]; rfl⟩
            | true => exact ⟨_, working.tail (.remove _), not_torn (by simp), sent.state.symm⟩

/-! ## The next run -/

theorem restarts_persisted {source : Bytes} {left : Option Bytes} (reads : args.file = some source)
    {saved : Option Saved} (persisted : left = saved.map (·.bytes P)) : Restarts P args source left where
  past := by
    refine ⟨chosen saved args source.length, ?_, fun β w here => ?_⟩
    · cases saved with
      | none => exact .inr rfl
      | some saved =>
          by_cases size : saved.fileSize = source.length
          · have kept : chosen (some saved) args source.length = saved := if_pos size
            rw [kept]
            exact .inl ⟨persisted, size⟩
          · exact .inr (if_neg size)
    · exact loadOrCreateState_run P args source.length saved (here.trans persisted)
  returns laws receiver generated few w here served := by
    obtain ⟨t, saves, key, file, _⟩ := exists_transfer laws (chosen saved args source.length) receiver
      args.basename source (chosen_fileSize saved args source.length)
    subst file
    simp only [send, reads]
    exact sendFile_served t few saved (here.trans persisted) saves (key.trans generated.symm) served

/-- A run that finds a part of a state raises and changes nothing. -/
theorem loadOrCreateState_torn {β : Type} (args : SendArgs) (fileSize : Nat) {w : SenderWorld β} {saved : Saved}
    {part rest : Bytes} (split : saved.bytes P = part ++ rest) (short : rest ≠ []) (torn : w.state = some part) :
    ∃ e, loadOrCreateState P args fileSize w = (.error (.python e), w) := by
  have less : part ≠ saved.bytes P := fun whole => short (by simpa [whole] using split)
  have unread : ∀ value, Json.loadFile part ≠ .ok (some value) :=
    Json.loadFile_beginning rfl ⟨rest, split.symm⟩ less
  rw [loadOrCreateState, Prog.bind_ok (Prog.get_run w)]
  simp only [torn]
  cases loaded : Json.loadFile part with
  | error e => exact ⟨e, rfl⟩
  | ok found =>
      cases found with
      | none => exact ⟨.valueError, rfl⟩
      | some value => exact absurd loaded (unread value)

/-- **Killed senders.** However runs on the source files ended before, the next run on a file gets
    past its state file, with the transfer in it or a fresh one, unless the run before it was
    killed after it had truncated the state file and before it had written the last byte. -/
theorem killed_sender_restarts {files : String → Option Bytes}
    (reached : Relation.ReflTransGen (EndsWhole P) (fun _ => none) files) (path : String) (args : SendArgs)
    {killed : StateRun} (run : StateRun.Reaches P args (.start (files path)) killed) (next : SendArgs)
    (source : Bytes) (reads : next.file = some source) : Restarts P next source killed.file ↔ ¬ killed.Torn := by
  obtain ⟨saved, persisted⟩ := EndsWhole.persisted reached path
  have keeps := run.keeps persisted
  constructor
  · rintro restarts ⟨todo, stage, more⟩
    obtain ⟨file, _⟩ := killed
    subst stage
    obtain ⟨new, written, same, bytes⟩ := keeps
    obtain ⟨_, _, gets⟩ := restarts.past
    have torn : (⟨(), file, [], []⟩ : SenderWorld Unit).state = some written := same
    obtain ⟨e, raised⟩ := loadOrCreateState_torn next source.length bytes more torn
    rw [gets Unit _ rfl] at raised
    cases raised
  · intro whole
    obtain ⟨left, same⟩ := keeps.whole whole
    exact restarts_persisted reads same

/-- A first run that is killed during its uploads is taken up by the next one. -/
theorem killed_while_uploading :
    ∃ run, StateRun.Reaches (transparent fun _ _ => true) (oneByte 7 ⟨List.replicate 16 0, rfl⟩)
        (.start none) run ∧
      run.file ≠ none ∧
      Restarts (transparent fun _ _ => true) (oneByte 7 ⟨List.replicate 16 0, rfl⟩) [7] run.file := by
  have nothing : (none : Option Bytes) = (none : Option Saved).map (·.bytes (transparent fun _ _ => true)) := rfl
  have reads : (oneByte 7 ⟨List.replicate 16 0, rfl⟩).file = some [7] := rfl
  have working := reaches_working reads nothing
  exact ⟨_, working, nofun, (killed_sender_restarts .refl "source" _ working _ [7] rfl).mpr nofun⟩

/-- A first run that is killed before its state is on disk leaves an empty file, on which every
    later run raises. -/
theorem killed_before_writing :
    ¬ ∀ run, StateRun.Reaches (transparent fun _ _ => true) (oneByte 7 ⟨List.replicate 16 0, rfl⟩)
        (.start none) run →
      Restarts (transparent fun _ _ => true) (oneByte 7 ⟨List.replicate 16 0, rfl⟩) [7] run.file := by
  intro claim
  let P := transparent fun _ _ => true
  let args := oneByte 7 ⟨List.replicate 16 0, rfl⟩
  have opened : StateRun.Reaches P args (.start none) ⟨some [], .writing ((args.fresh 1).bytes P)⟩ :=
    .single (.create (show args.file = some [7] from rfl) rfl rfl)
  obtain ⟨_, _, gets⟩ := (claim _ opened).past
  have more : (args.fresh 1).bytes P ≠ [] := by
    simp [Saved.bytes, Json.dumpFile, Saved.json, Json.dumps, encodeText]
  have empty : (⟨(), some [], [], []⟩ : SenderWorld Unit).state = some [] := rfl
  obtain ⟨e, raised⟩ := loadOrCreateState_torn args 1 (List.nil_append _).symm more empty
  have passed := gets Unit ⟨(), some [], [], []⟩ rfl
  have one : List.length ([7] : Bytes) = 1 := rfl
  rw [one, raised] at passed
  cases passed

end SecureTransfer.ApproachB
