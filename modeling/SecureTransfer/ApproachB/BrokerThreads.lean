import SecureTransfer.Library.Program
import SecureTransfer.Library.FileTable
import SecureTransfer.ApproachB.BrokerStore
import Mathlib.Data.Fintype.Basic

/-! # Broker threads on one directory

`_handle_command` step by step, as the threads of several connections run it: a PUT opens
`path + ".tmp"`, writes it in pieces, closes it and renames it onto `path`; a GET looks
for the file, opens it and reads it. Any steps of other threads may come between.
-/

namespace SecureTransfer.ApproachB

open Library

inductive BlobCommand where
  | put (key : String) (data : Bytes)
  | get (key : String)

inductive BlobReply where
  | ok
  | blob (data : Bytes)
  | missing
  | illegalKey

/-- Where the thread that serves one command stands. `failed`: an exception ended its
    connection without a reply. -/
inductive Stage where
  | waiting
  | putAccepted (path : BlobPath) (data : Bytes)
  | putWriting (path : BlobPath) (data : Bytes) (file offset : Nat)
  | putClosed (path : BlobPath) (data : Bytes)
  | putRenamed
  | getAccepted (path : BlobPath)
  | getFound (path : BlobPath)
  | getOpened (path : BlobPath) (file : Nat)
  | answered (reply : BlobReply)
  | failed

/-- `path + ".tmp"`. -/
def tmpPath (path : BlobPath) : BlobPath := (path.1, path.2 ++ ".tmp")

/-- The whole command has arrived. -/
def received : BlobCommand → Stage
  | .put key data => (safePath key).elim (.answered .illegalKey) (.putAccepted · data)
  | .get key => (safePath key).elim (.answered .missing) .getAccepted

/-- The next step of a thread, which writes at most `count` bytes. -/
def Stage.next (count : Nat) (files : FileTable BlobPath UInt8) :
    Stage → Option (FileTable BlobPath UInt8 × Stage)
  | .putAccepted path data =>
      let opened := files.openTruncate (tmpPath path)
      some (opened.2, .putWriting path data opened.1 0)
  | .putWriting path data file offset =>
      if offset < data.length then
        let piece := (data.drop offset).take count
        some (files.write 0 file offset piece, .putWriting path data file (offset + piece.length))
      else some (files, .putClosed path data)
  | .putClosed path _ =>
      -- the name "." is the namespace directory, which no file replaces
      if path.2 = "." then some (files, .failed)
      else
        match files.rename (tmpPath path) path with
        | some files => some (files, .putRenamed)
        | none => some (files, .failed)
  | .putRenamed => some (files, .answered .ok)
  | .getAccepted path =>
      if (files.names path).isSome then some (files, .getFound path) else some (files, .answered .missing)
  | .getFound path =>
      match files.names path with
      | some file => some (files, .getOpened path file)
      | none => some (files, .failed)
  | .getOpened _ file => some (files, .answered (.blob (files.contents file)))
  | .waiting | .answered _ | .failed => none

/-- The directory and the threads, one for each command. -/
structure Threads (ι : Type) where
  files : FileTable BlobPath UInt8
  stages : ι → Stage

inductive ThreadAction (ι : Type) where
  | receive (i : ι)
  | next (i : ι) (count : Nat)

namespace Threads

variable {ι : Type} (commands : ι → BlobCommand)

def start : Threads ι where
  files := .empty
  stages _ := .waiting

section Steps

variable [DecidableEq ι]

def setStage (i : ι) (stage : Stage) (s : Threads ι) : Threads ι :=
  { s with stages := Function.update s.stages i stage }

def step (s : Threads ι) : ThreadAction ι → Option (Threads ι)
  | .receive i =>
      match s.stages i with
      | .waiting => some (s.setStage i (received (commands i)))
      | _ => none
  | .next i count =>
      ((s.stages i).next count s.files).map fun after => setStage i after.2 { s with files := after.1 }

end Steps

/-- A PUT of `path` with `data` was received. -/
def Put (s : Threads ι) (path : BlobPath) (data : Bytes) : Prop :=
  ∃ j key, commands j = .put key data ∧ safePath key = some path ∧ s.stages j ≠ .waiting

end Threads

/-- The path of a PUT between its open and its rename, and what its temporary file holds. -/
def Stage.window : Stage → Option (BlobPath × Bytes)
  | .putWriting path data _ offset => some (path, data.take offset)
  | .putClosed path data => some (path, data)
  | _ => none

/-- The path and the data of a PUT before its rename. -/
def Stage.putting : Stage → Option (BlobPath × Bytes)
  | .putAccepted path data => some (path, data)
  | .putWriting path data _ _ => some (path, data)
  | .putClosed path data => some (path, data)
  | _ => none

/-- The path of a GET before its reply. -/
def Stage.getting : Stage → Option BlobPath
  | .getAccepted path => some path
  | .getFound path => some path
  | .getOpened path _ => some path
  | _ => none

/-- The path of a GET between its open and its read. -/
def Stage.reading : Stage → Option BlobPath
  | .getOpened path _ => some path
  | _ => none

/-- The steps that a PUT has left when each writes at least one byte. -/
def Stage.left : Stage → Nat
  | .putAccepted _ data => data.length + 4
  | .putWriting _ data _ offset => data.length - offset + 3
  | .putClosed _ _ => 2
  | .putRenamed => 1
  | _ => 0

namespace Threads

variable {ι : Type} (commands : ι → BlobCommand)

/-- Some PUT that has the temporary name `tmp` is between its open and its rename. -/
def Uses (s : Threads ι) (tmp : BlobPath) : Prop :=
  ∃ j path bytes, (s.stages j).window = some (path, bytes) ∧ tmpPath path = tmp

/-- A PUT arrives with a key that can be stored. It opens its temporary name when no other
    PUT uses it and no GET of a blob under that name is between its open and its read. While
    a PUT uses a temporary name, no GET opens a blob under it and no PUT renames onto it. -/
def Undisturbed (s : Threads ι) : ThreadAction ι → Prop
  | .receive i => ∀ key data, commands i = .put key data → ∃ path, safePath key = some path ∧ path.2 ≠ "."
  | .next i _ =>
      match s.stages i with
      | .putAccepted path _ =>
          ¬ s.Uses (tmpPath path) ∧ ∀ j file, s.stages j ≠ .getOpened (tmpPath path) file
      | .putClosed path _ | .getFound path => ¬ s.Uses path
      | _ => True

/-- Every GET that is answered OK got the data of one PUT of its key that was received, and
    every PUT that was received is answered OK or has a next step, which brings it closer. -/
structure Intact [DecidableEq ι] (s : Threads ι) : Prop where
  gets : ∀ i key data, commands i = .get key → s.stages i = .answered (.blob data) →
    ∃ j, commands j = .put key data ∧ s.stages j ≠ .waiting
  puts : ∀ i key data, commands i = .put key data → s.stages i = .waiting ∨
    s.stages i = .answered .ok ∨ ∀ count, 0 < count → ∃ s', s.step commands (.next i count) = some s' ∧
      (s'.stages i).left < (s.stages i).left

/-! ## What undisturbed steps keep -/

/-- The stages of a PUT of a key that can be stored, and of a GET. -/
def Fits : BlobCommand → Stage → Prop
  | _, .waiting => True
  | .put key data, .putAccepted path data' => safePath key = some path ∧ path.2 ≠ "." ∧ data' = data
  | .put key data, .putWriting path data' _ _ => safePath key = some path ∧ path.2 ≠ "." ∧ data' = data
  | .put key data, .putClosed path data' => safePath key = some path ∧ path.2 ≠ "." ∧ data' = data
  | .put _ _, .putRenamed => True
  | .put _ _, .answered reply => reply = .ok
  | .get key, .getAccepted path => safePath key = some path
  | .get key, .getFound path => safePath key = some path
  | .get key, .getOpened path _ => safePath key = some path
  | .get key, .answered (.blob _) => ∃ path, safePath key = some path
  | .get _, .answered _ => True
  | .get _, .failed => True
  | _, _ => False

theorem fits_putting {command : BlobCommand} {stage : Stage} {path : BlobPath} {data : Bytes}
    (h : stage.putting = some (path, data)) :
    Fits command stage ↔ ∃ key, command = .put key data ∧ safePath key = some path ∧ path.2 ≠ "." := by
  have shape : ∀ key data', safePath key = some path ∧ path.2 ≠ "." ∧ data = data' ↔
      ∃ key', BlobCommand.put key data' = .put key' data ∧ safePath key' = some path ∧ path.2 ≠ "." := by
    intro key data'
    constructor
    · rintro ⟨safe, named, rfl⟩
      exact ⟨key, rfl, safe, named⟩
    · rintro ⟨_, same, safe, named⟩
      cases same
      exact ⟨safe, named, rfl⟩
  cases command with
  | put key data' =>
      cases stage with
      | putAccepted | putWriting | putClosed =>
          cases h
          exact shape key data'
      | _ => cases h
  | get key =>
      cases stage with
      | putAccepted | putWriting | putClosed => simp [Fits]
      | _ => cases h

theorem fits_getting {command : BlobCommand} {stage : Stage} {path : BlobPath}
    (h : stage.getting = some path) :
    Fits command stage ↔ ∃ key, command = .get key ∧ safePath key = some path := by
  cases command with
  | put key data =>
      cases stage with
      | getAccepted | getFound | getOpened => simp [Fits]
      | _ => cases h
  | get key =>
      cases stage with
      | getAccepted | getFound | getOpened =>
          cases h
          simp [Fits]
      | _ => cases h

/-- What an open GET reads is complete and is no temporary file. -/
structure Reader (s : Threads ι) (path : BlobPath) (file : Nat) : Prop where
  complete : s.Put commands path (s.files.contents file)
  below : file < s.files.next
  named : ∀ name, s.files.names name = some file → name = path ∧ ¬ s.Uses name

structure Kept (s : Threads ι) : Prop where
  fits : ∀ i, Fits (commands i) (s.stages i)
  single : ∀ i j path bytes bytes', (s.stages i).window = some (path, bytes) →
    (s.stages j).window = some (path, bytes') → i = j
  windows : ∀ i path bytes, (s.stages i).window = some (path, bytes) →
    ∃ file, s.files.names (tmpPath path) = some file ∧ s.files.contents file = bytes
  writers : ∀ i path data file offset, s.stages i = .putWriting path data file offset →
    s.files.names (tmpPath path) = some file ∧ offset ≤ data.length
  published : ∀ path file, s.files.names path = some file →
    s.Uses path ∨ s.Put commands path (s.files.contents file)
  readers : ∀ i path file, s.stages i = .getOpened path file → s.Reader commands path file
  answers : ∀ i key path data, commands i = .get key → safePath key = some path →
    s.stages i = .answered (.blob data) → s.Put commands path data

variable {commands} {s s' : Threads ι} {i j : ι} {stage : Stage}

theorem tmpPath_injective : Function.Injective tmpPath := by
  intro a b same
  obtain ⟨space, name⟩ := Prod.mk.inj same
  have chars := congrArg String.toList name
  rw [String.toList_append, String.toList_append] at chars
  exact Prod.ext space (String.toList_injective (List.append_cancel_right chars))

theorem tmpPath_ne (path : BlobPath) : path ≠ tmpPath path := by
  intro same
  have chars := congrArg (fun path : BlobPath => path.2.toList.length) same
  simp [tmpPath] at chars

theorem kept_start : (start : Threads ι).Kept commands where
  fits _ := trivial
  single _ _ _ _ _ h := nomatch h
  windows _ _ _ h := nomatch h
  writers _ _ _ _ _ h := nomatch h
  published _ _ h := nomatch h
  readers _ _ _ h := nomatch h
  answers _ _ _ _ _ _ h := nomatch h

section Moves

variable [DecidableEq ι]

@[simp] theorem setStage_self : (s.setStage i stage).stages i = stage := Function.update_self ..

@[simp] theorem setStage_other (other : j ≠ i) : (s.setStage i stage).stages j = s.stages j :=
  Function.update_of_ne other ..

theorem setStage_cases {stands : Stage} (here : (s.setStage i stage).stages j = stands) :
    (j = i ∧ stage = stands) ∨ (j ≠ i ∧ s.stages j = stands) := update_cases here

theorem Put.setStage {path : BlobPath} {data : Bytes} (h : s.Put commands path data)
    (awake : stage ≠ .waiting) : (s.setStage i stage).Put commands path data := by
  obtain ⟨j, key, command, safe, later⟩ := h
  refine ⟨j, key, command, safe, ?_⟩
  by_cases here : j = i
  · rw [here, setStage_self]
    exact awake
  · rw [setStage_other here]
    exact later

/-- A thread whose window stays leaves the names in use as they are. -/
theorem uses_same (window : stage.window = (s.stages i).window) (tmp : BlobPath) :
    (s.setStage i stage).Uses tmp ↔ s.Uses tmp := by
  have windows : ∀ j, ((s.setStage i stage).stages j).window = (s.stages j).window := by
    intro j
    by_cases here : j = i
    · rw [here, setStage_self, window]
    · rw [setStage_other here]
  simp only [Uses, windows]

/-- A thread with a window on one path adds the temporary name of that path. -/
theorem uses_window {path : BlobPath} {held : Bytes} (own : stage.window = some (path, held))
    (mine : ∀ other bytes, (s.stages i).window = some (other, bytes) → other = path) (tmp : BlobPath) :
    (s.setStage i stage).Uses tmp ↔ s.Uses tmp ∨ tmp = tmpPath path := by
  have window : ((s.setStage i stage).stages i).window = some (path, held) := by rw [setStage_self, own]
  constructor
  · rintro ⟨j, other, bytes, here, rfl⟩
    by_cases this : j = i
    · rw [this, window] at here
      cases here
      exact .inr rfl
    · rw [setStage_other this] at here
      exact .inl ⟨j, other, bytes, here, rfl⟩
  · rintro (⟨j, other, bytes, here, rfl⟩ | rfl)
    · by_cases this : j = i
      · rw [this] at here
        rw [mine other bytes here]
        exact ⟨i, path, held, window, rfl⟩
      · exact ⟨j, other, bytes, (congrArg Stage.window (setStage_other this)).trans here, rfl⟩
    · exact ⟨i, path, held, window, rfl⟩

/-- A thread that ends its window gives its temporary name free. -/
theorem Kept.uses_released (kept : s.Kept commands) {path : BlobPath} {data : Bytes}
    (window : (s.stages i).window = some (path, data)) (ends : stage.window = none) (tmp : BlobPath) :
    (s.setStage i stage).Uses tmp ↔ s.Uses tmp ∧ tmp ≠ tmpPath path := by
  constructor
  · rintro ⟨j, other, bytes, here, rfl⟩
    have idle : j ≠ i := by
      rintro rfl
      rw [setStage_self, ends] at here
      cases here
    rw [setStage_other idle] at here
    refine ⟨⟨j, other, bytes, here, rfl⟩, fun equal => idle ?_⟩
    rw [tmpPath_injective equal] at here
    exact kept.single j i path bytes data here window
  · rintro ⟨⟨j, other, bytes, here, rfl⟩, differ⟩
    have idle : j ≠ i := by
      rintro rfl
      rw [window] at here
      cases here
      exact differ rfl
    exact ⟨j, other, bytes, (congrArg Stage.window (setStage_other idle)).trans here, rfl⟩

/-- A step of one thread keeps the invariant if its own stage and the published names are in
    order afterwards, and the temporary files of the others are what they were. -/
theorem Kept.after (kept : s.Kept commands) {files : FileTable BlobPath UInt8}
    (fits : Fits (commands i) stage) (awake : stage ≠ .waiting)
    (window : ∀ path bytes, stage.window = some (path, bytes) →
      (∃ file, files.names (tmpPath path) = some file ∧ files.contents file = bytes) ∧
        ∀ j held, (s.stages j).window = some (path, held) → j = i)
    (writer : ∀ path data file offset, stage = .putWriting path data file offset →
      files.names (tmpPath path) = some file ∧ offset ≤ data.length)
    (answer : ∀ key path data, commands i = .get key → safePath key = some path →
      stage = .answered (.blob data) → s.Put commands path data)
    (others : ∀ j path bytes, j ≠ i → (s.stages j).window = some (path, bytes) →
      files.names (tmpPath path) = s.files.names (tmpPath path) ∧
        ∀ file, s.files.names (tmpPath path) = some file → files.contents file = s.files.contents file)
    (published : ∀ path file, files.names path = some file →
      (Threads.setStage i stage { s with files := files }).Uses path ∨ s.Put commands path (files.contents file))
    (readers : ∀ path file, (stage = .getOpened path file ∨ ∃ j, j ≠ i ∧ s.stages j = .getOpened path file) →
      s.Put commands path (files.contents file) ∧ file < files.next ∧
        ∀ name, files.names name = some file →
          name = path ∧ ¬ (Threads.setStage i stage { s with files := files }).Uses name) :
    (Threads.setStage i stage { s with files := files }).Kept commands := by
  have put : ∀ {path data}, s.Put commands path data →
      (Threads.setStage i stage { s with files := files }).Put commands path data :=
    fun h => Put.setStage (s := { s with files := files }) h awake
  constructor
  case fits =>
    intro j
    by_cases here : j = i
    · rw [here, setStage_self]
      exact fits
    · rw [setStage_other here]
      exact kept.fits j
  case single =>
    intro j k path bytes bytes' first second
    by_cases left : j = i
    · by_cases right : k = i
      · rw [left, right]
      · rw [left, setStage_self] at first
        rw [setStage_other right] at second
        exact absurd ((window path bytes first).2 k bytes' second) right
    · rw [setStage_other left] at first
      by_cases right : k = i
      · rw [right, setStage_self] at second
        exact absurd ((window path bytes' second).2 j bytes first) left
      · rw [setStage_other right] at second
        exact kept.single j k path bytes bytes' first second
  case windows =>
    intro j path bytes held
    by_cases here : j = i
    · rw [here, setStage_self] at held
      exact (window path bytes held).1
    · rw [setStage_other here] at held
      obtain ⟨file, given, holds⟩ := kept.windows j path bytes held
      obtain ⟨name, content⟩ := others j path bytes here held
      exact ⟨file, name.trans given, (content file given).trans holds⟩
  case writers =>
    intro j path data file offset writes
    rcases setStage_cases writes with ⟨_, here⟩ | ⟨other, writes⟩
    · exact writer path data file offset here
    · obtain ⟨given, bound⟩ := kept.writers j path data file offset writes
      have held : (s.stages j).window = some (path, data.take offset) := by
        rw [writes]
        rfl
      exact ⟨(others j path _ other held).1.trans given, bound⟩
  case published =>
    intro path file given
    exact (published path file given).imp_right put
  case readers =>
    intro j path file opened
    have reads : stage = .getOpened path file ∨ ∃ j, j ≠ i ∧ s.stages j = .getOpened path file :=
      (setStage_cases opened).imp And.right fun before => ⟨j, before⟩
    obtain ⟨complete, below, named⟩ := readers path file reads
    exact ⟨put complete, below, named⟩
  case answers =>
    intro j key path data command safe answered
    rcases setStage_cases answered with ⟨rfl, here⟩ | ⟨_, before⟩
    · exact put (answer key path data command safe here)
    · exact put (kept.answers j key path data command safe before)

/-- A step of one thread that leaves the directory alone. -/
theorem Kept.move (kept : s.Kept commands) (fits : Fits (commands i) stage) (awake : stage ≠ .waiting)
    (window : stage.window = (s.stages i).window)
    (writer : ∀ path data file offset, stage ≠ .putWriting path data file offset)
    (reader : ∀ path file, stage = .getOpened path file → s.Reader commands path file)
    (answer : ∀ key path data, commands i = .get key → safePath key = some path →
      stage = .answered (.blob data) → s.Put commands path data) :
    (s.setStage i stage).Kept commands := by
  have uses := uses_same (s := s) window
  refine kept.after fits awake ?_
    (fun path data file offset writes => absurd writes (writer path data file offset)) answer
    (fun _ _ _ _ _ => ⟨rfl, fun _ _ => rfl⟩) ?_ ?_
  · intro path bytes held
    rw [window] at held
    exact ⟨kept.windows i path bytes held, fun j other there => kept.single j i path other bytes there held⟩
  · intro path file given
    exact (kept.published path file given).imp_left (uses path).mpr
  · intro path file reads
    have read : s.Reader commands path file := by
      rcases reads with opened | ⟨j, _, opened⟩
      · exact reader path file opened
      · exact kept.readers j path file opened
    refine ⟨read.complete, read.below, fun name given => ?_⟩
    obtain ⟨same, unused⟩ := read.named name given
    exact ⟨same, fun used => unused ((uses name).mp used)⟩

/-- What a PUT that uses its temporary name may do: its window opens or grows on a file that
    no reader has open and no other PUT writes. -/
theorem Kept.window (kept : s.Kept commands) {path : BlobPath} {data : Bytes}
    {files : FileTable BlobPath UInt8} {file offset : Nat}
    (fits : Fits (commands i) (.putWriting path data file offset)) (bound : offset ≤ data.length)
    (alone : ∀ j held, (s.stages j).window = some (path, held) → j = i)
    (mine : ∀ other held, (s.stages i).window = some (other, held) → other = path)
    (named : files.names (tmpPath path) = some file)
    (others : ∀ name, name ≠ tmpPath path → files.names name = s.files.names name)
    (contents : files.contents = Function.update s.files.contents file (data.take offset))
    (next : s.files.next ≤ files.next)
    (unread : ∀ j other, s.stages j ≠ .getOpened other file) :
    (Threads.setStage i (.putWriting path data file offset) { s with files := files }).Kept commands := by
  let s' : Threads ι := Threads.setStage i (.putWriting path data file offset) { s with files := files }
  -- a name other than the temporary one is not given to the file that is written
  have apart : ∀ name other, name ≠ tmpPath path → files.names name = some other → other ≠ file := by
    rintro name other differ here rfl
    exact differ (files.single here named)
  have same : ∀ other, other ≠ file → files.contents other = s.files.contents other := by
    intro other differ
    rw [contents, Function.update_of_ne differ]
  have uses : ∀ tmp, s'.Uses tmp ↔ s.Uses tmp ∨ tmp = tmpPath path :=
    uses_window (s := { s with files := files }) rfl mine
  refine kept.after fits nofun ?_ ?_ nofun ?_ ?_ ?_
  · rintro _ _ ⟨⟩
    exact ⟨⟨file, named, by rw [contents, Function.update_self]⟩, alone⟩
  · rintro _ _ _ _ ⟨⟩
    exact ⟨named, bound⟩
  · intro j other bytes idle held
    have differ : tmpPath other ≠ tmpPath path := by
      intro equal
      rw [tmpPath_injective equal] at held
      exact idle (alone j bytes held)
    refine ⟨others _ differ, fun found given => same found (apart _ found differ ?_)⟩
    rw [others _ differ]
    exact given
  · intro name found given
    rw [uses]
    by_cases tmp : name = tmpPath path
    · exact .inl (.inr tmp)
    · have old := given
      rw [others name tmp] at old
      rw [same found (apart name found tmp given)]
      exact (kept.published name found old).imp_left .inl
  · intro other found reads
    obtain ⟨j, _, opened⟩ := reads.resolve_left nofun
    obtain ⟨complete, below, names⟩ := kept.readers j other found opened
    have differ : found ≠ file := by
      rintro rfl
      exact unread j other opened
    rw [same found differ]
    refine ⟨complete, lt_of_lt_of_le below next, fun name given => ?_⟩
    have tmp : name ≠ tmpPath path := by
      rintro rfl
      exact differ (Option.some.inj (given.symm.trans named))
    rw [others name tmp] at given
    obtain ⟨rfl, unused⟩ := names name given
    refine ⟨rfl, ?_⟩
    rw [uses]
    rintro (used | here)
    · exact unused used
    · exact tmp here

/-- The temporary file is complete and takes its place. -/
theorem Kept.rename (kept : s.Kept commands) {path : BlobPath} {data : Bytes}
    (closed : s.stages i = .putClosed path data) (free : ¬ s.Uses path) {files : FileTable BlobPath UInt8}
    {file : Nat} (tmp : s.files.names (tmpPath path) = some file) (contents : files.contents = s.files.contents)
    (next : files.next = s.files.next)
    (names : files.names =
      Function.update (Function.update s.files.names path (some file)) (tmpPath path) none) :
    (Threads.setStage i .putRenamed { s with files := files }).Kept commands := by
  let s' : Threads ι := Threads.setStage i .putRenamed { s with files := files }
  have window : (s.stages i).window = some (path, data) := by
    rw [closed]
    rfl
  obtain ⟨key, command, safe, _⟩ :
      ∃ key, commands i = .put key data ∧ safePath key = some path ∧ path.2 ≠ "." := by
    have fits := kept.fits i
    rw [closed] at fits
    exact (fits_putting rfl).mp fits
  have uses : ∀ name, s'.Uses name ↔ s.Uses name ∧ name ≠ tmpPath path :=
    kept.uses_released window (rfl : Stage.putRenamed.window = none)
  have origin : ∀ {name found}, files.names name = some found →
      (name = path ∧ found = file) ∨ (name ≠ tmpPath path ∧ s.files.names name = some found) := by
    intro name found given
    rw [names] at given
    by_cases gone : name = tmpPath path
    · rw [gone, Function.update_self] at given
      cases given
    · rw [Function.update_of_ne gone] at given
      by_cases here : name = path
      · rw [here, Function.update_self] at given
        cases given
        exact .inl ⟨here, rfl⟩
      · rw [Function.update_of_ne here] at given
        exact .inr ⟨gone, given⟩
  have complete : s.Put commands path (s.files.contents file) := by
    obtain ⟨found, given, holds⟩ := kept.windows i path data window
    rw [tmp] at given
    cases given
    rw [holds]
    exact ⟨i, key, command, safe, by rw [closed]; nofun⟩
  refine kept.after (by rw [command]; trivial) nofun nofun nofun nofun ?_ ?_ ?_
  · intro j other bytes idle held
    -- a temporary name that another PUT uses is neither of the two names
    have first : tmpPath other ≠ tmpPath path := by
      intro equal
      rw [tmpPath_injective equal] at held
      exact idle (kept.single j i path bytes data held window)
    have second : tmpPath other ≠ path := fun equal => free ⟨j, other, bytes, held, equal⟩
    rw [names, Function.update_of_ne first, Function.update_of_ne second, contents]
    exact ⟨rfl, fun _ _ => rfl⟩
  · intro name found given
    rw [uses, contents]
    rcases origin given with ⟨rfl, rfl⟩ | ⟨kept_name, old⟩
    · exact .inr complete
    · exact (kept.published name found old).imp_left fun used => ⟨used, kept_name⟩
  · intro other found reads
    obtain ⟨j, _, opened⟩ := reads.resolve_left nofun
    obtain ⟨done, below, given⟩ := kept.readers j other found opened
    rw [contents, next]
    refine ⟨done, below, fun name here => ?_⟩
    rcases origin here with ⟨rfl, rfl⟩ | ⟨_, old⟩
    · exact absurd ⟨i, _, _, window, rfl⟩ (given _ tmp).2
    · obtain ⟨rfl, unused⟩ := given name old
      exact ⟨rfl, fun used => unused ((uses _).mp used).1⟩

theorem received_fits {command : BlobCommand}
    (storable : ∀ key data, command = .put key data → ∃ path, safePath key = some path ∧ path.2 ≠ ".") :
    Fits command (received command) ∧ received command ≠ .waiting ∧ (received command).window = none ∧
      (∀ path data file offset, received command ≠ .putWriting path data file offset) ∧
      (∀ path file, received command ≠ .getOpened path file) ∧
      ∀ data, received command ≠ .answered (.blob data) := by
  cases command with
  | put key data =>
      obtain ⟨path, safe, named⟩ := storable key data rfl
      have here : received (.put key data) = .putAccepted path data := by
        simp only [received, safe, Option.elim_some]
      rw [here]
      exact ⟨⟨safe, named, rfl⟩, nofun, rfl, nofun, nofun, nofun⟩
  | get key =>
      cases safe : safePath key with
      | none =>
          have here : received (.get key) = .answered .missing := by
            simp only [received, safe, Option.elim_none]
          rw [here]
          exact ⟨trivial, nofun, rfl, nofun, nofun, nofun⟩
      | some path =>
          have here : received (.get key) = .getAccepted path := by
            simp only [received, safe, Option.elim_some]
          rw [here]
          exact ⟨safe, nofun, rfl, nofun, nofun, nofun⟩

/-- A PUT opens its temporary file, which no GET has open. -/
theorem Kept.opens (kept : s.Kept commands) {path : BlobPath} {data : Bytes}
    (here : s.stages i = .putAccepted path data) (free : ¬ s.Uses (tmpPath path))
    (unread : ∀ j file, s.stages j ≠ .getOpened (tmpPath path) file) :
    (Threads.setStage i (.putWriting path data (s.files.openTruncate (tmpPath path)).1 0)
      { s with files := (s.files.openTruncate (tmpPath path)).2 }).Kept commands := by
  have fits := kept.fits i
  rw [here] at fits
  refine kept.window ((fits_putting rfl).mpr ((fits_putting rfl).mp fits)) (Nat.zero_le _) ?_ ?_
    FileTable.openTruncate_names (fun name => FileTable.openTruncate_other) (by simp)
    FileTable.openTruncate_next ?_
  · intro j held window
    exact absurd ⟨j, path, held, window, rfl⟩ free
  · intro other held window
    rw [here] at window
    cases window
  · intro j other opened
    obtain ⟨_, below, named⟩ := kept.readers j other _ opened
    rcases s.files.openTruncate_file (tmpPath path) with old | new
    · obtain ⟨rfl, _⟩ := named _ old
      exact unread j _ opened
    · exact absurd new (Nat.ne_of_lt below)

/-- The file of a PUT holds what was written, and the next piece goes behind it. -/
theorem Kept.writes (kept : s.Kept commands) {path : BlobPath} {data : Bytes} {file offset : Nat}
    (here : s.stages i = .putWriting path data file offset) (count : Nat) :
    (Threads.setStage i (.putWriting path data file (offset + ((data.drop offset).take count).length))
      { s with files := s.files.write 0 file offset ((data.drop offset).take count) }).Kept commands := by
  have fits := kept.fits i
  rw [here] at fits
  obtain ⟨named, bound⟩ := kept.writers i path data file offset here
  have window : (s.stages i).window = some (path, data.take offset) := by
    rw [here]
    rfl
  have holds : s.files.contents file = data.take offset := by
    obtain ⟨found, given, holds⟩ := kept.windows i path _ window
    rw [named] at given
    cases given
    exact holds
  have length : (data.take offset).length = offset := by
    rw [List.length_take]
    omega
  refine kept.window ((fits_putting rfl).mpr ((fits_putting rfl).mp fits)) ?_ ?_ ?_ named (fun _ _ => rfl) ?_
    (le_refl _) ?_
  · simp only [List.length_take, List.length_drop]
    omega
  · intro j held window'
    exact kept.single j i path held _ window' window
  · intro other held window'
    rw [window] at window'
    cases window'
    rfl
  · have grown : writeAt 0 offset ((data.drop offset).take count) (data.take offset) =
        data.take (offset + ((data.drop offset).take count).length) := by
      have appended := writeAt_end 0 ((data.drop offset).take count) (data.take offset)
      rw [length] at appended
      rw [appended, List.take_add, List.length_take, ← List.take_take, List.take_length]
    simp only [FileTable.write, holds, grown]
  · intro j other opened
    obtain ⟨_, _, names⟩ := kept.readers j other file opened
    exact (names _ named).2 ⟨i, path, _, window, rfl⟩

/-- A GET opens what the name has, which is complete. -/
theorem Kept.finds (kept : s.Kept commands) {path : BlobPath} {file : Nat}
    (here : s.stages i = .getFound path) (free : ¬ s.Uses path) (given : s.files.names path = some file) :
    (s.setStage i (.getOpened path file)).Kept commands := by
  have fits := kept.fits i
  rw [here] at fits
  obtain ⟨key, command, safe⟩ := (fits_getting rfl).mp fits
  refine kept.move (by rw [command]; exact safe) nofun (by rw [here]; rfl) nofun ?_ nofun
  intro other found opened
  cases opened
  have complete := (kept.published path file given).resolve_left free
  refine ⟨complete, s.files.below given, fun name other => ?_⟩
  obtain rfl := s.files.single other given
  exact ⟨rfl, free⟩

/-- A GET answers with what it opened. -/
theorem Kept.reads (kept : s.Kept commands) {path : BlobPath} {file : Nat}
    (here : s.stages i = .getOpened path file) :
    (s.setStage i (.answered (.blob (s.files.contents file)))).Kept commands := by
  have fits := kept.fits i
  rw [here] at fits
  obtain ⟨key, command, safe⟩ := (fits_getting rfl).mp fits
  refine kept.move (by rw [command]; exact ⟨path, safe⟩) nofun (by rw [here]; rfl) nofun nofun ?_
  intro key' other data command' safe' answered
  rw [command] at command'
  cases command'
  rw [safe] at safe'
  cases safe'
  cases answered
  exact (kept.readers i path file here).complete

theorem Kept.step (kept : s.Kept commands) {a : ThreadAction ι} (undisturbed : s.Undisturbed commands a)
    (step : s.step commands a = some s') : s'.Kept commands := by
  cases a with
  | receive i =>
      simp only [Threads.step] at step
      split at step
      · rename_i idle
        cases step
        obtain ⟨fits, awake, window, writer, reader, answer⟩ := received_fits undisturbed
        refine kept.move fits awake ?_ writer (fun path file opened => absurd opened (reader path file))
          (fun _ _ data _ _ answered => absurd answered (answer data))
        rw [window, idle]
        rfl
      · cases step
  | next i count =>
      simp only [Threads.step, Option.map_eq_some_iff] at step
      obtain ⟨⟨files, stage⟩, moved, rfl⟩ := step
      have fits := kept.fits i
      simp only [Undisturbed] at undisturbed
      cases here : s.stages i with
      | waiting | answered _ | failed =>
          rw [here] at moved
          cases moved
      | putAccepted path data =>
          rw [here] at moved undisturbed
          cases moved
          exact kept.opens here undisturbed.1 undisturbed.2
      | putWriting path data file offset =>
          rw [here] at moved fits
          simp only [Stage.next] at moved
          split at moved
          · cases moved
            exact kept.writes here count
          · rename_i finished
            cases moved
            refine kept.move ((fits_putting rfl).mpr ((fits_putting rfl).mp fits)) nofun ?_ nofun nofun nofun
            have whole : data.take offset = data := List.take_of_length_le (by omega)
            rw [here, Stage.window, Stage.window, whole]
      | putClosed path data =>
          rw [here] at moved fits undisturbed
          obtain ⟨key, command, safe, named⟩ := (fits_putting rfl).mp fits
          obtain ⟨file, tmp, _⟩ := kept.windows i path data (by rw [here]; rfl)
          obtain ⟨files', renamed, contents, next, names⟩ := FileTable.rename_some path tmp
          simp only [Stage.next, if_neg named, renamed] at moved
          cases moved
          exact kept.rename here undisturbed tmp contents next names
      | putRenamed =>
          rw [here] at moved fits
          cases moved
          cases command : commands i with
          | put key data =>
              refine kept.move (by rw [command]; exact rfl) nofun (by rw [here]; rfl) nofun nofun nofun
          | get key =>
              rw [command] at fits
              cases fits
      | getAccepted path =>
          rw [here] at moved fits
          obtain ⟨key, command, safe⟩ := (fits_getting rfl).mp fits
          simp only [Stage.next] at moved
          split at moved
          · cases moved
            exact kept.move (by rw [command]; exact safe) nofun (by rw [here]; rfl) nofun nofun nofun
          · cases moved
            exact kept.move (by rw [command]; trivial) nofun (by rw [here]; rfl) nofun nofun nofun
      | getFound path =>
          rw [here] at moved fits undisturbed
          obtain ⟨key, command, safe⟩ := (fits_getting rfl).mp fits
          simp only [Stage.next] at moved
          split at moved
          · rename_i file given
            cases moved
            exact kept.finds here undisturbed given
          · cases moved
            exact kept.move (by rw [command]; trivial) nofun (by rw [here]; rfl) nofun nofun nofun
      | getOpened path file =>
          rw [here] at moved
          cases moved
          exact kept.reads here

/-! ## Main result -/

/-- One step that no other thread's use of a temporary name disturbs. -/
def UndisturbedStep (commands : ι → BlobCommand) (a b : Threads ι) : Prop :=
  ∃ action, a.Undisturbed commands action ∧ a.step commands action = some b

theorem kept_preserved : Preserves (UndisturbedStep commands) (Kept commands) := by
  rintro a b kept ⟨action, undisturbed, step⟩
  exact kept.step undisturbed step

theorem step_next {count : Nat} {after : FileTable BlobPath UInt8 × Stage}
    (moved : (s.stages i).next count s.files = some after) :
    s.step commands (.next i count) = some (setStage i after.2 { s with files := after.1 }) := by
  rw [step, moved, Option.map_some]

/-- A PUT that was received and has no reply yet is not stuck. -/
theorem Kept.progress (kept : s.Kept commands) {key : String} {data : Bytes}
    (command : commands i = .put key data) : s.stages i = .waiting ∨ s.stages i = .answered .ok ∨
      ∀ count, 0 < count → ∃ s', s.step commands (.next i count) = some s' ∧
        (s'.stages i).left < (s.stages i).left := by
  have fits := kept.fits i
  rw [command] at fits
  cases here : s.stages i with
  | waiting => exact .inl rfl
  | answered reply =>
      rw [here] at fits
      obtain rfl : reply = .ok := fits
      exact .inr (.inl rfl)
  | failed | getAccepted _ | getFound _ | getOpened _ _ =>
      rw [here] at fits
      cases fits
  | putAccepted path data =>
      refine .inr (.inr fun count _ => ⟨_, step_next (by rw [here]; rfl), ?_⟩)
      rw [setStage_self]
      simp only [Stage.left]
      omega
  | putWriting path data file offset =>
      refine .inr (.inr fun count some_bytes => ?_)
      by_cases more : offset < data.length
      · refine ⟨_, step_next (by rw [here, Stage.next, if_pos more]), ?_⟩
        rw [setStage_self]
        simp only [Stage.left, List.length_take, List.length_drop]
        omega
      · refine ⟨_, step_next (by rw [here, Stage.next, if_neg more]), ?_⟩
        rw [setStage_self]
        simp only [Stage.left]
        omega
  | putClosed path data =>
      rw [here] at fits
      obtain ⟨_, _, _, named⟩ := (fits_putting rfl).mp fits
      obtain ⟨file, tmp, _⟩ := kept.windows i path data (by rw [here]; rfl)
      obtain ⟨files, renamed, _⟩ := FileTable.rename_some path tmp
      refine .inr (.inr fun count _ =>
        ⟨_, step_next (by rw [here, Stage.next, if_neg named, renamed]), ?_⟩)
      rw [setStage_self]
      exact Nat.lt_succ_self 1
  | putRenamed =>
      refine .inr (.inr fun count _ => ⟨_, step_next (by rw [here]; rfl), ?_⟩)
      rw [setStage_self]
      exact Nat.zero_lt_one

theorem Kept.intact (kept : s.Kept commands) : s.Intact commands where
  gets i key data command answered := by
    have fits := kept.fits i
    rw [command, answered] at fits
    obtain ⟨path, safe⟩ := fits
    obtain ⟨j, key', put, safe', later⟩ := kept.answers i key path data command safe answered
    rw [safePath_inj safe safe']
    exact ⟨j, put, later⟩
  puts i key data command := kept.progress command

/-- **No GET sees a half-written blob.** In every interleaving of undisturbed steps, each GET
    answered OK got the data of one received PUT of its key, and no PUT goes unanswered. -/
theorem blobs_intact (run : Relation.ReflTransGen (UndisturbedStep commands) start s) :
    s.Intact commands :=
  (kept_preserved.run kept_start run).intact

/-- What the directory shows under a name. -/
def content (s : Threads ι) (name : BlobPath) : Option Bytes :=
  (s.files.names name).map s.files.contents

end Moves

/-! ## Runs that are checked step by step -/

section Checked

variable {ι : Type} [Fintype ι] (commands : ι → BlobCommand) (s : Threads ι)

instance (tmp : BlobPath) : Decidable (s.Uses tmp) :=
  decidable_of_iff (∃ j, (s.stages j).window.map (fun held => tmpPath held.1) = some tmp) <| by
    simp only [Uses, Option.map_eq_some_iff, Prod.exists]

theorem reading_iff {stage : Stage} {path : BlobPath} :
    stage.reading = some path ↔ ∃ file, stage = .getOpened path file := by
  cases stage <;> simp [Stage.reading]

instance undisturbedDecidable : (action : ThreadAction ι) → Decidable (s.Undisturbed commands action)
  | .receive i =>
      match same : commands i with
      | .put key data =>
          decidable_of_iff (∃ path ∈ safePath key, path.2 ≠ ".") <| by
            simp only [Undisturbed, same, Option.mem_def, BlobCommand.put.injEq, and_imp]
            exact ⟨fun known _ _ here _ => here ▸ known, fun known => known key data rfl rfl⟩
      | .get key => isTrue <| by
          intro key' data put
          cases same.symm.trans put
  | .next i count =>
      match here : s.stages i with
      | .putAccepted path data =>
          decidable_of_iff (¬ s.Uses (tmpPath path) ∧ ∀ j, (s.stages j).reading ≠ some (tmpPath path)) <| by
            simp only [Undisturbed, here, ne_eq, reading_iff, not_exists]
      | .putClosed path data => decidable_of_iff (¬ s.Uses path) <| by simp only [Undisturbed, here]
      | .getFound path => decidable_of_iff (¬ s.Uses path) <| by simp only [Undisturbed, here]
      | .waiting | .putWriting .. | .putRenamed | .getAccepted _ | .getOpened .. | .answered _ | .failed =>
          isTrue <| by simp only [Undisturbed, here]

/-- Run the actions one after the other, as long as each is undisturbed. -/
def undisturbedSteps [DecidableEq ι] : List (ThreadAction ι) → Threads ι → Option (Threads ι)
  | [], s => some s
  | action :: rest, s =>
      if s.Undisturbed commands action then (s.step commands action).bind (undisturbedSteps rest) else none

theorem undisturbedSteps_run [DecidableEq ι] {commands : ι → BlobCommand} {actions : List (ThreadAction ι)}
    {s s' : Threads ι} (h : undisturbedSteps commands actions s = some s') :
    Relation.ReflTransGen (UndisturbedStep commands) s s' := by
  induction actions generalizing s with
  | nil =>
      cases h
      exact .refl
  | cons action rest ih =>
      rw [undisturbedSteps] at h
      split at h
      · rename_i undisturbed
        obtain ⟨next, step, later⟩ := Option.bind_eq_some_iff.mp h
        exact .head ⟨action, undisturbed, step⟩ (ih later)
      · cases h

end Checked

/-! ## Two PUTs and a GET of one key -/

/-- Run the actions one after the other. -/
def steps [DecidableEq ι] (commands : ι → BlobCommand) : List (ThreadAction ι) → Threads ι → Option (Threads ι)
  | [], s => some s
  | action :: rest, s => (s.step commands action).bind (steps commands rest)

theorem steps_run [DecidableEq ι] {commands : ι → BlobCommand} {actions : List (ThreadAction ι)}
    {s s' : Threads ι} (h : steps commands actions s = some s') :
    Relation.ReflTransGen (fun a b => ∃ action, a.step commands action = some b) s s' := by
  induction actions generalizing s with
  | nil =>
      cases h
      exact .refl
  | cons action rest ih =>
      obtain ⟨next, step, later⟩ := Option.bind_eq_some_iff.mp h
      exact .head ⟨action, step⟩ (ih later)

/-- Two PUTs of one key and a GET of it. -/
def twoPuts : Fin 3 → BlobCommand
  | 0 => .put "n/a" [1]
  | 1 => .put "n/a" [2]
  | 2 => .get "n/a"

/-- The second PUT truncates the file that the first one is about to publish. -/
def overlap : List (ThreadAction (Fin 3)) :=
  [.receive 0, .next 0 1, .next 0 1, .next 0 1, .receive 1, .next 1 1, .next 0 1,
    .receive 2, .next 2 1, .next 2 1, .next 2 1]

/-- The second PUT publishes its blob while the GET has that of the first one open. -/
def renamedUnderGet : List (ThreadAction (Fin 3)) :=
  [.receive 0, .next 0 1, .next 0 1, .next 0 1, .next 0 1, .next 0 1,
    .receive 1, .next 1 1, .receive 2, .next 2 1, .next 1 1, .next 2 1,
    .next 1 1, .next 1 1, .next 2 1, .next 1 1]

/-- The GET is answered with the data of the first PUT, and the directory shows that of the second. -/
theorem blobs_intact_renamedUnderGet : ∃ s : Threads (Fin 3),
    undisturbedSteps twoPuts renamedUnderGet start = some s ∧ s.stages 1 = .answered .ok ∧
      s.stages 2 = .answered (.blob [1]) ∧ s.content ("n", "a") = some [2] ∧ s.Intact twoPuts := by
  obtain ⟨s, run, put, got, shown⟩ : ∃ s, undisturbedSteps twoPuts renamedUnderGet start = some s ∧
      s.stages 1 = .answered .ok ∧ s.stages 2 = .answered (.blob [1]) ∧ s.content ("n", "a") = some [2] :=
    ⟨_, rfl, rfl, rfl, rfl⟩
  exact ⟨s, run, put, got, shown, blobs_intact (undisturbedSteps_run run)⟩

/-- A GET of a key with two overlapping PUTs is answered OK with the data of neither. -/
theorem half_written_blob_seen :
    ¬ ∀ (ι : Type) (_ : DecidableEq ι) (commands : ι → BlobCommand) (s : Threads ι),
      Relation.ReflTransGen (fun a b => ∃ action, a.step commands action = some b) start s →
        s.Intact commands := by
  intro claim
  obtain ⟨s, run, seen⟩ : ∃ s, steps twoPuts overlap start = some s ∧
      s.stages 2 = .answered (.blob []) := ⟨_, rfl, rfl⟩
  obtain ⟨j, put, _⟩ := (claim (Fin 3) _ twoPuts s (steps_run run)).gets 2 "n/a" [] rfl seen
  match j with
  | 0 => cases put
  | 1 => cases put
  | 2 => cases put

end Threads

end SecureTransfer.ApproachB
