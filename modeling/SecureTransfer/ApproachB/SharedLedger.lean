import SecureTransfer.ApproachB.Ledger

/-! # Receivers that share a ledger

`_record_completed` step by step, as several receivers with one state directory run it:
load the set, open the file, which truncates it, and write the JSON text in pieces, each
writer at its own offset. A receiver may be killed between any two steps.
-/

namespace SecureTransfer.ApproachB

open Library

/-- Where one call of `_record_completed` stands. -/
inductive RecordCall where
  | starting
  | loaded (seen : List Json)
  | writing (offset : Nat) (rest : Bytes)
  | returned
  | ended

/-- One `_load_ledger`: its result, and the ids whose recording had returned before it. -/
structure LedgerLoad where
  result : Except PyError (List Json)
  due : List String

/-- The ledger file and the calls on it. `recorded` and `loads` are history variables: the
    ids whose call returned, and every load so far. -/
structure SharedLedger (ι : Type) where
  ledger : Option Bytes
  calls : ι → RecordCall
  recorded : List String
  loads : List LedgerLoad

inductive LedgerAction (ι : Type) where
  /-- The check of `_fetch_verified_manifest`. -/
  | check
  | load (i : ι)
  | truncate (i : ι)
  | write (i : ι) (count : Nat)
  | finish (i : ι)
  | kill (i : ι)

namespace SharedLedger

variable {ι : Type}

/-- No call has begun. -/
def start (ledger : Option Bytes) : SharedLedger ι where
  ledger := ledger
  calls _ := .starting
  recorded := []
  loads := []

def observe (s : SharedLedger ι) : SharedLedger ι :=
  { s with loads := s.loads ++ [⟨loadLedger s.ledger, s.recorded⟩] }

/-- Every load so far returned every id that was due. -/
def Remembers (s : SharedLedger ι) : Prop :=
  ∀ load ∈ s.loads, ∀ id ∈ load.due, ∃ seen, load.result = .ok seen ∧ Json.contains (.text id) seen = true

/-- The call `i` is between opening the file and closing it. -/
def Writing (s : SharedLedger ι) (i : ι) : Prop := ∃ offset rest, s.calls i = .writing offset rest

/-- The step comes between no other call's steps: a load meets no open file, unless nothing
    is recorded; a call opens the file when no other has it open and what it loaded is still
    all that is recorded; and no call is killed with the file open, unless nothing is recorded. -/
def Undisturbed (s : SharedLedger ι) : LedgerAction ι → Prop
  | .check | .load _ => s.recorded = [] ∨ ∀ j, ¬ s.Writing j
  | .truncate i => (∀ j, ¬ s.Writing j) ∧ ∀ seen, s.calls i = .loaded seen →
      (∀ id ∈ s.recorded, Json.contains (.text id) seen = true) ∧
        (s.recorded = [] ∨ ∃ items, Json.sorted seen = .ok items)
  | .write _ _ | .finish _ => True
  | .kill i => s.recorded = [] ∨ ¬ s.Writing i

section Steps

variable [DecidableEq ι] (transfer : ι → String)

def setCall (i : ι) (call : RecordCall) (s : SharedLedger ι) : SharedLedger ι :=
  { s with calls := Function.update s.calls i call }

/-- One step of the call for `transfer i`; `none` where the call does not stand there. -/
def step (s : SharedLedger ι) : LedgerAction ι → Option (SharedLedger ι)
  | .check => some s.observe
  | .load i =>
      match s.calls i, loadLedger s.ledger with
      | .starting, .ok seen =>
          some (s.observe.setCall i (.loaded (Json.insert seen (.str (transfer i)))))
      | .starting, .error _ => some (s.observe.setCall i .ended)
      | _, _ => none
  | .truncate i =>
      match s.calls i with
      | .loaded seen =>
          -- the file is open before `sorted` can raise
          match Json.sorted seen with
          | .ok items =>
              some (setCall i (.writing 0 (Json.dumpFile (.arr items))) { s with ledger := some [] })
          | .error _ => some (setCall i .ended { s with ledger := some [] })
      | _ => none
  | .write i count =>
      match s.calls i with
      | .writing offset rest =>
          let piece := rest.take count
          some (setCall i (.writing (offset + piece.length) (rest.drop count))
            { s with ledger := s.ledger.map (writeAt 0 offset piece) })
      | _ => none
  | .finish i =>
      match s.calls i with
      | .writing _ [] => some (setCall i .returned { s with recorded := transfer i :: s.recorded })
      | _ => none
  | .kill i => some (s.setCall i .ended)

end Steps

/-! ## What undisturbed steps keep -/

/-- The ledger lists what is recorded, or one writer is on its way to a text that does. -/
structure Kept (transfer : ι → String) (s : SharedLedger ι) : Prop where
  remembers : s.Remembers
  loaded : ∀ i seen, s.calls i = .loaded seen → ∃ before, seen = Json.insert before (.str (transfer i))
  single : ∀ i j, s.Writing i → s.Writing j → i = j
  closed : (∀ i, ¬ s.Writing i) → ∀ id ∈ s.recorded, Listed s.ledger id
  opened : ∀ i offset rest, s.calls i = .writing offset rest →
    ∃ written, s.ledger = some written ∧ offset = written.length ∧
      ∀ id ∈ transfer i :: s.recorded, Listed (some (written ++ rest)) id

variable {transfer : ι → String} {s s' : SharedLedger ι} {i j : ι} {call : RecordCall}

theorem kept_start (ledger : Option Bytes) : (start ledger : SharedLedger ι).Kept transfer where
  remembers _ member := nomatch member
  loaded _ _ at_load := nomatch at_load
  single _ _ writing := by
    obtain ⟨_, _, here⟩ := writing
    cases here
  closed _ _ member := nomatch member
  opened _ _ _ here := nomatch here

theorem Kept.observe (kept : s.Kept transfer) (quiet : s.recorded = [] ∨ ∀ j, ¬ s.Writing j) :
    s.observe.Kept transfer where
  remembers load member id due := by
    rcases List.mem_append.mp member with old | new
    · exact kept.remembers load old id due
    · cases List.mem_singleton.mp new
      rcases quiet with nothing | quiet
      · rw [nothing] at due
        cases due
      · exact kept.closed quiet id due
  loaded := kept.loaded
  single := kept.single
  closed := kept.closed
  opened := kept.opened

/-- The file may be lost while nothing is recorded and no call has it open. -/
theorem Kept.empty (kept : s.Kept transfer) (nothing : s.recorded = []) (quiet : ∀ j, ¬ s.Writing j) :
    SharedLedger.Kept transfer { s with ledger := some [] } where
  remembers := kept.remembers
  loaded := kept.loaded
  single := kept.single
  closed _ id member := by
    rw [nothing] at member
    cases member
  opened j offset rest writes := absurd ⟨_, _, writes⟩ (quiet j)

section Calls

variable [DecidableEq ι]

@[simp] theorem setCall_self : (s.setCall i call).calls i = call := Function.update_self ..

@[simp] theorem setCall_other (other : j ≠ i) : (s.setCall i call).calls j = s.calls j :=
  Function.update_of_ne other ..

theorem setCall_cases {stands : RecordCall} (here : (s.setCall i call).calls j = stands) :
    (j = i ∧ call = stands) ∨ (j ≠ i ∧ s.calls j = stands) := update_cases here

theorem writing_setCall (other : j ≠ i) : (s.setCall i call).Writing j ↔ s.Writing j := by
  rw [Writing, Writing, setCall_other other]

/-- A call moves on without the file. -/
theorem Kept.setCall (kept : s.Kept transfer)
    (loaded : ∀ seen, call = .loaded seen → ∃ before, seen = Json.insert before (.str (transfer i)))
    (aside : ∀ offset rest, call ≠ .writing offset rest) (safe : s.recorded = [] ∨ ¬ s.Writing i) :
    (s.setCall i call).Kept transfer := by
  have idle : ∀ j, (s.setCall i call).Writing j → j ≠ i ∧ s.Writing j := by
    rintro j ⟨offset, rest, opens⟩
    rcases setCall_cases opens with ⟨_, here⟩ | ⟨other, before⟩
    · exact absurd here (aside offset rest)
    · exact ⟨other, offset, rest, before⟩
  constructor
  case remembers => exact kept.remembers
  case loaded =>
    intro j seen at_load
    rcases setCall_cases at_load with ⟨rfl, here⟩ | ⟨_, before⟩
    · exact loaded seen here
    · exact kept.loaded j seen before
  case single =>
    intro j k first second
    exact kept.single j k (idle j first).2 (idle k second).2
  case closed =>
    intro quiet id member
    rcases safe with nothing | unopened
    · rw [SharedLedger.setCall, nothing] at member
      cases member
    · refine kept.closed (fun j writes => ?_) id member
      by_cases here : j = i
      · exact unopened (here ▸ writes)
      · exact quiet j ((writing_setCall here).mpr writes)
  case opened =>
    intro j offset rest writes
    have here : j ≠ i := (idle j ⟨offset, rest, writes⟩).1
    rw [setCall_other here] at writes
    exact kept.opened j offset rest writes

/-- The one call with the file open has written `written` of a text that lists what is
    recorded and its own id. -/
theorem kept_writing {ledger : Option Bytes} (written : Bytes) {rest : Bytes} (remembers : s.Remembers)
    (loaded : ∀ j seen, s.calls j = .loaded seen → ∃ before, seen = Json.insert before (.str (transfer j)))
    (alone : ∀ j, s.Writing j → j = i) (file : ledger = some written)
    (lists : ∀ id ∈ transfer i :: s.recorded, Listed (some (written ++ rest)) id) :
    (SharedLedger.setCall i (.writing written.length rest) { s with ledger := ledger }).Kept transfer := by
  have only : ∀ j, (SharedLedger.setCall i (.writing written.length rest) { s with ledger }).Writing j →
      j = i := by
    intro j writes
    by_contra other
    exact other (alone j ((writing_setCall other).mp writes))
  constructor
  case remembers => exact remembers
  case loaded =>
    intro j seen at_load
    rcases setCall_cases at_load with ⟨_, ⟨⟩⟩ | ⟨_, before⟩
    exact loaded j seen before
  case single =>
    intro j k first second
    rw [only j first, only k second]
  case closed =>
    intro quiet
    exact absurd ⟨_, _, setCall_self⟩ (quiet i)
  case opened =>
    intro j offset rest' writes
    have here := only j ⟨_, _, writes⟩
    subst here
    rw [setCall_self] at writes
    cases writes
    exact ⟨written, file, rfl, lists⟩

theorem Kept.load (kept : s.Kept transfer) (undisturbed : s.recorded = [] ∨ ∀ j, ¬ s.Writing j)
    (step : s.step transfer (.load i) = some s') : s'.Kept transfer := by
  simp only [SharedLedger.step] at step
  split at step
  · rename_i seen at_start _
    cases step
    refine (kept.observe undisturbed).setCall (fun _ same => ?_) nofun (.inr ?_)
    · cases same
      exact ⟨seen, rfl⟩
    · rintro ⟨_, _, writes⟩
      cases at_start.symm.trans writes
  · rename_i at_start _
    cases step
    refine (kept.observe undisturbed).setCall nofun nofun (.inr ?_)
    rintro ⟨_, _, writes⟩
    cases at_start.symm.trans writes
  · cases step

theorem Kept.truncate (kept : s.Kept transfer) (undisturbed : s.Undisturbed (.truncate i))
    (step : s.step transfer (.truncate i) = some s') : s'.Kept transfer := by
  obtain ⟨quiet, current⟩ := undisturbed
  simp only [SharedLedger.step] at step
  split at step
  · rename_i seen at_load
    obtain ⟨holds, sortable⟩ := current seen at_load
    obtain ⟨before, rfl⟩ := kept.loaded i seen at_load
    split at step
    · rename_i items sorts
      cases step
      refine kept_writing [] kept.remembers kept.loaded
        (fun j writes => absurd writes (quiet j)) rfl fun id member => ?_
      apply (listed_written sorts id).mpr
      rcases List.mem_cons.mp member with rfl | old
      · exact (Json.contains_insert _ _ _).mpr (.inr rfl)
      · exact holds id old
    · rename_i raised
      cases step
      -- the file is lost, so nothing may be recorded
      have nothing : s.recorded = [] := by
        rcases sortable with nothing | ⟨items, sorts⟩
        · exact nothing
        · cases raised.symm.trans sorts
      exact (kept.empty nothing quiet).setCall nofun nofun (.inl nothing)
  · cases step

theorem Kept.write (kept : s.Kept transfer) {count : Nat}
    (step : s.step transfer (.write i count) = some s') : s'.Kept transfer := by
  simp only [SharedLedger.step] at step
  split at step
  · rename_i offset rest writes
    cases step
    obtain ⟨written, file, rfl, lists⟩ := kept.opened i offset rest writes
    have grown : (written ++ rest.take count).length = written.length + (rest.take count).length :=
      List.length_append
    rw [file, Option.map_some, writeAt_end, ← grown]
    refine kept_writing _ kept.remembers kept.loaded
      (fun j other => kept.single j i other ⟨_, _, writes⟩) rfl ?_
    rwa [List.append_assoc, List.take_append_drop]
  · cases step

/-- The one call with the file open closes it, and its id is recorded. -/
theorem Kept.finish (kept : s.Kept transfer) (step : s.step transfer (.finish i) = some s') :
    s'.Kept transfer := by
  simp only [SharedLedger.step] at step
  split at step
  · rename_i offset writes
    cases step
    obtain ⟨written, file, rfl, lists⟩ := kept.opened i _ [] writes
    rw [List.append_nil, ← file] at lists
    have quiet : ∀ j, ¬ (SharedLedger.setCall i .returned
        { s with recorded := transfer i :: s.recorded }).Writing j := by
      rintro j ⟨offset, rest, opens⟩
      rcases setCall_cases opens with ⟨_, ⟨⟩⟩ | ⟨other, before⟩
      exact other (kept.single j i ⟨_, _, before⟩ ⟨_, _, writes⟩)
    constructor
    case remembers => exact kept.remembers
    case loaded =>
      intro j seen at_load
      rcases setCall_cases at_load with ⟨_, ⟨⟩⟩ | ⟨_, before⟩
      exact kept.loaded j seen before
    case single =>
      intro j k first _
      exact absurd first (quiet j)
    case closed =>
      intro _
      exact lists
    case opened =>
      intro j offset rest opens
      exact absurd ⟨_, _, opens⟩ (quiet j)
  · cases step

theorem Kept.step (kept : s.Kept transfer) {a : LedgerAction ι} (undisturbed : s.Undisturbed a)
    (step : s.step transfer a = some s') : s'.Kept transfer := by
  cases a with
  | check =>
      cases step
      exact kept.observe undisturbed
  | load i => exact kept.load undisturbed step
  | truncate i => exact kept.truncate undisturbed step
  | write i count => exact kept.write step
  | finish i => exact kept.finish step
  | kill i =>
      cases step
      exact kept.setCall nofun nofun undisturbed

/-! ## A call on its own -/

/-- One step that comes between no other call's steps. -/
def UndisturbedStep (transfer : ι → String) (a b : SharedLedger ι) : Prop :=
  ∃ action, a.Undisturbed action ∧ a.step transfer action = some b

theorem kept_preserved : Preserves (UndisturbedStep transfer) (Kept transfer) := by
  rintro a b kept ⟨action, undisturbed, step⟩
  exact kept.step undisturbed step

/-- `_record_completed` without any step between its own is the sequential function. -/
theorem recordCompleted_steps {β : Type} {w w' : World β} (kept : s.Kept transfer)
    (quiet : ∀ j, ¬ s.Writing j) (at_start : s.calls i = .starting) (file : w.ledger = s.ledger)
    (run : recordCompleted (transfer i) w = (.ok (), w')) :
    ∃ s', Relation.ReflTransGen (UndisturbedStep transfer) s s' ∧ s'.ledger = w'.ledger ∧
      s'.recorded = transfer i :: s.recorded ∧ (∀ j, ¬ s'.Writing j) ∧
      ∀ j, j ≠ i → s'.calls j = s.calls j := by
  obtain ⟨ledger, rfl, written, _⟩ := recordCompleted_cases run
  obtain ⟨seen, items, loads, sorts, rfl⟩ := written rfl
  rw [file] at loads
  let text := Json.dumpFile (.arr items)
  let s₁ := s.observe.setCall i (.loaded (Json.insert seen (.str (transfer i))))
  let s₂ := setCall i (.writing 0 text) { s₁ with ledger := some [] }
  let s₃ := setCall i (.writing (0 + (text.take text.length).length) [])
    { s₂ with ledger := s₂.ledger.map (writeAt 0 0 (text.take text.length)) }
  let s₄ := setCall i .returned { s₃ with recorded := transfer i :: s.recorded }
  have quiet₁ : ∀ j, ¬ s₁.Writing j := by
    intro j
    by_cases here : j = i
    · rintro ⟨_, _, writes⟩
      rw [here, setCall_self] at writes
      cases writes
    · rw [writing_setCall here]
      exact quiet j
  have load : UndisturbedStep transfer s s₁ := by
    refine ⟨.load i, .inr quiet, ?_⟩
    simp only [SharedLedger.step, at_start, loads]
    rfl
  have truncate : UndisturbedStep transfer s₁ s₂ := by
    refine ⟨.truncate i, ⟨quiet₁, fun loaded at_load => ?_⟩, ?_⟩
    · rw [setCall_self] at at_load
      cases at_load
      refine ⟨fun id member => (Json.contains_insert _ _ _).mpr (.inl ?_), .inr ⟨items, sorts⟩⟩
      obtain ⟨seen', loads', found⟩ := kept.closed quiet id member
      rw [loads] at loads'
      cases loads'
      exact found
    · simp only [SharedLedger.step, s₁, setCall_self, sorts]
      rfl
  have write : UndisturbedStep transfer s₂ s₃ := by
    refine ⟨.write i text.length, trivial, ?_⟩
    simp only [SharedLedger.step, s₂, setCall_self, List.drop_length]
    rfl
  have finish : UndisturbedStep transfer s₃ s₄ := by
    refine ⟨.finish i, trivial, ?_⟩
    simp only [SharedLedger.step, s₃, setCall_self]
    rfl
  refine ⟨s₄, .tail (.tail (.tail (.single load) truncate) write) finish, ?_, rfl, ?_, ?_⟩
  · have start := writeAt_end 0 text ([] : Bytes)
    rw [List.length_nil, List.nil_append] at start
    show some (writeAt 0 0 (text.take text.length) []) = some text
    rw [List.take_length, start]
  · intro j
    by_cases here : j = i
    · rintro ⟨_, _, writes⟩
      rw [here, setCall_self] at writes
      cases writes
    · rw [writing_setCall here]
      rintro ⟨offset, rest, writes⟩
      rw [setCall_other here, setCall_other here] at writes
      exact quiet₁ j ⟨offset, rest, writes⟩
  · intro j other
    rw [setCall_other other, setCall_other other, setCall_other other, setCall_other other]
    rfl

/-! ## Main result -/

/-- **The ledger never forgets.** In every interleaving of undisturbed steps, killed calls
    included, each load returns every id whose call had returned before it. -/
theorem ledger_remembers {ledger : Option Bytes}
    (run : Relation.ReflTransGen (UndisturbedStep transfer) (start ledger) s) : s.Remembers :=
  (kept_preserved.run (kept_start ledger) run).remembers

end Calls

/-- The ids of two transfers. -/
def twoIds (second : Bool) : String := hex (List.replicate transferIdLen (if second then 1 else 0))

/-- The first of two receivers has recorded its transfer. -/
theorem first_recorded : ∃ s : SharedLedger Bool,
    Relation.ReflTransGen (UndisturbedStep twoIds) (start none) s ∧ s.recorded = [twoIds false] ∧
      (∀ j, ¬ s.Writing j) ∧ s.calls true = .starting ∧ Recorded s.ledger [twoIds false] := by
  let w : World Unit := { out := none, part := none, progress := none, ledger := none, broker := () }
  obtain ⟨ledger, recorded, lists⟩ := recordCompleted_run (w := w) (twoIds false) Recorded.missing
  have quiet : ∀ j : Bool, ¬ (start none : SharedLedger Bool).Writing j := by
    rintro j ⟨_, _, writes⟩
    cases writes
  obtain ⟨s, run, file, ids, still, others⟩ := recordCompleted_steps (s := start none) (i := false)
    (kept_start none) quiet rfl (show w.ledger = none from rfl) recorded
  refine ⟨s, run, ids, still, others true (by decide), ?_⟩
  rw [file]
  exact lists

/-- The second receiver records its transfer behind the first, and the next load returns both. -/
theorem ledger_remembers_recorded : ∃ s : SharedLedger Bool,
    (∃ load ∈ s.loads, load.due = [twoIds true, twoIds false]) ∧ s.Remembers := by
  obtain ⟨s, run, recorded, quiet, at_start, lists⟩ := first_recorded
  let w : World Unit := { out := none, part := none, progress := none, ledger := s.ledger, broker := () }
  obtain ⟨ledger, second, _⟩ := recordCompleted_run (w := w) (twoIds true) lists
  obtain ⟨s', run', _, ids, quiet', _⟩ := recordCompleted_steps (kept_preserved.run (kept_start none) run)
    quiet at_start (show w.ledger = s.ledger from rfl) second
  have check : UndisturbedStep twoIds s' s'.observe := ⟨.check, .inr quiet', rfl⟩
  refine ⟨s'.observe, ⟨_, List.mem_concat_self, ?_⟩, ledger_remembers (.tail (run.trans run') check)⟩
  rw [← recorded]
  exact ids

/-- A receiver that is killed after it opened the ledger makes it forget the transfer that
    another one had recorded. -/
theorem ledger_forgets_after_kill :
    ¬ ∀ (ι : Type) (_ : DecidableEq ι) (transfer : ι → String), Function.Injective transfer →
      ∀ (ledger : Option Bytes) (s : SharedLedger ι),
        Relation.ReflTransGen (fun a b => ∃ action, a.step transfer action = some b) (start ledger) s →
          s.Remembers := by
  intro claim
  obtain ⟨s, run, recorded, quiet, at_start, all, loads, _⟩ := first_recorded
  have any_run : Relation.ReflTransGen (fun a b => ∃ action, a.step twoIds action = some b) (start none) s := by
    apply Relation.ReflTransGen.mono _ _ _ run
    rintro a b ⟨action, _, step⟩
    exact ⟨action, step⟩
  let s₁ := s.observe.setCall true (.loaded (Json.insert (idList all) (.str (twoIds true))))
  have load : s.step twoIds (.load true) = some s₁ := by
    simp only [SharedLedger.step, at_start, loads]
    rfl
  obtain ⟨s₂, truncate, emptied, ids⟩ : ∃ s₂, s₁.step twoIds (.truncate true) = some s₂ ∧
      s₂.ledger = some [] ∧ s₂.recorded = s.recorded := by
    simp only [SharedLedger.step, s₁, setCall_self]
    split
    · exact ⟨_, rfl, rfl, rfl⟩
    · exact ⟨_, rfl, rfl, rfl⟩
  let s₃ := s₂.setCall true .ended
  have kill : s₂.step twoIds (.kill true) = some s₃ := rfl
  have check : s₃.step twoIds .check = some s₃.observe := rfl
  have distinct : Function.Injective twoIds := by
    intro a b same
    have raw := hex_injective same
    cases a <;> cases b <;> first | rfl | exact absurd raw (by decide)
  have due : twoIds false ∈ s₃.recorded := by
    rw [show s₃.recorded = s₂.recorded from rfl, ids, recorded]
    exact List.mem_cons_self
  obtain ⟨seen, result, found⟩ := claim Bool _ twoIds distinct none s₃.observe
    (.tail (.tail (.tail (.tail any_run ⟨_, load⟩) ⟨_, truncate⟩) ⟨_, kill⟩) ⟨_, check⟩)
    _ List.mem_concat_self (twoIds false) due
  have empty : loadLedger s₃.ledger = .ok [] := by
    rw [show s₃.ledger = s₂.ledger from rfl, emptied]
    rfl
  rw [empty] at result
  cases result
  cases found

end SharedLedger

end SecureTransfer.ApproachB
