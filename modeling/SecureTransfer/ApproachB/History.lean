import SecureTransfer.ApproachB.SendRuns
import Mathlib.Logic.Relation

/-! # Histories of send runs

A history is any sequence of `send` runs over the state files of one state directory,
each against a broker of its own and ended wherever that broker fails.
-/

namespace SecureTransfer.ApproachB

open Library

/-- The state files by path. The rest are history variables: the states that runs created,
    what they encrypted, and the messages they signed, each with the source the run read. -/
structure History where
  states : String → Option Bytes
  created : List Saved
  encrypted : List Encryption
  signed : List (Bytes × Bytes)

def History.start : History where
  states := fun _ => none
  created := []
  encrypted := []
  signed := []

/-- `_load_or_create_state` takes the persisted state. -/
def resumes (state : Option Bytes) (fileSize : Nat) : Bool :=
  match state with
  | none => false
  | some bytes =>
      match Json.loadFile bytes with
      | .ok (some state) =>
          match state.get "file_size" with
          | .ok size => size.any (Json.eqInt · fileSize)
          | .error _ => false
      | _ => false

def creates (state : Option Bytes) (args : SendArgs) : Option Saved :=
  match args.file with
  | none => none
  | some file => if resumes state file.length then none else some (args.fresh file.length)

/-- Where a run on the state file at `path` starts. -/
def History.world {β : Type} (h : History) (path : String) (broker : β) : SenderWorld β where
  broker := broker
  state := h.states path
  encrypted := []
  signed := []

/-- The history after that run ended in `w`. -/
def History.after {β : Type} (h : History) (path : String) (args : SendArgs) (w : SenderWorld β) :
    History where
  states := Function.update h.states path w.state
  created := h.created ++ (creates (h.states path) args).toList
  encrypted := h.encrypted ++ w.encrypted
  signed := h.signed ++ w.signed.map fun message => (message, args.file.getD [])

/-- The run draws an id that no transfer has. -/
def Fresh (h : History) (args : SendArgs) : Prop := ∀ saved ∈ h.created, saved.id ≠ args.freshId

/-- One run with fresh random values, against any broker. -/
def SendStep (P : Primitives) (h : History) (path : String) (args : SendArgs) (h' : History) : Prop :=
  Fresh h args ∧ ∃ (β : Type) (broker : Broker β) (b : β),
    h' = h.after path args (send P broker args (h.world path b)).2

/-- A run of `args` resumes `saved`, on a source of `file`. -/
structure Resumes (P : Primitives) (h : History) (path : String) (args : SendArgs) (saved : Saved)
    (file : Bytes) : Prop where
  source : args.file = some file
  created : saved ∈ h.created
  persisted : h.states path = some (saved.bytes P)
  size : saved.fileSize = file.length

theorem resumes_bytes (P : Primitives) (saved : Saved) (fileSize : Nat) :
    resumes (some (saved.bytes P)) fileSize = true ↔ saved.fileSize = fileSize := by
  have size : (saved.json P).get "file_size" = .ok (some (.int saved.fileSize)) := rfl
  simp [resumes, Saved.loadFile_bytes, size]

theorem creates_fresh {state : Option Bytes} {args : SendArgs} {saved : Saved}
    (h : creates state args = some saved) : ∃ fileSize, saved = args.fresh fileSize := by
  unfold creates at h
  cases source : args.file with
  | none => simp [source] at h
  | some file =>
      simp only [source] at h
      split at h
      · cases h
      · exact ⟨file.length, (Option.some.inj h).symm⟩

theorem creates_id {state : Option Bytes} {args : SendArgs} {saved : Saved}
    (h : saved ∈ (creates state args).toList) : saved.id = args.freshId := by
  obtain ⟨fileSize, rfl⟩ := creates_fresh (Option.mem_toList.mp h)
  rfl

/-- What `creates` says of a state that a run saved, or of none. -/
theorem creates_chosen {P : Primitives} {args : SendArgs} {file : Bytes} {state : Option Bytes}
    {saved : Option Saved} (source : args.file = some file) (persisted : state = saved.map (·.bytes P)) :
    (saved = some (chosen saved args file.length) ∧ (chosen saved args file.length).fileSize = file.length ∧
        creates state args = none) ∨
      chosen saved args file.length = args.fresh file.length ∧
        creates state args = some (args.fresh file.length) := by
  cases saved with
  | none =>
      refine .inr ⟨rfl, ?_⟩
      simp only [creates, source, persisted, Option.map_none, resumes, Bool.false_eq_true, if_false]
  | some s =>
      rw [Option.map_some] at persisted
      by_cases size : s.fileSize = file.length
      · have kept : chosen (some s) args file.length = s := if_pos size
        rw [kept]
        refine .inl ⟨rfl, size, ?_⟩
        simp only [creates, source, persisted, (resumes_bytes P s file.length).mpr size, if_true]
      · refine .inr ⟨if_neg size, ?_⟩
        have stale : resumes state file.length = false := by
          rw [persisted, ← Bool.not_eq_true, resumes_bytes]
          exact size
        simp only [creates, source, stale, Bool.false_eq_true, if_false]

/-! ## What every history keeps -/

/-- State files and signed messages are those of transfers, and no two states that were
    created have one id. -/
structure HistoryInv (P : Primitives) (h : History) : Prop where
  states : ∀ path bytes, h.states path = some bytes → ∃ saved ∈ h.created, bytes = saved.bytes P
  distinct : (h.created.map (·.id)).Nodup
  signed : ∀ entry ∈ h.signed, ∃ t : Transfer P, entry = (t.manifestBytes, t.file)

namespace HistoryInv

variable {P : Primitives} {h h' : History} {path : String} {args : SendArgs}

theorem start (P : Primitives) : HistoryInv P History.start where
  states := by simp [History.start]
  distinct := by simp [History.start]
  signed := by simp [History.start]

theorem persisted (inv : HistoryInv P h) (path : String) :
    ∃ saved : Option Saved, h.states path = saved.map (·.bytes P) ∧ ∀ s ∈ saved, s ∈ h.created := by
  cases stored : h.states path with
  | none => exact ⟨none, rfl, by simp⟩
  | some bytes =>
      obtain ⟨saved, member, rfl⟩ := inv.states path bytes stored
      refine ⟨some saved, rfl, ?_⟩
      intro s same
      cases same
      exact member

/-- The state a run works with: one it resumes, or its own. -/
theorem works {file : Bytes} {saved : Option Saved} (source : args.file = some file)
    (persisted : h.states path = saved.map (·.bytes P)) (known : ∀ s ∈ saved, s ∈ h.created) :
    Resumes P h path args (chosen saved args file.length) file ∧
        creates (h.states path) args = none ∨
      chosen saved args file.length = args.fresh file.length ∧
        creates (h.states path) args = some (args.fresh file.length) := by
  rcases creates_chosen source persisted with ⟨kept, size, old⟩ | new
  · refine .inl ⟨⟨source, known _ kept, ?_, size⟩, old⟩
    rw [persisted, kept, Option.map_some, ← kept]
  · exact .inr new

theorem works_created {file : Bytes} {saved : Option Saved} (source : args.file = some file)
    (persisted : h.states path = saved.map (·.bytes P)) (known : ∀ s ∈ saved, s ∈ h.created) :
    chosen saved args file.length ∈ h.created ++ (creates (h.states path) args).toList := by
  rcases works source persisted known with ⟨resumed, _⟩ | ⟨fresh, new⟩
  · exact List.mem_append_left _ resumed.created
  · rw [fresh, new]
    exact List.mem_append_right _ (List.mem_singleton_self _)

/-- What a run keeps whatever it encrypted and signed, given its state file and its
    signed messages. -/
theorem after {β : Type} {w : SenderWorld β} (inv : HistoryInv P h) (fresh : Fresh h args)
    (state : ∀ bytes, w.state = some bytes →
      ∃ saved ∈ h.created ++ (creates (h.states path) args).toList, bytes = saved.bytes P)
    (signed : ∀ message ∈ w.signed, ∃ t : Transfer P, message = t.manifestBytes ∧
      args.file = some t.file) :
    HistoryInv P (h.after path args w) where
  states other bytes stored := by
    simp only [History.after] at stored ⊢
    rcases update_cases stored with ⟨_, here⟩ | ⟨_, before⟩
    · exact state bytes here
    · obtain ⟨saved, member, belongs⟩ := inv.states other bytes before
      exact ⟨saved, List.mem_append_left _ member, belongs⟩
  distinct := by
    simp only [History.after, List.map_append]
    refine List.nodup_append.mpr ⟨inv.distinct, ?_, ?_⟩
    · cases creates (h.states path) args <;> simp
    · intro id old other new equal
      obtain ⟨saved, member, rfl⟩ := List.mem_map.mp old
      obtain ⟨saved', member', rfl⟩ := List.mem_map.mp new
      exact fresh saved member (equal.trans (creates_id member'))
  signed entry member := by
    rcases List.mem_append.mp member with old | new
    · exact inv.signed entry old
    · obtain ⟨message, inside, rfl⟩ := List.mem_map.mp new
      obtain ⟨t, rfl, source⟩ := signed message inside
      exact ⟨t, by rw [source]; rfl⟩

/-- Every run keeps the invariant. -/
theorem run {β : Type} {broker : Broker β} {b : β} (inv : HistoryInv P h) (fresh : Fresh h args) :
    HistoryInv P (h.after path args (send P broker args (h.world path b)).2) := by
  obtain ⟨saved, persisted, known⟩ := inv.persisted path
  cases run : send P broker args (h.world path b) with
  | mk r w =>
      obtain ⟨messages, signed, transfers⟩ := send_signs persisted run
      refine inv.after fresh ?_ fun message member => ?_
      · cases source : args.file with
        | none =>
            simp only [send, source] at run
            cases run
            intro bytes stored
            obtain ⟨saved, member, belongs⟩ := inv.states path bytes stored
            exact ⟨saved, List.mem_append_left _ member, belongs⟩
        | some file =>
            have member := works_created source persisted known
            simp only [send, source] at run
            rcases sendFile_cases persisted run with ⟨rfl, _⟩ | ⟨t, saves, _, _, _, reached, _, returns, sent, _⟩
            · intro bytes stored
              cases stored
              exact ⟨_, member, rfl⟩
            · intro bytes stored
              rw [sent.state, saves] at stored
              split at stored
              · cases stored
              · cases stored
                exact ⟨_, member, rfl⟩
      · rw [signed] at member
        obtain ⟨t, same, source, _⟩ := transfers message member
        exact ⟨t, same, source⟩

theorem step (inv : HistoryInv P h) (step : SendStep P h path args h') : HistoryInv P h' := by
  obtain ⟨fresh, β, broker, b, rfl⟩ := step
  exact inv.run fresh

end HistoryInv

/-- What the runs of a history signed are manifests that number their chunks. -/
theorem signed_numbered {P : Primitives} {h : History}
    (reached : Relation.ReflTransGen (fun a b => ∃ path args, SendStep P a path args b) History.start h)
    {entry : Bytes × Bytes} (member : entry ∈ h.signed) :
    ∃ t : Transfer P, entry = (t.manifestBytes, t.file) ∧ t.total < 2 ^ 64 := by
  have steps : Preserves (fun a b => ∃ path args, SendStep P a path args b) fun h => HistoryInv P h ∧
      ∀ entry ∈ h.signed, ∃ t : Transfer P, entry = (t.manifestBytes, t.file) ∧ t.total < 2 ^ 64 := by
    rintro a b ⟨inv, before⟩ ⟨path, args, step⟩
    refine ⟨inv.step step, fun entry member => ?_⟩
    obtain ⟨_, β, broker, start, rfl⟩ := step
    obtain ⟨saved, persisted, _⟩ := inv.persisted path
    rcases List.mem_append.mp member with old | new
    · exact before entry old
    · obtain ⟨message, inside, rfl⟩ := List.mem_map.mp new
      cases run : send P broker args (a.world path start) with
      | mk r w =>
          obtain ⟨messages, signed, transfers⟩ := send_signs persisted run
          rw [run, signed] at inside
          obtain ⟨t, rfl, source, numbered⟩ := transfers message inside
          exact ⟨t, by rw [source]; rfl, numbered⟩
  exact (steps.run ⟨HistoryInv.start P, nofun⟩ reached).2 entry member

end SecureTransfer.ApproachB
