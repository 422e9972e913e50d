import SecureTransfer.ApproachB.Recovery

/-! # Runs on one state directory

A run by its paths: `--out` is any path, and the ledger lies in the state directory. A
path names one file. As long as no `--out` is the ledger file itself, the ledger lists
every transfer that was promoted.
-/

namespace SecureTransfer.ApproachB

open Library

/-! ## Paths -/

abbrev Files : Type := String → Option Bytes

/-- `_ledger_path`: `os.path.join` with a relative name. -/
def ledgerPath (stateDir : String) : String :=
  if stateDir = "" ∨ stateDir.toList.getLast? = some '/' then stateDir ++ "seen_transfers.json"
  else stateDir ++ "/" ++ "seen_transfers.json"

structure Host (β : Type) where
  files : Files
  broker : β

section Paths

variable {β : Type} (stateDir out : String)

def Host.world (h : Host β) : World β where
  out := h.files out
  part := h.files (out ++ ".part")
  progress := h.files (out ++ ".part" ++ ".progress")
  ledger := h.files (ledgerPath stateDir)
  broker := h.broker

/-- The four files put back. What is run so leaves `--out` alone or writes no ledger. -/
def Host.put (w : World β) (h : Host β) : Host β where
  files := fun path =>
    if path = ledgerPath stateDir then w.ledger
    else if path = out ++ ".part" ++ ".progress" then w.progress
    else if path = out ++ ".part" then w.part
    else if path = out then w.out
    else h.files path
  broker := w.broker

def atPaths {α : Type} (m : Prog (World β) Raised α) : Prog (Host β) Raised α :=
  Prog.zoom (Host.world stateDir out) (Host.put stateDir out) m

/-- `atomic_promote`, then `os.remove(progress_path)`. -/
def promoteAt : Prog (Host β) Raised Unit := do
  Prog.update fun h => { h with
    files := Function.update (Function.update h.files out (h.files (out ++ ".part"))) (out ++ ".part") none }
  Prog.update fun h => { h with files := Function.update h.files (out ++ ".part" ++ ".progress") none }

/-- `receive` at its paths, for an `--out` that may be the ledger file. -/
def receiveAt (P : Primitives) (broker : Broker β) (args : Args) : Prog (Host β) Raised Int := do
  let verified ← atPaths stateDir out (download P broker args)
  promoteAt out
  atPaths stateDir out (recordCompleted verified.2.transferIdHex)
  let _ ← python (verified.1.item "filename")
  pure 0

end Paths

section Lemmas

variable {β : Type} {stateDir out : String}

theorem ledgerPath_last (stateDir : String) : (ledgerPath stateDir).toList.getLast? = some 'n' := by
  unfold ledgerPath
  split <;> simp [String.toList_append, List.getLast?_append]

theorem part_ne_ledger : out ++ ".part" ≠ ledgerPath stateDir := by
  intro same
  have last := ledgerPath_last stateDir
  rw [← same] at last
  simp [String.toList_append, List.getLast?_append] at last

theorem progress_ne_ledger : out ++ ".part" ++ ".progress" ≠ ledgerPath stateDir := by
  intro same
  have last := ledgerPath_last stateDir
  rw [← same] at last
  simp [String.toList_append, List.getLast?_append] at last

theorem put_ledger (w : World β) (h : Host β) :
    (Host.put stateDir out w h).files (ledgerPath stateDir) = w.ledger := if_pos rfl

/-- Two files of a run are one only if `--out` is the ledger file. -/
theorem suffix_ne {path suffix : String} (some_chars : suffix.toList ≠ []) : path ++ suffix ≠ path := by
  intro same
  have chars := congrArg String.toList same
  rw [String.toList_append] at chars
  exact some_chars (List.append_right_eq_self.mp chars)

theorem put_put (w w' : World β) (h : Host β) :
    Host.put stateDir out w' (Host.put stateDir out w h) = Host.put stateDir out w' h := by
  simp only [Host.put, Host.mk.injEq, and_true]
  funext path
  split
  · rfl
  · split
    · rfl
    · split
      · rfl
      · split
        · rfl
        · rfl

theorem part_ne_progress : out ++ ".part" ≠ out ++ ".part" ++ ".progress" := (suffix_ne (by decide)).symm

section Apart

variable (apart : out ≠ ledgerPath stateDir)

include apart

theorem world_put (w : World β) (h : Host β) :
    (Host.put stateDir out w h).world stateDir out = w := by
  have out_part : out ≠ out ++ ".part" := (suffix_ne (by decide)).symm
  have out_progress : out ≠ out ++ ".part" ++ ".progress" := by
    rw [String.append_assoc]
    exact (suffix_ne (by decide)).symm
  simp only [Host.world, Host.put, if_neg apart, if_neg part_ne_ledger, if_neg progress_ne_ledger,
    if_neg part_ne_progress, if_neg out_part, if_neg out_progress, if_true]

theorem promoteAt_run (h : Host β) :
    promoteAt out h = (.ok (), Host.put stateDir out
      { h.world stateDir out with out := h.files (out ++ ".part"), part := none, progress := none } h) := by
  rw [promoteAt, Prog.bind_ok (Prog.update_run _ _), Prog.update_run]
  refine Prod.ext rfl ?_
  simp only [Host.put, Host.world, Host.mk.injEq, and_true]
  funext path
  by_cases ledger : path = ledgerPath stateDir
  · subst ledger
    simp only [if_true, Function.update_of_ne progress_ne_ledger.symm, Function.update_of_ne part_ne_ledger.symm,
      Function.update_of_ne apart.symm]
  · simp only [if_neg ledger, Function.update_apply]

theorem completeAt_eq (transferIdHex : String) (manifest : Json) :
    (do promoteAt out
        atPaths stateDir out (recordCompleted transferIdHex)
        let _ ← python (manifest.item "filename")
        pure 0) = (atPaths stateDir out (complete transferIdHex manifest) : Prog (Host β) Raised Int) := by
  funext h
  let w : World β := { h.world stateDir out with
    out := h.files (out ++ ".part"), part := none, progress := none }
  rw [Prog.bind_ok (promoteAt_run apart h)]
  cases record : recordCompleted transferIdHex w with
  | mk r w' =>
      have here : recordCompleted transferIdHex ((Host.put stateDir out w h).world stateDir out) = (r, w') := by
        rw [world_put apart, record]
      have there : atPaths stateDir out (recordCompleted transferIdHex) (Host.put stateDir out w h) =
          (r, Host.put stateDir out w' h) := by
        rw [atPaths, Prog.zoom_run here, put_put]
      have completed : complete transferIdHex manifest (h.world stateDir out) =
          (do recordCompleted transferIdHex
              let _ ← python (manifest.item "filename")
              pure 0) w := rfl
      cases r with
      | error e =>
          rw [Prog.bind_error record] at completed
          rw [Prog.bind_error there, atPaths, Prog.zoom_run completed]
      | ok _ =>
          rw [Prog.bind_ok record] at completed
          rw [Prog.bind_ok there]
          cases name : manifest.item "filename" with
          | error e =>
              rw [name] at completed
              rw [atPaths, Prog.zoom_run completed]
              rfl
          | ok value =>
              rw [name] at completed
              rw [atPaths, Prog.zoom_run completed]
              rfl

/-- With a ledger of its own, a run at its paths is the run on its four files. -/
theorem receiveAt_eq (P : Primitives) (broker : Broker β) (args : Args) :
    receiveAt stateDir out P broker args = atPaths stateDir out (receive P broker args) := by
  have lens : atPaths stateDir out (receive P broker args) = atPaths stateDir out (download P broker args) >>=
      fun verified => atPaths stateDir out (complete verified.2.transferIdHex verified.1) :=
    Prog.zoom_bind (world_put apart) put_put _ _
  rw [lens, receiveAt]
  congr 1
  funext verified
  exact completeAt_eq apart verified.2.transferIdHex verified.1

end Apart

end Lemmas

/-! ## Histories of runs -/

/-- The files of a receiver and, as a history variable, the ids that were promoted. -/
structure Site where
  files : Files
  promoted : List String

section Histories

variable {P : Primitives} {β : Type} {broker : Broker β} {args : Args} {stateDir out : String} {state : β}

/-- The transfer that a run promotes. -/
def promotes (P : Primitives) (broker : Broker β) (args : Args) (stateDir out : String) (h : Host β) :
    Option String :=
  match (download P broker args (h.world stateDir out)).1 with
  | .ok (_, plan) => some plan.transferIdHex
  | .error _ => none

/-- One complete run. -/
def SiteStep (P : Primitives) (broker : Broker β) (args : Args) (stateDir out : String) (state : β)
    (s s' : Site) : Prop :=
  ∃ r h, receiveAt stateDir out P broker args { files := s.files, broker := state } = (r, h) ∧
    (∀ e, r ≠ .error (.python e)) ∧
    s' = {
      files := h.files
      promoted :=
        (promotes P broker args stateDir out { files := s.files, broker := state }).toList ++ s.promoted }

/-- The ledger lists whatever was promoted. -/
def LedgerInv (stateDir : String) (s : Site) : Prop :=
  ∀ id ∈ s.promoted, Listed (s.files (ledgerPath stateDir)) id

theorem LedgerInv.step {s s' : Site} (inv : LedgerInv stateDir s) (apart : out ≠ ledgerPath stateDir)
    (step : SiteStep P broker args stateDir out state s s') : LedgerInv stateDir s' := by
  obtain ⟨r, h, run, complete_run, rfl⟩ := step
  rw [receiveAt_eq apart] at run
  intro id member
  simp only [promotes] at member
  cases receives : receive P broker args (Host.world stateDir out { files := s.files, broker := state }) with
  | mk r' w =>
      rw [atPaths, Prog.zoom_run receives] at run
      cases run
      simp only [put_ledger]
      rcases receive_cases receives with ⟨e, failed, rfl⟩ | ⟨manifest, plan, w₁, passed, run⟩
      · rw [failed] at member
        rw [(download_keepsDelivered.run failed).2]
        exact inv id member
      · rw [passed, Option.toList_some, List.singleton_append] at member
        have kept := (download_keepsDelivered.run passed).2
        obtain ⟨⟨ledger, rfl, written⟩, crash⟩ := complete_cases run
        cases r with
        | error e =>
            obtain ⟨error, rfl⟩ := crash e rfl
            exact absurd rfl (complete_run error)
        | ok n =>
            obtain ⟨seen, items, loads, sorts, rfl⟩ := written n rfl
            apply (Listed.recorded loads sorts id).mpr
            rw [kept]
            exact (List.mem_cons.mp member).imp_right (inv id)

/-- A served run that starts anew completes, whatever file `--out` is. -/
theorem receiveAt_served (laws : P.Agreement) (opens : P.Opens) {t : Transfer P} {signature : Bytes}
    {up : β → Prop} (serves : Serves t signature broker up) (whole : t.Whole) {h : Host β}
    (answers : up h.broker)
    (accepted : Accepted t signature args (h.files (ledgerPath stateDir)))
    (nothing : h.files (out ++ ".part" ++ ".progress") = none) {ids : List String}
    (recorded : Recorded
      (if out = ledgerPath stateDir then some t.file else h.files (ledgerPath stateDir)) ids) :
    promotes P broker args stateDir out h = some t.hexId ∧
      ∃ h', receiveAt stateDir out P broker args h = (.ok 0, h') ∧
        Recorded (h'.files (ledgerPath stateDir)) (t.hexId :: ids) ∧
        ∀ path, path ≠ ledgerPath stateDir → path ≠ out → path ≠ out ++ ".part" →
          path ≠ out ++ ".part" ++ ".progress" → h'.files path = h.files path := by
  have loads : loadProgress (h.world stateDir out).progress t.hexId = .ok (indexList []) := by
    rw [show (h.world stateDir out).progress = none from nothing]
    rfl
  obtain ⟨r, _, progress, b, _, downloaded, _, _, done⟩ :=
    download_served laws opens serves whole (w := h.world stateDir out) answers accepted loads
  have source : t.filled [] [] = t.file := (filled_eq_iff whole).mpr intact_nil
  rw [checkpoint_nil, source] at downloaded done
  obtain rfl : r = .ok (t.loaded, t.plan) := done.resolve_right fun failed => failed.2 rfl
  refine ⟨by simp only [promotes, downloaded, Transfer.plan], ?_⟩
  let w : World β := { h.world stateDir out with part := some t.file, progress := progress, broker := b }
  let h₁ := Host.put stateDir out w h
  have first : atPaths stateDir out (download P broker args) h = (.ok (t.loaded, t.plan), h₁) := by
    rw [atPaths, Prog.zoom_run downloaded]
  have part : h₁.files (out ++ ".part") = some t.file := by
    simp only [h₁, Host.put, if_neg part_ne_ledger, if_neg part_ne_progress, if_true, w]
  let h₂ : Host β := { h₁ with
    files := Function.update (Function.update (Function.update h₁.files out (h₁.files (out ++ ".part")))
      (out ++ ".part") none) (out ++ ".part" ++ ".progress") none }
  have second : promoteAt out h₁ = (.ok (), h₂) := rfl
  have ledger : h₂.files (ledgerPath stateDir) =
      if out = ledgerPath stateDir then some t.file else h.files (ledgerPath stateDir) := by
    simp only [h₂, Function.update_of_ne progress_ne_ledger.symm, Function.update_of_ne part_ne_ledger.symm,
      Function.update_apply, part, eq_comm (a := ledgerPath stateDir)]
    split
    · rfl
    · exact put_ledger w h
  rw [← ledger] at recorded
  obtain ⟨written, records, next⟩ := recordCompleted_run t.hexId (w := h₂.world stateDir out) recorded
  let h₃ := Host.put stateDir out { h₂.world stateDir out with ledger := written } h₂
  have third : atPaths stateDir out (recordCompleted t.hexId) h₂ = (.ok (), h₃) := by
    rw [atPaths, Prog.zoom_run records]
  have named : t.loaded.item "filename" = .ok (.str t.basename) := t.loaded_item "filename" rfl
  refine ⟨h₃, ?_, ?_, fun path not_ledger not_out not_part not_progress => ?_⟩
  · apply (Prog.bind_ok first _).trans
    apply (Prog.bind_ok second _).trans
    apply (Prog.bind_ok third _).trans
    exact Prog.bind_ok (python_run_ok named _) _
  · rw [show h₃.files (ledgerPath stateDir) = written from put_ledger _ _]
    exact next
  · simp only [h₃, h₂, h₁, Host.put, if_neg not_ledger, if_neg not_progress, if_neg not_part, if_neg not_out,
      Function.update_of_ne not_progress, Function.update_of_ne not_part, Function.update_of_ne not_out]

theorem siteStep_served (laws : P.Agreement) (opens : P.Opens) {t : Transfer P} {signature : Bytes}
    {up : β → Prop} (serves : Serves t signature broker up) (whole : t.Whole) (answers : up state)
    (out : String)
    {s : Site} (accepted : Accepted t signature args (s.files (ledgerPath stateDir)))
    (nothing : s.files (out ++ ".part" ++ ".progress") = none) {ids : List String}
    (recorded : Recorded
      (if out = ledgerPath stateDir then some t.file else s.files (ledgerPath stateDir)) ids) :
    promotes P broker args stateDir out { files := s.files, broker := state } = some t.hexId ∧
      ∃ s', SiteStep P broker args stateDir out state s s' ∧ s'.promoted = t.hexId :: s.promoted ∧
        Recorded (s'.files (ledgerPath stateDir)) (t.hexId :: ids) ∧
        ∀ path, path ≠ ledgerPath stateDir → path ≠ out → path ≠ out ++ ".part" →
          path ≠ out ++ ".part" ++ ".progress" → s'.files path = s.files path := by
  obtain ⟨promoted, h, run, listed, frame⟩ := receiveAt_served laws opens serves whole
    (h := { files := s.files, broker := state }) answers accepted nothing recorded
  exact ⟨promoted, _, ⟨_, h, run, nofun, rfl⟩, by rw [promoted]; rfl, listed, frame⟩

/-- **At most once.** After any complete runs, with any `--out` but the ledger file, a run
    without `--allow-redeliver` promotes no transfer that was promoted before. -/
theorem at_most_once {start s : Site} (fresh : start.promoted = [])
    (runs : Relation.ReflTransGen (fun a b => ∃ (γ : Type) (broker : Broker γ) (args : Args) (out : String)
      (state : γ), SiteStep P broker args stateDir out state a b ∧ out ≠ ledgerPath stateDir) start s)
    (guarded : args.allowRedeliver = false) {id : String}
    (promoted : promotes P broker args stateDir out { files := s.files, broker := state } = some id) :
    id ∉ s.promoted := by
  intro before
  have step : Preserves (fun a b => ∃ (γ : Type) (broker : Broker γ) (args : Args) (out : String)
      (state : γ), SiteStep P broker args stateDir out state a b ∧ out ≠ ledgerPath stateDir)
      (LedgerInv stateDir) := by
    rintro a b inv ⟨γ, broker, args, out, state, step, apart⟩
    exact inv.step apart step
  have nothing : LedgerInv stateDir start := by
    intro id member
    rw [fresh] at member
    cases member
  obtain ⟨seen, loads, listed⟩ := step.run nothing runs id before
  unfold promotes at promoted
  split at promoted
  · rename_i manifest plan passed
    cases promoted
    obtain ⟨_, timely, _⟩ := download_ok (Prod.ext passed rfl)
    obtain ⟨seen', loads', unseen⟩ := (timely guarded).unseen
    have same : seen' = seen := Except.ok.inj (loads'.symm.trans loads)
    rw [same] at unseen
    exact unseen listed
  · cases promoted

end Histories

/-! ## Two sources of one byte -/

/-- After its delivery a transfer is not promoted again, whatever the broker replies. -/
theorem at_most_once_oneByte :
    ∃ (s : Site) (transferIdHex : String), transferIdHex ∈ s.promoted ∧
      ∀ (broker : Broker Unit) (args : Args) (out : String), args.allowRedeliver = false →
        promotes (transparent fun _ _ => true) broker args "state" out { files := s.files, broker := () } ≠
          some transferIdHex := by
  obtain ⟨t, store, file, _, whole, complete, accepted⟩ := oneByte_stored
  have apart : "out" ≠ ledgerPath "state" := by decide
  let start : Site := { files := fun _ => none, promoted := [] }
  have recorded : Recorded (if "out" = ledgerPath "state" then some t.file else start.files (ledgerPath "state"))
      [] := by
    rw [if_neg apart]
    exact Recorded.missing
  obtain ⟨_, s, step, promoted, _⟩ := siteStep_served (transparent_agreement _) (transparent_opens _)
    (complete.serves whole.numbered) whole rfl "out" accepted (show start.files _ = none from rfl) recorded
  have member : t.hexId ∈ s.promoted := by
    rw [promoted]
    exact List.mem_cons_self
  refine ⟨s, t.hexId, member, fun broker args out guarded again => ?_⟩
  exact at_most_once rfl (.single ⟨_, _, _, _, _, step, apart⟩) guarded again member

/-- A source that no JSON file is, received onto the ledger, makes the receiver forget
    what it promoted. -/
theorem promoted_again_after_ledger_lost :
    ¬ ∀ (stateDir : String) (start s : Site), start.promoted = [] →
      Relation.ReflTransGen (fun a b => ∃ (γ : Type) (broker : Broker γ) (args : Args) (out : String)
        (state : γ), SiteStep (transparent fun _ _ => true) broker args stateDir out state a b) start s →
      ∀ (γ : Type) (broker : Broker γ) (args : Args) (out : String) (state : γ) (id : String),
        args.allowRedeliver = false →
        promotes (transparent fun _ _ => true) broker args stateDir out
          { files := s.files, broker := state } = some id → id ∉ s.promoted := by
  intro claim
  obtain ⟨t, saved, receiver, file, _⟩ := oneByte_transfer (fun _ _ => true) 1 ⟨List.replicate 16 0, rfl⟩
  obtain ⟨u, saved', receiver', file', _⟩ := oneByte_transfer (fun _ _ => true) 1 ⟨List.replicate 16 1, rfl⟩
  obtain ⟨whole, store, complete⟩ := transparent_stored (t := t) (by simp [file])
  obtain ⟨whole', store', complete'⟩ := transparent_stored (t := u) (by simp [file'])
  have created : t.saved.createdAt = 0 := by rw [saved]; rfl
  have created' : u.saved.createdAt = 0 := by rw [saved']; rfl
  have ids : t.hexId ≠ u.hexId := by
    intro same
    have raw := hex_injective same
    rw [saved, saved'] at raw
    exact absurd raw (by decide)
  have apart : "out" ≠ ledgerPath "state" := by decide
  let start : Site := { files := fun _ => none, promoted := [] }
  -- the transfer is delivered and recorded
  have recorded : Recorded (if "out" = ledgerPath "state" then some t.file else start.files (ledgerPath "state"))
      [] := by
    rw [if_neg apart]
    exact Recorded.missing
  obtain ⟨_, s₁, step₁, promoted₁, listed₁, frame₁⟩ := siteStep_served (transparent_agreement _)
    (transparent_opens _) (complete.serves whole.numbered) whole rfl "out"
    (transparent_accepted created receiver rfl Recorded.missing List.not_mem_nil)
    (show start.files _ = none from rfl) recorded
  -- another one is received onto the ledger
  have lost : Recorded (if ledgerPath "state" = ledgerPath "state" then some u.file
      else s₁.files (ledgerPath "state")) [] := by
    rw [if_pos rfl, file']
    exact ⟨[], rfl, by simp⟩
  have nothing₁ : s₁.files (ledgerPath "state" ++ ".part" ++ ".progress") = none :=
    frame₁ _ progress_ne_ledger (by decide) (by decide) (by decide)
  obtain ⟨_, s₂, step₂, promoted₂, listed₂, frame₂⟩ := siteStep_served (transparent_agreement _)
    (transparent_opens _) (complete'.serves whole'.numbered) whole' rfl (ledgerPath "state")
    (transparent_accepted created' receiver' rfl listed₁ (by simpa using ids.symm)) nothing₁ lost
  -- and the first one is promoted again
  have recorded₂ : Recorded (if "again" = ledgerPath "state" then some t.file
      else s₂.files (ledgerPath "state")) [u.hexId] := by
    rw [if_neg (by decide)]
    exact listed₂
  have nothing₂ : s₂.files ("again" ++ ".part" ++ ".progress") = none :=
    (frame₂ _ (by decide) (by decide) (by decide) (by decide)).trans
      (frame₁ _ (by decide) (by decide) (by decide) (by decide))
  obtain ⟨again, _⟩ := siteStep_served (transparent_agreement _) (transparent_opens _)
    (complete.serves whole.numbered) whole rfl "again"
    (transparent_accepted created receiver rfl listed₂ (by simpa using ids)) nothing₂ recorded₂
  refine claim "state" start s₂ rfl (.tail (.single ⟨_, _, _, _, _, step₁⟩) ⟨_, _, _, _, _, step₂⟩)
    _ _ _ _ _ _ rfl again ?_
  rw [promoted₂, promoted₁]
  simp

end SecureTransfer.ApproachB
