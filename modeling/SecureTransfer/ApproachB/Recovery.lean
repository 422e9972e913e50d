import SecureTransfer.ApproachB.Shelf

/-! # Recovering from a damaged partial file

A receiver starts with any `.part` and any progress file, the broker serves the whole
transfer, and the receiver is run up to twice. A failed whole-file check keeps both
files, so the second run skips the chunks the first one skipped.
-/

namespace SecureTransfer.ApproachB

open Library

variable {P : Primitives} {β : Type} {t : Transfer P} {signature : Bytes} {broker : Broker β} {up : β → Prop}
  {args first second : Args} {w : World β} {ids : List String}

/-- A run promotes the file. -/
def Delivers (P : Primitives) (broker : Broker β) (args : Args) (file : Bytes) (w : World β) : Prop :=
  ∃ w', receive P broker args w = (.ok 0, w') ∧ w'.out = some file

/-- At most two runs promote it. The second is made when the first does not return 0. -/
def DeliversWithinTwo (P : Primitives) (broker : Broker β) (first second : Args) (file : Bytes)
    (w : World β) : Prop :=
  Delivers P broker first file w ∨
    (receive P broker first w).1 ≠ .ok 0 ∧ Delivers P broker second file (receive P broker first w).2

/-- Whatever the bytes are, if they load as progress of the transfer, they list chunks. -/
def ListsChunks (progress : Option Bytes) (transferIdHex : String) : Prop :=
  ∀ done, loadProgress progress transferIdHex = .ok done → ∃ indices, done = indexList indices

/-- No longer than the source, with every listed chunk in place, where the gap below a
    chunk that is still to be written reads as zeros. -/
def Intact (t : Transfer P) (indices : List Nat) (content : Bytes) : Prop :=
  content.length ≤ t.file.length ∧ ∀ i < t.total, i ∈ indices →
    chunk chunkSize i
      (padTo 0 (lastStart chunkSize ((List.range t.total).filter (· ∉ indices))) content) = t.plain i

/-- The progress file loads, and what it lists is intact. -/
def Recoverable (t : Transfer P) (disk : Disk) : Prop :=
  ∃ indices, loadProgress disk.progress t.hexId = .ok (indexList indices) ∧
    (indices = [] ∨ ∀ content, disk.part = some content → Intact t indices content)

/-! ## What a run assembles -/

theorem indexList_injective : Function.Injective indexList :=
  List.map_injective_iff.mpr fun i j same => by
    have equal : (i : Int) = (j : Int) := Json.int.inj same
    exact_mod_cast equal

theorem filled_eq_iff (whole : t.Whole) {indices : List Nat} {content : Bytes} :
    t.filled indices content = t.file ↔ Intact t indices content := by
  have inside : ∀ i ∈ (List.range t.total).filter (· ∉ indices), i * chunkSize < t.file.length := by
    intro i member
    exact (whole.lt_total).mp (List.mem_range.mp (List.mem_of_mem_filter member))
  rw [Transfer.filled, assemble_eq_iff 0 chunkSize_pos t.file content _ inside, Intact]
  refine and_congr_right fun _ => forall_congr' fun i => ?_
  rw [← whole.lt_total]
  refine forall_congr' fun below => ?_
  have skipped : i ∉ (List.range t.total).filter (· ∉ indices) ↔ i ∈ indices := by
    simp [below]
  rw [skipped]
  rfl

theorem intact_nil : Intact t [] [] := ⟨Nat.zero_le _, fun _ _ listed => nomatch listed⟩

theorem recoverable_iff (whole : t.Whole) {disk : Disk} {indices : List Nat}
    (loads : loadProgress disk.progress t.hexId = .ok (indexList indices)) :
    Recoverable t disk ↔
      t.filled (checkpoint disk.part indices).1 (checkpoint disk.part indices).2 = t.file := by
  rw [filled_eq_iff whole]
  have same : Recoverable t disk ↔
      (indices = [] ∨ ∀ content, disk.part = some content → Intact t indices content) := by
    constructor
    · rintro ⟨others, again, intact⟩
      rw [loads] at again
      rw [indexList_injective (Except.ok.inj again)]
      exact intact
    · intro intact
      exact ⟨indices, loads, intact⟩
  rw [same]
  cases disk.part with
  | none => simp [checkpoint, intact_nil]
  | some content =>
      by_cases none_listed : indices = []
      · simp [none_listed, checkpoint_nil, intact_nil]
      · simp [none_listed, checkpoint_some none_listed]

theorem checkpoint_empty {part : Option Bytes} {indices : List Nat} (h : (checkpoint part indices).1 = []) :
    (checkpoint part indices).2 = [] := by
  cases part with
  | none => rfl
  | some content =>
      by_cases none_listed : indices = []
      · rw [none_listed, checkpoint_nil]
      · rw [checkpoint_some none_listed] at h
        exact absurd h none_listed

/-! ## Up to two runs -/

section Runs

variable (laws : P.Agreement) (serves : Serves t signature broker up) (opens : P.Opens)
  (whole : t.Whole)

include laws serves

/-- A run that cannot read its progress file leaves everything as it is. -/
theorem receive_progress_raises (answers : up w.broker) (accepted : Accepted t signature args w.ledger)
    {e : PyError} (loads : loadProgress w.progress t.hexId = .error e) :
    ∃ w', receive P broker args w = (.error (.python e), w') ∧ up w'.broker ∧ w'.toDisk = w.toDisk := by
  obtain ⟨b, up', prepared⟩ := prepare_offered laws serves.toOffers answers accepted
  have raises : resume t.hexId { w with broker := b } = (.error (.python e), { w with broker := b }) := by
    rw [resume_run, loads]
  have failed : download P broker args w = (.error (.python e), { w with broker := b }) :=
    (Prog.bind_ok prepared _).trans (Prog.bind_error raises _)
  exact ⟨_, Prog.bind_error failed _, up', rfl⟩

include opens whole

theorem delivers_of_recoverable (answers : up w.broker) (accepted : Accepted t signature args w.ledger)
    (recorded : Recorded w.ledger ids) (recoverable : Recoverable t w.toDisk) :
    Delivers P broker args t.file w := by
  obtain ⟨indices, loads, _⟩ := id recoverable
  have source := (recoverable_iff whole loads).mp recoverable
  obtain ⟨r, w', run, _, ⟨rfl, promoted⟩ | ⟨_, wrong, _⟩⟩ :=
    receive_served laws opens serves whole answers accepted recorded loads
  · rw [source] at promoted
    exact ⟨w', run, promoted⟩
  · exact absurd source wrong

/-- Where every chunk counts as done, a run promotes what is there or nothing. -/
theorem not_delivers_wrong (answers : up w.broker) (accepted : Accepted t signature args w.ledger)
    (recorded : Recorded w.ledger ids) {indices : List Nat} {content : Bytes} (part : w.part = some content)
    (names : Names w.progress t.hexId indices) (listed : ∀ i < t.total, i ∈ indices) (some_done : indices ≠ [])
    (wrong : content ≠ t.file) : ¬ Delivers P broker args t.file w := by
  rintro ⟨w', run, promoted⟩
  obtain ⟨all, loads, same⟩ := names.load
  have some_loaded : all ≠ [] := by
    obtain ⟨i, member⟩ := List.exists_mem_of_ne_nil indices some_done
    exact List.ne_nil_of_mem ((same i).mpr member)
  have from_here : checkpoint w.part all = (all, content) := by
    rw [part, checkpoint_some some_loaded]
  have skipped : (List.range t.total).filter (· ∉ all) = [] := by
    rw [List.filter_eq_nil_iff]
    intro i member
    simpa using (same i).mpr (listed i (List.mem_range.mp member))
  obtain ⟨r, w'', again, _, ⟨_, promoted'⟩ | ⟨⟨e, rfl⟩, _⟩⟩ :=
    receive_served laws opens serves whole answers accepted recorded loads
  · rw [run] at again
    cases again
    rw [from_here, Transfer.filled, skipped, promoted] at promoted'
    exact wrong (Option.some.inj promoted').symm
  · rw [run] at again
    cases again

/-- Two runs that do not start from an intact file both skip what is wrong with it. -/
theorem recoverable_of_delivers (answers : up w.broker) (accepted : Accepted t signature first w.ledger)
    (accepted' : Accepted t signature second w.ledger) (recorded : Recorded w.ledger ids)
    (lists : ListsChunks w.progress t.hexId)
    (delivers : DeliversWithinTwo P broker first second t.file w) : Recoverable t w.toDisk := by
  cases loads : loadProgress w.progress t.hexId with
  | error e =>
      -- neither run can read the file
      obtain ⟨w₁, run, up₁, kept⟩ := receive_progress_raises laws serves answers accepted loads
      have again : loadProgress w₁.progress t.hexId = .error e := by rw [kept, loads]
      have accepted₁ : Accepted t signature second w₁.ledger := by rwa [kept]
      obtain ⟨w₂, run', _⟩ := receive_progress_raises laws serves up₁ accepted₁ again
      rcases delivers with ⟨w', now, _⟩ | ⟨_, w', later, _⟩
      · rw [run] at now
        cases now
      · rw [run, run'] at later
        cases later
  | ok done =>
      obtain ⟨indices, rfl⟩ := lists done loads
      rw [recoverable_iff whole loads]
      obtain ⟨r, w₁, run, up₁, ⟨rfl, promoted⟩ | ⟨⟨e, rfl⟩, wrong, part, ledger, listed, names, members⟩⟩ :=
        receive_served laws opens serves whole answers accepted recorded loads
      · rcases delivers with ⟨w', now, exact_file⟩ | ⟨failed, _⟩
        · rw [run] at now
          cases now
          exact Option.some.inj (promoted.symm.trans exact_file)
        · rw [run] at failed
          exact absurd rfl failed
      · -- the second run starts where the first one ended
        rcases delivers with ⟨w', now, _⟩ | ⟨_, later⟩
        · rw [run] at now
          cases now
        · rw [run] at later
          have accepted₁ : Accepted t signature second w₁.ledger := by rwa [ledger]
          have recorded₁ : Recorded w₁.ledger ids := by rwa [ledger]
          refine absurd later (not_delivers_wrong laws serves opens whole up₁ accepted₁ recorded₁ part names
            (fun i below => (members i).mpr (.inl below)) ?_ wrong)
          -- with no chunk listed the first run would have assembled the source
          intro none_listed
          have empty : (checkpoint w.part indices).1 = [] := by
            rw [List.eq_nil_iff_forall_not_mem]
            intro i member
            have := (members i).mpr (.inr member)
            rw [none_listed] at this
            cases this
          refine wrong ((filled_eq_iff whole).mpr ?_)
          rw [empty, checkpoint_empty empty]
          exact intact_nil

/-- **Recovery.** Up to two served runs promote the source exactly when what the progress
    file lists is intact. -/
theorem delivers_within_two_iff (answers : up w.broker) (accepted : Accepted t signature first w.ledger)
    (accepted' : Accepted t signature second w.ledger) (recorded : Recorded w.ledger ids)
    (lists : ListsChunks w.progress t.hexId) :
    DeliversWithinTwo P broker first second t.file w ↔ Recoverable t w.toDisk := by
  constructor
  · intro delivers
    exact recoverable_of_delivers laws serves opens whole answers accepted accepted' recorded lists delivers
  · intro recoverable
    exact .inl (delivers_of_recoverable laws serves opens whole answers accepted recorded recoverable)

end Runs

/-! ## What runs and crashes leave -/

theorem listsChunks_unreadable {progress : Option Bytes} (transferIdHex : String)
    (unreadable : ∀ bytes, progress = some bytes → Json.loadFile bytes = .ok none) :
    ListsChunks progress transferIdHex := by
  intro done loads
  refine ⟨[], ?_⟩
  cases progress with
  | none =>
      cases loads
      rfl
  | some bytes =>
      rw [loadProgress, unreadable bytes rfl] at loads
      cases loads
      rfl

theorem Names.listsChunks {progress : Option Bytes} {named : String} {indices : List Nat}
    (h : Names progress named indices) (transferIdHex : String) : ListsChunks progress transferIdHex := by
  intro done loads
  by_cases same : named = transferIdHex
  · subst same
    obtain ⟨all, loads', _⟩ := h.load
    rw [loads'] at loads
    cases loads
    exact ⟨all, rfl⟩
  · rw [h.load_other same] at loads
    cases loads
    exact ⟨[], rfl⟩

/-! ## A source of one byte -/

/-- A partial file without a progress file is discarded. -/
theorem delivers_within_two_oneByte :
    ∃ (t : Transfer (transparent fun _ _ => true)) (store : Storage), t.file = [1] ∧
      DeliversWithinTwo (transparent fun _ _ => true) (shelf store) (transparentReceiver t.hexId)
        (transparentReceiver t.hexId) t.file
        { out := none, part := some [2], progress := none, ledger := none, broker := [] } := by
  obtain ⟨t, store, file, total, whole, complete, accepted⟩ := oneByte_stored
  refine ⟨t, store, file, (delivers_within_two_iff (transparent_agreement _) (complete.serves whole.numbered)
    (transparent_opens _) whole rfl accepted accepted Recorded.missing ?_).mpr ⟨[], rfl, .inl rfl⟩⟩
  exact listsChunks_unreadable _ nofun

/-- The progress file lists the only chunk and `.part` holds another byte. -/
theorem stuck_on_wrong_byte :
    ¬ ∀ (t : Transfer (transparent fun _ _ => true)) (signature : Bytes) (store : Storage) (args : Args)
        (w : World (List Outcome)), t.Whole → Complete t signature store → w.broker = [] →
      Accepted t signature args w.ledger → Recorded w.ledger [] → ListsChunks w.progress t.hexId →
      DeliversWithinTwo (transparent fun _ _ => true) (shelf store) args args t.file w := by
  intro claim
  obtain ⟨t, store, file, total, whole, complete, accepted⟩ := oneByte_stored
  let progress := Json.dumpFile (progressFile t.hexId (indexList [0]))
  let w : World (List Outcome) :=
    { out := none, part := some [2], progress := some progress, ledger := none, broker := [] }
  have names : Names w.progress t.hexId [0] := ⟨[0], rfl, fun _ => Iff.rfl⟩
  have recoverable := recoverable_of_delivers (transparent_agreement _) (complete.serves whole.numbered)
    (transparent_opens _) whole (w := w) rfl accepted accepted Recorded.missing (names.listsChunks _)
    (claim t _ store _ w whole complete rfl accepted Recorded.missing (names.listsChunks _))
  obtain ⟨indices, loads, intact⟩ := recoverable
  obtain ⟨all, loads', members⟩ := names.load
  rw [loads'] at loads
  have same := indexList_injective (Except.ok.inj loads)
  subst same
  have listed : 0 ∈ all := (members 0).mpr List.mem_cons_self
  rcases intact with none_listed | intact
  · rw [none_listed] at listed
    cases listed
  · have first := (intact [2] rfl).2 0 (by omega) listed
    have byte := congrArg (·[0]?) first
    simp only [Transfer.plain, chunk_getElem?, if_pos chunkSize_pos, padTo_getElem?, file] at byte
    simp at byte

end SecureTransfer.ApproachB
