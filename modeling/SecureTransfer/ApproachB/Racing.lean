import SecureTransfer.ApproachB.Completeness
import SecureTransfer.ApproachB.Stock

/-! # A receiver beside senders

A receiver sees the store at some moments of an upload and is cut off at some. It promotes the
file, or it ends with its broker's error or with `NOT_FOUND`, and can go on from what it has.
-/

namespace SecureTransfer.ApproachB

open Library

variable {P : Primitives} {t : Transfer P} {signature : Bytes}

theorem Complete.kept {store after : Storage} (h : Complete t signature store) (keeps : KeepsStock t store after) :
    Complete t signature after where
  chunks i inside := keeps _ _ (h.chunks i inside)
  manifest := keeps _ _ h.manifest
  signature := keeps _ _ h.signature

/-! ## Sightings -/

section Sightings

variable {Q : Storage → Prop}

/-- What a command finds, and the error it gets if any. -/
abbrev Sighting (Q : Storage → Prop) : Type := { store : Storage // Q store } × Option String

variable {last : Sighting Q} {row : List (Sighting Q)}

/-- A broker that shows the states of a row one after the other. -/
def sighted (last : Sighting Q) : Broker (List (Sighting Q)) :=
  .of (LateNetwork.gallery (fun c store => (Storage.serve c store.1).1) failing last)

/-- The same without errors. -/
def steady (last : Sighting Q) : Broker (List (Sighting Q)) :=
  .of fun c row => ((Storage.serve c (row.headD last).1.1).1, row.tail)

theorem sighted_get (key : String) (row : List (Sighting Q)) :
    (sighted last).get key row = ((row.headD last).2.elim (.ok ((row.headD last).1.1.get key)) .error, row.tail) := rfl

theorem steady_get (key : String) (row : List (Sighting Q)) :
    (steady last).get key row = (.ok ((row.headD last).1.1.get key), row.tail) := rfl

theorem sighted_found {key : String} {row row' : List (Sighting Q)} {data : Bytes}
    (reply : (sighted last).get key row = (.ok (some data), row')) : (row.headD last).1.1.get key = some data := by
  rw [sighted_get] at reply
  cases failed : (row.headD last).2 with
  | none =>
      rw [failed] at reply
      exact Except.ok.inj (Prod.mk.inj reply).1
  | some message =>
      rw [failed] at reply
      cases (Prod.mk.inj reply).1

theorem unaltered_sighted (whole : t.Whole) {last : Sighting (Stock t signature)} : Unaltered t (sighted last) where
  manifest row data row' reply := by
    have found := sighted_found reply
    rw [Storage.get_eq Transfer.safePath_manifest] at found
    exact ((row.headD last).1.2.blobs _ _ found).unique .manifest
  chunks i inside row data row' reply := by
    have found := sighted_found reply
    rw [Storage.get_eq (Transfer.safePath_chunk (inside.trans whole.numbered))] at found
    exact ((row.headD last).1.2.blobs _ _ found).unique (.chunk inside)

/-- All of `t` is there from now on. -/
def Late (t : Transfer P) (signature : Bytes) (row : List (Sighting Q)) : Prop :=
  ∀ x ∈ row, Complete t signature x.1.1

theorem Late.head (late : Late t signature row) (finished : Complete t signature last.1.1) :
    Complete t signature (row.headD last).1.1 := by
  cases row with
  | nil => exact finished
  | cons x rest => exact late x (List.mem_cons_self ..)

theorem Late.tail (late : Late t signature row) : Late t signature row.tail :=
  fun x member => late x (List.mem_of_mem_tail member)

theorem serves_steady (whole : t.Whole) (finished : Complete t signature last.1.1) :
    Serves t signature (steady last) (Late t signature) := by
  have answers : ∀ (row : List (Sighting Q)) key path data, Late t signature row → safePath key = some path →
      (∀ store, Complete t signature store → store.find path = some data) →
        ∃ row', Late t signature row' ∧ (steady last).get key row = (.ok (some data), row') := by
    intro row key path data late safe found
    refine ⟨row.tail, late.tail, ?_⟩
    rw [steady_get, Storage.get_eq safe, found _ (late.head finished)]
  exact {
    manifest := fun row late => answers row _ _ _ late Transfer.safePath_manifest fun _ whole => whole.manifest
    signature := fun row late => answers row _ _ _ late Transfer.safePath_signature fun _ whole => whole.signature
    chunks := fun i inside row late => answers row _ _ _ late
      (Transfer.safePath_chunk (inside.trans whole.numbered)) fun _ whole => whole.chunks i inside }

end Sightings

/-! ## One run -/

section Run

variable {β : Type} {broker : Broker β} {args : Args}

/-- The first thing a run for `t` asks for is the manifest. -/
theorem receive_first (asked : For t args) {w w' : World β}
    (same : onBroker (broker.get (manifestKey t.hexId)) w = onBroker (broker.get (manifestKey t.hexId)) w') :
    receive P broker args w = receive P broker args w' := by
  have fetched : fetchVerifiedManifest P broker args t.hexId w = fetchVerifiedManifest P broker args t.hexId w' :=
    Prog.bind_congr same _
  have prepared : prepare P broker args w = prepare P broker args w' := by
    rw [prepare_asked asked.asked, prepare_asked asked.asked]
    exact Prog.bind_congr fetched _
  exact Prog.bind_congr (Prog.bind_congr prepared _) _

/-- Without a manifest or a signature the run is turned away. -/
theorem receive_notFound (asked : For t args) {w : World β} {found signed : Option Bytes} {b₁ b₂ : β}
    (manifest : broker.get (manifestKey t.hexId) w.broker = (.ok found, b₁))
    (signature : broker.get (signatureKey t.hexId) b₁ = (.ok signed, b₂)) (absent : found = none ∨ signed = none) :
    (receive P broker args w).1 = .error (.verificationError .notFound) := by
  have get₁ : onBroker (broker.get (manifestKey t.hexId)) w = (.ok found, { w with broker := b₁ }) :=
    callBroker_ok manifest
  have get₂ : onBroker (broker.get (signatureKey t.hexId)) { w with broker := b₁ } =
      (.ok signed, { w with broker := b₂ }) := callBroker_ok signature
  have rejected : fetchVerifiedManifest P broker args t.hexId w =
      (.error (.verificationError .notFound), { w with broker := b₂ }) := by
    rw [fetchVerifiedManifest, Prog.bind_ok get₁, Prog.bind_ok get₂]
    rcases absent with rfl | rfl
    · rfl
    · cases found with
      | none | some => rfl
  have prepared := (prepare_asked asked.asked w).trans (Prog.bind_error rejected _)
  have downloaded : download P broker args w = _ := Prog.bind_error prepared _
  have received : receive P broker args w = _ := Prog.bind_error downloaded _
  rw [received]

/-- What passed its checks is recorded. -/
theorem completes (laws : P.Agreement) (unaltered : Unaltered t broker) (asked : For t args) {ids : List String}
    {w w₁ w' : World β} {manifest : Json} {plan : Plan} {r : Except Raised Int} (recorded : Recorded w.ledger ids)
    (passed : download P broker args w = (.ok (manifest, plan), w₁))
    (completed : complete plan.transferIdHex manifest w₁ = (r, w')) :
    r = .ok 0 ∧ Recorded w'.ledger (t.hexId :: ids) := by
  obtain ⟨w₂, prepared⟩ := download_prepared passed
  obtain ⟨rfl, rfl⟩ := prepare_unaltered laws unaltered asked prepared
  have ledger : w₁.ledger = w.ledger := (download_keepsDelivered.run passed).2
  have recorded₁ : Recorded w₁.ledger ids := by rwa [ledger]
  obtain ⟨_, run, next⟩ := complete_recorded t recorded₁
  obtain ⟨rfl, rfl⟩ := Prod.mk.inj (completed.symm.trans run)
  exact ⟨rfl, next⟩

end Run

/-! ## A run beside others -/

section Receiver

variable {last : Sighting (Stock t signature)} {row : List (Sighting (Stock t signature))} {args : Args} {disk : Disk}

/-- How a run that races with uploads ends: with the file, or with an error that blames nobody
    and loses nothing. `NOT_FOUND` comes `early` only. -/
inductive RacedTo (t : Transfer P) (early : Prop) (ids : List String) (disk disk' : Disk) :
    Except Raised Int → Prop where
  | delivered (promoted : disk'.out = some t.file) (recorded : Recorded disk'.ledger (t.hexId :: ids)) :
      RacedTo t early ids disk disk' (.ok 0)
  | turnedAway {e : Raised}
      (blameless : (∃ message, e = .brokerError message) ∨ (e = .verificationError .notFound ∧ early))
      (out : disk'.out = disk.out) (under : Underway t disk') (recorded : Recorded disk'.ledger ids) :
      RacedTo t early ids disk disk' (.error e)

/-- Where no command fails, a run is turned away only if something was not there to be seen. -/
theorem receive_answered (laws : P.Agreement) (opens : P.Opens) (whole : t.Whole)
    (ordered : (row.map (·.1.1)).Pairwise (KeepsStock t)) (final : ∀ x ∈ row, KeepsStock t x.1.1 last.1.1)
    (accepted : Accepted t signature args disk.ledger) {ids : List String} (recorded : Recorded disk.ledger ids)
    (under : Underway t disk) :
    ((receive P (steady last) args (atDisk disk row)).1 = .error (.verificationError .notFound) ∧
        ¬ (Late t signature row ∧ Complete t signature last.1.1)) ∨
      Delivers P (steady last) args t.file (atDisk disk row) := by
  let broker := steady last
  let first := row.headD last
  let second := row.tail.headD last
  have manifest : broker.get (manifestKey t.hexId) row = (.ok (first.1.1.find t.manifestPath), row.tail) := by
    rw [steady_get, Storage.get_eq Transfer.safePath_manifest]
  have signed : broker.get (signatureKey t.hexId) row.tail = (.ok (second.1.1.find t.signaturePath), row.tail.tail) := by
    rw [steady_get, Storage.get_eq Transfer.safePath_signature]
  by_cases absent : first.1.1.find t.manifestPath = none ∨ second.1.1.find t.signaturePath = none
  · refine .inl ⟨receive_notFound accepted.toFor manifest signed absent, ?_⟩
    rintro ⟨late, finished⟩
    rcases absent with absent | absent
    · exact Option.some_ne_none _ ((late.head finished).manifest.symm.trans absent)
    · exact Option.some_ne_none _ ((late.tail.head finished).signature.symm.trans absent)
  right
  obtain ⟨listed, signed⟩ := not_or.mp absent
  have complete : Complete t signature second.1.1 := second.1.2.complete (Option.isSome_iff_ne_none.mpr signed)
  -- nothing is lost between the manifest and what comes after it
  have since : KeepsStock t first.1.1 second.1.1 ∧ KeepsStock t second.1.1 last.1.1 ∧
      ∀ x ∈ row.tail, KeepsStock t second.1.1 x.1.1 := by
    cases row with
    | nil => exact ⟨Std.Refl.refl _, Std.Refl.refl _, List.forall_mem_nil _⟩
    | cons x rest =>
        have behind := List.pairwise_cons.mp ordered
        cases rest with
        | nil => exact ⟨final x (List.mem_cons_self ..), Std.Refl.refl _, List.forall_mem_nil _⟩
        | cons y rest =>
            have later := List.pairwise_cons.mp behind.2
            refine ⟨behind.1 _ (List.mem_cons_self ..), final y (by simp), fun z member => ?_⟩
            rcases List.mem_cons.mp member with rfl | member
            · exact Std.Refl.refl _
            · exact later.1 _ (List.mem_map_of_mem member)
  have late : Late t signature (second :: row.tail) := by
    intro x member
    rcases List.mem_cons.mp member with rfl | member
    · exact complete
    · exact complete.kept (since.2.2 x member)
  have same : onBroker (broker.get (manifestKey t.hexId)) (atDisk disk row) =
      onBroker (broker.get (manifestKey t.hexId)) (atDisk disk (second :: row.tail)) := by
    have here : first.1.1.find t.manifestPath = some t.manifestBytes := by
      obtain ⟨found, present⟩ := Option.ne_none_iff_exists'.mp listed
      rw [present, (first.1.2.blobs _ _ present).unique .manifest]
    have there : broker.get (manifestKey t.hexId) (second :: row.tail) = (.ok (some t.manifestBytes), row.tail) := by
      rw [steady_get, Storage.get_eq Transfer.safePath_manifest]
      exact Prod.ext (congrArg Except.ok complete.manifest) rfl
    rw [here] at manifest
    have get₁ : onBroker (broker.get (manifestKey t.hexId)) (atDisk disk row) =
        (.ok (some t.manifestBytes), atDisk disk row.tail) := callBroker_ok manifest
    have get₂ : onBroker (broker.get (manifestKey t.hexId)) (atDisk disk (second :: row.tail)) =
        (.ok (some t.manifestBytes), atDisk disk row.tail) := callBroker_ok there
    rw [get₁, get₂]
  obtain ⟨w, run, promoted⟩ := delivers_of_recoverable laws (serves_steady whole (complete.kept since.2.1)) opens whole
    (w := atDisk disk (second :: row.tail)) late accepted recorded (under.recoverable whole)
  exact ⟨w, (receive_first accepted.toFor same).trans run, promoted⟩

/-- A reply that is no error is the one without errors. -/
theorem sighted_replies {c : BrokerCall} (row : List (Sighting (Stock t signature)))
    (replied : c.failure ((sighted last).serve c row).1 = none) :
    (steady last).serve c row = (sighted last).serve c row := by
  rw [sighted, Broker.serve_of] at replied ⊢
  rw [steady, Broker.serve_of]
  rw [LateNetwork.gallery] at replied ⊢
  cases failed : (row.headD last).2 with
  | none => rfl
  | some message =>
      rw [failed] at replied
      cases replied

theorem receive_sighted (laws : P.Agreement) (opens : P.Opens) (whole : t.Whole)
    (ordered : (row.map (·.1.1)).Pairwise (KeepsStock t)) (final : ∀ x ∈ row, KeepsStock t x.1.1 last.1.1)
    (accepted : Accepted t signature args disk.ledger) {ids : List String} (recorded : Recorded disk.ledger ids)
    (under : Underway t disk) {r : Except Raised Int} {w : World (List (Sighting (Stock t signature)))}
    (run : receive P (sighted last) args (atDisk disk row) = (r, w)) :
    RacedTo t (¬ (Late t signature row ∧ Complete t signature last.1.1)) ids disk w.toDisk r := by
  have unaltered : Unaltered t (sighted last) := unaltered_sighted whole
  have ends : (∃ e, r = .error e ∧ ((∃ message, e = .brokerError message) ∨
        (e = .verificationError .notFound ∧ ¬ (Late t signature row ∧ Complete t signature last.1.1)))) ∨
      (r = .ok 0 ∧ w.out = some t.file) := by
    obtain ⟨client, plays, follows⟩ := receive_reading P args disk
    have played : receive P (sighted last) args (atDisk disk row) = _ := plays _ _ row
    rw [run] at played
    obtain ⟨rfl, rfl⟩ := Prod.mk.inj played
    rcases (follows none rfl).stops (steady last).serve
      (fun c row _ => sighted_replies row) row with ⟨message, stopped⟩ | same
    · exact .inl ⟨_, stopped message rfl, .inl ⟨message, rfl⟩⟩
    · have answered : receive P (steady last) args (atDisk disk row) = _ := plays _ _ row
      rw [same] at answered
      rcases receive_answered laws opens whole ordered final accepted recorded under with
        ⟨rejected, early⟩ | ⟨w', delivered, promoted⟩
      · rw [answered] at rejected
        exact .inl ⟨_, rejected, .inr ⟨rfl, early⟩⟩
      · have whole := answered.symm.trans delivered
        obtain ⟨returned, rfl⟩ := Prod.mk.inj whole
        exact .inr ⟨returned, promoted⟩
  rcases ends with ⟨e, rfl, blameless⟩ | ⟨rfl, promoted⟩
  · obtain ⟨under', recorded'⟩ := Underway.interrupted laws opens whole ⟨under, recorded⟩
      ⟨_, _, _, _, e, w, unaltered, accepted.toFor, run, rfl⟩
    rcases receive_cases run with ⟨_, failed, _⟩ | ⟨manifest, plan, w₁, passed, completed⟩
    · exact .turnedAway blameless (download_keepsDelivered.run failed).1 under' recorded'
    · cases (completes laws unaltered accepted.toFor recorded passed completed).1
  · rcases receive_cases run with ⟨_, _, same⟩ | ⟨manifest, plan, w₁, passed, completed⟩
    · cases same
    · exact .delivered promoted (completes laws unaltered accepted.toFor recorded passed completed).2

theorem RacedTo.imp {early early' : Prop} (weaker : early → early') {ids : List String} {disk disk' : Disk}
    {r : Except Raised Int} (h : RacedTo t early ids disk disk' r) : RacedTo t early' ids disk disk' r := by
  cases h with
  | delivered promoted recorded => exact .delivered promoted recorded
  | turnedAway blameless out under recorded =>
      exact .turnedAway (blameless.imp_right fun found => ⟨found.1, weaker found.2⟩) out under recorded

end Receiver

/-! ## Any order of commands -/

/-- The job is a receive run that went from `disk` to `disk'`. -/
inductive Job.Receives (args : Args) (disk : Disk) (r : Except Raised Int) (disk' : Disk) :
    (job : Job) → job.Result → Prop where
  | receive : Receives args disk r disk' (receive args disk) (r, disk')

theorem Job.Receives.run {args : Args} {disk disk' : Disk} {r : Except Raised Int} {job : Job} {result : job.Result}
    (h : job.Receives args disk r disk' result) {β : Type} {broker : Broker β} {b b' : β}
    (run : job.run P broker b = (result, b')) :
    ApproachB.receive P broker args (atDisk disk b) = (r, atDisk disk' b') := by
  cases h with
  | receive =>
      obtain ⟨result, after⟩ := Prod.mk.inj run
      obtain ⟨returned, files⟩ := Prod.mk.inj result
      refine Prod.ext returned ?_
      rw [← files, ← after]
      rfl

/-- The states of a row, each with its proof. -/
theorem exists_sightings {Q : Storage → Prop} (row : List (Storage × Option String)) (all : ∀ x ∈ row, Q x.1) :
    ∃ sightings : List (Sighting Q), sightings.map (fun x => (x.1.1, x.2)) = row := by
  induction row with
  | nil => exact ⟨[], rfl⟩
  | cons x rest ih =>
      obtain ⟨sightings, same⟩ := ih fun y member => all y (List.mem_cons_of_mem _ member)
      exact ⟨(⟨x.1, all x (List.mem_cons_self ..)⟩, x.2) :: sightings, congrArg _ same⟩

section Runs

variable {ι : Type} [DecidableEq ι] {jobs : ι → Job} {store : Storage}

/-- A receive run for `t`, whatever runs beside it and whatever commands fail or come late,
    promotes the file or ends with the error of its broker or, if it began before the upload was
    complete, with `NOT_FOUND`. No error costs it what it has. -/
theorem late_receive (laws : P.Agreement) (opens : P.Opens) (whole : t.Whole) (alike : Alike t signature jobs)
    (stock : Stock t signature store) {s s' : LateJobs jobs} (before : LateRun (LateJobs.start P jobs store) s) {i : ι}
    (waits : s.clients i = (jobs i).client P) (fresh : ∀ c r, ¬ s.replied i c r) (run : LateRun s s')
    {result : (jobs i).Result} (ended : s'.clients i = .done result) {args : Args} {disk disk' : Disk}
    {r : Except Raised Int} (receives : (jobs i).Receives args disk r disk' result)
    (accepted : Accepted t signature args disk.ledger) {ids : List String} (recorded : Recorded disk.ledger ids)
    (under : Underway t disk) : RacedTo t (¬ Complete t signature s.server) ids disk disk' r := by
  obtain ⟨_, k, known⟩ := (stock_growing t signature).run (late_known alike stock) before
  obtain ⟨kept, _, known'⟩ := (stock_growing t signature).run known run
  have stocked := known'.good
  obtain ⟨row, saw⟩ := LateNetwork.Growing.observed (s'.server, none) (stock_growing t signature) known fresh run
  obtain ⟨sightings, rfl⟩ := exists_sightings (Q := Stock t signature) row fun x member => (saw.found x member).1
  let last : Sighting (Stock t signature) := (⟨s'.server, stocked⟩, none)
  have shown : ∀ x ∈ sightings, KeepsStock t s.server x.1.1 ∧ KeepsStock t x.1.1 s'.server :=
    fun x member => (saw.found _ (List.mem_map_of_mem member)).2
  -- the client went along the row, so the run does
  have played : (jobs i).run P (sighted last) sightings = (result, []) := by
    have went := saw.went []
    rw [List.append_nil, ended, waits] at went
    have same : ∀ c row, LateNetwork.gallery (fun c store => (Storage.serve c store).1) failing (s'.server, none) c
        (row.map fun x => (x.1.1, x.2)) =
          (((sighted last).serve c row).1, ((sighted last).serve c row).2.map fun x => (x.1.1, x.2)) := by
      intro c row
      rw [sighted, Broker.serve_of]
      cases row with
      | nil | cons x rest => rfl
    have ends := (Client.play_map same ((jobs i).client P) sightings).symm.trans went
    rw [(jobs i).run_eq]
    exact Prod.ext (Prod.mk.inj ends).1 (List.map_eq_nil_iff.mp (Prod.mk.inj ends).2)
  have ordered : (sightings.map (·.1.1)).Pairwise (KeepsStock t) := by
    have ordered := saw.ordered
    rwa [List.map_map] at ordered
  have final : ∀ x ∈ sightings, KeepsStock t x.1.1 last.1.1 := fun x member => (shown x member).2
  apply (receive_sighted laws opens whole ordered final accepted recorded under (receives.run played)).imp
  rintro early complete
  exact early ⟨fun x member => complete.kept (shown x member).1, complete.kept kept⟩

end Runs

end SecureTransfer.ApproachB
