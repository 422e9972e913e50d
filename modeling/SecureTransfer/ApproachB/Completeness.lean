import SecureTransfer.ApproachB.Published
import SecureTransfer.ApproachB.Recovery

/-! # From one end to the other

Send runs on one source, cut off anywhere, then receive runs of the transfer they
published, cut off anywhere: the first one that is served promotes the source.
-/

namespace SecureTransfer.ApproachB

open Library

variable {P : Primitives}

/-! ## Sending one source -/

/-- The options of a run on `file` for one receiver. -/
structure SendsFile (file : Bytes) (receiverPub : RawKey) (signingKey : Bytes) (args : SendArgs) : Prop where
  source : args.file = some file
  receiver : args.receiverPub = receiverPub
  signs : args.signingKey = signingKey

/-- Every blob was put by a run on this source. -/
structure SentInv (P : Primitives) (file : Bytes) (receiverPub : RawKey) (d : Deployment) : Prop where
  deployment : DeploymentInv P d
  origins : ∀ blob origin, d.origins blob = some origin → origin = (file, receiverPub)

namespace SentInv

variable {file signingKey : Bytes} {receiverPub : RawKey} {d d' : Deployment} {path : String}
  {args : SendArgs} {r : Except Raised Int}

theorem start (P : Primitives) (file : Bytes) (receiverPub : RawKey) :
    SentInv P file receiverPub Deployment.start where
  deployment := DeploymentInv.start P
  origins := by simp [Deployment.start]

/-- An unchanged source is reread as it was. -/
theorem rereads (inv : SentInv P file receiverPub d) (sends : SendsFile file receiverPub signingKey args) :
    RereadsStored P d path args := by
  intro saved file' resumed i _ _ source receiver origin
  have same := inv.origins _ _ origin
  have reread : file' = file := Option.some.inj (resumed.source.symm.trans sends.source)
  cases same
  exact ⟨by rw [reread], sends.receiver.symm⟩

theorem step (inv : SentInv P file receiverPub d) (sends : SendsFile file receiverPub signingKey args)
    (run : UploadStep P d path args r d') : SentInv P file receiverPub d' where
  deployment := (inv.deployment.run run (inv.rereads sends)).1
  origins blob origin known := by
    obtain ⟨_, script, w, _, rfl⟩ := run
    simp only [Deployment.after] at known
    split at known
    · exact inv.origins blob origin known
    · rw [sends.source, sends.receiver] at known
      exact (Option.some.inj known).symm

end SentInv

/-! ## Receiving it -/

/-- What the progress file lists of `t` lies in the partial file. -/
def Underway (t : Transfer P) (disk : Disk) : Prop :=
  ∃ indices, loadProgress disk.progress t.hexId = .ok (indexList indices) ∧
    (indices = [] ∨ ∃ content, disk.part = some content ∧
      Keeps (fun i plain => i < t.total ∧ plain = t.plain i) (·.length ≤ t.file.length) indices content)

theorem Names.underway {t : Transfer P} {disk : Disk} {indices : List Nat} {content : Bytes}
    (h : Names disk.progress t.hexId indices) (part : disk.part = some content)
    (keeps : Keeps (fun i plain => i < t.total ∧ plain = t.plain i) (·.length ≤ t.file.length) indices content) :
    Underway t disk := by
  obtain ⟨all, loads, members⟩ := h.load
  exact ⟨all, loads, .inr ⟨content, part, keeps.congr members⟩⟩

theorem Underway.recoverable {t : Transfer P} (whole : t.Whole) {disk : Disk} (h : Underway t disk) :
    Recoverable t disk := by
  obtain ⟨indices, loads, none_listed | ⟨content, part, keeps⟩⟩ := h
  · exact ⟨indices, loads, .inl none_listed⟩
  · refine ⟨indices, loads, .inr fun content' part' => ?_⟩
    rw [part] at part'
    cases part'
    refine (filled_eq_iff whole).mp (assemble_complete 0 chunkSize_pos t.file content _ ?_ keeps.short ?_)
    · intro i member
      exact whole.lt_total.mp (List.mem_range.mp (List.mem_of_mem_filter member))
    · intro i here absent
      have listed : i ∈ indices := by
        by_contra unlisted
        refine absent (List.mem_filter.mpr ⟨List.mem_range.mpr (whole.lt_total.mpr here), ?_⟩)
        simpa using unlisted
      obtain ⟨plain, ⟨_, rfl⟩, held⟩ := keeps.chunks i listed
      exact held

/-- A run that ends in an error, against a broker that alters nothing. -/
def Interrupted (t : Transfer P) (disk disk' : Disk) : Prop :=
  ∃ (β : Type) (broker : Broker β) (b : β) (args : Args) (e : Raised) (w' : World β),
    Unaltered t broker ∧ For t args ∧
      receive P broker args { toDisk := disk, broker := b } = (.error e, w') ∧ w'.toDisk = disk'

section Receive

variable {t : Transfer P} (laws : P.Agreement) (opens : P.Opens) (whole : t.Whole)

include laws opens whole

/-- A download that ends in an error leaves the chunks it lists in place. -/
theorem Underway.download {β : Type} {broker : Broker β} {args : Args} (unaltered : Unaltered t broker)
    (asked : For t args) {w w' : World β} {e : Raised} (h : Underway t w.toDisk)
    (run : download P broker args w = (.error e, w')) : Underway t w'.toDisk := by
  obtain ⟨indices, loads, intact⟩ := id h
  cases prepared : prepare P broker args w with
  | mk r w₁ =>
      have disk : w₁.toDisk = w.toDisk := prepare_sameDisk.run prepared
      cases r with
      | error e' =>
          have failed : ApproachB.download P broker args w = (.error e', w₁) := Prog.bind_error prepared _
          rw [failed] at run
          cases run
          rwa [disk]
      | ok found =>
          obtain ⟨manifest, plan⟩ := found
          obtain ⟨rfl, rfl⟩ := prepare_unaltered laws unaltered asked prepared
          rw [← disk] at loads intact
          have resumed := resume_checkpoint loads
          have sound := sound_unaltered opens unaltered whole
          by_cases none_listed : indices = []
          · subst none_listed
            rw [checkpoint_nil] at resumed
            obtain ⟨indices', content', part', keeps', ⟨progress, _⟩ | names⟩ :=
              download_keeps sound prepared resumed rfl ⟨nofun, Nat.zero_le _⟩ run
            · exact ⟨[], by rw [progress]; exact loads, .inl rfl⟩
            · exact names.underway part' keeps'
          · obtain ⟨content, part, keeps⟩ := intact.resolve_left none_listed
            rw [part, checkpoint_some none_listed] at resumed
            obtain ⟨indices', content', part', keeps', ⟨progress, rfl, _⟩ | names⟩ :=
              download_keeps sound prepared resumed rfl keeps run
            · exact ⟨indices', by rw [progress]; exact loads, .inr ⟨content', part', keeps'⟩⟩
            · exact names.underway part' keeps'

/-- A run that ends in an error does not complete the transfer. -/
theorem Underway.interrupted {ids : List String} {disk disk' : Disk}
    (h : Underway t disk ∧ Recorded disk.ledger ids) (step : Interrupted t disk disk') :
    Underway t disk' ∧ Recorded disk'.ledger ids := by
  obtain ⟨under, recorded⟩ := h
  obtain ⟨β, broker, b, args, e, w', unaltered, asked, run, rfl⟩ := step
  rcases receive_cases run with ⟨e', failed, _⟩ | ⟨manifest, plan, w₁, passed, run⟩
  · have ledger : w'.ledger = disk.ledger := (download_keepsDelivered.run failed).2
    rw [ledger]
    exact ⟨Underway.download laws opens whole unaltered asked under failed, recorded⟩
  · obtain ⟨w₂, prepared⟩ := download_prepared passed
    obtain ⟨rfl, rfl⟩ := prepare_unaltered laws unaltered asked prepared
    have ledger : w₁.ledger = disk.ledger := (download_keepsDelivered.run passed).2
    have recorded₁ : Recorded w₁.ledger ids := by rwa [ledger]
    obtain ⟨_, completed, _⟩ := complete_recorded t recorded₁
    have same := run.symm.trans completed
    cases same

end Receive

/-! ## Both together -/

/-- **Completeness.** Send runs on an unchanged source, the last returning 0, publish a
    transfer that every receiver gets through with, however often it is interrupted. -/
theorem send_then_receive (laws : P.Agreement) (opens : P.Opens) (signs : P.SignsFor) {file : Bytes}
    (small : file.length < 2 ^ 53) (receiverPrivate : RawKey) (signingKey : Bytes) {d d' : Deployment}
    (sent : Relation.ReflTransGen (fun a b => ∃ path args r, UploadStep P a path args r b ∧
      SendsFile file (P.x25519Public receiverPrivate) signingKey args) Deployment.start d)
    {path : String} {last : SendArgs} (sends : SendsFile file (P.x25519Public receiverPrivate) signingKey last)
    (published : UploadStep P d path last (.ok 0) d') :
    ∃ t : Transfer P, t.file = file ∧
      (Resumes P d.history path last t.saved file ∨ t.saved = last.fresh file.length) ∧
      Unaltered t (shelf d'.store) ∧
      ∀ disk disk' ids, loadProgress disk.progress t.hexId = .ok [] → Recorded disk.ledger ids → t.hexId ∉ ids →
        Relation.ReflTransGen (Interrupted t) disk disk' →
        ∀ args : Args, args.transferId = some t.hexId → args.receiverPrivate = receiverPrivate →
          args.senderVerify = P.ed25519Public signingKey →
          args.now - t.saved.createdAt ≤ freshnessWindowS → -clockSkewS ≤ args.now - t.saved.createdAt →
          ∃ w', receive P (shelf d'.store) args { toDisk := disk', broker := [] } = (.ok 0, w') ∧
            w'.out = some file := by
  have step : Preserves (fun a b => ∃ path args r, UploadStep P a path args r b ∧
      SendsFile file (P.x25519Public receiverPrivate) signingKey args)
      (SentInv P file (P.x25519Public receiverPrivate)) := by
    rintro a b inv ⟨path, args, r, run, sends⟩
    exact inv.step sends run
  have inv := step.run (SentInv.start P file _) sent
  obtain ⟨t, works, source, receiver, _, complete⟩ :=
    (inv.deployment.run published (inv.rereads sends)).2 rfl
  have same : t.file = file := Option.some.inj (source.symm.trans sends.source)
  subst same
  have whole := t.whole small
  refine ⟨t, rfl, works, complete.unaltered whole.numbered, ?_⟩
  intro disk disk' ids empty recorded unseen received args asked key verifier fresh past
  have resume : Preserves (Interrupted t) fun disk => Underway t disk ∧ Recorded disk.ledger ids :=
    fun _ _ => Underway.interrupted laws opens whole
  obtain ⟨under, recorded'⟩ := resume.run ⟨⟨[], empty, .inl rfl⟩, recorded⟩ received
  have created : t.loaded.item "created_at" = .ok (.int t.saved.createdAt) := t.loaded_item "created_at" rfl
  have accepted : Accepted t (P.sign signingKey t.manifestBytes) args disk'.ledger := {
    asked := asked
    receiver := by rw [receiver, sends.receiver, key]
    verifies := by
      rw [verifier]
      exact signs _ _
    timely := ⟨⟨t.saved.createdAt, by rw [created]; rfl, fresh, past⟩, recorded'.unseen unseen⟩ }
  rw [sends.signs] at complete
  exact delivers_of_recoverable laws (complete.serves whole.numbered) opens whole
    (w := { toDisk := disk', broker := [] }) rfl accepted recorded' (under.recoverable whole)

/-- Two mebibytes. The first send run is cut off behind its first chunk and the second returns 0;
    the first receive run stores one chunk and does not get the other. -/
theorem send_then_receive_twoMebibytes :
    ∃ (d d' : Deployment) (e : Raised) (one two : SendArgs) (t : Transfer (transparent fun _ _ => true))
        (disk : Disk) (w : World (List Outcome)),
      UploadStep (transparent fun _ _ => true) Deployment.start "source" one (.error e) d ∧
      UploadStep (transparent fun _ _ => true) d "source" two (.ok 0) d' ∧
      Interrupted t { out := none, part := none, progress := none, ledger := none } disk ∧
      Names disk.progress t.hexId [0] ∧
      receive (transparent fun _ _ => true) (shelf d'.store) (transparentReceiver t.hexId)
        { toDisk := disk, broker := [] } = (.ok 0, w) ∧
      w.out = some twoMebibytes := by
  let one := twoChunks ⟨List.replicate 16 0, rfl⟩
  let two := twoChunks ⟨List.replicate 16 1, rfl⟩
  obtain ⟨t, saved, receiver, file, named, total⟩ :=
    twoChunks_transfer (fun _ _ => true) ⟨List.replicate 16 0, rfl⟩
  obtain ⟨d, d', e, first, second, _, created, _⟩ := upload_twice one two t t "source"
    (by rw [file]; rfl) (by rw [file]; rfl) (by rw [saved, file]) rfl receiver receiver
    named (by decide) rfl (by omega) (by omega)
  have small : twoMebibytes.length < 2 ^ 53 := by
    rw [twoMebibytes_length]
    decide
  have sends : SendsFile twoMebibytes ⟨List.replicate 32 9, rfl⟩ [] one := ⟨rfl, rfl, rfl⟩
  have sends' : SendsFile twoMebibytes ⟨List.replicate 32 9, rfl⟩ [] two := ⟨rfl, rfl, rfl⟩
  obtain ⟨u, file', works, _, served⟩ := send_then_receive (transparent_agreement _) (transparent_opens _)
    transparent_signsFor small ⟨List.replicate 32 9, rfl⟩ [] (.single ⟨_, _, _, first, sends⟩) sends' second
  have start : u.saved.createdAt = 0 := by
    rcases works with resumed | new
    · have known := resumed.created
      rw [created, List.mem_singleton] at known
      rw [known, saved]
      rfl
    · rw [new]
      rfl
  -- one run gets the first of the two chunks
  obtain ⟨whole, store, complete⟩ := transparent_stored (t := u) (by rw [file']; exact small)
  have accepted := transparent_accepted_by (t := u) start rfl Recorded.missing List.not_mem_nil
  have inside : 1 < u.total := by
    rw [twoMebibytes_total file']
    omega
  have nothing : loadProgress none u.hexId = .ok (indexList []) := rfl
  obtain ⟨w₁, cut, _, ledger, _, names⟩ := receive_withheld (transparent_agreement _) (transparent_opens _) whole
    (complete.serves whole.numbered) inside
    (w := { out := none, part := none, progress := none, ledger := none, broker := [] }) rfl accepted nothing
  have interrupted : Interrupted u { out := none, part := none, progress := none, ledger := none } w₁.toDisk :=
    ⟨_, _, _, _, _, w₁, (complete.unaltered whole.numbered).withhold _, accepted.toFor, cut, rfl⟩
  have window : (0 : Int) - 0 ≤ freshnessWindowS ∧ -clockSkewS ≤ (0 : Int) - 0 := by decide
  obtain ⟨w, run, promoted⟩ := served _ w₁.toDisk [] nothing Recorded.missing List.not_mem_nil
    (.single interrupted) (transparentReceiver u.hexId) rfl rfl rfl
    (by rw [start]; exact window.1) (by rw [start]; exact window.2)
  exact ⟨d, d', e, one, two, u, w₁.toDisk, w, first, second, interrupted, names Nat.one_pos, run, promoted⟩

end SecureTransfer.ApproachB
