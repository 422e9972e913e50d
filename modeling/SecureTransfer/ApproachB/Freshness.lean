import SecureTransfer.ApproachB.Restart
import SecureTransfer.ApproachB.FailClosed

/-! # The age of what a send publishes

Runs on one source file and the clock they read. The state file carries the time of the
run that created it into the manifest of the run that ends the transfer, and a receiver
measures the age of the manifest from there.
-/

namespace SecureTransfer.ApproachB

open Library

/-! ## Runs and the clock -/

/-- The state file of a source, the time that has passed, and as a history variable when
    the state in the file was created. -/
structure Timeline where
  file : Option Bytes
  clock : Int
  born : Int

/-- When the state that a run goes on with was created. -/
def workedOn (args : SendArgs) (before : Timeline) : Int :=
  ((creates before.file args).map Saved.createdAt).getD before.born

/-- The same once the run ended at `stage`. -/
def bornAfter (args : SendArgs) (before : Timeline) : SendStage → Int
  | .starting => before.born
  | .writing _ | .working | .finished => workedOn args before

/-- A run reads the clock and ends, or is killed, some time after. -/
def RunsOnce (P : Primitives) (before after : Timeline) : Prop :=
  ∃ args run, before.clock ≤ args.now ∧ args.now ≤ after.clock ∧
    StateRun.Reaches P args (.start before.file) run ∧ after.file = run.file ∧
    after.born = bornAfter args before run.stage

variable {P : Primitives} {args : SendArgs}

/-- The rejections of the freshness window. -/
def Rejection.ForAge : Rejection → Prop
  | .stale _ | .future => True
  | _ => False

def RejectedForAge (r : Except Raised Int) : Prop :=
  ∃ reason : Rejection, reason.ForAge ∧ r = .error (.verificationError reason)

/-! ## What the state file carries -/

/-- The state file at each stage of a run that found `file`. -/
def StateRun.Carries (P : Primitives) (args : SendArgs) (file : Option Bytes) (run : StateRun) : Prop :=
  match run.stage with
  | .starting => run.file = file
  | .writing todo => ∃ new written, creates file args = some new ∧ run.file = some written ∧
      Saved.bytes P new = written ++ todo
  | .working => (creates file args = none ∧ run.file = file) ∨
      ∃ new, creates file args = some new ∧ run.file = some (Saved.bytes P new)
  | .finished => run.file = none

theorem StateRun.Moves.carries {file : Option Bytes} {run run' : StateRun} (moves : Moves P args run run')
    (carries : run.Carries P args file) : run'.Carries P args file := by
  cases moves with
  | resume reads known loads =>
      have same := carries
      simp only [Carries] at same
      subst same
      exact .inl ⟨known, rfl⟩
  | create reads new loads =>
      have same := carries
      simp only [Carries] at same
      subst same
      exact ⟨_, [], new, rfl, rfl⟩
  | write written todo n =>
      obtain ⟨new, _, created, same, bytes⟩ := carries
      cases same
      exact ⟨new, _, created, rfl, by rw [bytes, List.append_assoc, List.take_append_drop]⟩
  | close left =>
      obtain ⟨new, written, created, same, bytes⟩ := carries
      rw [List.append_nil] at bytes
      exact .inr ⟨new, created, by rw [bytes]; exact same⟩
  | remove left => rfl

theorem StateRun.Reaches.carries {file : Option Bytes} {run : StateRun}
    (reached : Reaches P args (start file) run) : run.Carries P args file := by
  have steps : Preserves (Moves P args) (Carries P args file) := fun _ _ carries moves => moves.carries carries
  have first : (start file).Carries P args file := rfl
  exact steps.run first reached

/-- No state, one that was created when the timeline says, or a part of one. -/
inductive Timeline.Dated (P : Primitives) (line : Timeline) : Prop where
  | nothing (file : line.file = none)
  | whole (saved : Saved) (file : line.file = some (saved.bytes P)) (created : saved.createdAt = line.born)
      (past : line.born ≤ line.clock)
  | torn (saved : Saved) (part rest : Bytes) (split : saved.bytes P = part ++ rest) (short : rest ≠ [])
      (file : line.file = some part)

theorem workedOn_creates {before : Timeline} {new : Saved} (created : creates before.file args = some new) :
    workedOn args before = new.createdAt ∧ new.createdAt = args.now := by
  obtain ⟨fileSize, rfl⟩ := creates_fresh created
  exact ⟨by rw [workedOn, created]; rfl, rfl⟩

theorem workedOn_resumes {before : Timeline} (known : creates before.file args = none) :
    workedOn args before = before.born := by
  rw [workedOn, known]
  rfl

theorem Timeline.Dated.step {before after : Timeline} (dated : before.Dated P)
    (step : RunsOnce P before after) : after.Dated P := by
  obtain ⟨args, run, start, ends, reached, file, born⟩ := step
  have carries := reached.carries
  -- a file that stays, and a state that was created in this run
  have stays (same : run.file = before.file) (kept : after.born = before.born) : after.Dated P := by
    rw [same] at file
    cases dated with
    | nothing nofile => exact .nothing (file.trans nofile)
    | whole saved found created past =>
        exact .whole saved (file.trans found) (created.trans kept.symm) (by omega)
    | torn saved part rest split short found => exact .torn saved part rest split short (file.trans found)
  have created {new : Saved} (made : creates before.file args = some new)
      (found : run.file = some (new.bytes P)) (here : after.born = workedOn args before) : after.Dated P := by
    obtain ⟨same, now⟩ := workedOn_creates made
    exact .whole new (file.trans found) (by rw [here, same]) (by omega)
  obtain ⟨left, stage⟩ := run
  cases stage with
  | starting => exact stays carries born
  | writing todo =>
      obtain ⟨new, written, made, found, bytes⟩ := carries
      by_cases whole : todo = []
      · rw [whole, List.append_nil] at bytes
        exact created made (by rw [bytes]; exact found) born
      · exact .torn new written todo bytes whole (file.trans found)
  | working =>
      rcases carries with ⟨known, same⟩ | ⟨new, made, found⟩
      · exact stays same (born.trans (workedOn_resumes known))
      · exact created made found born
  | finished => exact .nothing (file.trans carries)

theorem Timeline.Dated.run {first line : Timeline} (fresh : first.file = none)
    (history : Relation.ReflTransGen (RunsOnce P) first line) : line.Dated P := by
  have steps : Preserves (RunsOnce P) (Timeline.Dated P) := fun _ _ dated step => dated.step step
  exact steps.run (.nothing fresh) history

/-! ## Where a run looks at the age -/

/-- Anything else that ends a run. -/
def Raised.NotForAge (raised : Raised) : Prop := ∀ reason, raised = .verificationError reason → ¬ reason.ForAge

theorem rejection_notForAge {reason : Rejection} (other : ¬ reason.ForAge) :
    (Raised.verificationError reason).NotForAge := by
  rintro _ ⟨⟩
  exact other

theorem python_notForAge {σ α : Type} (r : Except PyError α) :
    Prog.Raises Raised.NotForAge (python r : Prog σ Raised α) :=
  python_raises fun _ _ => nofun

section Receiver

variable {β : Type} {broker : Broker β} {receiver : Args}

theorem planTransfer_notForAge (transferIdHex : String) (transferId : Bytes) (manifest : Json) :
    Prog.Raises Raised.NotForAge (planTransfer P receiver transferIdHex transferId manifest :
      Prog (World β) Raised Plan) := by
  refine (python_notForAge _).bind fun records => ?_
  split
  · exact .raise (rejection_notForAge id)
  · exact (python_notForAge _).bind fun key => .pure _

theorem fetchChunk_notForAge (plan : Plan) (index : Nat) :
    Prog.Raises Raised.NotForAge (fetchChunk P broker plan index) := by
  unfold fetchChunk
  split
  · exact python_notForAge _
  · refine (onBroker_raises (fun _ => nofun) _).bind fun ct => ?_
    split
    · exact .raise (rejection_notForAge id)
    · refine (python_notForAge _).bind fun expected => (verify_raises (rejection_notForAge id)).bind fun _ =>
        (python_notForAge _).bind fun nonce => (python_notForAge _).bind fun aad => ?_
      split
      · exact .raise (rejection_notForAge id)
      · exact (python_notForAge _).bind fun length =>
          (verify_raises (rejection_notForAge id)).bind fun _ => .pure _

theorem resume_notForAge (transferIdHex : String) :
    Prog.Raises Raised.NotForAge (resume transferIdHex : Prog (World β) Raised (List Json)) := by
  intro w raised failed
  rw [resume_run] at failed
  split at failed
  · cases failed
    nofun
  · split at failed
    · cases failed
    · cases failed

theorem saveProgress_notForAge (transferIdHex : String) (done : List Json) :
    Prog.Raises Raised.NotForAge (saveProgress transferIdHex done : Prog (World β) Raised Unit) :=
  (python_notForAge _).bind fun _ => .update _

theorem chunkLoop_notForAge (plan : Plan) (indices : List Nat) (done : List Json) :
    Prog.Raises Raised.NotForAge (chunkLoop P broker plan indices done) := by
  induction indices generalizing done with
  | nil => exact .pure _
  | cons index rest ih =>
      unfold chunkLoop
      refine .ite (ih done) ((fetchChunk_notForAge plan index).bind fun plain => ?_)
      have stored : Prog.Raises Raised.NotForAge (storeChunk plan index plain done :
          Prog (World β) Raised (List Json)) :=
        (Prog.Raises.update _).bind fun _ => (saveProgress_notForAge _ _).bind fun _ => .pure _
      exact stored.bind fun done => ih done

theorem verifyWhole_notForAge (manifest : Json) :
    Prog.Raises Raised.NotForAge (verifyWhole P manifest : Prog (World β) Raised Unit) := by
  refine Prog.Raises.get.bind fun w => ?_
  split
  · exact python_notForAge _
  · exact (python_notForAge _).bind fun _ => (verify_raises (rejection_notForAge id)).bind fun _ =>
      (python_notForAge _).bind fun _ => verify_raises (rejection_notForAge id)

theorem complete_notForAge (transferIdHex : String) (manifest : Json) :
    Prog.Raises Raised.NotForAge (complete transferIdHex manifest : Prog (World β) Raised Int) := by
  have recorded : Prog.Raises Raised.NotForAge (recordCompleted transferIdHex : Prog (World β) Raised Unit) :=
    Prog.Raises.get.bind fun _ => (python_notForAge _).bind fun _ => (Prog.Raises.update _).bind fun _ =>
      (python_notForAge _).bind fun _ => .update _
  exact (Prog.Raises.update _).bind fun _ => (Prog.Raises.update _).bind fun _ => recorded.bind fun _ =>
    (python_notForAge _).bind fun _ => .pure _

/-- A run is rejected for age where it fetches the manifest, or nowhere. -/
theorem receive_forAge {t : Transfer P} (asked : receiver.transferId = some t.hexId) {w : World β}
    {reason : Rejection} (aged : reason.ForAge)
    (rejected : (receive P broker receiver w).1 = .error (.verificationError reason)) :
    ∃ w', fetchVerifiedManifest P broker receiver t.hexId w = (.error (.verificationError reason), w') := by
  -- `rest` raises nothing of the kind
  have never {α : Type} {rest : Prog (World β) Raised α} (calm : Prog.Raises Raised.NotForAge rest)
      {w₁ w' : World β} (failed : rest w₁ = (.error (.verificationError reason), w')) : False :=
    calm w₁ _ (by rw [failed]) reason rfl aged
  cases run : receive P broker receiver w with
  | mk r w' =>
      rw [run] at rejected
      obtain rfl : r = .error (.verificationError reason) := rejected
      rcases receive_cases run with ⟨_, failed, same⟩ | ⟨manifest, plan, w₁, _, failed⟩
      swap
      · exact (never (complete_notForAge _ _) failed).elim
      cases same
      rcases Prog.bind_cases failed with ⟨_, failed, same⟩ | ⟨prepared, w₁, _, failed⟩
      swap
      · refine (never ((resume_notForAge _).bind fun done =>
          (chunkLoop_notForAge _ _ _).bind fun done => ?_) failed).elim
        exact (saveProgress_notForAge _ _).bind fun _ => (verifyWhole_notForAge _).bind fun _ => .pure _
      cases same
      rw [prepare_asked asked] at failed
      rcases Prog.bind_cases failed with ⟨_, fetched, same⟩ | ⟨manifest, w₂, _, failed⟩
      · cases same
        exact ⟨w', fetched⟩
      · exact (never ((planTransfer_notForAge _ _ _).bind fun plan => .pure _) failed).elim

theorem replayDefence_forAge {transferIdHex : String} {age : Int} {w w' : World β} {reason : Rejection}
    (aged : reason.ForAge)
    (run : replayDefence receiver transferIdHex age w = (.error (.verificationError reason), w')) :
    freshnessWindowS < age ∨ age < -clockSkewS := by
  unfold replayDefence at run
  split at run
  · cases run
  rcases verify_bind run with ⟨old, _⟩ | ⟨_, run⟩
  · exact .inl (not_le.mp old)
  rcases verify_bind run with ⟨early, _⟩ | ⟨_, run⟩
  · exact .inr (not_le.mp early)
  have calm : Prog.Raises Raised.NotForAge (do
      let w ← Prog.get
      let seen ← python (loadLedger w.ledger)
      verify (¬ Json.contains (.text transferIdHex) seen) .alreadyCompleted : Prog (World β) Raised Unit) :=
    Prog.Raises.get.bind fun _ => (python_notForAge _).bind fun _ => verify_raises (rejection_notForAge id)
  exact absurd aged (calm w _ (by rw [run]) reason rfl)

/-- A manifest of the right age, from a broker that does not alter it. -/
theorem not_rejectedForAge {t : Transfer P} (asked : receiver.transferId = some t.hexId)
    (unaltered : ∀ b data b', broker.get (manifestKey t.hexId) b = (.ok (some data), b') →
      data = t.manifestBytes)
    (fresh : receiver.now - t.saved.createdAt ≤ freshnessWindowS)
    (past : -clockSkewS ≤ receiver.now - t.saved.createdAt) (w : World β) :
    ¬ RejectedForAge (receive P broker receiver w).1 := by
  rintro ⟨reason, aged, rejected⟩
  obtain ⟨w', fetch⟩ := receive_forAge asked aged rejected
  rcases fetchVerifiedManifest_cases fetch with
    ⟨_, same, ⟨_, rfl⟩ | rfl | rfl⟩ | ⟨manifestBytes, signature, b₁, b₂, manifest, signed, verifies⟩
  · cases same
  · cases same
    exact aged
  · cases same
    exact aged
  obtain rfl := unaltered _ _ _ manifest
  rw [fetchVerifiedManifest_verified manifest signed verifies, Prog.bind_ok (verify_true rfl _ _)] at fetch
  rcases Prog.bind_cases fetch with ⟨_, defence, same⟩ | ⟨_, _, _, ok⟩
  · cases same
    rcases replayDefence_forAge aged defence with old | early
    · omega
    · omega
  · cases ok

theorem receive_stale {t : Transfer P} (asked : receiver.transferId = some t.hexId)
    (guarded : receiver.allowRedeliver = false) {w : World β} {b₁ b₂ : β} {signature : Bytes}
    (manifest : broker.get (manifestKey t.hexId) w.broker = (.ok (some t.manifestBytes), b₁))
    (signed : broker.get (signatureKey t.hexId) b₁ = (.ok (some signature), b₂))
    (verifies : P.verify receiver.senderVerify signature t.manifestBytes = true)
    (old : freshnessWindowS < receiver.now - t.saved.createdAt) :
    (receive P broker receiver w).1 =
      .error (.verificationError (.stale (receiver.now - t.saved.createdAt))) := by
  let age := receiver.now - t.saved.createdAt
  have rejects : verify (age ≤ freshnessWindowS) (.stale age) ({ w with broker := b₂ } : World β) =
      (.error (.verificationError (.stale age)), { w with broker := b₂ }) := by
    rw [verify, Prog.require_run, if_neg (not_le.mpr old)]
  have defence : replayDefence receiver t.hexId age ({ w with broker := b₂ } : World β) =
      (.error (.verificationError (.stale age)), { w with broker := b₂ }) := by
    rw [replayDefence, guarded]
    exact Prog.bind_error rejects _
  have fetch : fetchVerifiedManifest P broker receiver t.hexId w =
      (.error (.verificationError (.stale age)), { w with broker := b₂ }) := by
    rw [fetchVerifiedManifest_verified manifest signed verifies, Prog.bind_ok (verify_true rfl _ _)]
    exact Prog.bind_error defence _
  have prepared : prepare P broker receiver w =
      (.error (.verificationError (.stale age)), { w with broker := b₂ }) := by
    rw [prepare_asked asked]
    exact Prog.bind_error fetch _
  have downloaded : download P broker receiver w =
      (.error (.verificationError (.stale age)), { w with broker := b₂ }) := Prog.bind_error prepared _
  rw [receive, Prog.bind_error downloaded]

end Receiver

/-- The same at a store that serves what a send has published. -/
theorem receive_stored_stale {t : Transfer P} {store : Storage} {signature : Bytes}
    (manifest : store.find t.manifestPath = some t.manifestBytes)
    (signed : store.find t.signaturePath = some signature) (asked : receiver.transferId = some t.hexId)
    (guarded : receiver.allowRedeliver = false)
    (verifies : P.verify receiver.senderVerify signature t.manifestBytes = true)
    (old : freshnessWindowS < receiver.now - t.saved.createdAt) (disk : Disk) :
    (receive P (shelf store) receiver { toDisk := disk, broker := [] }).1 =
      .error (.verificationError (.stale (receiver.now - t.saved.createdAt))) := by
  have first : (shelf store).get (manifestKey t.hexId) [] = (.ok (some t.manifestBytes), []) := by
    rw [shelf_get_served, Storage.get_eq Transfer.safePath_manifest, manifest]
  have second : (shelf store).get (signatureKey t.hexId) [] = (.ok (some signature), []) := by
    rw [shelf_get_served, Storage.get_eq Transfer.safePath_signature, signed]
  exact receive_stale asked guarded first second verifies old

/-! ## The moment a send returns -/

/-- A run that returns 0 found no state or a whole one, and its manifest carries the time. -/
theorem Timeline.Dated.published {line : Timeline} (dated : line.Dated P) (clock : line.clock ≤ args.now)
    {w w' : StoreWorld} (found : w.state = line.file) (run : send P storeBroker args w = (.ok 0, w')) :
    ∃ t : Transfer P, t.saved.createdAt = workedOn args line ∧ workedOn args line ≤ args.now ∧
      w'.signed = w.signed ++ [t.manifestBytes] ∧
      w'.broker.1.find t.manifestPath = some t.manifestBytes ∧
      w'.broker.1.find t.signaturePath = some (P.sign args.signingKey t.manifestBytes) := by
  have persisted : ∃ saved : Option Saved, line.file = saved.map (·.bytes P) ∧
      ∀ s ∈ saved, s.createdAt = line.born ∧ line.born ≤ line.clock := by
    cases dated with
    | nothing file => exact ⟨none, file, nofun⟩
    | whole saved file created past =>
        refine ⟨some saved, file, fun s same => ?_⟩
        cases same
        exact ⟨created, past⟩
    | torn saved part rest split short file =>
        cases source : args.file with
        | none =>
            simp only [send, source] at run
            cases run
        | some source_file =>
            obtain ⟨e, raised⟩ := loadOrCreateState_torn args source_file.length split short (found.trans file)
            simp only [send, source, sendFile] at run
            rw [Prog.bind_error raised] at run
            cases run
  obtain ⟨saved, file, known⟩ := persisted
  obtain ⟨t, source, saves, published⟩ := send_publishes (found.trans file) run
  have dates : t.saved.createdAt = workedOn args line ∧ workedOn args line ≤ args.now := by
    rcases creates_chosen source file with ⟨kept, _, resumed⟩ | ⟨fresh, created⟩
    · obtain ⟨born, past⟩ := known _ (Option.mem_def.mpr kept)
      rw [workedOn_resumes resumed, saves]
      exact ⟨born, by omega⟩
    · obtain ⟨same, now⟩ := workedOn_creates created
      rw [saves, fresh, same]
      exact ⟨rfl, by omega⟩
  exact ⟨t, dates.1, dates.2, published⟩

/-- However its broker ends it, a run of `send` is one of these. -/
theorem send_runsOnce {β : Type} {broker : Broker β} {line : Timeline} {saved : Option Saved}
    (persisted : line.file = saved.map (·.bytes P)) (clock : line.clock ≤ args.now) {w : SenderWorld β}
    (found : w.state = line.file) {time : Int} (ended : args.now ≤ time) :
    ∃ born, RunsOnce P line ⟨(send P broker args w).2.state, time, born⟩ := by
  have whole : w.state = saved.map (·.bytes P) := found.trans persisted
  obtain ⟨run, reached, _, file⟩ : ∃ run, StateRun.Reaches P args (.start w.state) run ∧ ¬ run.Torn ∧
      run.file = (send P broker args w).2.state := send_reaches whole
  rw [found] at reached
  exact ⟨_, args, run, clock, ended, reached, file.symm, rfl⟩

/-- **Deliverable at that moment.** However runs on the source were interrupted and resumed
    before, when a send returns, a receiver does not reject the stored manifest for its age if
    the state it was made from is at most as old as the freshness window, and else it does. -/
theorem sent_deliverable {first line : Timeline} (fresh : first.file = none)
    (history : Relation.ReflTransGen (RunsOnce P) first line) (clock : line.clock ≤ args.now)
    {w w' : StoreWorld} (found : w.state = line.file) (run : send P storeBroker args w = (.ok 0, w'))
    {time : Int} (returned : args.now ≤ time) :
    ∃ transferIdHex manifestBytes, w'.signed = w.signed ++ [manifestBytes] ∧
      w'.broker.1.get (manifestKey transferIdHex) = some manifestBytes ∧
      ∀ receiver : Args, receiver.transferId = some transferIdHex → receiver.now = time →
        receiver.allowRedeliver = false → ∀ (disk : Disk) (script : List Outcome),
        (time - workedOn args line ≤ freshnessWindowS →
          ¬ RejectedForAge (receive P (shelf w'.broker.1) receiver { toDisk := disk, broker := script }).1) ∧
        (freshnessWindowS < time - workedOn args line → P.SignsFor →
          receiver.senderVerify = P.ed25519Public args.signingKey → script = [] →
          (receive P (shelf w'.broker.1) receiver { toDisk := disk, broker := script }).1 =
            .error (.verificationError (.stale (time - workedOn args line)))) := by
  have dated := Timeline.Dated.run fresh history
  obtain ⟨t, created, past, signs_it, manifest, signature⟩ := dated.published clock found run
  have stored : w'.broker.1.get (manifestKey t.hexId) = some t.manifestBytes :=
    (Storage.get_eq Transfer.safePath_manifest).trans manifest
  refine ⟨t.hexId, t.manifestBytes, signs_it, stored, ?_⟩
  rintro receiver asked rfl guarded disk script
  rw [← created] at past ⊢
  constructor
  · intro young
    have skew : -clockSkewS ≤ receiver.now - t.saved.createdAt := by
      have small : (0 : Int) ≤ clockSkewS := by decide
      omega
    refine not_rejectedForAge asked (fun script data script' reply => ?_) young skew _
    have same := shelf_get reply
    rw [stored] at same
    exact Option.some.inj same
  · rintro old signs key rfl
    have verifies : P.verify receiver.senderVerify (P.sign args.signingKey t.manifestBytes) t.manifestBytes =
        true := by
      rw [key]
      exact signs _ _
    exact receive_stored_stale manifest signature asked guarded verifies old disk

/-! ## A send that is taken up later -/

/-- One byte, read again after `gap` seconds. -/
def takenUp (gap : Int) : SendArgs := { oneByte 1 ⟨List.replicate 16 0, rfl⟩ with now := gap }

/-- The run at 0 is killed during its uploads; the one after `gap` seconds returns. -/
theorem takenUp_returns (gap : Int) (later : 0 ≤ gap) : ∃ w w' : StoreWorld,
    RunsOnce (transparent fun _ _ => true) ⟨none, 0, 0⟩ ⟨w.state, gap, 0⟩ ∧
      send (transparent fun _ _ => true) storeBroker (takenUp gap) w = (.ok 0, w') ∧
      workedOn (takenUp gap) ⟨w.state, gap, 0⟩ = 0 := by
  let P := transparent fun _ _ => true
  let saved : Saved := chosen none (takenUp 0) [(1 : UInt8)].length
  let w : StoreWorld := ⟨(Storage.empty, []), some (saved.bytes P), [], []⟩
  have nothing : (none : Option Bytes) = (none : Option Saved).map (·.bytes P) := rfl
  have persisted : w.state = (some saved).map (·.bytes P) := rfl
  have reads : (takenUp gap).file = some [1] := rfl
  have first : (takenUp 0).file = some [1] := rfl
  have working : StateRun.Reaches P (takenUp 0) (.start none) ⟨w.state, .working⟩ :=
    reaches_working first nothing
  have few : totalChunks [(1 : UInt8)].length < 2 ^ 64 := by decide
  have restarts : Restarts P (takenUp gap) [1] w.state := restarts_persisted reads persisted
  obtain ⟨w', returns⟩ := restarts.returns (transparent_agreement _) (takenUp gap).receiverPub rfl few w rfl rfl
  have resumed : creates w.state (takenUp gap) = none := by
    have known : resumes w.state [(1 : UInt8)].length = true := (resumes_bytes P saved _).mpr rfl
    simp only [creates, reads, known, if_true]
  refine ⟨w, w', ⟨takenUp 0, _, le_refl _, later, working, rfl, rfl⟩, returns, workedOn_resumes resumed⟩

/-- Taken up after an hour. -/
theorem sent_deliverable_hour : ∃ (w' : StoreWorld) (transferIdHex : String),
    (∃ manifestBytes, w'.broker.1.get (manifestKey transferIdHex) = some manifestBytes) ∧
    ∀ receiver : Args, receiver.transferId = some transferIdHex → receiver.now = 3600 →
      receiver.allowRedeliver = false → ∀ disk script,
      ¬ RejectedForAge (receive (transparent fun _ _ => true) (shelf w'.broker.1) receiver
        { toDisk := disk, broker := script }).1 := by
  obtain ⟨w, w', interrupted, returned, created⟩ := takenUp_returns 3600 (by decide)
  obtain ⟨transferIdHex, manifestBytes, _, stored, delivers⟩ := sent_deliverable rfl (.single interrupted)
    (le_refl (3600 : Int)) rfl returned (le_refl (3600 : Int))
  refine ⟨w', transferIdHex, ⟨manifestBytes, stored⟩, fun receiver asked now guarded disk script => ?_⟩
  apply (delivers receiver asked now guarded disk script).1
  rw [created]
  decide

/-- Taken up after 25 hours: the run returns 0, and the manifest is rejected as a replay. -/
theorem sent_stale : ¬ ∀ (P : Primitives) (first line : Timeline) (args : SendArgs) (w w' : StoreWorld)
      (time : Int),
    P.Agreement → P.SignsFor → first.file = none → Relation.ReflTransGen (RunsOnce P) first line →
    line.clock ≤ args.now → w.state = line.file → send P storeBroker args w = (.ok 0, w') → args.now ≤ time →
    ∀ transferIdHex manifestBytes, w'.signed = w.signed ++ [manifestBytes] →
      w'.broker.1.get (manifestKey transferIdHex) = some manifestBytes →
      ∀ (receiver : Args) (disk : Disk) (script : List Outcome), receiver.transferId = some transferIdHex →
        receiver.now = time → receiver.allowRedeliver = false → disk.ledger = none →
        ¬ RejectedForAge (receive P (shelf w'.broker.1) receiver { toDisk := disk, broker := script }).1 := by
  intro claim
  obtain ⟨w, w', interrupted, returned, created⟩ := takenUp_returns 90000 (by decide)
  have history := Relation.ReflTransGen.single interrupted
  obtain ⟨t, date, _, signs_it, manifest, signature⟩ :=
    (Timeline.Dated.run rfl history).published (le_refl (90000 : Int)) rfl returned
  have stored := (Storage.get_eq Transfer.safePath_manifest).trans manifest
  let receiver : Args := { transparentReceiver t.hexId with now := 90000 }
  have verifies : (transparent fun _ _ => true).verify receiver.senderVerify
      ((transparent fun _ _ => true).sign (takenUp 90000).signingKey t.manifestBytes) t.manifestBytes = true :=
    transparent_signsFor _ _
  have old : freshnessWindowS < receiver.now - t.saved.createdAt := by
    rw [date, created]
    exact (by decide : freshnessWindowS < (90000 : Int) - 0)
  refine claim _ _ _ _ w w' 90000 (transparent_agreement _) transparent_signsFor rfl history
    (le_refl (90000 : Int)) rfl returned (le_refl (90000 : Int)) t.hexId t.manifestBytes signs_it stored receiver
    ⟨none, none, none, none⟩ [] rfl rfl rfl rfl ⟨.stale (receiver.now - t.saved.createdAt), trivial, ?_⟩
  exact receive_stored_stale manifest signature rfl rfl verifies old _

end SecureTransfer.ApproachB
