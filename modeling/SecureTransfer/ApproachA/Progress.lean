import SecureTransfer.ApproachA.Schedules

/-! # What is reached

Every run of sessions is a run of rounds and kills, promotes nothing but the source, and can
go on, from wherever it is, to promote the source.
-/

namespace SecureTransfer.ApproachA

open Library

namespace Receiver

variable {sha256 : Sha256} {disk : Disk} {file heard eaten : Bytes} {r r' : Receiver}

/-- What a receiver that hears the sender's stream has at `.part` while it works. -/
theorem Stands.grows (file_fits : file.length < 2 ^ 64) (stands : r.Stands disk eaten)
    (starts : eaten <+: streamed sha256 file disk.partSize) : Grows file disk r.seen.part := by
  have received : ∀ {total accepted chunks} {whole : Bytes}, r.seen.part = some whole →
      whole = content (disk.part.getD []) accepted chunks → Chunks chunks → total < 2 ^ 64 → accepted < 2 ^ 64 →
      header total accepted ++ body chunks <+: eaten → Grows file disk r.seen.part := by
    intro total accepted chunks whole part view chunks_sent total_fits accepted_fits begins
    rw [part, view]
    exact grows_content file_fits total_fits accepted_fits chunks_sent (begins.trans starts) (List.prefix_append _ _)
      List.prefix_rfl
  cases stands with
  | claiming point part | negotiating point part | accepting point part =>
      rw [seen_closed part]
      exact .untouched
  | opening point prior_eq part =>
      rcases part with ⟨absent, _⟩ | ⟨present, _⟩
      · rw [seen, absent]
        exact .removed
      · rw [seen_closed present]
        exact .untouched
  | streaming point part view onDisk growing chunks_sent total_fits accepted_fits =>
      exact received (congrArg (Option.map _) part) view chunks_sent total_fits accepted_fits List.prefix_rfl
  | trailing point part view onDisk growing chunks_sent total_fits accepted_fits =>
      exact received (congrArg (Option.map _) part) view chunks_sent total_fits accepted_fits (List.prefix_append _ _)
  | verifying point part view trailer_length chunks_sent total_fits accepted_fits =>
      refine received (congrArg (Option.map _) part) view chunks_sent total_fits accepted_fits ?_
      exact (List.prefix_append _ _).trans (List.prefix_append _ _)

/-- While it works a receiver waits for bytes or makes a step. -/
theorem Stands.waits (stands : r.Stands disk eaten) (waits : r.step sha256 = none) (message : String) :
    ∃ r' result, r.drop message = some r' ∧ r'.point = .ended result := by
  cases stands with
  | negotiating point | streaming point | trailing point =>
      rw [drop, point]
      exact ⟨_, _, rfl, rfl⟩
  | claiming point | accepting point | verifying point =>
      rw [step, point] at waits
      dsimp only at waits
      repeat' split at waits
      all_goals cases waits
  | opening point =>
      rw [step, point] at waits
      cases waits

end Receiver

/-! ## The session goes on -/

namespace Session

variable {sha256 : Sha256} {file : Bytes} {first disk : Disk} {s s' : Session}

/-- What happens while the connection holds: the processes work, a receiver hangs up when the sender
    is gone and nothing is left to hear, and the next session starts when the receiver has ended. -/
inductive Proceeds (sha256 : Sha256) (file : Bytes) (s : Session) : Session → Prop where
  | work {s' : Session} (work : Work sha256 file s s') : Proceeds sha256 file s s'
  | hangUp {result : Option (Except Failure Int)} {message : String} {r : Receiver}
      (gone : s.sender.point = .ended result) (heard : s.down = s.sender.sock.sent.length)
      (waits : s.receiver.step sha256 = none) (dropped : s.receiver.drop message = some r) :
      Proceeds sha256 file s { s with receiver := r }
  | again {result : Option (Except Failure Int)} (ended : s.receiver.point = .ended result)
      (receiverPace senderPace : List Nat) : Proceeds sha256 file s (start s.receiver.seen receiverPace senderPace)

theorem Proceeds.step (h : Proceeds sha256 file s s') : Step sha256 file s s' := by
  cases h with
  | work work => exact .work work
  | hangUp gone heard waits dropped => exact .dropReceiver dropped
  | again ended receiverPace senderPace => exact .again ended receiverPace senderPace

theorem Proceeds.works (run : Relation.ReflTransGen (Work sha256 file) s s') :
    Relation.ReflTransGen (Proceeds sha256 file) s s' := run.lift id fun _ _ => .work

theorem Proceeds.steps (run : Relation.ReflTransGen (Proceeds sha256 file) s s') :
    Relation.ReflTransGen (Step sha256 file) s s' := run.lift id fun _ _ => Proceeds.step

/-- **A session runs to its end.** A file is accepted, or `.part` is removed. -/
theorem Kept.finishes (file_fits : file.length < 2 ^ 64) (fits : disk.partSize < 2 ^ 64)
    (kept : s.Kept sha256 file disk) (receives : s.receiver.Running) (sends : s.sender.Running) :
    ∃ s', Relation.ReflTransGen (Work sha256 file) s s' ∧ (s'.receiver.point = .ended (some (.ok 0)) ∨
      s'.receiver.point = .ended (some (.ok 1)) ∧ s'.receiver.part = none ∧ ¬ disk.Verifies sha256 file) := by
  have undisturbed : s.Undisturbed sha256 file disk :=
    ⟨kept, fun result ended => absurd ended (sends result), fun result ended => absurd ended (receives result)⟩
  obtain ⟨s', run, stuck⟩ := exhausted (kept.accessible file_fits fits)
  have undisturbed' := undisturbed.works file_fits fits run
  obtain ⟨result, ended⟩ := undisturbed'.receiver_ends stuck file_fits fits
  obtain ⟨_, ⟨rfl, _⟩ | ⟨rfl, removed, misfit⟩⟩ := undisturbed'.receiver _ ended
  · exact ⟨s', run, .inl ended⟩
  · exact ⟨s', run, .inr ⟨ended, removed, misfit⟩⟩

/-- A sender that has ended stays as it is. -/
theorem sender_gone {result : Option (Except Failure Int)} (gone : s.sender.point = .ended result)
    (run : Relation.ReflTransGen (Work sha256 file) s s') : s'.sender = s.sender := by
  induction run with
  | refl => rfl
  | tail _ work ih =>
      rw [← ih] at gone ⊢
      cases work with
      | receiver | carryDown => rfl
      | sender moved =>
          rw [Sender.step, gone] at moved
          cases moved
      | carryUp n sent running => exact absurd gone (running _)

/-- Whatever has become of the sender, the receiver comes to its end. -/
theorem Kept.ends (file_fits : file.length < 2 ^ 64) (fits : disk.partSize < 2 ^ 64) (kept : s.Kept sha256 file disk) :
    ∃ s' result, Relation.ReflTransGen (Proceeds sha256 file) s s' ∧ s'.receiver.point = .ended result := by
  by_cases receives : s.receiver.Running
  · by_cases sends : s.sender.Running
    · obtain ⟨s', run, point⟩ := kept.finishes file_fits fits receives sends
      rcases point with accepted | ⟨rejected, _⟩
      · exact ⟨s', _, Proceeds.works run, accepted⟩
      · exact ⟨s', _, Proceeds.works run, rejected⟩
    · -- the sender is gone: the receiver reads what was sent and then waits for more
      obtain ⟨result, gone⟩ := not_forall_not.mp sends
      obtain ⟨s', run, stuck⟩ := exhausted (kept.accessible file_fits fits)
      have kept' := kept.works file_fits fits run
      have gone' : s'.sender.point = .ended result := by
        rw [sender_gone gone run]
        exact gone
      cases kept'.receiver with
      | ended point => exact ⟨s', _, Proceeds.works run, point⟩
      | working stands =>
          have waits := stuck_receiver stuck fits kept'
          have heard := stuck_down stuck kept' stands.running
          obtain ⟨r, result', dropped, point⟩ := stands.waits waits "connection lost"
          exact ⟨_, result', (Proceeds.works run).tail (.hangUp gone' heard waits dropped), point⟩
  · obtain ⟨result, ended⟩ := not_forall_not.mp receives
    exact ⟨s, result, .refl, ended⟩

/-- A session from its start. -/
theorem restarts (sha256 : Sha256) (file_fits : file.length < 2 ^ 64) (fits : disk.partSize < 2 ^ 64) :
    ∃ s', Relation.ReflTransGen (Proceeds sha256 file) (start disk [] []) s' ∧
      (s'.receiver.point = .ended (some (.ok 0)) ∨
        s'.receiver.point = .ended (some (.ok 1)) ∧ s'.receiver.part = none ∧ ¬ disk.Verifies sha256 file) := by
  obtain ⟨s', run, point⟩ := (kept_start sha256 file disk [] []).finishes file_fits fits
    (fun _ => ReceiverPoint.noConfusion) (fun _ => SenderPoint.noConfusion)
  exact ⟨s', Proceeds.works run, point⟩

theorem restarts_empty (sha256 : Sha256) (file_fits : file.length < 2 ^ 64) (empty : disk.part = none) :
    ∃ s', Relation.ReflTransGen (Proceeds sha256 file) (start disk [] []) s' ∧
      s'.receiver.point = .ended (some (.ok 0)) := by
  have size : disk.partSize = 0 := by
    rw [Disk.partSize, empty]
    rfl
  have fits : disk.partSize < 2 ^ 64 := by
    rw [size]
    decide
  have whole : disk.completed file = file := by
    rw [Disk.completed, size, empty, show resumeOffset file 0 = 0 from if_pos (Nat.zero_le _)]
    exact congrArg (· ++ file) (ite_self [])
  obtain ⟨s', run, accepted | ⟨_, _, misfit⟩⟩ := restarts sha256 file_fits fits
  · exact ⟨s', run, accepted⟩
  · exact absurd ⟨congrArg List.length whole, congrArg sha256.digest whole⟩ misfit

/-- **Something is accepted at last.** At most three sessions are needed: the one under way, one that is
    rejected, and one on an empty `.part`. -/
theorem can_accept (file_fits : file.length < 2 ^ 64) (first_fits : first.partSize < 2 ^ 64)
    {receiverPace senderPace : List Nat}
    (run : Relation.ReflTransGen (Step sha256 file) (start first receiverPace senderPace) s) :
    ∃ s', Relation.ReflTransGen (Proceeds sha256 file) s s' ∧ s'.receiver.point = .ended (some (.ok 0)) := by
  obtain ⟨disk, sessions, kept⟩ := reached file_fits first_fits run
  have fits := (Resumes.sessions file_fits first_fits sessions).fits file_fits first_fits
  obtain ⟨s₁, result, run₁, ended⟩ := kept.ends file_fits fits
  obtain ⟨disk₁, sessions₁, kept₁⟩ := reached file_fits first_fits (run.trans (Proceeds.steps run₁))
  have resumes := Resumes.sessions file_fits first_fits sessions₁
  have passes := kept₁.passes file_fits (resumes.fits file_fits first_fits) ended
  have fits₁ := (passes.resumes file_fits first_fits resumes).fits file_fits first_fits
  obtain ⟨s₂, run₂, accepted | ⟨rejected, empty, _⟩⟩ := restarts sha256 file_fits fits₁
  · exact ⟨s₂, run₁.trans (.head (.again ended [] []) run₂), accepted⟩
  · have removed : s₂.receiver.seen.part = none := by
      rw [Receiver.seen, empty]
      rfl
    obtain ⟨s₃, run₃, accepted⟩ := restarts_empty sha256 file_fits removed
    exact ⟨s₃, (run₁.trans (.head (.again ended [] []) run₂)).trans (.head (.again rejected [] []) run₃), accepted⟩

/-! ## Every reachable state -/

/-- A working receiver has promoted nothing, and its `.part` only grows. -/
theorem Kept.growing (file_fits : file.length < 2 ^ 64) (kept : s.Kept sha256 file disk)
    (running : s.receiver.Running) :
    Grows file disk s.receiver.seen.part ∧ s.receiver.out = disk.out ∧ s.receiver.promoted = disk.promoted := by
  have starts := kept.starts
  cases kept.receiver with
  | ended point => exact absurd point (running _)
  | working stands arrived _ out promoted =>
      rw [arrived] at starts
      exact ⟨stands.grows file_fits ((List.prefix_append _ _).trans starts), out, promoted⟩

/-- What the receiver accepts is the source. -/
theorem Kept.delivers (file_fits : file.length < 2 ^ 64) (first_fits : first.partSize < 2 ^ 64)
    (collision_free : Set.InjOn sha256.digest {file, first.part.getD [] ++ file.drop first.partSize})
    (kept : s.Kept sha256 file disk) (resumes : Resumes file first disk.part)
    (accepted : s.receiver.point = .ended (some (.ok 0))) : s.receiver.out = some file := by
  have fits := resumes.fits file_fits first_fits
  obtain ⟨link, result, files⟩ := kept.ends_round file_fits fits accepted
  rcases round_cases sha256 file_fits fits link with ⟨_, _, _, failed⟩ | ⟨same, _, promoted⟩
  · exact absurd result failed
  · rw [promoted, resumes.verified collision_free same] at files
    exact congrArg Disk.out files.symm

/-- **Processes refine rounds.** However the steps of sender and receiver, the bytes between them, cuts,
    kills and new sessions follow each other, the files were passed on by whole rounds and by what kills
    leave of one. While the receiver works they are the files that its session began at, but that `.part`
    grows by bytes of the source; when it returns, the session was a round with its result. -/
theorem sessions_are_rounds (file_fits : file.length < 2 ^ 64) (first_fits : first.partSize < 2 ^ 64)
    {receiverPace senderPace : List Nat}
    (run : Relation.ReflTransGen (Step sha256 file) (start first receiverPace senderPace) s) :
    ∃ before, Relation.ReflTransGen (Passes sha256 file) first before ∧
      (s.receiver.Running → Grows file before s.receiver.seen.part ∧ s.receiver.out = before.out ∧
        s.receiver.promoted = before.promoted) ∧
      (∀ result, s.receiver.point = .ended result → Passes sha256 file before s.receiver.seen) ∧
      ∀ result, s.receiver.point = .ended (some result) →
        ∃ link, (round sha256 file link before).1.toOption = result.toOption ∧
          (round sha256 file link before).2.disk = s.receiver.seen := by
  obtain ⟨before, sessions, kept⟩ := reached file_fits first_fits run
  have fits := (Resumes.sessions file_fits first_fits sessions).fits file_fits first_fits
  exact ⟨before, sessions, kept.growing file_fits, fun _ => kept.passes file_fits fits,
    fun _ => kept.ends_round file_fits fits⟩

/-- A session of one byte, up to where the chunk lies in the write buffer. -/
theorem chunk_arrives :
    ∃ s : Session, Relation.ReflTransGen (Work .keepFirst [7]) (start ⟨none, none, []⟩ [] []) s ∧
      s.receiver.point = .streaming 1 1 [7] ∧ s.receiver.part = some ⟨[], [(0, [7])]⟩ := by
  -- the claim reaches the sender
  have fits : (⟨none, none, []⟩ : Disk).partSize < 2 ^ 64 := by decide
  let asked := frame (bigEndian 8 0)
  have size : asked.length = 16 := by rw [frame_length, bigEndian_length]
  let r₁ : Receiver := ⟨.negotiating 0, ⟨[], [], asked⟩, none, none, []⟩
  let p₁ : Sender := ⟨.waiting, ⟨asked, [], []⟩⟩
  have step₁ : Work .keepFirst [7] (start ⟨none, none, []⟩ [] []) ⟨r₁, .start [], 0, 0⟩ :=
    .receiver (Receiver.step_claiming fits rfl rfl)
  have step₂ : Work .keepFirst [7] ⟨r₁, .start [], 0, 0⟩ ⟨r₁, p₁, 16, 0⟩ := by
    have carried : Work .keepFirst [7] ⟨r₁, .start [], 0, 0⟩ _ :=
      .carryUp 16 size.ge fun _ => SenderPoint.noConfusion
    rw [show (r₁.sock.sent.drop 0).take 16 = asked from List.take_of_length_le size.le] at carried
    exact carried
  -- the sender answers and sends its only chunk
  have asks : p₁.sock.incoming = frame (bigEndian 8 0) ++ [] := (List.append_nil _).symm
  obtain ⟨sock, read, _, kept⟩ := recvFrame_complete (claim_sendable 0) asks
  have step₃ : Work .keepFirst [7] ⟨r₁, p₁, 16, 0⟩ ⟨r₁, ⟨.answering 0, sock⟩, 16, 0⟩ := by
    refine .sender ?_
    simp only [Sender.step, p₁] at read ⊢
    simp only [read, unpackQ_claim (show 0 < 2 ^ 64 by decide)]
  let p₂ : Sender := ⟨.sending [7] [], { sock with sent := header 1 0 }⟩
  have step₄ : Work .keepFirst [7] ⟨r₁, ⟨.answering 0, sock⟩, 16, 0⟩ ⟨r₁, p₂, 16, 0⟩ := by
    refine .sender ((Sender.step_answering (by decide) 0 sock).trans ?_)
    rw [kept]
    rfl
  let sent := header 1 0 ++ frame [7]
  let p₃ : Sender := ⟨.sending [] [7], { sock with sent }⟩
  have step₅ : Work .keepFirst [7] ⟨r₁, p₂, 16, 0⟩ ⟨r₁, p₃, 16, 0⟩ :=
    .sender (Sender.step_sending (by decide) [] _)
  -- the receiver opens `.part` and writes the chunk
  let r₂ : Receiver := { r₁ with sock := ⟨sent, [], asked⟩ }
  have step₆ : Work .keepFirst [7] ⟨r₁, p₃, 16, 0⟩ ⟨r₂, p₃, 16, sent.length⟩ := by
    have carried : Work .keepFirst [7] ⟨r₁, p₃, 16, 0⟩ _ :=
      .carryDown sent.length (Nat.zero_add _).le fun _ => ReceiverPoint.noConfusion
    rw [show (p₃.sock.sent.drop 0).take sent.length = sent from List.take_of_length_le (le_refl _),
      Nat.zero_add] at carried
    exact carried
  have answered : r₂.sock.incoming = header 1 0 ++ frame [7] := rfl
  obtain ⟨first, header_read, left, _⟩ := recvFrame_complete (header_sendable 1 0) answered
  have streamed : first.incoming = frame [7] ++ [] := left.trans (List.append_nil _).symm
  obtain ⟨second, chunk_read, _⟩ := recvFrame_complete (show Sendable [7] by rw [Sendable]; decide) streamed
  let r₃ : Receiver := { r₂ with sock := first, point := .accepting 0 1 0 }
  let r₄ : Receiver := { r₂ with sock := first, point := .opening 1 0 [] }
  let r₅ : Receiver := { r₂ with sock := first, part := some ⟨[], []⟩, point := .streaming 1 0 [] }
  let r₆ : Receiver := { r₂ with sock := second, part := some ⟨[], [(0, [7])]⟩, point := .streaming 1 1 [7] }
  have step₇ : r₂.step .keepFirst = some r₃ := by
    simp only [Receiver.step, r₂, r₁] at header_read ⊢
    simp only [header_read, unpackHeader_header (show 1 < 2 ^ 64 by decide) (show 0 < 2 ^ 64 by decide)]
    rfl
  have step₁₀ : r₅.step .keepFirst = some r₆ := by
    simp only [Receiver.step, r₅]
    simp only [chunk_read]
    rfl
  have work : ∀ {r r' : Receiver}, r.step .keepFirst = some r' →
      Work .keepFirst [7] ⟨r, p₃, 16, sent.length⟩ ⟨r', p₃, 16, sent.length⟩ := fun moved => .receiver moved
  have step₈ : r₃.step .keepFirst = some r₄ := rfl
  have step₉ : r₄.step .keepFirst = some r₅ := rfl
  have asked_first := ((Relation.ReflTransGen.single step₁).tail step₂).tail step₃
  have answers := ((asked_first.tail step₄).tail step₅).tail step₆
  have opens := ((answers.tail (work step₇)).tail (work step₈)).tail (work step₉)
  exact ⟨⟨r₆, p₃, 16, sent.length⟩, opens.tail (work step₁₀), rfl, rfl⟩

/-- The first session is cut behind the chunk, the second killed, and a later one delivers the byte. -/
theorem sessions_are_rounds_oneByte :
    ∃ s₁ s₂ s : Session, Relation.ReflTransGen (Step .keepFirst [7]) (start ⟨none, none, []⟩ [] []) s₁ ∧
      s₁.receiver.point = .ended (some (.ok 1)) ∧ s₁.receiver.seen.part = some [7] ∧
      Relation.ReflTransGen (Step .keepFirst [7]) s₁ s₂ ∧ s₂.receiver.point = .ended none ∧
      Relation.ReflTransGen (Step .keepFirst [7]) s₂ s ∧ s.receiver.point = .ended (some (.ok 0)) ∧
      ∃ before, Relation.ReflTransGen (Passes .keepFirst [7]) ⟨none, none, []⟩ before ∧
        ∃ link, (round .keepFirst [7] link before).2.disk = s.receiver.seen := by
  obtain ⟨t, run, point, part⟩ := chunk_arrives
  let cut : Receiver := { t.receiver with part := some ⟨[7], []⟩, point := .ended (some (.ok 1)) }
  have dropped : t.receiver.drop "reset" = some cut := by
    rw [Receiver.drop, point, part]
    rfl
  let s₁ : Session := { t with receiver := cut }
  have run₁ : Relation.ReflTransGen (Step .keepFirst [7]) (start ⟨none, none, []⟩ [] []) s₁ :=
    (run.lift id fun _ _ => .work).tail (.dropReceiver dropped)
  have again : Step .keepFirst [7] s₁ (start s₁.receiver.seen [] []) := .again rfl [] []
  have killed : Step .keepFirst [7] (start s₁.receiver.seen [] []) _ :=
    .killReceiver (fun _ => ReceiverPoint.noConfusion) (.torn rfl (BufferedFile.survives_disk ..))
  have run₂ := (Relation.ReflTransGen.single again).tail killed
  obtain ⟨s, proceeds, accepted⟩ := can_accept (by decide) (by decide) (run₁.trans run₂)
  have rest := Proceeds.steps proceeds
  obtain ⟨before, sessions, _, _, rounds⟩ :=
    sessions_are_rounds (by decide) (by decide) ((run₁.trans run₂).trans rest)
  obtain ⟨link, _, files⟩ := rounds _ accepted
  exact ⟨s₁, _, s, run₁, rfl, rfl, run₂, rfl, rest, accepted, before, sessions, link, files⟩

/-- **Only the source is delivered.** In every reachable state all that was promoted is the source, `.part`
    is a beginning of it or what it was at first with more of the source behind it, and a receiver that
    returned 0 left the source at `--out`. -/
theorem only_source_delivered (file_fits : file.length < 2 ^ 64) (first_fits : first.partSize < 2 ^ 64)
    (collision_free : Set.InjOn sha256.digest {file, first.part.getD [] ++ file.drop first.partSize})
    {receiverPace senderPace : List Nat}
    (run : Relation.ReflTransGen (Step sha256 file) (start first receiverPace senderPace) s) :
    OnlySource file first s.receiver.seen ∧ Resumes file first s.receiver.seen.part ∧
      (s.receiver.point = .ended (some (.ok 0)) → s.receiver.out = some file) := by
  obtain ⟨before, sessions, kept⟩ := reached file_fits first_fits run
  have resumes := Resumes.sessions file_fits first_fits sessions
  have only := OnlySource.sessions file_fits first_fits collision_free sessions
  have fits := resumes.fits file_fits first_fits
  have delivers := kept.delivers file_fits first_fits collision_free resumes
  by_cases running : s.receiver.Running
  · obtain ⟨grows, out, promoted⟩ := kept.growing file_fits running
    obtain ⟨n, promoted_before, out_before⟩ := only
    exact ⟨⟨n, promoted.trans promoted_before, out.trans out_before⟩, resumes.grows grows, delivers⟩
  · obtain ⟨result, ended⟩ := not_forall_not.mp running
    have passes := kept.passes file_fits fits ended
    exact ⟨passes.onlySource file_fits first_fits collision_free resumes only,
      passes.resumes file_fits first_fits resumes, delivers⟩

/-- One byte over a wrong `.part`. -/
theorem only_source_delivered_wrongByte :
    ∃ s : Session, s.receiver.point = .ended (some (.ok 0)) ∧ s.receiver.out = some [1, 2] ∧
      ∃ n, s.receiver.promoted = List.replicate n [1, 2] := by
  have starts : Relation.ReflTransGen (Step .keepFirst [1, 2]) (start ⟨some [3], none, []⟩ [] [])
      (start ⟨some [3], none, []⟩ [] []) := .refl
  obtain ⟨s, proceeds, accepted⟩ := can_accept (by decide) (by decide) starts
  have run := Proceeds.steps proceeds
  have different : Sha256.keepFirst.digest [1, 2] ≠ Sha256.keepFirst.digest [3, 2] := by decide
  have collision_free : Set.InjOn Sha256.keepFirst.digest {[1, 2], [3, 2]} := by
    rintro a (rfl | rfl) b (rfl | rfl) same
    · rfl
    · exact absurd same different
    · exact absurd same.symm different
    · rfl
  obtain ⟨⟨n, promoted, _⟩, _, delivered⟩ := only_source_delivered (by decide) (by decide) collision_free run
  exact ⟨s, accepted, delivered accepted, n, promoted⟩

/-- **A transfer can always finish.** Whatever was cut or killed before, while the connection holds the
    processes come from every reachable state to one in which the receiver has returned 0 and the source
    is at `--out`. -/
theorem transfer_can_finish (file_fits : file.length < 2 ^ 64) (first_fits : first.partSize < 2 ^ 64)
    (collision_free : Set.InjOn sha256.digest {file, first.part.getD [] ++ file.drop first.partSize})
    {receiverPace senderPace : List Nat}
    (run : Relation.ReflTransGen (Step sha256 file) (start first receiverPace senderPace) s) :
    ∃ s', Relation.ReflTransGen (Proceeds sha256 file) s s' ∧ s'.receiver.point = .ended (some (.ok 0)) ∧
      s'.receiver.out = some file := by
  obtain ⟨s', proceeds, accepted⟩ := can_accept file_fits first_fits run
  obtain ⟨before, sessions, kept⟩ := reached file_fits first_fits (run.trans (Proceeds.steps proceeds))
  have resumes := Resumes.sessions file_fits first_fits sessions
  exact ⟨s', proceeds, accepted, kept.delivers file_fits first_fits collision_free resumes accepted⟩

/-- A receiver that was killed before it had sent its claim. -/
theorem transfer_can_finish_killed :
    ∃ s s' : Session, s.receiver.point = .ended none ∧ Relation.ReflTransGen (Proceeds .keepFirst [7]) s s' ∧
      s'.receiver.out = some [7] := by
  have killed : Step .keepFirst [7] (start ⟨none, none, []⟩ [] []) _ :=
    .killReceiver (fun _ => ReceiverPoint.noConfusion) (.absent rfl)
  have collision_free : Set.InjOn Sha256.keepFirst.digest {[7], [7]} := by
    rintro a (rfl | rfl) b (rfl | rfl) _
    all_goals rfl
  obtain ⟨s', proceeds, _, delivered⟩ := transfer_can_finish (by decide) (by decide) collision_free (.single killed)
  exact ⟨_, s', rfl, proceeds, delivered⟩

end Session

end SecureTransfer.ApproachA
