import SecureTransfer.ApproachA.Sessions

/-! # Cuts and kills

One session after the other on an unchanged source and one output path. Bytes arrive in
any portions or not at all, either process may lose the connection or be killed at any
step, and the next session starts on the files that the last one left.
-/

namespace SecureTransfer.ApproachA

open Library

/-- Two processes, and how much of what each sent has reached the other. -/
structure Session where
  receiver : Receiver
  sender : Sender
  up : Nat
  down : Nat

namespace Session

def start (disk : Disk) (receiverPace senderPace : List Nat) : Session where
  receiver := .start disk receiverPace
  sender := .start senderPace
  up := 0
  down := 0

def atSender (s : Session) : Bytes := s.receiver.sock.sent.take s.up

def atReceiver (s : Session) : Bytes := s.sender.sock.sent.take s.down

/-- A process makes a step, or bytes arrive. -/
inductive Work (sha256 : Sha256) (file : Bytes) (s : Session) : Session → Prop where
  | receiver {r : Receiver} (moved : s.receiver.step sha256 = some r) : Work sha256 file s { s with receiver := r }
  | sender {p : Sender} (moved : s.sender.step sha256 file = some p) : Work sha256 file s { s with sender := p }
  | carryUp (n : Nat) (sent : s.up + n ≤ s.receiver.sock.sent.length) (running : s.sender.Running) :
      Work sha256 file s
        { s with sender := s.sender.hear ((s.receiver.sock.sent.drop s.up).take n), up := s.up + n }
  | carryDown (n : Nat) (sent : s.down + n ≤ s.sender.sock.sent.length) (running : s.receiver.Running) :
      Work sha256 file s
        { s with receiver := s.receiver.hear ((s.sender.sock.sent.drop s.down).take n), down := s.down + n }

/-- All that may happen. A new session waits for the receiver to end. -/
inductive Step (sha256 : Sha256) (file : Bytes) (s : Session) : Session → Prop where
  | work {s' : Session} (work : Work sha256 file s s') : Step sha256 file s s'
  | dropReceiver {message : String} {r : Receiver} (dropped : s.receiver.drop message = some r) :
      Step sha256 file s { s with receiver := r }
  | killReceiver {r : Receiver} (running : s.receiver.Running) (killed : s.receiver.Killed r) :
      Step sha256 file s { s with receiver := r }
  | stopSender {result : Option (Except Failure Int)} (running : s.sender.Running) (failed : result ≠ some (.ok 0)) :
      Step sha256 file s { s with sender := { s.sender with point := .ended result } }
  | again {result : Option (Except Failure Int)} (ended : s.receiver.point = .ended result)
      (receiverPace senderPace : List Nat) : Step sha256 file s (start s.receiver.seen receiverPace senderPace)

/-- What holds of a session that began at `disk`. -/
structure Kept (sha256 : Sha256) (file : Bytes) (disk : Disk) (s : Session) : Prop where
  receiver : s.receiver.Kept sha256 disk s.atReceiver
  sender : s.sender.Kept sha256 file disk.partSize s.atSender
  up_le : s.up ≤ s.receiver.sock.sent.length
  down_le : s.down ≤ s.sender.sock.sent.length

variable {sha256 : Sha256} {file : Bytes} {disk : Disk} {s s' : Session}

theorem kept_start (sha256 : Sha256) (file : Bytes) (disk : Disk) (receiverPace senderPace : List Nat) :
    (start disk receiverPace senderPace).Kept sha256 file disk :=
  ⟨Receiver.kept_start .., Sender.kept_start .., Nat.zero_le _, Nat.zero_le _⟩

/-- The sender hears nothing but the claim. -/
theorem Kept.asked (kept : s.Kept sha256 file disk) : s.atSender <+: frame (bigEndian 8 disk.partSize) := by
  apply (List.take_prefix _ _).trans
  cases kept.receiver with
  | working stands arrived sent =>
      rw [sent]
      split
      · exact List.nil_prefix
      · exact List.prefix_rfl
  | ended point ends sent =>
      rcases sent with sent | sent
      · rw [sent]
        exact List.nil_prefix
      · rw [sent]

theorem Kept.receiverMoved (kept : s.Kept sha256 file disk) {r : Receiver} (moved : r.Kept sha256 disk s.atReceiver)
    (longer : s.receiver.sock.sent <+: r.sock.sent) : { s with receiver := r }.Kept sha256 file disk := by
  obtain ⟨more, sent⟩ := longer
  have same : atSender { s with receiver := r } = s.atSender := by
    change r.sock.sent.take s.up = _
    rw [← sent, List.take_append_of_le_length kept.up_le]
    rfl
  refine ⟨moved, ?_, ?_, kept.down_le⟩
  · rw [same]
    exact kept.sender
  · rw [← sent, List.length_append]
    exact kept.up_le.trans (Nat.le_add_right _ _)

theorem Kept.senderMoved (kept : s.Kept sha256 file disk) {p : Sender}
    (moved : p.Kept sha256 file disk.partSize s.atSender) (longer : s.sender.sock.sent <+: p.sock.sent) :
    { s with sender := p }.Kept sha256 file disk := by
  obtain ⟨more, sent⟩ := longer
  have same : atReceiver { s with sender := p } = s.atReceiver := by
    change p.sock.sent.take s.down = _
    rw [← sent, List.take_append_of_le_length kept.down_le]
    rfl
  refine ⟨?_, moved, kept.up_le, ?_⟩
  · rw [same]
    exact kept.receiver
  · rw [← sent, List.length_append]
    exact kept.down_le.trans (Nat.le_add_right _ _)

theorem Kept.work (file_fits : file.length < 2 ^ 64) (fits : disk.partSize < 2 ^ 64) (kept : s.Kept sha256 file disk)
    (work : Work sha256 file s s') : s'.Kept sha256 file disk := by
  cases work with
  | receiver moved => exact kept.receiverMoved (kept.receiver.step fits moved) (kept.receiver.step_sent moved)
  | sender moved =>
      exact kept.senderMoved (kept.sender.step file_fits fits kept.asked moved) (kept.sender.step_sent file_fits moved)
  | carryUp n sent running =>
      refine ⟨kept.receiver, ?_, sent, kept.down_le⟩
      have heard : s.atSender ++ (s.receiver.sock.sent.drop s.up).take n = s.receiver.sock.sent.take (s.up + n) :=
        List.take_add.symm
      have hears := kept.sender.hear running ((s.receiver.sock.sent.drop s.up).take n)
      rw [heard] at hears
      exact hears
  | carryDown n sent running =>
      refine ⟨?_, kept.sender, kept.up_le, sent⟩
      have heard : s.atReceiver ++ (s.sender.sock.sent.drop s.down).take n = s.sender.sock.sent.take (s.down + n) :=
        List.take_add.symm
      have hears := kept.receiver.hear running ((s.sender.sock.sent.drop s.down).take n)
      rw [heard] at hears
      exact hears

/-- What has reached the receiver is a beginning of what `stream` sends. -/
theorem Kept.starts (kept : s.Kept sha256 file disk) : s.atReceiver <+: streamed sha256 file disk.partSize :=
  (List.take_prefix _ _).trans kept.sender.streams

/-- What the sender has sent is a beginning of what `stream` sends. -/
theorem Kept.answered (file_fits : file.length < 2 ^ 64) (fits : disk.partSize < 2 ^ 64)
    (kept : s.Kept sha256 file disk) (down : Nat) (senderPace receiverPace : List Nat) :
    s.sender.sock.sent <+: answer sha256 file ⟨s.up, down, senderPace, receiverPace⟩ disk := by
  have asked : frame (bigEndian 8 disk.partSize) <+: s.atSender →
      s.sender.sock.sent <+: streamed sha256 file disk.partSize →
      s.sender.sock.sent <+: answer sha256 file ⟨s.up, down, senderPace, receiverPace⟩ disk := by
    intro heard sent
    rw [answer_uncut sha256 file_fits fits]
    · exact sent
    · rw [claim_eq sha256 fits]
      exact heard.length_le.trans (List.length_take_le _ _)
  cases kept.sender with
  | waiting point arrived sent =>
      rw [sent]
      exact List.nil_prefix
  | answering heard toSend sent => exact asked heard ⟨_, sent⟩
  | ended point sent =>
      rcases sent with sent | ⟨heard, sent⟩
      · rw [sent]
        exact List.nil_prefix
      · exact asked heard sent

end Session

/-! ## Rounds and kills -/

/-- What becomes of the files in one session: a round, or what a kill leaves of one. -/
inductive Passes (sha256 : Sha256) (file : Bytes) (before : Disk) : Disk → Prop where
  | round (link : Link) : Passes sha256 file before (round sha256 file link before).2.disk
  | killed (link : Link) {left : Option Bytes}
      (remains : Remains before ((answer sha256 file link before).take link.down) left) :
      Passes sha256 file before { before with part := left }

namespace Session

variable {sha256 : Sha256} {file : Bytes} {disk : Disk} {s s' : Session}

/-- **A session ends as a round.** -/
theorem Kept.ends_round (file_fits : file.length < 2 ^ 64) (fits : disk.partSize < 2 ^ 64)
    (kept : s.Kept sha256 file disk) {result : Except Failure Int} (ended : s.receiver.point = .ended (some result)) :
    ∃ link, (round sha256 file link disk).1.toOption = result.toOption ∧
      (round sha256 file link disk).2.disk = s.receiver.seen := by
  cases kept.receiver.ends ended with
  | @returned _ heard starts part same =>
      refine ⟨⟨s.up, heard.length, [], []⟩, ?_⟩
      have whole := (starts.trans (List.take_prefix _ _)).trans (kept.answered file_fits fits heard.length [] [])
      have ends := same []
      rw [List.prefix_iff_eq_take.mp whole] at ends
      exact ends

/-- Whichever way its receiver ended, the session passes its files on. -/
theorem Kept.passes (file_fits : file.length < 2 ^ 64) (fits : disk.partSize < 2 ^ 64)
    (kept : s.Kept sha256 file disk) {result : Option (Except Failure Int)} (ended : s.receiver.point = .ended result) :
    Passes sha256 file disk s.receiver.seen := by
  cases result with
  | some result =>
      obtain ⟨link, _, files⟩ := kept.ends_round file_fits fits ended
      rw [← files]
      exact .round link
  | none =>
      cases kept.receiver.ends ended with
      | killed remains part out promoted =>
          have whole := kept.answered file_fits fits s.down [] []
          rw [Receiver.seen_closed part, out, promoted]
          refine .killed ⟨s.up, s.down, [], []⟩ (remains.mono ?_)
          exact List.IsPrefix.take whole s.down

end Session

/-! ## The partial file -/

/-- `.part` is a beginning of the source, or still what it was at first with more of the source
    behind it. -/
def Resumes (file : Bytes) (first : Disk) (part : Option Bytes) : Prop :=
  part.getD [] <+: file ∨
    first.part.getD [] <+: part.getD [] ∧ part.getD [] <+: first.part.getD [] ++ file.drop first.partSize

/-- The file that a session puts together that is not cut. -/
def Disk.completed (file : Bytes) (disk : Disk) : Bytes :=
  base (disk.part.getD []) (resumeOffset file disk.partSize) ++ file.drop (resumeOffset file disk.partSize)

section Resumes

variable {sha256 : Sha256} {file : Bytes} {first before after : Disk}

theorem Resumes.refl (file : Bytes) (first : Disk) : Resumes file first first.part :=
  .inr ⟨List.prefix_rfl, List.prefix_append _ _⟩

theorem Resumes.fits (file_fits : file.length < 2 ^ 64) (first_fits : first.partSize < 2 ^ 64)
    (h : Resumes file first before.part) : before.partSize < 2 ^ 64 := by
  rcases h with inside | ⟨_, inside⟩
  · exact lt_of_le_of_lt inside.length_le file_fits
  · have size := inside.length_le
    rw [List.length_append, List.length_drop] at size
    change (before.part.getD []).length < 2 ^ 64
    change (first.part.getD []).length < 2 ^ 64 at first_fits
    change _ ≤ (first.part.getD []).length + (file.length - (first.part.getD []).length) at size
    omega

/-- What the sender resumes behind, and what comes behind it. -/
theorem Resumes.resumed (h : Resumes file first before.part) :
    before.completed file = file ∨
      first.part.getD [] <+: base (before.part.getD []) (resumeOffset file before.partSize) ∧
        before.completed file = first.part.getD [] ++ file.drop first.partSize := by
  rw [Disk.completed]
  by_cases inside : before.partSize ≤ file.length
  · have offset : resumeOffset file before.partSize = before.partSize := if_pos inside
    have kept : base (before.part.getD []) before.partSize = before.part.getD [] := if_pos rfl
    rw [offset, kept]
    rcases h with ⟨rest, whole⟩ | ⟨⟨more, longer⟩, within⟩
    · left
      rw [← whole, Disk.partSize, List.drop_left' rfl]
    · right
      refine ⟨⟨more, longer⟩, ?_⟩
      rw [← longer, List.prefix_append_right_inj] at within
      obtain ⟨rest, split⟩ := within
      have size : before.partSize = first.partSize + more.length := by
        rw [Disk.partSize, ← longer, List.length_append]
        rfl
      rw [size, ← List.drop_drop, ← split, List.drop_left' rfl, ← longer, List.append_assoc]
  · have offset : resumeOffset file before.partSize = 0 := if_neg inside
    have dropped : base (before.part.getD []) 0 = [] := by
      refine if_neg fun zero => inside ?_
      rw [Disk.partSize, ← zero]
      exact Nat.zero_le _
    left
    rw [offset, dropped, List.nil_append, List.drop_zero]

/-- What a session that promotes nothing may leave at `.part`. -/
inductive Grows (file : Bytes) (before : Disk) : Option Bytes → Prop where
  | untouched : Grows file before before.part
  | removed : Grows file before none
  | grown {left : Bytes} (longer : base (before.part.getD []) (resumeOffset file before.partSize) <+: left)
      (inside : left <+: base (before.part.getD []) (resumeOffset file before.partSize) ++
        file.drop (resumeOffset file before.partSize)) : Grows file before (some left)

theorem Resumes.grows (h : Resumes file first before.part) {left : Option Bytes} (grows : Grows file before left) :
    Resumes file first left := by
  cases grows with
  | untouched => exact h
  | removed => exact .inl List.nil_prefix
  | @grown left longer inside =>
      change left <+: before.completed file at inside
      rcases h.resumed with whole | ⟨old, whole⟩
      · rw [whole] at inside
        exact .inl inside
      · rw [whole] at inside
        exact .inr ⟨old.trans longer, inside⟩

/-- What starts like the sender's stream says what the sender says. -/
theorem streamed_starts (file_fits : file.length < 2 ^ 64) {claimed total accepted : Nat} {chunks : List Bytes}
    (total_fits : total < 2 ^ 64) (accepted_fits : accepted < 2 ^ 64) (chunks_sent : Chunks chunks)
    (starts : header total accepted ++ body chunks <+: streamed sha256 file claimed) :
    accepted = resumeOffset file claimed ∧
      ∃ more, pieces chunkSize (file.drop (resumeOffset file claimed)) = chunks ++ more := by
  obtain ⟨rest, split⟩ := starts
  have whole := streamed_complete sha256 file_fits claimed
  rw [streamed] at split
  simp only [List.append_assoc] at split
  obtain ⟨rfl, rfl, later⟩ := header_append_inj total_fits accepted_fits whole.total_fits whole.accepted_fits split
  obtain ⟨more, sent⟩ := body_initial chunks_sent whole.chunks_sent later
  exact ⟨rfl, more, sent.symm⟩

theorem grows_content (file_fits : file.length < 2 ^ 64) {total accepted : Nat} {chunks : List Bytes} {left : Bytes}
    (total_fits : total < 2 ^ 64) (accepted_fits : accepted < 2 ^ 64) (chunks_sent : Chunks chunks)
    (starts : header total accepted ++ body chunks <+: streamed sha256 file before.partSize)
    (longer : base (before.part.getD []) accepted <+: left)
    (inside : left <+: content (before.part.getD []) accepted chunks) : Grows file before (some left) := by
  obtain ⟨rfl, more, sent⟩ := streamed_starts file_fits total_fits accepted_fits chunks_sent starts
  refine .grown longer (inside.trans ?_)
  rw [content, List.prefix_append_right_inj]
  refine ⟨more.flatten, ?_⟩
  rw [← List.flatten_append, ← sent, pieces_flatten chunkSize_pos]

theorem Remains.grows (file_fits : file.length < 2 ^ 64) {heard : Bytes} {left : Option Bytes}
    (remains : Remains before heard left) (starts : heard <+: streamed sha256 file before.partSize) :
    Grows file before left := by
  cases remains with
  | untouched => exact .untouched
  | removed => exact .removed
  | torn total_fits accepted_fits chunks_sent begins longer inside =>
      exact grows_content file_fits total_fits accepted_fits chunks_sent (begins.trans starts) longer inside

theorem answer_streamed (sha256 : Sha256) (file_fits : file.length < 2 ^ 64) (fits : before.partSize < 2 ^ 64)
    (link : Link) : answer sha256 file link before <+: streamed sha256 file before.partSize := by
  by_cases carried : (claim sha256 before).length ≤ link.up
  · rw [answer_uncut sha256 file_fits fits link carried]
  · rw [answer_cut sha256 fits (not_le.mp carried)]
    exact List.nil_prefix

/-- **One round.** It promotes what has the digest of the source, or nothing. -/
theorem round_cases (sha256 : Sha256) (file_fits : file.length < 2 ^ 64) (fits : before.partSize < 2 ^ 64)
    (link : Link) :
    let whole := before.completed file
    let after := round sha256 file link before
    (∃ left, Grows file before left ∧ after.2.disk = { before with part := left } ∧ after.1.toOption ≠ some 0) ∨
      sha256.digest whole = sha256.digest file ∧ after.1 = .ok 0 ∧
        after.2.disk = ⟨none, some whole, before.promoted ++ [whole]⟩ := by
  intro whole after
  let heard := (answer sha256 file link before).take link.down
  let w := before.connect heard link.receiverPace
  have starts : heard <+: streamed sha256 file before.partSize :=
    (List.take_prefix link.down _).trans (answer_streamed sha256 file_fits fits link)
  have lost : ∀ e : Failure, (Except.error e : Except Failure Int).toOption ≠ some 0 := by
    intro e same
    cases same
  have rejected : (Except.ok 1 : Except Failure Int).toOption ≠ some 0 := by decide
  by_cases short : heard.length < (streamed sha256 file before.partSize).length
  · left
    rcases streamed_cut sha256 file_fits _ starts short with headerless | ⟨chunks, truncated, more, next⟩
    · obtain ⟨failure, sock, _, run⟩ := receive_headerless sha256 (w := w) fits headerless
      have ran : after = (.error failure, { w with sock }) := run
      rw [ran]
      exact ⟨before.part, .untouched, rfl, lost failure⟩
    · obtain ⟨sock, _, run⟩ := receive_truncated sha256 (w := w) fits truncated
      have ran : after = (.ok 1, { w with sock, part := some (content (before.part.getD []) _ chunks) }) := run
      rw [ran]
      refine ⟨some (content (before.part.getD []) _ chunks), .grown (List.prefix_append _ _) ?_, rfl, rejected⟩
      rw [content, List.prefix_append_right_inj]
      exact ⟨more, next⟩
  · have complete := streamed_complete sha256 file_fits before.partSize
    rw [← starts.eq_of_length_le (not_lt.mp short)] at complete
    obtain ⟨sock, _, run⟩ := receive_complete sha256 (w := w) fits complete
    have ran : after = if whole.length = file.length ∧ sha256.digest whole = sha256.digest file then
        (.ok 0, ⟨sock, none, some whole, before.promoted ++ [whole]⟩)
      else (.ok 1, ⟨sock, none, before.out, before.promoted⟩) := by
      have content_eq : content (before.part.getD []) (resumeOffset file before.partSize)
          (pieces chunkSize (file.drop (resumeOffset file before.partSize))) = whole := by
        rw [content, pieces_flatten chunkSize_pos]
        rfl
      rw [← content_eq]
      exact run
    rw [ran]
    split
    · rename_i verified
      exact .inr ⟨verified.2, rfl, rfl⟩
    · exact .inl ⟨none, .removed, rfl, rejected⟩

theorem Passes.resumes (file_fits : file.length < 2 ^ 64) (first_fits : first.partSize < 2 ^ 64)
    (passes : Passes sha256 file before after) (h : Resumes file first before.part) :
    Resumes file first after.part := by
  have fits := h.fits file_fits first_fits
  cases passes with
  | round link =>
      rcases round_cases sha256 file_fits fits link with ⟨left, grows, files, _⟩ | ⟨_, _, files⟩
      · rw [files]
        exact h.grows grows
      · rw [files]
        exact .inl List.nil_prefix
  | killed link remains =>
      have starts := (List.take_prefix link.down _).trans (answer_streamed sha256 file_fits fits link)
      exact h.grows (remains.grows file_fits starts)

/-- Sessions one after the other. -/
theorem Resumes.sessions (file_fits : file.length < 2 ^ 64) (first_fits : first.partSize < 2 ^ 64)
    (run : Relation.ReflTransGen (Passes sha256 file) first before) : Resumes file first before.part := by
  induction run with
  | refl => exact .refl file first
  | tail _ passes ih => exact passes.resumes file_fits first_fits ih

/-! ## What is promoted -/

/-- Nothing but the source was promoted since `first`. -/
def OnlySource (file : Bytes) (first disk : Disk) : Prop :=
  ∃ n, disk.promoted = first.promoted ++ List.replicate n file ∧ disk.out = if n = 0 then first.out else some file

theorem OnlySource.refl (file : Bytes) (first : Disk) : OnlySource file first first :=
  ⟨0, (List.append_nil _).symm, rfl⟩

theorem OnlySource.part {left : Option Bytes} (h : OnlySource file first before) :
    OnlySource file first { before with part := left } := h

theorem OnlySource.promote (h : OnlySource file first before) :
    OnlySource file first ⟨none, some file, before.promoted ++ [file]⟩ := by
  obtain ⟨n, promoted, _⟩ := h
  refine ⟨n + 1, ?_, rfl⟩
  rw [promoted, List.append_assoc, List.replicate_succ']

/-- What has the digest of the source is the source. -/
theorem Resumes.verified (h : Resumes file first before.part)
    (collision_free : Set.InjOn sha256.digest {file, first.part.getD [] ++ file.drop first.partSize})
    (same : sha256.digest (before.completed file) = sha256.digest file) : before.completed file = file := by
  rcases h.resumed with whole | ⟨_, whole⟩
  · exact whole
  · rw [whole] at same ⊢
    exact collision_free (by simp) (by simp) same

theorem Passes.onlySource (file_fits : file.length < 2 ^ 64) (first_fits : first.partSize < 2 ^ 64)
    (collision_free : Set.InjOn sha256.digest {file, first.part.getD [] ++ file.drop first.partSize})
    (passes : Passes sha256 file before after) (h : Resumes file first before.part)
    (only : OnlySource file first before) : OnlySource file first after := by
  cases passes with
  | killed link remains => exact only.part
  | round link =>
      rcases round_cases sha256 file_fits (h.fits file_fits first_fits) link with
        ⟨left, _, files, _⟩ | ⟨same, _, files⟩
      · rw [files]
        exact only.part
      · rw [files, h.verified collision_free same]
        exact only.promote

theorem OnlySource.sessions (file_fits : file.length < 2 ^ 64) (first_fits : first.partSize < 2 ^ 64)
    (collision_free : Set.InjOn sha256.digest {file, first.part.getD [] ++ file.drop first.partSize})
    (run : Relation.ReflTransGen (Passes sha256 file) first before) : OnlySource file first before := by
  induction run with
  | refl => exact .refl file first
  | tail earlier passes ih =>
      exact passes.onlySource file_fits first_fits collision_free (.sessions file_fits first_fits earlier) ih

end Resumes

/-! ## Runs -/

namespace Session

variable {sha256 : Sha256} {file : Bytes} {first disk : Disk} {s s' : Session}

theorem Kept.step (file_fits : file.length < 2 ^ 64) (fits : disk.partSize < 2 ^ 64) (kept : s.Kept sha256 file disk)
    (step : Step sha256 file s s') :
    s'.Kept sha256 file disk ∨ Passes sha256 file disk s.receiver.seen ∧ s'.Kept sha256 file s.receiver.seen := by
  cases step with
  | work work => exact .inl (kept.work file_fits fits work)
  | dropReceiver dropped =>
      exact .inl (kept.receiverMoved (kept.receiver.drop fits dropped) (by rw [Receiver.drop_sock dropped]))
  | killReceiver running killed =>
      exact .inl (kept.receiverMoved (kept.receiver.killed running killed) (by rw [killed.sock]))
  | stopSender running failed => exact .inl (kept.senderMoved (kept.sender.stopped running failed) List.prefix_rfl)
  | again ended receiverPace senderPace => exact .inr ⟨kept.passes file_fits fits ended, kept_start ..⟩

/-- In every state there is a disk that the present session began at. -/
theorem reached (file_fits : file.length < 2 ^ 64) (first_fits : first.partSize < 2 ^ 64)
    {receiverPace senderPace : List Nat}
    (run : Relation.ReflTransGen (Step sha256 file) (start first receiverPace senderPace) s) :
    ∃ before, Relation.ReflTransGen (Passes sha256 file) first before ∧ s.Kept sha256 file before := by
  induction run with
  | refl => exact ⟨first, .refl, kept_start ..⟩
  | tail _ step ih =>
      obtain ⟨before, sessions, kept⟩ := ih
      have fits := (Resumes.sessions file_fits first_fits sessions).fits file_fits first_fits
      rcases kept.step file_fits fits step with kept' | ⟨passes, kept'⟩
      · exact ⟨before, sessions, kept'⟩
      · exact ⟨_, sessions.tail passes, kept'⟩

end Session

end SecureTransfer.ApproachA
