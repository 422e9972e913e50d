import SecureTransfer.ApproachA.Crashes

/-! # Every schedule

A session in which nothing is cut or killed ends, whatever the order of its steps, and its end is
decided by the files it began at.
-/

namespace SecureTransfer.ApproachA

open Library

/-- Parts of the sender's stream, read up to the trailer. -/
theorem streamed_rest {sha256 : Sha256} {file : Bytes} (file_fits : file.length < 2 ^ 64)
    {claimed total accepted : Nat} {chunks : List Bytes} {rest : Bytes} (total_fits : total < 2 ^ 64)
    (accepted_fits : accepted < 2 ^ 64) (chunks_sent : Chunks chunks)
    (split : streamed sha256 file claimed = header total accepted ++ body chunks ++ rest) :
    total = file.length ∧ accepted = resumeOffset file claimed ∧
      ∃ more, Chunks more ∧ pieces chunkSize (file.drop accepted) = chunks ++ more ∧
        rest = body more ++ (frame [] ++ sha256.digest file) := by
  have whole := streamed_complete sha256 file_fits claimed
  obtain ⟨rfl, more, sent⟩ := streamed_starts file_fits total_fits accepted_fits chunks_sent ⟨rest, split.symm⟩
  have cut := split
  rw [streamed] at cut
  simp only [List.append_assoc] at cut
  obtain ⟨size, _, later⟩ := header_append_inj whole.total_fits accepted_fits total_fits accepted_fits cut
  refine ⟨size.symm, rfl, more, ?_, sent, ?_⟩
  · intro chunk member
    apply whole.chunks_sent chunk
    rw [sent]
    exact List.mem_append_right _ member
  · rw [sent, body, List.map_append, List.flatten_append, List.append_assoc] at later
    exact (List.append_cancel_left later).symm

/-- Behind the end mark of the sender's stream there is the digest. -/
theorem streamed_trailer {sha256 : Sha256} {file : Bytes} (file_fits : file.length < 2 ^ 64)
    {claimed total accepted : Nat} {chunks : List Bytes} {rest : Bytes} (total_fits : total < 2 ^ 64)
    (accepted_fits : accepted < 2 ^ 64) (chunks_sent : Chunks chunks)
    (split : streamed sha256 file claimed = header total accepted ++ body chunks ++ frame [] ++ rest) :
    total = file.length ∧ accepted = resumeOffset file claimed ∧ pieces chunkSize (file.drop accepted) = chunks ∧
      rest = sha256.digest file := by
  rw [List.append_assoc _ (frame [])] at split
  obtain ⟨size, offset, more, more_sent, cut, later⟩ :=
    streamed_rest file_fits total_fits accepted_fits chunks_sent split
  cases more with
  | nil => exact ⟨size, offset, cut.trans (List.append_nil _), List.append_cancel_left later⟩
  | cons chunk more =>
      rw [body_cons, List.append_assoc] at later
      exact absurd (frame_append_inj sendable_nil more_sent.head.2 later).1.symm more_sent.head.1

/-- What an uncut session puts together passes for the source. -/
def Disk.Verifies (sha256 : Sha256) (file : Bytes) (disk : Disk) : Prop :=
  (disk.completed file).length = file.length ∧ sha256.digest (disk.completed file) = sha256.digest file

/-- How far it is to the loop, or to the end. -/
def ReceiverPoint.distance : ReceiverPoint → Nat
  | .claiming => 5
  | .negotiating .. => 4
  | .accepting .. => 3
  | .opening .. => 2
  | .streaming .. | .trailing .. | .verifying .. => 1
  | .ended .. => 0

/-- How many steps a sender may have before it. -/
def SenderPoint.distance (file : Bytes) : SenderPoint → Nat
  | .waiting => file.length + 5
  | .answering _ => file.length + 4
  | .sending rest _ => rest.length + 3
  | .marking _ => 2
  | .trailing _ => 1
  | .ended _ => 0

namespace Receiver

variable {sha256 : Sha256} {disk : Disk} {file heard eaten : Bytes} {r r' : Receiver}

/-- With the whole stream there, a receiver that works need not wait. -/
theorem Stands.goes_on (file_fits : file.length < 2 ^ 64) (fits : disk.partSize < 2 ^ 64) (stands : r.Stands disk eaten)
    (whole : streamed sha256 file disk.partSize = eaten ++ r.sock.incoming) :
    ∃ r', r.step sha256 = some r' := by
  cases stands with
  | claiming point part => exact ⟨_, step_claiming fits point part⟩
  | negotiating point part =>
      have complete := streamed_complete sha256 file_fits disk.partSize
      obtain ⟨rest, split⟩ := complete.starts
      rw [List.nil_append] at whole
      rw [whole, List.append_assoc, List.append_assoc, List.append_assoc] at split
      obtain ⟨sock, read, _⟩ := recvFrame_complete (header_sendable _ _) split.symm
      have unpacked := unpackHeader_header complete.total_fits complete.accepted_fits
      refine ⟨{ r with
        sock
        point := .accepting disk.partSize file.length (resumeOffset file disk.partSize) }, ?_⟩
      rw [step, point]
      simp only [read, unpacked]
  | accepting point part => exact ⟨_, step_accepting point part⟩
  | @opening total accepted prior point =>
      refine ⟨{ r with
        part := if prior.length ≠ 0 then r.part else some ⟨[], []⟩
        point := .streaming total prior.length prior }, ?_⟩
      rw [step, point]
  | @streaming total accepted chunks opened point part view onDisk growing chunks_sent total_fits accepted_fits =>
      obtain ⟨_, _, more, more_sent, _, rest⟩ := streamed_rest file_fits total_fits accepted_fits chunks_sent whole
      cases more with
      | nil =>
          rw [body_nil, List.nil_append] at rest
          obtain ⟨sock, read, _⟩ := recvFrame_complete sendable_nil rest
          refine ⟨{ r with sock, point := .trailing total (opened.view 0).length (opened.view 0) }, ?_⟩
          rw [step, point]
          simp only [read]
      | cons chunk later =>
          rw [body_cons, List.append_assoc] at rest
          obtain ⟨sock, read, _⟩ := recvFrame_complete more_sent.head.2 rest
          cases chunk with
          | nil => exact absurd rfl more_sent.head.1
          | cons byte chunk =>
              refine ⟨{ r with
                sock
                part := r.part.map (·.write (opened.view 0).length (byte :: chunk))
                point := .streaming total ((opened.view 0).length + (byte :: chunk).length)
                  (opened.view 0 ++ byte :: chunk) }, ?_⟩
              rw [step, point]
              simp only [read]
  | @trailing total accepted chunks opened point part view onDisk growing chunks_sent total_fits accepted_fits =>
      obtain ⟨_, _, _, last⟩ := streamed_trailer file_fits total_fits accepted_fits chunks_sent whole
      have size := congrArg List.length last
      rw [sha256.digest_length] at size
      obtain ⟨sock, read, _⟩ := recvExact_complete sha256Len r.sock size.ge
      refine ⟨{ r with
        sock
        part := r.part.map (·.flush 0)
        point := .verifying total (opened.view 0).length (opened.view 0) (r.sock.incoming.take sha256Len) }, ?_⟩
      rw [step, point]
      simp only [read]
  | verifying point =>
      rw [step, point]
      dsimp only
      split
      all_goals exact ⟨_, rfl⟩

/-- A receiver with the whole stream there can verify. -/
theorem Kept.verifies (file_fits : file.length < 2 ^ 64)
    (kept : r.Kept sha256 disk (streamed sha256 file disk.partSize)) {total received : Nat} {h expectedDigest : Bytes}
    (point : r.point = .verifying total received h expectedDigest) :
    ∃ r', r.step sha256 = some r' ∧ (r'.point = .ended (some (.ok 0)) ∧ disk.Verifies sha256 file ∨
      r'.point = .ended (some (.ok 1)) ∧ r'.part = none ∧ ¬ disk.Verifies sha256 file) := by
  cases kept with
  | ended ended =>
      rw [point] at ended
      cases ended
  | working stands arrived =>
    cases stands with
    | claiming other | negotiating other | accepting other | opening other | streaming other | trailing other =>
        rw [point] at other
        cases other
    | @verifying total' accepted chunks _ trailer point' part view size chunks_sent total_fits accepted_fits =>
        rw [point] at point'
        cases point'
        -- behind the last chunk only the trailer is left
        rw [List.append_assoc] at arrived
        obtain ⟨rfl, rfl, cut, rest⟩ := streamed_trailer file_fits total_fits accepted_fits chunks_sent arrived
        have last := rest.trans (List.append_nil _).symm
        obtain ⟨rfl, _⟩ := List.append_inj last (size.trans (sha256.digest_length file).symm)
        have read : h = disk.completed file := by
          rw [view, content, ← cut, pieces_flatten chunkSize_pos]
          rfl
        rw [Receiver.step, point, read]
        dsimp only
        split
        · rename_i verified
          exact ⟨_, rfl, .inl ⟨rfl, verified⟩⟩
        · rename_i misfit
          exact ⟨_, rfl, .inr ⟨rfl, rfl, misfit⟩⟩

/-- What is there to read and how far it is to the loop. -/
def weight (r : Receiver) : Nat := r.sock.incoming.length + r.point.distance

theorem Kept.lighter (fits : disk.partSize < 2 ^ 64) (kept : r.Kept sha256 disk heard)
    (moved : r.step sha256 = some r') : r'.weight < r.weight := by
  cases kept with
  | ended point =>
      rw [Receiver.step, point] at moved
      cases moved
  | working stands =>
    cases stands with
    | claiming point part =>
        rw [step_claiming fits point part] at moved
        cases moved
        rw [weight, weight, point]
        exact Nat.lt_succ_self _
    | accepting point part =>
        rw [step_accepting point part] at moved
        cases moved
        rw [weight, weight, point]
        exact Nat.lt_succ_self _
    | opening point =>
        rw [Receiver.step, point] at moved
        cases moved
        rw [weight, weight, point]
        exact Nat.lt_succ_self _
    | negotiating point =>
        rw [Receiver.step, point] at moved
        dsimp only at moved
        split at moved
        · cases moved
        · rename_i payload sock read
          have shorter := recvFrame_shrinks read
          split at moved
          all_goals
            cases moved
            rw [weight, weight, point]
            exact Nat.add_lt_add_of_lt_of_le shorter (by simp [ReceiverPoint.distance])
    | streaming point =>
        rw [Receiver.step, point] at moved
        dsimp only at moved
        split at moved
        · cases moved
        all_goals
          rename_i read
          cases moved
          rw [weight, weight, point]
          exact Nat.add_lt_add_of_lt_of_le (recvFrame_shrinks read) (le_refl 1)
    | trailing point =>
        rw [Receiver.step, point] at moved
        dsimp only at moved
        split at moved
        · cases moved
        · rename_i trailer sock read
          obtain ⟨size, split, _⟩ := recvExact_ok read
          cases moved
          rw [weight, weight, point, split, List.length_append, size]
          show sock.incoming.length + 1 < 32 + sock.incoming.length + 1
          omega
    | verifying point =>
        rw [Receiver.step, point] at moved
        dsimp only at moved
        split at moved
        all_goals
          cases moved
          rw [weight, weight, point]
          exact Nat.lt_succ_self _

theorem hear_weight (data : Bytes) (r : Receiver) : (r.hear data).weight = r.weight + data.length := by
  rw [weight, weight, hear, List.length_append]
  exact Nat.add_right_comm _ _ _

theorem Kept.sent_le (kept : r.Kept sha256 disk heard) : r.sock.sent.length ≤ 16 := by
  have whole : (frame (bigEndian 8 disk.partSize)).length = 16 := by
    rw [frame_length, bigEndian_length]
  cases kept with
  | working stands arrived sent =>
      rw [sent]
      split
      · exact Nat.zero_le _
      · exact whole.le
  | ended point ends sent =>
      rcases sent with sent | sent
      · rw [sent]
        exact Nat.zero_le _
      · rw [sent]
        exact whole.le

/-- A receiver that hears nothing but the sender's stream ends behind it, with its verdict. -/
theorem Kept.concludes (file_fits : file.length < 2 ^ 64) (fits : disk.partSize < 2 ^ 64)
    (kept : r.Kept sha256 disk heard) (starts : heard <+: streamed sha256 file disk.partSize)
    (moved : r.step sha256 = some r') {result : Option (Except Failure Int)} (ended : r'.point = .ended result) :
    heard = streamed sha256 file disk.partSize ∧ (result = some (.ok 0) ∧ disk.Verifies sha256 file ∨
      result = some (.ok 1) ∧ r'.part = none ∧ ¬ disk.Verifies sha256 file) := by
  cases kept with
  | ended point =>
      rw [Receiver.step, point] at moved
      cases moved
  | working stands arrived sent out promoted =>
    cases stands with
    | claiming point part =>
        rw [step_claiming fits point part] at moved
        cases moved
        cases ended
    | negotiating point =>
        -- the header is the sender's
        rw [Receiver.step, point] at moved
        dsimp only at moved
        split at moved
        · cases moved
        rename_i payload sock read
        obtain ⟨sendable, split, _⟩ := recvFrame_ok read
        have complete := streamed_complete sha256 file_fits disk.partSize
        obtain ⟨rest, whole⟩ := starts
        obtain ⟨_, begins⟩ := complete.starts
        rw [← whole, arrived, List.nil_append, split] at begins
        simp only [List.append_assoc] at begins
        obtain ⟨rfl, _⟩ := frame_append_inj (header_sendable _ _) sendable begins
        rw [unpackHeader_header complete.total_fits complete.accepted_fits] at moved
        cases moved
        cases ended
    | accepting point part =>
        rw [step_accepting point part] at moved
        cases moved
        cases ended
    | opening point =>
        rw [Receiver.step, point] at moved
        cases moved
        cases ended
    | streaming point =>
        rw [Receiver.step, point] at moved
        dsimp only at moved
        split at moved
        all_goals
          cases moved
          try cases ended
    | trailing point =>
        rw [Receiver.step, point] at moved
        dsimp only at moved
        split at moved
        all_goals
          cases moved
          try cases ended
    | @verifying total accepted chunks whole trailer point part view size chunks_sent total_fits accepted_fits =>
        have kept : r.Kept sha256 disk heard :=
          .working (.verifying point part view size chunks_sent total_fits accepted_fits) arrived sent out promoted
        obtain ⟨rest, split⟩ := starts
        have cut := split.symm
        rw [arrived, List.append_assoc, List.append_assoc _ trailer] at cut
        obtain ⟨_, _, _, last⟩ := streamed_trailer file_fits total_fits accepted_fits chunks_sent cut
        have lengths := congrArg List.length last
        rw [List.length_append, sha256.digest_length, size, List.length_append] at lengths
        have empty : rest = [] := List.length_eq_zero_iff.mp (by omega)
        rw [empty, List.append_nil] at split
        rw [split] at kept
        refine ⟨split, ?_⟩
        obtain ⟨r'', moved', verdict⟩ := kept.verifies file_fits point
        cases moved.symm.trans moved'
        rw [ended] at verdict
        rcases verdict with ⟨accepted, verified⟩ | ⟨rejected, removed, misfit⟩
        · exact .inl ⟨ReceiverPoint.ended.inj accepted, verified⟩
        · exact .inr ⟨ReceiverPoint.ended.inj rejected, removed, misfit⟩

end Receiver

namespace Sender

variable {sha256 : Sha256} {file heard : Bytes} {claimed : Nat} {p p' : Sender}

theorem nearer (file_fits : file.length < 2 ^ 64) (moved : p.step sha256 file = some p') :
    p'.point.distance file < p.point.distance file := by
  obtain ⟨point, sock⟩ := p
  cases point with
  | ended => cases moved
  | trailing =>
      cases moved
      exact Nat.zero_lt_one
  | marking h =>
      rw [step_marking] at moved
      cases moved
      exact Nat.lt_succ_self 1
  | answering claimedOffset =>
      rw [step_answering file_fits] at moved
      cases moved
      have := List.length_drop (i := resumeOffset file claimedOffset) (l := file)
      simp only [SenderPoint.distance]
      omega
  | sending rest h =>
      by_cases empty : rest = []
      · have last : step sha256 file ⟨.sending rest h, sock⟩ = some ⟨.marking h, sock⟩ := if_pos empty
        rw [last] at moved
        cases moved
        simp only [SenderPoint.distance]
        omega
      · rw [step_sending empty] at moved
        cases moved
        have := List.length_pos_iff.mpr empty
        have := chunkSize_pos
        simp only [SenderPoint.distance, List.length_drop]
        omega
  | waiting =>
      rw [step] at moved
      dsimp only at moved
      split at moved
      · cases moved
      split at moved
      all_goals
        cases moved
        simp only [SenderPoint.distance]
        omega

/-- A step never ends a sender in an error. -/
theorem Kept.concludes (file_fits : file.length < 2 ^ 64) (claimed_fits : claimed < 2 ^ 64)
    (asked : heard <+: frame (bigEndian 8 claimed)) (kept : p.Kept sha256 file claimed heard)
    (moved : p.step sha256 file = some p') {result : Option (Except Failure Int)} (ended : p'.point = .ended result) :
    result = some (.ok 0) := by
  cases kept with
  | waiting point arrived =>
      rw [← arrived] at asked
      rw [(step_waiting claimed_fits point asked moved).1] at ended
      cases ended
  | answering asked' toSend =>
      obtain ⟨next, moved', _, later⟩ := step_toSend file_fits toSend
      cases moved.symm.trans moved'
      rcases later with ⟨left, toSend', _⟩ | ⟨point, _⟩
      · rw [ended] at toSend'
        cases toSend'
      · exact SenderPoint.ended.inj (ended.symm.trans point)
  | ended point =>
      rw [Sender.step, point] at moved
      cases moved

end Sender

namespace Session

variable {sha256 : Sha256} {file : Bytes} {disk : Disk} {s s' : Session}

/-- A step of the processes, or bytes that arrive. -/
def Moves (sha256 : Sha256) (file : Bytes) (s s' : Session) : Prop := Work sha256 file s s' ∧ s' ≠ s

/-! ## Every run ends -/

theorem Kept.works (file_fits : file.length < 2 ^ 64) (fits : disk.partSize < 2 ^ 64) (kept : s.Kept sha256 file disk)
    (run : Relation.ReflTransGen (Work sha256 file) s s') : s'.Kept sha256 file disk := by
  induction run with
  | refl => exact kept
  | tail _ work ih => exact ih.work file_fits fits work

/-- What the processes and the connection have still to do. -/
def weight (sha256 : Sha256) (file : Bytes) (disk : Disk) (s : Session) : Nat :=
  s.receiver.weight + 2 * ((streamed sha256 file disk.partSize).length - s.down) + (16 - s.up) +
    s.sender.point.distance file

theorem Kept.lighter (file_fits : file.length < 2 ^ 64) (fits : disk.partSize < 2 ^ 64) (kept : s.Kept sha256 file disk)
    (moves : Moves sha256 file s s') : s'.weight sha256 file disk < s.weight sha256 file disk := by
  obtain ⟨work, changed⟩ := moves
  rw [weight, weight]
  cases work with
  | receiver moved =>
      have := kept.receiver.lighter fits moved
      dsimp only
      omega
  | sender moved =>
      have := Sender.nearer file_fits moved
      dsimp only
      omega
  | carryUp n sent running =>
      have some_bytes : n ≠ 0 := by
        rintro rfl
        apply changed
        rw [List.take_zero, Sender.hear, List.append_nil]
        rfl
      have := kept.receiver.sent_le
      dsimp only [Sender.hear]
      omega
  | carryDown n sent running =>
      have some_bytes : n ≠ 0 := by
        rintro rfl
        apply changed
        rw [List.take_zero, Receiver.hear, List.append_nil]
        rfl
      have := kept.sender.streams.length_le
      have carried : ((s.sender.sock.sent.drop s.down).take n).length = n := by
        rw [List.length_take, List.length_drop]
        omega
      dsimp only
      rw [Receiver.hear_weight, carried]
      omega

theorem Kept.accessible (file_fits : file.length < 2 ^ 64) (fits : disk.partSize < 2 ^ 64)
    (kept : s.Kept sha256 file disk) : Acc (fun after before => Moves sha256 file before after) s := by
  induction size : s.weight sha256 file disk using Nat.strong_induction_on generalizing s with
  | _ n ih =>
      refine .intro s fun s' moves => ?_
      exact ih _ (size ▸ kept.lighter file_fits fits moves) (kept.work file_fits fits moves.1) rfl

/-- A run that goes on as long as it can. -/
theorem exhausted (acc : Acc (fun after before => Moves sha256 file before after) s) :
    ∃ s', Relation.ReflTransGen (Work sha256 file) s s' ∧ ∀ s'', ¬ Moves sha256 file s' s'' := by
  induction acc with
  | intro s _ ih =>
      by_cases stuck : ∀ s', ¬ Moves sha256 file s s'
      · exact ⟨s, .refl, stuck⟩
      · obtain ⟨next, moves⟩ := not_forall_not.mp stuck
        obtain ⟨last, run, rest⟩ := ih next moves
        exact ⟨last, .head moves.1 run, rest⟩

/-! ## What a run ends in -/

/-- What holds of a session in which nothing was cut or killed. -/
structure Undisturbed (sha256 : Sha256) (file : Bytes) (disk : Disk) (s : Session) : Prop where
  kept : s.Kept sha256 file disk
  sender : ∀ result, s.sender.point = .ended result → result = some (.ok 0)
  receiver : ∀ result, s.receiver.point = .ended result → s.atReceiver = streamed sha256 file disk.partSize ∧
    (result = some (.ok 0) ∧ disk.Verifies sha256 file ∨
      result = some (.ok 1) ∧ s.receiver.part = none ∧ ¬ disk.Verifies sha256 file)

theorem Undisturbed.work (file_fits : file.length < 2 ^ 64) (fits : disk.partSize < 2 ^ 64)
    (h : s.Undisturbed sha256 file disk) (work : Work sha256 file s s') : s'.Undisturbed sha256 file disk := by
  refine ⟨h.kept.work file_fits fits work, ?_, ?_⟩
  · intro result ended
    cases work with
    | receiver moved => exact h.sender result ended
    | sender moved => exact h.kept.sender.concludes file_fits fits h.kept.asked moved ended
    | carryUp n sent running => exact absurd ended (running result)
    | carryDown n sent running => exact h.sender result ended
  · intro result ended
    cases work with
    | receiver moved => exact h.kept.receiver.concludes file_fits fits h.kept.starts moved ended
    | sender moved =>
        obtain ⟨heard, verdict⟩ := h.receiver result ended
        refine ⟨?_, verdict⟩
        obtain ⟨more, sent⟩ := h.kept.sender.step_sent file_fits moved
        rw [← heard, atReceiver, ← sent, List.take_append_of_le_length h.kept.down_le]
        rfl
    | carryUp n sent running => exact h.receiver result ended
    | carryDown n sent running => exact absurd ended (running result)

theorem undisturbed_start (sha256 : Sha256) (file : Bytes) (disk : Disk) (receiverPace senderPace : List Nat) :
    (start disk receiverPace senderPace).Undisturbed sha256 file disk :=
  ⟨kept_start .., fun _ ended => SenderPoint.noConfusion ended, fun _ ended => ReceiverPoint.noConfusion ended⟩

theorem Undisturbed.works (file_fits : file.length < 2 ^ 64) (fits : disk.partSize < 2 ^ 64)
    (h : s.Undisturbed sha256 file disk) (run : Relation.ReflTransGen (Work sha256 file) s s') :
    s'.Undisturbed sha256 file disk := by
  induction run with
  | refl => exact h
  | tail _ work ih => exact ih.work file_fits fits work

section Stuck

variable (stuck : ∀ s', ¬ Moves sha256 file s s')
include stuck

theorem stuck_receiver (fits : disk.partSize < 2 ^ 64) (kept : s.Kept sha256 file disk) :
    s.receiver.step sha256 = none := by
  cases moved : s.receiver.step sha256 with
  | none => rfl
  | some r =>
      refine absurd ⟨.receiver moved, fun same => ?_⟩ (stuck _)
      have lighter := kept.receiver.lighter fits moved
      rw [show r = s.receiver from congrArg Session.receiver same] at lighter
      exact lt_irrefl _ lighter

theorem stuck_sender (file_fits : file.length < 2 ^ 64) : s.sender.step sha256 file = none := by
  cases moved : s.sender.step sha256 file with
  | none => rfl
  | some p =>
      refine absurd ⟨.sender moved, fun same => ?_⟩ (stuck _)
      have nearer := Sender.nearer file_fits moved
      rw [show p = s.sender from congrArg Session.sender same] at nearer
      exact lt_irrefl _ nearer

theorem stuck_up (kept : s.Kept sha256 file disk) (running : s.sender.Running) :
    s.up = s.receiver.sock.sent.length := by
  by_contra less
  have all := Nat.add_sub_cancel' kept.up_le
  refine stuck _ ⟨.carryUp _ all.le running, fun same => less ?_⟩
  exact (congrArg Session.up same).symm.trans all

theorem stuck_down (kept : s.Kept sha256 file disk) (running : s.receiver.Running) :
    s.down = s.sender.sock.sent.length := by
  by_contra less
  have all := Nat.add_sub_cancel' kept.down_le
  refine stuck _ ⟨.carryDown _ all.le running, fun same => less ?_⟩
  exact (congrArg Session.down same).symm.trans all

/-- The sender has sent everything. -/
theorem Undisturbed.sender_ends (file_fits : file.length < 2 ^ 64) (fits : disk.partSize < 2 ^ 64)
    (h : s.Undisturbed sha256 file disk) : s.sender.point = .ended (some (.ok 0)) := by
  cases h.kept.sender with
  | ended point =>
      rw [point, h.sender _ point]
  | answering asked toSend =>
      obtain ⟨p, moved, _⟩ := Sender.step_toSend file_fits toSend
      rw [stuck_sender stuck file_fits] at moved
      cases moved
  | waiting point arrived sent =>
      have running : s.sender.Running := by
        intro result ended
        rw [point] at ended
        cases ended
      -- the claim is sent, so it has arrived, so it can be read
      have asked : s.receiver.sock.sent = frame (bigEndian 8 disk.partSize) := by
        cases h.kept.receiver with
        | ended ended =>
            have heard := (h.receiver _ ended).1
            rw [atReceiver, sent, List.take_nil] at heard
            have size := congrArg List.length heard
            rw [streamed, header, List.append_assoc, List.append_assoc, List.length_append, frame_length,
              List.length_nil] at size
            exact absurd size (by omega)
        | working stands _ asked =>
            cases stands with
            | claiming here part =>
                have moved : s.receiver.step sha256 = _ := Receiver.step_claiming fits here part
                rw [stuck_receiver stuck fits h.kept] at moved
                cases moved
            | negotiating here | accepting here | opening here | streaming here | trailing here | verifying here =>
                rw [here] at asked
                exact asked
      have heard : s.sender.sock.incoming = frame (bigEndian 8 disk.partSize) ++ [] := by
        rw [arrived, atSender, stuck_up stuck h.kept running, List.take_length, asked, List.append_nil]
      obtain ⟨sock, read, _⟩ := recvFrame_complete (claim_sendable _) heard
      have moved : s.sender.step sha256 file = some ⟨.answering disk.partSize, sock⟩ := by
        rw [Sender.step, point]
        simp only [read, unpackQ_claim fits]
      rw [stuck_sender stuck file_fits] at moved
      cases moved

/-- The receiver has heard everything. -/
theorem Undisturbed.receiver_ends (file_fits : file.length < 2 ^ 64) (fits : disk.partSize < 2 ^ 64)
    (h : s.Undisturbed sha256 file disk) : ∃ result, s.receiver.point = .ended result := by
  by_contra running
  have sent : s.sender.sock.sent = streamed sha256 file disk.partSize := by
    have ended := h.sender_ends stuck file_fits fits
    cases h.kept.sender with
    | waiting point =>
        rw [ended] at point
        cases point
    | answering _ toSend =>
        rw [ended] at toSend
        cases toSend
    | ended point _ whole =>
        rw [ended] at point
        exact whole (SenderPoint.ended.inj point).symm
  have heard : s.atReceiver = streamed sha256 file disk.partSize := by
    rw [atReceiver, stuck_down stuck h.kept (not_exists.mp running), List.take_length, sent]
  have kept := h.kept.receiver
  rw [heard] at kept
  cases kept with
  | ended point => exact running ⟨_, point⟩
  | working stands arrived =>
      obtain ⟨r, moved⟩ := stands.goes_on file_fits fits arrived
      rw [stuck_receiver stuck fits h.kept] at moved
      cases moved

end Stuck

/-- **Every schedule ends the same way.** However the steps of the two processes and the bytes between them
    follow each other, a session in which nothing is cut or killed has no infinite run. Where it cannot go
    on, the sender has returned 0, and what the receiver returns and leaves does not depend on the order. -/
theorem every_schedule_ends (sha256 : Sha256) (file_fits : file.length < 2 ^ 64) (fits : disk.partSize < 2 ^ 64)
    {receiverPace senderPace : List Nat}
    (run : Relation.ReflTransGen (Work sha256 file) (start disk receiverPace senderPace) s) :
    Acc (fun after before => Moves sha256 file before after) s ∧
      ((∀ s', ¬ Moves sha256 file s s') → s.sender.point = .ended (some (.ok 0)) ∧
        (s.receiver.point = .ended (some (.ok 0)) ∧ disk.Verifies sha256 file ∧
            s.receiver.seen = ⟨none, some (disk.completed file), disk.promoted ++ [disk.completed file]⟩ ∨
          s.receiver.point = .ended (some (.ok 1)) ∧ ¬ disk.Verifies sha256 file ∧
            s.receiver.seen = ⟨none, disk.out, disk.promoted⟩)) := by
  have h := (undisturbed_start sha256 file disk receiverPace senderPace).works file_fits fits run
  refine ⟨h.kept.accessible file_fits fits, fun stuck => ⟨h.sender_ends stuck file_fits fits, ?_⟩⟩
  obtain ⟨result, ended⟩ := h.receiver_ends stuck file_fits fits
  obtain ⟨_, ⟨rfl, verified⟩ | ⟨rfl, removed, misfit⟩⟩ := h.receiver _ ended
  all_goals
    obtain ⟨link, result, files⟩ := h.kept.ends_round file_fits fits ended
  · rcases round_cases sha256 file_fits fits link with ⟨_, _, _, failed⟩ | ⟨_, _, promoted⟩
    · exact absurd result failed
    · exact .inl ⟨ended, verified, files.symm.trans promoted⟩
  · rcases round_cases sha256 file_fits fits link with ⟨left, _, kept, _⟩ | ⟨_, accepted, _⟩
    · have seen := files.symm.trans kept
      have part : s.receiver.seen.part = none := by
        rw [Receiver.seen, removed]
        rfl
      rw [seen] at part
      cases part
      exact .inr ⟨ended, misfit, seen⟩
    · rw [accepted] at result
      cases result

/-- One byte, in any schedule that goes on as long as it can. -/
theorem every_schedule_ends_oneByte :
    ∃ s, Relation.ReflTransGen (Work .keepFirst [7]) (start ⟨none, none, []⟩ [] []) s ∧
      s.receiver.point = .ended (some (.ok 0)) ∧ s.receiver.out = some [7] := by
  have starts : Relation.ReflTransGen (Work .keepFirst [7]) (start ⟨none, none, []⟩ [] [])
      (start ⟨none, none, []⟩ [] []) := .refl
  obtain ⟨s, run, stuck⟩ := exhausted (every_schedule_ends .keepFirst (by decide) (by decide) starts).1
  have whole : Disk.completed [7] ⟨none, none, []⟩ = [7] := rfl
  rcases ((every_schedule_ends .keepFirst (by decide) (by decide) run).2 stuck).2 with
    ⟨accepted, _, files⟩ | ⟨_, misfit, _⟩
  · rw [whole] at files
    exact ⟨s, run, accepted, congrArg ApproachA.Disk.out files⟩
  · exact absurd ⟨congrArg List.length whole, congrArg _ whole⟩ misfit

end Session

end SecureTransfer.ApproachA
