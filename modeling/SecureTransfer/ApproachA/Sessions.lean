import SecureTransfer.ApproachA.Processes
import Mathlib.Data.List.Infix
import Mathlib.Logic.Relation

/-! # Sessions

What sender and receiver have sent, read and written at every point of a session, however
their steps and the bytes between them are interleaved.
-/

namespace SecureTransfer.ApproachA

open Library

@[simp] theorem closed_view (part : Option Bytes) : (closed part).map (·.view 0) = part := by
  cases part with
  | none | some file => rfl

theorem claim_sendable (claimed : Nat) : Sendable (bigEndian 8 claimed) := by
  rw [Sendable, bigEndian_length]
  decide

theorem unpackQ_claim {claimed : Nat} (fits : claimed < 2 ^ 64) : unpackQ (bigEndian 8 claimed) = .ok claimed := by
  rw [unpackQ, if_pos (bigEndian_length 8 _), fromBigEndian_packed fits]

theorem truncated_body {total accepted : Nat} {chunks : List Bytes} (total_fits : total < 2 ^ 64)
    (accepted_fits : accepted < 2 ^ 64) (sent : Chunks chunks) {rest : Bytes} (stop : CutOff rest) :
    Truncated (header total accepted ++ body chunks ++ rest) total accepted chunks :=
  ⟨total_fits, accepted_fits, sent, rest, rfl, stop⟩

theorem body_concat (chunks : List Bytes) (chunk : Bytes) : body (chunks ++ [chunk]) = body chunks ++ frame chunk := by
  rw [body, List.map_append, List.flatten_append]
  exact congrArg (body chunks ++ ·) (List.append_nil _)

theorem Chunks.concat {chunks : List Bytes} {chunk : Bytes} (h : Chunks chunks) (some_bytes : chunk ≠ [])
    (fits : Sendable chunk) : Chunks (chunks ++ [chunk]) := by
  intro other member
  rcases List.mem_append.mp member with old | new
  · exact h other old
  · rw [List.mem_singleton.mp new]
    exact ⟨some_bytes, fits⟩

/-! ## The receiver -/

/-- The parts of `.part` that a kill may leave, after these bytes were heard. -/
inductive Remains (disk : Disk) (heard : Bytes) : Option Bytes → Prop where
  | untouched : Remains disk heard disk.part
  | removed : Remains disk heard none
  | torn {total accepted : Nat} {chunks : List Bytes} {left : Bytes} (total_fits : total < 2 ^ 64)
      (accepted_fits : accepted < 2 ^ 64) (chunks_sent : Chunks chunks)
      (starts : header total accepted ++ body chunks <+: heard)
      (longer : base (disk.part.getD []) accepted <+: left)
      (inside : left <+: content (disk.part.getD []) accepted chunks) : Remains disk heard (some left)

theorem Remains.mono {disk : Disk} {heard more : Bytes} {left : Option Bytes} (h : Remains disk heard left)
    (longer : heard <+: more) : Remains disk more left := by
  cases h with
  | untouched => exact .untouched
  | removed => exact .removed
  | torn total_fits accepted_fits chunks_sent starts base inside =>
      exact .torn total_fits accepted_fits chunks_sent (starts.trans longer) base inside

namespace Receiver

variable {sha256 : Sha256} {disk : Disk} {heard eaten : Bytes} {r r' : Receiver}

/-- How a receiver stands in a session that began at `disk`, and what it has read so far. -/
inductive Stands (disk : Disk) (r : Receiver) : Bytes → Prop where
  | claiming (point : r.point = .claiming) (part : r.part = closed disk.part) : Stands disk r []
  | negotiating (point : r.point = .negotiating disk.partSize) (part : r.part = closed disk.part) : Stands disk r []
  | accepting {total accepted : Nat} (point : r.point = .accepting disk.partSize total accepted)
      (part : r.part = closed disk.part) (total_fits : total < 2 ^ 64) (accepted_fits : accepted < 2 ^ 64) :
      Stands disk r (header total accepted)
  | opening {total accepted : Nat} {prior : Bytes} (point : r.point = .opening total prior.length prior)
      (prior_eq : prior = base (disk.part.getD []) accepted)
      (part : r.part = none ∧ prior = [] ∨ r.part = closed disk.part ∧ prior = disk.part.getD [])
      (total_fits : total < 2 ^ 64) (accepted_fits : accepted < 2 ^ 64) : Stands disk r (header total accepted)
  | streaming {total accepted : Nat} {chunks : List Bytes} {file : BufferedFile UInt8}
      (point : r.point = .streaming total (file.view 0).length (file.view 0)) (part : r.part = some file)
      (view : file.view 0 = content (disk.part.getD []) accepted chunks)
      (onDisk : file.disk = base (disk.part.getD []) accepted) (growing : file.Growing 0)
      (chunks_sent : Chunks chunks) (total_fits : total < 2 ^ 64) (accepted_fits : accepted < 2 ^ 64) :
      Stands disk r (header total accepted ++ body chunks)
  | trailing {total accepted : Nat} {chunks : List Bytes} {file : BufferedFile UInt8}
      (point : r.point = .trailing total (file.view 0).length (file.view 0)) (part : r.part = some file)
      (view : file.view 0 = content (disk.part.getD []) accepted chunks)
      (onDisk : file.disk = base (disk.part.getD []) accepted) (growing : file.Growing 0)
      (chunks_sent : Chunks chunks) (total_fits : total < 2 ^ 64) (accepted_fits : accepted < 2 ^ 64) :
      Stands disk r (header total accepted ++ body chunks ++ frame [])
  | verifying {total accepted : Nat} {chunks : List Bytes} {whole trailer : Bytes}
      (point : r.point = .verifying total whole.length whole trailer) (part : r.part = closed (some whole))
      (view : whole = content (disk.part.getD []) accepted chunks) (trailer_length : trailer.length = sha256Len)
      (chunks_sent : Chunks chunks) (total_fits : total < 2 ^ 64) (accepted_fits : accepted < 2 ^ 64) :
      Stands disk r (header total accepted ++ body chunks ++ frame [] ++ trailer)

/-- How a receiver ended: as `receive` does that hears a beginning of what came, or killed. -/
inductive Ends (sha256 : Sha256) (disk : Disk) (heard : Bytes) (r : Receiver) : Option (Except Failure Int) → Prop where
  | returned {result : Except Failure Int} {heard' : Bytes} (starts : heard' <+: heard)
      (part : r.part = closed r.seen.part)
      (same : ∀ pace, (receive sha256 (disk.connect heard' pace)).1.toOption = result.toOption ∧
        (receive sha256 (disk.connect heard' pace)).2.disk = r.seen) : Ends sha256 disk heard r (some result)
  | killed {left : Option Bytes} (remains : Remains disk heard left) (part : r.part = closed left)
      (out : r.out = disk.out) (promoted : r.promoted = disk.promoted) : Ends sha256 disk heard r none

/-- What holds of a receiver after any steps of a session that began at `disk`. -/
inductive Kept (sha256 : Sha256) (disk : Disk) (heard : Bytes) (r : Receiver) : Prop where
  | working {eaten : Bytes} (stands : r.Stands disk eaten) (arrived : heard = eaten ++ r.sock.incoming)
      (sent : r.sock.sent = if r.point matches .claiming then [] else frame (bigEndian 8 disk.partSize))
      (out : r.out = disk.out) (promoted : r.promoted = disk.promoted)
  | ended {result : Option (Except Failure Int)} (point : r.point = .ended result)
      (ends : r.Ends sha256 disk heard result)
      (sent : r.sock.sent = [] ∨ r.sock.sent = frame (bigEndian 8 disk.partSize))

theorem kept_start (sha256 : Sha256) (disk : Disk) (pace : List Nat) : (start disk pace).Kept sha256 disk [] :=
  .working (.claiming rfl rfl) rfl rfl rfl rfl

theorem seen_closed {part : Option Bytes} (h : r.part = closed part) : r.seen = ⟨part, r.out, r.promoted⟩ := by
  rw [seen, h, closed_view]

theorem Stands.running (stands : r.Stands disk eaten) : r.Running := by
  intro result ended
  cases stands with
  | claiming point | negotiating point | accepting point | opening point | streaming point | trailing point
  | verifying point =>
      rw [ended] at point
      cases point

theorem Kept.ends {result : Option (Except Failure Int)} (kept : r.Kept sha256 disk heard)
    (ended : r.point = .ended result) : r.Ends sha256 disk heard result := by
  cases kept with
  | working stands => exact absurd ended (stands.running _)
  | ended point ends =>
      rw [ended] at point
      cases point
      exact ends

section Ends

variable (sha256) (fits : disk.partSize < 2 ^ 64) {heard' : Bytes} (starts : heard' <+: heard)
include fits starts

theorem ends_headerless (headerless : Headerless heard') (part : r.part = closed disk.part)
    (out : r.out = disk.out) (promoted : r.promoted = disk.promoted) (e : Failure) :
    r.Ends sha256 disk heard (some (.error e)) := by
  have files := seen_closed part
  refine .returned starts (by rw [files, part]) fun pace => ?_
  obtain ⟨failure, sock, _, run⟩ := receive_headerless sha256 (w := disk.connect heard' pace) fits headerless
  rw [run, files, out, promoted]
  exact ⟨rfl, rfl⟩

theorem ends_truncated {total accepted : Nat} {chunks : List Bytes}
    (truncated : Truncated heard' total accepted chunks)
    (part : r.part = closed (some (content (disk.part.getD []) accepted chunks)))
    (out : r.out = disk.out) (promoted : r.promoted = disk.promoted) :
    r.Ends sha256 disk heard (some (.ok 1)) := by
  have files := seen_closed part
  refine .returned starts (by rw [files, part]) fun pace => ?_
  obtain ⟨sock, _, run⟩ := receive_truncated sha256 (w := disk.connect heard' pace) fits truncated
  rw [run, files, out, promoted]
  exact ⟨rfl, rfl⟩

end Ends

theorem step_claiming (fits : disk.partSize < 2 ^ 64) (point : r.point = .claiming) (part : r.part = closed disk.part) :
    r.step sha256 = some { r with
      sock := { r.sock with sent := r.sock.sent ++ frame (bigEndian 8 disk.partSize) }
      point := .negotiating disk.partSize } := by
  have files := seen_closed part
  have packed : packQ r.seen.partSize = .ok (bigEndian 8 disk.partSize) := by
    rw [files]
    exact if_pos fits
  have claims : (Prog.ofExcept (packQ r.seen.partSize) >>= sendFrame) r.sock =
      (.ok (), { r.sock with sent := r.sock.sent ++ frame (bigEndian 8 disk.partSize) }) := by
    rw [packed, Prog.bind_ok (Prog.ofExcept_run _ _), sendFrame_run (claim_sendable _)]
  rw [step, point]
  simp only [claims]
  rw [files]
  rfl

theorem step_accepting {total accepted : Nat} (point : r.point = .accepting disk.partSize total accepted)
    (part : r.part = closed disk.part) : r.step sha256 = some { r with
      part := if accepted = disk.partSize then r.part else none
      point := .opening total (base (disk.part.getD []) accepted).length (base (disk.part.getD []) accepted) } := by
  have files := seen_closed part
  rw [step, point]
  dsimp only
  by_cases same : accepted = disk.partSize
  · have whole : base (disk.part.getD []) accepted = disk.part.getD [] := if_pos same
    have size : (disk.part.getD []).length = accepted := same.symm
    rw [if_neg (not_not.mpr same), if_pos same, whole, size]
    by_cases some_bytes : accepted ≠ 0
    · have hashed := hashPrefix_eq accepted (disk.part.getD []) [] size.ge
      rw [List.nil_append, List.take_of_length_le size.le] at hashed
      rw [if_pos some_bytes, files]
      simp only [hashed]
    · have empty : disk.part.getD [] = [] := List.length_eq_zero_iff.mp (size.trans (not_not.mp some_bytes))
      rw [if_neg some_bytes, empty]
  · have none_left : base (disk.part.getD []) accepted = [] := if_neg same
    rw [if_pos same, if_neg same, none_left]
    rfl

/-- **One step of the receiver.** -/
theorem Kept.step (fits : disk.partSize < 2 ^ 64) (kept : r.Kept sha256 disk heard)
    (moved : r.step sha256 = some r') : r'.Kept sha256 disk heard := by
  cases kept with
  | ended point =>
      rw [Receiver.step, point] at moved
      cases moved
  | @working eaten stands arrived sent out promoted =>
    cases stands with
    | claiming point part =>
        rw [step_claiming fits point part] at moved
        cases moved
        refine .working (.negotiating rfl part) arrived ?_ out promoted
        rw [point] at sent
        exact congrArg (· ++ frame (bigEndian 8 disk.partSize)) sent
    | negotiating point part =>
        rw [point] at sent
        rw [Receiver.step, point] at moved
        dsimp only at moved
        split at moved
        case h_1 => cases moved
        rename_i payload sock read
        obtain ⟨sendable, split, kept⟩ := recvFrame_ok read
        rw [split, List.nil_append] at arrived
        split at moved
        · rename_i e misfit
          cases moved
          refine .ended rfl (ends_headerless (r := { r with sock, point := _ }) sha256 fits List.prefix_rfl ?_ part
            out promoted e) (.inr (kept.trans sent))
          rintro total accepted total_fits accepted_fits ⟨rest, same⟩
          rw [arrived, header] at same
          rw [← (frame_append_inj (header_sendable _ _) sendable same).1, unpackHeader_header total_fits accepted_fits]
            at misfit
          cases misfit
        · rename_i total accepted unpacked
          cases moved
          by_cases size : payload.length = 16
          · obtain ⟨total', accepted', total_fits, accepted_fits, rfl⟩ := header_of_length size
            rw [unpackHeader_header total_fits accepted_fits] at unpacked
            cases unpacked
            exact .working (.accepting rfl part total_fits accepted_fits) arrived (kept.trans sent) out promoted
          · rw [unpackHeader, if_neg size] at unpacked
            cases unpacked
    | @accepting total accepted point part total_fits accepted_fits =>
        rw [point] at sent
        rw [step_accepting point part] at moved
        cases moved
        refine .working (.opening rfl rfl ?_ total_fits accepted_fits) arrived sent out promoted
        by_cases same : accepted = disk.partSize
        · exact .inr ⟨(if_pos same).trans part, if_pos same⟩
        · exact .inl ⟨if_neg same, if_neg same⟩
    | @opening total accepted prior point prior_eq part total_fits accepted_fits =>
        rw [point] at sent
        rw [Receiver.step, point] at moved
        cases moved
        have opened : (if prior.length ≠ 0 then r.part else some ⟨[], []⟩) = some ⟨prior, []⟩ := by
          by_cases zero : prior.length = 0
          · rw [if_neg (not_not.mpr zero), List.length_eq_zero_iff.mp zero]
          · rw [if_pos zero]
            rcases part with ⟨_, empty⟩ | ⟨present, same⟩
            · rw [empty] at zero
              exact absurd rfl zero
            · rw [present]
              cases stored : disk.part with
              | none =>
                  rw [stored] at same
                  rw [same] at zero
                  exact absurd rfl zero
              | some file =>
                  rw [stored] at same
                  rw [same]
                  rfl
        have stands : { r with
            part := if prior.length ≠ 0 then r.part else some ⟨[], []⟩
            point := .streaming total prior.length prior }.Stands disk (header total accepted ++ body []) := by
          rw [opened]
          refine .streaming rfl rfl ?_ prior_eq (BufferedFile.growing_opened prior) .nil total_fits accepted_fits
          rw [content, List.flatten_nil, List.append_nil]
          exact prior_eq
        rw [body_nil, List.append_nil] at stands
        exact .working stands arrived sent out promoted
    | @streaming total accepted chunks file point part view onDisk growing chunks_sent total_fits accepted_fits =>
        rw [point] at sent
        rw [Receiver.step, point] at moved
        dsimp only at moved
        split at moved
        · cases moved
        · rename_i sock read
          obtain ⟨_, split, kept⟩ := recvFrame_ok read
          cases moved
          refine .working (.trailing rfl part view onDisk growing chunks_sent total_fits accepted_fits) ?_
            (kept.trans sent) out promoted
          rw [arrived, split]
          simp only [List.append_assoc]
        · rename_i byte chunk sock read
          obtain ⟨sendable, split, kept⟩ := recvFrame_ok read
          cases moved
          have written : (file.write (file.view 0).length (byte :: chunk)).view 0 = file.view 0 ++ byte :: chunk := by
            rw [BufferedFile.view_write, writeAt_end]
          have stands : { r with
              sock
              part := some (file.write (file.view 0).length (byte :: chunk))
              point := .streaming total ((file.view 0).length + (byte :: chunk).length) (file.view 0 ++ byte :: chunk)
              }.Stands disk (header total accepted ++ body (chunks ++ [byte :: chunk])) := by
            refine .streaming ?_ rfl ?_ onDisk (growing.write _) ?_ total_fits accepted_fits
            · rw [written, List.length_append]
            · rw [written, view, content, content, List.flatten_concat, List.append_assoc]
            · exact chunks_sent.concat (List.cons_ne_nil _ _) sendable
          rw [part]
          refine .working stands ?_ (kept.trans sent) out promoted
          rw [arrived, split, body_concat]
          simp only [List.append_assoc]
    | @trailing total accepted chunks file point part view onDisk growing chunks_sent total_fits accepted_fits =>
        rw [point] at sent
        rw [Receiver.step, point] at moved
        dsimp only at moved
        split at moved
        · cases moved
        · rename_i trailer sock read
          obtain ⟨size, split, kept⟩ := recvExact_ok read
          cases moved
          have flushed : r.part.map (·.flush 0) = closed (some (file.view 0)) := by
            rw [part]
            rfl
          refine .working (.verifying rfl flushed view size chunks_sent total_fits accepted_fits) ?_ (kept.trans sent)
            out promoted
          rw [arrived, split]
          simp only [List.append_assoc]
    | @verifying total accepted chunks whole trailer point part view size chunks_sent total_fits accepted_fits =>
        rw [point] at sent
        have files := seen_closed part
        have complete : Complete heard total accepted chunks trailer :=
          ⟨total_fits, accepted_fits, chunks_sent, size, _, arrived.symm⟩
        rw [Receiver.step, point] at moved
        dsimp only at moved
        have same : ∀ pace, ∃ sock, receive sha256 (disk.connect heard pace) =
            if whole.length = total ∧ sha256.digest whole = trailer then
              (.ok 0, ⟨sock, none, some whole, disk.promoted ++ [whole]⟩)
            else (.ok 1, ⟨sock, none, disk.out, disk.promoted⟩) := by
          intro pace
          obtain ⟨sock, _, run⟩ := receive_complete sha256 (w := disk.connect heard pace) fits complete
          refine ⟨sock, ?_⟩
          rw [view]
          exact run
        split at moved
        · rename_i verified
          cases moved
          refine .ended rfl (.returned List.prefix_rfl rfl fun pace => ?_) (.inr sent)
          obtain ⟨sock, run⟩ := same pace
          rw [run, if_pos verified, files, promoted]
          exact ⟨rfl, rfl⟩
        · rename_i misfit
          cases moved
          refine .ended rfl (.returned List.prefix_rfl rfl fun pace => ?_) (.inr sent)
          obtain ⟨sock, run⟩ := same pace
          rw [run, if_neg misfit, ← out, ← promoted]
          exact ⟨rfl, rfl⟩

theorem Kept.hear (kept : r.Kept sha256 disk heard) (running : r.Running) (data : Bytes) :
    (r.hear data).Kept sha256 disk (heard ++ data) := by
  cases kept with
  | ended point => exact absurd point (running _)
  | @working eaten stands arrived sent out promoted =>
      have stands' : (r.hear data).Stands disk eaten := by
        cases stands with
        | claiming point part => exact .claiming point part
        | negotiating point part => exact .negotiating point part
        | accepting point part total_fits accepted_fits => exact .accepting point part total_fits accepted_fits
        | opening point prior_eq part total_fits accepted_fits =>
            exact .opening point prior_eq part total_fits accepted_fits
        | streaming point part view onDisk growing chunks_sent total_fits accepted_fits =>
            exact .streaming point part view onDisk growing chunks_sent total_fits accepted_fits
        | trailing point part view onDisk growing chunks_sent total_fits accepted_fits =>
            exact .trailing point part view onDisk growing chunks_sent total_fits accepted_fits
        | verifying point part view size chunks_sent total_fits accepted_fits =>
            exact .verifying point part view size chunks_sent total_fits accepted_fits
      refine .working stands' ?_ sent out promoted
      rw [arrived, List.append_assoc]
      rfl

/-- Behind its claim a receiver sends nothing. -/
theorem step_sent (claimed : r.point ≠ .claiming) (moved : r.step sha256 = some r') :
    r'.sock.sent = r.sock.sent := by
  cases point : r.point with
  | claiming => exact absurd point claimed
  | negotiating | streaming =>
      rw [step, point] at moved
      dsimp only at moved
      repeat' split at moved
      all_goals cases moved
      all_goals exact (recvFrame_ok (by assumption)).2.2
  | accepting | verifying =>
      rw [step, point] at moved
      dsimp only at moved
      repeat' split at moved
      all_goals
        cases moved
        rfl
  | opening =>
      rw [step, point] at moved
      cases moved
      rfl
  | trailing =>
      rw [step, point] at moved
      dsimp only at moved
      split at moved
      all_goals cases moved
      exact (recvExact_ok (by assumption)).2.2
  | ended =>
      rw [step, point] at moved
      cases moved

theorem Kept.step_sent (kept : r.Kept sha256 disk heard) (moved : r.step sha256 = some r') :
    r.sock.sent <+: r'.sock.sent := by
  by_cases here : r.point = .claiming
  · cases kept with
    | working stands arrived sent =>
        rw [here] at sent
        rw [sent]
        exact List.nil_prefix
    | ended point =>
        rw [here] at point
        cases point
  · rw [Receiver.step_sent here moved]

theorem Kept.drop (fits : disk.partSize < 2 ^ 64) {message : String} (kept : r.Kept sha256 disk heard)
    (moved : r.drop message = some r') : r'.Kept sha256 disk heard := by
  cases kept with
  | ended point =>
      rw [Receiver.drop, point] at moved
      cases moved
  | @working eaten stands arrived sent out promoted =>
    cases stands with
    | claiming point part =>
        rw [point] at sent
        rw [Receiver.drop, point] at moved
        cases moved
        exact .ended rfl (ends_headerless (r := { r with point := .ended _ }) sha256 fits List.nil_prefix
          headerless_nil part out promoted _) (.inl sent)
    | negotiating point part =>
        rw [point] at sent
        rw [Receiver.drop, point] at moved
        cases moved
        exact .ended rfl (ends_headerless (r := { r with point := .ended _ }) sha256 fits List.nil_prefix
          headerless_nil part out promoted _) (.inr sent)
    | accepting point | opening point | verifying point =>
        rw [Receiver.drop, point] at moved
        cases moved
    | @streaming total accepted chunks file point part view onDisk growing chunks_sent total_fits accepted_fits =>
        rw [point] at sent
        rw [Receiver.drop, point] at moved
        cases moved
        have truncated := truncated_body total_fits accepted_fits chunks_sent (cutOff_unframed unframed_nil)
        refine .ended rfl (ends_truncated (r := { r with part := _, point := _ }) sha256 fits ?_ truncated ?_ out
          promoted) (.inr sent)
        · rw [arrived, List.append_nil]
          exact List.prefix_append _ _
        · rw [← view, part]
          rfl
    | @trailing total accepted chunks file point part view onDisk growing chunks_sent total_fits accepted_fits =>
        rw [point] at sent
        rw [Receiver.drop, point] at moved
        cases moved
        have stop : CutOff (frame [] ++ []) := cutOff_marker (by decide)
        rw [List.append_nil] at stop
        have truncated := truncated_body total_fits accepted_fits chunks_sent stop
        refine .ended rfl (ends_truncated (r := { r with part := _, point := _ }) sha256 fits ?_ truncated ?_ out
          promoted) (.inr sent)
        · rw [arrived]
          exact List.prefix_append _ _
        · rw [← view, part]
          rfl

theorem drop_sock {message : String} (dropped : r.drop message = some r') : r'.sock = r.sock := by
  unfold Receiver.drop at dropped
  split at dropped
  all_goals
    cases dropped
    try rfl

theorem Killed.sock (killed : r.Killed r') : r'.sock = r.sock := by
  cases killed with
  | absent | torn => rfl

/-- What a kill leaves of the partial file. -/
theorem Stands.remains (stands : r.Stands disk eaten) (killed : r.Killed r') :
    ∃ left, Remains disk eaten left ∧ r'.part = closed left := by
  have untouched : r.part = closed disk.part → ∃ left, Remains disk eaten left ∧ r'.part = closed left := by
    intro part
    refine ⟨disk.part, .untouched, ?_⟩
    cases killed with
    | absent => exact part
    | torn present survives =>
        rw [part] at present
        cases stored : disk.part with
        | none =>
            rw [stored] at present
            cases present
        | some file =>
            rw [stored] at present
            cases present
            obtain ⟨kept, torn, rfl⟩ := survives
            cases torn
            rfl
  have opened : ∀ {total accepted chunks} {file : BufferedFile UInt8}, r.part = some file →
      file.view 0 = content (disk.part.getD []) accepted chunks → base (disk.part.getD []) accepted <+: file.disk →
      file.Growing 0 → Chunks chunks → total < 2 ^ 64 → accepted < 2 ^ 64 →
      header total accepted ++ body chunks <+: eaten → ∃ left, Remains disk eaten left ∧ r'.part = closed left := by
    intro total accepted chunks file part view onDisk growing chunks_sent total_fits accepted_fits starts
    cases killed with
    | absent absent =>
        rw [part] at absent
        cases absent
    | @torn file' left present survives =>
        rw [part] at present
        cases present
        obtain ⟨longer, inside⟩ := growing left survives
        rw [view] at inside
        exact ⟨some left, .torn total_fits accepted_fits chunks_sent starts (onDisk.trans longer) inside, rfl⟩
  cases stands with
  | claiming point part => exact untouched part
  | negotiating point part => exact untouched part
  | accepting point part => exact untouched part
  | @opening total accepted prior point prior_eq part =>
      rcases part with ⟨absent, _⟩ | ⟨present, _⟩
      · refine ⟨none, .removed, ?_⟩
        cases killed with
        | absent => exact absent
        | torn present =>
            rw [absent] at present
            cases present
      · exact untouched present
  | streaming point part view onDisk growing chunks_sent total_fits accepted_fits =>
      exact opened part view (onDisk ▸ List.prefix_rfl) growing chunks_sent total_fits accepted_fits List.prefix_rfl
  | trailing point part view onDisk growing chunks_sent total_fits accepted_fits =>
      exact opened part view (onDisk ▸ List.prefix_rfl) growing chunks_sent total_fits accepted_fits
        (List.prefix_append _ _)
  | @verifying total accepted chunks whole trailer point part view size chunks_sent total_fits accepted_fits =>
      have onDisk : base (disk.part.getD []) accepted <+: whole := by
        rw [view]
        exact List.prefix_append _ _
      refine opened part view onDisk (BufferedFile.growing_opened whole) chunks_sent total_fits accepted_fits ?_
      exact (List.prefix_append _ _).trans (List.prefix_append _ _)

theorem Kept.killed (kept : r.Kept sha256 disk heard) (running : r.Running) (killed : r.Killed r') :
    r'.Kept sha256 disk heard := by
  cases kept with
  | ended point => exact absurd point (running _)
  | @working eaten stands arrived sent out promoted =>
      obtain ⟨left, remains, part⟩ := stands.remains killed
      have ends : ∀ r'' : Receiver, r''.part = closed left → r''.out = r.out → r''.promoted = r.promoted →
          r''.Ends sha256 disk heard none := by
        intro r'' part out' promoted'
        refine .killed (remains.mono ?_) part (out'.trans out) (promoted'.trans promoted)
        rw [arrived]
        exact List.prefix_append _ _
      have asked : r.sock.sent = [] ∨ r.sock.sent = frame (bigEndian 8 disk.partSize) := by
        rw [sent]
        split
        · exact .inl rfl
        · exact .inr rfl
      cases killed with
      | absent => exact .ended rfl (ends _ part rfl rfl) asked
      | torn => exact .ended rfl (ends _ part rfl rfl) asked

end Receiver

/-! ## The sender -/

/-- What a sender has still to send, once it has read the claim. -/
def SenderPoint.toSend (sha256 : Sha256) (file : Bytes) : SenderPoint → Option Bytes
  | .waiting | .ended _ => none
  | .answering claimedOffset => some (streamed sha256 file claimedOffset)
  | .sending rest h => some (body (pieces chunkSize rest) ++ frame [] ++ sha256.digest (h ++ rest))
  | .marking h => some (frame [] ++ sha256.digest h)
  | .trailing h => some (sha256.digest h)

namespace Sender

variable {sha256 : Sha256} {file heard : Bytes} {claimed : Nat} {p p' : Sender}

/-- What holds of a sender after any steps of a session in which `claimed` is claimed. -/
inductive Kept (sha256 : Sha256) (file : Bytes) (claimed : Nat) (heard : Bytes) (p : Sender) : Prop where
  | waiting (point : p.point = .waiting) (arrived : p.sock.incoming = heard) (sent : p.sock.sent = [])
  | answering {left : Bytes} (asked : frame (bigEndian 8 claimed) <+: heard)
      (toSend : p.point.toSend sha256 file = some left) (sent : p.sock.sent ++ left = streamed sha256 file claimed)
  | ended {result : Option (Except Failure Int)} (point : p.point = .ended result)
      (sent : p.sock.sent = [] ∨
        frame (bigEndian 8 claimed) <+: heard ∧ p.sock.sent <+: streamed sha256 file claimed)
      (whole : result = some (.ok 0) → p.sock.sent = streamed sha256 file claimed)

theorem kept_start (sha256 : Sha256) (file : Bytes) (claimed : Nat) (pace : List Nat) :
    (start pace).Kept sha256 file claimed [] := .waiting rfl rfl rfl

theorem Kept.hear (kept : p.Kept sha256 file claimed heard) (running : p.Running) (data : Bytes) :
    (p.hear data).Kept sha256 file claimed (heard ++ data) := by
  cases kept with
  | waiting point arrived sent => exact .waiting point (congrArg (· ++ data) arrived) sent
  | answering asked toSend sent => exact .answering (asked.trans (List.prefix_append _ _)) toSend sent
  | ended point => exact absurd point (running _)

/-- A sender may stop anywhere. -/
theorem Kept.stopped (kept : p.Kept sha256 file claimed heard) (running : p.Running)
    {result : Option (Except Failure Int)} (failed : result ≠ some (.ok 0)) :
    { p with point := .ended result }.Kept sha256 file claimed heard := by
  cases kept with
  | waiting point arrived sent => exact .ended rfl (.inl sent) fun same => absurd same failed
  | answering asked toSend sent => exact .ended rfl (.inr ⟨asked, _, sent⟩) fun same => absurd same failed
  | ended point => exact absurd point (running _)

theorem answerClaim_run (file_fits : file.length < 2 ^ 64) (claimedOffset : Nat) (sock : Sock) :
    answerClaim file claimedOffset sock =
      (.ok (file.take (resumeOffset file claimedOffset), file.drop (resumeOffset file claimedOffset)),
        { sock with sent := sock.sent ++ header file.length (resumeOffset file claimedOffset) }) := by
  have within := resumeOffset_le file claimedOffset
  have hashed := hashNext_eq chunkSize_pos "source file shorter than the resume offset"
    (resumeOffset file claimedOffset) file [] within
  rw [answerClaim, ← resumeOffset, packHeader_run file_fits (lt_of_le_of_lt within file_fits),
    Prog.bind_ok (Prog.ofExcept_run _ _), Prog.bind_ok (sendFrame_run (header_sendable _ _) _), hashed]
  rfl

/-! ### The steps behind the claim -/

theorem step_answering (file_fits : file.length < 2 ^ 64) (claimedOffset : Nat) (sock : Sock) :
    step sha256 file ⟨.answering claimedOffset, sock⟩ =
      some ⟨.sending (file.drop (resumeOffset file claimedOffset)) (file.take (resumeOffset file claimedOffset)),
        { sock with sent := sock.sent ++ header file.length (resumeOffset file claimedOffset) }⟩ := by
  simp only [step, answerClaim_run file_fits]

theorem step_sending {rest : Bytes} (more : rest ≠ []) (h : Bytes) (sock : Sock) :
    step sha256 file ⟨.sending rest h, sock⟩ =
      some ⟨.sending (rest.drop chunkSize) (h ++ rest.take chunkSize),
        { sock with sent := sock.sent ++ frame (rest.take chunkSize) }⟩ := by
  have fits : Sendable (rest.take chunkSize) := lt_of_le_of_lt (List.length_take_le _ _) (by decide)
  simp only [step, if_neg more, sendFrame_run fits]

theorem step_marking (h : Bytes) (sock : Sock) :
    step sha256 file ⟨.marking h, sock⟩ = some ⟨.trailing h, { sock with sent := sock.sent ++ frame [] }⟩ := by
  simp only [step, sendFrame_run sendable_nil]

/-- A step sends the next part of what is left. -/
theorem step_toSend (file_fits : file.length < 2 ^ 64) {left : Bytes}
    (toSend : p.point.toSend sha256 file = some left) :
    ∃ p', p.step sha256 file = some p' ∧ p.sock.sent <+: p'.sock.sent ∧
      ((∃ left', p'.point.toSend sha256 file = some left' ∧ p'.sock.sent ++ left' = p.sock.sent ++ left) ∨
        p'.point = .ended (some (.ok 0)) ∧ p'.sock.sent = p.sock.sent ++ left) := by
  obtain ⟨point, sock⟩ := p
  cases point with
  | waiting | ended => cases toSend
  | answering claimedOffset =>
      cases toSend
      refine ⟨_, step_answering file_fits claimedOffset sock, List.prefix_append _ _, .inl ⟨_, rfl, ?_⟩⟩
      simp only [streamed, List.take_append_drop, List.append_assoc]
  | sending rest h =>
      cases toSend
      by_cases empty : rest = []
      · refine ⟨⟨.marking h, sock⟩, if_pos empty, List.prefix_rfl, .inl ⟨_, rfl, ?_⟩⟩
        rw [empty, List.append_nil, pieces, if_pos (.inr rfl)]
        rfl
      · have cut : pieces chunkSize rest = rest.take chunkSize :: pieces chunkSize (rest.drop chunkSize) := by
          rw [pieces, if_neg]
          exact not_or.mpr ⟨chunkSize_pos.ne', empty⟩
        refine ⟨_, step_sending empty h sock, List.prefix_append _ _, .inl ⟨_, rfl, ?_⟩⟩
        rw [cut, body_cons]
        simp only [List.append_assoc, List.take_append_drop]
  | marking h =>
      cases toSend
      refine ⟨_, step_marking h sock, List.prefix_append _ _, .inl ⟨_, rfl, ?_⟩⟩
      simp only [List.append_assoc]
  | trailing h =>
      cases toSend
      exact ⟨_, rfl, List.prefix_append _ _, .inr ⟨rfl, rfl⟩⟩

theorem Kept.streams (kept : p.Kept sha256 file claimed heard) : p.sock.sent <+: streamed sha256 file claimed := by
  cases kept with
  | waiting point arrived sent =>
      rw [sent]
      exact List.nil_prefix
  | answering asked toSend sent => exact ⟨_, sent⟩
  | ended point sent =>
      rcases sent with sent | ⟨_, sent⟩
      · rw [sent]
        exact List.nil_prefix
      · exact sent

/-- Nothing but the claim can have arrived. -/
theorem step_waiting (claimed_fits : claimed < 2 ^ 64) (point : p.point = .waiting)
    (asked : p.sock.incoming <+: frame (bigEndian 8 claimed)) (moved : p.step sha256 file = some p') :
    p'.point = .answering claimed ∧ p'.sock.sent = p.sock.sent ∧ frame (bigEndian 8 claimed) <+: p.sock.incoming := by
  rw [Sender.step, point] at moved
  dsimp only at moved
  split at moved
  · cases moved
  rename_i payload sock read
  obtain ⟨sendable, split, kept⟩ := recvFrame_ok read
  obtain ⟨lost, whole⟩ := asked
  rw [split, List.append_assoc] at whole
  obtain ⟨rfl, _⟩ := frame_append_inj sendable (claim_sendable claimed) (whole.trans (List.append_nil _).symm)
  rw [unpackQ_claim claimed_fits] at moved
  cases moved
  refine ⟨rfl, kept, ?_⟩
  rw [split]
  exact List.prefix_append _ _

/-- **One step of the sender.** -/
theorem Kept.step (file_fits : file.length < 2 ^ 64) (claimed_fits : claimed < 2 ^ 64)
    (asked : heard <+: frame (bigEndian 8 claimed)) (kept : p.Kept sha256 file claimed heard)
    (moved : p.step sha256 file = some p') : p'.Kept sha256 file claimed heard := by
  cases kept with
  | waiting point arrived sent =>
      rw [← arrived] at asked ⊢
      obtain ⟨point', sent', whole⟩ := step_waiting claimed_fits point asked moved
      refine .answering whole (congrArg (SenderPoint.toSend sha256 file) point') ?_
      rw [sent', sent]
      rfl
  | answering asked' toSend sent =>
      obtain ⟨next, moved', _, later⟩ := step_toSend file_fits toSend
      cases moved.symm.trans moved'
      rcases later with ⟨left, toSend', sent'⟩ | ⟨point, sent'⟩
      · exact .answering asked' toSend' (sent'.trans sent)
      · have whole := sent'.trans sent
        exact .ended point (.inr ⟨asked', whole ▸ List.prefix_rfl⟩) fun _ => whole
  | ended point =>
      rw [Sender.step, point] at moved
      cases moved

theorem Kept.step_sent (file_fits : file.length < 2 ^ 64) (kept : p.Kept sha256 file claimed heard)
    (moved : p.step sha256 file = some p') : p.sock.sent <+: p'.sock.sent := by
  cases kept with
  | waiting point arrived sent =>
      rw [sent]
      exact List.nil_prefix
  | answering asked toSend =>
      obtain ⟨next, moved', longer, _⟩ := step_toSend file_fits toSend
      cases moved.symm.trans moved'
      exact longer
  | ended point =>
      rw [Sender.step, point] at moved
      cases moved

end Sender

end SecureTransfer.ApproachA
