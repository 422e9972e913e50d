import SecureTransfer.Util

/-! # A stream of frames

`send_frame` for one payload after the other, and `recv_frame` until it raises, on a
stream that the transport cuts into pieces as it likes and that may end anywhere.
-/

namespace SecureTransfer

open Library

/-- `send_frame` for each of the payloads. -/
def sendFrames : List Bytes → Prog Sock Failure Unit
  | [] => pure ()
  | payload :: rest => do
      sendFrame payload
      sendFrames rest

/-- `recv_frame` until it raises: the payloads, and what it raised. -/
def recvFrames (sock : Sock) : List Bytes × Failure :=
  match _ : recvFrame sock with
  | (.error e, _) => ([], e)
  | (.ok payload, after) =>
      let (later, e) := recvFrames after
      (payload :: later, e)
termination_by sock.incoming.length
decreasing_by exact recvFrame_shrinks ‹_›

/-- Where the frame of the payload `k` ends in the stream. -/
def frameEnd (payloads : List Bytes) (k : Nat) : Nat := ((payloads.take (k + 1)).flatMap frame).length

theorem recvFrames_error {sock after : Sock} {e : Failure} (read : recvFrame sock = (.error e, after)) :
    recvFrames sock = ([], e) := by
  rw [recvFrames]
  split
  · rename_i read'
    rw [read] at read'
    cases read'
    rfl
  · rename_i read'
    rw [read] at read'
    cases read'

theorem recvFrames_ok {sock after : Sock} {payload : Bytes} (read : recvFrame sock = (.ok payload, after)) :
    recvFrames sock = (payload :: (recvFrames after).1, (recvFrames after).2) := by
  conv => lhs; rw [recvFrames]
  split
  · rename_i read'
    rw [read] at read'
    cases read'
  · rename_i read'
    rw [read] at read'
    cases read'
    rfl

theorem sendFrames_run {payloads : List Bytes} (fits : ∀ payload ∈ payloads, Sendable payload) (sock : Sock) :
    sendFrames payloads sock = (.ok (), { sock with sent := sock.sent ++ payloads.flatMap frame }) := by
  induction payloads generalizing sock with
  | nil => simp [sendFrames]
  | cons payload rest ih =>
      have first := sendFrame_run (fits payload List.mem_cons_self) sock
      rw [sendFrames, Prog.bind_ok first, ih fun p member => fits p (List.mem_cons_of_mem payload member)]
      simp [List.append_assoc]

/-- Frames that arrived whole are read one after the other, and then the read of the next one fails. -/
theorem recvFrames_framed {payloads : List Bytes} (fits : ∀ payload ∈ payloads, Sendable payload) {cut : Bytes}
    (ends : Unframed cut) {sock : Sock} (arrived : sock.incoming = payloads.flatMap frame ++ cut) :
    ∃ got wanted, recvFrames sock = (payloads, .connectionError got wanted) := by
  induction payloads generalizing sock with
  | nil =>
      rw [List.flatMap_nil, List.nil_append] at arrived
      obtain ⟨got, wanted, after, failed, _⟩ := recvFrame_truncated (arrived ▸ ends)
      exact ⟨got, wanted, recvFrames_error failed⟩
  | cons payload rest ih =>
      rw [List.flatMap_cons, List.append_assoc] at arrived
      obtain ⟨after, read, left, _⟩ := recvFrame_complete (fits payload List.mem_cons_self) arrived
      obtain ⟨got, wanted, later⟩ := ih (fun p member => fits p (List.mem_cons_of_mem payload member)) left
      exact ⟨got, wanted, by rw [recvFrames_ok read, later]⟩

theorem frameEnd_mono (payloads : List Bytes) {j k : Nat} (h : j ≤ k) :
    frameEnd payloads j ≤ frameEnd payloads k := by
  have start : payloads.take (j + 1) <+: payloads.take (k + 1) := List.take_prefix_take_left (by omega)
  obtain ⟨rest, split⟩ := start
  rw [frameEnd, frameEnd, ← split, List.flatMap_append, List.length_append]
  exact Nat.le_add_right _ _

/-- Up to the cut lie whole frames, and a part of the next one. -/
theorem framed_take {payloads : List Bytes} (fits : ∀ payload ∈ payloads, Sendable payload) (cut : Nat) :
    ∃ m part, (payloads.flatMap frame).take cut = (payloads.take m).flatMap frame ++ part ∧ Unframed part ∧
      ∀ k < payloads.length, k < m ↔ frameEnd payloads k ≤ cut := by
  obtain ⟨m, part, split, ends, bound, last⟩ := framed_prefix fits (List.take_prefix cut _)
  refine ⟨m, part, split, ends, fun k inside => ?_⟩
  have size := congrArg List.length split
  rw [List.length_take, List.length_append] at size
  constructor
  · intro before
    have earlier : frameEnd payloads k ≤ frameEnd payloads (m - 1) := frameEnd_mono payloads (by omega)
    rw [frameEnd, frameEnd, Nat.sub_add_cancel (by omega)] at earlier
    rw [frameEnd]
    omega
  · intro whole
    by_contra after
    -- a whole frame after the last one read would start the part
    have next : frameEnd payloads m ≤ cut := (frameEnd_mono payloads (by omega)).trans whole
    have here : m < payloads.length := by omega
    have grows : payloads.take (m + 1) = payloads.take m ++ [payloads[m]] := (List.take_append_getElem here).symm
    have stream : payloads.flatMap frame =
        (payloads.take m).flatMap frame ++ (frame payloads[m] ++ (payloads.drop (m + 1)).flatMap frame) := by
      have parts : payloads = payloads.take m ++ payloads[m] :: payloads.drop (m + 1) := by
        rw [List.getElem_cons_drop, List.take_append_drop]
      conv => lhs; rw [parts]
      rw [List.flatMap_append, List.flatMap_cons]
    apply ends payloads[m] (fits _ (List.getElem_mem here))
    rw [frameEnd, grows, List.flatMap_append, List.length_append, List.flatMap_singleton] at next
    rw [stream, List.take_append, List.take_of_length_le (by omega), List.append_cancel_left_eq] at split
    rw [← split, List.take_append, List.take_of_length_le (by omega)]
    exact List.prefix_append _ _

/-- **Framing round trip.** However the transport cuts the stream into pieces and wherever it ends,
    what is received is what was sent, frame by frame up to the end, and then an error. -/
theorem frames_round_trip (payloads : List Bytes) (fits : ∀ payload ∈ payloads, payload.length < 2 ^ 64)
    (pace : List Nat) (cut : Nat) :
    ∃ stream, sendFrames payloads ⟨[], [], []⟩ = (.ok (), ⟨[], [], stream⟩) ∧
      ∃ m got wanted,
        recvFrames ⟨stream.take cut, pace, []⟩ = (payloads.take m, .connectionError got wanted) ∧
        ∀ k < payloads.length, k < m ↔ frameEnd payloads k ≤ cut := by
  refine ⟨payloads.flatMap frame, sendFrames_run fits _, ?_⟩
  obtain ⟨m, part, split, ends, before⟩ := framed_take fits cut
  have each : ∀ payload ∈ payloads.take m, Sendable payload := fun payload member =>
    fits payload (List.mem_of_mem_take member)
  obtain ⟨got, wanted, received⟩ := recvFrames_framed each ends (show Sock.incoming ⟨_, pace, []⟩ = _ from split)
  exact ⟨m, got, wanted, received, before⟩

/-- Two frames of nine and eight bytes, cut after twelve. -/
theorem frames_round_trip_cut :
    ∃ stream, sendFrames [[7], []] ⟨[], [], []⟩ = (.ok (), ⟨[], [], stream⟩) ∧
      ∃ got wanted, recvFrames ⟨stream.take 12, [3, 1], []⟩ = ([[7]], .connectionError got wanted) := by
  obtain ⟨stream, sent, m, got, wanted, received, before⟩ :=
    frames_round_trip [[7], []] (by decide) [3, 1] 12
  have one : m = 1 := by
    have first : 0 < m := (before 0 (by decide)).mpr (by decide)
    have second : ¬ 1 < m := mt (before 1 (by decide)).mp (by decide)
    omega
  subst one
  exact ⟨stream, sent, got, wanted, received⟩

end SecureTransfer
