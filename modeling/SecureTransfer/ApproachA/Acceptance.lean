import SecureTransfer.ApproachA.Receiver

/-! # What the receiver accepts

The byte stream of a peer is complete, truncated behind its header, or headerless,
and it is only one of the three. Each kind determines what `receive` leaves in the
two files, and a complete stream is promoted exactly when it matches its header and
its trailer.
-/

namespace SecureTransfer.ApproachA

open Library

/-! ## Streams -/

/-- The chunks of a stream: none is the end marker, and each fits a frame. -/
def Chunks (chunks : List Bytes) : Prop := ∀ chunk ∈ chunks, chunk ≠ [] ∧ Sendable chunk

def body (chunks : List Bytes) : Bytes := (chunks.map frame).flatten

def header (total accepted : Nat) : Bytes := frame (bigEndian 8 total ++ bigEndian 8 accepted)

/-- The stream starts with a header, chunks, the end marker and a trailer. -/
structure Complete (stream : Bytes) (total accepted : Nat) (chunks : List Bytes)
    (trailer : Bytes) : Prop where
  total_fits : total < 2 ^ 64
  accepted_fits : accepted < 2 ^ 64
  chunks_sent : Chunks chunks
  trailer_length : trailer.length = sha256Len
  starts : header total accepted ++ body chunks ++ frame [] ++ trailer <+: stream

/-- Neither another chunk nor the end marker with its trailer is there completely. -/
def CutOff (rest : Bytes) : Prop :=
  (∀ chunk, chunk ≠ [] → Sendable chunk → ¬ frame chunk <+: rest) ∧
    ∀ trailer : Bytes, trailer.length = sha256Len → ¬ frame [] ++ trailer <+: rest

/-- The stream ends behind a header and these complete chunks. -/
structure Truncated (stream : Bytes) (total accepted : Nat) (chunks : List Bytes) : Prop where
  total_fits : total < 2 ^ 64
  accepted_fits : accepted < 2 ^ 64
  chunks_sent : Chunks chunks
  stops : ∃ rest, stream = header total accepted ++ body chunks ++ rest ∧ CutOff rest

def Headerless (stream : Bytes) : Prop :=
  ∀ total accepted, total < 2 ^ 64 → accepted < 2 ^ 64 → ¬ header total accepted <+: stream

/-- What the transfer starts from: the partial file if the sender accepted its size. -/
def base (prior : Bytes) (accepted : Nat) : Bytes :=
  if accepted = prior.length then prior else []

def content (prior : Bytes) (accepted : Nat) (chunks : List Bytes) : Bytes :=
  base prior accepted ++ chunks.flatten

/-- A complete stream whose content has the size and the digest that were sent. -/
def Accepted (sha256 : Sha256) (prior stream file : Bytes) : Prop :=
  ∃ total accepted chunks trailer, Complete stream total accepted chunks trailer ∧
    file = content prior accepted chunks ∧ file.length = total ∧ sha256.digest file = trailer

theorem Chunks.nil : Chunks [] := by
  intro chunk member
  cases member

theorem Chunks.cons {chunk : Bytes} {chunks : List Bytes} (some_bytes : chunk ≠ [])
    (fits : Sendable chunk) (later : Chunks chunks) : Chunks (chunk :: chunks) := by
  intro other member
  rcases List.mem_cons.mp member with rfl | member
  · exact ⟨some_bytes, fits⟩
  · exact later other member

theorem Chunks.head {chunk : Bytes} {chunks : List Bytes} (h : Chunks (chunk :: chunks)) :
    chunk ≠ [] ∧ Sendable chunk := h chunk List.mem_cons_self

theorem Chunks.tail {chunk : Bytes} {chunks : List Bytes} (h : Chunks (chunk :: chunks)) :
    Chunks chunks := fun other member => h other (List.mem_cons_of_mem _ member)

@[simp] theorem body_nil : body [] = [] := rfl

@[simp] theorem body_cons (chunk : Bytes) (chunks : List Bytes) :
    body (chunk :: chunks) = frame chunk ++ body chunks := rfl

theorem sendable_nil : Sendable [] := by
  rw [Sendable, List.length_nil]
  decide

theorem header_payload_length (total accepted : Nat) :
    (bigEndian 8 total ++ bigEndian 8 accepted).length = 16 := by
  rw [List.length_append, bigEndian_length, bigEndian_length]

theorem header_sendable (total accepted : Nat) :
    Sendable (bigEndian 8 total ++ bigEndian 8 accepted) := by
  rw [Sendable, header_payload_length]
  decide

theorem unpackHeader_header {total accepted : Nat} (ht : total < 2 ^ 64) (ha : accepted < 2 ^ 64) :
    unpackHeader (bigEndian 8 total ++ bigEndian 8 accepted) = .ok (total, accepted) := by
  rw [unpackHeader, if_pos (header_payload_length total accepted),
    List.take_left' (bigEndian_length 8 _), List.drop_left' (bigEndian_length 8 _),
    fromBigEndian_packed ht, fromBigEndian_packed ha]

/-- A frame of sixteen bytes is a header. -/
theorem header_of_length {payload : Bytes} (h : payload.length = 16) :
    ∃ total accepted, total < 2 ^ 64 ∧ accepted < 2 ^ 64 ∧
      payload = bigEndian 8 total ++ bigEndian 8 accepted := by
  have high : (payload.take 8).length = 8 := by
    rw [List.length_take]
    omega
  have low : (payload.drop 8).length = 8 := by
    rw [List.length_drop]
    omega
  have small_high := fromBigEndian_lt (payload.take 8)
  have small_low := fromBigEndian_lt (payload.drop 8)
  have back_high := bigEndian_fromBigEndian (payload.take 8)
  have back_low := bigEndian_fromBigEndian (payload.drop 8)
  rw [high] at small_high back_high
  rw [low] at small_low back_low
  exact ⟨_, _, small_high, small_low, by rw [back_high, back_low, List.take_append_drop]⟩

/-- Whatever follows the header, it splits into complete chunks and the point where
    they stop. -/
theorem chunks_then (bytes : Bytes) :
    ∃ chunks rest, Chunks chunks ∧ bytes = body chunks ++ rest ∧
      ((∃ tail, rest = frame [] ++ tail) ∨ Unframed rest) := by
  rcases frame_or_unframed bytes with ⟨chunk, rest, fits, split⟩ | unframed
  · cases chunk with
    | nil => exact ⟨[], bytes, .nil, rfl, .inl ⟨rest, split⟩⟩
    | cons byte chunk =>
        have shorter : rest.length < bytes.length := by
          rw [split, List.length_append, frame_length]
          omega
        obtain ⟨chunks, stop, sent, split', ends⟩ := chunks_then rest
        refine ⟨(byte :: chunk) :: chunks, stop, .cons (List.cons_ne_nil _ _) fits sent, ?_, ends⟩
        rw [split, split', body_cons, List.append_assoc]
  · exact ⟨[], bytes, .nil, rfl, .inr unframed⟩
termination_by bytes.length

theorem cutOff_unframed {rest : Bytes} (h : Unframed rest) : CutOff rest :=
  ⟨fun chunk _ fits => h chunk fits, fun _ _ start =>
    h [] sendable_nil ((List.prefix_append _ _).trans start)⟩

theorem cutOff_marker {tail : Bytes} (short : tail.length < sha256Len) :
    CutOff (frame [] ++ tail) := by
  constructor
  · rintro chunk some_bytes fits ⟨rest, split⟩
    exact some_bytes (frame_append_inj fits sendable_nil split).1
  · rintro trailer size ⟨rest, split⟩
    rw [List.append_assoc] at split
    have same := congrArg List.length (List.append_cancel_left split)
    rw [List.length_append] at same
    omega

/-- Where a stream is cut off, it has no end marker, or one with a short trailer. -/
theorem CutOff.cases {rest : Bytes} (h : CutOff rest) :
    Unframed rest ∨ ∃ tail, rest = frame [] ++ tail ∧ tail.length < sha256Len := by
  rcases frame_or_unframed rest with ⟨payload, tail, fits, split⟩ | unframed
  · cases payload with
    | cons byte chunk =>
        exact absurd ⟨tail, split.symm⟩ (h.1 (byte :: chunk) (List.cons_ne_nil _ _) fits)
    | nil =>
        refine .inr ⟨tail, split, ?_⟩
        by_contra long
        refine h.2 (tail.take sha256Len) (by rw [List.length_take]; omega)
          ⟨tail.drop sha256Len, ?_⟩
        rw [split, List.append_assoc, List.take_append_drop]
  · exact .inl unframed

theorem stream_cases (stream : Bytes) :
    (∃ total accepted chunks trailer, Complete stream total accepted chunks trailer) ∨
      (∃ total accepted chunks, Truncated stream total accepted chunks) ∨ Headerless stream := by
  by_cases headed : Headerless stream
  · exact .inr (.inr headed)
  · simp only [Headerless, not_forall, not_not] at headed
    obtain ⟨total, accepted, total_fits, accepted_fits, rest, split⟩ := headed
    obtain ⟨chunks, stop, sent, split', ends⟩ := chunks_then rest
    have whole : stream = header total accepted ++ body chunks ++ stop := by
      rw [← split, split', List.append_assoc]
    rcases ends with ⟨tail, marker⟩ | unframed
    · by_cases long : sha256Len ≤ tail.length
      · have size : (tail.take sha256Len).length = sha256Len := by
          rw [List.length_take]
          omega
        refine .inl ⟨total, accepted, chunks, tail.take sha256Len, total_fits, accepted_fits, sent,
          size, tail.drop sha256Len, ?_⟩
        rw [whole, marker, List.append_assoc, List.take_append_drop, ← List.append_assoc]
      · exact .inr (.inl ⟨total, accepted, chunks, total_fits, accepted_fits, sent, stop, whole,
          marker ▸ cutOff_marker (not_le.mp long)⟩)
    · exact .inr (.inl ⟨total, accepted, chunks, total_fits, accepted_fits, sent, stop, whole,
        cutOff_unframed unframed⟩)

/-! ## The run -/

theorem hashPrefix_eq (n : Nat) (file h : Bytes) (enough : n ≤ file.length) :
    hashPrefix n file h = .ok (h ++ file.take n) := by
  rw [hashPrefix, hashNext_eq (by decide) _ n file h enough]
  rfl

theorem streamChunks_chunk {w : World} {chunk rest : Bytes} (received : Nat) (h : Bytes)
    (some_bytes : chunk ≠ []) (fits : Sendable chunk)
    (incoming : w.sock.incoming = frame chunk ++ rest) :
    ∃ sock, sock.incoming = rest ∧ sock.sent = w.sock.sent ∧
      streamChunks received h w = streamChunks (received + chunk.length) (h ++ chunk)
        ({ w with sock }.writePart received chunk) := by
  obtain ⟨sock, read, left, kept⟩ := recvFrame_complete fits incoming
  refine ⟨sock, left, kept, ?_⟩
  cases chunk with
  | nil => exact absurd rfl some_bytes
  | cons byte chunk =>
      rw [streamChunks]
      split <;> simp_all

/-- Complete chunks are appended to the partial file and hashed. -/
theorem streamChunks_chunks {chunks : List Bytes} (sent : Chunks chunks) {w : World}
    {rest file : Bytes} (h : Bytes) (incoming : w.sock.incoming = body chunks ++ rest)
    (present : w.part = some file) :
    ∃ sock, sock.incoming = rest ∧ sock.sent = w.sock.sent ∧
      streamChunks file.length h w =
        streamChunks (file ++ chunks.flatten).length (h ++ chunks.flatten)
          { w with sock, part := some (file ++ chunks.flatten) } := by
  induction chunks generalizing w file h with
  | nil =>
      refine ⟨w.sock, incoming, rfl, ?_⟩
      simp only [List.flatten_nil, List.append_nil, ← present]
  | cons chunk chunks ih =>
      rw [body_cons, List.append_assoc] at incoming
      obtain ⟨sock, left, kept, step⟩ :=
        streamChunks_chunk file.length h sent.head.1 sent.head.2 incoming
      have written : ({ w with sock }.writePart file.length chunk).part = some (file ++ chunk) := by
        rw [World.writePart, present, Option.map_some, writeAt_end]
      obtain ⟨final, rest_left, rest_kept, run⟩ := ih sent.tail (h ++ chunk) left written
      refine ⟨final, rest_left, rest_kept.trans kept, ?_⟩
      rw [step, ← List.length_append, run]
      simp only [List.flatten_cons, List.append_assoc, World.writePart]

theorem streamChunks_marker {w : World} {rest : Bytes} (received : Nat) (h : Bytes)
    (incoming : w.sock.incoming = frame [] ++ rest) :
    ∃ sock, sock.incoming = rest ∧ sock.sent = w.sock.sent ∧
      streamChunks received h w = (.ok (received, h), { w with sock }) := by
  obtain ⟨sock, read, left, kept⟩ := recvFrame_complete sendable_nil incoming
  refine ⟨sock, left, kept, ?_⟩
  rw [streamChunks]
  split <;> simp_all

theorem streamChunks_unframed {w : World} (received : Nat) (h : Bytes)
    (unframed : Unframed w.sock.incoming) :
    ∃ got wanted sock, sock.sent = w.sock.sent ∧
      streamChunks received h w = (.error (.connectionError got wanted), { w with sock }) := by
  obtain ⟨got, wanted, sock, read, kept⟩ := recvFrame_truncated unframed
  refine ⟨got, wanted, sock, kept, ?_⟩
  rw [streamChunks]
  split <;> simp_all

theorem streamBody_received {w after : World} {start received : Nat} {h hashed : Bytes}
    (run : streamChunks start h w = (.ok (received, hashed), after)) :
    streamBody start h w =
      (onSock (recvExact sha256Len) >>= fun expectedDigest =>
        pure (received, hashed, expectedDigest) : Prog World Failure (Nat × Bytes × Bytes)) after := by
  rw [streamBody, Prog.bind_ok run]

theorem streamBody_complete {chunks : List Bytes} (sent : Chunks chunks) {w : World}
    {file trailer rest : Bytes} (h : Bytes) (size : trailer.length = sha256Len)
    (incoming : w.sock.incoming = body chunks ++ (frame [] ++ (trailer ++ rest)))
    (present : w.part = some file) :
    ∃ sock, sock.sent = w.sock.sent ∧ streamBody file.length h w =
      (.ok ((file ++ chunks.flatten).length, h ++ chunks.flatten, trailer),
        { w with sock, part := some (file ++ chunks.flatten) }) := by
  obtain ⟨first, left, kept, run⟩ := streamChunks_chunks sent h incoming present
  obtain ⟨second, left', kept', stop⟩ := streamChunks_marker
    (w := { w with sock := first, part := some (file ++ chunks.flatten) })
    (file ++ chunks.flatten).length (h ++ chunks.flatten) left
  rw [stop] at run
  obtain ⟨third, read, reads⟩ := recvExact_complete sha256Len second (by
    rw [left', List.length_append]
    omega)
  rw [left', List.take_left' size] at read
  refine ⟨third, reads.2.trans (kept'.trans kept), ?_⟩
  rw [streamBody_received run, onSock, Prog.bind_ok (Prog.zoom_run read)]
  rfl

theorem streamBody_cutOff {chunks : List Bytes} (sent : Chunks chunks) {w : World}
    {file rest : Bytes} (h : Bytes) (incoming : w.sock.incoming = body chunks ++ rest)
    (stop : CutOff rest) (present : w.part = some file) :
    ∃ got wanted sock, sock.sent = w.sock.sent ∧ streamBody file.length h w =
      (.error (.connectionError got wanted),
        { w with sock, part := some (file ++ chunks.flatten) }) := by
  obtain ⟨first, left, kept, run⟩ := streamChunks_chunks sent h incoming present
  rcases stop.cases with unframed | ⟨tail, marker, short⟩
  · obtain ⟨got, wanted, second, kept', drop⟩ := streamChunks_unframed
      (w := { w with sock := first, part := some (file ++ chunks.flatten) })
      (file ++ chunks.flatten).length (h ++ chunks.flatten) (by rw [left]; exact unframed)
    rw [drop] at run
    exact ⟨got, wanted, second, kept'.trans kept, by rw [streamBody, Prog.bind_error run]⟩
  · obtain ⟨second, left', kept', marked⟩ := streamChunks_marker
      (w := { w with sock := first, part := some (file ++ chunks.flatten) })
      (file ++ chunks.flatten).length (h ++ chunks.flatten) (left.trans marker)
    rw [marked] at run
    obtain ⟨third, read, kept''⟩ := recvExact_truncated sha256Len second
      (by rw [left']; exact short)
    refine ⟨second.incoming.length, sha256Len, third, kept''.trans (kept'.trans kept), ?_⟩
    rw [streamBody_received run, onSock, Prog.bind_error (Prog.zoom_run read)]

/-- Whichever offset was accepted, the chunk loop starts on the base with its digest. -/
theorem acceptOffset_base (w : World) (accepted : Nat) :
    ∃ opened, acceptOffset w.partSize accepted w =
        (.ok ((base (w.part.getD []) accepted).length, base (w.part.getD []) accepted), opened) ∧
      opened.openPart (base (w.part.getD []) accepted).length =
        { w with part := some (base (w.part.getD []) accepted) } := by
  by_cases refused : accepted = w.partSize
  · have whole : base (w.part.getD []) accepted = w.part.getD [] := if_pos refused
    by_cases some_bytes : accepted = 0
    · have empty : w.part.getD [] = [] := List.length_eq_zero_iff.mp (refused.symm.trans some_bytes)
      refine ⟨w, ?_, ?_⟩
      · rw [acceptOffset, if_neg (not_not.mpr refused), if_neg (not_not.mpr some_bytes), whole, empty,
          some_bytes]
        rfl
      · rw [whole, empty]
        rfl
    · have present : w.part = some (w.part.getD []) := by
        cases stored : w.part with
        | none =>
            rw [World.partSize, stored] at refused
            exact absurd refused some_bytes
        | some file => rfl
      have hashed := hashPrefix_eq accepted (w.part.getD []) [] (le_of_eq refused)
      rw [List.nil_append, List.take_of_length_le (le_of_eq refused.symm)] at hashed
      refine ⟨w, ?_, ?_⟩
      · rw [acceptOffset, if_neg (not_not.mpr refused), if_pos some_bytes, whole]
        simp only [Prog.bind_run, Prog.get_run, hashed, Prog.ofExcept_run, Prog.pure_run]
        rw [refused]
        rfl
      · rw [whole, World.openPart, if_pos (by rw [← World.partSize, ← refused]; exact some_bytes),
          ← present]
  · have none_left : base (w.part.getD []) accepted = [] := if_neg refused
    refine ⟨w.removePart, ?_, ?_⟩
    · rw [acceptOffset, if_pos refused, none_left]
      rfl
    · rw [none_left]
      rfl

section Receive

variable (sha256 : Sha256) {w : World} (fits : w.partSize < 2 ^ 64)
include fits

theorem claim_run : ∃ claimed, claimed.incoming = w.sock.incoming ∧
    claimed.sent = w.sock.sent ++ frame (bigEndian 8 w.partSize) ∧
    receive sha256 w = (onSock recvFrame >>= fun header => do
      let (totalSize, accepted) ← Prog.ofExcept (unpackHeader header)
      let (acceptedOffset, h) ← acceptOffset w.partSize accepted
      Prog.update (World.openPart acceptedOffset)
      let ending ← catchDrop (streamBody acceptedOffset h)
      conclude sha256 totalSize ending) { w with sock := claimed } := by
  have packed : packQ w.partSize = .ok (bigEndian 8 w.partSize) := if_pos fits
  have sendable : Sendable (bigEndian 8 w.partSize) := by
    rw [Sendable, bigEndian_length]
    decide
  have sent := sendFrame_run sendable w.sock
  refine ⟨{ w.sock with sent := w.sock.sent ++ frame (bigEndian 8 w.partSize) }, rfl, rfl, ?_⟩
  rw [receive, Prog.bind_ok (Prog.get_run w), packed, Prog.bind_ok (Prog.ofExcept_run _ w), onSock,
    Prog.bind_ok (Prog.zoom_run sent)]

theorem receive_headerless (h : Headerless w.sock.incoming) :
    ∃ failure sock, sock.sent = w.sock.sent ++ frame (bigEndian 8 w.partSize) ∧
      receive sha256 w = (.error failure, { w with sock }) := by
  obtain ⟨claimed, incoming, sent, run⟩ := claim_run sha256 fits
  rw [run]
  rcases frame_or_unframed w.sock.incoming with ⟨payload, rest, sendable, split⟩ | unframed
  · obtain ⟨sock, read, _, kept⟩ := recvFrame_complete sendable (incoming.trans split)
    have misfit : unpackHeader payload = .error .structError := by
      refine if_neg fun size => ?_
      obtain ⟨total, accepted, total_fits, accepted_fits, rfl⟩ := header_of_length size
      exact h total accepted total_fits accepted_fits ⟨rest, split.symm⟩
    refine ⟨.structError, sock, kept.trans sent, ?_⟩
    rw [onSock, Prog.bind_ok (Prog.zoom_run read), misfit, Prog.bind_error (Prog.ofExcept_run _ _)]
  · rw [← incoming] at unframed
    obtain ⟨got, wanted, sock, read, kept⟩ := recvFrame_truncated unframed
    exact ⟨_, sock, kept.trans sent, by rw [onSock, Prog.bind_error (Prog.zoom_run read)]⟩

/-- Behind a header the chunk loop runs on the base. -/
theorem receive_started {total accepted : Nat} {rest : Bytes} (total_fits : total < 2 ^ 64)
    (accepted_fits : accepted < 2 ^ 64) (split : w.sock.incoming = header total accepted ++ rest) :
    ∃ sock, sock.incoming = rest ∧
      sock.sent = w.sock.sent ++ frame (bigEndian 8 w.partSize) ∧
      receive sha256 w =
        (catchDrop (streamBody (base (w.part.getD []) accepted).length
          (base (w.part.getD []) accepted)) >>= conclude sha256 total)
          { w with sock, part := some (base (w.part.getD []) accepted) } := by
  obtain ⟨claimed, incoming, sent, run⟩ := claim_run sha256 fits
  obtain ⟨sock, read, left, kept⟩ :=
    recvFrame_complete (header_sendable total accepted) (incoming.trans split)
  obtain ⟨opened, negotiated, started⟩ := acceptOffset_base { w with sock } accepted
  refine ⟨sock, left, kept.trans sent, ?_⟩
  rw [run, onSock, Prog.bind_ok (Prog.zoom_run read), unpackHeader_header total_fits accepted_fits,
    Prog.bind_ok (Prog.ofExcept_run _ _)]
  refine (Prog.bind_ok negotiated _).trans ((Prog.bind_ok (Prog.update_run _ _) _).trans ?_)
  exact congrArg _ started

theorem receive_complete {total accepted : Nat} {chunks : List Bytes} {trailer : Bytes}
    (h : Complete w.sock.incoming total accepted chunks trailer) :
    ∃ sock, sock.sent = w.sock.sent ++ frame (bigEndian 8 w.partSize) ∧
      receive sha256 w =
        if (content (w.part.getD []) accepted chunks).length = total ∧
            sha256.digest (content (w.part.getD []) accepted chunks) = trailer then
          (.ok 0, { w with
            sock, part := none, out := some (content (w.part.getD []) accepted chunks)
            promoted := w.promoted ++ [content (w.part.getD []) accepted chunks] })
        else (.ok 1, { w with sock, part := none }) := by
  obtain ⟨rest, split⟩ := h.starts
  simp only [List.append_assoc] at split
  obtain ⟨started, left, sent, run⟩ :=
    receive_started sha256 fits h.total_fits h.accepted_fits split.symm
  obtain ⟨sock, kept, arrived⟩ := streamBody_complete h.chunks_sent
    (w := { w with sock := started, part := some (base (w.part.getD []) accepted) })
    (base (w.part.getD []) accepted) h.trailer_length left rfl
  refine ⟨sock, kept.trans sent, ?_⟩
  rw [run, Prog.bind_ok (by rw [catchDrop, arrived]), conclude, ← content]
  split <;> rfl

theorem receive_truncated {total accepted : Nat} {chunks : List Bytes}
    (h : Truncated w.sock.incoming total accepted chunks) :
    ∃ sock, sock.sent = w.sock.sent ++ frame (bigEndian 8 w.partSize) ∧
      receive sha256 w =
        (.ok 1, { w with sock, part := some (content (w.part.getD []) accepted chunks) }) := by
  obtain ⟨rest, split, stop⟩ := h.stops
  rw [List.append_assoc] at split
  obtain ⟨started, left, sent, run⟩ :=
    receive_started sha256 fits h.total_fits h.accepted_fits split
  obtain ⟨got, wanted, sock, kept, dropped⟩ := streamBody_cutOff h.chunks_sent
    (w := { w with sock := started, part := some (base (w.part.getD []) accepted) })
    (base (w.part.getD []) accepted) left stop rfl
  refine ⟨sock, kept.trans sent, ?_⟩
  rw [run, Prog.bind_ok (by rw [catchDrop, dropped])]
  rfl

end Receive

/-- A receiver without a partial file that is sent a file of one byte. -/
def firstDelivery : World where
  sock :=
    { incoming := header 1 0 ++ body [[7]] ++ frame [] ++ Sha256.keepFirst.digest [7]
      pace := [3, 1, 4]
      sent := [] }
  part := none
  out := none
  promoted := []

end SecureTransfer.ApproachA
