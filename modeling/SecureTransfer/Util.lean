import SecureTransfer.Library.Bytes
import SecureTransfer.Library.Program

/-! # Streaming, framing and hashing helpers

The constants of `common/util.py` and its socket plumbing. How the transport cuts
the bytes of the peer into `recv` results is data of the socket, so every statement
about a socket is one about every segmentation.
-/

namespace SecureTransfer

open Library

def chunkSize : Nat := 1 * 1024 * 1024

def hashReadSize : Nat := 1 * 1024 * 1024

def sha256Len : Nat := 32

theorem chunkSize_pos : 0 < chunkSize := by decide

/-- `hashlib.sha256`, of which only the length of a digest is fixed here. -/
structure Sha256 where
  digest : Bytes → Bytes
  digest_length : ∀ data, (digest data).length = sha256Len

/-- The first 32 bytes of the padded data, to evaluate the development on. -/
def Sha256.keepFirst : Sha256 where
  digest data := (data ++ List.replicate sha256Len 0).take sha256Len
  digest_length data := by
    rw [List.length_take, List.length_append, List.length_replicate]
    omega

/-- What the helpers raise. -/
inductive Failure where
  | connectionError (got wanted : Nat)
  | structError
  | osError (message : String)
deriving DecidableEq, Repr

def Failure.text : Failure → String
  | .connectionError got wanted => s!"peer closed after {got}/{wanted} bytes (truncated message)"
  | .structError => "struct.error"
  | .osError message => message

/-! ## Sockets -/

/-- One end of a connection: what the peer sends before it closes, how many bytes each
    `recv` finds, and what was sent to the peer, which takes everything. -/
structure Sock where
  incoming : Bytes
  pace : List Nat
  sent : Bytes

namespace Sock

/-- A `recv` returns at least one byte until the peer has closed. -/
def recv (limit : Nat) (sock : Sock) : Bytes × Sock :=
  let found := min limit (max 1 (sock.pace.headD limit))
  (sock.incoming.take found,
    { sock with incoming := sock.incoming.drop found, pace := sock.pace.tail })

def sendall (data : Bytes) (sock : Sock) : Sock := { sock with sent := sock.sent ++ data }

/-- The same connection after `count` more bytes were read. -/
def Reads (sock : Sock) (count : Nat) (after : Sock) : Prop :=
  after.incoming = sock.incoming.drop count ∧ after.sent = sock.sent

theorem recv_reads {limit : Nat} (hl : 0 < limit) {sock after : Sock} {block : Bytes}
    (h : sock.recv limit = (block, after)) :
    ∃ found, 0 < found ∧ found ≤ limit ∧ block = sock.incoming.take found ∧
      sock.Reads found after := by
  obtain ⟨rfl, rfl⟩ := Prod.mk.inj h
  exact ⟨min limit (max 1 (sock.pace.headD limit)), by omega, by omega, rfl, rfl, rfl⟩

end Sock

/-- `recv_exact`, entered with `buf` already read. -/
def recvExactFrom (n : Nat) (buf : Bytes) : Prog Sock Failure Bytes := fun sock =>
  if buf.length < n then
    match sock.recv (min 65536 (n - buf.length)) with
    | ([], sock) => (.error (.connectionError buf.length n), sock)
    | (byte :: block, sock) => recvExactFrom n (buf ++ byte :: block) sock
  else (.ok buf, sock)
termination_by n - buf.length
decreasing_by
  simp only [List.length_append, List.length_cons]
  omega

def recvExact (n : Nat) : Prog Sock Failure Bytes := recvExactFrom n []

/-- `struct.Struct(">Q").pack(n)`. -/
def packQ (n : Nat) : Except Failure Bytes :=
  if n < 2 ^ 64 then .ok (bigEndian 8 n) else .error .structError

/-- `struct.unpack(">Q", data)`. -/
def unpackQ (data : Bytes) : Except Failure Nat :=
  if data.length = 8 then .ok (fromBigEndian data) else .error .structError

/-- `send_frame` with the `sendall` of a socket. -/
def sendFrameVia {σ : Type} (sendall : Bytes → Prog σ Failure Unit) (payload : Bytes) : Prog σ Failure Unit := do
  let length ← Prog.ofExcept (packQ payload.length)
  sendall length
  sendall payload

def sendFrame (payload : Bytes) : Prog Sock Failure Unit :=
  sendFrameVia (fun data => Prog.update (Sock.sendall data)) payload

def recvFrame : Prog Sock Failure Bytes := do
  let prefixBytes ← recvExact 8
  let length ← Prog.ofExcept (unpackQ prefixBytes)
  recvExact length

/-! ## What a read returns -/

theorem recvExactFrom_complete (n : Nat) (buf : Bytes) (sock : Sock) (short : buf.length ≤ n)
    (enough : n - buf.length ≤ sock.incoming.length) :
    ∃ after, recvExactFrom n buf sock = (.ok (buf ++ sock.incoming.take (n - buf.length)), after) ∧
      sock.Reads (n - buf.length) after := by
  fun_induction recvExactFrom n buf sock with
  | case1 buf sock more closed received =>
      obtain ⟨found, some_found, bounded, block, _⟩ :=
        Sock.recv_reads (by omega) received
      rw [eq_comm, List.take_eq_nil_iff] at block
      rcases block with zero | empty
      · omega
      · rw [empty, List.length_nil] at enough
        omega
  | case2 buf sock more byte block next received ih =>
      obtain ⟨found, some_found, bounded, taken, reads⟩ :=
        Sock.recv_reads (by omega) received
      have count : (byte :: block).length = found := by
        rw [taken, List.length_take]
        omega
      have left : n - (buf ++ byte :: block).length = n - buf.length - found := by
        rw [List.length_append, count]
        omega
      obtain ⟨after, result, rest⟩ := ih (by rw [List.length_append, count]; omega)
        (by rw [left, reads.1, List.length_drop]; omega)
      refine ⟨after, ?_, ?_⟩
      · rw [result, left, reads.1, taken, List.append_assoc, ← List.take_add,
          Nat.add_sub_cancel' (by omega)]
      · rw [left] at rest
        refine ⟨?_, rest.2.trans reads.2⟩
        rw [rest.1, reads.1, List.drop_drop, Nat.add_sub_cancel' (by omega)]
  | case3 buf sock full =>
      have zero : n - buf.length = 0 := by omega
      exact ⟨sock, by rw [zero, List.take_zero, List.append_nil], by rw [zero]; rfl, rfl⟩

theorem recvExactFrom_truncated (n : Nat) (buf : Bytes) (sock : Sock)
    (short : sock.incoming.length < n - buf.length) :
    ∃ after, recvExactFrom n buf sock =
        (.error (.connectionError (buf.length + sock.incoming.length) n), after) ∧
      after.sent = sock.sent := by
  fun_induction recvExactFrom n buf sock with
  | case1 buf sock more closed received =>
      obtain ⟨found, some_found, bounded, block, reads⟩ :=
        Sock.recv_reads (by omega) received
      rw [eq_comm, List.take_eq_nil_iff] at block
      rcases block with zero | empty
      · omega
      · exact ⟨closed, by rw [empty, List.length_nil, Nat.add_zero], reads.2⟩
  | case2 buf sock more byte block next received ih =>
      obtain ⟨found, some_found, bounded, taken, reads⟩ :=
        Sock.recv_reads (by omega) received
      have count : (byte :: block).length = min found sock.incoming.length := by
        rw [taken, List.length_take]
      have some_byte : 0 < (byte :: block).length := Nat.succ_pos _
      have total : (buf ++ byte :: block).length + next.incoming.length =
          buf.length + sock.incoming.length := by
        rw [List.length_append, reads.1, List.length_drop]
        omega
      obtain ⟨after, result, kept⟩ := ih (by
        rw [List.length_append] at total ⊢
        omega)
      exact ⟨after, by rw [result, total], kept.trans reads.2⟩
  | case3 buf sock full => omega

theorem recvExact_complete (n : Nat) (sock : Sock) (enough : n ≤ sock.incoming.length) :
    ∃ after, recvExact n sock = (.ok (sock.incoming.take n), after) ∧ sock.Reads n after :=
  recvExactFrom_complete n [] sock (Nat.zero_le n) enough

theorem recvExact_truncated (n : Nat) (sock : Sock) (short : sock.incoming.length < n) :
    ∃ after, recvExact n sock = (.error (.connectionError sock.incoming.length n), after) ∧
      after.sent = sock.sent := by
  simpa only [List.length_nil, Nat.zero_add, recvExact] using
    recvExactFrom_truncated n [] sock short

/-! ## Frames -/

/-- The bytes `send_frame` sends. -/
def frame (payload : Bytes) : Bytes := bigEndian 8 payload.length ++ payload

@[simp] theorem frame_length (payload : Bytes) : (frame payload).length = 8 + payload.length := by
  rw [frame, List.length_append, bigEndian_length]

/-- A payload whose length fits the length prefix. -/
def Sendable (payload : Bytes) : Prop := payload.length < 2 ^ 64

theorem sendFrame_run {payload : Bytes} (fits : Sendable payload) (sock : Sock) :
    sendFrame payload sock = (.ok (), { sock with sent := sock.sent ++ frame payload }) := by
  have packed : packQ payload.length = .ok (bigEndian 8 payload.length) := if_pos fits
  simp only [sendFrame, sendFrameVia, packed, Prog.bind_run, Prog.ofExcept_run, Prog.update_run, Sock.sendall,
    List.append_assoc, frame]

theorem sendFrame_long {payload : Bytes} (long : ¬ Sendable payload) (sock : Sock) :
    sendFrame payload sock = (.error .structError, sock) := by
  have packed : packQ payload.length = .error .structError := if_neg long
  rw [sendFrame, sendFrameVia, packed]
  rfl

theorem frame_take (payload rest : Bytes) :
    (frame payload ++ rest).take 8 = bigEndian 8 payload.length := by
  rw [frame, List.append_assoc]
  exact List.take_left' (bigEndian_length 8 _)

theorem frame_drop (payload rest : Bytes) : (frame payload ++ rest).drop 8 = payload ++ rest := by
  rw [frame, List.append_assoc]
  exact List.drop_left' (bigEndian_length 8 _)

theorem fromBigEndian_packed {n : Nat} (fits : n < 2 ^ 64) : fromBigEndian (bigEndian 8 n) = n := by
  rw [fromBigEndian_bigEndian]
  exact Nat.mod_eq_of_lt fits

/-- Two streams that start with a frame have the same payload and the same rest. -/
theorem frame_append_inj {p q rest tail : Bytes} (hp : Sendable p) (hq : Sendable q)
    (h : frame p ++ rest = frame q ++ tail) : p = q ∧ rest = tail := by
  have lengths := congrArg (List.take 8) h
  rw [frame_take, frame_take] at lengths
  have same : p.length = q.length := by
    have decoded := congrArg fromBigEndian lengths
    rwa [fromBigEndian_packed hp, fromBigEndian_packed hq] at decoded
  have bodies := congrArg (List.drop 8) h
  rw [frame_drop, frame_drop] at bodies
  exact List.append_inj bodies same

theorem recvFrame_complete {payload rest : Bytes} {sock : Sock} (fits : Sendable payload)
    (h : sock.incoming = frame payload ++ rest) :
    ∃ after, recvFrame sock = (.ok payload, after) ∧ after.incoming = rest ∧
      after.sent = sock.sent := by
  obtain ⟨lengthRead, first, reads⟩ := recvExact_complete 8 sock (by
    rw [h, List.length_append, frame_length]
    omega)
  rw [h, frame_take] at first
  have incoming : lengthRead.incoming = payload ++ rest := by rw [reads.1, h, frame_drop]
  obtain ⟨after, second, consumed⟩ := recvExact_complete payload.length lengthRead (by
    rw [incoming, List.length_append]
    omega)
  rw [incoming, List.take_left' rfl] at second
  have unpacked : unpackQ (bigEndian 8 payload.length) = .ok payload.length := by
    rw [unpackQ, if_pos (bigEndian_length 8 _), fromBigEndian_packed fits]
  refine ⟨after, ?_, ?_, consumed.2.trans reads.2⟩
  · rw [recvFrame, Prog.bind_ok first, Prog.bind_ok (by rw [unpacked]; rfl), second]
  · rw [consumed.1, incoming, List.drop_left' rfl]

/-- No complete frame is there to read. -/
def Unframed (bytes : Bytes) : Prop := ∀ payload, Sendable payload → ¬ frame payload <+: bytes

theorem recvFrame_truncated {sock : Sock} (h : Unframed sock.incoming) :
    ∃ got wanted after, recvFrame sock = (.error (.connectionError got wanted), after) ∧
      after.sent = sock.sent := by
  by_cases long : 8 ≤ sock.incoming.length
  · obtain ⟨lengthRead, first, reads⟩ := recvExact_complete 8 sock long
    have eight : (sock.incoming.take 8).length = 8 := by
      rw [List.length_take]
      omega
    have unpacked : unpackQ (sock.incoming.take 8) = .ok (fromBigEndian (sock.incoming.take 8)) :=
      if_pos eight
    have small := fromBigEndian_lt (sock.incoming.take 8)
    rw [eight] at small
    have short : lengthRead.incoming.length < fromBigEndian (sock.incoming.take 8) := by
      by_contra enough
      rw [reads.1] at enough
      let payload := (sock.incoming.drop 8).take (fromBigEndian (sock.incoming.take 8))
      have size : payload.length = fromBigEndian (sock.incoming.take 8) := by
        rw [List.length_take]
        omega
      have encoded := bigEndian_fromBigEndian (sock.incoming.take 8)
      rw [eight] at encoded
      refine h payload (by rw [Sendable, size]; exact small)
        ⟨(sock.incoming.drop 8).drop (fromBigEndian (sock.incoming.take 8)), ?_⟩
      rw [frame, size, encoded, List.append_assoc, List.take_append_drop, List.take_append_drop]
    obtain ⟨after, second, kept⟩ := recvExact_truncated _ lengthRead short
    refine ⟨lengthRead.incoming.length, fromBigEndian (sock.incoming.take 8), after, ?_,
      kept.trans reads.2⟩
    rw [recvFrame, Prog.bind_ok first, Prog.bind_ok (by rw [unpacked]; rfl), second]
  · obtain ⟨after, first, kept⟩ := recvExact_truncated 8 sock (by omega)
    exact ⟨sock.incoming.length, 8, after, by rw [recvFrame, Prog.bind_error first], kept⟩

theorem frame_or_unframed (bytes : Bytes) :
    (∃ payload rest, Sendable payload ∧ bytes = frame payload ++ rest) ∨ Unframed bytes := by
  by_cases found : ∃ payload, Sendable payload ∧ frame payload <+: bytes
  · obtain ⟨payload, fits, rest, split⟩ := found
    exact .inl ⟨payload, rest, fits, split.symm⟩
  · exact .inr fun payload fits start => found ⟨payload, fits, start⟩

/-- A stream of frames that stops anywhere is some whole frames and a part of the next one. -/
theorem framed_prefix {payloads : List Bytes} (fits : ∀ payload ∈ payloads, Sendable payload) {bytes : Bytes}
    (start : bytes <+: payloads.flatMap frame) :
    ∃ m cut, bytes = (payloads.take m).flatMap frame ++ cut ∧ Unframed cut ∧ m ≤ payloads.length ∧
      (m = payloads.length → cut = []) := by
  induction payloads generalizing bytes with
  | nil =>
      rw [List.flatMap_nil, List.prefix_nil] at start
      refine ⟨0, [], by rw [start]; rfl, fun payload _ inside => ?_, le_refl _, fun _ => rfl⟩
      have lengths := inside.length_le
      rw [frame_length, List.length_nil] at lengths
      omega
  | cons first later ih =>
      rw [List.flatMap_cons] at start
      by_cases whole : frame first <+: bytes
      · obtain ⟨rest, rfl⟩ := whole
        obtain ⟨m, cut, split, ends, bound, last⟩ := ih (fun payload member => fits payload (by simp [member]))
          ((List.prefix_append_right_inj _).mp start)
        refine ⟨m + 1, cut, ?_, ends, Nat.succ_le_succ bound, fun all => last (Nat.succ.inj all)⟩
        rw [split, List.take_succ_cons, List.flatMap_cons, List.append_assoc]
      · refine ⟨0, bytes, rfl, fun payload small inside => whole ?_, Nat.zero_le _, fun zero => ?_⟩
        · obtain ⟨tail, split⟩ := inside
          obtain ⟨rest, split'⟩ := start
          rw [← split, List.append_assoc] at split'
          rw [← (frame_append_inj small (fits first List.mem_cons_self) split').1]
          exact ⟨tail, split⟩
        · cases zero

/-- A frame that was read is gone from the socket. -/
theorem recvFrame_shrinks {sock after : Sock} {payload : Bytes}
    (h : recvFrame sock = (.ok payload, after)) :
    after.incoming.length < sock.incoming.length := by
  rcases frame_or_unframed sock.incoming with ⟨data, rest, fits, split⟩ | unframed
  · obtain ⟨next, read, left, _⟩ := recvFrame_complete fits split
    rw [h] at read
    obtain ⟨_, rfl⟩ := Prod.mk.inj read
    rw [left, split, List.length_append, frame_length]
    omega
  · obtain ⟨got, wanted, next, read, _⟩ := recvFrame_truncated unframed
    rw [h] at read
    cases (Prod.mk.inj read).1

theorem recvFrame_ok {sock after : Sock} {payload : Bytes} (read : recvFrame sock = (.ok payload, after)) :
    Sendable payload ∧ sock.incoming = frame payload ++ after.incoming ∧ after.sent = sock.sent := by
  rcases frame_or_unframed sock.incoming with ⟨data, rest, fits, split⟩ | unframed
  · obtain ⟨next, read', left, kept⟩ := recvFrame_complete fits split
    rw [read] at read'
    cases read'
    exact ⟨fits, by rw [left, split], kept⟩
  · obtain ⟨got, wanted, next, read', _⟩ := recvFrame_truncated unframed
    rw [read] at read'
    cases read'

theorem recvExact_ok {n : Nat} {sock after : Sock} {data : Bytes} (read : recvExact n sock = (.ok data, after)) :
    data.length = n ∧ sock.incoming = data ++ after.incoming ∧ after.sent = sock.sent := by
  by_cases enough : n ≤ sock.incoming.length
  · obtain ⟨next, read', reads⟩ := recvExact_complete n sock enough
    rw [read] at read'
    cases read'
    exact ⟨List.length_take_of_le enough, by rw [reads.1, List.take_append_drop], reads.2⟩
  · obtain ⟨next, read', _⟩ := recvExact_truncated n sock (not_le.mp enough)
    rw [read] at read'
    cases read'

/-! ## Hashing a prefix -/

/-- Both sides of the TLS approach hash the first `remaining` bytes of an open file in
    reads of at most `block` bytes: what was hashed on top of `h`, and what is left of
    the file. -/
def hashNext (block : Nat) (message : String) (remaining : Nat) (file h : Bytes) :
    Except Failure (Bytes × Bytes) :=
  if 0 < remaining then
    match file.take (min block remaining) with
    | [] => .error (.osError message)
    | byte :: data =>
        hashNext block message (remaining - (byte :: data).length)
          (file.drop (byte :: data).length) (h ++ byte :: data)
  else .ok (h, file)
termination_by remaining
decreasing_by
  simp only [List.length_cons]
  omega

theorem hashNext_eq {block : Nat} (hb : 0 < block) (message : String) (n : Nat) (file h : Bytes)
    (enough : n ≤ file.length) :
    hashNext block message n file h = .ok (h ++ file.take n, file.drop n) := by
  fun_induction hashNext block message n file h with
  | case1 n file h more nothing =>
      rw [List.take_eq_nil_iff] at nothing
      rcases nothing with zero | empty
      · omega
      · rw [empty, List.length_nil] at enough
        omega
  | case2 n file h more byte data read ih =>
      have size : (byte :: data).length = min (min block n) file.length := by
        rw [← read, List.length_take]
      have taken : byte :: data = file.take (byte :: data).length := by
        rw [← read, List.length_take, List.take_eq_take_iff]
        omega
      rw [ih (by rw [List.length_drop]; omega), List.append_assoc, List.drop_drop,
        Nat.add_sub_cancel' (by omega)]
      have joined : file.take n =
          file.take (byte :: data).length ++
            (file.drop (byte :: data).length).take (n - (byte :: data).length) := by
        rw [← List.take_add, Nat.add_sub_cancel' (by omega)]
      rw [joined, ← taken]
  | case3 n file h done =>
      rw [Nat.eq_zero_of_not_pos done, List.take_zero, List.append_nil, List.drop_zero]

end SecureTransfer
