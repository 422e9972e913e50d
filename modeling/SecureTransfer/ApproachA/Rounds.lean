import SecureTransfer.ApproachA.Acceptance
import SecureTransfer.ApproachA.Sender
import Mathlib.Data.Set.Function
import Mathlib.Logic.Relation

/-! # Rounds of a sender and a receiver

A round connects `stream` on a source file to `receive` on a disk. The link may cut
what either side hears at any byte. Cut rounds keep the partial file a prefix of the
source, and a round that is not cut delivers it, from any partial file in at most
two rounds.
-/

namespace SecureTransfer.ApproachA

open Library

/-! ## What the sender sends -/

/-- The offset the sender resumes from. -/
def resumeOffset (file : Bytes) (claimed : Nat) : Nat := if claimed ≤ file.length then claimed else 0

def streamed (sha256 : Sha256) (file : Bytes) (claimed : Nat) : Bytes :=
  header file.length (resumeOffset file claimed) ++
    body (pieces chunkSize (file.drop (resumeOffset file claimed))) ++ frame [] ++ sha256.digest file

theorem resumeOffset_le (file : Bytes) (claimed : Nat) : resumeOffset file claimed ≤ file.length := by
  unfold resumeOffset
  split
  · assumption
  · exact Nat.zero_le _

theorem pieces_chunks (file : Bytes) : Chunks (pieces chunkSize file) := by
  intro piece member
  obtain ⟨some_bytes, bounded⟩ := mem_pieces member
  exact ⟨some_bytes, lt_of_le_of_lt bounded (by decide)⟩

theorem sendChunks_run (file h : Bytes) (sock : Sock) :
    sendChunks file h sock =
      (.ok (h ++ file), { sock with sent := sock.sent ++ body (pieces chunkSize file) }) := by
  fun_induction sendChunks file h generalizing sock with
  | case1 h => simp [pieces]
  | case2 file h more chunk ih =>
      have fits : Sendable chunk := lt_of_le_of_lt (List.length_take_le _ _) (by decide)
      have cut : pieces chunkSize file = chunk :: pieces chunkSize (file.drop chunkSize) := by
        rw [pieces, if_neg]
        exact not_or.mpr ⟨chunkSize_pos.ne', more⟩
      rw [Prog.bind_ok (sendFrame_run fits sock), ih, cut, body_cons]
      simp only [chunk, List.append_assoc, List.take_append_drop]

theorem packHeader_run {fileSize accepted : Nat} (hs : fileSize < 2 ^ 64) (ha : accepted < 2 ^ 64) :
    packHeader fileSize accepted = .ok (bigEndian 8 fileSize ++ bigEndian 8 accepted) := by
  simp only [packHeader, packQ, if_pos hs, if_pos ha]
  rfl

theorem stream_run (sha256 : Sha256) {file : Bytes} (rest : Bytes) (claimed : Nat) (sock : Sock)
    (fits : file.length < 2 ^ 64) (claimed_fits : claimed < 2 ^ 64)
    (incoming : sock.incoming = frame (bigEndian 8 claimed) ++ rest) :
    ∃ after, stream sha256 file sock = (.ok 0, after) ∧
      after.sent = sock.sent ++ streamed sha256 file claimed := by
  have sendable : Sendable (bigEndian 8 claimed) := by
    rw [Sendable, bigEndian_length]
    decide
  obtain ⟨heard, read, _, kept⟩ := recvFrame_complete sendable incoming
  have unpacked : unpackQ (bigEndian 8 claimed) = .ok claimed := by
    rw [unpackQ, if_pos (bigEndian_length 8 _), fromBigEndian_packed claimed_fits]
  have within := resumeOffset_le file claimed
  have hashed := hashNext_eq chunkSize_pos "source file shorter than the resume offset"
    (resumeOffset file claimed) file [] within
  refine ⟨{ heard with sent := sock.sent ++ streamed sha256 file claimed }, ?_, rfl⟩
  rw [stream, Prog.bind_ok read, unpacked, Prog.bind_ok (Prog.ofExcept_run _ _), ← resumeOffset,
    packHeader_run fits (lt_of_le_of_lt within fits), Prog.bind_ok (Prog.ofExcept_run _ _),
    Prog.bind_ok (sendFrame_run (header_sendable _ _) _), hashed,
    Prog.bind_ok (Prog.ofExcept_run _ _), Prog.bind_ok (sendChunks_run _ _ _),
    Prog.bind_ok (sendFrame_run sendable_nil _), Prog.bind_ok (Prog.update_run _ _)]
  simp only [Sock.sendall, kept, streamed, header, List.nil_append, List.take_append_drop,
    List.append_assoc, Prog.pure_run]

theorem stream_unframed (sha256 : Sha256) (file : Bytes) {sock : Sock}
    (unframed : Unframed sock.incoming) : (stream sha256 file sock).2.sent = sock.sent := by
  obtain ⟨got, wanted, after, read, kept⟩ := recvFrame_truncated unframed
  rw [stream, Prog.bind_error read]
  exact kept

/-! ## What a cut stream still says -/

theorem body_initial {chunks pieces : List Bytes} (hc : Chunks chunks) (hp : Chunks pieces)
    {rest tail : Bytes} (h : body chunks ++ rest = body pieces ++ (frame [] ++ tail)) :
    chunks <+: pieces := by
  induction chunks generalizing pieces with
  | nil => exact List.nil_prefix
  | cons chunk chunks ih =>
      cases pieces with
      | nil =>
          rw [body_cons, List.append_assoc, body_nil, List.nil_append] at h
          exact absurd (frame_append_inj hc.head.2 sendable_nil h).1 hc.head.1
      | cons piece pieces =>
          simp only [body_cons, List.append_assoc] at h
          obtain ⟨rfl, later⟩ := frame_append_inj hc.head.2 hp.head.2 h
          exact List.prefix_cons_inj _ |>.mpr (ih hc.tail hp.tail later)

theorem body_inj {chunks pieces : List Bytes} (hc : Chunks chunks) (hp : Chunks pieces)
    {rest tail : Bytes} (h : body chunks ++ (frame [] ++ rest) = body pieces ++ (frame [] ++ tail)) :
    chunks = pieces ∧ rest = tail := by
  have same : chunks = pieces :=
    (body_initial hc hp h).eq_of_length_le (body_initial hp hc h.symm).length_le
  subst same
  exact ⟨rfl, List.append_cancel_left (List.append_cancel_left h)⟩

theorem header_append_inj {total accepted total' accepted' : Nat} (ht : total < 2 ^ 64)
    (ha : accepted < 2 ^ 64) (ht' : total' < 2 ^ 64) (ha' : accepted' < 2 ^ 64) {rest tail : Bytes}
    (h : header total accepted ++ rest = header total' accepted' ++ tail) :
    total = total' ∧ accepted = accepted' ∧ rest = tail := by
  obtain ⟨payload, later⟩ := frame_append_inj (header_sendable _ _) (header_sendable _ _) h
  have unpacked := congrArg unpackHeader payload
  rw [unpackHeader_header ht ha, unpackHeader_header ht' ha'] at unpacked
  simp only [Except.ok.injEq, Prod.mk.injEq] at unpacked
  exact ⟨unpacked.1, unpacked.2, later⟩

section Streamed

variable (sha256 : Sha256) {file : Bytes} (fits : file.length < 2 ^ 64) (claimed : Nat)
include fits

theorem streamed_complete :
    Complete (streamed sha256 file claimed) file.length (resumeOffset file claimed)
      (pieces chunkSize (file.drop (resumeOffset file claimed))) (sha256.digest file) where
  total_fits := fits
  accepted_fits := lt_of_le_of_lt (resumeOffset_le file claimed) fits
  chunks_sent := pieces_chunks _
  trailer_length := sha256.digest_length file
  starts := List.prefix_rfl

/-- A proper prefix of what the sender sends is never complete, and its complete chunks
    are the next bytes of the source. -/
theorem streamed_cut {heard : Bytes} (start : heard <+: streamed sha256 file claimed)
    (short : heard.length < (streamed sha256 file claimed).length) :
    Headerless heard ∨ ∃ chunks, Truncated heard file.length (resumeOffset file claimed) chunks ∧
      chunks.flatten <+: file.drop (resumeOffset file claimed) := by
  have whole := streamed_complete sha256 fits claimed
  obtain ⟨lost, split⟩ := start
  rcases stream_cases heard with ⟨total, accepted, chunks, trailer, complete⟩ |
    ⟨total, accepted, chunks, truncated⟩ | headerless
  · obtain ⟨rest, arrived⟩ := complete.starts
    rw [← arrived, streamed] at split
    simp only [List.append_assoc] at split
    obtain ⟨rfl, rfl, after_header⟩ := header_append_inj complete.total_fits
      complete.accepted_fits whole.total_fits whole.accepted_fits split
    obtain ⟨rfl, after_marker⟩ := body_inj complete.chunks_sent whole.chunks_sent after_header
    have sizes := congrArg List.length after_marker
    rw [List.length_append, complete.trailer_length, sha256.digest_length] at sizes
    rw [← arrived, streamed] at short
    simp only [List.length_append, complete.trailer_length, sha256.digest_length] at short
    omega
  · obtain ⟨rest, arrived, _⟩ := truncated.stops
    rw [arrived, streamed] at split
    simp only [List.append_assoc] at split
    obtain ⟨rfl, rfl, after_header⟩ := header_append_inj truncated.total_fits
      truncated.accepted_fits whole.total_fits whole.accepted_fits split
    obtain ⟨later, sent⟩ := body_initial truncated.chunks_sent whole.chunks_sent after_header
    refine .inr ⟨chunks, truncated, later.flatten, ?_⟩
    rw [← List.flatten_append, sent, pieces_flatten chunkSize_pos]
  · exact .inl headerless

end Streamed

/-! ## Rounds -/

/-- The two files of a receiver between rounds, and what was promoted so far. -/
structure Disk where
  part : Option Bytes
  out : Option Bytes
  promoted : List Bytes

def Disk.partSize (disk : Disk) : Nat := (disk.part.getD []).length

def Disk.connect (disk : Disk) (incoming : Bytes) (pace : List Nat) : World where
  sock := { incoming, pace, sent := [] }
  part := disk.part
  out := disk.out
  promoted := disk.promoted

def World.disk (w : World) : Disk where
  part := w.part
  out := w.out
  promoted := w.promoted

/-- How many bytes a connection carries to the sender and to the receiver before it is
    cut, and in which portions. -/
structure Link where
  up : Nat
  down : Nat
  senderPace : List Nat
  receiverPace : List Nat

/-- What the receiver sends before it hears anything. -/
def claim (sha256 : Sha256) (disk : Disk) : Bytes := (receive sha256 (disk.connect [] [])).2.sock.sent

/-- What the sender sends after hearing the claim as far as the link carries it. -/
def answer (sha256 : Sha256) (file : Bytes) (link : Link) (disk : Disk) : Bytes :=
  (stream sha256 file
    { incoming := (claim sha256 disk).take link.up, pace := link.senderPace, sent := [] }).2.sent

def round (sha256 : Sha256) (file : Bytes) (link : Link) (disk : Disk) : Except Failure Int × World :=
  receive sha256 (disk.connect ((answer sha256 file link disk).take link.down) link.receiverPace)

/-- The link carries everything either side sends. -/
def Uncut (sha256 : Sha256) (file : Bytes) (link : Link) (disk : Disk) : Prop :=
  (claim sha256 disk).length ≤ link.up ∧ (answer sha256 file link disk).length ≤ link.down

/-- A round that is cut somewhere, from one disk to the next. -/
def CutRound (sha256 : Sha256) (file : Bytes) (before after : Disk) : Prop :=
  ∃ link, ¬ Uncut sha256 file link before ∧ after = (round sha256 file link before).2.disk

section Rounds

variable (sha256 : Sha256) {file : Bytes} {disk : Disk}

/-- Whatever it hears, the receiver sends the size of its partial file and nothing else. -/
theorem receive_sent (w : World) (fits : w.partSize < 2 ^ 64) :
    (receive sha256 w).2.sock.sent = w.sock.sent ++ frame (bigEndian 8 w.partSize) := by
  rcases stream_cases w.sock.incoming with ⟨total, accepted, chunks, trailer, complete⟩ |
    ⟨total, accepted, chunks, truncated⟩ | headerless
  · obtain ⟨sock, sent, run⟩ := receive_complete sha256 fits complete
    rw [run]
    split <;> exact sent
  · obtain ⟨sock, sent, run⟩ := receive_truncated sha256 fits truncated
    rw [run]
    exact sent
  · obtain ⟨failure, sock, sent, run⟩ := receive_headerless sha256 fits headerless
    rw [run]
    exact sent

theorem claim_eq (fits : disk.partSize < 2 ^ 64) :
    claim sha256 disk = frame (bigEndian 8 disk.partSize) :=
  receive_sent sha256 (disk.connect [] []) fits

theorem answer_uncut (file_fits : file.length < 2 ^ 64) (fits : disk.partSize < 2 ^ 64) (link : Link)
    (carried : (claim sha256 disk).length ≤ link.up) :
    answer sha256 file link disk = streamed sha256 file disk.partSize := by
  obtain ⟨after, run, sent⟩ := stream_run sha256 [] disk.partSize
    { incoming := (claim sha256 disk).take link.up, pace := link.senderPace, sent := [] }
    file_fits fits (by rw [List.take_of_length_le carried, claim_eq sha256 fits, List.append_nil])
  rw [answer, run]
  exact sent

/-- A link that lasts long enough carries the whole round. -/
theorem uncut_exists (file : Bytes) (disk : Disk) (file_fits : file.length < 2 ^ 64)
    (fits : disk.partSize < 2 ^ 64) :
    ∃ link, Uncut sha256 file link disk := by
  let link : Link := ⟨(claim sha256 disk).length, (streamed sha256 file disk.partSize).length, [], []⟩
  refine ⟨link, le_refl _, ?_⟩
  rw [answer_uncut sha256 file_fits fits link (le_refl _)]

theorem unframed_initial {heard payload : Bytes} (sendable : Sendable payload)
    (start : heard <+: frame payload) (short : heard.length < (frame payload).length) :
    Unframed heard := by
  rintro other fits ⟨rest, split⟩
  obtain ⟨lost, joined⟩ := start
  have both : frame other ++ (rest ++ lost) = frame payload ++ [] := by
    rw [← List.append_assoc, split, joined, List.append_nil]
  obtain ⟨rfl, nothing⟩ := frame_append_inj fits sendable both
  rw [← split, List.length_append] at short
  omega

theorem answer_cut (fits : disk.partSize < 2 ^ 64) {link : Link}
    (lost : link.up < (claim sha256 disk).length) : answer sha256 file link disk = [] := by
  rw [answer, stream_unframed]
  rw [claim_eq sha256 fits] at lost ⊢
  refine unframed_initial ?_ (List.take_prefix _ _) ?_
  · rw [Sendable, bigEndian_length]
    decide
  · rw [List.length_take]
    omega

theorem unframed_nil : Unframed [] := by
  intro payload _ start
  have := start.length_le
  rw [frame_length, List.length_nil] at this
  omega

theorem headerless_nil : Headerless [] := by
  intro total accepted _ _ start
  have := start.length_le
  rw [header, frame_length, List.length_nil] at this
  omega

/-- An uncut round offers the rest of the source behind the accepted offset, and the
    receiver decides on its base with that rest. -/
theorem round_uncut (file_fits : file.length < 2 ^ 64) (fits : disk.partSize < 2 ^ 64) {link : Link}
    (uncut : Uncut sha256 file link disk) :
    let offset := resumeOffset file disk.partSize
    let whole := base (disk.part.getD []) offset ++ file.drop offset
    ∃ sock, round sha256 file link disk =
      if whole.length = file.length ∧ sha256.digest whole = sha256.digest file then
        (.ok 0, ⟨sock, none, some whole, disk.promoted ++ [whole]⟩)
      else (.ok 1, ⟨sock, none, disk.out, disk.promoted⟩) := by
  intro offset whole
  have sent := answer_uncut sha256 file_fits fits link uncut.1
  have complete := streamed_complete sha256 file_fits disk.partSize
  have carried : (answer sha256 file link disk).take link.down =
      streamed sha256 file disk.partSize := by rw [List.take_of_length_le uncut.2, sent]
  rw [← carried] at complete
  obtain ⟨sock, _, run⟩ := receive_complete sha256
    (w := disk.connect ((answer sha256 file link disk).take link.down) link.receiverPace)
    fits complete
  refine ⟨sock, ?_⟩
  rw [round, run, content, pieces_flatten chunkSize_pos]
  rfl

/-- A cut round on a partial file that is a prefix of the source promotes nothing and
    leaves a prefix that is no shorter. -/
theorem round_cut (file_fits : file.length < 2 ^ 64) (start : disk.part.getD [] <+: file)
    {link : Link} (cut : ¬ Uncut sha256 file link disk) :
    let after := (round sha256 file link disk).2
    after.out = disk.out ∧ after.promoted = disk.promoted ∧
      (after.part = disk.part ∨
        ∃ part, after.part = some part ∧ disk.part.getD [] <+: part ∧ part <+: file) := by
  intro after
  have fits : disk.partSize < 2 ^ 64 := lt_of_le_of_lt start.length_le file_fits
  have accepted : resumeOffset file disk.partSize = disk.partSize := if_pos start.length_le
  have cases : Headerless ((answer sha256 file link disk).take link.down) ∨
      ∃ chunks, Truncated ((answer sha256 file link disk).take link.down) file.length
        (resumeOffset file disk.partSize) chunks ∧
        chunks.flatten <+: file.drop (resumeOffset file disk.partSize) := by
    by_cases carried : (claim sha256 disk).length ≤ link.up
    · have sent := answer_uncut sha256 file_fits fits link carried
      have short : link.down < (answer sha256 file link disk).length := by
        by_contra enough
        exact cut ⟨carried, not_lt.mp enough⟩
      rw [sent] at short ⊢
      apply streamed_cut sha256 file_fits disk.partSize (List.take_prefix _ _)
      rw [List.length_take]
      omega
    · rw [answer_cut sha256 fits (not_le.mp carried), List.take_nil]
      exact .inl headerless_nil
  rcases cases with headerless | ⟨chunks, truncated, next⟩
  · obtain ⟨failure, sock, _, run⟩ := receive_headerless sha256
      (w := disk.connect ((answer sha256 file link disk).take link.down) link.receiverPace)
      fits headerless
    simp only [after, round, run]
    exact ⟨rfl, rfl, .inl rfl⟩
  · obtain ⟨sock, _, run⟩ := receive_truncated sha256
      (w := disk.connect ((answer sha256 file link disk).take link.down) link.receiverPace)
      fits truncated
    simp only [after, round, run]
    have grown : content (disk.part.getD []) (resumeOffset file disk.partSize) chunks =
        disk.part.getD [] ++ chunks.flatten := by
      have kept : base (disk.part.getD []) (resumeOffset file disk.partSize) =
          disk.part.getD [] := if_pos accepted
      rw [content, kept]
    refine ⟨rfl, rfl, .inr ⟨_, rfl, ?_, ?_⟩⟩
    · exact grown ▸ List.prefix_append _ _
    · rw [accepted] at next
      obtain ⟨lost, split⟩ := next
      obtain ⟨rest, whole⟩ := start
      refine ⟨lost, ?_⟩
      have dropped : file.drop disk.partSize = rest := by
        rw [← whole]
        exact List.drop_left' rfl
      show content (disk.part.getD []) (resumeOffset file disk.partSize) chunks ++ lost = file
      rw [grown, List.append_assoc, split, dropped, whole]

/-- With a prefix of the source at `.part`, an uncut round delivers the source. -/
theorem round_delivers (file_fits : file.length < 2 ^ 64) (start : disk.part.getD [] <+: file)
    {link : Link} (uncut : Uncut sha256 file link disk) :
    ∃ sock, round sha256 file link disk =
      (.ok 0, ⟨sock, none, some file, disk.promoted ++ [file]⟩) := by
  have accepted : resumeOffset file disk.partSize = disk.partSize := if_pos start.length_le
  have kept : base (disk.part.getD []) (resumeOffset file disk.partSize) = disk.part.getD [] :=
    if_pos accepted
  have whole : disk.part.getD [] ++ file.drop disk.partSize = file := by
    obtain ⟨rest, split⟩ := start
    rw [← split, Disk.partSize, List.drop_left' rfl]
  obtain ⟨sock, run⟩ := round_uncut sha256 file_fits
    (lt_of_le_of_lt start.length_le file_fits) uncut
  rw [kept, accepted, whole, if_pos ⟨rfl, rfl⟩] at run
  exact ⟨sock, run⟩

/-- What cut rounds keep: `.part` is absent or a prefix of the source, and nothing was
    promoted since `start`. -/
structure Resumable (file : Bytes) (start disk : Disk) : Prop where
  part_inside : disk.part.getD [] <+: file
  out_kept : disk.out = start.out
  promoted_kept : disk.promoted = start.promoted

theorem Resumable.cutRound {start after : Disk} (file_fits : file.length < 2 ^ 64)
    (h : Resumable file start disk) (step : CutRound sha256 file disk after) :
    Resumable file start after := by
  obtain ⟨link, cut, rfl⟩ := step
  obtain ⟨out, promoted, part⟩ := round_cut sha256 file_fits h.part_inside cut
  refine ⟨?_, out.trans h.out_kept, promoted.trans h.promoted_kept⟩
  rcases part with same | ⟨part, present, _, inside⟩
  · rw [World.disk, same]
    exact h.part_inside
  · rw [World.disk, present]
    exact inside

theorem Resumable.run {start : Disk} (file_fits : file.length < 2 ^ 64) (fresh : start.part = none)
    (run : Relation.ReflTransGen (CutRound sha256 file) start disk) : Resumable file start disk := by
  induction run with
  | refl => exact ⟨by rw [fresh]; exact List.nil_prefix, rfl, rfl⟩
  | tail _ step ih => exact ih.cutRound sha256 file_fits step

end Rounds

/-- **Resume.** After any number of cut rounds on an unchanged source, `.part` is absent
    or a prefix of the source and `--out` is untouched; another cut round never shortens
    `.part`; and an uncut round sends the source from the size of `.part` on and
    delivers it. -/
theorem cut_rounds_resume (sha256 : Sha256) (file : Bytes) (file_fits : file.length < 2 ^ 64)
    (start disk : Disk) (fresh : start.part = none)
    (run : Relation.ReflTransGen (CutRound sha256 file) start disk) :
    (disk.part = none ∨ ∃ part, disk.part = some part ∧ part <+: file) ∧
    disk.out = start.out ∧ disk.promoted = start.promoted ∧
    (∀ after, CutRound sha256 file disk after → disk.partSize ≤ after.partSize) ∧
    ∀ link, Uncut sha256 file link disk →
      let delivered := round sha256 file link disk
      (∃ chunks, answer sha256 file link disk =
        header file.length disk.partSize ++ body chunks ++ frame [] ++ sha256.digest file ∧
          chunks.flatten = file.drop disk.partSize) ∧
      delivered.1 = .ok 0 ∧ delivered.2.out = some file ∧ delivered.2.part = none ∧
      delivered.2.promoted = start.promoted ++ [file] := by
  have kept := Resumable.run sha256 file_fits fresh run
  have fits : disk.partSize < 2 ^ 64 := lt_of_le_of_lt kept.part_inside.length_le file_fits
  refine ⟨?_, kept.out_kept, kept.promoted_kept, ?_, ?_⟩
  · have inside := kept.part_inside
    cases stored : disk.part with
    | none => exact .inl rfl
    | some part =>
        rw [stored] at inside
        exact .inr ⟨part, rfl, inside⟩
  · rintro after ⟨link, cut, rfl⟩
    obtain ⟨_, _, part⟩ := round_cut sha256 file_fits kept.part_inside cut
    rcases part with same | ⟨part, present, longer, _⟩
    · simp only [Disk.partSize, World.disk, same, le_refl]
    · simpa only [Disk.partSize, World.disk, present, Option.getD_some] using longer.length_le
  · intro link uncut delivered
    have accepted : resumeOffset file disk.partSize = disk.partSize :=
      if_pos kept.part_inside.length_le
    obtain ⟨sock, run⟩ := round_delivers sha256 file_fits kept.part_inside uncut
    refine ⟨⟨pieces chunkSize (file.drop disk.partSize), ?_, pieces_flatten chunkSize_pos _⟩, ?_⟩
    · rw [answer_uncut sha256 file_fits fits link uncut.1, streamed, accepted]
    · simp only [delivered, run, kept.promoted_kept, and_self]

/-- A first round that is cut right behind some of the chunks leaves them. -/
theorem cut_behind (sha256 : Sha256) {file : Bytes} (file_fits : file.length < 2 ^ 64) {disk : Disk}
    (fresh : disk.part = none) {chunks later : List Bytes}
    (split : pieces chunkSize file = chunks ++ later) :
    ∃ after, CutRound sha256 file disk after ∧ after.part = some chunks.flatten := by
  have empty : disk.partSize = 0 := by
    rw [Disk.partSize, fresh]
    rfl
  have fits : disk.partSize < 2 ^ 64 := by
    rw [empty]
    decide
  let link : Link := ⟨(claim sha256 disk).length, (header file.length 0 ++ body chunks).length, [], []⟩
  have sent : answer sha256 file link disk =
      header file.length 0 ++ body chunks ++ (body later ++ frame [] ++ sha256.digest file) := by
    have start : resumeOffset file 0 = 0 := if_pos (Nat.zero_le _)
    rw [answer_uncut sha256 file_fits fits link (le_refl _), streamed, empty, start, List.drop_zero, split]
    simp only [body, List.map_append, List.flatten_append, List.append_assoc]
  have heard : (answer sha256 file link disk).take link.down = header file.length 0 ++ body chunks := by
    rw [sent]
    exact List.take_left' rfl
  have cut : ¬ Uncut sha256 file link disk := by
    rintro ⟨_, down⟩
    rw [sent] at down
    simp only [link, List.length_append, frame_length, List.length_nil] at down
    omega
  have truncated : Truncated ((answer sha256 file link disk).take link.down) file.length 0 chunks := {
    total_fits := file_fits
    accepted_fits := by decide
    chunks_sent := fun chunk member => pieces_chunks file chunk (by rw [split]; exact List.mem_append_left _ member)
    stops := ⟨[], by rw [heard, List.append_nil], cutOff_unframed unframed_nil⟩ }
  obtain ⟨sock, _, run⟩ := receive_truncated sha256
    (w := disk.connect ((answer sha256 file link disk).take link.down) link.receiverPace) fits truncated
  refine ⟨_, ⟨link, cut, rfl⟩, ?_⟩
  rw [round, run, World.disk, Disk.connect, fresh]
  rfl

/-- Of a source of two chunks, the first arrives before the first round is cut. -/
theorem cut_rounds_resume_twoChunks :
    ∃ disk, CutRound .keepFirst (List.replicate chunkSize 5 ++ [6]) ⟨none, none, []⟩ disk ∧
      disk.part = some (List.replicate chunkSize 5) ∧
      ∃ link, Uncut .keepFirst (List.replicate chunkSize 5 ++ [6]) link disk ∧
        (∃ chunks, chunks.flatten = [6] ∧ answer .keepFirst (List.replicate chunkSize 5 ++ [6]) link disk =
          header (chunkSize + 1) chunkSize ++ body chunks ++ frame [] ++
            Sha256.keepFirst.digest (List.replicate chunkSize 5 ++ [6])) ∧
        (round .keepFirst (List.replicate chunkSize 5 ++ [6]) link disk).2.out =
          some (List.replicate chunkSize 5 ++ [6]) := by
  generalize first : List.replicate chunkSize (5 : UInt8) = chunk
  have size : chunk.length = chunkSize := by rw [← first, List.length_replicate]
  have length : (chunk ++ [6]).length = chunkSize + 1 := by
    rw [List.length_append, size]
    rfl
  have file_fits : (chunk ++ [6]).length < 2 ^ 64 := by
    rw [length]
    decide
  have split : pieces chunkSize (chunk ++ [6]) = [chunk] ++ pieces chunkSize [6] := by
    rw [pieces, if_neg, List.take_left' size, List.drop_left' size]
    · rfl
    · exact not_or.mpr ⟨chunkSize_pos.ne', List.append_ne_nil_of_right_ne_nil _ (by decide)⟩
  have fresh : (⟨none, none, []⟩ : Disk).part = none := rfl
  obtain ⟨disk, cut, part⟩ := cut_behind .keepFirst file_fits fresh split
  rw [List.flatten_singleton] at part
  have partSize : disk.partSize = chunkSize := by
    rw [Disk.partSize, part]
    exact size
  obtain ⟨link, uncut⟩ := uncut_exists .keepFirst (chunk ++ [6]) disk file_fits (by rw [partSize]; decide)
  obtain ⟨_, _, _, _, resumed⟩ := cut_rounds_resume .keepFirst _ file_fits ⟨none, none, []⟩ disk rfl (.single cut)
  obtain ⟨⟨chunks, sent, rest⟩, _, out, _⟩ := resumed link uncut
  rw [partSize, length] at sent
  rw [partSize, List.drop_left' size] at rest
  exact ⟨disk, cut, part, link, uncut, ⟨chunks, rest, sent⟩, out⟩

/-- **Self-healing.** From any partial file at most two uncut rounds deliver the source,
    and neither puts anything else at `--out`. -/
theorem two_rounds_deliver (sha256 : Sha256) (file : Bytes) (file_fits : file.length < 2 ^ 64)
    (disk : Disk) (fits : disk.partSize < 2 ^ 64)
    (collision_free : Set.InjOn sha256.digest
      {file, disk.part.getD [] ++ file.drop disk.partSize})
    (first : Link) (uncut : Uncut sha256 file first disk) :
    let one := round sha256 file first disk
    (one.1 = .ok 0 ∧ one.2.out = some file ∧ one.2.part = none ∧
      one.2.promoted = disk.promoted ++ [file]) ∨
    (one.1 = .ok 1 ∧ one.2.out = disk.out ∧ one.2.promoted = disk.promoted ∧
      ∀ second, Uncut sha256 file second one.2.disk →
        let two := round sha256 file second one.2.disk
        two.1 = .ok 0 ∧ two.2.out = some file ∧ two.2.part = none ∧
          two.2.promoted = disk.promoted ++ [file]) := by
  intro one
  obtain ⟨sock, run⟩ := round_uncut sha256 file_fits fits uncut
  by_cases agrees : (base (disk.part.getD []) (resumeOffset file disk.partSize) ++
      file.drop (resumeOffset file disk.partSize)).length = file.length ∧
      sha256.digest (base (disk.part.getD []) (resumeOffset file disk.partSize) ++
        file.drop (resumeOffset file disk.partSize)) = sha256.digest file
  · rw [if_pos agrees] at run
    have delivered : base (disk.part.getD []) (resumeOffset file disk.partSize) ++
        file.drop (resumeOffset file disk.partSize) = file := by
      by_cases inside : disk.partSize ≤ file.length
      · have accepted : resumeOffset file disk.partSize = disk.partSize := if_pos inside
        have kept : base (disk.part.getD []) disk.partSize = disk.part.getD [] := if_pos rfl
        rw [accepted, kept] at agrees ⊢
        exact collision_free (by simp) (by simp) agrees.2
      · -- a longer partial file is refused, and the sender starts over
        have refused : resumeOffset file disk.partSize = 0 := if_neg inside
        have dropped : base (disk.part.getD []) 0 = [] := by
          refine if_neg fun zero => inside ?_
          rw [Disk.partSize, ← zero]
          exact Nat.zero_le _
        rw [refused, dropped, List.nil_append, List.drop_zero]
    rw [delivered] at run
    left
    simp only [one, run, and_self]
  · rw [if_neg agrees] at run
    right
    refine ⟨by simp only [one, run], by simp only [one, run], by simp only [one, run], ?_⟩
    intro second uncut_second two
    have emptied : one.2.disk.part.getD [] <+: file := by
      simp only [one, run, World.disk]
      exact List.nil_prefix
    obtain ⟨sock', run'⟩ := round_delivers sha256 file_fits emptied uncut_second
    have promoted : one.2.disk.promoted = disk.promoted := by simp only [one, run, World.disk]
    simp only [two, run', promoted, and_self]

/-- The first byte of the partial file is wrong: the first round is rejected and the second delivers. -/
theorem two_rounds_deliver_wrongByte :
    ∃ first second, Uncut .keepFirst [1, 2] first ⟨some [3], none, []⟩ ∧
      let one := round .keepFirst [1, 2] first ⟨some [3], none, []⟩
      one.1 = .ok 1 ∧ one.2.out = none ∧ Uncut .keepFirst [1, 2] second one.2.disk ∧
        let two := round .keepFirst [1, 2] second one.2.disk
        two.1 = .ok 0 ∧ two.2.out = some [1, 2] ∧ two.2.promoted = [[1, 2]] := by
  obtain ⟨first, uncut⟩ := uncut_exists .keepFirst [1, 2] ⟨some [3], none, []⟩
    (by decide) (by decide)
  have different : Sha256.keepFirst.digest [1, 2] ≠ Sha256.keepFirst.digest [3, 2] := by decide
  have collision_free : Set.InjOn Sha256.keepFirst.digest {[1, 2], [3, 2]} := by
    rintro a (rfl | rfl) b (rfl | rfl) same
    · rfl
    · exact absurd same different
    · exact absurd same.symm different
    · rfl
  obtain ⟨sock, run⟩ := round_uncut .keepFirst (by decide) (by decide) uncut
  have wrong : ¬ (([3, 2] : Bytes).length = ([1, 2] : Bytes).length ∧
      Sha256.keepFirst.digest [3, 2] = Sha256.keepFirst.digest [1, 2]) := fun agrees => different agrees.2.symm
  have rejects := run.trans (if_neg wrong)
  rcases two_rounds_deliver .keepFirst [1, 2] (by decide) ⟨some [3], none, []⟩ (by decide)
    collision_free first uncut with ⟨zero, _⟩ | ⟨one, kept, _, again⟩
  · rw [rejects] at zero
    cases zero
  · have removed : (round .keepFirst [1, 2] first ⟨some [3], none, []⟩).2.disk.partSize < 2 ^ 64 := by
      rw [rejects]
      exact Nat.two_pow_pos 64
    obtain ⟨second, uncut'⟩ := uncut_exists .keepFirst [1, 2] _ (by decide) removed
    obtain ⟨two, out, _, promoted⟩ := again second uncut'
    exact ⟨first, second, uncut, one, kept, uncut', two, out, promoted⟩

end SecureTransfer.ApproachA
