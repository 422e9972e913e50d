import SecureTransfer.ApproachA.Rounds
import SecureTransfer.Library.WriteBuffer

/-! # Sender and receiver as two processes

`receive` and `stream` step by step. A step reads one message, which must have arrived, or
sends one, or does one thing to the files. `.part` lies behind a write buffer while it is
open, so a process that is killed leaves a part of what it wrote.
-/

namespace SecureTransfer.ApproachA

open Library

/-! ## The receiver -/

/-- Where `receive` stands. A process that was killed ended without a result. -/
inductive ReceiverPoint where
  | claiming
  | negotiating (claimedOffset : Nat)
  | accepting (claimedOffset totalSize accepted : Nat)
  | opening (totalSize acceptedOffset : Nat) (h : Bytes)
  | streaming (totalSize received : Nat) (h : Bytes)
  | trailing (totalSize received : Nat) (h : Bytes)
  | verifying (totalSize received : Nat) (h expectedDigest : Bytes)
  | ended (result : Option (Except Failure Int))

/-- A file that no process has open. -/
def closed (part : Option Bytes) : Option (BufferedFile UInt8) := part.map (⟨·, []⟩)

structure Receiver where
  point : ReceiverPoint
  sock : Sock
  part : Option (BufferedFile UInt8)
  out : Option Bytes
  promoted : List Bytes

namespace Receiver

def start (disk : Disk) (pace : List Nat) : Receiver where
  point := .claiming
  sock := { incoming := [], pace, sent := [] }
  part := closed disk.part
  out := disk.out
  promoted := disk.promoted

/-- The files as the process reads them. -/
def seen (r : Receiver) : Disk where
  part := r.part.map (·.view 0)
  out := r.out
  promoted := r.promoted

def Running (r : Receiver) : Prop := ∀ result, r.point ≠ .ended result

/-- Bytes arrive. -/
def hear (data : Bytes) (r : Receiver) : Receiver :=
  { r with sock := { r.sock with incoming := r.sock.incoming ++ data } }

/-- One step of `receive`; `none` if it has ended or waits for bytes. -/
def step (sha256 : Sha256) (r : Receiver) : Option Receiver :=
  match r.point with
  | .claiming =>
      match (Prog.ofExcept (packQ r.seen.partSize) >>= sendFrame) r.sock with
      | (.error e, sock) => some { r with sock, point := .ended (some (.error e)) }
      | (.ok _, sock) => some { r with sock, point := .negotiating r.seen.partSize }
  | .negotiating claimedOffset =>
      match recvFrame r.sock with
      | (.error _, _) => none
      | (.ok header, sock) =>
          match unpackHeader header with
          | .error e => some { r with sock, point := .ended (some (.error e)) }
          | .ok (totalSize, accepted) => some { r with sock, point := .accepting claimedOffset totalSize accepted }
  | .accepting claimedOffset totalSize accepted =>
      if accepted ≠ claimedOffset then some { r with part := none, point := .opening totalSize 0 [] }
      else if accepted ≠ 0 then
        match hashPrefix accepted (r.seen.part.getD []) [] with
        | .error e => some { r with point := .ended (some (.error e)) }
        | .ok h => some { r with point := .opening totalSize accepted h }
      else some { r with point := .opening totalSize accepted [] }
  | .opening totalSize acceptedOffset h =>
      some { r with
        part := if acceptedOffset ≠ 0 then r.part else some ⟨[], []⟩
        point := .streaming totalSize acceptedOffset h }
  | .streaming totalSize received h =>
      match recvFrame r.sock with
      | (.error _, _) => none
      | (.ok [], sock) => some { r with sock, point := .trailing totalSize received h }
      | (.ok (byte :: chunk), sock) => some { r with
          sock
          part := r.part.map (·.write received (byte :: chunk))
          point := .streaming totalSize (received + (byte :: chunk).length) (h ++ byte :: chunk) }
  | .trailing totalSize received h =>
      match recvExact sha256Len r.sock with
      | (.error _, _) => none
      | (.ok expectedDigest, sock) => some { r with
          sock
          part := r.part.map (·.flush 0)
          point := .verifying totalSize received h expectedDigest }
  | .verifying totalSize received h expectedDigest =>
      if received = totalSize ∧ sha256.digest h = expectedDigest then some { r with
        out := r.seen.part
        part := none
        promoted := r.promoted ++ r.seen.part.toList
        point := .ended (some (.ok 0)) }
      else some { r with part := none, point := .ended (some (.ok 1)) }
  | .ended _ => none

/-- The connection is lost where the process uses it. -/
def drop (message : String) (r : Receiver) : Option Receiver :=
  match r.point with
  | .claiming | .negotiating _ => some { r with point := .ended (some (.error (.osError message))) }
  | .streaming .. | .trailing .. => some { r with part := r.part.map (·.flush 0), point := .ended (some (.ok 1)) }
  | _ => none

/-- What a kill may leave. -/
inductive Killed (r : Receiver) : Receiver → Prop where
  | absent (part : r.part = none) : Killed r { r with point := .ended none }
  | torn {file : BufferedFile UInt8} {left : Bytes} (part : r.part = some file) (survives : file.Survives 0 left) :
      Killed r { r with part := some ⟨left, []⟩, point := .ended none }

end Receiver

/-! ## The sender -/

/-- Where `stream` stands. -/
inductive SenderPoint where
  | waiting
  | answering (claimedOffset : Nat)
  | sending (rest h : Bytes)
  | marking (h : Bytes)
  | trailing (h : Bytes)
  | ended (result : Option (Except Failure Int))

structure Sender where
  point : SenderPoint
  sock : Sock

namespace Sender

def start (pace : List Nat) : Sender where
  point := .waiting
  sock := { incoming := [], pace, sent := [] }

def Running (p : Sender) : Prop := ∀ result, p.point ≠ .ended result

def hear (data : Bytes) (p : Sender) : Sender :=
  { p with sock := { p.sock with incoming := p.sock.incoming ++ data } }

/-- The header is sent and the prefix that the receiver has is hashed. -/
def answerClaim (file : Bytes) (claimedOffset : Nat) : Prog Sock Failure (Bytes × Bytes) := do
  let acceptedOffset := if claimedOffset ≤ file.length then claimedOffset else 0
  let header ← Prog.ofExcept (packHeader file.length acceptedOffset)
  sendFrame header
  Prog.ofExcept (hashNext chunkSize "source file shorter than the resume offset" acceptedOffset file [])

/-- One step of `stream`; `none` if it has ended or waits for bytes. -/
def step (sha256 : Sha256) (file : Bytes) (p : Sender) : Option Sender :=
  match p.point with
  | .waiting =>
      match recvFrame p.sock with
      | (.error _, _) => none
      | (.ok claim, sock) =>
          match unpackQ claim with
          | .error e => some ⟨.ended (some (.error e)), sock⟩
          | .ok claimedOffset => some ⟨.answering claimedOffset, sock⟩
  | .answering claimedOffset =>
      match answerClaim file claimedOffset p.sock with
      | (.error e, sock) => some ⟨.ended (some (.error e)), sock⟩
      | (.ok (h, rest), sock) => some ⟨.sending rest h, sock⟩
  | .sending rest h =>
      if rest = [] then some ⟨.marking h, p.sock⟩
      else
        match sendFrame (rest.take chunkSize) p.sock with
        | (.error e, sock) => some ⟨.ended (some (.error e)), sock⟩
        | (.ok _, sock) => some ⟨.sending (rest.drop chunkSize) (h ++ rest.take chunkSize), sock⟩
  | .marking h =>
      match sendFrame [] p.sock with
      | (.error e, sock) => some ⟨.ended (some (.error e)), sock⟩
      | (.ok _, sock) => some ⟨.trailing h, sock⟩
  | .trailing h => some ⟨.ended (some (.ok 0)), p.sock.sendall (sha256.digest h)⟩
  | .ended _ => none

end Sender

end SecureTransfer.ApproachA
