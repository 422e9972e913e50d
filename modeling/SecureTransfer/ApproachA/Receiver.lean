import SecureTransfer.Library.ChunkedFile
import SecureTransfer.Util

/-! # The receiver of the TLS approach

`receive` of `approach-a-tls-mtls/receiver.py`. The handshake is over when it starts:
`sock` is the TLS channel, and what it prints is left out. Local file operations
succeed.
-/

namespace SecureTransfer.ApproachA

open Library

/-- The channel and the two files of a receiver. `promoted` is a history variable: the
    contents that `atomic_promote` put at `--out`, oldest first. -/
structure World where
  sock : Sock
  part : Option Bytes
  out : Option Bytes
  promoted : List Bytes

namespace World

/-- `os.path.getsize(part_path) if os.path.exists(part_path) else 0`. -/
def partSize (w : World) : Nat := (w.part.getD []).length

def removePart (w : World) : World := { w with part := none }

/-- `open(part_path, "r+b" if accepted_offset else "wb")`. -/
def openPart (acceptedOffset : Nat) (w : World) : World :=
  if acceptedOffset ≠ 0 then w else { w with part := some [] }

def writePart (position : Nat) (data : Bytes) (w : World) : World :=
  { w with part := w.part.map (writeAt 0 position data) }

def atomicPromote (w : World) : World :=
  { w with out := w.part, part := none, promoted := w.promoted ++ w.part.toList }

end World

def onSock {α : Type} (m : Prog Sock Failure α) : Prog World Failure α :=
  Prog.zoom World.sock (fun sock w => { w with sock }) m

/-- `_HEADER.unpack`: total size and accepted offset. -/
def unpackHeader (data : Bytes) : Except Failure (Nat × Nat) :=
  if data.length = 16 then .ok (fromBigEndian (data.take 8), fromBigEndian (data.drop 8))
  else .error .structError

/-- `_hash_prefix`. -/
def hashPrefix (n : Nat) (file h : Bytes) : Except Failure Bytes :=
  (hashNext hashReadSize "partial file shorter than expected during resume" n file h).map Prod.fst

/-- The chunk loop up to the end marker. `received` is also the position of the file,
    which starts at the accepted offset and moves with every write. -/
def streamChunks (received : Nat) (h : Bytes) (w : World) : Except Failure (Nat × Bytes) × World :=
  match _ : recvFrame w.sock with
  | (.error e, sock) => (.error e, { w with sock })
  | (.ok [], sock) => (.ok (received, h), { w with sock })
  | (.ok (byte :: chunk), sock) =>
      streamChunks (received + (byte :: chunk).length) (h ++ byte :: chunk)
        ({ w with sock }.writePart received (byte :: chunk))
termination_by w.sock.incoming.length
decreasing_by exact recvFrame_shrinks (by assumption)

/-- `except (ConnectionError, ssl.SSLError, OSError)`: `none` when the connection dropped. -/
def catchDrop {α : Type} (m : Prog World Failure α) : Prog World Failure (Option α) := fun w =>
  match m w with
  | (.ok a, w) => (.ok (some a), w)
  | (.error .structError, w) => (.error .structError, w)
  | (.error _, w) => (.ok none, w)

/-- The offset the transfer starts at and what is hashed of it, once the sender answered. -/
def acceptOffset (claimedOffset accepted : Nat) : Prog World Failure (Nat × Bytes) := do
  if accepted ≠ claimedOffset then
    Prog.update World.removePart
    pure (0, [])
  else if accepted ≠ 0 then
    let prior := (← Prog.get).part.getD []
    let h ← Prog.ofExcept (hashPrefix accepted prior [])
    pure (accepted, h)
  else pure (accepted, [])

/-- The chunk loop and the trailer behind it. -/
def streamBody (received : Nat) (h : Bytes) : Prog World Failure (Nat × Bytes × Bytes) := do
  let (received, h) ← streamChunks received h
  let expectedDigest ← onSock (recvExact sha256Len)
  pure (received, h, expectedDigest)

/-- What follows the `with` block: return early, promote, or reject. -/
def conclude (sha256 : Sha256) (totalSize : Nat) :
    Option (Nat × Bytes × Bytes) → Prog World Failure Int
  | none => pure 1
  | some (received, h, expectedDigest) =>
      if received = totalSize ∧ sha256.digest h = expectedDigest then do
        Prog.update World.atomicPromote
        pure 0
      else do
        Prog.update World.removePart
        pure 1

def receive (sha256 : Sha256) : Prog World Failure Int := do
  let claimedOffset := (← Prog.get).partSize
  let claim ← Prog.ofExcept (packQ claimedOffset)
  onSock (sendFrame claim)
  let header ← onSock recvFrame
  let (totalSize, accepted) ← Prog.ofExcept (unpackHeader header)
  let (acceptedOffset, h) ← acceptOffset claimedOffset accepted
  Prog.update (World.openPart acceptedOffset)
  let ending ← catchDrop (streamBody acceptedOffset h)
  conclude sha256 totalSize ending

end SecureTransfer.ApproachA
