import SecureTransfer.Util

/-! # The sender of the TLS approach

`stream` of `approach-a-tls-mtls/sender.py`, on the content of its source file.
-/

namespace SecureTransfer.ApproachA

open Library

/-- `_HEADER.pack(file_size, accepted_offset)`. -/
def packHeader (fileSize acceptedOffset : Nat) : Except Failure Bytes := do
  let size ← packQ fileSize
  let offset ← packQ acceptedOffset
  pure (size ++ offset)

/-- Hash and send the rest of the file; returns what was hashed on top of `h`. -/
def sendChunks (file h : Bytes) : Prog Sock Failure Bytes :=
  if file = [] then pure h
  else do
    let chunk := file.take chunkSize
    sendFrame chunk
    sendChunks (file.drop chunkSize) (h ++ chunk)
termination_by file.length
decreasing_by
  rename_i more
  rw [List.length_drop]
  have := List.length_pos_iff.mpr more
  have := chunkSize_pos
  omega

def stream (sha256 : Sha256) (file : Bytes) : Prog Sock Failure Int := do
  let claim ← recvFrame
  let claimedOffset ← Prog.ofExcept (unpackQ claim)
  let acceptedOffset := if claimedOffset ≤ file.length then claimedOffset else 0
  let header ← Prog.ofExcept (packHeader file.length acceptedOffset)
  sendFrame header
  let hashed ← Prog.ofExcept
    (hashNext chunkSize "source file shorter than the resume offset" acceptedOffset file [])
  let h ← sendChunks hashed.2 hashed.1
  sendFrame []
  Prog.update (Sock.sendall (sha256.digest h))
  pure 0

end SecureTransfer.ApproachA
