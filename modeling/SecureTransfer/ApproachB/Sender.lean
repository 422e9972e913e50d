import SecureTransfer.Library.ChunkedFile
import SecureTransfer.ApproachB.BrokerClient

/-! # The sender of the broker approach

`sender.py`, on the state file of one source path. What it reads from outside during a
run, the bytes of the source, the clock and the random values, are its arguments.
-/

namespace SecureTransfer.ApproachB

open Library

/-- One call of `aead.encrypt`. -/
structure Encryption where
  key : Bytes
  nonce : Bytes
  plain : Bytes
  aad : Bytes
deriving DecidableEq

/-- The broker and the state file. `encrypted` and `signed` are history variables: the
    encrypt calls and the messages signed, oldest first. -/
structure SenderWorld (β : Type) where
  broker : β
  state : Option Bytes
  encrypted : List Encryption
  signed : List Bytes

/-- The options of a run, its keys, and what it reads: the source file if it is there,
    the clock, `os.urandom(TRANSFER_ID_LEN)` and `X25519PrivateKey.generate()`. -/
structure SendArgs where
  file : Option Bytes
  basename : String
  signingKey : Bytes
  receiverPub : RawKey
  now : Int
  freshId : { raw : Bytes // raw.length = transferIdLen }
  freshKey : RawKey

def onSenderBroker {α β : Type} (m : Prog β String α) : Prog (SenderWorld β) Raised α :=
  callBroker SenderWorld.broker (fun broker w => { w with broker }) m

/-! ## Chunk count -/

/-- The double next to an integer, ties to even. -/
def roundToDouble (n : Nat) : Nat :=
  if n < 2 ^ 53 then n
  else
    let unit := 2 ^ (Nat.log2 n - 52)
    let below := n / unit
    if 2 * (n % unit) < unit then below * unit
    else if unit < 2 * (n % unit) then (below + 1) * unit
    else (below + below % 2) * unit

/-- `math.ceil(file_size / CHUNK_SIZE) if file_size else 0`: the quotient is a double. -/
def totalChunks (fileSize : Nat) : Nat :=
  if fileSize = 0 then 0 else chunkCount chunkSize (roundToDouble fileSize)

theorem totalChunks_eq {fileSize : Nat} (h : fileSize < 2 ^ 53) :
    totalChunks fileSize = chunkCount chunkSize fileSize := by
  unfold totalChunks
  split
  · rename_i empty
    rw [empty]
    rfl
  · rw [roundToDouble, if_pos h]

/-! ## State file -/

def freshState (P : Primitives) (args : SendArgs) (fileSize : Nat) : Json :=
  .obj [
    ("transfer_id", .str (hex args.freshId.1)),
    ("created_at", .int args.now),
    ("file_size", .int fileSize),
    ("ephemeral_x25519_key_pem", .str (P.privatePem args.freshKey))]

def createState {β : Type} (P : Primitives) (args : SendArgs) (fileSize : Nat) :
    Prog (SenderWorld β) Raised Json := do
  let state := freshState P args fileSize
  Prog.update fun w => { w with state := some (Json.dumpFile state) }
  pure state

def loadOrCreateState {β : Type} (P : Primitives) (args : SendArgs) (fileSize : Nat) :
    Prog (SenderWorld β) Raised Json := do
  let w ← Prog.get
  match w.state with
  | none => createState P args fileSize
  | some bytes =>
      match ← python (Json.loadFile bytes) with
      | none => python (.error .valueError)
      | some state =>
          let size ← python (state.get "file_size")
          if size.any (Json.eqInt · fileSize) then
            let _ ← python (state.item "transfer_id")
            pure state
          else createState P args fileSize

/-- The key material of a transfer. -/
structure Session where
  transferIdHex : String
  transferId : Bytes
  ephemeralPubRaw : Bytes
  chunkKey : Bytes

def openSession (P : Primitives) (receiverPub : RawKey) (state : Json) : Except PyError Session := do
  match ← state.item "transfer_id" with
  | .str transferIdHex =>
      let transferId ← (fromHex transferIdHex).elim (.error .valueError) .ok
      match ← state.item "ephemeral_x25519_key_pem" with
      | .str pem =>
          let ephemeralKey ← (P.loadPem pem).elim (.error .valueError) .ok
          let shared ← (P.exchange ephemeralKey receiverPub).elim (.error .valueError) .ok
          let ephemeralPubRaw := (P.x25519Public ephemeralKey).1
          let chunkKey := deriveChunkKey P shared transferId ephemeralPubRaw receiverPub.1
          pure { transferIdHex, transferId, ephemeralPubRaw, chunkKey }
      | _ => .error .attributeError
  | _ => .error .typeError

/-! ## Upload -/

def chunkRecord (P : Primitives) (index plaintextLen : Nat) (ct : Bytes) : Json :=
  .obj [
    ("index", .int index),
    ("plaintext_len", .int plaintextLen),
    ("ciphertext_sha256", .str (P.hexDigest ct))]

/-- `if key_name not in already: broker.put(key_name, ct)`. -/
def putMissing {β : Type} (broker : Broker β) (already : List String) (key : String) (ct : Bytes) :
    Prog (SenderWorld β) Raised Unit :=
  if key ∈ already then pure () else onSenderBroker (broker.put key ct)

/-- Read, encrypt and upload the chunks `indices`; a key in `already` is skipped. Returns
    their records and what was hashed. -/
def uploadChunks {β : Type} (P : Primitives) (broker : Broker β) (session : Session) (file : Bytes)
    (total : Nat) (already : List String) :
    List Nat → Prog (SenderWorld β) Raised (List Json × Bytes)
  | [] => pure ([], [])
  | index :: rest => do
      let plain := chunk chunkSize index file
      let nonce ← python (chunkNonce index)
      let aad ← python (chunkAad session.transferId index total)
      Prog.update fun w =>
        { w with encrypted := w.encrypted ++ [⟨session.chunkKey, nonce, plain, aad⟩] }
      let ct := P.encrypt session.chunkKey nonce plain aad
      putMissing broker already (chunkKey session.transferIdHex index) ct
      let later ← uploadChunks P broker session file total already rest
      pure (chunkRecord P index plain.length ct :: later.1, plain ++ later.2)

def manifestMembers (P : Primitives) (basename : String) (session : Session) (createdAt : Json)
    (fileSize total : Nat) (records : List Json) (plaintext : Bytes) : List (String × Json) :=
  [
    ("version", .str manifestVersion),
    ("transfer_id", .str session.transferIdHex),
    ("created_at", createdAt),
    ("filename", .str basename),
    ("file_size", .int fileSize),
    ("chunk_size", .int chunkSize),
    ("total_chunks", .int total),
    ("cipher", .str cipherName),
    ("kdf", .str kdfName),
    ("signature_alg", .str sigName),
    ("ephemeral_x25519_pub", .str (hex session.ephemeralPubRaw)),
    ("plaintext_sha256", .str (P.hexDigest plaintext)),
    ("chunks", .arr records)]

/-- Sign the manifest, upload it and then its signature. -/
def publish {β : Type} (P : Primitives) (broker : Broker β) (args : SendArgs)
    (transferIdHex : String) (manifest : Json) : Prog (SenderWorld β) Raised Unit := do
  let manifestBytes := canonicalManifestBytes manifest
  Prog.update fun w => { w with signed := w.signed ++ [manifestBytes] }
  let signature := P.sign args.signingKey manifestBytes
  onSenderBroker (broker.put (manifestKey transferIdHex) manifestBytes)
  onSenderBroker (broker.put (signatureKey transferIdHex) signature)

def sendFile {β : Type} (P : Primitives) (broker : Broker β) (args : SendArgs) (file : Bytes) :
    Prog (SenderWorld β) Raised Int := do
  let fileSize := file.length
  let total := totalChunks fileSize
  let state ← loadOrCreateState P args fileSize
  let session ← python (openSession P args.receiverPub state)
  let already ← onSenderBroker (broker.list (session.transferIdHex ++ "/"))
  let uploaded ← uploadChunks P broker session file total already (List.range total)
  let createdAt ← python (state.item "created_at")
  publish P broker args session.transferIdHex
    (.obj (manifestMembers P args.basename session createdAt fileSize total uploaded.1 uploaded.2))
  Prog.update fun w => { w with state := none }
  pure 0

def send {β : Type} (P : Primitives) (broker : Broker β) (args : SendArgs) :
    Prog (SenderWorld β) Raised Int :=
  match args.file with
  | none => pure 1
  | some file => sendFile P broker args file

end SecureTransfer.ApproachB
