import SecureTransfer.Library.ChunkedFile
import SecureTransfer.ApproachB.BrokerClient

/-! # The receiver of the broker approach

`receiver.py`. `--out`, its `.part`, the progress file and the ledger are four files;
local file operations succeed.
-/

namespace SecureTransfer.ApproachB

open Library

/-- The local files of one receiver. -/
structure Disk where
  out : Option Bytes
  part : Option Bytes
  progress : Option Bytes
  ledger : Option Bytes

structure World (β : Type) extends Disk where
  broker : β

/-- What `--keys-dir` holds. -/
structure KeysDir where
  receiverPrivate : RawKey
  senderVerify : Bytes

/-- The options of a run, its clock and its keys. -/
structure Args extends KeysDir where
  transferId : Option String
  allowRedeliver : Bool
  now : Int

def onBroker {α β : Type} (m : Prog β String α) : Prog (World β) Raised α :=
  callBroker World.broker (fun broker w => { w with broker }) m

/-! ## Replay-defence ledger -/

def loadLedger (ledger : Option Bytes) : Except PyError (List Json) :=
  match ledger with
  | none => .ok []
  | some bytes => do
      match ← Json.loadFile bytes with
      | none => pure []
      | some value => Json.setOf (← value.iterate)

/-- `_record_completed`: the file is truncated before the set is sorted. -/
def recordCompleted {β : Type} (transferIdHex : String) : Prog (World β) Raised Unit := do
  let w ← Prog.get
  let seen ← python (loadLedger w.ledger)
  let seen := Json.insert seen (.str transferIdHex)
  Prog.update fun w => { w with ledger := some [] }
  let items ← python (Json.sorted seen)
  Prog.update fun w => { w with ledger := some (Json.dumpFile (.arr items)) }

/-! ## Resume progress -/

def loadProgress (progress : Option Bytes) (transferIdHex : String) : Except PyError (List Json) :=
  match progress with
  | none => .ok []
  | some bytes => do
      match ← Json.loadFile bytes with
      | none => pure []
      | some data =>
          let named ← data.get "transfer_id"
          if named.any (Json.eqStr · transferIdHex) then
            let done ← data.get "done"
            Json.setOf (← (done.getD (.arr [])).iterate)
          else pure []

/-- What `_save_progress` writes. -/
def progressFile (transferIdHex : String) (done : List Json) : Json :=
  .obj [("transfer_id", .str transferIdHex), ("done", .arr done)]

def saveProgress {β : Type} (transferIdHex : String) (done : List Json) :
    Prog (World β) Raised Unit := do
  let done ← python (Json.sorted done)
  Prog.update fun w => { w with progress := some (Json.dumpFile (progressFile transferIdHex done)) }

/-! ## Manifest fetch and verification -/

/-- The namespaces of the listed manifests, sorted. -/
def manifestIds (keys : List String) : List String :=
  let manifests := keys.filter fun k => "/manifest".toList.isSuffixOf k.toList
  let ids := manifests.map fun k => String.ofList (k.toList.takeWhile (· ≠ '/'))
  ids.dedup.mergeSort fun a b => decide (a ≤ b)

def resolveTransferId {β : Type} (broker : Broker β) (given : Option String) :
    Prog (World β) Raised String :=
  match given.filter (· ≠ "") with
  | some id => pure id
  | none => do
      match manifestIds (← onBroker (broker.list "")) with
      | [id] => pure id
      | [] => reject .noTransfers
      | ids => reject (.multipleTransfers ids)

/-- Freshness window and completed-transfer ledger. -/
def replayDefence {β : Type} (args : Args) (transferIdHex : String) (age : Int) :
    Prog (World β) Raised Unit :=
  if args.allowRedeliver then pure ()
  else do
    verify (age ≤ freshnessWindowS) (.stale age)
    verify (-clockSkewS ≤ age) .future
    let w ← Prog.get
    let seen ← python (loadLedger w.ledger)
    verify (¬ Json.contains (.text transferIdHex) seen) .alreadyCompleted

def fetchVerifiedManifest {β : Type} (P : Primitives) (broker : Broker β) (args : Args)
    (transferIdHex : String) : Prog (World β) Raised Json := do
  let manifestBytes ← onBroker (broker.get (manifestKey transferIdHex))
  let signature ← onBroker (broker.get (signatureKey transferIdHex))
  match manifestBytes, signature with
  | some manifestBytes, some signature =>
      verify (P.verify args.senderVerify signature manifestBytes) .signatureInvalid
      let manifest ← python (Json.loadBytes manifestBytes)
      let version ← python (manifest.get "version")
      verify (version.any (Json.eqStr · manifestVersion)) (.unsupportedVersion version)
      let named ← python (manifest.get "transfer_id")
      verify (named.any (Json.eqStr · transferIdHex)) .transferIdMismatch
      let createdAt ← python (manifest.item "created_at" >>= Json.toInt)
      replayDefence args transferIdHex (args.now - createdAt)
      -- the log line reads two more entries
      let _ ← python (manifest.item "total_chunks")
      let _ ← python (manifest.item "file_size")
      pure manifest
  | _, _ => reject .notFound

/-! ## Chunks -/

/-- `{r["index"]: r for r in manifest["chunks"]}`, later records first. -/
def indexRecords : List Json → Except PyError (List (Key × Json))
  | [] => .ok []
  | r :: rest => do
      let index ← r.item "index"
      match index.key with
      | none => .error .typeError
      | some k => do
          let records ← indexRecords rest
          pure (if records.any (·.1 == k) then records else (k, r) :: records)

def findRecord (records : List (Key × Json)) (index : Nat) : Option Json :=
  (records.find? (·.1 == .number (index : Int))).map Prod.snd

/-- `set(records) == set(range(total))`. -/
def indexedBelow (records : List (Key × Json)) (total : Nat) : Bool :=
  (records.all fun r => (List.range total).any fun i => r.1 == .number (i : Int)) &&
    (List.range total).all fun i => records.any (·.1 == .number (i : Int))

/-- What the chunk loop works with. -/
structure Plan where
  transferIdHex : String
  transferId : Bytes
  totalChunks : Nat
  records : List (Key × Json)
  chunkKey : Bytes

/-- The number a `range` can be taken of. -/
def rangeLength : Json → Except PyError Nat
  | .int i => .ok i.toNat
  | .bool b => .ok (if b then 1 else 0)
  | _ => .error .typeError

/-- The chunk list of a manifest: `false` for one that is incomplete or misindexed. -/
def chunkRecords (manifest : Json) : Except PyError (Option (Nat × List (Key × Json))) := do
  let totalChunks ← manifest.item "total_chunks"
  let records ← indexRecords (← (← manifest.item "chunks").iterate)
  if totalChunks.eqInt records.length then
    let total ← rangeLength totalChunks
    pure (if indexedBelow records total then some (total, records) else none)
  else pure none

/-- ECDH with the ephemeral key of the manifest, then HKDF. -/
def receiverChunkKey (P : Primitives) (keys : KeysDir) (transferId : Bytes) (manifest : Json) :
    Except PyError Bytes := do
  let ephemeral ← manifest.item "ephemeral_x25519_pub"
  match ephemeral with
  | .str text =>
      match fromHex text with
      | none => .error .valueError
      | some ephemeralPubRaw => do
          let ephemeralPub ← publicFromBytes ephemeralPubRaw
          match P.exchange keys.receiverPrivate ephemeralPub with
          | none => .error .valueError
          | some shared =>
              pure (deriveChunkKey P shared transferId ephemeralPubRaw
                (P.x25519Public keys.receiverPrivate).1)
  | _ => .error .typeError

def planTransfer {β : Type} (P : Primitives) (args : Args) (transferIdHex : String)
    (transferId : Bytes) (manifest : Json) : Prog (World β) Raised Plan := do
  match ← python (chunkRecords manifest) with
  | none => reject .chunkListIncomplete
  | some (totalChunks, records) =>
      let chunkKey ← python (receiverChunkKey P args.toKeysDir transferId manifest)
      pure { transferIdHex, transferId, totalChunks, records, chunkKey }

/-- The resume bookkeeping: which chunks are done, with `.part` in place. -/
def resume {β : Type} (transferIdHex : String) : Prog (World β) Raised (List Json) := do
  let w ← Prog.get
  let done ← python (loadProgress w.progress transferIdHex)
  let done := if done ≠ [] ∧ w.part = none then [] else done
  if done = [] ∧ w.part ≠ none then Prog.update fun w => { w with part := none }
  else pure ()
  Prog.update fun w => { w with part := some (w.part.getD []) }
  pure done

/-- One chunk: fetch, hash check against the signed record, decrypt, length check. -/
def fetchChunk {β : Type} (P : Primitives) (broker : Broker β) (plan : Plan) (index : Nat) :
    Prog (World β) Raised Bytes := do
  match findRecord plan.records index with
  | none => python (.error (.keyError (toString index)))
  | some record =>
      match ← onBroker (broker.get (chunkKey plan.transferIdHex index)) with
      | none => reject (.chunkMissing index)
      | some ct =>
          let expected ← python (record.item "ciphertext_sha256")
          verify (expected.eqStr (P.hexDigest ct)) (.chunkTampered index)
          let nonce ← python (chunkNonce index)
          let aad ← python (chunkAad plan.transferId index plan.totalChunks)
          match P.decrypt plan.chunkKey nonce ct aad with
          | none => reject (.chunkTagInvalid index)
          | some plain =>
              let length ← python (record.item "plaintext_len")
              verify (length.eqInt plain.length) (.chunkLengthMismatch index)
              pure plain

/-- Seek, write and checkpoint; returns the chunks done. -/
def storeChunk {β : Type} (plan : Plan) (index : Nat) (plain : Bytes) (done : List Json) :
    Prog (World β) Raised (List Json) := do
  Prog.update fun w => { w with part := w.part.map (writeAt 0 (index * chunkSize) plain) }
  let done := Json.insert done (.int index)
  saveProgress plan.transferIdHex done
  pure done

def chunkLoop {β : Type} (P : Primitives) (broker : Broker β) (plan : Plan) :
    List Nat → List Json → Prog (World β) Raised (List Json)
  | [], done => pure done
  | index :: rest, done =>
      if Json.contains (.number (index : Int)) done then chunkLoop P broker plan rest done
      else do
        let plain ← fetchChunk P broker plan index
        let done ← storeChunk plan index plain done
        chunkLoop P broker plan rest done

/-! ## The run -/

/-- The whole-file check against the signed manifest. -/
def verifyWhole {β : Type} (P : Primitives) (manifest : Json) : Prog (World β) Raised Unit := do
  let w ← Prog.get
  match w.part with
  | none => python (.error .fileNotFoundError)
  | some content =>
      let actual := P.hexDigest content
      let size ← python (manifest.item "file_size")
      verify (size.eqInt content.length) .sizeMismatch
      let expected ← python (manifest.item "plaintext_sha256")
      verify (expected.eqStr actual) (.digestMismatch actual expected)

/-- What a run does before it touches its own files: the manifest and the plan. -/
def prepare {β : Type} (P : Primitives) (broker : Broker β) (args : Args) :
    Prog (World β) Raised (Json × Plan) := do
  let transferIdHex ← resolveTransferId broker args.transferId
  let transferId ← python ((fromHex transferIdHex).elim (.error .valueError) .ok)
  let manifest ← fetchVerifiedManifest P broker args transferIdHex
  let plan ← planTransfer P args transferIdHex transferId manifest
  pure (manifest, plan)

/-- What a run does before it promotes: everything that can reject the transfer. -/
def download {β : Type} (P : Primitives) (broker : Broker β) (args : Args) :
    Prog (World β) Raised (Json × Plan) := do
  let prepared ← prepare P broker args
  let plan := prepared.2
  let done ← resume plan.transferIdHex
  let done ← chunkLoop P broker plan (List.range plan.totalChunks) done
  saveProgress plan.transferIdHex done
  verifyWhole P prepared.1
  pure prepared

def atomicPromote {β : Type} : Prog (World β) Raised Unit :=
  Prog.update fun w => { w with out := w.part, part := none }

/-- Promote, drop the progress file and record the transfer. -/
def complete {β : Type} (transferIdHex : String) (manifest : Json) : Prog (World β) Raised Int := do
  atomicPromote
  Prog.update fun w => { w with progress := none }
  recordCompleted transferIdHex
  -- the last log line names the original file
  let _ ← python (manifest.item "filename")
  pure 0

def receive {β : Type} (P : Primitives) (broker : Broker β) (args : Args) :
    Prog (World β) Raised Int := do
  let verified ← download P broker args
  complete verified.2.transferIdHex verified.1

end SecureTransfer.ApproachB
