import SecureTransfer.ApproachB.Receiver

/-! # Runs of the receiver

Against any broker: which files each part of a run may touch, and what is known of the
manifest, the plan and the partial file when a run gets past each check.
-/

namespace SecureTransfer.ApproachB

open Library

variable {P : Primitives} {β : Type} {broker : Broker β} {args : Args}

/-! ## What stays as it is -/

/-- No local file changed. -/
def SameDisk (w w' : World β) : Prop := w'.toDisk = w.toDisk

instance : Std.Refl (SameDisk (β := β)) := ⟨fun _ => rfl⟩

instance : IsTrans (World β) SameDisk := ⟨fun _ _ _ first second => Eq.trans second first⟩

/-- The promoted file and the ledger did not change. -/
def KeepsDelivered (w w' : World β) : Prop := w'.out = w.out ∧ w'.ledger = w.ledger

instance : Std.Refl (KeepsDelivered (β := β)) := ⟨fun _ => ⟨rfl, rfl⟩⟩

instance : IsTrans (World β) KeepsDelivered :=
  ⟨fun _ _ _ first second => ⟨second.1.trans first.1, second.2.trans first.2⟩⟩

theorem SameDisk.delivered {w w' : World β} (h : SameDisk w w') : KeepsDelivered w w' :=
  ⟨congrArg Disk.out h, congrArg Disk.ledger h⟩

section Frames

variable {α : Type} {R : World β → World β → Prop}

theorem within_python [Std.Refl R] (r : Except PyError α) : Prog.Within R (python r) :=
  Prog.Within.ofExcept _

theorem within_verify [Std.Refl R] (c : Prop) [Decidable c] (reason : Rejection) :
    Prog.Within R (verify c reason) := Prog.Within.require c _

theorem within_reject [Std.Refl R] (reason : Rejection) :
    Prog.Within R (reject reason : Prog (World β) Raised α) := Prog.Within.raise _

theorem onBroker_sameDisk (m : Prog β String α) : Prog.Within SameDisk (onBroker m) := by
  intro w
  cases run : onBroker m w with
  | mk r w' =>
      obtain ⟨b, rfl, _⟩ := callBroker_cases run
      rfl

theorem onBroker_raises {C : Raised → Prop} (h : ∀ message, C (.brokerError message)) (m : Prog β String α) :
    Prog.Raises C (onBroker m) := callBroker_raises h _ _ m

end Frames

theorem resolveTransferId_sameDisk (given : Option String) :
    Prog.Within SameDisk (resolveTransferId broker given) := by
  unfold resolveTransferId
  split
  · exact Prog.Within.pure _
  · refine (onBroker_sameDisk _).bind fun keys => ?_
    split
    · exact Prog.Within.pure _
    · exact within_reject _
    · exact within_reject _

theorem replayDefence_sameDisk (transferIdHex : String) (age : Int) :
    Prog.Within SameDisk (replayDefence args transferIdHex age : Prog (World β) Raised Unit) :=
  Prog.Within.ite (Prog.Within.pure _) <|
    (within_verify _ _).bind fun _ => (within_verify _ _).bind fun _ =>
      Prog.Within.get.bind fun _ => (within_python _).bind fun _ => within_verify _ _

theorem fetchVerifiedManifest_sameDisk (transferIdHex : String) :
    Prog.Within SameDisk (fetchVerifiedManifest P broker args transferIdHex) := by
  refine (onBroker_sameDisk _).bind fun manifestBytes => (onBroker_sameDisk _).bind fun signature => ?_
  split
  · exact (within_verify _ _).bind fun _ => (within_python _).bind fun _ =>
      (within_python _).bind fun _ => (within_verify _ _).bind fun _ =>
        (within_python _).bind fun _ => (within_verify _ _).bind fun _ =>
          (within_python _).bind fun _ => (replayDefence_sameDisk _ _).bind fun _ =>
            (within_python _).bind fun _ => (within_python _).bind fun _ => Prog.Within.pure _
  · exact within_reject _

theorem planTransfer_sameDisk (transferIdHex : String) (transferId : Bytes) (manifest : Json) :
    Prog.Within SameDisk (planTransfer P args transferIdHex transferId manifest :
      Prog (World β) Raised Plan) := by
  refine (within_python _).bind fun records => ?_
  split
  · exact within_reject _
  · exact (within_python _).bind fun key => Prog.Within.pure _

theorem prepare_sameDisk : Prog.Within SameDisk (prepare P broker args) :=
  (resolveTransferId_sameDisk _).bind fun _ => (within_python _).bind fun _ =>
    (fetchVerifiedManifest_sameDisk _).bind fun _ => (planTransfer_sameDisk _ _ _).bind fun _ =>
      Prog.Within.pure _

theorem fetchChunk_sameDisk (plan : Plan) (index : Nat) :
    Prog.Within SameDisk (fetchChunk P broker plan index) := by
  unfold fetchChunk
  split
  · exact within_python _
  · refine (onBroker_sameDisk _).bind fun ct => ?_
    split
    · exact within_reject _
    · refine (within_python _).bind fun expected => (within_verify _ _).bind fun _ =>
        (within_python _).bind fun nonce => (within_python _).bind fun aad => ?_
      split
      · exact within_reject _
      · exact (within_python _).bind fun length => (within_verify _ _).bind fun _ => Prog.Within.pure _

theorem saveProgress_keepsDelivered (transferIdHex : String) (done : List Json) :
    Prog.Within KeepsDelivered (saveProgress transferIdHex done : Prog (World β) Raised Unit) :=
  (within_python _).bind fun _ => fun _ => ⟨rfl, rfl⟩

/-- The chunks a run counts as done, and the partial file it goes on with. -/
theorem resume_run (transferIdHex : String) (w : World β) :
    resume transferIdHex w =
      match loadProgress w.progress transferIdHex with
      | .error e => (.error (.python e), w)
      | .ok done =>
          if done = [] ∨ w.part = none then (.ok [], { w with part := some [] }) else (.ok done, w) := by
  rw [resume, Prog.bind_ok (Prog.get_run w)]
  cases loadProgress w.progress transferIdHex with
  | error e => rfl
  | ok done =>
      rw [Prog.bind_ok (python_ok _ _)]
      cases w with
      | mk disk b =>
          cases disk with
          | mk out part progress ledger =>
              cases done <;> cases part <;> rfl

theorem resume_keepsDelivered (transferIdHex : String) :
    Prog.Within KeepsDelivered (resume transferIdHex : Prog (World β) Raised (List Json)) := by
  intro w
  rw [resume_run]
  split
  · exact ⟨rfl, rfl⟩
  · split
    · exact ⟨rfl, rfl⟩
    · exact ⟨rfl, rfl⟩

theorem storeChunk_keepsDelivered (plan : Plan) (index : Nat) (plain : Bytes) (done : List Json) :
    Prog.Within KeepsDelivered (storeChunk plan index plain done : Prog (World β) Raised (List Json)) := by
  refine Prog.Within.bind ?_ fun _ => (saveProgress_keepsDelivered _ _).bind fun _ => Prog.Within.pure _
  exact fun _ => ⟨rfl, rfl⟩

theorem chunkLoop_keepsDelivered (plan : Plan) (indices : List Nat) (done : List Json) :
    Prog.Within KeepsDelivered (chunkLoop P broker plan indices done) := by
  induction indices generalizing done with
  | nil => exact Prog.Within.pure _
  | cons index rest ih =>
      unfold chunkLoop
      apply Prog.Within.ite (ih done)
      have fetch : Prog.Within KeepsDelivered (fetchChunk P broker plan index) := fun w =>
        SameDisk.delivered (fetchChunk_sameDisk plan index w)
      exact fetch.bind fun plain => (storeChunk_keepsDelivered _ _ _ _).bind fun done => ih done

theorem verifyWhole_sameDisk (manifest : Json) :
    Prog.Within SameDisk (verifyWhole P manifest : Prog (World β) Raised Unit) := by
  refine Prog.Within.get.bind fun w => ?_
  split
  · exact within_python _
  · exact (within_python _).bind fun _ => (within_verify _ _).bind fun _ =>
      (within_python _).bind fun _ => within_verify _ _

theorem prepare_keepsDelivered : Prog.Within KeepsDelivered (prepare P broker args) := fun w =>
  SameDisk.delivered (prepare_sameDisk w)

/-- Whatever rejects a transfer leaves the promoted file and the ledger alone. -/
theorem download_keepsDelivered : Prog.Within KeepsDelivered (download P broker args) := by
  refine prepare_keepsDelivered.bind fun prepared => (resume_keepsDelivered _).bind fun done =>
    (chunkLoop_keepsDelivered _ _ _).bind fun done => (saveProgress_keepsDelivered _ _).bind fun _ =>
      Prog.Within.bind ?_ fun _ => Prog.Within.pure _
  intro w
  exact SameDisk.delivered (verifyWhole_sameDisk prepared.1 w)

/-! ## What was checked -/

/-- The exact bytes verify under the sender's key and carry the id. -/
structure Authentic (P : Primitives) (keys : KeysDir) (transferIdHex : String) (manifestBytes : Bytes)
    (manifest : Json) : Prop where
  signed : ∃ signature, P.verify keys.senderVerify signature manifestBytes = true
  loads : Json.loadBytes manifestBytes = .ok manifest
  version : manifest.get "version" = .ok (some (.str manifestVersion))
  named : manifest.get "transfer_id" = .ok (some (.str transferIdHex))

/-- What the replay defence checks. -/
structure Timely (args : Args) (transferIdHex : String) (manifest : Json) (ledger : Option Bytes) :
    Prop where
  window : ∃ createdAt, (manifest.item "created_at" >>= Json.toInt) = .ok createdAt ∧
    args.now - createdAt ≤ freshnessWindowS ∧ -clockSkewS ≤ args.now - createdAt
  unseen : ∃ seen, loadLedger ledger = .ok seen ∧ ¬ Json.contains (.text transferIdHex) seen = true

/-- A plan and the manifest it was made from. -/
structure Prepared (P : Primitives) (keys : KeysDir) (manifestBytes : Bytes) (manifest : Json)
    (plan : Plan) : Prop where
  authentic : Authentic P keys plan.transferIdHex manifestBytes manifest
  id : fromHex plan.transferIdHex = some plan.transferId
  records : chunkRecords manifest = .ok (some (plan.totalChunks, plan.records))
  key : receiverChunkKey P keys plan.transferId manifest = .ok plan.chunkKey

/-- The content is what the manifest says. -/
structure Matches (P : Primitives) (manifest : Json) (content : Bytes) : Prop where
  size : ∃ size, manifest.item "file_size" = .ok size ∧ size.eqInt content.length = true
  digest : manifest.item "plaintext_sha256" = .ok (.str (P.hexDigest content))

/-- What was checked of a chunk and its ciphertext. -/
structure ChunkChecked (P : Primitives) (plan : Plan) (index : Nat) (ct plain : Bytes) : Prop where
  record : ∃ record, findRecord plan.records index = some record ∧
    record.item "ciphertext_sha256" = .ok (.str (P.hexDigest ct)) ∧
    ∃ length, record.item "plaintext_len" = .ok length ∧ length.eqInt plain.length = true
  opens : ∃ nonce aad, chunkNonce index = .ok nonce ∧
    chunkAad plan.transferId index plan.totalChunks = .ok aad ∧
    P.decrypt plan.chunkKey nonce ct aad = some plain

theorem any_eqStr {value : Option Json} {s : String} (h : value.any (Json.eqStr · s) = true) :
    value = some (.str s) := by
  cases value with
  | none => cases h
  | some value => rw [Json.eqStr_iff.mp h]

theorem replayDefence_ok {transferIdHex : String} {age : Int} {w w' : World β}
    (run : replayDefence args transferIdHex age w = (.ok (), w')) (guarded : args.allowRedeliver = false) :
    age ≤ freshnessWindowS ∧ -clockSkewS ≤ age ∧
      ∃ seen, loadLedger w.ledger = .ok seen ∧ ¬ Json.contains (.text transferIdHex) seen = true := by
  rw [replayDefence, guarded] at run
  simp only [Bool.false_eq_true, if_false] at run
  obtain ⟨fresh, run⟩ := verify_bind_ok run
  obtain ⟨past, run⟩ := verify_bind_ok run
  rw [Prog.bind_ok (Prog.get_run w)] at run
  obtain ⟨seen, loaded, run⟩ := python_bind_ok run
  exact ⟨fresh, past, seen, loaded, (verify_ok run).1⟩

/-- The manifest and the signature that a run gets when it asks for them in this state. -/
def Fetches (broker : Broker β) (transferIdHex : String) (b : β) (manifestBytes signature : Bytes) : Prop :=
  ∃ b₁ b₂, broker.get (manifestKey transferIdHex) b = (.ok (some manifestBytes), b₁) ∧
    broker.get (signatureKey transferIdHex) b₁ = (.ok (some signature), b₂)

/-- Two blobs are fetched, and the first verifies with the second. -/
theorem fetchVerifiedManifest_cases {transferIdHex : String} {w w' : World β} {r : Except Raised Json}
    (run : fetchVerifiedManifest P broker args transferIdHex w = (r, w')) :
    (∃ e, r = .error e ∧ ((∃ message, e = .brokerError message) ∨ e = .verificationError .notFound ∨
        e = .verificationError .signatureInvalid)) ∨
      ∃ manifestBytes signature b₁ b₂,
        broker.get (manifestKey transferIdHex) w.broker = (.ok (some manifestBytes), b₁) ∧
        broker.get (signatureKey transferIdHex) b₁ = (.ok (some signature), b₂) ∧
        P.verify args.senderVerify signature manifestBytes = true := by
  rw [fetchVerifiedManifest] at run
  rcases Prog.bind_cases run with ⟨e, failed, rfl⟩ | ⟨first, w₁, get₁, run⟩
  · obtain ⟨_, _, ⟨_, _, ok⟩ | ⟨message, _, same⟩⟩ := callBroker_cases failed
    · cases ok
    · cases same
      exact .inl ⟨_, rfl, .inl ⟨message, rfl⟩⟩
  obtain ⟨b₁, rfl, ⟨_, manifest, same⟩ | ⟨_, _, failed⟩⟩ := callBroker_cases get₁
  swap
  · cases failed
  cases same
  rcases Prog.bind_cases run with ⟨e, failed, rfl⟩ | ⟨second, w₂, get₂, run⟩
  · obtain ⟨_, _, ⟨_, _, ok⟩ | ⟨message, _, same⟩⟩ := callBroker_cases failed
    · cases ok
    · cases same
      exact .inl ⟨_, rfl, .inl ⟨message, rfl⟩⟩
  obtain ⟨b₂, rfl, ⟨_, signed, same⟩ | ⟨_, _, failed⟩⟩ := callBroker_cases get₂
  swap
  · cases failed
  cases same
  cases first with
  | none =>
      cases run
      exact .inl ⟨_, rfl, .inr (.inl rfl)⟩
  | some manifestBytes =>
      cases second with
      | none =>
          cases run
          exact .inl ⟨_, rfl, .inr (.inl rfl)⟩
      | some signature =>
          rcases verify_bind run with ⟨_, rfl, _⟩ | ⟨verifies, _⟩
          · exact .inl ⟨_, rfl, .inr (.inr rfl)⟩
          · exact .inr ⟨manifestBytes, signature, b₁, b₂, manifest, signed, verifies⟩

theorem fetchVerifiedManifest_ok {transferIdHex : String} {w w' : World β} {manifest : Json}
    (run : fetchVerifiedManifest P broker args transferIdHex w = (.ok manifest, w')) :
    ∃ manifestBytes signature, Fetches broker transferIdHex w.broker manifestBytes signature ∧
      P.verify args.senderVerify signature manifestBytes = true ∧
      Authentic P args.toKeysDir transferIdHex manifestBytes manifest ∧
      (args.allowRedeliver = false → Timely args transferIdHex manifest w.ledger) := by
  rw [fetchVerifiedManifest] at run
  obtain ⟨first, w₁, get₁, run⟩ := Prog.bind_eq_ok run
  obtain ⟨second, w₂, get₂, run⟩ := Prog.bind_eq_ok run
  cases first with
  | none => cases run
  | some manifestBytes =>
      cases second with
      | none => cases run
      | some signature =>
          obtain ⟨signed, run⟩ := verify_bind_ok run
          obtain ⟨loaded, loads, run⟩ := python_bind_ok run
          obtain ⟨version, version_get, run⟩ := python_bind_ok run
          obtain ⟨current, run⟩ := verify_bind_ok run
          obtain ⟨named, named_get, run⟩ := python_bind_ok run
          obtain ⟨same, run⟩ := verify_bind_ok run
          obtain ⟨createdAt, created, run⟩ := python_bind_ok run
          obtain ⟨⟨⟩, w₃, defence, run⟩ := Prog.bind_eq_ok run
          obtain ⟨_, w₄, _, run⟩ := Prog.bind_eq_ok run
          obtain ⟨_, w₅, _, run⟩ := Prog.bind_eq_ok run
          cases run
          have fetched : Fetches broker transferIdHex w.broker manifestBytes signature := by
            obtain ⟨b₁, rfl, ⟨_, reply, same⟩ | ⟨_, _, failed⟩⟩ := callBroker_cases get₁
            · cases same
              obtain ⟨b₂, reply'⟩ := callBroker_reply get₂
              exact ⟨b₁, b₂, reply, reply'⟩
            · cases failed
          refine ⟨manifestBytes, signature, fetched, signed, ⟨⟨signature, signed⟩, loads, ?_, ?_⟩,
            fun guarded => ?_⟩
          · rw [version_get, any_eqStr current]
          · rw [named_get, any_eqStr same]
          · obtain ⟨fresh, past, unseen⟩ := replayDefence_ok defence guarded
            have ledger : w₂.ledger = w.ledger :=
              congrArg Disk.ledger (((onBroker_sameDisk _).run get₂).trans ((onBroker_sameDisk _).run get₁))
            rw [ledger] at unseen
            exact ⟨⟨createdAt, created, fresh, past⟩, unseen⟩

theorem planTransfer_ok {transferIdHex : String} {transferId : Bytes} {manifest : Json} {plan : Plan}
    {w w' : World β} (run : planTransfer P args transferIdHex transferId manifest w = (.ok plan, w')) :
    plan.transferIdHex = transferIdHex ∧ plan.transferId = transferId ∧
      chunkRecords manifest = .ok (some (plan.totalChunks, plan.records)) ∧
      receiverChunkKey P args.toKeysDir transferId manifest = .ok plan.chunkKey := by
  rw [planTransfer] at run
  obtain ⟨found, records, run⟩ := python_bind_ok run
  cases found with
  | none => cases run
  | some found =>
      obtain ⟨key, derived, run⟩ := python_bind_ok run
      cases run
      exact ⟨rfl, rfl, records, derived⟩

theorem prepare_ok {w w' : World β} {manifest : Json} {plan : Plan}
    (run : prepare P broker args w = (.ok (manifest, plan), w')) :
    (∃ w₁ manifestBytes signature,
        resolveTransferId broker args.transferId w = (.ok plan.transferIdHex, w₁) ∧
        Fetches broker plan.transferIdHex w₁.broker manifestBytes signature ∧
        P.verify args.senderVerify signature manifestBytes = true ∧
        Prepared P args.toKeysDir manifestBytes manifest plan) ∧
      (args.allowRedeliver = false → Timely args plan.transferIdHex manifest w.ledger) := by
  rw [prepare] at run
  obtain ⟨transferIdHex, w₁, resolve, run⟩ := Prog.bind_eq_ok run
  obtain ⟨transferId, bytes, run⟩ := python_bind_ok run
  obtain ⟨loaded, w₂, fetch, run⟩ := Prog.bind_eq_ok run
  obtain ⟨planned, w₃, plans, run⟩ := Prog.bind_eq_ok run
  cases run
  obtain ⟨same, same', records, key⟩ := planTransfer_ok plans
  subst same same'
  obtain ⟨manifestBytes, signature, fetched, verifies, authentic, timely⟩ := fetchVerifiedManifest_ok fetch
  have ledger : w₁.ledger = w.ledger :=
    congrArg Disk.ledger ((resolveTransferId_sameDisk _).run resolve)
  rw [ledger] at timely
  refine ⟨⟨w₁, manifestBytes, signature, resolve, fetched, verifies, authentic, ?_, records, key⟩, timely⟩
  cases found : fromHex plan.transferIdHex with
  | none =>
      rw [found] at bytes
      cases bytes
  | some raw =>
      rw [found] at bytes
      cases bytes
      rfl

theorem fetchChunk_ok {plan : Plan} {index : Nat} {w w' : World β} {plain : Bytes}
    (run : fetchChunk P broker plan index w = (.ok plain, w')) :
    ∃ ct, ChunkChecked P plan index ct plain ∧
      ∃ b, broker.get (chunkKey plan.transferIdHex index) w.broker = (.ok (some ct), b) := by
  unfold fetchChunk at run
  cases found : findRecord plan.records index with
  | none =>
      rw [found] at run
      cases run
  | some record =>
      rw [found] at run
      obtain ⟨reply, w₁, get, run⟩ := Prog.bind_eq_ok run
      cases reply with
      | none => cases run
      | some ct =>
          obtain ⟨expected, digest, run⟩ := python_bind_ok run
          obtain ⟨same, run⟩ := verify_bind_ok run
          obtain ⟨nonce, counter, run⟩ := python_bind_ok run
          obtain ⟨aad, bound, run⟩ := python_bind_ok run
          cases opened : P.decrypt plan.chunkKey nonce ct aad with
          | none =>
              rw [opened] at run
              cases run
          | some content =>
              rw [opened] at run
              obtain ⟨length, size, run⟩ := python_bind_ok run
              obtain ⟨sized, run⟩ := verify_bind_ok run
              cases run
              rw [Json.eqStr_iff.mp same] at digest
              exact ⟨ct, ⟨⟨record, found, digest, length, size, sized⟩, nonce, aad, counter, bound, opened⟩,
                callBroker_reply get⟩

theorem verifyWhole_ok {manifest : Json} {w w' : World β}
    (run : verifyWhole P manifest w = (.ok (), w')) :
    w' = w ∧ ∃ content, w.part = some content ∧ Matches P manifest content := by
  rw [verifyWhole, Prog.bind_ok (Prog.get_run w)] at run
  cases part : w.part with
  | none =>
      rw [part] at run
      cases run
  | some content =>
      rw [part] at run
      obtain ⟨size, size_item, run⟩ := python_bind_ok run
      obtain ⟨sized, run⟩ := verify_bind_ok run
      obtain ⟨expected, digest_item, run⟩ := python_bind_ok run
      obtain ⟨same, rfl⟩ := verify_ok run
      rw [Json.eqStr_iff.mp same] at digest_item
      exact ⟨rfl, content, rfl, ⟨size, size_item, sized⟩, digest_item⟩

theorem download_prepared {w w' : World β} {prepared : Json × Plan}
    (run : download P broker args w = (.ok prepared, w')) :
    ∃ w₁, prepare P broker args w = (.ok prepared, w₁) := by
  obtain ⟨found, w₁, prepares, run⟩ := Prog.bind_eq_ok run
  obtain ⟨_, _, _, run⟩ := Prog.bind_eq_ok run
  obtain ⟨_, _, _, run⟩ := Prog.bind_eq_ok run
  obtain ⟨_, _, _, run⟩ := Prog.bind_eq_ok run
  obtain ⟨_, _, _, run⟩ := Prog.bind_eq_ok run
  cases run
  exact ⟨w₁, prepares⟩

/-- A run that gets past every check: the partial file is what an authentic manifest of
    the resolved id describes. -/
theorem download_ok {w w' : World β} {manifest : Json} {plan : Plan}
    (run : download P broker args w = (.ok (manifest, plan), w')) :
    (∃ w₁ manifestBytes signature,
        resolveTransferId broker args.transferId w = (.ok plan.transferIdHex, w₁) ∧
        Fetches broker plan.transferIdHex w₁.broker manifestBytes signature ∧
        P.verify args.senderVerify signature manifestBytes = true ∧
        Prepared P args.toKeysDir manifestBytes manifest plan) ∧
      (args.allowRedeliver = false → Timely args plan.transferIdHex manifest w.ledger) ∧
      ∃ content, w'.part = some content ∧ Matches P manifest content := by
  rw [download] at run
  obtain ⟨prepared, w₁, prepares, run⟩ := Prog.bind_eq_ok run
  obtain ⟨done, w₂, _, run⟩ := Prog.bind_eq_ok run
  obtain ⟨done', w₃, _, run⟩ := Prog.bind_eq_ok run
  obtain ⟨_, w₄, _, run⟩ := Prog.bind_eq_ok run
  obtain ⟨_, w₅, whole, run⟩ := Prog.bind_eq_ok run
  cases run
  obtain ⟨made, timely⟩ := prepare_ok prepares
  obtain ⟨same, content, part, fits⟩ := verifyWhole_ok whole
  exact ⟨made, timely, content, by rw [same, part], fits⟩

/-! ## Completion -/

/-- The ledger is the only file touched; when it is written, it is what was seen and the id. -/
theorem recordCompleted_cases {transferIdHex : String} {w w' : World β} {r : Except Raised Unit}
    (run : recordCompleted transferIdHex w = (r, w')) :
    ∃ ledger, w' = { w with ledger := ledger } ∧
      (r = .ok () → ∃ seen items, loadLedger w.ledger = .ok seen ∧
        Json.sorted (Json.insert seen (.str transferIdHex)) = .ok items ∧
        ledger = some (Json.dumpFile (.arr items))) ∧
      ∀ raised, r = .error raised → ∃ e, raised = .python e := by
  rw [recordCompleted, Prog.bind_ok (Prog.get_run w)] at run
  rcases python_bind run with ⟨e, _, rfl, rfl⟩ | ⟨seen, loaded, run⟩
  · exact ⟨w'.ledger, rfl, by simp, by simp⟩
  rw [Prog.bind_ok (Prog.update_run _ _)] at run
  rcases python_bind run with ⟨e, _, rfl, rfl⟩ | ⟨items, sorts, run⟩
  · exact ⟨some [], rfl, by simp, by simp⟩
  · cases run
    exact ⟨_, rfl, fun _ => ⟨seen, items, loaded, sorts, rfl⟩, by simp⟩

/-- Once a run promotes, the partial file is the promoted one, however the run ends. -/
theorem complete_cases {transferIdHex : String} {manifest : Json} {w w' : World β}
    {r : Except Raised Int} (run : complete transferIdHex manifest w = (r, w')) :
    (∃ ledger, w' = { w with out := w.part, part := none, progress := none, ledger := ledger } ∧
      ∀ n, r = .ok n → ∃ seen items, loadLedger w.ledger = .ok seen ∧
        Json.sorted (Json.insert seen (.str transferIdHex)) = .ok items ∧
        ledger = some (Json.dumpFile (.arr items))) ∧
      ∀ raised, r = .error raised → ∃ e, raised = .python e := by
  rw [complete, atomicPromote, Prog.bind_ok (Prog.update_run _ _), Prog.bind_ok (Prog.update_run _ _)]
    at run
  rcases Prog.bind_cases run with ⟨e, record, rfl⟩ | ⟨_, w₁, record, run⟩
  · obtain ⟨ledger, rfl, _, crash⟩ := recordCompleted_cases record
    refine ⟨⟨ledger, rfl, by simp⟩, ?_⟩
    intro raised same
    cases same
    exact crash e rfl
  · obtain ⟨ledger, rfl, written, _⟩ := recordCompleted_cases record
    rcases python_bind run with ⟨e, _, rfl, rfl⟩ | ⟨_, _, run⟩
    · exact ⟨⟨ledger, rfl, by simp⟩, by simp⟩
    · cases run
      exact ⟨⟨ledger, rfl, fun _ _ => written rfl⟩, by simp⟩

/-- A run is rejected before it promotes, or it has passed every check. -/
theorem receive_cases {w w' : World β} {r : Except Raised Int}
    (run : receive P broker args w = (r, w')) :
    (∃ e, download P broker args w = (.error e, w') ∧ r = .error e) ∨
      ∃ manifest plan w₁, download P broker args w = (.ok (manifest, plan), w₁) ∧
        complete plan.transferIdHex manifest w₁ = (r, w') := by
  rcases Prog.bind_cases run with failed | ⟨⟨manifest, plan⟩, w₁, passed, run⟩
  · exact .inl failed
  · exact .inr ⟨manifest, plan, w₁, passed, run⟩

end SecureTransfer.ApproachB
