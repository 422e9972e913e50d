import SecureTransfer.ApproachB.HostileWire
import SecureTransfer.ApproachB.FailClosed
import SecureTransfer.ApproachB.Sizes

/-! # How a run against a hostile broker ends

Every value a run takes from the broker is traced to what it can raise. Behind the
signature check the values are those of a manifest that `send` signed; before it there is
only the id that a run selects for itself.
-/

namespace SecureTransfer.ApproachB

open Library

/-- What `main` makes of a run: an exit code, or an exception it does not handle. -/
def mainResult : Except Raised Int → Except PyError Int
  | .ok code => .ok code
  | .error (.verificationError _) => .ok 1
  | .error (.brokerError _) => .ok 1
  | .error (.python e) => .error e

/-- One of the two exceptions that `main` handles. -/
def Raised.Handled (raised : Raised) : Prop := mainResult (.error raised) = .ok 1

theorem handled_rejection (reason : Rejection) : (Raised.verificationError reason).Handled := rfl

theorem handled_broker (message : String) : (Raised.brokerError message).Handled := rfl

/-- The run returns 0 or raises what `main` handles. -/
def EndsCleanly (r : Except Raised Int) : Prop := r = .ok 0 ∨ ∃ raised, r = .error raised ∧ raised.Handled

/-- One run of a receiver, against any broker. -/
def ReceivedOnce (P : Primitives) (disk disk' : Disk) : Prop :=
  ∃ (β : Type) (broker : Broker β) (args : Args) (b : β),
    disk' = (receive P broker args { toDisk := disk, broker := b }).2.toDisk

/-- The local files are as any number of runs left them. -/
def EarlierRuns (P : Primitives) (disk : Disk) : Prop :=
  ∃ first : Disk, first.progress = none ∧ first.ledger = none ∧
    Relation.ReflTransGen (ReceivedOnce P) first disk

/-- The run selects the only manifest that is listed, in a namespace that is no hex text. -/
def SelectsNonHex {β : Type} (broker : Broker β) (args : Args) (b : β) : Prop :=
  args.transferId.filter (· ≠ "") = none ∧
    ∃ keys b' id, broker.list "" b = (.ok keys, b') ∧ manifestIds keys = [id] ∧ fromHex id = none

/-- What the run fetches under the id it takes is no forgery. -/
def FetchesSigned {β : Type} (P : Primitives) (broker : Broker β) (args : Args) (w : World β) (h : History) : Prop :=
  ∀ id w₁ manifestBytes signature, resolveTransferId broker args.transferId w = (.ok id, w₁) →
    Fetches broker id w₁.broker manifestBytes signature →
    OnlySendSigns P args.senderVerify signature manifestBytes h

variable {P : Primitives} {β : Type} {broker : Broker β} {args : Args} {C : Raised → Prop}

/-! ## Local files -/

/-- What a run finds of earlier ones: a ledger of ids, and a progress file that lists chunks. -/
structure LocalFiles (disk : Disk) : Prop where
  ledger : ∃ ids, Recorded disk.ledger ids
  progress : disk.progress = none ∨ ∃ id indices, Names disk.progress id indices

theorem LocalFiles.loads {disk : Disk} (files : LocalFiles disk) (transferIdHex : String) :
    ∃ indices, loadProgress disk.progress transferIdHex = .ok (indexList indices) := by
  rcases files.progress with missing | ⟨named, indices, names⟩
  · exact ⟨[], by rw [missing]; rfl⟩
  · by_cases same : named = transferIdHex
    · rw [same] at names
      obtain ⟨all, loads, _⟩ := names.load
      exact ⟨all, loads⟩
    · exact ⟨[], names.load_other same⟩

theorem LocalFiles.sameDisk {w w' : World β} (files : LocalFiles w.toDisk) (same : SameDisk w w') :
    LocalFiles w'.toDisk := by
  rwa [show w'.toDisk = w.toDisk from same]

/-- Past the manifest checks, nothing but a `C` can be raised. -/
structure Settled (C : Raised → Prop) (P : Primitives) (broker : Broker β) (manifest : Json) (plan : Plan) :
    Prop where
  rejects : ∀ reason, C (.verificationError reason)
  fetch : ∀ i < plan.totalChunks, Prog.Raises C (fetchChunk P broker plan i)
  size : ∀ e, manifest.item "file_size" = .error e → C (.python e)
  digest : ∀ e, manifest.item "plaintext_sha256" = .error e → C (.python e)
  named : ∀ e, manifest.item "filename" = .error e → C (.python e)

theorem chunkLoop_local {plan : Plan} {todo indices : List Nat}
    (fetch : ∀ i ∈ todo, Prog.Raises C (fetchChunk P broker plan i)) {w w' : World β}
    {r : Except Raised (List Json)} (files : LocalFiles w.toDisk) (part : w.part ≠ none)
    (run : chunkLoop P broker plan todo (indexList indices) w = (r, w')) :
    LocalFiles w'.toDisk ∧ w'.part ≠ none ∧
      ((∃ indices', r = .ok (indexList indices')) ∨ ∃ e, r = .error e ∧ C e) := by
  induction todo generalizing indices w with
  | nil =>
      cases run
      exact ⟨files, part, .inl ⟨indices, rfl⟩⟩
  | cons index rest ih =>
      have later := fun i member => fetch i (List.mem_cons_of_mem index member)
      unfold chunkLoop at run
      split at run
      · exact ih later files part run
      · rcases Prog.bind_cases run with ⟨e, failed, rfl⟩ | ⟨plain, w₁, fetched, run⟩
        · have same := (fetchChunk_sameDisk plan index).run failed
          refine ⟨files.sameDisk same, by rwa [congrArg Disk.part same], .inr ⟨e, rfl, ?_⟩⟩
          exact fetch index List.mem_cons_self w e (by rw [failed])
        · have same := (fetchChunk_sameDisk plan index).run fetched
          have part₁ : w₁.part ≠ none := by rwa [congrArg Disk.part same]
          obtain ⟨indices₁, progress, stored, names, _⟩ := storeChunk_run plan index plain indices w₁
          rw [Prog.bind_ok stored] at run
          let w₂ : World β :=
            { w₁ with part := w₁.part.map (writeAt 0 (index * chunkSize) plain), progress := progress }
          have files₂ : LocalFiles w₂.toDisk := ⟨(files.sameDisk same).ledger, .inr ⟨_, _, names⟩⟩
          exact ih later files₂ (by simpa [w₂] using part₁) run

theorem verifyWhole_local {manifest : Json} {plan : Plan} (settled : Settled C P broker manifest plan)
    {w w' : World β} {r : Except Raised Unit} (part : w.part ≠ none)
    (run : verifyWhole P manifest w = (r, w')) : w' = w ∧ (r = .ok () ∨ ∃ e, r = .error e ∧ C e) := by
  rw [verifyWhole, Prog.bind_ok (Prog.get_run w)] at run
  obtain ⟨content, found⟩ := Option.ne_none_iff_exists'.mp part
  rw [found] at run
  rcases python_bind run with ⟨e, failed, rfl, rfl⟩ | ⟨size, _, run⟩
  · exact ⟨rfl, .inr ⟨_, rfl, settled.size e failed⟩⟩
  rcases verify_bind run with ⟨_, rfl, rfl⟩ | ⟨_, run⟩
  · exact ⟨rfl, .inr ⟨_, rfl, settled.rejects _⟩⟩
  rcases python_bind run with ⟨e, failed, rfl, rfl⟩ | ⟨expected, _, run⟩
  · exact ⟨rfl, .inr ⟨_, rfl, settled.digest e failed⟩⟩
  cases run
  split
  · exact ⟨rfl, .inl rfl⟩
  · exact ⟨rfl, .inr ⟨_, rfl, settled.rejects _⟩⟩

theorem download_local {w w' : World β} {r : Except Raised (Json × Plan)} (files : LocalFiles w.toDisk)
    (prepares : ∀ e w₁, prepare P broker args w = (.error e, w₁) → C e)
    (settles : ∀ manifest plan w₁, prepare P broker args w = (.ok (manifest, plan), w₁) →
      Settled C P broker manifest plan)
    (run : download P broker args w = (r, w')) :
    LocalFiles w'.toDisk ∧ ((∃ manifest plan, r = .ok (manifest, plan) ∧ Settled C P broker manifest plan) ∨
      ∃ e, r = .error e ∧ C e) := by
  rw [download] at run
  rcases Prog.bind_cases run with ⟨e, failed, rfl⟩ | ⟨⟨manifest, plan⟩, w₁, prepared, run⟩
  · exact ⟨files.sameDisk (prepare_sameDisk.run failed), .inr ⟨e, rfl, prepares e w' failed⟩⟩
  have settled := settles manifest plan w₁ prepared
  have files₁ := files.sameDisk (prepare_sameDisk.run prepared)
  have fetch : ∀ i ∈ List.range plan.totalChunks, Prog.Raises C (fetchChunk P broker plan i) :=
    fun i member => settled.fetch i (List.mem_range.mp member)
  obtain ⟨indices, loads⟩ := files₁.loads plan.transferIdHex
  let resumed : World β := { w₁ with part := some (checkpoint w₁.part indices).2 }
  have files₂ : LocalFiles resumed.toDisk := ⟨files₁.ledger, files₁.progress⟩
  have part₂ : resumed.part ≠ none := Option.some_ne_none _
  rw [Prog.bind_ok (resume_checkpoint loads)] at run
  rcases Prog.bind_cases run with ⟨e, loop, rfl⟩ | ⟨done, w₂, loop, run⟩
  · obtain ⟨files₃, _, ⟨_, ok⟩ | ⟨e', same, raised⟩⟩ := chunkLoop_local fetch files₂ part₂ loop
    · cases ok
    · cases same
      exact ⟨files₃, .inr ⟨e, rfl, raised⟩⟩
  · obtain ⟨files₃, part₃, ⟨indices₃, ok⟩ | ⟨_, failed, _⟩⟩ := chunkLoop_local fetch files₂ part₂ loop
    · cases ok
      obtain ⟨progress, saved, names⟩ := saveProgress_run plan.transferIdHex indices₃ w₂
      rw [Prog.bind_ok saved] at run
      let listed : World β := { w₂ with progress := progress }
      have files₄ : LocalFiles listed.toDisk := ⟨files₃.ledger, .inr ⟨plan.transferIdHex, indices₃, names⟩⟩
      have part₄ : listed.part ≠ none := part₃
      rcases Prog.bind_cases run with ⟨e, whole, rfl⟩ | ⟨_, w₃, whole, run⟩
      · obtain ⟨rfl, ok | ⟨e', same, raised⟩⟩ := verifyWhole_local settled part₄ whole
        · cases ok
        · cases same
          exact ⟨files₄, .inr ⟨e, rfl, raised⟩⟩
      · obtain ⟨rfl, _⟩ := verifyWhole_local settled part₄ whole
        obtain ⟨rfl, rfl⟩ := Prod.mk.inj run
        exact ⟨files₄, .inl ⟨manifest, plan, rfl, settled⟩⟩
    · cases failed

/-- What the manifest checks and the broker raise is all that a run raises, and the files it
    leaves are such files again. -/
theorem receive_local {w w' : World β} {r : Except Raised Int} (files : LocalFiles w.toDisk)
    (prepares : ∀ e w₁, prepare P broker args w = (.error e, w₁) → C e)
    (settles : ∀ manifest plan w₁, prepare P broker args w = (.ok (manifest, plan), w₁) →
      Settled C P broker manifest plan)
    (run : receive P broker args w = (r, w')) :
    LocalFiles w'.toDisk ∧ (r = .ok 0 ∨ ∃ e, r = .error e ∧ C e) := by
  rcases receive_cases run with ⟨e, failed, rfl⟩ | ⟨manifest, plan, w₁, passed, run⟩
  · obtain ⟨files', ⟨_, _, ok, _⟩ | raised⟩ := download_local files prepares settles failed
    · cases ok
    · obtain ⟨e', same, raised⟩ := raised
      cases same
      exact ⟨files', .inr ⟨e, rfl, raised⟩⟩
  · obtain ⟨files', ⟨_, _, ok, settled⟩ | ⟨_, failed, _⟩⟩ := download_local files prepares settles passed
    · cases ok
      obtain ⟨ids, recorded⟩ := files'.ledger
      rw [complete, atomicPromote, Prog.bind_ok (Prog.update_run _ _),
        Prog.bind_ok (Prog.update_run _ _)] at run
      obtain ⟨ledger, written, next⟩ := recordCompleted_run plan.transferIdHex
        (w := { w₁ with out := w₁.part, part := none, progress := none }) recorded
      rw [Prog.bind_ok written] at run
      rcases python_bind run with ⟨e, failed, rfl, rfl⟩ | ⟨_, _, run⟩
      · exact ⟨⟨⟨_, next⟩, .inl rfl⟩, .inr ⟨_, rfl, settled.named e failed⟩⟩
      · cases run
        exact ⟨⟨⟨_, next⟩, .inl rfl⟩, .inl rfl⟩
    · cases failed

/-- Whatever the broker served and whoever signed it. -/
theorem EarlierRuns.files {disk : Disk} (earlier : EarlierRuns P disk) : LocalFiles disk := by
  obtain ⟨first, progress, ledger, runs⟩ := earlier
  have steps : Preserves (ReceivedOnce P) LocalFiles := by
    rintro disk _ files ⟨β, broker, args, b, rfl⟩
    refine (receive_local (C := fun _ => True) (w := { toDisk := disk, broker := b }) files
      (fun _ _ _ => trivial) (fun manifest plan w₁ _ => ⟨?_, ?_, ?_, ?_, ?_⟩) rfl).1
    · exact fun _ => trivial
    · exact fun _ _ _ _ _ => trivial
    all_goals exact fun _ _ => trivial
  exact steps.run ⟨⟨[], by rw [ledger]; exact Recorded.missing⟩, .inl progress⟩ runs

/-! ## A manifest that was signed -/

/-- What the run fetches and verifies under the id is the manifest of a transfer that numbers
    its chunks. -/
def FetchesTransfer (P : Primitives) (broker : Broker β) (args : Args) (id : String) (b : β) : Prop :=
  ∀ manifestBytes signature, Fetches broker id b manifestBytes signature →
    P.verify args.senderVerify signature manifestBytes = true →
    ∃ t : Transfer P, manifestBytes = t.manifestBytes ∧ t.total < 2 ^ 64

theorem FetchesSigned.transfer {w w₁ : World β} {h : History} {id : String}
    (only : FetchesSigned P broker args w h)
    (reached : Relation.ReflTransGen (fun a b => ∃ path args, SendStep P a path args b) History.start h)
    (resolved : resolveTransferId broker args.transferId w = (.ok id, w₁)) :
    FetchesTransfer P broker args id w₁.broker := by
  intro manifestBytes signature fetched verified
  obtain ⟨file, member⟩ := only id w₁ manifestBytes signature resolved fetched verified
  obtain ⟨t, entry, numbered⟩ := signed_numbered reached member
  exact ⟨t, (Prod.mk.inj entry).1, numbered⟩

theorem replayDefence_handled {transferIdHex : String} {age : Int} {w w' : World β} {r : Except Raised Unit}
    (ledger : ∃ ids, Recorded w.ledger ids) (run : replayDefence args transferIdHex age w = (r, w')) :
    r = .ok () ∨ ∃ e, r = .error e ∧ e.Handled := by
  unfold replayDefence at run
  split at run
  · cases run
    exact .inl rfl
  rcases verify_bind run with ⟨_, rfl, _⟩ | ⟨_, run⟩
  · exact .inr ⟨_, rfl, rfl⟩
  rcases verify_bind run with ⟨_, rfl, _⟩ | ⟨_, run⟩
  · exact .inr ⟨_, rfl, rfl⟩
  obtain ⟨_, all, loads, _⟩ := ledger
  rw [Prog.bind_ok (Prog.get_run w), Prog.bind_ok (python_run_ok loads w)] at run
  cases run
  split
  · exact .inl rfl
  · exact .inr ⟨_, rfl, rfl⟩

/-- The manifest that passes the checks is one of the transfer with the id. -/
theorem fetchVerifiedManifest_handled {transferIdHex : String} {w w' : World β} {r : Except Raised Json}
    (only : FetchesTransfer P broker args transferIdHex w.broker) (ledger : ∃ ids, Recorded w.ledger ids)
    (run : fetchVerifiedManifest P broker args transferIdHex w = (r, w')) :
    (∃ e, r = .error e ∧ e.Handled) ∨
      ∃ t : Transfer P, t.hexId = transferIdHex ∧ t.total < 2 ^ 64 ∧ r = .ok t.loaded := by
  rcases fetchVerifiedManifest_cases run with
    ⟨e, rfl, ⟨_, rfl⟩ | rfl | rfl⟩ | ⟨manifestBytes, signature, b₁, b₂, manifest, signed, verifies⟩
  · exact .inl ⟨_, rfl, handled_broker _⟩
  · exact .inl ⟨_, rfl, handled_rejection _⟩
  · exact .inl ⟨_, rfl, handled_rejection _⟩
  -- from here on every value is read from the manifest of a transfer
  obtain ⟨t, rfl, numbered⟩ := only manifestBytes signature ⟨b₁, b₂, manifest, signed⟩ verifies
  rw [fetchVerifiedManifest_verified manifest signed verifies] at run
  rcases verify_bind run with ⟨_, rfl, _⟩ | ⟨same, run⟩
  · exact .inl ⟨_, rfl, handled_rejection _⟩
  rcases Prog.bind_cases run with ⟨e, defence, rfl⟩ | ⟨_, w₁, defence, run⟩
  · rcases replayDefence_handled (w := { w with broker := b₂ }) ledger defence with ok | ⟨_, raised, handled⟩
    · cases ok
    · cases raised
      exact .inl ⟨e, rfl, handled⟩
  · cases run
    exact .inr ⟨t, same, numbered, rfl⟩

namespace Transfer

variable (t : Transfer P)

/-- Any receiver key agrees on some key with the ephemeral one, its own or another's. -/
theorem receiverChunkKey_any (laws : P.Agreement) (keys : KeysDir) :
    ∃ key, receiverChunkKey P keys t.saved.id.1 t.loaded = .ok key := by
  obtain ⟨ephemeral, _, _, _, session⟩ := openSession_json t.opened
  have published : t.loaded.item "ephemeral_x25519_pub" = .ok (.str (hex t.session.ephemeralPubRaw)) :=
    t.loaded_item "ephemeral_x25519_pub" rfl
  obtain ⟨secret, exchanged⟩ := laws.shared keys.receiverPrivate ephemeral
  refine ⟨deriveChunkKey P secret t.saved.id.1 t.session.ephemeralPubRaw
    (P.x25519Public keys.receiverPrivate).1, ?_⟩
  simp only [receiverChunkKey, published, bind, Except.bind, fromHex_hex, publicFromBytes_raw, exchanged,
    session]
  rfl

/-- The plan of `t` for a receiver that derived `key`. -/
def planWith (key : Bytes) : Plan := { t.plan with chunkKey := key }

theorem fetchChunk_handled (numbered : t.total < 2 ^ 64) (key : Bytes) {i : Nat} (inside : i < t.total) :
    Prog.Raises Raised.Handled (fetchChunk P broker (t.planWith key) i) := by
  have found : findRecord (t.planWith key).records i = some (t.loadedRecord i) :=
    findRecord_recordsOf _ (List.mem_range.mpr inside)
  have digest : (t.loadedRecord i).item "ciphertext_sha256" = .ok (.str (P.hexDigest (t.ciphertext i))) :=
    t.record_item "ciphertext_sha256" i rfl
  have length : (t.loadedRecord i).item "plaintext_len" = .ok (.int (t.plain i).length) :=
    t.record_item "plaintext_len" i rfl
  have position : i < 2 ^ 64 := lt_trans inside numbered
  unfold fetchChunk
  rw [found]
  refine (onBroker_raises handled_broker _).bind fun ct => ?_
  cases ct with
  | none => exact .raise (handled_rejection _)
  | some ct =>
      refine (python_returns digest).bind fun expected => (verify_raises (handled_rejection _)).bind fun _ =>
        (python_returns (chunkNonce_eq position)).bind fun nonce =>
          (python_returns (chunkAad_eq position numbered)).bind fun aad => ?_
      split
      · exact .raise (handled_rejection _)
      · exact (python_returns length).bind fun _ => (verify_raises (handled_rejection _)).bind fun _ => .pure _

theorem settled (numbered : t.total < 2 ^ 64) (key : Bytes) :
    Settled Raised.Handled P broker t.loaded (t.planWith key) where
  rejects := handled_rejection
  fetch _ inside := t.fetchChunk_handled numbered key inside
  size := never_python (t.loaded_item "file_size" rfl)
  digest := never_python (t.loaded_item "plaintext_sha256" rfl)
  named := never_python (t.loaded_item "filename" rfl)

end Transfer

/-! ## The id -/

/-- The id a run takes is given, or selected from the reply to a LIST. -/
theorem resolveTransferId_cases {w w' : World β} {r : Except Raised String}
    (run : resolveTransferId broker args.transferId w = (r, w')) :
    (∃ id, args.transferId.filter (· ≠ "") = some id ∧ r = .ok id) ∨
      (args.transferId.filter (· ≠ "") = none ∧ ((∃ e, r = .error e ∧ e.Handled) ∨
        ∃ keys b id, broker.list "" w.broker = (.ok keys, b) ∧ manifestIds keys = [id] ∧ r = .ok id)) := by
  unfold resolveTransferId at run
  cases given : args.transferId.filter (· ≠ "") with
  | some id =>
      rw [given] at run
      cases run
      exact .inl ⟨id, rfl, rfl⟩
  | none =>
      rw [given] at run
      refine .inr ⟨rfl, ?_⟩
      rcases Prog.bind_cases run with ⟨e, failed, rfl⟩ | ⟨keys, w₁, listed, run⟩
      · exact .inl ⟨e, rfl, onBroker_raises handled_broker _ w e (by rw [failed])⟩
      · obtain ⟨b, reply⟩ := callBroker_reply listed
        match ids : manifestIds keys, run with
        | [id], run =>
            cases run
            exact .inr ⟨keys, b, id, reply, ids, rfl⟩
        | [], run =>
            cases run
            exact .inl ⟨_, rfl, rfl⟩
        | _ :: _ :: _, run =>
            cases run
            exact .inl ⟨_, rfl, rfl⟩

/-- What a run has settled when it touches its own files, given an id that is hex text. -/
theorem prepare_handled (laws : P.Agreement) {w w' : World β} {r : Except Raised (Json × Plan)}
    (only : ∀ id w₁, resolveTransferId broker args.transferId w = (.ok id, w₁) →
      FetchesTransfer P broker args id w₁.broker)
    (files : LocalFiles w.toDisk)
    (hex_id : ∀ id w₁, resolveTransferId broker args.transferId w = (.ok id, w₁) → (fromHex id).isSome = true)
    (run : prepare P broker args w = (r, w')) :
    (∃ e, r = .error e ∧ e.Handled) ∨
      ∃ manifest plan, r = .ok (manifest, plan) ∧ Settled Raised.Handled P broker manifest plan := by
  rw [prepare] at run
  rcases Prog.bind_cases run with ⟨e, failed, rfl⟩ | ⟨id, w₁, resolved, run⟩
  · rcases resolveTransferId_cases failed with ⟨_, _, ok⟩ | ⟨_, ⟨_, same, handled⟩ | ⟨_, _, _, _, _, ok⟩⟩
    · cases ok
    · cases same
      exact .inl ⟨e, rfl, handled⟩
    · cases ok
  have only₁ := only id w₁ resolved
  obtain ⟨raw, bytes⟩ := Option.isSome_iff_exists.mp (hex_id id w₁ resolved)
  have files₁ := files.sameDisk ((resolveTransferId_sameDisk _).run resolved)
  rw [bytes, Option.elim_some, Prog.bind_ok (python_ok raw _)] at run
  rcases Prog.bind_cases run with ⟨e, failed, rfl⟩ | ⟨manifest, w₂, fetched, run⟩
  · rcases fetchVerifiedManifest_handled only₁ files₁.ledger failed with ⟨_, same, handled⟩ | ⟨_, _, _, ok⟩
    · cases same
      exact .inl ⟨e, rfl, handled⟩
    · cases ok
  · rcases fetchVerifiedManifest_handled only₁ files₁.ledger fetched with ⟨_, failed, _⟩ | ⟨t, rfl, numbered, ok⟩
    · cases failed
    · cases ok
      rw [Transfer.hexId, fromHex_hex] at bytes
      cases bytes
      obtain ⟨key, derived⟩ := t.receiverChunkKey_any laws args.toKeysDir
      have planned : planTransfer P args t.hexId t.saved.id.1 t.loaded w₂ = (.ok (t.planWith key), w₂) := by
        rw [planTransfer, Prog.bind_ok (python_run_ok t.chunkRecords_loaded _)]
        simp only
        rw [Prog.bind_ok (python_run_ok derived _)]
        rfl
      rw [Prog.bind_ok planned] at run
      cases run
      exact .inr ⟨t.loaded, t.planWith key, rfl, t.settled numbered key⟩

/-- The id of the only namespace with a manifest in the reply. -/
theorem resolveTransferId_selected {w : World β} {keys : List String} {id : String} {b : β}
    (none_given : args.transferId.filter (· ≠ "") = none) (reply : broker.list "" w.broker = (.ok keys, b))
    (ids : manifestIds keys = [id]) :
    resolveTransferId broker args.transferId w = (.ok id, { w with broker := b }) := by
  have listed : onBroker (broker.list "") w = (.ok keys, { w with broker := b }) := callBroker_ok reply
  rw [resolveTransferId, none_given]
  simp only
  rw [Prog.bind_ok listed, ids]
  rfl

/-- An id that is no hex text raises, whatever the broker serves under it. -/
theorem receive_nonHex (w : World β) (selects : SelectsNonHex broker args w.broker) :
    ∃ w', receive P broker args w = (.error (.python .valueError), w') := by
  obtain ⟨none_given, keys, b, id, reply, ids, nonhex⟩ := selects
  have resolved := resolveTransferId_selected none_given reply ids
  have failed : prepare P broker args w = (.error (.python .valueError), { w with broker := b }) := by
    rw [prepare, Prog.bind_ok resolved, nonhex]
    rfl
  exact ⟨_, Prog.bind_error (Prog.bind_error failed _) _⟩

/-- Against any broker, and so for every sequence of its replies. -/
theorem receive_cleanly_iff (laws : P.Agreement) {w : World β}
    (only : ∀ id w₁, resolveTransferId broker args.transferId w = (.ok id, w₁) →
      FetchesTransfer P broker args id w₁.broker)
    (given : ∀ id, args.transferId = some id → id ≠ "" → (fromHex id).isSome = true) (files : LocalFiles w.toDisk) :
    EndsCleanly (receive P broker args w).1 ↔ ¬ SelectsNonHex broker args w.broker := by
  constructor
  · rintro ends selects
    obtain ⟨w', run⟩ := receive_nonHex (P := P) w selects
    rw [run] at ends
    rcases ends with ok | ⟨_, raised, handled⟩
    · cases ok
    · cases raised
      cases handled
  · intro hex_selected
    have hex_id : ∀ id w₁, resolveTransferId broker args.transferId w = (.ok id, w₁) →
        (fromHex id).isSome = true := by
      intro id w₁ resolved
      rcases resolveTransferId_cases resolved with
        ⟨_, found, ok⟩ | ⟨none_given, ⟨_, failed, _⟩ | ⟨keys, b, _, reply, ids, ok⟩⟩
      · cases ok
        obtain ⟨asked, some_text⟩ := Option.filter_eq_some_iff.mp found
        exact given id asked (by simpa using some_text)
      · cases failed
      · cases ok
        by_contra nonhex
        exact hex_selected ⟨none_given, keys, b, id, reply, ids, by simpa using nonhex⟩
    cases run : receive P broker args w with
    | mk r w' =>
        refine (receive_local files (fun e w₁ failed => ?_) (fun manifest plan w₁ passed => ?_) run).2
        · rcases prepare_handled laws only files hex_id failed with ⟨_, same, handled⟩ | ⟨_, _, ok, _⟩
          · cases same
            exact handled
          · cases ok
        · rcases prepare_handled laws only files hex_id passed with ⟨_, failed, _⟩ | ⟨_, _, ok, settled⟩
          · cases failed
          · cases ok
            exact settled

/-- **A hostile broker causes a clean rejection**, unless the run selects an id that is no hex
    text. Whatever the client meets, a GET or a LIST is answered or raises a `BrokerError`. -/
theorem receive_ends_cleanly (laws : P.Agreement) {h : History}
    (reached : Relation.ReflTransGen (fun a b => ∃ path args, SendStep P a path args b) History.start h)
    {disk : Disk} (earlier : EarlierRuns P disk)
    (given : ∀ id, args.transferId = some id → id ≠ "" → (fromHex id).isSome = true)
    (text : ClientError → String) (wire : HostileWire)
    (only : FetchesSigned P (overWire text) args { toDisk := disk, broker := wire } h) :
    (EndsCleanly (receive P (overWire text) args { toDisk := disk, broker := wire }).1 ↔
        ¬ SelectsNonHex (overWire text) args wire) ∧
      ∀ r : Request, r.Reads → ∀ left wire,
        (∃ value, (HostileWire.run r left wire).1 = .ok value ∧ value.Answers r) ∨
          ∃ e, (HostileWire.run r left wire).1 = .error e ∧ e.IsBrokerError :=
  ⟨receive_cleanly_iff laws (fun _ _ resolved => only.transfer reached resolved) given earlier.files,
    fun _ reads left wire => HostileWire.run_cases reads left wire⟩

/-! ## Replies that arrive -/

def newDisk : Disk := ⟨none, none, none, none⟩

theorem newDisk_earlier (P : Primitives) : EarlierRuns P newDisk := ⟨newDisk, rfl, rfl, .refl⟩

/-- A reply of the status `OK` and this frame. -/
def replying (body : Bytes) : Fate := .carries (frame (encodeText "OK".toList) ++ frame body) []

/-- The client connects, or its last reply has been read to the end. -/
def HostileWire.Idle (wire : HostileWire) : Prop := wire.connected.incoming = []

theorem attempt_replying {wire : HostileWire} {r : Request} {body : Bytes} {fates : List Fate}
    (idle : wire.Idle) (fated : wire.fates = replying body :: fates) (small : Sendable body) :
    ∃ conn conn₁ conn₂, HostileWire.attempt r wire =
        ((parseReply r conn).1, ⟨some (parseReply r conn).2, fates⟩) ∧
      io recvFrame conn = (.ok (encodeText "OK".toList), conn₁) ∧ io recvFrame conn₁ = (.ok body, conn₂) ∧
      conn₂.incoming = [] := by
  let conn : Sock := ⟨wire.connected.incoming ++ (frame (encodeText "OK".toList) ++ frame body), [],
    wire.connected.sent ++ r.bytes⟩
  have brings : Sock.Brings conn [encodeText "OK".toList, body] [] := by
    rw [HostileWire.Idle] at idle
    simp [Sock.Brings, conn, idle]
  obtain ⟨conn₁, conn₂, status, found, left, _⟩ := recv_double (text_sendable (by decide)) small brings
  refine ⟨conn, conn₁, conn₂, ?_, status, found, left⟩
  rw [HostileWire.attempt, fated]
  rfl

theorem get_replying (text : ClientError → String) (key : String) {wire : HostileWire} {body : Bytes}
    {fates : List Fate} (idle : wire.Idle) (fated : wire.fates = replying body :: fates) (small : Sendable body) :
    ∃ wire', (overWire text).get key wire = (.ok (some body), wire') ∧ wire'.Idle ∧ wire'.fates = fates := by
  obtain ⟨conn, conn₁, conn₂, attempted, status, found, left⟩ :=
    attempt_replying (r := .get key) idle fated small
  have read : parseReply (.get key) conn = (.ok (.blob (some body)), conn₂) := by
    rw [parseReply, Prog.bind_ok status, if_neg ok_ne_missing, if_neg (not_not.mpr rfl), Prog.bind_ok found]
    rfl
  rw [read] at attempted
  refine ⟨⟨some conn₂, fates⟩, ?_, left, rfl⟩
  have called : HostileWire.run (.get key) maxAttempts wire = (.ok (.blob (some body)), ⟨some conn₂, fates⟩) := by
    simp only [maxAttempts, HostileWire.run, attempted]
  simp only [overWire, Prog.bind_run, Prog.mapError, called]
  rfl

theorem list_replying (text : ClientError → String) {wire : HostileWire} {start key : String}
    {fates : List Fate} (idle : wire.Idle) (fated : wire.fates = replying (encodeText key.toList) :: fates)
    (short : key.toList.length ≤ 1000) (single : bodyKeys key.toList = [key]) :
    ∃ wire', (overWire text).list start wire = (.ok [key], wire') ∧ wire'.fates = fates := by
  obtain ⟨conn, conn₁, conn₂, attempted, status, found, _⟩ :=
    attempt_replying (r := .list start) idle fated (text_sendable short)
  have read : parseReply (.list start) conn = (.ok (.keys [key]), conn₂) := by
    rw [parseReply, Prog.bind_ok status, if_neg (not_not.mpr rfl), Prog.bind_ok found, decodeReplace_encodeText,
      single]
    rfl
  rw [read] at attempted
  refine ⟨⟨some conn₂, fates⟩, ?_, rfl⟩
  have called : HostileWire.run (.list start) maxAttempts wire = (.ok (.keys [key]), ⟨some conn₂, fates⟩) := by
    simp only [maxAttempts, HostileWire.run, attempted]
  simp only [overWire, Prog.bind_run, Prog.mapError, called]
  rfl

/-- No connection is made any more. -/
theorem get_silent (text : ClientError → String) {wire : HostileWire} (silent : wire.fates = []) (key : String) :
    ∃ message wire', (overWire text).get key wire = (.error message, wire') := by
  obtain ⟨sock, fates⟩ := wire
  cases silent
  exact ⟨_, _, rfl⟩

/-- The manifest that `send` signed arrives with its signature and verifies, and then the broker
    falls silent. -/
theorem receive_ends_cleanly_signed :
    ∃ (transferIdHex : String) (wire : HostileWire) (manifestBytes signature : Bytes),
      Fetches (overWire fun _ => "") transferIdHex wire manifestBytes signature ∧
      (transparent fun _ _ => true).verify [] signature manifestBytes = true ∧
      EndsCleanly (receive (transparent fun _ _ => true) (overWire fun _ => "")
        (transparentReceiver transferIdHex) { toDisk := newDisk, broker := wire }).1 := by
  obtain ⟨t, saved, receiver, file, named, total⟩ :=
    oneByte_transfer (fun _ _ => true) 1 ⟨List.replicate 16 0, rfl⟩
  have small : t.file.length < 2 ^ 53 := by simp [file]
  obtain ⟨h, step, signed⟩ := served_signs (oneByte 1 ⟨List.replicate 16 0, rfl⟩) t "source"
    (congrArg some file.symm) (saved.trans (by rw [file]; rfl)) receiver named (t.whole small).numbered
  have modest : t.Modest ((transparent fun _ _ => true).sign [] t.manifestBytes) :=
    transparent_modest small (by rw [named]; decide) (by rw [saved]; decide)
  let wire : HostileWire := .start [replying t.manifestBytes, replying t.manifestBytes]
  obtain ⟨wire₁, manifest, idle, left⟩ := get_replying (fun _ => "") (manifestKey t.hexId)
    (show wire.Idle from rfl) (show wire.fates = _ from rfl) modest.manifest
  obtain ⟨wire₂, signature, _⟩ := get_replying (fun _ => "") (signatureKey t.hexId) idle left modest.manifest
  have fetches : Fetches (overWire fun _ => "") t.hexId wire t.manifestBytes t.manifestBytes :=
    ⟨wire₁, wire₂, manifest, signature⟩
  have verifies : (transparent fun _ _ => true).verify [] t.manifestBytes t.manifestBytes = true :=
    transparent_signsFor [] t.manifestBytes
  have only : FetchesSigned (transparent fun _ _ => true) (overWire fun _ => "") (transparentReceiver t.hexId)
      { toDisk := newDisk, broker := wire } h := by
    rintro id w₁ manifestBytes _ resolved ⟨b₁, b₂, reply, _⟩ _
    rw [resolveTransferId_given rfl] at resolved
    cases resolved
    rw [manifest] at reply
    cases reply
    exact ⟨t.file, by rw [signed]; exact List.mem_singleton_self _⟩
  have given : ∀ id, (transparentReceiver t.hexId).transferId = some id → id ≠ "" →
      (fromHex id).isSome = true := by
    intro id asked _
    cases asked
    rw [Transfer.hexId, fromHex_hex]
    rfl
  refine ⟨t.hexId, wire, t.manifestBytes, t.manifestBytes, fetches, verifies, ?_⟩
  refine (receive_ends_cleanly (transparent_agreement _) (.single ⟨_, _, step⟩) (newDisk_earlier _) given
    (fun _ => "") wire only).1.mpr ?_
  rintro ⟨none_given, _⟩
  simp [transparentReceiver, t.hexId_ne] at none_given

/-! ## Runs that select -/

/-- No id is given. -/
def selecting : Args where
  receiverPrivate := ⟨List.replicate 32 9, nines_length⟩
  senderVerify := []
  transferId := none
  allowRedeliver := false
  now := 0

theorem selecting_given (id : String) (asked : selecting.transferId = some id) (_ : id ≠ "") :
    (fromHex id).isSome = true := nomatch asked

theorem manifestIds_single {id : String} (plain : ∀ c ∈ id.toList, c ≠ '/') :
    manifestIds [manifestKey id] = [id] := by
  have key : (manifestKey id).toList = id.toList ++ "/manifest".toList := String.toList_append
  have named : "/manifest".toList.isSuffixOf (manifestKey id).toList = true := by
    rw [key, List.isSuffixOf_iff_suffix]
    exact List.suffix_append _ _
  have cut : (manifestKey id).toList.takeWhile (· ≠ '/') = id.toList := by
    rw [key, List.takeWhile_append_of_pos fun c member => decide_eq_true (plain c member)]
    simp
  have kept : [manifestKey id].filter (fun k => "/manifest".toList.isSuffixOf k.toList) = [manifestKey id] := by
    rw [List.filter_cons, if_pos named, List.filter_nil]
  simp only [manifestIds, kept, List.map_cons, List.map_nil, cut, String.ofList_toList]
  exact List.mergeSort_singleton id

/-- The broker lists `zz/manifest` and nothing else. -/
theorem receive_listed_nonHex :
    ¬ ∀ (P : Primitives) (args : Args) (h : History) (disk : Disk) (text : ClientError → String)
        (wire : HostileWire), P.Agreement →
      Relation.ReflTransGen (fun a b => ∃ path args, SendStep P a path args b) History.start h →
      EarlierRuns P disk → (∀ id, args.transferId = some id → id ≠ "" → (fromHex id).isSome = true) →
      FetchesSigned P (overWire text) args { toDisk := disk, broker := wire } h →
      EndsCleanly (receive P (overWire text) args { toDisk := disk, broker := wire }).1 := by
  intro claim
  let start : HostileWire := .start [replying (encodeText (manifestKey "zz").toList)]
  obtain ⟨wire, listed, silent⟩ : ∃ wire, (overWire fun _ => "").list "" start = (.ok [manifestKey "zz"], wire) ∧
      wire.fates = [] := list_replying (fun _ => "") rfl rfl (by decide) (by decide)
  -- nothing is fetched behind the list
  have only : FetchesSigned (transparent fun _ _ => true) (overWire fun _ => "") selecting
      { toDisk := newDisk, broker := start } History.start := by
    rintro id w₁ manifestBytes signature resolved ⟨b₁, _, fetched, _⟩
    rw [resolveTransferId_selected rfl listed (manifestIds_single (by simp))] at resolved
    cases resolved
    obtain ⟨_, _, failed⟩ := get_silent (fun _ => "") silent (manifestKey "zz")
    rw [failed] at fetched
    cases fetched
  have ends := claim (transparent fun _ _ => true) selecting History.start newDisk (fun _ => "") start
    (transparent_agreement _) .refl (newDisk_earlier _) selecting_given only
  have selects : SelectsNonHex (overWire fun _ => "") selecting start :=
    ⟨rfl, _, wire, "zz", listed, manifestIds_single (by simp), by decide⟩
  obtain ⟨w', run⟩ := receive_nonHex (P := transparent fun _ _ => true)
    { toDisk := newDisk, broker := start } selects
  rw [run] at ends
  rcases ends with ok | ⟨_, raised, handled⟩
  · cases ok
  · cases raised
    cases handled

end SecureTransfer.ApproachB
