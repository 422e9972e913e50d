import SecureTransfer.ApproachB.Ledger
import SecureTransfer.ApproachB.Progress
import SecureTransfer.ApproachB.Transfer

/-! # Receiving a transfer that was sent

How the receiver reads a manifest of `send`: its chunk records, its chunk key and its
plan are those of the transfer. What a broker that never changes a blob can do to a
run, and what a run makes of one that serves every blob.
-/

namespace SecureTransfer.ApproachB

open Library

/-! ## Chunk records -/

section Records

variable (record : Nat → Json)

/-- Records by their index. -/
def recordsOf (indices : List Nat) : List (Key × Json) :=
  indices.map fun i : Nat => (.number (i : Int), record i)

theorem number_beq {i j : Nat} : (Key.number (i : Int) == Key.number (j : Int)) = true ↔ i = j := by
  rw [beq_iff_eq]
  exact number_injective.eq_iff

theorem any_recordsOf {indices : List Nat} {i : Nat} :
    ((recordsOf record indices).any (·.1 == .number (i : Int))) = true ↔ i ∈ indices := by
  simp only [recordsOf, List.any_map, List.any_eq_true, Function.comp_apply, number_beq]
  constructor
  · rintro ⟨j, inside, rfl⟩
    exact inside
  · intro inside
    exact ⟨i, inside, rfl⟩

theorem indexRecords_map {indices : List Nat} (distinct : indices.Nodup)
    (index : ∀ i, (record i).item "index" = .ok (.int i)) :
    indexRecords (indices.map record) = .ok (recordsOf record indices) := by
  induction indices with
  | nil => rfl
  | cons i rest ih =>
      obtain ⟨first, distinct⟩ := List.nodup_cons.mp distinct
      have absent : ¬ ((recordsOf record rest).any (·.1 == .number (i : Int))) = true := fun present =>
        first ((any_recordsOf record).mp present)
      simp only [List.map_cons, indexRecords, index, bind, Except.bind, Json.key_int, ih distinct,
        if_neg absent]
      rfl

theorem findRecord_recordsOf {indices : List Nat} {i : Nat} (inside : i ∈ indices) :
    findRecord (recordsOf record indices) i = some (record i) := by
  induction indices with
  | nil => cases inside
  | cons j rest ih =>
      by_cases here : j = i
      · subst here
        simp [findRecord, recordsOf]
      · have other : (Key.number (j : Int) == Key.number (i : Int)) = false := by
          rw [← Bool.not_eq_true, number_beq]
          exact here
        have later : i ∈ rest := by
          rcases List.mem_cons.mp inside with equal | later
          · exact absurd equal.symm here
          · exact later
        have skip : findRecord (recordsOf record (j :: rest)) i = findRecord (recordsOf record rest) i := by
          simp only [findRecord, recordsOf, List.map_cons, List.find?_cons, other]
        rw [skip, ih later]

theorem findRecord_some {indices : List Nat} {i : Nat} {found : Json}
    (h : findRecord (recordsOf record indices) i = some found) : i ∈ indices ∧ found = record i := by
  obtain ⟨entry, here, rfl⟩ := Option.map_eq_some_iff.mp h
  obtain ⟨j, inside, rfl⟩ := List.mem_map.mp (List.mem_of_find?_eq_some here)
  have matched : (Key.number (j : Int) == Key.number (i : Int)) = true := by
    have equal := List.find?_some here
    exact equal
  have same := number_beq.mp matched
  subst same
  exact ⟨inside, rfl⟩

theorem indexedBelow_range (total : Nat) : indexedBelow (recordsOf record (List.range total)) total = true := by
  rw [indexedBelow, Bool.and_eq_true, List.all_eq_true, List.all_eq_true]
  constructor
  · intro entry member
    obtain ⟨i, inside, rfl⟩ := List.mem_map.mp member
    exact List.any_eq_true.mpr ⟨i, inside, beq_self_eq_true _⟩
  · intro i inside
    exact (any_recordsOf record).mpr inside

end Records

/-! ## The manifest of a transfer -/

namespace Transfer

variable {P : Primitives} (t : Transfer P)

/-- How the receiver reads the record of a chunk. -/
def loadedRecord (index : Nat) : Json := Json.sortKeys (t.record index)

/-- What the receiver plans from the manifest of `t`. -/
def plan : Plan where
  transferIdHex := t.hexId
  transferId := t.saved.id.1
  totalChunks := t.total
  records := recordsOf t.loadedRecord (List.range t.total)
  chunkKey := t.session.chunkKey

theorem chunkRecords_loaded :
    chunkRecords t.loaded = .ok (some (t.total, recordsOf t.loadedRecord (List.range t.total))) := by
  have total : t.loaded.item "total_chunks" = .ok (.int t.total) := t.loaded_item "total_chunks" rfl
  have chunks : t.loaded.item "chunks" = .ok (.arr ((List.range t.total).map t.loadedRecord)) := by
    have listed := t.loaded_item "chunks" rfl
    rw [Json.sortKeys_arr, List.map_map] at listed
    exact listed
  have records := indexRecords_map t.loadedRecord (List.nodup_range (n := t.total)) fun i =>
    t.record_item "index" i rfl
  have length : (recordsOf t.loadedRecord (List.range t.total)).length = t.total := by
    simp [recordsOf]
  simp only [chunkRecords, total, chunks, bind, Except.bind, Json.iterate, records, length,
    (Json.eqInt_int _ _).mpr rfl, if_true, rangeLength, Int.toNat_natCast, indexedBelow_range]
  rfl

theorem receiverChunkKey_loaded (laws : P.Agreement) {keys : KeysDir}
    (receiver : t.receiverPub = P.x25519Public keys.receiverPrivate) :
    receiverChunkKey P keys t.saved.id.1 t.loaded = .ok t.session.chunkKey := by
  obtain ⟨ephemeral, shared, pem, exchanged, session⟩ := openSession_json t.opened
  have published : t.loaded.item "ephemeral_x25519_pub" = .ok (.str (hex t.session.ephemeralPubRaw)) :=
    t.loaded_item "ephemeral_x25519_pub" rfl
  have agreed : P.exchange keys.receiverPrivate (P.x25519Public ephemeral) = some shared := by
    rw [← laws.agree, ← receiver, exchanged]
  simp only [receiverChunkKey, published, bind, Except.bind, fromHex_hex, publicFromBytes_raw, agreed,
    session, receiver]
  rfl

end Transfer

/-! ## Brokers -/

section Brokers

variable {P : Primitives} {β : Type} (t : Transfer P) (signature : Bytes) (broker : Broker β) (up : β → Prop)

/-- What the broker returns of `t` it returns unaltered. It may drop any request and hold
    back any blob. -/
structure Unaltered : Prop where
  manifest : ∀ b data b', broker.get (manifestKey t.hexId) b = (.ok (some data), b') → data = t.manifestBytes
  chunks : ∀ i < t.total, ∀ b data b',
    broker.get (chunkKey t.hexId i) b = (.ok (some data), b') → data = t.ciphertext i

/-- From a state in `up` on, it answers every request for the manifest and its signature. -/
structure Offers : Prop where
  manifest : ∀ b, up b → ∃ b', up b' ∧
    broker.get (manifestKey t.hexId) b = (.ok (some t.manifestBytes), b')
  signature : ∀ b, up b → ∃ b', up b' ∧
    broker.get (signatureKey t.hexId) b = (.ok (some signature), b')

/-- From a state in `up` on, it answers every request for a blob of `t`. -/
structure Serves : Prop extends Offers t signature broker up where
  chunks : ∀ i < t.total, ∀ b, up b → ∃ b', up b' ∧
    broker.get (chunkKey t.hexId i) b = (.ok (some (t.ciphertext i)), b')

end Brokers

section Runs

variable {P : Primitives} {β : Type} {t : Transfer P} {signature : Bytes} {broker : Broker β} {up : β → Prop}
  {args : Args}

/-- The run is for `t`, with the key it was encrypted for. -/
structure For (t : Transfer P) (args : Args) : Prop where
  asked : args.transferId = some t.hexId
  receiver : t.receiverPub = P.x25519Public args.receiverPrivate

/-- The manifest of `t` passes the checks of the run. -/
structure Accepted (t : Transfer P) (signature : Bytes) (args : Args) (ledger : Option Bytes) : Prop
    extends For t args where
  verifies : P.verify args.senderVerify signature t.manifestBytes = true
  timely : Timely args t.hexId t.loaded ledger

theorem Transfer.hexId_ne (t : Transfer P) : t.hexId ≠ "" := by
  intro empty
  have bytes := congrArg fromHex empty
  rw [Transfer.hexId, fromHex_hex] at bytes
  have none_left : t.saved.id.1 = [] := Option.some.inj bytes
  have size := t.saved.id.2
  rw [none_left] at size
  cases size

theorem resolveTransferId_given (asked : args.transferId = some t.hexId) (w : World β) :
    resolveTransferId broker args.transferId w = (.ok t.hexId, w) := by
  have given : args.transferId.filter (· ≠ "") = some t.hexId := by
    rw [asked]
    simp [t.hexId_ne]
  rw [resolveTransferId, given]
  rfl

theorem Transfer.loaded_createdAt (t : Transfer P) :
    (t.loaded.item "created_at" >>= Json.toInt) = .ok t.saved.createdAt := by
  rw [t.loaded_item "created_at" rfl]
  rfl

theorem Transfer.loaded_named (t : Transfer P) : t.loaded.get "transfer_id" = .ok (some (.str t.hexId)) := by
  have found : t.loaded.get "transfer_id" = .ok (some (Json.sortKeys (.str t.session.transferIdHex))) :=
    t.loaded_get "transfer_id" rfl
  rw [t.session_id.1] at found
  exact found

/-- Once the manifest of `t` has verified, its id and the replay defence decide. -/
theorem fetchVerifiedManifest_verified {transferIdHex : String} {w : World β} {b₁ b₂ : β}
    (manifest : broker.get (manifestKey transferIdHex) w.broker = (.ok (some t.manifestBytes), b₁))
    (signed : broker.get (signatureKey transferIdHex) b₁ = (.ok (some signature), b₂))
    (verifies : P.verify args.senderVerify signature t.manifestBytes = true) :
    fetchVerifiedManifest P broker args transferIdHex w =
      (verify (t.hexId = transferIdHex) .transferIdMismatch >>= fun _ =>
        replayDefence args transferIdHex (args.now - t.saved.createdAt) >>= fun _ => pure t.loaded)
          { w with broker := b₂ } := by
  have get₁ : onBroker (broker.get (manifestKey transferIdHex)) w =
      (.ok (some t.manifestBytes), { w with broker := b₁ }) := callBroker_ok manifest
  have get₂ : onBroker (broker.get (signatureKey transferIdHex)) { w with broker := b₁ } =
      (.ok (some signature), { w with broker := b₂ }) := callBroker_ok signed
  have version : t.loaded.get "version" = .ok (some (.str manifestVersion)) := t.loaded_get "version" rfl
  have total : t.loaded.item "total_chunks" = .ok (.int t.total) := t.loaded_item "total_chunks" rfl
  have size : t.loaded.item "file_size" = .ok (.int t.file.length) := t.loaded_item "file_size" rfl
  have same_id : (verify ((some (Json.str t.hexId)).any (Json.eqStr · transferIdHex) = true) .transferIdMismatch :
      Prog (World β) Raised Unit) = verify (t.hexId = transferIdHex) .transferIdMismatch :=
    Prog.require_congr (by simp) _
  rw [fetchVerifiedManifest, Prog.bind_ok get₁, Prog.bind_ok get₂]
  simp only
  rw [Prog.bind_ok (verify_true verifies _ _), Prog.bind_ok (python_run_ok t.loadBytes_manifest _),
    Prog.bind_ok (python_run_ok version _), Prog.bind_ok (verify_true (by simp) _ _),
    Prog.bind_ok (python_run_ok t.loaded_named _), same_id, t.loaded_createdAt, total, size]
  rfl

/-- A run that is asked for `t` goes straight to its manifest. -/
theorem prepare_asked (asked : args.transferId = some t.hexId) (w : World β) :
    prepare P broker args w =
      (fetchVerifiedManifest P broker args t.hexId >>= fun manifest =>
        planTransfer P args t.hexId t.saved.id.1 manifest >>= fun plan => pure (manifest, plan)) w := by
  have bytes : (fromHex t.hexId).elim (.error .valueError) .ok = (.ok t.saved.id.1 : Except PyError Bytes) := by
    rw [Transfer.hexId, fromHex_hex]
    rfl
  rw [prepare, Prog.bind_ok (resolveTransferId_given asked w), Prog.bind_ok (python_run_ok bytes _)]

/-- Past the manifest checks there is only the plan of `t`. -/
theorem prepare_unaltered (laws : P.Agreement) (unaltered : Unaltered t broker) (asked : For t args)
    {w w' : World β} {manifest : Json} {plan : Plan}
    (run : prepare P broker args w = (.ok (manifest, plan), w')) : manifest = t.loaded ∧ plan = t.plan := by
  obtain ⟨⟨w₁, manifestBytes, signature, resolved, ⟨b, _, reply, _⟩, _, made⟩, _⟩ := prepare_ok run
  rw [resolveTransferId_given asked.asked] at resolved
  cases plan with
  | mk transferIdHex transferId totalChunks records key =>
      have named : t.hexId = transferIdHex := Except.ok.inj (Prod.mk.inj resolved).1
      subst named
      have loads := made.authentic.loads
      rw [unaltered.manifest _ manifestBytes b reply, t.loadBytes_manifest] at loads
      cases loads
      have id := made.id
      have listed := made.records
      have derived := made.key
      have raw : fromHex t.hexId = some t.saved.id.1 := fromHex_hex _
      have bytes : transferId = t.saved.id.1 := Option.some.inj (id.symm.trans raw)
      subst bytes
      rw [t.chunkRecords_loaded] at listed
      rw [t.receiverChunkKey_loaded laws asked.receiver] at derived
      cases listed
      cases derived
      exact ⟨rfl, rfl⟩

theorem prepare_offered (laws : P.Agreement) (offers : Offers t signature broker up) {w : World β}
    (answers : up w.broker) (accepted : Accepted t signature args w.ledger) :
    ∃ b, up b ∧ prepare P broker args w = (.ok (t.loaded, t.plan), { w with broker := b }) := by
  obtain ⟨b₁, up₁, manifest⟩ := offers.manifest w.broker answers
  obtain ⟨b₂, up₂, signed⟩ := offers.signature b₁ up₁
  obtain ⟨⟨createdAt, created, fresh, past⟩, seen, loads, unseen⟩ := accepted.timely
  rw [t.loaded_createdAt] at created
  cases created
  refine ⟨b₂, up₂, ?_⟩
  have defence : replayDefence args t.hexId (args.now - t.saved.createdAt) ({ w with broker := b₂ } : World β) =
      (.ok (), { w with broker := b₂ }) := by
    unfold replayDefence
    split
    · rfl
    · rw [Prog.bind_ok (verify_true fresh _ _), Prog.bind_ok (verify_true past _ _),
        Prog.bind_ok (Prog.get_run _), Prog.bind_ok (python_run_ok loads _)]
      exact verify_true unseen _ _
  have fetched : fetchVerifiedManifest P broker args t.hexId w =
      (.ok t.loaded, { w with broker := b₂ }) := by
    rw [fetchVerifiedManifest_verified manifest signed accepted.verifies, Prog.bind_ok (verify_true rfl _ _),
      Prog.bind_ok defence]
    rfl
  rw [prepare_asked accepted.asked, Prog.bind_ok fetched]
  have planned : planTransfer P args t.hexId t.saved.id.1 t.loaded ({ w with broker := b₂ } : World β) =
      (.ok t.plan, { w with broker := b₂ }) := by
    rw [planTransfer, Prog.bind_ok (python_run_ok t.chunkRecords_loaded _)]
    simp only
    rw [Prog.bind_ok (python_run_ok (t.receiverChunkKey_loaded laws accepted.receiver) _)]
    rfl
  rw [Prog.bind_ok planned]
  rfl

/-! ## Chunks of the transfer -/

/-- A chunk that is accepted is the chunk of the source. -/
theorem fetchChunk_unaltered (opens : P.Opens) (unaltered : Unaltered t broker) {i : Nat} (inside : i < t.total)
    {w w' : World β} {plain : Bytes} (run : fetchChunk P broker t.plan i w = (.ok plain, w')) :
    plain = t.plain i := by
  obtain ⟨ct, checked, b, reply⟩ := fetchChunk_ok run
  obtain ⟨nonce, aad, counter, bound, opened⟩ := checked.opens
  obtain ⟨_, rfl⟩ := chunkNonce_ok counter
  obtain ⟨_, _, rfl⟩ := chunkAad_ok bound
  have same : ct = t.ciphertext i := unaltered.chunks i inside w.broker ct b reply
  subst same
  have original : P.decrypt t.session.chunkKey (Transfer.nonce i) (t.ciphertext i) (t.aad i) =
      some (t.plain i) := opens _ _ _ _
  exact Option.some.inj (opened.symm.trans original)

theorem Transfer.Whole.chunk_fits (whole : t.Whole) {i : Nat} (inside : i < t.total) :
    i * chunkSize + (t.plain i).length ≤ t.file.length := by
  have start := (whole.lt_total).mp inside
  rw [Transfer.plain, chunk_length]
  omega

theorem sound_unaltered (opens : P.Opens) (unaltered : Unaltered t broker) (whole : t.Whole) :
    Sound (fun i plain => i < t.total ∧ plain = t.plain i) (·.length ≤ t.file.length) P broker t.plan where
  fetched i w w' plain inside run := ⟨inside, fetchChunk_unaltered opens unaltered inside run⟩
  small i plain good := by
    rw [good.2]
    exact t.plain_length i
  write i plain content good short := by
    rw [good.2]
    exact writeAt_length_le 0 short (whole.chunk_fits good.1)

/-- A blob that passes every check is fetched. -/
theorem fetchChunk_checked {plan : Plan} {i : Nat} {ct plain : Bytes} (checked : ChunkChecked P plan i ct plain)
    {w : World β} {b : β} (reply : broker.get (chunkKey plan.transferIdHex i) w.broker = (.ok (some ct), b)) :
    fetchChunk P broker plan i w = (.ok plain, { w with broker := b }) := by
  obtain ⟨record, found, digest, length, size, sized⟩ := checked.record
  obtain ⟨nonce, aad, counter, bound, opened⟩ := checked.opens
  have get : onBroker (broker.get (chunkKey plan.transferIdHex i)) w =
      (.ok (some ct), { w with broker := b }) := callBroker_ok reply
  unfold fetchChunk
  rw [found]
  simp only
  rw [Prog.bind_ok get]
  simp only
  rw [Prog.bind_ok (python_run_ok digest _), Prog.bind_ok (verify_true (by simp) _ _),
    Prog.bind_ok (python_run_ok counter _), Prog.bind_ok (python_run_ok bound _), opened]
  simp only
  rw [Prog.bind_ok (python_run_ok size _), Prog.bind_ok (verify_true sized _ _)]
  rfl

/-- The blobs of the transfer pass the checks. -/
theorem Transfer.Whole.checked (opens : P.Opens) (whole : t.Whole) {i : Nat} (inside : i < t.total) :
    ChunkChecked P t.plan i (t.ciphertext i) (t.plain i) where
  record := ⟨t.loadedRecord i, findRecord_recordsOf _ (List.mem_range.mpr inside),
    t.record_item "ciphertext_sha256" i rfl, .int (t.plain i).length, t.record_item "plaintext_len" i rfl,
    (Json.eqInt_int _ _).mpr rfl⟩
  opens := ⟨Transfer.nonce i, t.aad i, chunkNonce_eq (lt_trans inside whole.numbered),
    chunkAad_eq (lt_trans inside whole.numbered) whole.numbered, opens _ _ _ _⟩

theorem fetchChunk_served (opens : P.Opens) (whole : t.Whole) {i : Nat} (inside : i < t.total) {w : World β}
    {b : β} (reply : broker.get (chunkKey t.hexId i) w.broker = (.ok (some (t.ciphertext i)), b)) :
    fetchChunk P broker t.plan i w = (.ok (t.plain i), { w with broker := b }) :=
  fetchChunk_checked (whole.checked opens inside) reply

/-- Every chunk that is not listed is fetched and written to its place. -/
theorem chunkLoop_fetched {plan : Plan} {file : Bytes} (indices : List Nat) {todo : List Nat}
    (distinct : todo.Nodup)
    (fetched : ∀ i ∈ todo, i ∉ indices → ∀ w : World β, up w.broker → ∃ b, up b ∧
      fetchChunk P broker plan i w = (.ok (chunk chunkSize i file), { w with broker := b }))
    {content : Bytes} {w : World β} (part : w.part = some content) (answers : up w.broker) :
    ∃ indices' progress b, up b ∧ chunkLoop P broker plan todo (indexList indices) w =
      (.ok (indexList indices'), { w with
        part := some (assemble 0 chunkSize file (todo.filter (· ∉ indices)) content)
        progress := progress
        broker := b }) ∧
      (∀ i, i ∈ indices' ↔ i ∈ todo ∨ i ∈ indices) ∧
      ((∀ i ∈ todo, i ∈ indices) → progress = w.progress) ∧
      ((∃ i ∈ todo, i ∉ indices) → Names progress plan.transferIdHex indices') := by
  induction todo generalizing indices content w with
  | nil =>
      refine ⟨indices, w.progress, w.broker, answers, ?_, by simp, fun _ => rfl, nofun⟩
      cases w with
      | mk disk b =>
          cases disk
          cases part
          rfl
  | cons index rest ih =>
      obtain ⟨first, distinct⟩ := List.nodup_cons.mp distinct
      by_cases known : index ∈ indices
      · have fetched' := fun i member => fetched i (List.mem_cons_of_mem index member)
        obtain ⟨indices', progress, b, up', run, members, kept, names⟩ :=
          ih indices distinct fetched' part answers
        refine ⟨indices', progress, b, up', ?_, fun i => ?_, fun all => ?_, fun some_new => ?_⟩
        · rw [chunkLoop, if_pos (contains_indexList.mpr known), run,
            List.filter_cons_of_neg (by simpa using known)]
        · rw [members i, List.mem_cons]
          grind
        · exact kept fun i member => all i (List.mem_cons_of_mem index member)
        · obtain ⟨i, member, new⟩ := some_new
          have after : i ∈ rest := (List.mem_cons.mp member).resolve_left fun here => new (here ▸ known)
          exact names ⟨i, after, new⟩
      · obtain ⟨b₁, up₁, fetch⟩ := fetched index (List.mem_cons_self ..) known w answers
        obtain ⟨indices₁, progress₁, stored, names₁, same⟩ :=
          storeChunk_run plan index (chunk chunkSize index file) indices { w with broker := b₁ }
        rw [part, Option.map_some] at stored
        have fetched' : ∀ i ∈ rest, i ∉ indices₁ → ∀ w : World β, up w.broker → ∃ b, up b ∧
            fetchChunk P broker plan i w = (.ok (chunk chunkSize i file), { w with broker := b }) :=
          fun i member new => fetched i (List.mem_cons_of_mem index member) fun old =>
            new ((same i).mpr (.inr old))
        obtain ⟨indices', progress, b, up', run, members, kept, names⟩ := ih indices₁
          (w := { w with
            part := some (writeAt 0 (index * chunkSize) (chunk chunkSize index file) content)
            progress := progress₁
            broker := b₁ }) distinct fetched' rfl up₁
        have others : rest.filter (· ∉ indices₁) = rest.filter (· ∉ indices) := by
          refine List.filter_congr fun i member => ?_
          have apart : i ≠ index := fun equal => first (equal ▸ member)
          simp only [same i, apart, false_or]
        refine ⟨indices', progress, b, up', ?_, fun i => ?_, fun all => ?_, fun _ => ?_⟩
        · rw [chunkLoop, if_neg (mt contains_indexList.mp known), Prog.bind_ok fetch, Prog.bind_ok stored, run,
            others, List.filter_cons_of_pos (by simpa using known), assemble_cons]
        · rw [members i, same i, List.mem_cons]
          grind
        · exact absurd (all index (List.mem_cons_self ..)) known
        · by_cases all : ∀ i ∈ rest, i ∈ indices₁
          · obtain ⟨listed, written, whole_list⟩ := names₁
            refine ⟨listed, (kept all).trans written, fun i => ?_⟩
            rw [whole_list i, members i]
            exact ⟨.inr, fun either => either.elim (all i) id⟩
          · push Not at all
            exact names all

/-- The loop fills in every chunk that is not listed. -/
theorem chunkLoop_served (opens : P.Opens) (whole : t.Whole) (indices : List Nat) {todo : List Nat}
    (distinct : todo.Nodup) (inside : ∀ i ∈ todo, i < t.total)
    (served : ∀ i ∈ todo, ∀ b, up b → ∃ b', up b' ∧
      broker.get (chunkKey t.hexId i) b = (.ok (some (t.ciphertext i)), b')) {content : Bytes} {w : World β}
    (part : w.part = some content) (answers : up w.broker) :
    ∃ indices' progress b, up b ∧ chunkLoop P broker t.plan todo (indexList indices) w =
      (.ok (indexList indices'), { w with
        part := some (assemble 0 chunkSize t.file (todo.filter (· ∉ indices)) content)
        progress := progress
        broker := b }) ∧
      (∀ i, i ∈ indices' ↔ i ∈ todo ∨ i ∈ indices) ∧
      ((∀ i ∈ todo, i ∈ indices) → progress = w.progress) ∧
      ((∃ i ∈ todo, i ∉ indices) → Names progress t.hexId indices') := by
  refine chunkLoop_fetched indices distinct (fun i member _ w' ok => ?_) part answers
  obtain ⟨b, up', reply⟩ := served i member w'.broker ok
  exact ⟨b, up', fetchChunk_served opens whole (inside i member) reply⟩

/-! ## A run that is served -/

/-- The chunks a run counts as done and the bytes it goes on with, when its progress file
    lists `indices`. -/
def checkpoint (part : Option Bytes) (indices : List Nat) : List Nat × Bytes :=
  match part with
  | some content => if indices = [] then ([], []) else (indices, content)
  | none => ([], [])

theorem checkpoint_nil (part : Option Bytes) : checkpoint part [] = ([], []) := by
  cases part <;> rfl

theorem checkpoint_some {indices : List Nat} (some_listed : indices ≠ []) (content : Bytes) :
    checkpoint (some content) indices = (indices, content) := if_neg some_listed

theorem resume_checkpoint {transferIdHex : String} {indices : List Nat} {w : World β}
    (loads : loadProgress w.progress transferIdHex = .ok (indexList indices)) :
    resume transferIdHex w = (.ok (indexList (checkpoint w.part indices).1),
      { w with part := some (checkpoint w.part indices).2 }) := by
  rw [resume_run, loads]
  have empty : indexList indices = [] ↔ indices = [] := List.map_eq_nil_iff
  cases w with
  | mk disk b =>
      cases disk with
      | mk out part progress ledger =>
          cases part with
          | none => simp [checkpoint, indexList]
          | some content =>
              by_cases none_done : indices = []
              · simp [checkpoint, indexList, none_done]
              · simp [checkpoint, empty, none_done]

/-- The partial file once every chunk that is not listed was written. -/
def Transfer.filled (t : Transfer P) (indices : List Nat) (content : Bytes) : Bytes :=
  assemble 0 chunkSize t.file ((List.range t.total).filter (· ∉ indices)) content

theorem verifyWhole_matches {manifest : Json} {content : Bytes} (fits : Matches P manifest content) {w : World β}
    (part : w.part = some content) : verifyWhole P manifest w = (.ok (), w) := by
  obtain ⟨⟨size, item, sized⟩, digest⟩ := fits
  rw [verifyWhole, Prog.bind_ok (Prog.get_run w), part]
  simp only
  rw [Prog.bind_ok (python_run_ok item w), Prog.bind_ok (verify_true sized _ w),
    Prog.bind_ok (python_run_ok digest w)]
  exact verify_true (by simp) _ w

theorem verifyWhole_loaded (t : Transfer P) {content : Bytes} {w : World β} (part : w.part = some content) :
    ∃ r, verifyWhole P t.loaded w = (r, w) ∧
      (r = .ok () ↔ content.length = t.file.length ∧ P.hexDigest content = P.hexDigest t.plaintext) := by
  have size : t.loaded.item "file_size" = .ok (.int t.file.length) := t.loaded_item "file_size" rfl
  have digest : t.loaded.item "plaintext_sha256" = .ok (.str (P.hexDigest t.plaintext)) :=
    t.loaded_item "plaintext_sha256" rfl
  rw [verifyWhole, Prog.bind_ok (Prog.get_run w), part]
  simp only
  rw [Prog.bind_ok (python_run_ok size w)]
  by_cases sized : content.length = t.file.length
  · have same : Json.eqInt (.int t.file.length) content.length = true := by simp [sized]
    rw [Prog.bind_ok (verify_true same _ w), Prog.bind_ok (python_run_ok digest w)]
    refine ⟨_, rfl, ?_⟩
    by_cases equal : P.hexDigest content = P.hexDigest t.plaintext
    · simp [sized, equal]
    · simp [sized, equal, Ne.symm equal]
  · have differ : ¬ Json.eqInt (.int t.file.length) content.length = true := by
      rw [Json.eqInt_int, Nat.cast_inj]
      exact Ne.symm sized
    have failed : verify (Json.eqInt (.int t.file.length) content.length = true) .sizeMismatch w =
        (.error (.verificationError .sizeMismatch), w) := by
      rw [verify, Prog.require_run, if_neg differ]
    rw [Prog.bind_error failed]
    exact ⟨_, rfl, by simp [sized]⟩

theorem complete_run (transferIdHex : String) (manifest : Json) {ids : List String} {w : World β}
    (recorded : Recorded w.ledger ids) :
    ∃ r ledger, complete transferIdHex manifest w =
        (r, { w with out := w.part, part := none, progress := none, ledger := ledger }) ∧
      Recorded ledger (transferIdHex :: ids) ∧ ∀ name, manifest.item "filename" = .ok name → r = .ok 0 := by
  obtain ⟨ledger, records, next⟩ := recordCompleted_run transferIdHex
    (w := { w with out := w.part, part := none, progress := none }) recorded
  let last := (manifest.item "filename").mapError Raised.python
  refine ⟨last.map fun _ => 0, ledger, ?_, next, fun name named => ?_⟩
  · rw [complete, atomicPromote, Prog.bind_ok (Prog.update_run _ _), Prog.bind_ok (Prog.update_run _ _),
      Prog.bind_ok records]
    cases named : manifest.item "filename" with
    | error e =>
        simp only [last, named]
        rfl
    | ok name =>
        simp only [last, named]
        rfl
  · simp only [last, named]
    rfl

theorem complete_recorded (t : Transfer P) {ids : List String} {w : World β} (recorded : Recorded w.ledger ids) :
    ∃ ledger, complete t.hexId t.loaded w =
        (.ok 0, { w with out := w.part, part := none, progress := none, ledger := ledger }) ∧
      Recorded ledger (t.hexId :: ids) := by
  obtain ⟨r, ledger, completed, next, returns⟩ := complete_run t.hexId t.loaded recorded
  have named : t.loaded.item "filename" = .ok (.str t.basename) := t.loaded_item "filename" rfl
  rw [returns _ named] at completed
  exact ⟨ledger, completed, next⟩

/-- A served download assembles the source, or is rejected because it did not. -/
theorem download_served (laws : P.Agreement) (opens : P.Opens) (serves : Serves t signature broker up)
    (whole : t.Whole) {w : World β} (answers : up w.broker) (accepted : Accepted t signature args w.ledger)
    {indices : List Nat} (loads : loadProgress w.progress t.hexId = .ok (indexList indices)) :
    ∃ r indices' progress b, up b ∧
      download P broker args w = (r, { w with
        part := some (t.filled (checkpoint w.part indices).1 (checkpoint w.part indices).2)
        progress := progress
        broker := b }) ∧
      Names progress t.hexId indices' ∧
      (∀ i, i ∈ indices' ↔ i < t.total ∨ i ∈ (checkpoint w.part indices).1) ∧
      (r = .ok (t.loaded, t.plan) ∨ (∃ e, r = .error e) ∧
        t.filled (checkpoint w.part indices).1 (checkpoint w.part indices).2 ≠ t.file) := by
  obtain ⟨b₁, up₁, prepared⟩ := prepare_offered laws serves.toOffers answers accepted
  have resumed := resume_checkpoint (w := { w with broker := b₁ }) loads
  generalize (checkpoint w.part indices).1 = listed at resumed ⊢
  generalize (checkpoint w.part indices).2 = content at resumed ⊢
  have inside : ∀ i ∈ List.range t.total, i < t.total := fun i => List.mem_range.mp
  let w₁ : World β := { w with part := some content, broker := b₁ }
  obtain ⟨indices', progress, b₂, up₂, loop, members, _, _⟩ := chunkLoop_served opens whole listed
    List.nodup_range inside (fun i member => serves.chunks i (List.mem_range.mp member))
    (show w₁.part = some content from rfl) up₁
  obtain ⟨progress', saved, names⟩ := saveProgress_run t.hexId indices'
    { w with part := some (t.filled listed content), progress := progress, broker := b₂ }
  obtain ⟨checked, checks, passed⟩ := verifyWhole_loaded t
    (w := { w with part := some (t.filled listed content), progress := progress', broker := b₂ }) rfl
  have downloaded : download P broker args w =
      (checked.map fun _ => (t.loaded, t.plan),
        { w with part := some (t.filled listed content), progress := progress', broker := b₂ }) := by
    apply (Prog.bind_ok prepared _).trans
    apply (Prog.bind_ok resumed _).trans
    apply (Prog.bind_ok loop _).trans
    apply (Prog.bind_ok saved _).trans
    cases checked with
    | error e => exact Prog.bind_error checks _
    | ok _ => exact Prog.bind_ok checks _
  refine ⟨_, indices', progress', b₂, up₂, downloaded, names, fun i => ?_, ?_⟩
  · rw [members i, List.mem_range]
  · cases checked with
    | error e =>
        refine .inr ⟨⟨e, rfl⟩, fun equal => ?_⟩
        have failed := passed.mpr ⟨by rw [equal], by rw [equal, whole.plaintext_eq]⟩
        cases failed
    | ok _ => exact .inl rfl

/-- A served run promotes what it assembled, or is rejected because that is not the source. -/
theorem receive_served (laws : P.Agreement) (opens : P.Opens) (serves : Serves t signature broker up)
    (whole : t.Whole) {w : World β} (answers : up w.broker)
    (accepted : Accepted t signature args w.ledger) {ids : List String} (recorded : Recorded w.ledger ids)
    {indices : List Nat} (loads : loadProgress w.progress t.hexId = .ok (indexList indices)) :
    ∃ r w', receive P broker args w = (r, w') ∧ up w'.broker ∧
      (r = .ok 0 ∧ w'.out = some (t.filled (checkpoint w.part indices).1 (checkpoint w.part indices).2) ∨
        (∃ e, r = .error e) ∧ t.filled (checkpoint w.part indices).1 (checkpoint w.part indices).2 ≠ t.file ∧
          w'.part = some (t.filled (checkpoint w.part indices).1 (checkpoint w.part indices).2) ∧
          w'.ledger = w.ledger ∧
          ∃ indices', Names w'.progress t.hexId indices' ∧
            ∀ i, i ∈ indices' ↔ i < t.total ∨ i ∈ (checkpoint w.part indices).1) := by
  obtain ⟨r, indices', progress, b, up', downloaded, names, members, rfl | ⟨⟨e, rfl⟩, wrong⟩⟩ :=
    download_served laws opens serves whole answers accepted loads
  · obtain ⟨ledger, completed, _⟩ := complete_recorded t
      (w := { w with
        part := some (t.filled (checkpoint w.part indices).1 (checkpoint w.part indices).2)
        progress := progress
        broker := b }) recorded
    exact ⟨_, _, (Prog.bind_ok downloaded _).trans completed, up', .inl ⟨rfl, rfl⟩⟩
  · exact ⟨_, _, Prog.bind_error downloaded _, up', .inr ⟨⟨e, rfl⟩, wrong, rfl, rfl, indices', names, members⟩⟩

end Runs

end SecureTransfer.ApproachB
