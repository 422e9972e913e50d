import SecureTransfer.ApproachB.Delivery
import SecureTransfer.ApproachB.Transparent
import SecureTransfer.ApproachB.Uploads

/-! # A store as a receiver uses it

The repository's broker over one store. A receiver lists and gets, which changes no blob.
-/

namespace SecureTransfer.ApproachB

open Library

/-- `storeBroker` over a store that stays: only the script goes on. A receiver never puts. -/
def shelf (store : Storage) : Broker (List Outcome) where
  list start := Prog.zoom (fun script => (store, script)) (fun b _ => b.2) (storeBroker.list start)
  get key := Prog.zoom (fun script => (store, script)) (fun b _ => b.2) (storeBroker.get key)
  put key data := Prog.zoom (fun script => (store, script)) (fun b _ => b.2) (storeBroker.put key data)

/-- The outcomes of the connections decide only whether an answer arrives. -/
theorem shelf_get {store : Storage} {key : String} {reply : Option Bytes} {script script' : List Outcome}
    (run : (shelf store).get key script = (.ok reply, script')) : reply = store.get key := by
  cases next : nextOutcome script with
  | answered =>
      simp only [shelf, Prog.zoom, storeBroker, next] at run
      cases run
      rfl
  | dropped =>
      simp only [shelf, Prog.zoom, storeBroker, next] at run
      cases run
  | droppedAfter =>
      simp only [shelf, Prog.zoom, storeBroker, next] at run
      cases run

theorem shelf_get_served (store : Storage) (key : String) :
    (shelf store).get key [] = (.ok (store.get key), []) := rfl

variable {P : Primitives} {t : Transfer P} {signature : Bytes} {store : Storage}

namespace Complete

theorem get_manifest (complete : Complete t signature store) :
    store.get (manifestKey t.hexId) = some t.manifestBytes :=
  (Storage.get_eq Transfer.safePath_manifest).trans complete.manifest

theorem get_signature (complete : Complete t signature store) :
    store.get (signatureKey t.hexId) = some signature :=
  (Storage.get_eq Transfer.safePath_signature).trans complete.signature

theorem get_chunk (complete : Complete t signature store) (numbered : t.total < 2 ^ 64) {i : Nat}
    (inside : i < t.total) : store.get (chunkKey t.hexId i) = some (t.ciphertext i) :=
  (Storage.get_eq (Transfer.safePath_chunk (inside.trans numbered))).trans (complete.chunks i inside)

theorem unaltered (complete : Complete t signature store) (numbered : t.total < 2 ^ 64) :
    Unaltered t (shelf store) where
  manifest script data script' reply := by
    have stored := shelf_get reply
    rw [complete.get_manifest] at stored
    exact Option.some.inj stored
  chunks i inside script data script' reply := by
    have stored := shelf_get reply
    rw [complete.get_chunk numbered inside] at stored
    exact Option.some.inj stored

/-- With every connection up it serves the transfer. -/
theorem serves (complete : Complete t signature store) (numbered : t.total < 2 ^ 64) :
    Serves t signature (shelf store) (· = []) where
  manifest script up := by
    rw [up, shelf_get_served, complete.get_manifest]
    exact ⟨[], rfl, rfl⟩
  signature script up := by
    rw [up, shelf_get_served, complete.get_signature]
    exact ⟨[], rfl, rfl⟩
  chunks i inside script up := by
    rw [up, shelf_get_served, complete.get_chunk numbered inside]
    exact ⟨[], rfl, rfl⟩

end Complete

/-- A served run on an empty store leaves the transfer whole. -/
theorem exists_complete (t : Transfer P) (numbered : t.total < 2 ^ 64) (signingKey : Bytes) :
    ∃ store, Complete t (P.sign signingKey t.manifestBytes) store := by
  let args : SendArgs := {
    file := some t.file
    basename := t.basename
    signingKey := signingKey
    receiverPub := t.receiverPub
    now := t.saved.createdAt
    freshId := t.saved.id
    freshKey := t.saved.ephemeral }
  let w : StoreWorld := ⟨(Storage.empty, []), none, [], []⟩
  have fresh : t.saved = chosen none args t.file.length := by
    rw [chosen, SendArgs.fresh, ← t.sized]
  have nothing : ∀ path, Storage.empty.find path = none := fun _ => AList.lookup_empty _
  obtain ⟨w', run⟩ : ∃ w', sendFile P storeBroker args t.file w = (.ok 0, w') :=
    sendFile_served t numbered none rfl fresh rfl rfl
  refine ⟨w'.broker.1, (sendFile_store t rfl fresh rfl rfl ?_ ?_ run).2 rfl⟩
  · intro i _ data present
    rw [nothing] at present
    cases present
  · intro name data present
    rw [nothing] at present
    cases present

/-! ## A blob that is held back -/

section Withheld

variable {β : Type} {broker : Broker β} {up : β → Prop} {args : Args}

/-- The broker without one of its blobs. -/
def withhold (hidden : String) (broker : Broker β) : Broker β :=
  { broker with get := fun key => if key = hidden then pure none else broker.get key }

theorem withhold_get {hidden key : String} (other : key ≠ hidden) :
    (withhold hidden broker).get key = broker.get key := if_neg other

theorem withhold_hidden (hidden : String) (b : β) : (withhold hidden broker).get hidden b = (.ok none, b) := by
  simp only [withhold, if_true, Prog.pure_run]

theorem Unaltered.withhold (unaltered : Unaltered t broker) (hidden : String) :
    Unaltered t (withhold hidden broker) where
  manifest b data b' reply := by
    by_cases here : manifestKey t.hexId = hidden
    · rw [here, withhold_hidden] at reply
      cases reply
    · rw [withhold_get here] at reply
      exact unaltered.manifest b data b' reply
  chunks i inside b data b' reply := by
    by_cases here : chunkKey t.hexId i = hidden
    · rw [here, withhold_hidden] at reply
      cases reply
    · rw [withhold_get here] at reply
      exact unaltered.chunks i inside b data b' reply

/-- A key that names another path is not the key of the chunk. -/
theorem key_ne_chunkKey {k : Nat} (numbered : k < 2 ^ 64) {key : String} {path : BlobPath}
    (safe : safePath key = some path) (other : path ≠ t.chunkPath k) : key ≠ chunkKey t.hexId k := by
  rintro rfl
  rw [Transfer.safePath_chunk numbered] at safe
  exact other (Option.some.inj safe).symm

/-- Without one of its chunks it still offers the manifest. -/
theorem Offers.withhold (offers : Offers t signature broker up) (whole : t.Whole) {k : Nat}
    (inside : k < t.total) :
    Offers t signature (withhold (chunkKey t.hexId k) broker) up where
  manifest b ok := by
    have apart : manifestKey t.hexId ≠ chunkKey t.hexId k :=
      key_ne_chunkKey (inside.trans whole.numbered) Transfer.safePath_manifest (Transfer.chunkPath_ne k).1.symm
    rw [withhold_get apart]
    exact offers.manifest b ok
  signature b ok := by
    have apart : signatureKey t.hexId ≠ chunkKey t.hexId k :=
      key_ne_chunkKey (inside.trans whole.numbered) Transfer.safePath_signature (Transfer.chunkPath_ne k).2.symm
    rw [withhold_get apart]
    exact offers.signature b ok

theorem chunkLoop_append (plan : Plan) (front rest : List Nat) (done : List Json) :
    chunkLoop P broker plan (front ++ rest) done =
      chunkLoop P broker plan front done >>= fun done => chunkLoop P broker plan rest done := by
  induction front generalizing done with
  | nil => rfl
  | cons index front ih =>
      simp only [List.cons_append, chunkLoop]
      split
      · exact ih done
      · funext w
        cases fetch : fetchChunk P broker plan index w with
        | mk r w₁ =>
            cases r with
            | error e => simp only [Prog.bind_run, fetch]
            | ok plain =>
                simp only [Prog.bind_run, fetch, ih]
                cases storeChunk plan index plain done w₁ with
                | mk r w₂ => cases r <;> rfl

/-- A run up to the chunk that is held back. -/
theorem receive_withheld (laws : P.Agreement) (opens : P.Opens) (whole : t.Whole)
    (serves : Serves t signature broker up) {k : Nat} (inside : k < t.total) {w : World β}
    (answers : up w.broker) (accepted : Accepted t signature args w.ledger)
    (nothing : loadProgress w.progress t.hexId = .ok (indexList [])) :
    ∃ w', receive P (withhold (chunkKey t.hexId k) broker) args w =
        (.error (.verificationError (.chunkMissing k)), w') ∧
      w'.part = some (assemble 0 chunkSize t.file (List.range k) []) ∧
      w'.ledger = w.ledger ∧ (k = 0 → w'.progress = w.progress) ∧
      (0 < k → Names w'.progress t.hexId (List.range k)) := by
  have offers := serves.toOffers.withhold whole inside
  obtain ⟨b₁, up₁, prepared⟩ := prepare_offered laws offers answers accepted
  have resumed := resume_checkpoint (w := { w with broker := b₁ }) nothing
  rw [checkpoint_nil] at resumed
  have served : ∀ i ∈ List.range k, ∀ b, up b → ∃ b', up b' ∧
      (withhold (chunkKey t.hexId k) broker).get (chunkKey t.hexId i) b =
        (.ok (some (t.ciphertext i)), b') := by
    intro i member b ok
    have below := List.mem_range.mp member
    have small : i < t.total := below.trans inside
    have other : chunkKey t.hexId i ≠ chunkKey t.hexId k := key_ne_chunkKey (inside.trans whole.numbered)
      (Transfer.safePath_chunk (small.trans whole.numbered)) fun same => below.ne (Transfer.chunkPath_inj same)
    rw [withhold_get other]
    exact serves.chunks i small b ok
  let w₁ : World β := { w with part := some [], broker := b₁ }
  obtain ⟨indices, progress, b₂, _, loop, members, kept, names⟩ := chunkLoop_served opens whole []
    List.nodup_range (fun i member => (List.mem_range.mp member).trans inside) served
    (show w₁.part = some [] from rfl) up₁
  have all : (List.range k).filter (· ∉ ([] : List Nat)) = List.range k := List.filter_true _
  rw [all] at loop
  let w₂ : World β := { w₁ with
    part := some (assemble 0 chunkSize t.file (List.range k) [])
    progress := progress
    broker := b₂ }
  have new : ¬ Json.contains (.number (k : Int)) (indexList indices) = true := by
    rw [contains_indexList, members, List.mem_range]
    simp
  have record : findRecord t.plan.records k = some (t.loadedRecord k) :=
    findRecord_recordsOf _ (List.mem_range.mpr inside)
  have missing : fetchChunk P (withhold (chunkKey t.hexId k) broker) t.plan k w₂ =
      (.error (.verificationError (.chunkMissing k)), w₂) := by
    unfold fetchChunk
    rw [record]
    exact Prog.bind_ok (callBroker_ok (withhold_hidden _ _)) _
  obtain ⟨rest, split⟩ := range_split inside
  have stops :
      chunkLoop P (withhold (chunkKey t.hexId k) broker) t.plan (List.range t.total) (indexList []) w₁ =
      (.error (.verificationError (.chunkMissing k)), w₂) := by
    rw [split, chunkLoop_append]
    apply (Prog.bind_ok loop _).trans
    rw [chunkLoop, if_neg new]
    exact Prog.bind_error missing _
  have failed : download P (withhold (chunkKey t.hexId k) broker) args w =
      (.error (.verificationError (.chunkMissing k)), w₂) :=
    (Prog.bind_ok prepared _).trans ((Prog.bind_ok resumed _).trans (Prog.bind_error stops _))
  refine ⟨w₂, Prog.bind_error failed _, rfl, rfl, fun zero => ?_, fun some_stored => ?_⟩
  · refine kept fun i member => ?_
    rw [zero] at member
    cases member
  · obtain ⟨listed, written, same⟩ := names ⟨0, List.mem_range.mpr some_stored, List.not_mem_nil⟩
    refine ⟨listed, written, fun i => ?_⟩
    rw [same, members]
    simp

end Withheld

/-! ## A receiver with transparent primitives -/

theorem nines_length : (List.replicate 32 (9 : UInt8)).length = 32 := rfl

def transparentReceiver (transferIdHex : String) : Args where
  receiverPrivate := ⟨List.replicate 32 9, nines_length⟩
  senderVerify := []
  transferId := some transferIdHex
  allowRedeliver := false
  now := 0

/-- A receiver with the private key that the transfer is for. -/
theorem transparent_accepted_by {accepts : Bytes → Bytes → Bool} {t : Transfer (transparent accepts)}
    (created : t.saved.createdAt = 0) (known : accepts [] t.manifestBytes = true) {ledger : Option Bytes}
    {ids : List String} (recorded : Recorded ledger ids) (unseen : t.hexId ∉ ids) :
    Accepted t ((transparent accepts).sign [] t.manifestBytes)
      { transparentReceiver t.hexId with receiverPrivate := t.receiverPub } ledger where
  asked := rfl
  receiver := rfl
  verifies := by
    simp only [transparent, transparentReceiver, List.nil_append, decide_true, Bool.and_true]
    exact known
  timely := by
    have item : t.loaded.item "created_at" = .ok (.int t.saved.createdAt) := t.loaded_item "created_at" rfl
    have window : (0 : Int) - 0 ≤ freshnessWindowS ∧ -clockSkewS ≤ (0 : Int) - 0 := by decide
    refine ⟨⟨0, ?_, window⟩, recorded.unseen unseen⟩
    rw [item, created]
    rfl

theorem transparent_accepted {accepts : Bytes → Bytes → Bool} {t : Transfer (transparent accepts)}
    (created : t.saved.createdAt = 0) (receiver : t.receiverPub = ⟨List.replicate 32 9, rfl⟩)
    (known : accepts [] t.manifestBytes = true) {ledger : Option Bytes} {ids : List String}
    (recorded : Recorded ledger ids) (unseen : t.hexId ∉ ids) :
    Accepted t ((transparent accepts).sign [] t.manifestBytes) (transparentReceiver t.hexId) ledger := by
  have accepted := transparent_accepted_by created known recorded unseen
  rw [receiver] at accepted
  exact accepted

theorem transparent_stored {accepts : Bytes → Bytes → Bool} {t : Transfer (transparent accepts)}
    (small : t.file.length < 2 ^ 53) :
    t.Whole ∧ ∃ store, Complete t ((transparent accepts).sign [] t.manifestBytes) store :=
  ⟨t.whole small, exists_complete t (t.whole small).numbered []⟩

/-- A source of one byte is stored, and a receiver without a ledger accepts it. -/
theorem oneByte_stored :
    ∃ (t : Transfer (transparent fun _ _ => true)) (store : Storage), t.file = [1] ∧ t.total = 1 ∧ t.Whole ∧
      Complete t ((transparent fun _ _ => true).sign [] t.manifestBytes) store ∧
      Accepted t ((transparent fun _ _ => true).sign [] t.manifestBytes) (transparentReceiver t.hexId) none := by
  obtain ⟨t, saved, receiver, file, _, total⟩ :=
    oneByte_transfer (fun _ _ => true) 1 ⟨List.replicate 16 0, rfl⟩
  obtain ⟨whole, store, complete⟩ := transparent_stored (t := t) (by simp [file])
  refine ⟨t, store, file, total, whole, complete, ?_⟩
  exact transparent_accepted (by rw [saved]; rfl) receiver rfl Recorded.missing List.not_mem_nil

/-- And so is a source of two chunks. -/
theorem twoMebibytes_stored :
    ∃ (t : Transfer (transparent fun _ _ => true)) (store : Storage), t.file = twoMebibytes ∧ t.total = 2 ∧
      t.Whole ∧ Complete t ((transparent fun _ _ => true).sign [] t.manifestBytes) store ∧
      Accepted t ((transparent fun _ _ => true).sign [] t.manifestBytes) (transparentReceiver t.hexId) none := by
  obtain ⟨t, saved, receiver, file, _, total⟩ :=
    twoChunks_transfer (fun _ _ => true) ⟨List.replicate 16 0, rfl⟩
  have small : t.file.length < 2 ^ 53 := by
    rw [file, twoMebibytes_length]
    decide
  obtain ⟨whole, store, complete⟩ := transparent_stored small
  refine ⟨t, store, file, total, whole, complete, ?_⟩
  exact transparent_accepted (by rw [saved]; rfl) receiver rfl Recorded.missing List.not_mem_nil

/-- What an earlier run left that stored the first of the two. -/
def firstStored (transferIdHex : String) : Disk where
  out := none
  part := some (List.replicate chunkSize 0)
  progress := some (Json.dumpFile (progressFile transferIdHex (indexList [0])))
  ledger := none

theorem firstStored_loads (transferIdHex : String) :
    loadProgress (firstStored transferIdHex).progress transferIdHex = .ok (indexList [0]) := by
  rw [firstStored, loadProgress_file, if_pos rfl]
  rfl

theorem firstStored_holds {accepts : Bytes → Bytes → Bool} {t : Transfer (transparent accepts)}
    (file : t.file = twoMebibytes) {i : Nat} (listed : i ∈ [0]) :
    HoldsAt (List.replicate chunkSize 0) (i * chunkSize) (t.plain i) := by
  obtain rfl : i = 0 := List.mem_singleton.mp listed
  rw [twoMebibytes_plain file (by decide), HoldsAt, Nat.zero_mul, List.drop_zero]
  exact List.prefix_refl _

end SecureTransfer.ApproachB
