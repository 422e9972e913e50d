import SecureTransfer.ApproachB.History
import SecureTransfer.ApproachB.Transparent
import SecureTransfer.ApproachB.Uploads

/-! # Published manifests

Send runs that share one store of the repository's broker, each cut off wherever its
connection fails. A run that resumes leaves a listed chunk as it is, so the manifest it
publishes matches the store as long as those chunks were made from the bytes it reads.
-/

namespace SecureTransfer.ApproachB

open Library

/-- `origins` is a history variable: the source and the receiver's key of the run that
    put a blob. -/
structure Deployment where
  history : History
  store : Storage
  origins : BlobPath → Option (Bytes × RawKey)

def Deployment.start : Deployment where
  history := .start
  store := .empty
  origins := fun _ => none

def Deployment.after (d : Deployment) (path : String) (args : SendArgs) (w : StoreWorld) :
    Deployment where
  history := d.history.after path args w
  store := w.broker.1
  origins := fun blob =>
    if (d.store.find blob).isSome then d.origins blob else args.file.map (·, args.receiverPub)

/-- One run that ends with `r`. -/
def UploadStep (P : Primitives) (d : Deployment) (path : String) (args : SendArgs)
    (r : Except Raised Int) (d' : Deployment) : Prop :=
  Fresh d.history args ∧ ∃ script w,
    send P storeBroker args (d.history.world path (d.store, script)) = (r, w) ∧
      d' = d.after path args w

/-- The chunks that a resumed run finds stored were made from the bytes it reads, for the
    receiver it sends to. -/
def RereadsStored (P : Primitives) (d : Deployment) (path : String) (args : SendArgs) : Prop :=
  ∀ saved file, Resumes P d.history path args saved file →
    ∀ i < totalChunks file.length, (d.store.find (hex saved.id.1, chunkName i)).isSome →
      ∀ source receiver, d.origins (hex saved.id.1, chunkName i) = some (source, receiver) →
        chunk chunkSize i source = chunk chunkSize i file ∧ receiver = args.receiverPub

/-- Every chunk record of a stored and signed manifest has its blob. -/
def PublishedMatches (P : Primitives) (verifyKey : Bytes) (store : Storage) : Prop :=
  ∀ transferIdHex manifestBytes signature,
    store.get (manifestKey transferIdHex) = some manifestBytes →
    store.get (signatureKey transferIdHex) = some signature →
    P.verify verifyKey signature manifestBytes = true →
    ∃ manifest records, Json.loadBytes manifestBytes = .ok manifest ∧
      manifest.item "chunks" = .ok (.arr records) ∧
      ∀ record ∈ records, ∃ (i : Nat) (ct : Bytes), record.item "index" = .ok (.int i) ∧
        store.get (chunkKey transferIdHex i) = some ct ∧
        record.item "ciphertext_sha256" = .ok (.str (P.hexDigest ct))

/-! ## What the store holds -/

/-- A blob is a chunk of a transfer whose state was created, its manifest with every chunk
    stored, or a signature. -/
def Blob (P : Primitives) (d : Deployment) (path : BlobPath) (data : Bytes) : Prop :=
  ∃ t : Transfer P, t.saved ∈ d.history.created ∧
    ((∃ i < t.total, path = t.chunkPath i ∧ data = t.ciphertext i ∧
        d.origins path = some (t.file, t.receiverPub)) ∨
      (path = t.manifestPath ∧ data = t.manifestBytes ∧ t.Holds d.store) ∨
      path = t.signaturePath)

structure DeploymentInv (P : Primitives) (d : Deployment) : Prop where
  history : HistoryInv P d.history
  blobs : ∀ path data, d.store.find path = some data → Blob P d path data

namespace DeploymentInv

variable {P : Primitives} {d d' : Deployment} {path : String} {args : SendArgs}

theorem start (P : Primitives) : DeploymentInv P Deployment.start where
  history := HistoryInv.start P
  blobs path data present := by
    have nothing : Deployment.start.store.find path = none := AList.lookup_empty _
    rw [nothing] at present
    cases present

theorem clean (inv : DeploymentInv P d) (t : Transfer P) : t.Clean d.store := by
  intro name data present
  obtain ⟨u, _, ⟨i, _, here, _⟩ | ⟨here, _⟩ | here⟩ := inv.blobs _ data present
  · rw [(Prod.mk.inj here).2]
    exact fun newline => absurd (chunkName_class i '\n' newline) (by decide)
  · rw [(Prod.mk.inj here).2]
    decide
  · rw [(Prod.mk.inj here).2]
    decide

/-- Two states with one id are one state. -/
theorem same_saved (inv : DeploymentInv P d) {t u : Transfer P} (ht : t.saved ∈ d.history.created)
    (hu : u.saved ∈ d.history.created) (ids : t.hexId = u.hexId) : t.saved = u.saved :=
  List.inj_on_of_nodup_map inv.history.distinct ht hu (Subtype.ext (hex_injective ids))

end DeploymentInv

/-- Transfers of one state have one ciphertext for chunks of one content. -/
theorem Transfer.ciphertext_eq {P : Primitives} {t u : Transfer P} {i : Nat} (saved : t.saved = u.saved)
    (receiver : t.receiverPub = u.receiverPub) (plain : t.plain i = u.plain i) :
    t.ciphertext i = u.ciphertext i := by
  have total : t.total = u.total := by
    rw [Transfer.total, Transfer.total, ← t.sized, ← u.sized, saved]
  simp only [Transfer.ciphertext, Transfer.aad, Transfer.session_eq saved receiver, plain, saved, total]

namespace DeploymentInv

variable {P : Primitives} {d d' : Deployment} {path : String} {args : SendArgs}

/-- What the store has of the chunks of a run's transfer is what that run makes of them. -/
theorem agrees (inv : DeploymentInv P d) (fresh : Fresh d.history args)
    (reread : RereadsStored P d path args) {t : Transfer P} (receiver : t.receiverPub = args.receiverPub)
    (works : Resumes P d.history path args t.saved t.file ∨ t.saved.id = args.freshId) :
    t.Agrees d.store := by
  intro i inside data present
  obtain ⟨u, known, ⟨j, _, here, rfl, origin⟩ | ⟨here, _⟩ | here⟩ := inv.blobs _ data present
  · obtain ⟨ids, names⟩ := Prod.mk.inj here
    have index := chunkName_inj names
    subst index
    rcases works with resumed | new
    · have saved := inv.same_saved resumed.created known ids
      have stored : (d.store.find (hex t.saved.id.1, chunkName i)).isSome :=
        Option.isSome_iff_exists.mpr ⟨_, present⟩
      obtain ⟨plain, same⟩ := reread t.saved t.file resumed i inside stored u.file u.receiverPub origin
      exact Transfer.ciphertext_eq saved.symm (same.trans receiver.symm) plain
    · have same : u.saved.id = t.saved.id := Subtype.ext (hex_injective ids.symm)
      exact absurd (same.trans new) (fresh u.saved known)
  · exact absurd here (Transfer.chunkPath_ne i).1
  · exact absurd here (Transfer.chunkPath_ne i).2

/-- A blob stays what it is while a run adds its own. -/
theorem kept {t : Transfer P} {signature : Bytes} {w : StoreWorld}
    (leaves : Leaves t signature d.store w.broker.1) {blob : BlobPath} {data : Bytes}
    (present : d.store.find blob = some data) (of : Blob P d blob data) :
    Blob P (d.after path args w) blob data := by
  obtain ⟨u, known, of⟩ := of
  refine ⟨u, List.mem_append_left _ known, ?_⟩
  rcases of with ⟨i, inside, here, content, origin⟩ | ⟨here, content, holds⟩ | here
  · refine .inl ⟨i, inside, here, content, ?_⟩
    simp only [Deployment.after, present, Option.isSome_some, if_true]
    exact origin
  · refine .inr (.inl ⟨here, content, fun i inside => ?_⟩)
    exact leaves.kept _ _ (u.isTmp_chunkPath i) (Transfer.chunkPath_ne i).1 (Transfer.chunkPath_ne i).2
      (holds i inside)
  · exact .inr (.inr here)

theorem leaves {t : Transfer P} {signature : Bytes} {w : StoreWorld} (inv : DeploymentInv P d)
    (source : args.file = some t.file) (receiver : t.receiverPub = args.receiverPub)
    (member : t.saved ∈ d.history.created ++ (creates (d.history.states path) args).toList)
    (agrees : t.Agrees d.store) (leaves : Leaves t signature d.store w.broker.1) :
    ∀ blob data, w.broker.1.find blob = some data → Blob P (d.after path args w) blob data := by
  intro blob data present
  rcases leaves.old blob data present with before | ⟨i, inside, rfl, rfl⟩ | ⟨rfl, rfl, holds⟩ | ⟨rfl, _⟩
  · exact kept leaves before (inv.blobs blob data before)
  · cases before : d.store.find (t.chunkPath i) with
    | some old =>
        have same := agrees i inside old before
        rw [same] at before
        exact kept leaves before (inv.blobs _ _ before)
    | none =>
        refine ⟨t, member, .inl ⟨i, inside, rfl, rfl, ?_⟩⟩
        simp only [Deployment.after, before, Option.isSome_none, Bool.false_eq_true, if_false, source,
          Option.map_some, receiver]
  · exact ⟨t, member, .inr (.inl ⟨rfl, rfl, holds⟩)⟩
  · exact ⟨t, member, .inr (.inr rfl)⟩

/-- One run keeps the invariant, and one that returns leaves its transfer whole. -/
theorem run (inv : DeploymentInv P d) {r : Except Raised Int} (step : UploadStep P d path args r d')
    (reread : RereadsStored P d path args) :
    DeploymentInv P d' ∧ (r = .ok 0 → ∃ t : Transfer P,
      (Resumes P d.history path args t.saved t.file ∨ t.saved = args.fresh t.file.length) ∧
      args.file = some t.file ∧ t.receiverPub = args.receiverPub ∧ t.basename = args.basename ∧
      Complete t (P.sign args.signingKey t.manifestBytes) d'.store) := by
  obtain ⟨fresh, script, w, run, rfl⟩ := step
  obtain ⟨saved, persisted, known⟩ := inv.history.persisted path
  have history : HistoryInv P (d.history.after path args w) := by
    have every : HistoryInv P (d.history.after path args
        (send P storeBroker args (d.history.world path (d.store, script))).2) := inv.history.run fresh
    rwa [run] at every
  have unchanged : w.broker.1 = d.store → ∀ blob data, w.broker.1.find blob = some data →
      Blob P (d.after path args w) blob data := by
    intro same blob data present
    rw [same] at present
    obtain ⟨u, member, of⟩ := inv.blobs blob data present
    refine ⟨u, List.mem_append_left _ member, ?_⟩
    simpa only [Deployment.after, present, same, Option.isSome_some, if_true] using of
  cases source : args.file with
  | none =>
      simp only [send, source] at run
      cases run
      exact ⟨⟨history, unchanged rfl⟩, by simp⟩
  | some file =>
      simp only [send, source] at run
      rcases sendFile_cases persisted run with ⟨rfl, failed⟩ |
        ⟨t, saves, receiver, rfl, named, _⟩
      · exact ⟨⟨history, unchanged rfl⟩, fun ok => absurd ok failed⟩
      · have member := HistoryInv.works_created source persisted known
        rw [← saves] at member
        have works : Resumes P d.history path args t.saved t.file ∨ t.saved = args.fresh t.file.length := by
          rw [saves]
          rcases HistoryInv.works source persisted known with ⟨resumed, _⟩ | ⟨own, _⟩
          · exact .inl resumed
          · exact .inr own
        have agrees := inv.agrees fresh reread receiver (works.imp_right fun own => by rw [own]; rfl)
        obtain ⟨left, complete⟩ := sendFile_store t persisted saves receiver named agrees (inv.clean t) run
        exact ⟨⟨history, inv.leaves source receiver member agrees left⟩,
          fun ok => ⟨t, works, rfl, receiver, named, complete ok⟩⟩

theorem publishedMatches (inv : DeploymentInv P d) (verifyKey : Bytes) :
    PublishedMatches P verifyKey d.store := by
  intro transferIdHex manifestBytes signature stored _ _
  rw [manifestKey_join] at stored
  have present := Storage.find_of_get (by decide) stored
  obtain ⟨t, _, ⟨i, _, here, _⟩ | ⟨here, rfl, holds⟩ | here⟩ := inv.blobs _ _ present
  · exact absurd (Prod.mk.inj here).2.symm (chunkName_ne i).1
  · have id : transferIdHex = t.hexId := (Prod.mk.inj here).1
    have chunks := t.loaded_item "chunks" rfl
    rw [Json.sortKeys_arr] at chunks
    refine ⟨t.loaded, _, t.loadBytes_manifest, chunks, ?_⟩
    intro record member
    simp only [List.mem_map, List.mem_range] at member
    obtain ⟨_, ⟨i, inside, rfl⟩, rfl⟩ := member
    refine ⟨i, t.ciphertext i, t.record_item "index" i rfl, ?_,
      t.record_item "ciphertext_sha256" i rfl⟩
    have found := Storage.get_of_find (holds i inside)
    rw [id, chunkKey_join]
    exact found
  · exact absurd (Prod.mk.inj here).2 (by decide)

end DeploymentInv

/-- **Published manifests match.** In every store reached by send runs that find the
    chunks stored before unchanged, the records of a manifest agree with the blobs. -/
theorem published_matches (P : Primitives) (verifyKey : Bytes) (d : Deployment)
    (run : Relation.ReflTransGen (fun a b => ∃ path args r, UploadStep P a path args r b ∧
      RereadsStored P a path args) Deployment.start d) : PublishedMatches P verifyKey d.store := by
  have step : Preserves (fun a b => ∃ path args r, UploadStep P a path args r b ∧
      RereadsStored P a path args) (DeploymentInv P) := by
    rintro a b inv ⟨path, args, r, step, reread⟩
    exact (inv.run step reread).1
  exact (step.run (DeploymentInv.start P) run).publishedMatches verifyKey

/-! ## A run that was cut off -/

/-- Two runs on one path: the first is cut off behind its first chunk, and the second is served. The
    source of the second has as many bytes as that of the first. -/
theorem upload_twice {P : Primitives} (one two : SendArgs) (t u : Transfer P) (path : String)
    (first : one.file = some t.file) (second : two.file = some u.file)
    (fresh : t.saved = one.fresh t.file.length) (kept : u.saved = t.saved)
    (receiver : t.receiverPub = one.receiverPub) (receiver' : u.receiverPub = two.receiverPub)
    (named : u.basename = two.basename) (ids : one.freshId ≠ two.freshId)
    (size : u.file.length = t.file.length) (some_chunk : 0 < t.total) (few : t.total < 2 ^ 64) :
    ∃ d d' e, UploadStep P Deployment.start path one (.error e) d ∧ UploadStep P d path two (.ok 0) d' ∧
      Resumes P d.history path two t.saved u.file ∧ d.history.created = [t.saved] ∧
      d.store.find (t.chunkPath 0) = some (t.ciphertext 0) ∧
      d.origins (t.chunkPath 0) = some (t.file, one.receiverPub) ∧
      (t.total = 1 → d'.store.find (u.chunkPath 0) = some (t.ciphertext 0) ∧
        d'.store.find u.manifestPath = some u.manifestBytes ∧
        d'.store.find u.signaturePath = some (P.sign two.signingKey u.manifestBytes)) := by
  have totals : u.total = t.total := by rw [Transfer.total, size, Transfer.total]
  have chose : u.saved = chosen (some t.saved) two u.file.length := by
    rw [kept]
    exact (if_pos (t.sized.trans size.symm)).symm
  have safe := Transfer.safePath_chunk (t := t) (i := 0) (by decide)
  obtain ⟨store, put⟩ := Storage.put_some .empty (t.ciphertext 0) safe (chunkName_ne_dot 0)
  have put_find := Storage.put_find safe put (t.chunkPath 0) (t.isTmp_chunkPath 0)
  rw [if_pos rfl] at put_find
  let w₁ : StoreWorld := ⟨(store, []), some (t.saved.bytes P), [t.encryption 0], []⟩
  have run₁ : send P storeBroker one
      (History.start.world path (Storage.empty, [.answered, .droppedAfter])) =
        (.error (.brokerError unreachable), w₁) := by
    have list : storeBroker.list (t.hexId ++ "/") (Storage.empty, [.answered, .droppedAfter]) =
        (.ok [], (Storage.empty, [.droppedAfter])) := by
      simp only [storeBroker, nextOutcome, List.headD_cons, List.tail_cons, Storage.list_empty,
        List.flatMap_nil]
    have dropped : storeBroker.put (chunkKey t.hexId 0) (t.ciphertext 0)
        (Storage.empty, [.droppedAfter]) = (.error unreachable, (store, [])) := by
      simp only [storeBroker, nextOutcome, List.headD_cons, put, List.tail_cons]
    simp only [send, first]
    exact sendFile_first_put_fails one none t rfl fresh receiver some_chunk few list dropped
  let d₁ := Deployment.start.after path one w₁
  have persisted : d₁.history.states path = some (t.saved.bytes P) := by
    simp only [d₁, w₁, Deployment.after, History.after, Function.update_self]
  obtain ⟨w₂, run₂⟩ := sendFile_served u (by omega) (some t.saved)
    (w := d₁.history.world path (store, [])) persisted chose receiver' rfl
  have here : store.find (u.chunkPath 0) = some (t.ciphertext 0) := by
    rw [Transfer.chunkPath, Transfer.hexId, kept]
    exact put_find
  have created : d₁.history.created = [t.saved] := by
    simp only [d₁, Deployment.after, Deployment.start, History.after, History.start, creates, first, resumes,
      fresh]
    rfl
  refine ⟨d₁, d₁.after path two w₂, _, ⟨?_, _, w₁, run₁, rfl⟩, ⟨?_, [], w₂, ?_, rfl⟩,
    ⟨second, ?_, persisted, t.sized.trans size.symm⟩, created, put_find, ?_, fun one_chunk => ?_⟩
  · intro saved member
    cases member
  · intro saved member
    rw [created, List.mem_singleton] at member
    rw [member, fresh]
    exact ids
  · simp only [send, second]
    exact run₂
  · rw [created]
    exact List.mem_singleton_self _
  · have nothing : (Deployment.start.store.find (t.chunkPath 0)).isSome = false := rfl
    simp only [d₁, Deployment.after, nothing, first]
    rfl
  -- every chunk of the second is stored already
  · have stored : ∀ i < u.total, ∃ data, store.find (u.chunkPath i) = some data := by
      intro i inside
      obtain rfl : i = 0 := by omega
      exact ⟨_, here⟩
    obtain ⟨chunks, manifest, signature⟩ := sendFile_over u (some t.saved) persisted chose receiver'
      named stored run₂
    exact ⟨chunks 0 _ here, manifest, signature⟩

/-- The second run finds the chunk of the first stored, made from the byte that it reads. -/
theorem published_matches_oneByte :
    ∃ (d d' : Deployment) (t : Transfer (transparent fun _ _ => true)) (args : SendArgs) (signature : Bytes),
      Resumes (transparent fun _ _ => true) d.history "source" args t.saved t.file ∧
      UploadStep (transparent fun _ _ => true) d "source" args (.ok 0) d' ∧
      d.store.get (chunkKey t.hexId 0) = some (t.ciphertext 0) ∧
      d'.store.get (manifestKey t.hexId) = some t.manifestBytes ∧
      d'.store.get (signatureKey t.hexId) = some signature ∧
      PublishedMatches (transparent fun _ _ => true) [] d'.store := by
  let one := oneByte 1 ⟨List.replicate 16 0, rfl⟩
  let two := oneByte 1 ⟨List.replicate 16 1, rfl⟩
  obtain ⟨t, saved, receiver, file, named, total⟩ :=
    oneByte_transfer (fun _ _ => true) 1 ⟨List.replicate 16 0, rfl⟩
  have source : two.file = some t.file := by
    rw [file]
    rfl
  obtain ⟨d, d', e, first, second, resumes, created, stored, origin, shown⟩ :=
    upload_twice one two t t "source" (by rw [file]; rfl) source (by rw [saved, file]; rfl) rfl receiver receiver
      named (by decide) rfl (by omega) (by omega)
  obtain ⟨_, manifest, signature⟩ := shown total
  have nothing : RereadsStored (transparent fun _ _ => true) Deployment.start "source" one := by
    intro saved file resumed
    cases resumed.created
  have reread : RereadsStored (transparent fun _ _ => true) d "source" two := by
    intro saved' file' resumed i inside _ source' receiver' made
    have known := resumed.created
    rw [created, List.mem_singleton] at known
    have same : file' = t.file := Option.some.inj (resumed.source.symm.trans source)
    obtain rfl : i = 0 := by
      rw [same, show totalChunks t.file.length = 1 from total] at inside
      omega
    rw [known] at made
    obtain ⟨rfl, rfl⟩ := Prod.mk.inj (Option.some.inj (made.symm.trans origin))
    exact ⟨by rw [same], rfl⟩
  exact ⟨d, d', t, two, _, resumes, second,
    (Storage.get_eq (Transfer.safePath_chunk (by decide))).trans stored,
    (Storage.get_eq Transfer.safePath_manifest).trans manifest,
    (Storage.get_eq Transfer.safePath_signature).trans signature,
    published_matches _ [] d' (.tail (.single ⟨_, _, _, first, nothing⟩) ⟨_, _, _, second, reread⟩)⟩

/-- A source of one byte is `01` when its chunk is uploaded and `02` when its manifest is:
    the record of the chunk does not match the blob. -/
theorem published_differs_after_edit :
    ¬ ∀ d, Relation.ReflTransGen
        (fun a b => ∃ path args r, UploadStep (transparent fun _ _ => true) a path args r b)
        Deployment.start d → PublishedMatches (transparent fun _ _ => true) [] d.store := by
  intro claim
  let one := oneByte 1 ⟨List.replicate 16 0, rfl⟩
  let two := oneByte 2 ⟨List.replicate 16 1, rfl⟩
  obtain ⟨t, saved, receiver, file, _, total⟩ :=
    oneByte_transfer (fun _ _ => true) 1 ⟨List.replicate 16 0, rfl⟩
  obtain ⟨u, saved', receiver', file', named, _⟩ :=
    oneByte_transfer (fun _ _ => true) 2 ⟨List.replicate 16 0, rfl⟩
  obtain ⟨_, d, _, cut, served, _, _, _, _, shown⟩ := upload_twice one two t u "source"
    (by rw [file]; rfl) (by rw [file']; rfl) (by rw [saved, file]; rfl) (saved'.trans saved.symm)
    receiver receiver' named (by decide) (by rw [file, file']; rfl) (by omega) (by omega)
  obtain ⟨chunk, manifest, signature⟩ := shown total
  have stored := (Storage.get_eq (Transfer.safePath_manifest (t := u))).trans manifest
  have signed := (Storage.get_eq (Transfer.safePath_signature (t := u))).trans signature
  obtain ⟨loaded, records, loads, chunks, matches_⟩ :=
    claim d (.tail (.single ⟨_, _, _, cut⟩) ⟨_, _, _, served⟩) u.hexId u.manifestBytes _ stored signed
      (transparent_signsFor [] u.manifestBytes)
  rw [u.loadBytes_manifest] at loads
  cases loads
  have listed := u.loaded_item "chunks" rfl
  rw [chunks, Json.sortKeys_arr] at listed
  cases listed
  have totals : u.total = 1 := by
    rw [← total, Transfer.total, Transfer.total, file, file']
    rfl
  have first : Json.sortKeys (u.record 0) ∈ ((List.range u.total).map u.record).map Json.sortKeys :=
    List.mem_map_of_mem (List.mem_map_of_mem (List.mem_range.mpr (by omega)))
  obtain ⟨i, ct, index, blob, digest⟩ := matches_ _ first
  rw [u.record_item "index" 0 rfl] at index
  cases index
  rw [Storage.get_eq (Transfer.safePath_chunk (t := u) (by decide)), chunk] at blob
  cases blob
  rw [u.record_item "ciphertext_sha256" 0 rfl] at digest
  have texts : (transparent fun _ _ => true).hexDigest (u.ciphertext 0) =
      (transparent fun _ _ => true).hexDigest (t.ciphertext 0) :=
    Json.str.inj (Except.ok.inj digest)
  have bytes := congrArg List.head? (hex_injective texts)
  rw [oneByte_digest t file, oneByte_digest u file'] at bytes
  exact absurd bytes (by decide)

end SecureTransfer.ApproachB
