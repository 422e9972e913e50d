import SecureTransfer.ApproachB.BrokerStore
import SecureTransfer.ApproachB.SendRuns

/-! # Send runs at the repository's broker

What a run leaves in the store: chunks of its own transfer, and the manifest only once
every chunk is there. A chunk that is already listed stays as it is, so all of this
holds of a store that agrees with the transfer to begin with.
-/

namespace SecureTransfer.ApproachB

open Library

variable {P : Primitives} {β : Type}

namespace Transfer

variable (t : Transfer P)

def chunkPath (index : Nat) : BlobPath := (t.hexId, chunkName index)

def manifestPath : BlobPath := (t.hexId, "manifest")

def signaturePath : BlobPath := (t.hexId, "manifest.sig")

theorem isTmp_chunkPath (index : Nat) : isTmp (t.chunkPath index).2 = false := isTmp_chunkName index

theorem isTmp_manifestPath : isTmp t.manifestPath.2 = false := by
  have fixed : isTmp "manifest" = false := by decide
  exact fixed

theorem isTmp_signaturePath : isTmp t.signaturePath.2 = false := by
  have fixed : isTmp "manifest.sig" = false := by decide
  exact fixed

/-- No chunk lies where a manifest or a signature does. -/
theorem chunkPath_ne {t u : Transfer P} (index : Nat) :
    t.chunkPath index ≠ u.manifestPath ∧ t.chunkPath index ≠ u.signaturePath := by
  constructor
  · exact fun same => absurd (Prod.mk.inj same).2 (chunkName_ne index).1
  · exact fun same => absurd (Prod.mk.inj same).2 (chunkName_ne index).2

/-- What the store has of the chunks of `t` is what `t` uploads. -/
def Agrees (store : Storage) : Prop :=
  ∀ i < t.total, ∀ data, store.find (t.chunkPath i) = some data → data = t.ciphertext i

def Holds (store : Storage) : Prop :=
  ∀ i < t.total, store.find (t.chunkPath i) = some (t.ciphertext i)

/-- From `store` to `after` only chunks of `t` are added. -/
structure Adds (store after : Storage) : Prop where
  old : ∀ path data, after.find path = some data → store.find path = some data ∨
    ∃ i < t.total, path = t.chunkPath i ∧ data = t.ciphertext i
  kept : t.Agrees store → ∀ path data, isTmp path.2 = false → store.find path = some data →
    after.find path = some data

variable {t}

theorem Adds.refl (store : Storage) : t.Adds store store where
  old _ _ present := .inl present
  kept _ _ _ _ present := present

theorem chunkPath_inj {i j : Nat} (h : t.chunkPath i = t.chunkPath j) : i = j :=
  chunkName_inj (Prod.mk.inj h).2

theorem Adds.agrees {store after : Storage} (adds : t.Adds store after) (h : t.Agrees store) :
    t.Agrees after := by
  intro i inside data present
  rcases adds.old _ _ present with before | ⟨j, _, same, new⟩
  · exact h i inside data before
  · rw [new, chunkPath_inj same]

theorem Adds.trans {store middle after : Storage} (first : t.Adds store middle)
    (second : t.Adds middle after) : t.Adds store after where
  old path data present := by
    rcases second.old path data present with before | new
    · exact first.old path data before
    · exact .inr new
  kept agrees path data visible present :=
    second.kept (first.agrees agrees) path data visible (first.kept agrees path data visible present)

theorem Holds.agrees {store : Storage} (h : t.Holds store) : t.Agrees store := by
  intro i inside data present
  rw [h i inside] at present
  exact (Option.some.inj present).symm

theorem safePath_chunk {i : Nat} (small : i < 2 ^ 64) :
    safePath (chunkKey t.hexId i) = some (t.chunkPath i) := safePath_chunkKey t.saved.id.2 small

theorem safePath_manifest : safePath (manifestKey t.hexId) = some t.manifestPath :=
  safePath_manifestKey t.saved.id.2

theorem safePath_signature : safePath (signatureKey t.hexId) = some t.signaturePath :=
  safePath_signatureKey t.saved.id.2

end Transfer

/-! ## One upload -/

/-- The world of a sender at this broker. -/
abbrev StoreWorld : Type := SenderWorld (Storage × List Outcome)

theorem storeBroker_put {key : String} {data : Bytes} {b b' : Storage × List Outcome}
    {r : Except String Unit} (run : storeBroker.put key data b = (r, b')) :
    b.1.put key data = some b'.1 ∨ (b'.1 = b.1 ∧ r ≠ .ok ()) := by
  cases b with
  | mk store script =>
      unfold storeBroker at run
      simp only at run
      split at run
      · rename_i put
        cases run
        exact .inl put
      · cases run
        exact .inr ⟨rfl, by simp⟩
      · rename_i put
        cases run
        exact .inl put
      · cases run
        exact .inr ⟨rfl, by simp⟩

/-- A PUT that fails may have taken place. -/
theorem storePut_store {key : String} {at_ : BlobPath} {blob : Bytes} {w w' : StoreWorld}
    {r : Except Raised Unit} (safe : safePath key = some at_)
    (run : onSenderBroker (storeBroker.put key blob) w = (r, w')) :
    (∀ path data, w'.broker.1.find path = some data →
        w.broker.1.find path = some data ∨ (path = at_ ∧ data = blob)) ∧
      (∀ path data, isTmp path.2 = false → (path = at_ → data = blob) →
        w.broker.1.find path = some data → w'.broker.1.find path = some data) ∧
      (r = .ok () → isTmp at_.2 = false → w'.broker.1.find at_ = some blob) := by
  have cases_ : w.broker.1.put key blob = some w'.broker.1 ∨
      (w'.broker.1 = w.broker.1 ∧ r ≠ .ok ()) := by
    obtain ⟨b, rfl, ⟨_, answer, rfl⟩ | ⟨message, answer, rfl⟩⟩ := callBroker_cases run
    · rcases storeBroker_put answer with put | ⟨_, failed⟩
      · exact .inl put
      · exact absurd rfl failed
    · rcases storeBroker_put answer with put | ⟨same, _⟩
      · exact .inl put
      · exact .inr ⟨same, by simp⟩
  rcases cases_ with put | ⟨same, failed⟩
  · refine ⟨?_, ?_, ?_⟩
    · intro path data present
      rcases Storage.put_find_some safe put present with new | ⟨_, before⟩
      · exact .inr new
      · exact .inl before
    · intro path data visible same present
      rw [Storage.put_find safe put path visible]
      split
      · rename_i here
        rw [same here]
      · exact present
    · intro _ visible
      rw [Storage.put_find safe put at_ visible, if_pos rfl]
  · rw [same]
    exact ⟨fun _ _ => .inl, fun _ _ _ _ present => present, fun ok => absurd ok failed⟩

/-- The chunk is there after its upload or, when it was listed, from before. -/
theorem putMissing_store {t : Transfer P} {already : List String} {i : Nat} (inside : i < t.total)
    (small : i < 2 ^ 64) {w w' : StoreWorld} {r : Except Raised Unit}
    (run : putMissing storeBroker already (chunkKey t.hexId i) (t.ciphertext i) w = (r, w')) :
    t.Adds w.broker.1 w'.broker.1 ∧
      (r = .ok () → chunkKey t.hexId i ∈ already ∨
        w'.broker.1.find (t.chunkPath i) = some (t.ciphertext i)) := by
  unfold putMissing at run
  split at run
  · rename_i listed
    cases run
    exact ⟨Transfer.Adds.refl _, fun _ => .inl listed⟩
  · obtain ⟨old, kept, stored⟩ := storePut_store (Transfer.safePath_chunk small) run
    refine ⟨⟨?_, ?_⟩, fun ok => .inr (stored ok (t.isTmp_chunkPath i))⟩
    · intro path data present
      rcases old path data present with before | new
      · exact .inl before
      · exact .inr ⟨i, inside, new⟩
    · intro agrees path data visible present
      refine kept path data visible (fun here => ?_) present
      rw [here] at present
      exact agrees i inside data present

/-- After a whole upload every chunk is there or was listed. -/
theorem uploadChunks_store (t : Transfer P) (already : List String) {indices : List Nat}
    {w w' : StoreWorld} {r : Except Raised (List Json × Bytes)}
    (inside : ∀ i ∈ indices, i < t.total)
    (run : uploadChunks P storeBroker t.session t.file t.total already indices w = (r, w')) :
    t.Adds w.broker.1 w'.broker.1 ∧
      ∀ out, r = .ok out → t.Agrees w.broker.1 → ∀ i ∈ indices, chunkKey t.hexId i ∈ already ∨
        w'.broker.1.find (t.chunkPath i) = some (t.ciphertext i) := by
  induction indices generalizing w w' r with
  | nil =>
      cases run
      exact ⟨Transfer.Adds.refl _, by simp⟩
  | cons index rest ih =>
      rw [uploadChunks] at run
      rcases python_bind run with ⟨e, _, rfl, rfl⟩ | ⟨nonce, counter, run⟩
      · exact ⟨Transfer.Adds.refl _, by simp⟩
      rcases python_bind run with ⟨e, _, rfl, rfl⟩ | ⟨aad, bound, run⟩
      · exact ⟨Transfer.Adds.refl _, by simp⟩
      obtain ⟨small, rfl⟩ := chunkNonce_ok counter
      obtain ⟨_, _, rfl⟩ := chunkAad_ok bound
      rw [Prog.bind_ok (Prog.update_run _ _), t.session_id.1, t.session_id.2] at run
      have here := inside index (List.mem_cons_self ..)
      rcases Prog.bind_cases run with ⟨e, put, rfl⟩ | ⟨_, w₁, put, run⟩
      · exact ⟨(putMissing_store here small put).1, by simp⟩
      obtain ⟨adds, stored⟩ := putMissing_store here small put
      have later := fun i member => inside i (List.mem_cons_of_mem index member)
      rcases Prog.bind_cases run with ⟨e, upload, rfl⟩ | ⟨out, w₂, upload, run⟩
      · exact ⟨adds.trans (ih later upload).1, by simp⟩
      · obtain ⟨adds', whole⟩ := ih later upload
        cases run
        refine ⟨adds.trans adds', fun _ _ agrees i member => ?_⟩
        rcases List.mem_cons.mp member with rfl | member
        · rcases stored rfl with listed | present
          · exact .inl listed
          · exact .inr (adds'.kept (adds.agrees agrees) _ _ (t.isTmp_chunkPath i) present)
        · exact whole out rfl (adds.agrees agrees) i member

/-! ## A whole run -/

theorem storeList_cases {start : String} {w w' : StoreWorld} {r : Except Raised (List String)}
    (run : onSenderBroker (storeBroker.list start) w = (r, w')) :
    w'.broker.1 = w.broker.1 ∧
      ∀ keys, r = .ok keys → keys = (w.broker.1.list start).flatMap splitLines := by
  obtain ⟨b, rfl, answer⟩ := callBroker_cases run
  have same : ∀ reply, storeBroker.list start w.broker = (reply, b) → b.1 = w.broker.1 ∧
      ∀ keys, reply = .ok keys → keys = (w.broker.1.list start).flatMap splitLines := by
    intro reply listed
    unfold storeBroker at listed
    simp only at listed
    split at listed
    · cases listed
      exact ⟨rfl, by simp⟩
    · cases listed
      exact ⟨rfl, by simp⟩
  rcases answer with ⟨keys, listed, rfl⟩ | ⟨message, listed, rfl⟩
  · obtain ⟨unchanged, all⟩ := same _ listed
    refine ⟨unchanged, ?_⟩
    intro keys' equal
    cases equal
    exact all keys rfl
  · exact ⟨(same _ listed).1, by simp⟩

/-- The names stored for `t` hold no newline, so LIST shows them as they are. -/
def Transfer.Clean (t : Transfer P) (store : Storage) : Prop :=
  ∀ name data, store.find (t.hexId, name) = some data → '\n' ∉ name.toList

theorem publish_store (t : Transfer P) {args : SendArgs} {w w' : StoreWorld} {r : Except Raised Unit}
    (run : publish P storeBroker args t.hexId (.obj t.members) w = (r, w')) :
    (∀ path data, w'.broker.1.find path = some data → w.broker.1.find path = some data ∨
        (path = t.manifestPath ∧ data = t.manifestBytes) ∨
        (path = t.signaturePath ∧ data = P.sign args.signingKey t.manifestBytes)) ∧
      (∀ path data, isTmp path.2 = false → path ≠ t.manifestPath → path ≠ t.signaturePath →
        w.broker.1.find path = some data → w'.broker.1.find path = some data) ∧
      (r = .ok () → w'.broker.1.find t.manifestPath = some t.manifestBytes ∧
        w'.broker.1.find t.signaturePath = some (P.sign args.signingKey t.manifestBytes)) := by
  have bytes : canonicalManifestBytes (.obj t.members) = t.manifestBytes := rfl
  rw [publish, bytes, Prog.bind_ok (Prog.update_run _ _)] at run
  rcases Prog.bind_cases run with ⟨e, put, rfl⟩ | ⟨_, w₁, put, run⟩
  · obtain ⟨old, kept, _⟩ := storePut_store Transfer.safePath_manifest put
    refine ⟨fun path data present => ?_, fun path data visible other _ => kept path data visible
      fun same => absurd same other,
      by simp⟩
    rcases old path data present with before | new
    · exact .inl before
    · exact .inr (.inl new)
  · obtain ⟨old, kept, stored⟩ := storePut_store Transfer.safePath_manifest put
    obtain ⟨old', kept', stored'⟩ := storePut_store Transfer.safePath_signature run
    have apart : t.manifestPath ≠ t.signaturePath := fun same =>
      absurd (Prod.mk.inj same).2 (by decide)
    refine ⟨?_, ?_, ?_⟩
    · intro path data present
      rcases old' path data present with before | new
      · rcases old path data before with before | new
        · exact .inl before
        · exact .inr (.inl new)
      · exact .inr (.inr new)
    · intro path data visible other other' present
      exact kept' path data visible (fun same => absurd same other')
        (kept path data visible (fun same => absurd same other) present)
    · intro ok
      exact ⟨kept' _ _ t.isTmp_manifestPath (fun same => absurd same apart) (stored rfl t.isTmp_manifestPath),
        stored' ok t.isTmp_signaturePath⟩

/-- What a run on `t` leaves, on a store that agrees with `t`. -/
structure Leaves (t : Transfer P) (signature : Bytes) (store after : Storage) : Prop where
  agrees : t.Agrees after
  old : ∀ path data, after.find path = some data → store.find path = some data ∨
    (∃ i < t.total, path = t.chunkPath i ∧ data = t.ciphertext i) ∨
    (path = t.manifestPath ∧ data = t.manifestBytes ∧ t.Holds after) ∨
    (path = t.signaturePath ∧ data = signature)
  kept : ∀ path data, isTmp path.2 = false → path ≠ t.manifestPath → path ≠ t.signaturePath →
    store.find path = some data → after.find path = some data

/-- The transfer is there as a whole. -/
structure Complete (t : Transfer P) (signature : Bytes) (store : Storage) : Prop where
  chunks : t.Holds store
  manifest : store.find t.manifestPath = some t.manifestBytes
  signature : store.find t.signaturePath = some signature

theorem Leaves.refl {t : Transfer P} {signature : Bytes} {store : Storage} (agrees : t.Agrees store) :
    Leaves t signature store store where
  agrees := agrees
  old _ _ present := .inl present
  kept _ _ _ _ _ present := present

theorem Transfer.Adds.leaves {t : Transfer P} {signature : Bytes} {store after : Storage}
    (adds : t.Adds store after) (agrees : t.Agrees store) : Leaves t signature store after where
  agrees := adds.agrees agrees
  old path data present := by
    rcases adds.old path data present with before | new
    · exact .inl before
    · exact .inr (.inl new)
  kept path data visible _ _ present := adds.kept agrees path data visible present

theorem sendFile_store (t : Transfer P) {args : SendArgs} {saved : Option Saved} {w w' : StoreWorld}
    {r : Except Raised Int} (persisted : w.state = saved.map (·.bytes P))
    (chose : t.saved = chosen saved args t.file.length) (receiver : t.receiverPub = args.receiverPub)
    (named : t.basename = args.basename) (agrees : t.Agrees w.broker.1) (clean : t.Clean w.broker.1)
    (run : sendFile P storeBroker args t.file w = (r, w')) :
    Leaves t (P.sign args.signingKey t.manifestBytes) w.broker.1 w'.broker.1 ∧
      (r = .ok 0 → Complete t (P.sign args.signingKey t.manifestBytes) w'.broker.1) := by
  have inside : ∀ i ∈ List.range t.total, i < t.total := fun i => List.mem_range.mp
  -- the manifest goes over chunks that are all there: what was listed was there, and stays
  have published : ∀ {already out w₁ w₂} {s : Except Raised Unit} {v : StoreWorld},
      onSenderBroker (storeBroker.list (t.hexId ++ "/")) { w with state := some (t.saved.bytes P) } =
        (.ok already, w₁) →
      uploadChunks P storeBroker t.session t.file t.total already (List.range t.total) w₁ = (.ok out, w₂) →
      publish P storeBroker args t.hexId (.obj t.members) w₂ = (s, v) →
      Leaves t (P.sign args.signingKey t.manifestBytes) w.broker.1 v.broker.1 ∧
        (s = .ok () → Complete t (P.sign args.signingKey t.manifestBytes) v.broker.1) := by
    intro already out w₁ w₂ s v list upload published
    obtain ⟨unchanged, listed⟩ := storeList_cases list
    obtain ⟨adds, whole⟩ := uploadChunks_store t already inside upload
    rw [unchanged] at adds whole
    have holds : t.Holds w₂.broker.1 := by
      intro i small
      rcases whole out rfl agrees i (List.mem_range.mpr small) with skipped | stored
      · rw [listed already rfl] at skipped
        obtain ⟨data, present⟩ := listed_chunk clean skipped
        have same := agrees i small data present
        rw [same] at present
        exact adds.kept agrees _ _ (t.isTmp_chunkPath i) present
      · exact stored
    obtain ⟨old, kept, stored⟩ := publish_store t published
    have holds' : t.Holds v.broker.1 := fun i small =>
      kept _ _ (t.isTmp_chunkPath i) (Transfer.chunkPath_ne i).1 (Transfer.chunkPath_ne i).2 (holds i small)
    refine ⟨⟨holds'.agrees, ?_, ?_⟩, fun ok => ⟨holds', (stored ok).1, (stored ok).2⟩⟩
    · intro path data present
      rcases old path data present with before | new | new
      · rcases adds.old path data before with before | new
        · exact .inl before
        · exact .inr (.inl new)
      · exact .inr (.inr (.inl ⟨new.1, new.2, holds'⟩))
      · exact .inr (.inr (.inr new))
    · intro path data visible other other' present
      exact kept path data visible other other' (adds.kept agrees path data visible present)
  cases sendFile_ends t persisted chose receiver named run with
  | listing list =>
      rw [(storeList_cases list).1]
      exact ⟨Leaves.refl agrees, by simp⟩
  | uploading list upload =>
      have adds := (uploadChunks_store t _ inside upload).1
      rw [(storeList_cases list).1] at adds
      exact ⟨adds.leaves agrees, by simp⟩
  | publishing list upload publish => exact ⟨(published list upload publish).1, by simp⟩
  | returning list upload publish =>
      obtain ⟨leaves, complete⟩ := published list upload publish
      exact ⟨leaves, fun _ => complete rfl⟩

/-- A run that returns 0 leaves the manifest it signed and the signature, whatever else is stored. -/
theorem send_publishes {args : SendArgs} {saved : Option Saved} {w w' : StoreWorld}
    (persisted : w.state = saved.map (·.bytes P)) (run : send P storeBroker args w = (.ok 0, w')) :
    ∃ t : Transfer P, args.file = some t.file ∧ t.saved = chosen saved args t.file.length ∧
      w'.signed = w.signed ++ [t.manifestBytes] ∧
      w'.broker.1.find t.manifestPath = some t.manifestBytes ∧
      w'.broker.1.find t.signaturePath = some (P.sign args.signingKey t.manifestBytes) := by
  cases source : args.file with
  | none =>
      simp only [send, source] at run
      cases run
  | some file =>
      simp only [send, source] at run
      rcases sendFile_works persisted run with ⟨_, failed⟩ | ⟨t, saves, _, reads, _, ends⟩
      · exact absurd rfl failed
      · subst reads
        obtain ⟨_, _, _, sent, ok, both⟩ := ends.sent
        have signed := sent.signed
        rw [both (ok.mp rfl), if_pos rfl] at signed
        cases ends with
        | returning list upload publish =>
            obtain ⟨_, _, stored⟩ := publish_store t publish
            exact ⟨t, rfl, saves, signed, stored rfl⟩

/-! ## A run that finds every chunk stored -/

theorem Transfer.chunk_listed {t : Transfer P} {store : Storage} {i : Nat} {data : Bytes}
    (h : store.find (t.chunkPath i) = some data) :
    chunkKey t.hexId i ∈ (store.list (t.hexId ++ "/")).flatMap splitLines := by
  have hexNoNewline : '\n' ∉ t.hexId.toList := by
    rw [Transfer.hexId, hex, String.toList_ofList]
    exact fun newline => absurd (hexChars_class _ '\n' newline) (by decide)
  have listed := listed_of_find h (t.isTmp_chunkPath i) hexNoNewline
    fun newline => absurd (chunkName_class i '\n' newline) (by decide)
  rw [chunkKey_join]
  exact listed

theorem uploadChunks_skips (t : Transfer P) {broker : Broker β} {already : List String}
    {indices : List Nat} {w w' : SenderWorld β} {r : Except Raised (List Json × Bytes)}
    (listed : ∀ i ∈ indices, chunkKey t.hexId i ∈ already)
    (run : uploadChunks P broker t.session t.file t.total already indices w = (r, w')) :
    w'.broker = w.broker := by
  induction indices generalizing w w' r with
  | nil =>
      cases run
      rfl
  | cons index rest ih =>
      rw [uploadChunks] at run
      rcases python_bind run with ⟨e, _, rfl, rfl⟩ | ⟨nonce, _, run⟩
      · rfl
      rcases python_bind run with ⟨e, _, rfl, rfl⟩ | ⟨aad, _, run⟩
      · rfl
      have here := listed index (List.mem_cons_self ..)
      have skip : ∀ ct (v : SenderWorld β),
          putMissing broker already (chunkKey t.hexId index) ct v = (.ok (), v) := by
        intro ct v
        rw [putMissing, if_pos here]
        rfl
      rw [Prog.bind_ok (Prog.update_run _ _), t.session_id.1, Prog.bind_ok (skip _ _)] at run
      have later := fun i member => listed i (List.mem_cons_of_mem index member)
      rcases Prog.bind_cases run with ⟨e, upload, rfl⟩ | ⟨out, w₂, upload, run⟩
      · have same := ih later upload
        exact same
      · cases run
        have same := ih later upload
        exact same

/-- It publishes its manifest over chunks it has not looked at. -/
theorem sendFile_over (t : Transfer P) {args : SendArgs} (saved : Option Saved) {w w' : StoreWorld}
    (persisted : w.state = saved.map (·.bytes P))
    (chose : t.saved = chosen saved args t.file.length) (receiver : t.receiverPub = args.receiverPub)
    (named : t.basename = args.basename)
    (stored : ∀ i < t.total, ∃ data, w.broker.1.find (t.chunkPath i) = some data)
    (run : sendFile P storeBroker args t.file w = (.ok 0, w')) :
    (∀ i data, w.broker.1.find (t.chunkPath i) = some data →
        w'.broker.1.find (t.chunkPath i) = some data) ∧
      w'.broker.1.find t.manifestPath = some t.manifestBytes ∧
      w'.broker.1.find t.signaturePath = some (P.sign args.signingKey t.manifestBytes) := by
  cases sendFile_ends t persisted chose receiver named run with
  | @returning already out w₁ w₂ w₃ list upload publish =>
      obtain ⟨unchanged, listed⟩ := storeList_cases list
      have skips : w₂.broker = w₁.broker := by
        refine uploadChunks_skips t (fun i member => ?_) upload
        obtain ⟨data, present⟩ := stored i (List.mem_range.mp member)
        rw [listed already rfl]
        exact Transfer.chunk_listed present
      obtain ⟨_, kept, published⟩ := publish_store t publish
      rw [skips, unchanged] at kept
      refine ⟨fun i data present => ?_, (published rfl).1, (published rfl).2⟩
      exact kept _ _ (t.isTmp_chunkPath i) (Transfer.chunkPath_ne i).1 (Transfer.chunkPath_ne i).2 present

/-! ## A run whose commands are all answered -/

theorem storePut_served {key : String} {path : BlobPath} (data : Bytes) {w : StoreWorld}
    (safe : safePath key = some path) (named : path.2 ≠ ".") (served : w.broker.2 = []) :
    ∃ store, onSenderBroker (storeBroker.put key data) w = (.ok (), { w with broker := (store, []) }) := by
  obtain ⟨after, put⟩ := Storage.put_some w.broker.1 data safe named
  refine ⟨after, callBroker_ok ?_⟩
  have reached : w.broker = (w.broker.1, []) := Prod.ext rfl served
  rw [reached]
  simp only [storeBroker, nextOutcome, List.headD_nil, put, List.tail_nil]

theorem chunkName_ne_dot (index : Nat) : chunkName index ≠ "." := by
  intro same
  have dot : '.' ∈ (chunkName index).toList := by
    rw [same]
    decide
  exact absurd (chunkName_class index '.' dot) (by decide)

theorem uploadChunks_served (t : Transfer P) (few : t.total < 2 ^ 64) (already : List String)
    {indices : List Nat} (inside : ∀ i ∈ indices, i < t.total) {w : StoreWorld}
    (served : w.broker.2 = []) :
    ∃ out w', uploadChunks P storeBroker t.session t.file t.total already indices w = (.ok out, w') ∧
      w'.broker.2 = [] := by
  induction indices generalizing w with
  | nil => exact ⟨_, w, rfl, served⟩
  | cons index rest ih =>
      have small : index < 2 ^ 64 := lt_trans (inside index (List.mem_cons_self ..)) few
      let w₀ : StoreWorld := { w with encrypted := w.encrypted ++ [t.encryption index] }
      have put : ∃ w₁ : StoreWorld, putMissing storeBroker already (chunkKey t.hexId index)
          (t.ciphertext index) w₀ = (.ok (), w₁) ∧ w₁.broker.2 = [] := by
        unfold putMissing
        split
        · exact ⟨w₀, rfl, served⟩
        · obtain ⟨store, put⟩ := storePut_served (t.ciphertext index) (w := w₀)
            (Transfer.safePath_chunk small) (chunkName_ne_dot index) served
          exact ⟨_, put, rfl⟩
      obtain ⟨w₁, put, served₁⟩ := put
      obtain ⟨out, w₂, later, served₂⟩ :=
        ih (fun i member => inside i (List.mem_cons_of_mem index member)) served₁
      refine ⟨(t.record index :: out.1, t.plain index ++ out.2), w₂, ?_, served₂⟩
      rw [uploadChunks, chunkNonce_eq small, Prog.bind_ok (python_ok _ _), chunkAad_eq small few,
        Prog.bind_ok (python_ok _ _), Prog.bind_ok (Prog.update_run _ _), t.session_id.1, t.session_id.2]
      exact (Prog.bind_ok put _).trans ((Prog.bind_ok later _).trans rfl)

theorem publish_served (t : Transfer P) (args : SendArgs) (manifest : Json) {w : StoreWorld}
    (served : w.broker.2 = []) :
    ∃ w', publish P storeBroker args t.hexId manifest w = (.ok (), w') := by
  let w₀ : StoreWorld := { w with signed := w.signed ++ [canonicalManifestBytes manifest] }
  obtain ⟨store, first⟩ := storePut_served (canonicalManifestBytes manifest) (w := w₀)
    (Transfer.safePath_manifest (t := t)) (by simp [Transfer.manifestPath]) served
  obtain ⟨store', second⟩ := storePut_served (P.sign args.signingKey (canonicalManifestBytes manifest))
    (w := { w₀ with broker := (store, []) }) (Transfer.safePath_signature (t := t))
    (by simp [Transfer.signaturePath]) rfl
  refine ⟨{ w₀ with broker := (store', []) }, ?_⟩
  rw [publish, Prog.bind_ok (Prog.update_run _ _)]
  exact (Prog.bind_ok first _).trans second

/-- It returns 0, whatever earlier runs left. -/
theorem sendFile_served (t : Transfer P) (few : t.total < 2 ^ 64) {args : SendArgs}
    (saved : Option Saved) {w : StoreWorld} (persisted : w.state = saved.map (·.bytes P))
    (chose : t.saved = chosen saved args t.file.length) (receiver : t.receiverPub = args.receiverPub)
    (served : w.broker.2 = []) : ∃ w', sendFile P storeBroker args t.file w = (.ok 0, w') := by
  have opened := t.opened
  rw [receiver, chose] at opened
  let w₀ : StoreWorld := { w with state := some (t.saved.bytes P) }
  let w₁ : StoreWorld := { w₀ with broker := (w.broker.1, []) }
  have list : onSenderBroker (storeBroker.list (t.session.transferIdHex ++ "/")) w₀ =
      (.ok ((w.broker.1.list (t.session.transferIdHex ++ "/")).flatMap splitLines), w₁) := by
    apply callBroker_ok
    have reached : w.broker = (w.broker.1, []) := Prod.ext rfl served
    simp only [w₀]
    rw [reached]
    simp only [storeBroker, nextOutcome, List.headD_nil, List.tail_nil]
  obtain ⟨out, w₂, upload, served₂⟩ := uploadChunks_served t few
    ((w.broker.1.list (t.session.transferIdHex ++ "/")).flatMap splitLines)
    (fun i => List.mem_range.mp) (w := w₁) rfl
  obtain ⟨w₃, published⟩ := publish_served t args
    (.obj (manifestMembers P args.basename t.session (.int t.saved.createdAt) t.file.length t.total
      out.1 out.2)) served₂
  have created : (t.saved.json P).item "created_at" = .ok (.int t.saved.createdAt) := rfl
  refine ⟨{ w₃ with state := none }, ?_⟩
  rw [sendFile, Prog.bind_ok (loadOrCreateState_run P args t.file.length saved persisted),
    Prog.bind_ok (python_run_ok opened _), ← chose, Prog.bind_ok list]
  apply (Prog.bind_ok upload _).trans
  rw [created, Prog.bind_ok (python_ok _ _), t.session_id.1]
  exact (Prog.bind_ok published _).trans rfl

end SecureTransfer.ApproachB
