import SecureTransfer.Library.LateNetwork
import SecureTransfer.ApproachB.Jobs

/-! # A transfer while jobs run

Any number of `send` and `receive` runs on one store, over a network that delivers late. What
the store holds of a transfer is always a part of it that ends with the manifest and the
signature, and no job is mistaken about what is there.
-/

namespace SecureTransfer.ApproachB

open Library

variable {P : Primitives} {t u : Transfer P} {signature : Bytes} {store after : Storage}

/-! ## What the store holds of a transfer -/

inductive IsBlob (t : Transfer P) (signature : Bytes) : String → Bytes → Prop where
  | chunk {i : Nat} (inside : i < t.total) : IsBlob t signature (chunkName i) (t.ciphertext i)
  | manifest : IsBlob t signature "manifest" t.manifestBytes
  | signature : IsBlob t signature "manifest.sig" signature

/-- In the namespace of `t` there are blobs of `t` only, the manifest over all chunks and the
    signature over the manifest. -/
structure Stock (t : Transfer P) (signature : Bytes) (store : Storage) : Prop where
  blobs : ∀ name data, store.find (t.hexId, name) = some data → IsBlob t signature name data
  manifest : (store.find t.manifestPath).isSome → t.Holds store
  signature : (store.find t.signaturePath).isSome → (store.find t.manifestPath).isSome

/-- Nothing of the namespace of `t` is gone or altered. -/
def KeepsStock (t : Transfer P) (store after : Storage) : Prop :=
  ∀ name data, store.find (t.hexId, name) = some data → after.find (t.hexId, name) = some data

instance : Std.Refl (KeepsStock t) := ⟨fun _ _ _ => id⟩

instance : IsTrans Storage (KeepsStock t) :=
  ⟨fun _ _ _ first second name data present => second name data (first name data present)⟩

theorem IsBlob.visible {name : String} {data : Bytes} (h : IsBlob t signature name data) : isTmp name = false := by
  cases h with
  | chunk => exact isTmp_chunkName _
  | manifest => exact t.isTmp_manifestPath
  | signature => exact t.isTmp_signaturePath

theorem IsBlob.unique {name : String} {data data' : Bytes} (h : IsBlob t signature name data)
    (h' : IsBlob t signature name data') : data = data' := by
  generalize same : name = name' at h'
  cases h with
  | chunk inside =>
      cases h' with
      | chunk => rw [chunkName_inj same]
      | manifest => exact absurd same (chunkName_ne _).1
      | signature => exact absurd same (chunkName_ne _).2
  | manifest =>
      cases h' with
      | chunk => exact absurd same.symm (chunkName_ne _).1
      | manifest => rfl
      | signature => exact absurd same (by decide)
  | signature =>
      cases h' with
      | chunk => exact absurd same.symm (chunkName_ne _).2
      | manifest => exact absurd same (by decide)
      | signature => rfl

theorem Storage.put_safe {key : String} {data : Bytes} (put : store.put key data = some after) :
    ∃ path, safePath key = some path := by
  unfold Storage.put at put
  split at put
  · cases put
  · rename_i path safe
    exact ⟨path, safe⟩

namespace Stock

theorem empty (t : Transfer P) (signature : Bytes) : Stock t signature Storage.empty where
  blobs _ _ present := by cases present
  manifest there := by cases there
  signature there := by cases there

theorem clean (stock : Stock t signature store) : t.Clean store := by
  intro name data present
  cases stock.blobs name data present with
  | chunk => exact fun newline => absurd (chunkName_class _ '\n' newline) (by decide)
  | manifest | signature => decide

theorem holds (stock : Stock t signature store)
    (chunks : ∀ i < t.total, (store.find (t.chunkPath i)).isSome) : t.Holds store := by
  intro i inside
  obtain ⟨data, present⟩ := Option.isSome_iff_exists.mp (chunks i inside)
  rw [Transfer.chunkPath] at present ⊢
  rw [present, (stock.blobs _ _ present).unique (.chunk inside)]

theorem complete (stock : Stock t signature store) (signed : (store.find t.signaturePath).isSome) :
    Complete t signature store := by
  have listed := stock.signature signed
  obtain ⟨manifest, present⟩ := Option.isSome_iff_exists.mp listed
  obtain ⟨found, present'⟩ := Option.isSome_iff_exists.mp signed
  refine ⟨stock.manifest listed, ?_, ?_⟩
  · rw [present, (stock.blobs _ _ present).unique .manifest]
  · rw [present', (stock.blobs _ _ present').unique .signature]

/-- A PUT of a blob of `t` in its turn, or of a blob elsewhere. -/
theorem put (stock : Stock t signature store) {key : String} {data : Bytes} {path : BlobPath}
    (safe : safePath key = some path) (put : store.put key data = some after)
    (blob : path.1 = t.hexId → IsBlob t signature path.2 data)
    (manifest : path = t.manifestPath → t.Holds store)
    (signed : path = t.signaturePath → (store.find t.manifestPath).isSome) :
    Stock t signature after ∧ KeepsStock t store after := by
  have keeps : KeepsStock t store after := by
    intro name found present
    have old := stock.blobs name found present
    rw [Storage.put_find safe put _ old.visible]
    split
    · rename_i here
      obtain ⟨space, same⟩ := Prod.mk.inj here
      have new := blob space.symm
      rw [← same] at new
      rw [new.unique old]
    · exact present
  have origin : ∀ name found, after.find (t.hexId, name) = some found →
      ((t.hexId, name) = path ∧ found = data) ∨ store.find (t.hexId, name) = some found :=
    fun name found present => (Storage.put_find_some safe put present).imp_right And.right
  have stays : ∀ name, (store.find (t.hexId, name)).isSome → (after.find (t.hexId, name)).isSome := by
    intro name there
    obtain ⟨found, present⟩ := Option.isSome_iff_exists.mp there
    rw [keeps name found present]
    rfl
  refine ⟨⟨?_, ?_, ?_⟩, keeps⟩
  · intro name found present
    rcases origin name found present with ⟨here, rfl⟩ | old
    · obtain ⟨space, same⟩ := Prod.mk.inj here
      rw [same]
      exact blob space.symm
    · exact stock.blobs name found old
  · intro there
    obtain ⟨found, present⟩ := Option.isSome_iff_exists.mp there
    have before : t.Holds store := by
      rcases origin _ found present with ⟨here, _⟩ | old
      · exact manifest here.symm
      · exact stock.manifest (Option.isSome_iff_exists.mpr ⟨found, old⟩)
    exact fun i inside => keeps _ _ (before i inside)
  · intro there
    obtain ⟨found, present⟩ := Option.isSome_iff_exists.mp there
    apply stays
    rcases origin _ found present with ⟨here, _⟩ | old
    · exact signed here.symm
    · exact stock.signature (Option.isSome_iff_exists.mpr ⟨found, old⟩)

end Stock

/-! ## Every command of every job -/

/-- What a job may ask while `t` is uploaded: it keeps to the order of `t` or puts nothing there. -/
inductive Minds (t : Transfer P) (signature : Bytes) (stored : String → Prop) : BrokerCall → Prop where
  | uploads {c : BrokerCall} (own : MayUpload t signature stored c) : Minds t signature stored c
  | list (start : String) : Minds t signature stored (.list start)
  | get (key : String) : Minds t signature stored (.get key)
  | elsewhere {key : String} {data : Bytes} (apart : ∀ path, safePath key = some path → path.1 ≠ t.hexId) :
      Minds t signature stored (.put key data)

def minding (t : Transfer P) (signature : Bytes) :
    Client.Protocol (String → Prop) BrokerCall BrokerCall.Reply where
  may := Minds t signature
  learn := (uploading t signature).learn

/-- What a job on `t` that returned 0 knows. -/
def UploadedBy (t : Transfer P) (signature : Bytes) (job : Job) (result : job.Result) (stored : String → Prop) : Prop :=
  job.Sends t signature → result.1 = .ok 0 →
    (∀ i < t.total, stored (chunkKey t.hexId i)) ∧ stored (manifestKey t.hexId) ∧ stored (signatureKey t.hexId)

/-- An upload of another transfer. -/
theorem MayUpload.elsewhere {other : Bytes} {stored stored' : String → Prop} {c : BrokerCall}
    (apart : u.hexId ≠ t.hexId) (may : MayUpload u other stored c) : Minds t signature stored' c := by
  cases may with
  | list => exact .list _
  | chunk inside small =>
      apply Minds.elsewhere
      intro path safe
      rw [Transfer.safePath_chunk small] at safe
      cases safe
      exact apart
  | manifest =>
      apply Minds.elsewhere
      intro path safe
      rw [Transfer.safePath_manifest] at safe
      cases safe
      exact apart
  | signature =>
      apply Minds.elsewhere
      intro path safe
      rw [Transfer.safePath_signature] at safe
      cases safe
      exact apart

/-- A job works on one transfer. -/
theorem Job.Sends.unique {signature' : Bytes} {job : Job} (h : job.Sends t signature)
    (h' : job.Sends u signature') : t = u ∧ signature = signature' := by
  cases h with
  | send source chose receiver named signs =>
      cases h' with
      | send source' chose' receiver' named' signs' =>
          have same : t.file = u.file := Option.some.inj (source.symm.trans source')
          have saved : t.saved = u.saved := by rw [chose, chose', same]
          obtain rfl := Transfer.ext_data saved (receiver.trans receiver'.symm) same (named.trans named'.symm)
          exact ⟨rfl, signs.trans signs'.symm⟩

/-- Every job minds the order of `t`, where jobs on its id are jobs on `t`. -/
theorem Job.minds {job : Job}
    (alike : ∀ (u : Transfer P) (signature' : Bytes), job.Sends u signature' → u.hexId = t.hexId →
      u = t ∧ signature' = signature) (stored : String → Prop) :
    (job.client P).Follows (minding t signature) (UploadedBy t signature job) stored := by
  by_cases mine : job.Sends t signature
  · obtain ⟨client, played, follows⟩ := mine.follows
    rw [played.eq]
    apply (follows stored).transfer Eq ?_ ?_ ?_ rfl
    · rintro k _ c rfl may
      exact .uploads may
    · rintro k _ c r rfl _
      rfl
    · rintro k _ result rfl uploaded _
      exact uploaded
  -- only jobs on `t` have to know anything
  have silent : ∀ (result : job.Result) k, UploadedBy t signature job result k :=
    fun result k sends => absurd sends mine
  cases job with
  | send args saved =>
      rcases Job.send_cases P args saved with ⟨u, signature', sends⟩ | ⟨result, played⟩
      · have apart : u.hexId ≠ t.hexId := by
          intro same
          obtain ⟨rfl, rfl⟩ := alike u signature' sends same
          exact mine sends
        obtain ⟨client, played, follows⟩ := sends.follows
        rw [played.eq]
        exact (follows stored).transfer (fun _ _ => True) (fun _ _ _ _ => MayUpload.elsewhere apart)
          (fun _ _ _ _ _ _ => trivial) (fun _ k result _ _ => silent result k) trivial
      · rw [played.eq]
        exact .done (silent result stored)
  | receive args disk =>
      obtain ⟨client, plays, follows⟩ := receive_reading P args disk
      rw [(Job.PlayedBy.receive plays).eq]
      apply (follows none rfl).transfer (fun _ _ => True) ?_ ?_ ?_ trivial
      · rintro _ k c _ ⟨_, may⟩
        cases c with
        | list start => exact .list start
        | get key => exact .get key
        | put key data => exact False.elim may
      · exact fun _ _ _ _ _ _ => trivial
      · exact fun _ k result _ _ => silent result k

/-! ## Knowledge -/

/-- The keys in `known` that lie in the namespace of `t` are stored. -/
def KnowsStored (t : Transfer P) (store : Storage) (known : String → Prop) : Prop :=
  ∀ key, known key → ∀ name, '/' ∉ name.toList → key = t.hexId ++ "/" ++ name → (store.find (t.hexId, name)).isSome

variable {known : String → Prop}

theorem KeepsStock.isSome (keeps : KeepsStock t store after) {name : String}
    (there : (store.find (t.hexId, name)).isSome) : (after.find (t.hexId, name)).isSome := by
  obtain ⟨found, present⟩ := Option.isSome_iff_exists.mp there
  rw [keeps name found present]
  rfl

theorem KnowsStored.chunk (knows : KnowsStored t store known) {i : Nat} (here : known (chunkKey t.hexId i)) :
    (store.find (t.chunkPath i)).isSome :=
  knows _ here _ (fun slash => absurd (chunkName_class i '/' slash) (by decide)) (chunkKey_join _ _)

theorem KnowsStored.manifest (knows : KnowsStored t store known) (here : known (manifestKey t.hexId)) :
    (store.find t.manifestPath).isSome :=
  knows _ here _ (by decide) (manifestKey_join _)

theorem KnowsStored.signed (knows : KnowsStored t store known) (here : known (signatureKey t.hexId)) :
    (store.find t.signaturePath).isSome :=
  knows _ here _ (by decide) (signatureKey_join _)

/-! ## Commands that come late -/

/-- The broker at one command. -/
def Storage.serve : (c : BrokerCall) → Storage → c.Reply × Storage
  | .list start, store => (.ok ((store.list start).flatMap splitLines), store)
  | .get key, store => (.ok (store.get key), store)
  | .put key data, store =>
      match store.put key data with
      | some after => (.ok (), after)
      | none => (.error ("PUT " ++ key ++ " failed"), store)

/-- What is put now, or any time later, leaves a part of `t`. -/
def Harmless (t : Transfer P) (signature : Bytes) (store : Storage) : BrokerCall → Prop
  | .list _ | .get _ => True
  | .put key data => ∀ path, safePath key = some path → path.1 = t.hexId →
      IsBlob t signature path.2 data ∧ (path = t.manifestPath → t.Holds store) ∧
        (path = t.signaturePath → (store.find t.manifestPath).isSome)

section Late

variable {known : String → Prop} {c : BrokerCall}

theorem Harmless.stock (stock : Stock t signature store) (harmless : Harmless t signature store c) :
    Stock t signature (Storage.serve c store).2 ∧ KeepsStock t store (Storage.serve c store).2 := by
  cases c with
  | list | get => exact ⟨stock, Std.Refl.refl _⟩
  | put key data =>
      rw [Storage.serve]
      split
      · rename_i after put
        obtain ⟨path, safe⟩ := Storage.put_safe put
        have rules := harmless path safe
        exact stock.put safe put (fun here => (rules here).1) (fun here => (rules (congrArg Prod.fst here)).2.1 here)
          fun here => (rules (congrArg Prod.fst here)).2.2 here
      · exact ⟨stock, Std.Refl.refl _⟩

theorem Harmless.later (keeps : KeepsStock t store after) (harmless : Harmless t signature store c) :
    Harmless t signature after c := by
  cases c with
  | list | get => trivial
  | put key data =>
      intro path safe here
      obtain ⟨blob, manifest, signed⟩ := harmless path safe here
      exact ⟨blob, fun last i inside => keeps _ _ (manifest last i inside), fun last => keeps.isSome (signed last)⟩

theorem Minds.harmless (stock : Stock t signature store) (knows : KnowsStored t store known)
    (minds : Minds t signature known c) : Harmless t signature store c := by
  cases minds with
  | list | get => trivial
  | elsewhere apart => exact fun path safe here => absurd here (apart path safe)
  | uploads own =>
      cases own with
      | list => trivial
      | chunk inside small =>
          intro path safe _
          rw [Transfer.safePath_chunk small] at safe
          cases safe
          exact ⟨.chunk inside, fun same => absurd same (Transfer.chunkPath_ne _).1,
            fun same => absurd same (Transfer.chunkPath_ne _).2⟩
      | manifest chunks =>
          intro path safe _
          rw [Transfer.safePath_manifest] at safe
          cases safe
          exact ⟨.manifest, fun _ => stock.holds fun i inside => knows.chunk (chunks i inside),
            fun same => absurd (Prod.mk.inj same).2 (by decide)⟩
      | signature listed =>
          intro path safe _
          rw [Transfer.safePath_signature] at safe
          cases safe
          exact ⟨.signature, fun same => absurd (Prod.mk.inj same).2 (by decide), fun _ => knows.manifest listed⟩

theorem KnowsStored.later (keeps : KeepsStock t store after) (knows : KnowsStored t store known) :
    KnowsStored t after known :=
  fun key here name noSlash same => keeps.isSome (knows key here name noSlash same)

/-- What a job learns from a reply is so. -/
theorem KnowsStored.learn (stock : Stock t signature store) (knows : KnowsStored t store known)
    (harmless : Harmless t signature store c) :
    KnowsStored t (Storage.serve c store).2 ((minding t signature).learn known c (Storage.serve c store).1) := by
  rintro key (old | new) name noSlash rfl
  · exact knows.later (harmless.stock stock).2 _ old name noSlash rfl
  cases c with
  | list start =>
      obtain ⟨rfl, keys, reply, member, i, inside, same⟩ := new
      rw [← Except.ok.inj reply, same] at member
      obtain ⟨data, present⟩ := listed_chunk stock.clean member
      have named : name = chunkName i := by
        rw [chunkKey_join] at same
        exact (String.append_right_inj _).mp same
      rw [named]
      exact Option.isSome_iff_exists.mpr ⟨data, present⟩
  | get key => exact False.elim new
  | put key data =>
      obtain ⟨answered, rfl⟩ := new
      rw [Storage.serve] at answered ⊢
      split at answered
      · rename_i after put
        obtain ⟨path, safe⟩ := Storage.put_safe put
        obtain rfl := safePath_suffix noSlash safe
        change (after.find (t.hexId, name)).isSome
        rw [Storage.put_lookup safe put, if_pos rfl]
        rfl
      · cases answered

/-- An error instead of a reply; nothing is learned from it. -/
def failing (message : String) (c : BrokerCall) : c.Reply := .error message

theorem KnowsStored.fails (message : String) (c : BrokerCall) (knows : KnowsStored t store known) :
    KnowsStored t store ((minding t signature).learn known c (failing message c)) := by
  rintro key (old | new)
  · exact knows key old
  cases c with
  | list start =>
      obtain ⟨_, _, reply, _⟩ := new
      cases reply
  | get key => exact False.elim new
  | put key data => cases new.1

/-- What the store holds of `t` only grows. -/
theorem stock_growing (t : Transfer P) (signature : Bytes) :
    LateNetwork.Growing Storage.serve failing (minding t signature) (Stock t signature) (KeepsStock t)
      (Harmless t signature) (KnowsStored t) where
  good stock harmless := (harmless.stock stock).1
  later stock harmless := (harmless.stock stock).2
  allowed := Harmless.later
  sound := KnowsStored.later
  may := Minds.harmless
  learn := KnowsStored.learn
  fails := KnowsStored.fails

end Late

/-! ## Whole runs -/

section Runs

variable {ι : Type} {jobs : ι → Job}

/-- Jobs on the id of `t` are jobs on `t`. -/
def Alike (t : Transfer P) (signature : Bytes) (jobs : ι → Job) : Prop :=
  ∀ (i : ι) (u : Transfer P) (signature' : Bytes), (jobs i).Sends u signature' → u.hexId = t.hexId →
    u = t ∧ signature' = signature

/-- The broker and the jobs, over a network that delivers late. -/
abbrev LateJobs (jobs : ι → Job) : Type := LateNetwork BrokerCall BrokerCall.Reply (fun i => (jobs i).Result) Storage

/-- No job has asked for anything. -/
noncomputable def LateJobs.start (P : Primitives) (jobs : ι → Job) (store : Storage) : LateJobs jobs :=
  LateNetwork.start store fun i => (jobs i).client P

theorem late_known (alike : Alike t signature jobs) (stock : Stock t signature store) :
    LateNetwork.Known (minding t signature) (Stock t signature) (Harmless t signature) (KnowsStored t)
      (fun i => UploadedBy t signature (jobs i)) (LateJobs.start P jobs store) fun _ _ => False :=
  .start stock (fun _ _ => False.elim) fun i => Job.minds (alike i) _

variable [DecidableEq ι]

def LateRun (s s' : LateJobs jobs) : Prop := Relation.ReflTransGen (LateNetwork.Step Storage.serve failing) s s'

/-- The run invariant: a part of `t` is stored, none of it is lost, and all of it is there once a
    job on `t` has returned 0. -/
theorem late_stock {s' : LateJobs jobs} (alike : Alike t signature jobs) (stock : Stock t signature store)
    (run : LateRun (LateJobs.start P jobs store) s') :
    Stock t signature s'.server ∧ KeepsStock t store s'.server ∧
      ∀ i result, (jobs i).Sends t signature → s'.clients i = .done result → result.1 = .ok 0 →
        Complete t signature s'.server := by
  obtain ⟨keeps, known, holds⟩ := (stock_growing t signature).run (late_known alike stock) run
  refine ⟨holds.good, keeps, fun i result sends ended returned => ?_⟩
  have mine := holds.follows i
  rw [ended] at mine
  obtain ⟨_, _, signed⟩ := mine.of_done sends returned
  exact holds.good.complete ((holds.sound i).signed signed)

/-- Nothing is lost on the way from one state to a later one. -/
theorem late_keeps {s s' : LateJobs jobs} (alike : Alike t signature jobs) (stock : Stock t signature store)
    (before : LateRun (LateJobs.start P jobs store) s) (run : LateRun s s') : KeepsStock t s.server s'.server := by
  obtain ⟨_, k, known⟩ := (stock_growing t signature).run (late_known alike stock) before
  exact ((stock_growing t signature).run known run).1

end Runs

end SecureTransfer.ApproachB
