import SecureTransfer.Library.Relational
import SecureTransfer.ApproachB.Uploads
import SecureTransfer.ApproachB.Transparent

/-! # What the broker sees of the content

Two runs of `send` on sources of one length, with the same persisted state and the same
replies, under an AEAD whose ciphertexts show nothing but a length.
-/

namespace SecureTransfer.ApproachB

open Library

/-- The broker gives the replies of a script whatever it is sent, and keeps what it is sent. -/
def scripted (listed : Except String (List String)) (replies : Nat → Except String Unit) :
    Broker (List (String × Bytes)) where
  list _ := fun sent => (listed, sent)
  get _ := fun sent => (.ok none, sent)
  put key data := fun sent => (replies sent.length, sent ++ [(key, data)])

/-- A ciphertext depends on the key, the nonce, the associated data and the length. -/
def Primitives.HidesContent (P : Primitives) : Prop :=
  ∀ key nonce plain plain' aad, plain.length = plain'.length →
    P.encrypt key nonce plain aad = P.encrypt key nonce plain' aad

/-- What `send` reads and hashes of a source. -/
def readPlaintext (file : Bytes) : Bytes :=
  ((List.range (totalChunks file.length)).map fun i => chunk chunkSize i file).flatten

/-- A manifest with the digest of `plaintext` between other entries. -/
def manifestWith (P : Primitives) (before after : List (String × Json)) (plaintext : Bytes) : Bytes :=
  canonicalManifestBytes (.obj (before ++ ("plaintext_sha256", .str (P.hexDigest plaintext)) :: after))

/-- Two PUTs that show the same, but for the digest in a manifest and the signature over it. -/
inductive SameButDigest (P : Primitives) (signingKey plaintext plaintext' : Bytes) :
    String × Bytes → String × Bytes → Prop where
  | same (put : String × Bytes) : SameButDigest P signingKey plaintext plaintext' put put
  | manifest (transferIdHex : String) (before after : List (String × Json)) :
      SameButDigest P signingKey plaintext plaintext'
        (manifestKey transferIdHex, manifestWith P before after plaintext)
        (manifestKey transferIdHex, manifestWith P before after plaintext')
  | signature (transferIdHex : String) (before after : List (String × Json)) :
      SameButDigest P signingKey plaintext plaintext'
        (signatureKey transferIdHex, P.sign signingKey (manifestWith P before after plaintext))
        (signatureKey transferIdHex, P.sign signingKey (manifestWith P before after plaintext'))

variable {P : Primitives} {signingKey plaintext plaintext' file file' : Bytes}
  {listed : Except String (List String)} {replies : Nat → Except String Unit}

/-- Up to the digest, the broker has seen the same, and the state file is the same. -/
structure SameView (P : Primitives) (signingKey plaintext plaintext' : Bytes)
    (w w' : SenderWorld (List (String × Bytes))) : Prop where
  puts : List.Forall₂ (SameButDigest P signingKey plaintext plaintext') w.broker w'.broker
  state : w.state = w'.state

/-! ## The parts of a run -/

section Parts

variable {σ τ α : Type} {S : σ → τ → Prop}

theorem python_alike (r : Except PyError α) : Prog.Alike S Eq (python r) (python r) := by
  apply Prog.Alike.ofExcept
  cases r with
  | ok a => exact .ok rfl
  | error e => exact .error _

end Parts

theorem list_alike (start : String) :
    Prog.Alike (SameView P signingKey plaintext plaintext') Eq
      (onSenderBroker ((scripted listed replies).list start))
      (onSenderBroker ((scripted listed replies).list start)) := by
  refine Prog.Alike.mapError (Prog.Alike.zoom
    (S := List.Forall₂ (SameButDigest P signingKey plaintext plaintext')) ?_ (fun _ _ view => view.puts)
    fun _ _ _ _ view puts => ⟨puts, view.state⟩) _
  intro sent sent' puts
  refine ⟨?_, puts⟩
  simp only [scripted]
  cases listed with
  | ok keys => exact .ok rfl
  | error message => exact .error message

/-- The reply depends on how much was sent, not on what. -/
theorem put_alike {key : String} {data data' : Bytes}
    (same : SameButDigest P signingKey plaintext plaintext' (key, data) (key, data')) :
    Prog.Alike (SameView P signingKey plaintext plaintext') Eq
      (onSenderBroker ((scripted listed replies).put key data))
      (onSenderBroker ((scripted listed replies).put key data')) := by
  refine Prog.Alike.mapError (Prog.Alike.zoom
    (S := List.Forall₂ (SameButDigest P signingKey plaintext plaintext')) ?_ (fun _ _ view => view.puts)
    fun _ _ _ _ view puts => ⟨puts, view.state⟩) _
  intro sent sent' puts
  refine ⟨?_, List.rel_append puts (.cons same .nil)⟩
  simp only [scripted, puts.length_eq]
  cases replies sent'.length with
  | ok _ => exact .ok rfl
  | error message => exact .error message

theorem loadOrCreateState_alike (args : SendArgs) (fileSize : Nat) :
    Prog.Alike (SameView P signingKey plaintext plaintext') Eq (loadOrCreateState P args fileSize)
      (loadOrCreateState P args fileSize) := by
  have create : Prog.Alike (SameView P signingKey plaintext plaintext') Eq (createState P args fileSize)
      (createState P args fileSize) :=
    (Prog.Alike.update fun _ _ view => ⟨view.puts, rfl⟩).bind fun _ _ _ => .pure rfl
  refine Prog.Alike.get.bind fun w w' view => ?_
  rw [view.state]
  cases w'.state with
  | none => exact create
  | some bytes =>
      apply (python_alike (Json.loadFile bytes)).bind
      rintro loaded _ rfl
      cases loaded with
      | none => exact python_alike _
      | some state =>
          apply (python_alike (state.get "file_size")).bind
          rintro size _ rfl
          split
          · exact (python_alike (state.item "transfer_id")).bind fun _ _ _ => .pure rfl
          · exact create

/-- Sources of one length make the same records and the same blobs. -/
theorem uploadChunks_alike (hides : P.HidesContent) (sized : file.length = file'.length) (session : Session)
    (total : Nat) (already : List String) (indices : List Nat) :
    Prog.Alike (SameView P signingKey plaintext plaintext')
      (fun out out' => out.1 = out'.1 ∧ out.2 = (indices.map fun i => chunk chunkSize i file).flatten ∧
        out'.2 = (indices.map fun i => chunk chunkSize i file').flatten)
      (uploadChunks P (scripted listed replies) session file total already indices)
      (uploadChunks P (scripted listed replies) session file' total already indices) := by
  induction indices with
  | nil => exact .pure ⟨rfl, rfl, rfl⟩
  | cons index rest ih =>
      have length : (chunk chunkSize index file).length = (chunk chunkSize index file').length := by
        rw [chunk_length, chunk_length, sized]
      apply (python_alike (chunkNonce index)).bind
      rintro nonce _ rfl
      apply (python_alike (chunkAad session.transferId index total)).bind
      rintro aad _ rfl
      refine (Prog.Alike.update fun _ _ view => ⟨view.puts, view.state⟩).bind fun _ _ _ => ?_
      rw [hides session.chunkKey nonce _ _ aad length, length]
      have put : ∀ key ct, Prog.Alike (SameView P signingKey plaintext plaintext') Eq
          (putMissing (scripted listed replies) already key ct)
          (putMissing (scripted listed replies) already key ct) := by
        intro key ct
        unfold putMissing
        split
        · exact .pure rfl
        · exact put_alike (.same _)
      refine (put _ _).bind fun _ _ _ => ih.bind ?_
      rintro ⟨records, bytes⟩ ⟨records', bytes'⟩ ⟨same, read, read'⟩
      cases same
      refine .pure ⟨rfl, ?_, ?_⟩
      · rw [List.map_cons, List.flatten_cons, read]
      · rw [List.map_cons, List.flatten_cons, read']

theorem publish_alike (args : SendArgs) (transferIdHex : String) (before after : List (String × Json)) :
    Prog.Alike (SameView P args.signingKey plaintext plaintext') Eq
      (publish P (scripted listed replies) args transferIdHex
        (.obj (before ++ ("plaintext_sha256", .str (P.hexDigest plaintext)) :: after)))
      (publish P (scripted listed replies) args transferIdHex
        (.obj (before ++ ("plaintext_sha256", .str (P.hexDigest plaintext')) :: after))) := by
  refine (Prog.Alike.update fun _ _ view => ⟨view.puts, view.state⟩).bind fun _ _ _ => ?_
  exact (put_alike (.manifest transferIdHex before after)).bind fun _ _ _ =>
    put_alike (.signature transferIdHex before after)

/-- A run shows the length of its source, and the digest in its manifest. -/
theorem sendFile_alike (hides : P.HidesContent) (sized : file.length = file'.length) (args : SendArgs) :
    Prog.Alike (SameView P args.signingKey (readPlaintext file) (readPlaintext file')) Eq
      (sendFile P (scripted listed replies) args file) (sendFile P (scripted listed replies) args file') := by
  unfold sendFile
  rw [sized]
  apply (loadOrCreateState_alike args _).bind
  rintro state _ rfl
  apply (python_alike _).bind
  rintro session _ rfl
  apply (list_alike _).bind
  rintro already _ rfl
  apply (uploadChunks_alike hides sized session _ already _).bind
  rintro ⟨records, bytes⟩ ⟨records', bytes'⟩ ⟨same, read, read'⟩
  cases same
  apply (python_alike _).bind
  rintro createdAt _ rfl
  have read_all : bytes = readPlaintext file := by
    rw [readPlaintext, sized]
    exact read
  have read_all' : bytes' = readPlaintext file' := read'
  subst read_all read_all'
  let before : List (String × Json) :=
    (manifestMembers P args.basename session createdAt file'.length (totalChunks file'.length) records
      []).take 11
  let after : List (String × Json) := [("chunks", .arr records)]
  refine Prog.Alike.bind (publish_alike args session.transferIdHex before after) fun _ _ _ => ?_
  exact (Prog.Alike.update fun _ _ view => ⟨view.puts, rfl⟩).bind fun _ _ _ => .pure rfl

/-- With equal digests everything is the same. -/
theorem SameButDigest.eq (digests : P.hexDigest plaintext = P.hexDigest plaintext') {put put' : String × Bytes}
    (h : SameButDigest P signingKey plaintext plaintext' put put') : put = put' := by
  cases h with
  | same => rfl
  | manifest id before after => simp only [manifestWith, digests]
  | signature id before after => simp only [manifestWith, digests]

/-- **What the broker sees.** Two sources of one length, sent with the same state and the
    same replies, show the same but for the digest of what was read. -/
theorem puts_alike (hides : P.HidesContent) (sized : file.length = file'.length) (args : SendArgs)
    (w : SenderWorld (List (String × Bytes))) {r r' : Except Raised Int}
    {v v' : SenderWorld (List (String × Bytes))}
    (run : send P (scripted listed replies) { args with file := some file } w = (r, v))
    (run' : send P (scripted listed replies) { args with file := some file' } w = (r', v')) :
    r = r' ∧ v.state = v'.state ∧
      List.Forall₂ (SameButDigest P args.signingKey (readPlaintext file) (readPlaintext file'))
        v.broker v'.broker ∧
      (P.hexDigest (readPlaintext file) = P.hexDigest (readPlaintext file') → v.broker = v'.broker) := by
  have start : SameView P args.signingKey (readPlaintext file) (readPlaintext file') w w :=
    ⟨List.forall₂_same.mpr fun put _ => .same put, rfl⟩
  have ran : sendFile P (scripted listed replies) args file w = (r, v) := run
  have ran' : sendFile P (scripted listed replies) args file' w = (r', v') := run'
  obtain ⟨ends, view⟩ := sendFile_alike hides sized args w w start
  rw [ran, ran'] at ends view
  refine ⟨ends.eq, view.state, view.puts, fun digests => ?_⟩
  exact List.forall₂_eq_eq_eq ▸ view.puts.imp fun _ _ put => put.eq digests

/-! ## A run whose commands are all answered -/

/-- The broker answers everything, and has nothing of the transfer yet. -/
def obliging : Broker (List (String × Bytes)) := scripted (.ok []) fun _ => .ok ()

theorem obliging_put (key : String) (data : Bytes) (w : SenderWorld (List (String × Bytes))) :
    onSenderBroker (obliging.put key data) w = (.ok (), { w with broker := w.broker ++ [(key, data)] }) :=
  callBroker_ok rfl

theorem uploadChunks_obliging (t : Transfer P) (few : t.total < 2 ^ 64) {indices : List Nat}
    (inside : ∀ i ∈ indices, i < t.total) (w : SenderWorld (List (String × Bytes))) :
    ∃ out w', uploadChunks P obliging t.session t.file t.total [] indices w = (.ok out, w') ∧
      w'.broker = w.broker ++ indices.map fun i => (chunkKey t.hexId i, t.ciphertext i) := by
  induction indices generalizing w with
  | nil => exact ⟨_, w, rfl, (List.append_nil _).symm⟩
  | cons index rest ih =>
      have small : index < 2 ^ 64 := lt_trans (inside index List.mem_cons_self) few
      let w₁ : SenderWorld (List (String × Bytes)) := { w with
        broker := w.broker ++ [(chunkKey t.hexId index, t.ciphertext index)]
        encrypted := w.encrypted ++ [t.encryption index] }
      obtain ⟨out, w₂, later, sent⟩ := ih (fun i member => inside i (List.mem_cons_of_mem index member)) w₁
      refine ⟨(t.record index :: out.1, t.plain index ++ out.2), w₂, ?_, ?_⟩
      · rw [uploadChunks, chunkNonce_eq small, Prog.bind_ok (python_ok _ _), chunkAad_eq small few,
          Prog.bind_ok (python_ok _ _), Prog.bind_ok (Prog.update_run _ _), t.session_id.1, t.session_id.2]
        have put : putMissing obliging [] (chunkKey t.hexId index) (t.ciphertext index)
            { w with encrypted := w.encrypted ++ [t.encryption index] } = (.ok (), w₁) := by
          rw [putMissing, if_neg List.not_mem_nil]
          exact obliging_put _ _ _
        exact (Prog.bind_ok put _).trans ((Prog.bind_ok later _).trans rfl)
      · rw [sent, List.map_cons, List.append_assoc]
        rfl

/-- It is sent every chunk, then the manifest, then the signature. -/
theorem sendFile_obliging (t : Transfer P) (few : t.total < 2 ^ 64) {args : SendArgs}
    (saved : Option Saved) {w : SenderWorld (List (String × Bytes))}
    (persisted : w.state = saved.map (·.bytes P))
    (chose : t.saved = chosen saved args t.file.length) (receiver : t.receiverPub = args.receiverPub)
    (named : t.basename = args.basename) :
    ∃ w', sendFile P obliging args t.file w = (.ok 0, w') ∧
      w'.broker = w.broker ++ (List.range t.total).map (fun i => (chunkKey t.hexId i, t.ciphertext i)) ++
        [(manifestKey t.hexId, t.manifestBytes),
          (signatureKey t.hexId, P.sign args.signingKey t.manifestBytes)] := by
  have opened := t.opened
  rw [receiver, chose] at opened
  let w₀ : SenderWorld (List (String × Bytes)) := { w with state := some (t.saved.bytes P) }
  have list : onSenderBroker (obliging.list (t.session.transferIdHex ++ "/")) w₀ = (.ok [], w₀) :=
    callBroker_ok rfl
  obtain ⟨out, w₁, upload, sent⟩ := uploadChunks_obliging t few (fun i => List.mem_range.mp) w₀
  obtain ⟨_, _, _, _, _, whole⟩ := uploadChunks_cases t obliging [] upload
  obtain ⟨_, rfl⟩ := whole out rfl
  let w₂ : SenderWorld (List (String × Bytes)) := { w₁ with
    broker := w₁.broker ++ [(manifestKey t.hexId, t.manifestBytes)] ++
      [(signatureKey t.hexId, P.sign args.signingKey t.manifestBytes)]
    signed := w₁.signed ++ [t.manifestBytes] }
  have published : publish P obliging args t.hexId (.obj t.members) w₁ = (.ok (), w₂) := by
    rw [publish, Prog.bind_ok (Prog.update_run _ _)]
    exact (Prog.bind_ok (obliging_put _ _ _) _).trans (obliging_put _ _ _)
  have created : (t.saved.json P).item "created_at" = .ok (.int t.saved.createdAt) := rfl
  refine ⟨{ w₂ with state := none }, ?_, ?_⟩
  · rw [sendFile, Prog.bind_ok (loadOrCreateState_run P args t.file.length saved persisted),
      Prog.bind_ok (python_run_ok opened _), ← chose, Prog.bind_ok list]
    apply (Prog.bind_ok upload _).trans
    rw [created, Prog.bind_ok (python_ok _ _), t.session_id.1, ← named]
    exact (Prog.bind_ok published _).trans rfl
  · simp only [w₂, sent, w₀, List.append_assoc, List.cons_append, List.nil_append]

/-! ## Two sources of one byte -/

/-- Ciphertexts of zeros, 16 bytes longer than the plaintext. -/
def lengthOnly : Primitives :=
  { transparent fun _ _ => true with encrypt := fun _ _ plain _ => List.replicate (plain.length + 16) 0 }

theorem lengthOnly_hides : lengthOnly.HidesContent := by
  intro key nonce plain plain' aad sized
  simp only [lengthOnly, sized]

theorem lengthOnly_agreement : lengthOnly.Agreement where
  shared := (transparent_agreement fun _ _ => true).shared
  agree := (transparent_agreement fun _ _ => true).agree
  pem := (transparent_agreement fun _ _ => true).pem

/-- The manifest and the signature of a source of one byte are the last that is sent. -/
theorem lengthOnly_oneByte (byte : UInt8) (args : SendArgs) :
    ∃ (t : Transfer lengthOnly) (puts : List (String × Bytes)) (v : SenderWorld (List (String × Bytes))),
      t.plaintext = [byte] ∧ puts.length = 1 ∧
      send lengthOnly obliging { args with file := some [byte] } ⟨[], none, [], []⟩ = (.ok 0, v) ∧
      v.broker = puts ++ [(manifestKey t.hexId, t.manifestBytes),
        (signatureKey t.hexId, lengthOnly.sign args.signingKey t.manifestBytes)] := by
  obtain ⟨t, saved, receiver, file, named⟩ := exists_transfer lengthOnly_agreement
    ({ args with file := some [byte] }.fresh 1) args.receiverPub args.basename [byte] rfl
  have whole := t.whole (by simp [file])
  have one_chunk : t.total = 1 := by
    have : totalChunks 1 = 1 := by decide
    rw [Transfer.total, file]
    exact this
  obtain ⟨v, run, sent⟩ := sendFile_obliging t whole.numbered none (w := ⟨[], none, [], []⟩) rfl
    (by rw [saved, file]; rfl) receiver named
  refine ⟨t, _, v, by rw [whole.plaintext_eq, file], ?_, ?_, sent⟩
  · simp [one_chunk]
  · rw [send, ← file]
    exact run

/-- Sent with the same state, the three PUTs of each show the same but for that digest. -/
theorem puts_alike_oneByte :
    ∃ (args : SendArgs) (v v' : SenderWorld (List (String × Bytes))), v.broker.length = 3 ∧
      List.Forall₂ (SameButDigest lengthOnly args.signingKey (readPlaintext [1]) (readPlaintext [2]))
        v.broker v'.broker := by
  obtain ⟨t, puts, v, _, length, run, sent⟩ := lengthOnly_oneByte 1 (oneByte 1 ⟨List.replicate 16 0, rfl⟩)
  obtain ⟨u, _, v', _, _, run', _⟩ := lengthOnly_oneByte 2 (oneByte 1 ⟨List.replicate 16 0, rfl⟩)
  have sized : List.length ([1] : Bytes) = List.length ([2] : Bytes) := rfl
  obtain ⟨_, _, alike, _⟩ := puts_alike lengthOnly_hides sized _ _ run run'
  refine ⟨_, v, v', ?_, alike⟩
  rw [sent, List.length_append, length]
  rfl

/-- The digest that the manifest shows tells the two bytes apart. -/
theorem content_shown :
    ¬ ∀ (P : Primitives) (args : SendArgs) (listed : Except String (List String))
        (replies : Nat → Except String Unit) (file file' : Bytes) (w : SenderWorld (List (String × Bytes)))
        (r r' : Except Raised Int) (v v' : SenderWorld (List (String × Bytes))),
      P.HidesContent → file.length = file'.length →
      send P (scripted listed replies) { args with file := some file } w = (r, v) →
      send P (scripted listed replies) { args with file := some file' } w = (r', v') →
      v.broker = v'.broker := by
  intro claim
  let args := oneByte 1 ⟨List.replicate 16 0, rfl⟩
  obtain ⟨t, puts, v, plaintext, length, run, sent⟩ := lengthOnly_oneByte 1 args
  obtain ⟨u, puts', v', plaintext', length', run', sent'⟩ := lengthOnly_oneByte 2 args
  have same := claim lengthOnly args _ _ [1] [2] _ _ _ _ _ lengthOnly_hides rfl run run'
  rw [sent, sent'] at same
  have manifests : t.manifestBytes = u.manifestBytes :=
    (Prod.mk.inj (List.cons.inj (List.append_inj same (length.trans length'.symm)).2).1).2
  have loads := t.loadBytes_manifest
  rw [manifests, u.loadBytes_manifest] at loads
  have digest : t.loaded.item "plaintext_sha256" = .ok (.str (lengthOnly.hexDigest t.plaintext)) :=
    t.loaded_item "plaintext_sha256" rfl
  have digest' : u.loaded.item "plaintext_sha256" = .ok (.str (lengthOnly.hexDigest u.plaintext)) :=
    u.loaded_item "plaintext_sha256" rfl
  rw [Except.ok.inj loads, digest, plaintext, plaintext'] at digest'
  have bytes := congrArg List.head? (hex_injective (Json.str.inj (Except.ok.inj digest')))
  exact absurd (Option.some.inj bytes) (by decide)

end SecureTransfer.ApproachB
