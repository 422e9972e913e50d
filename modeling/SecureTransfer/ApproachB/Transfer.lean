import SecureTransfer.Library.CanonicalJson
import SecureTransfer.ApproachB.Receiver
import SecureTransfer.ApproachB.Sender

/-! # Transfers

What one transfer publishes, as a function of its persisted state, the source bytes
and the receiver's key: the encrypt calls, the blobs and the signed manifest. `send`
produces it piece by piece, and the receiver reads its own view of it back from the
bytes of the manifest.
-/

namespace SecureTransfer.ApproachB

open Library

/-! ## Persisted state -/

/-- What a state file holds. -/
structure Saved where
  id : { raw : Bytes // raw.length = transferIdLen }
  createdAt : Int
  fileSize : Nat
  ephemeral : RawKey

namespace Saved

def json (P : Primitives) (saved : Saved) : Json :=
  .obj [
    ("transfer_id", .str (hex saved.id.1)),
    ("created_at", .int saved.createdAt),
    ("file_size", .int saved.fileSize),
    ("ephemeral_x25519_key_pem", .str (P.privatePem saved.ephemeral))]

def bytes (P : Primitives) (saved : Saved) : Bytes := Json.dumpFile (saved.json P)

theorem loadFile_bytes (P : Primitives) (saved : Saved) :
    Json.loadFile (saved.bytes P) = .ok (some (saved.json P)) :=
  Json.loadFile_dumpFile rfl

end Saved

/-- What a fresh run saves. -/
def SendArgs.fresh (args : SendArgs) (fileSize : Nat) : Saved where
  id := args.freshId
  createdAt := args.now
  fileSize := fileSize
  ephemeral := args.freshKey

/-- The state a run works with: the persisted one if its size is the size of the source. -/
def chosen (saved : Option Saved) (args : SendArgs) (fileSize : Nat) : Saved :=
  match saved with
  | some saved => if saved.fileSize = fileSize then saved else args.fresh fileSize
  | none => args.fresh fileSize

theorem chosen_fileSize (saved : Option Saved) (args : SendArgs) (fileSize : Nat) :
    (chosen saved args fileSize).fileSize = fileSize := by
  unfold chosen
  split
  · split
    · assumption
    · rfl
  · rfl

theorem loadOrCreateState_run {β : Type} (P : Primitives) (args : SendArgs) (fileSize : Nat)
    (saved : Option Saved) {w : SenderWorld β} (persisted : w.state = saved.map (·.bytes P)) :
    loadOrCreateState P args fileSize w =
      (.ok ((chosen saved args fileSize).json P),
        { w with state := some ((chosen saved args fileSize).bytes P) }) := by
  rw [loadOrCreateState, Prog.bind_ok (Prog.get_run w)]
  cases saved with
  | none =>
      simp only [persisted, Option.map_none]
      rfl
  | some saved =>
      have size : (saved.json P).get "file_size" = .ok (some (.int saved.fileSize)) := rfl
      rw [Option.map_some] at persisted
      simp only [persisted]
      rw [Saved.loadFile_bytes, Prog.bind_ok (python_ok _ _)]
      simp only
      rw [size, Prog.bind_ok (python_ok _ _)]
      by_cases same : saved.fileSize = fileSize
      · have equal : (some (Json.int saved.fileSize)).any (Json.eqInt · fileSize) = true := by
          simp [same]
        have kept : chosen (some saved) args fileSize = saved := if_pos same
        simp only [equal, if_true, kept]
        rw [← persisted]
        rfl
      · have differ : (some (Json.int saved.fileSize)).any (Json.eqInt · fileSize) = false := by
          simpa [Json.eqInt] using same
        have fresh : chosen (some saved) args fileSize = args.fresh fileSize := if_neg same
        simp only [differ, fresh]
        rfl

/-! ## What a transfer publishes -/

/-- One transfer. Its key material is what `send` derives from the saved state. -/
structure Transfer (P : Primitives) where
  saved : Saved
  receiverPub : RawKey
  file : Bytes
  basename : String
  session : Session
  opened : openSession P receiverPub (saved.json P) = .ok session
  sized : saved.fileSize = file.length

/-- The parts of the key material. -/
theorem openSession_json {P : Primitives} {receiverPub : RawKey} {saved : Saved} {session : Session}
    (h : openSession P receiverPub (saved.json P) = .ok session) :
    ∃ ephemeral shared, P.loadPem (P.privatePem saved.ephemeral) = some ephemeral ∧
      P.exchange ephemeral receiverPub = some shared ∧
      session = {
        transferIdHex := hex saved.id.1
        transferId := saved.id.1
        ephemeralPubRaw := (P.x25519Public ephemeral).1
        chunkKey := deriveChunkKey P shared saved.id.1 (P.x25519Public ephemeral).1 receiverPub.1 } := by
  have id : (saved.json P).item "transfer_id" = .ok (.str (hex saved.id.1)) := rfl
  have pem : (saved.json P).item "ephemeral_x25519_key_pem" =
      .ok (.str (P.privatePem saved.ephemeral)) := rfl
  simp only [openSession, id, pem, bind, Except.bind, fromHex_hex, Option.elim_some] at h
  cases loaded : P.loadPem (P.privatePem saved.ephemeral) with
  | none =>
      rw [loaded] at h
      cases h
  | some ephemeral =>
      rw [loaded] at h
      cases exchanged : P.exchange ephemeral receiverPub with
      | none =>
          simp only [Option.elim_some, exchanged] at h
          cases h
      | some shared =>
          simp only [Option.elim_some, exchanged] at h
          cases h
          exact ⟨ephemeral, shared, rfl, exchanged, rfl⟩

theorem openSession_ok {P : Primitives} (laws : P.Agreement) (saved : Saved) (receiver : RawKey) :
    ∃ session, openSession P (P.x25519Public receiver) (saved.json P) = .ok session := by
  have id : (saved.json P).item "transfer_id" = .ok (.str (hex saved.id.1)) := rfl
  have pem : (saved.json P).item "ephemeral_x25519_key_pem" =
      .ok (.str (P.privatePem saved.ephemeral)) := rfl
  obtain ⟨shared, exchanged⟩ := laws.shared saved.ephemeral receiver
  simp only [openSession, id, pem, bind, Except.bind, fromHex_hex, laws.pem, exchanged,
    Option.elim_some]
  exact ⟨_, rfl⟩

/-- Generated keys carry a transfer of any file. -/
theorem exists_transfer {P : Primitives} (laws : P.Agreement) (saved : Saved) (receiver : RawKey)
    (basename : String) (file : Bytes) (sized : saved.fileSize = file.length) :
    ∃ t : Transfer P, t.saved = saved ∧ t.receiverPub = P.x25519Public receiver ∧ t.file = file ∧
      t.basename = basename := by
  obtain ⟨session, opened⟩ := openSession_ok laws saved receiver
  exact ⟨⟨saved, P.x25519Public receiver, file, basename, session, opened, sized⟩, rfl, rfl, rfl, rfl⟩

namespace Transfer

variable {P : Primitives} (t : Transfer P)

/-- The key material depends on the saved state and the receiver's key alone. -/
theorem session_eq {t u : Transfer P} (saved : t.saved = u.saved)
    (receiver : t.receiverPub = u.receiverPub) : t.session = u.session := by
  have opened := t.opened
  rw [saved, receiver, u.opened] at opened
  exact (Except.ok.inj opened).symm

theorem ext_data {t u : Transfer P} (saved : t.saved = u.saved) (receiver : t.receiverPub = u.receiverPub)
    (file : t.file = u.file) (named : t.basename = u.basename) : t = u := by
  have session := session_eq saved receiver
  cases t
  cases u
  simp only at saved receiver file named session
  subst saved receiver file named session
  rfl

def hexId : String := hex t.saved.id.1

def total : Nat := totalChunks t.file.length

def plain (index : Nat) : Bytes := chunk chunkSize index t.file

def nonce (index : Nat) : Bytes := [0, 0, 0, 0] ++ bigEndian 8 index

def aad (index : Nat) : Bytes := t.saved.id.1 ++ bigEndian 8 index ++ bigEndian 8 t.total

def encryption (index : Nat) : Encryption where
  key := t.session.chunkKey
  nonce := nonce index
  plain := t.plain index
  aad := t.aad index

def ciphertext (index : Nat) : Bytes :=
  P.encrypt t.session.chunkKey (nonce index) (t.plain index) (t.aad index)

def record (index : Nat) : Json := chunkRecord P index (t.plain index).length (t.ciphertext index)

/-- What `send` reads and hashes. -/
def plaintext : Bytes := ((List.range t.total).map t.plain).flatten

def members : List (String × Json) :=
  manifestMembers P t.basename t.session (.int t.saved.createdAt) t.file.length t.total
    ((List.range t.total).map t.record) t.plaintext

def manifestBytes : Bytes := canonicalManifestBytes (.obj t.members)

/-- The manifest as the receiver loads it. -/
def loaded : Json := Json.sortKeys (.obj t.members)

theorem session_id : t.session.transferIdHex = t.hexId ∧ t.session.transferId = t.saved.id.1 := by
  obtain ⟨ephemeral, shared, _, _, same⟩ := openSession_json t.opened
  rw [same]
  exact ⟨rfl, rfl⟩

theorem plain_length (index : Nat) : (t.plain index).length ≤ chunkSize := by
  rw [plain, chunk_length]
  exact Nat.min_le_left _ _

/-- The chunks make up the source, and each has a nonce. -/
structure Whole : Prop where
  covers : t.total = chunkCount chunkSize t.file.length
  numbered : t.total < 2 ^ 64

variable {t}

theorem Whole.plaintext_eq (whole : t.Whole) : t.plaintext = t.file := by
  rw [plaintext, whole.covers]
  exact chunks_flatten_all chunkSize_pos t.file

theorem Whole.lt_total (whole : t.Whole) {index : Nat} :
    index < t.total ↔ index * chunkSize < t.file.length := by
  rw [whole.covers]
  exact lt_chunkCount chunkSize_pos

variable (t)

/-- Up to `2 ^ 53` bytes the division of `send` is exact. -/
theorem whole (small : t.file.length < 2 ^ 53) : t.Whole := by
  have covers : t.total = chunkCount chunkSize t.file.length := totalChunks_eq small
  refine ⟨covers, ?_⟩
  by_contra large
  have last : t.total - 1 < t.total := by omega
  have start := (lt_chunkCount chunkSize_pos).mp (last.trans_eq covers)
  have size : 0 < chunkSize := chunkSize_pos
  have := Nat.le_mul_of_pos_right (t.total - 1) size
  omega

/-! ### The manifest read back -/

theorem members_distinct : (t.members.map Prod.fst).Nodup := by
  simp only [members, manifestMembers, List.map_cons, List.map_nil]
  decide

theorem plain_record (index : Nat) : Json.plain (t.record index) = true := rfl

theorem plain_members : Json.plain (.obj t.members) = true := by
  have records : Json.plainItems ((List.range t.total).map t.record) = true := by
    rw [Json.plainItems_eq, List.all_map, List.all_eq_true]
    exact fun index _ => t.plain_record index
  simp [members, manifestMembers, Json.plain, Json.plainMembers, records]

theorem loadBytes_manifest : Json.loadBytes t.manifestBytes = .ok t.loaded :=
  Json.loadBytes_canonical (List.cons_ne_nil _ _) t.plain_members

theorem loaded_item (name : String) {value : Json} (h : Json.lookup name t.members = some value) :
    t.loaded.item name = .ok (Json.sortKeys value) := by
  have found : (Json.obj t.members).item name = .ok value := by
    simp only [Json.item, h]
  rw [loaded, Json.item_sortKeys t.members_distinct, found]
  rfl

theorem loaded_get (name : String) {value : Json} (h : Json.lookup name t.members = some value) :
    t.loaded.get name = .ok (some (Json.sortKeys value)) := by
  rw [loaded, Json.get_sortKeys t.members_distinct, h]
  rfl

theorem record_item (name : String) {value : Json} (index : Nat)
    (h : Json.lookup name [("index", .int index), ("plaintext_len", .int (t.plain index).length),
      ("ciphertext_sha256", .str (P.hexDigest (t.ciphertext index)))] = some value) :
    (Json.sortKeys (t.record index)).item name = .ok (Json.sortKeys value) := by
  have distinct : ([("index", Json.int index), ("plaintext_len", .int (t.plain index).length),
      ("ciphertext_sha256", .str (P.hexDigest (t.ciphertext index)))].map Prod.fst).Nodup := by
    simp only [List.map_cons, List.map_nil]
    decide
  rw [record, chunkRecord, Json.item_sortKeys distinct]
  simp only [Json.item, h]
  rfl

end Transfer

end SecureTransfer.ApproachB
