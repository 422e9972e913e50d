import SecureTransfer.ApproachB.History
import SecureTransfer.ApproachB.Transparent

/-! # Nonces over histories of send runs

A resumed run encrypts under the key of the run that created the state, so the pairs of
key and nonce stay unique exactly as long as it finds, in each chunk that was encrypted
under that key before, the bytes it held then.
-/

namespace SecureTransfer.ApproachB

open Library

def NonceUnique (h : History) : Prop :=
  ∀ e ∈ h.encrypted, ∀ e' ∈ h.encrypted, e.key = e'.key → e.nonce = e'.nonce →
    e.plain = e'.plain ∧ e.aad = e'.aad

/-- What a run that resumes reads is, in every chunk that was encrypted for its transfer
    and its receiver before, what was encrypted. -/
def RereadsEncrypted (P : Primitives) (h : History) (path : String) (args : SendArgs) : Prop :=
  ∀ saved file, Resumes P h path args saved file →
    ∀ e ∈ h.encrypted, ∀ i < 2 ^ 64, ∀ secret ephemeral,
      e.key = deriveChunkKey P secret saved.id.1 ephemeral args.receiverPub.1 →
        e.nonce = Transfer.nonce i → e.plain = chunk chunkSize i file

/-- An encrypt call under a saved state, as far as the state fixes it. -/
def EncryptionOf (P : Primitives) (saved : Saved) (e : Encryption) : Prop :=
  ∃ i < 2 ^ 64, (∃ secret ephemeral receiver,
      e.key = deriveChunkKey P secret saved.id.1 ephemeral receiver) ∧
    e.nonce = Transfer.nonce i ∧
    e.aad = saved.id.1 ++ bigEndian 8 i ++ bigEndian 8 (totalChunks saved.fileSize)

theorem Transfer.encryption_key {P : Primitives} (t : Transfer P) (i : Nat) :
    ∃ secret ephemeral,
      (t.encryption i).key = deriveChunkKey P secret t.saved.id.1 ephemeral t.receiverPub.1 := by
  obtain ⟨ephemeral, shared, _, _, session⟩ := openSession_json t.opened
  simp only [Transfer.encryption, session]
  exact ⟨_, _, rfl⟩

theorem Transfer.encryptionOf {P : Primitives} (t : Transfer P) {i : Nat} (small : i < 2 ^ 64) :
    EncryptionOf P t.saved (t.encryption i) := by
  obtain ⟨secret, ephemeral, key⟩ := t.encryption_key i
  refine ⟨i, small, ⟨secret, ephemeral, _, key⟩, rfl, ?_⟩
  rw [t.sized]
  rfl

/-- Encrypt calls with one key and nonce are for one id and one chunk. -/
theorem EncryptionOf.same {P : Primitives} (hkdf : P.HkdfInjective) {saved saved' : Saved}
    {e e' : Encryption} (of : EncryptionOf P saved e) (of' : EncryptionOf P saved' e')
    (keys : e.key = e'.key) (nonces : e.nonce = e'.nonce) :
    saved.id = saved'.id ∧ (saved = saved' → e.aad = e'.aad) := by
  obtain ⟨i, small, ⟨secret, ephemeral, receiver, key⟩, nonce, aad⟩ := of
  obtain ⟨j, small', ⟨secret', ephemeral', receiver', key'⟩, nonce', aad'⟩ := of'
  rw [key, key'] at keys
  rw [nonce, nonce'] at nonces
  have index : i = j := bigEndian_injective 8 small small' (List.append_cancel_left nonces)
  refine ⟨Subtype.ext (hkdf keys).1, ?_⟩
  intro same
  rw [aad, aad', index, same]

/-- Every encrypt call is under a state that was created, and pairs are unique. -/
structure EncryptedInv (P : Primitives) (h : History) : Prop where
  created : ∀ e ∈ h.encrypted, ∃ saved ∈ h.created, EncryptionOf P saved e
  unique : NonceUnique h

theorem EncryptedInv.start (P : Primitives) : EncryptedInv P History.start where
  created := by simp [History.start]
  unique := by simp [NonceUnique, History.start]

/-- The encrypt calls of one run keep it, for the reason that separates the two cases: a
    new id has no earlier calls, a resumed one only those that were reread. -/
theorem EncryptedInv.sent {P : Primitives} (hkdf : P.HkdfInjective) {h : History} {path : String}
    {args : SendArgs} {β : Type} {w : SenderWorld β} {t : Transfer P} {reached : List Nat}
    (inv : HistoryInv P h) (log : EncryptedInv P h) (fresh : Fresh h args)
    (reread : RereadsEncrypted P h path args) (receiver : t.receiverPub = args.receiverPub)
    (works : Resumes P h path args t.saved t.file ∨
      creates (h.states path) args = some t.saved ∧ t.saved.id = args.freshId)
    (small : ∀ i ∈ reached, i < 2 ^ 64) (encrypted : w.encrypted = reached.map t.encryption) :
    EncryptedInv P (h.after path args w) := by
  have member : t.saved ∈ h.created ++ (creates (h.states path) args).toList := by
    rcases works with resumed | ⟨new, _⟩
    · exact List.mem_append_left _ resumed.created
    · rw [new]
      exact List.mem_append_right _ (List.mem_singleton_self _)
  -- an earlier call with the key and the nonce of a new one
  have old_new : ∀ e ∈ h.encrypted, ∀ i ∈ reached, e.key = (t.encryption i).key →
      e.nonce = (t.encryption i).nonce →
        e.plain = (t.encryption i).plain ∧ e.aad = (t.encryption i).aad := by
    intro e before i at_i keys nonces
    obtain ⟨saved, known, of⟩ := log.created e before
    obtain ⟨ids, aads⟩ := of.same hkdf (t.encryptionOf (small i at_i)) keys nonces
    rcases works with resumed | ⟨_, new⟩
    · have same : saved = t.saved :=
        List.inj_on_of_nodup_map inv.distinct known resumed.created ids
      obtain ⟨secret, ephemeral, key⟩ := t.encryption_key i
      rw [receiver] at key
      exact ⟨reread t.saved t.file resumed e before i (small i at_i) secret ephemeral (keys.trans key)
        nonces, aads same⟩
    · exact absurd (ids.trans new) (fresh saved known)
  refine ⟨?_, ?_⟩
  · intro e inside
    rcases List.mem_append.mp inside with before | new
    · obtain ⟨saved, known, of⟩ := log.created e before
      exact ⟨saved, List.mem_append_left _ known, of⟩
    · rw [encrypted] at new
      obtain ⟨i, at_i, rfl⟩ := List.mem_map.mp new
      exact ⟨t.saved, member, t.encryptionOf (small i at_i)⟩
  · intro e inside e' inside' keys nonces
    simp only [History.after, encrypted] at inside inside'
    rcases List.mem_append.mp inside with before | new <;>
      rcases List.mem_append.mp inside' with before' | new'
    · exact log.unique e before e' before' keys nonces
    · obtain ⟨i, at_i, rfl⟩ := List.mem_map.mp new'
      exact old_new e before i at_i keys nonces
    · obtain ⟨i, at_i, rfl⟩ := List.mem_map.mp new
      obtain ⟨plain, aad⟩ := old_new e' before' i at_i keys.symm nonces.symm
      exact ⟨plain.symm, aad.symm⟩
    · obtain ⟨i, at_i, rfl⟩ := List.mem_map.mp new
      obtain ⟨j, at_j, rfl⟩ := List.mem_map.mp new'
      have index : i = j :=
        bigEndian_injective 8 (small i at_i) (small j at_j) (List.append_cancel_left nonces)
      rw [index]
      exact ⟨rfl, rfl⟩

theorem EncryptedInv.step {P : Primitives} (hkdf : P.HkdfInjective) {h h' : History} {path : String}
    {args : SendArgs} (inv : HistoryInv P h) (log : EncryptedInv P h) (step : SendStep P h path args h')
    (reread : RereadsEncrypted P h path args) : EncryptedInv P h' := by
  obtain ⟨fresh, β, broker, b, rfl⟩ := step
  obtain ⟨saved, persisted, known⟩ := inv.persisted path
  -- a run that encrypts nothing
  have idle : ∀ w : SenderWorld β, w.encrypted = [] → EncryptedInv P (h.after path args w) := by
    intro w nothing
    have same : (h.after path args w).encrypted = h.encrypted := by
      simp only [History.after, nothing, List.append_nil]
    refine ⟨?_, ?_⟩
    · rw [same]
      intro e before
      obtain ⟨saved, member, of⟩ := log.created e before
      exact ⟨saved, List.mem_append_left _ member, of⟩
    · rw [NonceUnique, same]
      exact log.unique
  cases source : args.file with
  | none =>
      apply idle _
      simp only [send, source, Prog.pure_run, History.world]
  | some file =>
      cases run : send P broker args (h.world path b) with
      | mk r w =>
          simp only [send, source] at run
          rcases sendFile_cases persisted run with ⟨rfl, _⟩ |
            ⟨t, saves, receiver, reads, _, reached, signs, returns, sent, _⟩
          · exact idle _ rfl
          · refine EncryptedInv.sent hkdf inv log fresh reread receiver ?_
              (fun i at_i => (sent.small i at_i).1) sent.encrypted
            rw [saves, reads]
            rcases HistoryInv.works source persisted known with ⟨resumed, _⟩ | ⟨own, new⟩
            · exact .inl resumed
            · rw [own]
              exact .inr ⟨new, rfl⟩

/-- **Nonce discipline.** Over every history whose resumed runs find the chunks that were
    encrypted before unchanged, no key and nonce encrypt two different chunks. -/
theorem nonces_unique (P : Primitives) (hkdf : P.HkdfInjective) (h : History)
    (run : Relation.ReflTransGen (fun a b => ∃ path args, SendStep P a path args b ∧
      RereadsEncrypted P a path args) History.start h) : NonceUnique h := by
  have step : Preserves (fun a b => ∃ path args, SendStep P a path args b ∧ RereadsEncrypted P a path args)
      fun h => HistoryInv P h ∧ EncryptedInv P h := by
    intro a b inv taken
    obtain ⟨path, args, step, reread⟩ := taken
    exact ⟨inv.1.step step, inv.2.step hkdf inv.1 step reread⟩
  exact (step.run ⟨HistoryInv.start P, EncryptedInv.start P⟩ run).2.unique

/-! ## An edited source -/

/-- A broker that lists nothing and drops every upload. -/
def refusing : Broker Unit where
  list _ := fun b => (.ok [], b)
  get _ := fun b => (.ok none, b)
  put _ _ := fun b => (.error "broker unreachable after 5 attempts", b)

/-- Against it a run encrypts its first chunk and keeps its state. -/
theorem refused_run {P : Primitives} (args : SendArgs) (saved : Option Saved) (t : Transfer P)
    {w : SenderWorld Unit} (persisted : w.state = saved.map (·.bytes P))
    (chose : t.saved = chosen saved args t.file.length) (receiver : t.receiverPub = args.receiverPub)
    (some_chunk : 0 < t.total) (few : t.total < 2 ^ 64) :
    (sendFile P refusing args t.file w).2 =
      { w with
        state := some (t.saved.bytes P)
        encrypted := w.encrypted ++ [t.encryption 0] } := by
  rw [sendFile_first_put_fails args saved t persisted chose receiver some_chunk few
    (show refusing.list _ w.broker = (.ok [], ()) from rfl)
    (show refusing.put _ _ () = (.error "broker unreachable after 5 attempts", ()) from rfl)]

/-- Two runs on one path, each refused its first chunk. The source of the second has as many bytes
    as that of the first. -/
theorem refused_twice {P : Primitives} (one two : SendArgs) (t u : Transfer P) (path : String)
    (first : one.file = some t.file) (second : two.file = some u.file)
    (fresh : t.saved = one.fresh t.file.length) (kept : u.saved = t.saved)
    (receiver : t.receiverPub = one.receiverPub) (receiver' : u.receiverPub = two.receiverPub)
    (ids : one.freshId ≠ two.freshId) (size : u.file.length = t.file.length)
    (some_chunk : 0 < t.total) (few : t.total < 2 ^ 64) :
    ∃ h h', SendStep P History.start path one h ∧ SendStep P h path two h' ∧
      Resumes P h path two t.saved u.file ∧ h.encrypted = [t.encryption 0] ∧
      h'.encrypted = [t.encryption 0, u.encryption 0] := by
  have totals : u.total = t.total := by rw [Transfer.total, size, Transfer.total]
  have chose : u.saved = chosen (some t.saved) two u.file.length := by
    rw [kept]
    exact (if_pos (t.sized.trans size.symm)).symm
  have run₁ := refused_run one none t (w := ⟨(), none, [], []⟩) rfl fresh receiver some_chunk few
  have run₂ := refused_run two (some t.saved) u (w := ⟨(), some (t.saved.bytes P), [], []⟩)
    rfl chose receiver' (totals ▸ some_chunk) (totals ▸ few)
  have sent₁ : (send P refusing one (History.start.world path ())).2 =
      ⟨(), some (t.saved.bytes P), [t.encryption 0], []⟩ := by
    simp only [send, first]
    exact run₁
  let w₁ : SenderWorld Unit := ⟨(), some (t.saved.bytes P), [t.encryption 0], []⟩
  let h₁ := History.start.after path one w₁
  have world₁ : h₁.world path () = ⟨(), some (t.saved.bytes P), [], []⟩ := by
    simp only [h₁, w₁, History.world, History.after, Function.update_self]
  have log₁ : h₁.encrypted = [t.encryption 0] := rfl
  have sent₂ : (send P refusing two (h₁.world path ())).2 =
      ⟨(), some (u.saved.bytes P), [u.encryption 0], []⟩ := by
    rw [world₁]
    simp only [send, second]
    exact run₂
  let w₂ : SenderWorld Unit := ⟨(), some (u.saved.bytes P), [u.encryption 0], []⟩
  refine ⟨h₁, h₁.after path two w₂, ⟨?_, Unit, refusing, (), by rw [sent₁]⟩,
    ⟨?_, Unit, refusing, (), by rw [sent₂]⟩, ⟨second, ?_, ?_, t.sized.trans size.symm⟩, log₁, ?_⟩
  · intro c member
    cases member
  · intro c member
    simp only [h₁, History.after, History.start, List.nil_append] at member
    rw [creates_id member]
    exact ids
  · simp only [h₁, History.after, History.start, creates, first, resumes, fresh]
    exact List.mem_singleton_self _
  · simp only [h₁, w₁, History.after, Function.update_self]
  · simp only [History.after, log₁, w₂, List.singleton_append]

/-- A run is refused its only chunk, and the next one resumes it and encrypts the chunk again. -/
theorem nonces_unique_oneByte :
    ∃ (h h' : History) (e : Encryption) (args : SendArgs) (saved : Saved) (file : Bytes),
      Resumes (transparent fun _ _ => true) h "source" args saved file ∧
      SendStep (transparent fun _ _ => true) h "source" args h' ∧ h'.encrypted = [e, e] ∧ NonceUnique h' := by
  let one := oneByte 1 ⟨List.replicate 16 0, rfl⟩
  let two := oneByte 1 ⟨List.replicate 16 1, rfl⟩
  obtain ⟨t, saved, receiver, file, _, total⟩ :=
    oneByte_transfer (fun _ _ => true) 1 ⟨List.replicate 16 0, rfl⟩
  have source : two.file = some t.file := by
    rw [file]
    rfl
  obtain ⟨h, h', first, second, resumes, log, log'⟩ := refused_twice one two t t "source" (by rw [file]; rfl) source
    (by rw [saved, file]; rfl) rfl receiver receiver (by decide) rfl (by rw [total]; decide)
    (by rw [total]; decide)
  have nothing : RereadsEncrypted (transparent fun _ _ => true) History.start "source" one := by
    intro saved file resumed
    cases resumed.created
  -- the byte that was encrypted before is the byte that is read again
  have reread : RereadsEncrypted (transparent fun _ _ => true) h "source" two := by
    intro saved' file' resumed e before i small secret ephemeral _ nonce
    rw [log, List.mem_singleton] at before
    obtain rfl : i = 0 := bigEndian_injective 8 small (by decide)
      (List.append_cancel_left (nonce.symm.trans (congrArg Encryption.nonce before)))
    have same : file' = t.file := Option.some.inj (resumed.source.symm.trans source)
    rw [before, same]
    rfl
  exact ⟨h, h', t.encryption 0, two, t.saved, t.file, resumes, second, log', nonces_unique
    (transparent fun _ _ => true) (transparent_hkdf _) h' (.tail (.single ⟨_, _, first, nothing⟩)
      ⟨_, _, second, reread⟩)⟩

/-- A source of one byte, `01` in the first run and `02` in the second: both bytes are
    encrypted under one key and nonce. -/
theorem nonces_repeat_after_edit :
    (transparent fun _ _ => true).HkdfInjective ∧
      ¬ ∀ h, Relation.ReflTransGen
          (fun a b => ∃ path args, SendStep (transparent fun _ _ => true) a path args b)
          History.start h → NonceUnique h := by
  refine ⟨transparent_hkdf _, fun claim => ?_⟩
  let one := oneByte 1 ⟨List.replicate 16 0, rfl⟩
  let two := oneByte 2 ⟨List.replicate 16 1, rfl⟩
  obtain ⟨t, saved, receiver, file, _, total⟩ :=
    oneByte_transfer (fun _ _ => true) 1 ⟨List.replicate 16 0, rfl⟩
  obtain ⟨u, saved', receiver', file', _, _⟩ :=
    oneByte_transfer (fun _ _ => true) 2 ⟨List.replicate 16 0, rfl⟩
  obtain ⟨_, h, first, second, _, _, log⟩ := refused_twice one two t u "source" (by rw [file]; rfl)
    (by rw [file']; rfl) (by rw [saved, file]; rfl) (saved'.trans saved.symm) receiver receiver'
    (by decide) (by rw [file, file']; rfl) (by rw [total]; decide) (by rw [total]; decide)
  have both := claim h (.tail (.single ⟨_, _, first⟩) ⟨_, _, second⟩) (t.encryption 0) (by rw [log]; simp)
    (u.encryption 0) (by rw [log]; simp)
    (congrArg Session.chunkKey
      (Transfer.session_eq (saved.trans saved'.symm) (receiver.trans receiver'.symm))) rfl
  have differ : t.plain 0 = u.plain 0 := both.1
  rw [Transfer.plain, Transfer.plain, file, file'] at differ
  exact absurd differ (by decide)

end SecureTransfer.ApproachB
