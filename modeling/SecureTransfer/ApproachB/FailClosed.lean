import SecureTransfer.ApproachB.Recovery
import SecureTransfer.ApproachB.Published

/-! # Fail closed

Whatever the broker replies and whatever the local files hold, a run promotes only what
a verified manifest describes. If `send` signed that manifest, it is the source it read.
-/

namespace SecureTransfer.ApproachB

open Library

variable {P : Primitives} {β : Type} {broker : Broker β} {args : Args}

/-- The message is no forgery: with a signature that verifies, a run of the history signed it. -/
def OnlySendSigns (P : Primitives) (verifyKey signature message : Bytes) (h : History) : Prop :=
  P.verify verifyKey signature message = true → ∃ file, (message, file) ∈ h.signed

/-- What the runs of the history hashed for the manifests they signed. -/
def Hashed (P : Primitives) (h : History) (data : Bytes) : Prop :=
  ∃ t : Transfer P, (t.manifestBytes, t.file) ∈ h.signed ∧ data = t.plaintext

theorem Transfer.plaintext_take (t : Transfer P) : t.plaintext = t.file.take (t.total * chunkSize) :=
  chunks_flatten chunkSize t.total t.file

/-- A manifest that `send` signed describes the source it read. -/
theorem Matches.source {t : Transfer P} {content : Bytes} (h : Matches P t.loaded content)
    (same_digest : P.sha256.digest content = P.sha256.digest t.plaintext → content = t.plaintext) :
    content = t.file := by
  obtain ⟨⟨size, item, sized⟩, digest⟩ := h
  have size_item : t.loaded.item "file_size" = .ok (.int t.file.length) := t.loaded_item "file_size" rfl
  have digest_item : t.loaded.item "plaintext_sha256" = .ok (.str (P.hexDigest t.plaintext)) :=
    t.loaded_item "plaintext_sha256" rfl
  rw [size_item] at item
  cases item
  rw [digest_item] at digest
  have length : content.length = t.file.length := by
    have equal := (Json.eqInt_int _ _).mp sized
    exact_mod_cast equal.symm
  have hashed : P.hexDigest t.plaintext = P.hexDigest content := Json.str.inj (Except.ok.inj digest)
  have plaintext := same_digest (hex_injective hashed).symm
  -- a source that was read in part would be longer than what was hashed
  rw [plaintext, t.plaintext_take, List.take_eq_self_iff]
  rw [plaintext, t.plaintext_take, List.length_take] at length
  omega

theorem signed_source {h : History} (reached : Relation.ReflTransGen
      (fun a b => ∃ path args, SendStep P a path args b) History.start h)
    {keys : KeysDir} {transferIdHex : String} {manifestBytes file : Bytes} {manifest : Json}
    {content : Bytes} (member : (manifestBytes, file) ∈ h.signed)
    (authentic : Authentic P keys transferIdHex manifestBytes manifest) (fits : Matches P manifest content)
    (collision_free : Set.InjOn P.sha256.digest {data | data = content ∨ Hashed P h data}) :
    (manifestBytes, content) ∈ h.signed := by
  have step : Preserves (fun a b => ∃ path args, SendStep P a path args b) (HistoryInv P) := by
    rintro a b inv ⟨path, args, step⟩
    exact inv.step step
  have inv := step.run (HistoryInv.start P) reached
  obtain ⟨t, entry⟩ := inv.signed _ member
  cases entry
  have loads := authentic.loads
  rw [t.loadBytes_manifest] at loads
  cases loads
  rw [fits.source fun same => collision_free (.inl rfl) (.inr ⟨t, member, rfl⟩) same]
  exact member

/-- **Fail closed.** A run that raises before it promotes leaves `--out` as it was. Any
    other replaces it with what the manifest it fetched under the resolved id describes, which
    is the source that `send` read if the pair it verified is no forgery and there is no
    collision. -/
theorem receive_fail_closed {w w' : World β} {r : Except Raised Int}
    (run : receive P broker args w = (r, w')) :
    ((∃ e, r = .error e) ∧ w'.out = w.out) ∨
      ∃ transferIdHex manifestBytes signature manifest content w₁,
        resolveTransferId broker args.transferId w = (.ok transferIdHex, w₁) ∧
        Fetches broker transferIdHex w₁.broker manifestBytes signature ∧
        P.verify args.senderVerify signature manifestBytes = true ∧
        Authentic P args.toKeysDir transferIdHex manifestBytes manifest ∧ Matches P manifest content ∧
        w'.out = some content ∧
        ∀ h, Relation.ReflTransGen (fun a b => ∃ path args, SendStep P a path args b) History.start h →
          OnlySendSigns P args.senderVerify signature manifestBytes h →
          Set.InjOn P.sha256.digest {data | data = content ∨ Hashed P h data} →
          (manifestBytes, content) ∈ h.signed := by
  rcases receive_cases run with ⟨e, failed, rfl⟩ | ⟨manifest, plan, w₁, passed, run⟩
  · exact .inl ⟨⟨e, rfl⟩, (download_keepsDelivered.run failed).1⟩
  · obtain ⟨⟨w₂, manifestBytes, signature, resolved, fetched, verifies, made⟩, _, content, part, fits⟩ :=
      download_ok passed
    obtain ⟨⟨ledger, rfl, _⟩, _⟩ := complete_cases run
    refine .inr ⟨plan.transferIdHex, manifestBytes, signature, manifest, content, w₂, resolved, fetched,
      verifies, made.authentic, fits, part, fun h reached only collision_free => ?_⟩
    obtain ⟨file, member⟩ := only verifies
    exact signed_source reached member made.authentic fits collision_free

/-- A first run that is served signs the manifest of its transfer. -/
theorem served_signs (args : SendArgs) (t : Transfer P) (path : String) (source : args.file = some t.file)
    (fresh : t.saved = args.fresh t.file.length) (receiver : t.receiverPub = args.receiverPub)
    (named : t.basename = args.basename) (numbered : t.total < 2 ^ 64) :
    ∃ h, SendStep P History.start path args h ∧ h.signed = [(t.manifestBytes, t.file)] := by
  obtain ⟨w, run⟩ := sendFile_served t numbered none
    (w := History.start.world path (Storage.empty, [])) rfl fresh receiver rfl
  have sent : send P storeBroker args (History.start.world path (Storage.empty, [])) = (.ok 0, w) := by
    simp only [send, source]
    exact run
  refine ⟨History.start.after path args w, ⟨List.forall_mem_nil _, _, storeBroker, _, by rw [sent]⟩, ?_⟩
  have nothing : (History.start.world path (Storage.empty, ([] : List Outcome))).state =
      (none : Option Saved).map (·.bytes P) := rfl
  rcases sendFile_cases nothing run with ⟨_, failed⟩ |
    ⟨u, saves, receiver', file, named', _, signs, returns, did, ok, both⟩
  · exact absurd rfl failed
  · have same : u = t := Transfer.ext_data (saves.trans fresh.symm) (receiver'.trans receiver.symm) file
      (named'.trans named.symm)
    have signed := did.signed
    rw [both (ok.mp rfl), if_pos rfl, same] at signed
    simp only [History.after, signed, source]
    rfl

/-- A one-byte source, stored and received under a key whose signatures verify. -/
theorem receive_fail_closed_oneByte :
    ∃ (store : Storage) (transferIdHex : String) (w : World (List Outcome)) (h : History)
        (manifestBytes signature : Bytes),
      (transparent fun _ _ => true).SignsFor ∧
      receive (transparent fun _ _ => true) (shelf store) (transparentReceiver transferIdHex)
        { out := none, part := none, progress := none, ledger := none, broker := [] } = (.ok 0, w) ∧
      Fetches (shelf store) transferIdHex [] manifestBytes signature ∧
      (transparent fun _ _ => true).verify [] signature manifestBytes = true ∧
      (manifestBytes, [1]) ∈ h.signed ∧ w.out = some [1] := by
  obtain ⟨t, saved, receiver, file, named, total⟩ :=
    oneByte_transfer (fun _ _ => true) 1 ⟨List.replicate 16 0, rfl⟩
  obtain ⟨whole, store, complete⟩ := transparent_stored (t := t) (by simp [file])
  obtain ⟨h, step, signed⟩ := served_signs (oneByte 1 ⟨List.replicate 16 0, rfl⟩) t "source"
    (congrArg some file.symm) (saved.trans (by rw [file]; rfl)) receiver named whole.numbered
  have accepted := transparent_accepted (t := t) (congrArg Saved.createdAt saved) receiver rfl
    Recorded.missing List.not_mem_nil
  let w₀ : World (List Outcome) :=
    { out := none, part := none, progress := none, ledger := none, broker := [] }
  obtain ⟨w, run, promoted⟩ := delivers_of_recoverable (transparent_agreement _)
    (complete.serves whole.numbered) (transparent_opens _) whole (w := w₀) rfl accepted Recorded.missing
    ⟨[], rfl, .inl rfl⟩
  rcases receive_fail_closed run with ⟨⟨e, failed⟩, _⟩ |
    ⟨_, manifestBytes, signature, _, content, w₁, resolved, fetched, verifies, _, _, out, source⟩
  · cases failed
  · rw [resolveTransferId_given accepted.asked] at resolved
    cases resolved
    -- the manifest that was fetched is the one that was signed
    have same : manifestBytes = t.manifestBytes := by
      obtain ⟨b, _, reply, _⟩ := fetched
      exact (complete.unaltered whole.numbered).manifest _ _ b reply
    have only : OnlySendSigns (transparent fun _ _ => true) [] signature manifestBytes h := fun _ =>
      ⟨t.file, by rw [signed, same]; exact List.mem_singleton_self _⟩
    have byte : content = [1] := Option.some.inj (out.symm.trans (promoted.trans (congrArg some file)))
    subst byte
    -- one plaintext was hashed, so there is nothing to collide with
    have alone : ∀ data, data = [1] ∨ Hashed (transparent fun _ _ => true) h data → data = [1] := by
      rintro data (rfl | ⟨u, member, rfl⟩)
      · rfl
      · rw [signed, List.mem_singleton] at member
        have source' : u.file = [1] := (Prod.mk.inj member).2.trans file
        rw [(u.whole (by simp [source'])).plaintext_eq, source']
    refine ⟨store, t.hexId, w, h, manifestBytes, signature, transparent_signsFor, run, fetched, verifies, ?_,
      out⟩
    exact source h (.single ⟨_, _, step⟩) only fun a inside b inside' _ =>
      (alone a inside).trans (alone b inside').symm

end SecureTransfer.ApproachB
