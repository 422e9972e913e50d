import SecureTransfer.ApproachB.Transfer

/-! # Runs of the sender

Against any broker, a run works on one transfer: it encrypts an initial part of its
chunks, signs at most its manifest, and leaves its state file in place unless it
returns.
-/

namespace SecureTransfer.ApproachB

open Library

variable {P : Primitives} {β : Type}

theorem putMissing_cases {broker : Broker β} {already : List String} {key : String} {ct : Bytes}
    {w w' : SenderWorld β} {r : Except Raised Unit}
    (run : putMissing broker already key ct w = (r, w')) : ∃ b, w' = { w with broker := b } := by
  unfold putMissing at run
  split at run
  · cases run
    exact ⟨w.broker, rfl⟩
  · obtain ⟨b, same, _⟩ := callBroker_cases run
    exact ⟨b, same⟩

/-- The chunks a run reached are encrypted as the transfer says, whatever was uploaded. -/
theorem uploadChunks_cases (t : Transfer P) (broker : Broker β) (already : List String)
    {indices : List Nat} {w w' : SenderWorld β} {r : Except Raised (List Json × Bytes)}
    (run : uploadChunks P broker t.session t.file t.total already indices w = (r, w')) :
    ∃ reached b, reached <+: indices ∧ (∀ i ∈ reached, i < 2 ^ 64 ∧ t.total < 2 ^ 64) ∧
      w' = { w with broker := b, encrypted := w.encrypted ++ reached.map t.encryption } ∧
      ∀ out, r = .ok out → reached = indices ∧
        out = (indices.map t.record, (indices.map t.plain).flatten) := by
  induction indices generalizing w w' r with
  | nil =>
      cases run
      exact ⟨[], w.broker, List.prefix_rfl, by simp, by simp, by simp⟩
  | cons index rest ih =>
      rw [uploadChunks] at run
      rcases python_bind run with ⟨e, _, rfl, rfl⟩ | ⟨nonce, counter, run⟩
      · exact ⟨[], w'.broker, List.nil_prefix, by simp, by simp, by simp⟩
      rcases python_bind run with ⟨e, _, rfl, rfl⟩ | ⟨aad, bound, run⟩
      · exact ⟨[], w'.broker, List.nil_prefix, by simp, by simp, by simp⟩
      obtain ⟨small, rfl⟩ := chunkNonce_ok counter
      obtain ⟨_, few, rfl⟩ := chunkAad_ok bound
      rw [Prog.bind_ok (Prog.update_run _ _)] at run
      have first : (⟨t.session.chunkKey, [0, 0, 0, 0] ++ bigEndian 8 index,
          chunk chunkSize index t.file, t.session.transferId ++ bigEndian 8 index ++
            bigEndian 8 t.total⟩ : Encryption) = t.encryption index := by
        rw [t.session_id.2]
        rfl
      rw [first] at run
      have bounds : ∀ i ∈ [index], i < 2 ^ 64 ∧ t.total < 2 ^ 64 := by
        intro i member
        rw [List.mem_singleton.mp member]
        exact ⟨small, few⟩
      rcases Prog.bind_cases run with ⟨e, put, rfl⟩ | ⟨_, w₁, put, run⟩
      · obtain ⟨b, rfl⟩ := putMissing_cases put
        exact ⟨[index], b, ⟨rest, rfl⟩, bounds, rfl, by simp⟩
      obtain ⟨b, rfl⟩ := putMissing_cases put
      rcases Prog.bind_cases run with ⟨e, later, rfl⟩ | ⟨out, w₂, later, run⟩
      · obtain ⟨reached, b', start, small', rfl, _⟩ := ih later
        refine ⟨index :: reached, b', List.prefix_cons_inj index |>.mpr start, ?_, ?_, by simp⟩
        · intro i member
          rcases List.mem_cons.mp member with rfl | member
          · exact ⟨small, few⟩
          · exact small' i member
        · simp
      · obtain ⟨reached, b', start, small', rfl, whole⟩ := ih later
        obtain ⟨rfl, rfl⟩ := whole out rfl
        cases run
        refine ⟨index :: reached, b', List.prefix_rfl, ?_, ?_, ?_⟩
        · intro i member
          rcases List.mem_cons.mp member with rfl | member
          · exact ⟨small, few⟩
          · exact small' i member
        · simp
        · intro out same
          cases same
          refine ⟨rfl, ?_⟩
          rw [List.map_cons, List.map_cons, List.flatten_cons, t.session_id.2]
          rfl

theorem publish_cases {broker : Broker β} {args : SendArgs} {transferIdHex : String} {manifest : Json}
    {w w' : SenderWorld β} {r : Except Raised Unit}
    (run : publish P broker args transferIdHex manifest w = (r, w')) :
    ∃ b, w' = { w with broker := b, signed := w.signed ++ [canonicalManifestBytes manifest] } := by
  rw [publish, Prog.bind_ok (Prog.update_run _ _)] at run
  rcases Prog.bind_cases run with ⟨e, put, _⟩ | ⟨_, w₁, put, run⟩
  · obtain ⟨b, rfl, _⟩ := callBroker_cases put
    exact ⟨b, rfl⟩
  · obtain ⟨b, rfl, _⟩ := callBroker_cases put
    obtain ⟨b', rfl, _⟩ := callBroker_cases run
    exact ⟨b', rfl⟩

/-! ## How a run ends -/

/-- The parts of a run on `t`, as far as it got. -/
inductive SendEnds (broker : Broker β) (args : SendArgs) (t : Transfer P) (w : SenderWorld β) :
    Except Raised Int → SenderWorld β → Prop where
  | listing {e : Raised} {w₁ : SenderWorld β}
      (list : onSenderBroker (broker.list (t.hexId ++ "/")) { w with state := some (t.saved.bytes P) } =
        (.error e, w₁)) : SendEnds broker args t w (.error e) w₁
  | uploading {already : List String} {e : Raised} {w₁ w₂ : SenderWorld β}
      (list : onSenderBroker (broker.list (t.hexId ++ "/")) { w with state := some (t.saved.bytes P) } =
        (.ok already, w₁))
      (upload : uploadChunks P broker t.session t.file t.total already (List.range t.total) w₁ =
        (.error e, w₂)) : SendEnds broker args t w (.error e) w₂
  | publishing {already : List String} {out : List Json × Bytes} {e : Raised} {w₁ w₂ w₃ : SenderWorld β}
      (list : onSenderBroker (broker.list (t.hexId ++ "/")) { w with state := some (t.saved.bytes P) } =
        (.ok already, w₁))
      (upload : uploadChunks P broker t.session t.file t.total already (List.range t.total) w₁ = (.ok out, w₂))
      (publish : publish P broker args t.hexId (.obj t.members) w₂ = (.error e, w₃)) :
      SendEnds broker args t w (.error e) w₃
  | returning {already : List String} {out : List Json × Bytes} {w₁ w₂ w₃ : SenderWorld β}
      (list : onSenderBroker (broker.list (t.hexId ++ "/")) { w with state := some (t.saved.bytes P) } =
        (.ok already, w₁))
      (upload : uploadChunks P broker t.session t.file t.total already (List.range t.total) w₁ = (.ok out, w₂))
      (publish : publish P broker args t.hexId (.obj t.members) w₂ = (.ok (), w₃)) :
      SendEnds broker args t w (.ok 0) { w₃ with state := none }

/-- A run on `t` goes through its parts in order. -/
theorem sendFile_ends (t : Transfer P) {broker : Broker β} {args : SendArgs} {saved : Option Saved}
    {w w' : SenderWorld β} {r : Except Raised Int} (persisted : w.state = saved.map (·.bytes P))
    (chose : t.saved = chosen saved args t.file.length) (receiver : t.receiverPub = args.receiverPub)
    (named : t.basename = args.basename) (run : sendFile P broker args t.file w = (r, w')) :
    SendEnds broker args t w r w' := by
  have opened := t.opened
  rw [receiver, chose] at opened
  rw [sendFile, Prog.bind_ok (loadOrCreateState_run P args t.file.length saved persisted),
    Prog.bind_ok (python_run_ok opened _), ← chose, t.session_id.1] at run
  rcases Prog.bind_cases run with ⟨e, list, rfl⟩ | ⟨already, w₁, list, run⟩
  · exact .listing list
  rcases Prog.bind_cases run with ⟨e, upload, rfl⟩ | ⟨out, w₂, upload, run⟩
  · exact .uploading list upload
  obtain ⟨_, _, _, _, _, whole⟩ := uploadChunks_cases t broker already upload
  obtain ⟨_, rfl⟩ := whole out rfl
  have created : (t.saved.json P).item "created_at" = .ok (.int t.saved.createdAt) := rfl
  rw [created, Prog.bind_ok (python_ok _ _), ← named] at run
  rcases Prog.bind_cases run with ⟨e, publish, rfl⟩ | ⟨_, w₃, publish, run⟩
  · exact .publishing list upload publish
  · cases run
    exact .returning list upload publish

/-- A run works on the transfer of the state it chose, or fails on its key material. -/
theorem sendFile_works {broker : Broker β} {args : SendArgs} {file : Bytes} {saved : Option Saved}
    {w w' : SenderWorld β} {r : Except Raised Int} (persisted : w.state = saved.map (·.bytes P))
    (run : sendFile P broker args file w = (r, w')) :
    (w' = { w with state := some ((chosen saved args file.length).bytes P) } ∧ r ≠ .ok 0) ∨
    ∃ t : Transfer P, t.saved = chosen saved args file.length ∧ t.receiverPub = args.receiverPub ∧
      t.file = file ∧ t.basename = args.basename ∧ SendEnds broker args t w r w' := by
  cases opened : openSession P args.receiverPub ((chosen saved args file.length).json P) with
  | error e =>
      rw [sendFile, Prog.bind_ok (loadOrCreateState_run P args file.length saved persisted), opened] at run
      cases run
      exact .inl ⟨rfl, by simp⟩
  | ok session =>
      let t : Transfer P := {
        saved := chosen saved args file.length
        receiverPub := args.receiverPub
        file := file
        basename := args.basename
        session := session
        opened := opened
        sized := chosen_fileSize saved args file.length }
      exact .inr ⟨t, rfl, rfl, rfl, rfl, sendFile_ends t persisted rfl rfl rfl run⟩

/-- What a run on transfer `t` did: the chunks it encrypted, whether it signed, and
    whether it dropped the state file. -/
structure Sent (t : Transfer P) (reached : List Nat) (signs returns : Bool) (w w' : SenderWorld β) :
    Prop where
  inside : reached <+: List.range t.total
  small : ∀ i ∈ reached, i < 2 ^ 64 ∧ t.total < 2 ^ 64
  all_first : signs = true → reached = List.range t.total
  state : w'.state = if returns then none else some (t.saved.bytes P)
  encrypted : w'.encrypted = w.encrypted ++ reached.map t.encryption
  signed : w'.signed = w.signed ++ if signs then [t.manifestBytes] else []

/-- The chunks of a manifest that was signed are numbered in eight bytes. -/
theorem Sent.numbered {t : Transfer P} {reached : List Nat} {signs returns : Bool} {w w' : SenderWorld β}
    (sent : Sent t reached signs returns w w') (signed : signs = true) : t.total < 2 ^ 64 := by
  by_cases none_read : t.total = 0
  · omega
  · have first : 0 ∈ reached := by
      rw [sent.all_first signed, List.mem_range]
      omega
    exact (sent.small 0 first).2

theorem SendEnds.sent {broker : Broker β} {args : SendArgs} {t : Transfer P} {w w' : SenderWorld β}
    {r : Except Raised Int} (ends : SendEnds broker args t w r w') :
    ∃ reached signs returns, Sent t reached signs returns w w' ∧
      (r = .ok 0 ↔ returns = true) ∧ (returns = true → signs = true) := by
  cases ends with
  | listing list =>
      obtain ⟨b, rfl, _⟩ := callBroker_cases list
      exact ⟨[], false, false, ⟨List.nil_prefix, by simp, by simp, rfl, by simp, by simp⟩, by simp, by simp⟩
  | uploading list upload =>
      obtain ⟨b, rfl, _⟩ := callBroker_cases list
      obtain ⟨reached, b', start, small, rfl, _⟩ := uploadChunks_cases t broker _ upload
      exact ⟨reached, false, false, ⟨start, small, by simp, rfl, rfl, by simp⟩, by simp, by simp⟩
  | publishing list upload publish =>
      obtain ⟨b, rfl, _⟩ := callBroker_cases list
      obtain ⟨reached, b', start, small, rfl, whole⟩ := uploadChunks_cases t broker _ upload
      obtain ⟨b'', rfl⟩ := publish_cases publish
      exact ⟨reached, true, false, ⟨start, small, fun _ => (whole _ rfl).1, rfl, rfl, rfl⟩, by simp, by simp⟩
  | returning list upload publish =>
      obtain ⟨b, rfl, _⟩ := callBroker_cases list
      obtain ⟨reached, b', start, small, rfl, whole⟩ := uploadChunks_cases t broker _ upload
      obtain ⟨b'', rfl⟩ := publish_cases publish
      exact ⟨reached, true, true, ⟨start, small, fun _ => (whole _ rfl).1, rfl, rfl, rfl⟩, by simp, by simp⟩

theorem sendFile_cases {broker : Broker β} {args : SendArgs} {file : Bytes} {saved : Option Saved}
    {w w' : SenderWorld β} {r : Except Raised Int} (persisted : w.state = saved.map (·.bytes P))
    (run : sendFile P broker args file w = (r, w')) :
    (w' = { w with state := some ((chosen saved args file.length).bytes P) } ∧ r ≠ .ok 0) ∨
    ∃ t : Transfer P, t.saved = chosen saved args file.length ∧ t.receiverPub = args.receiverPub ∧
      t.file = file ∧ t.basename = args.basename ∧
      ∃ reached signs returns, Sent t reached signs returns w w' ∧
        (r = .ok 0 ↔ returns = true) ∧ (returns = true → signs = true) := by
  rcases sendFile_works persisted run with failed | ⟨t, saves, receiver, reads, named, ends⟩
  · exact .inl failed
  · exact .inr ⟨t, saves, receiver, reads, named, ends.sent⟩

/-- A run signs manifests of its source only. -/
theorem send_signs {broker : Broker β} {args : SendArgs} {saved : Option Saved} {w w' : SenderWorld β}
    {r : Except Raised Int} (persisted : w.state = saved.map (·.bytes P))
    (run : send P broker args w = (r, w')) :
    ∃ messages, w'.signed = w.signed ++ messages ∧ ∀ message ∈ messages,
      ∃ t : Transfer P, message = t.manifestBytes ∧ args.file = some t.file ∧ t.total < 2 ^ 64 := by
  cases source : args.file with
  | none =>
      simp only [send, source] at run
      cases run
      exact ⟨[], (List.append_nil _).symm, nofun⟩
  | some file =>
      simp only [send, source] at run
      rcases sendFile_cases persisted run with ⟨rfl, _⟩ | ⟨t, _, _, reads, _, reached, signs, returns, sent, _⟩
      · exact ⟨[], (List.append_nil _).symm, nofun⟩
      · refine ⟨_, sent.signed, fun message member => ?_⟩
        cases signs with
        | false => cases member
        | true => exact ⟨t, List.mem_singleton.mp member, by rw [reads], sent.numbered rfl⟩

/-- A run whose first PUT fails has encrypted one chunk and keeps its state. -/
theorem sendFile_first_put_fails {broker : Broker β} (args : SendArgs) (saved : Option Saved)
    (t : Transfer P) {w : SenderWorld β} {b₁ b₂ : β} {message : String}
    (persisted : w.state = saved.map (·.bytes P)) (chose : t.saved = chosen saved args t.file.length)
    (receiver : t.receiverPub = args.receiverPub) (some_chunk : 0 < t.total) (few : t.total < 2 ^ 64)
    (list : broker.list (t.hexId ++ "/") w.broker = (.ok [], b₁))
    (put : broker.put (chunkKey t.hexId 0) (t.ciphertext 0) b₁ = (.error message, b₂)) :
    sendFile P broker args t.file w =
      (.error (.brokerError message),
        { broker := b₂
          state := some (t.saved.bytes P)
          encrypted := w.encrypted ++ [t.encryption 0]
          signed := w.signed }) := by
  have opened := t.opened
  rw [receiver, chose] at opened
  obtain ⟨n, count⟩ : ∃ n, t.total = n + 1 := ⟨t.total - 1, by omega⟩
  have listed : onSenderBroker (broker.list (t.session.transferIdHex ++ "/"))
      { w with state := some (t.saved.bytes P) } =
        (.ok [], { w with broker := b₁, state := some (t.saved.bytes P) }) := by
    rw [t.session_id.1]
    exact callBroker_ok list
  have missing : putMissing broker [] (chunkKey t.hexId 0) (t.ciphertext 0)
      { broker := b₁, state := some (t.saved.bytes P), encrypted := w.encrypted ++ [t.encryption 0],
        signed := w.signed } =
      (.error (.brokerError message),
        { broker := b₂, state := some (t.saved.bytes P), encrypted := w.encrypted ++ [t.encryption 0],
          signed := w.signed }) := by
    rw [putMissing, if_neg List.not_mem_nil]
    exact callBroker_error put
  have first : uploadChunks P broker t.session t.file t.total [] (List.range t.total)
      { w with broker := b₁, state := some (t.saved.bytes P) } =
        (.error (.brokerError message),
          { broker := b₂, state := some (t.saved.bytes P), encrypted := w.encrypted ++ [t.encryption 0],
            signed := w.signed }) := by
    rw [count, List.range_succ_eq_map, uploadChunks, chunkNonce_eq (by decide),
      Prog.bind_ok (python_ok _ _), ← count, chunkAad_eq (by decide) few,
      Prog.bind_ok (python_ok _ _), Prog.bind_ok (Prog.update_run _ _), t.session_id.1, t.session_id.2]
    exact Prog.bind_error missing _
  rw [sendFile, Prog.bind_ok (loadOrCreateState_run P args t.file.length saved persisted),
    Prog.bind_ok (python_run_ok opened _), ← chose, Prog.bind_ok listed]
  exact Prog.bind_error first _

end SecureTransfer.ApproachB
