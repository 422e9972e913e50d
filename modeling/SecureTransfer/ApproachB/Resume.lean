import SecureTransfer.ApproachB.Recovery

/-! # The resume state

Runs for any transfers that share one `--out`. The progress file and the partial file
stay in step as long as a run that turns to another transfer stores its first chunk:
the partial file of the earlier one is gone before, its progress file only after.
-/

namespace SecureTransfer.ApproachB

open Library

variable {P : Primitives} {keys : KeysDir} {β : Type} {broker : Broker β} {args : Args}

/-- `plain` is chunk `index` of a transfer, checked against an authentic manifest. -/
def VerifiedChunk (P : Primitives) (keys : KeysDir) (transferIdHex : String) (index : Nat) (plain : Bytes) :
    Prop :=
  ∃ manifestBytes manifest plan ct, Prepared P keys manifestBytes manifest plan ∧
    plan.transferIdHex = transferIdHex ∧ index < plan.totalChunks ∧ ChunkChecked P plan index ct plain

/-- Every chunk that the progress file lists lies in the partial file. -/
def ResumeConsistent (P : Primitives) (keys : KeysDir) (disk : Disk) : Prop :=
  ∀ transferIdHex done content, loadProgress disk.progress transferIdHex = .ok done →
    disk.part = some content → ∀ i : Nat, Json.contains (.number (i : Int)) done = true →
    ∃ plain, VerifiedChunk P keys transferIdHex i plain ∧ HoldsAt content (i * chunkSize) plain

/-- One run with these keys that ends normally, rejected or disconnected. -/
def ReceiveRun (P : Primitives) (keys : KeysDir) (broker : Broker β) (args : Args) (w : World β) (disk' : Disk) :
    Prop :=
  args.toKeysDir = keys ∧ ∃ r w', receive P broker args w = (r, w') ∧ (∀ e, r ≠ .error (.python e)) ∧
    w'.toDisk = disk'

/-- No record is of a chunk longer than `chunkSize`. -/
def ShortRecords (plan : Plan) : Prop :=
  ∀ i record length, findRecord plan.records i = some record → record.item "plaintext_len" = .ok length →
    ∀ n : Nat, length.eqInt n = true → n ≤ chunkSize

/-- Another transfer than this one has chunks in the progress file. -/
def ListsOther (progress : Option Bytes) (transferIdHex : String) : Prop :=
  ∃ other done, other ≠ transferIdHex ∧ loadProgress progress other = .ok done ∧ done ≠ []

/-- What a run that passes the manifest checks meets: records of short chunks and, when
    another transfer is in the progress file, a first chunk that it can store. -/
structure StoresFirst (P : Primitives) (broker : Broker β) (args : Args) (w : World β) : Prop where
  short : ∀ manifest plan w₁, prepare P broker args w = (.ok (manifest, plan), w₁) → ShortRecords plan
  first : ∀ manifest plan w₁, prepare P broker args w = (.ok (manifest, plan), w₁) →
    ListsOther w.progress plan.transferIdHex → 0 < plan.totalChunks →
    ∃ plain w₂, fetchChunk P broker plan 0 { w₁ with part := some [] } = (.ok plain, w₂)

/-! ## What every run keeps -/

/-- No progress file, or one whose chunks are in place. -/
def ResumeInv (P : Primitives) (keys : KeysDir) (disk : Disk) : Prop :=
  disk.progress = none ∨ ∃ transferIdHex indices content, Names disk.progress transferIdHex indices ∧
    disk.part = some content ∧
    Keeps (fun i plain => VerifiedChunk P keys transferIdHex i plain ∧ plain.length ≤ chunkSize)
      (fun _ => True) indices content

theorem ResumeInv.consistent {disk : Disk} (inv : ResumeInv P keys disk) : ResumeConsistent P keys disk := by
  intro transferIdHex done content loads part i listed
  rcases inv with missing | ⟨named, indices, content', names, part', keeps⟩
  · rw [missing] at loads
    cases loads
    cases listed
  · by_cases same : named = transferIdHex
    · subst same
      obtain ⟨all, loads', members⟩ := names.load
      rw [loads'] at loads
      cases loads
      rw [part'] at part
      cases part
      obtain ⟨plain, ⟨verified, _⟩, held⟩ := keeps.chunks i ((members i).mp (contains_indexList.mp listed))
      exact ⟨plain, verified, held⟩
    · rw [names.load_other same] at loads
      cases loads
      cases listed

theorem sound_verified {manifestBytes : Bytes} {manifest : Json} {plan : Plan}
    (made : Prepared P keys manifestBytes manifest plan) (short : ShortRecords plan) :
    Sound (fun i plain => VerifiedChunk P keys plan.transferIdHex i plain ∧ plain.length ≤ chunkSize)
      (fun _ => True) P broker plan where
  fetched i w w' plain inside run := by
    obtain ⟨ct, checked, _⟩ := fetchChunk_ok run
    obtain ⟨record, found, _, length, item, sized⟩ := checked.record
    exact ⟨⟨manifestBytes, manifest, plan, ct, made, rfl, inside, checked⟩,
      short i record length found item plain.length sized⟩
  small _ _ good := good.2
  write _ _ _ _ _ := trivial

theorem keeps_nothing {Good : Nat → Bytes → Prop} (content : Bytes) : Keeps Good (fun _ => True) [] content :=
  ⟨nofun, trivial⟩

/-- A loop that stops before it has fetched anything stops at chunk 0. -/
theorem StopsFirst.zero {plan : Plan} {total : Nat} {e : Raised} {w w' : World β}
    (stops : StopsFirst P broker plan [] (List.range total) e w w') :
    0 < total ∧ fetchChunk P broker plan 0 w = (.error e, w') := by
  obtain ⟨front, i, rest, split, before, fetch⟩ := stops
  have none_before : front = [] := List.eq_nil_iff_forall_not_mem.mpr fun j member => nomatch before j member
  rw [none_before, List.nil_append] at split
  cases total with
  | zero => cases split
  | succ n =>
      rw [List.range_succ_eq_map] at split
      rw [← (List.cons.inj split).1] at fetch
      exact ⟨Nat.succ_pos n, fetch⟩

/-- A download that finds nothing of its own transfer. -/
theorem ResumeInv.anew {w w₁ w' : World β} {manifest : Json} {plan : Plan} {manifestBytes : Bytes}
    {r : Except Raised (Json × Plan)} (inv : ResumeInv P keys w.toDisk) (stores : StoresFirst P broker args w)
    (prepared : prepare P broker args w = (.ok (manifest, plan), w₁))
    (made : Prepared P keys manifestBytes manifest plan)
    (nothing : loadProgress w₁.progress plan.transferIdHex = .ok (indexList []))
    (run : download P broker args w = (r, w')) : ResumeInv P keys w'.toDisk := by
  have disk : w₁.toDisk = w.toDisk := prepare_sameDisk.run prepared
  have resumed := resume_checkpoint nothing
  rw [checkpoint_nil] at resumed
  obtain ⟨indices', content', part', keeps', ⟨progress, rfl, rfl, e, stops⟩ | names⟩ :=
    download_keeps (sound_verified made (stores.short manifest plan w₁ prepared)) prepared resumed rfl
      (keeps_nothing []) run
  · -- the partial file is gone and the progress file is what it was
    have before : w₁.progress = w.progress := congrArg Disk.progress disk
    have kept : w'.progress = w.progress := progress.trans before
    rcases inv with missing | ⟨named, indices, content, names, _, _⟩
    · exact .inl (kept.trans missing)
    · by_cases empty : indices = []
      · rw [empty] at names
        exact .inr ⟨named, [], [], by rwa [kept], part', keeps_nothing []⟩
      obtain ⟨all, loads, members⟩ := names.load
      have some_loaded : all ≠ [] := by
        obtain ⟨i, member⟩ := List.exists_mem_of_ne_nil indices empty
        exact List.ne_nil_of_mem ((members i).mpr member)
      by_cases same : named = plan.transferIdHex
      · rw [disk, ← same] at nothing
        exact absurd (indexList_injective (Except.ok.inj (loads.symm.trans nothing))) some_loaded
      · obtain ⟨some_chunk, failed⟩ := stops.zero
        have other : ListsOther w.progress plan.transferIdHex :=
          ⟨named, indexList all, same, loads,
            fun none_listed => some_loaded (List.map_eq_nil_iff.mp none_listed)⟩
        obtain ⟨plain, w₂, fetched⟩ := stores.first manifest plan w₁ prepared other some_chunk
        rw [failed] at fetched
        cases fetched
  · exact .inr ⟨_, indices', content', names, part', keeps'⟩

theorem ResumeInv.download {w w' : World β} {r : Except Raised (Json × Plan)} (inv : ResumeInv P keys w.toDisk)
    (same_keys : args.toKeysDir = keys) (stores : StoresFirst P broker args w)
    (run : download P broker args w = (r, w')) : ResumeInv P keys w'.toDisk := by
  cases prepared : prepare P broker args w with
  | mk first w₁ =>
      have disk : w₁.toDisk = w.toDisk := prepare_sameDisk.run prepared
      cases first with
      | error e =>
          have failed : ApproachB.download P broker args w = (.error e, w₁) := Prog.bind_error prepared _
          rw [failed] at run
          cases run
          rwa [disk]
      | ok found =>
          obtain ⟨manifest, plan⟩ := found
          obtain ⟨⟨_, manifestBytes, _, _, _, _, made⟩, _⟩ := prepare_ok prepared
          rw [same_keys] at made
          have anew : loadProgress w₁.progress plan.transferIdHex = .ok (indexList []) →
              ResumeInv P keys w'.toDisk := fun nothing => inv.anew stores prepared made nothing run
          rcases id inv with missing | ⟨named, indices, content, names, part, keeps⟩
          · apply anew
            rw [disk, missing]
            rfl
          · by_cases same : named = plan.transferIdHex
            · obtain ⟨all, loads, members⟩ := names.load
              rw [same, ← disk] at loads
              by_cases none_listed : all = []
              · rw [none_listed] at loads
                exact anew loads
              · have resumed := resume_checkpoint loads
                rw [disk, part, checkpoint_some none_listed] at resumed
                rw [same] at keeps
                obtain ⟨indices', content', part', keeps', ⟨progress, rfl, _⟩ | names'⟩ :=
                  download_keeps (sound_verified made (stores.short manifest plan w₁ prepared)) prepared resumed
                    rfl (keeps.congr members) run
                · have kept : w'.progress = w.progress := progress
                  rw [same] at names
                  refine .inr ⟨_, indices, content', by rwa [kept], part', keeps'.congr fun i => ?_⟩
                  exact (members i).symm
                · exact .inr ⟨_, indices', content', names', part', keeps'⟩
            · apply anew
              rw [disk]
              exact names.load_other same

theorem ResumeInv.run {disk disk' : Disk} {b : β} (inv : ResumeInv P keys disk)
    (run : ReceiveRun P keys broker args { toDisk := disk, broker := b } disk')
    (stores : StoresFirst P broker args { toDisk := disk, broker := b }) : ResumeInv P keys disk' := by
  obtain ⟨same_keys, r, w', run, _, rfl⟩ := run
  rcases receive_cases run with ⟨e, failed, _⟩ | ⟨manifest, plan, w₁, passed, run⟩
  · exact ResumeInv.download inv same_keys stores failed
  · obtain ⟨⟨ledger, rfl, _⟩, _⟩ := complete_cases run
    exact .inl rfl

/-! ## Runs of two transfers -/

/-- A record of a transfer has the length of its chunk. -/
theorem Transfer.record_length (t : Transfer P) {i n : Nat} {record length : Json}
    (found : findRecord t.plan.records i = some record) (item : record.item "plaintext_len" = .ok length)
    (sized : length.eqInt n = true) : n = (t.plain i).length := by
  obtain ⟨_, rfl⟩ := findRecord_some _ found
  have known : (t.loadedRecord i).item "plaintext_len" = .ok (.int (t.plain i).length) :=
    t.record_item "plaintext_len" i rfl
  rw [known] at item
  cases item
  exact (Int.ofNat_inj.mp ((Json.eqInt_int _ _).mp sized)).symm

theorem Transfer.shortRecords (t : Transfer P) : ShortRecords t.plan := by
  intro i record length found item n sized
  rw [t.record_length found item sized]
  exact t.plain_length i

/-- A run that finds nothing of its own and misses its second chunk. -/
theorem cut_short (laws : P.Agreement) (opens : P.Opens) {t : Transfer P} {signature : Bytes} {store : Storage}
    (whole : t.Whole) (complete : Complete t signature store) (two_chunks : 1 < t.total) {args : Args}
    (start : Disk) (accepted : Accepted t signature args start.ledger)
    (nothing : loadProgress start.progress t.hexId = .ok (indexList [])) :
    ∃ disk, ReceiveRun P args.toKeysDir (withhold (chunkKey t.hexId 1) (shelf store)) args
        { toDisk := start, broker := [] } disk ∧
      StoresFirst P (withhold (chunkKey t.hexId 1) (shelf store)) args { toDisk := start, broker := [] } ∧
      disk.ledger = start.ledger ∧ Names disk.progress t.hexId (List.range 1) ∧ disk.part ≠ none := by
  have serves := complete.serves whole.numbered
  obtain ⟨w, run, part, ledger, _, names⟩ := receive_withheld laws opens whole serves
    two_chunks (w := { toDisk := start, broker := [] }) rfl accepted nothing
  obtain ⟨b₁, up, checked⟩ := prepare_offered laws (serves.toOffers.withhold whole two_chunks)
    (w := { toDisk := start, broker := [] }) rfl accepted
  have first_chunk : 0 < t.total := by omega
  have apart : chunkKey t.hexId 0 ≠ chunkKey t.hexId 1 := key_ne_chunkKey (by decide)
    (Transfer.safePath_chunk (by decide)) fun same => absurd (Transfer.chunkPath_inj same) (by decide)
  obtain ⟨b₂, _, reply⟩ := serves.chunks 0 first_chunk b₁ up
  rw [← congrFun (withhold_get apart) b₁] at reply
  refine ⟨w.toDisk, ⟨rfl, _, w, run, nofun, rfl⟩, ⟨?_, ?_⟩, ledger, names Nat.one_pos, by rw [part]; nofun⟩
  · intro manifest plan w₁ prepared
    cases prepared.symm.trans checked
    exact t.shortRecords
  · intro manifest plan w₁ prepared _ _
    cases prepared.symm.trans checked
    exact ⟨_, _, fetchChunk_served opens whole first_chunk reply⟩

/-- A chunk that was verified for a sent transfer is as long as the one sent, if no other
    manifest of the id verifies. -/
theorem verified_length {t u : Transfer P} (apart : u.hexId ≠ t.hexId)
    (only : ∀ signature message, P.verify keys.senderVerify signature message = true →
      message = t.manifestBytes ∨ message = u.manifestBytes)
    {i : Nat} {plain : Bytes} (verified : VerifiedChunk P keys t.hexId i plain) :
    plain.length = (t.plain i).length := by
  obtain ⟨manifestBytes, manifest, plan, ct, made, named, inside, checked⟩ := verified
  obtain ⟨signature, signed⟩ := made.authentic.signed
  have loads := made.authentic.loads
  rcases only signature manifestBytes signed with rfl | rfl
  · rw [t.loadBytes_manifest] at loads
    cases loads
    have listed := made.records
    rw [t.chunkRecords_loaded] at listed
    obtain ⟨record, found, _, length, item, sized⟩ := checked.record
    rw [← (Prod.mk.inj (Option.some.inj (Except.ok.inj listed))).2] at found
    exact t.record_length found item sized
  · rw [u.loadBytes_manifest] at loads
    cases loads
    have id : u.loaded.get "transfer_id" = .ok (some (.str u.hexId)) := by
      rw [u.loaded_get "transfer_id" rfl, u.session_id.1]
      rfl
    have other := made.authentic.named
    rw [id, named] at other
    exact absurd (Json.str.inj (Option.some.inj (Except.ok.inj other))) apart

/-- A source of two chunks and one of one byte, with no other manifest that verifies. -/
theorem two_transfers :
    ∃ (accepts : Bytes → Bytes → Bool) (t u : Transfer (transparent accepts)),
      (t.saved.createdAt = 0 ∧ t.receiverPub = ⟨List.replicate 32 9, rfl⟩ ∧ t.file.length = chunkSize + 1) ∧
      (u.saved.createdAt = 0 ∧ u.receiverPub = ⟨List.replicate 32 9, rfl⟩ ∧ u.file.length = 1) ∧
      u.hexId ≠ t.hexId ∧
      ∀ key message, accepts key message = true ↔ message = t.manifestBytes ∨ message = u.manifestBytes := by
  let big : Saved := {
    id := ⟨List.replicate 16 0, rfl⟩
    createdAt := 0
    fileSize := chunkSize + 1
    ephemeral := ⟨List.replicate 32 4, rfl⟩ }
  obtain ⟨a, saved, receiver, file, _⟩ := exists_transfer (transparent_agreement fun _ _ => false) big
    ⟨List.replicate 32 9, rfl⟩ "big" (List.replicate (chunkSize + 1) 0) List.length_replicate.symm
  obtain ⟨b, saved', receiver', file', _, _⟩ :=
    oneByte_transfer (fun _ _ => false) 1 ⟨List.replicate 16 1, rfl⟩
  let accepts : Bytes → Bytes → Bool := fun _ message =>
    decide (message = a.manifestBytes ∨ message = b.manifestBytes)
  have length : a.file.length = chunkSize + 1 := by rw [file, List.length_replicate]
  have length' : b.file.length = 1 := by rw [file']; rfl
  have ids : b.hexId ≠ a.hexId := by
    intro same
    have raw := hex_injective same
    rw [saved, saved'] at raw
    exact absurd raw (by decide)
  refine ⟨accepts, a.accepting accepts, b.accepting accepts, ⟨?_, receiver, length⟩, ⟨?_, receiver', length'⟩,
    ids, fun _ _ => decide_eq_true_iff⟩
  · exact congrArg Saved.createdAt saved
  · exact congrArg Saved.createdAt saved'

/-- **Resume state.** Over every sequence of runs that can store the first chunk when they
    turn to another transfer, the chunks that the progress file lists are in place. -/
theorem resume_consistent {start disk : Disk} (fresh : start.progress = none)
    (runs : Relation.ReflTransGen (fun a b => ∃ (β : Type) (broker : Broker β) (args : Args) (state : β),
      ReceiveRun P keys broker args { toDisk := a, broker := state } b ∧
      StoresFirst P broker args { toDisk := a, broker := state }) start disk) :
    ResumeConsistent P keys disk := by
  have step : Preserves (fun a b => ∃ (β : Type) (broker : Broker β) (args : Args) (state : β),
      ReceiveRun P keys broker args { toDisk := a, broker := state } b ∧
      StoresFirst P broker args { toDisk := a, broker := state }) (ResumeInv P keys) := by
    rintro a b inv ⟨β, broker, args, state, run, stores⟩
    exact inv.run run stores
  exact (step.run (.inl fresh) runs).consistent

/-- A run of a second transfer stores its first chunk over what a first transfer left. -/
theorem resume_consistent_cut_short :
    ∃ (t u : Transfer (transparent fun _ _ => true)) (store : Storage) (before disk : Disk),
      t.hexId ≠ u.hexId ∧ Names before.progress t.hexId (List.range 1) ∧ before.part ≠ none ∧
      ReceiveRun (transparent fun _ _ => true) (transparentReceiver u.hexId).toKeysDir
        (withhold (chunkKey u.hexId 1) (shelf store)) (transparentReceiver u.hexId)
        { toDisk := before, broker := [] } disk ∧
      Names disk.progress u.hexId (List.range 1) ∧ disk.part ≠ none ∧
      ResumeConsistent (transparent fun _ _ => true) (transparentReceiver u.hexId).toKeysDir disk := by
  obtain ⟨t, saved, receiver, file, _, total⟩ :=
    twoChunks_transfer (fun _ _ => true) ⟨List.replicate 16 0, rfl⟩
  obtain ⟨u, saved', receiver', file', _, total'⟩ :=
    twoChunks_transfer (fun _ _ => true) ⟨List.replicate 16 1, rfl⟩
  have small : twoMebibytes.length < 2 ^ 53 := by
    rw [twoMebibytes_length]
    decide
  obtain ⟨whole, store, complete⟩ := transparent_stored (t := t) (by rw [file]; exact small)
  obtain ⟨whole', store', complete'⟩ := transparent_stored (t := u) (by rw [file']; exact small)
  have apart : t.hexId ≠ u.hexId := by
    intro same
    have raw := hex_injective same
    rw [saved, saved'] at raw
    exact absurd raw (by decide)
  let start : Disk := { out := none, part := none, progress := none, ledger := none }
  obtain ⟨before, run, stores, ledger, names, part⟩ := cut_short (transparent_agreement _) (transparent_opens _)
    whole complete (by omega) start
    (transparent_accepted (by rw [saved]; rfl) receiver rfl Recorded.missing List.not_mem_nil) rfl
  have missing : Recorded before.ledger [] := by
    rw [ledger]
    exact Recorded.missing
  obtain ⟨disk, run', stores', _, names', part'⟩ := cut_short (transparent_agreement _) (transparent_opens _)
    whole' complete' (by omega) before
    (transparent_accepted (by rw [saved']; rfl) receiver' rfl missing List.not_mem_nil) (names.load_other apart)
  exact ⟨t, u, store', before, disk, apart, names, part, run', names', part',
    resume_consistent rfl (.tail (.single ⟨_, _, _, _, run, stores⟩) ⟨_, _, _, _, run', stores'⟩)⟩

/-- A run of another transfer that misses its first chunk empties the partial file under a
    progress file that lists a chunk. -/
theorem resume_inconsistent_after_other :
    ¬ ∀ (accepts : Bytes → Bytes → Bool) (keys : KeysDir) (start disk : Disk), start.progress = none →
      Relation.ReflTransGen (fun a b => ∃ (β : Type) (broker : Broker β) (args : Args) (state : β),
        ReceiveRun (transparent accepts) keys broker args { toDisk := a, broker := state } b) start disk →
      ResumeConsistent (transparent accepts) keys disk := by
  intro claim
  obtain ⟨accepts, t, u, ⟨created, receiver, length⟩, ⟨created', receiver', length'⟩, apart, only⟩ :=
    two_transfers
  have small : t.file.length < 2 ^ 53 := by
    rw [length]
    decide
  obtain ⟨whole, store, complete⟩ := transparent_stored small
  obtain ⟨whole', store', complete'⟩ := transparent_stored (t := u) (by omega)
  have two_chunks : 1 < t.total := whole.lt_total.mpr (by omega)
  have some_chunk : 0 < u.total := whole'.lt_total.mpr (by omega)
  let start : Disk := { out := none, part := none, progress := none, ledger := none }
  let keys := (transparentReceiver t.hexId).toKeysDir
  obtain ⟨disk, run, _, ledger, names, _⟩ := cut_short (transparent_agreement _) (transparent_opens _)
    whole complete two_chunks start
    (transparent_accepted created receiver ((only _ _).mpr (.inl rfl)) Recorded.missing List.not_mem_nil) rfl
  have missing : Recorded disk.ledger [] := by
    rw [ledger]
    exact Recorded.missing
  obtain ⟨w, run', part, _, kept, _⟩ := receive_withheld (transparent_agreement _) (transparent_opens _)
    whole' (complete'.serves whole'.numbered) some_chunk (w := { toDisk := disk, broker := [] }) rfl
    (transparent_accepted created' receiver' ((only _ _).mpr (.inr rfl)) missing List.not_mem_nil)
    (names.load_other apart.symm)
  have second : ReceiveRun (transparent accepts) keys (withhold (chunkKey u.hexId 0) (shelf store'))
      (transparentReceiver u.hexId) { toDisk := disk, broker := [] } w.toDisk :=
    ⟨rfl, _, w, run', nofun, rfl⟩
  have consistent := claim accepts keys start w.toDisk rfl
    (.tail (.single ⟨_, _, _, _, run⟩) ⟨_, _, _, _, second⟩)
  obtain ⟨all, loads, members⟩ := names.load
  rw [← show w.progress = disk.progress from kept rfl] at loads
  have listed : 0 ∈ all := (members 0).mpr (List.mem_range.mpr Nat.one_pos)
  obtain ⟨plain, verified, held⟩ := consistent t.hexId _ _ loads part 0 (contains_indexList.mpr listed)
  have plain_length := verified_length apart (fun signature message verifies =>
    (only _ _).mp (Bool.and_eq_true_iff.mp verifies).1) verified
  have first : (t.plain 0).length = chunkSize := by
    rw [Transfer.plain, chunk_length, length]
    omega
  have nothing : plain = [] := by
    have short := held.length_le
    simpa [assemble] using short
  rw [nothing, first] at plain_length
  exact absurd plain_length (by decide)

end SecureTransfer.ApproachB
