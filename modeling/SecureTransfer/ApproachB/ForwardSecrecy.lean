import SecureTransfer.ApproachB.BrokerView
import SecureTransfer.ApproachB.Symbolic

/-! # Forward secrecy

Any sequence of `send` runs, each against a broker of its own, seen by whoever keeps all
that was ever sent. The messages are symbolic: what a set of private keys opens of them is
a question of derivation.
-/

namespace SecureTransfer.ApproachB

open Library

variable {P : Primitives} {β : Type}

/-! ## What a run sends -/

/-- The broker's state tells what it was sent: every PUT, answered or not. -/
structure Logs (broker : Broker β) (log : β → List (String × Bytes)) : Prop where
  list : ∀ start b, log (broker.list start b).2 = log b
  put : ∀ key data b, log (broker.put key data b).2 = log b ++ [(key, data)]

/-- Any broker, with a record of what it was sent. -/
def recorded (broker : Broker β) : Broker (β × List (String × Bytes)) where
  list start := Prog.zoom Prod.fst (fun b s => (b, s.2)) (broker.list start)
  get key := Prog.zoom Prod.fst (fun b s => (b, s.2)) (broker.get key)
  put key data := Prog.zoom Prod.fst (fun b s => (b, s.2 ++ [(key, data)])) (broker.put key data)

theorem recorded_logs (broker : Broker β) : Logs (recorded broker) Prod.snd where
  list _ _ := rfl
  put _ _ _ := rfl

section Runs

variable {broker : Broker β} {log : β → List (String × Bytes)} {t : Transfer P}

/-- Only blobs of the transfer are sent from `b` to `b'`. -/
def SendsBlobs (t : Transfer P) (log : β → List (String × Bytes)) (b b' : β) : Prop :=
  ∃ puts, log b' = log b ++ puts ∧ ∀ put ∈ puts, ∃ i < t.total, put = (chunkKey t.hexId i, t.ciphertext i)

theorem SendsBlobs.refl (b : β) : SendsBlobs t log b b := ⟨[], (List.append_nil _).symm, by simp⟩

theorem SendsBlobs.trans {b b₁ b₂ : β} (first : SendsBlobs t log b b₁) (second : SendsBlobs t log b₁ b₂) :
    SendsBlobs t log b b₂ := by
  obtain ⟨puts, sent, blobs⟩ := first
  obtain ⟨puts', sent', blobs'⟩ := second
  refine ⟨puts ++ puts', by rw [sent', sent, List.append_assoc], ?_⟩
  intro put member
  rcases List.mem_append.mp member with before | after
  · exact blobs put before
  · exact blobs' put after

variable (logs : Logs broker log)

include logs

theorem Logs.put_run {key : String} {data : Bytes} {w w' : SenderWorld β} {r : Except Raised Unit}
    (run : onSenderBroker (broker.put key data) w = (r, w')) :
    log w'.broker = log w.broker ++ [(key, data)] := by
  have sent := logs.put key data w.broker
  obtain ⟨b, rfl, ⟨_, answer, _⟩ | ⟨_, answer, _⟩⟩ := callBroker_cases run
  all_goals
    rw [answer] at sent
    exact sent

theorem Logs.list_run {start : String} {w w' : SenderWorld β} {r : Except Raised (List String)}
    (run : onSenderBroker (broker.list start) w = (r, w')) : log w'.broker = log w.broker := by
  have same := logs.list start w.broker
  obtain ⟨b, rfl, ⟨_, answer, _⟩ | ⟨_, answer, _⟩⟩ := callBroker_cases run
  all_goals
    rw [answer] at same
    exact same

theorem putMissing_sends {already : List String} {index : Nat} (inside : index < t.total)
    {w w' : SenderWorld β} {r : Except Raised Unit}
    (run : putMissing broker already (chunkKey t.hexId index) (t.ciphertext index) w = (r, w')) :
    SendsBlobs t log w.broker w'.broker := by
  unfold putMissing at run
  split at run
  · cases run
    exact .refl _
  · refine ⟨_, logs.put_run run, fun put member => ⟨index, inside, ?_⟩⟩
    exact List.mem_singleton.mp member

theorem uploadChunks_sends (already : List String) {indices : List Nat} (inside : ∀ i ∈ indices, i < t.total)
    {w w' : SenderWorld β} {r : Except Raised (List Json × Bytes)}
    (run : uploadChunks P broker t.session t.file t.total already indices w = (r, w')) :
    SendsBlobs t log w.broker w'.broker := by
  induction indices generalizing w w' r with
  | nil =>
      cases run
      exact .refl _
  | cons index rest ih =>
      rw [uploadChunks] at run
      rcases python_bind run with ⟨e, _, rfl, rfl⟩ | ⟨nonce, counter, run⟩
      · exact .refl _
      rcases python_bind run with ⟨e, _, rfl, rfl⟩ | ⟨aad, bound, run⟩
      · exact .refl _
      obtain ⟨_, rfl⟩ := chunkNonce_ok counter
      obtain ⟨_, _, rfl⟩ := chunkAad_ok bound
      rw [Prog.bind_ok (Prog.update_run _ _), t.session_id.1, t.session_id.2] at run
      have here := inside index List.mem_cons_self
      have later := fun i member => inside i (List.mem_cons_of_mem index member)
      rcases Prog.bind_cases run with ⟨e, put, rfl⟩ | ⟨_, w₁, put, run⟩
      · have sends := putMissing_sends logs here put
        exact sends
      have first := putMissing_sends logs here put
      rcases Prog.bind_cases run with ⟨e, upload, rfl⟩ | ⟨out, w₂, upload, run⟩
      · exact first.trans (ih later upload)
      · cases run
        exact first.trans (ih later upload)

theorem publish_sends {args : SendArgs} {w w' : SenderWorld β} {r : Except Raised Unit}
    (run : publish P broker args t.hexId (.obj t.members) w = (r, w')) :
    ∃ puts, log w'.broker = log w.broker ++ puts ∧
      puts <+: [(manifestKey t.hexId, t.manifestBytes),
        (signatureKey t.hexId, P.sign args.signingKey t.manifestBytes)] ∧
      (manifestKey t.hexId, t.manifestBytes) ∈ puts := by
  rw [publish, Prog.bind_ok (Prog.update_run _ _)] at run
  rcases Prog.bind_cases run with ⟨e, put, rfl⟩ | ⟨_, w₁, put, run⟩
  · have sent := logs.put_run put
    exact ⟨_, sent, ⟨_, rfl⟩, List.mem_cons_self⟩
  · have sent := logs.put_run run
    rw [logs.put_run put, List.append_assoc] at sent
    exact ⟨_, sent, List.prefix_rfl, List.mem_cons_self⟩

/-- A run sends messages of the transfer it works on; one that returns has sent the manifest. -/
theorem SendEnds.sends {args : SendArgs} {w w' : SenderWorld β} {r : Except Raised Int} (receiver : RawKey)
    (ends : SendEnds broker args t w r w') :
    ∃ puts, log w'.broker = log w.broker ++ puts ∧
      (∀ put ∈ puts, ∃ m, Message t receiver args.signingKey put m) ∧
      (r = .ok 0 → (manifestKey t.hexId, t.manifestBytes) ∈ puts) := by
  have blobs : ∀ {already w₁} {out : Except Raised (List Json × Bytes)} {w₂ : SenderWorld β},
      onSenderBroker (broker.list (t.hexId ++ "/")) { w with state := some (t.saved.bytes P) } =
        (.ok already, w₁) →
      uploadChunks P broker t.session t.file t.total already (List.range t.total) w₁ = (out, w₂) →
      ∃ puts, log w₂.broker = log w.broker ++ puts ∧
        ∀ put ∈ puts, ∃ m, Message t receiver args.signingKey put m := by
    intro already w₁ out w₂ list upload
    have same := logs.list_run list
    obtain ⟨puts, sent, blob⟩ := uploadChunks_sends logs already (fun i => List.mem_range.mp) upload
    refine ⟨puts, by rw [sent, same], fun put member => ?_⟩
    obtain ⟨i, inside, rfl⟩ := blob put member
    exact ⟨_, .blob inside⟩
  have published : ∀ {already out w₁ w₂} {s : Except Raised Unit} {w₃ : SenderWorld β},
      onSenderBroker (broker.list (t.hexId ++ "/")) { w with state := some (t.saved.bytes P) } =
        (.ok already, w₁) →
      uploadChunks P broker t.session t.file t.total already (List.range t.total) w₁ = (.ok out, w₂) →
      publish P broker args t.hexId (.obj t.members) w₂ = (s, w₃) →
      ∃ all, log w₃.broker = log w.broker ++ all ∧
        (∀ put ∈ all, ∃ m, Message t receiver args.signingKey put m) ∧
        (manifestKey t.hexId, t.manifestBytes) ∈ all := by
    intro already out w₁ w₂ s w₃ list upload publish
    obtain ⟨puts, sent, messages⟩ := blobs list upload
    obtain ⟨last, sent', start, manifest⟩ := publish_sends logs publish
    refine ⟨puts ++ last, by rw [sent', sent, List.append_assoc], ?_, List.mem_append_right puts manifest⟩
    intro put member
    rcases List.mem_append.mp member with before | after
    · exact messages put before
    · rcases List.mem_cons.mp (start.subset after) with rfl | after
      · exact ⟨_, .manifest⟩
      · rw [List.mem_singleton.mp after]
        exact ⟨_, .signature⟩
  cases ends with
  | listing list =>
      have same := logs.list_run list
      exact ⟨[], by rw [same, List.append_nil], by simp, by simp⟩
  | uploading list upload =>
      obtain ⟨puts, sent, messages⟩ := blobs list upload
      exact ⟨puts, sent, messages, by simp⟩
  | publishing list upload publish =>
      obtain ⟨all, sent, messages, _⟩ := published list upload publish
      exact ⟨all, sent, messages, by simp⟩
  | returning list upload publish =>
      obtain ⟨all, sent, messages, manifest⟩ := published list upload publish
      exact ⟨all, sent, messages, fun _ => manifest⟩

end Runs

/-! ## Histories -/

/-- One run of `send` for the holder of `receiver`: the state file before and after, what
    was sent, and how it ended. -/
structure SendRun where
  args : SendArgs
  receiver : RawKey
  before : Option Bytes
  after : Option Bytes
  puts : List (String × Bytes)
  result : Except Raised Int

/-- The code ran as recorded, against some broker. -/
structure SendRun.Ran (P : Primitives) (run : SendRun) : Prop where
  held : run.args.receiverPub = P.x25519Public run.receiver
  sent : ∃ (β : Type) (broker : Broker β) (log : β → List (String × Bytes)) (b : β) (w : SenderWorld β),
    Logs broker log ∧ log b = [] ∧ send P broker run.args ⟨b, run.before, [], []⟩ = (run.result, w) ∧
    run.after = w.state ∧ run.puts = log w.broker

/-- The state files by path, and the runs so far. -/
structure Wire where
  states : String → Option Bytes
  runs : List SendRun

def Wire.start : Wire := ⟨fun _ => none, []⟩

def Wire.Step (P : Primitives) (h h' : Wire) : Prop :=
  ∃ path run, SendRun.Ran P run ∧ run.before = h.states path ∧
    h' = { states := Function.update h.states path run.after, runs := h.runs ++ [run] }

/-- The transfer that a run works on. -/
structure SendRun.Works (run : SendRun) (t : Transfer P) : Prop where
  saved : ∃ saved : Option Saved, run.before = saved.map (·.bytes P) ∧
    t.saved = chosen saved run.args t.file.length
  receiver : t.receiverPub = run.args.receiverPub
  source : run.args.file = some t.file
  named : t.basename = run.args.basename

/-- The source was there, and the run returned. -/
def SendRun.Completed (run : SendRun) : Prop := run.result = .ok 0

/-- All that was ever sent, in symbols. -/
def Transcript (P : Primitives) (runs : List SendRun) : Set Symbol :=
  { m | ∃ run ∈ runs, ∃ t : Transfer P, run.Works t ∧
    ∃ put ∈ run.puts, Message t run.receiver run.args.signingKey put m }

/-- A recorded run is a run on a transfer, read in symbols throughout. -/
structure SendRun.Read (P : Primitives) (run : SendRun) : Prop where
  held : run.args.receiverPub = P.x25519Public run.receiver
  puts : ∀ put ∈ run.puts, ∃ t : Transfer P, run.Works t ∧
    ∃ m, Message t run.receiver run.args.signingKey put m
  completed : run.Completed → run.after = none ∧ ∃ t : Transfer P, run.Works t ∧
    (manifestKey t.hexId, t.manifestBytes) ∈ run.puts

theorem Saved.bytes_injective (laws : P.Agreement) : Function.Injective (Saved.bytes P) := by
  intro saved other same
  have loads := saved.loadFile_bytes P
  rw [same, other.loadFile_bytes P] at loads
  have files := Option.some.inj (Except.ok.inj loads)
  simp only [Saved.json, Json.obj.injEq, List.cons.injEq, Prod.mk.injEq, Json.str.injEq, Json.int.injEq,
    true_and, and_true] at files
  obtain ⟨ids, times, sizes, keys⟩ := files
  have ephemeral := congrArg P.loadPem keys
  rw [laws.pem, laws.pem] at ephemeral
  cases saved
  cases other
  simp only [Saved.mk.injEq]
  exact ⟨Subtype.ext (hex_injective ids).symm, times.symm, by exact_mod_cast sizes.symm,
    (Option.some.inj ephemeral).symm⟩

/-- A run works on one transfer. -/
theorem SendRun.Works.unique (laws : P.Agreement) {run : SendRun} {t u : Transfer P} (works : run.Works t)
    (works' : run.Works u) : t = u := by
  obtain ⟨saved, before, chose⟩ := works.saved
  obtain ⟨saved', before', chose'⟩ := works'.saved
  have files : t.file = u.file := Option.some.inj (works.source.symm.trans works'.source)
  have same : saved = saved' :=
    Option.map_injective (Saved.bytes_injective laws) (before.symm.trans before')
  refine Transfer.ext_data ?_ (works.receiver.trans works'.receiver.symm) files
    (works.named.trans works'.named.symm)
  rw [chose, chose', same, files]

/-- Every state file is one that a run saved, and every run is read. -/
structure WireInv (P : Primitives) (h : Wire) : Prop where
  states : ∀ path, ∃ saved : Option Saved, h.states path = saved.map (·.bytes P)
  runs : ∀ run ∈ h.runs, SendRun.Read P run

theorem WireInv.start (P : Primitives) : WireInv P Wire.start where
  states _ := ⟨none, rfl⟩
  runs run member := by cases member

theorem SendRun.Ran.read {run : SendRun} (ran : SendRun.Ran P run) {saved : Option Saved}
    (before : run.before = saved.map (·.bytes P)) :
    SendRun.Read P run ∧ ∃ saved' : Option Saved, run.after = saved'.map (·.bytes P) := by
  obtain ⟨β, broker, log, b, w, logs, empty, sent, after, puts⟩ := ran.sent
  cases source : run.args.file with
  | none =>
      simp only [send, source, Prog.pure_run, Prod.mk.injEq] at sent
      obtain ⟨returned, rfl⟩ := sent
      refine ⟨⟨ran.held, ?_, ?_⟩, saved, by rw [after, before]⟩
      · rw [puts, empty]
        simp
      · intro completed
        rw [Completed, ← returned] at completed
        cases completed
  | some file =>
      simp only [send, source] at sent
      rcases sendFile_works (w := ⟨b, run.before, [], []⟩) before sent with ⟨rfl, failed⟩ |
        ⟨t, saves, receiver, reads, named, ends⟩
      · refine ⟨⟨ran.held, ?_, fun completed => absurd completed failed⟩, some _, after⟩
        rw [puts, empty]
        simp
      · have works : run.Works t :=
          ⟨⟨saved, before, by rw [saves, reads]⟩, receiver, by rw [source, reads], named⟩
        obtain ⟨all, sends, messages, manifest⟩ := ends.sends logs run.receiver
        rw [empty, List.nil_append, ← puts] at sends
        rw [← sends] at messages manifest
        obtain ⟨_, _, returns, work, returned, _⟩ := ends.sent
        have state := after.trans work.state
        refine ⟨⟨ran.held, fun put member => ⟨t, works, messages put member⟩, fun completed => ?_⟩, ?_⟩
        · rw [returned.mp completed, if_pos rfl] at state
          exact ⟨state, t, works, manifest completed⟩
        · rw [state]
          split
          · exact ⟨none, rfl⟩
          · exact ⟨some t.saved, rfl⟩

theorem WireInv.step {h h' : Wire} (inv : WireInv P h) (step : Wire.Step P h h') : WireInv P h' := by
  obtain ⟨path, run, ran, before, rfl⟩ := step
  obtain ⟨saved, stored⟩ := inv.states path
  obtain ⟨read, after⟩ := ran.read (before.trans stored)
  refine ⟨fun other => ?_, fun other member => ?_⟩
  · by_cases here : other = path
    · rw [here]
      simpa only [Function.update_self] using after
    · simpa only [Function.update_of_ne here] using inv.states other
  · rcases List.mem_append.mp member with old | new
    · exact inv.runs other old
    · rw [List.mem_singleton.mp new]
      exact read

theorem WireInv.reached {h : Wire} (run : Relation.ReflTransGen (Wire.Step P) Wire.start h) : WireInv P h := by
  have step : Preserves (Wire.Step P) (WireInv P) := fun _ _ inv step => inv.step step
  exact step.run (WireInv.start P) run

/-- Every PUT of every run is in the transcript, as a term that denotes its data. -/
theorem transcript_complete (laws : P.Agreement) {h : Wire}
    (reached : Relation.ReflTransGen (Wire.Step P) Wire.start h) {run : SendRun} (member : run ∈ h.runs)
    {put : String × Bytes} (sent : put ∈ run.puts) : ∃ m ∈ Transcript P h.runs, Denotes P m put.2 := by
  have read := (WireInv.reached reached).runs run member
  obtain ⟨t, works, m, message⟩ := read.puts put sent
  exact ⟨m, ⟨run, member, t, works, put, sent, message⟩, message.denotes laws (works.receiver.trans read.held)⟩

/-! ## What private keys open -/

section Derivation

variable {t : Transfer P} {receiver : RawKey} {known : Set Symbol}

/-- The chunk key follows from both public keys and the private key of either end. -/
theorem derives_keySymbol (ephemeral : Derives known (.publicKey t.saved.ephemeral))
    (longLived : Derives known (.publicKey receiver))
    (one : Derives known (.privateKey t.saved.ephemeral) ∨ Derives known (.privateKey receiver)) :
    Derives known (t.keySymbol receiver) := by
  have shared : Derives known (.shared s(t.saved.ephemeral, receiver)) := by
    rcases one with key | key
    · exact .exchange key longLived
    · rw [Sym2.eq_swap]
      exact .exchange key ephemeral
  exact .hkdf (.literal _) (.pair (.literal _) (.pair ephemeral longLived)) shared

/-- The manifest shows the ephemeral public key. -/
theorem derives_ephemeralPub (sent : t.manifestSymbol receiver ∈ known) :
    Derives known (.publicKey t.saved.ephemeral) :=
  Derives.left (Derives.decode (.known sent))

theorem derives_plain (key : Derives known (t.keySymbol receiver)) {index : Nat}
    (sent : t.blobSymbol receiver index ∈ known) : Derives known (.secret (t.plain index)) :=
  .decrypt key (.literal _) (.known sent) (.literal _)

end Derivation

/-- The transcript, and some private keys. -/
def Knowledge (P : Primitives) (runs : List SendRun) (lost : Set RawKey) : Set Symbol :=
  Transcript P runs ∪ Term.privateKey '' lost

/-- The contents of the transfers that have a lost key at one end. -/
def Exposed (P : Primitives) (runs : List SendRun) (lost : Set RawKey) : Set Bytes :=
  { content | ∃ run ∈ runs, ∃ t : Transfer P, run.Works t ∧ (t.saved.ephemeral ∈ lost ∨ run.receiver ∈ lost) ∧
    ∃ i < t.total, content = t.plain i }

variable {runs : List SendRun} {lost : Set RawKey}

theorem harmless_keySymbol {t : Transfer P} {receiver : RawKey} {contents : Set Bytes} :
    Harmless lost contents (t.keySymbol receiver) ↔ t.saved.ephemeral ∈ lost ∨ receiver ∈ lost := by
  simp [Transfer.keySymbol, Harmless]

/-- Nothing an attacker knows gives away more than the transfers with a lost key. -/
theorem knowledge_harmless {m : Symbol} (h : m ∈ Knowledge P runs lost) :
    Harmless lost (Exposed P runs lost) m := by
  rcases h with ⟨run, member, t, works, put, _, message⟩ | ⟨key, given, rfl⟩
  · cases message with
    | blob inside =>
        intro opened
        exact ⟨run, member, t, works, harmless_keySymbol.mp opened, _, inside, rfl⟩
    | manifest =>
        refine ⟨trivial, trivial, harmless_tuple fun digest listed => ?_⟩
        obtain ⟨i, _, rfl⟩ := List.mem_map.mp listed
        trivial
    | signature => trivial
  · exact given

/-- A plaintext chunk takes a private key of one end of a transfer that has it. -/
theorem content_protected {content : Bytes} (derived : Derives (Knowledge P runs lost) (.secret content)) :
    content ∈ Exposed P runs lost :=
  derived.harmless fun _ => knowledge_harmless

/-- No private key follows from what was sent. -/
theorem privateKey_protected {key : RawKey} (derived : Derives (Knowledge P runs lost) (.privateKey key)) :
    key ∈ lost :=
  derived.harmless fun _ => knowledge_harmless

/-! ## After the receiver's key is lost -/

/-- What an attacker with the receiver's private key derives has neither the chunk key of
    the transfer nor any of its chunks. -/
def ForwardSecret (runs : List SendRun) (receiver : RawKey) (t : Transfer P) : Prop :=
  ¬ Derives (Knowledge P runs {receiver}) (t.keySymbol receiver) ∧
    ∀ i < t.total, ¬ Derives (Knowledge P runs {receiver}) (.secret (t.plain i))

/-- A completed run has shown its manifest. -/
theorem Wire.shows_manifest (laws : P.Agreement) {h : Wire}
    (reached : Relation.ReflTransGen (Wire.Step P) Wire.start h) {run : SendRun} (member : run ∈ h.runs)
    (completed : run.Completed) {t : Transfer P} (works : run.Works t) :
    t.manifestSymbol run.receiver ∈ Transcript P h.runs := by
  obtain ⟨_, u, works', sent⟩ := ((WireInv.reached reached).runs run member).completed completed
  rw [works.unique laws works']
  exact ⟨run, member, u, works', _, sent, .manifest⟩

/-- With the receiver's public key, the chunk key of a completed transfer follows from what
    was sent exactly when one end has lost its private key. -/
theorem keySymbol_iff (laws : P.Agreement) {h : Wire}
    (reached : Relation.ReflTransGen (Wire.Step P) Wire.start h) {run : SendRun} (member : run ∈ h.runs)
    (completed : run.Completed) {t : Transfer P} (works : run.Works t) (lost : Set RawKey) :
    Derives (insert (.publicKey run.receiver) (Knowledge P h.runs lost)) (t.keySymbol run.receiver) ↔
      t.saved.ephemeral ∈ lost ∨ run.receiver ∈ lost := by
  constructor
  · intro derived
    have start : ∀ m ∈ insert (.publicKey run.receiver) (Knowledge P h.runs lost),
        Harmless lost (Exposed P h.runs lost) m := by
      intro m known
      rcases known with rfl | known
      · trivial
      · exact knowledge_harmless known
    exact harmless_keySymbol.mp (derived.harmless start)
  · intro one
    have manifest := Wire.shows_manifest laws reached member completed works
    have given : ∀ key ∈ lost,
        Derives (insert (.publicKey run.receiver) (Knowledge P h.runs lost)) (.privateKey key) :=
      fun key member => .known (.inr (.inr ⟨key, member, rfl⟩))
    exact derives_keySymbol (derives_ephemeralPub (.inr (.inl manifest))) (.known (.inl rfl))
      (one.imp (given _) (given _))

/-- The manifest shows one end's public key, and the lost key is the other end. -/
theorem derives_completed (laws : P.Agreement) {h : Wire}
    (reached : Relation.ReflTransGen (Wire.Step P) Wire.start h) {run : SendRun} (member : run ∈ h.runs)
    (completed : run.Completed) {t : Transfer P} (works : run.Works t) :
    Derives (Knowledge P h.runs {run.receiver}) (t.keySymbol run.receiver) := by
  have manifest := Wire.shows_manifest laws reached member completed works
  have key : Derives (Knowledge P h.runs {run.receiver}) (.privateKey run.receiver) :=
    .known (.inr ⟨run.receiver, rfl, rfl⟩)
  exact derives_keySymbol (derives_ephemeralPub (.inl manifest)) key.publicKey (.inr key)

/-- **No forward secrecy.** After every completed transfer, with its state file deleted, the
    receiver's private key derives the chunk key from what was sent, and every chunk of the
    transfer whose blob was sent. -/
theorem completed_not_forwardSecret (laws : P.Agreement) (h : Wire)
    (reached : Relation.ReflTransGen (Wire.Step P) Wire.start h) (run : SendRun) (member : run ∈ h.runs)
    (completed : run.Completed) :
    run.after = none ∧ (∃ t : Transfer P, run.Works t) ∧ ∀ t : Transfer P, run.Works t →
      Derives (Knowledge P h.runs {run.receiver}) (t.keySymbol run.receiver) ∧
      (∀ i, t.blobSymbol run.receiver i ∈ Transcript P h.runs →
        Derives (Knowledge P h.runs {run.receiver}) (.secret (t.plain i))) ∧
      ¬ ForwardSecret h.runs run.receiver t := by
  obtain ⟨deleted, u, works', _⟩ := ((WireInv.reached reached).runs run member).completed completed
  refine ⟨deleted, ⟨u, works'⟩, fun t works => ?_⟩
  have key := derives_completed laws reached member completed works
  exact ⟨key, fun i sent => derives_plain key (.inl sent), fun secret => secret.1 key⟩

/-! ## A transfer of one byte -/

theorem obliging_logs : Logs obliging id where
  list _ _ := rfl
  put _ _ _ := rfl

theorem oneByte_completed :
    ∃ (h : Wire) (run : SendRun) (t : Transfer (transparent fun _ _ => true)),
      Relation.ReflTransGen (Wire.Step (transparent fun _ _ => true)) Wire.start h ∧ run ∈ h.runs ∧
      run.Completed ∧ run.Works t ∧ 0 < t.total ∧
      t.blobSymbol run.receiver 0 ∈ Transcript (transparent fun _ _ => true) h.runs := by
  let args := oneByte 1 ⟨List.replicate 16 0, rfl⟩
  obtain ⟨t, saved, receiver, file, named, total⟩ :=
    oneByte_transfer (fun _ _ => true) 1 ⟨List.replicate 16 0, rfl⟩
  have few : t.total < 2 ^ 64 := by
    rw [total]
    decide
  have chose : t.saved = chosen none args t.file.length := by
    rw [saved, file]
    rfl
  obtain ⟨w, ran, sent⟩ := sendFile_obliging t few none (w := ⟨[], none, [], []⟩) rfl chose receiver named
  have source : args.file = some t.file := by
    rw [file]
    rfl
  -- the receiver's public key is its private key here
  let run : SendRun := ⟨args, args.receiverPub, none, w.state, w.broker, .ok 0⟩
  have works : run.Works t := ⟨⟨none, rfl, chose⟩, receiver, source, named⟩
  have blob : (chunkKey t.hexId 0, t.ciphertext 0) ∈ run.puts := by
    simp only [run, sent, total]
    exact List.mem_append_left _ (by simp)
  have inside : 0 < t.total := total.symm ▸ Nat.one_pos
  refine ⟨⟨_, [run]⟩, run, t, .single ⟨"source", run, ⟨rfl, ?_⟩, rfl, rfl⟩, List.mem_singleton_self run, rfl,
    works, inside, run, List.mem_singleton_self run, t, works, _, blob, .blob inside⟩
  refine ⟨_, obliging, id, [], w, obliging_logs, rfl, ?_, rfl, rfl⟩
  simp only [run, send, source]
  exact ran

/-- The key of a completed transfer follows from what was sent. -/
theorem completed_not_forwardSecret_oneByte :
    ∃ (h : Wire) (run : SendRun) (t : Transfer (transparent fun _ _ => true)), run ∈ h.runs ∧ run.after = none ∧
      Derives (Knowledge (transparent fun _ _ => true) h.runs {run.receiver}) (t.keySymbol run.receiver) ∧
      Derives (Knowledge (transparent fun _ _ => true) h.runs {run.receiver}) (.secret (t.plain 0)) := by
  obtain ⟨h, run, t, reached, member, completed, works, _, sent⟩ := oneByte_completed
  obtain ⟨deleted, _, opened⟩ :=
    completed_not_forwardSecret (transparent_agreement fun _ _ => true) h reached run member completed
  obtain ⟨key, contents, _⟩ := opened t works
  exact ⟨h, run, t, member, deleted, key, contents 0 sent⟩

/-- The one byte of the source follows too. -/
theorem oneByte_disclosed :
    (transparent fun _ _ => true).Agreement ∧
      ¬ ∀ (h : Wire) (run : SendRun) (t : Transfer (transparent fun _ _ => true)),
        Relation.ReflTransGen (Wire.Step (transparent fun _ _ => true)) Wire.start h → run ∈ h.runs →
        run.Completed → run.Works t → ForwardSecret h.runs run.receiver t := by
  refine ⟨transparent_agreement _, fun claim => ?_⟩
  obtain ⟨h, run, t, reached, member, completed, works, inside, sent⟩ := oneByte_completed
  have key := derives_completed (transparent_agreement _) reached member completed works
  exact (claim h run t reached member completed works).2 0 inside (derives_plain key (.inl sent))

end SecureTransfer.ApproachB
