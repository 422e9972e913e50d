import SecureTransfer.Library.Client
import SecureTransfer.ApproachB.ReceiveRuns
import SecureTransfer.ApproachB.Uploads

/-! # Runs as clients of the broker

`send` and `receive` reach the broker only through its operations, so a run of either is a
client that asks one command after the other. What each may ask: a sender uploads its
transfer in order and a receiver puts nothing.
-/

namespace SecureTransfer.ApproachB

open Library

/-! ## Commands -/

inductive BrokerCall where
  | list (start : String)
  | get (key : String)
  | put (key : String) (data : Bytes)

namespace BrokerCall

def Answer : BrokerCall → Type
  | .list _ => List String
  | .get _ => Option Bytes
  | .put _ _ => Unit

abbrev Reply (c : BrokerCall) : Type := Except String c.Answer

/-- The message of a reply that is an error. -/
def failure (c : BrokerCall) : c.Reply → Option String
  | .ok _ => none
  | .error message => some message

end BrokerCall

def Broker.serve {β : Type} (broker : Broker β) : (c : BrokerCall) → β → c.Reply × β
  | .list start => broker.list start
  | .get key => broker.get key
  | .put key data => broker.put key data

def Broker.of {β : Type} (server : (c : BrokerCall) → β → c.Reply × β) : Broker β where
  list start := server (.list start)
  get key := server (.get key)
  put key data := server (.put key data)

@[simp] theorem Broker.serve_of {β : Type} (server : (c : BrokerCall) → β → c.Reply × β) :
    (Broker.of server).serve = server := by
  funext c
  cases c with
  | list | get | put => rfl

/-- A client of the broker, which ends with an `α`. -/
abbrev Party (α : Type) : Type := Client BrokerCall BrokerCall.Reply α

theorem callBroker_run {σ β α : Type} (read : σ → β) (write : β → σ → σ) (m : Prog β String α) (s : σ) :
    callBroker read write m s = ((m (read s)).1.mapError .brokerError, write (m (read s)).2 s) := by
  cases answer : m (read s) with
  | mk r b =>
      cases r with
      | ok a => exact callBroker_ok answer
      | error message => exact callBroker_error answer

/-! ## Programs as clients -/

section Playable

variable {L κ α γ : Type} {W : Type → Type} (pack : ∀ {β : Type}, L → β → W β)

/-- From the local part `l` the program and the client do the same at every broker. -/
def Plays (m : ∀ β, Broker β → Prog (W β) Raised α) (l : L) (client : Party (Except Raised α × L)) : Prop :=
  ∀ β (broker : Broker β) b, m β broker (pack l b) =
    ((client.play broker.serve b).1.1, pack (client.play broker.serve b).1.2 (client.play broker.serve b).2)

/-- The program is a client that keeps to the protocol and goes from knowledge in `Pre` to
    knowledge in `Post`. -/
def Playable (p : Client.Protocol κ BrokerCall BrokerCall.Reply) (m : ∀ β, Broker β → Prog (W β) Raised α)
    (l : L) (Pre : κ → Prop) (Post : Except Raised α × L → κ → Prop) : Prop :=
  ∃ client, Plays pack m l client ∧ ∀ k, Pre k → client.Follows p Post k

namespace Playable

variable {pack} {p : Client.Protocol κ BrokerCall BrokerCall.Reply}
  {m : ∀ β, Broker β → Prog (W β) Raised α} {f : α → ∀ β, Broker β → Prog (W β) Raised γ} {l l' : L}
  {Pre Pre' : κ → Prop} {Post M : Except Raised α × L → κ → Prop} {Last : Except Raised γ × L → κ → Prop}

theorem weaken (h : Playable pack p m l Pre' Post) (pre : ∀ k, Pre k → Pre' k) : Playable pack p m l Pre Post := by
  obtain ⟨client, plays, follows⟩ := h
  exact ⟨client, plays, fun k known => follows k (pre k known)⟩

theorem strengthen (h : Playable pack p m l Pre M) (post : ∀ out k, M out k → Post out k) :
    Playable pack p m l Pre Post := by
  obtain ⟨client, plays, follows⟩ := h
  refine ⟨client, plays, fun k known => ?_⟩
  exact (follows k known).transfer Eq (fun _ _ _ same => same ▸ id) (fun _ _ _ _ same _ => same ▸ rfl)
    (fun _ _ out same => same ▸ post out _) rfl

/-- What a program does without the broker. -/
theorem alone (l' : L) {r : Except Raised α}
    (run : ∀ β (broker : Broker β) b, m β broker (pack l b) = (r, pack l' b))
    (post : ∀ k, Pre k → Post (r, l') k) : Playable pack p m l Pre Post :=
  ⟨.done (r, l'), run, fun k known => .done (post k known)⟩

theorem congr (l' : L) (m' : ∀ β, Broker β → Prog (W β) Raised α)
    (same : ∀ β (broker : Broker β) b, m β broker (pack l b) = m' β broker (pack l' b))
    (h : Playable pack p m' l' Pre Post) : Playable pack p m l Pre Post := by
  obtain ⟨client, plays, follows⟩ := h
  exact ⟨client, fun β broker b => (same β broker b).trans (plays β broker b), follows⟩

/-- One command. -/
theorem call {c : BrokerCall} {m : ∀ β, Broker β → Prog (W β) Raised c.Answer}
    {Post : Except Raised c.Answer × L → κ → Prop}
    (run : ∀ β (broker : Broker β) b, m β broker (pack l b) =
      ((broker.serve c b).1.mapError .brokerError, pack l (broker.serve c b).2))
    (may : ∀ k, Pre k → p.may k c)
    (post : ∀ k reply, Pre k → Post (reply.mapError .brokerError, l) (p.learn k c reply)) :
    Playable pack p m l Pre Post :=
  ⟨.ask c fun reply => .done (reply.mapError .brokerError, l), run, fun k known =>
    .ask (may k known) fun reply => .done (post k reply known)⟩

theorem bind (first : Playable pack p m l Pre M) (second : ∀ a l', Playable pack p (f a) l' (M (.ok a, l')) Last)
    (failed : ∀ e l' k, M (.error e, l') k → Last (.error e, l') k) :
    Playable pack p (fun β broker => m β broker >>= fun a => f a β broker) l Pre Last := by
  obtain ⟨client, plays, follows⟩ := first
  choose next plays' follows' using second
  let goOn : Except Raised α × L → Party (Except Raised γ × L)
    | (.ok a, l') => next a l'
    | (.error e, l') => .done (.error e, l')
  refine ⟨client.bind goOn, fun β broker b => ?_, fun k known => (follows k known).bind fun out k' mid => ?_⟩
  · have first := plays β broker b
    rw [Client.play_bind]
    cases ran : client.play broker.serve b with
    | mk out b' =>
        obtain ⟨r, l'⟩ := out
        rw [ran] at first
        cases r with
        | error e => exact Prog.bind_error first _
        | ok a => exact (Prog.bind_ok first _).trans (plays' a l' β broker b')
  · obtain ⟨r, l'⟩ := out
    cases r with
    | error e => exact .done (failed e l' k' mid)
    | ok a => exact follows' a l' k' mid

end Playable

end Playable

/-! ## The receiver -/

/-- What a receiver asks: the manifest, the signature and chunks of the id it was given; a list
    of all keys if it was given none. -/
def ReceiverAsks (given : Option String) : BrokerCall → Prop
  | .list start => start = "" ∧ given.filter (· ≠ "") = none
  | .get key => ∀ id, given.filter (· ≠ "") = some id →
      key = manifestKey id ∨ key = signatureKey id ∨ ∃ i, key = chunkKey id i
  | .put _ _ => False

section Receiver

variable {α γ : Type} {own : BrokerCall → Prop}

/-- The files of a receiver and its broker. -/
def atDisk {β : Type} (disk : Disk) (broker : β) : World β := { toDisk := disk, broker := broker }

/-- A program that saw an error of the broker ends with it. -/
def Stopped (out : Except Raised α × Disk) (seen : Option String) : Prop :=
  ∀ message, seen = some message → out.1 = .error (.brokerError message)

/-- The program asks nothing but what `own` allows, and nothing after an error. -/
def Reading (own : BrokerCall → Prop) (m : ∀ β, Broker β → Prog (World β) Raised α) (disk : Disk) : Prop :=
  Playable atDisk (.stopping own BrokerCall.failure) m disk (· = none) Stopped

variable {m : ∀ β, Broker β → Prog (World β) Raised α} {f : α → ∀ β, Broker β → Prog (World β) Raised γ}
  {disk disk' : Disk}

theorem Stopped.none (out : Except Raised α × Disk) : Stopped out none := by
  intro message seen
  cases seen

theorem Stopped.seen {a : α} {seen : Option String} (h : Stopped (.ok a, disk) seen) : seen = .none := by
  cases seen with
  | none => rfl
  | some message => cases h message rfl

theorem Stopped.error {e : Raised} {seen : Option String} (h : Stopped ((.error e : Except Raised α), disk) seen) :
    Stopped ((.error e : Except Raised γ), disk) seen := by
  intro message same
  cases h message same
  rfl

theorem Reading.alone (disk' : Disk) {r : Except Raised α}
    (run : ∀ β (broker : Broker β) b, m β broker (atDisk disk b) = (r, atDisk disk' b)) : Reading own m disk := by
  apply Playable.alone disk' run
  rintro _ rfl
  exact Stopped.none _

theorem Reading.bind (first : Reading own m disk) (second : ∀ a disk, Reading own (f a) disk) :
    Reading own (fun β broker => m β broker >>= fun a => f a β broker) disk :=
  Playable.bind first (fun a disk => (second a disk).weaken fun _ => Stopped.seen) fun _ _ _ => Stopped.error

theorem Reading.python (r : Except PyError α) : Reading own (fun _ _ => ApproachB.python r) disk :=
  .alone _ fun _ _ _ => rfl

theorem Reading.verify (c : Prop) [Decidable c] (reason : Rejection) :
    Reading own (fun _ _ => ApproachB.verify c reason) disk := .alone _ fun _ _ _ => rfl

theorem Reading.reject (reason : Rejection) :
    Reading own (fun _ _ => (ApproachB.reject reason : Prog _ Raised α)) disk := .alone _ fun _ _ _ => rfl

theorem Reading.pure (a : α) : Reading own (fun _ _ => (Pure.pure a : Prog _ Raised α)) disk :=
  .alone _ fun _ _ _ => rfl

theorem Reading.call {c : BrokerCall} {m : ∀ β, Broker β → Prog (World β) Raised c.Answer}
    (run : ∀ β (broker : Broker β) b, m β broker (atDisk disk b) =
      ((broker.serve c b).1.mapError .brokerError, atDisk disk (broker.serve c b).2)) (may : own c) :
    Reading own m disk := by
  apply Playable.call run
  · exact fun _ fresh => ⟨fresh, may⟩
  · intro _ reply _ message same
    cases reply with
    | ok a => cases same
    | error e =>
        cases same
        rfl

theorem Reading.get (key : String) (may : own (.get key)) :
    Reading own (fun _ broker => onBroker (broker.get key)) disk :=
  .call (c := .get key) (fun _ _ _ => callBroker_run _ _ _ _) may

theorem Reading.list (start : String) (may : own (.list start)) :
    Reading own (fun _ broker => onBroker (broker.list start)) disk :=
  .call (c := .list start) (fun _ _ _ => callBroker_run _ _ _ _) may

theorem Reading.update {change : ∀ β, World β → World β} (disk' : Disk)
    (same : ∀ β (b : β), change β (atDisk disk b) = atDisk disk' b) :
    Reading own (fun β _ => Prog.update (change β)) disk :=
  .alone disk' (r := .ok ()) fun β _ b => Prod.ext rfl (same β b)

/-- A program that goes on with its files goes on with its local files. -/
theorem Reading.files {g : Disk → ∀ β, Broker β → Prog (World β) Raised α}
    {f : ∀ β, Broker β → World β → Prog (World β) Raised α}
    (same : ∀ β (broker : Broker β) b, f β broker (atDisk disk b) = g disk β broker)
    (h : Reading own (g disk) disk) : Reading own (fun β broker => Prog.get >>= f β broker) disk :=
  Playable.congr disk _ (fun β broker b => congrFun (same β broker b) _) h

theorem replayDefence_reading (args : Args) (transferIdHex : String) (age : Int) :
    Reading own (fun _ _ => replayDefence args transferIdHex age) disk := by
  unfold replayDefence
  split
  · exact .pure _
  · apply Reading.bind (.verify _ _)
    intro _ disk
    apply Reading.bind (.verify _ _)
    intro _ disk
    apply Reading.files (g := fun disk _ _ => do
      let seen ← ApproachB.python (loadLedger disk.ledger)
      ApproachB.verify (¬ Json.contains (.text transferIdHex) seen) .alreadyCompleted) fun _ _ _ => rfl
    apply Reading.bind (.python _)
    exact fun _ _ => .verify _ _

theorem fetchVerifiedManifest_reading (P : Primitives) (args : Args) {transferIdHex : String}
    (manifest : own (.get (manifestKey transferIdHex))) (signature : own (.get (signatureKey transferIdHex))) :
    Reading own (fun _ broker => fetchVerifiedManifest P broker args transferIdHex) disk := by
  apply Reading.bind (.get _ manifest)
  intro manifestBytes disk
  apply Reading.bind (.get _ signature)
  intro signature disk
  cases manifestBytes with
  | none => exact .reject _
  | some manifestBytes =>
      cases signature with
      | none => exact .reject _
      | some signature =>
          apply Reading.bind (.verify _ _)
          intro _ disk
          apply Reading.bind (.python _)
          intro manifest disk
          apply Reading.bind (.python _)
          intro version disk
          apply Reading.bind (.verify _ _)
          intro _ disk
          apply Reading.bind (.python _)
          intro named disk
          apply Reading.bind (.verify _ _)
          intro _ disk
          apply Reading.bind (.python _)
          intro createdAt disk
          apply Reading.bind (replayDefence_reading args transferIdHex _)
          intro _ disk
          apply Reading.bind (.python _)
          intro _ disk
          apply Reading.bind (.python _)
          exact fun _ _ => .pure _

theorem resume_reading (transferIdHex : String) : Reading own (fun _ _ => resume transferIdHex) disk := by
  cases loads : loadProgress disk.progress transferIdHex with
  | error e =>
      apply Reading.alone disk (r := .error (.python e))
      intro β broker b
      rw [resume_run, atDisk, loads]
  | ok done =>
      by_cases nothing : done = [] ∨ disk.part = none
      · apply Reading.alone { disk with part := some [] } (r := .ok [])
        intro β broker b
        rw [resume_run, atDisk, loads]
        exact if_pos nothing
      · apply Reading.alone disk (r := .ok done)
        intro β broker b
        rw [resume_run, atDisk, loads]
        exact if_neg nothing

theorem saveProgress_reading (transferIdHex : String) (done : List Json) :
    Reading own (fun _ _ => saveProgress transferIdHex done) disk := by
  apply Reading.bind (.python _)
  intro done disk
  exact .update { disk with progress := some (Json.dumpFile (progressFile transferIdHex done)) } fun _ _ => rfl

theorem fetchChunk_reading (P : Primitives) (plan : Plan) (index : Nat)
    (chunk : own (.get (chunkKey plan.transferIdHex index))) :
    Reading own (fun _ broker => fetchChunk P broker plan index) disk := by
  unfold fetchChunk
  cases findRecord plan.records index with
  | none => exact .python _
  | some record =>
      apply Reading.bind (.get _ chunk)
      intro ct disk
      cases ct with
      | none => exact .reject _
      | some ct =>
          apply Reading.bind (.python _)
          intro expected disk
          apply Reading.bind (.verify _ _)
          intro _ disk
          apply Reading.bind (.python _)
          intro nonce disk
          apply Reading.bind (.python _)
          intro aad disk
          cases P.decrypt plan.chunkKey nonce ct aad with
          | none => exact .reject _
          | some plain =>
              apply Reading.bind (.python _)
              intro length disk
              apply Reading.bind (.verify _ _)
              exact fun _ _ => .pure _

theorem storeChunk_reading (plan : Plan) (index : Nat) (plain : Bytes) (done : List Json) :
    Reading own (fun _ _ => storeChunk plan index plain done) disk := by
  apply Reading.bind
  · exact .update { disk with part := disk.part.map (writeAt 0 (index * chunkSize) plain) } fun _ _ => rfl
  · intro _ disk
    apply Reading.bind (saveProgress_reading _ _)
    exact fun _ _ => .pure _

theorem chunkLoop_reading (P : Primitives) (plan : Plan) (chunks : ∀ i, own (.get (chunkKey plan.transferIdHex i)))
    (indices : List Nat) (done : List Json) (disk : Disk) :
    Reading own (fun _ broker => chunkLoop P broker plan indices done) disk := by
  induction indices generalizing done disk with
  | nil => exact .pure _
  | cons index rest ih =>
      unfold chunkLoop
      split
      · exact ih done disk
      · apply Reading.bind (fetchChunk_reading P plan index (chunks index))
        intro plain disk
        apply Reading.bind (storeChunk_reading plan index plain done)
        exact ih

theorem verifyWhole_reading (P : Primitives) (manifest : Json) :
    Reading own (fun _ _ => verifyWhole P manifest) disk := by
  cases part : disk.part with
  | none =>
      apply Reading.files (g := fun _ _ _ => ApproachB.python (.error .fileNotFoundError))
      · intro β broker b
        simp only [atDisk, part]
      · exact .python _
  | some content =>
      apply Reading.files (g := fun _ _ _ => do
        let size ← ApproachB.python (manifest.item "file_size")
        ApproachB.verify (size.eqInt content.length) .sizeMismatch
        let expected ← ApproachB.python (manifest.item "plaintext_sha256")
        ApproachB.verify (expected.eqStr (P.hexDigest content)) (.digestMismatch (P.hexDigest content) expected))
      · intro β broker b
        simp only [atDisk, part]
      · apply Reading.bind (.python _)
        intro size disk
        apply Reading.bind (.verify _ _)
        intro _ disk
        apply Reading.bind (.python _)
        exact fun _ _ => .verify _ _

theorem recordCompleted_reading (transferIdHex : String) :
    Reading own (fun _ _ => recordCompleted transferIdHex) disk := by
  apply Reading.files (g := fun disk _ _ => do
    let seen ← ApproachB.python (loadLedger disk.ledger)
    let seen := Json.insert seen (.str transferIdHex)
    Prog.update fun w => { w with ledger := some [] }
    let items ← ApproachB.python (Json.sorted seen)
    Prog.update fun w => { w with ledger := some (Json.dumpFile (.arr items)) }) fun _ _ _ => rfl
  apply Reading.bind (.python _)
  intro seen disk
  apply Reading.bind
  · exact .update { disk with ledger := some [] } fun _ _ => rfl
  · intro _ disk
    apply Reading.bind (.python _)
    intro items disk
    exact .update { disk with ledger := some (Json.dumpFile (.arr items)) } fun _ _ => rfl

theorem complete_reading (transferIdHex : String) (manifest : Json) :
    Reading own (fun _ _ => complete transferIdHex manifest) disk := by
  apply Reading.bind
  · exact .update { disk with out := disk.part, part := none } fun _ _ => rfl
  intro _ disk
  apply Reading.bind
  · exact .update { disk with progress := none } fun _ _ => rfl
  intro _ disk
  apply Reading.bind (recordCompleted_reading transferIdHex)
  intro _ disk
  apply Reading.bind (.python _)
  exact fun _ _ => .pure _

/-- What is left of a run once its manifest was checked. -/
theorem planned_reading (P : Primitives) (own : BrokerCall → Prop) (disk : Disk) (manifest : Json) (plan : Plan)
    (chunks : ∀ i, own (.get (chunkKey plan.transferIdHex i))) :
    Reading own (fun _ broker => do
      let done ← resume plan.transferIdHex
      let done ← chunkLoop P broker plan (List.range plan.totalChunks) done
      saveProgress plan.transferIdHex done
      verifyWhole P manifest
      pure (manifest, plan)) disk := by
  apply Reading.bind (resume_reading _)
  intro done disk
  apply Reading.bind (chunkLoop_reading P plan chunks _ _ _)
  intro done disk
  apply Reading.bind (saveProgress_reading _ _)
  intro _ disk
  apply Reading.bind (verifyWhole_reading P manifest)
  exact fun _ _ => .pure _

/-- What is prepared of a transfer is its plan. -/
def PlansFor (id : String) (out : Except Raised (Json × Plan) × Disk) (seen : Option String) : Prop :=
  Stopped out seen ∧ ∀ found, out.1 = .ok found → found.2.transferIdHex = id

theorem PlansFor.error {id : String} {e : Raised} {seen : Option String}
    (h : Stopped ((.error e : Except Raised α), disk) seen) : PlansFor id (.error e, disk) seen := by
  refine ⟨h.error, fun found same => ?_⟩
  cases same

/-- A run whose id is known makes a plan for that id. -/
theorem resolved_reading (P : Primitives) (args : Args) {transferIdHex : String}
    (manifest : own (.get (manifestKey transferIdHex))) (signature : own (.get (signatureKey transferIdHex))) :
    Playable atDisk (.stopping own BrokerCall.failure) (fun β broker => (do
      let transferId ← ApproachB.python ((fromHex transferIdHex).elim (.error .valueError) .ok)
      let manifest ← fetchVerifiedManifest P broker args transferIdHex
      let plan ← planTransfer P args transferIdHex transferId manifest
      pure (manifest, plan) : Prog (World β) Raised (Json × Plan))) disk (· = none) (PlansFor transferIdHex) := by
  apply Playable.bind (Reading.python _) ?_ fun e l k => PlansFor.error
  intro transferId disk
  apply Playable.weaken _ fun _ => Stopped.seen
  apply Playable.bind (fetchVerifiedManifest_reading P args manifest signature) ?_ fun e l k => PlansFor.error
  intro manifest disk
  apply Playable.weaken _ fun _ => Stopped.seen
  have planned : Playable atDisk (.stopping own BrokerCall.failure)
      (fun _ _ => planTransfer P args transferIdHex transferId manifest) disk (· = none)
        fun out seen => Stopped out seen ∧ ∀ plan, out.1 = .ok plan → plan.transferIdHex = transferIdHex := by
    have failed : ∀ (e : Raised) disk seen, Stopped ((.error e : Except Raised Json), disk) seen →
        Stopped ((.error e : Except Raised Plan), disk) seen ∧
          ∀ plan : Plan, (.error e : Except Raised Plan) = .ok plan → plan.transferIdHex = transferIdHex := by
      intro e disk seen stopped
      refine ⟨stopped.error, fun plan same => ?_⟩
      cases same
    apply Playable.bind (Reading.python _) ?_ fun e l k stopped => failed e l k stopped.error
    intro records disk
    apply Playable.weaken _ fun _ => Stopped.seen
    cases records with
    | none =>
        apply Playable.alone disk (r := .error (.verificationError .chunkListIncomplete)) fun _ _ _ => rfl
        rintro _ rfl
        exact failed _ _ _ (Stopped.none _)
    | some records =>
        apply Playable.bind (Reading.python _) ?_ fun e l k stopped => failed e l k stopped.error
        intro key disk
        apply Playable.weaken _ fun _ => Stopped.seen
        apply Playable.alone disk fun _ _ _ => rfl
        rintro _ rfl
        refine ⟨Stopped.none _, fun plan same => ?_⟩
        cases same
        rfl
  apply Playable.bind planned ?_ fun e l k stopped => PlansFor.error stopped.1
  intro plan disk
  apply Playable.alone disk fun _ _ _ => rfl
  rintro seen ⟨stopped, named⟩
  obtain rfl := stopped.seen
  refine ⟨Stopped.none _, fun found same => ?_⟩
  cases same
  exact named plan rfl

/-- A run of the receiver is a client that asks for the manifest, the signature and the chunks of
    its id, and for a list if it was given none, until a reply is an error. -/
theorem receive_reading (P : Primitives) (args : Args) (disk : Disk) :
    Reading (ReceiverAsks args.transferId) (fun _ broker => receive P broker args) disk := by
  have downloaded : Reading (ReceiverAsks args.transferId) (fun _ broker => download P broker args) disk := by
    cases given : args.transferId.filter (· ≠ "") with
    | none =>
        -- any key may be asked for once the list has told the id
        have may : ∀ key, ReceiverAsks args.transferId (.get key) := by
          intro key id same
          rw [given] at same
          cases same
        apply Reading.bind
        · apply Reading.bind
          · unfold resolveTransferId
            rw [given]
            apply Reading.bind (.list "" ⟨rfl, given⟩)
            intro keys disk
            split
            · exact .pure _
            · exact .reject _
            · exact .reject _
          · intro transferIdHex disk
            exact Playable.strengthen (resolved_reading P args (may _) (may _)) fun _ _ => And.left
        · rintro ⟨manifest, plan⟩ disk
          exact planned_reading P _ disk manifest plan fun _ => may _
    | some id =>
        have may : ∀ key, (key = manifestKey id ∨ key = signatureKey id ∨ ∃ i, key = chunkKey id i) →
            ReceiverAsks args.transferId (.get key) := by
          intro key known id' same
          rw [given] at same
          cases same
          exact known
        have prepared : Playable atDisk (.stopping (ReceiverAsks args.transferId) BrokerCall.failure)
            (fun _ broker => prepare P broker args) disk (· = none) (PlansFor id) := by
          apply Playable.congr disk _ ?_ (resolved_reading P args (may _ (.inl rfl)) (may _ (.inr (.inl rfl))))
          intro β broker b
          unfold prepare resolveTransferId
          rw [given]
          rfl
        apply Playable.bind prepared
        · rintro ⟨manifest, plan⟩ disk
          by_cases named : plan.transferIdHex = id
          · apply Playable.weaken (planned_reading P _ disk manifest plan fun i => ?_) fun _ returned => returned.1.seen
            rw [named]
            exact may _ (.inr (.inr ⟨i, rfl⟩))
          · -- no plan is made for another id
            obtain ⟨client, plays, _⟩ := planned_reading P (fun _ => True) disk manifest plan
              fun _ => trivial
            exact ⟨client, plays, fun k returned => absurd (returned.2 _ rfl) named⟩
        · exact fun _ _ _ returned => returned.1.error
  apply Reading.bind downloaded
  intro verified disk
  exact complete_reading _ _

end Receiver

/-! ## The sender -/

/-- What a sender of `t` may ask when it knows which keys are stored: it puts a manifest when
    every chunk is stored, and a signature when the manifest is. -/
inductive MayUpload {P : Primitives} (t : Transfer P) (signature : Bytes) (stored : String → Prop) :
    BrokerCall → Prop where
  | list : MayUpload t signature stored (.list (t.hexId ++ "/"))
  | chunk {i : Nat} (inside : i < t.total) (small : i < 2 ^ 64) :
      MayUpload t signature stored (.put (chunkKey t.hexId i) (t.ciphertext i))
  | manifest (chunks : ∀ i < t.total, stored (chunkKey t.hexId i)) :
      MayUpload t signature stored (.put (manifestKey t.hexId) t.manifestBytes)
  | signature (manifest : stored (manifestKey t.hexId)) :
      MayUpload t signature stored (.put (signatureKey t.hexId) signature)

/-- A sender learns that a chunk is stored when it is listed, and that a blob is when its PUT
    is answered. -/
def Learns {P : Primitives} (t : Transfer P) (key : String) : (c : BrokerCall) → c.Reply → Prop
  | .list start, reply => start = t.hexId ++ "/" ∧
      ∃ keys : List String, reply = .ok keys ∧ key ∈ keys ∧ ∃ i < t.total, key = chunkKey t.hexId i
  | .put put _, reply => reply = .ok () ∧ key = put
  | .get _, _ => False

def uploading {P : Primitives} (t : Transfer P) (signature : Bytes) :
    Client.Protocol (String → Prop) BrokerCall BrokerCall.Reply where
  may stored := MayUpload t signature stored
  learn stored c reply key := stored key ∨ Learns t key c reply

/-- What a sender works on besides its broker. -/
structure SenderFiles where
  state : Option Bytes
  encrypted : List Encryption
  signed : List Bytes

def atSender {β : Type} (files : SenderFiles) (broker : β) : SenderWorld β where
  broker := broker
  state := files.state
  encrypted := files.encrypted
  signed := files.signed

section Sender

variable {P : Primitives} {t : Transfer P} {signature : Bytes} {files : SenderFiles} {known : String → Prop}

theorem putMissing_playable {already : List String} {i : Nat} (inside : i < t.total) (small : i < 2 ^ 64)
    (listed : chunkKey t.hexId i ∈ already → known (chunkKey t.hexId i)) :
    Playable atSender (uploading t signature)
      (fun _ broker => putMissing broker already (chunkKey t.hexId i) (t.ciphertext i)) files
      (fun stored => ∀ key, known key → stored key) fun out stored => out.1 = .ok () →
        ∀ key, known key ∨ key = chunkKey t.hexId i → stored key := by
  unfold putMissing
  split
  · rename_i there
    apply Playable.alone files fun _ _ _ => rfl
    rintro stored before _ key (old | rfl)
    · exact before key old
    · exact before _ (listed there)
  · apply Playable.call (c := .put (chunkKey t.hexId i) (t.ciphertext i)) fun _ _ _ => callBroker_run _ _ _ _
    · exact fun _ _ => .chunk inside small
    · rintro stored reply before answered key (old | rfl)
      · exact .inl (before key old)
      · refine .inr ⟨?_, rfl⟩
        cases reply with
        | error e => cases answered
        | ok a => rfl

/-- What a sender knows after the chunks `indices`. -/
def Uploaded (t : Transfer P) (known : String → Prop) (indices : List Nat)
    (out : Except Raised (List Json × Bytes) × SenderFiles) (stored : String → Prop) : Prop :=
  ∀ uploaded, out.1 = .ok uploaded → uploaded = (indices.map t.record, (indices.map t.plain).flatten) ∧
    ∀ key, (known key ∨ ∃ i ∈ indices, key = chunkKey t.hexId i) → stored key

theorem Uploaded.error (indices : List Nat) (e : Raised) (files : SenderFiles) (stored : String → Prop) :
    Uploaded t known indices (.error e, files) stored := by
  intro uploaded same
  cases same

theorem uploadChunks_playable {already : List String}
    (listed : ∀ i < t.total, chunkKey t.hexId i ∈ already → known (chunkKey t.hexId i)) {indices : List Nat}
    (inside : ∀ i ∈ indices, i < t.total) (files : SenderFiles) :
    Playable atSender (uploading t signature)
      (fun _ broker => uploadChunks P broker t.session t.file t.total already indices) files
      (fun stored => ∀ key, known key → stored key) (Uploaded t known indices) := by
  induction indices generalizing known files with
  | nil =>
      apply Playable.alone files fun _ _ _ => rfl
      intro stored before uploaded same
      cases same
      refine ⟨rfl, fun key there => before key ?_⟩
      simpa using there
  | cons index rest ih =>
      have here := inside index (List.mem_cons_self ..)
      cases counter : chunkNonce index with
      | error e =>
          apply Playable.alone files (r := .error (.python e))
          · intro β broker b
            rw [uploadChunks, counter]
            rfl
          · exact fun stored _ => Uploaded.error _ _ _ _
      | ok nonce =>
          obtain ⟨small, rfl⟩ := chunkNonce_ok counter
          cases bound : chunkAad t.session.transferId index t.total with
          | error e =>
              apply Playable.alone files (r := .error (.python e))
              · intro β broker b
                rw [uploadChunks, counter, bound]
                rfl
              · exact fun stored _ => Uploaded.error _ _ _ _
          | ok aad =>
              obtain ⟨_, _, rfl⟩ := chunkAad_ok bound
              apply Playable.congr { files with encrypted := files.encrypted ++ [t.encryption index] }
                (fun β broker =>
                  putMissing broker already (chunkKey t.hexId index) (t.ciphertext index) >>= fun _ =>
                    uploadChunks P broker t.session t.file t.total already rest >>= fun later =>
                      pure (t.record index :: later.1, t.plain index ++ later.2))
              · intro β broker b
                rw [uploadChunks, counter, bound, Prog.bind_ok (python_ok _ _), Prog.bind_ok (python_ok _ _),
                  Prog.bind_ok (Prog.update_run _ _), t.session_id.1, t.session_id.2]
                rfl
              apply Playable.bind (putMissing_playable here small (listed index here))
              · intro _ files
                have listed' := fun i inside member => Or.inl (b := chunkKey t.hexId i = chunkKey t.hexId index)
                  (listed i inside member)
                have later : Playable atSender (uploading t signature)
                    (fun _ broker => uploadChunks P broker t.session t.file t.total already rest) files
                    (fun stored => ∀ key, (known key ∨ key = chunkKey t.hexId index) → stored key)
                    (Uploaded t (fun key => known key ∨ key = chunkKey t.hexId index) rest) :=
                  ih listed' (fun i member => inside i (List.mem_cons_of_mem index member)) files
                apply Playable.bind (later.weaken fun stored before => before rfl)
                · intro out files
                  apply Playable.alone files fun _ _ _ => rfl
                  intro stored after uploaded same
                  cases same
                  obtain ⟨rfl, knows⟩ := after out rfl
                  refine ⟨rfl, fun key there => knows key ?_⟩
                  rcases there with old | ⟨i, member, rfl⟩
                  · exact .inl (.inl old)
                  · rcases List.mem_cons.mp member with rfl | member
                    · exact .inl (.inr rfl)
                    · exact .inr ⟨i, member, rfl⟩
                · exact fun e files stored _ => Uploaded.error _ _ _ _
              · exact fun e files stored _ => Uploaded.error _ _ _ _

theorem publish_playable (args : SendArgs) (signs : signature = P.sign args.signingKey t.manifestBytes)
    (files : SenderFiles) :
    Playable atSender (uploading t signature)
      (fun _ broker => publish P broker args t.hexId (.obj t.members)) files
      (fun stored => ∀ i < t.total, stored (chunkKey t.hexId i)) fun out stored => out.1 = .ok () →
        (∀ i < t.total, stored (chunkKey t.hexId i)) ∧ stored (manifestKey t.hexId) ∧
          stored (signatureKey t.hexId) := by
  apply Playable.congr { files with signed := files.signed ++ [t.manifestBytes] }
    (fun β broker => onSenderBroker (broker.put (manifestKey t.hexId) t.manifestBytes) >>= fun _ =>
      onSenderBroker (broker.put (signatureKey t.hexId) signature))
  · intro β broker b
    rw [publish, Prog.bind_ok (Prog.update_run _ _), signs]
    rfl
  apply Playable.bind (M := fun out stored => out.1 = .ok () →
    (∀ i < t.total, stored (chunkKey t.hexId i)) ∧ stored (manifestKey t.hexId))
  · apply Playable.call (c := .put (manifestKey t.hexId) t.manifestBytes) fun _ _ _ => callBroker_run _ _ _ _
    · exact fun stored chunks => .manifest chunks
    · intro stored reply chunks answered
      refine ⟨fun i inside => .inl (chunks i inside), .inr ⟨?_, rfl⟩⟩
      cases reply with
      | error e => cases answered
      | ok a => rfl
  · intro _ files
    apply Playable.call (c := .put (signatureKey t.hexId) signature) fun _ _ _ => callBroker_run _ _ _ _
    · exact fun stored before => .signature (before rfl).2
    · intro stored reply before answered
      obtain ⟨chunks, manifest⟩ := before rfl
      refine ⟨fun i inside => .inl (chunks i inside), .inl manifest, .inr ⟨?_, rfl⟩⟩
      cases reply with
      | error e => cases answered
      | ok a => rfl
  · intro e files stored _ same
    cases same

theorem publish_client (args : SendArgs) (transferIdHex : String) (manifest : Json) (files : SenderFiles) :
    ∃ client, Plays atSender (fun _ broker => publish P broker args transferIdHex manifest) files client := by
  let bytes := canonicalManifestBytes manifest
  have uploads : Playable atSender (.asking fun _ => True)
      (fun _ broker => publish P broker args transferIdHex manifest) files (fun _ => True) fun _ _ => True := by
    apply Playable.congr { files with signed := files.signed ++ [bytes] }
      (fun β broker => onSenderBroker (broker.put (manifestKey transferIdHex) bytes) >>= fun _ =>
        onSenderBroker (broker.put (signatureKey transferIdHex) (P.sign args.signingKey bytes)))
    · exact fun β broker b => Prog.bind_ok (Prog.update_run _ _) _
    · have put : ∀ key data files, Playable (α := Unit) atSender (.asking fun _ => True)
          (fun _ broker => onSenderBroker (broker.put key data)) files (fun _ => True) fun _ _ => True :=
        fun key data files => Playable.call (c := .put key data) (fun _ _ _ => callBroker_run _ _ _ _)
          (fun _ _ => trivial) fun _ _ _ => trivial
      exact Playable.bind (put _ _ _) (fun _ files => put _ _ files) fun _ _ _ _ => trivial
  obtain ⟨client, plays, _⟩ := uploads
  exact ⟨client, plays⟩

/-- What a sender knows when it returned 0. -/
def UploadedAll (t : Transfer P) (out : Except Raised Int × SenderFiles) (stored : String → Prop) : Prop :=
  out.1 = .ok 0 → (∀ i < t.total, stored (chunkKey t.hexId i)) ∧ stored (manifestKey t.hexId) ∧
    stored (signatureKey t.hexId)

theorem UploadedAll.error (e : Raised) (files : SenderFiles) (stored : String → Prop) :
    UploadedAll t (.error e, files) stored := by
  intro same
  cases same

/-- A run of the sender on `t` is a client that uploads `t` in order. -/
theorem sendFile_playable (files : SenderFiles) (args : SendArgs) (saved : Option Saved)
    (persisted : files.state = saved.map (·.bytes P))
    (chose : t.saved = chosen saved args t.file.length) (receiver : t.receiverPub = args.receiverPub)
    (named : t.basename = args.basename) (signs : signature = P.sign args.signingKey t.manifestBytes) :
    Playable atSender (uploading t signature) (fun _ broker => sendFile P broker args t.file) files
      (fun _ => True) (UploadedAll t) := by
  have opened := t.opened
  rw [receiver, chose] at opened
  have created : (t.saved.json P).item "created_at" = .ok (.int t.saved.createdAt) := rfl
  let finish (uploaded : List Json × Bytes) (β : Type) (broker : Broker β) : Prog (SenderWorld β) Raised Int :=
    publish P broker args t.hexId (.obj (manifestMembers P t.basename t.session (.int t.saved.createdAt)
      t.file.length t.total uploaded.1 uploaded.2)) >>= fun _ =>
        Prog.update (fun w => { w with state := none }) >>= fun _ => pure 0
  apply Playable.congr { files with state := some (t.saved.bytes P) }
    (fun β broker => onSenderBroker (broker.list (t.hexId ++ "/")) >>= fun already =>
      uploadChunks P broker t.session t.file t.total already (List.range t.total) >>= fun uploaded =>
        finish uploaded β broker)
  · intro β broker b
    have loaded := loadOrCreateState_run P args t.file.length saved (w := atSender files b) persisted
    rw [sendFile, Prog.bind_ok loaded, Prog.bind_ok (python_run_ok opened _), ← chose, t.session_id.1, ← named]
    rfl
  apply Playable.bind (M := fun out stored => ∀ already : List String, out.1 = .ok already →
    ∀ i < t.total, chunkKey t.hexId i ∈ already → stored (chunkKey t.hexId i))
  · apply Playable.call (c := .list (t.hexId ++ "/")) fun _ _ _ => callBroker_run _ _ _ _
    · exact fun _ _ => .list
    · intro stored reply _ already answered i inside member
      refine .inr ⟨rfl, already, ?_, member, i, inside, rfl⟩
      cases reply with
      | error e => cases answered
      | ok keys => exact congrArg Except.ok (Except.ok.inj answered)
  · intro already files
    let known key := ∃ i < t.total, key = chunkKey t.hexId i ∧ key ∈ already
    have uploads : Playable atSender (uploading t signature)
        (fun _ broker => uploadChunks P broker t.session t.file t.total already (List.range t.total)) files
        (fun stored => ∀ key, known key → stored key) (Uploaded t known (List.range t.total)) :=
      uploadChunks_playable (fun i inside member => ⟨i, inside, rfl, member⟩) (fun i => List.mem_range.mp) files
    apply Playable.bind (uploads.weaken ?_)
    · intro uploaded files
      by_cases all : uploaded = ((List.range t.total).map t.record, ((List.range t.total).map t.plain).flatten)
      · subst all
        have publishes := publish_playable (t := t) args signs files
        apply Playable.bind (publishes.weaken fun stored after i inside => ?_)
        · intro _ files
          apply Playable.alone { files with state := none } (r := .ok 0)
          · exact fun _ _ _ => rfl
          · exact fun stored after _ => after rfl
        · exact fun e files stored _ => UploadedAll.error _ _ _
        · exact (after _ rfl).2 _ (.inr ⟨i, List.mem_range.mpr inside, rfl⟩)
      · -- an upload returns nothing else
        obtain ⟨client, plays⟩ := publish_client (P := P) args t.hexId (.obj (manifestMembers P t.basename t.session
          (.int t.saved.createdAt) t.file.length t.total uploaded.1 uploaded.2)) files
        have asks : Playable atSender (uploading t signature) (finish uploaded) files (fun _ => False) (UploadedAll t) :=
          Playable.bind (M := fun _ _ => False) ⟨client, plays, fun _ => False.elim⟩
            (fun _ files => Playable.alone { files with state := none } (r := .ok 0) (fun _ _ _ => rfl)
              fun _ => False.elim)
            fun _ _ _ => False.elim
        exact asks.weaken fun stored after => all (after _ rfl).1
    · exact fun e files stored _ => UploadedAll.error _ _ _
    · rintro stored before key ⟨i, inside, rfl, member⟩
      exact before already rfl i inside member
  · exact fun e files stored _ => UploadedAll.error _ _ _

end Sender

/-! ## Jobs -/

/-- A run of one of the two programs, with the files it starts from. -/
inductive Job where
  | send (args : SendArgs) (saved : Option Saved)
  | receive (args : Args) (disk : Disk)

namespace Job

def Files : Job → Type
  | send .. => SenderFiles
  | receive .. => Disk

/-- How a run ends and what it leaves in its files. -/
abbrev Result (job : Job) : Type := Except Raised Int × job.Files

def run (P : Primitives) {β : Type} (broker : Broker β) : (job : Job) → β → job.Result × β
  | send args saved, b =>
      let (r, w) := ApproachB.send P broker args (atSender ⟨saved.map (·.bytes P), [], []⟩ b)
      ((r, ⟨w.state, w.encrypted, w.signed⟩), w.broker)
  | receive args disk, b =>
      let (r, w) := ApproachB.receive P broker args (atDisk disk b)
      ((r, w.toDisk), w.broker)

/-- The job and the client do the same at every broker. -/
def PlayedBy (P : Primitives) (job : Job) (client : Party job.Result) : Prop :=
  ∀ β (broker : Broker β) b, job.run P broker b = client.play broker.serve b

/-- A job that works on `t`. -/
inductive Sends {P : Primitives} (t : Transfer P) (signature : Bytes) : Job → Prop where
  | send {args : SendArgs} {saved : Option Saved} (source : args.file = some t.file)
      (chose : t.saved = chosen saved args t.file.length) (receiver : t.receiverPub = args.receiverPub)
      (named : t.basename = args.basename) (signs : signature = P.sign args.signingKey t.manifestBytes) :
      Sends t signature (send args saved)

variable {P : Primitives}

theorem PlayedBy.send {args : SendArgs} {saved : Option Saved} {client : Party (Except Raised Int × SenderFiles)}
    (h : Plays atSender (fun _ broker => ApproachB.send P broker args) ⟨saved.map (·.bytes P), [], []⟩ client) :
    PlayedBy P (send args saved) client := by
  intro β broker b
  have ran : ApproachB.send P broker args (atSender ⟨saved.map (·.bytes P), [], []⟩ b) = _ := h β broker b
  rw [run, ran]
  rfl

theorem PlayedBy.receive {args : Args} {disk : Disk} {client : Party (Except Raised Int × Disk)}
    (h : Plays atDisk (fun _ broker => ApproachB.receive P broker args) disk client) :
    PlayedBy P (receive args disk) client := by
  intro β broker b
  have ran : ApproachB.receive P broker args (atDisk disk b) = _ := h β broker b
  rw [run, ran]
  rfl

theorem PlayedBy.unique {job : Job} {client client' : Party job.Result} (h : PlayedBy P job client)
    (h' : PlayedBy P job client') : client = client' := by
  have replies : ∀ c : BrokerCall, Nonempty c.Reply := fun c => ⟨.error ""⟩
  apply Client.eq_of_play
  intro σ server s
  rw [← Broker.serve_of server]
  exact (h σ (.of server) s).symm.trans (h' σ (.of server) s)

theorem Sends.follows {t : Transfer P} {signature : Bytes} {job : Job} (sends : Sends t signature job) :
    ∃ client, PlayedBy P job client ∧ ∀ stored, client.Follows (uploading t signature)
      (fun result stored => result.1 = .ok 0 → (∀ i < t.total, stored (chunkKey t.hexId i)) ∧
        stored (manifestKey t.hexId) ∧ stored (signatureKey t.hexId)) stored := by
  cases sends with
  | @send args saved source chose receiver named signs =>
      obtain ⟨client, plays, follows⟩ := sendFile_playable ⟨saved.map (·.bytes P), [], []⟩ args saved rfl
        chose receiver named signs
      refine ⟨client, .send fun β broker b => ?_, fun stored => follows stored trivial⟩
      have same : ApproachB.send P broker args = sendFile P broker args t.file := by
        rw [ApproachB.send, source]
      exact (congrFun same _).trans (plays β broker b)

/-- A send run works on a transfer or asks for nothing. -/
theorem send_cases (P : Primitives) (args : SendArgs) (saved : Option Saved) :
    (∃ (t : Transfer P) (signature : Bytes), Sends t signature (send args saved)) ∨
      ∃ result, PlayedBy P (send args saved) (.done result) := by
  cases source : args.file with
  | none =>
      refine .inr ⟨(.ok 1, ⟨saved.map (·.bytes P), [], []⟩), .send fun β broker b => ?_⟩
      have same : ApproachB.send P broker args = pure 1 := by
        rw [ApproachB.send, source]
      exact congrFun same _
  | some file =>
      let state := chosen saved args file.length
      cases opened : openSession P args.receiverPub (state.json P) with
      | ok session =>
          have sized := chosen_fileSize saved args file.length
          exact .inl ⟨⟨state, args.receiverPub, file, args.basename, session, opened, sized⟩, _,
            source, rfl, rfl, rfl, rfl⟩
      | error e =>
          refine .inr ⟨(.error (.python e), ⟨some (state.bytes P), [], []⟩), .send fun β broker b => ?_⟩
          have loaded := loadOrCreateState_run P args file.length saved
            (w := atSender ⟨saved.map (·.bytes P), [], []⟩ b) rfl
          have failed : ApproachB.send P broker args (atSender ⟨saved.map (·.bytes P), [], []⟩ b) =
              (.error (.python e), atSender ⟨some (state.bytes P), [], []⟩ b) := by
            rw [ApproachB.send, source]
            simp only
            rw [sendFile, Prog.bind_ok loaded, opened]
            rfl
          exact failed

theorem exists_client (P : Primitives) (job : Job) : ∃ client, PlayedBy P job client := by
  cases job with
  | send args saved =>
      rcases send_cases P args saved with ⟨t, signature, sends⟩ | ⟨result, played⟩
      · obtain ⟨client, played, _⟩ := sends.follows
        exact ⟨client, played⟩
      · exact ⟨_, played⟩
  | receive args disk =>
      obtain ⟨client, plays, _⟩ := receive_reading P args disk
      exact ⟨client, .receive plays⟩

/-- The client a job is. -/
noncomputable def client (P : Primitives) (job : Job) : Party job.Result := (exists_client P job).choose

theorem run_eq (job : Job) : PlayedBy P job (job.client P) := (exists_client P job).choose_spec

theorem PlayedBy.eq {job : Job} {client : Party job.Result} (h : PlayedBy P job client) :
    job.client P = client := job.run_eq.unique h

end Job

end SecureTransfer.ApproachB
