import SecureTransfer.ApproachB.Listing
import SecureTransfer.ApproachB.ReadyJobs
import SecureTransfer.ApproachB.Sizes

/-! # One broker and its jobs

Senders and receivers with connections of their own, at one broker whose threads do not disturb
each other. What an upload leaves is there for every receiver, whatever fails; and at any moment,
whatever is under way, an upload or a delivery that has not begun can be brought to its end on
connections that hold.
-/

namespace SecureTransfer.ApproachB

open Library

variable {P : Primitives} {t : Transfer P} {signature : Bytes} {store : Storage} {repr : String → String}
  {text : ClientError → String}

/-! ## What passes -/

theorem passes_put {key : String} {data : Bytes} {path : BlobPath} (safe : safePath key = some path)
    (named : path.2 ≠ ".") (small : Sendable data) : BrokerCall.Passes repr text (.put key data) store := by
  obtain ⟨after, put⟩ := Storage.put_some store data safe named
  have legal : ¬ (safePath key).isNone = true := by
    rw [safe]
    exact Bool.false_ne_true
  have answered : answer repr store (.put key data) = some (after, [encodeText "OK".toList]) := by
    rw [answer, if_neg legal, put]
    rfl
  refine ⟨safe_fits safe (List.forall_mem_singleton.mpr small), ⟨_, _, answered, ?_⟩, ?_, ?_⟩
  · exact List.forall_mem_singleton.mpr (text_sendable (by simp))
  · rw [BrokerCall.request, answerValue, if_neg legal, Storage.serve, put]
    rfl
  · rintro _ _ ⟨⟩
    exact ⟨path, safe, named⟩

theorem passes_get {key : String} {path : BlobPath} (safe : safePath key = some path)
    (small : ∀ data, store.find path = some data → Sendable data) : BrokerCall.Passes repr text (.get key) store := by
  have found : store.get key = store.find path := Storage.get_eq safe
  refine ⟨safe_fits safe (List.forall_mem_nil _), ?_, rfl, nofun⟩
  rw [BrokerCall.request, answer, found]
  cases present : store.find path with
  | none =>
      refine ⟨_, _, rfl, List.forall_mem_singleton.mpr (text_sendable (by simp))⟩
  | some data =>
      refine ⟨_, _, rfl, List.forall_mem_cons.mpr ⟨text_sendable (by simp), ?_⟩⟩
      exact List.forall_mem_singleton.mpr (small data present)

/-! ## Sizes -/

namespace Transfer.Modest

variable (modest : t.Modest signature)
include modest

theorem names : Sendable (encodeText (joinLines
    (manifestKey t.hexId :: signatureKey t.hexId :: (List.range t.total).map (chunkKey t.hexId)))) := by
  have few := modest.few
  have lengths := joinLines_length
    (manifestKey t.hexId :: signatureKey t.hexId :: (List.range t.total).map (chunkKey t.hexId)) (List.cons_ne_nil _ _)
  have each : ∀ n ∈ (manifestKey t.hexId :: signatureKey t.hexId :: (List.range t.total).map (chunkKey t.hexId)).map
      (fun key => (encodeText key.toList).length + 1), n ≤ 1033 := by
    intro n inside
    obtain ⟨key, member, rfl⟩ := List.mem_map.mp inside
    have safe : ∃ path, safePath key = some path := by
      rcases List.mem_cons.mp member with rfl | member
      · exact ⟨_, safePath_manifest⟩
      rcases List.mem_cons.mp member with rfl | member
      · exact ⟨_, safePath_signature⟩
      obtain ⟨i, here, rfl⟩ := List.mem_map.mp member
      exact ⟨_, safePath_chunk ((List.mem_range.mp here).trans modest.whole.numbered)⟩
    obtain ⟨path, safe⟩ := safe
    have short := safePath_short safe
    have bytes := encodeText_length key.toList
    omega
  have sum := List.sum_le_card_nsmul _ _ each
  rw [List.length_map, List.length_cons, List.length_cons, List.length_map, List.length_range, Nat.nsmul_eq_mul] at sum
  rw [Sendable]
  omega

theorem blob {name : String} {data : Bytes} (blob : IsBlob t signature name data) : Sendable data := by
  cases blob with
  | chunk inside => exact modest.chunks _ inside
  | manifest => exact modest.manifest
  | signature => exact modest.signature

end Transfer.Modest

/-! ## Commands of a transfer -/

theorem Transfer.hexId_noSlash (t : Transfer P) : '/' ∉ t.hexId.toList := by
  intro member
  rw [Transfer.hexId, hex, String.toList_ofList] at member
  exact absurd (hexChars_class t.saved.id.1 '/' member) (by decide)

theorem passes_list (modest : t.Modest signature) (stock : Stock t signature store) :
    BrokerCall.Passes repr text (.list (t.hexId ++ "/")) store := by
  refine ⟨?_, ⟨_, _, rfl, ?_⟩, rfl, nofun⟩
  · refine List.forall_mem_singleton.mpr (text_sendable ?_)
    simp [BrokerCall.request, Request.op, Request.arg, t.hexId_length]
  · refine List.forall_mem_cons.mpr ⟨text_sendable (by simp), List.forall_mem_singleton.mpr ?_⟩
    refine joinLines_sendable (list_nodup _ _) (fun key member => ?_) modest.names
    rw [Storage.list_eq] at member
    obtain ⟨path, listed, rfl⟩ := List.mem_map.mp member
    obtain ⟨⟨there, _⟩, starts⟩ := Storage.mem_pathsIn.mp listed
    obtain ⟨key, safe⟩ := store.legal path (AList.lookup_isSome.mp there)
    have space := (startsWith_space t.hexId_noSlash (safePath_namespace safe)).mp starts
    obtain ⟨data, present⟩ := Option.isSome_iff_exists.mp there
    obtain ⟨space', name⟩ := path
    obtain rfl : space' = t.hexId := space
    cases stock.blobs name data present with
    | chunk inside =>
        rw [← chunkKey_join]
        exact List.mem_cons_of_mem _ (List.mem_cons_of_mem _ (List.mem_map_of_mem (List.mem_range.mpr inside)))
    | manifest =>
        rw [← manifestKey_join]
        exact List.mem_cons_self ..
    | signature =>
        rw [← signatureKey_join]
        exact List.mem_cons_of_mem _ (List.mem_cons_self ..)

theorem MayUpload.passes {stored : String → Prop} {c : BrokerCall} (modest : t.Modest signature)
    (stock : Stock t signature store) (may : MayUpload t signature stored c) : BrokerCall.Passes repr text c store := by
  cases may with
  | list => exact passes_list modest stock
  | chunk inside small =>
      exact passes_put (Transfer.safePath_chunk small) (chunkName_ne_dot _) (modest.chunks _ inside)
  | manifest => exact passes_put Transfer.safePath_manifest (show "manifest" ≠ "." by decide) modest.manifest
  | signature => exact passes_put Transfer.safePath_signature (show "manifest.sig" ≠ "." by decide) modest.signature

/-! ## A sender alone -/

/-- Every command of an upload passes. -/
theorem Job.Sends.along {job : Job} (sends : job.Sends t signature) (modest : t.Modest signature)
    (stock : Stock t signature store) :
    (job.client P).Along Storage.serve (BrokerCall.Passes repr text) store := by
  obtain ⟨client, played, follows⟩ := sends.follows
  rw [played.eq]
  apply (follows fun _ => False).along (fun stored store => Stock t signature store ∧ KnowsStored t store stored)
  · rintro stored store c ⟨stock, knows⟩ may
    have harmless := Minds.harmless stock knows (.uploads may)
    exact ⟨may.passes modest stock, (harmless.stock stock).1, knows.learn stock harmless⟩
  · exact ⟨stock, fun _ => False.elim⟩

theorem storeBroker_answered (c : BrokerCall) (store : Storage) :
    storeBroker.serve c (store, []) = ((Storage.serve c store).1, ((Storage.serve c store).2, [])) := by
  cases c with
  | list | get => rfl
  | put key data =>
      simp only [Broker.serve, storeBroker, nextOutcome, Storage.serve]
      cases store.put key data with
      | none | some => rfl

/-- A sender whose commands are all answered returns 0. -/
theorem Job.Sends.served {job : Job} (sends : job.Sends t signature) (few : t.total < 2 ^ 64) (store : Storage) :
    ((job.client P).play Storage.serve store).1.1 = .ok 0 := by
  have same := Client.play_map (f := fun store : Storage => (store, ([] : List Outcome))) storeBroker_answered
    (job.client P) store
  have ran := job.run_eq (P := P) _ storeBroker (store, [])
  rw [same] at ran
  cases sends with
  | @send args saved source chose receiver =>
      obtain ⟨w, run⟩ := sendFile_served t few (w := atSender ⟨saved.map (·.bytes P), [], []⟩ (store, [])) saved rfl
        chose receiver rfl
      have sent : ApproachB.send P storeBroker args = sendFile P storeBroker args t.file := by
        rw [ApproachB.send, source]
      rw [Job.run, sent, run] at ran
      exact (congrArg (fun result => result.1.1) ran).symm

/-! ## A receiver alone -/

open Classical in
/-- A broker that carries out what passes and fails at all else. -/
noncomputable def strict (repr : String → String) (text : ClientError → String) : Broker Storage :=
  .of fun c store => if c.Passes repr text store then Storage.serve c store else (failing "too long" c, store)

theorem strict_passes {c : BrokerCall} (passes : c.Passes repr text store) :
    (strict repr text).serve c store = Storage.serve c store := by
  rw [strict, Broker.serve_of, if_pos passes]

theorem strict_fails {c : BrokerCall} (fails : ¬ c.Passes repr text store) :
    c.failure ((strict repr text).serve c store).1 ≠ none := by
  rw [strict, Broker.serve_of, if_neg fails]
  cases c with
  | list | get | put => exact Option.some_ne_none _

theorem serves_strict (modest : t.Modest signature) :
    Serves t signature (strict repr text) (Complete t signature) := by
  have answers : ∀ (store : Storage) key name data, Complete t signature store →
      safePath key = some (t.hexId, name) → store.find (t.hexId, name) = some data → IsBlob t signature name data →
        ∃ store', Complete t signature store' ∧ (strict repr text).get key store = (.ok (some data), store') := by
    intro store key name data complete safe present blob
    have passes : (BrokerCall.get key).Passes repr text store := by
      apply passes_get safe
      intro found there
      rw [present] at there
      exact Option.some.inj there ▸ modest.blob blob
    refine ⟨store, complete, (strict_passes passes).trans ?_⟩
    rw [Storage.serve, Storage.get_eq safe, present]
    rfl
  exact {
    manifest := fun store complete =>
      answers store _ _ _ complete Transfer.safePath_manifest complete.manifest .manifest
    signature := fun store complete =>
      answers store _ _ _ complete Transfer.safePath_signature complete.signature .signature
    chunks := fun i inside store complete => answers store _ _ _ complete
      (Transfer.safePath_chunk (inside.trans modest.whole.numbered)) (complete.chunks i inside) (.chunk inside) }

theorem Job.Receives.of_returned {args : Args} {disk : Disk} {r : Except Raised Int} {result : Except Raised Int × Disk}
    (returned : result.1 = r) : Receives args disk r result.2 (.receive args disk) result := by
  subst returned
  exact .receive

/-- A receive run for a whole upload passes all along and returns 0. -/
theorem Job.delivers (repr : String → String) (text : ClientError → String) {job : Job} {args : Args}
    {disk : Disk} (receives : job = .receive args disk) (laws : P.Agreement) (opens : P.Opens)
    (modest : t.Modest signature) (complete : Complete t signature store)
    (accepted : Accepted t signature args disk.ledger) {ids : List String} (recorded : Recorded disk.ledger ids)
    (under : Underway t disk) :
    (job.client P).Along Storage.serve (BrokerCall.Passes repr text) store ∧
      ∃ disk', job.Receives args disk (.ok 0) disk' ((job.client P).play Storage.serve store).1 := by
  subst receives
  obtain ⟨client, plays, follows⟩ := receive_reading P args disk
  rw [(Job.PlayedBy.receive plays).eq]
  have serves : Serves t signature (strict repr text) (Complete t signature) := serves_strict modest
  obtain ⟨w, run, _⟩ := delivers_of_recoverable laws serves opens modest.whole (w := atDisk disk store) complete accepted
    recorded (under.recoverable modest.whole)
  have played : ApproachB.receive P (strict repr text) args (atDisk disk store) = _ := plays _ _ store
  rw [run] at played
  obtain ⟨returned, _⟩ := Prod.mk.inj played
  rcases (follows none rfl).unstopped Storage.serve (fun _ _ => strict_passes)
    (fun _ _ => strict_fails) store with ⟨message, stopped⟩ | ⟨along, same⟩
  · have failed := stopped message rfl
    rw [← returned] at failed
    cases failed
  · rw [same] at returned
    exact ⟨along, _, .of_returned returned.symm⟩

/-! ## Whole deployments -/

section Jobs

variable {ι : Type} {jobs : ι → Job}

/-- The jobs of one broker. -/
abbrev OnlineJobs (jobs : ι → Job) : Type := ThreadedNetwork fun i => (jobs i).Result

/-- The directory is empty and no job has called its broker. -/
noncomputable def OnlineJobs.start (P : Primitives) (jobs : ι → Job) : OnlineJobs jobs :=
  ThreadedNetwork.start fun i => (jobs i).client P

variable {f f' : OnlineJobs jobs}

/-- The directory decides what is there of `t`. -/
theorem Complete.displayed {store' : Storage} (complete : Complete t signature store) (shown : f.Displays store)
    (shown' : f.Displays store') : Complete t signature store' := by
  have same : ∀ name, isTmp name = false → store'.find (t.hexId, name) = store.find (t.hexId, name) := by
    intro name visible
    have free : ¬ f.threads.Uses (t.hexId, name) := Threads.not_uses visible
    exact (shown' _ free).symm.trans (shown _ free)
  constructor
  · exact fun i inside => (same _ (isTmp_chunkName i)).trans (complete.chunks i inside)
  · exact (same _ t.isTmp_manifestPath).trans complete.manifest
  · exact (same _ t.isTmp_signaturePath).trans complete.signature

variable [DecidableEq ι]

def OnlineRun (repr : String → String) (text : ClientError → String) (f f' : OnlineJobs jobs) : Prop :=
  Relation.ReflTransGen (ThreadedNetwork.Step repr text) f f'

/-- What is reached, as a run of whole commands: `l` over `n` over `f`. -/
structure Reached (P : Primitives) (repr : String → String) (f : OnlineJobs jobs) (n : Network fun i => (jobs i).Result)
    (l : LateJobs jobs) : Prop where
  late : LateRun (LateJobs.start P jobs .empty) l
  refines : Network.Refines repr (fun i => (jobs i).client P) n l
  simulated : f.Simulated repr n
  tidy : f.Tidy

variable {l : LateJobs jobs} {n : Network fun i => (jobs i).Result}

theorem Reached.run (reached : Reached P repr f n l) (run : OnlineRun repr text f f') :
    ∃ n' l', LateRun l l' ∧ Reached P repr f' n' l' := by
  obtain ⟨n', went, simulated⟩ := reached.simulated.run reached.refines reached.tidy run
  obtain ⟨l', late, refines⟩ := reached.refines.run went
  exact ⟨n', l', late, reached.late.trans late, refines, simulated, reached.tidy.run run⟩

theorem OnlineRun.reached (run : OnlineRun repr text (.start P jobs) f) : ∃ n l, Reached P repr f n l := by
  have start : Reached P repr (OnlineJobs.start P jobs) (Network.start .empty fun i => (jobs i).client P)
      (LateJobs.start P jobs .empty) :=
    ⟨.refl, Network.Refines.start _ _, ThreadedNetwork.simulated_start repr _, ThreadedNetwork.tidy_start _⟩
  obtain ⟨n, l, _, reached⟩ := start.run run
  exact ⟨n, l, reached⟩

namespace Reached

variable (reached : Reached P repr f n l)
include reached

theorem parties : l.clients = f.parties := reached.refines.parties.trans reached.simulated.mirrors.parties

theorem displays : f.Displays l.server := by
  rw [reached.refines.store]
  exact reached.simulated.displays

theorem stock (alike : Alike t signature jobs) : Stock t signature l.server ∧
    ∀ i result, (jobs i).Sends t signature → f.parties i = .done result → result.1 = .ok 0 →
      Complete t signature l.server := by
  obtain ⟨stock, _, uploaded⟩ := late_stock alike (Stock.empty t signature) reached.late
  rw [reached.parties] at uploaded
  exact ⟨stock, uploaded⟩

/-- All of `t` is there for whatever comes later. -/
theorem stays (alike : Alike t signature jobs) (shown : f.Displays store) (complete : Complete t signature store)
    {l' : LateJobs jobs} (late : LateRun l l') : Complete t signature l'.server :=
  (complete.displayed shown reached.displays).kept (late_keeps alike (Stock.empty t signature) reached.late late)

theorem waits {i : ι} (unused : f.Unused i) : f.parties i = (jobs i).client P ∧ ∀ c r, ¬ l.replied i c r := by
  obtain ⟨waits, _, fresh⟩ := reached.refines.unused i (reached.simulated.unused_iff.mp unused)
  rw [reached.simulated.mirrors.parties] at waits
  exact ⟨waits, fresh⟩

/-- A run of the receiver that makes its first call at `f`. -/
theorem receive (run : OnlineRun repr text f f') (laws : P.Agreement) (opens : P.Opens) (whole : t.Whole)
    (alike : Alike t signature jobs) {i : ι} (unused : f.Unused i) {result : (jobs i).Result}
    (ended : f'.parties i = .done result) {args : Args} {disk disk' : Disk} {r : Except Raised Int}
    (receives : (jobs i).Receives args disk r disk' result) (accepted : Accepted t signature args disk.ledger)
    {ids : List String} (recorded : Recorded disk.ledger ids) (under : Underway t disk) :
    RacedTo t (¬ Complete t signature l.server) ids disk disk' r := by
  obtain ⟨_, l', late, reached'⟩ := reached.run run
  obtain ⟨waits, fresh⟩ := reached.waits unused
  rw [← reached.parties] at waits
  rw [← reached'.parties] at ended
  exact late_receive laws opens whole alike (Stock.empty t signature) reached.late waits fresh late ended receives
    accepted recorded under

/-- A job that has not called yet goes through all of its commands, once the threads that hold a
    file have finished. -/
theorem alone {i : ι} (unused : f.Unused i)
    (along : ∀ l' : LateJobs jobs, LateRun l l' →
      ((jobs i).client P).Along Storage.serve (BrokerCall.Passes repr text) l'.server) :
    ∃ (f' : OnlineJobs jobs) (store : Storage), OnlineRun repr text f f' ∧
      (∃ l' : LateJobs jobs, LateRun l l' ∧ l'.server = store) ∧
      f'.parties i = .done (((jobs i).client P).play Storage.serve store).1 ∧
      ∀ j, j ≠ i → f'.parties j = f.parties j ∧ f'.sessions j = f.sessions j := by
  obtain ⟨threads, (drained : OnlineRun repr text f _), rests⟩ := reached.simulated.rests reached.tidy
  obtain ⟨n', l', late, reached'⟩ := reached.run drained
  have ready := reached'.simulated.ready (reached'.refines.tracked i).kept reached'.tidy rests unused
  rw [← reached'.refines.store] at ready
  obtain ⟨f', run, parties, others⟩ := ready.alone (reached.waits unused).1 (along l' late)
  refine ⟨f', l'.server, drained.trans run, ⟨l', late, rfl⟩, ?_, fun j other => ⟨?_, others j other⟩⟩
  · rw [parties, Function.update_self]
  · rw [parties, Function.update_of_ne other]

end Reached

end Jobs

/-! ## A sender of one byte and its receiver -/

def oneByteDisk : Disk := { out := none, part := none, progress := none, ledger := none }

def oneByteJobs (transferIdHex : String) : Bool → Job
  | true => .send (oneByte 1 (twoIds true)) none
  | false => .receive (transparentReceiver transferIdHex) oneByteDisk

noncomputable abbrev oneByteStart (t : Transfer (transparent fun _ _ => true)) : OnlineJobs (oneByteJobs t.hexId) :=
  .start (transparent fun _ _ => true) (oneByteJobs t.hexId)

/-- The sender has returned 0 and the receiver has not called yet. -/
structure OneByteSent (t : Transfer (transparent fun _ _ => true)) (signature : Bytes)
    (f : OnlineJobs (oneByteJobs t.hexId)) : Prop where
  modest : t.Modest signature
  alike : Alike t signature (oneByteJobs t.hexId)
  sends : (oneByteJobs t.hexId true).Sends t signature
  accepted : Accepted t signature (transparentReceiver t.hexId) none
  run : OnlineRun id (fun _ => "") (oneByteStart t) f
  sent : ∃ result, f.parties true = .done result ∧ result.1 = .ok 0
  unused : f.Unused false

theorem underway_oneByte (t : Transfer (transparent fun _ _ => true)) : Underway t oneByteDisk :=
  ⟨[], rfl, .inl rfl⟩

theorem OneByteSent.complete {t : Transfer (transparent fun _ _ => true)} {signature : Bytes}
    {f : OnlineJobs (oneByteJobs t.hexId)} (h : OneByteSent t signature f) :
    ∃ store, f.Displays store ∧ Complete t signature store := by
  obtain ⟨_, l, reached⟩ := h.run.reached
  obtain ⟨result, ended, returned⟩ := h.sent
  exact ⟨l.server, reached.displays, (reached.stock h.alike).2 true result h.sends ended returned⟩

theorem exists_oneByteSent : ∃ (t : Transfer (transparent fun _ _ => true)) (signature : Bytes)
    (f : OnlineJobs (oneByteJobs t.hexId)), t.file = [1] ∧ OneByteSent t signature f := by
  obtain ⟨t, saved, receiver, file, named, total⟩ := oneByte_transfer (fun _ _ => true) 1 (twoIds true)
  let signature := (transparent fun _ _ => true).sign [] t.manifestBytes
  have modest : t.Modest signature := by
    refine transparent_modest ?_ ?_ ?_
    · rw [file]
      decide
    · rw [named]
      decide
    · rw [saved]
      decide
  have sends : (oneByteJobs t.hexId true).Sends t signature :=
    .send (by rw [file]; rfl) (by rw [saved, file]; rfl) receiver named rfl
  have alike : Alike t signature (oneByteJobs t.hexId) := by
    intro i u signature' sends' _
    cases i with
    | false => cases sends'
    | true => exact sends'.unique sends
  have start : OnlineRun id (fun _ => "") (oneByteStart t) (oneByteStart t) := .refl
  obtain ⟨_, l, reached⟩ := start.reached
  have along : ∀ l' : LateJobs (oneByteJobs t.hexId), LateRun l l' →
      ((oneByteJobs t.hexId true).client _).Along Storage.serve (BrokerCall.Passes id fun _ => "") l'.server :=
    fun l' late => sends.along modest (late_stock alike (Stock.empty t signature) (reached.late.trans late)).1
  obtain ⟨f, store, run, _, ended, others⟩ := reached.alone ⟨rfl, rfl⟩ along
  have returned := sends.served modest.whole.numbered store
  refine ⟨t, signature, f, file, modest, alike, sends, ?_, run, ⟨_, ended, returned⟩, ?_⟩
  · exact transparent_accepted (by rw [saved]; rfl) receiver rfl Recorded.missing List.not_mem_nil
  · rw [ThreadedNetwork.Unused, (others false Bool.false_ne_true).2]
    exact ⟨rfl, rfl⟩

/-- The receiver has a first command: it ends otherwise where nothing is stored than where all is. -/
theorem OneByteSent.receiver_asks {t : Transfer (transparent fun _ _ => true)} {signature : Bytes}
    {f : OnlineJobs (oneByteJobs t.hexId)} (h : OneByteSent t signature f) :
    ∃ c next, (oneByteJobs t.hexId false).client (transparent fun _ _ => true) = .ask c next ∧ c.request.Fits := by
  obtain ⟨store, _, complete⟩ := h.complete
  have receives : oneByteJobs t.hexId false = .receive (transparentReceiver t.hexId) oneByteDisk := rfl
  obtain ⟨along, disk', delivers⟩ := Job.delivers id (fun _ => "") receives (transparent_agreement _)
    (transparent_opens _) h.modest complete h.accepted Recorded.missing (underway_oneByte t)
  cases asks : (oneByteJobs t.hexId false).client (transparent fun _ _ => true) with
  | ask c next =>
      rw [asks] at along
      exact ⟨c, next, rfl, along.1.fits⟩
  | done result =>
      have played := (oneByteJobs t.hexId false).run_eq (P := transparent fun _ _ => true) _ storeBroker (.empty, [])
      rw [asks] at delivers played
      have delivered := delivers.run played
      have missing : ∀ {key path}, safePath key = some path →
          storeBroker.get key (.empty, []) = (.ok none, (.empty, [])) :=
        fun safe => congrArg (fun found => (Except.ok found, _)) (Storage.get_eq safe)
      have absent := receive_notFound h.accepted.toFor (w := atDisk oneByteDisk (Storage.empty, []))
        (missing Transfer.safePath_manifest) (missing Transfer.safePath_signature) (.inl rfl)
      rw [delivered] at absent
      cases absent

/-- The receiver goes on to receive the file. -/
theorem OneByteSent.delivers {t : Transfer (transparent fun _ _ => true)} {signature : Bytes}
    {f : OnlineJobs (oneByteJobs t.hexId)} (h : OneByteSent t signature f) :
    ∃ (f' : OnlineJobs (oneByteJobs t.hexId)) (result : (oneByteJobs t.hexId false).Result) (disk' : Disk),
      OnlineRun id (fun _ => "") f f' ∧ f'.parties false = .done result ∧
      (oneByteJobs t.hexId false).Receives (transparentReceiver t.hexId) oneByteDisk (.ok 0) disk' result ∧
      f'.parties true = f.parties true := by
  obtain ⟨_, l, reached⟩ := h.run.reached
  obtain ⟨store, shown, complete⟩ := h.complete
  have receives : oneByteJobs t.hexId false = .receive (transparentReceiver t.hexId) oneByteDisk := rfl
  have delivers := fun (l' : LateJobs (oneByteJobs t.hexId)) (late : LateRun l l') =>
    Job.delivers id (fun _ => "") receives (transparent_agreement _) (transparent_opens _) h.modest
      (reached.stays h.alike shown complete late) h.accepted Recorded.missing (underway_oneByte t)
  obtain ⟨f', _, run, ⟨l', late, rfl⟩, ended, others⟩ := reached.alone h.unused fun l' late => (delivers l' late).1
  obtain ⟨_, disk', delivered⟩ := delivers l' late
  exact ⟨f', _, disk', run, ended, delivered, (others true (Bool.false_ne_true ·.symm)).1⟩

/-- The receiver has sent its first command and the sender has not called yet. -/
theorem exists_oneByteAsked : ∃ (t : Transfer (transparent fun _ _ => true)) (signature : Bytes)
    (f : OnlineJobs (oneByteJobs t.hexId)), t.file = [1] ∧ t.Modest signature ∧
      Alike t signature (oneByteJobs t.hexId) ∧ (oneByteJobs t.hexId true).Sends t signature ∧
      OnlineRun id (fun _ => "") (oneByteStart t) f ∧ f.Unused true ∧ (f.sessions false).call.isSome := by
  obtain ⟨t, signature, _, file, sent⟩ := exists_oneByteSent
  obtain ⟨c, next, asks, fits⟩ := sent.receiver_asks
  have ready : (oneByteStart t).Ready false .empty := ThreadedNetwork.ready_start _ _
  exact ⟨t, signature, _, file, sent.modest, sent.alike, sent.sends, ready.sends asks fits, ⟨rfl, rfl⟩, rfl⟩

section Results

variable {ι : Type} [DecidableEq ι]

/-! ## What holds of every run -/

/-- **Refinement.** Whatever arrives in pieces, is called again or is served after its connection
    was given up, and however the broker's threads take turns on the directory, the jobs go
    through a run of whole commands, each carried out at once on a store. It has every job at
    the same point, and its store is what the directory shows. -/
theorem bytes_refine_commands (P : Primitives) (repr : String → String) (text : ClientError → String)
    (jobs : ι → Job) (f : OnlineJobs jobs) (run : OnlineRun repr text (.start P jobs) f) :
    ∃ l : LateJobs jobs, LateRun (LateJobs.start P jobs .empty) l ∧ l.clients = f.parties ∧ f.Displays l.server := by
  obtain ⟨_, l, reached⟩ := run.reached
  exact ⟨l, reached.late, reached.parties, reached.displays⟩

theorem bytes_refine_commands_oneByte :
    ∃ (t : Transfer (transparent fun _ _ => true)) (f : OnlineJobs (oneByteJobs t.hexId))
      (l : LateJobs (oneByteJobs t.hexId)),
      LateRun (LateJobs.start (transparent fun _ _ => true) (oneByteJobs t.hexId) Storage.empty) l ∧
      f.Displays l.server ∧ ∃ result, l.clients true = .done result ∧ result.1 = .ok 0 := by
  obtain ⟨t, signature, f, _, sent⟩ := exists_oneByteSent
  obtain ⟨l, late, parties, displays⟩ := bytes_refine_commands _ _ _ _ f sent.run
  have ended := sent.sent
  rw [← parties] at ended
  exact ⟨t, f, l, late, displays, ended⟩

/-- **Uploads.** At every moment of every run the directory shows of `t` a part of it that ends
    with the manifest and the signature, what was there at an earlier moment is still there, and
    all of `t` is once a sender of it has returned 0. -/
theorem uploads_over_network (repr : String → String) (text : ClientError → String) (t : Transfer P)
    (signature : Bytes) (jobs : ι → Job) (alike : Alike t signature jobs) (f f' : OnlineJobs jobs)
    (before : OnlineRun repr text (.start P jobs) f) (run : OnlineRun repr text f f') :
    ∃ store store', f.Displays store ∧ f'.Displays store' ∧ Stock t signature store' ∧ KeepsStock t store store' ∧
      ∀ i result, (jobs i).Sends t signature → f'.parties i = .done result → result.1 = .ok 0 →
        Complete t signature store' := by
  obtain ⟨_, l, reached⟩ := before.reached
  obtain ⟨_, l', late, reached'⟩ := reached.run run
  obtain ⟨stock, uploaded⟩ := reached'.stock alike
  have keeps := late_keeps alike (Stock.empty t signature) reached.late late
  exact ⟨l.server, l'.server, reached.displays, reached'.displays, stock, keeps, uploaded⟩

theorem uploads_over_network_oneByte :
    ∃ (t : Transfer (transparent fun _ _ => true)) (signature : Bytes) (f f' : OnlineJobs (oneByteJobs t.hexId))
      (store store' : Storage), t.file = [1] ∧ OnlineRun id (fun _ => "") (oneByteStart t) f ∧ f.Unused false ∧
      OnlineRun id (fun _ => "") f f' ∧ (∃ result, f'.parties false = .done result) ∧ f.Displays store ∧
      f'.Displays store' ∧ KeepsStock t store store' ∧ Complete t signature store' := by
  obtain ⟨t, signature, f, file, sent⟩ := exists_oneByteSent
  obtain ⟨result, ended, returned⟩ := sent.sent
  obtain ⟨f', received, _, run, ended', _, same⟩ := sent.delivers
  obtain ⟨store, store', displays, displays', _, keeps, uploaded⟩ := uploads_over_network id (fun _ => "") t signature _
    sent.alike f f' sent.run run
  exact ⟨t, signature, f, f', store, store', file, sent.run, sent.unused, run, ⟨received, ended'⟩, displays, displays',
    keeps, uploaded true result sent.sends (same.trans ended) returned⟩

/-- **A sender can finish.** Whatever is under way, a sender of `t` that has not called yet can go
    on to return 0 on connections that hold, once the threads that hold a file have finished,
    with no step of any other job. -/
theorem upload_can_finish (repr : String → String) (text : ClientError → String) (t : Transfer P)
    (signature : Bytes) (modest : t.Modest signature) (jobs : ι → Job) (alike : Alike t signature jobs)
    (f : OnlineJobs jobs) (before : OnlineRun repr text (.start P jobs) f) (i : ι) (unused : f.Unused i)
    (sends : (jobs i).Sends t signature) :
    ∃ (f' : OnlineJobs jobs) (result : (jobs i).Result), OnlineRun repr text f f' ∧ f'.parties i = .done result ∧
      result.1 = .ok 0 ∧ (∃ store, f'.Displays store ∧ Complete t signature store) ∧
      ∀ j, j ≠ i → f'.parties j = f.parties j ∧ f'.sessions j = f.sessions j := by
  obtain ⟨_, l, reached⟩ := before.reached
  have along : ∀ l' : LateJobs jobs, LateRun l l' →
      ((jobs i).client P).Along Storage.serve (BrokerCall.Passes repr text) l'.server := fun l' late =>
    sends.along modest (late_stock alike (Stock.empty t signature) (reached.late.trans late)).1
  obtain ⟨f', store, run, _, ended, others⟩ := reached.alone unused along
  have returned := sends.served modest.whole.numbered store
  obtain ⟨_, l', _, reached'⟩ := reached.run run
  have complete := (reached'.stock alike).2 i _ sends ended returned
  exact ⟨f', _, run, ended, returned, ⟨l'.server, reached'.displays, complete⟩, others⟩

theorem upload_can_finish_oneByte :
    ∃ (t : Transfer (transparent fun _ _ => true)) (signature : Bytes) (f f' : OnlineJobs (oneByteJobs t.hexId))
      (store : Storage), t.file = [1] ∧ OnlineRun id (fun _ => "") (oneByteStart t) f ∧ (f.sessions false).call.isSome ∧
      OnlineRun id (fun _ => "") f f' ∧ f'.sessions false = f.sessions false ∧ f'.Displays store ∧
      Complete t signature store := by
  obtain ⟨t, signature, f, file, modest, alike, sends, before, unused, asked⟩ := exists_oneByteAsked
  obtain ⟨f', _, run, _, _, ⟨store, displays, complete⟩, others⟩ := upload_can_finish id (fun _ => "") t signature
    modest _ alike f before true unused sends
  exact ⟨t, signature, f, f', store, file, before, asked, run, (others false Bool.false_ne_true).2, displays, complete⟩

end Results

end SecureTransfer.ApproachB
