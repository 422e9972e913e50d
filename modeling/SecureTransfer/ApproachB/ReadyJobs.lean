import SecureTransfer.ApproachB.ThreadProgress

/-! # Jobs that go through their calls

While no thread holds a file, a job whose session is between two calls gets the reply of the broker
to its next one on a connection that does not fail, with no step of any other job.
-/

namespace SecureTransfer.ApproachB

open Library

variable {repr : String → String} {text : ClientError → String}

/-- A command that the broker serves on a connection that does not fail: neither the command nor
    its reply is too long for a frame, and a PUT is not refused. -/
structure BrokerCall.Passes (repr : String → String) (text : ClientError → String) (c : BrokerCall)
    (store : Storage) : Prop where
  fits : c.request.Fits
  answered : ∃ after found, answer repr store c.request = some (after, found) ∧ ∀ reply ∈ found, Sendable reply
  served : c.reply text (answerValue repr store c.request) = (Storage.serve c store).1
  storable : ∀ key data, c = .put key data → ∃ path, safePath key = some path ∧ path.2 ≠ "."

section Networks

variable {ι : Type} {γ : ι → Type} [DecidableEq ι]

namespace ThreadedNetwork

variable {f f' : ThreadedNetwork γ} {i : ι} {store : Storage}

/-- The threads make steps on the directory. -/
theorem turns (tidy : f.Tidy) {threads : Threads (ThreadId ι)} (turns : Threads.Turns f.commands f.threads threads) :
    Relation.ReflTransGen (Step repr text) f { f with threads } := by
  induction turns with
  | refl => exact .refl
  | @tail a b _ next ih =>
      obtain ⟨⟨j, d, m⟩, count, undisturbed, moved⟩ := next
      have tidy' : Tidy { f with threads := a } := tidy.run ih
      have here : m = f.answered j d := by
        rcases lt_trichotomy m (f.answered j d) with before | same | after
        · obtain ⟨reply, done⟩ := tidy'.past j d m before
          rw [Threads.step, done] at moved
          cases moved
        · exact same
        · exact absurd (tidy'.later j d m after) (Threads.step_next_stages moved).1
      subst here
      exact ih.tail (.turn j d count undisturbed moved)

/-- The job of `i` is between two calls, no thread holds a file, and the directory shows `store`. -/
structure Ready (f : ThreadedNetwork γ) (i : ι) (store : Storage) : Prop where
  shows : f.threads.Shows f.commands store
  tidy : f.Tidy
  rests : ∀ κ, ¬ f.threads.Holds κ
  idle : (f.sessions i).call = none
  clean : (f.sessions i).link.getD .fresh = .fresh
  waiting : f.threads.stages (f.thread i (f.sessions i).abandoned.length) = .waiting

theorem ready_start (parties : ∀ i, Party (γ i)) (i : ι) : (start parties).Ready i .empty where
  shows := Threads.shows_start
  tidy := tidy_start parties
  rests κ held := by
    rcases held with window | ⟨path, file, opened⟩
    · cases window
    · cases opened
  idle := rfl
  clean := rfl
  waiting := rfl

/-- The session of `i` when its command was sent, and when its reply is on its way. -/
def exchanging (s : ClientSession) (r : Request) (link : Link) : ClientSession :=
  { s with link := some link, call := some ⟨r, 0, some [], [], false⟩ }

theorem exchanging_link (s : ClientSession) (r : Request) (link : Link) :
    (exchanging s r link).links[s.abandoned.length]? = some link :=
  ClientSession.links_current _

theorem exchanging_setLink (s : ClientSession) (r : Request) (link link' : Link) :
    (exchanging s r link).setLink s.abandoned.length link' = exchanging s r link' :=
  if_neg (lt_irrefl _)

theorem moves_moves (f : ThreadedNetwork γ) (i : ι) (s t : ClientSession) : (f.moves i s).moves i t = f.moves i t := by
  rw [moves, moves, moves, Function.update_idem]

theorem moves_session (f : ThreadedNetwork γ) (i : ι) (s : ClientSession) : (f.moves i s).sessions i = s :=
  Function.update_self ..

/-- A job calls, and its command is sent. -/
theorem Ready.sends (ready : f.Ready i store) {c : BrokerCall} {next : c.Reply → Party (γ i)}
    (asks : f.parties i = .ask c next) (fits : c.request.Fits) :
    Relation.ReflTransGen (Step repr text) f
      (f.moves i (exchanging (f.sessions i) c.request ⟨c.request.bytes, [], true⟩)) := by
  let s := f.sessions i
  let r := c.request
  let s₁ : ClientSession := { s with call := some ⟨r, 0, none, [], false⟩ }
  let s₂ : ClientSession := { s with link := some .fresh, call := some ⟨r, 0, some r.bytes, [], false⟩ }
  have begun : ClientSession.step repr (.begin r) s = some s₁ := ClientSession.step_begin fits ready.idle
  have connected : ClientSession.step repr .connect s₁ = some s₂ := by
    rw [ClientSession.step_connect rfl]
    exact congrArg (fun link => some { s₂ with link := some link }) ready.clean
  have sent : ClientSession.step repr (.send r.bytes.length) s₂ = some (exchanging s r ⟨r.bytes, [], true⟩) := by
    rw [ClientSession.step_send _ rfl rfl, List.take_length, List.drop_length]
    rfl
  have first : Step repr text f (f.moves i s₁) := .begin i asks begun
  have second : Step repr text (f.moves i s₁) ((f.moves i s₁).moves i s₂) :=
    .work i (a := .connect) trivial (by rw [moves_session]; exact connected) (by rw [moves_session])
  have third : Step repr text (f.moves i s₂) ((f.moves i s₂).moves i (exchanging s r ⟨r.bytes, [], true⟩)) :=
    .work i (a := .send r.bytes.length) trivial (by rw [moves_session]; exact sent) (by rw [moves_session]; rfl)
  rw [moves_moves] at second third
  exact .tail (.tail (.single first) second) third

/-- The broker has replied to the command `r` of `i`. -/
structure Replied (i : ι) (r : Request) (found : List Bytes) (after : Storage) (f f' : ThreadedNetwork γ) : Prop where
  session : f'.sessions i = exchanging (f.sessions i) r ⟨[], found.flatMap frame, true⟩
  sessions : ∀ j, j ≠ i → f'.sessions j = f.sessions j
  parties : f'.parties = f.parties
  shows : f'.threads.Shows f'.commands after
  tidy : f'.Tidy
  rests : ∀ κ, ¬ f'.threads.Holds κ
  waiting : f'.threads.stages (f'.thread i (f.sessions i).abandoned.length) = .waiting

/-- A LIST is served with one look. -/
theorem Ready.lists (ready : f.Ready i store) {start : String} (fits : (Request.list start).Fits)
    (small : Sendable (encodeText (joinLines (store.list start)))) :
    let r := Request.list start
    ∃ f', Step repr text (f.moves i (exchanging (f.sessions i) r ⟨r.bytes, [], true⟩)) f' ∧
      Replied i r [encodeText "OK".toList, encodeText (joinLines (store.list start))] store f f' := by
  intro r
  let f₁ := f.moves i (exchanging (f.sessions i) r ⟨r.bytes, [], true⟩)
  have session : f₁.sessions i = exchanging (f.sessions i) r ⟨r.bytes, [], true⟩ := moves_session ..
  have there : (f₁.sessions i).links[(f.sessions i).abandoned.length]? = some ⟨r.bytes, [], true⟩ := by
    rw [session]
    exact exchanging_link _ r _
  refine ⟨_, .list i _ there rfl fits (List.append_nil _).symm ready.waiting (ready.shows.listing start) small, ?_⟩
  refine ⟨?_, fun j other => ?_, rfl, ready.shows, ⟨ready.tidy.past, ready.tidy.later, ready.tidy.few⟩, ready.rests,
    ready.waiting⟩
  · rw [moves_session, session]
    exact exchanging_setLink ..
  · exact (Function.update_of_ne other ..).trans (Function.update_of_ne other ..)

/-- A thread reads a PUT or a GET, works on the directory alone and replies. -/
theorem Ready.works (ready : f.Ready i store) {command : BlobCommand} (legal : command.Legal) :
    let r := command.request
    ∃ f', Relation.ReflTransGen (Step repr text) (f.moves i (exchanging (f.sessions i) r ⟨r.bytes, [], true⟩)) f' ∧
      Replied i r (command.frames repr (serve command store).1) (serve command store).2 f f' := by
  intro r
  let c := (f.sessions i).abandoned.length
  let κ := f.thread i c
  let f₁ := f.moves i (exchanging (f.sessions i) r ⟨r.bytes, [], true⟩)
  have session : f₁.sessions i = exchanging (f.sessions i) r ⟨r.bytes, [], true⟩ := moves_session ..
  have there : (f₁.sessions i).links[c]? = some ⟨r.bytes, [], true⟩ := by
    rw [session]
    exact exchanging_link _ r _
  let f₂ := f₁.reads i c command ⟨r.bytes, [], true⟩ []
  have reads : Step repr text f₁ f₂ := .read i c there rfl legal (List.append_nil _).symm ready.waiting
  have session₂ : f₂.sessions i = exchanging (f.sessions i) r ⟨[], [], true⟩ := by
    change Function.update f₁.sessions i _ i = _
    rw [Function.update_self, session]
    exact exchanging_setLink ..
  have tidy₁ : f₁.Tidy := ⟨ready.tidy.past, ready.tidy.later, ready.tidy.few⟩
  have given : f₂.commands κ = command := Function.update_self ..
  have shows₂ : f.threads.Shows f₂.commands store := ready.shows.assign ready.waiting command
  have handled := shows₂.handles ready.rests ready.waiting (by rw [given]; exact legal)
  rw [given] at handled
  obtain ⟨t, alone, answered, shows₃, rests⟩ := handled
  let f₃ : ThreadedNetwork γ := { f₂ with threads := t }
  have works : Relation.ReflTransGen (Step repr text) f₂ f₃ := turns (tidy₁.step reads) alone.turns
  have there₃ : (f₃.sessions i).links[c]? = some ⟨[], [], true⟩ := by
    change (f₂.sessions i).links[c]? = _
    rw [session₂]
    exact exchanging_link _ r _
  have replies : Step repr text f₃ _ := .reply i c there₃ answered
  have run := (Relation.ReflTransGen.head reads works).tail replies
  have tidy := tidy₁.run run
  refine ⟨_, run, ?_, fun j other => ?_, rfl, shows₃, tidy, rests, ?_⟩
  · change Function.update f₂.sessions i _ i = _
    rw [Function.update_self, show f₃.sessions i = _ from session₂, show f₃.commands (f₃.thread i c) = _ from given]
    exact exchanging_setLink ..
  · change Function.update f₂.sessions i _ j = _
    rw [Function.update_of_ne other]
    exact (Function.update_of_ne other ..).trans (Function.update_of_ne other ..)
  · rw [replies_thread]
    exact (tidy₁.run (.head reads works)).later i c _ (Nat.lt_succ_self _)

/-- The command of a call that passes is served, whatever it is. -/
theorem Ready.exchanges (ready : f.Ready i store) {c : BrokerCall} (passes : c.Passes repr text store) :
    ∃ f' found, Relation.ReflTransGen (Step repr text)
        (f.moves i (exchanging (f.sessions i) c.request ⟨c.request.bytes, [], true⟩)) f' ∧
      Replied i c.request found (Storage.serve c store).2 f f' ∧
      answer repr store c.request = some ((Storage.serve c store).2, found) ∧ ∀ reply ∈ found, Sendable reply := by
  obtain ⟨after, found, answered, small⟩ := passes.answered
  obtain rfl : after = (Storage.serve c store).2 := by
    rw [← afterStore_request repr, afterStore, answered, Option.elim_some]
  have handled : ∀ command : BlobCommand, command.request = c.request →
      (∀ key data, command = .put key data → c = .put key data) →
      ∃ f', Relation.ReflTransGen (Step repr text)
          (f.moves i (exchanging (f.sessions i) c.request ⟨c.request.bytes, [], true⟩)) f' ∧
        Replied i c.request found (Storage.serve c store).2 f f' := by
    intro command same puts
    have legal : command.Legal := ⟨same ▸ passes.fits, fun key data put => passes.storable key data (puts key data put)⟩
    have served : answer repr store command.request = _ := answer_request legal store
    rw [same, answered] at served
    obtain ⟨stored, frames⟩ := Prod.mk.inj (Option.some.inj served)
    rw [stored, frames, ← same]
    exact ready.works legal
  cases c with
  | put key data =>
      obtain ⟨f', run, replied⟩ := handled (.put key data) rfl fun _ _ same => by cases same; rfl
      exact ⟨f', found, run, replied, answered, small⟩
  | get key =>
      obtain ⟨f', run, replied⟩ := handled (.get key) rfl fun _ _ => BlobCommand.noConfusion
      exact ⟨f', found, run, replied, answered, small⟩
  | list start =>
      cases answered
      have found : Sendable (encodeText (joinLines (store.list start))) := small _ (by simp)
      obtain ⟨f', step, replied⟩ := ready.lists passes.fits found
      exact ⟨f', _, .single step, replied, rfl, small⟩

/-- A call whose connection does not fail brings its job the reply of the broker. -/
theorem Ready.call (ready : f.Ready i store) {c : BrokerCall} {next : c.Reply → Party (γ i)}
    (asks : f.parties i = .ask c next) (passes : c.Passes repr text store) :
    ∃ f', Relation.ReflTransGen (Step repr text) f f' ∧ f'.Ready i (Storage.serve c store).2 ∧
      f'.parties = Function.update f.parties i (next (Storage.serve c store).1) ∧
      ∀ j, j ≠ i → f'.sessions j = f.sessions j := by
  obtain ⟨f₁, found, exchanged, replied, answered, small⟩ := ready.exchanges passes
  let s := exchanging (f.sessions i) c.request ⟨[], found.flatMap frame, true⟩
  have brings : Sock.Brings ⟨(found.flatMap frame).take (found.flatMap frame).length, [], []⟩ found [] := by
    rw [Sock.Brings, List.take_length, List.append_nil]
  obtain ⟨conn, read, empty, _⟩ := parseReply_answer answered small brings
  let ended : Ended := ⟨c.request, answerValue repr store c.request, [], false⟩
  let t : ClientSession := { f.sessions i with link := some .fresh, call := none, log := (f.sessions i).log ++ [ended] }
  have received : ClientSession.step repr (.receive (found.flatMap frame).length []) s = some t := by
    rw [ClientSession.step_receive rfl rfl rfl read (ClientSession.answerValue_ne_io store c.request), empty,
      List.nil_append, List.drop_length]
    rfl
  have finish : Step repr text f₁ (f₁.movesOn i t (next (c.reply text ended.outcome))) :=
    .finish i (a := .receive _ _) (c := c) trivial (by rw [replied.session]; exact received)
      (by rw [replied.session]; rfl) (by rw [replied.parties]; exact asks)
  have run := ((ready.sends asks passes.fits).trans exchanged).tail finish
  have session : (f₁.movesOn i t (next (c.reply text ended.outcome))).sessions i = t := moves_session ..
  refine ⟨_, run, ⟨replied.shows, ready.tidy.run run, replied.rests, ?_, ?_, ?_⟩, ?_, fun j other => ?_⟩
  · rw [session]
  · rw [session]
    rfl
  · rw [session]
    exact replied.waiting
  · change Function.update f₁.parties i _ = _
    rw [replied.parties]
    exact congrArg (fun r => Function.update f.parties i (next r)) passes.served
  · exact (Function.update_of_ne other ..).trans (replied.sessions j other)

/-- A job goes through all of its calls, on connections that do not fail, as its run at the store does. -/
theorem Ready.alone (ready : f.Ready i store) {client : Party (γ i)} (waits : f.parties i = client)
    (passes : client.Along Storage.serve (BrokerCall.Passes repr text) store) :
    ∃ f', Relation.ReflTransGen (Step repr text) f f' ∧
      f'.parties = Function.update f.parties i (.done (client.play Storage.serve store).1) ∧
      ∀ j, j ≠ i → f'.sessions j = f.sessions j := by
  induction client generalizing f store with
  | done a =>
      refine ⟨f, .refl, ?_, fun _ _ => rfl⟩
      rw [Client.play, ← waits, Function.update_eq_self]
  | ask c next ih =>
      obtain ⟨here, later⟩ := passes
      obtain ⟨f₁, run, ready₁, parties, others⟩ := ready.call waits here
      have goesOn : f₁.parties i = next (Storage.serve c store).1 := by rw [parties, Function.update_self]
      obtain ⟨f', run', parties', others'⟩ := ih _ ready₁ goesOn later
      refine ⟨f', run.trans run', ?_, fun j other => (others' j other).trans (others j other)⟩
      rw [parties', parties, Function.update_idem]
      rfl

/-! ## What is under way -/

/-- The threads that hold a file can finish before anything else happens. -/
theorem Simulated.rests {n : Network γ} (simulated : f.Simulated repr n) (tidy : f.Tidy) :
    ∃ threads, Relation.ReflTransGen (Step repr text) f { f with threads } ∧ ∀ κ, ¬ threads.Holds κ := by
  have few : Set.Finite {κ | f.threads.Holds κ} := by
    refine tidy.few.subset fun κ held waiting => ?_
    rcases held with window | ⟨path, file, opened⟩
    · rw [waiting] at window
      cases window
    · cases waiting.symm.trans opened
  obtain ⟨threads, run, rests⟩ := simulated.shows.kept.rests few
  exact ⟨threads, turns tidy run, rests⟩

/-- A job that has not called yet is ready once no thread holds a file. -/
theorem Simulated.ready {n : Network γ} (simulated : f.Simulated repr n) (kept : (n.session i).Kept repr)
    (tidy : f.Tidy) (rests : ∀ κ, ¬ f.threads.Holds κ) (unused : f.Unused i) : f.Ready i n.store := by
  have twin := simulated.mirrors.twins i
  have waiting : ¬ f.Busy i (f.sessions i).abandoned.length := by
    intro used
    obtain ⟨_, call, here, _⟩ := twin.waits used
    rw [unused.1] at here
    cases here
  have resting : (n.session i).Resting := by
    intro call here
    rw [twin.no_call.mp unused.1] at here
    cases here
  refine ⟨simulated.shows, tidy, rests, unused.1, ?_, not_not.mp waiting⟩
  cases here : (f.sessions i).link with
  | none => rfl
  | some link =>
      obtain ⟨link', here', related⟩ := twin.current here
      obtain rfl := (related_idle waiting).mp related
      exact kept.resting resting link here'

end ThreadedNetwork

end Networks

end SecureTransfer.ApproachB
