import SecureTransfer.ApproachB.HostileWire
import SecureTransfer.ApproachB.Racing

/-! # Jobs over connections

The jobs of one broker, each with a `BrokerClient` of its own. Bytes arrive in pieces, threads take
their turns, connections fail, calls are made again, and a thread may still serve a connection
that its client gave up. A thread handles its command at one moment here; all of it is then a
network that delivers late.
-/

namespace SecureTransfer.ApproachB

open Library

/-! ## Calls of a job -/

namespace BrokerCall

def request : BrokerCall → Request
  | .list start => .list start
  | .get key => .get key
  | .put key data => .put key data

/-- What the program makes of the outcome of its call; `text` renders an error. -/
def reply (text : ClientError → String) : (c : BrokerCall) → Except ClientError Value → c.Reply
  | .list _, outcome => (outcome.map Value.toKeys).mapError text
  | .get _, outcome => (outcome.map Value.toBlob).mapError text
  | .put _ _, outcome => (outcome.map fun _ => ()).mapError text

end BrokerCall

variable {repr : String → String} {text : ClientError → String}

theorem afterStore_request (repr : String → String) (c : BrokerCall) (store : Storage) :
    afterStore repr store c.request = (Storage.serve c store).2 := by
  cases c with
  | list start => rfl
  | get key =>
      rw [BrokerCall.request, afterStore, answer]
      split <;> rfl
  | put key data =>
      rw [BrokerCall.request, afterStore, answer, Storage.serve]
      cases safe : safePath key with
      | none =>
          have refused : store.put key data = none := by grind [Storage.put]
          rw [refused]
          rfl
      | some path =>
          cases store.put key data with
          | none | some => rfl

/-- What a call makes of the answer is the reply of the broker, or an error. -/
theorem reply_answered {c : BrokerCall} {store after : Storage} {found : List Bytes}
    (answered : answer repr store c.request = some (after, found)) :
    c.reply text (answerValue repr store c.request) = (Storage.serve c store).1 ∨
      ∃ message, c.reply text (answerValue repr store c.request) = failing message c := by
  cases c with
  | list start => exact .inl rfl
  | get key => exact .inl rfl
  | put key data =>
      rw [BrokerCall.request, answer] at answered
      rw [BrokerCall.request, answerValue]
      split at answered
      · rename_i illegal
        rw [if_pos illegal]
        exact .inr ⟨_, rfl⟩
      · rename_i legal
        obtain ⟨stored, put, _⟩ := Option.map_eq_some_iff.mp answered
        rw [if_neg legal, Storage.serve, put]
        exact .inl rfl

/-! ## One session -/

theorem ClientSession.begin_idle {s t : ClientSession} {r : Request} (moved : step repr (.begin r) s = some t) :
    s.call = none := by
  rw [step] at moved
  split at moved
  · rename_i free
    exact Option.isNone_iff_eq_none.mp free.1
  · cases moved

/-- The actions of `_run` and of the threads of the broker. -/
def ClientAction.Works : ClientAction → Prop
  | .begin _ | .others _ => False
  | .connect | .send _ | .serve _ | .serveAbandoned _ _ | .receive _ _ | .fail => True

/-- The session of a job that is at `party`: its call is the command the job waits for, what a
    thread did for the call counts as a reply, and on the connections it gave up there are
    commands that it posted. -/
structure Tracked {α : Type} (repr : String → String) (party : Party α) (posted : BrokerCall → Prop)
    (replied : ∀ c : BrokerCall, c.Reply → Prop) (s : ClientSession) : Prop where
  kept : s.Kept repr
  calling : ∀ call, s.call = some call → ∃ c next, party = .ask c next ∧ posted c ∧ c.request = call.request ∧
    ∀ turn ∈ call.turns, replied c (Storage.serve c turn.store).1
  abandoned : ∀ link ∈ s.abandoned, ∃ c, posted c ∧ c.request.Fits ∧ link.inbox <+: c.request.bytes

namespace Tracked

variable {α : Type} {party party' : Party α} {posted posted' : BrokerCall → Prop}
  {replied replied' : ∀ c : BrokerCall, c.Reply → Prop} {s t : ClientSession} {call : Ongoing}

theorem mono (tracked : Tracked repr party posted replied s) (more : ∀ c, posted c → posted' c)
    (more' : ∀ c r, replied c r → replied' c r) : Tracked repr party posted' replied' s where
  kept := tracked.kept
  calling call here := by
    obtain ⟨c, next, asks, mine, same, turns⟩ := tracked.calling call here
    exact ⟨c, next, asks, more c mine, same, fun turn member => more' _ _ (turns turn member)⟩
  abandoned link member := by
    obtain ⟨c, mine, fits, start⟩ := tracked.abandoned link member
    exact ⟨c, more c mine, fits, start⟩

/-- The other sessions change the store only. -/
theorem others (tracked : Tracked repr party posted replied s) (store : Storage) :
    Tracked repr party posted replied { s with store } :=
  have moved : ClientSession.step repr (.others store) s = some { s with store } := rfl
  ⟨tracked.kept.step moved, tracked.calling, tracked.abandoned⟩

/-- Between two calls. -/
theorem idle (tracked : Tracked repr party posted replied s) (idle : s.call = none)
    (more : ∀ c, posted c → posted' c) : Tracked repr party' posted' replied' s where
  kept := tracked.kept
  calling call here := by
    rw [idle] at here
    cases here
  abandoned link member := by
    obtain ⟨c, mine, fits, start⟩ := tracked.abandoned link member
    exact ⟨c, more c mine, fits, start⟩

/-- What is given up with the connection is a part of the command. -/
theorem dropped (tracked : Tracked repr party posted replied s) (ongoing : s.call = some call) :
    ∀ link ∈ s.drop.abandoned, ∃ c, posted c ∧ c.request.Fits ∧ link.inbox <+: c.request.bytes := by
  intro link member
  rcases List.mem_append.mp member with old | new
  · exact tracked.abandoned link old
  obtain ⟨c, next, _, mine, same, _⟩ := tracked.calling call ongoing
  have here : s.link = some link := Option.mem_toList.mp new
  refine ⟨c, mine, same ▸ tracked.kept.fits call ongoing, ?_⟩
  rw [same]
  cases sending : call.rest with
  | none =>
      have resting : s.Resting := by
        intro other same
        rw [ongoing] at same
        cases same
        exact sending
      rw [tracked.kept.resting resting link here]
      exact List.nil_prefix
  | some rest =>
      obtain ⟨link', there, flight⟩ := tracked.kept.flight call rest ongoing sending
      rw [here] at there
      cases there
      rcases flight.inbox with split | empty
      · exact ⟨rest, split⟩
      · rw [empty]
        exact List.nil_prefix

/-- What an action of the session is to the network: nothing, a command carried out, or the end of
    the call. -/
inductive Moved (text : ClientError → String) (repr : String → String) (party : Party α) (posted : BrokerCall → Prop)
    (replied : ∀ c : BrokerCall, c.Reply → Prop) (s t : ClientSession) : Prop where
  | quiet (store : t.store = s.store) (log : t.log = s.log) (call : t.call = none → s.call = none)
      (tracked : Tracked repr party posted replied t)
  | carriesOut {c : BrokerCall} (mine : posted c) (store : t.store = (Storage.serve c s.store).2)
      (log : t.log = s.log) (call : t.call = none → s.call = none)
      (tracked : Tracked repr party posted
        (fun d r => replied d r ∨ (⟨d, r⟩ : Sigma BrokerCall.Reply) = ⟨c, (Storage.serve c s.store).1⟩) t)
  | ends {c : BrokerCall} {next : c.Reply → Party α} {ended : Ended} (asks : party = .ask c next)
      (store : t.store = s.store) (log : t.log = s.log ++ [ended]) (idle : t.call = none)
      (got : replied c (c.reply text ended.outcome) ∨ ∃ message, c.reply text ended.outcome = failing message c)
      (tracked : Tracked repr party posted replied t)

theorem unreachable_fails (c : BrokerCall) : ∃ message, c.reply text (.error .unreachable) = failing message c := by
  cases c with
  | list | get | put => exact ⟨_, rfl⟩

theorem retry (tracked : Tracked repr party posted replied s) (ongoing : s.call = some call) :
    Moved text repr party posted replied s (s.retry call) := by
  have kept := tracked.kept.retry ongoing
  have given := tracked.dropped ongoing
  obtain ⟨c, next, asks, mine, same, _⟩ := tracked.calling call ongoing
  unfold ClientSession.retry at kept ⊢
  simp only at kept ⊢
  split
  · rename_i more
    rw [if_pos more] at kept
    refine .quiet rfl rfl (fun none_left => (Option.some_ne_none _ none_left).elim) ⟨kept, ?_, given⟩
    rintro _ ⟨⟩
    exact ⟨c, next, asks, mine, same, List.forall_mem_nil _⟩
  · rename_i last
    rw [if_neg last] at kept
    refine .ends asks rfl rfl rfl (.inr (unreachable_fails c)) ⟨kept, ?_, given⟩
    rintro _ ⟨⟩

theorem connect (tracked : Tracked repr party posted replied s) (moved : ClientSession.step repr .connect s = some t) :
    Moved text repr party posted replied s t := by
  have kept := tracked.kept.step moved
  rw [ClientSession.step] at moved
  split at moved
  · rename_i r attempt turns lost ongoing
    cases moved
    refine .quiet rfl rfl (fun none_left => (Option.some_ne_none _ none_left).elim) ⟨kept, ?_, tracked.abandoned⟩
    have calling := tracked.calling _ ongoing
    rintro _ ⟨⟩
    exact calling
  · cases moved

theorem send {count : Nat} (tracked : Tracked repr party posted replied s)
    (moved : ClientSession.step repr (.send count) s = some t) : Moved text repr party posted replied s t := by
  have kept := tracked.kept.step moved
  rw [ClientSession.step] at moved
  split at moved
  · rename_i r attempt rest turns lost link ongoing here
    cases moved
    refine .quiet rfl rfl (fun none_left => (Option.some_ne_none _ none_left).elim) ⟨kept, ?_, tracked.abandoned⟩
    have calling := tracked.calling _ ongoing
    rintro _ ⟨⟩
    exact calling
  · cases moved

/-- The thread of the session's connection carries out the command of its call. -/
theorem serve {pace : List Nat} (tracked : Tracked repr party posted replied s)
    (moved : ClientSession.step repr (.serve pace) s = some t) : Moved text repr party posted replied s t := by
  have kept := tracked.kept.step moved
  obtain ⟨call, link, turn, store, next, ongoing, _, _, took, _, rfl⟩ := tracked.kept.serve_cases moved
  obtain ⟨c, goesOn, asks, mine, same, _⟩ := tracked.calling call ongoing
  have stored : store = (Storage.serve c s.store).2 := by
    rw [took.stored, ← same]
    exact afterStore_request repr c s.store
  refine .carriesOut mine stored rfl (fun none_left => (Option.some_ne_none _ none_left).elim)
    ⟨kept, ?_, tracked.abandoned⟩
  rintro _ ⟨⟩
  refine ⟨c, goesOn, asks, mine, same, fun turn' member => ?_⟩
  obtain rfl := List.mem_singleton.mp member
  rw [took.found]
  exact .inr rfl

/-- A thread still serves a connection that was given up. -/
theorem serveAbandoned {i : Nat} {pace : List Nat} (tracked : Tracked repr party posted replied s)
    (moved : ClientSession.step repr (.serveAbandoned i pace) s = some t) :
    Moved text repr party posted replied s t := by
  have kept := tracked.kept.step moved
  rw [ClientSession.step] at moved
  split at moved
  · cases moved
  · rename_i link here
    obtain ⟨⟨turn, store, next⟩, turned, rfl⟩ := Option.map_eq_some_iff.mp moved
    obtain ⟨c, mine, fits, start⟩ := tracked.abandoned link (List.mem_of_getElem? here)
    have took := Link.took fits start turned
    have stored : store = (Storage.serve c s.store).2 := by
      rw [took.stored]
      exact afterStore_request repr c s.store
    refine .carriesOut mine stored rfl id ⟨kept, ?_, ?_⟩
    · intro call ongoing
      obtain ⟨d, goesOn, asks, mine, same, turns⟩ := tracked.calling call ongoing
      exact ⟨d, goesOn, asks, mine, same, fun turn member => .inl (turns turn member)⟩
    · intro link' member
      rcases List.mem_or_eq_of_mem_set member with old | rfl
      · exact tracked.abandoned link' old
      · refine ⟨c, mine, fits, ?_⟩
        rw [took.inbox]
        exact List.nil_prefix

theorem receive {arrived : Nat} {pace : List Nat} (tracked : Tracked repr party posted replied s)
    (moved : ClientSession.step repr (.receive arrived pace) s = some t) :
    Moved text repr party posted replied s t := by
  have kept := tracked.kept.step moved
  obtain ⟨call, ongoing, rfl | ⟨outcome, own, rfl⟩⟩ := tracked.kept.receive_cases moved
  · exact tracked.retry ongoing
  · obtain ⟨c, next, asks, mine, same, turns⟩ := tracked.calling call ongoing
    obtain ⟨turn, after, found, only, _, answered, _, value⟩ := own
    refine .ends asks rfl rfl rfl ?_ ⟨kept, ?_, tracked.abandoned⟩
    · simp only at only answered value
      rw [← same] at answered value
      rw [value]
      rcases reply_answered answered with reply | refused
      · rw [reply]
        exact .inl (turns turn (by rw [only]; exact List.mem_singleton_self _))
      · exact .inr refused
    · rintro _ ⟨⟩

/-- The step lemma of a session. -/
theorem step (text : ClientError → String) {a : ClientAction} (works : a.Works)
    (tracked : Tracked repr party posted replied s) (moved : ClientSession.step repr a s = some t) :
    Moved text repr party posted replied s t := by
  cases a with
  | begin | others => exact False.elim works
  | connect => exact tracked.connect moved
  | send count => exact tracked.send moved
  | serve pace => exact tracked.serve moved
  | serveAbandoned i pace => exact tracked.serveAbandoned moved
  | receive arrived pace => exact tracked.receive moved
  | fail =>
      obtain ⟨call, ongoing, rfl⟩ := Option.map_eq_some_iff.mp moved
      exact tracked.retry ongoing

theorem begin {c : BrokerCall} {next : c.Reply → Party α} (tracked : Tracked repr party posted replied s)
    (asks : party = .ask c next) (mine : posted c) (moved : ClientSession.step repr (.begin c.request) s = some t) :
    t.store = s.store ∧ t.call ≠ none ∧ Tracked repr party posted replied t := by
  have kept := tracked.kept.step moved
  rw [ClientSession.step] at moved
  split at moved
  · cases moved
    refine ⟨rfl, Option.some_ne_none _, kept, ?_, tracked.abandoned⟩
    rintro _ ⟨⟩
    exact ⟨c, next, asks, mine, rfl, List.forall_mem_nil _⟩
  · cases moved

end Tracked

/-! ## All sessions -/

section Networks

variable {ι : Type} {γ : ι → Type}

/-- The store of the broker, and a job and a session for each client. -/
structure Network (γ : ι → Type) where
  store : Storage
  parties : ∀ i, Party (γ i)
  sessions : ι → ClientSession

namespace Network

def start (store : Storage) (parties : ∀ i, Party (γ i)) : Network γ where
  store := store
  parties := parties
  sessions _ := .start store

/-- The session of a client with the store as it is. -/
def session (n : Network γ) (i : ι) : ClientSession := { n.sessions i with store := n.store }

/-- The job has made no call yet. -/
def Unused (n : Network γ) (i : ι) : Prop := (n.session i).call = none ∧ (n.session i).log = []

/-- The network of whole commands that the bytes amount to, since the jobs were at `first`. -/
structure Refines (repr : String → String) (first : ∀ i, Party (γ i)) (n : Network γ)
    (l : LateNetwork BrokerCall BrokerCall.Reply γ Storage) : Prop where
  store : l.server = n.store
  parties : l.clients = n.parties
  tracked : ∀ i, Tracked repr (n.parties i) (l.posted i) (l.replied i) (n.session i)
  unused : ∀ i, n.Unused i → n.parties i = first i ∧ (∀ c, ¬ l.posted i c) ∧ ∀ c r, ¬ l.replied i c r

theorem Refines.start (store : Storage) (parties : ∀ i, Party (γ i)) :
    Refines repr parties (Network.start store parties) (LateNetwork.start store parties) where
  store := rfl
  parties := rfl
  tracked _ := ⟨ClientSession.kept_start store, fun _ here => absurd here (Option.some_ne_none _).symm,
    List.forall_mem_nil _⟩
  unused _ _ := ⟨rfl, fun _ => id, fun _ _ => id⟩

variable [DecidableEq ι]

def moves (n : Network γ) (i : ι) (s : ClientSession) : Network γ where
  store := s.store
  parties := n.parties
  sessions := Function.update n.sessions i s

def movesOn (n : Network γ) (i : ι) (s : ClientSession) (party : Party (γ i)) : Network γ :=
  { n.moves i s with parties := Function.update n.parties i party }

/-- A job calls for its next command; a session or a thread makes a step; a call ends and its job goes on. -/
inductive Step (repr : String → String) (text : ClientError → String) (n : Network γ) : Network γ → Prop where
  | begin (i : ι) {c : BrokerCall} {next : c.Reply → Party (γ i)} {s : ClientSession} (asks : n.parties i = .ask c next)
      (moved : ClientSession.step repr (.begin c.request) (n.session i) = some s) : Step repr text n (n.moves i s)
  | work (i : ι) {a : ClientAction} {s : ClientSession} (works : a.Works)
      (moved : ClientSession.step repr a (n.session i) = some s) (log : s.log = (n.session i).log) :
      Step repr text n (n.moves i s)
  | finish (i : ι) {a : ClientAction} {s : ClientSession} {c : BrokerCall} {next : c.Reply → Party (γ i)}
      {ended : Ended} (works : a.Works) (moved : ClientSession.step repr a (n.session i) = some s)
      (log : s.log = (n.session i).log ++ [ended]) (asks : n.parties i = .ask c next) :
      Step repr text n (n.movesOn i s (next (c.reply text ended.outcome)))

theorem session_moves_self (n : Network γ) (i : ι) (s : ClientSession) : (n.moves i s).session i = s := by
  rw [session, moves]
  simp only [Function.update_self]

theorem session_moves_other (n : Network γ) {i j : ι} (other : j ≠ i) (s : ClientSession) :
    (n.moves i s).session j = { n.session j with store := s.store } := by
  rw [session, moves]
  simp only [Function.update_of_ne other]
  rfl

/-- The step of one client, seen by all. -/
theorem Refines.moves {n : Network γ} {l l' : LateNetwork BrokerCall BrokerCall.Reply γ Storage} {i : ι}
    {s : ClientSession} {first parties : ∀ i, Party (γ i)} (refines : Refines repr first n l)
    (store : l'.server = s.store) (clients : l'.clients = parties)
    (mine : Tracked repr (parties i) (l'.posted i) (l'.replied i) s)
    (used : s.call = none → s.log = [] → parties i = first i ∧ (∀ c, ¬ l'.posted i c) ∧ ∀ c r, ¬ l'.replied i c r)
    (others : ∀ j, j ≠ i → parties j = n.parties j ∧ (∀ c, l'.posted j c ↔ l.posted j c) ∧
      ∀ c r, l'.replied j c r ↔ l.replied j c r) :
    Refines repr first { n.moves i s with parties } l' where
  store := store
  parties := clients
  tracked j := by
    by_cases here : j = i
    · subst here
      have same := session_moves_self n j s
      change Tracked repr (parties j) _ _ ((n.moves j s).session j)
      rw [same]
      exact mine
    · obtain ⟨party, posted, replied⟩ := others j here
      change Tracked repr (parties j) _ _ ((n.moves i s).session j)
      rw [session_moves_other n here s, party]
      exact ((refines.tracked j).others s.store).mono (fun c => (posted c).mpr) fun c r => (replied c r).mpr
  unused j fresh := by
    change ((n.moves i s).session j).call = none ∧ ((n.moves i s).session j).log = [] at fresh
    by_cases here : j = i
    · subst here
      rw [session_moves_self n j s] at fresh
      exact used fresh.1 fresh.2
    · obtain ⟨party, posted, replied⟩ := others j here
      rw [session_moves_other n here s] at fresh
      obtain ⟨waits, nothing, none_got⟩ := refines.unused j fresh
      exact ⟨party.trans waits, fun c => nothing c ∘ (posted c).mp, fun c r => none_got c r ∘ (replied c r).mp⟩

/-- The job of one client goes on. -/
theorem Refines.movesOn {n : Network γ} {l : LateNetwork BrokerCall BrokerCall.Reply γ Storage} {i : ι}
    {s : ClientSession} {first : ∀ i, Party (γ i)} (refines : Refines repr first n l) (party : Party (γ i))
    (store : s.store = n.store) (used : s.log ≠ [])
    (tracked : Tracked repr party (l.posted i) (fun _ _ => False) s) :
    Refines repr first (n.movesOn i s party) (l.goOn i party) := by
  have served : (l.goOn i party).server = s.store := refines.store.trans store.symm
  apply refines.moves served
  · rw [LateNetwork.goOn, refines.parties]
  · rw [Function.update_self]
    exact tracked.mono (fun _ => id) fun _ _ => False.elim
  · exact fun _ empty => absurd empty used
  · exact fun j other => ⟨Function.update_of_ne other .., fun _ => Iff.rfl, fun _ _ => and_iff_right other⟩

theorem ne_append (log : List Ended) (ended : Ended) : log ≠ log ++ [ended] := by
  intro same
  have lengths := congrArg List.length same
  simp at lengths

/-- The step lemma: a step of the bytes is at most one of the commands. -/
theorem Refines.step {n n' : Network γ} {l : LateNetwork BrokerCall BrokerCall.Reply γ Storage}
    {first : ∀ i, Party (γ i)} (refines : Refines repr first n l) (step : Step repr text n n') :
    ∃ l', Relation.ReflTransGen (LateNetwork.Step Storage.serve failing) l l' ∧ Refines repr first n' l' := by
  cases step with
  | @begin i c next s asks moved =>
      have waits : l.clients i = .ask c next := by rw [refines.parties, asks]
      have fresh : Tracked repr (n.parties i) ((l.post i c).posted i) ((l.post i c).replied i) (n.session i) :=
        (refines.tracked i).idle (ClientSession.begin_idle moved) fun _ => .inl
      obtain ⟨store, calling, tracked⟩ := fresh.begin asks (.inr ⟨rfl, rfl⟩) moved
      refine ⟨l.post i c, .single (.post i waits), refines.moves ?_ refines.parties tracked ?_ fun j other => ?_⟩
      · exact refines.store.trans store.symm
      · exact fun idle => absurd idle calling
      · exact ⟨rfl, fun _ => or_iff_left fun here => other here.1, fun _ _ => and_iff_right other⟩
  | @work i a s works moved log =>
      have unused := refines.unused i
      cases (refines.tracked i).step text works moved with
      | quiet store log' call tracked =>
          refine ⟨l, .refl, refines.moves (refines.store.trans store.symm) refines.parties tracked ?_ fun j _ => ?_⟩
          · exact fun idle empty => unused ⟨call idle, log'.symm.trans empty⟩
          · exact ⟨rfl, fun _ => Iff.rfl, fun _ _ => Iff.rfl⟩
      | @carriesOut c mine store log' call tracked =>
          have carried : (n.session i).store = l.server := refines.store.symm
          rw [carried] at store tracked
          refine ⟨l.carryOut Storage.serve i c, .single (.carryOut i mine),
            refines.moves store.symm refines.parties (tracked.mono (fun _ => id) ?_) ?_ fun j other => ?_⟩
          · exact fun d r got => got.imp_right fun same => ⟨rfl, same⟩
          · exact fun idle empty => absurd mine ((unused ⟨call idle, log'.symm.trans empty⟩).2.1 c)
          · exact ⟨rfl, fun _ => Iff.rfl, fun _ _ => or_iff_left fun here => other here.1⟩
      | ends _ _ log' => exact absurd (log.symm.trans log') (ne_append _ _)
  | @finish i a s c next ended works moved log asks =>
      cases (refines.tracked i).step text works moved with
      | quiet _ log' => exact absurd (log'.symm.trans log) (ne_append _ _)
      | carriesOut _ _ log' => exact absurd (log'.symm.trans log) (ne_append _ _)
      | @ends d next' ended' asks' store log' idle got tracked =>
          cases asks.symm.trans asks'
          cases List.append_cancel_left (log.symm.trans log')
          have waits : l.clients i = .ask c next := by rw [refines.parties, asks]
          have used : s.log ≠ [] := by
            rw [log]
            exact List.append_ne_nil_of_right_ne_nil _ (List.cons_ne_nil _ _)
          have goesOn := refines.movesOn (next (c.reply text ended.outcome)) store used (tracked.idle idle fun _ => id)
          rcases got with replied | ⟨message, failed⟩
          · exact ⟨_, .single (.reply i waits replied), goesOn⟩
          · rw [failed] at goesOn ⊢
            exact ⟨_, .single (.fail i waits message), goesOn⟩

/-- The run lemma. -/
theorem Refines.run {n n' : Network γ} {l : LateNetwork BrokerCall BrokerCall.Reply γ Storage}
    {first : ∀ i, Party (γ i)} (refines : Refines repr first n l) (run : Relation.ReflTransGen (Step repr text) n n') :
    ∃ l', Relation.ReflTransGen (LateNetwork.Step Storage.serve failing) l l' ∧ Refines repr first n' l' := by
  induction run with
  | refl => exact ⟨l, .refl, refines⟩
  | tail _ step ih =>
      obtain ⟨l', before, refines'⟩ := ih
      obtain ⟨l'', more, refines''⟩ := refines'.step step
      exact ⟨l'', before.trans more, refines''⟩

end Network

end Networks

end SecureTransfer.ApproachB
