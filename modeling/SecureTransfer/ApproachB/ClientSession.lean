import SecureTransfer.ApproachB.Connection
import Mathlib.Logic.Relation

/-! # One client and its broker

The calls of one `BrokerClient`, byte by byte: `_run` with its retries on one side, a
thread of the broker for each connection on the other. A connection may fail at any byte,
and a thread may serve what arrived on it long after the client gave it up.
-/

namespace SecureTransfer.ApproachB

open Library

/-- What was sent on a connection and is not read yet, in both directions, and whether its
    thread is still in its loop. -/
structure Link where
  inbox : Bytes
  outbox : Bytes
  serving : Bool

def Link.fresh : Link := ⟨[], [], true⟩

/-- One turn of a thread: the store it found, what it read and what it sent. -/
structure Turn where
  store : Storage
  read : Bytes
  sent : Bytes

/-- A call in `_run`. There is nothing left to send before the attempt has a socket; `turns`
    are those of its connection since then, and `lost` tells that an attempt failed after
    its whole command was sent. -/
structure Ongoing where
  request : Request
  attempt : Nat
  rest : Option Bytes
  turns : List Turn
  lost : Bool

structure Ended where
  request : Request
  outcome : Except ClientError Value
  turns : List Turn
  lost : Bool

/-- The broker's store, the client's socket, the ones it closed, its call and the earlier ones. -/
structure ClientSession where
  store : Storage
  link : Option Link
  abandoned : List Link
  call : Option Ongoing
  log : List Ended

def maxAttempts : Nat := 5

inductive ClientAction where
  | begin (r : Request)
  | connect
  | send (count : Nat)
  | serve (pace : List Nat)
  | serveAbandoned (i : Nat) (pace : List Nat)
  | receive (arrived : Nat) (pace : List Nat)
  | fail
  | others (store : Storage)

/-- A thread takes its next turn once the whole command has arrived. -/
def Link.turn (repr : String → String) (pace : List Nat) (store : Storage) (link : Link) :
    Option (Turn × Storage × Link) :=
  if link.serving then
    match serveTurn repr ⟨store, ⟨link.inbox, pace, []⟩, []⟩ with
    | (.error (.connectionError _ _), _) => none
    | (result, t) =>
        let read := link.inbox.take (link.inbox.length - t.conn.incoming.length)
        some (⟨store, read, t.conn.sent⟩, t.store,
          ⟨t.conn.incoming, link.outbox ++ t.conn.sent, result.toBool⟩)
  else none

namespace ClientSession

def start (store : Storage) : ClientSession := ⟨store, none, [], none, []⟩

/-- The call returns or raises. -/
def finish (s : ClientSession) (call : Ongoing) (outcome : Except ClientError Value) : ClientSession :=
  { s with call := none, log := s.log ++ [⟨call.request, outcome, call.turns, call.lost⟩] }

/-- `_drop`. -/
def drop (s : ClientSession) : ClientSession :=
  { s with link := none, abandoned := s.abandoned ++ s.link.toList }

/-- The `except` branch of `_run`. -/
def retry (s : ClientSession) (call : Ongoing) : ClientSession :=
  let lost := call.lost || decide (call.rest = some [])
  if call.attempt + 1 < maxAttempts then
    { s.drop with call := some ⟨call.request, call.attempt + 1, none, [], lost⟩ }
  else s.drop.finish { call with lost } (.error .unreachable)

/-- An object of the language is always short enough for a frame. -/
def step (repr : String → String) : ClientAction → ClientSession → Option ClientSession
  | .begin r, s =>
      if s.call.isNone ∧ ∀ part ∈ r.line :: r.payload, part.length < 2 ^ 64 then
        some { s with call := some ⟨r, 0, none, [], false⟩ }
      else none
  | .connect, s =>
      match s.call with
      | some ⟨r, attempt, none, turns, lost⟩ =>
          some { s with link := some (s.link.getD .fresh), call := some ⟨r, attempt, some r.bytes, turns, lost⟩ }
      | _ => none
  | .send count, s =>
      match s.call, s.link with
      | some ⟨r, attempt, some rest, turns, lost⟩, some link =>
          some { s with
            link := some { link with inbox := link.inbox ++ rest.take count }
            call := some ⟨r, attempt, some (rest.drop count), turns, lost⟩ }
      | _, _ => none
  | .serve pace, s =>
      match s.link with
      | none => none
      | some link =>
          (link.turn repr pace s.store).map fun (turn, store, link) =>
            { s with
              store
              link := some link
              call := s.call.map fun call => { call with turns := call.turns ++ [turn] } }
  | .serveAbandoned i pace, s =>
      match s.abandoned[i]? with
      | none => none
      | some link =>
          (link.turn repr pace s.store).map fun (_, store, link) =>
            { s with store, abandoned := s.abandoned.set i link }
  | .receive arrived pace, s =>
      match s.call, s.link with
      | some call, some link =>
          if call.rest = some [] then
            match parseReply call.request ⟨link.outbox.take arrived, pace, []⟩ with
            | (.error (.io _), _) => some (s.retry call)
            | (outcome, conn) =>
                let link := { link with outbox := conn.incoming ++ link.outbox.drop arrived }
                some (finish { s with link := some link } call outcome)
          else none
      | _, _ => none
  | .fail, s => s.call.map s.retry
  | .others store, s => some { s with store }

def Step (repr : String → String) (s t : ClientSession) : Prop := ∃ action, step repr action s = some t

end ClientSession

/-! ## What an ended call is paired with -/

/-- In its last attempt the broker took one turn on the connection of `ended`: it read the
    command of this call, and what it sent is what the call makes its outcome of. -/
def OwnReply (repr : String → String) (ended : Ended) : Prop :=
  ∃ turn after found, ended.turns = [turn] ∧ turn.read = ended.request.bytes ∧
    answer repr turn.store ended.request = some (after, found) ∧ turn.sent = found.flatMap frame ∧
    ended.outcome = answerValue repr turn.store ended.request

/-- Every attempt starts without a socket or with one on which nothing is on its way. -/
structure ClientSession.Paired (repr : String → String) (s : ClientSession) : Prop where
  clean : ∀ call, s.call = some call → call.rest = none → ∀ link, s.link = some link → link = .fresh
  own : ∀ ended ∈ s.log, ended.outcome = .error .unreachable ∨ OwnReply repr ended

/-! ## A turn of a thread -/

variable {repr : String → String}

theorem onConn_error {α : Type} {m : Prog Sock Failure α} {s : Serving} {failure : Failure} {conn : Sock}
    (h : m s.conn = (.error failure, conn)) : onConn m s = (.error failure, { s with conn }) := by
  rw [onConn, Prog.zoom_run h]

/-- A thread waits for the rest of a command. -/
theorem serveTurn_cut (repr : String → String) {r : Request} (fits : r.Fits) {s : Serving}
    (start : s.conn.incoming <+: r.bytes)
    (cut : s.conn.incoming ≠ r.bytes) :
    ∃ got wanted t, serveTurn repr s = (.error (.connectionError got wanted), t) := by
  obtain ⟨m, rest, split, ends, bound, last⟩ := framed_prefix fits start
  have short : m < (r.line :: r.payload).length := by
    refine lt_of_le_of_ne bound fun all => cut ?_
    rw [split, last all, all, List.take_length, List.append_nil]
    rfl
  cases m with
  | zero =>
      have unframed : Unframed s.conn.incoming := by
        rw [split]
        exact ends
      obtain ⟨got, wanted, conn, read, _⟩ := recvFrame_truncated unframed
      refine ⟨got, wanted, { s with conn }, ?_⟩
      rw [serveTurn, Prog.bind_error (onConn_error read)]
  | succ m =>
      cases r with
      | put key data =>
          have one : m = 0 := by
            simp only [Request.payload, List.length_cons, List.length_nil] at short
            omega
          rw [one, List.take_succ_cons, List.take_zero, List.flatMap_cons, List.flatMap_nil,
            List.append_nil] at split
          obtain ⟨conn, read, left, _⟩ := recvFrame_complete (fits _ List.mem_cons_self) split
          have unframed : Unframed conn.incoming := by
            rw [left]
            exact ends
          obtain ⟨got, wanted, conn', read', _⟩ := recvFrame_truncated unframed
          have first : onConn recvFrame s = (.ok (Request.put key data).line, { s with conn }) := by
            rw [onConn, Prog.zoom_run read]
          have second : onConn recvFrame { s with conn } =
              (.error (.connectionError got wanted), { s with conn := conn' }) :=
            onConn_error read'
          refine ⟨got, wanted, { s with conn := conn' }, ?_⟩
          rw [serveTurn, Prog.bind_ok first, handleCommand_op]
          simp only [handlePut]
          rw [Prog.bind_error second]
      | get key => simp [Request.payload] at short
      | stat key => simp [Request.payload] at short
      | list key => simp [Request.payload] at short

theorem bytes_ne_nil (r : Request) : r.bytes ≠ [] := by
  intro empty
  have lengths := congrArg List.length empty
  rw [Request.bytes, List.flatMap_cons, List.length_append, frame_length, List.length_nil] at lengths
  omega

/-- What a thread did in a turn on the command `r`. -/
structure Took (repr : String → String) (r : Request) (store : Storage) (link : Link) (turn : Turn)
    (after : Storage) (next : Link) : Prop where
  arrived : link.inbox = r.bytes
  stored : after = afterStore repr store r
  found : turn.store = store
  read : turn.read = r.bytes
  inbox : next.inbox = []
  outbox : next.outbox = link.outbox ++ turn.sent
  sent : ∃ n, turn.sent = ((replies repr store r).take n).flatMap frame ∧
    (∀ reply ∈ (replies repr store r).take n, Sendable reply) ∧
    (answer repr store r ≠ none → (replies repr store r).length ≤ n → next.serving = true)

/-- A thread takes a turn only on a whole command. -/
theorem Link.took {pace : List Nat} {store after : Storage} {link next : Link} {turn : Turn} {r : Request}
    (fits : r.Fits) (start : link.inbox <+: r.bytes)
    (turned : link.turn repr pace store = some (turn, after, next)) :
    Took repr r store link turn after next := by
  let served : Serving := ⟨store, ⟨link.inbox, pace, []⟩, []⟩
  rw [Link.turn] at turned
  split at turned
  · by_cases whole : link.inbox = r.bytes
    · have arrived : served.conn.incoming = r.bytes ++ [] := by rw [List.append_nil]; exact whole
      split at turned
      · cases turned
      · rename_i result t _ run
        obtain ⟨stored, empty, n, sent, small, all⟩ := serveTurn_bytes rfl arrived fits run
        cases turned
        refine ⟨whole, stored, rfl, ?_, empty, rfl, n, ?_, small, fun replied long => ?_⟩
        · rw [empty, List.length_nil, Nat.sub_zero, List.take_length]
          exact whole
        · rw [sent]
          exact List.nil_append _
        · rw [List.take_of_length_le long] at small
          rw [(all replied small).2]
          rfl
    · obtain ⟨got, wanted, t, waits⟩ := serveTurn_cut repr (s := served) fits start whole
      rw [waits] at turned
      cases turned
  · cases turned

/-! ## Reading a reply that is on its way -/

/-- The client makes an outcome of a whole reply only, and reads every byte of it. -/
theorem parseReply_sent {r : Request} {store : Storage} {n arrived : Nat} {outbox : Bytes} {pace : List Nat}
    {outcome : Except ClientError Value} {conn : Sock}
    (sent : outbox = ((replies repr store r).take n).flatMap frame)
    (small : ∀ reply ∈ (replies repr store r).take n, Sendable reply)
    (run : parseReply r ⟨outbox.take arrived, pace, []⟩ = (outcome, conn)) :
    (∃ failure, outcome = .error (.io failure)) ∨
      ∃ after found, answer repr store r = some (after, found) ∧ found.length ≤ n ∧
        outcome = answerValue repr store r ∧ conn.incoming ++ outbox.drop arrived = [] := by
  have start : outbox.take arrived <+: ((replies repr store r).take n).flatMap frame := by
    rw [← sent]
    exact List.take_prefix _ _
  obtain ⟨m, cut, split, ends, bound, last⟩ := framed_prefix small start
  cases known : answer repr store r with
  | none =>
      have none_sent : replies repr store r = [] := by rw [replies, known, Option.elim_none]
      have unframed : Unframed (Sock.mk (outbox.take arrived) pace []).incoming := by
        rw [split, none_sent, List.take_nil, List.take_nil, List.flatMap_nil, List.nil_append]
        exact ends
      obtain ⟨failure, conn', failed⟩ := parseReply_nothing r unframed
      rw [failed] at run
      cases run
      exact .inl ⟨failure, rfl⟩
  | some answered =>
      obtain ⟨after, found⟩ := answered
      have frames : replies repr store r = found := by rw [replies, known, Option.elim_some]
      rw [frames] at sent small split bound last
      rw [List.length_take] at bound last
      by_cases short : m < found.length
      · have brings : Sock.Brings ⟨outbox.take arrived, pace, []⟩ (found.take m) cut := by
          rw [List.take_take, Nat.min_eq_left (by omega)] at split
          exact split
        have each : ∀ reply ∈ found.take m, Sendable reply := fun reply member =>
          small reply (List.take_subset_take_left _ (by omega) member)
        obtain ⟨failure, conn', failed⟩ := parseReply_cut known short each ends brings
        rw [failed] at run
        cases run
        exact .inl ⟨failure, rfl⟩
      · have whole : found.take n = found := List.take_of_length_le (by omega)
        rw [whole] at sent small split
        have arrives : outbox.take arrived = outbox := by
          rw [split, last (by omega), List.append_nil, List.take_of_length_le (by omega)]
          exact sent.symm
        have brings : Sock.Brings ⟨outbox.take arrived, pace, []⟩ found [] := by
          rw [Sock.Brings, List.append_nil, ← sent]
          exact arrives
        obtain ⟨conn', read, empty, _⟩ := parseReply_answer known small brings
        rw [run] at read
        cases read
        refine .inr ⟨after, found, rfl, by omega, rfl, ?_⟩
        rw [empty, List.nil_append, List.drop_eq_nil_iff]
        exact List.take_eq_self_iff _ |>.mp arrives

/-! ## What holds throughout -/

/-- Of the attempt's command `rest` is still to be sent; or it was sent and served, and the
    reply is on its way. -/
inductive InFlight (repr : String → String) (r : Request) (link : Link) : Bytes → List Turn → Prop
  | command {rest : Bytes} (serving : link.serving = true) (outbox : link.outbox = [])
      (sent : link.inbox ++ rest = r.bytes) : InFlight repr r link rest []
  | reply {turn : Turn} (read : turn.read = r.bytes) (inbox : link.inbox = [])
      (outbox : link.outbox = turn.sent)
      (sent : ∃ n, turn.sent = ((replies repr turn.store r).take n).flatMap frame ∧
        (∀ reply ∈ (replies repr turn.store r).take n, Sendable reply) ∧
        (answer repr turn.store r ≠ none → (replies repr turn.store r).length ≤ n → link.serving = true)) :
      InFlight repr r link [] [turn]

theorem InFlight.inbox {r : Request} {link : Link} {rest : Bytes} {turns : List Turn}
    (flight : InFlight repr r link rest turns) : link.inbox ++ rest = r.bytes ∨ link.inbox = [] := by
  cases flight with
  | command serving outbox sent => exact .inl sent
  | reply read inbox outbox sent => exact .inr inbox

/-- No call, or one whose attempt has no socket yet. -/
def ClientSession.Resting (s : ClientSession) : Prop := ∀ call, s.call = some call → call.rest = none

structure ClientSession.Kept (repr : String → String) (s : ClientSession) : Prop where
  fits : ∀ call, s.call = some call → call.request.Fits
  resting : s.Resting → ∀ link, s.link = some link → link = .fresh
  unsent : ∀ call, s.call = some call → call.rest = none → call.turns = []
  flight : ∀ call rest, s.call = some call → call.rest = some rest →
    ∃ link, s.link = some link ∧ InFlight repr call.request link rest call.turns
  own : ∀ ended ∈ s.log, ended.outcome = .error .unreachable ∨ OwnReply repr ended

theorem ClientSession.Kept.paired {s : ClientSession} (kept : s.Kept repr) : s.Paired repr where
  clean call here unsent link :=
    kept.resting (fun other same => by
      rw [here] at same
      cases same
      exact unsent) link
  own := kept.own

theorem turn_empty {pace : List Nat} {store : Storage} {link : Link} (empty : link.inbox = []) :
    link.turn repr pace store = none := by
  have unframed : Unframed (Sock.mk link.inbox pace []).incoming := by
    rw [empty]
    exact unframed_nil
  obtain ⟨got, wanted, conn, read, _⟩ := recvFrame_truncated unframed
  have waits : serveTurn repr ⟨store, ⟨link.inbox, pace, []⟩, []⟩ =
      (.error (.connectionError got wanted), ⟨store, conn, []⟩) := by
    rw [serveTurn, Prog.bind_error (onConn_error read)]
  rw [Link.turn, waits]
  exact ite_self none

namespace ClientSession

variable {s t : ClientSession} {call : Ongoing}

theorem kept_start (store : Storage) : (start store).Kept repr :=
  ⟨nofun, nofun, nofun, nofun, nofun⟩

theorem Kept.retry (kept : s.Kept repr) (ongoing : s.call = some call) : (s.retry call).Kept repr := by
  unfold ClientSession.retry
  simp only
  split
  · refine ⟨?_, nofun, ?_, ?_, kept.own⟩
    · rintro _ ⟨⟩
      exact kept.fits call ongoing
    · rintro _ ⟨⟩ _
      rfl
    · rintro _ _ ⟨⟩ ⟨⟩
  · refine ⟨nofun, nofun, nofun, nofun, fun ended member => ?_⟩
    rcases List.mem_append.mp member with old | new
    · exact kept.own ended old
    · rw [List.mem_singleton.mp new]
      exact .inl rfl

theorem Kept.begin {r : Request} (kept : s.Kept repr) (moved : step repr (.begin r) s = some t) :
    t.Kept repr := by
  rw [step] at moved
  split at moved
  · rename_i free
    obtain ⟨idle, fits⟩ := free
    cases moved
    have none_yet : s.Resting := by
      intro other same
      rw [Option.isNone_iff_eq_none.mp idle] at same
      cases same
    refine ⟨?_, fun _ => kept.resting none_yet, ?_, ?_, kept.own⟩
    · rintro _ ⟨⟩
      exact fits
    · rintro _ ⟨⟩ _
      rfl
    · rintro _ _ ⟨⟩ ⟨⟩
  · cases moved

theorem Kept.connect (kept : s.Kept repr) (moved : step repr .connect s = some t) : t.Kept repr := by
  rw [step] at moved
  split at moved
  · rename_i r attempt turns lost ongoing
    cases moved
    have fits := kept.fits _ ongoing
    have unsent := kept.unsent _ ongoing rfl
    have resting : s.Resting := by
      intro other same
      rw [ongoing] at same
      cases same
      rfl
    have clean : s.link.getD .fresh = .fresh := by
      cases here : s.link with
      | none => rfl
      | some link => exact kept.resting resting link here
    refine ⟨?_, fun resting => ?_, ?_, ?_, kept.own⟩
    · rintro _ ⟨⟩
      exact fits
    · cases resting _ rfl
    · rintro _ ⟨⟩ ⟨⟩
    · rintro _ _ ⟨⟩ ⟨⟩
      refine ⟨_, rfl, ?_⟩
      rw [clean]
      simp only at unsent
      rw [unsent]
      exact .command rfl rfl rfl
  · cases moved

theorem Kept.send {count : Nat} (kept : s.Kept repr) (moved : step repr (.send count) s = some t) :
    t.Kept repr := by
  rw [step] at moved
  split at moved
  · rename_i r attempt rest turns lost link ongoing here
    cases moved
    have fits := kept.fits _ ongoing
    obtain ⟨_, same, flight⟩ := kept.flight _ _ ongoing rfl
    rw [here] at same
    cases same
    refine ⟨?_, fun resting => ?_, ?_, ?_, kept.own⟩
    · rintro _ ⟨⟩
      exact fits
    · cases resting _ rfl
    · rintro _ ⟨⟩ ⟨⟩
    · rintro _ _ ⟨⟩ ⟨⟩
      refine ⟨_, rfl, ?_⟩
      generalize turns = turns' at flight ⊢
      cases flight with
      | command serving outbox sent =>
          exact .command serving outbox (by rw [List.append_assoc, List.take_append_drop]; exact sent)
      | reply read inbox outbox sent =>
          rw [List.drop_nil]
          exact .reply read (by rw [List.take_nil, List.append_nil]; exact inbox) outbox sent
  · cases moved

/-- A turn on the client's connection is the one on the command of its call. -/
theorem Kept.serve_cases {pace : List Nat} (kept : s.Kept repr) (moved : step repr (.serve pace) s = some t) :
    ∃ call link turn store next, s.call = some call ∧ call.rest = some [] ∧ call.turns = [] ∧
      Took repr call.request s.store link turn store next ∧ next.outbox = turn.sent ∧
      t = { s with store, link := some next, call := some { call with turns := [turn] } } := by
  rw [step] at moved
  split at moved
  · cases moved
  · rename_i link here
    obtain ⟨⟨turn, store, next⟩, turned, rfl⟩ := Option.map_eq_some_iff.mp moved
    by_cases resting : s.Resting
    · rw [kept.resting resting link here, turn_empty rfl] at turned
      cases turned
    · simp only [Resting, not_forall] at resting
      obtain ⟨call, ongoing, begun⟩ := resting
      obtain ⟨rest, sending⟩ := Option.ne_none_iff_exists'.mp begun
      obtain ⟨_, same, flight⟩ := kept.flight call rest ongoing sending
      rw [here] at same
      cases same
      have first : ∀ turns, call.turns = turns → InFlight repr call.request link rest turns →
          rest = [] ∧ turns = [] ∧ Took repr call.request s.store link turn store next ∧ link.outbox = [] := by
        intro turns _ flight
        cases flight with
        | command serving outbox sent =>
            have took := Link.took (kept.fits call ongoing) ⟨rest, sent⟩ turned
            have whole : link.inbox ++ rest = link.inbox ++ [] := by rw [sent, List.append_nil, took.arrived]
            exact ⟨List.append_cancel_left whole, rfl, took, outbox⟩
        | reply read inbox outbox sent =>
            rw [turn_empty inbox] at turned
            cases turned
      obtain ⟨rfl, none_before, took, empty⟩ := first _ rfl flight
      refine ⟨call, link, turn, store, next, ongoing, sending, none_before, took, ?_, ?_⟩
      · rw [took.outbox, empty, List.nil_append]
      · simp only [ongoing, Option.map_some, none_before, List.nil_append]

theorem Kept.serve {pace : List Nat} (kept : s.Kept repr) (moved : step repr (.serve pace) s = some t) :
    t.Kept repr := by
  obtain ⟨call, link, turn, store, next, ongoing, sent, _, took, outbox, rfl⟩ := kept.serve_cases moved
  refine ⟨?_, fun resting => ?_, ?_, ?_, kept.own⟩
  · rintro _ ⟨⟩
    exact kept.fits call ongoing
  · have unsent := resting _ rfl
    cases sent.symm.trans unsent
  · rintro _ ⟨⟩ unsent
    cases sent.symm.trans unsent
  · rintro _ rest ⟨⟩ sent'
    cases sent.symm.trans sent'
    refine ⟨_, rfl, .reply took.read took.inbox outbox ?_⟩
    rw [took.found]
    exact took.sent

theorem Kept.serveAbandoned {i : Nat} {pace : List Nat} (kept : s.Kept repr)
    (moved : step repr (.serveAbandoned i pace) s = some t) : t.Kept repr := by
  rw [step] at moved
  split at moved
  · cases moved
  · obtain ⟨⟨turn, store, next⟩, turned, rfl⟩ := Option.map_eq_some_iff.mp moved
    exact ⟨kept.fits, kept.resting, kept.unsent, kept.flight, kept.own⟩

/-- The attempt fails, or the call ends with its own reply and leaves nothing behind. -/
theorem Kept.receive_cases {arrived : Nat} {pace : List Nat} (kept : s.Kept repr)
    (moved : step repr (.receive arrived pace) s = some t) :
    ∃ call, s.call = some call ∧ (t = s.retry call ∨
      ∃ outcome, OwnReply repr ⟨call.request, outcome, call.turns, call.lost⟩ ∧
        t = finish { s with link := some .fresh } call outcome) := by
  rw [step] at moved
  split at moved
  · rename_i call link ongoing here
    refine ⟨call, ongoing, ?_⟩
    split at moved
    · rename_i all_sent
      obtain ⟨_, same, flight⟩ := kept.flight call [] ongoing all_sent
      rw [here] at same
      cases same
      split at moved
      · cases moved
        exact .inl rfl
      · rename_i outcome conn no_failure run
        cases moved
        have ends : ∀ turns, call.turns = turns → InFlight repr call.request link [] turns →
            conn.incoming ++ link.outbox.drop arrived = [] ∧ link.inbox = [] ∧ link.serving = true ∧
              OwnReply repr ⟨call.request, outcome, turns, call.lost⟩ := by
          intro turns _ flight
          cases flight with
          | command serving outbox sent =>
              have unframed : Unframed (Sock.mk (link.outbox.take arrived) pace []).incoming := by
                rw [outbox, List.take_nil]
                exact unframed_nil
              obtain ⟨failure, conn', failed⟩ := parseReply_nothing call.request unframed
              rw [failed] at run
              cases run
              exact (no_failure failure rfl).elim
          | @reply turn read inbox outbox sent =>
              obtain ⟨n, bytes, small, serves⟩ := sent
              rcases parseReply_sent (outbox.trans bytes) small run with ⟨failure, rfl⟩ | whole
              · exact (no_failure failure rfl).elim
              · obtain ⟨after, found, answered, long, value, empty⟩ := whole
                have frames : replies repr turn.store call.request = found := by
                  rw [replies, answered, Option.elim_some]
                rw [frames] at bytes serves
                rw [List.take_of_length_le long] at bytes
                exact ⟨empty, inbox, serves (by rw [answered]; exact Option.some_ne_none _) long,
                  turn, after, found, rfl, read, answered, bytes, value⟩
        obtain ⟨empty, inbox, serving, own⟩ := ends _ rfl flight
        refine .inr ⟨outcome, own, ?_⟩
        rw [empty, inbox, serving]
        rfl
    · cases moved
  · cases moved

theorem Kept.receive {arrived : Nat} {pace : List Nat} (kept : s.Kept repr)
    (moved : step repr (.receive arrived pace) s = some t) : t.Kept repr := by
  obtain ⟨call, ongoing, rfl | ⟨outcome, own, rfl⟩⟩ := kept.receive_cases moved
  · exact kept.retry ongoing
  · refine ⟨nofun, ?_, nofun, nofun, fun ended member => ?_⟩
    · rintro _ link ⟨⟩
      rfl
    · rcases List.mem_append.mp member with old | new
      · exact kept.own ended old
      · rw [List.mem_singleton.mp new]
        exact .inr own

theorem Kept.step {action : ClientAction} (kept : s.Kept repr) (moved : step repr action s = some t) :
    t.Kept repr := by
  cases action with
  | begin r => exact kept.begin moved
  | connect => exact kept.connect moved
  | send count => exact kept.send moved
  | serve pace => exact kept.serve moved
  | serveAbandoned i pace => exact kept.serveAbandoned moved
  | receive arrived pace => exact kept.receive moved
  | fail =>
      obtain ⟨call, ongoing, rfl⟩ := Option.map_eq_some_iff.mp moved
      exact kept.retry ongoing
  | others store =>
      cases moved
      exact ⟨kept.fits, kept.resting, kept.unsent, kept.flight, kept.own⟩

theorem kept_preserved : Preserves (Step repr) (Kept repr) := by
  rintro s t kept ⟨action, moved⟩
  exact kept.step moved

/-- **Every call that returns has the reply to its own command**, and no attempt starts with
    anything left on the connection. -/
theorem calls_paired (repr : String → String) (store : Storage) (s : ClientSession)
    (run : Relation.ReflTransGen (Step repr) (start store) s) : s.Paired repr :=
  (kept_preserved.run (kept_start store) run).paired

/-! ## A whole attempt -/

/-- Do the actions one after the other. -/
def steps (repr : String → String) : List ClientAction → ClientSession → Option ClientSession
  | [], s => some s
  | action :: rest, s => (step repr action s).bind (steps repr rest)

theorem steps_run (allowed : ClientAction → Prop) {actions : List ClientAction} {s t : ClientSession}
    (each : ∀ action ∈ actions, allowed action) (h : steps repr actions s = some t) :
    Relation.ReflTransGen (fun a b => ∃ action, allowed action ∧ step repr action a = some b) s t := by
  induction actions generalizing s with
  | nil =>
      cases h
      exact .refl
  | cons action rest ih =>
      obtain ⟨next, moved, later⟩ := Option.bind_eq_some_iff.mp h
      exact .head ⟨action, each action List.mem_cons_self, moved⟩
        (ih (fun other member => each other (List.mem_cons_of_mem _ member)) later)

/-- A thread that finds a whole command serves it, whatever else is on its connection. -/
theorem turn_bytes {r : Request} (pace : List Nat) {store after : Storage} {found : List Bytes} (fits : r.Fits)
    (answered : answer repr store r = some (after, found)) (small : ∀ reply ∈ found, Sendable reply)
    (rest out : Bytes) :
    Link.turn repr pace store ⟨r.bytes ++ rest, out, true⟩ =
      some (⟨store, r.bytes, found.flatMap frame⟩, after, ⟨rest, out ++ found.flatMap frame, true⟩) := by
  let served : Serving := ⟨store, ⟨r.bytes ++ rest, pace, []⟩, []⟩
  cases run : serveTurn repr served with
  | mk result t =>
      obtain ⟨stored, left, n, sent, _, all⟩ := serveTurn_bytes rfl (rfl : served.conn.incoming = _) fits run
      have frames : replies repr served.store r = found := by rw [replies, answered, Option.elim_some]
      have stored' : afterStore repr served.store r = after := by rw [afterStore, answered, Option.elim_some]
      rw [frames] at sent all
      obtain ⟨rfl, rfl⟩ := all (by rw [answered]; exact Option.some_ne_none _) small
      rw [List.take_length] at sent
      rw [Link.turn, if_pos rfl]
      simp only [served] at run
      rw [run]
      simp only [left, sent, stored, stored', List.length_append, Nat.add_sub_cancel, List.take_left, List.nil_append,
        served]
      rfl

theorem turn_whole {r : Request} (pace : List Nat) {store after : Storage} {found : List Bytes} (fits : r.Fits)
    (answered : answer repr store r = some (after, found)) (small : ∀ reply ∈ found, Sendable reply) :
    Link.turn repr pace store ⟨r.bytes, [], true⟩ =
      some (⟨store, r.bytes, found.flatMap frame⟩, after, ⟨[], found.flatMap frame, true⟩) := by
  have whole := turn_bytes pace fits answered small [] []
  rwa [List.append_nil, List.nil_append] at whole

theorem answerValue_ne_io (store : Storage) (r : Request) (failure : Failure) :
    answerValue repr store r ≠ .error (.io failure) := by
  intro fails
  cases r with
  | put key data =>
      rw [answerValue] at fails
      split at fails <;> cases fails
  | get key => cases fails
  | stat key => cases fails
  | list start => cases fails

theorem step_receive {s : ClientSession} {call : Ongoing} {link : Link} {arrived : Nat} {pace : List Nat}
    {outcome : Except ClientError Value} {conn : Sock} (ongoing : s.call = some call)
    (here : s.link = some link)
    (sent : call.rest = some [])
    (run : parseReply call.request ⟨link.outbox.take arrived, pace, []⟩ = (outcome, conn))
    (answered : ∀ failure, outcome ≠ .error (.io failure)) :
    step repr (.receive arrived pace) s = some (finish
      { s with link := some { link with outbox := conn.incoming ++ link.outbox.drop arrived } } call outcome) := by
  rw [step, ongoing, here]
  simp only [sent, if_true, run]

/-- A whole attempt; the reply arrives at once. -/
def attempt (r : Request) (found : List Bytes) : List ClientAction :=
  [.connect, .send r.bytes.length, .serve [], .receive (found.flatMap frame).length []]

/-- An attempt on a connection that does not fail ends its call with what the broker answers. -/
theorem steps_attempt {r : Request} {n : Nat} {lost : Bool} {link : Option Link} {store after : Storage}
    {abandoned : List Link} {log : List Ended} {found : List Bytes} (fits : r.Fits)
    (clean : link.getD .fresh = .fresh) (answered : answer repr store r = some (after, found))
    (small : ∀ reply ∈ found, Sendable reply) :
    steps repr (attempt r found) ⟨store, link, abandoned, some ⟨r, n, none, [], lost⟩, log⟩ =
      some ⟨after, some .fresh, abandoned, none, log ++
        [⟨r, answerValue repr store r, [⟨store, r.bytes, found.flatMap frame⟩], lost⟩]⟩ := by
  let sending : Ongoing := ⟨r, n, some [], [⟨store, r.bytes, found.flatMap frame⟩], lost⟩
  let replied : Link := ⟨[], found.flatMap frame, true⟩
  have brings : Sock.Brings ⟨replied.outbox.take (found.flatMap frame).length, [], []⟩ found [] := by
    rw [Sock.Brings, List.take_length, List.append_nil]
  obtain ⟨conn, read, empty, _⟩ := parseReply_answer answered small brings
  have connect : step repr .connect ⟨store, link, abandoned, some ⟨r, n, none, [], lost⟩, log⟩ =
      some ⟨store, some .fresh, abandoned, some ⟨r, n, some r.bytes, [], lost⟩, log⟩ := by
    rw [step, clean]
  have send : step repr (.send r.bytes.length)
      ⟨store, some .fresh, abandoned, some ⟨r, n, some r.bytes, [], lost⟩, log⟩ =
      some ⟨store, some ⟨r.bytes, [], true⟩, abandoned, some ⟨r, n, some [], [], lost⟩, log⟩ := by
    simp [step, Link.fresh]
  have serve : step repr (.serve [])
      ⟨store, some ⟨r.bytes, [], true⟩, abandoned, some ⟨r, n, some [], [], lost⟩, log⟩ =
      some ⟨after, some replied, abandoned, some sending, log⟩ := by
    simp only [step, turn_whole [] fits answered small, Option.map_some]
    rfl
  have receive : step repr (.receive (found.flatMap frame).length [])
      ⟨after, some replied, abandoned, some sending, log⟩ =
      some ⟨after, some .fresh, abandoned, none,
        log ++ [⟨r, answerValue repr store r, sending.turns, lost⟩]⟩ := by
    have all : conn.incoming ++ replied.outbox.drop (found.flatMap frame).length = [] := by
      rw [empty, List.drop_length, List.append_nil]
    rw [step_receive rfl rfl rfl read (answerValue_ne_io store r), all]
    rfl
  rw [attempt, steps, connect, Option.bind_some, steps, send, Option.bind_some, steps, serve, Option.bind_some,
    steps, receive, Option.bind_some, steps]

/-- An attempt that fails when its whole command is sent. -/
def lostAttempt (r : Request) : List ClientAction := [.connect, .send r.bytes.length, .fail]

theorem steps_lostAttempt {r : Request} {n : Nat} {lost : Bool} {store : Storage} {abandoned : List Link}
    {log : List Ended} (more : n + 1 < maxAttempts) :
    steps repr (lostAttempt r) ⟨store, none, abandoned, some ⟨r, n, none, [], lost⟩, log⟩ =
      some ⟨store, none, abandoned ++ [⟨r.bytes, [], true⟩], some ⟨r, n + 1, none, [], true⟩, log⟩ := by
  simp [lostAttempt, steps, step, retry, drop, Link.fresh, more]

theorem step_begin {s : ClientSession} {r : Request} (fits : r.Fits) (idle : s.call = none) :
    step repr (.begin r) s = some { s with call := some ⟨r, 0, none, [], false⟩ } :=
  if_pos ⟨Option.isNone_iff_eq_none.mpr idle, fits⟩

/-- A call whose connection does not fail returns what the broker answers. -/
theorem steps_call {s : ClientSession} {r : Request} {after : Storage} {found : List Bytes} (fits : r.Fits)
    (idle : s.call = none) (clean : s.link.getD .fresh = .fresh)
    (answered : answer repr s.store r = some (after, found)) (small : ∀ reply ∈ found, Sendable reply) :
    steps repr (.begin r :: attempt r found) s =
      some ⟨after, some .fresh, s.abandoned, none, s.log ++
        [⟨r, answerValue repr s.store r, [⟨s.store, r.bytes, found.flatMap frame⟩], false⟩]⟩ := by
  rw [steps, step_begin fits idle, Option.bind_some]
  exact steps_attempt fits clean answered small

/-- After a call that ended in a `BrokerError` the next one gets its own reply. -/
theorem calls_paired_after_error : ∃ s : ClientSession, s.Paired id ∧ s.log.map Ended.outcome =
    [.error (.refused (.put "n" [1]) (encodeText (illegalKeyText id "n"))), .ok (.blob none)] := by
  have fits : (Request.put "n" [1]).Fits := List.forall_mem_cons.mpr
    ⟨text_sendable (by simp [Request.op, Request.arg]), List.forall_mem_singleton.mpr (show 1 < 2 ^ 64 by decide)⟩
  have fits' : (Request.get "n/a").Fits :=
    List.forall_mem_singleton.mpr (text_sendable (by simp [Request.op, Request.arg]))
  have refused : answer id Storage.empty (.put "n" [1]) =
      some (Storage.empty, [encodeText (illegalKeyText id "n")]) := rfl
  have missing : answer id Storage.empty (.get "n/a") =
      some (Storage.empty, [encodeText "MISSING".toList]) := rfl
  have first := steps_call (s := start Storage.empty) fits rfl rfl refused
    (List.forall_mem_singleton.mpr (text_sendable (by simp [illegalKeyText])))
  let turn : Turn :=
    ⟨Storage.empty, (Request.put "n" [1]).bytes, [encodeText (illegalKeyText id "n")].flatMap frame⟩
  let s : ClientSession := ⟨Storage.empty, some .fresh, [], none,
    [⟨.put "n" [1], answerValue id Storage.empty (.put "n" [1]), [turn], false⟩]⟩
  have second := steps_call (s := s) fits' rfl rfl missing
    (List.forall_mem_singleton.mpr (text_sendable (by simp)))
  have run := (steps_run (fun _ => True) (fun _ _ => trivial) first).trans
    (steps_run _ (fun _ _ => trivial) second)
  refine ⟨_, calls_paired id Storage.empty _ (Relation.ReflTransGen.mono ?_ _ _ run), rfl⟩
  rintro a b ⟨action, _, moved⟩
  exact ⟨action, moved⟩

end ClientSession

end SecureTransfer.ApproachB
