import SecureTransfer.Util
import SecureTransfer.ApproachB.BrokerStore

/-! # The broker's side of a connection

`_handle_command` of `broker.py` on the bytes of one connection: how a command frame is
read, what it does to the store and which frames it sends. What a file-system error, a
reply too long for its length prefix or a peer that is gone interrupts ends without the rest
of its reply.
-/

namespace SecureTransfer.ApproachB

open Library

/-- The store, and the connection of one thread. A `sendall` may fail: `faults` says of each one
    to come after how many bytes it does, if so. Behind its end none fails. -/
structure Serving where
  store : Storage
  conn : Sock
  faults : List (Option Nat)

def onConn {α : Type} (m : Prog Sock Failure α) : Prog Serving Failure α :=
  Prog.zoom Serving.conn (fun conn s => { s with conn }) m

/-- `conn.sendall(data)`. -/
def sendall (data : Bytes) : Prog Serving Failure Unit := fun s =>
  match s.faults with
  | some taken :: faults =>
      (.error (.osError "Broken pipe"), { s with conn := s.conn.sendall (data.take taken), faults })
  | faults => (.ok (), { s with conn := s.conn.sendall data, faults := faults.tail })

/-- `send_frame(conn, payload)`. -/
def sendReply (payload : Bytes) : Prog Serving Failure Unit := sendFrameVia sendall payload

def sendText (text : List Char) : Prog Serving Failure Unit := sendReply (encodeText text)

/-- `line.decode("utf-8", "replace").split(" ", 1)`; a missing argument is empty. -/
def splitCommand (line : Bytes) : String × String :=
  let text := decodeReplace line
  (String.ofList (text.takeWhile (· ≠ ' ')), String.ofList ((text.dropWhile (· ≠ ' ')).drop 1))

/-- The text of `_safe_path`'s error behind "ERR "; `repr` prints a string. -/
def illegalKeyText (repr : String → String) (key : String) : List Char :=
  ("ERR illegal blob key: " ++ repr key).toList

def sizeText (data : Bytes) : List Char := "OK ".toList ++ Nat.toDigits 10 data.length

/-- `"\n".join(keys)`. -/
def joinLines (keys : List String) : List Char := ['\n'].intercalate (keys.map String.toList)

section Commands

variable (repr : String → String)

/-- The payload is read before the key is looked at. -/
def handlePut (key : String) : Prog Serving Failure Unit := do
  let data ← onConn recvFrame
  if (safePath key).isNone then sendText (illegalKeyText repr key)
  else do
    let s ← Prog.get
    match s.store.put key data with
    | none => Prog.raise (.osError "Is a directory")
    | some store => do
        Prog.update fun s => { s with store }
        sendText "OK".toList

def handleGet (key : String) : Prog Serving Failure Unit := do
  let s ← Prog.get
  match s.store.get key with
  | none => sendText "MISSING".toList
  | some data => do
      sendText "OK".toList
      sendReply data

def handleStat (key : String) : Prog Serving Failure Unit := do
  let s ← Prog.get
  match s.store.get key with
  | none => sendText "MISSING".toList
  | some data => sendText (sizeText data)

def handleList (start : String) : Prog Serving Failure Unit := do
  let s ← Prog.get
  sendText "OK".toList
  sendText (joinLines (s.store.list start))

def handleCommand (line : Bytes) : Prog Serving Failure Unit :=
  let (op, arg) := splitCommand line
  if op = "PUT" then handlePut repr arg
  else if op = "GET" then handleGet arg
  else if op = "STAT" then handleStat arg
  else if op = "LIST" then handleList arg
  else sendText ("ERR unknown op " ++ repr op).toList

/-- One turn of the loop of `_serve_client`; an exception ends the connection. -/
def serveTurn : Prog Serving Failure Unit := do
  let line ← onConn recvFrame
  handleCommand repr line

end Commands

/-! ## The commands of a client -/

inductive Request where
  | put (key : String) (data : Bytes)
  | get (key : String)
  | stat (key : String)
  | list (start : String)

namespace Request

def op : Request → String
  | .put _ _ => "PUT"
  | .get _ => "GET"
  | .stat _ => "STAT"
  | .list _ => "LIST"

def arg : Request → String
  | .put key _ => key
  | .get key => key
  | .stat key => key
  | .list start => start

def line (r : Request) : Bytes := encodeText (r.op ++ " " ++ r.arg).toList

/-- What follows the command frame. -/
def payload : Request → List Bytes
  | .put _ data => [data]
  | _ => []

/-- What a client sends. -/
def bytes (r : Request) : Bytes := (r.line :: r.payload).flatMap frame

/-- The frames of the command fit their length prefixes. -/
def Fits (r : Request) : Prop := ∀ part ∈ r.line :: r.payload, Sendable part

end Request

/-- The store after a command and the frames of its reply; `none` where it ends the
    connection without one. -/
def answer (repr : String → String) (store : Storage) : Request → Option (Storage × List Bytes)
  | .put key data =>
      if (safePath key).isNone then some (store, [encodeText (illegalKeyText repr key)])
      else (store.put key data).map fun after => (after, [encodeText "OK".toList])
  | .get key =>
      match store.get key with
      | none => some (store, [encodeText "MISSING".toList])
      | some data => some (store, [encodeText "OK".toList, data])
  | .stat key =>
      match store.get key with
      | none => some (store, [encodeText "MISSING".toList])
      | some data => some (store, [encodeText (sizeText data)])
  | .list start => some (store, [encodeText "OK".toList, encodeText (joinLines (store.list start))])

/-! ## What a command does -/

variable {repr : String → String}

theorem splitCommand_line (r : Request) : splitCommand r.line = (r.op, r.arg) := by
  have spaceless : ∀ c ∈ r.op.toList, decide (c ≠ ' ') = true := by cases r <;> simp [Request.op]
  have text : (r.op ++ " " ++ r.arg).toList = r.op.toList ++ ' ' :: r.arg.toList := by
    rw [String.toList_append, String.toList_append]
    simp
  simp only [splitCommand, Request.line, decodeReplace_encodeText, text]
  rw [List.takeWhile_append_of_pos spaceless, List.takeWhile_cons_of_neg (by decide), List.append_nil,
    List.dropWhile_append_of_pos spaceless, List.dropWhile_cons_of_neg (by decide), List.drop_one,
    List.tail_cons, String.ofList_toList, String.ofList_toList]

def sendAll : List Bytes → Prog Serving Failure Unit
  | [] => pure ()
  | payload :: rest => do
      sendReply payload
      sendAll rest

def Serving.sends (payloads : List Bytes) (s : Serving) : Serving :=
  { s with conn := { s.conn with sent := s.conn.sent ++ payloads.flatMap frame } }

theorem sendReply_run {payload : Bytes} (fits : Sendable payload) {s : Serving} (steady : s.faults = []) :
    sendReply payload s = (.ok (), s.sends [payload]) := by
  obtain ⟨store, conn, faults⟩ := s
  cases steady
  have packed : packQ payload.length = .ok (bigEndian 8 payload.length) := if_pos fits
  simp only [sendReply, sendFrameVia, packed, Prog.bind_run, Prog.ofExcept_run, sendall, Sock.sendall, List.tail_nil,
    List.append_assoc, Serving.sends, frame, List.flatMap_singleton]

theorem sendReply_long {payload : Bytes} (long : ¬ Sendable payload) (s : Serving) :
    sendReply payload s = (.error .structError, s) := by
  have packed : packQ payload.length = .error .structError := if_neg long
  rw [sendReply, sendFrameVia, packed]
  rfl

/-- Frames are sent in order, up to the first one that is too long. -/
theorem sendAll_run (payloads : List Bytes) {s : Serving} (steady : s.faults = []) :
    ∃ result n, sendAll payloads s = (result, s.sends (payloads.take n)) ∧
      (∀ payload ∈ payloads.take n, Sendable payload) ∧
      ((∀ payload ∈ payloads, Sendable payload) → n = payloads.length ∧ result = .ok ()) := by
  induction payloads generalizing s with
  | nil => exact ⟨.ok (), 0, by simp [sendAll, Serving.sends], by simp, fun _ => ⟨rfl, rfl⟩⟩
  | cons payload rest ih =>
      by_cases fits : Sendable payload
      · have first := sendReply_run fits steady
        obtain ⟨result, n, run, small, all⟩ := ih (s := s.sends [payload]) steady
        refine ⟨result, n + 1, ?_, fun p member => ?_, fun each => ?_⟩
        · rw [sendAll, Prog.bind_ok first, run]
          simp [Serving.sends, List.append_assoc]
        · rw [List.take_succ_cons] at member
          rcases List.mem_cons.mp member with rfl | later
          · exact fits
          · exact small p later
        · obtain ⟨rfl, rfl⟩ := all fun p member => each p (List.mem_cons_of_mem payload member)
          exact ⟨rfl, rfl⟩
      · refine ⟨.error .structError, 0, ?_, by simp, fun each => absurd (each payload List.mem_cons_self) fits⟩
        rw [sendAll, Prog.bind_error (sendReply_long fits s)]
        simp [Serving.sends]

theorem sendText_eq (text : List Char) : sendText text = sendAll [encodeText text] := by
  funext s
  rw [sendAll, sendText]
  cases run : sendReply (encodeText text) s with
  | mk result t =>
      cases result with
      | error e => rw [Prog.bind_error run]
      | ok _ => rw [Prog.bind_ok run]; rfl

theorem sendText_then (text : List Char) (payload : Bytes) :
    (do sendText text
        sendReply payload) = sendAll [encodeText text, payload] := by
  funext s
  rw [sendAll, sendText]
  cases run : sendReply (encodeText text) s with
  | mk result t =>
      cases result with
      | error e => rw [Prog.bind_error run, Prog.bind_error run]
      | ok _ =>
          rw [Prog.bind_ok run, Prog.bind_ok run, sendAll]
          cases second : sendReply payload t with
          | mk result' t' =>
              cases result' with
              | error e => rw [Prog.bind_error second]
              | ok _ => rw [Prog.bind_ok second]; rfl

/-- What the answer makes of the store, and the frames it sends. -/
def afterStore (repr : String → String) (store : Storage) (r : Request) : Storage :=
  (answer repr store r).elim store Prod.fst

def replies (repr : String → String) (store : Storage) (r : Request) : List Bytes :=
  (answer repr store r).elim [] Prod.snd

/-- A run of the handler of `r` from `s`, where no send fails, that read the payload and nothing
    of `rest`: the store is that of `answer`, and what it sent starts the reply, or is all of it. -/
structure Handled (repr : String → String) (r : Request) (s : Serving) (rest : Bytes)
    (result : Except Failure Unit) (t : Serving) : Prop where
  store : t.store = afterStore repr s.store r
  incoming : t.conn.incoming = rest
  sent : ∃ n, t.conn.sent = s.conn.sent ++ ((replies repr s.store r).take n).flatMap frame ∧
    (∀ reply ∈ (replies repr s.store r).take n, Sendable reply) ∧
    (answer repr s.store r ≠ none → (∀ reply ∈ replies repr s.store r, Sendable reply) →
      n = (replies repr s.store r).length ∧ result = .ok ())

/-- A handler that has read its payload and stored its blob sends its reply. -/
theorem handled_sendAll {r : Request} {s u t : Serving} {rest : Bytes} {result : Except Failure Unit}
    {found : List Bytes} (known : answer repr s.store r = some (u.store, found))
    (steady : u.faults = []) (here : u.conn.incoming = rest) (sent : u.conn.sent = s.conn.sent)
    (run : sendAll found u = (result, t)) : Handled repr r s rest result t := by
  obtain ⟨result', n, sends, small, all⟩ := sendAll_run found steady
  rw [run] at sends
  cases sends
  have frames : replies repr s.store r = found := by rw [replies, known, Option.elim_some]
  refine ⟨?_, here, n, ?_, ?_, fun _ each => ?_⟩
  · rw [afterStore, known]
    rfl
  · rw [frames, ← sent]
    rfl
  · rw [frames]
    exact small
  · rw [frames] at each ⊢
    exact all each

theorem handleCommand_op (r : Request) : handleCommand repr r.line =
    match r with
    | .put key _ => handlePut repr key
    | .get key => handleGet key
    | .stat key => handleStat key
    | .list start => handleList start := by
  rw [handleCommand, splitCommand_line]
  cases r <;> rfl

/-- A command that arrived with its payload does what `answer` says. -/
theorem handleCommand_line {r : Request} {s t : Serving} {rest : Bytes} {result : Except Failure Unit}
    (steady : s.faults = []) (arrived : s.conn.incoming = r.payload.flatMap frame ++ rest)
    (fits : ∀ payload ∈ r.payload, Sendable payload)
    (run : handleCommand repr r.line s = (result, t)) : Handled repr r s rest result t := by
  rw [handleCommand_op] at run
  cases r with
  | put key data =>
      have framed : s.conn.incoming = frame data ++ rest := by
        rw [arrived]
        simp [Request.payload]
      obtain ⟨conn, read, left, kept⟩ := recvFrame_complete (fits data (by simp [Request.payload])) framed
      have first : onConn recvFrame s = (.ok data, { s with conn }) := by
        rw [onConn, Prog.zoom_run read]
      simp only [handlePut] at run
      rw [Prog.bind_ok first] at run
      cases safe : safePath key with
      | none =>
          rw [safe, Option.isNone_none, if_pos rfl, sendText_eq] at run
          refine handled_sendAll (u := { s with conn }) ?_ steady left kept run
          rw [answer, safe, Option.isNone_none, if_pos rfl]
      | some path =>
          rw [safe, Option.isNone_some, if_neg (by decide), Prog.bind_ok (Prog.get_run _)] at run
          have known : answer repr s.store (.put key data) =
              (s.store.put key data).map fun after => (after, [encodeText "OK".toList]) := by
            rw [answer, safe, Option.isNone_some, if_neg (by decide)]
          cases stored : s.store.put key data with
          | none =>
              simp only [stored] at run
              cases run
              rw [stored, Option.map_none] at known
              refine ⟨?_, left, 0, ?_, by simp, fun replied => absurd known replied⟩
              · rw [afterStore, known]
                rfl
              · rw [List.take_zero, List.flatMap_nil, List.append_nil]
                exact kept
          | some after =>
              simp only [stored] at run
              rw [Prog.bind_ok (Prog.update_run _ _), sendText_eq] at run
              rw [stored, Option.map_some] at known
              exact handled_sendAll (u := { s with store := after, conn }) known steady left kept run
  | get key =>
      simp only [handleGet] at run
      rw [Prog.bind_ok (Prog.get_run s)] at run
      cases found : s.store.get key with
      | none =>
          simp only [found, sendText_eq] at run
          exact handled_sendAll (by rw [answer, found]) steady arrived rfl run
      | some data =>
          simp only [found, sendText_then] at run
          exact handled_sendAll (by rw [answer, found]) steady arrived rfl run
  | stat key =>
      simp only [handleStat] at run
      rw [Prog.bind_ok (Prog.get_run s)] at run
      cases found : s.store.get key with
      | none =>
          simp only [found, sendText_eq] at run
          exact handled_sendAll (by rw [answer, found]) steady arrived rfl run
      | some data =>
          simp only [found, sendText_eq] at run
          exact handled_sendAll (by rw [answer, found]) steady arrived rfl run
  | list start =>
      simp only [handleList] at run
      rw [Prog.bind_ok (Prog.get_run s)] at run
      have both : (do sendText "OK".toList
                      sendText (joinLines (s.store.list start))) =
          sendAll [encodeText "OK".toList, encodeText (joinLines (s.store.list start))] :=
        sendText_then _ _
      rw [both] at run
      exact handled_sendAll rfl steady arrived rfl run

/-- A turn that finds a whole command is a run of its handler. -/
theorem serveTurn_bytes {r : Request} {s t : Serving} {rest : Bytes} {result : Except Failure Unit}
    (steady : s.faults = []) (arrived : s.conn.incoming = r.bytes ++ rest) (fits : r.Fits)
    (run : serveTurn repr s = (result, t)) : Handled repr r s rest result t := by
  have framed : s.conn.incoming = frame r.line ++ (r.payload.flatMap frame ++ rest) := by
    rw [arrived, Request.bytes, List.flatMap_cons, List.append_assoc]
  obtain ⟨conn, read, left, kept⟩ := recvFrame_complete (fits _ List.mem_cons_self) framed
  have first : onConn recvFrame s = (.ok r.line, { s with conn }) := by rw [onConn, Prog.zoom_run read]
  rw [serveTurn, Prog.bind_ok first] at run
  obtain ⟨store, incoming, n, sent, small, all⟩ := handleCommand_line (s := { s with conn }) steady left
    (fun part member => fits part (List.mem_cons_of_mem _ member)) run
  exact ⟨store, incoming, n, sent.trans (by rw [kept]), small, all⟩

end SecureTransfer.ApproachB
