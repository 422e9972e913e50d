import SecureTransfer.Library.PyValues
import SecureTransfer.ApproachB.Broker

/-! # The client's side of a connection

What the operations of `BrokerClient` send and how they read the reply. What the broker
answers to a command is what its client makes of the reply, for every way the bytes
arrive, and every byte of the reply is read.
-/

namespace SecureTransfer.ApproachB

open Library

/-- What ends an attempt: only `io`, a `ConnectionError` or an `OSError`, is retried. -/
inductive ClientError where
  | io (failure : Failure)
  | structError
  | refused (request : Request) (reply : Bytes)
  | unreachable
  | python (error : PyError)

/-- The message of the `BrokerError`; `repr` prints the reply and `last` the last failure. -/
def ClientError.text (repr : Bytes → String) (last : String) : ClientError → String
  | .io failure => failure.text
  | .structError => "struct.error"
  | .refused (.put key _) reply => s!"PUT {key} failed: " ++ repr reply
  | .refused (.get key) reply => s!"GET {key} unexpected status: " ++ repr reply
  | .refused (.stat key) reply => s!"STAT {key} unexpected reply: " ++ repr reply
  | .refused (.list _) reply => "LIST unexpected status: " ++ repr reply
  | .unreachable => "broker unreachable after 5 attempts: " ++ last
  | .python _ => "ValueError"

/-- What an operation returns. -/
inductive Value where
  | done
  | blob (data : Option Bytes)
  | size (size : Option Int)
  | keys (keys : List String)

def ofFailure : Failure → ClientError
  | .structError => .structError
  | failure => .io failure

def io {α : Type} (m : Prog Sock Failure α) : Prog Sock ClientError α := m.mapError ofFailure

def sendRequest : Request → Prog Sock ClientError Unit
  | .put key data => do
      io (sendFrame (Request.put key data).line)
      io (sendFrame data)
  | .get key => io (sendFrame (Request.get key).line)
  | .stat key => io (sendFrame (Request.stat key).line)
  | .list start => io (sendFrame (Request.list start).line)

/-- `[k for k in body.split("\n") if k]`. -/
def bodyKeys (body : List Char) : List String :=
  ((body.splitOn '\n').filter (· ≠ [])).map String.ofList

def parseReply : Request → Prog Sock ClientError Value
  | .put key data => do
      let reply ← io recvFrame
      if reply ≠ encodeText "OK".toList then Prog.raise (.refused (.put key data) reply)
      else pure .done
  | .get key => do
      let status ← io recvFrame
      if status = encodeText "MISSING".toList then pure (.blob none)
      else if status ≠ encodeText "OK".toList then Prog.raise (.refused (.get key) status)
      else do
        let data ← io recvFrame
        pure (.blob (some data))
  | .stat key => do
      let reply ← io recvFrame
      let text := decodeReplace reply
      if text = "MISSING".toList then pure (.size none)
      else if "OK ".toList.isPrefixOf text then
        match Json.intOfText (text.drop 3) with
        | some n => pure (.size (some n))
        | none => Prog.raise (.python .valueError)
      else Prog.raise (.refused (.stat key) reply)
  | .list start => do
      let status ← io recvFrame
      if status ≠ encodeText "OK".toList then Prog.raise (.refused (.list start) status)
      else do
        let body ← io recvFrame
        pure (.keys (bodyKeys (decodeReplace body)))

/-- What the client makes of the broker's answer. -/
def answerValue (repr : String → String) (store : Storage) : Request → Except ClientError Value
  | .put key data =>
      if (safePath key).isNone then
        .error (.refused (.put key data) (encodeText (illegalKeyText repr key)))
      else .ok .done
  | .get key => .ok (.blob (store.get key))
  | .stat key => .ok (.size ((store.get key).map fun data => (data.length : Int)))
  | .list start => .ok (.keys ((store.list start).flatMap splitLines))

/-! ## Texts -/

theorem encodeText_injective : Function.Injective encodeText := by
  intro a b same
  have decoded := congrArg decodeReplace same
  rwa [decodeReplace_encodeText, decodeReplace_encodeText] at decoded

theorem encodeText_length (text : List Char) : (encodeText text).length ≤ 4 * text.length := by
  induction text with
  | nil => exact Nat.zero_le _
  | cons c text ih =>
      have split : encodeText (c :: text) = String.utf8EncodeChar c ++ encodeText text := rfl
      have size := c.utf8Size_le_four
      rw [split, List.length_append, String.length_utf8EncodeChar, List.length_cons]
      omega

theorem text_sendable {text : List Char} (short : text.length ≤ 1000) : Sendable (encodeText text) := by
  have bound := encodeText_length text
  rw [Sendable]
  omega

theorem illegalKeyText_ne (repr : String → String) (key : String) :
    illegalKeyText repr key ≠ "OK".toList := by
  intro same
  have first := congrArg List.head? same
  rw [illegalKeyText, String.toList_append] at first
  simp at first

/-- `int(str(n))`. -/
theorem intOfText_digits (n : Nat) : Json.intOfText (Nat.toDigits 10 n) = some (n : Int) := by
  have digits : ∀ c ∈ Nat.toDigits 10 n, c.isDigit = true := fun c member => Json.toDigits_digit member
  have solid : ∀ c ∈ Nat.toDigits 10 n, c.isWhitespace = false := by
    intro c member
    by_contra space
    simp only [Bool.not_eq_false, Char.isWhitespace, Bool.or_eq_true, decide_eq_true_eq] at space
    rcases space with ((rfl | rfl) | rfl) | rfl <;> exact absurd (digits _ member) (by decide)
  have unsigned : ∀ sign, sign.isDigit = false → (Nat.toDigits 10 n).head? ≠ some sign := by
    intro sign noDigit first
    have digit := digits sign (List.mem_of_head? first)
    rw [noDigit] at digit
    cases digit
  have front : (Nat.toDigits 10 n).dropWhile Char.isWhitespace = Nat.toDigits 10 n :=
    List.dropWhile_eq_self_iff.mpr fun _ => by rw [solid _ (List.getElem_mem _)]; decide
  have back : (Nat.toDigits 10 n).reverse.dropWhile Char.isWhitespace = (Nat.toDigits 10 n).reverse :=
    List.dropWhile_eq_self_iff.mpr fun _ => by
      rw [solid _ (List.mem_reverse.mp (List.getElem_mem _))]
      decide
  have bare : ((Nat.toDigits 10 n).dropWhile Char.isWhitespace).reverse.dropWhile Char.isWhitespace =
      (Nat.toDigits 10 n).reverse := by rw [front, back]
  have minus := unsigned '-' (by decide)
  have plus := unsigned '+' (by decide)
  have whole : (Nat.toDigits 10 n).splitOn '_' = [Nat.toDigits 10 n] :=
    List.splitOn_eq_singleton Nat.underscore_not_in_toDigits
  have group : (decide (Nat.toDigits 10 n ≠ []) && (Nat.toDigits 10 n).all Char.isDigit) = true := by
    simp only [Bool.and_eq_true, decide_eq_true_eq, List.all_eq_true]
    exact ⟨Nat.toDigits_ne_nil, digits⟩
  have value : Json.digitsValue (Nat.toDigits 10 n) = n := Nat.ofDigitChars_ten_toDigits
  simp only [Json.intOfText, bare, List.reverse_reverse, minus, plus, or_self, if_false, whole, List.all_cons,
    List.all_nil, group, Bool.and_true, if_true, List.flatten_cons, List.flatten_nil, List.append_nil, value]

/-- Splitting the joined keys splits each of them. -/
theorem bodyKeys_joinLines (keys : List String) : bodyKeys (joinLines keys) = keys.flatMap splitLines := by
  induction keys with
  | nil => rfl
  | cons key keys ih =>
      cases keys with
      | nil => simp [joinLines, bodyKeys, splitLines]
      | cons second rest =>
          have joined :
              joinLines (key :: second :: rest) = key.toList ++ '\n' :: joinLines (second :: rest) := by
            simp [joinLines]
          rw [List.flatMap_cons, ← ih, joined, bodyKeys, List.splitOn_append_cons_self, List.filter_append,
            List.map_append]
          rfl

/-! ## Reading a reply -/

theorem io_ok {α : Type} {m : Prog Sock Failure α} {conn conn' : Sock} {a : α} (h : m conn = (.ok a, conn')) :
    io m conn = (.ok a, conn') := by
  rw [io, Prog.mapError, h]

/-- `payloads` and then `rest` are what `conn` is about to receive. -/
def Sock.Brings (conn : Sock) (payloads : List Bytes) (rest : Bytes) : Prop :=
  conn.incoming = payloads.flatMap frame ++ rest

theorem recv_brought {conn : Sock} {payload rest : Bytes} {later : List Bytes} (fits : Sendable payload)
    (brings : Sock.Brings conn (payload :: later) rest) :
    ∃ conn', io recvFrame conn = (.ok payload, conn') ∧ Sock.Brings conn' later rest ∧
      conn'.sent = conn.sent := by
  rw [Sock.Brings, List.flatMap_cons, List.append_assoc] at brings
  obtain ⟨conn', read, left, kept⟩ := recvFrame_complete fits brings
  exact ⟨conn', io_ok read, left, kept⟩

theorem recv_single {conn : Sock} {reply rest : Bytes} (fits : Sendable reply)
    (brings : Sock.Brings conn [reply] rest) :
    ∃ conn', io recvFrame conn = (.ok reply, conn') ∧ conn'.incoming = rest ∧ conn'.sent = conn.sent := by
  obtain ⟨conn', read, left, kept⟩ := recv_brought fits brings
  exact ⟨conn', read, left, kept⟩

theorem recv_double {conn : Sock} {first second rest : Bytes} (fits : Sendable first)
    (fits' : Sendable second) (brings : Sock.Brings conn [first, second] rest) :
    ∃ conn₁ conn₂, io recvFrame conn = (.ok first, conn₁) ∧ io recvFrame conn₁ = (.ok second, conn₂) ∧
      conn₂.incoming = rest ∧ conn₂.sent = conn.sent := by
  obtain ⟨conn₁, read, left, kept⟩ := recv_brought fits brings
  obtain ⟨conn₂, read', left', kept'⟩ := recv_brought fits' left
  exact ⟨conn₁, conn₂, read, read', left', kept'.trans kept⟩

theorem ok_ne_missing : encodeText "OK".toList ≠ encodeText "MISSING".toList :=
  fun same => absurd (encodeText_injective same) (by decide)

theorem sizeText_ne_missing (data : Bytes) : sizeText data ≠ "MISSING".toList := by
  intro same
  have first := congrArg List.head? same
  rw [sizeText] at first
  simp at first

/-- **Of its reply a command reads every byte and nothing else**, whatever the pace. -/
theorem parseReply_answer {repr : String → String} {store after : Storage} {r : Request} {found : List Bytes}
    {rest : Bytes} {conn : Sock} (answered : answer repr store r = some (after, found))
    (fits : ∀ reply ∈ found, Sendable reply) (brings : Sock.Brings conn found rest) :
    ∃ conn', parseReply r conn = (answerValue repr store r, conn') ∧ conn'.incoming = rest ∧
      conn'.sent = conn.sent := by
  have single : ∀ {text : List Char}, found = [encodeText text] →
      ∃ conn', io recvFrame conn = (.ok (encodeText text), conn') ∧ conn'.incoming = rest ∧
        conn'.sent = conn.sent :=
    fun same => recv_single (fits _ (by simp [same])) (same ▸ brings)
  have double : ∀ {text : List Char} {data : Bytes}, found = [encodeText text, data] →
      ∃ conn₁ conn₂, io recvFrame conn = (.ok (encodeText text), conn₁) ∧
        io recvFrame conn₁ = (.ok data, conn₂) ∧ conn₂.incoming = rest ∧ conn₂.sent = conn.sent :=
    fun same => recv_double (fits _ (by simp [same])) (fits _ (by simp [same])) (same ▸ brings)
  cases r with
  | put key data =>
      rw [answer] at answered
      split at answered
      · rename_i illegal
        obtain ⟨_, frames⟩ := Prod.mk.inj (Option.some.inj answered)
        obtain ⟨conn', read, left, kept⟩ := single frames.symm
        refine ⟨conn', ?_, left, kept⟩
        have refused : encodeText (illegalKeyText repr key) ≠ encodeText "OK".toList :=
          fun same => illegalKeyText_ne repr key (encodeText_injective same)
        rw [parseReply, Prog.bind_ok read, if_pos refused, answerValue, if_pos illegal]
        rfl
      · rename_i legal
        obtain ⟨_, _, pair⟩ := Option.map_eq_some_iff.mp answered
        obtain ⟨conn', read, left, kept⟩ := single (Prod.mk.inj pair).2.symm
        refine ⟨conn', ?_, left, kept⟩
        rw [parseReply, Prog.bind_ok read, if_neg (not_not.mpr rfl), answerValue, if_neg legal]
        rfl
  | get key =>
      rw [answer] at answered
      split at answered
      · rename_i missing
        obtain ⟨conn', read, left, kept⟩ := single (Prod.mk.inj (Option.some.inj answered)).2.symm
        refine ⟨conn', ?_, left, kept⟩
        rw [parseReply, Prog.bind_ok read, if_pos rfl, answerValue, missing]
        rfl
      · rename_i data present
        obtain ⟨conn₁, conn₂, read, read', left, kept⟩ :=
          double (Prod.mk.inj (Option.some.inj answered)).2.symm
        refine ⟨conn₂, ?_, left, kept⟩
        rw [parseReply, Prog.bind_ok read, if_neg ok_ne_missing, if_neg (not_not.mpr rfl), Prog.bind_ok read',
          answerValue, present]
        rfl
  | stat key =>
      rw [answer] at answered
      split at answered
      · rename_i missing
        obtain ⟨conn', read, left, kept⟩ := single (Prod.mk.inj (Option.some.inj answered)).2.symm
        refine ⟨conn', ?_, left, kept⟩
        rw [parseReply, Prog.bind_ok read]
        simp only [decodeReplace_encodeText, if_true]
        rw [answerValue, missing]
        rfl
      · rename_i data present
        obtain ⟨conn', read, left, kept⟩ := single (Prod.mk.inj (Option.some.inj answered)).2.symm
        refine ⟨conn', ?_, left, kept⟩
        have start : "OK ".toList.isPrefixOf (sizeText data) = true :=
          List.isPrefixOf_iff_prefix.mpr ⟨Nat.toDigits 10 data.length, rfl⟩
        have digits : (sizeText data).drop 3 = Nat.toDigits 10 data.length := rfl
        rw [parseReply, Prog.bind_ok read]
        simp only [decodeReplace_encodeText]
        rw [if_neg (sizeText_ne_missing data), if_pos start, digits, intOfText_digits, answerValue, present]
        rfl
  | list start =>
      rw [answer] at answered
      obtain ⟨conn₁, conn₂, read, read', left, kept⟩ :=
        double (Prod.mk.inj (Option.some.inj answered)).2.symm
      refine ⟨conn₂, ?_, left, kept⟩
      rw [parseReply, Prog.bind_ok read, if_neg (not_not.mpr rfl), Prog.bind_ok read', decodeReplace_encodeText,
        bodyKeys_joinLines, answerValue]
      rfl

theorem io_truncated {conn : Sock} (cut : Unframed conn.incoming) :
    ∃ failure conn', io recvFrame conn = (.error (.io failure), conn') := by
  obtain ⟨got, wanted, conn', read, _⟩ := recvFrame_truncated cut
  exact ⟨.connectionError got wanted, conn', by rw [io, Prog.mapError, read]; rfl⟩

theorem parseReply_nothing (r : Request) {conn : Sock} (cut : Unframed conn.incoming) :
    ∃ failure conn', parseReply r conn = (.error (.io failure), conn') := by
  obtain ⟨failure, conn', failed⟩ := io_truncated cut
  refine ⟨failure, conn', ?_⟩
  cases r with
  | put key data => rw [parseReply, Prog.bind_error failed]
  | get key => rw [parseReply, Prog.bind_error failed]
  | stat key => rw [parseReply, Prog.bind_error failed]
  | list start => rw [parseReply, Prog.bind_error failed]

/-- A reply cut short is never taken for a whole one. -/
theorem parseReply_cut {repr : String → String} {store after : Storage} {r : Request} {found : List Bytes}
    {n : Nat} {cut : Bytes} {conn : Sock} (answered : answer repr store r = some (after, found))
    (short : n < found.length) (fits : ∀ reply ∈ found.take n, Sendable reply) (ends : Unframed cut)
    (brings : Sock.Brings conn (found.take n) cut) :
    ∃ failure conn', parseReply r conn = (.error (.io failure), conn') := by
  cases n with
  | zero =>
      rw [List.take_zero] at brings
      exact parseReply_nothing r (by rw [show conn.incoming = cut from brings]; exact ends)
  | succ n =>
      have shape : ∃ data, found = [encodeText "OK".toList, data] ∧
          ((∃ key, r = .get key) ∨ ∃ start, r = .list start) := by
        cases r with
        | put key data =>
            rw [answer] at answered
            split at answered
            · cases answered
              simp at short
            · obtain ⟨_, _, pair⟩ := Option.map_eq_some_iff.mp answered
              cases pair
              simp at short
        | get key =>
            rw [answer] at answered
            split at answered
            · cases answered
              simp at short
            · cases answered
              exact ⟨_, rfl, .inl ⟨key, rfl⟩⟩
        | stat key =>
            rw [answer] at answered
            split at answered
            · cases answered
              simp at short
            · cases answered
              simp at short
        | list start =>
            cases answered
            exact ⟨_, rfl, .inr ⟨start, rfl⟩⟩
      obtain ⟨data, rfl, kind⟩ := shape
      have one : n = 0 := by
        simp only [List.length_cons, List.length_nil] at short
        omega
      rw [one, List.take_succ_cons, List.take_zero] at brings fits
      obtain ⟨conn₁, read, left, _⟩ := recv_brought (fits _ List.mem_cons_self) brings
      have later : Unframed conn₁.incoming := by
        rw [show conn₁.incoming = cut from left]
        exact ends
      obtain ⟨failure, conn₂, failed⟩ := io_truncated later
      refine ⟨failure, conn₂, ?_⟩
      rcases kind with ⟨key, rfl⟩ | ⟨start, rfl⟩
      · rw [parseReply, Prog.bind_ok read, if_neg ok_ne_missing, if_neg (not_not.mpr rfl), Prog.bind_error failed]
      · rw [parseReply, Prog.bind_ok read, if_neg (not_not.mpr rfl), Prog.bind_error failed]

theorem unframed_nil : Unframed [] := by
  intro payload _ start
  have lengths := start.length_le
  rw [frame_length, List.length_nil] at lengths
  omega

/-! ## One command on a connection that does not fail -/

/-- A call, and how its bytes and those of its reply arrive. -/
structure Call where
  request : Request
  brokerPace : List Nat
  clientPace : List Nat

/-- The client sends the command, the broker serves it, the client reads the reply. -/
def exchange (repr : String → String) (call : Call) (store : Storage) : Except ClientError Value × Storage :=
  match sendRequest call.request ⟨[], [], []⟩ with
  | (.error e, _) => (.error e, store)
  | (.ok (), client) =>
      let served := (serveTurn repr ⟨store, ⟨client.sent, call.brokerPace, []⟩, []⟩).2
      ((parseReply call.request ⟨served.conn.sent, call.clientPace, []⟩).1, served.store)

theorem sendRequest_fits {r : Request} (fits : r.Fits) (conn : Sock) :
    sendRequest r conn = (.ok (), { conn with sent := conn.sent ++ r.bytes }) := by
  have line : io (sendFrame r.line) conn = (.ok (), { conn with sent := conn.sent ++ frame r.line }) :=
    io_ok (sendFrame_run (fits _ List.mem_cons_self) conn)
  cases r with
  | put key data =>
      have payload := io_ok (sendFrame_run (fits data (by simp [Request.payload]))
        { conn with sent := conn.sent ++ frame (Request.put key data).line })
      rw [sendRequest, Prog.bind_ok line, payload]
      simp [Request.bytes, Request.payload]
  | get key =>
      rw [sendRequest, line]
      simp [Request.bytes, Request.payload]
  | stat key =>
      rw [sendRequest, line]
      simp [Request.bytes, Request.payload]
  | list start =>
      rw [sendRequest, line]
      simp [Request.bytes, Request.payload]

theorem io_sendFrame_unfit {payload : Bytes} (large : ¬ Sendable payload) (conn : Sock) :
    io (sendFrame payload) conn = (.error .structError, conn) := by
  have packed : packQ payload.length = .error .structError := if_neg large
  rw [io, Prog.mapError, sendFrame, sendFrameVia, packed]
  rfl

theorem sendRequest_unfit {r : Request} (large : ¬ r.Fits) (conn : Sock) :
    ∃ conn', sendRequest r conn = (.error .structError, conn') := by
  by_cases line : Sendable r.line
  · cases r with
    | put key data =>
        have payload : ¬ Sendable data := by
          intro fits
          refine large fun part member => ?_
          rcases List.mem_cons.mp member with rfl | later
          · exact line
          · rw [List.mem_singleton.mp later]
            exact fits
        have first := io_ok (sendFrame_run line conn)
        exact ⟨_, (Prog.bind_ok first fun _ => io (sendFrame data)).trans (io_sendFrame_unfit payload _)⟩
    | get key => exact absurd (fun part member => List.mem_singleton.mp member ▸ line) large
    | stat key => exact absurd (fun part member => List.mem_singleton.mp member ▸ line) large
    | list start => exact absurd (fun part member => List.mem_singleton.mp member ▸ line) large
  · have failed := io_sendFrame_unfit line conn
    cases r with
    | put key data => exact ⟨conn, by rw [sendRequest, Prog.bind_error failed]⟩
    | get key => exact ⟨conn, failed⟩
    | stat key => exact ⟨conn, failed⟩
    | list start => exact ⟨conn, failed⟩

section Exchange

variable {repr : String → String} {call : Call} {store : Storage}

/-- What the client finds of the reply: all of it, or its first frames. -/
theorem exchange_sent (repr : String → String) (store : Storage) (fits : call.request.Fits) : ∃ sent n,
    exchange repr call store =
      ((parseReply call.request ⟨sent, call.clientPace, []⟩).1, afterStore repr store call.request) ∧
    sent = ((replies repr store call.request).take n).flatMap frame ∧
    (∀ reply ∈ (replies repr store call.request).take n, Sendable reply) ∧
    (answer repr store call.request ≠ none → (∀ reply ∈ replies repr store call.request, Sendable reply) →
      n = (replies repr store call.request).length) := by
  cases run : serveTurn repr ⟨store, ⟨[] ++ call.request.bytes, call.brokerPace, []⟩, []⟩ with
  | mk result served =>
      have arrived : ([] ++ call.request.bytes : Bytes) = call.request.bytes ++ [] := by simp
      obtain ⟨stored, _, n, sent, small, all⟩ := serveTurn_bytes rfl arrived fits run
      refine ⟨served.conn.sent, n, ?_, by rw [sent, List.nil_append], small,
        fun replied each => (all replied each).1⟩
      rw [exchange, sendRequest_fits fits]
      simp only [run, stored]

theorem exchange_store (fits : call.request.Fits) :
    (exchange repr call store).2 = afterStore repr store call.request := by
  obtain ⟨_, _, run, _⟩ := exchange_sent repr store fits
  rw [run]

/-- What the broker answers is what the call returns. -/
theorem exchange_answer {after : Storage} {found : List Bytes} (fits : call.request.Fits)
    (answered : answer repr store call.request = some (after, found))
    (small : ∀ reply ∈ found, Sendable reply) :
    exchange repr call store = (answerValue repr store call.request, after) := by
  obtain ⟨sent, n, run, bytes, _, all⟩ := exchange_sent repr store fits
  have frames : replies repr store call.request = found := by rw [replies, answered, Option.elim_some]
  rw [frames] at bytes all
  have brings : Sock.Brings ⟨sent, call.clientPace, []⟩ found [] := by
    rw [Sock.Brings, bytes, all (by rw [answered]; exact Option.some_ne_none _) small, List.take_length,
      List.append_nil]
  obtain ⟨_, read, _, _⟩ := parseReply_answer answered small brings
  rw [run, read, afterStore, answered, Option.elim_some]

/-- A call that returns was answered, and returns what the broker answered. -/
theorem exchange_ok {value : Value} (returned : (exchange repr call store).1 = .ok value) :
    call.request.Fits ∧ ∃ found, answer repr store call.request = some ((exchange repr call store).2, found) ∧
      (∀ reply ∈ found, Sendable reply) ∧ answerValue repr store call.request = .ok value := by
  by_cases fits : call.request.Fits
  · refine ⟨fits, ?_⟩
    obtain ⟨sent, n, run, bytes, small, _⟩ := exchange_sent repr store fits
    rw [run] at returned ⊢
    cases known : answer repr store call.request with
    | none =>
        rw [replies, known, Option.elim_none, List.take_nil, List.flatMap_nil] at bytes
        have ends : Unframed (Sock.mk sent call.clientPace []).incoming := by
          rw [bytes]
          exact unframed_nil
        obtain ⟨failure, conn, failed⟩ := parseReply_nothing call.request ends
        rw [failed] at returned
        cases returned
    | some answered =>
        obtain ⟨after, found⟩ := answered
        have frames : replies repr store call.request = found := by rw [replies, known, Option.elim_some]
        rw [frames] at bytes small
        refine ⟨found, by rw [afterStore, known, Option.elim_some], ?_⟩
        have brings : Sock.Brings ⟨sent, call.clientPace, []⟩ (found.take n) [] := by
          rw [Sock.Brings, bytes, List.append_nil]
        by_cases short : n < found.length
        · obtain ⟨failure, conn, failed⟩ := parseReply_cut known short small unframed_nil brings
          rw [failed] at returned
          cases returned
        · rw [List.take_of_length_le (by omega)] at brings small
          obtain ⟨conn, read, _, _⟩ := parseReply_answer known small brings
          rw [read] at returned
          exact ⟨small, returned⟩
  · obtain ⟨conn, failed⟩ := sendRequest_unfit fits ⟨[], [], []⟩
    rw [exchange, failed] at returned
    cases returned

theorem exchange_unfit (large : ¬ call.request.Fits) :
    exchange repr call store = (.error .structError, store) := by
  obtain ⟨conn, failed⟩ := sendRequest_unfit large ⟨[], [], []⟩
  rw [exchange, failed]

end Exchange

end SecureTransfer.ApproachB
