import SecureTransfer.Library.Relational
import SecureTransfer.ApproachB.Broker

/-! # A connection from its first byte to its last

`_serve_client` on whatever bytes a peer sends before it is gone, with replies that it may no
longer take. Against it stands `_handle_command` run on the commands that arrived with all
their frames, one after the other.
-/

namespace SecureTransfer.ApproachB

open Library

/-- A command line, and for a PUT its data. -/
structure Command where
  line : Bytes
  data : Option Bytes
  complete : data.isSome = true ↔ (splitCommand line).1 = "PUT"
  fits : ∀ part ∈ line :: data.toList, Sendable part

namespace Command

/-- The frames behind the line. -/
def payload (c : Command) : Bytes := c.data.toList.flatMap frame

def bytes (c : Command) : Bytes := frame c.line ++ c.payload

/-- `_handle_command` on a connection that holds what belongs to the command. -/
def handle (repr : String → String) (c : Command) : Prog Serving Failure Unit := do
  Prog.update fun s => { s with conn := { s.conn with incoming := c.payload } }
  handleCommand repr c.line

end Command

/-- The commands in order, up to one that raises. -/
def handleAll (repr : String → String) : List Command → Prog Serving Failure Unit
  | [] => pure ()
  | c :: later => do
      c.handle repr
      handleAll repr later

/-- The commands that arrived with all their frames, and the bytes behind them. -/
structure Arrived (bytes : Bytes) (commands : List Command) (rest : Bytes) : Prop where
  split : bytes = commands.flatMap Command.bytes ++ rest
  ends : ∀ c : Command, ¬ c.bytes <+: rest

/-! ## The commands of a stream -/

namespace Command

theorem bytes_append_inj {c d : Command} {rest tail : Bytes} (same : c.bytes ++ rest = d.bytes ++ tail) :
    c = d ∧ rest = tail := by
  obtain ⟨line, data, complete, fits⟩ := c
  obtain ⟨line', data', complete', fits'⟩ := d
  simp only [bytes, payload, List.append_assoc] at same
  obtain ⟨rfl, payloads⟩ := frame_append_inj (fits line (by simp)) (fits' line' (by simp)) same
  have both : data.isSome = data'.isSome := Bool.eq_iff_iff.mpr (complete.trans complete'.symm)
  cases data with
  | none =>
      obtain rfl : data' = none := Option.isSome_eq_false_iff.mp both.symm |> Option.isNone_iff_eq_none.mp
      exact ⟨rfl, payloads⟩
  | some found =>
      obtain ⟨found', rfl⟩ := Option.isSome_iff_exists.mp both.symm
      simp only [Option.toList_some, List.flatMap_singleton] at payloads
      obtain ⟨rfl, rests⟩ := frame_append_inj (fits found (by simp)) (fits' found' (by simp)) payloads
      exact ⟨rfl, rests⟩

theorem bytes_pos (c : Command) : 0 < c.bytes.length := by
  rw [bytes, List.length_append, frame_length]
  omega

end Command

theorem exists_arrived (bytes : Bytes) : ∃ commands rest, Arrived bytes commands rest := by
  induction size : bytes.length using Nat.strong_induction_on generalizing bytes with
  | _ n ih =>
      by_cases more : ∃ c : Command, c.bytes <+: bytes
      · obtain ⟨c, later, rfl⟩ := more
        have shorter : later.length < n := by
          have some_bytes := c.bytes_pos
          rw [List.length_append] at size
          omega
        obtain ⟨commands, rest, split, ends⟩ := ih _ shorter later rfl
        exact ⟨c :: commands, rest, by rw [split, List.flatMap_cons, List.append_assoc], ends⟩
      · exact ⟨[], bytes, rfl, fun c start => more ⟨c, start⟩⟩

theorem arrived_nil : Arrived [] [] [] where
  split := rfl
  ends c start := by
    have some_bytes := c.bytes_pos
    rw [List.prefix_nil.mp start] at some_bytes
    cases some_bytes

theorem Arrived.cons {later rest : Bytes} {commands : List Command} (h : Arrived later commands rest)
    (c : Command) :
    Arrived (c.bytes ++ later) (c :: commands) rest :=
  ⟨by rw [h.split, List.flatMap_cons, List.append_assoc], h.ends⟩

/-- A stream is read in one way. -/
theorem Arrived.unique {bytes rest rest' : Bytes} {commands commands' : List Command}
    (h : Arrived bytes commands rest) (h' : Arrived bytes commands' rest') :
    commands = commands' ∧ rest = rest' := by
  obtain ⟨split, ends⟩ := h
  obtain ⟨split', ends'⟩ := h'
  rw [split] at split'
  clear split
  induction commands generalizing commands' with
  | nil =>
      cases commands' with
      | nil => exact ⟨rfl, split'⟩
      | cons c later =>
          rw [List.flatMap_nil, List.nil_append, List.flatMap_cons, List.append_assoc] at split'
          exact absurd ⟨_, split'.symm⟩ (ends c)
  | cons c later ih =>
      rw [List.flatMap_cons, List.append_assoc] at split'
      cases commands' with
      | nil => exact absurd ⟨_, split'⟩ (ends' c)
      | cons c' later' =>
          rw [List.flatMap_cons, List.append_assoc] at split'
          obtain ⟨rfl, next⟩ := Command.bytes_append_inj split'
          obtain ⟨rfl, rfl⟩ := ih next
          exact ⟨rfl, rfl⟩

/-! ## One command among others -/

/-- Two connections to one store that sent the same and fail alike; what each has still to read. -/
structure Serving.Same (left right : Bytes) (s t : Serving) : Prop where
  store : s.store = t.store
  sent : s.conn.sent = t.conn.sent
  faults : s.faults = t.faults
  left : s.conn.incoming = left
  right : t.conn.incoming = right

section Alike

variable {repr : String → String} {left right : Bytes}

/-- The two connections stay alike, each with its own bytes to read. -/
abbrev RunsAlike (left right : Bytes) (m : Prog Serving Failure Unit) : Prop :=
  Prog.Alike (Serving.Same left right) (fun _ _ => True) m m

theorem sendall_alike (data : Bytes) : RunsAlike left right (sendall data) := by
  rintro ⟨store, conn, faults⟩ ⟨store', conn', faults'⟩ ⟨same, sent, rfl, here, there⟩
  match faults with
  | [] => exact ⟨.ok trivial, same, congrArg (· ++ data) sent, rfl, here, there⟩
  | none :: _ => exact ⟨.ok trivial, same, congrArg (· ++ data) sent, rfl, here, there⟩
  | some taken :: _ => exact ⟨.error _, same, congrArg (· ++ data.take taken) sent, rfl, here, there⟩

theorem sendReply_alike (payload : Bytes) : RunsAlike left right (sendReply payload) := by
  by_cases fits : Sendable payload
  · have packed : packQ payload.length = .ok (bigEndian 8 payload.length) := if_pos fits
    intro s t same
    rw [sendReply, sendFrameVia, packed, Prog.bind_ok (Prog.ofExcept_run _ s), Prog.bind_ok (Prog.ofExcept_run _ t)]
    exact (sendall_alike _).bind (fun _ _ _ => sendall_alike payload) s t same
  · intro s t same
    rw [sendReply_long fits s, sendReply_long fits t]
    exact ⟨.error _, same⟩

theorem sendText_alike (text : List Char) : RunsAlike left right (sendText text) := sendReply_alike _

theorem handleGet_alike (key : String) : RunsAlike left right (handleGet key) := by
  refine Prog.Alike.get.bind fun s t same => ?_
  simp only [same.store]
  cases t.store.get key with
  | none => exact sendText_alike _
  | some data => exact (sendText_alike _).bind fun _ _ _ => sendReply_alike data

theorem handleStat_alike (key : String) : RunsAlike left right (handleStat key) := by
  refine Prog.Alike.get.bind fun s t same => ?_
  simp only [same.store]
  cases t.store.get key <;> exact sendText_alike _

theorem handleList_alike (start : String) : RunsAlike left right (handleList start) := by
  refine Prog.Alike.get.bind fun s t same => ?_
  simp only [same.store]
  exact (sendText_alike _).bind fun _ _ _ => sendText_alike _

/-- What `handlePut` does with the data it has read. -/
theorem storeData_alike (key : String) (data : Bytes) :
    RunsAlike left right (if (safePath key).isNone then sendText (illegalKeyText repr key)
      else do
        let s ← Prog.get
        match s.store.put key data with
        | none => Prog.raise (.osError "Is a directory")
        | some store => do
            Prog.update fun s => { s with store }
            sendText "OK".toList) := by
  split
  · exact sendText_alike _
  · refine Prog.Alike.get.bind fun s t same => ?_
    simp only [same.store]
    cases t.store.put key data with
    | none => exact fun _ _ same => ⟨.error _, same⟩
    | some after =>
        refine (Prog.Alike.update fun u v same => ?_).bind fun _ _ _ => sendText_alike _
        exact ⟨rfl, same.sent, same.faults, same.left, same.right⟩

theorem Serving.Same.recvFrame {payload : Bytes} (fits : Sendable payload) {s t : Serving}
    (same : Same (frame payload ++ left) (frame payload ++ right) s t) :
    ∃ u v, onConn recvFrame s = (.ok payload, u) ∧ onConn recvFrame t = (.ok payload, v) ∧
      Same left right u v := by
  obtain ⟨conn, read, rest, kept⟩ := recvFrame_complete fits same.left
  obtain ⟨conn', read', rest', kept'⟩ := recvFrame_complete fits same.right
  exact ⟨{ s with conn }, { t with conn := conn' }, Prog.zoom_run read, Prog.zoom_run read',
    same.store, kept.trans (same.sent.trans kept'.symm), same.faults, rest, rest'⟩

/-- A command is handled alike, whatever follows it. -/
theorem handleCommand_alike (c : Command) {s t : Serving}
    (same : Serving.Same (c.payload ++ left) (c.payload ++ right) s t) :
    EndsAlike (fun _ _ => True) (handleCommand repr c.line s).1 (handleCommand repr c.line t).1 ∧
      Serving.Same left right (handleCommand repr c.line s).2 (handleCommand repr c.line t).2 := by
  obtain ⟨line, data, complete, fits⟩ := c
  simp only [handleCommand]
  cases words : splitCommand line with
  | mk op arg =>
      simp only [words] at complete ⊢
      by_cases put : op = "PUT"
      · obtain ⟨found, rfl⟩ := Option.isSome_iff_exists.mp (complete.mpr put)
        simp only [Command.payload, Option.toList_some, List.flatMap_singleton] at same
        obtain ⟨u, v, read, read', after⟩ := same.recvFrame (fits found (by simp))
        simp only [if_pos put, handlePut]
        rw [Prog.bind_ok read, Prog.bind_ok read']
        exact storeData_alike arg found u v after
      · obtain rfl : data = none := Option.not_isSome_iff_eq_none.mp (mt complete.mp put)
        simp only [Command.payload, Option.toList_none, List.flatMap_nil, List.nil_append] at same
        simp only [if_neg put]
        split
        · exact handleGet_alike arg s t same
        split
        · exact handleStat_alike arg s t same
        split
        · exact handleList_alike arg s t same
        · exact sendText_alike _ s t same

end Alike

section Turns

variable (repr : String → String)

theorem serveTurn_command {c : Command} {s t : Serving} {rest : Bytes}
    (arrived : s.conn.incoming = c.bytes ++ rest) (store : s.store = t.store) (sent : s.conn.sent = t.conn.sent)
    (faults : s.faults = t.faults) :
    EndsAlike (fun _ _ => True) (serveTurn repr s).1 (c.handle repr t).1 ∧
      Serving.Same rest [] (serveTurn repr s).2 (c.handle repr t).2 := by
  rw [Command.bytes, List.append_assoc] at arrived
  obtain ⟨conn, read, left, kept⟩ := recvFrame_complete (c.fits _ List.mem_cons_self) arrived
  have first : onConn recvFrame s = (.ok c.line, { s with conn }) := Prog.zoom_run read
  rw [serveTurn, Prog.bind_ok first, Command.handle, Prog.bind_ok (Prog.update_run _ t)]
  exact handleCommand_alike c ⟨store, kept.trans sent, faults, left, (List.append_nil _).symm⟩

/-- Without a whole command the turn raises, and has neither stored nor sent anything. -/
theorem serveTurn_incomplete {s : Serving} (ends : ∀ c : Command, ¬ c.bytes <+: s.conn.incoming) :
    ∃ e t, serveTurn repr s = (.error e, t) ∧ t.store = s.store ∧ t.conn.sent = s.conn.sent := by
  have cut : ∀ u : Serving, Unframed u.conn.incoming → ∃ e v, onConn recvFrame u = (.error e, v) ∧
      v.store = u.store ∧ v.conn.sent = u.conn.sent := by
    intro u unframed
    obtain ⟨got, wanted, conn, failed, kept⟩ := recvFrame_truncated unframed
    exact ⟨_, { u with conn }, Prog.zoom_run failed, rfl, kept⟩
  rcases frame_or_unframed s.conn.incoming with ⟨line, rest, fits, arrived⟩ | unframed
  · obtain ⟨conn, read, left, kept⟩ := recvFrame_complete fits arrived
    have first : onConn recvFrame s = (.ok line, { s with conn }) := Prog.zoom_run read
    cases words : splitCommand line with
    | mk op arg =>
        by_cases put : op = "PUT"
        · rcases frame_or_unframed rest with ⟨data, later, fits', rfl⟩ | unframed
          · -- with its data the command would be whole
            let c : Command := ⟨line, some data, by simp [words, put], by simp [fits, fits']⟩
            refine absurd ⟨later, ?_⟩ (ends c)
            simp [c, Command.bytes, Command.payload, arrived, List.append_assoc]
          · obtain ⟨e, t, failed, store, sent⟩ := cut { s with conn } (by simpa only [left] using unframed)
            refine ⟨e, t, ?_, store, sent.trans kept⟩
            rw [serveTurn, Prog.bind_ok first]
            simp only [handleCommand, words, if_pos put, handlePut]
            rw [Prog.bind_error failed]
        · let c : Command := ⟨line, none, by simp [words, put], by simp [fits]⟩
          refine absurd ⟨rest, ?_⟩ (ends c)
          simp [c, Command.bytes, Command.payload, arrived]
  · obtain ⟨e, t, failed, kept⟩ := cut s unframed
    exact ⟨e, t, by rw [serveTurn, Prog.bind_error failed], kept⟩

variable {repr} in
theorem serveTurn_shrinks {s t : Serving} (turn : serveTurn repr s = (.ok (), t)) :
    t.conn.incoming.length < s.conn.incoming.length := by
  by_cases more : ∃ c : Command, c.bytes <+: s.conn.incoming
  · obtain ⟨c, rest, split⟩ := more
    have some_bytes := c.bytes_pos
    have left := (serveTurn_command repr split.symm rfl rfl rfl).2.left
    rw [turn] at left
    rw [left, ← split, List.length_append]
    omega
  · obtain ⟨e, u, failed, _⟩ := serveTurn_incomplete repr fun c start => more ⟨c, start⟩
    rw [turn] at failed
    cases failed

end Turns

/-- `_serve_client`: a turn after the other, until the peer is gone or something is raised. -/
def serveClient (repr : String → String) (s : Serving) : Serving :=
  match _ : serveTurn repr s with
  | (.error _, t) => t
  | (.ok (), t) => serveClient repr t
termination_by s.conn.incoming.length
decreasing_by exact serveTurn_shrinks ‹_›

/-! ## The session -/

section Session

variable {repr : String → String}

theorem serveClient_error {s t : Serving} {e : Failure} (turn : serveTurn repr s = (.error e, t)) :
    serveClient repr s = t := by
  rw [serveClient]
  split <;> rename_i turn' <;> rw [turn] at turn' <;> cases turn'
  rfl

theorem serveClient_ok {s t : Serving} (turn : serveTurn repr s = (.ok (), t)) :
    serveClient repr s = serveClient repr t := by
  conv => lhs; rw [serveClient]
  split <;> rename_i turn' <;> rw [turn] at turn' <;> cases turn'
  rfl

/-- A session stores and sends what its commands do, one after the other. -/
theorem serveClient_arrived (repr : String → String) {commands : List Command} {rest : Bytes} {s t : Serving}
    (arrived : Arrived s.conn.incoming commands rest) (store : s.store = t.store)
    (sent : s.conn.sent = t.conn.sent) (faults : s.faults = t.faults) :
    (serveClient repr s).store = (handleAll repr commands t).2.store ∧
      (serveClient repr s).conn.sent = (handleAll repr commands t).2.conn.sent := by
  obtain ⟨split, ends⟩ := arrived
  induction commands generalizing s t with
  | nil =>
      rw [List.flatMap_nil, List.nil_append] at split
      obtain ⟨e, u, failed, store', sent'⟩ := serveTurn_incomplete repr (by rwa [split])
      rw [serveClient_error failed]
      exact ⟨store'.trans store, sent'.trans sent⟩
  | cons c later ih =>
      rw [List.flatMap_cons, List.append_assoc] at split
      obtain ⟨alike, same⟩ := serveTurn_command repr split store sent faults
      cases turn : serveTurn repr s with
      | mk r u =>
          cases handled : c.handle repr t with
          | mk r' v =>
              rw [turn, handled] at alike same
              rw [handleAll]
              cases alike with
              | ok _ =>
                  rw [serveClient_ok turn, Prog.bind_ok handled]
                  exact ih same.store same.sent same.faults same.left
              | error e =>
                  rw [serveClient_error turn, Prog.bind_error handled]
                  exact ⟨same.store, same.sent⟩

/-- An accepted PUT that fails in the file system. -/
def Command.Refused (c : Command) : Prop :=
  ∃ key, splitCommand c.line = ("PUT", key) ∧ (safePath key).isSome = true ∧
    ∃ (store : Storage) (data : Bytes), store.put key data = none

/-- No send fails. -/
def Serving.Steady (s : Serving) : Prop := ∀ fault ∈ s.faults, fault = none

theorem sendall_steady (data : Bytes) {s : Serving} (steady : s.Steady) :
    ∃ t, sendall data s = (.ok (), t) ∧ t.Steady ∧ t.conn.sent = s.conn.sent ++ data := by
  obtain ⟨store, conn, faults⟩ := s
  match faults with
  | [] => exact ⟨_, rfl, steady, rfl⟩
  | none :: later => exact ⟨_, rfl, fun fault member => steady fault (List.mem_cons_of_mem none member), rfl⟩
  | some taken :: later => cases steady _ List.mem_cons_self

theorem sendReply_steady {payload : Bytes} (fits : Sendable payload) {s : Serving} (steady : s.Steady) :
    ∃ t, sendReply payload s = (.ok (), t) ∧ t.conn.sent = s.conn.sent ++ frame payload := by
  have packed : packQ payload.length = .ok (bigEndian 8 payload.length) := if_pos fits
  obtain ⟨t, first, steady', sent⟩ := sendall_steady (bigEndian 8 payload.length) steady
  obtain ⟨u, second, _, sent'⟩ := sendall_steady payload steady'
  refine ⟨u, ?_, ?_⟩
  · rw [sendReply, sendFrameVia, packed, Prog.bind_ok (Prog.ofExcept_run _ s), Prog.bind_ok first, second]
  · rw [sent', sent, frame, List.append_assoc]

/-- A reply stores nothing, whether it is sent or not. -/
theorem sendReply_store (payload : Bytes) (s : Serving) : (sendReply payload s).2.store = s.store := by
  have stays : ∀ data (u : Serving), (sendall data u).2.store = u.store := by
    intro data u
    rw [sendall]
    split <;> rfl
  by_cases fits : Sendable payload
  · have packed : packQ payload.length = .ok (bigEndian 8 payload.length) := if_pos fits
    have first := stays (bigEndian 8 payload.length) s
    rw [sendReply, sendFrameVia, packed, Prog.bind_ok (Prog.ofExcept_run _ s)]
    cases run : sendall (bigEndian 8 payload.length) s with
    | mk r t =>
        rw [run] at first
        cases r with
        | error e => rw [Prog.bind_error run, first]
        | ok _ => rw [Prog.bind_ok run, stays, first]
  · rw [sendReply_long fits]

section Raises

variable {E : Failure → Prop}

theorem sendall_raises (data : Bytes) : Prog.RaisesFrom Serving.Steady E (sendall data) := by
  intro s steady
  obtain ⟨t, run, kept, _⟩ := sendall_steady data steady
  rw [run]
  exact ⟨kept, nofun⟩

theorem sendReply_raises (tooLong : E .structError) (payload : Bytes) :
    Prog.RaisesFrom Serving.Steady E (sendReply payload) := by
  refine (Prog.RaisesFrom.ofExcept fun e failed => ?_).bind fun length =>
    (sendall_raises length).bind fun _ => sendall_raises payload
  rw [packQ] at failed
  split at failed <;> cases failed
  exact tooLong

theorem handleCommand_raises (tooLong : E .structError) {line : Bytes}
    (other : (splitCommand line).1 ≠ "PUT") :
    Prog.RaisesFrom Serving.Steady E (handleCommand repr line) := by
  have text : ∀ text, Prog.RaisesFrom Serving.Steady E (sendText text) := fun text => sendReply_raises tooLong _
  simp only [handleCommand, if_neg other]
  split
  · refine Prog.RaisesFrom.get.bind fun s => ?_
    split
    · exact text _
    · exact (text _).bind fun _ => sendReply_raises tooLong _
  split
  · refine Prog.RaisesFrom.get.bind fun s => ?_
    split <;> exact text _
  split
  · exact Prog.RaisesFrom.get.bind fun _ => (text _).bind fun _ => text _
  · exact text _

end Raises

theorem Command.handle_put {c : Command} {key : String} (put : splitCommand c.line = ("PUT", key)) (s : Serving) :
    ∃ data conn, c.data = some data ∧ conn.incoming = [] ∧ conn.sent = s.conn.sent ∧
      onConn recvFrame { s with conn := { s.conn with incoming := c.payload } } =
        (.ok data, { s with conn }) := by
  obtain ⟨data, found⟩ := Option.isSome_iff_exists.mp (c.complete.mpr (by rw [put]))
  have arrived : c.payload = frame data ++ [] := by
    rw [payload, found, Option.toList_some, List.flatMap_singleton, List.append_nil]
  obtain ⟨conn, read, left, kept⟩ :=
    recvFrame_complete (c.fits data (by simp [found]))
      (show Sock.incoming { s.conn with incoming := c.payload } = _ from arrived)
  exact ⟨data, conn, found, left, kept, Prog.zoom_run read⟩

/-- Where no send fails, a command raises if its reply is too long for a frame, or the file system
    refuses it. -/
theorem Command.handle_raises (repr : String → String) (c : Command) :
    Prog.RaisesFrom Serving.Steady (fun e => e = .structError ∨ c.Refused) (c.handle repr) := by
  intro s steady
  rw [handle, Prog.bind_ok (Prog.update_run _ s)]
  have text : ∀ text, Prog.RaisesFrom Serving.Steady (fun e => e = .structError ∨ c.Refused) (sendText text) :=
    fun text => sendReply_raises (.inl rfl) _
  by_cases other : (splitCommand c.line).1 = "PUT"
  · have put : splitCommand c.line = ("PUT", (splitCommand c.line).2) := by rw [← other]
    obtain ⟨data, conn, _, _, _, read⟩ := handle_put put s
    simp only [handleCommand, if_pos other, handlePut]
    rw [Prog.bind_ok read]
    split
    · exact text _ _ steady
    · rename_i legal
      rw [Prog.bind_ok (Prog.get_run _)]
      cases stored : s.store.put (splitCommand c.line).2 data with
      | none =>
          refine ⟨steady, fun _ _ => .inr ⟨_, put, ?_, _, _, stored⟩⟩
          simpa [Option.isSome_iff_ne_none] using legal
      | some after =>
          simp only
          rw [Prog.bind_ok (Prog.update_run _ _)]
          exact text _ _ steady
  · have others : Prog.RaisesFrom Serving.Steady (fun e => e = .structError ∨ c.Refused) (handleCommand repr c.line) :=
      handleCommand_raises (.inl rfl) other
    exact others _ steady

theorem handleAll_raises (repr : String → String) (commands : List Command) :
    Prog.RaisesFrom Serving.Steady (fun e => e = .structError ∨ ∃ c ∈ commands, c.Refused)
      (handleAll repr commands) := by
  induction commands with
  | nil => exact Prog.RaisesFrom.pure ()
  | cons c later ih =>
      refine Prog.RaisesFrom.bind (fun s steady => ?_) fun _ s steady => ?_
      · obtain ⟨kept, raises⟩ := c.handle_raises repr s steady
        refine ⟨kept, fun e failed => (raises e failed).imp_right fun refused => ?_⟩
        exact ⟨c, List.mem_cons_self, refused⟩
      · obtain ⟨kept, raises⟩ := ih s steady
        refine ⟨kept, fun e failed => (raises e failed).imp_right fun ⟨d, member, refused⟩ => ?_⟩
        exact ⟨d, List.mem_cons_of_mem c member, refused⟩

/-- A PUT with an illegal key stores nothing, and is answered with ERR. -/
theorem Command.handle_illegal (repr : String → String) {c : Command} {key : String}
    (put : splitCommand c.line = ("PUT", key)) (illegal : safePath key = none) (s : Serving) :
    (c.handle repr s).2.store = s.store ∧ (s.Steady → Sendable (encodeText (illegalKeyText repr key)) →
      (c.handle repr s).1 = .ok () ∧
      (c.handle repr s).2.conn.sent = s.conn.sent ++ frame (encodeText (illegalKeyText repr key))) := by
  obtain ⟨data, conn, _, _, kept, read⟩ := handle_put put s
  have run : c.handle repr s = sendText (illegalKeyText repr key) { s with conn } := by
    rw [handle, Prog.bind_ok (Prog.update_run _ s)]
    simp only [handleCommand, put, if_true, handlePut]
    rw [Prog.bind_ok read, illegal, Option.isNone_none, if_pos rfl]
  rw [run, sendText]
  refine ⟨sendReply_store _ _, fun steady fits => ?_⟩
  obtain ⟨t, replied, sent⟩ := sendReply_steady fits (s := { s with conn }) steady
  rw [replied]
  exact ⟨rfl, by rw [sent, kept]⟩

/-- **A session applies just its complete commands.** What the peer sent is in one way a list of
    complete commands and a rest without one. Store and replies are those of handling the
    commands in order, up to one that raises, whatever the rest; if no send fails, a command only
    raises where the file system refuses an accepted PUT, or a reply has no length prefix. A PUT
    with an illegal key stores nothing, is answered with ERR if no send fails, and what follows it
    is read as if it were not there. -/
theorem session_applies_complete_commands (repr : String → String) (s : Serving) :
    (∃ commands rest, Arrived s.conn.incoming commands rest ∧
      (∀ commands' rest', Arrived s.conn.incoming commands' rest' → commands' = commands ∧ rest' = rest) ∧
      ∃ result t, handleAll repr commands s = (result, t) ∧
        (serveClient repr s).store = t.store ∧ (serveClient repr s).conn.sent = t.conn.sent ∧
        (s.Steady → (∀ c ∈ commands, ¬ c.Refused) → result = .ok () ∨ result = .error .structError)) ∧
    (∀ c key, splitCommand (Command.line c) = ("PUT", key) → safePath key = none →
      (c.handle repr s).2.store = s.store ∧
      (s.Steady → Sendable (encodeText (illegalKeyText repr key)) → (c.handle repr s).1 = .ok () ∧
        (c.handle repr s).2.conn.sent = s.conn.sent ++ frame (encodeText (illegalKeyText repr key))) ∧
      ∀ later commands rest, Arrived later commands rest → Arrived (c.bytes ++ later) (c :: commands) rest) ∧
    ∀ commands rest, Arrived s.conn.incoming commands rest →
      ∀ whole : Serving, whole.conn.incoming = commands.flatMap Command.bytes →
        whole.store = s.store → whole.conn.sent = s.conn.sent → whole.faults = s.faults →
        (serveClient repr whole).store = (serveClient repr s).store ∧
          (serveClient repr whole).conn.sent = (serveClient repr s).conn.sent := by
  refine ⟨?_, fun c key put illegal => ?_, fun commands rest arrived whole bytes store sent faults => ?_⟩
  · obtain ⟨commands, rest, arrived⟩ := exists_arrived s.conn.incoming
    refine ⟨commands, rest, arrived, fun _ _ arrived' => arrived'.unique arrived, ?_⟩
    cases run : handleAll repr commands s with
    | mk result t =>
        obtain ⟨store, sent⟩ := serveClient_arrived repr arrived (Eq.refl s.store) rfl rfl
        rw [run] at store sent
        refine ⟨result, t, rfl, store, sent, fun steady accepted => ?_⟩
        cases result with
        | ok _ => exact .inl rfl
        | error e =>
            rcases (handleAll_raises repr commands s steady).2 e (by rw [run]) with rfl | ⟨c, member, refused⟩
            · exact .inr rfl
            · exact absurd refused (accepted c member)
  · obtain ⟨store, replied⟩ := Command.handle_illegal repr put illegal s
    exact ⟨store, replied, fun _ _ _ arrived => arrived.cons c⟩
  · have all : Arrived whole.conn.incoming commands [] := ⟨by rw [bytes, List.append_nil], arrived_nil.ends⟩
    obtain ⟨store', sent'⟩ := serveClient_arrived repr arrived store.symm sent.symm faults.symm
    obtain ⟨store'', sent''⟩ := serveClient_arrived repr all (Eq.refl whole.store) rfl rfl
    exact ⟨store''.trans store'.symm, sent''.trans sent'.symm⟩

/-! ## A reply that cannot be sent -/

theorem okText_sendable : Sendable (encodeText "OK".toList) :=
  show (encodeText "OK".toList).length < 2 ^ 64 by decide

/-- The command of a PUT. -/
def putCommand (key : String) (data : Bytes) (fits : (Request.put key data).Fits) : Command where
  line := (Request.put key data).line
  data := some data
  complete := by rw [splitCommand_line]; exact ⟨fun _ => rfl, fun _ => rfl⟩
  fits := fits

theorem putCommand_stored (repr : String → String) {key : String} {data : Bytes}
    (fits : (Request.put key data).Fits) {s : Serving} {after : Storage}
    (legal : (safePath key).isNone = false) (stored : s.store.put key data = some after) :
    ∃ conn, (putCommand key data fits).handle repr s =
      sendText "OK".toList { s with store := after, conn := conn } := by
  obtain ⟨_, conn, found, _, _, read⟩ :=
    Command.handle_put (c := putCommand key data fits) (splitCommand_line (.put key data)) s
  cases found
  refine ⟨conn, ?_⟩
  have line : handleCommand repr (putCommand key data fits).line = handlePut repr key :=
    handleCommand_op (.put key data)
  rw [Command.handle, Prog.bind_ok (Prog.update_run _ s), line, handlePut, Prog.bind_ok read, legal,
    if_neg Bool.false_ne_true, Prog.bind_ok (Prog.get_run _)]
  simp only [stored]
  rw [Prog.bind_ok (Prog.update_run _ _)]

/-- Its reply is sent, and the rest is handled. -/
theorem handleAll_put (repr : String → String) {key : String} {data : Bytes}
    (fits : (Request.put key data).Fits) {s : Serving} {after : Storage}
    (legal : (safePath key).isNone = false) (stored : s.store.put key data = some after)
    (steady : s.faults = []) (later : List Command) :
    ∃ t, handleAll repr (putCommand key data fits :: later) s = handleAll repr later t ∧ t.store = after ∧
      t.faults = [] := by
  obtain ⟨conn, handled⟩ := putCommand_stored repr fits legal stored
  rw [sendText, sendReply_run okText_sendable (s := { s with store := after, conn := conn }) steady] at handled
  refine ⟨Serving.sends [encodeText "OK".toList] { s with store := after, conn := conn }, ?_, rfl, steady⟩
  rw [handleAll, Prog.bind_ok handled]

theorem sendReply_broken {payload : Bytes} (fits : Sendable payload) {s : Serving} {taken : Nat}
    {later : List (Option Nat)} (faults : s.faults = some taken :: later) :
    ∃ t, sendReply payload s = (.error (.osError "Broken pipe"), t) ∧ t.store = s.store := by
  obtain ⟨store, conn, _⟩ := s
  cases faults
  have packed : packQ payload.length = .ok (bigEndian 8 payload.length) := if_pos fits
  rw [sendReply, sendFrameVia, packed, Prog.bind_ok (Prog.ofExcept_run _ _)]
  exact ⟨_, rfl, rfl⟩

theorem putCommand_accepted {key : String} {data : Bytes} {fits : (Request.put key data).Fits} {path : BlobPath}
    (safe : safePath key = some path) (named : path.2 ≠ ".") : ¬ (putCommand key data fits).Refused := by
  rintro ⟨key', words, _, store, data', failed⟩
  have same : splitCommand (putCommand key data fits).line = ("PUT", key) := splitCommand_line (.put key data)
  rw [same] at words
  cases words
  obtain ⟨after, stored⟩ := store.put_some data' safe named
  rw [stored] at failed
  cases failed

/-- Two PUTs arrive, and the peer is gone before the first reply: the second is not applied. -/
theorem session_drops_command :
    ¬ ∀ (repr : String → String) (s : Serving) (commands : List Command) (rest : Bytes),
      Arrived s.conn.incoming commands rest → (∀ c ∈ commands, ¬ c.Refused) →
      (serveClient repr s).store = (handleAll repr commands { s with faults := [] }).2.store := by
  intro claim
  have fits : (Request.put "n/a" [1]).Fits := List.forall_mem_cons.mpr
    ⟨show (Request.put "n/a" [1]).line.length < 2 ^ 64 by decide, List.forall_mem_singleton.mpr (by simp [Sendable])⟩
  have fits' : (Request.put "n/b" [1]).Fits := List.forall_mem_cons.mpr
    ⟨show (Request.put "n/b" [1]).line.length < 2 ^ 64 by decide, List.forall_mem_singleton.mpr (by simp [Sendable])⟩
  let first := putCommand "n/a" [1] fits
  let second := putCommand "n/b" [1] fits'
  let s : Serving := ⟨.empty, ⟨first.bytes ++ (second.bytes ++ []), [], []⟩, [some 0]⟩
  have safe : safePath "n/a" = some ("n", "a") := rfl
  have safe' : safePath "n/b" = some ("n", "b") := rfl
  have arrived : Arrived s.conn.incoming [first, second] [] := (arrived_nil.cons second).cons first
  have both : ∀ c ∈ [first, second], ¬ c.Refused := by
    intro c member
    rcases List.mem_cons.mp member with rfl | member
    · exact putCommand_accepted safe (by decide)
    · rw [List.mem_singleton.mp member]
      exact putCommand_accepted safe' (by decide)
  have same := claim id s [first, second] [] arrived both
  rw [(serveClient_arrived id arrived (Eq.refl s.store) rfl rfl).1] at same
  obtain ⟨one, stored⟩ := Storage.empty.put_some [1] safe (by decide)
  obtain ⟨two, stored'⟩ := one.put_some [1] safe' (by decide)
  -- the reply to the first raises
  have broken : (handleAll id [first, second] s).2.store = one := by
    obtain ⟨conn, handled⟩ := putCommand_stored id fits (s := s)
      (by rw [safe]; rfl) stored
    obtain ⟨t, failed, store⟩ := sendReply_broken (s := { s with store := one, conn := conn }) okText_sendable rfl
    rw [sendText, failed] at handled
    rw [handleAll, Prog.bind_error handled]
    exact store
  have whole : (handleAll id [first, second] { s with faults := [] }).2.store = two := by
    obtain ⟨t, handled, store, steady⟩ := handleAll_put id fits
      (s := { s with faults := [] }) (by rw [safe]; rfl) stored rfl [second]
    obtain ⟨u, handled', store', _⟩ := handleAll_put id fits' (s := t)
      (by rw [safe']; rfl) (by rw [store]; exact stored') steady []
    rw [handled, handled']
    exact store'
  rw [broken, whole] at same
  have left := Storage.put_lookup safe stored ("n", "b")
  have right := Storage.put_lookup safe' stored' ("n", "b")
  rw [same, right] at left
  simp [Storage.find, Storage.empty] at left

end Session

end SecureTransfer.ApproachB
