import SecureTransfer.ApproachB.ClientSession

/-! # The client on a hostile wire

`BrokerClient` against a peer that may refuse a connection, cut it at any byte or send
anything. What it raises from a GET or a LIST is a `BrokerError`, whatever happens.
-/

namespace SecureTransfer.ApproachB

open Library

/-- What becomes of an attempt: it cannot connect or send, or these bytes arrive, in `recv`
    results of this pace, before the connection is cut or times out. -/
inductive Fate where
  | fails
  | carries (bytes : Bytes) (pace : List Nat)

/-- The client's socket, and the fates of its attempts; behind the last one all fail. -/
structure HostileWire where
  sock : Option Sock
  fates : List Fate

namespace HostileWire

/-- What the peer sends from now on. -/
def start (fates : List Fate) : HostileWire := ⟨none, fates⟩

/-- `_connect`. -/
def connected (wire : HostileWire) : Sock := wire.sock.getD ⟨[], [], []⟩

/-- One attempt of `_run`. An object of the language is always short enough for a frame. -/
def attempt (r : Request) : Prog HostileWire ClientError Value := fun wire =>
  match wire.fates with
  | .carries bytes pace :: fates =>
      match parseReply r ⟨wire.connected.incoming ++ bytes, pace, wire.connected.sent ++ r.bytes⟩ with
      | (reply, sock) => (reply, ⟨some sock, fates⟩)
  | fates => (.error (.io (.osError "connection failed")), ⟨wire.sock, fates.tail⟩)

/-- `_run` with this many attempts left. -/
def run (r : Request) : Nat → Prog HostileWire ClientError Value
  | 0 => Prog.raise .unreachable
  | left + 1 => fun wire =>
      match attempt r wire with
      | (.error (.io _), wire) => run r left { wire with sock := none }
      | (reply, wire) => (reply, wire)

end HostileWire

/-- The errors of the client that are a `BrokerError`. -/
def ClientError.IsBrokerError : ClientError → Prop
  | .refused _ _ | .unreachable => True
  | .io _ | .structError | .python _ => False

/-- The value is one that the request asks for. -/
def Value.Answers : Request → Value → Prop
  | .put _ _, value => value = .done
  | .get _, value => ∃ data, value = .blob data
  | .stat _, value => ∃ size, value = .size size
  | .list _, value => ∃ keys, value = .keys keys

def Value.toBlob : Value → Option Bytes
  | .blob data => data
  | _ => none

def Value.toKeys : Value → List String
  | .keys names => names
  | _ => []

/-- The operations of a client, as the two programs call them; `text` renders an error. -/
def overWire (text : ClientError → String) : Broker HostileWire where
  list start := do
    let value ← (HostileWire.run (.list start) maxAttempts).mapError text
    pure value.toKeys
  get key := do
    let value ← (HostileWire.run (.get key) maxAttempts).mapError text
    pure value.toBlob
  put key data := do
    let _ ← (HostileWire.run (.put key data) maxAttempts).mapError text
    pure ()

/-! ## What an attempt raises -/

/-- An operation that the receiver calls. -/
def Request.Reads : Request → Prop
  | .get _ | .list _ => True
  | .put _ _ | .stat _ => False

/-- What a reply can raise: it is retried, or it is a `BrokerError`. -/
def ClientError.FromReply (e : ClientError) : Prop := (∃ failure, e = .io failure) ∨ e.IsBrokerError

theorem io_recvFrame_raises : Prog.Raises ClientError.FromReply (io recvFrame) := by
  intro conn e failed
  rcases frame_or_unframed conn.incoming with ⟨payload, rest, fits, arrived⟩ | cut
  · obtain ⟨after, read, _⟩ := recvFrame_complete fits arrived
    rw [io_ok read] at failed
    cases failed
  · obtain ⟨failure, after, read⟩ := io_truncated cut
    rw [read] at failed
    cases failed
    exact .inl ⟨failure, rfl⟩

theorem parseReply_raises {r : Request} (reads : r.Reads) :
    Prog.Raises ClientError.FromReply (parseReply r) := by
  cases r with
  | get key =>
      refine io_recvFrame_raises.bind fun status => ?_
      split
      · exact Prog.Raises.pure _
      · split
        · exact .raise (.inr trivial)
        · exact io_recvFrame_raises.bind fun data => Prog.Raises.pure _
  | list start =>
      refine io_recvFrame_raises.bind fun status => ?_
      split
      · exact .raise (.inr trivial)
      · exact io_recvFrame_raises.bind fun body => Prog.Raises.pure _
  | put key data => exact absurd reads id
  | stat key => exact absurd reads id

theorem parseReply_returns {r : Request} (reads : r.Reads) : Prog.Returns (Value.Answers r) (parseReply r) := by
  cases r with
  | get key =>
      refine .bind _ fun status => ?_
      split
      · exact .pure ⟨none, rfl⟩
      · split
        · exact .raise _
        · exact .bind _ fun data => .pure ⟨some data, rfl⟩
  | list start =>
      refine .bind _ fun status => ?_
      split
      · exact .raise _
      · exact .bind _ fun body => .pure ⟨_, rfl⟩
  | put key data => exact absurd reads id
  | stat key => exact absurd reads id

/-! ## What a call raises -/

namespace HostileWire

variable {r : Request}

/-- An attempt is one that is retried, or it ends the call. -/
theorem attempt_cases (reads : r.Reads) (wire : HostileWire) :
    (∃ failure wire', attempt r wire = (.error (.io failure), wire')) ∨
      ∃ reply wire', attempt r wire = (reply, wire') ∧
        ((∃ value, reply = .ok value ∧ value.Answers r) ∨ ∃ e, reply = .error e ∧ e.IsBrokerError) := by
  unfold attempt
  split
  · rename_i bytes pace fates _
    let conn : Sock := ⟨wire.connected.incoming ++ bytes, pace, wire.connected.sent ++ r.bytes⟩
    have raises := parseReply_raises reads conn
    have returns := parseReply_returns reads conn
    cases read : parseReply r conn with
    | mk reply after =>
        rw [read] at raises returns
        cases reply with
        | ok value => exact .inr ⟨.ok value, ⟨some after, fates⟩, rfl, .inl ⟨value, rfl, returns value rfl⟩⟩
        | error e =>
            rcases raises e rfl with ⟨failure, rfl⟩ | broker
            · exact .inl ⟨failure, ⟨some after, fates⟩, rfl⟩
            · exact .inr ⟨.error e, ⟨some after, fates⟩, rfl, .inr ⟨e, rfl, broker⟩⟩
  · exact .inl ⟨_, _, rfl⟩

/-- A GET or a LIST returns what it asks for or raises a `BrokerError`. -/
theorem run_cases (reads : r.Reads) (left : Nat) (wire : HostileWire) :
    (∃ value, (run r left wire).1 = .ok value ∧ value.Answers r) ∨
      ∃ e, (run r left wire).1 = .error e ∧ e.IsBrokerError := by
  induction left generalizing wire with
  | zero => exact .inr ⟨.unreachable, rfl, trivial⟩
  | succ left ih =>
      rw [run]
      rcases attempt_cases reads wire with ⟨failure, wire', retried⟩ | ⟨reply, wire', ended, outcome⟩
      · simp only [retried]
        exact ih _
      · simp only [ended]
        rcases outcome with ⟨value, rfl, answers⟩ | ⟨e, rfl, broker⟩
        · exact .inl ⟨value, rfl, answers⟩
        · cases e with
          | io failure => exact absurd broker id
          | structError => exact absurd broker id
          | python e => exact absurd broker id
          | refused r reply => exact .inr ⟨_, rfl, broker⟩
          | unreachable => exact .inr ⟨_, rfl, broker⟩

end HostileWire

end SecureTransfer.ApproachB
