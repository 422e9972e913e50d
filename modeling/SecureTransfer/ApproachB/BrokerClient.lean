import SecureTransfer.ApproachB.Envelope

/-! # The broker behind its client, and what ends a run

A broker is any machine that answers PUT, GET and LIST from a state of its own, so a
run against an arbitrary one is a run against an adaptive adversary. Retries are
inside an operation: it is answered, or it raises `BrokerError`.
-/

namespace SecureTransfer.ApproachB

open Library

/-- The broker as `BrokerClient` shows it: an error is a `BrokerError`. -/
structure Broker (β : Type) where
  list : String → Prog β String (List String)
  get : String → Prog β String (Option Bytes)
  put : String → Bytes → Prog β String Unit

/-- Why a transfer is rejected. -/
inductive Rejection where
  | noTransfers
  | multipleTransfers (ids : List String)
  | notFound
  | signatureInvalid
  | unsupportedVersion (version : Option Json)
  | transferIdMismatch
  | stale (age : Int)
  | future
  | alreadyCompleted
  | chunkListIncomplete
  | chunkMissing (index : Nat)
  | chunkTampered (index : Nat)
  | chunkTagInvalid (index : Nat)
  | chunkLengthMismatch (index : Nat)
  | sizeMismatch
  | digestMismatch (actual : String) (expected : Json)

/-- The message of the `VerificationError`; `repr` and `str` print a JSON value. -/
def Rejection.text (repr str : Option Json → String) : Rejection → String
  | .noTransfers => "broker holds no transfers"
  | .multipleTransfers ids =>
      "broker holds multiple transfers; pass --transfer-id <hex>:\n  " ++ "\n  ".intercalate ids
  | .notFound => "manifest or signature not found on broker"
  | .signatureInvalid => "manifest signature INVALID -- not from the trusted sender, or tampered"
  | .unsupportedVersion version => "unsupported manifest version " ++ repr version
  | .transferIdMismatch => "manifest transfer_id does not match requested id"
  | .stale age =>
      s!"manifest is {age}s old (> {freshnessWindowS}s window) " ++
        "-- possible replay; use --allow-redeliver to override"
  | .future => "manifest created_at is in the future -- rejected"
  | .alreadyCompleted =>
      "transfer_id already completed here -- replay; use --allow-redeliver to override"
  | .chunkListIncomplete => "manifest chunk list is incomplete or misindexed"
  | .chunkMissing index => s!"chunk {index} missing on broker -- transfer incomplete"
  | .chunkTampered index => s!"chunk {index} ciphertext SHA-256 mismatch -- broker tampered"
  | .chunkTagInvalid index => s!"chunk {index} AEAD tag invalid -- modified or misplaced"
  | .chunkLengthMismatch index => s!"chunk {index} plaintext length mismatch"
  | .sizeMismatch => "reassembled file size does not match manifest"
  | .digestMismatch actual expected =>
      s!"whole-file SHA-256 mismatch:\n  got      {actual}\n  expected " ++ str (some expected)

/-- What ends a run early: the first two are what `main` turns into exit code 1. -/
inductive Raised where
  | verificationError (reason : Rejection)
  | brokerError (message : String)
  | python (error : PyError)

section Programs

variable {σ β α : Type}

def python (r : Except PyError α) : Prog σ Raised α := Prog.ofExcept (r.mapError .python)

/-- A broker operation in a program whose state holds the broker. -/
def callBroker (read : σ → β) (write : β → σ → σ) (m : Prog β String α) : Prog σ Raised α :=
  (Prog.zoom read write m).mapError .brokerError

def reject (reason : Rejection) : Prog σ Raised α := Prog.raise (.verificationError reason)

/-- `if not c: raise VerificationError(reason)`. -/
def verify (c : Prop) [Decidable c] (reason : Rejection) : Prog σ Raised Unit :=
  Prog.require c (.verificationError reason)

@[simp] theorem python_ok (a : α) (s : σ) : python (.ok a) s = (.ok a, s) := rfl

theorem python_run_ok {r : Except PyError α} {a : α} (h : r = .ok a) (s : σ) :
    python r s = (.ok a, s) := by
  rw [h, python_ok]

@[simp] theorem verify_true {c : Prop} [Decidable c] (h : c) (reason : Rejection) (s : σ) :
    verify c reason s = (.ok (), s) := by
  rw [verify, Prog.require_run, if_pos h]

theorem callBroker_ok {read : σ → β} {write : β → σ → σ} {m : Prog β String α} {s : σ} {b : β} {a : α}
    (h : m (read s) = (.ok a, b)) : callBroker read write m s = (.ok a, write b s) := by
  rw [callBroker, Prog.mapError, Prog.zoom_run h]

theorem callBroker_error {read : σ → β} {write : β → σ → σ} {m : Prog β String α} {s : σ} {b : β}
    {message : String} (h : m (read s) = (.error message, b)) :
    callBroker read write m s = (.error (.brokerError message), write b s) := by
  rw [callBroker, Prog.mapError, Prog.zoom_run h]

/-- A conversion raises, or the program goes on with its value. -/
theorem python_bind {r : Except PyError α} {f : α → Prog σ Raised β} {s t : σ}
    {out : Except Raised β} (run : (python r >>= f) s = (out, t)) :
    (∃ e, r = .error e ∧ out = .error (.python e) ∧ t = s) ∨ ∃ a, r = .ok a ∧ f a s = (out, t) := by
  cases r with
  | error e =>
      cases run
      exact .inl ⟨e, rfl, rfl, rfl⟩
  | ok a => exact .inr ⟨a, rfl, run⟩

theorem verify_bind {c : Prop} [Decidable c] {reason : Rejection} {f : Unit → Prog σ Raised β} {s t : σ}
    {out : Except Raised β} (run : (verify c reason >>= f) s = (out, t)) :
    (¬ c ∧ out = .error (.verificationError reason) ∧ t = s) ∨ (c ∧ f () s = (out, t)) := by
  by_cases holds : c
  · rw [Prog.bind_ok (verify_true holds reason s)] at run
    exact .inr ⟨holds, run⟩
  · have failed : verify c reason s = (.error (.verificationError reason), s) := by
      rw [verify, Prog.require_run, if_neg holds]
    rw [Prog.bind_error failed] at run
    cases run
    exact .inl ⟨holds, rfl, rfl⟩

theorem python_bind_ok {r : Except PyError α} {γ : Type} {f : α → Prog σ Raised γ} {s t : σ} {c : γ}
    (run : (python r >>= f) s = (.ok c, t)) : ∃ a, r = .ok a ∧ f a s = (.ok c, t) := by
  cases r with
  | error e => cases run
  | ok a => exact ⟨a, rfl, run⟩

theorem verify_bind_ok {c : Prop} [Decidable c] {reason : Rejection} {f : Unit → Prog σ Raised α}
    {s t : σ} {a : α} (run : (verify c reason >>= f) s = (.ok a, t)) : c ∧ f () s = (.ok a, t) := by
  rcases verify_bind run with ⟨_, failed, _⟩ | later
  · cases failed
  · exact later

theorem verify_ok {c : Prop} [Decidable c] {reason : Rejection} {s t : σ}
    (run : verify c reason s = (.ok (), t)) : c ∧ t = s := by
  rw [verify, Prog.require_run] at run
  split at run
  · rename_i holds
    cases run
    exact ⟨holds, rfl⟩
  · cases run

theorem callBroker_cases {read : σ → β} {write : β → σ → σ} {m : Prog β String α} {s t : σ}
    {out : Except Raised α} (run : callBroker read write m s = (out, t)) :
    ∃ b, t = write b s ∧ ((∃ a, m (read s) = (.ok a, b) ∧ out = .ok a) ∨
      ∃ message, m (read s) = (.error message, b) ∧ out = .error (.brokerError message)) := by
  cases answer : m (read s) with
  | mk reply b =>
      cases reply with
      | ok a =>
          rw [callBroker_ok answer] at run
          cases run
          exact ⟨b, rfl, .inl ⟨a, rfl, rfl⟩⟩
      | error message =>
          rw [callBroker_error answer] at run
          cases run
          exact ⟨b, rfl, .inr ⟨message, rfl, rfl⟩⟩

theorem callBroker_reply {read : σ → β} {write : β → σ → σ} {m : Prog β String α} {s t : σ} {a : α}
    (run : callBroker read write m s = (.ok a, t)) : ∃ b, m (read s) = (.ok a, b) := by
  obtain ⟨b, _, ⟨_, answer, same⟩ | ⟨_, _, failed⟩⟩ := callBroker_cases run
  · cases same
    exact ⟨b, answer⟩
  · cases failed

/-! ### What they raise -/

variable {C : Raised → Prop}

theorem python_raises {r : Except PyError α} (h : ∀ e, r = .error e → C (.python e)) :
    Prog.Raises C (python r : Prog σ Raised α) := by
  refine .ofExcept fun raised failed => ?_
  cases r with
  | error e =>
      cases failed
      exact h e rfl
  | ok a => cases failed

theorem never_python {r : Except PyError α} {a : α} (h : r = .ok a) (e : PyError) (failed : r = .error e) :
    C (.python e) := by
  rw [h] at failed
  cases failed

theorem python_returns {r : Except PyError α} {a : α} (h : r = .ok a) :
    Prog.Raises C (python r : Prog σ Raised α) := python_raises (never_python h)

theorem verify_raises {c : Prop} [Decidable c] {reason : Rejection} (h : C (.verificationError reason)) :
    Prog.Raises C (verify c reason : Prog σ Raised Unit) := by
  intro s raised failed
  rw [verify, Prog.require_run] at failed
  split at failed
  · cases failed
  · cases failed
    exact h

theorem callBroker_raises (h : ∀ message, C (.brokerError message)) (read : σ → β) (write : β → σ → σ)
    (m : Prog β String α) : Prog.Raises C (callBroker read write m) := by
  intro s raised failed
  cases run : callBroker read write m s with
  | mk r t =>
      rw [run] at failed
      obtain ⟨_, _, ⟨a, _, rfl⟩ | ⟨message, _, rfl⟩⟩ := callBroker_cases run
      · cases failed
      · cases failed
        exact h message

end Programs

end SecureTransfer.ApproachB
