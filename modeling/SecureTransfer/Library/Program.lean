import Mathlib.Logic.Function.Basic
import Mathlib.Logic.Relation
import Mathlib.Order.Defs.Unbundled

/-! # Programs with a state and exceptions

`Prog σ ε α` embeds imperative code that works on a state and may raise. What a
program did to its state before it raised stays done, as files stay written when
an exception unwinds. Two kinds of rules are kept here: inversion of a bind into
the runs of its parts, and `Within`, which bounds what a program may do to the
state by a preorder and composes along binds. The last section is for systems:
a family of states of which one changes, and the invariant rule for one run after the other.
-/

namespace SecureTransfer.Library

/-- A program over the state `σ` that returns an `α` or raises an `ε`. -/
def Prog (σ ε α : Type) : Type := σ → Except ε α × σ

namespace Prog

variable {σ ε α β : Type}

instance : Monad (Prog σ ε) where
  pure a := fun s => (.ok a, s)
  bind m f := fun s =>
    match m s with
    | (.ok a, t) => f a t
    | (.error e, t) => (.error e, t)

def raise (e : ε) : Prog σ ε α := fun s => (.error e, s)

def ofExcept (r : Except ε α) : Prog σ ε α := fun s => (r, s)

def get : Prog σ ε σ := fun s => (.ok s, s)

def update (f : σ → σ) : Prog σ ε Unit := fun s => (.ok (), f s)

/-- `if not c: raise e`. -/
def require (c : Prop) [Decidable c] (e : ε) : Prog σ ε Unit :=
  fun s => (if c then .ok () else .error e, s)

/-- Run a program on the part of a larger state that `read` and `write` reach. -/
def zoom {τ : Type} (read : τ → σ) (write : σ → τ → τ) (m : Prog σ ε α) : Prog τ ε α := fun s =>
  match m (read s) with
  | (r, part) => (r, write part s)

/-- `except E as e: raise F`. -/
def mapError {η : Type} (f : ε → η) (m : Prog σ ε α) : Prog σ η α := fun s =>
  match m s with
  | (.ok a, t) => (.ok a, t)
  | (.error e, t) => (.error (f e), t)

@[simp] theorem pure_run (a : α) (s : σ) : (pure a : Prog σ ε α) s = (.ok a, s) := rfl

@[simp] theorem ofExcept_run (r : Except ε α) (s : σ) : ofExcept r s = (r, s) := rfl

@[simp] theorem get_run (s : σ) : (get : Prog σ ε σ) s = (.ok s, s) := rfl

@[simp] theorem update_run (f : σ → σ) (s : σ) : (update f : Prog σ ε Unit) s = (.ok (), f s) := rfl

@[simp] theorem require_run (c : Prop) [Decidable c] (e : ε) (s : σ) :
    (require c e : Prog σ ε Unit) s = (if c then .ok () else .error e, s) := rfl

theorem require_congr {c d : Prop} [Decidable c] [Decidable d] (same : c ↔ d) (e : ε) :
    (require c e : Prog σ ε Unit) = require d e := by
  funext s
  exact Prod.ext (if_congr same rfl rfl) rfl

theorem zoom_run {τ : Type} {read : τ → σ} {write : σ → τ → τ} {m : Prog σ ε α} {s : τ} {t : σ}
    {r : Except ε α} (h : m (read s) = (r, t)) : zoom read write m s = (r, write t s) := by
  simp only [zoom, h]

theorem bind_run (m : Prog σ ε α) (f : α → Prog σ ε β) (s : σ) :
    (m >>= f) s =
      match m s with
      | (.ok a, t) => f a t
      | (.error e, t) => (.error e, t) := rfl

theorem bind_ok {m : Prog σ ε α} {s t : σ} {a : α} (h : m s = (.ok a, t)) (f : α → Prog σ ε β) :
    (m >>= f) s = f a t := by
  simp only [bind_run, h]

theorem bind_error {m : Prog σ ε α} {s t : σ} {e : ε} (h : m s = (.error e, t))
    (f : α → Prog σ ε β) : (m >>= f) s = (.error e, t) := by
  simp only [bind_run, h]

theorem bind_congr {m : Prog σ ε α} {s t : σ} (h : m s = m t) (f : α → Prog σ ε β) :
    (m >>= f) s = (m >>= f) t := by
  rw [bind_run, bind_run, h]

/-- A bind either raises in its first part or hands a value and a state to its
    second part. -/
theorem bind_cases {m : Prog σ ε α} {f : α → Prog σ ε β} {s t : σ} {r : Except ε β}
    (h : (m >>= f) s = (r, t)) :
    (∃ e, m s = (.error e, t) ∧ r = .error e) ∨ ∃ a u, m s = (.ok a, u) ∧ f a u = (r, t) := by
  rw [bind_run] at h
  cases hm : m s with
  | mk first u =>
      cases first with
      | error e =>
          rw [hm] at h
          obtain ⟨rfl, rfl⟩ := Prod.mk.inj h
          exact .inl ⟨e, rfl, rfl⟩
      | ok a =>
          rw [hm] at h
          exact .inr ⟨a, u, rfl, h⟩

theorem bind_eq_ok {m : Prog σ ε α} {f : α → Prog σ ε β} {s t : σ} {b : β}
    (h : (m >>= f) s = (.ok b, t)) : ∃ a u, m s = (.ok a, u) ∧ f a u = (.ok b, t) := by
  rcases bind_cases h with ⟨e, _, absurd⟩ | found
  · cases absurd
  · exact found

/-- Through a lens a sequence of programs is the sequence of what they do there. -/
theorem zoom_bind {τ : Type} {read : τ → σ} {write : σ → τ → τ}
    (read_write : ∀ part t, read (write part t) = part)
    (write_write : ∀ part part' t, write part' (write part t) = write part' t)
    (m : Prog σ ε α) (f : α → Prog σ ε β) :
    zoom read write (m >>= f) = zoom read write m >>= fun a => zoom read write (f a) := by
  funext t
  cases first : m (read t) with
  | mk r part =>
      have here : zoom read write m t = (r, write part t) := zoom_run first
      cases r with
      | error e => rw [zoom_run (bind_error first f), bind_error here]
      | ok a =>
          cases second : f a part with
          | mk out part' =>
              have there : f a (read (write part t)) = (out, part') := by rw [read_write, second]
              rw [zoom_run ((bind_ok first f).trans second), bind_ok here, zoom_run there, write_write]

/-- Every run of `m`, returning or raising, relates the state before to the state
    after by `R`. -/
def Within (R : σ → σ → Prop) (m : Prog σ ε α) : Prop := ∀ s, R s (m s).2

namespace Within

variable {R : σ → σ → Prop} {m : Prog σ ε α} {f : α → Prog σ ε β}

theorem run (h : Within R m) {s t : σ} {r : Except ε α} (hr : m s = (r, t)) : R s t := by
  simpa only [hr] using h s

theorem pure [Std.Refl R] (a : α) : Within R (Pure.pure a : Prog σ ε α) := fun s => Std.Refl.refl s

theorem raise [Std.Refl R] (e : ε) : Within R (Prog.raise e : Prog σ ε α) := fun s => Std.Refl.refl s

theorem ofExcept [Std.Refl R] (r : Except ε α) : Within R (Prog.ofExcept r : Prog σ ε α) :=
  fun s => Std.Refl.refl s

theorem require [Std.Refl R] (c : Prop) [Decidable c] (e : ε) :
    Within R (Prog.require c e : Prog σ ε Unit) := fun s => Std.Refl.refl s

theorem get [Std.Refl R] : Within R (Prog.get : Prog σ ε σ) := fun s => Std.Refl.refl s

theorem bind [IsTrans σ R] (hm : Within R m) (hf : ∀ a, Within R (f a)) : Within R (m >>= f) := by
  intro s
  cases h : (m >>= f) s with
  | mk r t =>
      rcases bind_cases h with ⟨e, first, _⟩ | ⟨a, u, first, second⟩
      · exact hm.run first
      · exact IsTrans.trans _ _ _ (hm.run first) ((hf a).run second)

theorem ite {c : Prop} [Decidable c] {n : Prog σ ε α} (hm : Within R m) (hn : Within R n) :
    Within R (if c then m else n) := by
  split
  · exact hm
  · exact hn

end Within

/-- Whatever `m` raises, from any state, is an `E`. -/
def Raises (E : ε → Prop) (m : Prog σ ε α) : Prop := ∀ s e, (m s).1 = .error e → E e

namespace Raises

variable {E : ε → Prop} {m : Prog σ ε α} {f : α → Prog σ ε β}

theorem pure (a : α) : Raises E (Pure.pure a : Prog σ ε α) := nofun

theorem get : Raises E (Prog.get : Prog σ ε σ) := nofun

theorem update (f : σ → σ) : Raises E (Prog.update f : Prog σ ε Unit) := nofun

theorem raise {e : ε} (h : E e) : Raises E (Prog.raise e : Prog σ ε α) := by
  intro s e' failed
  cases failed
  exact h

theorem ofExcept {r : Except ε α} (h : ∀ e, r = .error e → E e) : Raises E (Prog.ofExcept r : Prog σ ε α) :=
  fun _ e failed => h e failed

theorem bind (hm : Raises E m) (hf : ∀ a, Raises E (f a)) : Raises E (m >>= f) := by
  intro s e failed
  cases run : (m >>= f) s with
  | mk r t =>
      rw [run] at failed
      obtain rfl : r = .error e := failed
      rcases bind_cases run with ⟨e', first, same⟩ | ⟨a, u, first, second⟩
      · cases same
        exact hm s e (by rw [first])
      · exact hf a u e (by rw [second])

theorem ite {c : Prop} [Decidable c] {n : Prog σ ε α} (hm : Raises E m) (hn : Raises E n) :
    Raises E (if c then m else n) := by
  split
  · exact hm
  · exact hn

end Raises

/-- From a state in `I`, `m` stays in `I`, and whatever it raises is an `E`. -/
def RaisesFrom (I : σ → Prop) (E : ε → Prop) (m : Prog σ ε α) : Prop :=
  ∀ s, I s → I (m s).2 ∧ ∀ e, (m s).1 = .error e → E e

namespace RaisesFrom

variable {I : σ → Prop} {E : ε → Prop} {m : Prog σ ε α} {f : α → Prog σ ε β}

theorem pure (a : α) : RaisesFrom I E (Pure.pure a : Prog σ ε α) := fun _ inside => ⟨inside, nofun⟩

theorem get : RaisesFrom I E (Prog.get : Prog σ ε σ) := fun _ inside => ⟨inside, nofun⟩

theorem ofExcept {r : Except ε α} (h : ∀ e, r = .error e → E e) : RaisesFrom I E (Prog.ofExcept r : Prog σ ε α) :=
  fun _ inside => ⟨inside, h⟩

theorem update {g : σ → σ} (h : ∀ s, I s → I (g s)) : RaisesFrom I E (Prog.update g : Prog σ ε Unit) :=
  fun s inside => ⟨h s inside, nofun⟩

theorem bind (hm : RaisesFrom I E m) (hf : ∀ a, RaisesFrom I E (f a)) : RaisesFrom I E (m >>= f) := by
  intro s inside
  obtain ⟨kept, raises⟩ := hm s inside
  cases run : m s with
  | mk r t =>
      rw [run] at kept raises
      cases r with
      | error e =>
          rw [bind_error run]
          exact ⟨kept, fun e' same => raises e' (by cases same; rfl)⟩
      | ok a =>
          rw [bind_ok run]
          exact hf a t kept

end RaisesFrom

/-- Whatever `m` returns, from any state, is a `Q`. -/
def Returns (Q : α → Prop) (m : Prog σ ε α) : Prop := ∀ s a, (m s).1 = .ok a → Q a

namespace Returns

variable {Q : β → Prop}

theorem pure {b : β} (h : Q b) : Returns Q (Pure.pure b : Prog σ ε β) := by
  intro s b' returned
  cases returned
  exact h

theorem raise (e : ε) : Returns Q (Prog.raise e : Prog σ ε β) := nofun

theorem bind {f : α → Prog σ ε β} (m : Prog σ ε α) (hf : ∀ a, Returns Q (f a)) : Returns Q (m >>= f) := by
  intro s b returned
  cases run : (m >>= f) s with
  | mk r t =>
      rw [run] at returned
      obtain rfl : r = .ok b := returned
      obtain ⟨a, u, _, second⟩ := bind_eq_ok run
      exact hf a u b (by rw [second])

end Returns

end Prog

/-! ## Systems that step -/

/-- After one member of a family changed, a member is the new one or an old one. -/
theorem update_cases {ι σ : Type} [DecidableEq ι] {states : ι → σ} {i j : ι} {new found : σ}
    (here : Function.update states i new j = found) :
    (j = i ∧ new = found) ∨ (j ≠ i ∧ states j = found) := by
  by_cases same : j = i
  · rw [same, Function.update_self] at here
    exact .inl ⟨same, here⟩
  · rw [Function.update_of_ne same] at here
    exact .inr ⟨same, here⟩

variable {α : Type} {Step : α → α → Prop} {Inv : α → Prop}

def Preserves (Step : α → α → Prop) (Inv : α → Prop) : Prop := ∀ a b, Inv a → Step a b → Inv b

/-- What holds at the start and is preserved by every step holds after every run. -/
theorem Preserves.run (step : Preserves Step Inv) {a b : α} (start : Inv a)
    (run : Relation.ReflTransGen Step a b) : Inv b := by
  induction run with
  | refl => exact start
  | tail _ last ih => exact step _ _ ih last

end SecureTransfer.Library
