import SecureTransfer.Library.Program
import Mathlib.Data.List.Basic

/-! # Clients of one server

A client asks a server, one command after the other, and the replies decide what it asks
next and how it ends. Clients that share a server take turns in any order; one whose
commands the others do not disturb gets the replies of a server of its own.
-/

namespace SecureTransfer.Library

variable {C : Type} {R : C → Type} {α β σ τ κ ω : Type}

inductive Client (C : Type) (R : C → Type) (α : Type) where
  | done (a : α)
  | ask (c : C) (next : R c → Client C R α)

namespace Client

def bind : Client C R α → (α → Client C R β) → Client C R β
  | done a, f => f a
  | ask c next, f => ask c fun r => (next r).bind f

/-- A whole run of the client at a server that serves no other. -/
def play (server : ∀ c, σ → R c × σ) : Client C R α → σ → α × σ
  | done a, s => (a, s)
  | ask c next, s => play server (next (server c s).1) (server c s).2

/-- `Q` holds of every command of that run, at the state it finds. -/
def Along (server : ∀ c, σ → R c × σ) (Q : C → σ → Prop) : Client C R α → σ → Prop
  | done _, _ => True
  | ask c next, s => Q c s ∧ Along server Q (next (server c s).1) (server c s).2

theorem play_bind (server : ∀ c, σ → R c × σ) (m : Client C R α) (f : α → Client C R β) (s : σ) :
    (m.bind f).play server s = (f (m.play server s).1).play server (m.play server s).2 := by
  induction m generalizing s with
  | done a => rfl
  | ask c next ih => exact ih _ _

/-- Two servers, one of which does to the image of a state what the other does to the state. -/
theorem play_map {server : ∀ c, σ → R c × σ} {server' : ∀ c, τ → R c × τ} {f : σ → τ}
    (same : ∀ c s, server' c (f s) = ((server c s).1, f (server c s).2)) (m : Client C R α) (s : σ) :
    m.play server' (f s) = ((m.play server s).1, f (m.play server s).2) := by
  induction m generalizing s with
  | done a => rfl
  | ask c next ih =>
      rw [play, same]
      exact ih _ _

/-- A server that gives fixed replies and writes the commands down. -/
private def logging (reply : ∀ c, R c) (c : C) (log : List C) : R c × List C := (reply c, log ++ [c])

private theorem play_logging (reply : ∀ c, R c) (m : Client C R α) (log : List C) :
    log <+: (m.play (logging reply) log).2 := by
  induction m generalizing log with
  | done a => exact List.prefix_rfl
  | ask c next ih => exact (List.prefix_append _ _).trans (ih _ _)

open Classical in
/-- A server that gives its first reply before `server` takes its place. -/
private noncomputable def opening (server : ∀ c, σ → R c × σ) (s : σ) (reply : ∀ c, R c) (c : C) :
    Option σ → R c × Option σ
  | none => (reply c, some s)
  | some s => ((server c s).1, some (server c s).2)

open Classical in
/-- A client is what it does: two that do the same at every server are one. -/
theorem eq_of_play [∀ c, Nonempty (R c)] {m m' : Client C R α}
    (same : ∀ (σ : Type) (server : ∀ c, σ → R c × σ) s, m.play server s = m'.play server s) : m = m' := by
  let reply (c : C) : R c := Classical.arbitrary _
  have asked : ∀ c (next : R c → Client C R α), [c] <+: ((ask c next).play (logging reply) []).2 :=
    fun c next => play_logging reply (next (reply c)) [c]
  have silent : ∀ c (a : α), ¬ [c] <+: ((done a : Client C R α).play (logging reply) []).2 := by
    rintro c a ⟨_, h⟩
    exact List.cons_ne_nil _ _ h
  induction m generalizing m' with
  | done a =>
      have logs := same _ (logging reply) []
      cases m' with
      | done b => exact congrArg done (Prod.mk.inj logs).1
      | ask c next => exact absurd (logs ▸ asked c next) (silent c a)
  | ask c next ih =>
      have logs := same _ (logging reply) []
      cases m' with
      | done b => exact absurd (logs ▸ asked c next) (silent c b)
      | ask c' next' =>
          obtain rfl : c = c' := by
            have mine := asked c next
            rw [logs] at mine
            have heads := List.prefix_of_prefix_length_le mine (asked c' next') (Nat.le_refl _)
            exact List.singleton_inj.mp (heads.eq_of_length rfl)
          refine congrArg (ask c) (funext fun r => ih r fun σ server s => ?_)
          let server' := opening server s (Function.update reply c r)
          have first : ∀ next : R c → Client C R α, (ask c next).play server' none =
              (((next r).play server s).1, some ((next r).play server s).2) := by
            intro next
            have given : Function.update reply c r c = r := Function.update_self ..
            have after : ∀ c s, server' c (some s) = ((server c s).1, some (server c s).2) := fun _ _ => rfl
            have rest := play_map after (next r) s
            rw [← rest]
            change (next (Function.update reply c r c)).play server' (some s) = _
            rw [given]
          have turn := same _ server' none
          rw [first, first] at turn
          exact Prod.ext (Prod.mk.inj turn).1 (Option.some.inj (Prod.mk.inj turn).2)

/-! ## Protocols -/

/-- What a client may ask depends on what it knows, and it learns from every reply. -/
structure Protocol (κ C : Type) (R : C → Type) where
  may : κ → C → Prop
  learn : κ → (c : C) → R c → κ

/-- From knowledge `k` the client keeps to the protocol whatever the replies are, and ends
    with a value and knowledge in `Post`. -/
inductive Follows (p : Protocol κ C R) (Post : α → κ → Prop) : κ → Client C R α → Prop where
  | done {k : κ} {a : α} (post : Post a k) : Follows p Post k (done a)
  | ask {k : κ} {c : C} {next : R c → Client C R α} (may : p.may k c)
      (later : ∀ r, Follows p Post (p.learn k c r) (next r)) : Follows p Post k (ask c next)

namespace Follows

variable {p : Protocol κ C R} {k : κ} {Post : α → κ → Prop} {Post' : β → κ → Prop}

theorem bind {m : Client C R α} {f : α → Client C R β} (first : Follows p Post k m)
    (second : ∀ a k, Post a k → Follows p Post' k (f a)) : Follows p Post' k (m.bind f) := by
  induction first with
  | done post => exact second _ _ post
  | ask may _ ih => exact .ask may ih

theorem of_done {a : α} (h : Follows p Post k (Client.done a)) : Post a k := by
  cases h with
  | done post => exact post

theorem of_ask {c : C} {next : R c → Client C R α} (h : Follows p Post k (Client.ask c next)) :
    p.may k c ∧ ∀ r, Follows p Post (p.learn k c r) (next r) := by
  cases h with
  | ask may later => exact ⟨may, later⟩

/-- An invariant of knowledge and server holds along the run. -/
theorem along {server : ∀ c, σ → R c × σ} {Q : C → σ → Prop} (Inv : κ → σ → Prop) {m : Client C R α} {s : σ}
    (each : ∀ k s c, Inv k s → p.may k c → Q c s ∧ Inv (p.learn k c (server c s).1) (server c s).2)
    (h : Follows p Post k m) (inv : Inv k s) : m.Along server Q s := by
  induction h generalizing s with
  | done => exact trivial
  | ask may _ ih =>
      obtain ⟨here, later⟩ := each _ _ _ inv may
      exact ⟨here, ih _ later⟩

/-- What a client keeps to it keeps to from less knowledge, where that suffices. -/
theorem transfer {η : Type} {q : Protocol η C R} (Less : κ → η → Prop) {Post' : α → η → Prop}
    (may : ∀ k k' c, Less k k' → p.may k c → q.may k' c)
    (learn : ∀ k k' c r, Less k k' → p.may k c → Less (p.learn k c r) (q.learn k' c r))
    (post : ∀ k k' a, Less k k' → Post a k → Post' a k') {m : Client C R α} {k' : η} (less : Less k k')
    (h : Follows p Post k m) : Follows q Post' k' m := by
  induction h generalizing k' with
  | done here => exact .done (post _ _ _ less here)
  | ask here _ ih => exact .ask (may _ _ _ less here) fun r => ih r (learn _ _ _ r less here)

end Follows

/-- The protocol of a client that may always ask the same. -/
def Protocol.asking (own : C → Prop) : Protocol Unit C R where
  may _ := own
  learn _ _ _ := ()

/-- The protocol of a client that asks no more after the first reply that is an error. -/
def Protocol.stopping {ε : Type} (own : C → Prop) (error : ∀ c, R c → Option ε) : Protocol (Option ε) C R where
  may seen c := seen = none ∧ own c
  learn _ := error

namespace Follows

variable {ε : Type} {own : C → Prop} {error : ∀ c, R c → Option ε} {Post : α → Option ε → Prop}
  {m : Client C R α} {seen : Option ε}

theorem asks (h : Follows (.stopping own error) Post seen m) : Follows (.asking own) (fun _ _ => True) () m :=
  h.transfer (fun _ _ => True) (fun _ _ _ _ => And.right) (fun _ _ _ _ _ _ => trivial)
    (fun _ _ _ _ _ => trivial) trivial

/-- After an error it ends. -/
theorem stopped {e : ε} (h : Follows (.stopping own error) Post seen m) (replied : seen = some e) :
    ∃ a, m = .done a ∧ Post a (some e) := by
  subst replied
  cases m with
  | done a => exact ⟨a, rfl, h.of_done⟩
  | ask c next => cases h.of_ask.1.1

/-- It ends after an error, or it did not see where another server replies without errors. -/
theorem stops {server : ∀ c, σ → R c × σ} (server' : ∀ c, σ → R c × σ)
    (same : ∀ c s, own c → error c (server c s).1 = none → server' c s = server c s)
    (h : Follows (.stopping own error) Post none m) (s : σ) :
    (∃ e, Post (m.play server s).1 (some e)) ∨ m.play server' s = m.play server s := by
  generalize none_seen : none = seen at h
  induction h generalizing s with
  | done => exact .inr rfl
  | @ask seen c next may later ih =>
      rw [play]
      cases replied : error c (server c s).1 with
      | none =>
          have reply := same c s may.2 replied
          rw [play, reply]
          exact ih _ _ replied.symm
      | some e =>
          obtain ⟨a, rest, post⟩ := stopped (later _) replied
          rw [rest]
          exact .inl ⟨e, post⟩

/-- Where another server replies with an error to what is not in `Q`, a run that sees none is in `Q`
    along the way. -/
theorem unstopped (server : ∀ c, σ → R c × σ) {strict : ∀ c, σ → R c × σ} {Q : C → σ → Prop}
    (same : ∀ c s, Q c s → strict c s = server c s) (fails : ∀ c s, ¬ Q c s → error c (strict c s).1 ≠ none)
    (h : Follows (.stopping own error) Post none m) (s : σ) :
    (∃ e, Post (m.play strict s).1 (some e)) ∨ (m.Along server Q s ∧ m.play strict s = m.play server s) := by
  generalize none_seen : none = seen at h
  induction h generalizing s with
  | done => exact .inr ⟨trivial, rfl⟩
  | @ask seen c next may later ih =>
      rw [play]
      cases replied : error c (strict c s).1 with
      | none =>
          have here : Q c s := by_contra fun other => fails c s other replied
          rw [same c s here] at replied ⊢
          exact (ih _ _ replied.symm).imp_right fun run => ⟨⟨here, run.1⟩, run.2⟩
      | some e =>
          obtain ⟨a, rest, post⟩ := stopped (later _) replied
          rw [rest]
          exact .inl ⟨e, post⟩

end Follows

end Client

/-! ## Turns -/

section Sharing

variable {ι : Type} {γ : ι → Type}

/-- A server and its clients. -/
structure Sharing (C : Type) (R : C → Type) (γ : ι → Type) (σ : Type) where
  server : σ
  clients : ∀ i, Client C R (γ i)

variable [DecidableEq ι]

namespace Sharing

variable {s : Sharing C R γ σ} {server : σ} {i j : ι} {client : Client C R (γ i)}

/-- The client `i` goes on as `client`. -/
def goOn (s : Sharing C R γ σ) (server : σ) (i : ι) (client : Client C R (γ i)) : Sharing C R γ σ where
  server := server
  clients := Function.update s.clients i client

@[simp] theorem goOn_server : (s.goOn server i client).server = server := rfl

@[simp] theorem goOn_self : (s.goOn server i client).clients i = client := Function.update_self ..

@[simp] theorem goOn_other (other : j ≠ i) : (s.goOn server i client).clients j = s.clients j :=
  Function.update_of_ne other ..

theorem goOn_goOn {server' : σ} {client' : Client C R (γ i)} :
    (s.goOn server i client).goOn server' i client' = s.goOn server' i client' := by
  rw [goOn, goOn, Function.update_idem]
  rfl

end Sharing

/-- A client gets its next reply; the choice in `ω` is the server's. -/
inductive Sharing.Turn (serve : ω → ∀ c, σ → R c × σ) (s : Sharing C R γ σ) : Sharing C R γ σ → Prop where
  | serve (i : ι) (o : ω) {c : C} {next : R c → Client C R (γ i)} (asks : s.clients i = .ask c next) :
      Sharing.Turn serve s (s.goOn (serve o c s.server).2 i (next (serve o c s.server).1))

variable {serve : ω → ∀ c, σ → R c × σ} {s s' : Sharing C R γ σ}

/-- A server of one's own, with the choices written down beforehand. -/
def Sharing.scripted (serve : ω → ∀ c, σ → R c × σ) (usual : ω) (c : C) (b : σ × List ω) : R c × (σ × List ω) :=
  ((serve (b.2.headD usual) c b.1).1, ((serve (b.2.headD usual) c b.1).2, b.2.tail))

/-- A client may have its whole run while the others wait. -/
theorem Sharing.Turn.uninterrupted (serve : ω → ∀ c, σ → R c × σ) (usual : ω) (s : Sharing C R γ σ) (i : ι)
    (script : List ω) : Relation.ReflTransGen (Sharing.Turn serve) s (s.goOn
      ((s.clients i).play (Sharing.scripted serve usual) (s.server, script)).2.1 i
      (.done ((s.clients i).play (Sharing.scripted serve usual) (s.server, script)).1)) := by
  generalize client : s.clients i = m
  induction m generalizing s script with
  | done a =>
      have same : s.goOn s.server i (.done a) = s := by
        rw [← client, Sharing.goOn, Function.update_eq_self]
      rw [Client.play, same]
  | ask c next ih =>
      have turn : Sharing.Turn serve s _ := .serve i (script.headD usual) client
      have later := ih _ (s.goOn (serve (script.headD usual) c s.server).2 i
        (next (serve (script.headD usual) c s.server).1)) script.tail Sharing.goOn_self
      rw [Sharing.goOn_server, Sharing.goOn_goOn] at later
      exact .head turn later

/-- **Isolation.** If a client's own commands find and leave what it `Sees` of the shared server
    as at a server of its own, and the commands of the others do not touch that, then in every
    run it gets where it gets alone. -/
theorem Sharing.Turn.isolated (own : ι → C → Prop) (Sees : ι → σ → σ → Prop) (usual : ω)
    (mine : ∀ i c o server lone, own i c → Sees i server lone →
      (serve o c server).1 = (serve o c lone).1 ∧ Sees i (serve o c server).2 (serve o c lone).2)
    (others : ∀ i j c o server lone, j ≠ i → own j c → Sees i server lone → Sees i (serve o c server).2 lone)
    {lone : ι → σ} (start : ∀ i, Sees i s.server (lone i)) {Post : ∀ i, γ i → Unit → Prop}
    (follows : ∀ i, (s.clients i).Follows (.asking (own i)) (Post i) ())
    (run : Relation.ReflTransGen (Sharing.Turn serve) s s') (i : ι) :
    ∃ script after, Sees i s'.server after ∧ ∀ rest,
      (s.clients i).play (Sharing.scripted serve usual) (lone i, script ++ rest) =
        (s'.clients i).play (Sharing.scripted serve usual) (after, rest) := by
  suffices alone : (∀ j, (s'.clients j).Follows (.asking (own j)) (Post j) ()) ∧
      ∃ script after, Sees i s'.server after ∧ ∀ rest,
        (s.clients i).play (Sharing.scripted serve usual) (lone i, script ++ rest) =
          (s'.clients i).play (Sharing.scripted serve usual) (after, rest) from alone.2
  induction run with
  | refl => exact ⟨follows, [], lone i, start i, fun _ => rfl⟩
  | @tail a b _ turn ih =>
      obtain ⟨follows, script, after, sees, same⟩ := ih
      obtain ⟨j, o, asks⟩ := turn
      have asked := follows j
      rw [asks] at asked
      obtain ⟨may, later⟩ := asked.of_ask
      constructor
      · intro k
        by_cases here : k = j
        · subst here
          rw [Sharing.goOn_self]
          exact later _
        · rw [Sharing.goOn_other here]
          exact follows k
      by_cases here : i = j
      · subst here
        obtain ⟨reply, sees'⟩ := mine i _ o _ _ may sees
        refine ⟨script ++ [o], _, sees', fun rest => ?_⟩
        rw [List.append_assoc, same, asks, Sharing.goOn_self, reply]
        rfl
      · refine ⟨script, after, others i j _ o _ _ (Ne.symm here) may sees, fun rest => ?_⟩
        rw [same, Sharing.goOn_other here]

end Sharing

end SecureTransfer.Library
