import Mathlib.Data.List.Basic
import Mathlib.Data.List.Chain
import Mathlib.Logic.Function.Basic

/-! # Concurrent calls in one order

Calls on an object take several steps each, and the steps of different calls come in any
order. If every step either leaves all outcomes as they are or commits one call, with the
reply and the effect that the object would have given it at once, then every run looks
like one sequence of whole calls: the order in which they committed.
-/

namespace SecureTransfer.Library

section Order

variable {ι ο σ ρ : Type} (apply : ο → σ → ρ × σ) (ops : ι → ο) (initial : σ)

/-- The object after the calls, one after the other. -/
def stateAfter (order : List ι) : σ := order.foldl (fun state i => (apply (ops i) state).2) initial

theorem stateAfter_concat (order : List ι) (i : ι) :
    stateAfter apply ops initial (order ++ [i]) = (apply (ops i) (stateAfter apply ops initial order)).2 := by
  simp only [stateAfter, List.foldl_append, List.foldl_cons, List.foldl_nil]

/-- The calls that have an outcome are those of `order`, and each has the reply that it gets
    when the calls are served in that order. -/
structure Explains (order : List ι) (outcome : ι → Option ρ) : Prop where
  once : order.Nodup
  replies : ∀ i reply, outcome i = some reply ↔ ∃ before after, order = before ++ i :: after ∧
    (apply (ops i) (stateAfter apply ops initial before)).1 = reply

variable {apply ops initial} {order : List ι} {outcome : ι → Option ρ} {i j : ι}

theorem Explains.start (idle : ∀ i, outcome i = none) : Explains apply ops initial [] outcome where
  once := List.nodup_nil
  replies i reply := by
    rw [idle]
    simp

theorem Explains.mem_iff (h : Explains apply ops initial order outcome) : i ∈ order ↔ outcome i ≠ none := by
  constructor
  · intro member
    obtain ⟨before, after, split⟩ := List.append_of_mem member
    rw [(h.replies i _).mpr ⟨before, after, split, rfl⟩]
    exact Option.some_ne_none _
  · intro committed
    obtain ⟨reply, replied⟩ := Option.ne_none_iff_exists'.mp committed
    obtain ⟨before, after, rfl, _⟩ := (h.replies i reply).mp replied
    exact List.mem_append_right _ (List.mem_cons_self ..)

/-- A call that had no outcome commits behind all others. -/
theorem Explains.commit [DecidableEq ι] (h : Explains apply ops initial order outcome) (fresh : outcome i = none) :
    Explains apply ops initial (order ++ [i])
      (Function.update outcome i (some (apply (ops i) (stateAfter apply ops initial order)).1)) := by
  have new : i ∉ order := by
    rw [h.mem_iff, not_not]
    exact fresh
  refine ⟨List.nodup_append.mpr ⟨h.once, List.nodup_cons.mpr ⟨List.not_mem_nil, List.nodup_nil⟩, ?_⟩, ?_⟩
  · rintro j member _ only rfl
    exact new (List.mem_singleton.mp only ▸ member)
  intro j reply
  by_cases here : j = i
  · subst here
    rw [Function.update_self, Option.some_inj]
    constructor
    · rintro rfl
      exact ⟨order, [], rfl, rfl⟩
    · rintro ⟨before, after, split, rfl⟩
      -- the call is nowhere but at the end
      rcases List.eq_nil_or_concat after with rfl | ⟨after, last, rfl⟩
      · rw [List.append_inj_left' split rfl]
      · rw [List.concat_eq_append, ← List.cons_append, ← List.append_assoc] at split
        rw [List.append_inj_left' split rfl] at new
        exact absurd (List.mem_append_right _ (List.mem_cons_self ..)) new
  · rw [Function.update_of_ne here, h.replies]
    constructor
    · rintro ⟨before, after, rfl, replied⟩
      exact ⟨before, after ++ [i], by simp, replied⟩
    · rintro ⟨before, after, split, replied⟩
      rcases List.eq_nil_or_concat after with rfl | ⟨after, last, rfl⟩
      · have ends := List.append_inj_right' split rfl
        exact absurd (List.cons.inj ends).1.symm here
      · rw [List.concat_eq_append, ← List.cons_append, ← List.append_assoc] at split
        exact ⟨before, after, List.append_inj_left' split rfl, replied⟩

/-- Of two calls of which one had an outcome while the other had none, it is the first. -/
theorem Explains.before {past rest : List ι} (now : Explains apply ops initial past outcome)
    (done : outcome i ≠ none) (idle : outcome j = none)
    {before after : List ι} (split : past ++ rest = before ++ j :: after) : i ∈ before := by
  have inside : i ∈ past := now.mem_iff.mpr done
  have outside : j ∉ past := by
    rw [now.mem_iff, not_not]
    exact idle
  rcases List.append_eq_append_iff.mp split with ⟨middle, rfl, _⟩ | ⟨middle, cut, ends⟩
  · exact List.mem_append_left _ inside
  · cases middle with
    | nil =>
        rw [List.append_nil] at cut
        rwa [← cut]
    | cons k middle =>
        obtain rfl : j = k := (List.cons.inj ends).1
        exact absurd (cut ▸ List.mem_append_right _ (List.mem_cons_self ..)) outside

end Order

/-! ## Runs -/

variable {ι ο σ ρ α : Type} [DecidableEq ι] {apply : ο → σ → ρ × σ} {ops : ι → ο} {initial : σ}
  {outcome : α → ι → Option ρ} {Step : α → α → Prop} {Shows : σ → α → Prop}

/-- A step commits at most one call, whose reply and effect are those of the object. -/
def Commits (apply : ο → σ → ρ × σ) (ops : ι → ο) (outcome : α → ι → Option ρ) (Step : α → α → Prop)
    (Shows : σ → α → Prop) : Prop :=
  ∀ state a b, Shows state a → Step a b →
    (outcome b = outcome a ∧ Shows state b) ∨
    ∃ i, outcome a i = none ∧ outcome b = Function.update (outcome a) i (some (apply (ops i) state).1) ∧
      Shows (apply (ops i) state).2 b

/-- **Linearization.** The calls of a run have one order, which explains the outcomes at its
    end, and of which a first part explains the outcomes at each state of the run. -/
theorem Commits.linearize (commits : Commits apply ops outcome Step Shows) {a : α} {order : List ι}
    (explains : Explains apply ops initial order (outcome a))
    (shows : Shows (stateAfter apply ops initial order) a) {states : List α}
    (run : List.IsChain Step (a :: states)) :
    ∃ more, (∀ s ∈ a :: states, ∃ past rest, order ++ more = past ++ rest ∧
        Explains apply ops initial past (outcome s) ∧ Shows (stateAfter apply ops initial past) s) ∧
      ∀ s, (a :: states).getLast? = some s → Explains apply ops initial (order ++ more) (outcome s) ∧
        Shows (stateAfter apply ops initial (order ++ more)) s := by
  induction states generalizing a order with
  | nil =>
      refine ⟨[], fun s member => ?_, fun s last => ?_⟩
      · obtain rfl := List.mem_singleton.mp member
        exact ⟨order, [], rfl, explains, shows⟩
      · cases last
        rw [List.append_nil]
        exact ⟨explains, shows⟩
  | cons b states ih =>
      obtain ⟨step, later⟩ := List.isChain_cons_cons.mp run
      rcases commits _ a b shows step with ⟨same, shows'⟩ | ⟨i, fresh, commit, shows'⟩
      · obtain ⟨more, all, ends⟩ := ih (by rw [same]; exact explains) shows' later
        refine ⟨more, fun s member => ?_, fun s last => ends s (by rwa [List.getLast?_cons_cons] at last)⟩
        rcases List.mem_cons.mp member with rfl | member
        · exact ⟨order, more, rfl, explains, shows⟩
        · exact all s member
      · have explains' := explains.commit fresh
        rw [← commit] at explains'
        rw [← stateAfter_concat] at shows'
        obtain ⟨more, all, ends⟩ := ih explains' shows' later
        rw [List.append_assoc, List.singleton_append] at all ends
        refine ⟨i :: more, fun s member => ?_, fun s last => ends s (by rwa [List.getLast?_cons_cons] at last)⟩
        rcases List.mem_cons.mp member with rfl | member
        · exact ⟨order, i :: more, rfl, explains, shows⟩
        · exact all s member

end SecureTransfer.Library
