import SecureTransfer.Library.Program

/-! # Two runs side by side

Rules for pairs of programs that start from related states: both return related values
or raise the same exception, and what they leave is related again.
-/

namespace SecureTransfer.Library

variable {σ τ ε α β γ δ : Type}

/-- Two ends of a run that are alike. -/
inductive EndsAlike (R : α → β → Prop) : Except ε α → Except ε β → Prop where
  | ok {a : α} {b : β} (h : R a b) : EndsAlike R (.ok a) (.ok b)
  | error (e : ε) : EndsAlike R (.error e) (.error e)

theorem EndsAlike.mapError {η : Type} {R : α → β → Prop} {r : Except ε α} {r' : Except ε β} (f : ε → η)
    (h : EndsAlike R r r') : EndsAlike R (r.mapError f) (r'.mapError f) := by
  cases h with
  | ok h => exact .ok h
  | error e => exact .error (f e)

theorem EndsAlike.eq {r r' : Except ε α} (h : EndsAlike Eq r r') : r = r' := by
  cases h with
  | ok h => rw [h]
  | error e => rfl

namespace Prog

def Alike (S : σ → τ → Prop) (R : α → β → Prop) (m : Prog σ ε α) (n : Prog τ ε β) : Prop :=
  ∀ s t, S s t → EndsAlike R (m s).1 (n t).1 ∧ S (m s).2 (n t).2

namespace Alike

variable {S : σ → τ → Prop} {R : α → β → Prop} {Q : γ → δ → Prop}

theorem pure {a : α} {b : β} (h : R a b) : Alike S R (Pure.pure a : Prog σ ε α) (Pure.pure b) :=
  fun _ _ related => ⟨.ok h, related⟩

theorem ofExcept {r : Except ε α} {r' : Except ε β} (h : EndsAlike R r r') :
    Alike S R (Prog.ofExcept r) (Prog.ofExcept r') := fun _ _ related => ⟨h, related⟩

theorem get : Alike S S (Prog.get : Prog σ ε σ) Prog.get := fun _ _ related => ⟨.ok related, related⟩

theorem update {f : σ → σ} {g : τ → τ} (keeps : ∀ s t, S s t → S (f s) (g t)) :
    Alike S (fun _ _ => True) (Prog.update f : Prog σ ε Unit) (Prog.update g) :=
  fun s t related => ⟨.ok trivial, keeps s t related⟩

theorem bind {m : Prog σ ε α} {n : Prog τ ε β} {f : α → Prog σ ε γ} {g : β → Prog τ ε δ}
    (first : Alike S R m n) (second : ∀ a b, R a b → Alike S Q (f a) (g b)) :
    Alike S Q (m >>= f) (n >>= g) := by
  intro s t related
  obtain ⟨ends, after⟩ := first s t related
  cases ran : m s with
  | mk r s' =>
      cases ran' : n t with
      | mk r' t' =>
          rw [ran, ran'] at ends after
          cases ends with
          | ok h =>
              rw [bind_ok ran, bind_ok ran']
              exact second _ _ h s' t' after
          | error e =>
              rw [bind_error ran, bind_error ran']
              exact ⟨.error e, after⟩

/-- Through lenses that keep to the related parts. -/
theorem zoom {σ' τ' : Type} {T : σ' → τ' → Prop} {read : σ' → σ} {write : σ → σ' → σ'} {read' : τ' → τ}
    {write' : τ → τ' → τ'} {m : Prog σ ε α} {n : Prog τ ε β} (h : Alike S R m n)
    (reads : ∀ s t, T s t → S (read s) (read' t))
    (writes : ∀ s t a b, T s t → S a b → T (write a s) (write' b t)) :
    Alike T R (Prog.zoom read write m) (Prog.zoom read' write' n) := by
  intro s t related
  obtain ⟨ends, after⟩ := h _ _ (reads s t related)
  exact ⟨ends, writes s t _ _ related after⟩

theorem mapError {η : Type} {m : Prog σ ε α} {n : Prog τ ε β} (h : Alike S R m n) (f : ε → η) :
    Alike S R (m.mapError f) (n.mapError f) := by
  intro s t related
  obtain ⟨ends, after⟩ := h s t related
  cases ran : m s with
  | mk r s' =>
      cases ran' : n t with
      | mk r' t' =>
          rw [ran, ran'] at ends after
          simp only [Prog.mapError, ran, ran']
          cases ends with
          | ok h => exact ⟨.ok h, after⟩
          | error e => exact ⟨.error (f e), after⟩

end Alike

end Prog

end SecureTransfer.Library
