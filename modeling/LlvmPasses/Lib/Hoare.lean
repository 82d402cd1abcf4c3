import LlvmPasses.Lib.StateError

/-!
# Triples for state with errors

`Triple P p Q E`: from a state where `P` holds, `p` either returns, and then
`Q` holds of its answer and state, or throws, and then `E` holds of the error
and state. What an exception leaves behind is part of the postcondition, since
the state is not rolled back.

`Matches R p q S` is about two programs at once, over related states: they
stop the same way, with related states, and with the same error where they
throw and related answers where they return.
-/

namespace LlvmPasses.StateError

variable {ε σ τ α β α' β' : Type}

def Triple (P : σ → Prop) (p : EStateM ε σ α) (Q : α → σ → Prop) (E : ε → σ → Prop) : Prop :=
  ∀ s, P s → match p s with
    | .ok a t => Q a t
    | .error e t => E e t

def Matches (R : σ → τ → Prop) (p : EStateM ε σ α) (q : EStateM ε τ β) (S : α → β → Prop) :
    Prop :=
  ∀ s t, R s t → match p s, q t with
    | .ok a s', .ok b t' => R s' t' ∧ S a b
    | .error e s', .error e' t' => R s' t' ∧ e = e'
    | _, _ => False

/-! ## Triples -/

namespace Triple

variable {P P' : σ → Prop} {Q Q' : α → σ → Prop} {R : α → σ → Prop} {T : β → σ → Prop}
variable {E E' : ε → σ → Prop} {p : EStateM ε σ α} {f : α → EStateM ε σ β} {a : α} {e : ε}
variable {s t : σ}

theorem ok (h : Triple P p Q E) (hs : P s) (hp : p s = .ok a t) : Q a t := by
  have h := h s hs
  rwa [hp] at h

theorem error (h : Triple P p Q E) (hs : P s) (hp : p s = .error e t) : E e t := by
  have h := h s hs
  rwa [hp] at h

theorem imp (h : Triple P p Q E) (hP : ∀ s, P' s → P s) (hQ : ∀ a s, Q a s → Q' a s)
    (hE : ∀ e s, E e s → E' e s) : Triple P' p Q' E' := by
  intro s hs
  have h := h s (hP s hs)
  cases hp : p s with
  | ok a t => rw [hp] at h; exact hQ a t h
  | error e t => rw [hp] at h; exact hE e t h

theorem pure (h : ∀ s, P s → Q a s) : Triple P (Pure.pure a) Q E := h

theorem throw (h : ∀ s, P s → E e s) : Triple P (MonadExcept.throw e) Q E := h

theorem bind (hp : Triple P p R E) (hf : ∀ a, Triple (R a) (f a) T E) :
    Triple P (p >>= f) T E := by
  intro s hs
  have hp := hp s hs
  rw [bind_apply]
  cases h : p s with
  | ok a t => rw [h] at hp; exact hf a t hp
  | error e t => rw [h] at hp; exact hp

/-- A fact about the state that does not depend on it is a hypothesis. -/
theorem pull {φ : Prop} (h : φ → Triple P p Q E) (hφ : ∀ s, P s → φ) : Triple P p Q E :=
  fun s hs => h (hφ s hs) s hs

end Triple

/-! ## Two programs -/

namespace Matches

variable {R : σ → τ → Prop} {S : α → β → Prop} {T : α' → β' → Prop}
variable {p : EStateM ε σ α} {q : EStateM ε τ β} {f : α → EStateM ε σ α'}
variable {g : β → EStateM ε τ β'} {q' : EStateM ε τ β'} {a : α} {b : β}

theorem pure (h : S a b) : Matches R (Pure.pure a : EStateM ε σ α)
    (Pure.pure b : EStateM ε τ β) S := fun _ _ hR => ⟨hR, h⟩

theorem throw (e : ε) : Matches R (MonadExcept.throw e : EStateM ε σ α)
    (MonadExcept.throw e : EStateM ε τ β) S := fun _ _ hR => ⟨hR, rfl⟩

theorem bind (hp : Matches R p q S) (hf : ∀ a b, S a b → Matches R (f a) (g b) T) :
    Matches R (p >>= f) (q >>= g) T := by
  intro s t hR
  have hp := hp s t hR
  rw [bind_apply, bind_apply]
  cases h : p s <;> cases h' : q t <;> simp only [h, h'] at hp ⊢
  · exact hf _ _ hp.2 _ _ hp.1
  · exact hp

/-- A step that always returns and keeps the states related need not be
matched. -/
theorem left {Q : α → Prop} (hp : ∀ s t, R s t → ∃ a s', p s = .ok a s' ∧ R s' t ∧ Q a)
    (hf : ∀ a, Q a → Matches R (f a) q' T) : Matches R (p >>= f) q' T := by
  intro s t hR
  obtain ⟨a, s', hps, hR', ha⟩ := hp s t hR
  rw [bind_ok hps]
  exact hf a ha s' t hR'

end Matches

end LlvmPasses.StateError
