import Mathlib.Order.Filter.AtTopBot.Basic
import LlvmPasses.Lib.StateError
import LlvmPasses.Lib.Transition

/-!
# Evaluators that answer in the end

A family of evaluators, one for each bound, approximates an evaluator when
whatever this one answers all but finitely many of the family answer too, over
related states. It is what is left of fuel once it is large enough: a family
that approximates the parts approximates the whole, loops included, whose
number of rounds is one of the things that may be bounded.
-/

namespace LlvmPasses

open StateError Filter

/-- What `p` answers, almost all of `q` answer, and leave related states. -/
def Approximates {ρ τ α : Type} (R : ρ → τ → Prop) (p : EStateM Halt ρ α)
    (q : Nat → EStateM Halt τ α) : Prop :=
  ∀ s t a s', R s t → p s = .ok a s' → ∃ t', R s' t' ∧ ∀ᶠ n in atTop, q n t = .ok a t'

namespace Approximates

variable {ρ τ α β : Type} {R : ρ → τ → Prop} {p : EStateM Halt ρ α} {q : Nat → EStateM Halt τ α}

theorem pure (a : α) :
    Approximates R (Pure.pure a : EStateM Halt ρ α) fun _ => (Pure.pure a : EStateM Halt τ α) := by
  intro s t b s' hR h
  obtain ⟨rfl, rfl⟩ := pure_eq_ok h
  exact ⟨t, hR, .of_forall fun _ => rfl⟩

theorem throw (e : Halt) : Approximates R (MonadExcept.throw e : EStateM Halt ρ α) q :=
  fun _ _ _ _ _ h => nomatch h

theorem bind {f : α → EStateM Halt ρ β} {g : Nat → α → EStateM Halt τ β}
    (hp : Approximates R p q) (hf : ∀ a, Approximates R (f a) fun n => g n a) :
    Approximates R (p >>= f) fun n => q n >>= g n := by
  intro s t b s' hR h
  obtain ⟨a, u, hu, h⟩ := bind_eq_ok h
  obtain ⟨u', hRu, hq⟩ := hp s t a u hR hu
  obtain ⟨t', hR', hg⟩ := hf a u u' b s' hRu h
  refine ⟨t', hR', (hq.and hg).mono fun n hn => ?_⟩
  exact (bind_ok hn.1).trans hn.2

/-- A loop, with bounds of which almost all leave it the rounds it takes. -/
theorem rounds {p : EStateM Halt ρ Bool} {q : Nat → EStateM Halt τ Bool} {k : Nat}
    {bound : Nat → Nat} (hp : Approximates R p q) (hbound : ∀ᶠ n in atTop, k ≤ bound n) :
    Approximates R (rounds p k) fun n => LlvmPasses.rounds (q n) (bound n) := by
  induction k generalizing bound with
  | zero => exact throw _
  | succ k ih =>
      intro s t a s' hR h
      obtain ⟨go, u, hu, h⟩ := bind_eq_ok h
      obtain ⟨u', hRu, hq⟩ := hp s t go u hR hu
      have hpos : ∀ n, k + 1 ≤ bound n → bound n = bound n - 1 + 1 := fun n hn => by omega
      cases go with
      | false =>
          obtain ⟨rfl, rfl⟩ := pure_eq_ok h
          refine ⟨u', hRu, (hq.and hbound).mono fun n hn => ?_⟩
          show LlvmPasses.rounds (q n) (bound n) t = _
          rw [hpos n hn.2]
          exact bind_ok hn.1
      | true =>
          have hless : ∀ᶠ n in atTop, k ≤ bound n - 1 := hbound.mono fun n hn => by omega
          obtain ⟨t', hR', hrest⟩ := ih hless u u' a s' hRu h
          refine ⟨t', hR', ((hq.and hbound).and hrest).mono fun n hn => ?_⟩
          show LlvmPasses.rounds (q n) (bound n) t = _
          rw [hpos n hn.1.2]
          exact (bind_ok hn.1.1).trans hn.2

end Approximates

end LlvmPasses
