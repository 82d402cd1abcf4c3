import LlvmPasses.Lib.StateError

/-!
# Recursive descent over a token list, on fuel

A parser reads a list of tokens from the front and either returns or throws,
leaving the tokens it did not consume in both cases. A recursive parser also
takes fuel, and stops with `outOfFuel` when it is spent. That stop is
bookkeeping, not an answer, and the three notions below are what it takes to
say so of a particular parser:

* `NonGrowing`, `Consuming`: what a parser leaves is never longer than what it
  was given, and strictly shorter when it returns;
* `EndsWithin m`: on at most `m` tokens it never stops for want of fuel;
* `Stable p q`: wherever `p` did not run out, `q` does the same — the relation
  between one parser on a small and on a large budget.

Each is closed under sequencing, so for a parser written with `>>=` they are
read off its text.
-/

namespace LlvmPasses

/-- Why a parser did not return: an exception of its own, or no fuel left. -/
inductive Stop where
  | exception (what : String)
  | outOfFuel
  deriving DecidableEq, Repr

abbrev TokenParser (τ α : Type) := EStateM Stop (List τ) α

namespace TokenParser

open StateError

variable {τ α β : Type}

/-- The tokens left over, whichever way the parser stopped. -/
def left : EStateM.Result Stop (List τ) α → List τ
  | .ok _ s => s
  | .error _ s => s

/-- The run ended in an answer or an exception. -/
def Settled : EStateM.Result Stop (List τ) α → Prop
  | .ok _ _ => True
  | .error e _ => e ≠ .outOfFuel

def NonGrowing (p : TokenParser τ α) : Prop := ∀ s, (left (p s)).length ≤ s.length

def Consuming (p : TokenParser τ α) : Prop :=
  ∀ s a t, p s = .ok a t → t.length < s.length

def EndsWithin (m : Nat) (p : TokenParser τ α) : Prop :=
  ∀ s : List τ, s.length ≤ m → Settled (p s)

def Stable (p q : TokenParser τ α) : Prop := ∀ s, Settled (p s) → q s = p s

/-! ## What is left over -/

theorem nonGrowing_pure (a : α) : NonGrowing (pure a : TokenParser τ α) :=
  fun _ => Nat.le_refl _

theorem nonGrowing_throw (e : Stop) : NonGrowing (throw e : TokenParser τ α) :=
  fun _ => Nat.le_refl _

theorem NonGrowing.bind {p : TokenParser τ α} {f : α → TokenParser τ β}
    (hp : NonGrowing p) (hf : ∀ a, NonGrowing (f a)) : NonGrowing (p >>= f) := by
  intro s
  have hs := hp s
  rw [bind_apply]
  cases h : p s with
  | ok a t => rw [h] at hs; exact Nat.le_trans (hf a t) hs
  | error e t => rw [h] at hs; exact hs

theorem Consuming.bind {p : TokenParser τ α} {f : α → TokenParser τ β}
    (hp : Consuming p) (hf : ∀ a, NonGrowing (f a)) : Consuming (p >>= f) := by
  intro s b u h
  obtain ⟨a, t, hpa, hfa⟩ := bind_eq_ok h
  have h₁ := hp s a t hpa
  have h₂ := hf a t
  rw [hfa] at h₂
  exact Nat.lt_of_le_of_lt h₂ h₁

theorem consuming_bind_right {p : TokenParser τ α} {f : α → TokenParser τ β}
    (hp : NonGrowing p) (hf : ∀ a, Consuming (f a)) : Consuming (p >>= f) := by
  intro s b u h
  obtain ⟨a, t, hpa, hfa⟩ := bind_eq_ok h
  have h₁ := hp s
  rw [hpa] at h₁
  exact Nat.lt_of_lt_of_le (hf a t b u hfa) h₁

theorem consuming_throw (e : Stop) : Consuming (throw e : TokenParser τ α) := by
  intro s a t h
  cases h

/-! ## Fuel that suffices -/

theorem endsWithin_pure (m : Nat) (a : α) : EndsWithin m (pure a : TokenParser τ α) :=
  fun _ _ => trivial

theorem endsWithin_exception (m : Nat) (what : String) :
    EndsWithin m (throw (.exception what) : TokenParser τ α) :=
  fun _ _ => Stop.noConfusion

theorem EndsWithin.bind {m : Nat} {p : TokenParser τ α} {f : α → TokenParser τ β}
    (hp : EndsWithin m p) (hg : NonGrowing p) (hf : ∀ a, EndsWithin m (f a)) :
    EndsWithin m (p >>= f) := by
  intro s hs
  have hps := hp s hs
  have hle := hg s
  rw [bind_apply]
  cases h : p s with
  | ok a t => rw [h] at hle; exact hf a t (Nat.le_trans hle hs)
  | error e t => rw [h] at hps; exact hps

/-- After a step that consumed a token the rest has one token less to deal
with: the rule that pays for recursion. -/
theorem EndsWithin.bind_consuming {m : Nat} {p : TokenParser τ α}
    {f : α → TokenParser τ β} (hp : EndsWithin (m + 1) p) (hc : Consuming p)
    (hf : ∀ a, EndsWithin m (f a)) : EndsWithin (m + 1) (p >>= f) := by
  intro s hs
  have hps := hp s hs
  rw [bind_apply]
  cases h : p s with
  | ok a t => exact hf a t (by have := hc s a t h; omega)
  | error e t => rw [h] at hps; exact hps

/-! ## Budgets that agree -/

theorem Stable.refl (p : TokenParser τ α) : Stable p p := fun _ _ => rfl

theorem stable_outOfFuel (q : TokenParser τ α) : Stable (throw .outOfFuel) q :=
  fun _ h => absurd rfl h

theorem Stable.bind {p q : TokenParser τ α} {f g : α → TokenParser τ β}
    (hp : Stable p q) (hf : ∀ a, Stable (f a) (g a)) : Stable (p >>= f) (q >>= g) := by
  intro s hs
  rw [bind_apply] at hs
  rw [bind_apply, bind_apply]
  cases h : p s with
  | ok a t =>
      rw [h] at hs
      rw [hp s (by rw [h]; trivial), h]
      exact hf a t hs
  | error e t =>
      rw [h] at hs
      rw [hp s (by rw [h]; exact hs), h]

/-! ## Parsers that succeed once the budget is large

`Runs p s a t`: from some budget on, the fuelled parser `p` reads `a` off `s`
and leaves `t`. Sequencing takes the larger of two thresholds, and a recursive
call one unit more. -/

def Runs (p : Nat → TokenParser τ α) (s : List τ) (a : α) (t : List τ) : Prop :=
  ∃ N, ∀ n, N ≤ n → p n s = .ok a t

namespace Runs

variable {s t u : List τ} {a : α} {b : β}

theorem const {p : TokenParser τ α} (h : p s = .ok a t) : Runs (fun _ => p) s a t :=
  ⟨0, fun _ _ => h⟩

theorem pure (a : α) (s : List τ) : Runs (fun _ => (Pure.pure a : TokenParser τ α)) s a s :=
  const rfl

theorem bind {p : Nat → TokenParser τ α} {f : Nat → α → TokenParser τ β}
    (hp : Runs p s a t) (hf : Runs (fun n => f n a) t b u) :
    Runs (fun n => p n >>= f n) s b u := by
  obtain ⟨N, hN⟩ := hp
  obtain ⟨M, hM⟩ := hf
  refine ⟨max N M, fun n hn => ?_⟩
  show (p n >>= f n) s = .ok b u
  rw [bind_ok (hN n (Nat.le_trans (Nat.le_max_left N M) hn))]
  exact hM n (Nat.le_trans (Nat.le_max_right N M) hn)

theorem succ {p : Nat → TokenParser τ α} (h : Runs (fun n => p (n + 1)) s a t) :
    Runs p s a t := by
  obtain ⟨N, hN⟩ := h
  refine ⟨N + 1, fun n hn => ?_⟩
  obtain ⟨k, rfl⟩ : ∃ k, n = k + 1 := ⟨n - 1, by omega⟩
  exact hN k (by omega)

end Runs

end TokenParser

end LlvmPasses
