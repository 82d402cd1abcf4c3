/-!
# State with errors

How `EStateM` runs a sequence, as equations and as an inversion: what every
parser, code generator and evaluator here is taken apart with.
-/

namespace LlvmPasses.StateError

variable {ε σ α β : Type}

theorem bind_apply (p : EStateM ε σ α) (f : α → EStateM ε σ β) (s : σ) :
    (p >>= f) s = match p s with
      | .ok a t => f a t
      | .error e t => .error e t := by
  show EStateM.bind p f s = _
  unfold EStateM.bind
  cases p s <;> rfl

theorem bind_ok {p : EStateM ε σ α} {f : α → EStateM ε σ β} {s t : σ} {a : α}
    (h : p s = .ok a t) : (p >>= f) s = f a t := by
  rw [bind_apply, h]

theorem bind_error {p : EStateM ε σ α} {f : α → EStateM ε σ β} {s t : σ} {e : ε}
    (h : p s = .error e t) : (p >>= f) s = .error e t := by
  rw [bind_apply, h]

theorem bind_eq_ok {p : EStateM ε σ α} {f : α → EStateM ε σ β} {s u : σ} {b : β}
    (h : (p >>= f) s = .ok b u) : ∃ a t, p s = .ok a t ∧ f a t = .ok b u := by
  rw [bind_apply] at h
  cases hp : p s with
  | ok a t => rw [hp] at h; exact ⟨a, t, rfl, h⟩
  | error e t => rw [hp] at h; cases h

theorem pure_eq_ok {a b : α} {s t : σ} (h : (pure a : EStateM ε σ α) s = .ok b t) :
    b = a ∧ t = s := by
  cases h
  exact ⟨rfl, rfl⟩

/-! ## Checking an outcome -/

/-- It is no error, and what came out passes the check. -/
def okAnd (r : EStateM.Result ε σ α) (p : α → σ → Bool) : Bool :=
  match r with
  | .ok a t => p a t
  | .error _ _ => false

theorem okAnd_iff {r : EStateM.Result ε σ α} {p : α → σ → Bool} :
    okAnd r p = true ↔ ∃ a t, r = .ok a t ∧ p a t = true := by
  constructor
  · intro h
    cases r with
    | ok a t => exact ⟨a, t, rfl, h⟩
    | error e t => cases h
  · rintro ⟨a, t, rfl, h⟩
    exact h

/-- What came out, if it is no error. -/
def okOption (r : EStateM.Result ε σ α) : Option α :=
  match r with
  | .ok a _ => some a
  | .error _ _ => none

theorem okOption_eq_some {r : EStateM.Result ε σ α} {a : α} :
    okOption r = some a ↔ ∃ t, r = .ok a t := by
  cases r with
  | ok b t =>
      constructor
      · intro h
        cases h
        exact ⟨t, rfl⟩
      · rintro ⟨t', h⟩
        cases h
        rfl
  | error e t =>
      constructor
      · intro h
        cases h
      · rintro ⟨t', h⟩
        cases h

/-- It is an error, or what came out passes the check. -/
def okAll (r : EStateM.Result ε σ α) (p : α → σ → Bool) : Bool :=
  match r with
  | .ok a t => p a t
  | .error _ _ => true

theorem okAll_iff {r : EStateM.Result ε σ α} {p : α → σ → Bool} :
    okAll r p = true ↔ ∀ a t, r = .ok a t → p a t = true := by
  cases r with
  | ok a t =>
      refine ⟨fun h a' t' heq => ?_, fun h => h a t rfl⟩
      cases heq
      exact h
  | error e t =>
      refine ⟨fun _ a' t' heq => ?_, fun _ => rfl⟩
      cases heq

end LlvmPasses.StateError
