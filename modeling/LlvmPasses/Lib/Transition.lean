/-!
# Deterministic transition systems

A step function and what follows from it being one: a state reaches another,
lasts a number of steps, or halts. `Tracks` relates such a system to an
evaluator that either answers or runs out of fuel: where it answers the
machine reaches a state that agrees with the answer, where it runs out the
machine is still going after as many steps. Both halves are closed under
sequencing, so that a machine tracks a composite evaluation when it tracks its
parts; `Tracks.halts_iff` is what the whole comes to.
-/

namespace LlvmPasses

namespace Transition

variable {σ : Type} {step : σ → Option σ} {s t u : σ} {n k : Nat}

/-- The state after `n` steps, if the system takes that many. -/
def runN (step : σ → Option σ) : Nat → σ → Option σ
  | 0, s => some s
  | n + 1, s => (step s).bind (runN step n)

def Reaches (step : σ → Option σ) (s t : σ) : Prop := ∃ n, runN step n s = some t

/-- The system takes at least `n` steps from `s`. -/
def Lasts (step : σ → Option σ) (n : Nat) (s : σ) : Prop := ∃ t, runN step n s = some t

def Halts (step : σ → Option σ) (s t : σ) : Prop := Reaches step s t ∧ step t = none

theorem runN_next (step : σ → Option σ) (n : Nat) (s : σ) :
    runN step (n + 1) s = (step s).bind (runN step n) := rfl

theorem runN_succ (h : step s = some t) : runN step (n + 1) s = runN step n t := by
  rw [runN_next, h]
  rfl

theorem runN_add (h : runN step n s = some t) : runN step (n + k) s = runN step k t := by
  induction n generalizing s with
  | zero =>
      cases h
      rw [Nat.zero_add]
  | succ n ih =>
      rw [runN_next] at h
      cases hs : step s with
      | none => rw [hs] at h; cases h
      | some s' =>
          rw [hs] at h
          rw [Nat.add_right_comm, runN_succ hs]
          exact ih h

theorem Reaches.refl (s : σ) : Reaches step s s := ⟨0, rfl⟩

theorem Reaches.trans (h₁ : Reaches step s t) (h₂ : Reaches step t u) : Reaches step s u := by
  obtain ⟨n, hn⟩ := h₁
  obtain ⟨k, hk⟩ := h₂
  exact ⟨n + k, by rw [runN_add hn, hk]⟩

theorem Reaches.single (h : step s = some t) : Reaches step s t := ⟨1, runN_succ h⟩

/-- A state is reached at once or after a first step. -/
theorem Reaches.head_cases (h : Reaches step s u) :
    u = s ∨ ∃ t, step s = some t ∧ Reaches step t u := by
  obtain ⟨n, hn⟩ := h
  cases n with
  | zero =>
      cases hn
      exact .inl rfl
  | succ n =>
      rw [runN_next] at hn
      cases hs : step s with
      | none => rw [hs] at hn; cases hn
      | some t =>
          rw [hs] at hn
          exact .inr ⟨t, rfl, n, hn⟩

/-- What holds of a state and is kept by every step holds of all it reaches. -/
theorem Reaches.induction {P : σ → Prop} (h : Reaches step s t) (hs : P s)
    (hstep : ∀ a b, P a → step a = some b → P b) : P t := by
  obtain ⟨n, hn⟩ := h
  induction n generalizing s with
  | zero =>
      cases hn
      exact hs
  | succ n ih =>
      rw [runN_next] at hn
      cases hb : step s with
      | none => rw [hb] at hn; cases hn
      | some b =>
          rw [hb] at hn
          exact ih (hstep s b hs hb) hn

/-- An invariant of a run whose states on the way all meet a condition. -/
theorem runN_induction {P C : σ → Prop} (h : runN step n s = some t) (hs : P s)
    (hC : ∀ k < n, ∀ u, runN step k s = some u → C u)
    (hstep : ∀ a b, P a → C a → step a = some b → P b) : P t := by
  induction n generalizing s with
  | zero =>
      cases h
      exact hs
  | succ n ih =>
      rw [runN_next] at h
      cases hb : step s with
      | none => rw [hb] at h; cases h
      | some b =>
          rw [hb] at h
          refine ih h (hstep s b hs (hC 0 (Nat.succ_pos n) s rfl) hb) fun k hk u hu => ?_
          exact hC (k + 1) (Nat.succ_lt_succ hk) u (by rw [runN_succ hb, hu])

theorem Lasts.zero (s : σ) : Lasts step 0 s := ⟨s, rfl⟩

/-- What lasts longer lasts. -/
theorem Lasts.mono (h : Lasts step n s) (hle : k ≤ n) : Lasts step k s := by
  induction n generalizing s k with
  | zero =>
      obtain rfl : k = 0 := by omega
      exact h
  | succ n ih =>
      obtain ⟨t, ht⟩ := h
      rw [runN_next] at ht
      cases hs : step s with
      | none => rw [hs] at ht; cases ht
      | some s' =>
          rw [hs] at ht
          cases k with
          | zero => exact .zero s
          | succ k =>
              obtain ⟨u, hu⟩ := ih ⟨t, ht⟩ (show k ≤ n by omega)
              exact ⟨u, by rw [runN_succ hs, hu]⟩

theorem Lasts.succ (h : step s = some t) (ht : Lasts step n t) : Lasts step (n + 1) s := by
  obtain ⟨u, hu⟩ := ht
  exact ⟨u, by rw [runN_succ h, hu]⟩

theorem Lasts.of_reaches (h : Reaches step s t) (ht : Lasts step n t) : Lasts step n s := by
  obtain ⟨k, hk⟩ := h
  obtain ⟨u, hu⟩ := ht
  have hsum : Lasts step (k + n) s := ⟨u, by rw [runN_add hk, hu]⟩
  exact hsum.mono (by omega)

/-- A state that steps to itself lasts for ever. -/
theorem Lasts.of_loop (h : step s = some s) (n : Nat) : Lasts step n s := by
  induction n with
  | zero => exact .zero s
  | succ n ih => exact .succ h ih

/-- A system that halted after `k` steps does not last beyond them. -/
theorem not_lasts_of_halted (h : runN step k s = some t) (ht : step t = none) :
    ¬ Lasts step (k + 1) s := by
  rintro ⟨u, hu⟩
  rw [runN_add h, runN_next, ht] at hu
  cases hu

theorem Halts.unique (h₁ : Halts step s t) (h₂ : Halts step s u) : t = u := by
  obtain ⟨⟨n, hn⟩, ht⟩ := h₁
  obtain ⟨⟨k, hk⟩, hu⟩ := h₂
  have hle : ¬ n < k := fun hlt =>
    not_lasts_of_halted hn ht (Lasts.mono ⟨u, hk⟩ hlt)
  have hge : ¬ k < n := fun hlt =>
    not_lasts_of_halted hk hu (Lasts.mono ⟨t, hn⟩ hlt)
  obtain rfl : n = k := by omega
  rw [hn] at hk
  cases hk
  rfl

end Transition

/-- How an evaluator can fail to answer: it ran out of fuel, or met something
that has no meaning. -/
inductive Halt where
  | timeout
  | wrong
  deriving DecidableEq, Repr

open Transition

/-- Repeat a round for as long as it says so, `n` times at most. -/
def rounds {ρ : Type} (round : EStateM Halt ρ Bool) : Nat → EStateM Halt ρ Unit
  | 0 => throw .timeout
  | n + 1 => do
      if ← round then rounds round n else pure ()

/-- The machine follows the evaluation: to a state that satisfies `Q` of the
answer and of the store after it, or for as many steps as there was fuel. -/
def Tracks {σ ρ α : Type} (step : σ → Option σ) (fuel : Nat) (m : σ)
    (r : EStateM.Result Halt ρ α) (Q : α → ρ → σ → Prop) : Prop :=
  match r with
  | .ok a st => ∃ m', Reaches step m m' ∧ Q a st m'
  | .error .timeout _ => Lasts step fuel m
  | .error .wrong _ => False

namespace Tracks

variable {σ ρ α β : Type} {step : σ → Option σ} {fuel : Nat} {m m' : σ}
variable {r : EStateM.Result Halt ρ α} {Q Q' : α → ρ → σ → Prop}

/-- The machine may first take steps of its own. -/
theorem of_reaches (h : Reaches step m m') (ht : Tracks step fuel m' r Q) :
    Tracks step fuel m r Q := by
  cases r with
  | ok a st =>
      obtain ⟨m'', hm, hQ⟩ := ht
      exact ⟨m'', h.trans hm, hQ⟩
  | error e st =>
      cases e with
      | timeout => exact Lasts.of_reaches h ht
      | wrong => exact ht

theorem imp (h : Tracks step fuel m r Q) (hQ : ∀ a st m', Q a st m' → Q' a st m') :
    Tracks step fuel m r Q' := by
  cases r with
  | ok a st =>
      obtain ⟨m', hm, hq⟩ := h
      exact ⟨m', hm, hQ a st m' hq⟩
  | error e st =>
      cases e with
      | timeout => exact h
      | wrong => exact h

/-- The machine may take steps of its own afterwards. -/
theorem and_then (h : Tracks step fuel m r Q)
    (hQ : ∀ a st m', Q a st m' → ∃ m'', Reaches step m' m'' ∧ Q' a st m'') :
    Tracks step fuel m r Q' := by
  cases r with
  | ok a st =>
      obtain ⟨m', hm, hq⟩ := h
      obtain ⟨m'', hm', hq'⟩ := hQ a st m' hq
      exact ⟨m'', hm.trans hm', hq'⟩
  | error e st =>
      cases e with
      | timeout => exact h
      | wrong => exact h

theorem pure {a : α} {st : ρ} (h : Q a st m) :
    Tracks step fuel m ((Pure.pure a : EStateM Halt ρ α) st) Q :=
  ⟨m, .refl m, h⟩

theorem bind {p : EStateM Halt ρ α} {f : α → EStateM Halt ρ β} {st : ρ}
    {R : β → ρ → σ → Prop} (hp : Tracks step fuel m (p st) Q)
    (hf : ∀ a st' m', Q a st' m' → Tracks step fuel m' (f a st') R) :
    Tracks step fuel m ((p >>= f) st) R := by
  show Tracks step fuel m (EStateM.bind p f st) R
  unfold EStateM.bind
  cases h : p st with
  | ok a st' =>
      rw [h] at hp
      obtain ⟨m', hm, hQ⟩ := hp
      exact of_reaches hm (hf a st' m' hQ)
  | error e st' =>
      rw [h] at hp
      cases e with
      | timeout => exact hp
      | wrong => exact hp

/-- The rule for a loop: `I` holds whenever a round begins, and the step that
ends a round leads back to `I` or on to `Q`. -/
theorem rounds {round : EStateM Halt ρ Bool} {I S : ρ → σ → Prop} {k : Nat} {st : ρ}
    (hround : ∀ st m, I st m → Tracks step fuel m (round st) fun go st' m' =>
      ∃ m'', step m' = some m'' ∧ if go then I st' m'' else S st' m'')
    (hk : k ≤ fuel) (hI : I st m) :
    Tracks step k m (LlvmPasses.rounds round k st) fun _ st' m' => S st' m' := by
  induction k generalizing st m with
  | zero => exact .zero m
  | succ k ih =>
      have hr := hround st m hI
      show Tracks step (k + 1) m (EStateM.bind round _ st) _
      unfold EStateM.bind
      cases h : round st with
      | ok go st' =>
          rw [h] at hr
          obtain ⟨m', hm, m'', hstep, hgo⟩ := hr
          cases go with
          | false => exact ⟨m'', hm.trans (.single hstep), hgo⟩
          | true =>
              have hrest := ih (by omega) hgo
              show Tracks step (k + 1) m (LlvmPasses.rounds round k st') _
              cases hl : LlvmPasses.rounds round k st' with
              | ok u st'' =>
                  rw [hl] at hrest
                  exact of_reaches (hm.trans (.single hstep)) hrest
              | error e st'' =>
                  rw [hl] at hrest
                  cases e with
                  | timeout => exact Lasts.of_reaches hm (.succ hstep hrest)
                  | wrong => exact hrest
      | error e st' =>
          rw [h] at hr
          cases e with
          | timeout => exact Lasts.mono hr hk
          | wrong => exact hr

/-- The machine halts where the evaluator answers, and only then: `eval` gives
the evaluator's result on each amount of fuel, and `Q` pins a halted state. -/
theorem halts_iff {eval : Nat → EStateM.Result Halt ρ α}
    (h : ∀ fuel, Tracks step fuel m (eval fuel) Q)
    (hQ : ∀ a st m', Q a st m' → step m' = none) :
    (∀ fuel a st, eval fuel = .ok a st → ∃ m', Halts step m m' ∧ Q a st m') ∧
    (∀ m', Halts step m m' → ∃ fuel a st, eval fuel = .ok a st ∧ Q a st m') := by
  have hforward : ∀ fuel a st, eval fuel = .ok a st → ∃ m', Halts step m m' ∧ Q a st m' := by
    intro fuel a st heq
    have ht := h fuel
    rw [heq] at ht
    obtain ⟨m', hm, hq⟩ := ht
    exact ⟨m', ⟨hm, hQ a st m' hq⟩, hq⟩
  refine ⟨hforward, fun m' hm => ?_⟩
  obtain ⟨⟨k, hk⟩, hnone⟩ := hm
  -- one unit of fuel more than the machine has steps
  have ht := h (k + 1)
  cases heq : eval (k + 1) with
  | ok a st =>
      obtain ⟨m'', hm'', hq⟩ := hforward (k + 1) a st heq
      have : m' = m'' := Halts.unique ⟨⟨k, hk⟩, hnone⟩ hm''
      exact ⟨k + 1, a, st, heq, this ▸ hq⟩
  | error e st =>
      rw [heq] at ht
      cases e with
      | timeout => exact absurd ht (not_lasts_of_halted hk hnone)
      | wrong => exact ht.elim

end Tracks

end LlvmPasses
