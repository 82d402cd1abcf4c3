/-!
# Cached results

Results computed from a state are kept under keys and handed out again. They go
out of date when the state changes; what may be out of date has to be dropped.
A result may be made from others, which are asked for in the same way.
-/

namespace LlvmPasses

variable {κ : Type} {ρ : κ → Type}

/-- The results that are there. -/
abbrev Cache (ρ : κ → Type) := (k : κ) → Option (ρ k)

namespace Cache

def empty : Cache ρ := fun _ => none

def store [DecidableEq κ] (c : Cache ρ) (k : κ) (r : ρ k) : Cache ρ := fun j =>
  if h : j = k then some (h ▸ r) else c j

/-- The result under a key: the one that is there, or else a new one. -/
def obtain [DecidableEq κ] (k : κ) (make : StateM (Cache ρ) (ρ k)) : StateM (Cache ρ) (ρ k) :=
  fun c => match c k with
    | some r => (r, c)
    | none =>
        let (r, c) := make c
        (r, c.store k r)

/-- Only the results under some of the keys are kept. -/
def keep (keeps : κ → Bool) (c : Cache ρ) : Cache ρ := fun k => if keeps k then c k else none

/-- Whatever is there is what would be computed. -/
def UpToDate (compute : (k : κ) → ρ k) (c : Cache ρ) : Prop := ∀ k r, c k = some r → r = compute k

section

variable {compute compute' : (k : κ) → ρ k} {c : Cache ρ} {k : κ}

theorem upToDate_empty (compute : (k : κ) → ρ k) : UpToDate compute empty := nofun

theorem UpToDate.store [DecidableEq κ] (h : UpToDate compute c) (k : κ) :
    UpToDate compute (c.store k (compute k)) := by
  intro j r hr
  unfold Cache.store at hr
  by_cases hj : j = k
  · subst hj
    simp only [dite_true, Option.some.injEq] at hr
    exact hr.symm
  · rw [dif_neg hj] at hr
    exact h j r hr

/-- A result that is made as it would be computed may be cached. -/
theorem UpToDate.obtain [DecidableEq κ] (h : UpToDate compute c) {make : StateM (Cache ρ) (ρ k)}
    (hmake : (make c).1 = compute k ∧ UpToDate compute (make c).2) :
    (Cache.obtain k make c).1 = compute k ∧ UpToDate compute (Cache.obtain k make c).2 := by
  unfold Cache.obtain
  cases hk : c k with
  | some r => exact ⟨h k r hk, h⟩
  | none =>
      refine ⟨hmake.1, ?_⟩
      show UpToDate compute ((make c).2.store k (make c).1)
      rw [hmake.1]
      exact hmake.2.store k

/-- After a change everything is up to date again, if what is kept and was there
is computed as before. -/
theorem UpToDate.keep {keeps : κ → Bool} (h : UpToDate compute c)
    (hsame : ∀ k, keeps k = true → (c k).isSome = true → compute' k = compute k) :
    UpToDate compute' (c.keep keeps) := by
  intro k r hr
  unfold Cache.keep at hr
  by_cases hkeeps : keeps k = true
  · rw [if_pos hkeeps] at hr
    have hsome : (c k).isSome = true := by rw [hr]; rfl
    rw [hsame k hkeeps hsome]
    exact h k r hr
  · rw [if_neg hkeeps] at hr
    cases hr

end

end Cache

end LlvmPasses
