/-!
# Simulation of runs

A system whose steps are moves runs through a list of them. Another goes abreast
of it if it makes each of the moves as well, or none, and the two are alike all
the time; and it answers it if it makes the moves with others in between.
-/

namespace LlvmPasses.Simulation

variable {α σ τ : Type}

/-- The state after the moves, if each of them can be made. -/
def run (step : α → σ → Option σ) : List α → σ → Option σ
  | [], s => some s
  | a :: as, s => (step a s).bind (run step as)

/-- Each of the moves is allowed where the ones before it lead to. -/
def Allowed (step : α → σ → Option σ) (allows : σ → α → Prop) : List α → σ → Prop
  | [], _ => True
  | a :: as, s => allows s a ∧ ∀ s' ∈ step a s, Allowed step allows as s'

instance decidableAllowed (step : α → σ → Option σ) (allows : σ → α → Prop)
    [∀ s a, Decidable (allows s a)] : ∀ as s, Decidable (Allowed step allows as s)
  | [], _ => inferInstanceAs (Decidable True)
  | a :: as, s =>
      have : ∀ s', Decidable (Allowed step allows as s') := decidableAllowed step allows as
      inferInstanceAs (Decidable (allows s a ∧ ∀ s' ∈ step a s, Allowed step allows as s'))

/-- A run of one system with another abreast of it. -/
inductive Abreast (step : α → σ → Option σ) (step' : α → τ → Option τ) (alike : σ → τ → Prop) :
    σ → τ → List α → σ → τ → Prop
  | nil {s t} (h : alike s t) : Abreast step step' alike s t [] s t
  | both {s s₁ s₂ t t₁ t₂ a as} (h : alike s t) (hs : step a s = some s₁) (ht : step' a t = some t₁)
      (rest : Abreast step step' alike s₁ t₁ as s₂ t₂) :
      Abreast step step' alike s t (a :: as) s₂ t₂
  | alone {s s₁ s₂ t t₂ a as} (h : alike s t) (hs : step a s = some s₁)
      (rest : Abreast step step' alike s₁ t as s₂ t₂) : Abreast step step' alike s t (a :: as) s₂ t₂

variable {step : α → σ → Option σ} {step' : α → τ → Option τ} {R alike : σ → τ → Prop}
variable {a : α} {as as' : List α} {s s' s'' : σ} {t : τ}

theorem run_single (h : step a s = some s') : run step [a] s = some s' := by
  rw [run, h]
  rfl

theorem run_cons (h : step a s = some s') : run step (a :: as) s = run step as s' := by
  rw [run, h]
  rfl

theorem run_append (h : run step as s = some s') : run step (as ++ as') s = run step as' s' := by
  induction as generalizing s with
  | nil =>
      cases h
      rfl
  | cons a as ih =>
      obtain ⟨u, hu, h⟩ := Option.bind_eq_some_iff.mp h
      rw [List.cons_append, run_cons hu]
      exact ih h

variable {allows : σ → α → Prop} {I : σ → Prop}

theorem Allowed.of_append (h : Allowed step allows (as ++ as') s) : Allowed step allows as s := by
  induction as generalizing s with
  | nil => exact trivial
  | cons a as ih => exact ⟨h.1, fun s' hs' => ih (h.2 s' hs')⟩

/-- What every move that is allowed keeps holds after any number of them. -/
theorem run_invariant (hstep : ∀ a s s', I s → allows s a → step a s = some s' → I s')
    (hI : I s) (hallowed : Allowed step allows as s) (h : run step as s = some s') : I s' := by
  induction as generalizing s with
  | nil =>
      cases h
      exact hI
  | cons a as ih =>
      obtain ⟨u, hu, h⟩ := Option.bind_eq_some_iff.mp h
      exact ih (hstep a s u hI hallowed.1 hu) (hallowed.2 u hu) h

/-- A relation that every move keeps, made by both or by the one, puts the other
abreast of every run. -/
theorem run_abreast (halike : ∀ s t, R s t → alike s t)
    (hstep : ∀ a s s' t, R s t → step a s = some s' →
      R s' t ∨ ∃ t', step' a t = some t' ∧ R s' t')
    (hR : R s t) (h : run step as s = some s') : ∃ t', Abreast step step' alike s t as s' t' := by
  induction as generalizing s t with
  | nil =>
      cases h
      exact ⟨t, .nil (halike _ _ hR)⟩
  | cons a as ih =>
      obtain ⟨u, hu, h⟩ := Option.bind_eq_some_iff.mp h
      rcases hstep a s u t hR hu with hR₁ | ⟨t₁, ht₁, hR₁⟩
      · obtain ⟨t', hrest⟩ := ih hR₁ h
        exact ⟨t', .alone (halike _ _ hR) hu hrest⟩
      · obtain ⟨t', hrest⟩ := ih hR₁ h
        exact ⟨t', .both (halike _ _ hR) hu ht₁ hrest⟩

/-- A relation that the other system gets back to after each move, with moves of
its own, answers every run. -/
theorem run_answered
    (hstep : ∀ a s s' t, R s t → step a s = some s' →
      ∃ as t', run step' (a :: as) t = some t' ∧ R s' t')
    (hR : R s t) (h : run step as s = some s') :
    ∃ bs t', List.Sublist as bs ∧ run step' bs t = some t' ∧ R s' t' := by
  induction as generalizing s t with
  | nil =>
      cases h
      exact ⟨[], t, List.Sublist.refl _, rfl, hR⟩
  | cons a as ih =>
      obtain ⟨u, hu, h⟩ := Option.bind_eq_some_iff.mp h
      obtain ⟨bs, t₁, ht₁, hR₁⟩ := hstep a s u t hR hu
      obtain ⟨cs, t₂, hsub, ht₂, hR₂⟩ := ih hR₁ h
      refine ⟨a :: bs ++ cs, t₂, ?_, (run_append ht₁).trans ht₂, hR₂⟩
      exact (hsub.trans (List.sublist_append_right bs cs)).cons_cons a

end LlvmPasses.Simulation
