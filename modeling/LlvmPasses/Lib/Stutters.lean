import LlvmPasses.Lib.Transition

/-!
# Stuttering simulation

One system follows another, where some steps of the follower match none of the
leader's. A rank that every such step lowers keeps the follower from falling
behind for ever, and it stops only where the leader does. Both systems are
deterministic, so each reaches what matches what the other reaches, and one
halts exactly if the other does. The follower may also wait for steps of the
leader that match none of its own, if these lower a rank as well.

The follower may depend on a condition that the leader does not know of. It
follows for as long as the leader's states meet it, and comes to a state that
matches the first one that does not.
-/

namespace LlvmPasses.Transition

variable {σ τ : Type}

/-- Each side may be ahead of the other for a while. States match under `R`, and
under `S` whenever the leader has just taken a step. -/
structure Staggers (step : σ → Option σ) (step' : τ → Option τ) (guard : σ → Prop)
    (lag : σ → Nat) (rank : τ → Nat) (S R : σ → τ → Prop) : Prop where
  settled : ∀ s t, S s t → R s t
  follow : ∀ s t, R s t → guard s →
    (∃ s', step s = some s' ∧ S s' t ∧ lag s' < lag s) ∨
      ((step' t = none → step s = none) ∧ ∀ t', step' t = some t' →
        (∃ s', step s = some s' ∧ S s' t') ∨ (R s t' ∧ rank t' < rank t))

/-- Only the follower may be behind. -/
structure Stutters (step : σ → Option σ) (step' : τ → Option τ) (guard : σ → Prop)
    (rank : τ → Nat) (R : σ → τ → Prop) : Prop where
  follow : ∀ s t t', R s t → guard s → step' t = some t' →
    (∃ s', step s = some s' ∧ R s' t') ∨ (R s t' ∧ rank t' < rank t)
  stop : ∀ s t, R s t → step' t = none → step s = none

variable {step : σ → Option σ} {step' : τ → Option τ} {guard good : σ → Prop} {lag : σ → Nat}
variable {rank : τ → Nat} {S R : σ → τ → Prop} {s s' : σ} {t t' : τ}

theorem Stutters.staggers (h : Stutters step step' guard rank R) :
    Staggers step step' guard (fun _ => 0) rank R R where
  settled := fun _ _ hR => hR
  follow := fun s t hR hguard => .inr ⟨h.stop s t hR, fun t' => h.follow s t t' hR hguard⟩

namespace Staggers

/-- The follower comes to the match of the leader's next step. -/
theorem catchUp (h : Staggers step step' guard lag rank S R) (hR : R s t) (hguard : guard s)
    (hs : step s = some s') : ∃ t', Reaches step' t t' ∧ S s' t' := by
  induction hn : rank t using Nat.strongRecOn generalizing t with
  | ind n ih =>
      rcases h.follow s t hR hguard with ⟨s₁, hs₁, hR₁, -⟩ | ⟨hstop, hgo⟩
      · rw [hs] at hs₁
        cases hs₁
        exact ⟨t, .refl t, hR₁⟩
      cases ht : step' t with
      | none =>
          rw [hstop ht] at hs
          cases hs
      | some u =>
          rcases hgo u ht with ⟨s₁, hs₁, hu⟩ | ⟨hu, hlt⟩
          · rw [hs] at hs₁
            cases hs₁
            exact ⟨u, .single ht, hu⟩
          · obtain ⟨t', ht', hR'⟩ := ih (rank u) (hn ▸ hlt) hu rfl
            exact ⟨t', (Reaches.single ht).trans ht', hR'⟩

/-- Where the leader has stopped, the follower stops after a while. -/
theorem settle (h : Staggers step step' guard lag rank S R) (hR : R s t) (hguard : guard s)
    (hs : step s = none) : ∃ t', Halts step' t t' ∧ R s t' := by
  induction hn : rank t using Nat.strongRecOn generalizing t with
  | ind n ih =>
      rcases h.follow s t hR hguard with ⟨s₁, hs₁, -⟩ | ⟨-, hgo⟩
      · rw [hs] at hs₁
        cases hs₁
      cases ht : step' t with
      | none => exact ⟨t, ⟨.refl t, ht⟩, hR⟩
      | some u =>
          rcases hgo u ht with ⟨s₁, hs₁, -⟩ | ⟨hu, hlt⟩
          · rw [hs] at hs₁
            cases hs₁
          · obtain ⟨t', ⟨ht', hstop⟩, hR'⟩ := ih (rank u) (hn ▸ hlt) hu rfl
            exact ⟨t', ⟨(Reaches.single ht).trans ht', hstop⟩, hR'⟩

/-- Whatever the leader reaches is matched, unless the condition failed before. -/
theorem reaches_or (h : Staggers step step' guard lag rank S R) (hR : R s t)
    (hs : Reaches step s s') : (∃ t', Reaches step' t t' ∧ R s' t') ∨
      ∃ u t', Reaches step s u ∧ ¬ guard u ∧ Reaches step' t t' ∧ R u t' := by
  refine And.right (hs.induction (P := fun u => Reaches step s u ∧
    ((∃ t', Reaches step' t t' ∧ R u t') ∨ _)) ⟨.refl s, .inl ⟨t, .refl t, hR⟩⟩ ?_)
  rintro a b ⟨ha, ⟨t₁, ht₁, hRa⟩ | hfailed⟩ hstep
  · by_cases hguard : guard a
    · obtain ⟨t₂, ht₂, hRb⟩ := h.catchUp hRa hguard hstep
      exact ⟨ha.trans (.single hstep), .inl ⟨t₂, ht₁.trans ht₂, h.settled _ _ hRb⟩⟩
    · exact ⟨ha.trans (.single hstep), .inr ⟨a, t₁, ha, hguard, ht₁, hRa⟩⟩
  · exact ⟨ha.trans (.single hstep), .inr hfailed⟩

/-- If the condition fails somewhere, a state where it fails is matched. -/
theorem reaches_failed (h : Staggers step step' guard lag rank S R) (hR : R s t)
    (hs : Reaches step s s') (hfails : ¬ guard s') :
    ∃ u t', ¬ guard u ∧ Reaches step' t t' ∧ R u t' := by
  rcases h.reaches_or hR hs with ⟨t', ht', hR'⟩ | ⟨u, t', -, hu, ht', hR'⟩
  · exact ⟨s', t', hfails, ht', hR'⟩
  · exact ⟨u, t', hu, ht', hR'⟩

/-- A good state is matched, if no other state comes before one and the condition
holds wherever one comes next. -/
theorem reaches_good (h : Staggers step step' guard lag rank S R) (hS : S s t)
    (hbefore : ∀ a b, Reaches step s a → step a = some b → good b → good a ∧ guard a)
    (hs : Reaches step s s') (hgood : good s') : ∃ t', Reaches step' t t' ∧ S s' t' := by
  refine And.right (hs.induction (P := fun u => Reaches step s u ∧
    (good u → ∃ t', Reaches step' t t' ∧ S u t')) ⟨.refl s, fun _ => ⟨t, .refl t, hS⟩⟩ ?_) hgood
  rintro a b ⟨ha, hmatched⟩ hstep
  refine ⟨ha.trans (.single hstep), fun hb => ?_⟩
  obtain ⟨hgood, hguard⟩ := hbefore a b ha hstep hb
  obtain ⟨t₁, ht₁, hSa⟩ := hmatched hgood
  obtain ⟨t₂, ht₂, hSb⟩ := h.catchUp (h.settled _ _ hSa) hguard hstep
  exact ⟨t₂, ht₁.trans ht₂, hSb⟩

section

variable (h : Staggers step step' guard lag rank S R) (hR : R s t)
variable (hguard : ∀ u, Reaches step s u → guard u)

include h hR hguard

/-- Whatever the leader reaches is matched. -/
theorem reaches (hs : Reaches step s s') : ∃ t', Reaches step' t t' ∧ R s' t' := by
  rcases h.reaches_or hR hs with hmatched | ⟨u, -, hu, hfails, -⟩
  · exact hmatched
  · exact absurd (hguard u hu) hfails

/-- The leader comes to where the follower goes on, or where both stop. -/
theorem wait : ∃ s', Reaches step s s' ∧ R s' t ∧ (step' t = none → step s' = none) ∧
    ∀ t', step' t = some t' → (∃ u, step s' = some u ∧ S u t') ∨ R s' t' := by
  induction hn : lag s using Nat.strongRecOn generalizing s with
  | ind n ih =>
      rcases h.follow s t hR (hguard s (.refl s)) with ⟨s₁, hs₁, hR₁, hlt⟩ | ⟨hstop, hgo⟩
      · have hsingle : Reaches step s s₁ := .single hs₁
        obtain ⟨s', hs', hrest⟩ :=
          ih (lag s₁) (hn ▸ hlt) (h.settled _ _ hR₁) (fun u hu => hguard u (hsingle.trans hu)) rfl
        exact ⟨s', hsingle.trans hs', hrest⟩
      · exact ⟨s, .refl s, hR, hstop, fun t' ht => (hgo t' ht).imp_right And.left⟩

/-- Whatever the follower reaches matches something. -/
theorem reached (ht : Reaches step' t t') : ∃ s', Reaches step s s' ∧ R s' t' :=
  ht.induction (P := fun u => ∃ s', Reaches step s s' ∧ R s' u) ⟨s, .refl s, hR⟩
    fun a b ⟨s₁, hs₁, ha⟩ hstep => by
      obtain ⟨s₂, hs₂, hR₂, -, hgo⟩ := h.wait ha fun u hu => hguard u (hs₁.trans hu)
      rcases hgo b hstep with ⟨s₃, hs₃, hb⟩ | hb
      · exact ⟨s₃, (hs₁.trans hs₂).trans (.single hs₃), h.settled _ _ hb⟩
      · exact ⟨s₂, hs₁.trans hs₂, hb⟩

theorem halts (hs : Halts step s s') : ∃ t', Halts step' t t' ∧ R s' t' := by
  obtain ⟨t₁, ht₁, hR₁⟩ := h.reaches hR hguard hs.1
  obtain ⟨t', ⟨ht', hstop⟩, hR'⟩ := h.settle hR₁ (hguard s' hs.1) hs.2
  exact ⟨t', ⟨ht₁.trans ht', hstop⟩, hR'⟩

theorem halted (ht : Halts step' t t') : ∃ s', Halts step s s' ∧ R s' t' := by
  obtain ⟨s₁, hs₁, hR₁⟩ := h.reached hR hguard ht.1
  obtain ⟨s', hs', hR', hstop, -⟩ := h.wait hR₁ fun u hu => hguard u (hs₁.trans hu)
  exact ⟨s', ⟨hs₁.trans hs', hstop ht.2⟩, hR'⟩

end

end Staggers

end LlvmPasses.Transition
