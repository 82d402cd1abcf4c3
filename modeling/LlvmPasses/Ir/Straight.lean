import LlvmPasses.Ir.Exec

/-!
# Straight-line code

Instructions one after the other: what they leave alone, and how a machine gets
through them on its way through a block.
-/

namespace LlvmPasses.Ir

variable {μ : Type} {W : World μ} {args : List Val} {i : Instr Op}
variable {is js rest : List (Instr Op)} {m m' : Machine μ}

/-- What an instruction that has run has done to the environment. -/
theorem execInstr_env (h : execInstr W args m i rest = .running m') {id : Nat}
    (hid : id ≠ i.id) : m'.env id = m.env id := by
  unfold execInstr at h
  split at h
  · split at h
    · next env hassign =>
        cases h
        unfold Env.assign at hassign
        split at hassign
        · split at hassign
          · cases hassign
            rfl
          · cases hassign
        · split at hassign
          · cases hassign
            exact Env.set_other _ _ hid
          · cases hassign
    · cases h
  · cases h
  · cases h
  · cases h

theorem execAll_env (h : execAll W args is m = .running m') {id : Nat}
    (hid : id ∉ is.map Instr.id) : m'.env id = m.env id := by
  induction is generalizing m with
  | nil =>
      cases h
      rfl
  | cons i is ih =>
      rw [List.map_cons, List.mem_cons, not_or] at hid
      rw [execAll] at h
      cases hi : execInstr W args m i [] with
      | running n =>
          simp only [hi] at h
          rw [ih h hid.2, execInstr_env hi hid.1]
      | _ =>
          simp only [hi] at h
          cases h

/-- What has been seen from outside stays. -/
theorem execInstr_trace (h : execInstr W args m i rest = .running m') :
    ∃ events, m'.trace = m.trace ++ events := by
  unfold execInstr at h
  split at h
  · split at h
    · cases h
      exact ⟨_, rfl⟩
    · cases h
  · cases h
  · cases h
  · cases h

theorem execAll_trace (h : execAll W args is m = .running m') :
    ∃ events, m'.trace = m.trace ++ events := by
  induction is generalizing m with
  | nil =>
      cases h
      exact ⟨[], (List.append_nil _).symm⟩
  | cons i is ih =>
      rw [execAll] at h
      cases hi : execInstr W args m i [] with
      | running n =>
          simp only [hi] at h
          obtain ⟨events, hevents⟩ := execInstr_trace hi
          obtain ⟨events', hevents'⟩ := ih h
          exact ⟨events ++ events', by rw [hevents', hevents, List.append_assoc]⟩
      | _ =>
          simp only [hi] at h
          cases h

theorem execAll_rest : execAll W args is { m with rest := rest } = execAll W args is m := by
  cases is with
  | nil => rfl
  | cons i is => rfl

/-- The configuration with other instructions still to come. -/
def withRest (rest : List (Instr Op)) : Config μ → Config μ
  | .running n => .running { n with rest }
  | c => c

theorem execInstr_rest :
    execInstr W args m i rest = withRest rest (execInstr W args m i []) := by
  unfold execInstr
  cases effect W args m.env m.mem i with
  | done v mem events =>
      simp only
      cases m.env.assign i.id i.ty v with
      | some env => rfl
      | none => rfl
  | _ => rfl

theorem execAll_append (h : execAll W args is m = .running m') :
    execAll W args (is ++ js) m = execAll W args js m' := by
  induction is generalizing m with
  | nil =>
      cases h
      exact execAll_rest.symm
  | cons i is ih =>
      rw [List.cons_append, execAll]
      rw [execAll] at h
      cases hi : execInstr W args m i [] with
      | running n =>
          simp only [hi] at h
          exact ih h
      | _ =>
          simp only [hi] at h
          cases h

end LlvmPasses.Ir
