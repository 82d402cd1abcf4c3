import Mathlib.Data.List.TakeWhile
import LlvmPasses.Ir.Meaning
import LlvmPasses.Ir.Steps
import LlvmPasses.Ir.Straight
import LlvmPasses.Ir.WellFormed

/-!
# On the way through a function

Where a run is, and whose results it can have. An instruction that uses its own
result never has one: there would have to be a value before the first.
-/

namespace LlvmPasses.Ir

open Transition

variable {μ : Type} {W : World μ} {F : Function} {args : List Val} {m n : Machine μ} {mem : μ}
variable {i : Instr Op} {rest : List (Instr Op)} {k id : Nat}

/-- The machine is in a block of the function, and its results are of the function. -/
structure Inside (F : Function) (m : Machine μ) : Prop where
  block : m.block ∈ F.order
  suffix : m.rest <:+ (F.block m.block).body
  results : ∀ id x, m.env id = some x → ∃ d ∈ F.defs, d.1 = id
  unborn : ∀ k ∈ F.order, ∀ i ∈ (F.block k).instrs, i.isPhi = false →
    .inst i.id ∈ i.operands → m.env i.id = none

theorem inside_start (hF : F.WellFormed) : Inside F
    (⟨F.entry, (F.block F.entry).body, fun _ => none, mem, []⟩ : Machine μ) where
  block := hF.entry_mem
  suffix := List.suffix_refl _
  results := nofun
  unborn := fun _ _ _ _ _ _ => rfl

theorem Inside.instr_mem (h : Inside F m) (hrest : m.rest = i :: rest) :
    i ∈ (F.block m.block).instrs :=
  (List.dropWhile_sublist _).subset (h.suffix.subset (hrest ▸ List.mem_cons_self ..))

/-- PHI nodes give values to themselves only. -/
theorem readPhis_env {get : Value → Option Val} {prev : Nat} {phis : List (Instr Op)}
    {env env' : Env} (h : readPhis get prev phis env = some env') (hid : id ∉ phis.map Instr.id) :
    env' id = env id := by
  induction phis generalizing env with
  | nil =>
      cases h
      rfl
  | cons phi phis ih =>
      rw [List.map_cons, List.mem_cons, not_or] at hid
      rw [readPhis] at h
      split at h
      · split at h
        · exact (ih h hid.2).trans (Env.set_other _ _ hid.1)
        · cases h
      · cases h

theorem evalAll_none {get : Value → Option Val} {vs : List Value} {v : Value} (hv : v ∈ vs)
    (hnone : get v = none) : evalAll get vs = none := by
  induction vs with
  | nil => cases hv
  | cons w vs ih =>
      rw [evalAll]
      rcases List.mem_cons.mp hv with rfl | hv
      · rw [hnone]
      · rw [ih hv]
        cases get w <;> rfl

/-- An instruction that lacks an operand comes to nothing. -/
theorem execInstr_missing (hdebug : i.isDbgInfoIntrinsic = false) (hid : .inst id ∈ i.operands)
    (hnone : m.env id = none) : execInstr W args m i rest = .undefined m.trace := by
  have heffect : effect W args m.env m.mem i = .undefined := by
    unfold effect
    rw [hdebug, evalAll_none hid hnone]
    rfl
  unfold execInstr
  rw [heffect]

theorem execInstr_place (h : execInstr W args m i rest = .running n) :
    n.block = m.block ∧ n.rest = rest := by
  unfold execInstr at h
  split at h
  · split at h
    · cases h
      exact ⟨rfl, rfl⟩
    · cases h
  · cases h
  · cases h
  · cases h

theorem Inside.instr (h : Inside F m) (hF : F.WellFormed) (hrest : m.rest = i :: rest)
    (hgo : execInstr W args m i rest = .running n) : Inside F n := by
  have hi := h.instr_mem hrest
  obtain ⟨hblock, hrest'⟩ := execInstr_place hgo
  refine ⟨hblock ▸ h.block, ?_, fun id x hx => ?_, fun k hk i' hi' hphi hself => ?_⟩
  · rw [hblock, hrest']
    have hsuffix := h.suffix
    rw [hrest] at hsuffix
    exact (List.suffix_cons i rest).trans hsuffix
  · by_cases hid : id = i.id
    · exact ⟨_, Function.mem_defs_of_instr h.block hi, hid.symm⟩
    · exact h.results id x (execInstr_env hgo hid ▸ hx)
  · have hnone := h.unborn k hk i' hi' hphi hself
    by_cases hid : i'.id = i.id
    · obtain ⟨rfl, rfl⟩ := hF.instr_unique hk h.block hi' hi hid
      have hdebug : i'.isDbgInfoIntrinsic = false := by
        refine Bool.eq_false_iff.mpr fun hdebug => ?_
        cases (hF.debug _ hk i' hi' hdebug).2 _ hself
      rw [execInstr_missing hdebug hself hnone] at hgo
      cases hgo
    · rw [execInstr_env hgo hid]
      exact hnone

theorem enter_running (h : enter W F args m k = .running n) :
    ∃ env, readPhis (eval W args m.env) m.block (F.block k).phis m.env = some env ∧
      n = { m with block := k, rest := (F.block k).body, env := env } := by
  unfold enter at h
  split at h
  · next env hread =>
      cases h
      exact ⟨env, hread, rfl⟩
  · cases h

theorem Inside.term (h : Inside F m) (hF : F.WellFormed)
    (hgo : execTerm W F args m (F.block m.block).term = .running n) : Inside F n := by
  unfold execTerm at hgo
  split at hgo
  case h_1 k v mem events htransfer =>
    have hk : k ∈ F.order := (hF.successors _ h.block k (transfer_goto htransfer)).1
    -- the result of an invoke
    have henv : ∀ id, id ≠ (F.block m.block).term.id →
        ((v.map (m.env.set (F.block m.block).term.id)).getD m.env) id = m.env id := by
      intro id hid
      cases v with
      | none => rfl
      | some v => exact Env.set_other _ _ hid
    obtain ⟨env, hread, rfl⟩ := enter_running hgo
    refine ⟨hk, List.suffix_refl _, fun id x hx => ?_, fun j hj i hi hphi hself => ?_⟩
    · by_cases hid : id ∈ (F.block k).phis.map Instr.id
      · obtain ⟨phi, hphi, rfl⟩ := List.mem_map.mp hid
        exact ⟨_, Function.mem_defs_of_instr hk ((List.takeWhile_sublist _).subset hphi), rfl⟩
      · have hx' := (readPhis_env hread hid).symm.trans hx
        by_cases hid' : id = (F.block m.block).term.id
        · exact ⟨_, Function.mem_defs_term h.block, hid'.symm⟩
        · exact h.results id x ((henv id hid').symm.trans hx')
    · have hout : i.id ∉ (F.block k).phis.map Instr.id := by
        intro hmem
        obtain ⟨phi, hphi', heq⟩ := List.mem_map.mp hmem
        obtain ⟨-, rfl⟩ := hF.instr_unique hk hj ((List.takeWhile_sublist _).subset hphi') hi heq
        have himp : phi.isPhi = true := List.mem_takeWhile_imp hphi'
        rw [hphi] at himp
        cases himp
      have hne : i.id ≠ (F.block m.block).term.id := by
        intro heq
        obtain rfl := hF.block_unique hj h.block (Function.mem_ids.mpr (.inl ⟨i, hi, rfl⟩))
          (Function.mem_ids.mpr (.inr heq.symm))
        exact hF.id_ne_term hj hi heq
      have hnone : env i.id = m.env i.id := (readPhis_env hread hout).trans (henv _ hne)
      exact hnone.trans (h.unborn j hj i hi hphi hself)
  all_goals cases hgo

/-- A step stays in its block or goes to one of its successors. -/
theorem step_block (hgo : step W F args (.running m) = some (.running n)) :
    n.block = m.block ∨ n.block ∈ F.successors m.block := by
  cases hrest : m.rest with
  | nil =>
      rw [step_term hrest, Option.some.injEq] at hgo
      unfold execTerm at hgo
      split at hgo
      case h_1 k v mem events htransfer =>
        obtain ⟨env, -, rfl⟩ := enter_running hgo
        exact .inr (transfer_goto htransfer)
      all_goals cases hgo
  | cons i rest =>
      rw [step_instr hrest, Option.some.injEq] at hgo
      exact .inl (execInstr_place hgo).1

theorem Inside.step (h : Inside F m) (hF : F.WellFormed)
    (hgo : step W F args (.running m) = some (.running n)) : Inside F n := by
  cases hrest : m.rest with
  | nil =>
      rw [step_term hrest, Option.some.injEq] at hgo
      exact h.term hF hgo
  | cons i rest =>
      rw [step_instr hrest, Option.some.injEq] at hgo
      exact h.instr hF hrest hgo

/-- Runs stay inside. -/
theorem inside_of_reaches (hF : F.WellFormed)
    (h : Reaches (step W F args) (start F mem) (.running m)) : Inside F m := by
  refine h.induction (P := fun s => ∀ m, s = .running m → Inside F m) ?_ ?_ m rfl
  · rintro _ ⟨⟩
    exact inside_start hF
  · rintro s t hs hstep n rfl
    cases s with
    | running m => exact (hs m rfl).step hF hstep
    | _ => cases hstep

end LlvmPasses.Ir
