import LlvmPasses.Ir.Covers

/-!
# Instructions that do the same

Two instructions with the same operation on the same operands compute the same
with the same effects, whatever their flags, save for poison in the results.
What they come to depends on the environment only in the operands, so this is
said of two environments that agree there.
-/

namespace LlvmPasses.Ir

section Pairs

variable {μ : Type} {W : World μ} {args : List Val} {i j : Instr Op}

theorem evalAll_congr {f g : Value → Option Val} {vs : List Value} (h : ∀ v ∈ vs, f v = g v) :
    evalAll f vs = evalAll g vs := by
  induction vs with
  | nil => rfl
  | cons v vs ih =>
      rw [evalAll, evalAll, h v (List.mem_cons_self ..),
        ih fun w hw => h w (List.mem_cons_of_mem _ hw)]

theorem eval_congr {env env' : Env} {v : Value} (h : ∀ id, v = .inst id → env id = env' id) :
    eval W args env v = eval W args env' v := by
  cases v with
  | inst id => exact h id rfl
  | _ => rfl

/-- Instructions that do the same to the same operands. -/
structure Same (i j : Instr Op) : Prop where
  op : i.op = j.op
  ty : i.ty = j.ty
  operands : i.operands = j.operands

/-- On environments that give the operands the same values, the effects are those
of the operation under one's flags and under the other's. -/
theorem effect_of_same (W : World μ) (args : List Val) (h : Same i j) {env env' : Env}
    (henv : ∀ id, .inst id ∈ i.operands → env id = env' id) (mem : μ) :
    effect W args env mem i = effect W args env' mem j ∨
      ∃ vals, effect W args env mem i = W.apply i.op i.ty i.flags vals mem ∧
        effect W args env' mem j = W.apply i.op i.ty j.flags vals mem ∧
        evalAll (eval W args env) i.operands = some vals := by
  have hdbg : i.isDbgInfoIntrinsic = j.isDbgInfoIntrinsic := by
    unfold Instr.isDbgInfoIntrinsic
    rw [h.op]
  have hvals : evalAll (eval W args env) i.operands = evalAll (eval W args env') j.operands := by
    rw [← h.operands]
    exact evalAll_congr fun v hv => eval_congr fun id hid => henv id (hid ▸ hv)
  unfold effect
  rw [← hdbg, ← hvals, ← h.op, ← h.ty]
  by_cases hi : i.isDbgInfoIntrinsic = true
  · rw [if_pos hi, if_pos hi]
    exact .inl rfl
  rw [if_neg hi, if_neg hi]
  cases evalAll (eval W args env) i.operands with
  | none => exact .inl rfl
  | some vals => exact .inr ⟨vals, rfl, rfl, rfl⟩

/-- Two instructions that do the same agree. -/
theorem effect_same (h : Same i j) {env env' : Env}
    (henv : ∀ id, .inst id ∈ i.operands → env id = env' id) (mem : μ) :
    Effects Agree i.ty mem (effect W args env mem i) (effect W args env' mem j) := by
  rcases effect_of_same W args h henv mem with heq | ⟨vals, hi, hj, -⟩
  · exact .inl heq
  rw [hi, hj]
  exact W.apply_agree i.op i.ty i.flags j.flags vals mem

end Pairs

end LlvmPasses.Ir
