import LlvmPasses.Ir.Carried
import LlvmPasses.Ir.Straight

/-!
# What a builder's code does

The code that a builder has inserted runs through and leaves the values that
were asked for, one after the other. Operands may go by other names when it is
run: other uses have been replaced since, of what was there before the builder
started. So values are known by what they go by in the end.
-/

namespace LlvmPasses.Ir

theorem BinOp.apply_int {op : BinOp} {w w' : Nat} {f : Flags} {x y : BitVec w'} {z : Val}
    (h : op.apply w f (.int w' x) (.int w' y) = some z) :
    w' = w ∧ op.applyInt f x y = some z := by
  by_cases hw : w' = w
  · subst hw
    refine ⟨rfl, ?_⟩
    unfold BinOp.apply at h
    dsimp only at h
    rwa [dif_pos ⟨rfl, rfl⟩] at h
  · unfold BinOp.apply at h
    dsimp only at h
    rw [dif_neg fun hboth => hw hboth.1] at h
    cases h

theorem BinOp.apply_poison {op : BinOp} {w : Nat} {f : Flags} {x y z : Val}
    (h : op.apply w f x y = some z) (hpoison : x = .poison ∨ y = .poison) : z = .poison := by
  unfold BinOp.apply at h
  split at h
  · rcases hpoison with hpoison | hpoison <;> cases hpoison
  · split at h
    · cases h
    · exact (Option.some.inj h).symm
  · split at h
    · cases h
    · exact (Option.some.inj h).symm
  · split at h
    · cases h
    · exact (Option.some.inj h).symm
  · cases h

/-- An operation on integers comes to a value of their type. -/
theorem BinOp.apply_hasTy {op : BinOp} {w : Nat} {f : Flags} {x y z : Val}
    (h : op.apply w f x y = some z) : z.hasTy (.int w) = true := by
  unfold BinOp.apply at h
  split at h
  · split at h
    · next heq =>
        obtain ⟨rfl, rfl⟩ := heq
        rcases applyInt_cases h with rfl | ⟨z, rfl⟩
        · rfl
        · exact beq_self_eq_true _
    · cases h
  · split at h
    · cases h
    · cases h
      rfl
  · split at h
    · cases h
    · cases h
      rfl
  · split at h
    · cases h
    · cases h
      rfl
  · cases h

section

variable {μ : Type} {W : World μ} {args : List Val} {env env' : Env} {op : BinOp} {w : Nat}
variable {lhs rhs v : Value} {x y z : Val}

/-- Folding is sound: the constant is the value that would have been computed. -/
theorem foldBinOp_sound (hfold : foldBinOp op lhs rhs = some v)
    (hx : eval W args env lhs = some x) (hy : eval W args env rhs = some y)
    (hz : op.apply w {} x y = some z) : eval W args env' v = some z := by
  have hconst : ∀ {u a w'}, Value.constWidth u = some w' → eval W args env u = some a →
      (∃ b, u = .constInt w' b ∧ a = .int w' b) ∨ u = .poison (.int w') ∧ a = .poison := by
    intro u a w' hu ha
    unfold Value.constWidth at hu
    split at hu
    · cases hu
      exact .inl ⟨_, rfl, (Option.some.inj ha).symm⟩
    · cases hu
      exact .inr ⟨rfl, (Option.some.inj ha).symm⟩
    · cases hu
  unfold foldBinOp at hfold
  split at hfold
  · split at hfold
    · next w₁ a w₂ b heq =>
        subst heq
        obtain rfl := Option.some.inj hx
        obtain rfl := Option.some.inj hy
        obtain ⟨-, hz⟩ := BinOp.apply_int hz
        dsimp only at hfold
        rw [hz] at hfold
        rcases applyInt_cases hz with rfl | ⟨c, rfl⟩
        · cases hfold
          rfl
        · cases hfold
          rfl
    · cases hfold
  · next hnot =>
      split at hfold
      · next w₁ w₂ hl hr =>
          split at hfold
          · cases hfold
            have hpoison : x = .poison ∨ y = .poison := by
              rcases hconst hl hx with ⟨a, rfl, rfl⟩ | ⟨rfl, rfl⟩
              · rcases hconst hr hy with ⟨b, rfl, rfl⟩ | ⟨rfl, rfl⟩
                · exact (hnot _ _ _ _ rfl rfl).elim
                · exact .inr rfl
              · exact .inl rfl
            exact congrArg some (BinOp.apply_poison hz hpoison).symm
          · cases hfold
      · cases hfold

end

/-! ## Runs -/

namespace IRBuilder

section

variable {μ : Type} (W : World μ) (args : List Val) (τ : Value → Value) (n e : Nat)

/-- What has been inserted since the handle `n` runs through from a machine and
leaves an environment, in which no other handles have changed. -/
structure Runs (m : Machine μ) (b : IRBuilder) (env : Env) : Prop where
  run : execAll W args (b.inserted.map (Instr.mapOperands τ)) m =
    .running { m with rest := [], env }
  frame : ∀ id, id < n ∨ b.next ≤ id → env id = m.env id
  le : n ≤ b.next

/-- The value is there, and none of the handles up to `e` that are still to be
taken is it. -/
structure Knows (b : IRBuilder) (env : Env) (v : Value) (x : Val) : Prop where
  eval : eval W args env (τ v) = some x
  away : ∀ id, τ v = .inst id → id < b.next ∨ e ≤ id

end

variable {μ : Type} {W : World μ} {args : List Val} {τ : Value → Value} {n e : Nat}
variable {m : Machine μ} {b : IRBuilder} {env : Env} {ty : Ty} {op : Op} {operands : List Value}
variable {xs : List Val} {x y z : Val} {v lhs rhs : Value}

theorem runs_nil (m : Machine μ) : Runs W args τ n m ⟨[], n⟩ m.env :=
  ⟨rfl, fun _ _ => rfl, Nat.le_refl n⟩

theorem knows_const {ty : Ty} (hτ : Fixes n τ) (hv : v.constTy = some ty)
    (hx : Ir.eval W args env v = some x) : Knows W args τ e b env v x where
  eval := by rwa [hτ.const hv]
  away := by
    rw [hτ.const hv]
    rintro id rfl
    cases hv

/-- One more step: what it leaves is known, and so is all that was known before. -/
def Grows (W : World μ) (args : List Val) (τ : Value → Value) (n e : Nat) (m : Machine μ)
    (b : IRBuilder) (env : Env) (p : Value × IRBuilder) (z : Val) : Prop :=
  ∃ env', Runs W args τ n m p.2 env' ∧ Knows W args τ e p.2 env' p.1 z ∧
    ∀ u a, Knows W args τ e b env u a → Knows W args τ e p.2 env' u a

/-- A constant has come back. -/
theorem Runs.folded {ty : Ty} (h : Runs W args τ n m b env) (hτ : Fixes n τ)
    (hv : v.constTy = some ty) (hz : Ir.eval W args env v = some z) :
    Grows W args τ n e m b env (v, b) z :=
  ⟨env, h, knows_const hτ hv hz, fun _ _ hu => hu⟩

theorem Runs.inserted (h : Runs W args τ n m b env) (hτ : Fixes n τ)
    (hvals : evalAll (Ir.eval W args env) (operands.map τ) = some xs)
    (happly : W.apply op ty {} xs m.mem = .done (some z) m.mem []) (hty : z.hasTy ty = true)
    (hop : op ≠ .call true) (he : b.next < e) :
    Grows W args τ n e m b env (insert ty op operands b) z := by
  have hexec : execInstr W args { m with rest := [], env }
      ((⟨b.next, ty, op, operands, [], {}⟩ : Instr Op).mapOperands τ) [] =
      .running { m with rest := [], env := env.set b.next z } := by
    have hdebug : ((⟨b.next, ty, op, operands, [], {}⟩ : Instr Op).mapOperands τ).isDbgInfoIntrinsic
        = false := beq_eq_false_iff_ne.mpr hop
    have heffect : effect W args env m.mem
        ((⟨b.next, ty, op, operands, [], {}⟩ : Instr Op).mapOperands τ) =
        .done (some z) m.mem [] := by
      unfold effect
      rw [hdebug]
      simp only [Bool.false_eq_true, if_false, Instr.mapOperands, hvals, happly]
    unfold execInstr
    dsimp only
    rw [heffect]
    simp only [Instr.mapOperands, Env.assign, hty, if_true, List.append_nil]
  refine ⟨env.set b.next z, ⟨?_, fun id hid => ?_, Nat.le_succ_of_le h.le⟩, ⟨?_, ?_⟩,
    fun u a hu => ⟨?_, fun id hid => ?_⟩⟩
  · show execAll W args ((b.inserted ++ [_]).map _) m = _
    rw [List.map_append, execAll_append h.run, List.map_singleton]
    simp only [execAll, hexec]
  · have hne : id ≠ b.next := by
      have hid : id < n ∨ b.next + 1 ≤ id := hid
      have hle := h.le
      omega
    have hid : id < n ∨ b.next ≤ id := hid.imp_right fun hlt => Nat.le_of_succ_le hlt
    rw [Env.set_other _ _ hne]
    exact h.frame id hid
  · show Ir.eval W args _ (τ (.inst b.next)) = _
    rw [hτ.inst _ h.le]
    exact Env.set_self ..
  · intro id hid
    have hid : τ (.inst b.next) = .inst id := hid
    rw [hτ.inst _ h.le] at hid
    cases hid
    exact .inl (Nat.lt_succ_self _)
  · rw [← hu.eval]
    refine eval_congr fun id hid => Env.set_other _ _ ?_
    have haway := hu.away id hid
    omega
  · exact (hu.away id hid).imp_left Nat.lt_succ_of_lt

theorem createBinOp_le {op : BinOp} {ty : Ty} (b : IRBuilder) :
    b.next ≤ (createBinOp op ty lhs rhs b).2.next := by
  unfold createBinOp
  cases foldBinOp op lhs rhs with
  | some v => exact Nat.le_refl _
  | none => exact Nat.le_succ _

theorem evalAll_pair (hx : Knows W args τ e b env lhs x) (hy : Knows W args τ e b env rhs y) :
    evalAll (Ir.eval W args env) ([lhs, rhs].map τ) = some [x, y] := by
  simp only [List.map_cons, List.map_nil, evalAll, hx.eval, hy.eval]

/-- An operation on integers that are known. -/
theorem Runs.createBinOp {op : BinOp} {w : Nat} (h : Runs W args τ n m b env) (hτ : Fixes n τ)
    (hx : Knows W args τ e b env lhs x) (hy : Knows W args τ e b env rhs y)
    (hz : op.apply w {} x y = some z)
    (he : (IRBuilder.createBinOp op (.int w) lhs rhs b).2.next ≤ e) :
    Grows W args τ n e m b env (IRBuilder.createBinOp op (.int w) lhs rhs b) z := by
  unfold IRBuilder.createBinOp at he ⊢
  cases hfold : foldBinOp op lhs rhs with
  | some v =>
      obtain ⟨w', hl, hr, hv⟩ := foldBinOp_constTy hfold
      have hl' := hx.eval
      have hr' := hy.eval
      rw [hτ.const hl] at hl'
      rw [hτ.const hr] at hr'
      exact h.folded hτ hv (foldBinOp_sound hfold hl' hr' hz)
  | none =>
      rw [hfold] at he
      refine h.inserted hτ (evalAll_pair hx hy) ?_ (BinOp.apply_hasTy hz) nofun he
      show computes m.mem (op.apply w {} x y) = _
      rw [hz]
      rfl

end IRBuilder

end LlvmPasses.Ir
