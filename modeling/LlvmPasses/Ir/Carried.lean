import LlvmPasses.Ir.Builds
import LlvmPasses.Ir.Rename
import LlvmPasses.Ir.WellFormed

/-!
# Values that are there under other names

Another environment may have all the values that there are in one, each under
the name that its own goes by, and more besides. What has a defined meaning in
the one has the same meaning in the other.
-/

namespace LlvmPasses.Ir

/-- Operands of the function have been made. -/
theorem Function.WellFormed.operand_before {F : Function} {k : Nat} {v : Value} (hF : F.WellFormed)
    (hI : ∀ d ∈ F.defs, d.1 < F.nextInst) (hk : k ∈ F.order) (hv : v ∈ (F.block k).operands) :
    v.Before F.nextInst := by
  rintro id rfl
  obtain ⟨d, hd, rfl, -⟩ := hF.operands k hk (.inst id) hv
  exact hI d hd

theorem mem_operands {b : Block} {i : Instr Op} {v : Value} (hi : i ∈ b.instrs)
    (hv : v ∈ i.operands) : v ∈ b.operands :=
  List.mem_append_left _ (List.mem_flatMap.mpr ⟨i, hi, hv⟩)

/-- The renaming leaves alone what is no result, and results from the handle on. -/
structure Fixes (n : Nat) (τ : Value → Value) : Prop where
  inst : ∀ id, n ≤ id → τ (.inst id) = .inst id
  other : ∀ v, Function.isInst v = false → τ v = v

theorem fixes_id (n : Nat) : Fixes n id := ⟨fun _ _ => rfl, fun _ _ => rfl⟩

theorem Fixes.const {n : Nat} {τ : Value → Value} (h : Fixes n τ) {v : Value} {ty : Ty}
    (hv : v.constTy = some ty) : τ v = v := by
  refine h.other v ?_
  cases v with
  | inst id => cases hv
  | _ => rfl

section

variable {μ : Type} (W : World μ) (args : List Val)

/-- Every value that is there in the one is there in the other. -/
def Carried (σ : Value → Value) (env env' : Env) : Prop :=
  ∀ v x, eval W args env v = some x → eval W args env' (σ v) = some x

end

variable {μ : Type} {W : World μ} {args : List Val} {σ : Value → Value} {env env' : Env} {mem : μ}
variable {get get' : Value → Option Val} {n id : Nat}

theorem evalAll_mono {vs : List Value} {xs : List Val}
    (h : ∀ v ∈ vs, ∀ x, get v = some x → get' (σ v) = some x) (hxs : evalAll get vs = some xs) :
    evalAll get' (vs.map σ) = some xs := by
  induction vs generalizing xs with
  | nil => exact hxs
  | cons v vs ih =>
      rw [evalAll] at hxs
      cases hx : get v with
      | none => simp [hx] at hxs
      | some x =>
          cases htail : evalAll get vs with
          | none => simp [hx, htail] at hxs
          | some ys =>
              simp only [hx, htail] at hxs
              have hx' := h v (List.mem_cons_self ..) x hx
              have htail' := ih (fun w hw => h w (List.mem_cons_of_mem _ hw)) htail
              rw [List.map_cons, evalAll, hx', htail']
              exact hxs

theorem effect_carried {i : Instr Op} (h : Carried W args σ env env')
    (hdefined : effect W args env mem i ≠ .undefined) :
    effect W args env' mem (i.mapOperands σ) = effect W args env mem i := by
  unfold effect at hdefined ⊢
  have hsame : (i.mapOperands σ).isDbgInfoIntrinsic = i.isDbgInfoIntrinsic := rfl
  rw [hsame]
  by_cases hdebug : i.isDbgInfoIntrinsic = true
  · rw [if_pos hdebug, if_pos hdebug]
  · rw [if_neg hdebug] at hdefined ⊢
    rw [if_neg hdebug]
    cases hvals : evalAll (eval W args env) i.operands with
    | none => simp [hvals] at hdefined
    | some vals =>
        have hvals' : evalAll (eval W args env') (i.mapOperands σ).operands = some vals :=
          evalAll_mono (fun v _ x hx => h v x hx) hvals
        rw [hvals']
        rfl

/-- What a terminator comes to, with more values there. -/
theorem transfer_mono {t : Instr TermOp} (h : ∀ v x, get v = some x → get' v = some x)
    (hdefined : W.transfer t get mem ≠ .undefined) :
    W.transfer t get' mem = W.transfer t get mem := by
  have hsome : ∀ v, (∃ x, get v = some x) → get' v = get v := by
    rintro v ⟨x, hx⟩
    rw [hx, h v x hx]
  unfold World.transfer at hdefined ⊢
  split
  case h_2 c _ _ hop hops =>
    rw [hsome c]
    by_contra hno
    exact hdefined (by simp [hop, hops, Option.eq_none_iff_forall_ne_some.mpr (not_exists.mp hno)])
  case h_3 c _ _ hop hops =>
    rw [hsome c]
    by_contra hno
    exact hdefined (by simp [hop, hops, Option.eq_none_iff_forall_ne_some.mpr (not_exists.mp hno)])
  case h_4 a _ hop hops =>
    rw [hsome a]
    by_contra hno
    exact hdefined (by simp [hop, hops, Option.eq_none_iff_forall_ne_some.mpr (not_exists.mp hno)])
  case h_6 v hop hops =>
    rw [hsome v]
    by_contra hno
    exact hdefined (by simp [hop, hops, Option.eq_none_iff_forall_ne_some.mpr (not_exists.mp hno)])
  case h_7 hop =>
    cases hvals : evalAll get (callOperands t.operands) with
    | none => simp [hop, hvals] at hdefined
    | some vals =>
        have hmore : ∀ v ∈ callOperands t.operands, ∀ x, get v = some x →
            get' (id v) = some x := fun v _ => h v
        have hvals' := evalAll_mono hmore hvals
        rw [List.map_id] at hvals'
        rw [hvals']
  all_goals rfl

theorem transfer_carried {t : Instr TermOp} (h : Carried W args σ env env')
    (hblock : KeepsBlocks σ) (hcase : t.KeepsCases σ)
    (hdefined : W.transfer t (eval W args env) mem ≠ .undefined) :
    W.transfer (t.mapOperands σ) (eval W args env') mem = W.transfer t (eval W args env) mem := by
  have hmore : ∀ v x, eval W args env v = some x → eval W args env' (σ v) = some x := h
  exact (transfer_map hblock hcase fun _ _ => rfl).trans (transfer_mono hmore hdefined)

/-! ## Results -/

/-- Only the result itself goes by its name. -/
def Owns (σ : Value → Value) (id : Nat) : Prop := ∀ id', σ (.inst id') = .inst id ↔ id' = id

theorem carried_of_inst (hσ : Fixes n σ)
    (h : ∀ id x, env id = some x → eval W args env' (σ (.inst id)) = some x) :
    Carried W args σ env env' := by
  intro v x hx
  cases v with
  | inst id => exact h id x hx
  | _ =>
      rw [hσ.other _ rfl]
      exact hx

theorem Carried.set (h : Carried W args σ env env') (hσ : Fixes n σ) (hid : Owns σ id) (v : Val) :
    Carried W args σ (env.set id v) (env'.set id v) := by
  refine carried_of_inst hσ fun id' x hx => ?_
  by_cases hself : id' = id
  · subst hself
    rw [(hid id').mpr rfl]
    rw [Env.set_self] at hx
    exact (Env.set_self ..).trans hx
  · rw [Env.set_other _ _ hself] at hx
    rw [← h (.inst id') x hx]
    refine eval_congr fun j hj => Env.set_other _ _ ?_
    rintro rfl
    exact hself ((hid id').mp hj)

theorem Carried.assign (h : Carried W args σ env env') (hσ : Fixes n σ) (hid : Owns σ id) {ty : Ty}
    {v : Option Val} {env₁ : Env} (hassign : env.assign id ty v = some env₁) :
    ∃ env₁', env'.assign id ty v = some env₁' ∧ Carried W args σ env₁ env₁' := by
  unfold Env.assign at hassign ⊢
  cases v with
  | none =>
      by_cases hty : ty = .void
      · simp only [if_pos hty, Option.some.injEq] at hassign ⊢
        exact ⟨env', rfl, hassign ▸ h⟩
      · simp [if_neg hty] at hassign
  | some v =>
      by_cases hty : v.hasTy ty = true
      · simp only [if_pos hty, Option.some.injEq] at hassign ⊢
        exact ⟨env'.set id v, rfl, hassign ▸ h.set hσ hid v⟩
      · simp [if_neg hty] at hassign

/-- PHI nodes read the same values. -/
theorem Carried.readPhis {prev : Nat} {phis : List (Instr Op)} {env₁ : Env}
    (hget : ∀ v x, get v = some x → get' (σ v) = some x) (hσ : Fixes n σ)
    (hids : ∀ phi ∈ phis, Owns σ phi.id) (h : Carried W args σ env env')
    (hread : Ir.readPhis get prev phis env = some env₁) :
    ∃ env₁', Ir.readPhis get' prev (phis.map (Instr.mapOperands σ)) env' = some env₁' ∧
      Carried W args σ env₁ env₁' := by
  induction phis generalizing env env' with
  | nil =>
      cases hread
      exact ⟨env', rfl, h⟩
  | cons phi phis ih =>
      obtain ⟨hid, hids⟩ := List.forall_mem_cons.mp hids
      rw [Ir.readPhis] at hread
      cases hv : phi.getIncomingValueForBlock prev with
      | none => simp [hv] at hread
      | some v =>
          cases hx : get v with
          | none => simp [hv, hx] at hread
          | some x =>
              simp only [hv, Option.bind_some, hx] at hread
              split at hread
              · next hty =>
                  have hphi : ((phi.mapOperands σ).getIncomingValueForBlock prev).bind get' =
                      some x := by
                    rw [getIncoming_mapOperands, hv]
                    exact hget v x hx
                  obtain ⟨env₁', hread', h'⟩ := ih hids (h.set hσ hid x) hread
                  refine ⟨env₁', ?_, h'⟩
                  rw [List.map_cons, Ir.readPhis, hphi]
                  exact (if_pos hty).trans hread'
              · cases hread

end LlvmPasses.Ir
