import LlvmPasses.Ir.Types
import LlvmPasses.Proofs.DuplicatePass
import LlvmPasses.Proofs.MBASim

/-!
# Functions that the passes support

What the transformations ask of a function before they run: it is well formed
and well typed, its PHI nodes go with its edges, and its blocks end in `br`,
`switch` or `ret`. What they leave is supported again, so that they can run one
after the other.
-/

namespace LlvmPasses.Ir

/-- What the passes ask of a function, and leave. -/
structure Function.Supported (F : Function) : Prop where
  wellFormed : F.WellFormed
  issued : DuplicateBB.Issued F
  wellTyped : F.WellTyped
  matched : F.PhisMatch
  /-- Control is never in the entry block again. -/
  entry : (F.block F.entry).phis = []
  terminators : ∀ k ∈ F.order, (F.block k).term.op ∈ [TermOp.br, .switch, .ret]
  /-- A terminator holds no block that it does not go to. -/
  targets : ∀ k ∈ F.order, ∀ j, .block j ∈ (F.block k).term.operands → j ∈ F.successors k
  switches : MBA.Switches F

variable {F : Function}

theorem Function.Supported.not_invoke (h : F.Supported) :
    ∀ k ∈ F.order, (F.block k).term.op ≠ .invoke := by
  intro k hk heq
  have hmem := h.terminators k hk
  rw [heq] at hmem
  simp at hmem

/-- There are no edges but to successors. -/
theorem Function.Supported.edges_eq_zero (h : F.Supported) {k j : Nat} (hk : k ∈ F.order)
    (hj : j ∉ F.successors k) : F.edges k j = 0 :=
  List.count_eq_zero.mpr fun hmem => hj (h.targets k hk j hmem)

/-- Under names that keep blocks there are as many edges. -/
theorem count_block_map {f : Value → Value} (hf : KeepsBlocks f) (vs : List Value) (j : Nat) :
    (vs.map f).count (.block j) = vs.count (.block j) := by
  rw [List.count_eq_countP, List.countP_map, List.count_eq_countP]
  refine List.countP_congr fun v _ => ?_
  simp only [Function.comp_apply, beq_iff_eq]
  exact hf v j

/-! ## Types of operands that go by other names -/

theorem checks_mapOperands (T : Value → Ty) (f : Value → Value) (i : Instr Op) :
    (i.mapOperands f).checks T = i.checks fun v => T (f v) := by
  obtain ⟨id, ty, op, operands, incoming, flags⟩ := i
  unfold Instr.mapOperands Instr.checks
  cases op with
  | binop op => rcases operands with _ | ⟨x, _ | ⟨y, _ | ⟨z, vs⟩⟩⟩ <;> rfl
  | fbinop op => rcases operands with _ | ⟨x, _ | ⟨y, _ | ⟨z, vs⟩⟩⟩ <;> rfl
  | fcmp pred => rcases operands with _ | ⟨x, _ | ⟨y, _ | ⟨z, vs⟩⟩⟩ <;> rfl
  | cast op => cases op <;> rcases operands with _ | ⟨x, _ | ⟨y, vs⟩⟩ <;> rfl
  | _ => rfl

theorem checks_of_phi (T : Value → Ty) {i : Instr Op} (h : i.op = .phi) : i.checks T = true := by
  unfold Instr.checks
  rw [h]

end LlvmPasses.Ir
