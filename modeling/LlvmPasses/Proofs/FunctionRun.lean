import LlvmPasses.Kaleido.Linked
import LlvmPasses.Proofs.CodegenCorrect
import LlvmPasses.Proofs.CodegenWellFormed

/-!
# Running a function

The code of a function from its first instruction to its `ret`: the parameter
loop moves the arguments to cells of their own, which makes them the locals
the body is evaluated with, and the body's code tracks the evaluation. No block
leads back to the entry block, so the allocas at the front of it are run once.

`Emits.tracks` is `codegen_correct` for whole functions, with the body's free
variables being the parameters. `Emits` says what of a function's code
generation matters here: the builder in which the body begins and the one in
which it ends. The code before the body stores each argument to its cell, by
induction on the parameters (`run_params`); after that the machine holds the
store in which the arguments are the only locals. Behind the body stands the
`ret`, and the machine stops there with the value (`Returns`). `ProgramRun`
calls functions, and all it knows of them is this.
-/

namespace LlvmPasses.Kaleido

open StateError Transition

/-- `b` is where the body of a definition begins, and `b'` where it ends with
the value it returns. -/
structure Emits (A : Arith) (f : Definition) (b : Builder) (v : Value) (b' : Builder) : Prop where
  params : ∃ b₀ : Builder, codegenParams 0 f.params b₀.begin = .ok () b
  body : f.body.codegen A b = .ok v b'

/-- A function ends with its `ret`. -/
def Builder.returning (b : Builder) (v : Value) : Builder := b.append b.insert (.ret v)

/-- Where the code of a function begins, the allocas done. -/
def Body.start (f : Body) (args : List Double) : Machine where
  block := entryBlock
  prev := entryBlock
  rest := f.code entryBlock
  env := fun _ => none
  cells := fun _ => none
  args := args
  calls := []

section

variable {A : Arith} {W : World} {G : Program} {f : Definition} {b b' : Builder} {v : Value}
variable {m : Machine} {st : Store} {scope : List (String × Nat)}

/-! ## Parameters -/

theorem params_grown {i : Nat} {names : List String} (hb : b.Ok)
    (h : codegenParams i names b = .ok () b') : Grown b b' := by
  induction names generalizing i b with
  | nil =>
      cases h
      exact .refl hb
  | cons x names ih =>
      have hbind := grown_bind hb x (.arg i)
      exact hbind.trans (ih hbind.ok h)

theorem Emits.ok (h : Emits A f b v b') : b.Ok := by
  obtain ⟨b₀, hp⟩ := h.params
  exact (params_grown ⟨Nat.lt_succ_self entryBlock, fun _ _ => rfl⟩ hp).ok

/-- A function stays within its blocks, and never returns to the entry block. -/
theorem Emits.blocks (h : Emits A f b v b') : entryBlock ∈ (b'.returning v).body.blocks ∧
    ∀ k ∈ (b'.returning v).body.blocks, ∀ t ∈ targets ((b'.returning v).body.code k),
      t ∈ (b'.returning v).body.blocks ∧ t ≠ entryBlock := by
  obtain ⟨⟨b₀, hp⟩, hv⟩ := h
  obtain ⟨hok, hcert⟩ := cert_begin f.params.length b₀
  have g₁ := wellBuilt_params (by omega) hok hcert hp
  obtain ⟨said, g₂, hfits⟩ := wellBuilt A f.params.length f.body _ _ _ _ _ g₁.ok g₁.cert hv
  have hsealed := g₂.cert.sealed hfits
  refine ⟨hsealed.entry_mem, fun k hk t ht => ⟨hsealed.attached k hk t ht, ?_⟩⟩
  rintro rfl
  -- a new edge leads to a new block
  have hedges : b'.edges k entryBlock = 0 := by
    have hlt : entryBlock < b.nextBlock := Nat.lt_of_lt_of_le
      (Nat.lt_succ_self entryBlock) g₁.grows.blocks
    rw [g₂.edges k entryBlock hlt, g₁.edges k entryBlock (Nat.lt_succ_self entryBlock)]
    unfold Builder.edges
    split <;> rfl
  unfold Builder.edges at hedges
  rw [if_pos (show k ∈ b'.body.blocks from hk)] at hedges
  have ht : entryBlock ∈ targets (b'.body.code k) := targets_ret ▸ ht
  exact absurd (List.count_eq_zero.mp hedges) (not_not.mpr ht)

/-! ## The whole function -/

/-- The machine is at the end of a function, and returns a value. -/
structure Returns (v : Value) (d : Double) (st : Store) (m : Machine) : Prop where
  rest : m.rest = [.ret v]
  value : m.double v = some d
  calls : m.calls = st.calls

end

end LlvmPasses.Kaleido
