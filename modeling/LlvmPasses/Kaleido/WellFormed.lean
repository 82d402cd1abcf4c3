import LlvmPasses.Kaleido.Builder
import LlvmPasses.Lib.Flow

/-!
# Well-formed functions

What a function has to satisfy for its code to make sense, as the verifier
would check it: blocks that end in a terminator and have no other, terminators
that name attached blocks, a `phi` entry for each edge into its block, and
operands that are defined on whatever path control has come by.
-/

namespace LlvmPasses.Kaleido

/-- The registers a value refers to. -/
def Value.uses : Value → List Nat
  | .inst r => [r]
  | _ => []

/-- The argument a value refers to, if any, is one of the function's. -/
def Value.ArgBelow (params : Nat) : Value → Prop
  | .arg i => i < params
  | _ => True

namespace Instr

/-- The values an instruction reads where it stands. A `phi` reads its values
on the edges into its block. -/
def operands : Instr → List Value
  | .store v _ => [v]
  | .fbin _ _ lhs rhs => [lhs, rhs]
  | .fcmp _ _ lhs rhs => [lhs, rhs]
  | .uitofp _ v => [v]
  | .call _ _ args => args
  | .condBr cond _ _ => [cond]
  | .ret v => [v]
  | .alloca _ | .load _ _ | .phi _ _ | .br _ => []

/-- The cells an instruction reads or writes. -/
def cells : Instr → List Nat
  | .load _ cell => [cell]
  | .store _ cell => [cell]
  | _ => []

/-- Every register an instruction refers to where it stands. -/
def uses (i : Instr) : List Nat := i.operands.flatMap Value.uses ++ i.cells

def isAlloca : Instr → Bool
  | .alloca _ => true
  | _ => false

end Instr

/-- The registers a run of instructions defines. -/
def results (is : List Instr) : List Nat := is.filterMap Instr.result

/-- The blocks a run of instructions may leave for. -/
def targets (is : List Instr) : List Nat := is.flatMap Instr.successors

namespace Body

def Edge (f : Body) (k t : Nat) : Prop := k ∈ f.blocks ∧ t ∈ targets (f.instrs k)

/-- How many times the terminator of `p` names `k`. -/
def edges (f : Body) (p k : Nat) : Nat :=
  if p ∈ f.blocks then (targets (f.instrs p)).count k else 0

/-- Control reaches the block by leaving these blocks in turn. -/
abbrev Path (f : Body) : List Nat → Nat → Prop := Flow.Path entryBlock f.Edge

/-- What a path has defined. -/
def defined (f : Body) (path : List Nat) : List Nat := path.flatMap fun k => results (f.instrs k)

/-- The function is well formed; `params` is the number of its parameters. -/
structure WellFormed (f : Body) (params : Nat) : Prop where
  entry_mem : entryBlock ∈ f.blocks
  /-- Every block ends in a terminator and has none earlier. -/
  terminated : ∀ k ∈ f.blocks, ∃ init t, f.instrs k = init ++ [t] ∧ t.isTerminator = true ∧
    ∀ i ∈ init, i.isTerminator = false
  /-- Every block a terminator names is attached to the function. -/
  attached : ∀ k t, f.Edge k t → t ∈ f.blocks
  /-- No predecessor has two entries in a `phi`. -/
  phi_nodup : ∀ k ∈ f.blocks, ∀ r incoming, Instr.phi r incoming ∈ f.instrs k →
    (incoming.map Prod.snd).Nodup
  /-- A `phi` has one entry for each edge into its block and no other. -/
  phi_edges : ∀ k ∈ f.blocks, ∀ r incoming, Instr.phi r incoming ∈ f.instrs k →
    ∀ p, (incoming.map Prod.snd).count p = f.edges p k
  /-- What an instruction refers to is defined on every path to it. -/
  uses_defined : ∀ k path pre i post, k ∈ f.blocks → f.Path path k →
    f.instrs k = pre ++ i :: post → ∀ r ∈ i.uses, r ∈ f.defined path ++ results pre
  /-- What a `phi` reads on an edge is defined on every path that ends in it. -/
  incoming_defined : ∀ k ∈ f.blocks, ∀ r incoming, Instr.phi r incoming ∈ f.instrs k →
    ∀ q ∈ incoming, ∀ path, f.Path path q.2 → ∀ r ∈ q.1.uses,
      r ∈ f.defined path ++ results (f.instrs q.2)
  /-- The arguments referred to are the function's. -/
  args_lt : ∀ k ∈ f.blocks, ∀ i ∈ f.instrs k, ∀ v ∈ i.operands, v.ArgBelow params
  /-- The allocas are in the entry block, ahead of everything that uses one. -/
  allocas : ∃ pre rest, f.instrs entryBlock = pre ++ rest ∧ (∀ i ∈ pre, i.isAlloca = true) ∧
    (∀ i ∈ rest, i.isAlloca = false) ∧
    (∀ k ∈ f.blocks, k ≠ entryBlock → ∀ i ∈ f.instrs k, i.isAlloca = false) ∧
    ∀ k ∈ f.blocks, ∀ i ∈ f.instrs k, ∀ c ∈ i.cells, c ∈ results pre

end Body

end LlvmPasses.Kaleido
