import LlvmPasses.Ir.Syntax

/-!
# Edits

What the passes do to functions through LLVM's utilities, and the maps from
old values to new ones that go with cloning.
-/

namespace LlvmPasses.Ir

/-- `PreservedAnalyses::all()` and `PreservedAnalyses::none()`. -/
inductive PreservedAnalyses where
  | all
  | none
  deriving DecidableEq, Repr

/-! ## Value maps -/

/-- `ValueToValueMapTy`. -/
abbrev ValueMap := Value → Option Value

namespace ValueMap

def empty : ValueMap := fun _ => none

def insert (m : ValueMap) (key target : Value) : ValueMap := fun v =>
  if v = key then some target else m v

/-- All uses of `old` are replaced by `new`: the entry under `old` goes over to
`new`, unless there is one, and targets are followed too. -/
def followReplacement (m : ValueMap) (old new : Value) : ValueMap := fun v =>
  let target := if v = old then none else if v = new then (m new).or (m old) else m v
  target.map fun t => if t = old then new else t

end ValueMap

/-- `RemapInstruction(i, m, RF_IgnoreMissingLocals)`. -/
def Instr.remap {ω : Type} (m : ValueMap) (i : Instr ω) : Instr ω :=
  { i with
    operands := i.operands.map fun v => (m v).getD v
    incoming := i.incoming.map fun k => match m (.block k) with
      | some (.block k') => k'
      | _ => k }

namespace Function

variable (F : Function)

/-! ## Splitting a block -/

/-- `replaceSuccessorsPhiUsesWith`, of a block ending in `term`. -/
def replaceSuccessorsPhiUsesWith (term : Instr TermOp) (old new : Nat) : Function :=
  { F with block := fun k =>
      let b := F.block k
      if k ∈ term.successors then
        { b with instrs := b.phis.map (Instr.replaceIncomingBlock old new) ++ b.body }
      else b }

/-- The blocks in their order, with some inserted behind one. -/
def insertAfter (k : Nat) (new : List Nat) : List Nat → List Nat
  | [] => []
  | j :: order => if j = k then j :: new ++ order else j :: insertAfter k new order

/-- What `SplitBlockAndInsertIfThenElse` makes of a function, besides the
blocks it adds. -/
structure Split where
  fn : Function
  thenBlock : Nat
  elseBlock : Nat
  tail : Nat

/-- `SplitBlockAndInsertIfThenElse`, on a condition to be computed by `cond` at
the end of the instructions before the split point, which are the PHI nodes:
the block keeps them, and all others go to the tail. -/
def splitBlockAndInsertIfThenElse (k : Nat) (cond : Instr Op) : Split :=
  let b := F.block k
  let tail := F.nextBlock
  let thenBlock := F.nextBlock + 1
  let elseBlock := F.nextBlock + 2
  let id := F.nextInst
  let branch (n : Nat) (dests : List Value) : Instr TermOp :=
    ⟨id + n, .void, .br, dests, [], {}⟩
  let G := F.replaceSuccessorsPhiUsesWith b.term k tail
  let phis := (G.block k).phis
  { fn := { G with
      order := insertAfter k [thenBlock, elseBlock, tail] F.order
      block := fun j =>
        if j = k then
          ⟨phis ++ [cond], branch 0 [.inst cond.id, .block elseBlock, .block thenBlock]⟩
        else if j = thenBlock then ⟨[], branch 1 [.block tail]⟩
        else if j = elseBlock then ⟨[], branch 2 [.block tail]⟩
        else if j = tail then ⟨b.body, b.term⟩
        else G.block j
      nextBlock := F.nextBlock + 3
      nextInst := F.nextInst + 3 }
    thenBlock, elseBlock, tail }

end Function

end LlvmPasses.Ir
