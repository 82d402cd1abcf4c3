import LlvmPasses.Ir.Edit
import LlvmPasses.Ir.IRBuilder

/-!
# MBAAdd and MBASub

Both passes put something more complicated in front of every operation of one
kind, which then takes its place. The operations themselves are erased when all
have been gone through.
-/

namespace LlvmPasses

open Ir IRBuilder

namespace MBA

/-- `isa<BinaryOperator>(i)`. -/
def isBinaryOperator (i : Instr Op) : Bool :=
  match i.op with
  | .binop _ | .fbinop _ => true
  | _ => false

def getOperand (i : Instr Op) (n : Nat) : Value := i.operands.getD n (.poison i.ty)

/-- The instructions a pass takes, and what it builds for one. -/
structure Rule where
  selects : Instr Op → Bool
  build : Instr Op → StateM IRBuilder Value

/-- The operators to erase, each with the block it is in. -/
abbrev FreeList := List (Nat × Nat)

/-- What a rule builds for an operator is inserted in front of it and used in its
place; it comes with how many instructions that are. -/
def replace (rule : Rule) (k i : Nat) (binop : Instr Op) (s : Function × FreeList) :
    Nat × Function × FreeList :=
  let (v, inserted, F) := s.1.build k i (rule.build binop)
  (inserted, F.replaceAllUsesWith (.inst binop.id) v, s.2 ++ [(k, binop.id)])

/-- The loop over the instructions of a block from position `i` on, with as many
left as there are rounds. -/
def visit (rule : Rule) (k : Nat) : Nat → Nat → Function × FreeList → Function × FreeList
  | 0, _, s => s
  | n + 1, i, s =>
      match (s.1.block k).instrs[i]? with
      | none => s
      | some binop =>
          if rule.selects binop then
            let (inserted, s) := replace rule k i binop s
            visit rule k n (i + inserted + 1) s
          else visit rule k n (i + 1) s

/-- `eraseFromParent`, of the operators on the list. -/
def eraseFromParents (F : Function) (freeList : FreeList) : Function :=
  { F with block := fun k =>
      let b := F.block k
      { b with instrs := b.instrs.filter fun i =>
          !(isBinaryOperator i && freeList.contains (k, i.id)) } }

/-- Both loops of a pass, and whether it has changed anything. -/
def substitute (rule : Rule) (F : Function) : Bool × Function :=
  let (G, freeList) := F.order.foldl (fun s k => visit rule k (s.1.block k).instrs.length 0 s)
    (F, [])
  (!freeList.isEmpty, eraseFromParents G freeList)

end MBA

namespace MBAAdd

/-- `ConstantInt::get(binop->getType(), n)`. -/
def constant (n : Nat) : Value := .constInt 8 (BitVec.ofNat 8 n)

def isAdd (i : Instr Op) : Bool := i.op == .binop .add && i.ty == .int 8

def obfuscate (binop : Instr Op) : StateM IRBuilder Value := do
  let ty := binop.ty
  let xor ← createXor ty (MBA.getOperand binop 0) (MBA.getOperand binop 1)
  let bitand ← createAnd ty (MBA.getOperand binop 0) (MBA.getOperand binop 1)
  let combined ← createAdd ty xor (← createMul ty (constant 2) bitand)
  let withNums1 ← createAdd ty (← createMul ty combined (constant 39)) (constant 23)
  createAdd ty (← createMul ty withNums1 (constant 151)) (constant 111)

def rule : MBA.Rule := ⟨isAdd, obfuscate⟩

/-- `MBAAdd::run`. -/
def run (F : Function) : PreservedAnalyses × Function := (.all, (MBA.substitute rule F).2)

end MBAAdd

namespace MBASub

def isSub (i : Instr Op) : Bool := i.op == .binop .sub && i.ty.isIntegerTy

def obfuscate (binop : Instr Op) : StateM IRBuilder Value := do
  let w := match binop.ty with
    | .int w => w
    | _ => 0
  let not ← createNot w (MBA.getOperand binop 1)
  let add ← createAdd binop.ty (MBA.getOperand binop 0) not
  createAdd binop.ty add (.constInt w (BitVec.ofNat w 1))

def rule : MBA.Rule := ⟨isSub, obfuscate⟩

/-- `MBASub::run`. -/
def run (F : Function) : PreservedAnalyses × Function :=
  let (changed, F) := MBA.substitute rule F
  (if changed then .none else .all, F)

end MBASub

end LlvmPasses
