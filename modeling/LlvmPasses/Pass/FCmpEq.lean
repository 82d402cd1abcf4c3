import Mathlib.Algebra.Group.Nat.Defs
import LlvmPasses.Ir.Edit
import LlvmPasses.Ir.IRBuilder

/-!
# FindFCmpEq and ConvertFCmpEq

The analysis lists the comparisons of floating-point numbers for equality. The
pass compares how far the numbers are apart with an epsilon instead, on doubles
and bit by bit.
-/

namespace LlvmPasses

open Ir IRBuilder

/-- `FCmpInst::isEquality`. -/
def isEquality : FCmpPred → Bool
  | .oeq | .one | .ueq | .une => true
  | _ => false

namespace FindFCmpEq

def finds (i : Instr Op) : Bool :=
  match i.op with
  | .fcmp pred => isEquality pred
  | _ => false

/-- `FindFCmpEq::run`: the handles of the comparisons. -/
def run (F : Function) : List Nat :=
  F.blocks.flatMap fun b => (b.instrs.filter finds).map Instr.id

end FindFCmpEq

namespace ConvertFCmpEq

/-- What `ConstantFolder` makes of a difference or a bit pattern of constants. -/
structure Folder where
  fsub : Value → Value → Option Value
  bitcast : Value → Ty → Option Value

def convertPredicate : FCmpPred → Option FCmpPred
  | .oeq => some .olt
  | .ueq => some .ult
  | .one => some .oge
  | .une => some .uge
  | _ => none

def signMask : Value := .constInt 64 (BitVec.ofNat 64 (2 ^ 63 - 1))

def epsilonValue : Value := .constFP .double 0x3CB0000000000000

/-- `CreateFSub` on operands of the type `ty`. -/
def createFSub (folder : Folder) (ty : Ty) (lhs rhs : Value) : StateM IRBuilder Value :=
  match folder.fsub lhs rhs with
  | some v => pure v
  | none => insert ty (.fbinop .fsub) [lhs, rhs]

/-- `CreateBitCast` of a value of the type `ty`. -/
def createBitCast (folder : Folder) (ty : Ty) (v : Value) (dest : Ty) : StateM IRBuilder Value :=
  if ty = dest then pure v
  else match folder.bitcast v dest with
  | some v => pure v
  | none => insert dest (.cast .bitcast) [v]

/-- The absolute value of the difference, where the first operand is of the
type `ty`. -/
def absDifference (folder : Folder) (ty : Ty) (lhs rhs : Value) : StateM IRBuilder Value := do
  let fsub ← createFSub folder ty lhs rhs
  let castToI64 ← createBitCast folder ty fsub (.int 64)
  let absValue ← createAnd (.int 64) castToI64 signMask
  createBitCast folder (.int 64) absValue .double

/-- Where a comparison is: its block, its position and itself. -/
def locate (F : Function) (id : Nat) : Option (Nat × Nat × Instr Op) :=
  F.order.findSome? fun k =>
    ((F.block k).instrs.zipIdx.find? fun e => FindFCmpEq.finds e.1 && e.1.id == id).map
      fun e => (k, e.2, e.1)

/-- `convertFCmpEq`, of the comparison under a handle; there is none if it is
no longer one, or no longer there. -/
def convertFCmpEq (folder : Folder) (F : Function) (id : Nat) : Bool × Function :=
  match locate F id with
  | none => (false, F)
  | some (k, i, fcmp) =>
      match fcmp.op, fcmp.operands with
      | .fcmp pred, [lhs, rhs] =>
          match convertPredicate pred with
          | none => (false, F)
          | some pred =>
              let (castToDouble, inserted, F) :=
                F.build k i (absDifference folder (F.typeOf lhs) lhs rhs)
              let fcmp := { fcmp with op := .fcmp pred, operands := [castToDouble, epsilonValue] }
              let b := F.block k
              (true, F.setBlock k { b with instrs := b.instrs.set (i + inserted) fcmp })
      | _, _ => (false, F)

/-- `ConvertFCmpEq::run` on what the analysis has found. -/
def run (folder : Folder) (analysis : List Nat) (F : Function) : PreservedAnalyses × Function :=
  let (changed, F) :=
    if F.optnone then (false, F)
    else analysis.foldl (fun (changed, F) id =>
      let (converted, F) := convertFCmpEq folder F id
      (changed || converted, F)) (false, F)
  (if changed then .none else .all, F)

end ConvertFCmpEq

end LlvmPasses
