import LlvmPasses.Ir.Syntax

/-!
# Types of instructions

What the rules of the IR ask of the types of operators, of comparisons of
floating-point numbers and of reinterpretations. Other instructions are not
looked at.
-/

namespace LlvmPasses.Ir

namespace Ty

/-- `getScalarType`. -/
def scalar : Ty → Ty
  | .vec _ elem => elem
  | ty => ty

def isFloatingPointTy : Ty → Bool
  | .half | .float | .double | .fp128 => true
  | _ => false

/-- `getPrimitiveSizeInBits`, of a type that has one. -/
def sizeInBits : Ty → Option Nat
  | .int w => some w
  | .half => some 16
  | .float => some 32
  | .double => some 64
  | .fp128 => some 128
  | .vec n elem => (sizeInBits elem).map (n * ·)
  | _ => none

/-- `CmpInst::makeCmpResultType`. -/
def makeCmpResultType : Ty → Ty
  | .vec n _ => .vec n (.int 1)
  | _ => .int 1

/-- `CastInst::castIsValid`, of a bitcast. -/
def castIsValid : Ty → Ty → Bool
  | .ptr, dest => dest == .ptr
  | src, dest => src.sizeInBits.isSome && src.sizeInBits == dest.sizeInBits

end Ty

/-- The type of a constant. -/
def Value.constTy : Value → Option Ty
  | .constInt w _ => some (.int w)
  | .constFP ty _ => some ty
  | .constVec w lanes => some (.vec lanes.length (.int w))
  | .global _ | .null => some .ptr
  | .poison ty => some ty
  | _ => none

/-- The types of the operands, under `T`, and of the result go together. -/
def Instr.checks (T : Value → Ty) (i : Instr Op) : Bool :=
  match i.op, i.operands with
  | .binop _, [x, y] => T x == i.ty && T y == i.ty && i.ty.scalar.isIntegerTy
  | .binop _, _ => false
  | .fbinop _, [x, y] => T x == i.ty && T y == i.ty && i.ty.scalar.isFloatingPointTy
  | .fbinop _, _ => false
  | .fcmp _, [x, y] =>
      T y == T x && (T x).scalar.isFloatingPointTy && i.ty == (T x).makeCmpResultType
  | .fcmp _, _ => false
  | .cast .bitcast, [x] => (T x).castIsValid i.ty
  | .cast .bitcast, _ => false
  | _, _ => true

namespace Function

/-- The instructions of the function are well typed. -/
def WellTyped (F : Function) : Prop :=
  ∀ k ∈ F.order, ∀ i ∈ (F.block k).instrs, i.checks F.typeOf = true

instance (F : Function) : Decidable F.WellTyped :=
  inferInstanceAs (Decidable (∀ k ∈ F.order, ∀ i ∈ (F.block k).instrs, i.checks F.typeOf = true))

theorem typeOf_const (F : Function) {v : Value} {ty : Ty} (h : v.constTy = some ty) :
    F.typeOf v = ty := by
  cases v with
  | inst id => cases h
  | arg i => cases h
  | block k => cases h
  | _ => exact Option.some.inj h

end Function

end LlvmPasses.Ir
