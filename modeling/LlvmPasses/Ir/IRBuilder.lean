import LlvmPasses.Ir.Exec

/-!
# IRBuilder

Instructions made one after the other in front of an instruction. What is asked
for on constants comes back as a constant, and no instruction is made.
-/

namespace LlvmPasses.Ir

/-- The width of an integer constant. -/
def Value.constWidth : Value → Option Nat
  | .constInt w _ | .poison (.int w) => some w
  | _ => none

/-- `ConstantFolder::FoldBinOp`, of constants of an integer type. -/
def foldBinOp (op : BinOp) (lhs rhs : Value) : Option Value :=
  match lhs, rhs with
  | .constInt w x, .constInt w' y =>
      if h : w' = w then
        match op.applyInt {} x (h ▸ y) with
        | some (.int w z) => some (.constInt w z)
        | _ => some (.poison (.int w))
      else none
  | _, _ =>
      match lhs.constWidth, rhs.constWidth with
      | some w, some w' => if w' = w then some (.poison (.int w)) else none
      | _, _ => none

/-- `IRBuilder<>`: the instructions it has inserted, and from where on handles
are free. -/
structure IRBuilder where
  inserted : List (Instr Op)
  next : Nat

namespace IRBuilder

/-- `Insert(I)`. -/
def insert (ty : Ty) (op : Op) (operands : List Value) : StateM IRBuilder Value := fun builder =>
  (.inst builder.next, {
    inserted := builder.inserted ++ [⟨builder.next, ty, op, operands, [], {}⟩]
    next := builder.next + 1 })

/-- `CreateBinOp` on operands of the type `ty`, without flags. -/
def createBinOp (op : BinOp) (ty : Ty) (lhs rhs : Value) : StateM IRBuilder Value :=
  match foldBinOp op lhs rhs with
  | some v => pure v
  | none => insert ty (.binop op) [lhs, rhs]

def createAdd (ty : Ty) (lhs rhs : Value) : StateM IRBuilder Value := createBinOp .add ty lhs rhs

def createMul (ty : Ty) (lhs rhs : Value) : StateM IRBuilder Value := createBinOp .mul ty lhs rhs

def createAnd (ty : Ty) (lhs rhs : Value) : StateM IRBuilder Value := createBinOp .and ty lhs rhs

def createXor (ty : Ty) (lhs rhs : Value) : StateM IRBuilder Value := createBinOp .xor ty lhs rhs

/-- `CreateNot`, of a value of `w` bits. -/
def createNot (w : Nat) (v : Value) : StateM IRBuilder Value :=
  createXor (.int w) v (.constInt w (BitVec.allOnes w))

end IRBuilder

namespace Function

variable (F : Function)

/-- A builder whose insertion point is the instruction at position `i` of the
block `k` has run: what it left, and how many instructions it inserted. -/
def build {α : Type} (k i : Nat) (m : StateM IRBuilder α) : α × Nat × Function :=
  let (v, builder) := m ⟨[], F.nextInst⟩
  let b := F.block k
  let instrs := b.instrs.take i ++ builder.inserted ++ b.instrs.drop i
  (v, builder.inserted.length, { F.setBlock k { b with instrs } with nextInst := builder.next })

end Function

end LlvmPasses.Ir
