/-!
# The IR the passes rewrite

Functions of basic blocks, as the passes see them through LLVM's interface. An
instruction is an opcode with the state that goes with it, a list of operands,
and for a PHI node the incoming blocks beside them. Instructions, blocks and
globals go by handles, which are numbers: names never matter to a function pass.

A block's terminator is kept apart from its other instructions and has opcodes
of its own, so there is no block without one and none with two.
-/

namespace LlvmPasses.Ir

inductive Ty where
  | void
  | int (width : Nat)
  | half
  | float
  | double
  | fp128
  | ptr
  | label
  | vec (n : Nat) (elem : Ty)
  | array (n : Nat) (elem : Ty)
  /-- The struct of an entry of `llvm.global_dtors`. -/
  | dtorEntry
  deriving DecidableEq, Repr

def Ty.isIntegerTy : Ty → Bool
  | .int _ => true
  | _ => false

def Ty.isVoidTy : Ty → Bool
  | .void => true
  | _ => false

inductive Value where
  | inst (id : Nat)
  | arg (i : Nat)
  | constInt (width : Nat) (val : BitVec width)
  | constFP (ty : Ty) (bits : Nat)
  /-- A constant vector of integers; a lane that is missing is poison. -/
  | constVec (width : Nat) (lanes : List (Option (BitVec width)))
  | global (id : Nat)
  | block (k : Nat)
  | null
  | poison (ty : Ty)
  deriving DecidableEq, Repr

/-! ## Opcodes -/

inductive BinOp where
  | add | sub | mul | udiv | sdiv | urem | srem
  | shl | lshr | ashr | and | or | xor
  deriving DecidableEq, Repr

inductive FBinOp where
  | fadd | fsub | fmul | fdiv | frem
  deriving DecidableEq, Repr

inductive ICmpPred where
  | eq | ne | ugt | uge | ult | ule | sgt | sge | slt | sle
  deriving DecidableEq, Repr

inductive FCmpPred where
  | oeq | ogt | oge | olt | ole | one | ord
  | uno | ueq | ugt | uge | ult | ule | une
  deriving DecidableEq, Repr

inductive CastOp where
  | trunc | zext | sext | fptrunc | fpext | fptoui | fptosi | uitofp | sitofp
  | ptrtoint | inttoptr | bitcast
  deriving DecidableEq, Repr

/-- What an instruction other than a terminator does, with the part of its
state that `isSameOperationAs` compares. A call's callee is its last operand. -/
inductive Op where
  | binop (op : BinOp)
  | fbinop (op : FBinOp)
  | fneg
  | icmp (pred : ICmpPred)
  | fcmp (pred : FCmpPred)
  | cast (op : CastOp)
  | select
  | freeze
  | phi
  | alloca (allocated : Ty) (align : Nat)
  | load (isVolatile : Bool) (align : Nat)
  | store (isVolatile : Bool) (align : Nat)
  | getelementptr (source : Ty)
  | call (isDbgInfoIntrinsic : Bool)
  | landingpad (isCleanup : Bool)
  deriving DecidableEq, Repr

inductive TermOp where
  | ret | br | switch | indirectbr | invoke | resume | unreachable
  deriving DecidableEq, Repr

/-- The flags that make a result poison, which `isSameOperationAs` ignores. -/
structure Flags where
  nuw : Bool := false
  nsw : Bool := false
  exact : Bool := false
  deriving DecidableEq, Repr

/-! ## Instructions and blocks -/

structure Instr (ω : Type) where
  id : Nat
  ty : Ty
  op : ω
  operands : List Value
  incoming : List Nat := []
  flags : Flags := {}
  deriving DecidableEq, Repr

namespace Instr

variable {ω : Type}

def isPhi (i : Instr Op) : Bool := i.op == .phi

def isDbgInfoIntrinsic (i : Instr Op) : Bool := i.op == .call true

/-- `PHINode::getIncomingValueForBlock`, which asserts that there is one. -/
def getIncomingValueForBlock (i : Instr Op) (k : Nat) : Option Value :=
  ((i.incoming.zip i.operands).find? fun p => p.1 == k).map Prod.snd

/-- The incoming blocks of a PHI node, each with its value. -/
def entries (i : Instr ω) : List (Nat × Value) := i.incoming.zip i.operands

/-- Every operand that is `old` becomes `new`. -/
def replaceUses (old new : Value) (i : Instr ω) : Instr ω :=
  { i with operands := i.operands.map fun v => if v = old then new else v }

/-- `PHINode::replaceIncomingBlockWith`. -/
def replaceIncomingBlock (old new : Nat) (i : Instr ω) : Instr ω :=
  { i with incoming := i.incoming.map fun k => if k = old then new else k }

/-- `BranchInst::isUnconditional`. A conditional branch holds its condition,
the block it takes on false and the block it takes on true, in that order. -/
def isUnconditionalBr (t : Instr TermOp) : Bool := t.op == .br && t.operands.length == 1

/-- Every second one, from the first on. -/
def evens {α : Type} : List α → List α
  | [] => []
  | [a] => [a]
  | a :: _ :: l => a :: evens l

/-- The operands that name the blocks control goes to, first successor first. -/
def successorOperands (t : Instr TermOp) : List Value :=
  match t.op, t.operands with
  | .br, [dest] => [dest]
  | .br, [_, ifFalse, ifTrue] => [ifTrue, ifFalse]
  | .switch, _ :: dests => evens dests
  | .indirectbr, _ :: dests => dests
  | .invoke, operands =>
      let dests := operands.dropLast
      dests.drop (dests.length - 2)
  | _, _ => []

def successors (t : Instr TermOp) : List Nat :=
  t.successorOperands.filterMap fun
    | .block k => some k
    | _ => none

end Instr

structure Block where
  instrs : List (Instr Op)
  term : Instr TermOp
  deriving DecidableEq, Repr

namespace Block

/-- The results defined in the block, with their types. -/
def defs (b : Block) : List (Nat × Ty) :=
  b.instrs.map (fun i => (i.id, i.ty)) ++ [(b.term.id, b.term.ty)]

def phis (b : Block) : List (Instr Op) := b.instrs.takeWhile Instr.isPhi

/-- From the first instruction that is no PHI node on. -/
def body (b : Block) : List (Instr Op) := b.instrs.dropWhile Instr.isPhi

def replaceUses (old new : Value) (b : Block) : Block where
  instrs := b.instrs.map (Instr.replaceUses old new)
  term := b.term.replaceUses old new

end Block

/-! ## Functions -/

structure Function where
  params : List Ty
  retTy : Ty
  /-- The blocks in their order, the entry block first; none in a declaration. -/
  order : List Nat
  block : Nat → Block
  /-- From here on handles are free. -/
  nextBlock : Nat
  nextInst : Nat
  optnone : Bool := false

namespace Function

variable (F : Function)

def isDeclaration : Bool := F.order.isEmpty

/-- `&F->getEntryBlock() == k`. -/
def isEntryBlock (k : Nat) : Bool := F.order.head? == some k

/-- The entry block of a function that has one. -/
def entry : Nat := F.order.headD 0

/-- `successors(k)`. -/
def successors (k : Nat) : List Nat := (F.block k).term.successors

/-- The edges from one block to another: a terminator may name a block twice. -/
def edges (p k : Nat) : Nat := (F.block p).term.operands.count (.block k)

def blocks : List Block := F.order.map F.block

/-- The results defined in the function, with their types. -/
def defs : List (Nat × Ty) := F.blocks.flatMap Block.defs

def typeOf : Value → Ty
  | .inst id => ((F.defs.find? fun d => d.1 == id).map Prod.snd).getD .void
  | .arg i => F.params.getD i .void
  | .constInt width _ => .int width
  | .constFP ty _ => ty
  | .constVec width lanes => .vec lanes.length (.int width)
  | .global _ => .ptr
  | .block _ => .label
  | .null => .ptr
  | .poison ty => ty

/-- `block->getTerminator()->getOperand(i)`. -/
def termOperand (k : Nat) (i : Nat) : Option Value := (F.block k).term.operands[i]?

/-- The function with one block changed. -/
def setBlock (k : Nat) (b : Block) : Function :=
  { F with block := fun j => if j = k then b else F.block j }

/-- New instructions at the entry block's `getFirstInsertionPt`, made in order. -/
def insertFirst (new : List (Instr Op)) : Function :=
  let b := F.block F.entry
  { F.setBlock F.entry { b with instrs := b.phis ++ new ++ b.body } with
    nextInst := F.nextInst + new.length }

/-- `Value::replaceAllUsesWith`, of a value that is no block. -/
def replaceAllUsesWith (old new : Value) : Function :=
  { F with block := fun k => (F.block k).replaceUses old new }

/-- The uses of a value in operands: where, and the user if it is no terminator. -/
def users (v : Value) : List (Nat × Option (Instr Op)) :=
  F.order.flatMap fun k =>
    (F.block k).instrs.flatMap (fun i =>
      (i.operands.filter fun w => w == v).map fun _ => (k, some i)) ++
    ((F.block k).term.operands.filter fun w => w == v).map fun _ => (k, none)

end Function

end LlvmPasses.Ir
