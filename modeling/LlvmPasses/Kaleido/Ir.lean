import LlvmPasses.Lib.Double
import LlvmPasses.Lib.Transition

/-!
# The instructions the code generator emits

The fragment of LLVM IR that `ast.cpp` builds: every value is a `double`, but
for the one-bit results of comparisons. A `Value *`, a `BasicBlock *` and a
`Function *` are handles, numbered in the order of creation.

An alloca is emitted in the entry block only, which no terminator names, so it
runs once in an activation of its function: the handle of the instruction
stands for the cell it makes. A call goes to a behaviour outside the function
that runs: an oracle that is shown every call made so far, the last one being
the call to answer, and that may never answer.
-/

namespace LlvmPasses.Kaleido

/-- `Value *`. -/
inductive Value where
  | const (d : Double)
  | bool (b : Bool)
  | arg (i : Nat)
  | inst (r : Nat)
  deriving DecidableEq, Repr

/-- `FAdd`, `FSub`, `FMul`. -/
inductive FBinOp where
  | add
  | sub
  | mul
  deriving DecidableEq, Repr

def FBinOp.apply (A : Arith) : FBinOp → Double → Double → Double
  | .add => A.add
  | .sub => A.sub
  | .mul => A.mul

/-- `FCmpONE`, `FCmpULT`. -/
inductive FCmpPred where
  | one
  | ult
  deriving DecidableEq, Repr

def FCmpPred.apply : FCmpPred → Double → Double → Bool
  | .one, a, b => !a.unordered b && !a.eq b
  | .ult, a, b => a.unordered b || a.lt b

/-- `UIToFP` of a bit. -/
def boolToDouble (b : Bool) : Double := if b then .one else .zero

inductive Instr where
  | alloca (r : Nat)
  | load (r cell : Nat)
  | store (v : Value) (cell : Nat)
  | fbin (r : Nat) (op : FBinOp) (lhs rhs : Value)
  | fcmp (r : Nat) (pred : FCmpPred) (lhs rhs : Value)
  | uitofp (r : Nat) (v : Value)
  | call (r : Nat) (fn : Nat) (args : List Value)
  | phi (r : Nat) (incoming : List (Value × Nat))
  | br (dest : Nat)
  | condBr (cond : Value) (thenBB elseBB : Nat)
  | ret (v : Value)
  deriving DecidableEq, Repr

namespace Instr

def isTerminator : Instr → Bool
  | .br _ => true
  | .condBr _ _ _ => true
  | .ret _ => true
  | _ => false

/-- The handle an instruction's result goes by. -/
def result : Instr → Option Nat
  | .alloca r | .load r _ | .fbin r _ _ _ | .fcmp r _ _ _ | .uitofp r _ | .call r _ _
  | .phi r _ => some r
  | .store _ _ | .br _ | .condBr _ _ _ | .ret _ => none

/-- The blocks a terminator names. -/
def successors : Instr → List Nat
  | .br dest => [dest]
  | .condBr _ thenBB elseBB => [thenBB, elseBB]
  | _ => []

end Instr

/-! ## Running emitted code -/

/-- One call: the callee's name and the arguments passed. -/
abbrev Call := String × List Double

/-- What the code runs in. -/
structure World where
  arith : Arith
  oracle : List Call → Option Double

/-- What the code refers to: the blocks' instructions and the functions' names. -/
structure Program where
  code : Nat → List Instr
  nameOf : Nat → Option String

/-- A value at run time. -/
inductive RtVal where
  | dbl (d : Double)
  | bit (b : Bool)
  deriving DecidableEq, Repr

namespace RtVal

def double? : RtVal → Option Double
  | .dbl d => some d
  | .bit _ => none

def bit? : RtVal → Option Bool
  | .dbl _ => none
  | .bit b => some b

end RtVal

structure Machine where
  /-- The block that runs, and the one it was entered from. -/
  block : Nat
  prev : Nat
  /-- What is left of the block. -/
  rest : List Instr
  env : Nat → Option RtVal
  cells : Nat → Option Double
  args : List Double
  calls : List Call

namespace Machine

def value (m : Machine) : Value → Option RtVal
  | .const d => some (.dbl d)
  | .bool b => some (.bit b)
  | .arg i => m.args[i]?.map .dbl
  | .inst r => m.env r

def double (m : Machine) (v : Value) : Option Double := (m.value v).bind RtVal.double?

def bit (m : Machine) (v : Value) : Option Bool := (m.value v).bind RtVal.bit?

def doubles (m : Machine) : List Value → Option (List Double)
  | [] => some []
  | v :: vs => do
      let d ← m.double v
      let ds ← m.doubles vs
      some (d :: ds)

/-- The result of the instruction that just ran. -/
def assign (m : Machine) (r : Nat) (x : RtVal) : Machine :=
  { m with env := fun i => if i = r then some x else m.env i }

def setCell (m : Machine) (c : Nat) (x : Option Double) : Machine :=
  { m with cells := fun i => if i = c then x else m.cells i }

def goto (m : Machine) (code : Nat → List Instr) (dest : Nat) : Machine :=
  { m with block := dest, prev := m.block, rest := code dest }

/-- One instruction; `m.rest` is already what follows it. -/
def exec (W : World) (G : Program) (m : Machine) : Instr → Option Machine
  | .alloca r => some (m.setCell r none)
  | .load r cell => do
      let d ← m.cells cell
      some (m.assign r (.dbl d))
  | .store v cell => do
      let d ← m.double v
      some (m.setCell cell (some d))
  | .fbin r op lhs rhs => do
      let a ← m.double lhs
      let b ← m.double rhs
      some (m.assign r (.dbl (op.apply W.arith a b)))
  | .fcmp r pred lhs rhs => do
      let a ← m.double lhs
      let b ← m.double rhs
      some (m.assign r (.bit (pred.apply a b)))
  | .uitofp r v => do
      let b ← m.bit v
      some (m.assign r (.dbl (boolToDouble b)))
  | .call r fn args => do
      let name ← G.nameOf fn
      let ds ← m.doubles args
      let d ← W.oracle (m.calls ++ [(name, ds)])
      some { m.assign r (.dbl d) with calls := m.calls ++ [(name, ds)] }
  | .phi r incoming => do
      let (v, _) ← incoming.find? fun p => p.2 = m.prev
      let d ← m.double v
      some (m.assign r (.dbl d))
  | .br dest => some (m.goto G.code dest)
  | .condBr cond thenBB elseBB => do
      let b ← m.bit cond
      some (m.goto G.code (if b then thenBB else elseBB))
  | .ret _ => none

/-- A call that never answers is waited for: the machine stays where it is. -/
def waits (W : World) (G : Program) (m : Machine) : Instr → Bool
  | .call _ fn args =>
      match G.nameOf fn, m.doubles args with
      | some name, some ds => (W.oracle (m.calls ++ [(name, ds)])).isNone
      | _, _ => false
  | _ => false

/-- A step. The machine halts at the end of the code emitted so far, at a
`ret`, and at an instruction it cannot run. -/
def step (W : World) (G : Program) (m : Machine) : Option Machine :=
  match m.rest with
  | [] => none
  | i :: rest => if m.waits W G i then some m else exec W G { m with rest } i

end Machine

end LlvmPasses.Kaleido
