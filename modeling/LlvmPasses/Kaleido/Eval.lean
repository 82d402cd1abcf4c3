import LlvmPasses.Kaleido.Ast
import LlvmPasses.Kaleido.Ir
import LlvmPasses.Lib.StateError

/-!
# The reference evaluation

What an expression means, stated for itself: nothing here is translated from
the source. A variable is a local, introduced by an enclosing `var` or `for`
and found by name, the innermost first; or it is one of the outer variables,
each of which `outer` places in a cell. Operands and arguments are evaluated
from the left to the right.

Each loop runs on the same budget, `fuel`, spent one unit a round, and a call
that never answers exhausts any budget: an evaluation that ends answers on
some budget, and one that does not times out on every one.
-/

namespace LlvmPasses.Kaleido

/-- What an evaluation changes. -/
structure Store where
  locals : List (String × Double)
  cells : Nat → Double
  calls : List Call

abbrev EvalM (α : Type) := EStateM Halt Store α

/-- Ordered, and not zero. -/
def isTrue (d : Double) : Bool := !d.unordered .zero && !d.eq .zero

/-- Update the innermost binding of a name. -/
def assoc (x : String) (v : Double) : List (String × Double) → List (String × Double)
  | [] => []
  | (y, w) :: l => if y = x then (y, v) :: l else (y, w) :: assoc x v l

section Effects

variable (outer : String → Option Nat)

def readVar (x : String) : EvalM Double := fun st =>
  match st.locals.lookup x with
  | some v => .ok v st
  | none =>
      match outer x with
      | some c => .ok (st.cells c) st
      | none => .error .wrong st

def writeVar (x : String) (v : Double) : EvalM Unit := fun st =>
  match st.locals.lookup x with
  | some _ => .ok () { st with locals := assoc x v st.locals }
  | none =>
      match outer x with
      | some c => .ok () { st with cells := fun k => if k = c then v else st.cells k }
      | none => .error .wrong st

end Effects

def pushLocal (x : String) (v : Double) : EvalM Unit := fun st =>
  .ok () { st with locals := (x, v) :: st.locals }

/-- Leave the scope of the `n` innermost locals. -/
def dropLocals (n : Nat) : EvalM Unit := fun st =>
  .ok () { st with locals := st.locals.drop n }

def callFn (W : World) (name : String) (args : List Double) : EvalM Double := fun st =>
  let calls := st.calls ++ [(name, args)]
  match W.oracle calls with
  | some d => .ok d { st with calls }
  | none => .error .timeout st

mutual

def eval (W : World) (outer : String → Option Nat) (fuel : Nat) : Expr → EvalM Double
  | .number val => pure val
  | .variable name => readVar outer name
  | .varIn varNames body => do
      evalVars W outer fuel varNames
      let result ← eval W outer fuel body
      dropLocals varNames.length
      pure result
  | .unary op operand => do
      let x ← eval W outer fuel operand
      callFn W ("unary".push op) [x]
  | .binary op lhs rhs =>
      if op = '=' then
        match lhs with
        | .variable name => do
            let v ← eval W outer fuel rhs
            writeVar outer name v
            pure v
        | _ => throw .wrong
      else do
        let x ← eval W outer fuel lhs
        let y ← eval W outer fuel rhs
        match op with
        | '+' => pure (W.arith.add x y)
        | '-' => pure (W.arith.sub x y)
        | '*' => pure (W.arith.mul x y)
        | '<' => pure (boolToDouble (x.unordered y || x.lt y))
        | _ => callFn W ("binary".push op) [x, y]
  | .ifElse cond thn els => do
      let c ← eval W outer fuel cond
      if isTrue c then eval W outer fuel thn else eval W outer fuel els
  | .forIn varName start fin step body => do
      let v ← eval W outer fuel start
      pushLocal varName v
      rounds (do
        let _ ← eval W outer fuel body
        let s ← evalOption W outer fuel .one step
        let c ← eval W outer fuel fin
        let cur ← readVar outer varName
        writeVar outer varName (W.arith.add cur s)
        pure (isTrue c)) fuel
      dropLocals 1
      pure .zero
  | .call callee args => do
      let vs ← evalArgs W outer fuel args
      callFn W callee vs

def evalOption (W : World) (outer : String → Option Nat) (fuel : Nat) (default : Double) :
    Option Expr → EvalM Double
  | none => pure default
  | some e => eval W outer fuel e

/-- The bindings of a `var`, each in the scope of those before it. -/
def evalVars (W : World) (outer : String → Option Nat) (fuel : Nat) :
    List (String × Option Expr) → EvalM Unit
  | [] => pure ()
  | (name, init) :: vs => do
      let v ← evalOption W outer fuel .zero init
      pushLocal name v
      evalVars W outer fuel vs

def evalArgs (W : World) (outer : String → Option Nat) (fuel : Nat) :
    List Expr → EvalM (List Double)
  | [] => pure []
  | e :: es => do
      let v ← eval W outer fuel e
      let vs ← evalArgs W outer fuel es
      pure (v :: vs)

end

theorem eval_ifElse (W : World) (outer : String → Option Nat) (fuel : Nat) (cond thn els : Expr) :
    eval W outer fuel (.ifElse cond thn els) = (do
      let c ← eval W outer fuel cond
      if isTrue c then eval W outer fuel thn else eval W outer fuel els) := by
  rw [eval]

end LlvmPasses.Kaleido
