import LlvmPasses.Ir.Module

/-!
# OpcodeCounter and StaticCallCounter

What the two analyses count: instructions by the name of their opcode, and
calls by the function they name. An entry comes into being with its first
occurrence.
-/

namespace LlvmPasses

open Ir

/-- `if (results.contains(key)) results[key]++; else results[key] = 1;` -/
def increment {κ : Type} [DecidableEq κ] (results : List (κ × Nat)) (key : κ) : List (κ × Nat) :=
  if key ∈ results.map Prod.fst then
    results.map fun e => if e.1 = key then (e.1, e.2 + 1) else e
  else results ++ [(key, 1)]

namespace OpcodeCounter

def binOpName : BinOp → String
  | .add => "add" | .sub => "sub" | .mul => "mul"
  | .udiv => "udiv" | .sdiv => "sdiv" | .urem => "urem" | .srem => "srem"
  | .shl => "shl" | .lshr => "lshr" | .ashr => "ashr"
  | .and => "and" | .or => "or" | .xor => "xor"

def fbinOpName : FBinOp → String
  | .fadd => "fadd" | .fsub => "fsub" | .fmul => "fmul" | .fdiv => "fdiv" | .frem => "frem"

def castOpName : CastOp → String
  | .trunc => "trunc" | .zext => "zext" | .sext => "sext"
  | .fptrunc => "fptrunc" | .fpext => "fpext"
  | .fptoui => "fptoui" | .fptosi => "fptosi" | .uitofp => "uitofp" | .sitofp => "sitofp"
  | .ptrtoint => "ptrtoint" | .inttoptr => "inttoptr" | .bitcast => "bitcast"

/-- `I.getOpcodeName()`, of an instruction that ends no block. -/
def opcodeName : Op → String
  | .binop op => binOpName op
  | .fbinop op => fbinOpName op
  | .fneg => "fneg"
  | .icmp _ => "icmp"
  | .fcmp _ => "fcmp"
  | .cast op => castOpName op
  | .select => "select"
  | .freeze => "freeze"
  | .phi => "phi"
  | .alloca _ _ => "alloca"
  | .load _ _ => "load"
  | .store _ _ => "store"
  | .getelementptr _ => "getelementptr"
  | .call _ => "call"
  | .landingpad _ => "landingpad"

def termOpcodeName : TermOp → String
  | .ret => "ret" | .br => "br" | .switch => "switch" | .indirectbr => "indirectbr"
  | .invoke => "invoke" | .resume => "resume" | .unreachable => "unreachable"

/-- The opcodes a loop over the function comes by. -/
def opcodes (F : Function) : List String :=
  F.blocks.flatMap fun b => b.instrs.map (fun i => opcodeName i.op) ++ [termOpcodeName b.term.op]

/-- `OpcodeCounter::run`. -/
def run (F : Function) : List (String × Nat) := (opcodes F).foldl increment []

end OpcodeCounter

namespace StaticCallCounter

/-- `CB->getCalledFunction()`, of the callee a call ends with: the function it
names, if it names one. A call has the type of that function here. -/
def getCalledFunction (functions : List Nat) (operands : List Value) : Option Nat :=
  match operands.getLast? with
  | some (.global f) => if f ∈ functions then some f else none
  | _ => none

def calledByInstr (functions : List Nat) (i : Instr Op) : Option Nat :=
  match i.op with
  | .call _ => getCalledFunction functions i.operands
  | _ => none

def calledByTerm (functions : List Nat) (t : Instr TermOp) : Option Nat :=
  match t.op with
  | .invoke => getCalledFunction functions t.operands
  | _ => none

/-- The functions that a loop over one of them finds called. -/
def calledIn (functions : List Nat) (F : Function) : List Nat :=
  F.blocks.flatMap fun b =>
    b.instrs.filterMap (calledByInstr functions) ++ (calledByTerm functions b.term).toList

/-- `StaticCallCounter::run`. -/
def run (M : Module) : List (Nat × Nat) :=
  (M.functions.flatMap fun f => calledIn (M.functions.map Func.id) f.fn).foldl increment []

end StaticCallCounter

end LlvmPasses
