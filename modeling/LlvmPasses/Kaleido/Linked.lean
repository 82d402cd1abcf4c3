import LlvmPasses.Kaleido.Driver
import LlvmPasses.Kaleido.Eval
import LlvmPasses.Lib.Activations

/-!
# Whole programs

A program twice: as the definitions a session has accepted, and as the modules
it has built of them, linked by name. What is called and defined nowhere is
outside, and is shown every call that has come to it so far, the last one being
the call to answer; the trace of these calls is all the world there is.

The evaluation of a program is stated for itself, as that of an expression is.
The modules are run: a call goes to the first body there is under the callee's
name, in an activation with registers and cells of its own. A call with another
number of arguments than the callee has parameters has no meaning in either.
-/

namespace LlvmPasses.Kaleido

/-! ## Definitions -/

/-- What was accepted: a prototype's name and parameters, and the body. -/
structure Definition where
  name : String
  params : List String
  body : Expr

/-- What the calls of a program are answered with, and the trace after it. -/
abbrev Answers := Call → List Call → Option (Double × List Call)

/-- What the outside answers. -/
def outside (ext : List Call → Option Double) : Answers := fun c trace =>
  (ext (trace ++ [c])).map fun d => (d, trace ++ [c])

def callWith (call : Answers) (name : String) (args : List Double) : EvalM Double := fun st =>
  match call (name, args) st.calls with
  | some (d, calls) => .ok d { st with calls }
  | none => .error .timeout st

/-- No variable is outside. -/
def nowhere : String → Option Nat := fun _ => none

mutual

/-- `eval` with the calls left open. -/
def evalWith (A : Arith) (call : Answers) (fuel : Nat) : Expr → EvalM Double
  | .number val => pure val
  | .variable name => readVar nowhere name
  | .varIn varNames body => do
      evalVarsWith A call fuel varNames
      let result ← evalWith A call fuel body
      dropLocals varNames.length
      pure result
  | .unary op operand => do
      let x ← evalWith A call fuel operand
      callWith call ("unary".push op) [x]
  | .binary op lhs rhs =>
      if op = '=' then
        match lhs with
        | .variable name => do
            let v ← evalWith A call fuel rhs
            writeVar nowhere name v
            pure v
        | _ => throw .wrong
      else do
        let x ← evalWith A call fuel lhs
        let y ← evalWith A call fuel rhs
        match op with
        | '+' => pure (A.add x y)
        | '-' => pure (A.sub x y)
        | '*' => pure (A.mul x y)
        | '<' => pure (boolToDouble (x.unordered y || x.lt y))
        | _ => callWith call ("binary".push op) [x, y]
  | .ifElse cond thn els => do
      let c ← evalWith A call fuel cond
      if isTrue c then evalWith A call fuel thn else evalWith A call fuel els
  | .forIn varName start fin step body => do
      let v ← evalWith A call fuel start
      pushLocal varName v
      rounds (do
        let _ ← evalWith A call fuel body
        let s ← evalOptionWith A call fuel .one step
        let c ← evalWith A call fuel fin
        let cur ← readVar nowhere varName
        writeVar nowhere varName (A.add cur s)
        pure (isTrue c)) fuel
      dropLocals 1
      pure .zero
  | .call callee args => do
      let vs ← evalArgsWith A call fuel args
      callWith call callee vs

def evalOptionWith (A : Arith) (call : Answers) (fuel : Nat) (default : Double) :
    Option Expr → EvalM Double
  | none => pure default
  | some e => evalWith A call fuel e

def evalVarsWith (A : Arith) (call : Answers) (fuel : Nat) :
    List (String × Option Expr) → EvalM Unit
  | [] => pure ()
  | (name, init) :: vs => do
      let v ← evalOptionWith A call fuel .zero init
      pushLocal name v
      evalVarsWith A call fuel vs

def evalArgsWith (A : Arith) (call : Answers) (fuel : Nat) : List Expr → EvalM (List Double)
  | [] => pure []
  | e :: es => do
      let v ← evalWith A call fuel e
      let vs ← evalArgsWith A call fuel es
      pure (v :: vs)

end

/-- The parameters as locals, the last one innermost. -/
def Definition.enter (f : Definition) (args : List Double) (calls : List Call) : Store :=
  ⟨(f.params.zip args).reverse, fun _ => .zero, calls⟩

def definitionOf (defs : List Definition) (name : String) : Option Definition :=
  defs.find? fun f => f.name = name

/-- The code of a function, and the number of its parameters. -/
structure Callee where
  code : Program
  params : Nat

/-- The definition a module has of a symbol. -/
def Module.defines (m : Module) (name : String) : Option Callee :=
  (m.getFunction name).bind fun f => f.body.map fun body =>
    ⟨⟨body.instrs, m.nameOf⟩, f.params.length⟩

/-- The first definition among linked modules. -/
def link (ms : List Module) (name : String) : Option Callee :=
  ms.findSome? fun m => m.defines name

/-- An activation: the code, and where it is. -/
structure Activation where
  code : Program
  machine : Machine

def Callee.activation (c : Callee) (args : List Double) : Activation where
  code := c.code
  machine :=
    { block := entryBlock
      prev := entryBlock
      rest := c.code.code entryBlock
      env := fun _ => none
      cells := fun _ => none
      args := args
      calls := [] }

namespace Activation

/-- What an activation does next: it takes a step, unless it calls or returns. -/
def move (A : Arith) (a : Activation) : Activations.Move Activation Call Double :=
  match a.machine.rest with
  | [] => .stuck
  | .ret v :: _ =>
      match a.machine.double v with
      | some d => .ret d
      | none => .stuck
  | .call _ fn args :: _ =>
      match a.code.nameOf fn, a.machine.doubles args with
      | some name, some ds => .call (name, ds)
      | _, _ => .stuck
  | i :: rest =>
      match Machine.exec ⟨A, fun _ => none⟩ a.code { a.machine with rest } i with
      | some m => .go ⟨a.code, m⟩
      | none => .stuck

/-- The call an activation is at has been answered. -/
def resume (a : Activation) (d : Double) : Activation :=
  match a.machine.rest with
  | .call r _ _ :: rest => ⟨a.code, ({ a.machine with rest } : Machine).assign r (.dbl d)⟩
  | _ => a

end Activation

/-- Linked modules, run. -/
def linked (A : Arith) (ext : List Call → Option Double) (ms : List Module) :
    Activations Activation Call Double (List Call) where
  move := Activation.move A
  enter := fun c trace =>
    match link ms c.1 with
    | none => (outside ext c trace).map fun r => .outside r.1 r.2
    | some callee =>
        if callee.params = c.2.length then some (.inside (callee.activation c.2)) else none
  resume := Activation.resume

/-! ## Sessions -/

/-- What the code generator accepts of an item, if it does. -/
def FunctionAST.accepted (A : Arith) (b : Builder) (f : FunctionAST) : List Definition :=
  match f.codegen A b with
  | .error _ _ => []
  | .ok _ _ => [⟨f.prototype.name, f.prototype.args, f.body⟩]

/-- What a round adds to the program: a definition, or under `--compile` also a
top-level expression. The JIT drops the module of an expression that has run. -/
def Session.accepted (A : Arith) (s : Session) : List Definition :=
  match current s.tokens with
  | .eof | .extern_ => []
  | .def_ =>
      match parseDefinition s.builder.binopPrecedence s.tokens with
      | .error _ _ => []
      | .ok f _ => f.accepted A s.builder
  | t =>
      if t = .chr ';' ∨ s.jit.isSome then
        []
      else
        match parseTopLevelExpr s.builder.binopPrecedence s.tokens with
        | .error _ _ => []
        | .ok f _ => f.accepted A s.builder

/-- What is accepted in the first `n` rounds. -/
def acceptedIn (A : Arith) (E : Jit) : Nat → Session → List Definition
  | 0, _ => []
  | n + 1, s => s.accepted A ++ (next A E s).elim [] (acceptedIn A E n)

/-- The modules that are linked while an item runs whose module is `m`. -/
def Session.modules (s : Session) (m : Module) : List Module :=
  s.jit.elim [] JITDylib.modules ++ [m]

end LlvmPasses.Kaleido
