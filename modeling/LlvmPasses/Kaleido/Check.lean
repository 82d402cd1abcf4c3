import LlvmPasses.Kaleido.Ast
import LlvmPasses.Kaleido.Builder

/-!
# What code generation asks of an expression

An expression compiles if the names it uses are bound, the functions it calls
are known and take as many arguments as they are given, and the left sides of
its assignments are variables. `check` walks an expression in the order code
generation does and stops at the first of these that fails. It says what the
code generator rejects without saying anything about the code: all it carries
along is the names in scope, and a record of the functions asked for and of the
casts that went wrong.

A `var` that binds one name twice leaves the name bound behind it, as the
restoring loop of the source does.
-/

namespace LlvmPasses.Kaleido

/-- The names `NamedValues` has a cell for. -/
abbrev Scope := String → Bool

/-- How far a walk has come. -/
structure Walk where
  scope : Scope
  /-- The functions asked for so far. -/
  asked : List String := []
  /-- The left sides of assignments so far that are no variables. -/
  miscasts : Nat := 0

abbrev CheckM (α : Type) := EStateM Abort Walk α

def checkFail {α : Type} (what : String) : CheckM α := throw (.exception what)

def bound (x : String) : CheckM Bool := do
  return (← get).scope x

def bindName (x : String) (isBound : Bool) : CheckM Unit :=
  modify fun w => { w with scope := fun y => if y = x then isBound else w.scope y }

/-- The number of parameters of the function of that name. -/
def askArity (arity : String → Option Nat) (x : String) : CheckM (Option Nat) := fun w =>
  .ok (arity x) { w with asked := w.asked ++ [x] }

def noteCast (e : Expr) : CheckM Unit :=
  modify fun w => if e.isVariable then w else { w with miscasts := w.miscasts + 1 }

/-- The scope after the restoring loop. -/
def restoreScope (old : Scope) : List (String × Option Expr) → CheckM Unit
  | [] => pure ()
  | (var, _) :: vs => do
      bindName var (old var)
      restoreScope old vs

mutual

/-- `arity` is the number of parameters of each function that can be called. -/
def Expr.check (arity : String → Option Nat) : Expr → CheckM Unit
  | .number _ => pure ()
  | .variable name => do
      if ← bound name then
        pure ()
      else
        checkFail s!"Variable {name} can't be found in environment"
  | .varIn varNames body => do
      let old ← checkVars arity (fun _ => false) varNames
      body.check arity
      restoreScope old varNames
  | .unary op operand => do
      operand.check arity
      match ← askArity arity ("unary".push op) with
      | none => checkFail s!"Unary operator unary{op}not found!"
      | some _ => pure ()
  | .binary op lhs rhs =>
      if op = '=' then do
        noteCast lhs
        rhs.check arity
        match lhs with
        | .variable name =>
            if ← bound name then
              pure ()
            else
              checkFail s!"Unknown variable name: {name}"
        | _ => throw .misread
      else do
        lhs.check arity
        rhs.check arity
        if op ∈ ['+', '-', '*', '<'] then
          pure ()
        else
          match ← askArity arity ("binary".push op) with
          | none => checkFail s!"Binary operator binary{op} not found!"
          | some _ => pure ()
  | .ifElse cond thn els => do
      cond.check arity
      thn.check arity
      els.check arity
  | .forIn varName start fin step body => do
      start.check arity
      let old ← bound varName
      bindName varName true
      body.check arity
      checkOption arity step
      fin.check arity
      bindName varName old
  | .call callee args => do
      match ← askArity arity callee with
      | none => checkFail s!"Function {callee} can't be found in the module"
      | some n =>
          if n ≠ args.length then
            checkFail "Incorrect # of args passed"
          else
            checkArgs arity args

def checkOption (arity : String → Option Nat) : Option Expr → CheckM Unit
  | none => pure ()
  | some e => e.check arity

def checkVars (arity : String → Option Nat) (old : Scope) :
    List (String × Option Expr) → CheckM Scope
  | [] => pure old
  | (var, init) :: vs => do
      checkOption arity init
      let was ← bound var
      bindName var true
      checkVars arity (fun x => if x = var then was else old x) vs

def checkArgs (arity : String → Option Nat) : List Expr → CheckM Unit
  | [] => pure ()
  | e :: es => do
      e.check arity
      checkArgs arity es

end

theorem Expr.check_ifElse (arity : String → Option Nat) (cond thn els : Expr) :
    (Expr.ifElse cond thn els).check arity = (do
      cond.check arity
      thn.check arity
      els.check arity) := by
  rw [Expr.check]

namespace Builder

/-- The number of parameters of the function that `getFunction` would find. -/
def arityOf (b : Builder) (name : String) : Option Nat :=
  match b.module.getFunction name with
  | some f => some f.params.length
  | none => (b.protos.find name).map fun p => p.args.length

def scope (b : Builder) : Scope := fun x => (b.named x).isSome

/-- `FunctionProtos[name] = proto`. -/
def file (b : Builder) (proto : Prototype) : Builder :=
  { b with protos := b.protos.insert proto }

/-- The redefinition check fails. -/
def HasBody (b : Builder) (name : String) : Prop :=
  ∃ g, b.module.getFunction name = some g ∧ g.body.isSome

instance (b : Builder) (name : String) : Decidable (b.HasBody name) :=
  match h : b.module.getFunction name with
  | none => isFalse fun ⟨g, hg, _⟩ => by rw [h] at hg; cases hg
  | some g =>
      if hb : g.body.isSome then isTrue ⟨g, h, hb⟩
      else isFalse fun ⟨g', hg, hb'⟩ => hb (by rw [h] at hg; cases hg; exact hb')

/-- The parameters a definition is compiled with: those of the function the
module has under the name, if it has one. -/
def paramsOf (b : Builder) (proto : Prototype) : List String :=
  match b.module.getFunction proto.name with
  | some g => g.params
  | none => setNames [] proto.args 0

end Builder

/-- The walk of a definition's body. -/
def FunctionAST.walk (f : FunctionAST) (b : Builder) : EStateM.Result Abort Walk Unit :=
  f.body.check (b.file f.prototype).arityOf
    { scope := fun x => decide (x ∈ b.paramsOf f.prototype) }

/-- Why a definition is rejected, if it is. -/
def FunctionAST.check (f : FunctionAST) (b : Builder) : Option Abort :=
  if b.HasBody f.prototype.name then
    some (.exception "Function cannot be redefined")
  else
    match f.walk b with
    | .ok _ _ => none
    | .error e _ => some e

end LlvmPasses.Kaleido
