import LlvmPasses.Lib.Double

/-!
# The Kaleidoscope syntax tree

`ast.h`'s class hierarchy as one inductive type: a constructor for each class
that derives from `ExprAST`, with that class's fields in their order. A null
`unique_ptr` — a missing initialiser, a missing step — is `none`.
-/

namespace LlvmPasses.Kaleido

inductive Expr where
  | number (val : Double)
  | variable (name : String)
  | varIn (varNames : List (String × Option Expr)) (body : Expr)
  | unary (op : Char) (operand : Expr)
  | binary (op : Char) (lhs rhs : Expr)
  | ifElse (cond thn els : Expr)
  | forIn (varName : String) (start fin : Expr) (step : Option Expr) (body : Expr)
  | call (callee : String) (args : List Expr)

/-- The node is a `VariableExprAST`. -/
def Expr.isVariable : Expr → Bool
  | .variable _ => true
  | _ => false

/-- One case for each constructor, with a hypothesis for every subtree, those
in lists and options included: what an induction over a tree has to supply. -/
structure Expr.Inductive (P : Expr → Prop) : Prop where
  number : ∀ val, P (.number val)
  name : ∀ name, P (.variable name)
  varIn : ∀ varNames body, (∀ v ∈ varNames, ∀ e ∈ v.2, P e) → P body → P (.varIn varNames body)
  unary : ∀ op operand, P operand → P (.unary op operand)
  binary : ∀ op lhs rhs, P lhs → P rhs → P (.binary op lhs rhs)
  ifElse : ∀ cond thn els, P cond → P thn → P els → P (.ifElse cond thn els)
  forIn : ∀ varName start fin step body, P start → P fin → (∀ e ∈ step, P e) → P body →
    P (.forIn varName start fin step body)
  call : ∀ callee args, (∀ e ∈ args, P e) → P (.call callee args)

namespace Expr.Inductive

variable {P : Expr → Prop}

mutual

theorem all (h : Expr.Inductive P) : ∀ e, P e
  | .number val => h.number val
  | .variable name => h.name name
  | .varIn varNames body => h.varIn varNames body (h.allVars varNames) (h.all body)
  | .unary op operand => h.unary op operand (h.all operand)
  | .binary op lhs rhs => h.binary op lhs rhs (h.all lhs) (h.all rhs)
  | .ifElse cond thn els => h.ifElse cond thn els (h.all cond) (h.all thn) (h.all els)
  | .forIn varName start fin step body =>
      h.forIn varName start fin step body (h.all start) (h.all fin) (h.allOption step)
        (h.all body)
  | .call callee args => h.call callee args (h.allArgs args)

theorem allOption (h : Expr.Inductive P) : ∀ o : Option Expr, ∀ e ∈ o, P e
  | none, _, he => nomatch he
  | some a, _, he => Option.some.inj he ▸ h.all a

theorem allVars (h : Expr.Inductive P) :
    ∀ vs : List (String × Option Expr), ∀ v ∈ vs, ∀ e ∈ v.2, P e
  | [], _, hv => nomatch hv
  | (_, init) :: vs, v, hv =>
      (List.mem_cons.mp hv).elim (fun heq => heq ▸ h.allOption init) (h.allVars vs v)

theorem allArgs (h : Expr.Inductive P) : ∀ es : List Expr, ∀ e ∈ es, P e
  | [], _, he => nomatch he
  | a :: as, e, he =>
      (List.mem_cons.mp he).elim (fun heq => heq ▸ h.all a) (h.allArgs as e)

end

end Expr.Inductive

mutual

/-- Every `var` of the tree binds distinct names. -/
def Expr.Distinct : Expr → Prop
  | .number _ | .variable _ => True
  | .varIn varNames body =>
      (varNames.map Prod.fst).Nodup ∧ DistinctVars varNames ∧ body.Distinct
  | .unary _ operand => operand.Distinct
  | .binary _ lhs rhs => lhs.Distinct ∧ rhs.Distinct
  | .ifElse cond thn els => cond.Distinct ∧ thn.Distinct ∧ els.Distinct
  | .forIn _ start fin step body =>
      start.Distinct ∧ fin.Distinct ∧ DistinctOption step ∧ body.Distinct
  | .call _ args => DistinctArgs args

def DistinctOption : Option Expr → Prop
  | none => True
  | some e => e.Distinct

def DistinctVars : List (String × Option Expr) → Prop
  | [] => True
  | (_, init) :: vs => DistinctOption init ∧ DistinctVars vs

def DistinctArgs : List Expr → Prop
  | [] => True
  | e :: es => e.Distinct ∧ DistinctArgs es

end

theorem distinct_of_mem_option {o : Option Expr} (h : DistinctOption o) :
    ∀ e ∈ o, e.Distinct := by
  intro e he
  cases he
  exact h

theorem distinct_of_mem_args {es : List Expr} (h : DistinctArgs es) : ∀ e ∈ es, e.Distinct := by
  induction es with
  | nil => intro e he; cases he
  | cons a as ih =>
      intro e he
      rcases List.mem_cons.mp he with rfl | he
      · exact h.1
      · exact ih h.2 e he

theorem distinct_of_mem_vars {vs : List (String × Option Expr)} (h : DistinctVars vs) :
    ∀ v ∈ vs, ∀ e ∈ v.2, e.Distinct := by
  induction vs with
  | nil => intro v hv; cases hv
  | cons w ws ih =>
      intro v hv
      rcases List.mem_cons.mp hv with rfl | hv
      · exact distinct_of_mem_option h.1
      · exact ih h.2 v hv

mutual

def Expr.decideDistinct : (e : Expr) → Decidable e.Distinct
  | .number _ | .variable _ => .isTrue trivial
  | .varIn varNames body =>
      have := decideDistinctVars varNames
      have := body.decideDistinct
      inferInstanceAs (Decidable (_ ∧ _ ∧ _))
  | .unary _ operand => operand.decideDistinct
  | .binary _ lhs rhs =>
      have := lhs.decideDistinct
      have := rhs.decideDistinct
      inferInstanceAs (Decidable (_ ∧ _))
  | .ifElse cond thn els =>
      have := cond.decideDistinct
      have := thn.decideDistinct
      have := els.decideDistinct
      inferInstanceAs (Decidable (_ ∧ _ ∧ _))
  | .forIn _ start fin step body =>
      have := start.decideDistinct
      have := fin.decideDistinct
      have := decideDistinctOption step
      have := body.decideDistinct
      inferInstanceAs (Decidable (_ ∧ _ ∧ _ ∧ _))
  | .call _ args => decideDistinctArgs args

def decideDistinctOption : (o : Option Expr) → Decidable (DistinctOption o)
  | none => .isTrue trivial
  | some e => e.decideDistinct

def decideDistinctVars : (vs : List (String × Option Expr)) → Decidable (DistinctVars vs)
  | [] => .isTrue trivial
  | (_, init) :: vs =>
      have := decideDistinctOption init
      have := decideDistinctVars vs
      inferInstanceAs (Decidable (_ ∧ _))

def decideDistinctArgs : (es : List Expr) → Decidable (DistinctArgs es)
  | [] => .isTrue trivial
  | e :: es =>
      have := e.decideDistinct
      have := decideDistinctArgs es
      inferInstanceAs (Decidable (_ ∧ _))

end

instance (e : Expr) : Decidable e.Distinct := e.decideDistinct

mutual

/-- The operator characters of the tree. -/
def Expr.operators : Expr → List Char
  | .number _ | .variable _ => []
  | .varIn varNames body => operatorsVars varNames ++ body.operators
  | .unary op operand => op :: operand.operators
  | .binary op lhs rhs => op :: (lhs.operators ++ rhs.operators)
  | .ifElse cond thn els => cond.operators ++ thn.operators ++ els.operators
  | .forIn _ start fin step body =>
      start.operators ++ fin.operators ++ operatorsOption step ++ body.operators
  | .call _ args => operatorsArgs args

def operatorsOption : Option Expr → List Char
  | none => []
  | some e => e.operators

def operatorsVars : List (String × Option Expr) → List Char
  | [] => []
  | (_, init) :: vs => operatorsOption init ++ operatorsVars vs

def operatorsArgs : List Expr → List Char
  | [] => []
  | e :: es => e.operators ++ operatorsArgs es

end

mutual

/-- The names of the functions the tree calls, operators' functions included. -/
def Expr.callees : Expr → List String
  | .number _ | .variable _ => []
  | .varIn varNames body => calleesVars varNames ++ body.callees
  | .unary op operand => operand.callees ++ ["unary".push op]
  | .binary op lhs rhs =>
      lhs.callees ++ rhs.callees ++
        if op ∈ ['=', '+', '-', '*', '<'] then [] else ["binary".push op]
  | .ifElse cond thn els => cond.callees ++ thn.callees ++ els.callees
  | .forIn _ start fin step body =>
      start.callees ++ fin.callees ++ calleesOption step ++ body.callees
  | .call callee args => callee :: calleesArgs args

def calleesOption : Option Expr → List String
  | none => []
  | some e => e.callees

def calleesVars : List (String × Option Expr) → List String
  | [] => []
  | (_, init) :: vs => calleesOption init ++ calleesVars vs

def calleesArgs : List Expr → List String
  | [] => []
  | e :: es => e.callees ++ calleesArgs es

end

/-- `PrototypeAST`. -/
structure Prototype where
  name : String
  args : List String
  isOperator : Bool := false
  precedence : Nat := 0
  deriving DecidableEq, Repr

namespace Prototype

def isUnaryOp (p : Prototype) : Bool := p.isOperator && p.args.length == 1

def isBinaryOp (p : Prototype) : Bool := p.isOperator && p.args.length == 2

/-- The last character of the name. The assertion in the source keeps callers
to operator prototypes, whose names are never empty. -/
def getOperatorName (p : Prototype) : Char := p.name.toList.getLastD '\x00'

end Prototype

/-- `FunctionAST`. -/
structure FunctionAST where
  prototype : Prototype
  body : Expr

end LlvmPasses.Kaleido
