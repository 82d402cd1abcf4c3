import LlvmPasses.Kaleido.Builder

/-!
# The code generator

`ast.cpp`'s `codegen` methods, in the order of the source. `A` is the
arithmetic constants are folded with.

`BinaryExprAST::codegen` casts the left side of `=` with `static_cast`, which
checks nothing, and reads the name of what it points to once the right side is
generated: where it is anything but a variable, the cast is noted, and the
model stops with `misread` at the read.
-/

namespace LlvmPasses.Kaleido

/-- `static_cast<VariableExprAST *>(lhs_.get())`, which always gives a pointer. -/
def castToVariable (e : Expr) : CodegenM Unit :=
  modify fun b => if e.isVariable then b else { b with miscasts := b.miscasts + 1 }

/-- The restoring loop of `VarExprAST::codegen`. -/
def restoreNamed (oldValues : String → Option Nat) :
    List (String × Option Expr) → CodegenM Unit
  | [] => pure ()
  | (var, _) :: vs => do
      namedSet var (oldValues var)
      restoreNamed oldValues vs

mutual

def Expr.codegen (A : Arith) : Expr → CodegenM Value
  | .number val => pure (.const val)
  | .variable name => do
      match ← namedLookup name with
      | none => throwCodegen s!"Variable {name} can't be found in environment"
      | some alloca => createLoad alloca
  | .varIn varNames body => do
      let oldValues ← codegenVars A (fun _ => none) varNames
      let result ← body.codegen A
      restoreNamed oldValues varNames
      pure result
  | .unary op operand => do
      let operand ← operand.codegen A
      match ← getFunction ("unary".push op) with
      | none => throwCodegen s!"Unary operator unary{op}not found!"
      | some fn => createCall fn [operand]
  | .binary op lhs rhs =>
      if op = '=' then do
        castToVariable lhs
        let rhs ← rhs.codegen A
        match lhs with
        | .variable name =>
            match ← namedLookup name with
            | none => throwCodegen s!"Unknown variable name: {name}"
            | some alloca => do
                createStore rhs alloca
                pure rhs
        | _ => throw .misread
      else do
        let lhs ← lhs.codegen A
        let rhs ← rhs.codegen A
        match op with
        | '+' => createFBin A .add lhs rhs
        | '-' => createFBin A .sub lhs rhs
        | '*' => createFBin A .mul lhs rhs
        | '<' => do
            let cmp ← createFCmp .ult lhs rhs
            createUIToFP cmp
        | _ =>
            match ← getFunction ("binary".push op) with
            | none => throwCodegen s!"Binary operator binary{op} not found!"
            | some fn => createCall fn [lhs, rhs]
  | .ifElse cond thn els => do
      let cond ← cond.codegen A
      let cond ← createFCmp .one cond (.const .zero)
      let thenBB ← createBlockIn
      let elseBB ← createBlock
      let mergeBB ← createBlock
      emit (.condBr cond thenBB elseBB)
      setInsertPoint thenBB
      let thenValue ← thn.codegen A
      emit (.br mergeBB)
      let thenBB ← getInsertBlock
      attachBlock elseBB
      setInsertPoint elseBB
      let elseValue ← els.codegen A
      emit (.br mergeBB)
      let elseBB ← getInsertBlock
      attachBlock mergeBB
      setInsertPoint mergeBB
      createPhi [(thenValue, thenBB), (elseValue, elseBB)]
  | .forIn varName start fin step body => do
      let alloca ← createEntryBlockAlloca
      let start ← start.codegen A
      createStore start alloca
      let loopBB ← createBlockIn
      emit (.br loopBB)
      setInsertPoint loopBB
      let oldVal ← namedLookup varName
      namedSet varName (some alloca)
      let _ ← body.codegen A
      let step ← codegenOption A .one step
      let fin ← fin.codegen A
      let cur ← createLoad alloca
      let nextVar ← createFBin A .add cur step
      createStore nextVar alloca
      let fin ← createFCmp .one fin (.const .zero)
      let afterBB ← createBlockIn
      emit (.condBr fin loopBB afterBB)
      setInsertPoint afterBB
      namedSet varName oldVal
      pure (.const .zero)
  | .call callee args => do
      match ← getFunction callee with
      | none => throwCodegen s!"Function {callee} can't be found in the module"
      | some fn =>
          if fn.params.length ≠ args.length then
            throwCodegen "Incorrect # of args passed"
          else do
            let args ← codegenArgs A args
            createCall fn args

/-- An optional part, a constant where it is missing. -/
def codegenOption (A : Arith) (default : Double) : Option Expr → CodegenM Value
  | none => pure (.const default)
  | some e => e.codegen A

/-- The binding loop of `VarExprAST::codegen`, with the map it fills. -/
def codegenVars (A : Arith) (oldValues : String → Option Nat) :
    List (String × Option Expr) → CodegenM (String → Option Nat)
  | [] => pure oldValues
  | (var, init) :: vs => do
      let initVal ← codegenOption A .zero init
      let alloca ← createEntryBlockAlloca
      createStore initVal alloca
      let old ← namedLookup var
      namedSet var (some alloca)
      codegenVars A (fun x => if x = var then old else oldValues x) vs

def codegenArgs (A : Arith) : List Expr → CodegenM (List Value)
  | [] => pure []
  | e :: es => do
      let v ← e.codegen A
      let vs ← codegenArgs A es
      pure (v :: vs)

end

/-! ## Functions -/

/-- `BasicBlock::Create(*TheContext, "entry", fn)` on a function without
blocks, and `NamedValues.clear()`. -/
def beginFunction : CodegenM Unit := modify fun b =>
  { b with
    body := { blocks := [entryBlock], allocas := [], code := fun _ => [] }
    insert := entryBlock
    nextInst := 0
    nextBlock := entryBlock + 1
    named := fun _ => none }

/-- The parameter loop of `FunctionAST::codegen`, from the `i`-th on. -/
def codegenParams : Nat → List String → CodegenM Unit
  | _, [] => pure ()
  | i, name :: names => do
      let alloca ← createEntryBlockAlloca
      createStore (.arg i) alloca
      namedSet name (some alloca)
      codegenParams (i + 1) names

/-- The body of the `try` block. -/
def codegenBody (A : Arith) (fn : Function) (body : Expr) : CodegenM Unit := do
  let result ← body.codegen A
  emit (.ret result)
  modify fun b => { b with module := b.module.setBody fn.id b.body }

/-- `catch (CodegenException &e) { fn->eraseFromParent(); throw; }`. -/
def erasing {α : Type} (fn : Function) (p : CodegenM α) : CodegenM α := fun b =>
  match p b with
  | .error (.exception what) b' =>
      .error (.exception what) { b' with module := b'.module.erase fn.id }
  | r => r

/-- Everything up to the `try` block: the function found or declared, and the
check that it has no body yet. -/
def declareFunction (proto : Prototype) : CodegenM Function := do
  modify fun b => { b with protos := b.protos.insert proto }
  match ← getFunction proto.name with
  | none => throwCodegen "Could not find function"
  | some fn =>
      if fn.body.isSome then
        throwCodegen "Function cannot be redefined"
      else
        pure fn

/-- `binopPrecedence[proto.getOperatorName()] = proto.getBinaryPrecedence()`. -/
def setPrecedence (proto : Prototype) : CodegenM Unit := modify fun b =>
  { b with binopPrecedence := fun c =>
      if c = proto.getOperatorName then proto.precedence else b.binopPrecedence c }

/-- `FunctionAST::codegen`. -/
def FunctionAST.codegen (A : Arith) (f : FunctionAST) : CodegenM Function := do
  let fn ← declareFunction f.prototype
  if f.prototype.isBinaryOp then
    setPrecedence f.prototype
  beginFunction
  codegenParams 0 fn.params
  erasing fn (codegenBody A fn f.body)
  pure fn

end LlvmPasses.Kaleido
