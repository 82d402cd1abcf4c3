import LlvmPasses.Kaleido.Ast
import LlvmPasses.Kaleido.Ir
import LlvmPasses.Lib.StateError

/-!
# The code generator's globals

`TheModule`, `FunctionProtos`, `NamedValues`, `TheBuilder` and the parser's
precedence table, which `FunctionAST::codegen` is handed by reference, as one
record, with the operations `ast.cpp` performs on them.

The body under construction keeps the allocas of the entry block apart from
what is appended to the blocks: `createEntryBlockAlloca` inserts at the very
front of the entry block and everything else goes to the end of some block, so
the entry block is always the allocas, newest first, and then its code.

The builder folds an operation on two constants, as `IRBuilder` does. The
arithmetic it folds with is the arithmetic the code would run with.
-/

namespace LlvmPasses.Kaleido

/-! ## Modules -/

/-- The blocks of a function: those attached to it in their order, the allocas
at the front of the entry block, and the instructions appended to each block. -/
structure Body where
  blocks : List Nat
  allocas : List Nat
  code : Nat → List Instr

/-- The entry block of every body. -/
def entryBlock : Nat := 0

/-- A block's instructions. -/
def Body.instrs (b : Body) (k : Nat) : List Instr :=
  if k = entryBlock then b.allocas.map .alloca ++ b.code k else b.code k

/-- `Function`: a declaration while it has no body. -/
structure Function where
  id : Nat
  name : String
  params : List String
  body : Option Body := none

/-- `Module`: functions go by the handle they were created under. -/
structure Module where
  functions : List Function
  nextFn : Nat
  lastUnique : Nat
  id_lt : ∀ f ∈ functions, f.id < nextFn
  ids_nodup : (functions.map Function.id).Nodup

/-- A name as LLVM makes it unique: where it is taken, the next number that
makes it free is appended. -/
def uniqueName (taken : List String) (sep name : String) (last : Nat) : String × Nat :=
  if name ∈ taken then
    let suffixed := fun k => name ++ sep ++ toString (last + k + 1)
    let k := ((List.range (taken.length + 1)).find? fun k => suffixed k ∉ taken).getD
      taken.length
    (suffixed k, last + k + 1)
  else
    (name, last)

/-- `arg.setName` for each parameter in turn. -/
def setNames : List String → List String → Nat → List String
  | taken, [], _ => taken
  | taken, name :: names, last =>
      let (unique, last) := uniqueName taken "" name last
      setNames (taken ++ [unique]) names last

namespace Module

def empty : Module := ⟨[], 0, 0, nofun, List.nodup_nil⟩

/-- `Module::getFunction`. -/
def getFunction (m : Module) (name : String) : Option Function :=
  m.functions.find? fun f => f.name = name

def nameOf (m : Module) (id : Nat) : Option String :=
  (m.functions.find? fun f => f.id = id).map Function.name

/-- The function `Function::Create` makes: a name that is taken gets a dot and
a number. -/
def newFunction (m : Module) (name : String) (params : List String) : Function where
  id := m.nextFn
  name := (uniqueName (m.functions.map Function.name) "." name m.lastUnique).1
  params := params

def create (m : Module) (name : String) (params : List String) : Module where
  functions := m.functions ++ [m.newFunction name params]
  nextFn := m.nextFn + 1
  lastUnique := (uniqueName (m.functions.map Function.name) "." name m.lastUnique).2
  id_lt := fun f hf => by
    rcases List.mem_append.mp hf with hf | hf
    · exact Nat.lt_succ_of_lt (m.id_lt f hf)
    · obtain rfl := List.mem_singleton.mp hf
      exact Nat.lt_succ_self _
  ids_nodup := by
    rw [List.map_append, List.nodup_append]
    refine ⟨m.ids_nodup, by simp, ?_⟩
    rintro i hi j hj rfl
    obtain ⟨f, hf, hid⟩ := List.mem_map.mp hi
    have hlt := m.id_lt f hf
    obtain rfl : i = m.nextFn := List.mem_singleton.mp hj
    exact absurd hid (Nat.ne_of_lt hlt)

/-- `eraseFromParent`. -/
def erase (m : Module) (id : Nat) : Module :=
  { m with
    functions := m.functions.filter fun f => f.id ≠ id
    id_lt := fun f hf => m.id_lt f (List.mem_filter.mp hf).1
    ids_nodup := m.ids_nodup.sublist (List.filter_sublist.map _) }

/-- The function named by the handle gets a body. -/
def setBody (m : Module) (id : Nat) (body : Body) : Module :=
  { m with
    functions := m.functions.map fun f => if f.id = id then { f with body := some body } else f
    id_lt := fun f hf => by
      obtain ⟨g, hg, rfl⟩ := List.mem_map.mp hf
      split
      · exact m.id_lt g hg
      · exact m.id_lt g hg
    ids_nodup := by
      have heq : (m.functions.map fun f => if f.id = id then { f with body := some body }
          else f).map Function.id = m.functions.map Function.id := by
        rw [List.map_map]
        refine List.map_congr_left fun f _ => ?_
        simp only [Function.comp_apply]
        split <;> rfl
      rw [heq]
      exact m.ids_nodup }

end Module

/-- `FunctionProtos`: a prototype is filed under its own name. -/
structure ProtoTable where
  find : String → Option Prototype
  name_eq : ∀ {x p}, find x = some p → p.name = x

namespace ProtoTable

def empty : ProtoTable := ⟨fun _ => none, nofun⟩

def insert (t : ProtoTable) (p : Prototype) : ProtoTable where
  find := fun x => if x = p.name then some p else t.find x
  name_eq := by
    intro x q h
    split at h
    · next hx => cases h; exact hx.symm
    · exact t.name_eq h

end ProtoTable

/-! ## The builder -/

structure Builder where
  module : Module
  protos : ProtoTable
  binopPrecedence : Char → Int
  named : String → Option Nat
  body : Body
  insert : Nat
  nextInst : Nat
  nextBlock : Nat
  /-- Every call accepted so far, with the callee's name and the number of
  arguments. The generator never reads it, and erasing a function leaves it. -/
  accepted : List (String × Nat)
  /-- How many nodes have been cast to `VariableExprAST` so far that are none.
  Nothing reads it. -/
  miscasts : Nat

/-- Why code generation stopped short: an exception, or the use of a node as
one of a class it does not have. -/
inductive Abort where
  | exception (what : String)
  | misread
  deriving DecidableEq, Repr

abbrev CodegenM (α : Type) := EStateM Abort Builder α

namespace Builder

/-- `initializeModuleAndManagers` on empty tables, and the parser's precedences.
No function is being built: the body is an entry block nothing is in. -/
def initial (binopPrecedence : Char → Int) : Builder where
  module := .empty
  protos := .empty
  binopPrecedence := binopPrecedence
  named := fun _ => none
  body := { blocks := [entryBlock], allocas := [], code := fun _ => [] }
  insert := entryBlock
  nextInst := 0
  nextBlock := entryBlock + 1
  accepted := []
  miscasts := 0

/-- Append to a block. -/
def append (b : Builder) (k : Nat) (i : Instr) : Builder :=
  { b with body := { b.body with
      code := fun j => if j = k then b.body.code j ++ [i] else b.body.code j } }

/-- The body so far, and the functions of the module: what a run of the code
emitted so far refers to. -/
def program (b : Builder) : Program := ⟨b.body.code, b.module.nameOf⟩

end Builder

def throwCodegen {α : Type} (what : String) : CodegenM α := throw (.exception what)

def emit (i : Instr) : CodegenM Unit := fun b => .ok () (b.append b.insert i)

/-- Emit an instruction that has a result. -/
def emitValue (i : Nat → Instr) : CodegenM Value := fun b =>
  .ok (.inst b.nextInst)
    { b.append b.insert (i b.nextInst) with nextInst := b.nextInst + 1 }

def createFBin (A : Arith) (op : FBinOp) (lhs rhs : Value) : CodegenM Value :=
  match lhs, rhs with
  | .const x, .const y => pure (.const (op.apply A x y))
  | _, _ => emitValue fun r => .fbin r op lhs rhs

def createFCmp (pred : FCmpPred) (lhs rhs : Value) : CodegenM Value :=
  match lhs, rhs with
  | .const x, .const y => pure (.bool (pred.apply x y))
  | _, _ => emitValue fun r => .fcmp r pred lhs rhs

def createUIToFP (v : Value) : CodegenM Value :=
  match v with
  | .bool x => pure (.const (boolToDouble x))
  | _ => emitValue fun r => .uitofp r v

def createLoad (cell : Nat) : CodegenM Value := emitValue fun r => .load r cell

def createStore (v : Value) (cell : Nat) : CodegenM Unit := emit (.store v cell)

def createCall (fn : Function) (args : List Value) : CodegenM Value := do
  modify fun b => { b with accepted := b.accepted ++ [(fn.name, args.length)] }
  emitValue fun r => .call r fn.id args

def createPhi (incoming : List (Value × Nat)) : CodegenM Value :=
  emitValue fun r => .phi r incoming

/-- `BasicBlock::Create` without a parent. -/
def createBlock : CodegenM Nat := fun b =>
  .ok b.nextBlock { b with nextBlock := b.nextBlock + 1 }

/-- `fn->insert(fn->end(), BB)`. -/
def attachBlock (k : Nat) : CodegenM Unit :=
  modify fun b => { b with body := { b.body with blocks := b.body.blocks ++ [k] } }

/-- `BasicBlock::Create` with a parent. -/
def createBlockIn : CodegenM Nat := do
  let k ← createBlock
  attachBlock k
  pure k

def setInsertPoint (k : Nat) : CodegenM Unit := modify fun b => { b with insert := k }

def getInsertBlock : CodegenM Nat := do
  return (← get).insert

def createEntryBlockAlloca : CodegenM Nat := fun b =>
  .ok b.nextInst
    { b with nextInst := b.nextInst + 1
             body := { b.body with allocas := b.nextInst :: b.body.allocas } }

/-! `NamedValues`. -/

def namedLookup (x : String) : CodegenM (Option Nat) := do
  return (← get).named x

/-- `NamedValues[x] = cell`. -/
def namedSet (x : String) (cell : Option Nat) : CodegenM Unit :=
  modify fun b => { b with named := fun y => if y = x then cell else b.named y }

/-! `FunctionProtos` and the module. -/

/-- `PrototypeAST::codegen`. -/
def Prototype.codegen (p : Prototype) : CodegenM Function := fun b =>
  let params := setNames [] p.args 0
  .ok (b.module.newFunction p.name params) { b with module := b.module.create p.name params }

def getFunction (name : String) : CodegenM (Option Function) := do
  let b ← get
  match b.module.getFunction name with
  | some f => pure (some f)
  | none =>
      match b.protos.find name with
      | some p => do
          let f ← p.codegen
          pure (some f)
      | none => pure none

end LlvmPasses.Kaleido
