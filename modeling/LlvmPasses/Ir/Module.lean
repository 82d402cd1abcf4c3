import LlvmPasses.Ir.Syntax

/-!
# Modules

What a module pass sees: variables and functions, under names in one symbol
table. Handles are shared between the two, and a function's handle is also what
a call names. A name is asked for first, and if nothing has it a variable or a
declaration comes to be under it; what is made without asking gets another name
if its own is taken.
-/

namespace LlvmPasses.Ir

/-- An initializer; of those that no pass makes, only the type matters. -/
inductive Const where
  | int (width : Nat) (val : BitVec width)
  | string (s : String)
  /-- What `llvm.global_dtors` holds: of each entry, the function. -/
  | dtors (functions : List Nat)
  | other (ty : Ty) (id : Nat)
  deriving DecidableEq, Repr

/-- `getType()`. A string ends in a zero. -/
def Const.ty : Const → Ty
  | .int width _ => .int width
  | .string s => .array (s.utf8ByteSize + 1) (.int 8)
  | .dtors functions => .array functions.length .dtorEntry
  | .other ty _ => ty

structure GlobalVariable where
  id : Nat
  name : String
  valueType : Ty
  init : Option Const
  deriving DecidableEq, Repr

/-- A function with its handle and its name in the module. -/
structure Func where
  id : Nat
  name : String
  fn : Function

structure Module where
  globals : List GlobalVariable
  functions : List Func
  /-- The names of aliases and ifuncs. -/
  aliases : List String
  /-- From here on handles are free. -/
  next : Nat

/-- What a name stands for: a variable, a function, or an alias or ifunc. -/
inductive NamedValue where
  | global (id : Nat)
  | function (id : Nat)
  | indirect
  deriving DecidableEq, Repr

/-- A function without a body. -/
def Function.declaration (params : List Ty) (retTy : Ty) : Function where
  params := params
  retTy := retTy
  order := []
  block := fun _ => ⟨[], ⟨0, .void, .unreachable, [], [], {}⟩⟩
  nextBlock := 0
  nextInst := 0

/-- The variable that lists what is called at the end. -/
def globalDtors : String := "llvm.global_dtors"

namespace Module

variable (M : Module)

/-- `Module::getNamedValue`. -/
def getNamedValue (name : String) : Option NamedValue :=
  match M.globals.find? fun v => v.name == name with
  | some v => some (.global v.id)
  | none =>
      match M.functions.find? fun f => f.name == name with
      | some f => some (.function f.id)
      | none => if M.aliases.contains name then some .indirect else none

/-- `ValueSymbolTable::makeUniqueName`, where the name is taken. -/
def uniqueName (name : String) : String :=
  if name = "" ∨ M.getNamedValue name = none then name
  else
    let n := M.globals.length + M.functions.length + M.aliases.length
    let names := (List.range (n + 1)).map fun i => name ++ "." ++ toString (i + 1)
    (names.find? fun name => (M.getNamedValue name).isNone).getD (name ++ ".")

/-- `new GlobalVariable`. -/
def addGlobal (name : String) (ty : Ty) (init : Option Const) : Nat × Module :=
  (M.next, { M with
    globals := M.globals ++ [⟨M.next, M.uniqueName name, ty, init⟩], next := M.next + 1 })

/-- `Module::getOrInsertGlobal`. -/
def getOrInsertGlobal (name : String) (ty : Ty) : Nat × Module :=
  match M.getNamedValue name with
  | some (.global id) => (id, M)
  | _ => M.addGlobal name ty none

/-- `GlobalVariable::setInitializer`. -/
def setInitializer (id : Nat) (c : Const) : Module :=
  { M with globals := M.globals.map fun v => if v.id = id then { v with init := some c } else v }

/-- `IRBuilder::CreateGlobalStringPtr`. -/
def createGlobalString (s : String) : Nat × Module :=
  M.addGlobal "" (Const.string s).ty (some (.string s))

/-- `Module::getNamedGlobal`. -/
def getNamedGlobal (name : String) : Option GlobalVariable :=
  M.globals.find? fun v => v.name == name

/-- `eraseFromParent`, of what `getNamedGlobal` comes to. -/
def eraseGlobal (name : String) : Module :=
  { M with globals := M.globals.eraseP fun v => v.name == name }

/-- The functions that are called at the end. An initializer without operands
lists none. -/
def dtors : List Nat :=
  match (M.getNamedGlobal globalDtors).bind GlobalVariable.init with
  | some (.dtors functions) => functions
  | _ => []

/-- `appendToGlobalDtors`, which makes the variable anew. -/
def appendToGlobalDtors (fn : Nat) : Module :=
  let init := Const.dtors (M.dtors ++ [fn])
  ((M.eraseGlobal globalDtors).addGlobal globalDtors init.ty (some init)).2

/-- `Module::getOrInsertFunction`; no function comes back if something else has
the name. -/
def getOrInsertFunction (name : String) (params : List Ty) (retTy : Ty) : Option (Nat × Module) :=
  match M.getNamedValue name with
  | some (.function id) => some (id, M)
  | none => some (M.next, { M with
      functions := M.functions ++ [⟨M.next, name, .declaration params retTy⟩], next := M.next + 1 })
  | some _ => none

/-- The functions that have a body, as a loop over the module comes by them. -/
def defined : List Func := M.functions.filter fun f => !f.fn.isDeclaration

/-- The function under a handle is changed. -/
def modifyFunction (id : Nat) (g : Function → Function) : Module :=
  { M with functions := M.functions.map fun f => if f.id = id then { f with fn := g f.fn } else f }

end Module

end LlvmPasses.Ir
