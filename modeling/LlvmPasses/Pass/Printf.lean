import LlvmPasses.Ir.Module

/-!
# InjectFuncCall and DynamicCallCounter

Both passes insert calls of `printf`, and both keep their format string in the
variable `PrintfFormatStr`. A pass comes to nothing where it takes for a
function what is none.
-/

namespace LlvmPasses

open Ir

/-- A call that a pass inserted, with the function it is in. -/
structure Inserted where
  parent : Nat
  call : Instr Op
  deriving DecidableEq, Repr

/-- `M.getOrInsertFunction("printf", PrintfTy)`, of type `i32 (ptr, ...)`. -/
def getOrInsertPrintf (M : Module) : Option (Nat × Module) :=
  M.getOrInsertFunction "printf" [.ptr] (.int 32)

/-- The variable `PrintfFormatStr`, with the format string of the pass. -/
def setFormatStr (M : Module) (formatStr : String) : Nat × Module :=
  let (formatStrVar, M) := M.getOrInsertGlobal "PrintfFormatStr" (Const.string formatStr).ty
  (formatStrVar, M.setInitializer formatStrVar (.string formatStr))

/-- A call of `printf` on the format string, a name and a number. -/
def printfCall (printf formatStr name : Nat) (n : Value) (id : Nat) : Instr Op where
  id := id
  ty := .int 32
  op := .call false
  operands := [.global formatStr, .global name, n, .global printf]

namespace InjectFuncCall

def formatStr : String := "Hello from %s\n   Number of arguments: %d\n"

/-- The loop of `run` over the functions that have a body. -/
def inject (printf formatStrVar : Nat) : List Func → Module → Module × List Inserted
  | [], M => (M, [])
  | F :: fs, M =>
      let (funcName, M) := M.createGlobalString F.name
      let args := .constInt 32 (BitVec.ofNat 32 F.fn.params.length)
      let call := printfCall printf formatStrVar funcName args F.fn.nextInst
      let M := M.modifyFunction F.id fun fn => fn.insertFirst [call]
      let (M, calls) := inject printf formatStrVar fs M
      (M, ⟨F.id, call⟩ :: calls)

/-- `InjectFuncCall::run`, with the calls it inserted. -/
def run (M : Module) : Option (Module × List Inserted) := do
  let (printf, M) ← getOrInsertPrintf M
  let (formatStrVar, M) := setFormatStr M formatStr
  return inject printf formatStrVar M.defined M

end InjectFuncCall

namespace DynamicCallCounter

def formatStr : String := "%s -> %d\n"

/-- The counter of one function and what counts in it. -/
def increment (functionGlobal : Nat) (id : Nat) : List (Instr Op) :=
  [ ⟨id, .int 32, .load false 4, [.global functionGlobal], [], {}⟩,
    ⟨id + 1, .int 32, .binop .add, [.inst id, .constInt 32 1], [], {}⟩,
    ⟨id + 2, .void, .store false 4, [.inst (id + 1), .global functionGlobal], [], {}⟩ ]

/-- `functionToGlobalMap[name] = global`. -/
def insertGlobal (map : List (String × Nat)) (name : String) (global : Nat) :
    List (String × Nat) :=
  (name, global) :: map.filter fun e => e.1 != name

/-- The first loop of `run`. -/
def count : List Func → List (String × Nat) → Module → Module × List (String × Nat)
  | [], functionToGlobalMap, M => (M, functionToGlobalMap)
  | F :: fs, functionToGlobalMap, M =>
      let (functionGlobal, M) := M.getOrInsertGlobal (F.name ++ "_Counter") (.int 32)
      let M := M.setInitializer functionGlobal (.int 32 0)
      let M := M.modifyFunction F.id fun fn => fn.insertFirst (increment functionGlobal fn.nextInst)
      count fs (insertGlobal functionToGlobalMap F.name functionGlobal) M

/-- The second loop of `run`: the instructions of the print function, whose
handles start at `id`. -/
def print (printf formatStrVar : Nat) : List (String × Nat) → Nat → Module →
    Module × List (Instr Op) × List (Instr Op)
  | [], _, M => (M, [], [])
  | (fnName, global) :: map, id, M =>
      let load : Instr Op := ⟨id, .int 32, .load false 4, [.global global], [], {}⟩
      let (funcName, M) := M.createGlobalString fnName
      let call := printfCall printf formatStrVar funcName (.inst id) (id + 1)
      let (M, instrs, calls) := print printf formatStrVar map (id + 2) M
      (M, load :: call :: instrs, call :: calls)

/-- A block at the end of a function. -/
def appendBlock (fn : Function) (instrs : List (Instr Op)) : Function :=
  let term : Instr TermOp := ⟨fn.nextInst + instrs.length, .void, .ret, [], [], {}⟩
  { fn.setBlock fn.nextBlock ⟨instrs, term⟩ with
    order := fn.order ++ [fn.nextBlock]
    nextBlock := fn.nextBlock + 1
    nextInst := fn.nextInst + instrs.length + 1 }

/-- `DynamicCallCounter::run`, with the calls it inserted. The map is gone
through in any order. -/
def run (arrange : List (String × Nat) → List (String × Nat)) (M : Module) :
    Option (Module × List Inserted) :=
  if M.defined.isEmpty then some (M, [])
  else do
    let (M, functionToGlobalMap) := count M.defined [] M
    let (printf, M) ← getOrInsertPrintf M
    let (formatStrVar, M) := setFormatStr M formatStr
    let (printWrapper, M) ← M.getOrInsertFunction "print_wrapper" [] .void
    let id := ((M.functions.find? fun f => f.id == printWrapper).map (·.fn.nextInst)).getD 0
    let (M, instrs, calls) := print printf formatStrVar (arrange functionToGlobalMap) id M
    let M := M.modifyFunction printWrapper fun fn => appendBlock fn instrs
    return (M.appendToGlobalDtors printWrapper, calls.map (Inserted.mk printWrapper))

end DynamicCallCounter

/-! ## Pipelines -/

inductive PrintfPass where
  | injectFuncCall
  | dynamicCallCounter
  deriving DecidableEq, Repr

namespace PrintfPass

def formatStr : PrintfPass → String
  | .injectFuncCall => InjectFuncCall.formatStr
  | .dynamicCallCounter => DynamicCallCounter.formatStr

def run (arrange : List (String × Nat) → List (String × Nat)) (M : Module) :
    PrintfPass → Option (Module × List Inserted)
  | .injectFuncCall => InjectFuncCall.run M
  | .dynamicCallCounter => DynamicCallCounter.run arrange M

end PrintfPass

/-- The passes run one after the other; each call is logged with its pass. -/
def runPasses (arrange : List (String × Nat) → List (String × Nat)) :
    List PrintfPass → Module → List (PrintfPass × Inserted) →
      Option (Module × List (PrintfPass × Inserted))
  | [], M, log => some (M, log)
  | p :: ps, M, log => do
      let (M, calls) ← p.run arrange M
      runPasses arrange ps M (log ++ calls.map (Prod.mk p))

end LlvmPasses
