import LlvmPasses.Lib.Cache
import LlvmPasses.Lib.Simulation
import LlvmPasses.Pass.Counters
import LlvmPasses.Pass.DuplicateBB
import LlvmPasses.Pass.FCmpEq
import LlvmPasses.Pass.MBA
import LlvmPasses.Pass.MergeBB
import LlvmPasses.Pass.Printf

/-!
# Pipelines

Passes run one after the other, a function pass on one function at a time. What
an analysis has computed is kept until a pass reports that it has not preserved
it. Functions go by their positions in the module.
-/

namespace LlvmPasses

open Ir

namespace Ir.Module

variable (M : Module)

/-- The function at a position, if it has a body. -/
def body (n : Nat) : Option Function :=
  (M.functions[n]?.map Func.fn).filter fun F => !F.isDeclaration

/-- The handles of `M.global_values()`, less those of aliases and ifuncs. -/
def globalValues : List Nat := M.functions.map Func.id ++ M.globals.map GlobalVariable.id

def setBody (n : Nat) (F : Function) : Module :=
  { M with functions := M.functions.modify n fun f => { f with fn := F } }

end Ir.Module

/-! ## Analyses -/

/-- An analysis of one function or of the module. -/
inductive Analysis where
  | dominatorTree (n : Nat)
  | riv (n : Nat)
  | opcodeCounter (n : Nat)
  | findFCmpEq (n : Nat)
  | staticCallCounter
  deriving DecidableEq, Repr

namespace Analysis

abbrev Result : Analysis → Type
  | .dominatorTree _ => RIV.DomTree
  | .riv _ => RIV.Result
  | .opcodeCounter _ => List (String × Nat)
  | .findFCmpEq _ => List Nat
  | .staticCallCounter => List (Nat × Nat)

/-- The function an analysis is of. -/
def function : Analysis → Option Nat
  | .dominatorTree n | .riv n | .opcodeCounter n | .findFCmpEq n => some n
  | .staticCallCounter => none

variable (domTree : Function → RIV.DomTree) (M : Module)

/-- What the `run` of an analysis computes, on nothing if there is no body. -/
def run (a : Analysis) : a.Result :=
  let F (n : Nat) := (M.body n).getD (.declaration [] .void)
  match a with
  | .dominatorTree n => domTree (F n)
  | .riv n => RIV.run (domTree (F n)) (F n) M.globalValues
  | .opcodeCounter n => OpcodeCounter.run (F n)
  | .findFCmpEq n => FindFCmpEq.run (F n)
  | .staticCallCounter => StaticCallCounter.run M

end Analysis

/-- What has been computed. -/
abbrev AnalysisManager := Cache Analysis.Result

/-- `getResult`. RIV asks for the dominator tree in the same way. -/
def getResult (domTree : Function → RIV.DomTree) (M : Module) (a : Analysis) :
    StateM AnalysisManager a.Result :=
  match a with
  | .riv n => Cache.obtain (Analysis.riv n) do
      let T ← Cache.obtain (Analysis.dominatorTree n)
        (pure ((Analysis.dominatorTree n).run domTree M))
      return RIV.run T ((M.body n).getD (.declaration [] .void)) M.globalValues
  | a => Cache.obtain a (pure (a.run domTree M))

/-- Whether a result is kept after a pass on a function, or on the module. -/
def Ir.PreservedAnalyses.keeps (PA : PreservedAnalyses) (on : Option Nat) (a : Analysis) : Bool :=
  match PA, on with
  | .all, _ => true
  | .none, some n => a.function.isSome && a.function != some n
  | .none, .none => false

/-! ## Passes -/

/-- The order in which a set or a map goes through its elements. -/
structure Arrangement (α : Type) where
  arrange : List α → List α
  perm (l : List α) : (arrange l).Perm l

/-- The function passes and printers, each with what the source leaves open. -/
inductive FunctionPass where
  | mbaAdd
  | mbaSub
  | convertFCmpEq (folder : ConvertFCmpEq.Folder)
  | duplicateBB (dist : Nat → Nat) (order : Arrangement (Nat × Value))
  | mergeBB (order : Arrangement Nat)
  | riv
  | opcodeCounter
  | findFCmpEq
  | helloWorld

inductive ModulePass where
  | injectFuncCall
  | dynamicCallCounter (order : Arrangement (String × Nat))
  | staticCallCounter

inductive Step where
  | onFunction (p : FunctionPass) (n : Nat)
  | onModule (p : ModulePass)

namespace FunctionPass

/-- The analysis a pass asks for. -/
def obtains (n : Nat) : FunctionPass → Option Analysis
  | .convertFCmpEq _ | .findFCmpEq => some (.findFCmpEq n)
  | .duplicateBB _ _ | .riv => some (.riv n)
  | .opcodeCounter => some (.opcodeCounter n)
  | .mbaAdd | .mbaSub | .mergeBB _ | .helloWorld => none

variable (domTree : Function → RIV.DomTree) (M : Module)

/-- What a pass reports and makes of the function at a position, if it comes to
its end. -/
def run (n : Nat) (F : Function) :
    FunctionPass → StateM AnalysisManager (Option (PreservedAnalyses × Function))
  | .mbaAdd => return some (MBAAdd.run F)
  | .mbaSub => return some (MBASub.run F)
  | .convertFCmpEq folder => do
      let analysis ← getResult domTree M (.findFCmpEq n)
      return some (ConvertFCmpEq.run folder analysis F)
  | .duplicateBB dist order => do
      let rivAnalysis ← getResult domTree M (.riv n)
      return some (DuplicateBB.run dist order.arrange rivAnalysis F)
  | .mergeBB order =>
      return match MergeBB.run order.arrange F with
        | .ok (changed, F) => some (if changed then .none else .all, F)
        | .error _ => none
  | .riv => do
      let _ ← getResult domTree M (.riv n)
      return some (.all, F)
  | .opcodeCounter => do
      let _ ← getResult domTree M (.opcodeCounter n)
      return some (.all, F)
  | .findFCmpEq => do
      let _ ← getResult domTree M (.findFCmpEq n)
      return some (.all, F)
  | .helloWorld => return some (.all, F)

end FunctionPass

namespace ModulePass

def obtains : ModulePass → Option Analysis
  | .staticCallCounter => some .staticCallCounter
  | .injectFuncCall | .dynamicCallCounter _ => none

variable (domTree : Function → RIV.DomTree) (M : Module)

def run : ModulePass → StateM AnalysisManager (Option (PreservedAnalyses × Module))
  | .injectFuncCall =>
      return (InjectFuncCall.run M).map fun (M, calls) =>
        (if calls.isEmpty then .all else .none, M)
  | .dynamicCallCounter order =>
      return (DynamicCallCounter.run order.arrange M).map fun (M', _) =>
        (if M.defined.isEmpty then .all else .none, M')
  | .staticCallCounter => do
      let _ ← getResult domTree M .staticCallCounter
      return some (.all, M)

end ModulePass

/-! ## Runs -/

structure Managed where
  module : Module
  analyses : AnalysisManager

namespace Step

/-- The analysis the pass of a step asks for, if it is run. -/
def obtains (M : Module) : Step → Option Analysis
  | .onFunction p n => if (M.body n).isSome then p.obtains n else none
  | .onModule p => p.obtains

/-- The next state; a declaration is no function to run a pass on. -/
def next (domTree : Function → RIV.DomTree) (p : Step) (s : Managed) : Option Managed :=
  match p with
  | .onFunction p n =>
      match s.module.body n with
      | none => some s
      | some F =>
          let (result, analyses) := p.run domTree s.module n F s.analyses
          result.map fun (PA, F) => ⟨s.module.setBody n F, analyses.keep (PA.keeps (some n))⟩
  | .onModule p =>
      let (result, analyses) := p.run domTree s.module s.analyses
      result.map fun (PA, M) => ⟨M, analyses.keep (PA.keeps none)⟩

end Step

/-- A pipeline run from the beginning, with nothing computed yet. -/
def runPipeline (domTree : Function → RIV.DomTree) (ps : List Step) (M : Module) :
    Option Managed :=
  Simulation.run (Step.next domTree) ps ⟨M, .empty⟩

end LlvmPasses
