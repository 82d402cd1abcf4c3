import LlvmPasses.Ir.Syntax

/-!
# RIV

The integer values reachable in each block: those a block gets from the blocks
above it in the dominator tree. The tree is LLVM's, so it is a parameter.
-/

namespace LlvmPasses.RIV

open Ir

/-- What `DominatorTreeAnalysis` returns, by the blocks of its nodes. -/
structure DomTree where
  root : Nat
  children : Nat → List Nat

/-- A set of values for each block. -/
abbrev Result := Nat → List Value

/-- `result[k].insert(vs.begin(), vs.end())`. -/
def Result.insert (r : Result) (k : Nat) (vs : List Value) : Result := fun j =>
  if j = k then r j ++ vs.filter fun v => v ∉ r j else r j

/-- The integer values a block defines. -/
def definedValues (F : Function) (k : Nat) : List Value :=
  ((F.block k).defs.filter fun d => d.2.isIntegerTy).map fun d => .inst d.1

/-- The integer values there are at the entry. -/
def entryValues (F : Function) (globals : List Nat) : List Value :=
  (globals.map Value.global).filter (fun g => (F.typeOf g).isIntegerTy) ++
    ((List.range F.params.length).map Value.arg).filter fun a => (F.typeOf a).isIntegerTy

/-- The loop over the worklist, whose end is the head of the list here. -/
def propagate (T : DomTree) (F : Function) : Nat → List Nat → Result → Result
  | 0, _, result => result
  | _, [], result => result
  | n + 1, k :: worklist, result =>
      let defs := definedValues F k
      let rivs := result k
      let result := (T.children k).foldl (fun result child =>
        (result.insert child defs).insert child rivs) result
      propagate T F n ((T.children k).reverse ++ worklist) result

/-- `RIV::run`. Every block is a node of the tree at most once, so there are at
most as many rounds as blocks. -/
def run (T : DomTree) (F : Function) (globals : List Nat) : Result :=
  propagate T F F.order.length [T.root]
    (Result.insert (fun _ => []) F.entry (entryValues F globals))

end LlvmPasses.RIV
