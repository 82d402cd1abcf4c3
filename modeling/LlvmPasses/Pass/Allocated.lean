import Mathlib.Data.List.Sort
import LlvmPasses.Lib.PointerSet
import LlvmPasses.Pass.DuplicateBB

/-!
# RIV and DuplicateBB in memory

Both again, with the addresses of values and blocks. A set of reachable values
is a set of pointers, which the analysis copies from and the pass counts into;
and the pass keeps its targets in a map that is ordered by the addresses of the
blocks.
-/

namespace LlvmPasses

open Ir

/-- The value belongs to the function. -/
def isLocal : Value → Bool
  | .inst _ | .arg _ => true
  | _ => false

/-- The addresses at which the values and the blocks of a function are. -/
structure Allocation where
  value : Value → Nat
  block : Nat → Nat
  value_inj : ∀ u v, isLocal u = true → isLocal v = true → value u = value v → u = v
  block_inj : Function.Injective block

namespace Allocation

variable (table : PointerSet.Hashing) (A : Allocation)

/-- A `SmallPtrSet<Value *, 8>`, as it is gone through. -/
def iterate (values : List Value) : List Value := PointerSet.iterate 8 table A.value values

/-- A `std::map<BasicBlock *, Value *>`, as it is gone through. -/
def arrange (targets : List (Nat × Value)) : List (Nat × Value) :=
  targets.insertionSort fun s t => A.block s.1 ≤ A.block t.1

end Allocation

namespace RIV

/-- The loop over the worklist, where sets are gone through by `iterate`. -/
def propagateIn (iterate : List Value → List Value) (T : DomTree) (F : Function) :
    Nat → List Nat → Result → Result
  | 0, _, result => result
  | _, [], result => result
  | n + 1, k :: worklist, result =>
      let defs := iterate (definedValues F k)
      let rivs := iterate (result k)
      let result := (T.children k).foldl (fun result child =>
        (result.insert child defs).insert child rivs) result
      propagateIn iterate T F n ((T.children k).reverse ++ worklist) result

/-- `RIV::run`, with the elements of each set in the order they came in. -/
def runIn (iterate : List Value → List Value) (T : DomTree) (F : Function) (globals : List Nat) :
    Result :=
  propagateIn iterate T F F.order.length [T.root]
    (Result.insert (fun _ => []) F.entry (entryValues F globals))

end RIV

namespace DuplicateBB

/-- A `RandomNumberGenerator` under `std::uniform_int_distribution<>(0, last)`. -/
structure Generator (σ : Type) where
  draw : (last : Nat) → σ → Fin (last + 1) × σ

/-- The first loop of the pass: the blocks to be duplicated, each with the value
to be checked. -/
def choose {σ : Type} (gen : Generator σ) (F : Function) (rivs : RIV.Result) :
    List Nat → σ → List (Nat × Value)
  | [], _ => []
  | k :: order, seed =>
      if isLandingPad (F.block k) then choose gen F rivs order seed
      else match rivs k with
        | [] => choose gen F rivs order seed
        | v :: values =>
            let (i, seed) := gen.draw values.length seed
            (k, (v :: values).get i) :: choose gen F rivs order seed

/-- The pass on a function in memory: the targets, and what is made of the function. -/
def runAt {σ : Type} (table : PointerSet.Hashing) (A : Allocation) (gen : Generator σ) (seed : σ)
    (T : RIV.DomTree) (F : Function) (globals : List Nat) : List (Nat × Value) × Function :=
  let rivAnalysis := RIV.runIn (A.iterate table) T F globals
  let targets := choose gen F (fun k => A.iterate table (rivAnalysis k)) F.order seed
  (targets, duplicateAll F (A.arrange targets))

end DuplicateBB

end LlvmPasses
