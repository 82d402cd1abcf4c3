import LlvmPasses.Ir.Edit
import LlvmPasses.Pass.RIV

/-!
# DuplicateBB

Every block with a reachable integer value becomes a diamond: the block keeps
its PHI nodes and tests a value, both arms run a clone of what followed, and
the tail merges what the arms computed.
-/

namespace LlvmPasses.DuplicateBB

open Ir

/-- `BB.isLandingPad()`. -/
def isLandingPad (b : Block) : Bool :=
  match b.body.head? with
  | some i => match i.op with
    | .landingpad _ => true
    | _ => false
  | none => false

/-- The blocks to be duplicated with the values to be checked: `dist` is where
in its set the value is that was drawn for a block. -/
def targets (F : Function) (rivs : RIV.Result) (dist : Nat → Nat) :
    List (Nat × Value) :=
  F.order.filterMap fun k =>
    if isLandingPad (F.block k) then none
    else (rivs k)[dist k]?.map fun v => (k, v)

/-- What the loop over the instructions of a tail works on. -/
structure State where
  fn : Function
  valueToPhi : ValueMap
  tailVMap : ValueMap := .empty
  thenVMap : ValueMap := .empty
  elseVMap : ValueMap := .empty
  freeList : List Nat := []

namespace State

/-- `instr.clone()`, remapped and inserted before the terminator of `arm`. -/
def insertClone (F : Function) (arm : Nat) (m : ValueMap) (instr : Instr Op) : Function :=
  let clone := { instr.remap m with id := F.nextInst }
  let b := F.block arm
  { F.setBlock arm { b with instrs := b.instrs ++ [clone] } with nextInst := F.nextInst + 1 }

/-- `ReplaceInstWithInst`, of the instruction at position `i` of a block. -/
def replaceInst (F : Function) (k : Nat) (i : Nat) (instr phi : Instr Op) : Function :=
  let F := F.replaceAllUsesWith (.inst instr.id) (.inst phi.id)
  let b := F.block k
  F.setBlock k { b with instrs := b.instrs.set i phi }

/-- One round of the loop over the tail, at position `i`. -/
def duplicateInstr (thenBlock elseBlock tail : Nat) (s : State) (i : Nat) : State :=
  match (s.fn.block tail).instrs[i]? with
  | none => s
  | some instr =>
      let thenClone := s.fn.nextInst
      let F := insertClone s.fn thenBlock s.thenVMap instr
      let elseClone := F.nextInst
      let F := insertClone F elseBlock s.elseVMap instr
      let s := { s with
        thenVMap := s.thenVMap.insert (.inst instr.id) (.inst thenClone)
        elseVMap := s.elseVMap.insert (.inst instr.id) (.inst elseClone) }
      if instr.ty.isVoidTy then
        { s with fn := F, freeList := s.freeList ++ [instr.id] }
      else
        let phi : Instr Op := ⟨F.nextInst, instr.ty, .phi, [.inst thenClone, .inst elseClone],
          [thenBlock, elseBlock], {}⟩
        let old := Value.inst instr.id
        let new := Value.inst phi.id
        { s with
          fn := replaceInst { F with nextInst := F.nextInst + 1 } tail i instr phi
          tailVMap := (s.tailVMap.insert old new).followReplacement old new
          thenVMap := s.thenVMap.followReplacement old new
          elseVMap := s.elseVMap.followReplacement old new
          valueToPhi := s.valueToPhi.insert old new }

/-- The terminator of the tail is remapped, and what is on the free list erased. -/
def finish (tail : Nat) (s : State) : State :=
  let b := s.fn.block tail
  { s with fn := s.fn.setBlock tail {
      instrs := b.instrs.filter fun i => i.id ∉ s.freeList
      term := b.term.remap s.tailVMap } }

end State

/-- One round of the loop over the targets. -/
def duplicate (F : Function) (valueToPhi : ValueMap) (target : Nat × Value) :
    Function × ValueMap :=
  let (bb, checkValue) := target
  let value := (valueToPhi checkValue).getD checkValue
  let width := match F.typeOf value with
    | .int w => w
    | _ => 0
  -- `CreateIsNull`; nothing is folded, no reachable value is a constant
  let cond : Instr Op := ⟨F.nextInst, .int 1, .icmp .eq, [value, .constInt width 0], [], {}⟩
  let split := { F with nextInst := F.nextInst + 1 }.splitBlockAndInsertIfThenElse bb cond
  let rounds := (split.fn.block split.tail).instrs.length
  let s := (List.range rounds).foldl
    (State.duplicateInstr split.thenBlock split.elseBlock split.tail)
    { fn := split.fn, valueToPhi }
  let s := s.finish split.tail
  (s.fn, s.valueToPhi)

/-- The loop over the targets, in the order the map has them. -/
def duplicateAll (F : Function) (ts : List (Nat × Value)) : Function :=
  (ts.foldl (fun (F, valueToPhi) target => duplicate F valueToPhi target) (F, ValueMap.empty)).1

/-- `DuplicateBB::run`. The map of the targets is gone through in any order. -/
def run (dist : Nat → Nat) (arrange : List (Nat × Value) → List (Nat × Value))
    (rivAnalysis : RIV.Result) (F : Function) : PreservedAnalyses × Function :=
  let targets := targets F rivAnalysis dist
  (if targets.isEmpty then .all else .none, duplicateAll F (arrange targets))

end LlvmPasses.DuplicateBB
