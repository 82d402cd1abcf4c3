import LlvmPasses.Ir.Syntax

/-!
# MergeBB

The pass works on a function together with the use lists of its blocks, since
`predecessors(BB)` walks a use list while the loop over it moves the uses it
comes by to another list. A use is an operand of a terminator, or a constant
that holds the block's address; a PHI node's incoming blocks are no uses.
-/

namespace LlvmPasses.MergeBB

open Ir

inductive BlockUse where
  | operand (user : Nat) (i : Nat)
  | blockAddress (k : Nat) (n : Nat)
  deriving DecidableEq, Repr

/-- Why the pass stopped short: the bound on a walk, or a use of a value that
is not there. -/
inductive Stop where
  | outOfFuel
  | undefined
  deriving DecidableEq, Repr

structure State where
  fn : Function
  uses : Nat → List BlockUse

namespace State

/-! ## Use lists -/

/-- The terminators on a list of uses, once for each use. -/
def terminators (us : List BlockUse) : List Nat :=
  us.filterMap fun
    | .operand user _ => some user
    | .blockAddress _ _ => none

/-- `predecessors(k)`. -/
def predecessors (s : State) (k : Nat) : List Nat := terminators (s.uses k)

/-- `Use::removeFromList`. -/
def unlink (s : State) (k : Nat) (u : BlockUse) : State :=
  { s with uses := fun j => if j = k then (s.uses j).erase u else s.uses j }

/-- `Value::addUse`, which makes the use the first of the list. -/
def addUse (s : State) (k : Nat) (u : BlockUse) : State :=
  { s with uses := fun j => if j = k then u :: s.uses j else s.uses j }

/-- `user->getTerminator()->setOperand(i, new)`. -/
def setOperand (s : State) (user : Nat) (i : Nat) (new : Nat) : State :=
  let b := s.fn.block user
  let term := { b.term with operands := b.term.operands.set i (.block new) }
  let s' := match s.fn.termOperand user i with
    | some (.block old) => s.unlink old (.operand user i)
    | _ => s
  { s'.addUse new (.operand user i) with fn := s.fn.setBlock user { b with term := term } }

/-- Where a walk over a use list is: at a terminator's operand, or at the end. -/
abbrev Cursor := Option (Nat × Nat)

/-- `advancePastNonTerminators`, with the uses from the present one on. -/
def firstOperand : List BlockUse → Cursor
  | [] => none
  | .operand user i :: _ => some (user, i)
  | .blockAddress _ _ :: us => firstOperand us

/-- The uses behind one, on whatever list it is now. -/
def behind (s : State) (user : Nat) (i : Nat) : List BlockUse :=
  match s.fn.termOperand user i with
  | some (.block k) => ((s.uses k).dropWhile fun u => u != .operand user i).tail
  | _ => []

/-- The use lists of a function whose terminators were made in order, the last
operand used first. -/
def usesOf (F : Function) (k : Nat) : List BlockUse :=
  (F.order.flatMap fun b =>
    ((List.range (F.block b).term.operands.length).filter fun i =>
      F.termOperand b i == some (.block k)).map (BlockUse.operand b)).reverse

def ofFunction (F : Function) : State := ⟨F, usesOf F⟩

/-! ## updateBranchTargets -/

/-- The inner loop, over the operands of one terminator. -/
def redirect (bbToErase bbToRetain : Nat) (s : State) (pred : Nat) : State :=
  (List.range (s.fn.block pred).term.operands.length).foldl (fun s i =>
    if s.fn.termOperand pred i = some (.block bbToErase) then s.setOperand pred i bbToRetain
    else s) s

/-- The outer loop. The link to the next use is read after the body has run. -/
def walk (bbToErase bbToRetain : Nat) : Nat → Cursor → State → Except Stop State
  | _, none, s => .ok s
  | 0, some _, _ => .error .outOfFuel
  | n + 1, some (pred, i), s =>
      let s := s.redirect bbToErase bbToRetain pred
      walk bbToErase bbToRetain n (firstOperand (s.behind pred i)) s

def updateBranchTargets (s : State) (bbToErase bbToRetain : Nat) : Except Stop State :=
  walk bbToErase bbToRetain ((s.uses bbToErase).length + (s.uses bbToRetain).length + 1)
    (firstOperand (s.uses bbToErase)) s

/-! ## The acceptance test -/

/-- `canRemoveInst`, of an instruction of the block `parent`. -/
def canRemoveInst (F : Function) (parent : Nat) (inst : Instr Op) : Except Stop Bool :=
  match F.users (.inst inst.id) with
  | [] => .error .undefined
  | (userParent, user) :: _ => do
      let succ := (F.block parent).term.successors.head?
      let usedInPhi ← match user with
        | some phiUser =>
            if phiUser.isPhi && some userParent == succ then
              match phiUser.getIncomingValueForBlock parent with
              | some v => pure (v == .inst inst.id)
              | none => .error .undefined
            else pure false
        | none => pure false
      pure (userParent == parent || usedInPhi)

/-- `Instruction::isSameOperationAs`. -/
def isSameOperationAs (F : Function) (inst1 inst2 : Instr Op) : Bool :=
  inst1.op == inst2.op && inst1.ty == inst2.ty &&
    inst1.operands.map F.typeOf == inst2.operands.map F.typeOf

def identicalInstructions (F : Function) (bb1 bb2 : Nat) (inst1 inst2 : Instr Op) :
    Except Stop Bool := do
  let uses1 := (F.users (.inst inst1.id)).length
  let uses2 := (F.users (.inst inst2.id)).length
  if !isSameOperationAs F inst1 inst2 then
    return false
  if !((uses1 == 0 || uses1 == 1) && uses1 == uses2) then
    return false
  if uses1 == 1 then
    if !(← canRemoveInst F bb1 inst1) then
      return false
    if !(← canRemoveInst F bb2 inst2) then
      return false
  return inst1.operands == inst2.operands

/-- The instructions a `LockstepReverseIterator` comes by in one block. -/
def reverseNonDbg (b : Block) : List (Instr Op) :=
  (b.instrs.filter fun i => !i.isDbgInfoIntrinsic).reverse

/-- The iterator over both blocks runs to its end. -/
def lockstep (F : Function) (bb1 bb2 : Nat) :
    List (Instr Op) → List (Instr Op) → Except Stop Bool
  | inst1 :: insts1, inst2 :: insts2 => do
      if ← identicalInstructions F bb1 bb2 inst1 inst2 then
        lockstep F bb1 bb2 insts1 insts2
      else
        return false
  | _, _ => return true

def getNumNonDbgInstrs (b : Block) : Nat := (reverseNonDbg b).length + 1

/-- Some predecessor ends in neither a branch nor a switch. -/
def hasOtherPred (s : State) (k : Nat) : Bool :=
  (s.predecessors k).any fun p =>
    (s.fn.block p).term.op != .br && (s.fn.block p).term.op != .switch

/-- `dyn_cast<Instruction>(v)` with the parent `k`. -/
def definedIn (F : Function) (k : Nat) : Value → Bool
  | .inst id => (F.block k).defs.any fun d => d.1 == id
  | _ => false

/-- What the successor's PHI node takes from the block and from the candidate
lets them be merged. -/
def phiAccepts (F : Function) (bb bb2 : Nat) (inVal1 : Value) (phiNode : Instr Op) :
    Except Stop Bool :=
  match phiNode.getIncomingValueForBlock bb2 with
  | none => .error .undefined
  | some inVal2 =>
      .ok (inVal1 == inVal2 || (definedIn F bb inVal1 && definedIn F bb2 inVal2))

/-- One round of the loop over the candidates: whether `bb2` is taken. The PHI
node comes with the value it takes from `bb`. -/
def accepts (s : State) (deleteList : List Nat) (bb bb2 : Nat)
    (phiNode : Option (Instr Op × Value)) : Except Stop Bool := do
  if s.fn.isEntryBlock bb2 then
    return false
  if !(s.fn.block bb2).term.isUnconditionalBr then
    return false
  if s.hasOtherPred bb2 then
    return false
  if deleteList.contains bb2 || bb == bb2 ||
      getNumNonDbgInstrs (s.fn.block bb) != getNumNonDbgInstrs (s.fn.block bb2) then
    return false
  if let some (phi, inVal1) := phiNode then
    if !(← phiAccepts s.fn bb bb2 inVal1 phi) then
      return false
  lockstep s.fn bb bb2 (reverseNonDbg (s.fn.block bb)) (reverseNonDbg (s.fn.block bb2))

/-- The loop over `predecessors(succ)`. -/
def candidate (s : State) (deleteList : List Nat) (bb : Nat)
    (phiNode : Option (Instr Op × Value)) : List Nat → Except Stop (Option Nat)
  | [] => return none
  | bb2 :: rest => do
      if ← s.accepts deleteList bb bb2 phiNode then
        return some bb2
      else
        candidate s deleteList bb phiNode rest

/-- The PHI node of the successor with the value it takes from `bb`; the answer
is none where it has several. -/
def successorPhi (F : Function) (bb succ : Nat) :
    Except Stop (Option (Option (Instr Op × Value))) :=
  match (F.block succ).phis with
  | [] => .ok (some none)
  | [phi] =>
      match phi.getIncomingValueForBlock bb with
      | some inVal1 => .ok (some (some (phi, inVal1)))
      | none => .error .undefined
  | _ => .ok none

/-- The block that `mergeDuplicatedBlock` merges `bb` into, if it does. -/
def mergeTarget (s : State) (deleteList : List Nat) (bb : Nat) :
    Except Stop (Option Nat) := do
  if s.fn.isEntryBlock bb then
    return none
  if !(s.fn.block bb).term.isUnconditionalBr then
    return none
  if s.hasOtherPred bb then
    return none
  match (s.fn.block bb).term.successors.head? with
  | none => .error .undefined
  | some succ =>
      match ← successorPhi s.fn bb succ with
      | none => return none
      | some phiNode => s.candidate deleteList bb phiNode (s.predecessors succ)

/-! ## The pass -/

/-- `mergeDuplicatedBlock`: whether it merged, with what it left. -/
def mergeDuplicatedBlock (s : State) (deleteList : List Nat) (bb : Nat) :
    Except Stop (Bool × State × List Nat) := do
  match ← s.mergeTarget deleteList bb with
  | none => return (false, s, deleteList)
  | some bb2 => do
      let s ← s.updateBranchTargets bb bb2
      return (true, s, deleteList ++ [bb])

/-- The loop of `run` over the blocks. -/
def mergeBlocks (s : State) (deleteList : List Nat) (changed : Bool) :
    List Nat → Except Stop (Bool × State × List Nat)
  | [] => return (changed, s, deleteList)
  | bb :: rest => do
      let (merged, s, deleteList) ← s.mergeDuplicatedBlock deleteList bb
      s.mergeBlocks deleteList (changed || merged) rest

end State

/-! ## DeleteDeadBlock -/

/-- `PHINode::removeIncomingValue`, which takes one entry and asserts that there
is one. -/
def removeIncomingValue (pred : Nat) (phi : Instr Op) : Except Stop (Instr Op) :=
  match phi.incoming.idxOf? pred with
  | none => .error .undefined
  | some n =>
      .ok { phi with incoming := phi.incoming.eraseIdx n, operands := phi.operands.eraseIdx n }

/-- `BasicBlock::removePredecessor`, up to where it has taken the entries out. LLVM
also replaces a PHI node whose entries then have one value by this value, and
erases one that has none; here such a PHI node stays. -/
def removePredecessor (F : Function) (k pred : Nat) : Except Stop Function := do
  let phis ← (F.block k).phis.mapM (removeIncomingValue pred)
  return F.setBlock k { F.block k with instrs := phis ++ (F.block k).body }

/-- `DeleteDeadBlock`. -/
def deleteDeadBlock (F : Function) (k : Nat) : Except Stop Function := do
  let F ← (F.successors k).foldlM (fun F succ => removePredecessor F succ k) F
  return { F with order := F.order.erase k }

/-- `MergeBB::run`: whether it changed the function, with what it left. The set
of the blocks to delete is gone through in any order. -/
def run (arrange : List Nat → List Nat) (F : Function) : Except Stop (Bool × Function) := do
  let (changed, s, deleteList) ← (State.ofFunction F).mergeBlocks [] false F.order
  let F ← (arrange deleteList).foldlM deleteDeadBlock s.fn
  return (changed, F)

end LlvmPasses.MergeBB
