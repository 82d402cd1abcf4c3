import LlvmPasses.Ir.WellFormed
import LlvmPasses.Pass.FCmpEq

/-!
# One comparison after its conversion

What a conversion does to the function: the block of the comparison gets the
instructions that were made in front of it, and the comparison another predicate
and other operands.

The comparison is looked up by its handle, since earlier conversions have
inserted instructions in front of it; `At` has the place it is found at.
`convertFCmpEq_eq` is one equation for the whole function of the source, and
the two modules about the pass go on from it.
-/

namespace LlvmPasses.ConvertFCmpEq

open Ir IRBuilder

variable {folder : Folder} {F : Function} {id k : Nat} {pre post : List (Instr Op)}
variable {fcmp : Instr Op} {pred pred' : FCmpPred} {lhs rhs : Value}

/-- The comparison under a handle, between the instructions of its block. -/
structure At (F : Function) (id k : Nat) (pre : List (Instr Op)) (fcmp : Instr Op)
    (post : List (Instr Op)) : Prop where
  mem : k ∈ F.order
  instrs : (F.block k).instrs = pre ++ fcmp :: post
  comparison : FindFCmpEq.finds fcmp = true ∧ fcmp.id = id

theorem locate_some {i : Nat} (h : locate F id = some (k, i, fcmp)) :
    ∃ pre post, At F id k pre fcmp post ∧ pre.length = i := by
  obtain ⟨j, hj, hfound⟩ := List.exists_of_findSome?_eq_some h
  obtain ⟨⟨instr, n⟩, hfind, heq⟩ := Option.map_eq_some_iff.mp hfound
  cases heq
  have hmem := List.mem_of_find?_eq_some hfind
  have htest := List.find?_some hfind
  simp only [Bool.and_eq_true, beq_iff_eq] at htest
  have hget := List.mem_zipIdx_iff_getElem?.mp hmem
  obtain ⟨hlt, hget⟩ := List.getElem?_eq_some_iff.mp hget
  refine ⟨(F.block k).instrs.take n, (F.block k).instrs.drop (n + 1), ⟨hj, ?_, htest⟩, ?_⟩
  · rw [← hget, List.getElem_cons_drop, List.take_append_drop]
  · exact List.length_take_of_le (Nat.le_of_lt hlt)

theorem locate_isSome (h : At F id k pre fcmp post) : ∃ e, locate F id = some e := by
  cases hloc : locate F id with
  | some e => exact ⟨e, rfl⟩
  | none =>
      have hnone := List.findSome?_eq_none_iff.mp hloc k h.mem
      rw [Option.map_eq_none_iff, List.find?_eq_none] at hnone
      have hget : (F.block k).instrs[pre.length]? = some fcmp := by simp [h.instrs]
      have htest := hnone (fcmp, pre.length) (List.mem_zipIdx_iff_getElem?.mpr hget)
      simp [h.comparison] at htest

/-- A comparison that is found is one for equality. -/
theorem finds_iff : FindFCmpEq.finds fcmp = true ↔
    ∃ pred, fcmp.op = .fcmp pred ∧ isEquality pred = true := by
  unfold FindFCmpEq.finds
  cases fcmp.op with
  | fcmp pred => simp
  | _ => simp

/-- Equality is converted to what is no comparison for equality any more. -/
theorem convertPredicate_of_isEquality (h : isEquality pred = true) :
    ∃ pred', convertPredicate pred = some pred' ∧ isEquality pred' = false := by
  cases pred with
  | oeq | one | ueq | une => exact ⟨_, rfl, rfl⟩
  | _ => cases h

/-- What is inserted for a comparison, and the value it leaves. -/
def difference (folder : Folder) (F : Function) (lhs rhs : Value) : Value × IRBuilder :=
  absDifference folder (F.typeOf lhs) lhs rhs ⟨[], F.nextInst⟩

/-- The comparison of a value with the epsilon. -/
def tolerance (fcmp : Instr Op) (pred : FCmpPred) (v : Value) : Instr Op :=
  { fcmp with op := .fcmp pred, operands := [v, epsilonValue] }

/-- The function after a conversion. -/
def converted (F : Function) (k : Nat) (pre : List (Instr Op)) (code : Value × IRBuilder)
    (fcmp : Instr Op) (pred : FCmpPred) (post : List (Instr Op)) : Function :=
  { F.setBlock k { F.block k with
      instrs := pre ++ code.2.inserted ++ tolerance fcmp pred code.1 :: post } with
    nextInst := code.2.next }

theorem convertFCmpEq_eq (h : At F id k pre fcmp post)
    (hloc : locate F id = some (k, pre.length, fcmp)) (hop : fcmp.op = .fcmp pred)
    (hoperands : fcmp.operands = [lhs, rhs]) (hpred : convertPredicate pred = some pred') :
    convertFCmpEq folder F id =
      (true, converted F k pre (difference folder F lhs rhs) fcmp pred' post) := by
  unfold convertFCmpEq
  simp only [hloc, hop, hoperands, hpred]
  refine congrArg (Prod.mk true) ?_
  have hbuild : F.build k pre.length (absDifference folder (F.typeOf lhs) lhs rhs) =
      ((difference folder F lhs rhs).1, (difference folder F lhs rhs).2.inserted.length,
        { F.setBlock k { F.block k with
            instrs := pre ++ (difference folder F lhs rhs).2.inserted ++ fcmp :: post } with
          nextInst := (difference folder F lhs rhs).2.next }) := by
    unfold Function.build
    simp only [h.instrs, List.take_left, List.drop_left]
    rfl
  have hset : (pre ++ (difference folder F lhs rhs).2.inserted ++ fcmp :: post).set
      (pre.length + (difference folder F lhs rhs).2.inserted.length)
      (tolerance fcmp pred' (difference folder F lhs rhs).1) =
      pre ++ (difference folder F lhs rhs).2.inserted ++
        tolerance fcmp pred' (difference folder F lhs rhs).1 :: post := by
    rw [← List.length_append, List.set_append_right _ _ (Nat.le_refl _), Nat.sub_self,
      List.set_cons_zero]
  rw [hbuild]
  unfold converted Function.setBlock
  simp only [if_true]
  rw [← hset]
  refine congrArg (fun b => Function.mk F.params F.retTy F.order b F.nextBlock
    (difference folder F lhs rhs).2.next F.optnone) ?_
  funext j
  by_cases hj : j = k <;> simp [hj, tolerance]

end LlvmPasses.ConvertFCmpEq
