import LlvmPasses.Ir.Same

/-!
# Where terminators go

An edge that is taken leads to one of the successors, whatever the values.
-/

namespace LlvmPasses.Ir

open Instr

variable {μ : Type} {W : World μ} {t : Instr TermOp} {get : Value → Option Val} {mem mem' : μ}
variable {k : Nat} {v : Option Val} {events : List Event}

theorem head_mem_evens {α : Type} (a : α) (l : List α) : a ∈ evens (a :: l) := by
  cases l with
  | nil => exact List.mem_cons_self ..
  | cons b l => exact List.mem_cons_self ..

/-- The cases of a switch come after its default destination. -/
theorem caseTarget_mem {x : Nat} (cases : List Value) (default : Value)
    (h : caseTarget x cases = some k) : .block k ∈ evens (default :: cases) := by
  induction cases using caseTarget.induct (x := x) generalizing default with
  | case1 w c j cases hc =>
      rw [caseTarget, if_pos hc] at h
      cases h
      exact List.mem_cons_of_mem _ (head_mem_evens _ _)
  | case2 w c j cases hc ih =>
      rw [caseTarget, if_neg hc] at h
      exact List.mem_cons_of_mem _ (ih _ h)
  | case3 cases hno =>
      rw [caseTarget] at h
      · cases h
      · exact hno

theorem mem_successors (h : .block k ∈ t.successorOperands) : k ∈ t.successors :=
  List.mem_filterMap.mpr ⟨.block k, h, rfl⟩

theorem transfer_goto (h : W.transfer t get mem = .goto k v mem' events) : k ∈ t.successors := by
  unfold World.transfer at h
  split at h
  case h_1 hop hops =>
    cases h
    exact mem_successors (by simp [successorOperands, hop, hops])
  case h_2 ifFalse ifTrue hop hops =>
    split at h
    · next b _ =>
        cases h
        refine mem_successors ?_
        simp only [successorOperands, hop, hops]
        split
        · exact List.mem_cons_of_mem _ (List.mem_cons_self ..)
        · exact List.mem_cons_self ..
    · cases h
  case h_3 default cases hop hops =>
    split at h
    · next x _ =>
        cases h
        refine mem_successors ?_
        simp only [successorOperands, hop, hops]
        cases hcase : caseTarget x.toNat cases with
        | none => exact head_mem_evens _ _
        | some k => exact caseTarget_mem cases _ hcase
    · cases h
  case h_4 =>
    split at h
    · split at h
      · next hfind =>
          cases h
          exact List.mem_of_find?_eq_some hfind
      · cases h
    · cases h
  case h_6 =>
    split at h
    · cases h
    · cases h
  case h_7 =>
    split at h
    · next normal unwind vals hsucc _ =>
        rw [hsucc]
        unfold World.applyInvoke at h
        split at h
        · cases h
          exact List.mem_cons_self ..
        · cases h
          exact List.mem_cons_of_mem _ (List.mem_cons_self ..)
        · cases h
        · cases h
    · cases h
  all_goals cases h

section

variable {c : Value} {j : Nat}

/-- The first of the two destinations is where a zero leads. -/
theorem transfer_condBr {w : Nat} {b : BitVec w} (hop : t.op = .br)
    (hoperands : t.operands = [c, .block j, .block k]) (hc : get c = some (.int w b)) :
    W.transfer t get mem = .goto (if b.toNat = 0 then j else k) none mem [] := by
  simp only [World.transfer, hop, hoperands, hc]

theorem transfer_condBr_poison (hop : t.op = .br)
    (hoperands : t.operands = [c, .block j, .block k]) (hc : get c = some .poison) :
    W.transfer t get mem = .undefined := by
  simp only [World.transfer, hop, hoperands, hc]

end

theorem callOperands_subset {operands : List Value} {w : Value} (h : w ∈ callOperands operands) :
    w ∈ operands := by
  rcases List.mem_append.mp h with h | h
  · exact List.mem_of_mem_take h
  · exact List.mem_of_mem_drop h

/-- A terminator only looks at its operands. -/
theorem transfer_congr {get' : Value → Option Val} (h : ∀ w ∈ t.operands, get' w = get w) :
    W.transfer t get' mem = W.transfer t get mem := by
  unfold World.transfer
  split
  case h_2 hops => rw [h _ (by simp [hops])]
  case h_3 hops => rw [h _ (by simp [hops])]
  case h_4 hops => rw [h _ (by simp [hops])]
  case h_6 hops => rw [h _ (by simp [hops])]
  case h_7 => rw [evalAll_congr fun w hw => h w (callOperands_subset hw)]
  all_goals rfl

end LlvmPasses.Ir
