import LlvmPasses.Ir.Retarget
import LlvmPasses.Proofs.MergePhis
import LlvmPasses.Proofs.MergeSurvivors

/-!
# Well-formed functions stay so while blocks are merged

A merge leads edges on: when it is covered, all the edges to the block it
erases, which only branches and switches have. No other part of the function
changes, and the block that is retained is never the entry block, so what the
verifier checks still holds of the function in between two merges.

`Merged.wellFormed` is the step, and it asks of the merge that it is covered:
every predecessor of the erased block is redirected then, so that the block is
not reached any more and the edges to it are edges to the retained one
(`LedOn`). `merges_spec` has a run of the pass as a list of merges, each with
the state it started from, which is how all statements about runs are put;
`mergeTarget_chosen` has what the test asks of the blocks themselves.
-/

namespace LlvmPasses.MergeBB

open Ir Ir.Function

/-- The same function, but for its blocks. -/
def Reblocked (F F' : Function) : Prop := F' = { F with block := F'.block }

theorem Reblocked.trans {F F' F'' : Function} (h : Reblocked F F') (h' : Reblocked F' F'') :
    Reblocked F F'' := by
  unfold Reblocked at *
  rw [h', h]

namespace State

section

variable {s s' : State} {bb bb2 k p : Nat} {deleteList : List Nat}

/-! ## What is not touched -/

theorem reblocked_redirect (s : State) (bb bb2 pred : Nat) :
    Reblocked s.fn (s.redirect bb bb2 pred).fn := by
  unfold redirect
  generalize List.range (s.fn.block pred).term.operands.length = is
  induction is generalizing s with
  | nil => exact rfl
  | cons i is ih =>
      rw [List.foldl_cons]
      refine .trans ?_ (ih _)
      split
      · exact rfl
      · exact rfl

theorem reblocked_walk {n : Nat} {c : Cursor} (h : walk bb bb2 n c s = .ok s') :
    Reblocked s.fn s'.fn := by
  induction n generalizing c s with
  | zero =>
      cases c with
      | none =>
          cases h
          exact rfl
      | some p => cases h
  | succ n ih =>
      cases c with
      | none =>
          cases h
          exact rfl
      | some p => exact (reblocked_redirect s bb bb2 _).trans (ih h)

/-! ## The test once more -/

theorem candidate_accepts {phiNode : Option (Instr Op × Value)} {preds : List Nat}
    (h : s.candidate deleteList bb phiNode preds = .ok (some bb2)) :
    s.fn.isEntryBlock bb2 = false := by
  obtain ⟨-, haccepts⟩ := candidate_spec h
  unfold accepts at haccepts
  split at haccepts
  · cases haccepts
  · next hentry => exact Bool.not_eq_true _ ▸ hentry

/-- What the test asks of the blocks themselves. -/
structure Chosen (s : State) (bb bb2 : Nat) : Prop where
  entry : s.fn.isEntryBlock bb = false
  entry2 : s.fn.isEntryBlock bb2 = false
  preds : s.hasOtherPred bb = false

theorem mergeTarget_chosen (h : s.mergeTarget deleteList bb = .ok (some bb2)) :
    Chosen s bb bb2 := by
  refine ⟨mergeTarget_not_entry h, ?_, ?_⟩ <;> unfold mergeTarget at h
  · split at h
    · cases h
    split at h
    · cases h
    split at h
    · cases h
    split at h
    · cases h
    next succ _ =>
    cases hp : successorPhi s.fn bb succ with
    | error e =>
        rw [hp] at h
        cases h
    | ok o =>
        rw [hp] at h
        cases o with
        | none => cases h
        | some phiNode => exact candidate_accepts h
  · split at h
    · cases h
    split at h
    · cases h
    split at h
    · cases h
    next hpreds => exact Bool.not_eq_true _ ▸ hpreds

/-- Every merge of a run comes of the test and of an update of the branch targets. -/
theorem merges_spec (rest : List Nat) : ∀ (s : State) (deleteList : List Nat), s.Linked →
    (∀ bb ∈ rest, bb ∈ s.fn.order) → ∀ m ∈ s.merges deleteList rest,
      Chosen m.before m.erased m.retained ∧
      (∃ succ, m.before.Accepted m.erased m.retained succ) ∧
      m.before.updateBranchTargets m.erased m.retained = .ok m.after := by
  induction rest with
  | nil => exact fun s deleteList _ _ => by simp [merges]
  | cons bb rest ih =>
      intro s deleteList hs horder
      obtain ⟨hbb, hrest⟩ := List.forall_mem_cons.mp horder
      rw [merges]
      cases ht : s.mergeTarget deleteList bb with
      | error e => simp
      | ok target =>
          cases target with
          | none => exact ih s deleteList hs hrest
          | some bb2 =>
              obtain ⟨s', hu, hlinked, horder', -⟩ :=
                updateBranchTargets_spec hs (mergeTarget_some ht).2
              simp only [hu, List.forall_mem_cons]
              exact ⟨⟨mergeTarget_chosen ht, mergeTarget_accepted hs hbb ht, trivial⟩,
                ih s' _ hlinked fun k hk => horder' ▸ hrest k hk⟩

/-! ## The edges that are led on -/

theorem isEntryBlock_iff {F : Function} (hF : F.order ≠ []) :
    F.isEntryBlock k = true ↔ k = F.entry := by
  unfold Function.isEntryBlock Function.entry
  cases ho : F.order with
  | nil => exact absurd ho hF
  | cons j js =>
      rw [List.head?_cons, List.headD_cons, beq_iff_eq, Option.some.injEq]
      exact eq_comm

theorem Chosen.ne_entry (h : Chosen s bb bb2) (hF : s.fn.WellFormed) :
    bb ≠ s.fn.entry ∧ bb2 ≠ s.fn.entry := by
  refine ⟨fun heq => ?_, fun heq => ?_⟩
  · have hentry := (isEntryBlock_iff hF.nonempty).mpr heq
    rw [h.entry] at hentry
    cases hentry
  · have hentry := (isEntryBlock_iff hF.nonempty).mpr heq
    rw [h.entry2] at hentry
    cases hentry

theorem mem_predecessors_of_operand (hs : s.Linked) (hp : p ∈ s.fn.order)
    (h : .block k ∈ (s.fn.block p).term.operands) : p ∈ s.predecessors k := by
  obtain ⟨i, hi⟩ := List.mem_iff_getElem?.mp h
  exact (mem_predecessors hs).mpr ⟨hp, i, hi⟩

/-- A covered merge leads all the edges on. -/
theorem Merged.ledOn (h : Merged s bb bb2 s') (hfn : Reblocked s.fn s'.fn) (hs : s.Linked)
    (hchosen : Chosen s bb bb2) (hcovered : Merge.Covered ⟨s, bb, bb2, s'⟩) :
    LedOn s.fn s'.fn bb bb2 where
  order := h.order
  params := by rw [hfn]
  instrs := h.retargeted.instrs
  term := fun k hk => by
    rw [h.block k]
    refine congrArg (fun vs => { (s.fn.block k).term with operands := vs })
      (List.map_congr_left fun v hv => ?_)
    unfold moved retarget
    by_cases heq : v = .block bb
    · have hreached : k ∈ s.reached bb bb2 := by
        rw [reached, List.mem_append, Option.mem_toList]
        exact hcovered k (mem_predecessors_of_operand hs hk (heq ▸ hv))
      rw [if_pos ⟨hreached, heq⟩, if_pos heq]
    · rw [if_neg fun hand => heq hand.2, if_neg heq]
  named := fun k hk hop => by
    have hpred := mem_predecessors_of_operand hs hk hop
    have hnone := hchosen.preds
    unfold hasOtherPred at hnone
    have hterm := List.any_eq_false.mp hnone k hpred
    by_contra hnot
    rw [not_or] at hnot
    exact hterm (by simp [hnot])

/-! ## Well-formedness -/

theorem Merged.defs (h : Merged s bb bb2 s') : s'.fn.defs = s.fn.defs := by
  unfold Function.defs Function.blocks
  rw [h.order, List.flatMap_map, List.flatMap_map]
  refine List.flatMap_congr fun k _ => ?_
  rw [h.block k]
  rfl

theorem Merged.names (h : Merged s bb bb2 s') (hfn : Reblocked s.fn s'.fn) (v : Value) :
    s'.fn.Names v ↔ s.fn.Names v := by
  cases v with
  | inst id =>
      show (∃ d ∈ s'.fn.defs, d.1 = id ∧ d.2 ≠ .void) ↔ ∃ d ∈ s.fn.defs, d.1 = id ∧ d.2 ≠ .void
      rw [h.defs]
  | arg i =>
      show i < s'.fn.params.length ↔ i < s.fn.params.length
      rw [hfn]
  | block k =>
      show k ∈ s'.fn.order ↔ k ∈ s.fn.order
      rw [h.order]
  | _ => exact Iff.rfl

/-- Control goes where it went, or to the block retained. -/
theorem Merged.successors (h : Merged s bb bb2 s') {j : Nat} (hj : j ∈ s'.fn.successors k) :
    j ∈ s.fn.successors k ∨ j = bb2 := by
  have hterm : (s'.fn.block k).term = (s.fn.block k).term.mapOperands (s.moved bb bb2 k) := by
    rw [h.block k]
    rfl
  unfold Function.successors Instr.successors at hj
  rw [hterm, successorOperands_mapOperands] at hj
  obtain ⟨v, hv, hvj⟩ := List.mem_filterMap.mp hj
  obtain ⟨w, hw, rfl⟩ := List.mem_map.mp hv
  by_cases hmoved : k ∈ s.reached bb bb2 ∧ w = .block bb
  · rw [moved, if_pos hmoved] at hvj
    exact .inr (Option.some.inj hvj).symm
  · rw [moved, if_neg hmoved] at hvj
    exact .inl (List.mem_filterMap.mpr ⟨w, hw, hvj⟩)

theorem Merged.wellFormed (h : Merged s bb bb2 s') (hfn : Reblocked s.fn s'.fn)
    (hF : s.fn.WellFormed) (hbb2 : bb2 ∈ s.fn.order) (hchosen : Chosen s bb bb2) :
    s'.fn.WellFormed where
  nonempty := h.order ▸ hF.nonempty
  nodup := h.order ▸ hF.nodup
  ids_nodup := h.defs ▸ hF.ids_nodup
  operands := fun k hk v hv => by
    rw [h.order] at hk
    rw [h.names hfn]
    rw [Block.operands, h.retargeted.instrs] at hv
    rcases List.mem_append.mp hv with hv | hv
    · exact hF.operands k hk v (List.mem_append_left _ hv)
    · rw [h.block k] at hv
      obtain ⟨w, hw, rfl⟩ := List.mem_map.mp hv
      unfold moved
      split
      · exact hbb2
      · exact hF.operands k hk w (List.mem_append_right _ hw)
  successors := fun k hk j hj => by
    have hentry : s'.fn.entry = s.fn.entry := by
      unfold Function.entry
      rw [h.order]
    rw [h.order] at hk ⊢
    rw [hentry]
    rcases h.successors hj with hj | rfl
    · exact hF.successors k hk j hj
    · exact ⟨hbb2, (hchosen.ne_entry hF).2⟩
  terminators := fun k hk hop => by
    rw [h.order] at hk
    rw [h.block k] at hop ⊢
    exact hF.terminators k hk hop
  debug := fun k hk i hi => by
    rw [h.order] at hk
    rw [h.retargeted.instrs] at hi
    exact hF.debug k hk i hi
  phis := fun k hk i hi => by
    rw [h.order] at hk
    rw [Block.body, h.retargeted.instrs] at hi
    exact hF.phis k hk i hi
  incoming := fun k hk i hi => by
    rw [h.order] at hk
    rw [h.retargeted.phis] at hi
    exact hF.incoming k hk i hi

end

end State

end LlvmPasses.MergeBB
