import LlvmPasses.Proofs.MergeAccepts

/-!
# The blocks that a merge leaves

A merge changes nothing of a block but the operands of its terminator, and of
these only those that name the block to erase: the edges that came to it from a
terminator that the walk reaches come to the retained block afterwards.

`Merged` has a merge as the rest of the development sees it: which terminators
were redirected, and every block otherwise as it was. It comes from
`updateBranchTargets_spec`. The lemmas about edges count how often a terminator
names a block, before and after: edges between other blocks are as many as
before, those to the erased block are gone where its terminator was redirected,
and those to the retained block are as many more. The PHI nodes are compared
with these counts, never with lists of predecessors.
-/

namespace LlvmPasses.MergeBB

open Ir Ir.Function

/-- The same function, but for the operands of terminators. -/
def Retargeted (F F' : Function) : Prop :=
  ∀ k, ∃ operands, F'.block k =
    { F.block k with term := { (F.block k).term with operands := operands } }

theorem Retargeted.refl (F : Function) : Retargeted F F := fun _ => ⟨_, rfl⟩

theorem Retargeted.trans {F F' F'' : Function} (h : Retargeted F F') (h' : Retargeted F' F'') :
    Retargeted F F'' := by
  intro k
  obtain ⟨operands, hk⟩ := h k
  obtain ⟨operands', hk'⟩ := h' k
  exact ⟨operands', by rw [hk', hk]⟩

theorem Retargeted.instrs {F F' : Function} (h : Retargeted F F') (k : Nat) :
    (F'.block k).instrs = (F.block k).instrs := by
  obtain ⟨operands, hk⟩ := h k
  rw [hk]

theorem Retargeted.phis {F F' : Function} (h : Retargeted F F') (k : Nat) :
    (F'.block k).phis = (F.block k).phis := by
  unfold Block.phis
  rw [h.instrs]

namespace State

section

variable {s s' : State} {bb bb2 b i k p : Nat}

theorem retargeted_setOperand (s : State) (b i new : Nat) :
    Retargeted s.fn (s.setOperand b i new).fn := by
  intro k
  show ∃ operands, (if k = b then _ else s.fn.block k) = _
  by_cases hk : k = b
  · subst hk
    rw [if_pos rfl]
    exact ⟨_, rfl⟩
  · rw [if_neg hk]
    exact ⟨_, rfl⟩

theorem retargeted_redirect (s : State) (bb bb2 pred : Nat) :
    Retargeted s.fn (s.redirect bb bb2 pred).fn := by
  unfold redirect
  generalize List.range (s.fn.block pred).term.operands.length = is
  induction is generalizing s with
  | nil => exact .refl _
  | cons i is ih =>
      rw [List.foldl_cons]
      refine .trans ?_ (ih _)
      split
      · exact retargeted_setOperand s _ i _
      · exact .refl _

theorem retargeted_walk {n : Nat} {c : Cursor} (h : walk bb bb2 n c s = .ok s') :
    Retargeted s.fn s'.fn := by
  induction n generalizing c s with
  | zero =>
      cases c with
      | none =>
          cases h
          exact .refl _
      | some p => cases h
  | succ n ih =>
      cases c with
      | none =>
          cases h
          exact .refl _
      | some p => exact (retargeted_redirect s bb bb2 _).trans (ih h)

/-- Where the operand of a terminator is after the merge. -/
def moved (s : State) (bb bb2 k : Nat) (v : Value) : Value :=
  if k ∈ s.reached bb bb2 ∧ v = .block bb then .block bb2 else v

/-- What a merge leaves, block by block. -/
structure Merged (s : State) (bb bb2 : Nat) (s' : State) : Prop where
  linked : s'.Linked
  order : s'.fn.order = s.fn.order
  block : ∀ k, s'.fn.block k = { s.fn.block k with term := { (s.fn.block k).term with
    operands := (s.fn.block k).term.operands.map (s.moved bb bb2 k) } }

theorem merged_updateBranchTargets (hs : s.Linked) (hne : bb ≠ bb2) :
    ∃ s', s.updateBranchTargets bb bb2 = .ok s' ∧ Merged s bb bb2 s' := by
  obtain ⟨s', hu, hlinked, horder, hoperand⟩ := updateBranchTargets_spec hs hne
  refine ⟨s', hu, hlinked, horder, fun k => ?_⟩
  obtain ⟨operands, hk⟩ := retargeted_walk hu k
  have hoperands : operands = (s.fn.block k).term.operands.map (s.moved bb bb2 k) := by
    refine List.ext_getElem? fun j => ?_
    have hj := hoperand k j
    unfold Function.termOperand at hj
    rw [hk] at hj
    rw [show operands[j]? = _ from hj, List.getElem?_map]
    cases ho : (s.fn.block k).term.operands[j]? with
    | none => simp
    | some v =>
        rw [Option.map_some]
        unfold moved
        simp only [Option.some.injEq]
        split <;> rfl
  rw [hk, hoperands]

theorem Merged.retargeted (h : Merged s bb bb2 s') : Retargeted s.fn s'.fn :=
  fun k => ⟨_, h.block k⟩

theorem count_map_ite {a b c : Value} (hne : a ≠ b) (l : List Value) :
    (l.map fun v => if v = a then b else v).count c =
      if c = a then 0 else if c = b then l.count b + l.count a else l.count c := by
  induction l with
  | nil => simp
  | cons v l ih =>
      rw [List.map_cons, List.count_cons, ih, List.count_cons, List.count_cons, List.count_cons]
      simp only [beq_iff_eq]
      grind

/-- The edges after a merge. -/
theorem Merged.edges (h : Merged s bb bb2 s') (hne : bb ≠ bb2) (p k : Nat) :
    s'.fn.edges p k =
      if p ∈ s.reached bb bb2 then
        if k = bb then 0 else if k = bb2 then s.fn.edges p bb2 + s.fn.edges p bb
        else s.fn.edges p k
      else s.fn.edges p k := by
  unfold Function.edges
  rw [h.block]
  by_cases hp : p ∈ s.reached bb bb2
  · have hmoved : s.moved bb bb2 p = fun v => if v = .block bb then .block bb2 else v := by
      funext v
      simp only [moved, hp, true_and]
    rw [if_pos hp, hmoved]
    have hne' : Value.block bb ≠ .block bb2 := fun heq => hne (Value.block.inj heq)
    refine (count_map_ite hne' _).trans ?_
    simp only [Value.block.injEq]
  · have hmoved : s.moved bb bb2 p = id := by
      funext v
      simp only [moved, hp, false_and, if_false, id]
    rw [if_neg hp, hmoved, List.map_id]

theorem mem_predecessors_iff_edges (hs : s.Linked) : p ∈ s.predecessors k ↔
    p ∈ s.fn.order ∧ 0 < s.fn.edges p k := by
  rw [mem_predecessors hs, Function.edges, List.count_pos_iff]
  refine and_congr_right fun _ => ?_
  rw [List.mem_iff_getElem?]
  rfl

/-- Only the edges to the two blocks change. -/
theorem Merged.edges_other (h : Merged s bb bb2 s') (hne : bb ≠ bb2) (hk : k ≠ bb)
    (hk2 : k ≠ bb2) (p : Nat) : s'.fn.edges p k = s.fn.edges p k := by
  rw [h.edges hne]
  simp only [hk, hk2, if_false, ite_self]

theorem Merged.edges_erased (h : Merged s bb bb2 s') (hne : bb ≠ bb2) (p : Nat) :
    s'.fn.edges p bb ≤ s.fn.edges p bb := by
  rw [h.edges hne, if_pos rfl]
  split
  · exact Nat.zero_le _
  · exact Nat.le_refl _

theorem Merged.edges_grow (h : Merged s bb bb2 s') (hne : bb ≠ bb2) (hk : k ≠ bb) (p : Nat) :
    s.fn.edges p k ≤ s'.fn.edges p k := by
  rw [h.edges hne]
  by_cases hk2 : k = bb2
  · subst hk2
    simp only [hk, if_false, if_true]
    split <;> omega
  · simp only [hk, hk2, if_false, ite_self, Nat.le_refl]

/-- Without predecessors of the erased block, no edge changes. -/
theorem Merged.edges_eq (h : Merged s bb bb2 s') (hne : bb ≠ bb2) (hs : s.Linked)
    (hnone : s.predecessors bb = []) (hp : p ∈ s.fn.order) (k : Nat) :
    s'.fn.edges p k = s.fn.edges p k := by
  have hzero : s.fn.edges p bb = 0 := by
    by_contra hpos
    have hmem := (mem_predecessors_iff_edges hs).mpr ⟨hp, Nat.pos_of_ne_zero hpos⟩
    rw [hnone] at hmem
    cases hmem
  rw [h.edges hne]
  by_cases hk : k = bb
  · subst hk
    simp [hzero]
  by_cases hk2 : k = bb2
  · subst hk2
    simp [hk, hzero]
  · simp [hk, hk2]

/-- The first predecessor is always redirected. -/
theorem Merged.edges_head (h : Merged s bb bb2 s') (hne : bb ≠ bb2)
    (hhead : (s.predecessors bb).head? = some p) :
    s'.fn.edges p bb2 = s.fn.edges p bb2 + s.fn.edges p bb := by
  have hreached : p ∈ s.reached bb bb2 := by
    unfold reached
    rw [hhead]
    exact List.mem_append_left _ (List.mem_singleton_self p)
  rw [h.edges hne, if_pos hreached, if_neg hne.symm, if_pos rfl]

end

end State

end LlvmPasses.MergeBB
