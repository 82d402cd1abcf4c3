import LlvmPasses.Proofs.DeadBlocks
import LlvmPasses.Proofs.MergeEdges
import LlvmPasses.Proofs.MergeSound

/-!
# The PHI nodes that MergeBB leaves

No PHI node is changed by a merge, so its entries fit the edges afterwards only
if no edge has come to its block, and one comes whenever a block that has a
predecessor is merged into one that begins with PHI nodes. Such a block stays
short of an entry: should it be merged away later, then into one that begins
with PHI nodes too. If there is no such merge, the edges into a block that stays
are those it had, and deleting the others takes their entries.

`phisKept_iff` is an equivalence for every well-formed function whose PHI nodes
fit its edges. The condition on the right is on the merges of the run: none
brings an edge to a block that begins with PHI nodes. On the left the pass
comes to its end, each PHI node that is left has one entry for each edge, and
it has for the blocks that are left the entries it had before (`PhisKept`).

Two invariants are carried through the loop, one for each direction. `Fits`
holds as long as the condition does: entries and edges agree, but for blocks
that have been merged away, which keep their entries. Once a merge has brought
an edge to a PHI node there is one that is short of an entry (`Short`), and it
remains so for the rest of the run: if its block is merged away too, then the
retained block is short (`Short.merge`). In the end either a PHI node is wrong
or a deletion asks for an entry that is not there (`not_phisMatch_of_short`).
What deleting does to entries is `DeadBlocks`'s.
-/

namespace LlvmPasses.MergeBB

open Ir Ir.Function

/-! ## No assertion fails -/

/-- Every PHI node has a value for each terminator that names its block. -/
def Supplied (F : Function) : Prop :=
  ∀ p ∈ F.order, ∀ k, .block k ∈ (F.block p).term.operands →
    ∀ phi ∈ (F.block k).phis, ∃ v, phi.getIncomingValueForBlock p = some v

/-- The merge brings no edge to a block that begins with PHI nodes. -/
def Merge.AvoidsPhis (m : Merge) : Prop :=
  m.before.predecessors m.erased = [] ∨ (m.before.fn.block m.retained).phis = []

instance (m : Merge) : Decidable m.AvoidsPhis := inferInstanceAs (Decidable (_ ∨ _))

namespace State

section

variable {s : State} {F : Function} {bb bb2 succ k parent : Nat} {deleteList : List Nat}
variable {inst1 inst2 i : Instr Op}

theorem canRemoveInst_returns (hF : Supplied F) (hphis : ∀ k ∈ F.order, ∀ i ∈ (F.block k).instrs,
      i.isPhi = true → i ∈ (F.block k).phis)
    (hparent : parent ∈ F.order) (hbr : (F.block parent).term.isUnconditionalBr = true)
    (huser : F.users (.inst i.id) ≠ []) : Returns (canRemoveInst F parent i) := by
  unfold canRemoveInst
  cases husers : F.users (.inst i.id) with
  | nil => exact absurd husers huser
  | cons u us =>
      obtain ⟨userParent, user⟩ := u
      cases user with
      | none => exact .bind (.pure _) fun _ _ => .pure _
      | some phi =>
          by_cases hphi : (phi.isPhi &&
              some userParent == (F.block parent).term.successors.head?) = true
          · have husers' := hphi
            rw [Bool.and_eq_true, beq_iff_eq] at hphi
            have hmem : (userParent, some phi) ∈ F.users (.inst i.id) := by
              rw [husers]
              exact List.mem_cons_self ..
            obtain ⟨horder, hinstrs, -⟩ := mem_users.mp hmem
            have hop := operands_of_successor hbr hphi.2.symm
            obtain ⟨v, hv⟩ :=
              hF parent hparent userParent hop phi (hphis _ horder phi hinstrs hphi.1)
            simp only [husers', if_true, hv]
            exact .bind (.pure _) fun _ _ => .pure _
          · simp only [hphi]
            exact .bind (.pure _) fun _ _ => .pure _

theorem identicalInstructions_returns (hF : Supplied F)
    (hphis : ∀ k ∈ F.order, ∀ i ∈ (F.block k).instrs, i.isPhi = true → i ∈ (F.block k).phis)
    (hbb : bb ∈ F.order) (hbr : (F.block bb).term.isUnconditionalBr = true)
    (hbb2 : bb2 ∈ F.order) (hbr2 : (F.block bb2).term.isUnconditionalBr = true) :
    Returns (identicalInstructions F bb bb2 inst1 inst2) := by
  unfold identicalInstructions
  by_cases hsame : isSameOperationAs F inst1 inst2 = true
  · by_cases huses : (((F.users (.inst inst1.id)).length == 0 ||
        (F.users (.inst inst1.id)).length == 1) &&
        (F.users (.inst inst1.id)).length == (F.users (.inst inst2.id)).length) = true
    · by_cases hone : (F.users (.inst inst1.id)).length = 1
      · have htwo : (F.users (.inst inst2.id)).length = 1 := by
          simp only [Bool.and_eq_true, beq_iff_eq] at huses
          omega
        have hne : ∀ inst : Instr Op, (F.users (.inst inst.id)).length = 1 →
            F.users (.inst inst.id) ≠ [] := by
          intro inst hlen hnil
          rw [hnil] at hlen
          cases hlen
        obtain ⟨r1, hr1⟩ := canRemoveInst_returns hF hphis hbb hbr (hne inst1 hone)
        obtain ⟨r2, hr2⟩ := canRemoveInst_returns hF hphis hbb2 hbr2 (hne inst2 htwo)
        cases r1 <;> cases r2 <;>
          simp [hsame, hone, htwo, hr1, hr2, Returns, bind, Except.bind, pure, Except.pure]
      · simp [hsame, huses, hone, Returns, pure, Except.pure]
    · simp [hsame, huses, Returns, pure, Except.pure]
  · simp [hsame, Returns, pure, Except.pure]

theorem lockstep_returns (hF : Supplied F)
    (hphis : ∀ k ∈ F.order, ∀ i ∈ (F.block k).instrs, i.isPhi = true → i ∈ (F.block k).phis)
    (hbb : bb ∈ F.order) (hbr : (F.block bb).term.isUnconditionalBr = true)
    (hbb2 : bb2 ∈ F.order) (hbr2 : (F.block bb2).term.isUnconditionalBr = true)
    (insts1 insts2 : List (Instr Op)) : Returns (lockstep F bb bb2 insts1 insts2) := by
  induction insts1 generalizing insts2 with
  | nil => exact .pure _
  | cons i1 insts1 ih =>
      cases insts2 with
      | nil => exact .pure _
      | cons i2 insts2 =>
          rw [lockstep]
          refine .bind (identicalInstructions_returns hF hphis hbb hbr hbb2 hbr2) fun same _ => ?_
          cases same with
          | true => exact ih insts2
          | false => exact .pure _

/-- The PHI node that is compared, of the block that is next. -/
def Compares (F : Function) (succ : Nat) (phiNode : Option (Instr Op × Value)) : Prop :=
  ∀ phi v, phiNode = some (phi, v) → phi ∈ (F.block succ).phis

theorem accepts_returns {phiNode : Option (Instr Op × Value)} (hF : Supplied s.fn)
    (hphis : ∀ k ∈ s.fn.order, ∀ i ∈ (s.fn.block k).instrs, i.isPhi = true →
      i ∈ (s.fn.block k).phis)
    (hbb : bb ∈ s.fn.order) (hbr : (s.fn.block bb).term.isUnconditionalBr = true)
    (hbb2 : bb2 ∈ s.fn.order) (hsucc : .block succ ∈ (s.fn.block bb2).term.operands)
    (hphi : Compares s.fn succ phiNode) : Returns (s.accepts deleteList bb bb2 phiNode) := by
  unfold accepts
  by_cases hentry : s.fn.isEntryBlock bb2 = true
  · rw [if_pos hentry]
    exact .pure _
  rw [if_neg hentry]
  by_cases hbr2 : (s.fn.block bb2).term.isUnconditionalBr = true
  · simp only [hbr2, Bool.not_true, Bool.false_eq_true, if_false]
    split
    · exact .pure _
    split
    · exact .pure _
    have hlockstep := lockstep_returns hF hphis hbb hbr hbb2 hbr2
      (reverseNonDbg (s.fn.block bb)) (reverseNonDbg (s.fn.block bb2))
    cases phiNode with
    | none => exact hlockstep
    | some p =>
        obtain ⟨phi, inVal1⟩ := p
        obtain ⟨inVal2, hin2⟩ := hF bb2 hbb2 succ hsucc phi (hphi phi inVal1 rfl)
        refine .bind ?_ fun taken _ => ?_
        · rw [phiAccepts, hin2]
          exact .pure _
        · cases taken with
          | true => exact hlockstep
          | false => exact .pure _
  · simp only [hbr2, Bool.not_false, if_true]
    exact .pure _

theorem mergeTarget_returns (hs : s.Linked) (hF : Supplied s.fn)
    (hphis : ∀ k ∈ s.fn.order, ∀ i ∈ (s.fn.block k).instrs, i.isPhi = true →
      i ∈ (s.fn.block k).phis)
    (hbranches : s.fn.Branches) (hbb : bb ∈ s.fn.order) :
    Returns (s.mergeTarget deleteList bb) := by
  unfold mergeTarget
  by_cases hentry : s.fn.isEntryBlock bb = true
  · rw [if_pos hentry]
    exact .pure _
  rw [if_neg hentry]
  by_cases hbr : (s.fn.block bb).term.isUnconditionalBr = true
  · simp only [hbr, Bool.not_true, Bool.false_eq_true, if_false]
    split
    · exact .pure _
    obtain ⟨succ, hsucc⟩ := hbranches bb hbb hbr
    have hhead : (s.fn.block bb).term.successors.head? = some succ := by
      unfold Instr.successors Instr.successorOperands
      rw [(isUnconditionalBr_iff.mp hbr).1, hsucc]
      rfl
    have hop : .block succ ∈ (s.fn.block bb).term.operands := by
      rw [hsucc]
      exact List.mem_singleton_self _
    rw [hhead]
    -- the candidates are predecessors of the block that is next
    have hcandidate : ∀ phiNode, Compares s.fn succ phiNode →
        Returns (s.candidate deleteList bb phiNode (s.predecessors succ)) := by
      intro phiNode hcompares
      have hpreds : ∀ p ∈ s.predecessors succ, p ∈ s.fn.order ∧
          .block succ ∈ (s.fn.block p).term.operands := by
        intro p hp
        obtain ⟨horder, i, hi⟩ := (mem_predecessors hs).mp hp
        exact ⟨horder, List.mem_of_getElem? hi⟩
      generalize s.predecessors succ = preds at hpreds
      induction preds with
      | nil => exact .pure _
      | cons p preds ih =>
          obtain ⟨⟨horder, hpop⟩, hrest⟩ := List.forall_mem_cons.mp hpreds
          rw [candidate]
          refine .bind (accepts_returns hF hphis hbb hbr horder hpop hcompares) fun taken _ => ?_
          cases taken with
          | true => exact .pure _
          | false => exact ih hrest
    refine .bind ?_ fun o ho => ?_
    · unfold successorPhi
      cases hphis' : (s.fn.block succ).phis with
      | nil => exact .pure _
      | cons phi phis =>
          cases phis with
          | nil =>
              obtain ⟨v, hv⟩ := hF bb hbb succ hop phi (hphis' ▸ List.mem_cons_self ..)
              simp only [hv]
              exact .pure _
          | cons phi' phis => exact .pure _
    · cases o with
      | none => exact .pure _
      | some phiNode =>
          refine hcandidate phiNode fun phi v heq => ?_
          rcases successorPhi_spec ho with ⟨hnone, -⟩ | ⟨phi', v', hsome, hphis', -⟩
          · rw [hnone] at heq
            cases heq
          · rw [hsome] at heq
            cases heq
            rw [hphis']
            exact List.mem_singleton_self _
  · simp only [hbr, Bool.not_false, if_true]
    exact .pure _

/-! ## What the loop keeps -/

/-- Where the loop over the blocks of `F` has come to. -/
structure Loop (F : Function) (s : State) (deleteList : List Nat) : Prop where
  linked : s.Linked
  order : s.fn.order = F.order
  retargeted : Retargeted F s.fn
  named : ∀ p ∈ s.fn.order, ∀ k, .block k ∈ (s.fn.block p).term.operands → k ∈ s.fn.order
  branches : s.fn.Branches
  deleted : ∀ d ∈ deleteList, d ∈ s.fn.order ∧ ∃ t, (s.fn.block d).term.op = .br ∧
    (s.fn.block d).term.operands = [.block t]

theorem Loop.start (hF : F.WellFormed) (hb : F.Branches) : Loop F (ofFunction F) [] where
  linked := linked_ofFunction hF.nodup
  order := rfl
  retargeted := .refl F
  named := fun p hp k hk => hF.operands p hp (.block k) (List.mem_append_right _ hk)
  branches := hb
  deleted := nofun

theorem Merged.term {s' : State} (h : Merged s bb bb2 s') (hk : (s.fn.block k).term.op = .br ∧
      (s.fn.block k).term.operands = [.block succ]) :
    ∃ t, (s'.fn.block k).term.op = .br ∧ (s'.fn.block k).term.operands = [.block t] := by
  rw [h.block k]
  refine (em (k ∈ s.reached bb bb2 ∧ succ = bb)).elim
    (fun hand => ⟨bb2, hk.1, ?_⟩) fun hnot => ⟨succ, hk.1, ?_⟩
  · simp [hk.2, moved, hand]
  · simp [hk.2, moved, hnot]

theorem Loop.merge {s' : State} (h : Loop F s deleteList) (hacc : s.Accepted bb bb2 succ)
    (hm : Merged s bb bb2 s') : Loop F s' (deleteList ++ [bb]) where
  linked := hm.linked
  order := hm.order.trans h.order
  retargeted := h.retargeted.trans hm.retargeted
  named := fun p hp k hk => by
    rw [hm.order] at hp ⊢
    rw [hm.block p] at hk
    obtain ⟨v, hv, heq⟩ := List.mem_map.mp hk
    unfold moved at heq
    split at heq
    · cases heq
      exact hacc.mem2
    · exact h.named p hp k (heq ▸ hv)
  branches := fun k hk hbr => by
    rw [hm.order] at hk
    have hbr' : (s.fn.block k).term.isUnconditionalBr = true := by
      rw [hm.block k] at hbr
      simpa [Instr.isUnconditionalBr] using hbr
    obtain ⟨t, ht⟩ := h.branches k hk hbr'
    obtain ⟨t', -, ht'⟩ := hm.term ⟨(isUnconditionalBr_iff.mp hbr').1, ht⟩
    exact ⟨t', ht'⟩
  deleted := fun d hd => by
    rw [hm.order]
    rcases List.mem_append.mp hd with hd | hd
    · obtain ⟨horder, t, ht⟩ := h.deleted d hd
      exact ⟨horder, hm.term ht⟩
    · obtain rfl := List.mem_singleton.mp hd
      exact ⟨hacc.mem, hm.term hacc.term⟩

theorem Loop.mem_phis (h : Loop F s deleteList) (hF : F.WellFormed) (hk : k ∈ s.fn.order)
    (hi : i ∈ (s.fn.block k).instrs) (hphi : i.isPhi = true) : i ∈ (s.fn.block k).phis := by
  rw [h.retargeted.phis]
  rw [h.retargeted.instrs] at hi
  rw [h.order] at hk
  exact State.mem_phis hF hk hi hphi

theorem Loop.length (h : Loop F s deleteList) (hF : F.WellFormed) (hk : k ∈ s.fn.order)
    (hi : i ∈ (s.fn.block k).phis) : i.incoming.length = i.operands.length := by
  rw [h.retargeted.phis] at hi
  rw [h.order] at hk
  exact hF.incoming k hk i hi

/-- A block that begins with PHI nodes is merged into one that does. -/
theorem Loop.phis_retained (h : Loop F s deleteList) (hF : F.WellFormed)
    (hacc : s.Accepted bb bb2 succ) {phi : Instr Op} (hphi : phi ∈ (s.fn.block bb).phis) :
    ∃ phi2, phi2 ∈ (s.fn.block bb2).phis := by
  have hisPhi : phi.op = .phi := by
    have himp : phi.isPhi = true := List.mem_takeWhile_imp hphi
    exact beq_iff_eq.mp himp
  have hdbg : phi.isDbgInfoIntrinsic = false := by
    unfold Instr.isDbgInfoIntrinsic
    rw [hisPhi]
    rfl
  obtain ⟨phi2, hp⟩ := hacc.counterpart (phis_subset hphi) hdbg
  refine ⟨phi2, h.mem_phis hF hacc.mem2 hp.symm.mem.1 ?_⟩
  unfold Instr.isPhi
  rw [← (hacc.identical phi phi2 hp).op, hisPhi]
  rfl

/-! ## While no edge comes to a PHI node -/

/-- The entries fit the edges, and where a block has been merged away there are
enough. -/
structure Fits (s : State) (deleteList : List Nat) : Prop where
  covered : ∀ k ∈ s.fn.order, ∀ phi ∈ (s.fn.block k).phis, ∀ p ∈ s.fn.order,
    s.fn.edges p k ≤ phi.incoming.count p
  matched : ∀ k ∈ s.fn.order, k ∉ deleteList → ∀ phi ∈ (s.fn.block k).phis, ∀ p,
    phi.incoming.count p = if p ∈ s.fn.order then s.fn.edges p k else 0

theorem Fits.start (h : F.PhisMatch) : Fits (ofFunction F) [] where
  covered := fun k hk phi hphi p hp => by
    have hcount := h k hk phi hphi p
    have horder : p ∈ F.order := hp
    rw [if_pos horder] at hcount
    exact Nat.le_of_eq hcount.symm
  matched := fun k hk _ => h k hk

theorem Fits.supplied (h : Fits s deleteList) (hloop : Loop F s deleteList)
    (hF : F.WellFormed) : Supplied s.fn := by
  intro p hp k hop phi hphi
  have hk := hloop.named p hp k hop
  have hpos : 0 < phi.incoming.count p :=
    Nat.lt_of_lt_of_le (List.count_pos_iff.mpr hop) (h.covered k hk phi hphi p hp)
  have hmem := List.count_pos_iff.mp hpos
  rw [incoming_eq (hloop.length hF hk hphi)] at hmem
  obtain ⟨e, he, rfl⟩ := List.mem_map.mp hmem
  unfold Instr.getIncomingValueForBlock
  cases hfind : (phi.incoming.zip phi.operands).find? fun q => q.1 == e.1 with
  | none => exact absurd (beq_self_eq_true e.1) (by simpa using List.find?_eq_none.mp hfind e he)
  | some q => exact ⟨q.2, rfl⟩

theorem Fits.merge {s' : State} (h : Fits s deleteList) (hs : s.Linked) (hne : bb ≠ bb2)
    (hm : Merged s bb bb2 s') (havoids : Merge.AvoidsPhis ⟨s, bb, bb2, s'⟩) :
    Fits s' (deleteList ++ [bb]) where
  covered := fun k hk phi hphi p hp => by
    rw [hm.order] at hk hp
    rw [hm.retargeted.phis] at hphi
    refine Nat.le_trans ?_ (h.covered k hk phi hphi p hp)
    rcases havoids with hnone | hnil
    · rw [hm.edges_eq hne hs hnone hp]
    by_cases hkb : k = bb
    · subst hkb
      exact hm.edges_erased hne p
    · have hk2 : k ≠ bb2 := by
        rintro rfl
        rw [hnil] at hphi
        cases hphi
      rw [hm.edges_other hne hkb hk2]
  matched := fun k hk hout phi hphi p => by
    rw [List.mem_append, List.mem_singleton, not_or] at hout
    rw [hm.order] at hk ⊢
    rw [hm.retargeted.phis] at hphi
    rw [h.matched k hk hout.1 phi hphi p]
    split
    · next hp =>
        rcases havoids with hnone | hnil
        · rw [hm.edges_eq hne hs hnone hp]
        · have hk2 : k ≠ bb2 := by
            rintro rfl
            rw [hnil] at hphi
            cases hphi
          rw [hm.edges_other hne hout.2 hk2]
    · rfl

/-! ## After an edge has come to one -/

/-- Where a block stays there are no entries without an edge. -/
def Within (s : State) (deleteList : List Nat) : Prop :=
  ∀ k ∈ s.fn.order, k ∉ deleteList → ∀ phi ∈ (s.fn.block k).phis, ∀ p ∈ s.fn.order,
    phi.incoming.count p ≤ s.fn.edges p k

/-- A PHI node of a block that stays is short of an entry. -/
def Short (s : State) (deleteList : List Nat) : Prop :=
  ∃ k ∈ s.fn.order, k ∉ deleteList ∧ ∃ phi ∈ (s.fn.block k).phis, ∃ p ∈ s.fn.order,
    phi.incoming.count p < s.fn.edges p k

theorem Fits.within (h : Fits s deleteList) : Within s deleteList := by
  intro k hk hout phi hphi p hp
  rw [h.matched k hk hout phi hphi p, if_pos hp]

theorem Within.merge {s' : State} (h : Within s deleteList) (hne : bb ≠ bb2)
    (hm : Merged s bb bb2 s') : Within s' (deleteList ++ [bb]) := by
  intro k hk hout phi hphi p hp
  rw [List.mem_append, List.mem_singleton, not_or] at hout
  rw [hm.order] at hk hp
  rw [hm.retargeted.phis] at hphi
  exact Nat.le_trans (h k hk hout.1 phi hphi p hp) (hm.edges_grow hne hout.2 p)

/-- The first predecessor of the erased block has no entry for its new edge. -/
theorem Within.short {s' : State} (h : Within s deleteList) (hs : s.Linked) (hne : bb ≠ bb2)
    (hbb2 : bb2 ∈ s.fn.order) (hstays : bb2 ∉ deleteList) (hm : Merged s bb bb2 s')
    (hmeets : ¬ Merge.AvoidsPhis ⟨s, bb, bb2, s'⟩) : Short s' (deleteList ++ [bb]) := by
  unfold Merge.AvoidsPhis at hmeets
  rw [not_or] at hmeets
  obtain ⟨p, hhead⟩ := Option.ne_none_iff_exists'.mp
    (fun hnone => hmeets.1 (List.head?_eq_none_iff.mp hnone))
  obtain ⟨phi, hphi⟩ := List.exists_mem_of_ne_nil _ hmeets.2
  obtain ⟨hp, hpos⟩ := (mem_predecessors_iff_edges hs).mp (List.mem_of_head? hhead)
  refine ⟨bb2, hm.order ▸ hbb2, ?_, phi, ?_, p, hm.order ▸ hp, ?_⟩
  · rw [List.mem_append, List.mem_singleton, not_or]
    exact ⟨hstays, hne.symm⟩
  · rw [hm.retargeted.phis]
    exact hphi
  · have hpos : 0 < s.fn.edges p bb := hpos
    have hle := h bb2 hbb2 hstays phi hphi p hp
    rw [hm.edges_head hne hhead]
    omega

/-- It stays so: if the block is merged away, its first predecessor is missed
at the block retained. -/
theorem Short.merge {s' : State} (h : Short s deleteList) (hwithin : Within s deleteList)
    (hloop : Loop F s deleteList) (hF : F.WellFormed) (hacc : s.Accepted bb bb2 succ)
    (hstays : bb2 ∉ deleteList) (hm : Merged s bb bb2 s') : Short s' (deleteList ++ [bb]) := by
  obtain ⟨k, hk, hout, phi, hphi, p, hp, hlt⟩ := h
  by_cases hkb : k = bb
  · subst hkb
    refine hwithin.short hloop.linked hacc.ne hacc.mem2 hstays hm fun havoids => ?_
    rcases havoids with hnone | hnil
    · have hmem := (mem_predecessors_iff_edges hloop.linked).mpr
        ⟨hp, Nat.lt_of_le_of_lt (Nat.zero_le _) hlt⟩
      rw [hnone] at hmem
      cases hmem
    · obtain ⟨phi2, hphi2⟩ := hloop.phis_retained hF hacc hphi
      rw [hnil] at hphi2
      cases hphi2
  · refine ⟨k, hm.order ▸ hk, ?_, phi, ?_, p, hm.order ▸ hp, ?_⟩
    · rw [List.mem_append, List.mem_singleton, not_or]
      exact ⟨hout, hkb⟩
    · rw [hm.retargeted.phis]
      exact hphi
    · exact Nat.lt_of_lt_of_le hlt (hm.edges_grow hacc.ne hkb p)

/-! ## The loop -/

/-- What every merge keeps, the loop keeps. -/
theorem mergeBlocks_keeps {P : State → List Nat → Prop} {Q : Merge → Prop}
    (step : ∀ {s s' : State} {deleteList : List Nat} {bb bb2 succ : Nat}, Loop F s deleteList →
      P s deleteList → s.Accepted bb bb2 succ → bb2 ∉ deleteList → Merged s bb bb2 s' →
      Q ⟨s, bb, bb2, s'⟩ → P s' (deleteList ++ [bb])) {rest : List Nat} :
    ∀ {s : State} {deleteList : List Nat} {changed : Bool}, Loop F s deleteList →
      P s deleteList → (∀ bb ∈ rest, bb ∈ F.order) → (∀ m ∈ s.merges deleteList rest, Q m) →
      ∀ {changed' : Bool} {s' : State} {deleteList' : List Nat},
        s.mergeBlocks deleteList changed rest = .ok (changed', s', deleteList') →
        Loop F s' deleteList' ∧ P s' deleteList' ∧
          deleteList'.Sublist (deleteList ++ rest) := by
  induction rest with
  | nil =>
      intro s deleteList changed hloop hP _ _ changed' s' deleteList' hrun
      cases hrun
      rw [List.append_nil]
      exact ⟨hloop, hP, .refl _⟩
  | cons bb rest ih =>
      intro s deleteList changed hloop hP horder hQ changed' s' deleteList' hrun
      obtain ⟨hbb, hrest⟩ := List.forall_mem_cons.mp horder
      rw [merges] at hQ
      rcases mergeBlocks_cons hrun with ⟨ht, hrun⟩ | ⟨bb2, t, ht, hu, hrun⟩
      · simp only [ht] at hQ
        obtain ⟨hloop', hP', hsub⟩ := ih hloop hP hrest hQ hrun
        exact ⟨hloop', hP', hsub.trans ((List.sublist_cons_self bb rest).append_left _)⟩
      · obtain ⟨hstays, hne⟩ := mergeTarget_some ht
        obtain ⟨succ, hacc⟩ := mergeTarget_accepted hloop.linked (hloop.order ▸ hbb) ht
        obtain ⟨t', hu', hm⟩ := merged_updateBranchTargets hloop.linked hne
        rw [hu] at hu'
        cases hu'
        simp only [ht, hu, List.forall_mem_cons] at hQ
        obtain ⟨hloop', hP', hsub⟩ :=
          ih (hloop.merge hacc hm) (step hloop hP hacc hstays hm hQ.1) hrest hQ.2 hrun
        rw [List.append_assoc, List.singleton_append] at hsub
        exact ⟨hloop', hP', hsub⟩

theorem mergeBlocks_returns {rest : List Nat} (hF : F.WellFormed) :
    ∀ {s : State} {deleteList : List Nat} {changed : Bool}, Loop F s deleteList →
      Fits s deleteList → (∀ bb ∈ rest, bb ∈ F.order) →
      (∀ m ∈ s.merges deleteList rest, m.AvoidsPhis) →
      Returns (s.mergeBlocks deleteList changed rest) := by
  induction rest with
  | nil => exact fun _ _ _ _ => .pure _
  | cons bb rest ih =>
      intro s deleteList changed hloop hfits horder havoids
      obtain ⟨hbb, hrest⟩ := List.forall_mem_cons.mp horder
      obtain ⟨target, ht⟩ : Returns (s.mergeTarget deleteList bb) :=
        mergeTarget_returns hloop.linked (hfits.supplied hloop hF)
          (fun k hk i hi => hloop.mem_phis hF hk hi) hloop.branches (hloop.order ▸ hbb)
      rw [merges] at havoids
      rw [mergeBlocks, mergeDuplicatedBlock, ht]
      simp only [ht] at havoids
      cases target with
      | none => exact ih hloop hfits hrest havoids
      | some bb2 =>
          obtain ⟨-, hne⟩ := mergeTarget_some ht
          obtain ⟨succ, hacc⟩ := mergeTarget_accepted hloop.linked (hloop.order ▸ hbb) ht
          obtain ⟨t, hu, hm⟩ := merged_updateBranchTargets hloop.linked hne
          simp only [hu, List.forall_mem_cons] at havoids
          simp only [bind, Except.bind, hu]
          exact ih (hloop.merge hacc hm) (hfits.merge hloop.linked hne hm havoids.1) hrest
            havoids.2

/-- Once a merge has brought an edge to a PHI node, one stays short of an entry. -/
theorem mergeBlocks_short {rest : List Nat} (hF : F.WellFormed) :
    ∀ {s : State} {deleteList : List Nat} {changed : Bool}, Loop F s deleteList →
      Within s deleteList → (∀ bb ∈ rest, bb ∈ F.order) →
      (¬ ∀ m ∈ s.merges deleteList rest, m.AvoidsPhis) →
      ∀ {changed' : Bool} {s' : State} {deleteList' : List Nat},
        s.mergeBlocks deleteList changed rest = .ok (changed', s', deleteList') →
        Short s' deleteList' := by
  induction rest with
  | nil =>
      intro s deleteList changed _ _ _ hmeets
      exact absurd (fun m hm => nomatch hm) hmeets
  | cons bb rest ih =>
      intro s deleteList changed hloop hwithin horder hmeets changed' s' deleteList' hrun
      obtain ⟨hbb, hrest⟩ := List.forall_mem_cons.mp horder
      rw [merges] at hmeets
      rcases mergeBlocks_cons hrun with ⟨ht, hrun⟩ | ⟨bb2, t, ht, hu, hrun⟩
      · simp only [ht] at hmeets
        exact ih hloop hwithin hrest hmeets hrun
      · obtain ⟨hstays, hne⟩ := mergeTarget_some ht
        obtain ⟨succ, hacc⟩ := mergeTarget_accepted hloop.linked (hloop.order ▸ hbb) ht
        obtain ⟨t', hu', hm⟩ := merged_updateBranchTargets hloop.linked hne
        rw [hu] at hu'
        cases hu'
        simp only [ht, hu, List.forall_mem_cons] at hmeets
        have hloop' := hloop.merge hacc hm
        have hwithin' := hwithin.merge hne hm
        by_cases havoids : Merge.AvoidsPhis ⟨s, bb, bb2, t⟩
        · exact ih hloop' hwithin' hrest (fun hall => hmeets ⟨havoids, hall⟩) hrun
        · have hshort := hwithin.short hloop.linked hne hacc.mem2 hstays hm havoids
          exact (mergeBlocks_keeps (P := fun s dl => Within s dl ∧ Short s dl)
            (Q := fun _ => True)
            (fun hloop hP hacc hstays hm _ => ⟨hP.1.merge hacc.ne hm,
              hP.2.merge hP.1 hloop hF hacc hstays hm⟩)
            hloop' ⟨hwithin', hshort⟩ hrest (fun _ _ => trivial) hrun).2.1.2

/-! ## The deletions -/

theorem Loop.successors (h : Loop F s deleteList) {d : Nat} (hd : d ∈ deleteList) :
    ∃ t ∈ s.fn.order, s.fn.successors d = [t] ∧ ∀ k, s.fn.edges d k = if k = t then 1 else 0 := by
  obtain ⟨horder, t, hop, hoperands⟩ := h.deleted d hd
  refine ⟨t, h.named d horder t ?_, ?_, fun k => ?_⟩
  · rw [hoperands]
    exact List.mem_singleton_self _
  · unfold Function.successors Instr.successors Instr.successorOperands
    rw [hop, hoperands]
    rfl
  · unfold Function.edges
    rw [hoperands, List.count_singleton]
    by_cases hk : k = t
    · simp [hk]
    · have hne : t ≠ k := fun heq => hk heq.symm
      simp [hk, hne]

end

end State

/-! ## The pass -/

/-- The PHI nodes of the blocks that are left, with what control coming from
each of these blocks brought before. -/
structure PhisKept (F F' : Function) : Prop where
  matched : F'.PhisMatch
  entries : ∀ k ∈ F'.order, List.Forall₂ (fun phi phi' => phi'.id = phi.id ∧
    phi'.entries = phi.entries.filter fun e => decide (e.1 ∈ F'.order))
    (F.block k).phis (F'.block k).phis

section

variable {F F' : Function} {s : State} {deleteList dead : List Nat}


theorem mem_order_of_deleted (h : Deleted s.fn dead F') {k : Nat} :
    k ∈ F'.order ↔ k ∈ s.fn.order ∧ k ∉ dead := by
  rw [h.order, List.mem_filter, decide_eq_true_eq]

/-- No entry for a deleted block is left. -/
theorem not_mem_incoming (hloop : s.Loop F deleteList) (hfits : s.Fits deleteList)
    (hdead : dead.Perm deleteList) {k : Nat} (hk : k ∈ s.fn.order) (hstays : k ∉ dead)
    {phi phi' : Instr Op} (hphi : phi ∈ (s.fn.block k).phis)
    (htrimmed : Trimmed s.fn k dead phi phi') : ∀ p ∈ dead, p ∉ phi'.incoming := by
  intro p hp
  have hdeleted := hdead.mem_iff.mp hp
  obtain ⟨t, -, hsucc, hedges⟩ := hloop.successors hdeleted
  have hcount : phi.incoming.count p = s.fn.edges p k := by
    rw [hfits.matched k hk (fun hmem => hstays (hdead.mem_iff.mpr hmem)) phi hphi p,
      if_pos (hloop.deleted p hdeleted).1]
  rw [← List.count_eq_zero, htrimmed.count, hcount, hedges, hsucc]
  by_cases hkt : k = t
  · simp [hkt, hp]
  · simp [hkt]

/-- A PHI node of a block that stays has lost the entries for the blocks that
are gone, and no other. -/
theorem phisKept_of_deleted (hF : F.WellFormed) (hloop : s.Loop F deleteList)
    (hfits : s.Fits deleteList) (hdead : dead.Perm deleteList) (h : Deleted s.fn dead F') :
    PhisKept F F' where
  matched := fun k hk phi' hphi' p => by
    obtain ⟨horder, hstays⟩ := (mem_order_of_deleted h).mp hk
    obtain ⟨phi, hphi, htrimmed⟩ := exists_of_forall₂_right (h.phis k horder) hphi'
    have hnot := not_mem_incoming hloop hfits hdead horder hstays hphi htrimmed
    have hedges : F'.edges p k = s.fn.edges p k := by
      unfold Function.edges
      rw [h.term]
    by_cases hp : p ∈ dead
    · rw [if_neg fun hmem => ((mem_order_of_deleted h).mp hmem).2 hp]
      exact List.count_eq_zero.mpr (hnot p hp)
    · have hmatched := hfits.matched k horder (fun hmem => hstays (hdead.mem_iff.mpr hmem)) phi
        hphi p
      rw [htrimmed.count, if_neg (fun hand => hp hand.1), Nat.sub_zero, hmatched, hedges]
      simp only [mem_order_of_deleted h, hp, not_false_eq_true, and_true]
  entries := fun k hk => by
    obtain ⟨horder, hstays⟩ := (mem_order_of_deleted h).mp hk
    have hphis := h.phis k horder
    rw [hloop.retargeted.phis] at hphis
    refine forall₂_imp_mem hphis fun phi phi' hphi htrimmed => ⟨htrimmed.id, ?_⟩
    have hphi' : phi ∈ (s.fn.block k).phis := hloop.retargeted.phis k ▸ hphi
    have hnot := not_mem_incoming hloop hfits hdead horder hstays hphi' htrimmed
    rw [incoming_eq htrimmed.length] at hnot
    have hall : (phi'.entries.filter fun e => decide (e.1 ∉ dead)) = phi'.entries :=
      List.filter_eq_self.mpr fun e he =>
        decide_eq_true fun hp => hnot e.1 hp (List.mem_map_of_mem he)
    rw [← hall, htrimmed.kept]
    refine List.filter_congr fun e he => ?_
    -- every entry is for a block that was there
    have hcome : e.1 ∈ s.fn.order := by
      by_contra hout
      have hcount := hfits.matched k horder (fun hmem => hstays (hdead.mem_iff.mpr hmem)) phi
        hphi' e.1
      rw [if_neg hout, List.count_eq_zero, incoming_eq (hloop.length hF horder hphi')] at hcount
      exact hcount (List.mem_map_of_mem he)
    simp [mem_order_of_deleted h, hcome]

/-- Where a PHI node is short of an entry, either the entry that a deletion
takes is missing, or it is missing in the end. -/
theorem not_phisMatch_of_short (hloop : s.Loop F deleteList) (hshort : s.Short deleteList)
    (hdead : dead.Perm deleteList) (h : Deleted s.fn dead F')
    (hentries : ∀ d ∈ dead, ∀ t, s.fn.successors d = [t] → ∀ phi ∈ (s.fn.block t).phis,
      d ∈ phi.incoming) : ¬ F'.PhisMatch := by
  intro hmatch
  obtain ⟨k, hk, hout, phi, hphi, p, hp, hlt⟩ := hshort
  have hstays : k ∉ dead := fun hmem => hout (hdead.mem_iff.mp hmem)
  by_cases hpd : p ∈ dead
  · obtain ⟨t, -, hsucc, hedges⟩ := hloop.successors (hdead.mem_iff.mp hpd)
    rw [hedges] at hlt
    by_cases hkt : k = t
    · subst hkt
      have hpos := List.count_pos_iff.mpr (hentries p hpd k hsucc phi hphi)
      rw [if_pos rfl] at hlt
      omega
    · rw [if_neg hkt] at hlt
      omega
  · obtain ⟨phi', hphi', htrimmed⟩ := exists_of_forall₂_left (h.phis k hk) hphi
    have hcount := hmatch k ((mem_order_of_deleted h).mpr ⟨hk, hstays⟩) phi' hphi' p
    rw [htrimmed.count, if_neg (fun hand => hpd hand.1), Nat.sub_zero,
      if_pos ((mem_order_of_deleted h).mpr ⟨hp, hpd⟩), Function.edges, h.term] at hcount
    exact absurd hcount (Nat.ne_of_lt hlt)

/-- The pass keeps the PHI nodes exactly if none of its merges brings an edge to
one. -/
theorem phisKept_iff (arrange : List Nat → List Nat) (harrange : ∀ l, (arrange l).Perm l)
    (hF : F.WellFormed) (hbranches : F.Branches) (hmatch : F.PhisMatch) :
    (∃ changed F', run arrange F = .ok (changed, F') ∧ PhisKept F F') ↔
      ∀ m ∈ (State.ofFunction F).merges [] F.order, m.AvoidsPhis := by
  have hloop := State.Loop.start hF hbranches
  have hfits := State.Fits.start hmatch
  have horder : ∀ bb ∈ F.order, bb ∈ F.order := fun _ h => h
  -- what the deletions find, after any run of the loop
  have hdeletes : ∀ {s : State} {deleteList : List Nat}, s.Loop F deleteList →
      deleteList.Sublist ([] ++ F.order) → Deleted s.fn [] s.fn ∧ s.fn.order.Nodup ∧
        (∀ d ∈ arrange deleteList, ∃ t ∈ s.fn.order, s.fn.successors d = [t]) ∧
        ([] ++ arrange deleteList).Nodup := by
    intro s deleteList h hsub
    refine ⟨.refl fun k hk phi => h.length hF hk, h.order ▸ hF.nodup, fun d hd => ?_, ?_⟩
    · obtain ⟨t, ht, hsucc, -⟩ := h.successors ((harrange deleteList).mem_iff.mp hd)
      exact ⟨t, ht, hsucc⟩
    · exact (harrange deleteList).nodup_iff.mpr (hF.nodup.sublist hsub)
  constructor
  · rintro ⟨changed, F', hrun, hkept⟩
    by_contra hmeets
    obtain ⟨⟨c, s, deleteList⟩, hblocks, hrun⟩ := bind_eq_ok hrun
    obtain ⟨G, hdelete, heq⟩ := bind_eq_ok hrun
    cases heq
    have hshort := State.mergeBlocks_short hF hloop hfits.within horder hmeets hblocks
    obtain ⟨hloop', -, hsub⟩ := State.mergeBlocks_keeps (P := fun _ _ => True)
      (Q := fun _ => True) (fun _ _ _ _ _ _ => trivial) hloop trivial horder
      (fun _ _ => trivial) hblocks
    obtain ⟨hstart, hnodup, hsucc, hapart⟩ := hdeletes hloop' hsub
    obtain ⟨hdeleted, hentries⟩ := hstart.run hnodup hsucc hapart hdelete
    exact not_phisMatch_of_short hloop' hshort (harrange deleteList) hdeleted hentries
      hkept.matched
  · intro havoids
    obtain ⟨⟨c, s, deleteList⟩, hblocks⟩ :
        Returns ((State.ofFunction F).mergeBlocks [] false F.order) :=
      State.mergeBlocks_returns hF hloop hfits horder havoids
    obtain ⟨hloop', hfits', hsub⟩ := State.mergeBlocks_keeps (Q := Merge.AvoidsPhis)
      (fun hloop hfits hacc _ hm havoids => hfits.merge hloop.linked hacc.ne hm havoids)
      hloop hfits horder havoids hblocks
    obtain ⟨hstart, hnodup, hsucc, hapart⟩ := hdeletes hloop' hsub
    have hentries : ∀ d ∈ arrange deleteList, ∀ t, s.fn.successors d = [t] →
        ∀ phi ∈ (s.fn.block t).phis, d ∈ phi.incoming := by
      intro d hd t ht phi hphi
      have hd := (harrange deleteList).mem_iff.mp hd
      obtain ⟨t', ht', hsucc', hedges⟩ := hloop'.successors hd
      rw [ht] at hsucc'
      cases hsucc'
      have hle := hfits'.covered t ht' phi hphi d (hloop'.deleted d hd).1
      rw [hedges, if_pos rfl] at hle
      exact List.count_pos_iff.mp hle
    obtain ⟨F', hdelete⟩ := hstart.returns hnodup hsucc hapart hentries
    obtain ⟨hdeleted, -⟩ := hstart.run hnodup hsucc hapart hdelete
    refine ⟨c, F', ?_, phisKept_of_deleted hF hloop' hfits' (harrange deleteList) hdeleted⟩
    unfold run
    rw [hblocks]
    simp only [bind, Except.bind]
    have hdelete : (arrange deleteList).foldlM deleteDeadBlock s.fn = .ok F' := hdelete
    simp only [hdelete]
    rfl

end

theorem branches_foo : foo.Branches := by
  intro k hk
  simp only [foo, List.mem_cons, List.not_mem_nil, or_false] at hk
  rcases hk with rfl | rfl | rfl | rfl
  · exact fun h => nomatch h
  · exact fun _ => ⟨7, rfl⟩
  · exact fun _ => ⟨7, rfl⟩
  · exact fun h => nomatch h

theorem phisKept_iff_foo : ∃ changed F', run id foo = .ok (changed, F') ∧ PhisKept foo F' :=
  (phisKept_iff id (fun _ => .refl _) wellFormed_foo branches_foo (by decide)).mpr
    (by decide)

/-- Blocks 3 and 4 are alike and begin with a PHI node each; 3 is reached from
block 1, and 4 from block 2. -/
def twoPhis : Function where
  params := [.int 1, .int 32]
  retTy := .void
  order := [0, 1, 2, 3, 4, 5]
  block := fun k => match k with
    | 0 => ⟨[], condBr 0 (.arg 0) 2 1⟩
    | 1 => ⟨[], br 1 3⟩
    | 2 => ⟨[], br 2 4⟩
    | 3 => ⟨[⟨6, .int 32, .phi, [.arg 1], [1], {}⟩], br 3 5⟩
    | 4 => ⟨[⟨7, .int 32, .phi, [.arg 1], [2], {}⟩], br 4 5⟩
    | _ => ⟨[], ⟨5, .void, .ret, [], [], {}⟩⟩
  nextBlock := 6
  nextInst := 8

theorem wellFormed_twoPhis : twoPhis.WellFormed where
  nonempty := by decide
  nodup := by decide
  ids_nodup := by decide
  operands := by decide
  successors := by decide
  terminators := by decide
  debug := by decide
  phis := by decide
  incoming := by decide

theorem branches_twoPhis : twoPhis.Branches := by
  intro k hk
  simp only [twoPhis, List.mem_cons, List.not_mem_nil, or_false] at hk
  rcases hk with rfl | rfl | rfl | rfl | rfl | rfl
  · exact fun h => nomatch h
  · exact fun _ => ⟨3, rfl⟩
  · exact fun _ => ⟨4, rfl⟩
  · exact fun _ => ⟨5, rfl⟩
  · exact fun _ => ⟨5, rfl⟩
  · exact fun h => nomatch h

/-- Block 4 is reached from block 1 as well, and its PHI node has no value for
that. -/
theorem entry_missing :
    ¬ ∀ F : Function, F.WellFormed → F.Branches → F.PhisMatch →
      ∀ arrange : List Nat → List Nat, (∀ l, (arrange l).Perm l) →
        ∃ changed F', run arrange F = .ok (changed, F') ∧ PhisKept F F' := by
  intro h
  have hrun : (run id twoPhis).toOption.all (fun r => decide (1 ∈ r.2.order ∧ 4 ∈ r.2.order ∧
      r.2.edges 1 4 = 1 ∧ ∃ phi ∈ (r.2.block 4).phis, phi.incoming.count 1 = 0)) = true := by
    decide
  obtain ⟨changed, F', hF', hkept⟩ := h twoPhis wellFormed_twoPhis branches_twoPhis (by decide) id
    fun _ => .refl _
  rw [hF'] at hrun
  obtain ⟨h1, h4, hedge, phi, hphi, hnone⟩ := of_decide_eq_true hrun
  have hcount := hkept.matched 4 h4 phi hphi 1
  rw [if_pos h1, hedge, hnone] at hcount
  cases hcount

end LlvmPasses.MergeBB
