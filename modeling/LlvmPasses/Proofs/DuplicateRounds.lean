import LlvmPasses.Proofs.DuplicateTypes

/-!
# Round after round

A round on the function that some rounds have left makes one more entry in the
table of copies and one more diamond, and is in no other way different from the
first. So the pass leaves the closed form for all its targets, with the handles
that the targets get in the order they are processed in.

`duplicateAll_eq` closes the description of the pass: what it leaves is `form`
of the rounds for its targets. The induction adds the last target, so the step
is about a round on a form (`Takes.duplicate`). It has the closed form of one
round on any function (`duplicate_eq`) and needs that the result is again the
form with one round more. The blocks of the form are compared one kind at a
time: parts of earlier rounds (`Takes.part_snoc`), blocks not split yet
(`Takes.plain_snoc`) and the new parts (`Takes.part_new`); then the order of
the blocks.

Splitting moves the terminator of the block to its tail and renames the block
in the PHI nodes behind it, also in those of blocks that were split earlier.
That is where `tailOf` comes from, the block in which what was one block now
ends.
-/

namespace LlvmPasses.DuplicateBB

open Ir Ir.Function Table

variable {F : Function} {rs : List Round} {r r' : Round} {p : Part} {j k : Nat}

/-! ## One more round -/

/-- A round that takes the handles that are next. -/
structure Takes (F : Function) (rs : List Round) (r : Round) : Prop where
  planned : Planned F (rs ++ [r])
  block : r.block = (form F rs).nextBlock
  inst : r.inst = (form F rs).nextInst
  below : ∀ r' ∈ rs, r'.inst + needs F r'.bb ≤ r.inst

/-- What splitting the block `k` does to the PHI nodes of the block `j`. -/
def redirect (F : Function) (k tail j : Nat) (i : Instr Op) : Instr Op :=
  { i with incoming := i.incoming.map fun p => if p = k ∧ j ∈ F.successors k then tail else p }

theorem redirect_block (F : Function) (k tail j : Nat) :
    (F.replaceSuccessorsPhiUsesWith (F.block k).term k tail).block j =
      ⟨(F.block j).phis.map (redirect F k tail j) ++ (F.block j).body, (F.block j).term⟩ := by
  unfold Function.replaceSuccessorsPhiUsesWith
  by_cases hj : j ∈ (F.block k).term.successors
  · have hsame : redirect F k tail j = Instr.replaceIncomingBlock k tail := by
      funext i
      unfold redirect Instr.replaceIncomingBlock Function.successors
      simp only [hj, and_true]
    simp only [if_pos hj, hsame]
  · have hsame : redirect F k tail j = id := by
      funext i
      unfold redirect Function.successors
      simp only [hj, and_false, if_false, List.map_id']
      rfl
    simp only [if_neg hj, hsame, List.map_id]
    unfold Block.phis Block.body
    rw [List.takeWhile_append_dropWhile]

theorem tailOf_snoc (hI : Issued F) (h : Planned F (rs ++ [r])) (j p : Nat) :
    tailOf F (rs ++ [r]) j p =
      if tailOf F rs j p = r.bb ∧ j ∈ F.successors r.bb then r.block else tailOf F rs j p := by
  have hr : r ∈ rs ++ [r] := List.mem_append_right _ (List.mem_singleton_self r)
  unfold tailOf
  rw [roundAt_append]
  cases hp : roundAt rs p with
  | some r' =>
      obtain ⟨hr', rfl⟩ := h.left.roundAt_eq_some.mp hp
      have hne : r'.bb ≠ r.bb := by
        have hnodup := h.nodup
        rw [List.map_append, List.nodup_append] at hnodup
        exact hnodup.2.2 _ (List.mem_map_of_mem hr') _ (by simp)
      have hlt := hI.blocks _ (h.mem r hr)
      have hle := h.left.block r' hr'
      have hne' : r'.block ≠ r.bb := by omega
      rw [Option.some_or]
      dsimp only
      split
      · rw [if_neg fun hand => hne' hand.1]
      · rw [if_neg fun hand => hne hand.1]
  | none =>
      rw [Option.none_or]
      by_cases hbb : r.bb = p
      · have hsome : roundAt [r] p = some r := by simp [roundAt, lookup, hbb]
        rw [hsome]
        simp only [hbb, true_and]
      · have hnone : roundAt [r] p = none := by simp [roundAt, lookup, hbb]
        rw [hnone]
        dsimp only
        rw [if_neg fun hand => hbb hand.1.symm]

theorem allCopies_snoc : allCopies F (rs ++ [r]) = allCopies F rs ++ copiesOf F r := by
  simp [allCopies]

theorem Takes.separate (h : Takes F rs r) (hF : F.WellFormed) (hI : Issued F) :
    Separate F.nextInst (allCopies F rs ++ copiesOf F r) := by
  have hsep := h.planned.separate hF hI
  rwa [allCopies_snoc] at hsep

theorem headPhi_snoc (h : Takes F rs r) (hF : F.WellFormed) (hI : Issued F) (j : Nat)
    (i : Instr Op) :
    (redirect F r.bb r.block j (headPhi F rs j i)).mapOperands (toPhi (copiesOf F r)) =
      headPhi F (rs ++ [r]) j i := by
  have hoperands := (h.separate hF hI).toPhi_mapOperands i
  have hincoming : (i.incoming.map (tailOf F rs j)).map (fun p =>
      if p = r.bb ∧ j ∈ F.successors r.bb then r.block else p) =
      i.incoming.map (tailOf F (rs ++ [r]) j) := by
    rw [List.map_map]
    exact List.map_congr_left fun p _ => (tailOf_snoc hI h.planned j p).symm
  unfold headPhi
  rw [allCopies_snoc, ← hoperands, ← hincoming]
  rfl

theorem Takes.mem (h : Takes F rs r) : r.bb ∈ F.order :=
  h.planned.mem r (List.mem_append_right _ (List.mem_singleton_self r))

/-- The block of the round has not been split. -/
theorem Takes.unsplit (h : Takes F rs r) (hI : Issued F) : partAt rs r.bb = none := by
  refine partAt_of_mem h.planned.left hI h.mem fun r' hr' heq => ?_
  have hnodup := h.planned.nodup
  rw [List.map_append, List.nodup_append] at hnodup
  exact hnodup.2.2 _ (List.mem_map_of_mem hr') _ (List.mem_singleton_self _) heq

theorem Takes.block_eq (h : Takes F rs r) (hI : Issued F) :
    (form F rs).block r.bb = plainBlock F rs r.bb := block_form_none (h.unsplit hI)

theorem Takes.successors (h : Takes F rs r) (hI : Issued F) :
    (form F rs).successors r.bb = F.successors r.bb := by
  unfold Function.successors
  rw [h.block_eq hI]
  exact successors_rename _ _

/-- The handles that operands go by have been given out. -/
theorem Takes.toPhi_below (h : Takes F rs r) (hI : Issued F) {v : Value}
    (hv : F.Names v) : Below (form F rs).nextInst (toPhi (allCopies F rs) v) := by
  cases v with
  | inst id =>
      obtain ⟨d, hd, rfl, -⟩ := hv
      have hlt := hI.insts d hd
      have hle : F.nextInst ≤ (form F rs).nextInst := Nat.le_add_right _ _
      show phiName (allCopies F rs) d.1 < _
      cases hc : findCopy (allCopies F rs) d.1 with
      | none =>
          rw [phiName_of_none hc]
          omega
      | some c =>
          rw [phiName_of_some hc]
          cases hphi : c.phiId with
          | none => exact Nat.lt_of_lt_of_le hlt hle
          | some p =>
              obtain ⟨r', hr', hcopy⟩ := List.mem_flatMap.mp (findCopy_some hc).1
              obtain ⟨o, -, ho, heq⟩ := mem_copiesOf hcopy (phiId_mem hphi)
              have hbelow := h.below r' hr'
              have hinst := h.inst
              rw [Option.getD_some]
              omega
  | _ => trivial

theorem Takes.splits (h : Takes F rs r) (hF : F.WellFormed) (hI : Issued F) :
    Splits (form F rs) r.bb := by
  have hbody : ((form F rs).block r.bb).body =
      (F.block r.bb).body.map (Instr.mapOperands (toPhi (allCopies F rs))) := by
    rw [h.block_eq hI, body_plainBlock]
  have hle : F.nextInst ≤ (form F rs).nextInst := Nat.le_add_right _ _
  refine ⟨Nat.lt_add_right _ (hI.blocks _ h.mem), ?_, ?_, ?_⟩
  · rw [hbody, List.map_map]
    exact nodup_body hF h.mem
  · rw [hbody]
    intro i hi
    obtain ⟨i, hmem, rfl⟩ := List.mem_map.mp hi
    exact Nat.lt_of_lt_of_le (hI.insts _ (mem_defs_of_body h.mem hmem)) hle
  · rw [hbody]
    intro i hi v hv
    obtain ⟨i, hmem, rfl⟩ := List.mem_map.mp hi
    obtain ⟨w, hw, rfl⟩ := List.mem_map.mp hv
    refine h.toPhi_below hI (hF.operands _ h.mem w ?_)
    exact List.mem_append_left _
      (List.mem_flatMap.mpr ⟨i, (List.dropWhile_sublist _).subset hmem, hw⟩)

theorem Takes.copiesAt (h : Takes F rs r) (hI : Issued F) : copiesAt (form F rs) r.bb =
    (copiesOf F r).map (Copy.mapOld (toPhi (allCopies F rs))) := by
  unfold DuplicateBB.copiesAt copiesOf
  rw [h.block_eq hI, body_plainBlock, copies_mapOperands, h.inst]

/-- The test of the round is on what the value goes by. -/
theorem Takes.test (h : Takes F rs r) (hF : F.WellFormed) (hI : Issued F) :
    test (form F rs) r.inst (toPhi (allCopies F rs) r.checkValue) =
      (test F r.inst r.checkValue).mapOperands (toPhi (allCopies F rs)) := by
  have hname := h.planned.names r (List.mem_append_right _ (List.mem_singleton_self r))
  unfold DuplicateBB.test
  rw [typeOf_toPhi hF hI h.planned.left hname]
  rfl

section Blocks

variable {G : Function} {v : Value} {cs : List Copy}

theorem phis_redirect (b : Block) (tail : Nat) (t : Instr TermOp) :
    (Block.mk (b.phis.map (redirect G k tail j) ++ b.body) t).phis =
      b.phis.map (redirect G k tail j) := by
  have hsplit := (phis_body_map b (f := redirect G k tail j) (g := id) (fun _ => rfl)
    (fun _ => rfl) t).1
  rwa [List.map_id] at hsplit

theorem splitAt_head : (splitAt G k v).block k =
    ⟨(G.block k).phis.map (redirect G k G.nextBlock k) ++ [test G G.nextInst v],
      ⟨G.nextInst + 1, .void, .br,
        [.inst G.nextInst, .block (G.nextBlock + 2), .block (G.nextBlock + 1)], [], {}⟩⟩ := by
  have hredirect : (({ G with nextInst := G.nextInst + 1 } : Function).replaceSuccessorsPhiUsesWith
      (G.block k).term k G.nextBlock).block k =
        ⟨(G.block k).phis.map (redirect G k G.nextBlock k) ++ (G.block k).body,
          (G.block k).term⟩ := redirect_block { G with nextInst := G.nextInst + 1 } k _ k
  unfold splitAt Function.splitBlockAndInsertIfThenElse
  simp only [if_true, hredirect, phis_redirect]
  rfl

theorem splitAt_other (hk : j ≠ k) (htail : j ≠ G.nextBlock) (hthen : j ≠ G.nextBlock + 1)
    (helse : j ≠ G.nextBlock + 2) : (splitAt G k v).block j =
      ⟨(G.block j).phis.map (redirect G k G.nextBlock j) ++ (G.block j).body,
        (G.block j).term⟩ := by
  have hredirect : (({ G with nextInst := G.nextInst + 1 } : Function).replaceSuccessorsPhiUsesWith
      (G.block k).term k G.nextBlock).block j =
        ⟨(G.block j).phis.map (redirect G k G.nextBlock j) ++ (G.block j).body,
          (G.block j).term⟩ := redirect_block { G with nextInst := G.nextInst + 1 } k _ j
  unfold splitAt Function.splitBlockAndInsertIfThenElse
  simp only [if_neg hk, if_neg htail, if_neg hthen, if_neg helse, hredirect]

theorem splitAt_tail (hk : k ≠ G.nextBlock) :
    (splitAt G k v).block G.nextBlock = ⟨(G.block k).body, (G.block k).term⟩ := by
  simp [splitAt, Function.splitBlockAndInsertIfThenElse, hk.symm]

theorem splitAt_then (hk : k ≠ G.nextBlock + 1) : (splitAt G k v).block (G.nextBlock + 1) =
    ⟨[], ⟨G.nextInst + 2, .void, .br, [.block G.nextBlock], [], {}⟩⟩ := by
  simp [splitAt, Function.splitBlockAndInsertIfThenElse, hk.symm]

theorem splitAt_else (hk : k ≠ G.nextBlock + 2) : (splitAt G k v).block (G.nextBlock + 2) =
    ⟨[], ⟨G.nextInst + 3, .void, .br, [.block G.nextBlock], [], {}⟩⟩ := by
  simp [splitAt, Function.splitBlockAndInsertIfThenElse, hk.symm]

/-- What the rest of the round does to the blocks that it has not made. -/
theorem copiedBlocks_other (hk : j ≠ k) (htail : j ≠ G.nextBlock) (hthen : j ≠ G.nextBlock + 1)
    (helse : j ≠ G.nextBlock + 2) :
    copiedBlocks (splitAt G k v) (G.nextBlock + 1) (G.nextBlock + 2) G.nextBlock cs j =
      ⟨((G.block j).phis.map (redirect G k G.nextBlock j) ++ (G.block j).body).map
        (Instr.mapOperands (toPhi cs)), (G.block j).term.mapOperands (toPhi cs)⟩ := by
  unfold copiedBlocks withArms
  rw [if_neg hthen, if_neg helse, if_neg htail, splitAt_other hk htail hthen helse]
  rfl

end Blocks

/-- The parts of earlier rounds. -/
theorem Takes.part_snoc (h : Takes F rs r) (hF : F.WellFormed) (hI : Issued F) (hr : r' ∈ rs) :
    (⟨((partBlock F rs r' p).phis.map (redirect F r.bb r.block (r'.handle p)) ++
        (partBlock F rs r' p).body).map (Instr.mapOperands (toPhi (copiesOf F r))),
      (partBlock F rs r' p).term.mapOperands (toPhi (copiesOf F r))⟩ : Block) =
      partBlock F (rs ++ [r]) r' p := by
  have hsep := h.separate hF hI
  have hcopies : ∀ c ∈ copiesOf F r', c ∈ allCopies F rs := fun c => mem_allCopies hr
  have harms : ∀ arm : Copy → Nat, (∀ c, arm c ∈ c.ids) →
      (clones arm (allCopies F rs) [] (copiesOf F r')).map
        (Instr.mapOperands (toPhi (copiesOf F r))) =
          clones arm (allCopies F (rs ++ [r])) [] (copiesOf F r') := by
    intro arm harm
    rw [allCopies_snoc]
    exact clones_mapOperands hsep (fun c _ => harm c) (by simp) hcopies
  -- control goes to no new block yet
  have hnew : p ≠ .head → redirect F r.bb r.block (r'.handle p) = id := by
    intro hp
    have hout : r'.handle p ∉ F.successors r.bb := fun hmem => by
      have hlt := hI.blocks _ (hF.successors _ h.mem _ hmem).1
      have hle := h.planned.left.le_handle hr hp
      omega
    funext i
    unfold redirect
    simp only [hout, and_false, if_false, List.map_id']
    rfl
  have hsame : ∀ b : Block, b.phis ++ b.body = b.instrs := fun b =>
    List.takeWhile_append_dropWhile
  cases p with
  | head =>
      have hsplit := phis_body_snoc (F.block r'.bb) (f := headPhi F rs r'.bb) isPhi_headPhi
        (i := (DuplicateBB.test F r'.inst r'.checkValue).mapOperands (toPhi (allCopies F rs))) rfl
        (branch r' 1 [.inst r'.inst, .block (r'.block + 2), .block (r'.block + 1)])
      have htest : ((DuplicateBB.test F r'.inst r'.checkValue).mapOperands
          (toPhi (allCopies F rs))).mapOperands (toPhi (copiesOf F r)) =
          (DuplicateBB.test F r'.inst r'.checkValue).mapOperands
            (toPhi (allCopies F (rs ++ [r]))) := by
        rw [allCopies_snoc]
        exact hsep.toPhi_mapOperands _
      have hid : toPhi (copiesOf F r) (.inst r'.inst) = .inst r'.inst :=
        congrArg Value.inst (phiName_of_none
          (hsep.right.findCopy_none (h.planned.left.inst r' hr)))
      unfold partBlock
      dsimp only
      rw [hsplit.1, hsplit.2, List.map_append, List.map_map, List.map_map, List.map_singleton,
        htest]
      refine congrArg₂ Block.mk (congrArg (· ++ _) (List.map_congr_left fun i _ => ?_)) ?_
      · exact headPhi_snoc h hF hI r'.bb i
      · unfold branch Instr.mapOperands
        simp only [List.map_cons, List.map_nil, hid]
        rfl
  | thenArm =>
      rw [hnew nofun, List.map_id, hsame]
      exact congrArg₂ Block.mk (harms Copy.thenId thenId_mem) rfl
  | elseArm =>
      rw [hnew nofun, List.map_id, hsame]
      exact congrArg₂ Block.mk (harms Copy.elseId elseId_mem) rfl
  | tail =>
      rw [hnew nofun, List.map_id, hsame]
      refine congrArg₂ Block.mk (hsep.filterMap_merge _ _ hcopies) ?_
      rw [allCopies_snoc]
      exact hsep.toPhi_mapOperands _

/-- The blocks that no round has split yet. -/
theorem Takes.plain_snoc (h : Takes F rs r) (hF : F.WellFormed) (hI : Issued F) (j : Nat) :
    (⟨((plainBlock F rs j).phis.map (redirect F r.bb r.block j) ++
        (plainBlock F rs j).body).map (Instr.mapOperands (toPhi (copiesOf F r))),
      (plainBlock F rs j).term.mapOperands (toPhi (copiesOf F r))⟩ : Block) =
      plainBlock F (rs ++ [r]) j := by
  have hsep := h.separate hF hI
  rw [phis_plainBlock, body_plainBlock, List.map_append, List.map_map, List.map_map,
    List.map_map]
  unfold plainBlock
  refine congrArg₂ Block.mk (congrArg₂ (· ++ ·) (List.map_congr_left fun i _ => ?_)
    (List.map_congr_left fun i _ => ?_)) ?_
  · exact headPhi_snoc h hF hI j i
  · rw [allCopies_snoc]
    exact hsep.toPhi_mapOperands i
  · rw [allCopies_snoc]
    exact hsep.toPhi_mapOperands _

/-- The parts of the round itself. -/
theorem Takes.part_new (h : Takes F rs r) (hF : F.WellFormed) (hI : Issued F) :
    copiedBlocks (splitAt (form F rs) r.bb (toPhi (allCopies F rs) r.checkValue))
      (r.block + 1) (r.block + 2) r.block
      ((copiesOf F r).map (Copy.mapOld (toPhi (allCopies F rs)))) (r.handle p) =
      partBlock F (rs ++ [r]) r p := by
  let G := form F rs
  let v := toPhi (allCopies F rs) r.checkValue
  let cs := (copiesOf F r).map (Copy.mapOld (toPhi (allCopies F rs)))
  have hsep := h.separate hF hI
  have hmem : r ∈ rs ++ [r] := List.mem_append_right _ (List.mem_singleton_self r)
  have hk := hI.blocks _ h.mem
  have hnew : F.nextBlock ≤ r.block := h.planned.block r hmem
  have hnames : toPhi cs = toPhi (copiesOf F r) := congrArg Value.rename phiName_mapOld
  have hblock : r.block = G.nextBlock := h.block
  have hinst : r.inst = G.nextInst := h.inst
  have harms : ∀ arm : Copy → Nat, (∀ c f, arm (c.mapOld f) = arm c) →
      clones arm cs [] cs = clones arm (allCopies F (rs ++ [r])) [] (copiesOf F r) := by
    intro arm harm
    rw [allCopies_snoc]
    exact @clones_mapOld _ _ _ [] _ _ hsep harm
      (List.forall_mem_nil _) fun _ hc => hc
  have hfresh : ∀ id, F.nextInst ≤ id → toPhi (copiesOf F r) (.inst id) = .inst id := fun id hid =>
    congrArg Value.inst (phiName_of_none (hsep.right.findCopy_none hid))
  have hredirect : redirect G r.bb = redirect F r.bb := by
    unfold redirect
    rw [h.successors hI]
  show copiedBlocks (splitAt G r.bb v) (r.block + 1) (r.block + 2) r.block cs (r.handle p) = _
  unfold copiedBlocks withArms
  cases p with
  | head =>
      have hthen : ¬ r.bb = r.block + 1 := by omega
      have helse : ¬ r.bb = r.block + 2 := by omega
      have htail : ¬ r.bb = r.block := by omega
      have hsplit : (splitAt G r.bb v).block r.bb =
          ⟨(plainBlock F rs r.bb).phis.map (redirect F r.bb r.block r.bb) ++
            [(DuplicateBB.test F r.inst r.checkValue).mapOperands (toPhi (allCopies F rs))],
          branch r 1 [.inst r.inst, .block (r.block + 2), .block (r.block + 1)]⟩ := by
        rw [← h.test hF hI, ← h.block_eq hI, ← hredirect, branch, hblock, hinst]
        exact splitAt_head
      show (if r.bb = r.block + 1 then _ else if r.bb = r.block + 2 then _ else
        if r.bb = r.block then _ else ((splitAt G r.bb v).block r.bb).mapOperands (toPhi cs)) = _
      rw [if_neg hthen, if_neg helse, if_neg htail, hsplit, hnames, phis_plainBlock]
      unfold Block.mapOperands partBlock
      dsimp only
      rw [List.map_append, List.map_map, List.map_map, List.map_singleton]
      refine congrArg₂ Block.mk (congrArg₂ (· ++ ·) (List.map_congr_left fun i _ => ?_)
        (congrArg (fun i => [i]) ?_)) ?_
      · exact headPhi_snoc h hF hI r.bb i
      · rw [allCopies_snoc]
        exact hsep.toPhi_mapOperands _
      · unfold branch Instr.mapOperands
        simp only [List.map_cons, List.map_nil, hfresh _ (h.planned.inst r hmem)]
        rfl
  | thenArm =>
      have hterm : ((splitAt G r.bb v).block (r.block + 1)).term = branch r 2 [.block r.block] := by
        rw [branch, hblock, hinst, splitAt_then (by omega)]
      show (if r.block + 1 = r.block + 1 then _ else _) = _
      rw [if_pos rfl, hterm, harms _ fun _ _ => rfl]
      rfl
  | elseArm =>
      have hterm : ((splitAt G r.bb v).block (r.block + 2)).term = branch r 3 [.block r.block] := by
        rw [branch, hblock, hinst, splitAt_else (by omega)]
      show (if r.block + 2 = r.block + 1 then _ else if r.block + 2 = r.block + 2 then _ else _) = _
      rw [if_neg (by omega), if_pos rfl, hterm, harms _ fun _ _ => rfl]
      rfl
  | tail =>
      have hterm : ((splitAt G r.bb v).block r.block).term =
          (F.block r.bb).term.mapOperands (toPhi (allCopies F rs)) := by
        rw [hblock, splitAt_tail (by omega), h.block_eq hI]
        rfl
      show (if r.block = r.block + 1 then _ else if r.block = r.block + 2 then _ else
        if r.block = r.block then _ else _) = _
      rw [if_neg (by omega), if_neg (by omega), if_pos rfl, hterm, hnames,
        filterMap_merge_mapOld, hsep.toPhi_mapOperands, ← allCopies_snoc]
      rfl

/-- The blocks after the round. -/
theorem Takes.blocks (h : Takes F rs r) (hF : F.WellFormed) (hI : Issued F) (j : Nat) :
    copiedBlocks (splitAt (form F rs) r.bb (toPhi (allCopies F rs) r.checkValue))
      (r.block + 1) (r.block + 2) r.block (DuplicateBB.copiesAt (form F rs) r.bb) j =
      (form F (rs ++ [r])).block j := by
  let G := form F rs
  let v := toPhi (allCopies F rs) r.checkValue
  let cs := (copiesOf F r).map (Copy.mapOld (toPhi (allCopies F rs)))
  have hsep := h.separate hF hI
  have hmem : r ∈ rs ++ [r] := List.mem_append_right _ (List.mem_singleton_self r)
  have hk := hI.blocks _ h.mem
  have hnew : F.nextBlock ≤ r.block := h.planned.block r hmem
  have hnames : toPhi cs = toPhi (copiesOf F r) := congrArg Value.rename phiName_mapOld
  have hredirect : redirect G r.bb = redirect F r.bb := by
    unfold redirect
    rw [h.successors hI]
  have hother : j ≠ r.bb → j ≠ r.block → j ≠ r.block + 1 → j ≠ r.block + 2 →
      copiedBlocks (splitAt G r.bb v) (r.block + 1) (r.block + 2) r.block cs j =
        ⟨((G.block j).phis.map (redirect F r.bb r.block j) ++ (G.block j).body).map
          (Instr.mapOperands (toPhi (copiesOf F r))),
          (G.block j).term.mapOperands (toPhi (copiesOf F r))⟩ := by
    intro hbb htail hthen helse
    rw [h.block] at htail hthen helse ⊢
    rw [← hnames, ← hredirect]
    exact copiedBlocks_other hbb htail hthen helse
  rw [h.copiesAt hI]
  show copiedBlocks (splitAt G r.bb v) (r.block + 1) (r.block + 2) r.block cs j = _
  cases hq : partAt (rs ++ [r]) j with
  | none =>
      have hnone := partAt_eq_none.mp hq
      have hne : ∀ p, j ≠ r.handle p := fun p heq => hnone r hmem p heq.symm
      have hrs : partAt rs j = none :=
        partAt_eq_none.mpr fun r' hr' => hnone r' (List.mem_append_left _ hr')
      have hG : G.block j = plainBlock F rs j := block_form_none hrs
      rw [block_form_none hq, hother (hne .head) (hne .tail) (hne .thenArm) (hne .elseArm), hG]
      exact h.plain_snoc hF hI j
  | some q =>
      obtain ⟨r', p⟩ := q
      obtain ⟨hr', hj⟩ := (h.planned.partAt_eq_some hI).mp hq
      rw [block_form_some hq]
      rcases List.mem_append.mp hr' with hold | hlast
      · have hne : ∀ p', j ≠ r.handle p' := by
          intro p' heq
          have heqs := (h.planned.handle_inj hI hr' hmem (hj.trans heq)).1
          exact partAt_eq_none.mp (h.unsplit hI) r' hold .head (congrArg Round.bb heqs)
        have hG : G.block j = partBlock F rs r' p :=
          block_form_some ((h.planned.left.partAt_eq_some hI).mpr ⟨hold, hj⟩)
        rw [hother (hne .head) (hne .tail) (hne .thenArm) (hne .elseArm), hG, ← hj]
        exact h.part_snoc hF hI hold
      · obtain rfl := List.mem_singleton.mp hlast
        subst hj
        exact h.part_new hF hI

theorem insertAfter_append {new l l' : List Nat} (hk : k ∉ l) :
    insertAfter k new (l ++ l') = l ++ insertAfter k new l' := by
  induction l with
  | nil => rfl
  | cons i l ih =>
      have hi : ¬ i = k := fun heq => hk (heq ▸ List.mem_cons_self ..)
      rw [List.cons_append, insertAfter, if_neg hi, ih fun hmem => hk (List.mem_cons_of_mem _ hmem)]
      rfl

theorem placeOf_snoc (hj : j ≠ r.bb) : placeOf (rs ++ [r]) j = placeOf rs j := by
  have hnone : roundAt [r] j = none := roundAt_eq_none.mpr fun r' hr' heq =>
    hj (heq.symm.trans (congrArg Round.bb (List.mem_singleton.mp hr')))
  unfold placeOf
  rw [roundAt_append, hnone, Option.or_none]

theorem Takes.placeOf_self (h : Takes F rs r) (hI : Issued F) :
    placeOf rs r.bb = [r.bb] ∧
      placeOf (rs ++ [r]) r.bb = [r.bb, r.block + 1, r.block + 2, r.block] := by
  have hnone : roundAt rs r.bb = none := roundAt_eq_none.mpr fun r' hr' =>
    partAt_eq_none.mp (h.unsplit hI) r' hr' .head
  have hsome : roundAt [r] r.bb = some r := by simp [roundAt, lookup]
  unfold placeOf
  rw [roundAt_append, hnone, Option.none_or, hsome]
  exact ⟨rfl, rfl⟩

/-- The order of the blocks after the round. -/
theorem Takes.order (h : Takes F rs r) (hI : Issued F) {order : List Nat}
    (hsub : ∀ j ∈ order, j ∈ F.order) (hnodup : order.Nodup) (hk : r.bb ∈ order) :
    insertAfter r.bb [r.block + 1, r.block + 2, r.block] (order.flatMap (placeOf rs)) =
      order.flatMap (placeOf (rs ++ [r])) := by
  induction order with
  | nil => cases hk
  | cons j order ih =>
      obtain ⟨hj, hnodup⟩ := List.nodup_cons.mp hnodup
      obtain ⟨hjmem, hsub⟩ := List.forall_mem_cons.mp hsub
      obtain ⟨hone, hfour⟩ := h.placeOf_self hI
      rw [List.flatMap_cons, List.flatMap_cons]
      by_cases heq : j = r.bb
      · have hrest : order.flatMap (placeOf (rs ++ [r])) = order.flatMap (placeOf rs) :=
          List.flatMap_congr fun i hi => placeOf_snoc fun hbb => hj (heq ▸ hbb ▸ hi)
        rw [heq, hone, hfour, hrest, List.singleton_append, insertAfter, if_pos rfl]
      · have hnot : r.bb ∉ placeOf rs j := by
          intro hmem
          rcases (mem_placeOf h.planned.left).mp hmem with ⟨r', hr', -, p, hp⟩ | ⟨hbb, -⟩
          · exact partAt_eq_none.mp (h.unsplit hI) r' hr' p hp
          · exact heq hbb.symm
        rw [insertAfter_append hnot, placeOf_snoc heq,
          ih hsub hnodup (List.mem_of_ne_of_mem (fun hbb => heq hbb.symm) hk)]

/-- A round on the form leaves the form. -/
theorem Takes.duplicate (h : Takes F rs r) (hF : F.WellFormed) (hI : Issued F) :
    duplicate (form F rs) (recordPhis (allCopies F rs) .empty) (r.bb, r.checkValue) =
      (form F (rs ++ [r]), recordPhis (allCopies F (rs ++ [r])) .empty) := by
  have hblock : (form F rs).nextBlock = r.block := h.block.symm
  rw [duplicate_eq (h.splits hF hI), getD_recordPhis, hblock]
  refine Prod.ext ?_ ?_
  · have horder : (splitAt (form F rs) r.bb (toPhi (allCopies F rs) r.checkValue)).order =
        (form F (rs ++ [r])).order := by
      show insertAfter r.bb [(form F rs).nextBlock + 1, (form F rs).nextBlock + 2,
        (form F rs).nextBlock] (F.order.flatMap (placeOf rs)) = _
      rw [hblock]
      exact h.order hI (fun _ hj => hj) hF.nodup h.mem
    have hnextBlock : (form F rs).nextBlock + 3 = (form F (rs ++ [r])).nextBlock := by
      simp only [form, List.length_append, List.length_singleton]
      omega
    have hnextInst : (form F rs).nextInst + 4 + used ((form F rs).block r.bb).body =
        (form F (rs ++ [r])).nextInst := by
      rw [h.block_eq hI, body_plainBlock, used_mapOperands]
      simp only [form, needs, List.map_append, List.map_singleton, List.sum_append,
        List.sum_singleton]
      omega
    have hblocks := funext (h.blocks hF hI)
    show ({ params := F.params, retTy := F.retTy, order := _, block := _
            nextBlock := (form F rs).nextBlock + 3, nextInst := _
            optnone := F.optnone } : Function) = _
    rw [horder, hblocks, hnextBlock, hnextInst]
    rfl
  · rw [h.copiesAt hI, (h.separate hF hI).recordPhis_recordPhis, allCopies_snoc]

/-! ## All rounds -/

/-- The rounds for the targets, in their order. -/
def rounds (F : Function) (ts : List (Nat × Value)) : List Round :=
  ts.map fun t => ⟨t.1, t.2, Layout.place (fun _ => 3) F.nextBlock (ts.map Prod.fst) t.1,
    Layout.place (needs F) F.nextInst (ts.map Prod.fst) t.1⟩

/-- Targets are blocks of the function, each once, with values that it names. -/
structure Chosen (F : Function) (ts : List (Nat × Value)) : Prop where
  nodup : (ts.map Prod.fst).Nodup
  mem : ∀ t ∈ ts, t.1 ∈ F.order
  names : ∀ t ∈ ts, F.Names t.2

section Run

variable {ts ts' : List (Nat × Value)} {t : Nat × Value}

theorem Chosen.left (h : Chosen F (ts ++ ts')) : Chosen F ts where
  nodup := by
    have hnodup := h.nodup
    rw [List.map_append] at hnodup
    exact hnodup.of_append_left
  mem := fun t ht => h.mem t (List.mem_append_left _ ht)
  names := fun t ht => h.names t (List.mem_append_left _ ht)

theorem Chosen.planned (h : Chosen F ts) : Planned F (rounds F ts) where
  nodup := by
    unfold rounds
    rw [List.map_map]
    exact h.nodup
  mem := by
    intro r hr
    obtain ⟨t, ht, rfl⟩ := List.mem_map.mp hr
    exact h.mem t ht
  block := by
    intro r hr
    obtain ⟨t, -, rfl⟩ := List.mem_map.mp hr
    exact Layout.le_place
  block_inj := by
    intro r hr r' hr' i hi i' hi' heq
    obtain ⟨t, ht, rfl⟩ := List.mem_map.mp hr
    obtain ⟨t', ht', rfl⟩ := List.mem_map.mp hr'
    obtain ⟨hbb, hi⟩ := @Layout.place_inj _ (fun _ => 3) _ _ _ _ _ _ _ (List.mem_map_of_mem ht)
      (List.mem_map_of_mem ht') hi hi' heq
    rw [key_inj h.nodup ht ht' hbb]
    exact ⟨rfl, hi⟩
  inst := by
    intro r hr
    obtain ⟨t, -, rfl⟩ := List.mem_map.mp hr
    exact Layout.le_place
  inst_inj := by
    intro r hr r' hr' o ho o' ho' heq
    obtain ⟨t, ht, rfl⟩ := List.mem_map.mp hr
    obtain ⟨t', ht', rfl⟩ := List.mem_map.mp hr'
    obtain ⟨hbb, ho⟩ := Layout.place_inj (List.mem_map_of_mem ht)
      (List.mem_map_of_mem ht') ho ho' heq
    rw [key_inj h.nodup ht ht' hbb]
    exact ⟨rfl, ho⟩
  names := by
    intro r hr
    obtain ⟨t, ht, rfl⟩ := List.mem_map.mp hr
    exact h.names t ht

/-- The round for one more target. -/
def lastRound (F : Function) (ts : List (Nat × Value)) (t : Nat × Value) : Round :=
  ⟨t.1, t.2, (form F (rounds F ts)).nextBlock, (form F (rounds F ts)).nextInst⟩

theorem nextBlock_rounds : (form F (rounds F ts)).nextBlock =
    F.nextBlock + Layout.total (fun _ => 3) (ts.map Prod.fst) := by
  rw [Layout.total_const]
  simp [form, rounds]

theorem nextInst_rounds : (form F (rounds F ts)).nextInst =
    F.nextInst + Layout.total (needs F) (ts.map Prod.fst) := by
  simp only [form, rounds, Layout.total, List.map_map]
  rfl

theorem rounds_snoc (h : Chosen F (ts ++ [t])) :
    rounds F (ts ++ [t]) = rounds F ts ++ [lastRound F ts t] := by
  have hnodup := h.nodup
  rw [List.map_append, List.nodup_append] at hnodup
  have hnew : t.1 ∉ ts.map Prod.fst := fun hmem =>
    hnodup.2.2 _ hmem _ (List.mem_singleton_self _) rfl
  unfold rounds
  rw [List.map_append, List.map_append, List.map_singleton, List.map_singleton]
  refine congrArg₂ (· ++ ·) (List.map_congr_left fun t' ht' => ?_) ?_
  · have hmem : t'.1 ∈ ts.map Prod.fst := List.mem_map_of_mem ht'
    rw [Layout.place_append_left hmem, Layout.place_append_left hmem]
  · rw [Layout.place_append_right hnew, Layout.place_append_right hnew, lastRound,
      nextBlock_rounds, nextInst_rounds]
    simp [Layout.place]

theorem Chosen.takes (h : Chosen F (ts ++ [t])) : Takes F (rounds F ts) (lastRound F ts t) where
  planned := rounds_snoc h ▸ h.planned
  block := rfl
  inst := rfl
  below := by
    intro r hr
    obtain ⟨t', ht', rfl⟩ := List.mem_map.mp hr
    unfold lastRound
    rw [nextInst_rounds]
    exact Layout.place_add_le (List.mem_map_of_mem ht')

theorem form_nil : form F [] = F := by
  have hself : ∀ {ω : Type} (i : Instr ω), i.mapOperands (toPhi (allCopies F [])) = i :=
    fun i => mapOperands_id toPhi_nil i
  have hphi : ∀ j i, headPhi F [] j i = i := by
    intro j i
    have hincoming : i.incoming.map (tailOf F [] j) = i.incoming := List.map_id' _
    unfold headPhi
    rw [hincoming, hself]
  have hblock : ∀ j, (form F []).block j = F.block j := by
    intro j
    show plainBlock F [] j = _
    unfold plainBlock
    rw [List.map_congr_left fun i _ => hphi j i, List.map_congr_left fun i _ => hself i,
      List.map_id', List.map_id', hself]
    exact congrArg (Block.mk · _) List.takeWhile_append_dropWhile
  show ({ F with order := F.order.flatMap fun k => [k], block := (form F []).block } : Function) = F
  rw [List.flatMap_singleton', funext hblock]

/-- The pass leaves the form. -/
theorem duplicateAll_eq (hF : F.WellFormed) (hI : Issued F) (h : Chosen F ts) :
    duplicateAll F ts = form F (rounds F ts) := by
  have hrun : ts.foldl (fun s target => duplicate s.1 s.2 target) (F, ValueMap.empty) =
      (form F (rounds F ts), recordPhis (allCopies F (rounds F ts)) .empty) := by
    induction ts using List.reverseRecOn with
    | nil =>
        have hempty : recordPhis [] .empty = ValueMap.empty := by
          funext v
          cases v <;> rfl
        show (F, ValueMap.empty) = (form F [], recordPhis [] .empty)
        rw [form_nil, hempty]
    | append_singleton ts t ih =>
        rw [List.foldl_append, ih h.left, rounds_snoc h]
        exact h.takes.duplicate hF hI
  exact congrArg Prod.fst hrun

end Run

end LlvmPasses.DuplicateBB
