import LlvmPasses.Proofs.DuplicateRounds
import LlvmPasses.Proofs.RivExact

/-!
# The order of the targets does not matter

The closed form finds everything in tables, so it is the same for the rounds in
any order as long as each keeps its handles. Other handles for the rounds are
other names in the form and nothing else. Processing the targets in another
order is both: the same rounds, with the handles they get there.

`duplicateAll_order` says that two orders of the same targets leave the same
function up to a renaming of what is new, where blocks and handles of the
function itself keep their names (`Renaming`). The rounds are compared with the
rounds that keep their blocks and values and take other handles
(`Round.relabel`). `form_perm` is for the order in which the rounds are listed,
`form_relabel` for the handles, and `duplicateAll_perm` puts one after the
other.

Relabelling a form has to be followed through everything it is made of: names
of operands, clones, PHI nodes, places. There is one lemma for each, all by the
same two facts: handles of the function stay, and the handles of a round are
moved together (`Moves`). The choice of the pass is a list of targets that
satisfies the hypotheses whatever is drawn (`chosen_targets`).
-/

namespace LlvmPasses.DuplicateBB

open Ir Ir.Function Table

variable {F : Function} {rs rs' : List Round} {r : Round} {p : Part} {j k n : Nat}

/-! ## The same rounds in another order -/

section Order

variable {all all' before rest : List Copy} {arm : Copy → Nat}

theorem clones_congr (h : phiName all = phiName all') :
    clones arm all before rest = clones arm all' before rest := by
  induction rest generalizing before with
  | nil => rfl
  | cons c rest ih =>
      have harm : armName arm before all = armName arm before all' := by
        unfold armName
        rw [h]
      rw [clones, clones, ih, toArm, harm]

theorem form_perm (hF : F.WellFormed) (hI : Issued F) (h : Planned F rs) (hperm : rs.Perm rs') :
    form F rs' = form F rs := by
  have hnames : phiName (allCopies F rs') = phiName (allCopies F rs) := by
    have hfind : findCopy (allCopies F rs') = findCopy (allCopies F rs) :=
      (lookup_perm (h.separate hF hI).nodup (hperm.flatMap_right (copiesOf F))).symm
    unfold phiName phiOf
    rw [hfind]
  have hround : roundAt rs' = roundAt rs := (lookup_perm h.nodup hperm).symm
  have hpart : partAt rs' = partAt rs :=
    (lookup_perm (h.nodup_parts hI) (hperm.product_right _)).symm
  have htail : tailOf F rs' = tailOf F rs := by
    unfold tailOf
    rw [hround]
  have hphi : headPhi F rs' = headPhi F rs := by
    unfold headPhi toPhi
    rw [hnames, htail]
  have hparts : partBlock F rs' = partBlock F rs := by
    funext r p
    cases p <;> simp only [partBlock, toPhi, hnames, hphi, clones_congr hnames]
  have hplain : plainBlock F rs' = plainBlock F rs := by
    unfold plainBlock toPhi
    rw [hnames, hphi]
  have hplace : placeOf rs' = placeOf rs := by
    unfold placeOf
    rw [hround]
  have hneeds : (rs'.map fun r => needs F r.bb).sum = (rs.map fun r => needs F r.bb).sum :=
    (hperm.map _).sum_nat.symm
  unfold form
  rw [hpart, hparts, hplain, hplace, hperm.length_eq, hneeds]

end Order

/-! ## The same rounds with other handles -/

def Copy.relabel (ι : Nat → Nat) (c : Copy) : Copy where
  old := c.old
  thenId := ι c.thenId
  elseId := ι c.elseId
  phiId := c.phiId.map ι

def Round.relabel (β ι : Nat → Nat) (r : Round) : Round :=
  { r with block := β r.block, inst := ι r.inst }

/-- The operand is of a handle that has been given out. -/
def Given (F : Function) : Value → Prop
  | .inst id => id < F.nextInst
  | .block k => k < F.nextBlock
  | _ => True

/-- Handles of the function stay, and those of a round stay together. -/
structure Moves (F : Function) (rs : List Round) (β ι : Nat → Nat) : Prop where
  block_inj : Function.Injective β
  block_fixed : ∀ k < F.nextBlock, β k = k
  inst_fixed : ∀ id < F.nextInst, ι id = id
  block : ∀ r ∈ rs, ∀ i < 3, β (r.block + i) = β r.block + i
  inst : ∀ r ∈ rs, ∀ o < needs F r.bb, ι (r.inst + o) = ι r.inst + o

section Relabel

variable {β ι : Nat → Nat} {cs before rest : List Copy} {arm : Copy → Nat} {v : Value}

theorem names_given (hI : Issued F) (hv : F.Names v) : Given F v := by
  cases v with
  | inst id =>
      obtain ⟨d, hd, rfl, -⟩ := hv
      exact hI.insts d hd
  | block k => exact hI.blocks k hv
  | _ => trivial

theorem copies_relabel {m : Nat} {is : List (Instr Op)}
    (h : ∀ o < used is, ι (n + o) = m + o) : copies m is = (copies n is).map (Copy.relabel ι) := by
  induction is generalizing n m with
  | nil => rfl
  | cons i is ih =>
      have hused : used (i :: is) = handles i + used is := by simp [used]
      have hpos : 2 ≤ handles i := by
        unfold handles
        split <;> omega
      have h₀ := h 0 (by omega)
      have h₁ := h 1 (by omega)
      have hrest := @ih (n + handles i) (m + handles i) fun o ho => by
        rw [Nat.add_assoc, Nat.add_assoc]
        exact h _ (by omega)
      rw [copies, copies, List.map_cons, ← hrest]
      refine congrArg (· :: _) ?_
      unfold Copy.make Copy.relabel
      cases hvoid : i.ty.isVoidTy with
      | true => simp_all
      | false =>
          have hthree : handles i = 3 := by simp [handles, hvoid]
          have h₂ := h 2 (by omega)
          simp_all

theorem findCopy_relabel (id : Nat) :
    findCopy (cs.map (Copy.relabel ι)) id = (findCopy cs id).map (Copy.relabel ι) :=
  @lookup_map _ _ (fun c : Copy => c.old.id) cs id _ _ _ _ (fun c : Copy => c.old.id)
    (Copy.relabel ι) (fun id => id) (fun _ _ => rfl) (fun _ _ h => h)

theorem phiName_relabel {id : Nat} (hid : ι id = id) :
    phiName (cs.map (Copy.relabel ι)) id = ι (phiName cs id) := by
  cases hc : findCopy cs id with
  | none =>
      have hc' : findCopy (cs.map (Copy.relabel ι)) id = none := by rw [findCopy_relabel, hc]; rfl
      rw [phiName_of_none hc, phiName_of_none hc', hid]
  | some c =>
      have hc' : findCopy (cs.map (Copy.relabel ι)) id = some (c.relabel ι) := by
        rw [findCopy_relabel, hc]
        rfl
      rw [phiName_of_some hc, phiName_of_some hc']
      unfold Copy.relabel
      cases c.phiId with
      | none => exact hid.symm
      | some p => rfl

theorem armName_relabel {id : Nat} (harm : ∀ c : Copy, arm (c.relabel ι) = ι (arm c))
    (hid : ι id = id) :
    armName arm (before.map (Copy.relabel ι)) (cs.map (Copy.relabel ι)) id =
      ι (armName arm before cs id) := by
  cases hc : findCopy before id with
  | none =>
      have hc' : findCopy (before.map (Copy.relabel ι)) id = none := by
        rw [findCopy_relabel, hc]
        rfl
      rw [armName_of_none hc, armName_of_none hc', phiName_relabel hid]
  | some c =>
      have hc' : findCopy (before.map (Copy.relabel ι)) id = some (c.relabel ι) := by
        rw [findCopy_relabel, hc]
        rfl
      rw [armName_of_some hc, armName_of_some hc', harm]

theorem roundAt_relabel (k : Nat) : roundAt (rs.map (Round.relabel β ι)) k =
    (roundAt rs k).map (Round.relabel β ι) :=
  lookup_map (g := fun k => k) (fun _ _ => rfl) (fun _ _ h => h)

variable (hm : Moves F rs β ι)

include hm

theorem Moves.toPhi_relabel (hv : Given F v) :
    toPhi (cs.map (Copy.relabel ι)) v = (toPhi cs v).relabel β ι := by
  cases v with
  | inst id => exact congrArg Value.inst (phiName_relabel (hm.inst_fixed id hv))
  | block k => exact congrArg Value.block (hm.block_fixed k hv).symm
  | _ => rfl

theorem Moves.toArm_relabel (harm : ∀ c : Copy, arm (c.relabel ι) = ι (arm c)) (hv : Given F v) :
    toArm arm (before.map (Copy.relabel ι)) (cs.map (Copy.relabel ι)) v =
      (toArm arm before cs v).relabel β ι := by
  cases v with
  | inst id => exact congrArg Value.inst (armName_relabel harm (hm.inst_fixed id hv))
  | block k => exact congrArg Value.block (hm.block_fixed k hv).symm
  | _ => rfl

theorem Moves.copiesOf_relabel (hr : r ∈ rs) : copiesOf F (r.relabel β ι) =
    (copiesOf F r).map (Copy.relabel ι) := by
  refine copies_relabel fun o ho => ?_
  have hmove := hm.inst r hr (4 + o) (Nat.add_lt_add_left ho 4)
  show ι (r.inst + 4 + o) = ι r.inst + 4 + o
  rw [Nat.add_assoc, hmove, Nat.add_assoc]

theorem Moves.allCopies_relabel : allCopies F (rs.map (Round.relabel β ι)) =
    (allCopies F rs).map (Copy.relabel ι) := by
  unfold allCopies
  rw [List.flatMap_map, List.map_flatMap]
  exact List.flatMap_congr fun r hr => hm.copiesOf_relabel hr

theorem Moves.handle_relabel (hI : Issued F) (h : Planned F rs) (hr : r ∈ rs) :
    (r.relabel β ι).handle p = β (r.handle p) := by
  cases p with
  | head => exact (hm.block_fixed _ (hI.blocks _ (h.mem r hr))).symm
  | tail => rfl
  | thenArm => exact (hm.block r hr 1 (by decide)).symm
  | elseArm => exact (hm.block r hr 2 (by decide)).symm

theorem Moves.partAt_relabel (hI : Issued F) (h : Planned F rs) (j : Nat) :
    partAt (rs.map (Round.relabel β ι)) (β j) =
      (partAt rs j).map (Prod.map (Round.relabel β ι) id) := by
  have hparts : parts (rs.map (Round.relabel β ι)) =
      (parts rs).map (Prod.map (Round.relabel β ι) id) := by
    unfold parts List.product
    rw [List.flatMap_map, List.map_flatMap]
    rfl
  unfold partAt
  rw [hparts]
  refine lookup_map ?_ fun _ _ heq => hm.block_inj heq
  rintro ⟨r, p⟩ hq
  exact hm.handle_relabel hI h (mem_parts.mp hq)

theorem Moves.tailOf_relabel (hp : k < F.nextBlock) : tailOf F (rs.map (Round.relabel β ι)) j k =
    β (tailOf F rs j k) := by
  unfold tailOf
  rw [roundAt_relabel]
  cases roundAt rs k with
  | none => exact (hm.block_fixed k hp).symm
  | some r =>
      simp only [Option.map_some]
      split
      · rfl
      · exact (hm.block_fixed k hp).symm

/-- An instruction of the function, by what its operands go by. -/
theorem Moves.instr_relabel {ω : Type} {i : Instr ω} (hid : i.id < F.nextInst)
    (hincoming : ∀ p ∈ i.incoming, p < F.nextBlock) (hoperands : ∀ v ∈ i.operands, Given F v) :
    i.mapOperands (toPhi (cs.map (Copy.relabel ι))) =
      (i.mapOperands (toPhi cs)).relabel β ι :=
  mapOperands_relabel (hm.inst_fixed _ hid) (fun p hp => hm.block_fixed p (hincoming p hp))
    fun v hv => hm.toPhi_relabel (hoperands v hv)

/-- The clones of instructions of the function. -/
theorem Moves.clones_relabel (harm : ∀ c : Copy, arm (c.relabel ι) = ι (arm c))
    (hincoming : ∀ c ∈ rest, ∀ p ∈ c.old.incoming, p < F.nextBlock)
    (hoperands : ∀ c ∈ rest, ∀ v ∈ c.old.operands, Given F v) :
    clones arm (cs.map (Copy.relabel ι)) (before.map (Copy.relabel ι))
      (rest.map (Copy.relabel ι)) =
      (clones arm cs before rest).map (Instr.relabel β ι) := by
  induction rest generalizing before with
  | nil => rfl
  | cons c rest ih =>
      obtain ⟨hinc, hincs⟩ := List.forall_mem_cons.mp hincoming
      obtain ⟨hop, hops⟩ := List.forall_mem_cons.mp hoperands
      have htail := @ih (before ++ [c]) hincs hops
      rw [List.map_append, List.map_singleton] at htail
      have hvals : c.old.operands.map (toArm arm (before.map (Copy.relabel ι))
          (cs.map (Copy.relabel ι))) =
          (c.old.operands.map (toArm arm before cs)).map (Value.relabel β ι) := by
        rw [List.map_map]
        exact List.map_congr_left fun v hv => hm.toArm_relabel harm (hop v hv)
      have hblocks : c.old.incoming = c.old.incoming.map β := by
        rw [List.map_congr_left fun p hp => hm.block_fixed p (hinc p hp), List.map_id']
      rw [List.map_cons, clones, clones, List.map_cons, htail, harm]
      refine congrArg (· :: _) ?_
      unfold Instr.relabel Instr.mapOperands
      dsimp only
      rw [← hblocks]
      exact congrArg (fun vs => { c.old with id := ι (arm c), operands := vs }) hvals

theorem Moves.placeOf_relabel (h : Planned F rs) (hk : k < F.nextBlock) :
    placeOf (rs.map (Round.relabel β ι)) k = (placeOf rs k).map β := by
  unfold placeOf
  rw [roundAt_relabel]
  cases hround : roundAt rs k with
  | none => simp [hm.block_fixed k hk]
  | some r =>
      obtain ⟨hr, -⟩ := h.roundAt_eq_some.mp hround
      have hthen : β (r.block + 1) = β r.block + 1 := hm.block r hr 1 (by decide)
      have helse : β (r.block + 2) = β r.block + 2 := hm.block r hr 2 (by decide)
      simp [Round.relabel, hm.block_fixed k hk, hthen, helse]

end Relabel

/-! ## The form under other handles -/

theorem instr_given (hF : F.WellFormed) (hI : Issued F) (hk : k ∈ F.order) {i : Instr Op}
    (hi : i ∈ (F.block k).instrs) : i.id < F.nextInst ∧
      (∀ p ∈ i.incoming, p < F.nextBlock) ∧ ∀ v ∈ i.operands, Given F v := by
  refine ⟨?_, fun p hp => ?_, fun v hv => ?_⟩
  · exact hI.insts (i.id, i.ty) (mem_defs_of_instr hk hi)
  · exact hI.incoming k hk p (List.mem_append_left _ (List.mem_flatMap.mpr ⟨i, hi, hp⟩))
  · exact names_given hI (hF.operands k hk v
      (List.mem_append_left _ (List.mem_flatMap.mpr ⟨i, hi, hv⟩)))

theorem term_given (hF : F.WellFormed) (hI : Issued F) (hk : k ∈ F.order) :
    (F.block k).term.id < F.nextInst ∧ (∀ p ∈ (F.block k).term.incoming, p < F.nextBlock) ∧
      ∀ v ∈ (F.block k).term.operands, Given F v :=
  ⟨hI.insts _ (mem_defs_term hk), fun p hp => hI.incoming k hk p (List.mem_append_right _ hp),
    fun v hv => names_given hI (hF.operands k hk v (List.mem_append_right _ hv))⟩

section Blocks

variable {β ι : Nat → Nat} (hF : F.WellFormed) (hI : Issued F) (hm : Moves F rs β ι)

include hF hI hm

theorem Moves.phis_relabel (hk : k ∈ F.order) :
    (F.block k).phis.map (headPhi F (rs.map (Round.relabel β ι)) k) =
      ((F.block k).phis.map (headPhi F rs k)).map (Instr.relabel β ι) := by
  rw [List.map_map]
  refine List.map_congr_left fun i hi => ?_
  obtain ⟨hid, hincoming, hoperands⟩ :=
    instr_given hF hI hk ((List.takeWhile_sublist _).subset hi)
  have hvals : i.operands.map (toPhi (allCopies F
      (rs.map (Round.relabel β ι)))) =
      (i.operands.map (toPhi (allCopies F rs))).map
        (Value.relabel β ι) := by
    rw [List.map_map, hm.allCopies_relabel]
    exact List.map_congr_left fun v hv => hm.toPhi_relabel (hoperands v hv)
  have hblocks : i.incoming.map (tailOf F (rs.map (Round.relabel β ι)) k) =
      (i.incoming.map (tailOf F rs k)).map β := by
    rw [List.map_map]
    exact List.map_congr_left fun p hp => hm.tailOf_relabel (hincoming p hp)
  have hself : ι i.id = i.id := hm.inst_fixed _ hid
  show headPhi F (rs.map (Round.relabel β ι)) k i = (headPhi F rs k i).relabel β ι
  unfold headPhi Instr.mapOperands Instr.relabel
  dsimp only
  rw [hvals, hblocks, hself]

theorem Moves.body_relabel (hk : k ∈ F.order) :
    (F.block k).body.map (Instr.mapOperands
      (toPhi (allCopies F (rs.map (Round.relabel β ι))))) =
      ((F.block k).body.map (Instr.mapOperands
        (toPhi (allCopies F rs)))).map (Instr.relabel β ι) := by
  rw [List.map_map, hm.allCopies_relabel]
  refine List.map_congr_left fun i hi => ?_
  obtain ⟨hid, hincoming, hoperands⟩ :=
    instr_given hF hI hk ((List.dropWhile_sublist _).subset hi)
  exact hm.instr_relabel hid hincoming hoperands

theorem Moves.term_relabel (hk : k ∈ F.order) :
    (F.block k).term.mapOperands
      (toPhi (allCopies F (rs.map (Round.relabel β ι)))) =
      ((F.block k).term.mapOperands
        (toPhi (allCopies F rs))).relabel β ι := by
  obtain ⟨hid, hincoming, hoperands⟩ := term_given hF hI hk
  rw [hm.allCopies_relabel]
  exact hm.instr_relabel hid hincoming hoperands

theorem Moves.plainBlock_relabel (hk : k ∈ F.order) :
    plainBlock F (rs.map (Round.relabel β ι)) k =
      (plainBlock F rs k).relabel β ι := by
  unfold plainBlock Block.relabel
  rw [hm.phis_relabel hF hI hk, hm.body_relabel hF hI hk, hm.term_relabel hF hI hk, List.map_append]

theorem Moves.partBlock_relabel (h : Planned F rs) (hr : r ∈ rs) :
    partBlock F (rs.map (Round.relabel β ι)) (r.relabel β ι) p =
      (partBlock F rs r p).relabel β ι := by
  have hk := h.mem r hr
  have hpos : ∀ o < 4, o < needs F r.bb := fun o ho => Nat.lt_of_lt_of_le ho (Nat.le_add_right 4 _)
  have hinst : ∀ o < 4, ι (r.inst + o) = ι r.inst + o := fun o ho => hm.inst r hr o (hpos o ho)
  have hthen : β (r.block + 1) = β r.block + 1 := hm.block r hr 1 (by decide)
  have helse : β (r.block + 2) = β r.block + 2 := hm.block r hr 2 (by decide)
  have harms : ∀ arm : Copy → Nat, (∀ c : Copy, arm (c.relabel ι) = ι (arm c)) →
      clones arm (allCopies F (rs.map (Round.relabel β ι))) []
        (copiesOf F (r.relabel β ι)) =
      (clones arm (allCopies F rs) []
        (copiesOf F r)).map (Instr.relabel β ι) := by
    intro arm harm
    have hgiven : ∀ c ∈ copiesOf F r, c.old.id < F.nextInst ∧
        (∀ p ∈ c.old.incoming, p < F.nextBlock) ∧ ∀ v ∈ c.old.operands, Given F v := fun c hc =>
      instr_given hF hI hk ((List.dropWhile_sublist _).subset (old_mem hc))
    rw [hm.allCopies_relabel, hm.copiesOf_relabel hr]
    exact @Moves.clones_relabel _ _ _ _ _ [] _ _ hm harm (fun c hc => (hgiven c hc).2.1)
      fun c hc => (hgiven c hc).2.2
  have hbranch : ∀ (o : Nat) (dests : List Value), o < 4 →
      branch (r.relabel β ι) o (dests.map (Value.relabel β ι)) =
        (branch r o dests).relabel β ι := by
    intro o dests ho
    unfold branch Instr.relabel
    rw [hinst o ho]
    rfl
  cases p with
  | head =>
      have hvalue : toPhi (allCopies F (rs.map (Round.relabel β ι))) r.checkValue =
          (toPhi (allCopies F rs) r.checkValue).relabel β ι := by
        rw [hm.allCopies_relabel]
        exact hm.toPhi_relabel (names_given hI (h.names r hr))
      have htest : (test F (ι r.inst) r.checkValue).mapOperands
          (toPhi (allCopies F (rs.map (Round.relabel β ι)))) =
          ((test F r.inst r.checkValue).mapOperands (toPhi (allCopies F rs))).relabel β ι := by
        unfold test Instr.mapOperands Instr.relabel
        simp only [List.map_cons, List.map_nil, hvalue]
        rfl
      have hdests : [Value.inst (ι r.inst), .block (β r.block + 2), .block (β r.block + 1)] =
          [Value.inst r.inst, .block (r.block + 2), .block (r.block + 1)].map
            (Value.relabel β ι) := by
        simp only [List.map_cons, List.map_nil, Value.relabel, hthen, helse]
      show Block.mk ((F.block r.bb).phis.map (headPhi F (rs.map (Round.relabel β ι)) r.bb) ++
        [(test F (ι r.inst) r.checkValue).mapOperands
          (toPhi (allCopies F (rs.map (Round.relabel β ι))))])
        (branch (r.relabel β ι) 1
          [.inst (ι r.inst), .block (β r.block + 2), .block (β r.block + 1)]) = _
      rw [hm.phis_relabel hF hI hk, htest, hdests, hbranch 1 _ (by decide)]
      unfold partBlock Block.relabel
      rw [List.map_append, List.map_singleton]
  | thenArm =>
      exact congrArg₂ Block.mk (harms Copy.thenId fun _ => rfl)
        (hbranch 2 [.block r.block] (by decide))
  | elseArm =>
      exact congrArg₂ Block.mk (harms Copy.elseId fun _ => rfl)
        (hbranch 3 [.block r.block] (by decide))
  | tail =>
      have hmerge : ∀ c : Copy, merge (β r.block + 1) (β r.block + 2) (c.relabel ι) =
          (merge (r.block + 1) (r.block + 2) c).map (Instr.relabel β ι) := by
        intro c
        unfold merge Copy.relabel
        cases c.phiId with
        | none => rfl
        | some p =>
            simp only [Option.map_some, Instr.relabel, List.map_cons, List.map_nil,
              Value.relabel, hthen, helse]
      have hphis : (copiesOf F (r.relabel β ι)).filterMap (merge (β r.block + 1) (β r.block + 2)) =
          ((copiesOf F r).filterMap (merge (r.block + 1) (r.block + 2))).map
            (Instr.relabel β ι) := by
        rw [hm.copiesOf_relabel hr, List.filterMap_map, List.map_filterMap]
        exact List.filterMap_congr fun c _ => hmerge c
      exact congrArg₂ Block.mk hphis (hm.term_relabel hF hI hk)

/-- Blocks of the form, under their other handles. -/
theorem Moves.block_relabel (h : Planned F rs) (hj : j ∈ (form F rs).order) :
    (form F (rs.map (Round.relabel β ι))).block (β j) =
      ((form F rs).block j).relabel β ι := by
  have hpart := hm.partAt_relabel hI h j
  cases hq : partAt rs j with
  | some q =>
      obtain ⟨r, p⟩ := q
      rw [hq] at hpart
      rw [block_form_some hq, block_form_some hpart]
      exact hm.partBlock_relabel hF hI h ((h.partAt_eq_some hI).mp hq).1
  | none =>
      rw [hq] at hpart
      have hmem : j ∈ F.order := by
        rcases (mem_order_form h).mp hj with ⟨r, hr, p, heq⟩ | ⟨hj, -⟩
        · exact absurd heq (partAt_eq_none.mp hq r hr p)
        · exact hj
      rw [block_form_none hq, block_form_none hpart, hm.block_fixed j (hI.blocks j hmem)]
      exact hm.plainBlock_relabel hF hI hmem

end Blocks

/-- The form for the rounds with other handles. -/
theorem form_relabel {β ι : Equiv.Perm Nat} (hF : F.WellFormed) (hI : Issued F)
    (hm : Moves F rs β ι) (h : Planned F rs) :
    Renaming F (form F rs) (form F (rs.map (Round.relabel β ι))) β ι where
  block_fixed := hm.block_fixed
  inst_fixed := hm.inst_fixed
  params := rfl
  retTy := rfl
  optnone := rfl
  order := by
    show F.order.flatMap _ = (F.order.flatMap _).map β
    rw [List.map_flatMap]
    exact List.flatMap_congr fun k hk => hm.placeOf_relabel h (hI.blocks k hk)
  block := fun _ hj => hm.block_relabel hF hI h hj

/-! ## The pass -/

section Pass

variable {ts ts' : List (Nat × Value)}

theorem Chosen.perm (h : Chosen F ts) (hperm : ts.Perm ts') : Chosen F ts' where
  nodup := (hperm.map Prod.fst).nodup_iff.mp h.nodup
  mem := fun t ht => h.mem t (hperm.mem_iff.mpr ht)
  names := fun t ht => h.names t (hperm.mem_iff.mpr ht)

/-- The targets in another order. -/
theorem duplicateAll_perm (hF : F.WellFormed) (hI : Issued F) (h : Chosen F ts)
    (hperm : ts.Perm ts') :
    ∃ β ι, Renaming F (duplicateAll F ts) (duplicateAll F ts') β ι := by
  have hkeys : (ts.map Prod.fst).Perm (ts'.map Prod.fst) := hperm.map _
  have h' : Chosen F ts' := h.perm hperm
  let β := Layout.relocate (fun _ => 3) F.nextBlock h.nodup hkeys
  let ι := Layout.relocate (needs F) F.nextInst h.nodup hkeys
  have hβ : ∀ t ∈ ts, ∀ i < 3, β (Layout.place (fun _ => 3) F.nextBlock (ts.map Prod.fst) t.1 + i) =
      Layout.place (fun _ => 3) F.nextBlock (ts'.map Prod.fst) t.1 + i := fun t ht i hi =>
    Layout.move_place (List.mem_map_of_mem ht) hi
  have hι : ∀ t ∈ ts, ∀ o < needs F t.1,
      ι (Layout.place (needs F) F.nextInst (ts.map Prod.fst) t.1 + o) =
        Layout.place (needs F) F.nextInst (ts'.map Prod.fst) t.1 + o := fun t ht o ho =>
    Layout.move_place (List.mem_map_of_mem ht) ho
  have hpos : ∀ k, 0 < needs F k := fun k => Nat.add_pos_left (by decide) _
  have hmoves : Moves F (rounds F ts) β ι := by
    refine ⟨β.injective, fun k hk => Layout.move_of_lt hk, fun id hid => Layout.move_of_lt hid,
      fun r hr i hi => ?_, fun r hr o ho => ?_⟩
    · obtain ⟨t, ht, rfl⟩ := List.mem_map.mp hr
      exact (hβ t ht i hi).trans (congrArg (· + i) (hβ t ht 0 (by decide)).symm)
    · obtain ⟨t, ht, rfl⟩ := List.mem_map.mp hr
      exact (hι t ht o ho).trans (congrArg (· + o) (hι t ht 0 (hpos _)).symm)
  have hrounds : ((rounds F ts).map (Round.relabel β ι)).Perm (rounds F ts') := by
    have hsame : (rounds F ts).map (Round.relabel β ι) =
        ts.map fun t => ⟨t.1, t.2, Layout.place (fun _ => 3) F.nextBlock (ts'.map Prod.fst) t.1,
          Layout.place (needs F) F.nextInst (ts'.map Prod.fst) t.1⟩ := by
      unfold rounds
      rw [List.map_map]
      refine List.map_congr_left fun t ht => ?_
      have hblock := hβ t ht 0 (by decide)
      have hinst := hι t ht 0 (hpos _)
      rw [Nat.add_zero, Nat.add_zero] at hblock hinst
      simp only [Function.comp_apply, Round.relabel, hblock, hinst]
    rw [hsame]
    exact hperm.map _
  have hform := form_relabel hF hI hmoves h.planned
  refine ⟨β, ι, ?_⟩
  rw [duplicateAll_eq hF hI h, duplicateAll_eq hF hI h',
    ← form_perm hF hI h'.planned hrounds.symm]
  exact hform

/-- The entry that is made for a block. -/
theorem entry_some {rivs : RIV.Result} {dist : Nat → Nat} {q : Nat × Value}
    (h : (if isLandingPad (F.block k) then none else
      (rivs k)[dist k]?.map fun v => (k, v)) = some q) : q.1 = k ∧ q.2 ∈ rivs k := by
  split at h
  · cases h
  · obtain ⟨v, hv, rfl⟩ := Option.map_eq_some_iff.mp h
    exact ⟨rfl, List.mem_of_getElem? hv⟩

theorem keys_sublist {α β : Type} {f : α → Option (α × β)} (h : ∀ a q, f a = some q → q.1 = a)
    (l : List α) : ((l.filterMap f).map Prod.fst).Sublist l := by
  induction l with
  | nil => exact .slnil
  | cons a l ih =>
      cases hf : f a with
      | none =>
          rw [List.filterMap_cons_none hf]
          exact ih.cons a
      | some q =>
          rw [List.filterMap_cons_some hf, List.map_cons, h a q hf]
          exact ih.cons_cons a

theorem int_of_isIntegerTy {ty : Ty} (h : ty.isIntegerTy = true) : ∃ w, ty = .int w := by
  cases ty with
  | int w => exact ⟨w, rfl⟩
  | _ => cases h

/-- A value that is reachable in a block is an argument or a result of a block
above it, of an integer type. -/
theorem riv_cases {T : RIV.DomTree} (hF : F.WellFormed) (hT : T.Describes F)
    {globals : List Nat} {v : Value} (hv : v ∈ RIV.run T F globals k) :
    ∃ w, F.typeOf v = .int w ∧ ((∃ i, F.params[i]? = some (.int w) ∧ v = .arg i) ∨
      ∃ a ∈ F.order, F.StrictlyDominates a k ∧
        ∃ id, (id, .int w) ∈ (F.block a).defs ∧ v = .inst id) := by
  obtain ⟨popped, hprogress, hfilled⟩ := @RIV.run_filled _ _ globals hF hT
  have hk : F.Reachable k := hprogress.reachable k (hfilled.only k v hv)
  rcases hprogress.sound k v hv with hv | ⟨a, ha, hv⟩
  · obtain ⟨i, ty, hget, hty, rfl⟩ := RIV.mem_entryValues.mp hv
    obtain ⟨w, rfl⟩ := int_of_isIntegerTy hty
    refine ⟨w, ?_, .inl ⟨i, hget, rfl⟩⟩
    show F.params.getD i .void = .int w
    rw [List.getD_eq_getElem?_getD, hget, Option.getD_some]
  · obtain ⟨⟨id, ty⟩, hd, hty, rfl⟩ := RIV.mem_definedValues.mp hv
    obtain ⟨w, rfl⟩ := int_of_isIntegerTy hty
    have hmem : a ∈ F.order := hF.mem_of_reachable (ha.reachable hk)
    have hdefs : (id, .int w) ∈ F.defs := mem_defs.mpr ⟨a, hmem, hd⟩
    refine ⟨w, typeOf_inst hdefs fun d hd' heq => ?_, .inr ⟨a, hmem, ha, id, hd, rfl⟩⟩
    rw [key_inj hF.ids_nodup hd' hdefs heq]

/-- It is one that the function names. -/
theorem names_of_riv {T : RIV.DomTree} (hF : F.WellFormed) (hT : T.Describes F)
    {globals : List Nat} {v : Value} (hv : v ∈ RIV.run T F globals k) : F.Names v := by
  obtain ⟨w, -, ⟨i, hget, rfl⟩ | ⟨a, ha, -, id, hd, rfl⟩⟩ := riv_cases hF hT hv
  · exact (List.getElem?_eq_some_iff.mp hget).1
  · exact ⟨(id, .int w), mem_defs.mpr ⟨a, ha, hd⟩, rfl, nofun⟩

/-- What the pass chooses. -/
theorem chosen_targets {T : RIV.DomTree} (hF : F.WellFormed) (hT : T.Describes F)
    (globals : List Nat) (dist : Nat → Nat) :
    Chosen F (targets F (RIV.run T F globals) dist) where
  nodup := hF.nodup.sublist (keys_sublist (fun _ _ h => (entry_some h).1) F.order)
  mem := by
    intro t ht
    obtain ⟨k, hk, hq⟩ := List.mem_filterMap.mp ht
    rwa [(entry_some hq).1]
  names := by
    intro t ht
    obtain ⟨k, -, hq⟩ := List.mem_filterMap.mp ht
    exact names_of_riv hF hT (entry_some hq).2

/-- Processing the targets in any two orders makes the same function, up to the
handles of what is new. -/
theorem duplicateAll_order {T : RIV.DomTree} (hF : F.WellFormed) (hI : Issued F)
    (hT : T.Describes F) (globals : List Nat) (dist : Nat → Nat)
    (h : ts.Perm (targets F (RIV.run T F globals) dist))
    (h' : ts'.Perm (targets F (RIV.run T F globals) dist)) :
    ∃ β ι, Renaming F (duplicateAll F ts) (duplicateAll F ts') β ι := by
  have htargets := chosen_targets hF hT globals dist
  have hts : Chosen F ts := htargets.perm h.symm
  exact duplicateAll_perm hF hI hts (h.trans h'.symm)

end Pass

/-! ### A check value that another round deletes -/

/-- `define i8 @f(i8 %a)`: `0: %0 = add i8 %a, %a; br label %1` and
`1: %2 = sub i8 %0, %a; ret i8 %2`. -/
def adding : Function where
  params := [.int 8]
  retTy := .int 8
  order := [0, 1]
  block := fun k => match k with
    | 0 => ⟨[⟨0, .int 8, .binop .add, [.arg 0, .arg 0], [], {}⟩],
        ⟨1, .void, .br, [.block 1], [], {}⟩⟩
    | _ => ⟨[⟨2, .int 8, .binop .sub, [.inst 0, .arg 0], [], {}⟩],
        ⟨3, .void, .ret, [.inst 2], [], {}⟩⟩
  nextBlock := 2
  nextInst := 4

def addingTree : RIV.DomTree := ⟨0, fun k => if k = 0 then [1] else []⟩

theorem wellFormed_adding : adding.WellFormed where
  nonempty := by decide
  nodup := by decide
  ids_nodup := by decide
  operands := by decide
  successors := by decide
  terminators := by decide
  debug := by decide
  phis := by decide
  incoming := by decide

theorem issued_adding : Issued adding where
  blocks := by decide
  insts := by decide
  incoming := by decide

/-- The first of two blocks dominates the second. -/
theorem describes_addingTree {F : Function} (hF : F.WellFormed) (horder : F.order = [0, 1])
    (hwalk : F.Walk [(0, 0)] 1) : addingTree.Describes F where
  root := by simp [entry, horder, addingTree]
  child := by
    intro a b hb
    by_cases ha : a = 0
    · subst ha
      obtain rfl : b = 1 := List.mem_singleton.mp hb
      have hne : 1 ≠ F.entry := by simp [entry, horder]
      refine ⟨⟨_, hwalk.path⟩, fun p hp => ?_, fun c hc => .inl ?_⟩
      · have hmem := hp.entry_mem hne
        simpa [entry, horder] using hmem
      · simpa using hc _ hwalk.path
    · have hb : b ∈ if a = 0 then [1] else [] := hb
      rw [if_neg ha] at hb
      cases hb
  parent := by
    intro b hb hne
    have hmem := hF.mem_of_reachable hb
    have hne : b ≠ 0 := by simpa [entry, horder] using hne
    have hone : b = 1 := by simpa [horder, hne] using hmem
    exact ⟨0, hone ▸ List.mem_singleton_self _⟩
  nodup := by
    intro a
    show (if a = 0 then [1] else []).Nodup
    split <;> decide

theorem describes_adding : addingTree.Describes adding :=
  describes_addingTree wellFormed_adding rfl (.snoc .start rfl)

/-- The sum of the first block is tested in the second. -/
theorem duplicateAll_order_adding :
    ∃ β ι, Renaming adding (duplicateAll adding [(0, .arg 0), (1, .inst 0)])
      (duplicateAll adding [(1, .inst 0), (0, .arg 0)]) β ι :=
  duplicateAll_order wellFormed_adding issued_adding describes_adding [] (fun _ => 0) (by decide)
    (by decide)

end LlvmPasses.DuplicateBB
