import LlvmPasses.Proofs.DuplicateWellFormed
import LlvmPasses.Proofs.FCmpTypes
import LlvmPasses.Proofs.Supported

/-!
# DuplicateBB leaves functions that it supports

The types are those of what was copied, and every PHI node has one entry for
each edge again: what came from a block that was split comes from its tail, and
the PHI nodes of a tail have an entry for each arm.

`supported_duplicateAll` is the pass's part in `Supported`: for each condition
that the transformations ask of a function, the form satisfies it if the
function does. Well-formedness and types are from the modules before; what is
left is that handles have been given out, that PHI nodes match edges, and the
kinds of terminators. For the PHI nodes edges are counted. The edges into a
block of the form are those the function had, each from the tail of where it
came from (`edges_form`), and the entries of a PHI node are renamed in the same
way, so the two counts stay equal (`matched_headPhi`). A tail has two edges,
from the arms, and its PHI nodes have these two entries (`matched_merge`).
-/

namespace LlvmPasses.DuplicateBB

open Ir Ir.Function Table

variable {F : Function} {rs : List Round} {r r' : Round} {p p' : Part} {j k q : Nat}
variable {ts : List (Nat × Value)}

/-! ## Handles that have been given out -/

/-- The handles of the rounds have been given out when all are done. -/
structure Within (F : Function) (rs : List Round) : Prop where
  block : ∀ r ∈ rs, r.block + 3 ≤ (form F rs).nextBlock
  inst : ∀ r ∈ rs, r.inst + needs F r.bb ≤ (form F rs).nextInst

theorem within_rounds : Within F (rounds F ts) where
  block := by
    intro r hr
    obtain ⟨t, ht, rfl⟩ := List.mem_map.mp hr
    rw [nextBlock_rounds]
    exact @Layout.place_add_le _ (fun _ => 3) _ _ _ _ (List.mem_map_of_mem ht)
  inst := by
    intro r hr
    obtain ⟨t, ht, rfl⟩ := List.mem_map.mp hr
    rw [nextInst_rounds]
    exact Layout.place_add_le (List.mem_map_of_mem ht)

theorem Within.handle (hw : Within F rs) (hI : Issued F) (h : Planned F rs) (hr : r ∈ rs)
    (p : Part) : r.handle p < (form F rs).nextBlock := by
  have hle := hw.block r hr
  cases p with
  | head => exact Nat.lt_of_lt_of_le (hI.blocks _ (h.mem r hr)) (Nat.le_add_right ..)
  | _ =>
      simp only [Round.handle]
      omega

theorem Within.tailOf (hw : Within F rs) (hq : q < F.nextBlock) :
    tailOf F rs j q < (form F rs).nextBlock := by
  rcases tailOf_cases F rs j q with heq | ⟨r, hr, -, heq⟩ <;> rw [heq]
  · exact Nat.lt_of_lt_of_le hq (Nat.le_add_right ..)
  · have hle := hw.block r hr
    omega

theorem issued_headPhis (hw : Within F rs) (hI : Issued F) (hj : j ∈ F.order)
    (hq : q ∈ ((F.block j).phis.map (headPhi F rs j)).flatMap Instr.incoming) :
    q < (form F rs).nextBlock := by
  obtain ⟨i, hi, hq⟩ := List.mem_flatMap.mp hq
  obtain ⟨phi, hphi, rfl⟩ := List.mem_map.mp hi
  obtain ⟨q', hq', rfl⟩ := List.mem_map.mp hq
  refine hw.tailOf (hI.incoming j hj q' (List.mem_append_left _ ?_))
  exact List.mem_flatMap.mpr ⟨phi, (List.takeWhile_sublist _).subset hphi, hq'⟩

theorem issued_body (hI : Issued F) (hj : j ∈ F.order) {i : Instr Op} (hi : i ∈ (F.block j).body)
    (hq : q ∈ i.incoming) : q < (form F rs).nextBlock :=
  Nat.lt_of_lt_of_le (hI.incoming j hj q (List.mem_append_left _
    (List.mem_flatMap.mpr ⟨i, (List.dropWhile_sublist _).subset hi, hq⟩))) (Nat.le_add_right ..)

theorem issued_term (hI : Issued F) (hj : j ∈ F.order) (hq : q ∈ (F.block j).term.incoming) :
    q < (form F rs).nextBlock :=
  Nat.lt_of_lt_of_le (hI.incoming j hj q (List.mem_append_right _ hq)) (Nat.le_add_right ..)

theorem issued_clones (hI : Issued F) (h : Planned F rs) (hr : r ∈ rs) {arm : Copy → Nat} {o : Nat}
    (hq : q ∈ (Block.mk (clones arm (allCopies F rs) [] (copiesOf F r))
      (branch r o [.block r.block])).incoming) : q < (form F rs).nextBlock := by
  rcases List.mem_append.mp hq with hq | hq
  · obtain ⟨i, hi, hq⟩ := List.mem_flatMap.mp hq
    obtain ⟨done, c, hc, -, rfl⟩ := mem_clones hi
    exact issued_body hI (h.mem r hr) (old_mem hc) hq
  · cases hq

theorem issued_form (hw : Within F rs) (hI : Issued F) (h : Planned F rs) : Issued (form F rs) where
  blocks := by
    intro j hj
    rcases (mem_order_form h).mp hj with ⟨r, hr, p, rfl⟩ | ⟨hj, -⟩
    · exact hw.handle hI h hr p
    · exact Nat.lt_of_lt_of_le (hI.blocks j hj) (Nat.le_add_right ..)
  insts := by
    intro d hd
    cases origin_form h hI hd with
    | old hold => exact Nat.lt_of_lt_of_le (hI.insts d hold) (Nat.le_add_right ..)
    | frame r hr o ho heq =>
        have hle := hw.inst r hr
        unfold needs at hle
        omega
    | copy c hc hid _ =>
        obtain ⟨r, hr, hc⟩ := List.mem_flatMap.mp hc
        obtain ⟨o, -, ho, heq⟩ := mem_copiesOf hc hid
        have hle := hw.inst r hr
        omega
  incoming := by
    intro j hj q hq
    rcases block_cases h hI hj with ⟨r, hr, p, -, hblock⟩ | ⟨hj, -, hblock⟩
    · rw [hblock] at hq
      have hk := h.mem r hr
      cases p with
      | head =>
          unfold partBlock Block.incoming at hq
          rw [List.flatMap_append] at hq
          rcases List.mem_append.mp hq with hq | hq
          · rcases List.mem_append.mp hq with hq | hq
            · exact issued_headPhis hw hI hk hq
            · cases hq
          · cases hq
      | thenArm => exact issued_clones hI h hr hq
      | elseArm => exact issued_clones hI h hr hq
      | tail =>
          rcases List.mem_append.mp hq with hq | hq
          · obtain ⟨i, hi, hq⟩ := List.mem_flatMap.mp hq
            obtain ⟨c, -, hi⟩ := List.mem_filterMap.mp hi
            obtain ⟨s, -, rfl⟩ := Option.map_eq_some_iff.mp hi
            simp only [List.mem_cons, List.not_mem_nil, or_false] at hq
            rcases hq with rfl | rfl
            · exact hw.handle hI h hr .thenArm
            · exact hw.handle hI h hr .elseArm
          · exact issued_term hI hk hq
    · rw [hblock] at hq
      unfold plainBlock Block.incoming at hq
      rw [List.flatMap_append] at hq
      rcases List.mem_append.mp hq with hq | hq
      · rcases List.mem_append.mp hq with hq | hq
        · exact issued_headPhis hw hI hj hq
        · obtain ⟨i, hi, hq⟩ := List.mem_flatMap.mp hq
          obtain ⟨old, hold, rfl⟩ := List.mem_map.mp hi
          exact issued_body hI hj hold hq
      · exact issued_term hI hj hq

/-! ## Types -/

theorem wellTyped_form (hF : F.WellFormed) (hI : Issued F) (h : Planned F rs) (hty : F.WellTyped) :
    (form F rs).WellTyped := by
  intro j hj i hi
  cases instance_form hF hI h hj hi with
  | phi k phi hk hphi heq =>
      subst heq
      have hop : phi.isPhi = true := List.mem_takeWhile_imp hphi
      exact checks_of_phi _ (beq_iff_eq.mp hop)
  | test r hr heq =>
      subst heq
      rfl
  | clone k old ρ id hk hold htype heq =>
      subst heq
      have hcheck := hty k hk old ((List.dropWhile_sublist _).subset hold)
      rw [ConvertFCmpEq.checks_congr fun v hv =>
        (htype v (mem_operands_body hk hF hold hv)).symm] at hcheck
      exact (checks_mapOperands _ _ old).trans hcheck
  | merge hop _ => exact checks_of_phi _ hop

/-! ## Edges -/

theorem count_head (h : Planned F rs) (hr : r ∈ rs) (hj : j < F.nextBlock) :
    (branch r 1 [.inst r.inst, .block (r.block + 2), .block (r.block + 1)]).operands.count
      (.block j) = 0 := by
  have hle := h.block r hr
  refine List.count_eq_zero.mpr fun hmem => ?_
  simp only [branch, List.mem_cons, reduceCtorEq, Value.block.injEq, List.not_mem_nil, or_false,
    false_or] at hmem
  omega

/-- The edges of the form. -/
theorem edges_form (h : Planned F rs) (hI : Issued F) (hq : q ∈ (form F rs).order) (j : Nat) :
    (∃ r ∈ rs, q = r.handle .head ∧ (form F rs).edges q j =
      (branch r 1 [.inst r.inst, .block (r.block + 2), .block (r.block + 1)]).operands.count
        (.block j)) ∨
    (∃ r ∈ rs, (q = r.handle .thenArm ∨ q = r.handle .elseArm) ∧
      (form F rs).edges q j = if r.block = j then 1 else 0) ∨
    ∃ k ∈ F.order, ((∃ r ∈ rs, r.bb = k ∧ q = r.handle .tail) ∨ (q = k ∧ ∀ r ∈ rs, r.bb ≠ k)) ∧
      (form F rs).edges q j = F.edges k j := by
  have hmap : ∀ k, ((F.block k).term.mapOperands (toPhi (allCopies F rs))).operands.count
      (.block j) = F.edges k j := fun k => count_block_map (keepsBlocks_rename _) _ j
  have harm : ∀ (r : Round) (o : Nat), (branch r o [.block r.block]).operands.count (.block j) =
      if r.block = j then 1 else 0 := by
    intro r o
    rw [branch, List.count_singleton]
    simp
  rcases block_cases h hI hq with ⟨r, hr, p, rfl, hblock⟩ | ⟨hq, hno, hblock⟩
  · have hedges : (form F rs).edges (r.handle p) j =
        (partBlock F rs r p).term.operands.count (.block j) := by
      unfold Function.edges
      rw [hblock]
    cases p with
    | head => exact .inl ⟨r, hr, rfl, hedges⟩
    | thenArm => exact .inr (.inl ⟨r, hr, .inl rfl, hedges.trans (harm r 2)⟩)
    | elseArm => exact .inr (.inl ⟨r, hr, .inr rfl, hedges.trans (harm r 3)⟩)
    | tail =>
        exact .inr (.inr ⟨r.bb, h.mem r hr, .inl ⟨r, hr, rfl, rfl⟩, hedges.trans (hmap r.bb)⟩)
  · refine .inr (.inr ⟨q, hq, .inr ⟨rfl, hno⟩, ?_⟩)
    unfold Function.edges
    rw [hblock]
    exact hmap q

theorem tailOf_of_split (h : Planned F rs) (hr : r ∈ rs) :
    tailOf F rs j r.bb = if j ∈ F.successors r.bb then r.block else r.bb := by
  unfold tailOf
  simp only [h.roundAt_eq_some.mpr ⟨hr, rfl⟩]

theorem tailOf_of_plain (hno : ∀ r ∈ rs, r.bb ≠ q) : tailOf F rs j q = q := by
  unfold tailOf
  simp only [roundAt_eq_none.mpr hno]

/-- The entries for a block are those for its tail. -/
theorem count_tailOf (h : Planned F rs) {l : List Nat} (hl : ∀ x ∈ l, x < F.nextBlock)
    (hq : q < F.nextBlock) : (l.map (tailOf F rs j)).count (tailOf F rs j q) = l.count q := by
  rw [List.count_eq_countP, List.countP_map, List.count_eq_countP]
  refine List.countP_congr fun x hx => ?_
  simp only [Function.comp_apply, beq_iff_eq]
  exact ⟨fun heq => tailOf_inj h (hl x hx) hq heq, fun heq => congrArg _ heq⟩

/-- The PHI nodes that a block of the function had. -/
theorem matched_headPhi (hF : F.Supported) (h : Planned F rs) (hj : j ∈ F.order)
    {phi : Instr Op} (hphi : phi ∈ (F.block j).phis) (q : Nat) :
    (headPhi F rs j phi).incoming.count q =
      if q ∈ (form F rs).order then (form F rs).edges q j else 0 := by
  have hI := hF.issued
  have hjlt := hI.blocks j hj
  obtain ⟨hmem, hcount⟩ := phisMatch_iff.mp hF.matched j hj phi hphi
  have hlt : ∀ x ∈ phi.incoming, x < F.nextBlock := fun x hx => hI.blocks x (hmem x hx)
  show (phi.incoming.map (tailOf F rs j)).count q = _
  -- an entry is for an edge, which is now one of the tail
  have hzero : (∀ x ∈ F.order, j ∈ F.successors x → tailOf F rs j x ≠ q) →
      (phi.incoming.map (tailOf F rs j)).count q = 0 := by
    intro hnone
    refine List.count_eq_zero.mpr fun hq => ?_
    obtain ⟨x, hx, rfl⟩ := List.mem_map.mp hq
    refine hnone x (hmem x hx) ?_ rfl
    by_contra hno
    have hedges := hcount x (hmem x hx)
    rw [hF.edges_eq_zero (hmem x hx) hno, List.count_eq_zero] at hedges
    exact hedges hx
  have hsplit : ∀ x ∈ F.order, j ∈ F.successors x → ∀ r ∈ rs, r.bb = x →
      tailOf F rs j x = r.block := by
    rintro x - hsucc r hr rfl
    rw [tailOf_of_split h hr, if_pos hsucc]
  split
  · next hq =>
      rcases edges_form h hI hq j with ⟨r, hr, rfl, hedges⟩ | ⟨r, hr, harm, hedges⟩ |
          ⟨k, hk, hplace, hedges⟩ <;> rw [hedges]
      · rw [count_head h hr hjlt]
        refine hzero fun x hx hsucc heq => ?_
        rcases tailOf_cases F rs j x with hself | ⟨r', hr', hbb, hnew⟩
        · have hbb : r.bb = x := heq.symm.trans hself
          have hle := h.block r hr
          have hlt := hI.blocks x hx
          have hblock := hsplit x hx hsucc r hr hbb
          omega
        · have hle := h.block r' hr'
          have hlt := hI.blocks _ (h.mem r hr)
          have hbb : r'.block = r.bb := hnew.symm.trans heq
          omega
      · have hne : r.block ≠ j := fun heq => absurd (h.block r hr) (by omega)
        rw [if_neg hne]
        refine hzero fun x hx _ heq => ?_
        have hp : ∃ p, (p = .thenArm ∨ p = .elseArm) ∧ q = r.handle p := by
          rcases harm with rfl | rfl
          · exact ⟨.thenArm, .inl rfl, rfl⟩
          · exact ⟨.elseArm, .inr rfl, rfl⟩
        obtain ⟨p, hp, rfl⟩ := hp
        rcases tailOf_cases F rs j x with hself | ⟨r', hr', -, hnew⟩
        · have hle := h.le_handle hr (p := p) (by rcases hp with rfl | rfl <;> nofun)
          have hlt := hI.blocks x hx
          omega
        · have htail : r'.handle .tail = r.handle p := hnew.symm.trans heq
          obtain ⟨-, rfl⟩ := h.handle_inj hI hr' hr htail
          rcases hp with hp | hp <;> cases hp
      · have hcounted := count_tailOf (j := j) h hlt (hI.blocks k hk)
        by_cases hsucc : j ∈ F.successors k
        · have htail : tailOf F rs j k = q := by
            rcases hplace with ⟨r, hr, rfl, rfl⟩ | ⟨rfl, hno⟩
            · exact hsplit _ hk hsucc r hr rfl
            · exact tailOf_of_plain hno
          rw [← htail, hcounted, hcount k hk]
        · rw [hF.edges_eq_zero hk hsucc]
          refine hzero fun x hx hsucc' heq => hsucc ?_
          suffices hxk : x = k from hxk ▸ hsucc'
          rcases hplace with ⟨r, hr, rfl, rfl⟩ | ⟨rfl, hno⟩
          · rcases tailOf_cases F rs j x with hself | ⟨r', hr', hbb, hnew⟩
            · have hle := h.block r hr
              have hlt := hI.blocks x hx
              have hnew : x = r.block := hself.symm.trans heq
              omega
            · have htails : r'.handle .tail = r.handle .tail := hnew.symm.trans heq
              obtain ⟨rfl, -⟩ := h.handle_inj hI hr' hr htails
              exact hbb.symm
          · exact tailOf_inj h (hI.blocks x hx) (hI.blocks _ hk)
              (heq.trans (tailOf_of_plain hno).symm)
  · next hq =>
      refine hzero fun x hx hsucc heq => hq ?_
      rw [← heq]
      rcases tailOf_cases F rs j x with hself | ⟨r, hr, -, hnew⟩
      · rw [hself]
        exact mem_order_old h hx
      · rw [hnew]
        exact mem_order_handle h hr .tail

/-- The PHI nodes of a tail. -/
theorem matched_merge (hF : F.Supported) (h : Planned F rs) (hr : r ∈ rs) (q : Nat) :
    [r.block + 1, r.block + 2].count q =
      if q ∈ (form F rs).order then (form F rs).edges q r.block else 0 := by
  have hI := hF.issued
  have hle := h.block r hr
  have hcount : [r.block + 1, r.block + 2].count q =
      if q = r.handle .thenArm ∨ q = r.handle .elseArm then 1 else 0 := by
    simp only [List.count_cons, List.count_nil, beq_iff_eq, Round.handle]
    grind
  rw [hcount]
  split
  · next harm =>
      have hpart : ∀ p, (p = .thenArm ∨ p = .elseArm) →
          (form F rs).edges (r.handle p) r.block = 1 := by
        intro p hp
        unfold Function.edges
        rw [block_form_some ((h.partAt_eq_some hI).mpr ⟨hr, rfl⟩)]
        rcases hp with rfl | rfl <;>
          simp [partBlock, branch]
      rcases harm with rfl | rfl
      · rw [if_pos (mem_order_handle h hr _), hpart _ (.inl rfl)]
      · rw [if_pos (mem_order_handle h hr _), hpart _ (.inr rfl)]
  · next hno =>
      split
      · next hq =>
          rcases edges_form h hI hq r.block with ⟨r', hr', rfl, hedges⟩ | ⟨r', hr', harm, hedges⟩ |
              ⟨k, hk, -, hedges⟩ <;> rw [hedges]
          · refine (List.count_eq_zero.mpr fun hmem => ?_).symm
            simp only [branch, List.mem_cons, reduceCtorEq, Value.block.injEq, List.not_mem_nil,
              or_false, false_or] at hmem
            rcases hmem with heq | heq
            · have helse : r.handle .tail = r'.handle .elseArm := heq
              cases (h.handle_inj hI hr hr' helse).2
            · have hthen : r.handle .tail = r'.handle .thenArm := heq
              cases (h.handle_inj hI hr hr' hthen).2
          · refine (if_neg fun heq => hno ?_).symm
            have htails : r'.handle .tail = r.handle .tail := heq
            obtain ⟨rfl, -⟩ := h.handle_inj hI hr' hr htails
            exact harm
          · refine (hF.edges_eq_zero hk fun hsucc => ?_).symm
            have hlt := hI.blocks _ (hF.wellFormed.successors k hk _ hsucc).1
            omega
      · rfl

theorem phisMatch_form (hF : F.Supported) (h : Planned F rs) : (form F rs).PhisMatch := by
  have hI := hF.issued
  have harm : ∀ (arm : Copy → Nat) (r : Round) (t : Instr TermOp), r ∈ rs →
      (Block.mk (clones arm (allCopies F rs) [] (copiesOf F r)) t).phis = [] := by
    intro arm r t hr
    refine List.eq_nil_iff_forall_not_mem.mpr fun i hi => ?_
    have hphi : i.isPhi = true := List.mem_takeWhile_imp hi
    obtain ⟨done, c, hc, -, rfl⟩ := mem_clones ((List.takeWhile_sublist _).subset hi)
    have hnot := hF.wellFormed.phis r.bb (h.mem r hr) c.old (old_mem hc)
    exact Bool.false_ne_true (hnot.symm.trans hphi)
  intro j hj phi hphi q
  rcases block_cases h hI hj with ⟨r, hr, p, rfl, hblock⟩ | ⟨hj, -, hblock⟩
  · rw [hblock] at hphi
    cases p with
    | head =>
        have hphis := (phis_body_snoc (F.block r.bb) (f := headPhi F rs r.bb) isPhi_headPhi
          (i := (test F r.inst r.checkValue).mapOperands (toPhi (allCopies F rs))) rfl
          (branch r 1 [.inst r.inst, .block (r.block + 2), .block (r.block + 1)])).1
        unfold partBlock at hphi
        rw [hphis] at hphi
        obtain ⟨i, hi, rfl⟩ := List.mem_map.mp hphi
        exact matched_headPhi hF h (h.mem r hr) hi q
    | thenArm =>
        unfold partBlock at hphi
        rw [harm _ _ _ hr] at hphi
        cases hphi
    | elseArm =>
        unfold partBlock at hphi
        rw [harm _ _ _ hr] at hphi
        cases hphi
    | tail =>
        obtain ⟨c, -, hi⟩ := List.mem_filterMap.mp ((List.takeWhile_sublist _).subset hphi)
        obtain ⟨s, -, rfl⟩ := Option.map_eq_some_iff.mp hi
        exact matched_merge hF h hr q
  · rw [hblock, phis_plainBlock] at hphi
    obtain ⟨i, hi, rfl⟩ := List.mem_map.mp hphi
    exact matched_headPhi hF h hj hi q

/-! ## What the pass leaves -/

theorem supported_form (hF : F.Supported) (h : Planned F rs) (hw : Within F rs) :
    (form F rs).Supported where
  wellFormed := wellFormed_form hF.wellFormed hF.issued h
  issued := issued_form hw hF.issued h
  wellTyped := wellTyped_form hF.wellFormed hF.issued h hF.wellTyped
  matched := phisMatch_form hF h
  entry := by
    have hphis := (entered hF.issued h hF.wellFormed.entry_mem).1
    rw [entry_form hF.wellFormed, hphis, hF.entry]
    rfl
  terminators := by
    intro j hj
    rcases block_cases h hF.issued hj with ⟨r, hr, p, -, hblock⟩ | ⟨hj, -, hblock⟩
    · rw [hblock]
      cases p with
      | tail => exact hF.terminators _ (h.mem r hr)
      | _ => exact List.mem_cons_self ..
    · rw [hblock]
      exact hF.terminators j hj
  targets := by
    intro q hq j hj
    have hpos : 0 < (form F rs).edges q j := List.count_pos_iff.mpr hj
    rcases successors_form h hF.issued hq with ⟨r, hr, rfl, hsucc⟩ | ⟨r, hr, harm, hsucc⟩ |
        ⟨k, hk, -, hterm, hsucc⟩ <;> rw [hsucc]
    · have hblock : (form F rs).block (r.handle .head) = partBlock F rs r .head :=
        block_form_some ((h.partAt_eq_some hF.issued).mpr ⟨hr, rfl⟩)
      rw [hblock] at hj
      simp only [partBlock, branch, List.mem_cons, reduceCtorEq, Value.block.injEq,
        List.not_mem_nil, or_false, false_or] at hj
      rcases hj with rfl | rfl <;> simp [Round.handle]
    · have hblock : ((form F rs).block q).term.operands = [.block r.block] := by
        rcases harm with rfl | rfl <;>
          rw [block_form_some ((h.partAt_eq_some hF.issued).mpr ⟨hr, rfl⟩)] <;> rfl
      rw [hblock, List.mem_singleton, Value.block.injEq] at hj
      exact List.mem_singleton.mpr hj
    · rw [hterm] at hj
      obtain ⟨v, hv, heq⟩ := List.mem_map.mp hj
      obtain rfl := (keepsBlocks_rename _ v j).mp heq
      exact hF.targets k hk j hv
  switches := by
    intro q hq hop v hv
    rcases successors_form h hF.issued hq with ⟨r, hr, rfl, -⟩ | ⟨r, hr, harm, -⟩ |
        ⟨k, hk, -, hterm, -⟩
    · rw [block_form_some ((h.partAt_eq_some hF.issued).mpr ⟨hr, rfl⟩)] at hop
      cases hop
    · rcases harm with rfl | rfl <;>
        (rw [block_form_some ((h.partAt_eq_some hF.issued).mpr ⟨hr, rfl⟩)] at hop; cases hop)
    · rw [hterm] at hop hv
      obtain ⟨u, hu, rfl⟩ : ∃ u ∈ (F.block k).term.operands.tail, toPhi (allCopies F rs) u = v :=
        List.mem_map.mp (List.map_tail ▸ hv)
      have hinst := hF.switches k hk hop u hu
      cases u <;> exact hinst

/-- DuplicateBB leaves a function that it can be run on again. -/
theorem supported_duplicateAll (hF : F.Supported) (h : Chosen F ts) :
    (duplicateAll F ts).Supported := by
  rw [duplicateAll_eq hF.wellFormed hF.issued h]
  exact supported_form hF h.planned within_rounds

end LlvmPasses.DuplicateBB
