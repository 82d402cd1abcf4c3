import LlvmPasses.Proofs.MergeMeaning

/-!
# What MergeBB leaves is well formed

The results of a block that is deleted were read by the PHI node of the block it
went to, by the entry that is taken when it is deleted. So no operand names what
is gone, and the pass may be run on what it left.

`run_wellFormed` is about the whole run, under the conditions of `run_alike` on
its merges. While the blocks are merged the function stays well formed
(`MergeKept`). Deleting takes a block's results away, so one more invariant is
needed: each result of a block that has been merged away is read by a PHI node
alone, in the block it goes to and by the entry for it (`ReadBy`), and by
nobody else that stays (`Unread`). When the block is deleted that entry goes as
well. The counts of entries are from `MergePhis`.
-/

namespace LlvmPasses.MergeBB

open Ir Ir.Function

section

variable {F G : Function} {s s' : State} {bb bb2 succ k : Nat} {dead deleteList : List Nat}

namespace State

/-- Who reads the result `id` of a block that has been merged away: a PHI node,
where the block goes to, by the entry for it. -/
structure ReadBy (F : Function) (d id k : Nat) (i : Instr Op) : Prop where
  isPhi : i.isPhi = true
  successors : F.successors d = [k]
  takes : i.getIncomingValueForBlock d = some (.inst id)
  once : i.operands.count (.inst id) ≤ 1

/-- Nothing else that stays reads it. -/
structure Unread (F : Function) (deleteList : List Nat) : Prop where
  instrs : ∀ d ∈ deleteList, ∀ id ∈ made F d, ∀ k ∈ F.order, k ∉ deleteList →
    ∀ i ∈ (F.block k).instrs, .inst id ∈ i.operands → ReadBy F d id k i
  term : ∀ d ∈ deleteList, ∀ id ∈ made F d, ∀ k ∈ F.order,
    .inst id ∉ (F.block k).term.operands

theorem Accepted.readBy (h : s.Accepted bb bb2 succ) (hF : s.fn.WellFormed) {id : Nat}
    (hid : id ∈ made s.fn bb) (hk : k ∈ s.fn.order) {i : Instr Op}
    (hi : i ∈ (s.fn.block k).instrs) (hop : .inst id ∈ i.operands) : ReadBy s.fn bb id k i := by
  have huser : (k, some i) ∈ s.fn.users (.inst id) := mem_users.mpr ⟨hk, hi, hop⟩
  obtain ⟨hsucc, phi, hsome, hisPhi, hin⟩ := h.unused hF hid huser
  cases hsome
  have hnames : s.fn.Names (.inst id) :=
    hF.operands k hk _ (List.mem_append_left _ (List.mem_flatMap.mpr ⟨i, hi, hop⟩))
  obtain ⟨d, e, hpaired, rfl⟩ := h.compared hF hnames hid
  have hsucc : k = succ := hsucc
  exact ⟨hisPhi, hsucc ▸ h.successors, hin,
    Nat.le_trans (count_le_users hk hi _) (h.identical d e hpaired).users⟩

/-- A block that goes to one that is not erased still does. -/
theorem Merged.successors_eq (h : Merged s bb bb2 s') {d t : Nat}
    (hd : (s.fn.block d).term.op = .br ∧ (s.fn.block d).term.operands = [.block t])
    (ht : t ≠ bb) : s'.fn.successors d = s.fn.successors d := by
  have hmoved : s.moved bb bb2 d (.block t) = .block t :=
    if_neg fun hand => ht (Value.block.inj hand.2)
  unfold Function.successors
  rw [h.block d, hd.2, List.map_singleton, hmoved, ← hd.2]

theorem Merged.unread (hm : Merged s bb bb2 s') (h : Unread s.fn deleteList)
    (hloop : Loop F s deleteList) (hwf : s.fn.WellFormed) (hacc : s.Accepted bb bb2 succ) :
    Unread s'.fn (deleteList ++ [bb]) := by
  have hmade : ∀ d, made s'.fn d = made s.fn d := fun d => by
    unfold made
    rw [hm.block d]
    rfl
  -- where the erased block and those before it go
  have hgoes : ∀ d ∈ deleteList ++ [bb], ∃ t, (s.fn.block d).term.op = .br ∧
      (s.fn.block d).term.operands = [.block t] := by
    intro d hd
    rcases List.mem_append.mp hd with hd | hd
    · exact (hloop.deleted d hd).2
    · rw [List.mem_singleton.mp hd]
      exact ⟨succ, hacc.term⟩
  refine ⟨fun d hd id hid k hk hout i hi hop => ?_, fun d hd id hid k hk hop => ?_⟩
  · rw [hm.order] at hk
    rw [hmade] at hid
    rw [hm.retargeted.instrs] at hi
    rw [List.mem_append, List.mem_singleton, not_or] at hout
    have hread : ReadBy s.fn d id k i := by
      rcases List.mem_append.mp hd with hd | hd
      · exact h.instrs d hd id hid k hk hout.1 i hi hop
      · obtain rfl := List.mem_singleton.mp hd
        exact hacc.readBy hwf hid hk hi hop
    obtain ⟨t, hbr, ht⟩ := hgoes d hd
    have hsucc : s.fn.successors d = [t] := by
      unfold Function.successors Instr.successors Instr.successorOperands
      rw [hbr, ht]
      rfl
    have htk : t = k := by
      have heq := hsucc.symm.trans hread.successors
      exact (List.cons.inj heq).1
    refine ⟨hread.isPhi, ?_, hread.takes, hread.once⟩
    rw [hm.successors_eq ⟨hbr, ht⟩ (htk ▸ hout.2)]
    exact hread.successors
  · rw [hm.order] at hk
    rw [hmade] at hid
    rw [hm.block k] at hop
    obtain ⟨v, hv, heq⟩ := List.mem_map.mp hop
    have hv' : .inst id ∈ (s.fn.block k).term.operands := by
      unfold moved at heq
      split at heq
      · cases heq
      · exact heq ▸ hv
    rcases List.mem_append.mp hd with hd | hd
    · exact h.term d hd id hid k hk hv'
    · obtain rfl := List.mem_singleton.mp hd
      exact hacc.not_read hwf hid hk hv'

end State

/-! ## After the deletions -/

theorem Deleted.mem_order (h : Deleted F dead G) : k ∈ G.order ↔ k ∈ F.order ∧ k ∉ dead := by
  rw [h.order, List.mem_filter, decide_eq_true_eq]

theorem map_eq_of_forall₂ {α β : Type} {f : α → β} {l l' : List α}
    (h : List.Forall₂ (fun a b => f b = f a) l l') : l'.map f = l.map f := by
  induction h with
  | nil => rfl
  | cons hab _ ih => rw [List.map_cons, List.map_cons, hab, ih]

theorem instrs_eq (b : Block) : b.instrs = b.phis ++ b.body :=
  List.takeWhile_append_dropWhile.symm

theorem Deleted.defs (h : Deleted F dead G) (hstripped : Stripped F G) (hk : k ∈ F.order) :
    (G.block k).defs = (F.block k).defs := by
  have hphis : (G.block k).phis.map (fun i => (i.id, i.ty)) =
      (F.block k).phis.map fun i => (i.id, i.ty) := by
    refine map_eq_of_forall₂ (List.forall₂_iff_zip.mpr ⟨(h.phis k hk).length_eq, fun hab => ?_⟩)
    rw [((List.forall₂_iff_zip.mp (h.phis k hk)).2 hab).id,
      (List.forall₂_iff_zip.mp (hstripped.phis k)).2 hab]
  unfold Block.defs
  rw [instrs_eq, instrs_eq (F.block k), List.map_append, List.map_append, hphis,
    hstripped.body, h.term]

/-- An operand of what is left was one before, and not a result of a deleted block. -/
theorem Deleted.operands (h : Deleted F dead G) (hstripped : Stripped F G) (hF : F.WellFormed)
    (hunread : State.Unread F dead) (hk : k ∈ F.order) (hout : k ∉ dead)
    {v : Value} (hv : v ∈ (G.block k).operands)
    (hnot : ∀ phi phi', Trimmed F k dead phi phi' → phi ∈ (F.block k).phis →
      ∀ p ∈ dead, p ∉ phi'.incoming) :
    v ∈ (F.block k).operands ∧ ∀ d ∈ dead, ∀ id ∈ made F d, v ≠ .inst id := by
  rw [Block.operands, instrs_eq, List.flatMap_append] at hv
  rcases List.mem_append.mp hv with hv | hv
  · rcases List.mem_append.mp hv with hv | hv
    · -- an entry for a block that stays
      obtain ⟨phi', hphi', hv⟩ := List.mem_flatMap.mp hv
      obtain ⟨phi, hphi, htrimmed⟩ := exists_of_forall₂_right (h.phis k hk) hphi'
      have hinstr : phi ∈ (F.block k).instrs := (List.takeWhile_sublist _).subset hphi
      obtain ⟨n, hn⟩ := List.mem_iff_getElem?.mp hv
      obtain ⟨hlt, -⟩ := List.getElem?_eq_some_iff.mp hn
      obtain ⟨p, hp⟩ : ∃ p, phi'.incoming[n]? = some p :=
        ⟨_, List.getElem?_eq_getElem (htrimmed.length ▸ hlt)⟩
      have hstays : p ∉ dead := fun hd =>
        hnot phi phi' htrimmed hphi p hd (List.mem_of_getElem? hp)
      have hentry' : (p, v) ∈ phi'.entries :=
        List.mem_iff_getElem?.mpr ⟨n, List.getElem?_zip_eq_some.mpr ⟨hp, hn⟩⟩
      have hentry : (p, v) ∈ phi.entries := by
        have hmem : (p, v) ∈ phi'.entries.filter fun e => decide (e.1 ∉ dead) :=
          List.mem_filter.mpr ⟨hentry', decide_eq_true hstays⟩
        rw [htrimmed.kept] at hmem
        exact (List.mem_filter.mp hmem).1
      have hop : v ∈ phi.operands := (List.of_mem_zip hentry).2
      refine ⟨List.mem_append_left _ (List.mem_flatMap.mpr ⟨phi, hinstr, hop⟩), ?_⟩
      rintro d hd id hid rfl
      have hread := hunread.instrs d hd id hid k hk hout phi hinstr hop
      have hne : p ≠ d := fun heq => hstays (heq ▸ hd)
      have htwo : 2 ≤ phi.operands.count (.inst id) :=
        two_le_count_of_entries hne hentry (entry_of_incoming hread.takes)
      have honce := hread.once
      omega
    · obtain ⟨i, hi, hv⟩ := List.mem_flatMap.mp hv
      rw [hstripped.body] at hi
      have hinstr : i ∈ (F.block k).instrs := (List.dropWhile_sublist _).subset hi
      refine ⟨List.mem_append_left _ (List.mem_flatMap.mpr ⟨i, hinstr, hv⟩), ?_⟩
      rintro d hd id hid rfl
      have hread := hunread.instrs d hd id hid k hk hout i hinstr hv
      have hphi := hF.phis k hk i hi
      rw [hread.isPhi] at hphi
      cases hphi
  · rw [h.term] at hv
    refine ⟨List.mem_append_right _ hv, ?_⟩
    rintro d hd id hid rfl
    exact hunread.term d hd id hid k hk hv

/-- What the verifier checks of the function that is left. -/
theorem Deleted.wellFormed (h : Deleted F dead G) (hstripped : Stripped F G) (hF : F.WellFormed)
    (hunread : State.Unread F dead) (hentry : F.entry ∉ dead)
    (hnone : ∀ k ∈ F.order, ∀ d ∈ dead, .block d ∉ (F.block k).term.operands)
    (hnot : ∀ k ∈ F.order, k ∉ dead → ∀ phi phi', Trimmed F k dead phi phi' →
      phi ∈ (F.block k).phis → ∀ p ∈ dead, p ∉ phi'.incoming)
    (haddress : ∀ k ∈ F.order, ∀ i ∈ (F.block k).instrs, ∀ j, .block j ∉ i.operands) :
    G.WellFormed where
  nonempty := by
    have hmem := h.mem_order.mpr ⟨hF.entry_mem, hentry⟩
    exact List.ne_nil_of_mem hmem
  nodup := h.order ▸ hF.nodup.filter _
  ids_nodup := by
    have hids : G.defs.map Prod.fst = G.order.flatMap (made F) := by
      rw [ids_eq]
      refine List.flatMap_congr fun k hk => ?_
      rw [h.defs hstripped (h.mem_order.mp hk).1]
    have hnodup := hF.ids_nodup
    rw [ids_eq, List.nodup_flatMap] at hnodup
    rw [hids, List.nodup_flatMap]
    exact ⟨fun k hk => hnodup.1 k (h.mem_order.mp hk).1,
      hnodup.2.sublist (h.order ▸ List.filter_sublist)⟩
  operands := fun k hk v hv => by
    obtain ⟨hk, hout⟩ := h.mem_order.mp hk
    obtain ⟨hv, hown⟩ := h.operands hstripped hF hunread hk hout hv (hnot k hk hout)
    have hnames := hF.operands k hk v hv
    cases v with
    | inst id =>
        obtain ⟨d, hd, hid, hty⟩ := hnames
        obtain ⟨j, hj, hdj⟩ := mem_defs.mp hd
        have hstays : j ∉ dead := fun hmem =>
          hown j hmem d.1 (List.mem_map_of_mem hdj) (congrArg Value.inst hid.symm)
        refine ⟨d, mem_defs.mpr ⟨j, h.mem_order.mpr ⟨hj, hstays⟩, ?_⟩, hid, hty⟩
        rw [h.defs hstripped hj]
        exact hdj
    | arg i =>
        show i < G.params.length
        rw [hstripped.params]
        exact hnames
    | block j =>
        refine h.mem_order.mpr ⟨hnames, fun hd => ?_⟩
        rcases List.mem_append.mp hv with hv | hv
        · obtain ⟨i, hi, hop⟩ := List.mem_flatMap.mp hv
          exact haddress k hk i hi j hop
        · exact hnone k hk j hd hv
    | _ => trivial
  successors := fun k hk j hj => by
    obtain ⟨hk, -⟩ := h.mem_order.mp hk
    rw [h.successors] at hj
    obtain ⟨hmem, hne⟩ := hF.successors k hk j hj
    rw [h.entry hF.nonempty hentry]
    exact ⟨h.mem_order.mpr ⟨hmem, fun hd => hnone k hk j hd (mem_operands_of_successor hj)⟩, hne⟩
  terminators := fun k hk => by
    rw [h.term]
    exact hF.terminators k (h.mem_order.mp hk).1
  debug := fun k hk i hi hdebug => by
    obtain ⟨hk, -⟩ := h.mem_order.mp hk
    rw [instrs_eq] at hi
    rcases List.mem_append.mp hi with hi | hi
    · have hphi : i.isPhi = true := List.mem_takeWhile_imp hi
      unfold Instr.isPhi at hphi
      unfold Instr.isDbgInfoIntrinsic at hdebug
      rw [beq_iff_eq] at hphi hdebug
      rw [hphi] at hdebug
      cases hdebug
    · rw [hstripped.body] at hi
      exact hF.debug k hk i ((List.dropWhile_sublist _).subset hi) hdebug
  phis := fun k hk i hi => by
    rw [hstripped.body] at hi
    exact hF.phis k (h.mem_order.mp hk).1 i hi
  incoming := fun k hk i hi => h.length (h.mem_order.mp hk).1 hi

/-- The pass leaves a function on which it may be run again: it is well formed,
unconditional branches lead to blocks, and the PHI nodes have an entry for each
edge. No instruction may hold the address of a block. `WellFormed` does not ask
that definitions dominate their uses, so nothing is said of that. -/
theorem run_wellFormed (arrange : List Nat → List Nat) (harrange : ∀ l, (arrange l).Perm l)
    (hF : F.WellFormed) (hbranches : F.Branches) (hmatch : F.PhisMatch)
    (haddress : ∀ k ∈ F.order, ∀ i ∈ (F.block k).instrs, ∀ j, .block j ∉ i.operands)
    (hmerges : ∀ m ∈ (State.ofFunction F).merges [] F.order, m.Covered ∧ m.AvoidsPhis) :
    ∃ changed G, run arrange F = .ok (changed, G) ∧ G.WellFormed ∧ G.Branches ∧ G.PhisMatch := by
  obtain ⟨changed, s, deleteList, G, hblocks, hrun, hend⟩ :=
    run_finished arrange harrange hF hbranches hmatch hmerges
  have hperm := harrange deleteList
  have hspec := State.merges_spec F.order (State.ofFunction F) []
    (State.linked_ofFunction hF.nodup) fun _ h => h
  obtain ⟨-, ⟨hwf, hunread⟩, -⟩ := State.mergeBlocks_keeps
    (P := fun s deleteList => s.fn.WellFormed ∧ State.Unread s.fn deleteList)
    (Q := fun m => State.Chosen m.before m.erased m.retained ∧
      m.before.updateBranchTargets m.erased m.retained = .ok m.after)
    (fun hloop hP hacc _ hm hQ =>
      ⟨hm.wellFormed (State.reblocked_walk hQ.2) hP.1 hacc.mem2 hQ.1,
        hm.unread hP.2 hloop hP.1 hacc⟩)
    (State.Loop.start hF hbranches) ⟨hF, ⟨by simp, by simp⟩⟩ (fun _ h => h)
    (fun m hm => ⟨(hspec m hm).1, (hspec m hm).2.2⟩) hblocks
  refine ⟨changed, G, hrun, ?_, fun k hk hbr => ?_,
    (phisKept_of_deleted hF hend.loop hend.fits (.refl _) hend.deleted).matched⟩
  · refine hend.deleted.wellFormed hend.stripped hwf ⟨?_, ?_⟩ hend.entry hend.unnamed
      (fun k hk hout phi phi' htrimmed hphi =>
        not_mem_incoming hend.loop hend.fits (.refl _) hk hout hphi htrimmed) ?_
    · intro d hd id hid k hk hout
      exact hunread.instrs d (hperm.mem_iff.mp hd) id hid k hk fun hmem =>
        hout (hperm.mem_iff.mpr hmem)
    · exact fun d hd => hunread.term d (hperm.mem_iff.mp hd)
    · intro k hk i hi
      rw [hend.loop.order] at hk
      rw [hend.loop.retargeted.instrs] at hi
      exact haddress k hk i hi
  · rw [hend.deleted.term] at hbr ⊢
    exact hend.loop.branches k (hend.deleted.mem_order.mp hk).1 hbr

end

theorem run_wellFormed_foo : ∃ changed G, run id foo = .ok (changed, G) ∧ G.WellFormed ∧
    G.Branches ∧ G.PhisMatch :=
  run_wellFormed id (fun _ => .refl _) wellFormed_foo branches_foo (by decide)
    (by
      intro k hk i hi j
      simp only [foo, List.mem_cons, List.not_mem_nil, or_false] at hk
      rcases hk with rfl | rfl | rfl | rfl <;> simp_all [foo])
    (by decide)

end LlvmPasses.MergeBB
