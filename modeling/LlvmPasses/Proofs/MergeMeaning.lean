import LlvmPasses.Proofs.MergeSim

/-!
# MergeBB preserves the meaning of functions

A merge that is covered and brings no edge to a PHI node preserves the meaning,
one merge after the other, as long as nothing that is computed can become
anything else: where the flags of the pairs are the same, or where no flags add
poison and there is none. Nothing leads to a block that is deleted then, and the
entries that the deletions take are for these blocks.

`run_alike` is about whole runs of the pass. The induction is over its merges,
and between two of them the function is well formed and fits its PHI nodes. One
merge preserves the meaning by the simulation of `MergeSim` where the erased
block is reached, and trivially where it is not (`Merged.alike`). At the end
the blocks on the list are deleted, to which nothing leads (`Deleted.alike`).

What a merge may change is the poison of a value. So the theorem has two cases.
Where the flags of every pair are the same, nothing changes
(`matches_of_sameFlags`). Otherwise those that stay must add no poison and the
run of the original must compute none: then each value that is refined is the
same (`matches_of_addsNoPoison`), and this is handed on from merge to merge
along with the run.
-/

namespace LlvmPasses.MergeBB

open Ir Ir.Function Transition

/-! ## What deletions leave -/

/-- Nothing has changed but entries of PHI nodes, and which blocks are there. -/
structure Stripped (F F' : Function) : Prop where
  params : F'.params = F.params
  body : ∀ k, (F'.block k).body = (F.block k).body
  phis : ∀ k, List.Forall₂ (fun phi phi' : Instr Op => phi'.ty = phi.ty) (F.block k).phis
    (F'.block k).phis

theorem Stripped.refl (F : Function) : Stripped F F :=
  ⟨rfl, fun _ => rfl, fun _ => List.forall₂_same.mpr fun _ _ => rfl⟩

theorem Stripped.trans {F F' F'' : Function} (h : Stripped F F') (h' : Stripped F' F'') :
    Stripped F F'' :=
  ⟨h'.params.trans h.params, fun k => (h'.body k).trans (h.body k),
    fun k => forall₂_comp (fun _ _ _ hab hbc => hbc.trans hab) (h.phis k) (h'.phis k)⟩

theorem stripped_foldlM {f : Function → Nat → Except Stop Function}
    (hf : ∀ {F F' k}, f F k = .ok F' → Stripped F F') {ks : List Nat} :
    ∀ {F F' : Function}, ks.foldlM f F = .ok F' → Stripped F F' := by
  induction ks with
  | nil =>
      intro F F' h
      cases h
      exact .refl F
  | cons k ks ih =>
      intro F F' h
      obtain ⟨G, hG, h⟩ := bind_eq_ok h
      exact (hf hG).trans (ih h)

theorem body_append (b : Block) {phis : List (Instr Op)} (h : ∀ i ∈ phis, i.isPhi = true) :
    (phis ++ b.body).dropWhile Instr.isPhi = b.body := by
  have hsplit := List.takeWhile_append_dropWhile (p := Instr.isPhi) (l := phis ++ b.body)
  rw [phis_append_body b h] at hsplit
  exact List.append_cancel_left hsplit

theorem removePredecessor_stripped {F F' : Function} {k pred : Nat}
    (h : removePredecessor F k pred = .ok F') : Stripped F F' := by
  obtain ⟨phis, hphis, heq⟩ := bind_eq_ok h
  cases heq
  have hsame : List.Forall₂ (fun phi phi' : Instr Op => phi'.ty = phi.ty ∧ phi'.op = phi.op)
      (F.block k).phis phis := by
    refine (forall₂_of_mapM hphis).imp fun phi phi' hphi => ?_
    unfold removeIncomingValue at hphi
    split at hphi
    · cases hphi
    · cases hphi
      exact ⟨rfl, rfl⟩
  have hisPhi : ∀ i ∈ phis, i.isPhi = true := by
    intro i hi
    obtain ⟨j, hj, -, hop⟩ := exists_of_forall₂_right hsame hi
    have hphi : j.isPhi = true := List.mem_takeWhile_imp hj
    unfold Instr.isPhi at hphi ⊢
    rw [hop, hphi]
  have hblock : ∀ j, (F.setBlock k { F.block k with instrs := phis ++ (F.block k).body }).block j =
      if j = k then { F.block k with instrs := phis ++ (F.block k).body } else F.block j :=
    fun _ => rfl
  refine ⟨rfl, fun j => ?_, fun j => ?_⟩
  · rw [hblock]
    split
    · next hj =>
        rw [hj]
        exact body_append _ hisPhi
    · rfl
  · rw [hblock]
    split
    · next hj =>
        rw [hj]
        show List.Forall₂ _ _ ((phis ++ (F.block k).body).takeWhile Instr.isPhi)
        rw [phis_append_body _ hisPhi]
        exact hsame.imp fun _ _ h => h.1
    · exact List.forall₂_same.mpr fun _ _ => rfl

theorem deleteDeadBlock_stripped {F F' : Function} {k : Nat}
    (h : deleteDeadBlock F k = .ok F') : Stripped F F' := by
  obtain ⟨G, hG, heq⟩ := bind_eq_ok h
  cases heq
  have hstripped := stripped_foldlM (fun h => removePredecessor_stripped h) hG
  exact ⟨hstripped.params, hstripped.body, hstripped.phis⟩

section

variable {μ : Type} {W : World μ} {args : List Val} {A : Val → Val → Prop} {F G : Function}
variable {s s' : State} {bb bb2 succ k p : Nat} {dead deleteList : List Nat} {mem : μ}

/-- The entries for a block that stays are those that there were. -/
theorem Trimmed.incoming_eq {phi phi' : Instr Op} (h : Trimmed F k dead phi phi') (hp : p ∉ dead) :
    phi'.getIncomingValueForBlock p = phi.getIncomingValueForBlock p := by
  have hfind : ∀ es : List (Nat × Value), es.find? (fun e => e.1 == p) =
      (es.filter fun e => decide (e.1 ∉ dead)).find? fun e => e.1 == p := by
    intro es
    rw [List.find?_filter]
    congr 1
    funext e
    by_cases he : e.1 = p
    · simp [he, hp]
    · simp [he]
  unfold Instr.getIncomingValueForBlock
  show Option.map _ (phi'.entries.find? _) = Option.map _ (phi.entries.find? _)
  rw [hfind, hfind phi.entries, h.kept]

theorem Deleted.entry (h : Deleted F dead G) (hF : F.order ≠ []) (hentry : F.entry ∉ dead) :
    G.entry = F.entry := by
  unfold Function.entry at hentry ⊢
  rw [h.order]
  cases ho : F.order with
  | nil => exact absurd ho hF
  | cons j js =>
      rw [ho] at hentry
      rw [List.filter_cons_of_pos (by simpa using hentry)]
      rfl

/-- Nothing leads to the deleted blocks. -/
theorem Deleted.alike (h : Deleted F dead G) (hstripped : Stripped F G) (hF : F.WellFormed)
    (hentry : F.entry ∉ dead) (hnone : ∀ k ∈ F.order, ∀ d ∈ dead, d ∉ F.successors k) :
    Alike W F G args mem := by
  have hentry' := h.entry hF.nonempty hentry
  have hstart : start F mem = start G mem := by
    unfold start
    rw [hentry', hstripped.body]
  -- control is never in a deleted block
  have hstays : ∀ m, Reaches (Ir.step W F args) (start F mem) (.running m) → m.block ∉ dead := by
    intro m hm
    have hboth := hm.induction (P := fun c => ∀ m, c = .running m →
      m.block ∈ F.order ∧ m.block ∉ dead) ?_ ?_ m rfl
    · exact hboth.2
    · rintro _ ⟨⟩
      exact ⟨hF.entry_mem, hentry⟩
    · rintro c c' hc hstep n rfl
      cases c with
      | running m =>
          obtain ⟨hmem, hout⟩ := hc m rfl
          rcases step_block hstep with hsame | hsucc
          · rw [hsame]
            exact ⟨hmem, hout⟩
          · exact ⟨(hF.successors _ hmem _ hsucc).1, fun hd => hnone _ hmem _ hd hsucc⟩
      | _ => cases hstep
  refine alike_of_steps hstart fun m hm => step_congr (h.term _) fun k hk n hn => ?_
  have hblock := (inside_of_reaches hF hm).block
  have hread : ∀ env, readPhis (eval W args n.env) n.block (G.block k).phis env =
      readPhis (eval W args n.env) n.block (F.block k).phis env := by
    refine readPhis_congr (List.forall₂_iff_zip.mpr ⟨(hstripped.phis k).length_eq, fun hab => ?_⟩)
    have htrimmed := (List.forall₂_iff_zip.mp
      (h.phis k (hF.successors _ hblock k hk).1)).2 hab
    refine ⟨htrimmed.id, (List.forall₂_iff_zip.mp (hstripped.phis k)).2 hab, ?_⟩
    exact htrimmed.incoming_eq (hn ▸ hstays m hm)
  unfold enter
  rw [hread, hstripped.body]

/-! ## One merge -/

/-- The pairs of a merge do the same up to `A`. -/
def Merge.Matches (W : World μ) (args : List Val) (A : Val → Val → Prop) (m : Merge) : Prop :=
  ∀ i j, State.Paired m.before.fn m.erased m.retained i j → ∀ env env' : Env,
    (∀ id, .inst id ∈ i.operands → env id = env' id) → ∀ mem,
    Effects A i.ty mem (effect W args env mem i) (effect W args env' mem j)

/-- What is asked of every merge of a run. -/
structure Merge.Preserves (W : World μ) (args : List Val) (A : Val → Val → Prop) (m : Merge) :
    Prop where
  covered : m.Covered
  avoids : m.AvoidsPhis
  matched : m.Matches W args A
  chosen : State.Chosen m.before m.erased m.retained
  updated : m.before.updateBranchTargets m.erased m.retained = .ok m.after

namespace State

/-- A block that nothing leads to is erased. -/
theorem Merged.same_steps (h : Merged s bb bb2 s') (hs : s.Linked) (hF : s.fn.WellFormed)
    (hnone : s.predecessors bb = []) : start s.fn mem = start s'.fn mem ∧
      ∀ m, Reaches (Ir.step W s.fn args) (start s.fn mem) (.running m) →
        Ir.step W s'.fn args (.running m) = Ir.step W s.fn args (.running m) := by
  have hbody : ∀ k, (s'.fn.block k).body = (s.fn.block k).body := fun k => by
    unfold Block.body
    rw [h.retargeted.instrs]
  refine ⟨?_, fun m hm => step_congr ?_ fun k hk n hn => ?_⟩
  · unfold start Function.entry
    rw [h.order, hbody]
  · have hblock := (inside_of_reaches hF hm).block
    rw [h.block m.block]
    have hsame : (s.fn.block m.block).term.operands.map (s.moved bb bb2 m.block) =
        (s.fn.block m.block).term.operands := by
      refine (List.map_congr_left fun v hv => ?_).trans (List.map_id _)
      refine if_neg fun hand => ?_
      have hpred := mem_predecessors_of_operand hs hblock (hand.2 ▸ hv)
      rw [hnone] at hpred
      cases hpred
    rw [hsame]
  · unfold enter
    rw [h.retargeted.phis, hbody]

theorem Merged.alike (h : Merged s bb bb2 s') (hF : F.WellFormed) (hloop : Loop F s deleteList)
    (hwf : s.fn.WellFormed) (hacc : s.Accepted bb bb2 succ) (hfn : Reblocked s.fn s'.fn)
    (hchosen : Chosen s bb bb2) (hcovered : Merge.Covered ⟨s, bb, bb2, s'⟩)
    (havoids : Merge.AvoidsPhis ⟨s, bb, bb2, s'⟩) (hA : ∀ v, A v v)
    (hmatches : Merge.Matches W args A ⟨s, bb, bb2, s'⟩) (hsharp : SharpRun W args A s.fn mem) :
    Alike W s.fn s'.fn args mem ∧ SharpRun W args A s'.fn mem := by
  rcases havoids with hnone | hphis2
  · obtain ⟨hstart, hsteps⟩ := h.same_steps hloop.linked hwf hnone
    exact ⟨alike_of_steps hstart hsteps,
      fun m hm => hsharp m (reached_of_steps hstart hsteps hm)⟩
  · have hphis : (s.fn.block bb).phis = [] := by
      refine List.eq_nil_iff_forall_not_mem.mpr fun phi hphi => ?_
      obtain ⟨phi2, hphi2⟩ := hloop.phis_retained hF hacc hphi
      have hnil : (s.fn.block bb2).phis = [] := hphis2
      rw [hnil] at hphi2
      cases hphi2
    have hone : OneMerge W args A s s'.fn bb bb2 succ := ⟨hwf, hacc,
      h.ledOn hfn hloop.linked hchosen hcovered, hphis, hphis2, hA, hmatches⟩
    exact hone.alike hchosen hsharp

/-! ## The loop -/

theorem mergeBlocks_alike (hF : F.WellFormed) (hbranches : F.Branches) (hA : ∀ v, A v v)
    (hmerges : ∀ m ∈ (ofFunction F).merges [] F.order, Merge.Preserves W args A m)
    (hsharp : SharpRun W args A F mem) {changed : Bool}
    (h : (ofFunction F).mergeBlocks [] false F.order = .ok (changed, s, deleteList)) :
    s.fn.WellFormed ∧ Alike W F s.fn args mem := by
  have hstep : ∀ {s s' : State} {deleteList : List Nat} {bb bb2 succ : Nat},
      Loop F s deleteList →
      s.fn.WellFormed ∧ Alike W F s.fn args mem ∧ SharpRun W args A s.fn mem →
      s.Accepted bb bb2 succ → bb2 ∉ deleteList → Merged s bb bb2 s' →
      Merge.Preserves W args A ⟨s, bb, bb2, s'⟩ →
      s'.fn.WellFormed ∧ Alike W F s'.fn args mem ∧ SharpRun W args A s'.fn mem := by
    rintro s s' deleteList bb bb2 succ hloop ⟨hwf, halike, hsharp⟩ hacc - hm hQ
    have hfn : Reblocked s.fn s'.fn := reblocked_walk hQ.updated
    obtain ⟨hnext, hsharp'⟩ := hm.alike hF hloop hwf hacc hfn hQ.chosen hQ.covered hQ.avoids hA
      hQ.matched hsharp
    exact ⟨hm.wellFormed hfn hwf hacc.mem2 hQ.chosen, halike.trans hnext, hsharp'⟩
  obtain ⟨-, ⟨hwf, halike, -⟩, -⟩ := mergeBlocks_keeps hstep (Loop.start hF hbranches)
    ⟨hF, .refl W F args mem, hsharp⟩ (fun _ h => h) hmerges h
  exact ⟨hwf, halike⟩

end State

/-! ## The pass -/

/-- The loop has come to `s`, and the deletions have left `G`. -/
structure Finished (F : Function) (s : State) (dead : List Nat) (G : Function) : Prop where
  loop : s.Loop F dead
  fits : s.Fits dead
  deleted : Deleted s.fn dead G
  stripped : Stripped s.fn G
  entry : s.fn.entry ∉ dead
  unnamed : ∀ k ∈ s.fn.order, ∀ d ∈ dead, .block d ∉ (s.fn.block k).term.operands

theorem Loop.perm (h : s.Loop F deleteList) (hdead : dead.Perm deleteList) : s.Loop F dead where
  linked := h.linked
  order := h.order
  retargeted := h.retargeted
  named := h.named
  branches := h.branches
  deleted := fun d hd => h.deleted d (hdead.mem_iff.mp hd)

theorem Fits.perm (h : s.Fits deleteList) (hdead : dead.Perm deleteList) : s.Fits dead where
  covered := h.covered
  matched := fun k hk hout => h.matched k hk fun hd => hout (hdead.mem_iff.mpr hd)

/-- The pass comes to its end. -/
theorem run_finished (arrange : List Nat → List Nat) (harrange : ∀ l, (arrange l).Perm l)
    (hF : F.WellFormed) (hbranches : F.Branches) (hmatch : F.PhisMatch)
    (hmerges : ∀ m ∈ (State.ofFunction F).merges [] F.order, m.Covered ∧ m.AvoidsPhis) :
    ∃ changed s deleteList G, (State.ofFunction F).mergeBlocks [] false F.order =
        .ok (changed, s, deleteList) ∧ run arrange F = .ok (changed, G) ∧
      Finished F s (arrange deleteList) G := by
  have hlinked := State.linked_ofFunction hF.nodup
  obtain ⟨⟨c, s, deleteList⟩, hblocks⟩ :
      Returns ((State.ofFunction F).mergeBlocks [] false F.order) :=
    State.mergeBlocks_returns hF (State.Loop.start hF hbranches) (State.Fits.start hmatch)
      (fun _ h => h) fun m hm => (hmerges m hm).2
  obtain ⟨hloop, hfits, hsub⟩ := State.mergeBlocks_keeps (P := State.Fits) (Q := Merge.AvoidsPhis)
    (fun hloop hfits hacc _ hm havoids => hfits.merge hloop.linked hacc.ne hm havoids)
    (State.Loop.start hF hbranches) (State.Fits.start hmatch) (fun _ h => h)
    (fun m hm => (hmerges m hm).2) hblocks
  have hperm := harrange deleteList
  replace hloop := Loop.perm hloop hperm
  replace hfits := Fits.perm hfits hperm
  have hnodup : s.fn.order.Nodup := hloop.order ▸ hF.nodup
  have hapart : ([] ++ arrange deleteList).Nodup := hperm.nodup_iff.mpr (hF.nodup.sublist hsub)
  have hsucc : ∀ d ∈ arrange deleteList, ∃ t ∈ s.fn.order, s.fn.successors d = [t] := by
    intro d hd
    obtain ⟨t, ht, hsucc, -⟩ := hloop.successors hd
    exact ⟨t, ht, hsucc⟩
  have hentries : ∀ d ∈ arrange deleteList, ∀ t, s.fn.successors d = [t] →
      ∀ phi ∈ (s.fn.block t).phis, d ∈ phi.incoming := by
    intro d hd t ht phi hphi
    obtain ⟨t', ht', hsucc', hedges⟩ := hloop.successors hd
    rw [ht] at hsucc'
    cases hsucc'
    have hle := hfits.covered t ht' phi hphi d (hloop.deleted d hd).1
    rw [hedges, if_pos rfl] at hle
    exact List.count_pos_iff.mp hle
  have hnothing : Deleted s.fn [] s.fn := .refl fun k hk phi => hloop.length hF hk
  obtain ⟨G, hdelete⟩ := hnothing.returns hnodup hsucc hapart hentries
  obtain ⟨hdeleted, -⟩ := hnothing.run hnodup hsucc hapart hdelete
  have hstripped := stripped_foldlM (fun h => deleteDeadBlock_stripped h) hdelete
  refine ⟨c, s, deleteList, G, hblocks, ?_, hloop, hfits, hdeleted, hstripped, fun hd => ?_,
    fun k hk d hd hop => ?_⟩
  · unfold run
    rw [hblocks]
    have hdelete : (arrange deleteList).foldlM deleteDeadBlock s.fn = .ok G := hdelete
    simp only [bind, Except.bind, hdelete]
    rfl
  · have hsurvives := (State.mergeBlocks_survives hF.nodup (List.prefix_refl _) hblocks).1
    have hentry := hsurvives.entry _ (hperm.mem_iff.mp hd)
    have heq : s.fn.entry = F.entry := by
      unfold Function.entry
      rw [hloop.order]
    rw [heq, (State.isEntryBlock_iff hF.nonempty).mpr rfl] at hentry
    cases hentry
  · -- every merge leads all the edges on
    have hredirects := (State.merges_redirect_iff F.order (State.ofFunction F) [] hlinked).mpr
      fun m hm => (hmerges m hm).1
    have hnames := State.mergeBlocks_noneNames F.order (State.ofFunction F) [] false hlinked
      (fun _ _ _ _ hk => (List.not_mem_nil hk).elim) hredirects c s deleteList hblocks
    obtain ⟨i, hi⟩ := List.mem_iff_getElem?.mp hop
    exact hnames k hk i d (hperm.mem_iff.mp hd) hi

/-- The flags of the pairs are the same. -/
def Merge.SameFlags (m : Merge) : Prop :=
  ∀ i j, State.Paired m.before.fn m.erased m.retained i j → i.flags = j.flags

theorem paired_iff {i j : Instr Op} : State.Paired F bb bb2 i j ↔
    (i, j) ∈ (State.reverseNonDbg (F.block bb)).zip (State.reverseNonDbg (F.block bb2)) := by
  rw [List.mem_iff_getElem?]
  refine exists_congr fun n => ?_
  rw [List.getElem?_zip_eq_some]

instance (m : Merge) : Decidable m.SameFlags :=
  decidable_of_iff (∀ p ∈ (State.reverseNonDbg (m.before.fn.block m.erased)).zip
      (State.reverseNonDbg (m.before.fn.block m.retained)), p.1.flags = p.2.flags)
    ⟨fun h i j hp => h (i, j) (paired_iff.mp hp), fun h p hp => h p.1 p.2 (paired_iff.mpr hp)⟩

/-- Nothing that the function computes is poison, nor a lane of it. -/
def NoPoison (W : World μ) (F : Function) (args : List Val) (mem : μ) : Prop :=
  ∀ m, Reaches (step W F args) (start F mem) (.running m) →
    ∀ id v, m.env id = some v → v.hasPoison = false

theorem matches_of_sameFlags {m : Merge}
    (hacc : m.before.Accepted m.erased m.retained succ) (h : m.SameFlags) :
    m.Matches W args Eq := by
  intro i j hp env env' henv mem
  have hident := hacc.identical i j hp
  rcases effect_of_same W args ⟨hident.op, hident.ty, hident.operands⟩ henv mem with
    heq | ⟨vals, hi, hj, -⟩
  · exact .inl heq
  · rw [hi, hj, h i j hp]
    exact .inl rfl

theorem matches_of_addsNoPoison {m : Merge}
    (hacc : m.before.Accepted m.erased m.retained succ)
    (h : AddsNoPoison m.before.fn m.erased m.retained) :
    m.Matches W args Val.RefinedBy := by
  intro i j hp env env' henv mem
  have hident := hacc.identical i j hp
  have hsame : Same i j := ⟨hident.op, hident.ty, hident.operands⟩
  exact effects_covered hsame ((flagsCover_iff hsame).mpr (h.instrs i j hp)) henv mem

/-- The pass preserves the meaning of the function, on whatever it is run, as
long as every merge is covered and brings no edge to a PHI node. Only the flags
of a block that goes can make a difference: they do not where they are the same,
or where those that stay add no poison and there is none. -/
theorem run_alike (arrange : List Nat → List Nat) (harrange : ∀ l, (arrange l).Perm l)
    (hF : F.WellFormed) (hbranches : F.Branches) (hmatch : F.PhisMatch)
    (hmerges : ∀ m ∈ (State.ofFunction F).merges [] F.order, m.Covered ∧ m.AvoidsPhis) :
    ∃ changed G, run arrange F = .ok (changed, G) ∧ PhisKept F G ∧
      ∀ {μ : Type} (W : World μ) (args : List Val) (mem : μ),
        (∀ m ∈ (State.ofFunction F).merges [] F.order, m.SameFlags) ∨
          (∀ m ∈ (State.ofFunction F).merges [] F.order,
            AddsNoPoison m.before.fn m.erased m.retained) ∧ NoPoison W F args mem →
        Alike W F G args mem := by
  obtain ⟨changed, s, deleteList, G, hblocks, hrun, hend⟩ :=
    run_finished arrange harrange hF hbranches hmatch hmerges
  refine ⟨changed, G, hrun, phisKept_of_deleted hF hend.loop hend.fits (.refl _) hend.deleted,
    fun {μ} W args mem hflags => ?_⟩
  have hspec := State.merges_spec F.order (State.ofFunction F) []
    (State.linked_ofFunction hF.nodup) fun _ h => h
  -- up to what the results of the pairs are the same
  obtain ⟨A, hA, hmatched, hsharp⟩ : ∃ A : Val → Val → Prop, (∀ v, A v v) ∧
      (∀ m ∈ (State.ofFunction F).merges [] F.order, m.Matches W args A) ∧
      State.SharpRun W args A F mem := by
    rcases hflags with hsame | ⟨hadds, hclean⟩
    · refine ⟨Eq, fun _ => rfl, fun m hm => ?_, fun _ _ _ v _ v' heq => heq.symm⟩
      obtain ⟨-, ⟨succ, hacc⟩, -⟩ := hspec m hm
      exact matches_of_sameFlags hacc (hsame m hm)
    · refine ⟨Val.RefinedBy, .refl, fun m hm => ?_, fun m hm id v hv v' hrel =>
        hrel.eq_of_whole (hclean m hm id v hv)⟩
      obtain ⟨-, ⟨succ, hacc⟩, -⟩ := hspec m hm
      exact matches_of_addsNoPoison hacc (hadds m hm)
  obtain ⟨hwf, halike⟩ := State.mergeBlocks_alike hF hbranches hA (fun m hm =>
    ⟨(hmerges m hm).1, (hmerges m hm).2, hmatched m hm, (hspec m hm).1, (hspec m hm).2.2⟩)
    hsharp hblocks
  exact halike.trans (hend.deleted.alike hend.stripped hwf hend.entry fun k hk d hd hsucc =>
    hend.unnamed k hk d hd (mem_operands_of_successor hsucc))

end

theorem run_alike_foo : ∃ changed G, run id foo = .ok (changed, G) ∧ PhisKept foo G ∧
    ∀ {μ : Type} (W : World μ) (args : List Val) (mem : μ), Alike W foo G args mem := by
  obtain ⟨changed, G, hrun, hkept, halike⟩ :=
    run_alike id (fun _ => .refl _) wellFormed_foo branches_foo (by decide) (by decide)
  exact ⟨changed, G, hrun, hkept, fun W args mem => halike W args mem (.inl (by decide))⟩

end LlvmPasses.MergeBB
