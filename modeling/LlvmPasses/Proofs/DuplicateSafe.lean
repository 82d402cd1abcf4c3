import LlvmPasses.Proofs.DuplicateOrder
import LlvmPasses.Proofs.DuplicateSim
import LlvmPasses.Proofs.MergeFlags

/-!
# Undefined behaviour of the duplicated function

The form follows the function, with steps of its own where a diamond is entered
and left. It comes to something undefined that the function does not come to in
one case only, when the value that a block tests is no integer: the test then
has no outcome to branch on.

`duplicateAll_defined_iff` is exact. The condition (`Checked`) is on the run of
the original function alone: when control comes to a block that is duplicated,
the value chosen for it is there and is an integer, not poison. If it holds,
the form follows the function to its end, and what it comes to that is
undefined the function comes to as well. If it fails at some moment, the form
is followed to that moment and then shown to take the test and to branch on
what it left (`untested_undefined`).

The simulation allows the form steps of its own. `rank` counts how many of them
are left before it has to take one together with the function: the rest of the
head with its test and branch, and the branch at the end of an arm. So the form
cannot go on alone for ever, and halting agrees too.
-/

namespace LlvmPasses.DuplicateBB

open Ir Ir.Function Table Transition
open MergeBB (emptyWorld)

variable {μ : Type} {W : World μ} {F : Function} {args : List Val} {rs : List Round} {r : Round}
variable {p : Part} {j k : Nat} {m m' : Machine μ} {s t t' : Config μ} {mem : μ}

/-! ## The form follows -/

/-- How many steps of the form may pass before the function takes one. -/
def rank (rs : List Round) : Config μ → Nat
  | .running m => match partAt rs m.block with
    | some (_, .head) => 2 + m.rest.length
    | some (_, .thenArm) | some (_, .elseArm) => 1
    | _ => 0
  | _ => 0

theorem rank_head (hI : Issued F) (h : Planned F rs) (hr : r ∈ rs) (hblock : m.block = r.bb) :
    rank rs (.running m) = 2 + m.rest.length := by
  have hpart : partAt rs m.block = some (r, .head) := (h.partAt_eq_some hI).mpr ⟨hr, hblock.symm⟩
  simp only [rank, hpart]

theorem rank_arm (hI : Issued F) (h : Planned F rs) (hr : r ∈ rs)
    (hp : p = .thenArm ∨ p = .elseArm) (hblock : m.block = r.handle p) :
    rank rs (.running m) = 1 := by
  have hpart : partAt rs m.block = some (r, p) := (h.partAt_eq_some hI).mpr ⟨hr, hblock.symm⟩
  rcases hp with rfl | rfl <;> simp only [rank, hpart]

theorem rank_tail (hI : Issued F) (h : Planned F rs) (hr : r ∈ rs) (hblock : m.block = r.block) :
    rank rs (.running m) = 0 := by
  have hpart : partAt rs m.block = some (r, .tail) := (h.partAt_eq_some hI).mpr ⟨hr, hblock.symm⟩
  simp only [rank, hpart]

/-- What one step of the form is to the function. -/
theorem match_step (hF : F.WellFormed) (hI : Issued F) (h : Planned F rs)
    (hm : Match W F args rs m m') (htested : Tested W F args rs m)
    (ht : step W (form F rs) args (.running m') = some t') :
    (∃ s', step W F args (.running m) = some s' ∧ Along (Match W F args rs) s' t') ∨
      (Along (Match W F args rs) (.running m) t' ∧ rank rs t' < rank rs (.running m')) := by
  cases hm.place with
  | plain hpart hblock hrest hvia =>
      exact .inl (plain_step hF hI h hm hpart hblock hrest hvia ht)
  | head r hr hbb hentry hblock hrest hvia =>
      obtain ⟨n, rfl, hn, hnblock, hnrest⟩ :=
        head_step hI h hm hr hbb hentry hblock hrest hvia (htested r hr hbb hentry) ht
      refine .inr ⟨.on hn, ?_⟩
      rw [rank_head hI h hr hnblock, rank_head hI h hr hblock, hnrest, hrest]
      exact Nat.lt_succ_self _
  | branch r hr hbb hentry hblock hrest hcond htest hvia =>
      obtain ⟨n, p, rfl, hn, hp, hnblock⟩ :=
        branch_step hF hI h hm hr hbb hentry hblock hrest hcond htest hvia ht
      refine .inr ⟨.on hn, ?_⟩
      rw [rank_arm hI h hr hp hnblock, rank_head hI h hr hblock]
      omega
  | arm r hr p hp hbb done todo hcopies hrest hblock hrest' hvia hresults htest =>
      cases todo with
      | nil =>
          rw [List.append_nil] at hcopies
          subst hcopies
          obtain ⟨n, rfl, hn, hnblock⟩ :=
            arm_leave hF hI h hm hr hp hbb hrest hblock hrest' hvia hresults htest ht
          refine .inr ⟨.on hn, ?_⟩
          rw [rank_tail hI h hr hnblock, rank_arm hI h hr hp hblock]
          exact Nat.one_pos
      | cons c todo =>
          rw [step_instr hrest', Option.some.injEq] at ht
          refine .inl ⟨_, step_instr hrest, ?_⟩
          rw [← ht]
          exact arm_instr hF hI h hm hr hp hbb hcopies hrest hblock hvia hresults
  | tail r hr hbb hrest hblock hrest' hvia =>
      exact .inl (tail_step hF hI h hm hr hbb hrest hblock hrest' hvia ht)

/-- The form follows the function for as long as its tests have outcomes. -/
theorem stutters (W : World μ) (args : List Val) (hF : F.WellFormed) (hI : Issued F)
    (h : Planned F rs) :
    Stutters (step W F args) (step W (form F rs) args)
      (fun s => ∀ m, s = .running m → Tested W F args rs m) (rank rs)
      (Along (Match W F args rs)) where
  follow := by
    intro s t t' hst hguard ht
    cases hst with
    | on hm => exact match_step hF hI h hm (hguard _ rfl) ht
    | off hs =>
        obtain rfl := ended_step hs ht
        exact .inl ⟨_, (step_ended hs).trans ht, .off hs⟩
  stop := by
    intro s t hst ht
    cases hst with
    | on hm =>
        obtain ⟨u, hu⟩ := step_running W (form F rs) args ‹_›
        rw [ht] at hu
        cases hu
    | off hs => exact (step_ended hs).trans ht

/-! ## From the start -/

theorem entry_form (hF : F.WellFormed) : (form F rs).entry = F.entry := by
  unfold entry form
  cases ho : F.order with
  | nil => exact absurd ho hF.nonempty
  | cons k ks =>
      rw [List.flatMap_cons]
      unfold placeOf
      split <;> rfl

theorem start_match (hF : F.WellFormed) (hI : Issued F) (h : Planned F rs) :
    Along (Match W F args rs) (start F mem) (start (form F rs) mem) := by
  have hentry : (form F rs).entry = F.entry := entry_form hF
  obtain ⟨-, hbody⟩ := entered hI h hF.entry_mem
  have hvia : ∀ body, Everywhere F rs (⟨F.entry, (F.block F.entry).body, fun _ => none, mem, []⟩)
      (⟨F.entry, body, fun _ => none, mem, []⟩) := fun _ _ _ => rfl
  unfold start
  rw [hentry]
  refine .on ⟨hF.entry_mem, List.suffix_refl _, rfl, rfl, ?_⟩
  rcases hbody with ⟨hpart, hbody⟩ | ⟨r, hr, hbb, hbody⟩
  · exact .plain hpart rfl hbody (hvia _)
  · exact .head r hr hbb.symm (hbb ▸ rfl) hbb.symm hbody (hvia _)

/-! ## A test without outcome -/

/-- A branch on anything but an integer. -/
theorem branch_undefined (hI : Issued F) (h : Planned F rs) (hr : r ∈ rs) (hblock : m.block = r.bb)
    (hrest : m.rest = []) (hcond : m.env r.inst = some .poison) :
    step W (form F rs) args (.running m) = some (.undefined m.trace) := by
  have hpart : partAt rs r.bb = some (r, .head) := (h.partAt_eq_some hI).mpr ⟨hr, rfl⟩
  have htransfer : W.transfer (partBlock F rs r .head).term (eval W args m.env) m.mem =
      .undefined := transfer_condBr_poison rfl rfl hcond
  rw [step_term hrest, hblock, block_form_some hpart]
  unfold execTerm
  rw [htransfer]

/-- The comparison of what is no integer of the type with zero. -/
theorem compare_untestable {w : Nat} {x : Val} (hx : ∀ y : BitVec w, x ≠ .int w y) :
    ICmpPred.apply .eq x (.int w 0) = none ∨
      ICmpPred.apply .eq x (.int w 0) = some .poison := by
  cases x with
  | int w' y =>
      have hne : w ≠ w' := fun heq => hx (heq ▸ y) (by subst heq; rfl)
      exact .inl (dif_neg hne)
  | ptr a => exact .inl rfl
  | poison => exact .inr rfl
  | vec w' lanes => exact .inl rfl
  | other ty bits => exact .inl rfl

theorem head_undefined (hI : Issued F) (h : Planned F rs) (hr : r ∈ rs)
    (hblock : m'.block = r.bb)
    (hrest : m'.rest = [(test F r.inst r.checkValue).mapOperands (toPhi (allCopies F rs))])
    (hvia : Everywhere F rs m m') (hint : ∃ w, F.typeOf r.checkValue = .int w)
    (hnot : ¬ Testable W F args m.env r.checkValue) :
    Reaches (step W (form F rs) args) (.running m') (.undefined m'.trace) := by
  obtain ⟨w, hty⟩ := hint
  have heffect := effect_test W args hvia (h.names r hr) hty
  have hundefined : effect W args m'.env m'.mem
      ((test F r.inst r.checkValue).mapOperands (toPhi (allCopies F rs))) = .undefined →
      Reaches (step W (form F rs) args) (.running m') (.undefined m'.trace) := by
    intro hno
    refine .single ?_
    rw [step_instr hrest]
    unfold execInstr
    rw [hno]
  cases hx : eval W args m.env r.checkValue with
  | none =>
      rw [hx] at heffect
      exact hundefined heffect
  | some x =>
      rw [hx] at heffect
      have hx' : ∀ y : BitVec w, x ≠ .int w y := fun y hy => hnot ⟨w, y, hty, hx.trans (hy ▸ rfl)⟩
      rcases compare_untestable hx' with hno | hpoison
      · exact hundefined (heffect.trans (congrArg (computes m'.mem) hno))
      · have hdone := heffect.trans (congrArg (computes m'.mem) hpoison)
        have hgo : step W (form F rs) args (.running m') =
            some (.running { m' with rest := [], env := m'.env.set r.inst .poison }) :=
          (step_instr hrest).trans (congrArg some (exec_test rfl hdone))
        have hbranch : step W (form F rs) args
            (.running { m' with rest := [], env := m'.env.set r.inst .poison }) =
            some (.undefined m'.trace) :=
          branch_undefined hI h hr hblock rfl (Env.set_self ..)
        exact (Reaches.single hgo).trans (.single hbranch)

/-- Where the function comes to a value that cannot be tested, the form comes to
something undefined. -/
theorem untested_undefined (hI : Issued F) (h : Planned F rs)
    (hint : ∀ r ∈ rs, ∃ w, F.typeOf r.checkValue = .int w)
    (hm : Match W F args rs m m') (hnot : ¬ Tested W F args rs m) :
    Reaches (step W (form F rs) args) (.running m') (.undefined m'.trace) := by
  simp only [Tested, not_forall] at hnot
  obtain ⟨r, hr, hbb, hentry, hnot⟩ := hnot
  have hsame : ∀ r' ∈ rs, m.block = r'.bb → r' = r := fun r' hr' hbb' =>
    key_inj h.nodup hr' hr (hbb'.symm.trans hbb)
  cases hm.place with
  | plain hpart hblock hrest hvia =>
      exact absurd hbb.symm (partAt_eq_none.mp hpart r hr .head)
  | head r' hr' hbb' _ hblock hrest hvia =>
      obtain rfl := hsame r' hr' hbb'
      exact head_undefined hI h hr hblock hrest hvia (hint r' hr) hnot
  | branch r' hr' hbb' _ _ _ _ htest _ =>
      obtain rfl := hsame r' hr' hbb'
      exact absurd htest hnot
  | arm r' hr' p _ hbb' done todo hcopies hrest _ _ _ _ htest =>
      obtain rfl := hsame r' hr' hbb'
      have holds : (done ++ todo).map Copy.old = todo.map Copy.old := by
        rw [← hcopies, ← hrest, hentry]
        exact map_old_copies
      have hdone : done = [] := by
        have hlen := congrArg List.length holds
        rw [List.length_map, List.length_map, List.length_append] at hlen
        exact List.length_eq_zero_iff.mp (by omega)
      exact absurd (htest hdone) hnot
  | tail r' hr' hbb' hrest _ _ _ htest =>
      obtain rfl := hsame r' hr' hbb'
      exact absurd (htest (hentry.symm.trans hrest)) hnot

/-! ## The pass -/

section Pass

variable {ts : List (Nat × Value)}

/-- Whenever control comes to a target, the value checked there is an integer:
neither missing nor poison. -/
def Checked (W : World μ) (F : Function) (args : List Val) (ts : List (Nat × Value)) (mem : μ) :
    Prop :=
  ∀ m, Reaches (step W F args) (start F mem) (.running m) → ∀ t ∈ ts, m.block = t.1 →
    m.rest = (F.block t.1).body → Testable W F args m.env t.2

theorem checked_iff : Checked W F args ts mem ↔
    ∀ m, Reaches (step W F args) (start F mem) (.running m) →
      Tested W F args (rounds F ts) m := by
  refine forall₂_congr fun m _ => ?_
  unfold Tested rounds
  rw [List.forall_mem_map]

/-- The pass introduces undefined behaviour exactly where a value is checked that
is no integer when control comes to the block. -/
theorem duplicateAll_defined_iff {T : RIV.DomTree} (hF : F.WellFormed) (hI : Issued F)
    (hT : T.Describes F) (globals : List Nat) (dist : Nat → Nat)
    (hts : ts.Perm (targets F (RIV.run T F globals) dist)) (hdefined : Defined W F args mem) :
    Defined W (duplicateAll F ts) args mem ↔ Checked W F args ts mem := by
  have hchosen : Chosen F ts := (chosen_targets hF hT globals dist).perm hts.symm
  have hplanned := hchosen.planned
  have hstart : Along (Match W F args (rounds F ts)) (start F mem)
      (start (form F (rounds F ts)) mem) := start_match hF hI hplanned
  have hsim := (stutters W args hF hI hplanned).staggers
  rw [duplicateAll_eq hF hI hchosen, checked_iff]
  constructor
  · intro hform m hm
    by_contra hnot
    have hfails : ¬ ∀ n, Config.running m = .running n → Tested W F args (rounds F ts) n :=
      fun hall => hnot (hall m rfl)
    obtain ⟨u, t', hu, ht', hmatch⟩ := hsim.reaches_failed hstart hm hfails
    cases hmatch with
    | off hs => exact hu fun n hn => absurd hn (hs n)
    | on hmatch =>
        have huntested : ¬ Tested W F args (rounds F ts) _ := fun hall =>
          hu fun n hn => by cases hn; exact hall
        have hint : ∀ r ∈ rounds F ts, ∃ w, F.typeOf r.checkValue = .int w := by
          intro r hr
          obtain ⟨t, ht, rfl⟩ := List.mem_map.mp hr
          obtain ⟨k, -, hq⟩ := List.mem_filterMap.mp (hts.subset ht)
          obtain ⟨w, hty, -⟩ := riv_cases hF hT (entry_some hq).2
          exact ⟨w, hty⟩
        exact hform _ (ht'.trans (untested_undefined hI hplanned hint hmatch huntested))
  · intro hchecked trace hreach
    obtain ⟨s, hs, hmatch⟩ := hsim.reached hstart (fun u hu m hm => hchecked m (hm ▸ hu)) hreach
    rw [hmatch.undefined] at hs
    exact hdefined trace hs

end Pass

/-! ### A poisonous argument -/

theorem duplicateAll_defined_iff_adding :
    Defined emptyWorld (duplicateAll adding [(0, .arg 0), (1, .inst 0)]) [.int 8 7] () ↔
      Checked emptyWorld adding [.int 8 7] [(0, .arg 0), (1, .inst 0)] () :=
  duplicateAll_defined_iff wellFormed_adding issued_adding describes_adding [] (fun _ => 0)
    (by decide) (defined_of_returned ⟨4, rfl⟩)

/-- What is computed from poison is poison, and may be returned; but it is branched on. -/
theorem undefined_introduced :
    ¬ ∀ (F : Function) (T : RIV.DomTree) (globals : List Nat) (dist : Nat → Nat)
      (ts : List (Nat × Value)) (W : World Unit) (args : List Val),
      F.WellFormed → Issued F → T.Describes F →
      ts.Perm (targets F (RIV.run T F globals) dist) → Defined W F args () →
      Defined W (duplicateAll F ts) args () := by
  intro h
  have hdefined := h adding addingTree [] (fun _ => 0) [(0, .arg 0), (1, .inst 0)] emptyWorld
    [.poison] wellFormed_adding issued_adding describes_adding (by decide)
    (defined_of_returned ⟨4, rfl⟩)
  exact hdefined [] ⟨2, rfl⟩

end LlvmPasses.DuplicateBB
