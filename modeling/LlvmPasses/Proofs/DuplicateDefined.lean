import LlvmPasses.Proofs.DefinedValues
import LlvmPasses.Proofs.DuplicateSupported

/-!
# DuplicateBB computes nothing that is poison

The clones compute what was copied, the PHI nodes of a tail take over what an
arm has computed, and a test compares an integer. So every value in a run of the
form is defined where those in the run of the function are.

`behaves_duplicateAll` is the pass's part in running transformations one after
the other: on a function that is supported and behaves, what the pass leaves
behaves too and does the same. The step lemma is `defined_step`, with a case
for each part of a duplicated block and for the blocks that are left as they
were. It uses the simulation of `DuplicateSim`, in which the machine on the
form is always beside one on the function: each value it holds is a copy of one
that is there, or the outcome of a test. A test of a defined integer has an
outcome, so nothing undefined is reached either (`checked_of_defined`).
-/

namespace LlvmPasses.DuplicateBB

open Ir Ir.Function Table Transition

variable {μ : Type} {W : World μ} {F : Function} {args : List Val} {rs : List Round} {r : Round}
variable {p : Part} {k : Nat} {m m' n n' : Machine μ} {mem : μ} {ts : List (Nat × Value)}

/-! ## Steps of the form -/

/-- An instruction and its counterpart on other names. -/
theorem defined_named {ρ : Nat → Nat} {i : Instr Op} {j : Nat} {rest rest' : List (Instr Op)}
    (hF : F.WellFormed) (hk : k ∈ F.order) (hi : i ∈ (F.block k).body) (hmem : m'.mem = m.mem)
    (hvia : Env.Via ρ (Named F) m.env m'.env)
    (hgo : execInstr W args m i rest = .running n) (hn : n.env.Defined)
    (hgo' : execInstr W args m' { i.mapOperands (Value.rename ρ) with id := j } rest' = .running n')
    (hm' : m'.env.Defined) : n'.env.Defined := by
  refine defined_instr ?_ hgo hn hgo' hm'
  rw [hmem]
  exact effect_rename hvia (named_operands hF hk hi)

/-- The terminator of a block, wherever the form has it. -/
theorem defined_term (hF : F.WellFormed) (hI : Issued F) (h : Planned F rs)
    (hinvoke : ∀ k ∈ F.order, (F.block k).term.op ≠ .invoke) (hk : m.block ∈ F.order)
    (hblock : ∀ j ∈ F.successors m.block, m'.block = tailOf F rs j m.block)
    (hmem : m'.mem = m.mem) (hvia : Everywhere F rs m m')
    (hgo : execTerm W F args m (F.block m.block).term = .running n) (hn : n.env.Defined)
    (hgo' : execTerm W (form F rs) args m'
      ((F.block m.block).term.mapOperands (toPhi (allCopies F rs))) = .running n')
    (hm' : m'.env.Defined) : n'.env.Defined := by
  have htransfer : W.transfer ((F.block m.block).term.mapOperands (toPhi (allCopies F rs)))
      (eval W args m'.env) m'.mem =
        W.transfer (F.block m.block).term (eval W args m.env) m.mem := by
    rw [hmem]
    refine transfer_rename fun v hv => hvia.eval fun id hid => ?_
    have hname := hF.operands _ hk v (List.mem_append_right _ hv)
    rwa [hid] at hname
  obtain ⟨j, mem, events, hgoto, henter⟩ := execTerm_running (hinvoke _ hk) hgo
  obtain ⟨j', mem', events', hgoto', henter'⟩ := execTerm_running
    (t := (F.block m.block).term.mapOperands (toPhi (allCopies F rs))) (hinvoke _ hk) hgo'
  rw [htransfer, hgoto] at hgoto'
  cases hgoto'
  have hsucc : j ∈ F.successors m.block := transfer_goto hgoto
  have hj : j ∈ F.order := (hF.successors _ hk j hsucc).1
  refine defined_enter hF hj (entered hI h hj).1 (fun phi hphi v hv => ?_) henter hn henter' hm'
  show ((headPhi F rs j phi).getIncomingValueForBlock m'.block).bind (eval W args m'.env) = some v
  rw [hblock j hsucc, getIncoming_headPhi hI h hj hphi (hI.blocks _ hk)]
  obtain ⟨u, hu, hv⟩ := Option.bind_eq_some_iff.mp hv
  have hu : phi.getIncomingValueForBlock m.block = some u := hu
  have hname : F.Names u := hF.operands j hj u (List.mem_append_left _
    (List.mem_flatMap.mpr ⟨phi, (List.takeWhile_sublist _).subset hphi, incoming_mem hu⟩))
  rw [hu]
  refine (hvia.eval fun id hid => ?_).trans hv
  rwa [hid] at hname

/-- The branch to an arm computes nothing. -/
theorem defined_branch (hF : F.WellFormed) (hI : Issued F) (h : Planned F rs) (hr : r ∈ rs)
    (hblock : m'.block = r.bb) (hrest : m'.rest = [])
    (hcond : ∃ b : BitVec 1, m'.env r.inst = some (.int 1 b))
    (hgo' : step W (form F rs) args (.running m') = some (.running n')) (hm' : m'.env.Defined) :
    n'.env.Defined := by
  obtain ⟨b, hb⟩ := hcond
  have hpart : partAt rs r.bb = some (r, .head) := (h.partAt_eq_some hI).mpr ⟨hr, rfl⟩
  rw [step_term hrest, hblock, block_form_some hpart, Option.some.injEq] at hgo'
  have htransfer : W.transfer (partBlock F rs r .head).term (eval W args m'.env) m'.mem =
      .goto (if b.toNat = 0 then r.block + 2 else r.block + 1) none m'.mem [] :=
    transfer_condBr rfl rfl hb
  obtain ⟨p, hp, harm⟩ : ∃ p, (p = .thenArm ∨ p = .elseArm) ∧
      (if b.toNat = 0 then r.block + 2 else r.block + 1) = r.handle p := by
    split
    · exact ⟨.elseArm, .inr rfl, rfl⟩
    · exact ⟨.thenArm, .inl rfl, rfl⟩
  unfold execTerm at hgo'
  rw [htransfer, harm] at hgo'
  simp only [Option.map_none, Option.getD_none] at hgo'
  rw [enter_arm hF hI h hr hp, Config.running.injEq] at hgo'
  rw [← hgo']
  exact hm'

/-- The PHI nodes of a tail take over what is there. -/
theorem defined_leave (hI : Issued F) (h : Planned F rs) (hr : r ∈ rs)
    (hp : p = .thenArm ∨ p = .elseArm) (hblock : m'.block = r.handle p) (hrest : m'.rest = [])
    (hgo' : step W (form F rs) args (.running m') = some (.running n')) (hm' : m'.env.Defined) :
    n'.env.Defined := by
  have hpart : partAt rs (r.handle p) = some (r, p) := (h.partAt_eq_some hI).mpr ⟨hr, rfl⟩
  have htail : (form F rs).block r.block = partBlock F rs r .tail :=
    block_form_some ((h.partAt_eq_some hI).mpr ⟨hr, rfl⟩)
  rw [step_term hrest, hblock, block_form_some hpart, Option.some.injEq] at hgo'
  have htransfer : W.transfer (partBlock F rs r p).term (eval W args m'.env) m'.mem =
      .goto r.block none m'.mem [] := by
    rcases hp with rfl | rfl <;> rfl
  unfold execTerm at hgo'
  rw [htransfer] at hgo'
  obtain ⟨env, hread, rfl⟩ := enter_running hgo'
  refine readPhis_defined hread hm' fun phi hphi v hv => ?_
  rw [htail] at hphi
  obtain ⟨c, -, hphi⟩ := List.mem_filterMap.mp ((List.takeWhile_sublist _).subset hphi)
  obtain ⟨q, -, rfl⟩ := Option.map_eq_some_iff.mp hphi
  obtain ⟨u, hu, hv⟩ := Option.bind_eq_some_iff.mp hv
  have hmem := incoming_mem hu
  simp only [List.mem_cons, List.not_mem_nil, or_false] at hmem
  rcases hmem with rfl | rfl <;> exact hm' _ v hv

/-- A step of the form leaves defined values. -/
theorem defined_step (hF : F.WellFormed) (hI : Issued F) (h : Planned F rs)
    (hinvoke : ∀ k ∈ F.order, (F.block k).term.op ≠ .invoke) (hm : Match W F args rs m m')
    (htested : Tested W F args rs m)
    (hnext : ∀ n, step W F args (.running m) = some (.running n) → n.env.Defined)
    (hgo' : step W (form F rs) args (.running m') = some (.running n')) (hm' : m'.env.Defined) :
    n'.env.Defined := by
  -- where the form takes a step of the function's, the function takes it as well
  have hgoes : ∀ {c : Config μ}, step W F args (.running m) = some c →
      (∃ s', step W F args (.running m) = some s' ∧ Along (Match W F args rs) s' (.running n')) →
        ∃ n, c = .running n ∧ n.env.Defined := by
    rintro c hc ⟨s', hs', halong⟩
    rw [hc] at hs'
    cases hs'
    cases halong with
    | off hno => exact absurd rfl (hno n')
    | @on n _ _ => exact ⟨n, rfl, hnext n hc⟩
  cases hm.place with
  | plain hpart hblock hrest hvia =>
      have hstep := plain_step hF hI h hm hpart hblock hrest hvia hgo'
      cases hmrest : m.rest with
      | nil =>
          rw [hmrest, List.map_nil] at hrest
          obtain ⟨n, hgo, hn⟩ := hgoes (step_term hmrest) hstep
          rw [step_term hrest, hblock, block_form_none hpart, Option.some.injEq] at hgo'
          refine defined_term hF hI h hinvoke hm.inside (fun j _ => ?_) hm.mem hvia hgo hn hgo' hm'
          unfold tailOf
          rw [hblock, unsplit_round hpart]
      | cons i rest =>
          have hi : i ∈ (F.block m.block).body :=
            hm.suffix.subset (hmrest ▸ List.mem_cons_self ..)
          rw [hmrest, List.map_cons] at hrest
          obtain ⟨n, hgo, hn⟩ := hgoes (step_instr hmrest) hstep
          rw [step_instr hrest, Option.some.injEq] at hgo'
          exact defined_named (j := i.id) hF hm.inside hi hm.mem hvia hgo hn hgo' hm'
  | head r hr hbb hentry hblock hrest hvia =>
      obtain ⟨b, heffect⟩ := effect_testable hvia (h.names r hr) (htested r hr hbb hentry)
      have hty : (Val.int 1 b).hasTy (.int 1) = true := by simp [Val.hasTy]
      rw [step_instr hrest, Option.some.injEq, exec_test hty heffect, Config.running.injEq] at hgo'
      rw [← hgo']
      exact hm'.set trivial
  | branch r hr hbb hentry hblock hrest hcond htest hvia =>
      exact defined_branch hF hI h hr hblock hrest hcond hgo' hm'
  | arm r hr p hp hbb done todo hcopies hrest hblock hrest' hvia hresults htest =>
      cases todo with
      | nil => exact defined_leave hI h hr hp hblock hrest' hgo' hm'
      | cons c todo =>
          have hi : c.old ∈ (F.block m.block).body :=
            hm.suffix.subset (hrest ▸ List.mem_cons_self ..)
          rw [step_instr hrest', Option.some.injEq] at hgo'
          have halong := arm_instr hF hI h hm hr hp hbb hcopies hrest hblock hvia hresults
          obtain ⟨n, hgo, hn⟩ := hgoes (step_instr hrest) ⟨_, step_instr hrest, hgo' ▸ halong⟩
          exact defined_named (j := armId p c) hF hm.inside hi hm.mem hvia hgo hn hgo' hm'
  | tail r hr hbb hrest hblock hrest' hvia htest =>
      have hstep := tail_step hF hI h hm hr hbb hrest hblock hrest' hvia hgo'
      obtain ⟨n, hgo, hn⟩ := hgoes (step_term hrest) hstep
      have hpart : partAt rs r.block = some (r, .tail) := (h.partAt_eq_some hI).mpr ⟨hr, rfl⟩
      have hterm : (partBlock F rs r .tail).term =
          (F.block m.block).term.mapOperands (toPhi (allCopies F rs)) := by
        rw [hbb]
        rfl
      rw [step_term hrest', hblock, block_form_some hpart, Option.some.injEq, hterm] at hgo'
      refine defined_term hF hI h hinvoke hm.inside (fun j hj => ?_) hm.mem hvia hgo hn hgo' hm'
      have hround : roundAt rs m.block = some r := h.roundAt_eq_some.mpr ⟨hr, hbb.symm⟩
      unfold tailOf
      simp only [hround, if_pos hj, hblock]

/-! ## The pass -/

/-- The form computes only defined values where the function does. -/
theorem allDefined_form (hF : F.Supported) (h : Planned F rs)
    (htested : ∀ m, Reaches (step W F args) (start F mem) (.running m) → Tested W F args rs m)
    (hdefined : AllDefined W F args mem) : AllDefined W (form F rs) args mem := by
  have hI := hF.issued
  refine ⟨hdefined.given, fun m' hreach => ?_⟩
  have hrun : ∀ n', Config.running m' = .running n' →
      (∃ s, Reaches (step W F args) (start F mem) s ∧
        Along (Match W F args rs) s (.running n')) ∧ n'.env.Defined := by
    refine hreach.induction (P := fun t => ∀ n', t = .running n' →
      (∃ s, Reaches (step W F args) (start F mem) s ∧ Along (Match W F args rs) s (.running n')) ∧
        n'.env.Defined) (fun n' hn' => ?_) fun t t' ht hgo n' hn' => ?_
    · refine ⟨⟨_, .refl _, hn' ▸ start_match hF.wellFormed hI h⟩, ?_⟩
      cases hn'
      nofun
    · subst hn'
      cases t with
      | running m₁ =>
          obtain ⟨⟨s, hs, halong⟩, hm₁⟩ := ht m₁ rfl
          cases halong with
          | off hno => exact absurd rfl (hno m₁)
          | @on m _ hm =>
              refine ⟨?_, defined_step hF.wellFormed hI h hF.not_invoke hm (htested m hs)
                (fun n hn => hdefined.results n (hs.trans (.single hn))) hgo hm₁⟩
              rcases match_step hF.wellFormed hI h hm (htested m hs) hgo with
                ⟨s', hs', halong⟩ | ⟨halong, -⟩
              · exact ⟨s', hs.trans (.single hs'), halong⟩
              · exact ⟨_, hs, halong⟩
      | waiting trace => cases hgo
      | _ => cases hgo
  exact (hrun m' rfl).2

/-- On defined values every test has an outcome. -/
theorem checked_of_defined {T : RIV.DomTree} (hF : F.Supported) (hT : T.Describes F)
    (globals : List Nat) (dist : Nat → Nat)
    (hts : ts.Perm (targets F (RIV.run T F globals) dist)) (hdefined : AllDefined W F args mem) :
    Checked W F args ts mem := by
  intro m hm t ht hbb _
  obtain ⟨k, -, hq⟩ := List.mem_filterMap.mp (hts.subset ht)
  obtain ⟨hk, hv⟩ := entry_some hq
  have hriv : t.2 ∈ RIV.run T F globals m.block := by
    rw [hbb, hk]
    exact hv
  exact testable_of_riv hF.wellFormed hT hF.not_invoke hdefined.given (hdefined.results m hm)
    (computed_of_reaches hF.wellFormed hF.entry hF.not_invoke hm) hriv

/-- What the pass leaves does what the function does, on defined values. -/
theorem behaves_duplicateAll {T : RIV.DomTree} (hF : F.Supported) (hT : T.Describes F)
    (globals : List Nat) (dist : Nat → Nat)
    (hts : ts.Perm (targets F (RIV.run T F globals) dist)) (h : Behaves W F args mem) :
    Behaves W (duplicateAll F ts) args mem ∧ Alike W F (duplicateAll F ts) args mem := by
  have hchosen : Chosen F ts := (chosen_targets hF.wellFormed hT globals dist).perm hts.symm
  have hchecked := checked_of_defined hF hT globals dist hts h.values
  have halike := alike_of_checked hF.wellFormed hF.issued hchosen hchecked
  refine ⟨⟨?_, halike.defined h.runs⟩, halike⟩
  rw [duplicateAll_eq hF.wellFormed hF.issued hchosen]
  exact allDefined_form hF hchosen.planned (fun m hm => checked_iff.mp hchecked m hm) h.values

end LlvmPasses.DuplicateBB
