import LlvmPasses.Ir.Steps
import LlvmPasses.Ir.WellFormed

/-!
# What a run has computed

The results of every block that a run has left are there, and so are those of
the instructions of its block that it has run. Handles are defined once, so a
result that is there stays, or gives way to another of its type when control
comes back to the instruction.
-/

namespace LlvmPasses.Ir

open Transition

variable {μ : Type} {W : World μ} {F : Function} {args : List Val} {env env' env'' : Env}
variable {id j : Nat} {ty : Ty} {m n : Machine μ} {mem : μ} {d : Nat × Ty}

/-- What an instruction leaves in the environment. -/
theorem assign_some {v : Option Val} (h : env.assign id ty v = some env') :
    (ty ≠ .void → ∃ x, env' id = some x ∧ x.hasTy ty = true) ∧
      ∀ j, j ≠ id → env' j = env j := by
  cases v with
  | none =>
      by_cases hty : ty = .void
      · rw [Env.assign, if_pos hty] at h
        cases h
        exact ⟨fun hne => absurd hty hne, fun _ _ => rfl⟩
      · rw [Env.assign, if_neg hty] at h
        cases h
  | some x =>
      by_cases hty : x.hasTy ty = true
      · rw [Env.assign, if_pos hty] at h
        cases h
        exact ⟨fun _ => ⟨x, Env.set_self .., hty⟩, fun j hj => Env.set_other _ x hj⟩
      · rw [Env.assign, if_neg hty] at h
        cases h

/-- The result of a definition is there, if it has one. -/
def Held (env : Env) (d : Nat × Ty) : Prop :=
  d.2 ≠ .void → ∃ v, env d.1 = some v ∧ v.hasTy d.2 = true

/-- Whatever is there stays there. -/
def Keeps (F : Function) (env env' : Env) : Prop := ∀ d ∈ F.defs, Held env d → Held env' d

theorem Keeps.refl (F : Function) (env : Env) : Keeps F env env := fun _ _ => id

theorem Keeps.trans (h : Keeps F env env') (h' : Keeps F env' env'') : Keeps F env env'' :=
  fun d hd hheld => h' d hd (h d hd hheld)

/-- One more result, of the type that its handle is defined with. -/
theorem keeps_of_result (hF : F.WellFormed) (hd : (id, ty) ∈ F.defs) (hself : Held env' (id, ty))
    (hother : ∀ j, j ≠ id → env' j = env j) : Keeps F env env' := by
  intro d hd' hheld
  by_cases hid : d.1 = id
  · have heq : d = (id, ty) := List.inj_on_of_nodup_map hF.ids_nodup hd' hd hid
    rw [heq]
    exact hself
  · unfold Held
    rw [hother _ hid]
    exact hheld

theorem keeps_assign (hF : F.WellFormed) (hd : (id, ty) ∈ F.defs) {v : Option Val}
    (h : env.assign id ty v = some env') : Keeps F env env' ∧ Held env' (id, ty) := by
  obtain ⟨hself, hother⟩ := assign_some h
  exact ⟨keeps_of_result hF hd hself hother, hself⟩

theorem keeps_readPhis (hF : F.WellFormed) {get : Value → Option Val} {prev : Nat}
    {phis : List (Instr Op)} (hphis : ∀ phi ∈ phis, (phi.id, phi.ty) ∈ F.defs)
    (h : readPhis get prev phis env = some env') :
    Keeps F env env' ∧ ∀ phi ∈ phis, Held env' (phi.id, phi.ty) := by
  induction phis generalizing env with
  | nil =>
      cases h
      exact ⟨.refl F _, List.forall_mem_nil _⟩
  | cons phi phis ih =>
      obtain ⟨hphi, hrest⟩ := List.forall_mem_cons.mp hphis
      unfold readPhis at h
      cases hv : (phi.getIncomingValueForBlock prev).bind get with
      | none =>
          rw [hv] at h
          cases h
      | some v =>
          rw [hv] at h
          by_cases hty : v.hasTy phi.ty = true
          · simp only [hty, if_true] at h
            have hset : Held (env.set phi.id v) (phi.id, phi.ty) := fun _ =>
              ⟨v, Env.set_self .., hty⟩
            have hkeeps : Keeps F env (env.set phi.id v) :=
              keeps_of_result hF hphi hset fun j hj => Env.set_other _ v hj
            obtain ⟨hkeeps', hheld⟩ := ih hrest h
            refine ⟨hkeeps.trans hkeeps', List.forall_mem_cons.mpr ⟨?_, hheld⟩⟩
            exact hkeeps' _ hphi hset
          · simp only [hty] at h
            cases h

/-- A run is in a block: it has come there on a walk, with the results of all
blocks on the walk and of the instructions it has run since. -/
structure Computed (F : Function) (m : Machine μ) : Prop where
  left : ∃ w, F.Walk w m.block ∧
    ∀ p ∈ w, ∀ i ∈ (F.block p.1).instrs, Held m.env (i.id, i.ty)
  here : ∃ before, before ++ m.rest = (F.block m.block).instrs ∧
    ∀ i ∈ before, Held m.env (i.id, i.ty)

/-- A walk goes through blocks of the function. -/
theorem mem_defs_on_walk (hF : F.WellFormed) {w : List (Nat × Nat)} {k : Nat} (hw : F.Walk w k)
    {p : Nat × Nat} (hp : p ∈ w) {i : Instr Op} (hi : i ∈ (F.block p.1).instrs) :
    (i.id, i.ty) ∈ F.defs :=
  Function.mem_defs_of_instr (hF.mem_of_reachable
    (hw.path.reachable_of_mem (List.mem_map_of_mem hp))) hi

/-- Control goes on to another block when all of its own has been run. -/
theorem computed_enter (hF : F.WellFormed) {w : List (Nat × Nat)} (hw : F.Walk w m.block)
    (hleft : ∀ p ∈ w, ∀ i ∈ (F.block p.1).instrs, Held m.env (i.id, i.ty))
    (hall : ∀ i ∈ (F.block m.block).instrs, Held m.env (i.id, i.ty))
    (hj : j ∈ F.successors m.block) (hgo : enter W F args m j = .running n) :
    Computed F n := by
  have hjmem : j ∈ F.order := (hF.successors _ (hF.mem_of_path hw.path) j hj).1
  obtain ⟨o, ho⟩ := List.mem_iff_getElem?.mp hj
  have hwalk : F.Walk (w ++ [(m.block, o)]) j := hw.snoc ho
  have hphis : ∀ phi ∈ (F.block j).phis, (phi.id, phi.ty) ∈ F.defs := fun phi hphi =>
    Function.mem_defs_of_instr hjmem ((List.takeWhile_sublist _).subset hphi)
  unfold enter at hgo
  cases hread : readPhis (eval W args m.env) m.block (F.block j).phis m.env with
  | none =>
      rw [hread] at hgo
      cases hgo
  | some env' =>
      rw [hread] at hgo
      cases hgo
      obtain ⟨hkeeps, hheld⟩ := keeps_readPhis hF hphis hread
      refine ⟨⟨_, hwalk, fun p hp i hi => hkeeps _ (mem_defs_on_walk hF hwalk hp hi) ?_⟩,
        (F.block j).phis, List.takeWhile_append_dropWhile, hheld⟩
      rcases List.mem_append.mp hp with hp | hp
      · exact hleft p hp i hi
      · obtain rfl := List.mem_singleton.mp hp
        exact hall i hi

namespace Computed

variable (hF : F.WellFormed) (h : Computed F m)

include hF h

theorem inside : m.block ∈ F.order := by
  obtain ⟨w, hw, -⟩ := h.left
  exact hF.mem_of_path hw.path

theorem instr {i : Instr Op} {rest : List (Instr Op)} (hrest : m.rest = i :: rest)
    (hgo : execInstr W args m i rest = .running n) : Computed F n := by
  obtain ⟨w, hw, hleft⟩ := h.left
  obtain ⟨before, hbefore, hheld⟩ := h.here
  have hmem : ∀ j ∈ (F.block m.block).instrs, (j.id, j.ty) ∈ F.defs := fun j hj =>
    Function.mem_defs_of_instr (h.inside hF) hj
  have hi : i ∈ (F.block m.block).instrs := by
    rw [← hbefore, hrest]
    exact List.mem_append_right _ (List.mem_cons_self ..)
  unfold execInstr at hgo
  cases heffect : effect W args m.env m.mem i with
  | done v mem events =>
      rw [heffect] at hgo
      cases hassign : m.env.assign i.id i.ty v with
      | none => simp [hassign] at hgo
      | some env' =>
          simp only [hassign, Config.running.injEq] at hgo
          subst hgo
          obtain ⟨hkeeps, hself⟩ := keeps_assign hF (hmem i hi) hassign
          refine ⟨⟨w, hw, fun p hp j hj =>
            hkeeps _ (mem_defs_on_walk hF hw hp hj) (hleft p hp j hj)⟩,
            before ++ [i], ?_, fun j hj => ?_⟩
          · rw [← hbefore, hrest, List.append_assoc]
            rfl
          · rcases List.mem_append.mp hj with hj | hj
            · refine hkeeps _ (hmem j ?_) (hheld j hj)
              rw [← hbefore]
              exact List.mem_append_left _ hj
            · rw [List.mem_singleton.mp hj]
              exact hself
  | _ =>
      rw [heffect] at hgo
      cases hgo

/-- A terminator that is no `invoke` has no result. -/
theorem term (hop : (F.block m.block).term.op ≠ .invoke) (hrest : m.rest = [])
    (hgo : execTerm W F args m (F.block m.block).term = .running n) : Computed F n := by
  obtain ⟨w, hw, hleft⟩ := h.left
  obtain ⟨before, hbefore, hheld⟩ := h.here
  rw [hrest, List.append_nil] at hbefore
  subst hbefore
  have hk : m.block ∈ F.order := h.inside hF
  have hvoid : (F.block m.block).term.ty = .void := hF.terminators _ hk hop
  have hdefs : ((F.block m.block).term.id, (F.block m.block).term.ty) ∈ F.defs :=
    Function.mem_defs_term hk
  unfold execTerm at hgo
  cases htransfer : W.transfer (F.block m.block).term (eval W args m.env) m.mem with
  | goto j v mem events =>
      rw [htransfer] at hgo
      have hkeeps : Keeps F m.env ((v.map (m.env.set (F.block m.block).term.id)).getD m.env) := by
        cases v with
        | none => exact .refl F _
        | some v =>
            exact keeps_of_result hF hdefs (fun hne => absurd hvoid hne) fun j hj =>
              Env.set_other _ v hj
      refine computed_enter (m := { m with
        env := (v.map (m.env.set (F.block m.block).term.id)).getD m.env, mem := mem,
        trace := m.trace ++ events }) hF hw (fun p hp i hi => ?_) (fun i hi => ?_)
        (transfer_goto htransfer) hgo
      · exact hkeeps _ (mem_defs_on_walk hF hw hp hi) (hleft p hp i hi)
      · exact hkeeps _ (Function.mem_defs_of_instr hk hi) (hheld i hi)
  | _ =>
      rw [htransfer] at hgo
      cases hgo

theorem step (hop : (F.block m.block).term.op ≠ .invoke)
    (hgo : Ir.step W F args (.running m) = some (.running n)) : Computed F n := by
  cases hrest : m.rest with
  | nil =>
      simp only [Ir.step, hrest, Option.some.injEq] at hgo
      exact h.term hF hop hrest hgo
  | cons i rest =>
      simp only [Ir.step, hrest, Option.some.injEq] at hgo
      exact h.instr hF hrest hgo

end Computed

/-- Whatever a run reaches has been computed on the way. -/
theorem computed_of_reaches (hF : F.WellFormed) (hentry : (F.block F.entry).phis = [])
    (hop : ∀ k ∈ F.order, (F.block k).term.op ≠ .invoke)
    (h : Reaches (step W F args) (start F mem) (.running m)) : Computed F m := by
  have hrun : ∀ n, Config.running m = .running n → Computed F n := by
    refine h.induction (P := fun c => ∀ n, c = .running n → Computed F n) ?_ ?_
    · intro n hn
      cases hn
      refine ⟨⟨[], .start, List.forall_mem_nil _⟩, [], ?_, List.forall_mem_nil _⟩
      have hsplit := List.takeWhile_append_dropWhile (p := Instr.isPhi)
        (l := (F.block F.entry).instrs)
      rwa [show List.takeWhile _ _ = [] from hentry] at hsplit
    · intro c c' hc hstep n hn
      subst hn
      cases c with
      | running m =>
          have hm := hc m rfl
          exact hm.step hF (hop _ (hm.inside hF)) hstep
      | waiting trace => cases hstep
      | _ => cases hstep
  exact hrun m rfl

end LlvmPasses.Ir
