import LlvmPasses.Ir.Running
import LlvmPasses.Proofs.MBAForm

/-!
# Running the code in place of the operators

A run of what a pass leaves goes along with the run of the function: where the
function runs an operator, the other runs the code that stands for it, which may
be nothing at all. Every result that the function has is there under the name
that stands for it now. The function may not come to anything undefined, and its
operators not to poison that their flags make.

`staggers` is a simulation with steps on both sides. The function may run
operators for which the other has no code left, when constants were folded
away, and the other runs the code of one operator while the function waits;
what is left of the block counts down in both cases, so neither goes on alone
for ever. `Match` has the two situations. In the first, `Level`, both are at
the same place and every result is there under its new name; in the second the
other is inside the code that stands for the operator the function runs next.

The lemmas about one step are three. An operator is run through
(`Level.selected`) because its code computes what the operator does and writes
handles that nothing else names. Any other instruction has the same effect on
operands that have the same values (`Level.other`). A terminator goes the same
way and enters a block with the same PHI nodes (`Level.term`).
-/

namespace LlvmPasses.MBA

open Ir IRBuilder Transition

/-- What a rule builds computes what the operator does. -/
structure Rule.Computes (rule : Rule) (op : BinOp) (tree : Nat → Value → Value → Expr) : Prop
    extends Rule.Builds rule op tree where
  sound : ∀ i w a b get x y z, rule.selects i = true → i.ty = .int w →
    (∀ w' (c : BitVec w'), get (.constInt w' c) = some (.int w' c)) →
    get a = some x → get b = some y → op.apply w {} x y = some z →
    (tree w a b).eval w get = some z

variable {μ : Type} {W : World μ} {args : List Val} {rule : Rule} {op : BinOp}
variable {tree : Nat → Value → Value → Expr} {F G : Function} {σ : Value → Value}
variable {code : Nat → List (Instr Op)} {done : List Nat} {next n len w k : Nat}
variable {m m' : Machine μ} {mem : μ} {i : Instr Op} {a b u : Value} {x y z : Val}

/-! ## The code of one operator -/

/-- What else is named is nothing that the code makes. -/
theorem Replacing.away (h : Replacing rule F done σ code next) (hid : i.id ∈ done)
    (hids : (code i.id).map Instr.id = List.range' n len) (hn : F.nextInst ≤ n)
    (hu : u.Before F.nextInst) (hne : u ≠ .inst i.id) :
    ∀ j, σ u = .inst j → j < n ∨ n + len ≤ j := by
  intro j hj
  by_cases hdone : ∃ id ∈ done, u = .inst id
  · obtain ⟨id, hid', rfl⟩ := hdone
    have hne' : id ≠ i.id := fun heq => hne (heq ▸ rfl)
    rcases h.value id hid' with ⟨ty, hconst⟩ | ⟨j', hj', heq⟩
    · rw [hj] at hconst
      cases hconst
    · rw [hj] at heq
      cases heq
      have hout := h.apart id hid' i.id hid hne' j hj'
      rw [hids, List.mem_range'_1] at hout
      omega
  · have hkept := h.kept u fun id hid heq => hdone ⟨id, hid, heq⟩
    have hlt : j < F.nextInst := hu j (hkept ▸ hj)
    omega

/-- The code runs through and leaves what the operator comes to. -/
theorem Replaced.runs (h : Replaced rule F G σ code) (hrule : rule.Computes op tree)
    (hF : F.WellFormed) (hI : ∀ d ∈ F.defs, d.1 < F.nextInst) (hk : k ∈ F.order)
    (hi : i ∈ (F.block k).instrs) (hsel : rule.selects i = true) (hty : i.ty = .int w)
    (hops : i.operands = [a, b]) (hself : .inst i.id ∉ i.operands)
    (hresults : ∀ id x, m.env id = some x → id < F.nextInst)
    (hcarried : Carried W args σ m.env m'.env) (hx : eval W args m.env a = some x)
    (hy : eval W args m.env b = some y) (hz : op.apply w {} x y = some z) :
    ∃ env', execAll W args (code i.id) m' = .running { m' with rest := [], env := env' } ∧
      Carried W args σ (m.env.set i.id z) env' := by
  have hpicked : i.id ∈ picked rule F := (picked_iff hF hk hi).mpr hsel
  have hσ : Fixes F.nextInst σ := h.toReplacing.fixes fun id hid => picked_lt hI hid
  obtain ⟨n, ρ, τ, hn, hτ, hcomp, hbefore, hvalue, hcode⟩ := h.built k hk i hi hpicked
  have hτn : Fixes n τ := ⟨fun id hid => hτ.inst id (Nat.le_trans hn hid), hτ.other⟩
  obtain ⟨hnumbered, -⟩ := build_code hrule.toBuilds hsel hops hbefore
  have hbuild := build_mapOperands hrule.toBuilds hty hops ρ
  rw [hbuild] at hnumbered hvalue hcode
  let r := (tree w (ρ a) (ρ b)).emit (.int w) ⟨[], n⟩
  have hids : (code i.id).map Instr.id = List.range' n r.2.inserted.length := by
    rw [hcode, ids_map, hnumbered.ids]
  have hlast : r.2.next = n + r.2.inserted.length := hnumbered.next
  have hoperand : ∀ u ∈ i.operands, ∀ j, σ u = .inst j → j < n ∨ r.2.next ≤ j := by
    intro u hu
    rw [hlast]
    exact h.toReplacing.away hpicked hids hn (hF.operand_before hI hk (mem_operands hi hu))
      fun heq => hself (heq ▸ hu)
  have hconsts : ∀ {v ty}, Value.constTy v = some ty →
      ∀ j, τ v = .inst j → j < n ∨ r.2.next ≤ j := by
    intro v ty hv j hj
    rw [hτ.const hv] at hj
    subst hj
    cases hv
  have heval : (tree w (ρ a) (ρ b)).eval w (fun v => eval W args m'.env (τ v)) = some z := by
    refine hrule.sound i w _ _ _ x y z hsel hty (fun w' c => ?_) ?_ ?_ hz
    · rw [hτ.const rfl]
      rfl
    · rw [hcomp]
      exact hcarried a x hx
    · rw [hcomp]
      exact hcarried b y hy
  obtain ⟨env', hruns, hknows, -⟩ := Expr.emit_runs hτn (runs_nil m')
    (fun v hv x' hx' => ⟨hx', by
      rcases hrule.leaves _ _ _ v hv with rfl | rfl | ⟨ty, hconst⟩
      · rw [hcomp]
        exact hoperand a (by simp [hops])
      · rw [hcomp]
        exact hoperand b (by simp [hops])
      · exact hconsts hconst⟩) (Nat.le_refl r.2.next) heval
  refine ⟨env', hcode ▸ hruns.run, carried_of_inst hσ fun id x' hx' => ?_⟩
  by_cases hid : id = i.id
  · subst hid
    rw [Env.set_self] at hx'
    cases hx'
    have hfixed : τ r.1 = σ (.inst i.id) := by
      rw [← hvalue]
      rcases h.value i.id hpicked with ⟨ty, hconst⟩ | ⟨j, hj, heq⟩
      · exact hτ.const hconst
      · rw [heq]
        exact hτ.inst j (h.fresh i.id hpicked j hj).1
    rw [← hfixed]
    exact hknows.eval
  · rw [Env.set_other _ _ hid] at hx'
    rw [← hcarried (.inst id) x' hx']
    have haway : ∀ j, σ (.inst id) = .inst j → j < n ∨ r.2.next ≤ j := by
      rw [hlast]
      refine h.toReplacing.away hpicked hids hn (fun id' heq => ?_) fun heq => ?_
      · cases heq
        exact hresults id x' hx'
      · cases heq
        exact hid rfl
    exact eval_congr fun j hj => hruns.frame j (haway j hj)

/-! ## One step -/

/-- The runs have come to the same place. -/
structure Level (W : World μ) (args : List Val) (rule : Rule) (F : Function) (σ : Value → Value)
    (code : Nat → List (Instr Op)) (m m' : Machine μ) : Prop where
  inside : Inside F m
  block : m'.block = m.block
  rest : m'.rest = m.rest.flatMap (piece rule σ code)
  mem : m'.mem = m.mem
  trace : m'.trace = m.trace
  carried : Carried W args σ m.env m'.env

/-- The function goes on, and the flags of an operator decide nothing. -/
structure Goes (W : World μ) (args : List Val) (rule : Rule) (F : Function) (m : Machine μ) :
    Prop where
  defined : ∀ trace, step W F args (.running m) ≠ some (.undefined trace)
  unflagged : ∀ i rest, m.rest = i :: rest → rule.selects i = true →
    effect W args m.env m.mem i = effect W args m.env m.mem { i with flags := {} }

theorem effect_binop {env : Env} (hop : i.op = .binop op) (hty : i.ty = .int w)
    (hops : i.operands = [a, b]) (hdefined : effect W args env mem i ≠ .undefined) :
    ∃ x y z, eval W args env a = some x ∧ eval W args env b = some y ∧
      op.apply w i.flags x y = some z ∧ effect W args env mem i = .done (some z) mem [] := by
  have hdebug : i.isDbgInfoIntrinsic = false := by
    simp only [Instr.isDbgInfoIntrinsic, hop]
    rfl
  unfold effect at hdefined ⊢
  rw [hdebug, hops, hop, hty, if_neg Bool.false_ne_true] at hdefined ⊢
  cases hx : eval W args env a with
  | none => simp [evalAll, hx] at hdefined
  | some x =>
      cases hy : eval W args env b with
      | none => simp [evalAll, hx, hy] at hdefined
      | some y =>
          simp only [evalAll, hx, hy, World.apply] at hdefined ⊢
          cases hz : op.apply w i.flags x y with
          | none => simp [hz, computes] at hdefined
          | some z => exact ⟨x, y, z, rfl, rfl, hz, rfl⟩

/-- An effect that is undefined leaves nothing to go on from. -/
theorem Goes.effect {rest : List (Instr Op)} (h : Goes W args rule F m)
    (hrest : m.rest = i :: rest) :
    Ir.effect W args m.env m.mem i ≠ .undefined := by
  intro hno
  refine h.defined m.trace ?_
  rw [step_instr hrest]
  unfold execInstr
  rw [hno]

/-- Where the function runs an operator, its code runs through. -/
theorem Level.selected {rest : List (Instr Op)} (h : Level W args rule F σ code m m')
    (hG : Replaced rule F G σ code) (hrule : rule.Computes op tree) (hF : F.WellFormed)
    (hI : ∀ d ∈ F.defs, d.1 < F.nextInst) (hops : Binary rule F) (hgoes : Goes W args rule F m)
    (hrest : m.rest = i :: rest) (hsel : rule.selects i = true) :
    ∃ n m'', step W F args (.running m) = some (.running n) ∧ n.rest = rest ∧
      execAll W args (code i.id) m' = .running m'' ∧ m''.trace = m.trace ∧
      Level W args rule F σ code n { m'' with rest := rest.flatMap (piece rule σ code) } := by
  have hi := h.inside.instr_mem hrest
  obtain ⟨a, b, hoperands⟩ := hops _ h.inside.block i hi hsel
  obtain ⟨hop, w, hty⟩ := hrule.selects i hsel
  have hdefined := hgoes.effect hrest
  rw [hgoes.unflagged i rest hrest hsel] at hdefined
  obtain ⟨x, y, z, hx, hy, hz, heffect⟩ :=
    effect_binop (i := { i with flags := {} }) hop hty hoperands hdefined
  rw [← hgoes.unflagged i rest hrest hsel] at heffect
  have hexec : execInstr W args m i rest =
      .running { m with rest, env := m.env.set i.id z } := by
    have hassign : m.env.assign i.id i.ty (some z) = some (m.env.set i.id z) := by
      rw [hty]
      exact if_pos (BinOp.apply_hasTy hz)
    unfold execInstr
    simp only [heffect, hassign, List.append_nil]
  have hstep : step W F args (.running m) =
      some (.running { m with rest, env := m.env.set i.id z }) :=
    (step_instr hrest).trans (congrArg some hexec)
  have hself : .inst i.id ∉ i.operands := by
    intro hmem
    have hphi : i.isPhi = false := by
      simp only [Instr.isPhi, hop]
      rfl
    have hdebug : i.isDbgInfoIntrinsic = false := by
      simp only [Instr.isDbgInfoIntrinsic, hop]
      rfl
    have hnone := h.inside.unborn _ h.inside.block i hi hphi hmem
    exact hgoes.defined m.trace
      ((step_instr hrest).trans (congrArg some (execInstr_missing hdebug hmem hnone)))
  have hresults : ∀ id x, m.env id = some x → id < F.nextInst := by
    intro id x hx
    obtain ⟨d, hd, rfl⟩ := h.inside.results id x hx
    exact hI d hd
  obtain ⟨env', hrun, hcarried⟩ := hG.runs hrule hF hI h.inside.block hi hsel hty hoperands hself
    hresults h.carried hx hy hz
  exact ⟨_, _, hstep, rfl, hrun, h.trace,
    ⟨h.inside.step hF hstep, h.block, rfl, h.mem, h.trace, hcarried⟩⟩

theorem Replacing.owns (h : Replacing rule F done σ code next) {id : Nat} (hid : id ∉ done)
    (hlt : id < F.nextInst) : Owns σ id := by
  intro id'
  constructor
  · intro heq
    by_cases hdone' : id' ∈ done
    · rcases h.value id' hdone' with ⟨ty, hconst⟩ | ⟨j, hj, hj'⟩
      · rw [heq] at hconst
        cases hconst
      · have hlow := (h.fresh id' hdone' j hj).1
        rw [heq] at hj'
        cases hj'
        omega
    · have hkept := h.kept (.inst id') fun j hj heq' => by
        cases heq'
        exact hdone' hj
      rw [hkept] at heq
      cases heq
      rfl
  · rintro rfl
    exact h.kept _ fun j hj heq => by
      cases heq
      exact hid hj

/-- Other instructions do the same. -/
theorem Level.other {rest : List (Instr Op)} {t' : Config μ} (h : Level W args rule F σ code m m')
    (hG : Replaced rule F G σ code) (hF : F.WellFormed) (hI : ∀ d ∈ F.defs, d.1 < F.nextInst)
    (hgoes : Goes W args rule F m) (hrest : m.rest = i :: rest) (hsel : rule.selects i = false)
    (ht : step W G args (.running m') = some t') :
    ∃ s', step W F args (.running m) = some s' ∧ Along (Level W args rule F σ code) s' t' := by
  have hi := h.inside.instr_mem hrest
  have hlt : ∀ id ∈ picked rule F, id < F.nextInst := fun id hid => picked_lt hI hid
  have hσ : Fixes F.nextInst σ := hG.toReplacing.fixes hlt
  have howns : Owns σ i.id := by
    refine hG.toReplacing.owns (fun hid => ?_) (hI _ (Function.mem_defs_of_instr h.inside.block hi))
    rw [(picked_iff hF h.inside.block hi).mp hid] at hsel
    cases hsel
  have hrest' : m'.rest = i.mapOperands σ :: rest.flatMap (piece rule σ code) := by
    rw [h.rest, hrest, List.flatMap_cons, piece, if_neg (Bool.eq_false_iff.mp hsel)]
    rfl
  have heffect : effect W args m'.env m'.mem (i.mapOperands σ) = effect W args m.env m.mem i := by
    rw [h.mem]
    exact effect_carried h.carried (hgoes.effect hrest)
  rw [step_instr hrest', Option.some.injEq] at ht
  refine ⟨_, step_instr hrest, ?_⟩
  have hgo : step W F args (.running m) = some (execInstr W args m i _) := step_instr hrest
  have hdefined := hgoes.defined m.trace
  rw [hgo] at hdefined
  unfold execInstr at ht hgo hdefined ⊢
  rw [heffect] at ht
  rw [← ht]
  cases hcase : effect W args m.env m.mem i with
  | undefined => exact absurd (by rw [hcase]) hdefined
  | never events =>
      rw [h.trace]
      exact .off nofun
  | unwinds mem events =>
      rw [h.trace]
      exact .off nofun
  | done v mem events =>
      simp only [hcase] at hgo hdefined ⊢
      cases hassign : m.env.assign i.id i.ty v with
      | none =>
          rw [hassign] at hdefined
          exact absurd rfl hdefined
      | some env₁ =>
          obtain ⟨env₁', hassign', hcarried⟩ := h.carried.assign hσ howns hassign
          have hassign'' : m'.env.assign (i.mapOperands σ).id (i.mapOperands σ).ty v = some env₁' :=
            hassign'
          rw [hassign] at hgo
          rw [hassign'']
          exact .on ⟨h.inside.step hF hgo, h.block, rfl, rfl, congrArg (· ++ events) h.trace,
            hcarried⟩

/-! ## From block to block -/

/-- What a switch compares with are constants, and where it goes are blocks. -/
def Switches (F : Function) : Prop :=
  ∀ k ∈ F.order, (F.block k).term.op = .switch →
    ∀ v ∈ (F.block k).term.operands.tail, Function.isInst v = false

theorem Replacing.keepsBlocks (h : Replacing rule F done σ code next) : KeepsBlocks σ := by
  intro v k
  by_cases hdone : ∃ id ∈ done, v = .inst id
  · obtain ⟨id, hid, rfl⟩ := hdone
    constructor
    · intro heq
      rcases h.value id hid with ⟨ty, hconst⟩ | ⟨j, -, heq'⟩
      · rw [heq] at hconst
        cases hconst
      · rw [heq] at heq'
        cases heq'
    · nofun
  · rw [h.kept v fun id hid heq => hdone ⟨id, hid, heq⟩]

/-- No code stands among the PHI nodes. -/
theorem Replaced.phis (hG : Replaced rule F G σ code) (hrule : rule.Builds op tree)
    (hF : F.WellFormed) (hops : Binary rule F) (hk : k ∈ F.order) :
    (G.block k).phis = (F.block k).phis.map (Instr.mapOperands σ) ∧
      (G.block k).body = (F.block k).body.flatMap (piece rule σ code) := by
  have hphis : (F.block k).phis.flatMap (piece rule σ code) =
      (F.block k).phis.map (Instr.mapOperands σ) := by
    rw [List.map_eq_flatMap]
    refine List.flatMap_congr fun i hi => if_neg fun hsel => ?_
    have hphi : i.isPhi = true := List.mem_takeWhile_imp hi
    simp [Instr.isPhi, (hrule.selects i hsel).1] at hphi
  have hall : ∀ i ∈ (F.block k).phis.map (Instr.mapOperands σ), i.isPhi = true := by
    intro i hi
    obtain ⟨i', hi', rfl⟩ := List.mem_map.mp hi
    exact (isPhi_mapOperands σ i').trans (List.mem_takeWhile_imp hi')
  have hnone : ∀ c ∈ (F.block k).body.flatMap (piece rule σ code), c.isPhi = false := by
    intro c hc
    obtain ⟨i, hi, hc⟩ := List.mem_flatMap.mp hc
    have hi' : i ∈ (F.block k).instrs := (List.dropWhile_sublist _).subset hi
    unfold piece at hc
    split at hc
    · next hsel =>
        obtain ⟨a, b, hoperands⟩ := hops k hk i hi' hsel
        have hbuilt := hG.built k hk i hi' ((picked_iff hF hk hi').mpr hsel)
        obtain ⟨-, ⟨_, _, _, op', -, hop⟩, -⟩ := hbuilt.instr hrule hsel hoperands hc
        simp [Instr.isPhi, hop]
    · obtain rfl := List.mem_singleton.mp hc
      exact hF.phis k hk i hi
  have hsplit : (G.block k).instrs = (F.block k).phis.map (Instr.mapOperands σ) ++
      (F.block k).body.flatMap (piece rule σ code) := by
    rw [hG.instrs k hk, ← hphis, ← List.flatMap_append]
    exact congrArg (List.flatMap _) List.takeWhile_append_dropWhile.symm
  unfold Block.phis Block.body at *
  rw [hsplit, List.takeWhile_append_of_pos hall, List.dropWhile_append_of_pos hall]
  cases hbody : ((F.block k).instrs.dropWhile Instr.isPhi).flatMap (piece rule σ code) with
  | nil => exact ⟨List.append_nil _, rfl⟩
  | cons c rest =>
      have hc := hnone c (hbody ▸ List.mem_cons_self ..)
      rw [List.takeWhile_cons_of_neg (by simp [hc]), List.dropWhile_cons_of_neg (by simp [hc])]
      exact ⟨List.append_nil _, rfl⟩

/-- A block is entered with the same values for its PHI nodes. -/
theorem enter_level {n n' : Machine μ} (hG : Replaced rule F G σ code) (hrule : rule.Builds op tree)
    (hF : F.WellFormed) (hI : ∀ d ∈ F.defs, d.1 < F.nextInst) (hops : Binary rule F)
    (hk : k ∈ F.order) (hids : ∀ phi ∈ (F.block k).phis, Owns σ phi.id)
    (hblock : n'.block = n.block) (hmem : n'.mem = n.mem) (htrace : n'.trace = n.trace)
    (hcarried : Carried W args σ n.env n'.env)
    (hdefined : ∀ trace, enter W F args n k ≠ .undefined trace)
    (hinside : ∀ o, enter W F args n k = .running o → Inside F o) :
    Along (Level W args rule F σ code) (enter W F args n k) (enter W G args n' k) := by
  obtain ⟨hphis, hbody⟩ := hG.phis hrule hF hops hk
  have hσ : Fixes F.nextInst σ := hG.toReplacing.fixes fun id hid => picked_lt hI hid
  unfold enter at hdefined hinside ⊢
  cases hread : readPhis (eval W args n.env) n.block (F.block k).phis n.env with
  | none => exact absurd (by rw [hread]) (hdefined n.trace)
  | some env₁ =>
      obtain ⟨env₁', hread', hcarried'⟩ := Carried.readPhis hcarried hσ hids hcarried hread
      rw [hphis, hblock, hread']
      exact .on ⟨hinside _ (by rw [hread]), rfl, hbody, hmem, htrace, hcarried'⟩

/-- Terminators go the same way. -/
theorem Level.term {t' : Config μ} (h : Level W args rule F σ code m m')
    (hG : Replaced rule F G σ code) (hrule : rule.Builds op tree) (hF : F.WellFormed)
    (hI : ∀ d ∈ F.defs, d.1 < F.nextInst) (hops : Binary rule F) (hswitch : Switches F)
    (hgoes : Goes W args rule F m) (hrest : m.rest = [])
    (ht : step W G args (.running m') = some t') :
    ∃ s', step W F args (.running m) = some s' ∧ Along (Level W args rule F σ code) s' t' := by
  have hlt : ∀ id ∈ picked rule F, id < F.nextInst := fun id hid => picked_lt hI hid
  have hσ : Fixes F.nextInst σ := hG.toReplacing.fixes hlt
  have howns : ∀ j ∈ F.order, ∀ id, (∀ i ∈ (F.block j).instrs, rule.selects i = true → i.id ≠ id) →
      id ∈ (F.block j).defs.map Prod.fst → Owns σ id := by
    intro j hj id hne hid
    obtain ⟨d, hd, rfl⟩ := List.mem_map.mp hid
    refine hG.toReplacing.owns (fun hpicked => ?_) (hI d (Function.mem_defs.mpr ⟨j, hj, hd⟩))
    obtain ⟨j', hj', i, hi, hsel, heq⟩ := mem_picked.mp hpicked
    obtain rfl := hF.block_unique hj hj' hid (Function.mem_ids.mpr (.inl ⟨i, hi, heq⟩))
    exact hne i hi hsel heq
  have hrest' : m'.rest = [] := by
    rw [h.rest, hrest]
    rfl
  have hgo : step W F args (.running m) = some (execTerm W F args m (F.block m.block).term) :=
    step_term hrest
  have hdefined := hgoes.defined m.trace
  rw [hgo] at hdefined
  rw [step_term hrest', Option.some.injEq, h.block, hG.term _ h.inside.block] at ht
  refine ⟨_, hgo, ?_⟩
  have htransfer : W.transfer ((F.block m.block).term.mapOperands σ) (eval W args m'.env) m'.mem =
      W.transfer (F.block m.block).term (eval W args m.env) m.mem := by
    rw [h.mem]
    refine transfer_carried h.carried hG.toReplacing.keepsBlocks (fun hop v hv w c => ?_) ?_
    · rw [hσ.other v (hswitch _ h.inside.block hop v hv)]
    · intro hno
      refine hdefined (congrArg some ?_)
      unfold execTerm
      rw [hno]
  unfold execTerm at ht hgo hdefined ⊢
  rw [htransfer] at ht
  rw [← ht]
  cases hcase : W.transfer (F.block m.block).term (eval W args m.env) m.mem with
  | undefined => exact absurd (by rw [hcase]) hdefined
  | never events =>
      rw [h.trace]
      exact .off nofun
  | unwinds mem events =>
      rw [h.trace]
      exact .off nofun
  | ret v =>
      rw [h.trace, h.mem]
      exact .off nofun
  | goto k v mem events =>
      rw [hcase] at hgo hdefined
      dsimp only at hgo hdefined ⊢
      have hk : k ∈ F.order := (hF.successors _ h.inside.block k (transfer_goto hcase)).1
      have hterm : Owns σ (F.block m.block).term.id :=
        howns _ h.inside.block _ (fun i hi _ heq => hF.id_ne_term h.inside.block hi heq)
          (Function.mem_ids.mpr (.inr rfl))
      have henv : Carried W args σ ((v.map (m.env.set (F.block m.block).term.id)).getD m.env)
          ((v.map (m'.env.set (F.block m.block).term.id)).getD m'.env) := by
        cases v with
        | none => exact h.carried
        | some v => exact h.carried.set hσ hterm v
      have hids : ∀ phi ∈ (F.block k).phis, Owns σ phi.id := by
        intro phi hphi
        have hmem : phi ∈ (F.block k).instrs := (List.takeWhile_sublist _).subset hphi
        refine howns k hk _ (fun i hi hsel heq => ?_) (Function.mem_ids.mpr (.inl ⟨phi, hmem, rfl⟩))
        obtain ⟨-, rfl⟩ := hF.instr_unique hk hk hi hmem heq
        have himp : i.isPhi = true := List.mem_takeWhile_imp hphi
        simp [Instr.isPhi, (hrule.selects i hsel).1] at himp
      refine enter_level hG hrule hF hI hops hk hids h.block rfl
        (congrArg (· ++ events) h.trace) henv
        (fun trace hno => hgoes.defined trace (hgo.trans (congrArg some hno)))
        fun o ho => h.inside.step hF (hgo.trans (congrArg some ho))

/-! ## The whole run -/

/-- The runs are at the same place, or the other is on its way through the code of
an operator that the function is about to run. -/
inductive Match (W : World μ) (args : List Val) (rule : Rule) (F : Function) (σ : Value → Value)
    (code : Nat → List (Instr Op)) (m m' : Machine μ) : Prop
  | level (h : Level W args rule F σ code m m')
  | within (n m'' : Machine μ) (todo rest : List (Instr Op))
      (hstep : step W F args (.running m) = some (.running n)) (hne : todo ≠ [])
      (hrest : m'.rest = todo ++ rest) (hrun : execAll W args todo m' = .running m'')
      (hlevel : Level W args rule F σ code n { m'' with rest := rest })
      (htrace : m'.trace = m.trace) (hquiet : m''.trace = m.trace)

theorem Match.trace (h : Match W args rule F σ code m m') : m'.trace = m.trace := by
  cases h with
  | level h => exact h.trace
  | within _ _ _ _ _ _ _ _ _ htrace _ => exact htrace

/-- How much is left of the block. -/
def left : Config μ → Nat
  | .running m => m.rest.length
  | _ => 0

/-- A step on the way through the code. -/
theorem within_step {n m'' : Machine μ} {todo rest : List (Instr Op)} {t' : Config μ}
    (hstep : step W F args (.running m) = some (.running n)) (hne : todo ≠ [])
    (hrest : m'.rest = todo ++ rest) (hrun : execAll W args todo m' = .running m'')
    (hlevel : Level W args rule F σ code n { m'' with rest := rest })
    (htrace : m'.trace = m.trace) (hquiet : m''.trace = m.trace)
    (ht : step W G args (.running m') = some t') :
    (∃ s', step W F args (.running m) = some s' ∧ Along (Level W args rule F σ code) s' t') ∨
      (Along (Match W args rule F σ code) (.running m) t' ∧ left t' < left (.running m')) := by
  match todo, hne with
  | c :: todo, _ =>
      rw [step_instr hrest, Option.some.injEq, execInstr_rest] at ht
      rw [execAll] at hrun
      cases hc : execInstr W args m' c [] with
      | running m₁ =>
          rw [hc] at ht
          simp only [hc] at hrun
          rw [← ht]
          by_cases hlast : todo = []
          · subst hlast
            cases hrun
            exact .inl ⟨_, hstep, .on hlevel⟩
          · obtain ⟨events, hevents⟩ := execInstr_trace hc
            obtain ⟨events', hevents'⟩ := execAll_trace hrun
            have hquiet₁ : m₁.trace = m.trace := by
              rw [hevents', hevents, htrace, List.append_assoc] at hquiet
              obtain ⟨rfl, -⟩ := List.append_eq_nil_iff.mp (List.append_right_eq_self.mp hquiet)
              rw [hevents, htrace, List.append_nil]
            refine .inr ⟨.on (.within n m'' todo rest hstep hlast rfl ?_ hlevel hquiet₁ hquiet), ?_⟩
            · rw [execAll_rest]
              exact hrun
            · show (todo ++ rest).length < m'.rest.length
              rw [hrest]
              exact Nat.lt_succ_self _
      | _ =>
          simp only [hc] at hrun
          cases hrun

/-- What is left goes along with the function. -/
theorem staggers (W : World μ) (args : List Val) (hG : Replaced rule F G σ code)
    (hrule : rule.Computes op tree) (hF : F.WellFormed) (hI : ∀ d ∈ F.defs, d.1 < F.nextInst)
    (hops : Binary rule F) (hswitch : Switches F) :
    Staggers (step W F args) (step W G args) (fun s => ∀ m, s = .running m → Goes W args rule F m)
      left left (Along (Level W args rule F σ code)) (Along (Match W args rule F σ code)) where
  settled := fun _ _ h => h.mono fun _ _ => .level
  follow := by
    intro s t hst hguard
    cases hst with
    | off hs =>
        refine .inr ⟨fun ht => (step_ended hs).trans ht, fun t' ht => ?_⟩
        obtain rfl := ended_step hs ht
        exact .inl ⟨_, (step_ended hs).trans ht, .off hs⟩
    | @on m m' hmatch =>
        have hgo : step W G args (.running m') = none → step W F args (.running m) = none := by
          intro hno
          obtain ⟨t', ht'⟩ := step_running W G args m'
          rw [hno] at ht'
          cases ht'
        cases hmatch with
        | within n m'' todo rest hstep hne hrest hrun hlevel htrace hquiet =>
            exact .inr ⟨hgo, fun t' =>
              within_step hstep hne hrest hrun hlevel htrace hquiet⟩
        | level h =>
            have hgoes := hguard m rfl
            cases hrest : m.rest with
            | nil =>
                exact .inr ⟨hgo, fun t' ht =>
                  .inl (h.term hG hrule.toBuilds hF hI hops hswitch hgoes hrest ht)⟩
            | cons i rest =>
                cases hsel : rule.selects i with
                | false =>
                    exact .inr ⟨hgo, fun t' ht => .inl (h.other hG hF hI hgoes hrest hsel ht)⟩
                | true =>
                    obtain ⟨n, m'', hstep, hnrest, hrun, hquiet, hlevel⟩ :=
                      h.selected hG hrule hF hI hops hgoes hrest hsel
                    have hrest' : m'.rest = code i.id ++ rest.flatMap (piece rule σ code) := by
                      rw [h.rest, hrest, List.flatMap_cons, piece, if_pos hsel]
                    by_cases hcode : code i.id = []
                    · rw [hcode] at hrun hrest'
                      cases hrun
                      have hsame : { m' with rest := rest.flatMap (piece rule σ code) } = m' := by
                        rw [← List.nil_append (rest.flatMap _), ← hrest']
                      refine .inl ⟨_, hstep, .on (hsame ▸ hlevel), ?_⟩
                      show n.rest.length < m.rest.length
                      rw [hnrest, hrest]
                      exact Nat.lt_succ_self _
                    · exact .inr ⟨hgo, fun t' =>
                        within_step hstep hcode hrest' hrun hlevel h.trace hquiet⟩

end LlvmPasses.MBA
