import LlvmPasses.Proofs.DefinedValues
import LlvmPasses.Proofs.MBASupported

/-!
# The substitutions compute nothing that is poison

The code of an operator that comes to an integer computes integers all the way,
as no operation without flags comes to one from poison. So a run of what a pass
leaves is always level with the run of the function or on its way through the
code of one operator, and in both places every value is defined.

`behaves_substitute` is the substitutions' part in running transformations one
after the other. The hypothesis is that the function behaves: its values are
defined and nothing undefined happens. From it follows that no operator
overflows against its flags (`unflagged_of_defined`), since that would make
poison; so the code, which has no flags, computes the same. That what it
computes on the way is defined as well is an induction on the expression
(`emit_defined`): an operation that comes to an integer does so from integers.

A run of what is left has more moments than one of the function. `Underway`
says where it is, and `Underway.next` that it comes to such a place again. What
is computed inside the code of an operator is defined because the rest of the
code runs through without touching it, and everything is defined in the end.
-/

namespace LlvmPasses

open Ir IRBuilder Transition
open DuplicateBB (IsDefined AllDefined)

/-! ## Operations -/

section

variable {w : Nat} {op : BinOp} {f : Flags} {x y z : Val}

theorem Ir.BinOp.apply_defined (h : op.apply w f x y = some z) (hz : IsDefined z) :
    ∃ a b : BitVec w, x = .int w a ∧ y = .int w b := by
  have hpoison : ∀ p : x = .poison ∨ y = .poison, False := by
    intro p
    rw [BinOp.apply_poison h p] at hz
    exact hz
  obtain ⟨p, q, rfl, rfl⟩ := BinOp.apply_words h
  cases p with
  | none => exact (hpoison (.inl rfl)).elim
  | some a =>
      cases q with
      | none => exact (hpoison (.inr rfl)).elim
      | some b => exact ⟨a, b, rfl, rfl⟩

/-- An operation that comes to integers without flags comes to the same with
them, where it does not come to poison. -/
theorem Ir.BinOp.apply_unflagged
    (hwraps : ∀ a b : BitVec w, ∃ c, op.applyInt {} a b = some (.int w c))
    (h : op.apply w f x y ≠ some .poison) : op.apply w f x y = op.apply w {} x y := by
  rcases op.apply_flags w x y with ⟨o, ho⟩ | ⟨z, hz⟩
  · rw [ho, ho]
  · have hint : op.apply w f x y = some (.int w z) := (hz f).resolve_left h
    obtain ⟨a, b, rfl, rfl⟩ := BinOp.apply_defined hint trivial
    refine hint.trans ((hz {}).resolve_left fun hno => ?_).symm
    obtain ⟨-, happly⟩ := BinOp.apply_int hno
    obtain ⟨c, hc⟩ := hwraps a b
    rw [hc] at happly
    cases happly

end

/-! ## The code for an expression -/

namespace Ir.Expr

variable {μ : Type} {W : World μ} {args : List Val} {τ : Value → Value} {n last w : Nat}
variable {m : Machine μ} {b : IRBuilder} {env : Env} {e : Expr} {z : Val}

/-- Everything that has been inserted has left something defined. -/
def LeftDefined (W : World μ) (args : List Val) (τ : Value → Value) (last n : Nat) (b : IRBuilder)
    (env : Env) : Prop :=
  ∀ id, n ≤ id → id < b.next → ∃ x, Knows W args τ last b env (.inst id) x ∧ IsDefined x

theorem createBinOp_next (op : BinOp) (ty : Ty) (l r : Value) (b : IRBuilder) :
    (createBinOp op ty l r b).2.next = b.next ∨
      (createBinOp op ty l r b).2.next = b.next + 1 ∧
        (createBinOp op ty l r b).1 = .inst b.next := by
  unfold createBinOp
  cases foldBinOp op l r with
  | some v => exact .inl rfl
  | none => exact .inr ⟨rfl, rfl⟩

/-- An expression that comes to something defined comes to it over defined values. -/
theorem emit_defined (hτ : Fixes n τ) (hb : Runs W args τ n m b env)
    (hleaves : ∀ v ∈ e.leaves, ∀ x, Ir.eval W args m.env (τ v) = some x →
      Knows W args τ last b env v x)
    (hlast : (e.emit (.int w) b).2.next ≤ last)
    (heval : e.eval w (fun v => Ir.eval W args m.env (τ v)) = some z) (hz : IsDefined z)
    (hmade : LeftDefined W args τ last n b env) :
    ∃ env', Runs W args τ n m (e.emit (.int w) b).2 env' ∧
      Knows W args τ last (e.emit (.int w) b).2 env' (e.emit (.int w) b).1 z ∧
      (∀ u a, Knows W args τ last b env u a → Knows W args τ last (e.emit (.int w) b).2 env' u a) ∧
      LeftDefined W args τ last n (e.emit (.int w) b).2 env' := by
  induction e generalizing b env z with
  | value v =>
      exact ⟨env, hb, hleaves v (List.mem_singleton_self v) z heval, fun _ _ hu => hu, hmade⟩
  | binop op lhs rhs ihl ihr =>
      obtain ⟨x, y, hx, hy, hxy⟩ := eval_binop heval
      obtain ⟨xi, yi, hxi, hyi⟩ := BinOp.apply_defined hxy hz
      have hxd : IsDefined x := hxi ▸ trivial
      have hyd : IsDefined y := hyi ▸ trivial
      have hend : (createBinOp op (.int w) (lhs.emit (.int w) b).1
          (rhs.emit (.int w) (lhs.emit (.int w) b).2).1
          (rhs.emit (.int w) (lhs.emit (.int w) b).2).2).2.next ≤ last := hlast
      have hright := Nat.le_trans (createBinOp_le _) hend
      have hleft := Nat.le_trans (emit_le rhs (.int w) _) hright
      obtain ⟨env₁, h₁, hv₁, hkept₁, hmade₁⟩ := ihl hb
        (fun v hv => hleaves v (List.mem_append_left _ hv)) hleft hx hxd hmade
      obtain ⟨env₂, h₂, hv₂, hkept₂, hmade₂⟩ := ihr h₁
        (fun v hv u hu => hkept₁ v u (hleaves v (List.mem_append_right _ hv) u hu)) hright hy hyd
        hmade₁
      obtain ⟨env₃, h₃, hv₃, hkept₃⟩ := h₂.createBinOp hτ (hkept₂ _ _ hv₁) hv₂ hxy hend
      refine ⟨env₃, h₃, hv₃, fun u a hu => hkept₃ u a (hkept₂ u a (hkept₁ u a hu)), ?_⟩
      intro id hn hid
      by_cases hold : id < (rhs.emit (.int w) (lhs.emit (.int w) b).2).2.next
      · obtain ⟨x, hx, hxd⟩ := hmade₂ id hn hold
        exact ⟨x, hkept₃ _ x hx, hxd⟩
      · rcases createBinOp_next op (.int w) (lhs.emit (.int w) b).1
          (rhs.emit (.int w) (lhs.emit (.int w) b).2).1
          (rhs.emit (.int w) (lhs.emit (.int w) b).2).2 with hnext | ⟨hnext, hvalue⟩
        · exact absurd (hnext ▸ hid) hold
        · have hlt : id < (rhs.emit (.int w) (lhs.emit (.int w) b).2).2.next + 1 := hnext ▸ hid
          obtain rfl : id = (rhs.emit (.int w) (lhs.emit (.int w) b).2).2.next := by omega
          exact ⟨z, hvalue ▸ hv₃, hz⟩

end Ir.Expr

namespace MBA

variable {μ : Type} {W : World μ} {args : List Val} {rule : Rule} {op : BinOp}
variable {tree : Nat → Value → Value → Expr} {F G : Function} {σ : Value → Value}
variable {code : Nat → List (Instr Op)} {w k : Nat} {m m' n n' : Machine μ} {mem : μ}
variable {i : Instr Op} {a b : Value} {x y z : Val} {rest : List (Instr Op)}

/-- The code of an operator that comes to something defined leaves only defined
values. -/
theorem Replaced.runs_defined (h : Replaced rule F G σ code) (hrule : rule.Computes op tree)
    (hF : F.WellFormed) (hI : ∀ d ∈ F.defs, d.1 < F.nextInst) (hk : k ∈ F.order)
    (hi : i ∈ (F.block k).instrs) (hsel : rule.selects i = true) (hty : i.ty = .int w)
    (hops : i.operands = [a, b]) (hself : .inst i.id ∉ i.operands)
    (hcarried : Carried W args σ m.env m'.env) (hx : eval W args m.env a = some x)
    (hy : eval W args m.env b = some y) (hz : op.apply w {} x y = some z) (hzd : IsDefined z)
    (hm' : m'.env.Defined) :
    ∃ env', execAll W args (code i.id) m' = .running { m' with rest := [], env := env' } ∧
      env'.Defined := by
  have hpicked : i.id ∈ picked rule F := (picked_iff hF hk hi).mpr hsel
  obtain ⟨n, ρ, τ, hn, hτ, hcomp, hbefore, -, hcode⟩ := h.built k hk i hi hpicked
  have hτn : Fixes n τ := ⟨fun id hid => hτ.inst id (Nat.le_trans hn hid), hτ.other⟩
  obtain ⟨hnumbered, -⟩ := build_code hrule.toBuilds hsel hops hbefore
  rw [build_mapOperands hrule.toBuilds hty hops ρ] at hnumbered hcode
  let r := (tree w (ρ a) (ρ b)).emit (.int w) ⟨[], n⟩
  have hids : (code i.id).map Instr.id = List.range' n r.2.inserted.length := by
    rw [hcode, ids_map, hnumbered.ids]
  have hlast : r.2.next = n + r.2.inserted.length := hnumbered.next
  have hoperand : ∀ u ∈ i.operands, ∀ j, σ u = .inst j → j < n ∨ r.2.next ≤ j := by
    intro u hu
    rw [hlast]
    exact h.toReplacing.away hpicked hids hn (hF.operand_before hI hk (mem_operands hi hu))
      fun heq => hself (heq ▸ hu)
  have hleaves : ∀ v ∈ (tree w (ρ a) (ρ b)).leaves, ∀ j, τ v = .inst j → j < n ∨ r.2.next ≤ j := by
    intro v hv
    rcases hrule.leaves _ _ _ v hv with rfl | rfl | ⟨ty, hconst⟩
    · rw [hcomp]
      exact hoperand a (by simp [hops])
    · rw [hcomp]
      exact hoperand b (by simp [hops])
    · intro j hj
      rw [hτ.const hconst] at hj
      subst hj
      cases hconst
  have heval : (tree w (ρ a) (ρ b)).eval w (fun v => eval W args m'.env (τ v)) = some z := by
    refine hrule.sound i w _ _ _ x y z hsel hty (fun w' c => ?_) ?_ ?_ hz
    · rw [hτ.const rfl]
      rfl
    · rw [hcomp]
      exact hcarried a x hx
    · rw [hcomp]
      exact hcarried b y hy
  obtain ⟨env', hruns, -, -, hmade⟩ := Expr.emit_defined hτn (runs_nil m')
    (fun v hv _ hx' => ⟨hx', hleaves v hv⟩) (Nat.le_refl r.2.next) heval hzd
    fun id hid hlt => absurd hid (Nat.not_le_of_lt hlt)
  refine ⟨env', hcode ▸ hruns.run, fun id v hv => ?_⟩
  by_cases hnew : n ≤ id ∧ id < r.2.next
  · obtain ⟨v', hv', hdefined⟩ := hmade id hnew.1 hnew.2
    have hsame := hv'.eval
    rw [hτn.inst id hnew.1] at hsame
    have hsame : env' id = some v' := hsame
    rw [hv] at hsame
    cases hsame
    exact hdefined
  · have hout : id < n ∨ r.2.next ≤ id := by omega
    exact hm' id v ((hruns.frame id hout).symm.trans hv)

/-! ## One step of the function -/

/-- The run of the function goes on, on defined values. -/
structure GoesDefined (W : World μ) (args : List Val) (rule : Rule) (F : Function) (m : Machine μ) :
    Prop extends Goes W args rule F m where
  next : ∀ n, step W F args (.running m) = some (.running n) → n.env.Defined

/-- Where the function runs an operator, its code leaves only defined values. -/
theorem Level.selected_defined (h : Level W args rule F σ code m m')
    (hG : Replaced rule F G σ code) (hrule : rule.Computes op tree) (hF : F.WellFormed)
    (hI : ∀ d ∈ F.defs, d.1 < F.nextInst) (hops : Binary rule F)
    (hgoes : GoesDefined W args rule F m) (hm' : m'.env.Defined) (hrest : m.rest = i :: rest)
    (hsel : rule.selects i = true) :
    ∃ n m'', step W F args (.running m) = some (.running n) ∧ n.rest = rest ∧
      execAll W args (code i.id) m' = .running m'' ∧ m''.env.Defined ∧
      Level W args rule F σ code n { m'' with rest := rest.flatMap (piece rule σ code) } := by
  obtain ⟨n, m'', hstep, hnrest, hrun, -, hlevel⟩ :=
    h.selected hG hrule hF hI hops hgoes.toGoes hrest hsel
  have hi := h.inside.instr_mem hrest
  obtain ⟨a, b, hoperands⟩ := hops _ h.inside.block i hi hsel
  obtain ⟨hop, w, hty⟩ := hrule.selects i hsel
  have hflags := hgoes.unflagged i rest hrest hsel
  have hdefined := hgoes.toGoes.effect hrest
  rw [hflags] at hdefined
  obtain ⟨x, y, z, hx, hy, hz, heffect⟩ :=
    effect_binop (i := { i with flags := {} }) hop hty hoperands hdefined
  have hself : .inst i.id ∉ i.operands := by
    intro hmem
    have hphi : i.isPhi = false := by
      simp only [Instr.isPhi, hop]
      rfl
    have hdebug : i.isDbgInfoIntrinsic = false := by
      simp only [Instr.isDbgInfoIntrinsic, hop]
      rfl
    have hnone := h.inside.unborn _ h.inside.block i hi hphi hmem
    exact hgoes.defined m.trace
      ((step_instr hrest).trans (congrArg some (execInstr_missing hdebug hmem hnone)))
  have hzd : IsDefined z := by
    have hgo : execInstr W args m i rest = .running n :=
      Option.some.inj ((step_instr hrest).symm.trans hstep)
    obtain ⟨v, mem', events, heffect', hassign⟩ := execInstr_running hgo
    rw [hflags, heffect] at heffect'
    cases heffect'
    rcases assign_cases hassign with ⟨hno, -⟩ | ⟨z', hz', henv⟩
    · cases hno
    · cases hz'
      refine hgoes.next n hstep i.id z ?_
      rw [henv]
      exact Env.set_self ..
  obtain ⟨env', hrun', henv'⟩ := hG.runs_defined hrule hF hI h.inside.block hi hsel hty hoperands
    hself h.carried hx hy hz hzd hm'
  rw [hrun] at hrun'
  cases hrun'
  exact ⟨n, _, hstep, hnrest, hrun, henv', hlevel⟩

/-- Other instructions leave something defined. -/
theorem Level.other_defined (h : Level W args rule F σ code m m') (hG : Replaced rule F G σ code)
    (hF : F.WellFormed) (hI : ∀ d ∈ F.defs, d.1 < F.nextInst)
    (hgoes : GoesDefined W args rule F m) (hm' : m'.env.Defined) (hrest : m.rest = i :: rest)
    (hsel : rule.selects i = false) (hgo' : step W G args (.running m') = some (.running n')) :
    ∃ n, step W F args (.running m) = some (.running n) ∧ Level W args rule F σ code n n' ∧
      n'.env.Defined := by
  obtain ⟨s, hs, hlevel⟩ := h.other hG hF hI hgoes.toGoes hrest hsel hgo'
  cases hlevel with
  | off hno => exact absurd rfl (hno n')
  | @on n _ hlevel =>
      refine ⟨n, hs, hlevel, ?_⟩
      have hrest' : m'.rest = i.mapOperands σ :: rest.flatMap (piece rule σ code) := by
        rw [h.rest, hrest, List.flatMap_cons, piece, if_neg (Bool.eq_false_iff.mp hsel)]
        rfl
      have heffect :
          effect W args m'.env m'.mem (i.mapOperands σ) = effect W args m.env m.mem i := by
        rw [h.mem]
        exact effect_carried h.carried (hgoes.toGoes.effect hrest)
      exact defined_instr heffect (Option.some.inj ((step_instr hrest).symm.trans hs))
        (hgoes.next n hs) (Option.some.inj ((step_instr hrest').symm.trans hgo')) hm'

/-- A block is entered with defined values. -/
theorem Level.term_defined (h : Level W args rule F σ code m m') (hG : Replaced rule F G σ code)
    (hrule : rule.Builds op tree) (hF : F.WellFormed) (hI : ∀ d ∈ F.defs, d.1 < F.nextInst)
    (hops : Binary rule F) (hswitch : Switches F)
    (hinvoke : ∀ k ∈ F.order, (F.block k).term.op ≠ .invoke)
    (hgoes : GoesDefined W args rule F m) (hm' : m'.env.Defined) (hrest : m.rest = [])
    (hgo' : step W G args (.running m') = some (.running n')) :
    ∃ n, step W F args (.running m) = some (.running n) ∧ Level W args rule F σ code n n' ∧
      n'.env.Defined := by
  obtain ⟨s, hs, hlevel⟩ := h.term hG hrule hF hI hops hswitch hgoes.toGoes hrest hgo'
  cases hlevel with
  | off hno => exact absurd rfl (hno n')
  | @on n _ hlevel =>
      refine ⟨n, hs, hlevel, ?_⟩
      have hσ : Fixes F.nextInst σ := hG.toReplacing.fixes fun id hid => picked_lt hI hid
      have hk := h.inside.block
      have hrest' : m'.rest = [] := by
        rw [h.rest, hrest]
        rfl
      have hgo := Option.some.inj ((step_term hrest).symm.trans hs)
      have hgo' := Option.some.inj ((step_term hrest').symm.trans hgo')
      rw [h.block, hG.term _ hk] at hgo'
      obtain ⟨j, mem, events, htransfer, henter⟩ := execTerm_running (hinvoke _ hk) hgo
      obtain ⟨j', mem', events', htransfer', henter'⟩ :=
        execTerm_running (t := (F.block m.block).term.mapOperands σ) (hinvoke _ hk) hgo'
      have hsame : W.transfer ((F.block m.block).term.mapOperands σ) (eval W args m'.env) m'.mem =
          W.transfer (F.block m.block).term (eval W args m.env) m.mem := by
        rw [h.mem]
        refine transfer_carried h.carried hG.toReplacing.keepsBlocks (fun hop v hv w c => ?_) ?_
        · rw [hσ.other v (hswitch _ hk hop v hv)]
        · rw [htransfer]
          nofun
      rw [hsame, htransfer] at htransfer'
      cases htransfer'
      have hj : j ∈ F.order := (hF.successors _ hk j (transfer_goto htransfer)).1
      refine defined_enter hF hj (hG.phis hrule hF hops hj).1 (fun phi _ v hv => ?_) henter
        (hgoes.next n hs) henter' hm'
      rw [getIncoming_mapOperands]
      obtain ⟨u, hu, hv⟩ := Option.bind_eq_some_iff.mp hv
      have hu' : phi.getIncomingValueForBlock m'.block = some u := h.block ▸ hu
      show ((phi.getIncomingValueForBlock m'.block).map σ).bind (eval W args m'.env) = some v
      rw [hu']
      exact h.carried u v hv

/-! ## The whole run -/

/-- Where the run of what is left is: level with the run of the function, or on
its way through the code of the operator that the function is about to run. -/
inductive Underway (W : World μ) (args : List Val) (rule : Rule) (F : Function) (σ : Value → Value)
    (code : Nat → List (Instr Op)) (m m' : Machine μ) : Prop
  | level (h : Level W args rule F σ code m m') (hm' : m'.env.Defined)
  | within (m₀ : Machine μ) (i : Instr Op) (rest pre todo : List (Instr Op))
      (h : Level W args rule F σ code m m₀) (hm₀ : m₀.env.Defined) (hrest : m.rest = i :: rest)
      (hsel : rule.selects i = true) (hcode : code i.id = pre ++ todo) (hne : todo ≠ [])
      (hpre : execAll W args pre m₀ = .running { m' with rest := [] })
      (hrest' : m'.rest = todo ++ rest.flatMap (piece rule σ code))

section

variable (hG : Replaced rule F G σ code) (hrule : rule.Computes op tree) (hF : F.WellFormed)
variable (hI : ∀ d ∈ F.defs, d.1 < F.nextInst) (hops : Binary rule F)

include hG hrule hF hI hops

/-- On the way, every value is defined: what the rest of the code leaves alone is
there in the end. -/
theorem Underway.defined (h : Underway W args rule F σ code m m')
    (hgoes : GoesDefined W args rule F m) : m'.env.Defined := by
  cases h with
  | level h hm' => exact hm'
  | within m₀ i rest pre todo h hm₀ hrest hsel hcode hne hpre hrest' =>
      obtain ⟨n, m'', -, -, hrun, hm'', -⟩ :=
        h.selected_defined hG hrule hF hI hops hgoes hm₀ hrest hsel
      rw [hcode, execAll_append hpre] at hrun
      have hi := h.inside.instr_mem hrest
      obtain ⟨a, b, hoperands⟩ := hops _ h.inside.block i hi hsel
      have hpicked := (picked_iff hF h.inside.block hi).mpr hsel
      have hnodup := (hG.built _ h.inside.block i hi hpicked).nodup hrule.toBuilds hsel hoperands
      rw [hcode, List.map_append, List.nodup_append] at hnodup
      intro id v hv
      by_cases hid : id ∈ pre.map Instr.id
      · have hout : id ∉ todo.map Instr.id := fun hid' => hnodup.2.2 id hid id hid' rfl
        exact hm'' id v ((execAll_env hrun hout).trans hv)
      · exact hm₀ id v ((execAll_env hpre hid).symm.trans hv)

/-- One more instruction of the code, which may be the last. -/
theorem within_next {m₀ : Machine μ} {pre todo : List (Instr Op)}
    (h : Level W args rule F σ code m m₀) (hgoes : GoesDefined W args rule F m)
    (hm₀ : m₀.env.Defined) (hrest : m.rest = i :: rest) (hsel : rule.selects i = true)
    (hcode : code i.id = pre ++ todo) (hne : todo ≠ [])
    (hpre : execAll W args pre m₀ = .running { m' with rest := [] })
    (hrest' : m'.rest = todo ++ rest.flatMap (piece rule σ code))
    (hgo : step W G args (.running m') = some (.running n')) :
    Underway W args rule F σ code m n' ∨
      ∃ n, step W F args (.running m) = some (.running n) ∧ Underway W args rule F σ code n n' := by
  match todo, hne with
  | c :: todo, _ =>
      have hexec := Option.some.inj ((step_instr hrest').symm.trans hgo)
      have hnrest : n'.rest = todo ++ rest.flatMap (piece rule σ code) := (execInstr_place hexec).2
      have hall : execAll W args (pre ++ [c]) m₀ = .running { n' with rest := [] } := by
        rw [execAll_append hpre, execAll_rest, execAll]
        rw [execInstr_rest] at hexec
        cases hc : execInstr W args m' c [] with
        | running n₁ =>
            rw [hc] at hexec
            cases hexec
            rfl
        | _ =>
            rw [hc] at hexec
            cases hexec
      have hsplit : code i.id = (pre ++ [c]) ++ todo := by
        rw [hcode, List.append_assoc]
        rfl
      by_cases hlast : todo = []
      · subst hlast
        rw [List.append_nil] at hsplit
        rw [List.nil_append] at hnrest
        obtain ⟨n, m'', hstep, -, hrun, hm'', hlevel⟩ :=
          h.selected_defined hG hrule hF hI hops hgoes hm₀ hrest hsel
        rw [hsplit, hall] at hrun
        cases hrun
        refine .inr ⟨n, hstep, .level ?_ hm''⟩
        rw [← hnrest] at hlevel
        exact hlevel
      · exact .inl (.within m₀ i rest (pre ++ [c]) todo h hm₀ hrest hsel hsplit hlast hall hnrest)

variable (hswitch : Switches F) (hinvoke : ∀ k ∈ F.order, (F.block k).term.op ≠ .invoke)

include hswitch hinvoke

/-- A step of what is left. The function may first have to run operators for which
no code is there. -/
theorem Level.next (h : Level W args rule F σ code m m') (hm' : m'.env.Defined)
    (hgoes : ∀ u, Reaches (step W F args) (.running m) (.running u) → GoesDefined W args rule F u)
    (hgo : step W G args (.running m') = some (.running n')) :
    ∃ n, Reaches (step W F args) (.running m) (.running n) ∧
      Underway W args rule F σ code n n' := by
  induction hlen : m.rest.length using Nat.strongRecOn generalizing m with
  | ind len ih =>
      have hhere := hgoes m (.refl _)
      cases hrest : m.rest with
      | nil =>
          obtain ⟨n, hstep, hlevel, hn'⟩ :=
            h.term_defined hG hrule.toBuilds hF hI hops hswitch hinvoke hhere hm' hrest hgo
          exact ⟨n, .single hstep, .level hlevel hn'⟩
      | cons i rest =>
          cases hsel : rule.selects i with
          | false =>
              obtain ⟨n, hstep, hlevel, hn'⟩ := h.other_defined hG hF hI hhere hm' hrest hsel hgo
              exact ⟨n, .single hstep, .level hlevel hn'⟩
          | true =>
              have hrest' : m'.rest = code i.id ++ rest.flatMap (piece rule σ code) := by
                rw [h.rest, hrest, List.flatMap_cons, piece, if_pos hsel]
              by_cases hcode : code i.id = []
              · obtain ⟨n, m'', hstep, hnrest, hrun, -, hlevel⟩ :=
                  h.selected_defined hG hrule hF hI hops hhere hm' hrest hsel
                rw [hcode] at hrun hrest'
                cases hrun
                have hsame : { m' with rest := rest.flatMap (piece rule σ code) } = m' := by
                  rw [← List.nil_append (rest.flatMap _), ← hrest']
                have hsingle : Reaches (step W F args) (.running m) (.running n) := .single hstep
                have hlt : n.rest.length < len := by
                  rw [← hlen, hnrest, hrest]
                  exact Nat.lt_succ_self _
                obtain ⟨u, hu, hunder⟩ := ih n.rest.length hlt (hsame ▸ hlevel)
                  (fun u hu => hgoes u (hsingle.trans hu)) rfl
                exact ⟨u, hsingle.trans hu, hunder⟩
              · rcases within_next hG hrule hF hI hops h hhere hm' hrest hsel
                    (List.nil_append _).symm
                  hcode rfl hrest' hgo with hunder | ⟨n, hstep, hunder⟩
                · exact ⟨m, .refl _, hunder⟩
                · exact ⟨n, .single hstep, hunder⟩

theorem Underway.next (h : Underway W args rule F σ code m m')
    (hgoes : ∀ u, Reaches (step W F args) (.running m) (.running u) → GoesDefined W args rule F u)
    (hgo : step W G args (.running m') = some (.running n')) :
    ∃ n, Reaches (step W F args) (.running m) (.running n) ∧
      Underway W args rule F σ code n n' := by
  cases h with
  | level h hm' => exact h.next hG hrule hF hI hops hswitch hinvoke hm' hgoes hgo
  | within m₀ i rest pre todo h hm₀ hrest hsel hcode hne hpre hrest' =>
      rcases within_next hG hrule hF hI hops h (hgoes m (.refl _)) hm₀ hrest hsel hcode hne hpre
        hrest' hgo with hunder | ⟨n, hstep, hunder⟩
      · exact ⟨m, .refl _, hunder⟩
      · exact ⟨n, .single hstep, hunder⟩

/-- What is left computes only defined values where the function does. -/
theorem Replaced.allDefined (hflags : Unflagged W args rule F mem)
    (h : Behaves W F args mem) : AllDefined W G args mem := by
  have hgood : ∀ m, Reaches (step W F args) (start F mem) (.running m) →
      GoesDefined W args rule F m := fun m hm =>
    ⟨⟨fun trace hno => h.runs trace (hm.trans (.single hno)), hflags m hm⟩,
      fun n hn => h.values.results n (hm.trans (.single hn))⟩
  refine ⟨hG.params ▸ h.values.given, fun m' hreach => ?_⟩
  have hrun : ∀ n', Config.running m' = .running n' →
      ∃ m, Reaches (step W F args) (start F mem) (.running m) ∧
        Underway W args rule F σ code m n' := by
    refine hreach.induction (P := fun t => ∀ n', t = .running n' → ∃ m,
      Reaches (step W F args) (start F mem) (.running m) ∧ Underway W args rule F σ code m n')
      (fun n' hn' => ?_) fun s t hs hstep n' hn' => ?_
    · have hlevel : Along (Level W args rule F σ code) (start F mem) (start G mem) :=
        start_level hG hrule.toBuilds hF hI hops
      have hnone : n'.env.Defined := by
        cases hn'
        nofun
      rw [hn'] at hlevel
      generalize hs : start F mem = s at hlevel
      cases hlevel with
      | @on m _ hlevel => exact ⟨m, hs ▸ .refl _, .level hlevel hnone⟩
      | off hno => exact absurd rfl (hno n')
    · subst hn'
      cases s with
      | running m₁ =>
          obtain ⟨m, hm, hunder⟩ := hs m₁ rfl
          obtain ⟨n, hn, hunder'⟩ := hunder.next hG hrule hF hI hops hswitch hinvoke
            (fun u hu => hgood u (hm.trans hu)) hstep
          exact ⟨n, hm.trans hn, hunder'⟩
      | waiting trace => cases hstep
      | _ => cases hstep
  obtain ⟨m, hm, hunder⟩ := hrun m' rfl
  exact hunder.defined hG hrule hF hI hops (hgood m hm)

end

/-! ## The passes -/

/-- Without flags the operators come to integers. -/
def Wraps (op : BinOp) : Prop :=
  ∀ (w : Nat) (a b : BitVec w), ∃ c, op.applyInt {} a b = some (.int w c)

/-- Whatever its flags, a binary instruction comes to nothing defined, or it
computes from the same two values. -/
theorem effect_flagged {env : Env} (hop : i.op = .binop op) (hty : i.ty = .int w)
    (hoperands : i.operands = [a, b]) :
    (∀ f : Flags, effect W args env mem { i with flags := f } = .undefined) ∨
      ∃ x y, ∀ f : Flags,
        effect W args env mem { i with flags := f } = computes mem (op.apply w f x y) := by
  have hdebug : ∀ f : Flags, ({ i with flags := f } : Instr Op).isDbgInfoIntrinsic = false := by
    intro f
    simp only [Instr.isDbgInfoIntrinsic, hop]
    rfl
  have heffect : ∀ f : Flags, effect W args env mem { i with flags := f } =
      (evalAll (eval W args env) [a, b]).elim .undefined fun vals =>
        W.apply (.binop op) (.int w) f vals mem := by
    intro f
    unfold effect
    rw [hdebug, if_neg Bool.false_ne_true]
    simp only [hoperands, hop, hty]
    cases evalAll (eval W args env) [a, b] <;> rfl
  cases hx : eval W args env a with
  | none =>
      have hall : evalAll (eval W args env) [a, b] = none := by simp [evalAll, hx]
      exact .inl fun f => by rw [heffect, hall, Option.elim_none]
  | some x =>
      cases hy : eval W args env b with
      | none =>
          have hall : evalAll (eval W args env) [a, b] = none := by simp [evalAll, hx, hy]
          exact .inl fun f => by rw [heffect, hall, Option.elim_none]
      | some y =>
          have hall : evalAll (eval W args env) [a, b] = some [x, y] := by simp [evalAll, hx, hy]
          refine .inr ⟨x, y, fun f => ?_⟩
          rw [heffect, hall]
          rfl

/-- Operators that never come to poison are not poison for their flags. -/
theorem unflagged_of_defined (hrule : rule.Builds op tree) (hwraps : Wraps op) (hF : F.WellFormed)
    (hops : Binary rule F)
    (h : ∀ m, Reaches (step W F args) (start F mem) (.running m) → m.env.Defined) :
    Unflagged W args rule F mem := by
  intro m hm i rest hrest hsel
  have hinside := inside_of_reaches hF hm
  obtain ⟨a, b, hoperands⟩ := hops _ hinside.block i (hinside.instr_mem hrest) hsel
  obtain ⟨hop, w, hty⟩ := hrule.selects i hsel
  have hself : ({ i with flags := i.flags } : Instr Op) = i := rfl
  rw [← hself]
  rcases effect_flagged hop hty hoperands with hundefined | ⟨x, y, hcomputed⟩
  · rw [hundefined, hundefined]
  · rw [hcomputed, hcomputed]
    refine congrArg (computes m.mem) (BinOp.apply_unflagged (hwraps w) fun hpoison => ?_)
    have hdone : effect W args m.env m.mem i = .done (some .poison) m.mem [] := by
      rw [← hself, hcomputed]
      simp only [hpoison, computes]
    have hassign : m.env.assign i.id i.ty (some .poison) = some (m.env.set i.id .poison) := by
      rw [hty]
      rfl
    have hexec : execInstr W args m i rest =
        .running { m with rest, env := m.env.set i.id .poison } := by
      unfold execInstr
      simp only [hdone, hassign, List.append_nil]
    have hnext := h _ (hm.trans (.single ((step_instr hrest).trans (congrArg some hexec))))
    exact hnext i.id .poison (Env.set_self ..)

/-- What a rule's pass leaves does what the function does, on defined values. -/
theorem behaves_substitute (hcomputes : rule.Computes op tree) (htyped : rule.Typed op tree)
    (hwraps : Wraps op) (hF : F.Supported) (h : Behaves W F args mem) :
    Behaves W (substitute rule F).2 args mem ∧ Alike W F (substitute rule F).2 args mem := by
  have hops : Binary rule F := binary_of_wellTyped htyped.toBuilds hF.wellTyped
  obtain ⟨σ, code, hG⟩ := substitute_replaced htyped.toBuilds hF.wellFormed hF.issued.insts hops
  have hflags : Unflagged W args rule F mem :=
    unflagged_of_defined htyped.toBuilds hwraps hF.wellFormed hops h.values.results
  have halike := (carries hG hcomputes hF.wellFormed hF.issued.insts hops hF.switches hflags).alike
    h.runs
  exact ⟨⟨hG.allDefined hcomputes hF.wellFormed hF.issued.insts hops hF.switches hF.not_invoke
      hflags h,
    halike.defined h.runs⟩, halike⟩

end MBA

end LlvmPasses
