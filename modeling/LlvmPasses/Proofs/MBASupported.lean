import LlvmPasses.Proofs.FCmpTypes
import LlvmPasses.Proofs.MBAMeaning
import LlvmPasses.Proofs.Supported

/-!
# The substitutions leave functions that the passes support

The handles of the code are new, and what stands in it names operands of the
operator, constants and results of the same code, all of the operator's type.
Whatever is named instead of an operator has its type too, so that everything
else is as well formed and as well typed as before.

`supported_substitute` has each condition of `Supported` hold again. For
handles it counts: what stands for a definition has handles of its own, and
those of different definitions do not meet (`nodup_ids`). For names and types
it goes by what an instruction of the result is (`Replaced.mem_cases`): part of
the code of an operator, or an instruction that was there. In code an operand
is one of the operator's, a constant, or an earlier result of the same code
(`Built.operand`), and all of these have the operator's type. Blocks and edges
are those of the function, so PHI nodes match them as before.
-/

namespace LlvmPasses

open Ir IRBuilder

namespace Ir.Expr

variable {T : Value → Ty} {w : Nat}

/-- What is made of integers of one type is well typed. -/
theorem emit_sound (e : Expr) (b : IRBuilder) (hconst : ∀ v ty, v.constTy = some ty → T v = ty)
    (hleaves : ∀ v ∈ e.leaves, T v = .int w) (hT : Named T (e.emit (.int w) b).2) :
    T (e.emit (.int w) b).1 = .int w ∧ Named T b ∧
      (Sound T b → Sound T (e.emit (.int w) b).2) := by
  induction e generalizing b with
  | value v => exact ⟨hleaves v (List.mem_singleton_self v), hT, id⟩
  | binop op lhs rhs ihl ihr =>
      have hl : ∀ v ∈ lhs.leaves, T v = .int w := fun v hv => hleaves v (List.mem_append_left _ hv)
      have hr : ∀ v ∈ rhs.leaves, T v = .int w := fun v hv => hleaves v (List.mem_append_right _ hv)
      let left := lhs.emit (.int w) b
      let right := rhs.emit (.int w) left.2
      have hconstL : ∀ ty, left.1.constTy = some ty → ty = .int w := by
        intro ty hty
        rcases createBinOp_cases op (.int w) left.1 right.1 right.2 with ⟨ty', hmade⟩
        have hT' : Named T right.2 := hmade.named hT
        have hT'' : Named T left.2 := (ihr left.2 hr hT').2.1
        exact (hconst _ _ hty).symm.trans (ihl b hl hT'').1
      have hmade : Made (.int w) (.binop op) [left.1, right.1] right.2
          (createBinOp op (.int w) left.1 right.1 right.2) := createBinOp_made hconstL right.2
      obtain ⟨hvr, hTl, hsr⟩ := ihr left.2 hr (hmade.named hT)
      obtain ⟨hvl, hTb, hsl⟩ := ihl b hl hTl
      refine ⟨hmade.typeOf hconst hT, hTb, fun hs => ?_⟩
      refine (hmade.sound_iff (c := True) (fun _ => trivial) fun id => ?_).mpr
        ⟨hsr (hsl hs), trivial⟩
      have hvl : T left.1 = .int w := hvl
      have hvr : T right.1 = .int w := hvr
      simp [Instr.checks, hvl, hvr, Ty.scalar, Ty.isIntegerTy]

/-- An operation on a constant of a type is of this type if it is a constant. -/
theorem emit_constTy {op : BinOp} {l : Expr} {c : Value} {ty : Ty} (b : IRBuilder)
    (hc : c.constTy = some (.int w))
    (hv : ((Expr.binop op l (.value c)).emit (.int w) b).1.constTy = some ty) : ty = .int w := by
  rw [emit_binop] at hv
  unfold createBinOp at hv
  cases hfold : foldBinOp op (l.emit (.int w) b).1
      ((Expr.value c).emit (.int w) (l.emit (.int w) b).2).1 with
  | some v =>
      rw [hfold] at hv
      obtain ⟨w', -, hr, hv'⟩ := foldBinOp_constTy hfold
      have hsame : c.constTy = some (.int w') := hr
      rw [hc] at hsame
      have hvc : v.constTy = some ty := hv
      rw [hv', ← hsame] at hvc
      exact (Option.some.inj hvc).symm
  | none =>
      rw [hfold] at hv
      cases hv

/-- None of it is a PHI node. -/
theorem emit_incoming (e : Expr) (ty : Ty) (b : IRBuilder)
    (hb : ∀ i ∈ b.inserted, i.incoming = []) : ∀ i ∈ (e.emit ty b).2.inserted, i.incoming = [] := by
  induction e generalizing b with
  | value v => exact hb
  | binop op lhs rhs ihl ihr =>
      intro i hi
      rcases mem_createBinOp hi with hi | rfl
      · exact ihr _ (ihl b hb) i hi
      · rfl

end Ir.Expr

namespace MBA

/-- The expressions are of the operator's type, and so is a constant that is
operated on last. -/
structure Rule.Typed (rule : Rule) (op : BinOp) (tree : Nat → Value → Value → Expr) : Prop
    extends Rule.Builds rule op tree where
  constants : ∀ i w a b, rule.selects i = true → i.ty = .int w → ∀ v ∈ (tree w a b).leaves,
    v = a ∨ v = b ∨ v.constTy = some (.int w)
  last : ∀ i w a b, rule.selects i = true → i.ty = .int w →
    ∃ op' l c, tree w a b = .binop op' l (.value c) ∧ c.constTy = some (.int w)

variable {rule : Rule} {op : BinOp} {tree : Nat → Value → Value → Expr} {F G : Function}
variable {σ : Value → Value} {code : Nat → List (Instr Op)} {i c : Instr Op} {l : List (Instr Op)}
variable {a b u v : Value} {n w k : Nat}

/-! ## What stands in the code -/

theorem Built.nodup (h : Built rule n σ i v l) (hrule : rule.Builds op tree)
    (hsel : rule.selects i = true) (hops : i.operands = [a, b]) : (l.map Instr.id).Nodup := by
  obtain ⟨m, ρ, τ, -, -, -, hbefore, -, rfl⟩ := h
  rw [ids_map]
  exact (build_code hrule hsel hops hbefore).1.nodup

/-- An operand is one of the operator, a constant, or comes from the same code. -/
theorem Built.operand (h : Built rule n σ i v l) (hrule : rule.Builds op tree)
    (hsel : rule.selects i = true) (hops : i.operands = [a, b]) (hc : c ∈ l)
    (hu : u ∈ c.operands) : (∃ u' ∈ i.operands, u = σ u') ∨ (∃ ty, u.constTy = some ty) ∨
      ∃ j ∈ l.map Instr.id, u = .inst j := by
  obtain ⟨m, ρ, τ, hle, hτ, hcomp, hbefore, -, rfl⟩ := h
  obtain ⟨-, w, hty⟩ := hrule.selects i hsel
  have hcode := (build_code hrule hsel hops hbefore).1
  rw [build_mapOperands hrule hty hops] at hc hcode ⊢
  obtain ⟨c', hc', rfl⟩ := List.mem_map.mp hc
  obtain ⟨u', hu', rfl⟩ := List.mem_map.mp hu
  rcases Expr.emit_inserted (tree w (ρ a) (ρ b)) (.int w) ⟨[], m⟩ (Nat.le_refl m) c' hc' with
    hno | ⟨-, -, huses⟩
  · cases hno
  · rcases huses u' hu' with hleaf | ⟨ty, hconst⟩ | ⟨id, rfl, hid⟩
    · rcases hrule.leaves _ _ _ u' hleaf with rfl | rfl | ⟨ty, hconst⟩
      · exact .inl ⟨a, by simp [hops], hcomp a⟩
      · exact .inl ⟨b, by simp [hops], hcomp b⟩
      · exact .inr (.inl ⟨ty, by rwa [hτ.const hconst]⟩)
    · exact .inr (.inl ⟨ty, by rwa [hτ.const hconst]⟩)
    · refine .inr (.inr ⟨id, ?_, hτ.inst id (Nat.le_trans hle hid)⟩)
      rw [ids_map, hcode.ids, List.mem_range'_1, ← hcode.next]
      exact ⟨hid, hcode.before c' hc' _ hu' id rfl⟩

theorem Built.incoming (h : Built rule n σ i v l) (hrule : rule.Builds op tree)
    (hsel : rule.selects i = true) (hops : i.operands = [a, b]) (hc : c ∈ l) : c.incoming = [] := by
  obtain ⟨m, ρ, τ, -, -, -, -, -, rfl⟩ := h
  obtain ⟨-, w, hty⟩ := hrule.selects i hsel
  rw [build_mapOperands hrule hty hops] at hc
  obtain ⟨c', hc', rfl⟩ := List.mem_map.mp hc
  exact Expr.emit_incoming _ _ ⟨[], m⟩ (List.forall_mem_nil _) c' hc'

/-- The code is well typed if what it names instead of the operands has the
operator's type. -/
theorem Built.checks {T : Value → Ty} (h : Built rule n σ i v l) (hrule : rule.Typed op tree)
    (hsel : rule.selects i = true) (hty : i.ty = .int w) (hops : i.operands = [a, b])
    (hconst : ∀ v ty, v.constTy = some ty → T v = ty)
    (hoperands : ∀ u ∈ i.operands, T (σ u) = .int w)
    (hT : ∀ c ∈ l, T (.inst c.id) = c.ty) : ∀ c ∈ l, c.checks T = true := by
  obtain ⟨m, ρ, τ, hle, hτ, hcomp, hbefore, -, rfl⟩ := h
  have hcode := (build_code hrule.toBuilds hsel hops hbefore).1
  rw [build_mapOperands hrule.toBuilds hty hops] at hcode hT ⊢
  have hconst' : ∀ v ty, v.constTy = some ty → T (τ v) = ty := fun v ty hv => by
    rw [hτ.const hv]
    exact hconst v ty hv
  have hleaves : ∀ v ∈ (tree w (ρ a) (ρ b)).leaves, T (τ v) = .int w := by
    intro v hv
    rcases hrule.constants i w _ _ hsel hty v hv with rfl | rfl | hv
    · rw [hcomp]
      exact hoperands a (by simp [hops])
    · rw [hcomp]
      exact hoperands b (by simp [hops])
    · exact hconst' v _ hv
  have hnamed : Named (fun v => T (τ v)) ((tree w (ρ a) (ρ b)).emit (.int w) ⟨[], m⟩).2 := by
    intro c hc
    have hself := hT _ (List.mem_map_of_mem hc)
    show T (τ (.inst c.id)) = c.ty
    rw [hτ.inst c.id (Nat.le_trans hle (hcode.le_id hc).1)]
    exact hself
  have hsound := (Expr.emit_sound _ ⟨[], m⟩ hconst' hleaves hnamed).2.2 (List.forall_mem_nil _)
  intro c hc
  obtain ⟨c', hc', rfl⟩ := List.mem_map.mp hc
  rw [checks_mapOperands]
  exact hsound c' hc'

/-- A constant that stands for an operator has the operator's type. -/
theorem Built.constTy {ty : Ty} (h : Built rule n σ i v l) (hrule : rule.Typed op tree)
    (hsel : rule.selects i = true) (hops : i.operands = [a, b]) (hv : v.constTy = some ty) :
    ty = i.ty := by
  obtain ⟨m, ρ, τ, -, -, -, -, rfl, -⟩ := h
  obtain ⟨-, w, hty⟩ := hrule.selects i hsel
  obtain ⟨op', l', c, htree, hc⟩ := hrule.last i w (ρ a) (ρ b) hsel hty
  rw [build_mapOperands hrule.toBuilds hty hops, htree] at hv
  rw [hty]
  exact Expr.emit_constTy _ hc hv

/-! ## Handles -/

/-- The handles of what stands for a definition. -/
def standsFor (rule : Rule) (F : Function) (code : Nat → List (Instr Op)) (id : Nat) : List Nat :=
  if id ∈ picked rule F then (code id).map Instr.id else [id]

theorem term_not_picked (hF : F.WellFormed) (hk : k ∈ F.order) :
    (F.block k).term.id ∉ picked rule F := by
  intro h
  obtain ⟨j, hj, i, hi, -, heq⟩ := mem_picked.mp h
  obtain rfl := hF.block_unique hj hk (Function.mem_ids.mpr (.inl ⟨i, hi, heq⟩))
    (Function.mem_ids.mpr (.inr rfl))
  exact hF.id_ne_term hj hi heq

theorem Replaced.order (hG : Replaced rule F G σ code) : G.order = F.order := by
  rw [hG.same]

theorem Replaced.params (hG : Replaced rule F G σ code) : G.params = F.params := by
  rw [hG.same]

theorem Replaced.entry (hG : Replaced rule F G σ code) : G.entry = F.entry :=
  congrArg (fun order : List Nat => order.headD 0) hG.order

theorem Replaced.ids (hG : Replaced rule F G σ code) (hF : F.WellFormed) :
    G.defs.map Prod.fst = (F.defs.map Prod.fst).flatMap (standsFor rule F code) := by
  rw [Function.ids_eq, Function.ids_eq, hG.order, List.flatMap_assoc]
  refine List.flatMap_congr fun k hk => ?_
  have hpiece : ∀ i ∈ (F.block k).instrs,
      (piece rule σ code i).map Instr.id = standsFor rule F code i.id := by
    intro i hi
    unfold piece standsFor
    by_cases hsel : rule.selects i = true
    · rw [if_pos hsel, if_pos ((picked_iff hF hk hi).mpr hsel)]
    · rw [if_neg hsel, if_neg fun h => hsel ((picked_iff hF hk hi).mp h)]
      rfl
  have hterm : standsFor rule F code (F.block k).term.id = [(F.block k).term.id] :=
    if_neg (term_not_picked hF hk)
  unfold Block.defs
  rw [hG.instrs k hk, hG.term k hk]
  simp only [List.map_append, List.map_map, List.map_flatMap, List.flatMap_append, List.flatMap_map,
    List.map_singleton, List.flatMap_singleton, Function.comp_def]
  rw [hterm]
  exact congrArg (· ++ _) (List.flatMap_congr hpiece)

theorem nodup_ids (hG : Replaced rule F G σ code) (hrule : rule.Builds op tree)
    (hF : F.WellFormed) (hI : ∀ d ∈ F.defs, d.1 < F.nextInst) (hops : Binary rule F) :
    (G.defs.map Prod.fst).Nodup := by
  have hlt : ∀ id ∈ F.defs.map Prod.fst, id < F.nextInst := by
    intro id hid
    obtain ⟨d, hd, rfl⟩ := List.mem_map.mp hid
    exact hI d hd
  rw [hG.ids hF]
  refine List.nodup_flatMap.mpr ⟨fun id _ => ?_,
    List.Pairwise.imp_of_mem (fun {id id'} hid hid' hne j hj hj' => ?_) hF.ids_nodup⟩
  · unfold standsFor
    split
    · next hpicked =>
        obtain ⟨k, hk, i, hi, hsel, rfl⟩ := mem_picked.mp hpicked
        obtain ⟨a, b, hoperands⟩ := hops k hk i hi hsel
        exact (hG.built k hk i hi hpicked).nodup hrule hsel hoperands
    · exact List.nodup_singleton id
  · unfold standsFor at hj hj'
    split at hj <;> split at hj'
    · next h h' => exact hG.apart id h id' h' hne j hj hj'
    · next h _ =>
        have hle := (hG.fresh id h j hj).1
        have hlow := hlt id' hid'
        rw [List.mem_singleton] at hj'
        omega
    · next _ h' =>
        have hle := (hG.fresh id' h' j hj').1
        have hlow := hlt id hid
        rw [List.mem_singleton] at hj
        omega
    · exact hne ((List.mem_singleton.mp hj).symm.trans (List.mem_singleton.mp hj'))

/-! ## Names and types -/

theorem Replaced.mem_code (hG : Replaced rule F G σ code) (hk : k ∈ F.order)
    (hi : i ∈ (F.block k).instrs) (hsel : rule.selects i = true) (hc : c ∈ code i.id) :
    c ∈ (G.block k).instrs := by
  rw [hG.instrs k hk]
  refine List.mem_flatMap.mpr ⟨i, hi, ?_⟩
  rw [piece, if_pos hsel]
  exact hc

theorem Replaced.mem_other (hG : Replaced rule F G σ code) (hk : k ∈ F.order)
    (hi : i ∈ (F.block k).instrs) (hsel : ¬ rule.selects i = true) :
    i.mapOperands σ ∈ (G.block k).instrs := by
  rw [hG.instrs k hk]
  refine List.mem_flatMap.mpr ⟨i, hi, ?_⟩
  rw [piece, if_neg hsel]
  exact List.mem_singleton_self _

/-- An instruction of what is left: it is in the code of an operator, or stands
for an instruction that is none. -/
theorem Replaced.mem_cases (hG : Replaced rule F G σ code) (hk : k ∈ F.order)
    (hc : c ∈ (G.block k).instrs) : ∃ i ∈ (F.block k).instrs,
      (rule.selects i = true ∧ c ∈ code i.id) ∨
        (¬ rule.selects i = true ∧ c = i.mapOperands σ) := by
  rw [hG.instrs k hk] at hc
  obtain ⟨i, hi, hc⟩ := List.mem_flatMap.mp hc
  unfold piece at hc
  split at hc
  · next hsel => exact ⟨i, hi, .inl ⟨hsel, hc⟩⟩
  · next hsel => exact ⟨i, hi, .inr ⟨hsel, List.mem_singleton.mp hc⟩⟩

theorem Replaced.mem_defs (hG : Replaced rule F G σ code) (hk : k ∈ F.order)
    (hc : c ∈ (G.block k).instrs) : (c.id, c.ty) ∈ G.defs :=
  Function.mem_defs_of_instr (hG.order.symm ▸ hk) hc

/-- What is defined elsewhere is still defined. -/
theorem Replaced.defs_kept (hG : Replaced rule F G σ code) {d : Nat × Ty} (hd : d ∈ F.defs)
    (hout : d.1 ∉ picked rule F) : d ∈ G.defs := by
  obtain ⟨k, hk, hd⟩ := Function.mem_defs.mp hd
  rcases List.mem_append.mp hd with hd | hd
  · obtain ⟨i, hi, rfl⟩ := List.mem_map.mp hd
    have hnot : ¬ rule.selects i = true := fun hsel =>
      hout (mem_picked.mpr ⟨k, hk, i, hi, hsel, rfl⟩)
    have hdefs := hG.mem_defs hk (hG.mem_other hk hi hnot)
    exact hdefs
  · obtain rfl := List.mem_singleton.mp hd
    have hdefs := Function.mem_defs_term (F := G) (hG.order.symm ▸ hk)
    rwa [hG.term k hk] at hdefs

theorem typeOf_of_mem (hnodup : (F.defs.map Prod.fst).Nodup) {d : Nat × Ty} (hd : d ∈ F.defs) :
    F.typeOf (.inst d.1) = d.2 :=
  Function.typeOf_inst hd fun _ hd' heq =>
    congrArg Prod.snd (List.inj_on_of_nodup_map hnodup hd' hd heq)

theorem names_const {ty : Ty} (hv : v.constTy = some ty) : G.Names v := by
  cases v with
  | inst id => cases hv
  | arg i => cases hv
  | block k => cases hv
  | _ => trivial

section

variable (hG : Replaced rule F G σ code) (hrule : rule.Typed op tree) (hF : F.WellFormed)
variable (hI : ∀ d ∈ F.defs, d.1 < F.nextInst) (hops : Binary rule F)

include hG hrule hF hI hops

/-- What is named instead has a value, of the same type. -/
theorem Replaced.names (hv : F.Names v) : G.Names (σ v) ∧ G.typeOf (σ v) = F.typeOf v := by
  have hσ : Fixes F.nextInst σ := hG.toReplacing.fixes fun id hid => picked_lt hI hid
  have hnodup := nodup_ids hG hrule.toBuilds hF hI hops
  cases v with
  | inst id =>
      obtain ⟨d, hd, rfl, hty⟩ := hv
      rw [typeOf_of_mem hF.ids_nodup hd]
      by_cases hpicked : d.1 ∈ picked rule F
      · obtain ⟨k, hk, i, hi, hsel, hid⟩ := mem_picked.mp hpicked
        obtain ⟨a, b, hoperands⟩ := hops k hk i hi hsel
        obtain rfl : (i.id, i.ty) = d :=
          List.inj_on_of_nodup_map hF.ids_nodup (Function.mem_defs_of_instr hk hi) hd hid
        have hbuilt := hG.built k hk i hi hpicked
        rcases hG.value i.id hpicked with ⟨ty, hconst⟩ | ⟨j, hj, heq⟩
        · exact ⟨names_const hconst, (Function.typeOf_const G hconst).trans
            (hbuilt.constTy hrule hsel hoperands hconst)⟩
        · obtain ⟨c, hc, rfl⟩ := List.mem_map.mp hj
          have hcty := (hbuilt.instr hrule.toBuilds hsel hoperands hc).1
          have hdefs := hG.mem_defs hk (hG.mem_code hk hi hsel hc)
          have hctype : G.typeOf (.inst c.id) = c.ty := typeOf_of_mem hnodup hdefs
          rw [heq]
          exact ⟨⟨_, hdefs, rfl, hcty ▸ hty⟩, hctype.trans hcty⟩
      · have hkept : σ (.inst d.1) = .inst d.1 := hG.kept _ fun j hj heq => by
          cases heq
          exact hpicked hj
        have hdefs := hG.defs_kept hd hpicked
        rw [hkept]
        exact ⟨⟨d, hdefs, rfl, hty⟩, typeOf_of_mem hnodup hdefs⟩
  | arg j =>
      rw [hσ.other _ rfl]
      refine ⟨?_, ?_⟩
      · show j < G.params.length
        rw [hG.params]
        exact hv
      · show G.params.getD j .void = F.params.getD j .void
        rw [hG.params]
  | block j =>
      rw [hσ.other _ rfl]
      refine ⟨?_, rfl⟩
      show j ∈ G.order
      rw [hG.order]
      exact hv
  | _ =>
      rw [hσ.other _ rfl]
      exact ⟨trivial, rfl⟩

/-- What an instruction names where it stands. -/
theorem Replaced.names_instr (hk : k ∈ F.order) (hc : c ∈ (G.block k).instrs) :
    ∀ u ∈ c.operands, G.Names u := by
  have hoperand : ∀ i ∈ (F.block k).instrs, ∀ u ∈ i.operands, G.Names (σ u) := fun i hi u hu =>
    (hG.names hrule hF hI hops (hF.operands k hk u (mem_operands hi hu))).1
  intro u hu
  obtain ⟨i, hi, ⟨hsel, hc⟩ | ⟨-, rfl⟩⟩ := hG.mem_cases hk hc
  · obtain ⟨a, b, hoperands⟩ := hops k hk i hi hsel
    have hbuilt := hG.built k hk i hi ((picked_iff hF hk hi).mpr hsel)
    rcases hbuilt.operand hrule.toBuilds hsel hoperands hc hu with
      ⟨u', hu', rfl⟩ | ⟨ty, hconst⟩ | ⟨j, hj, rfl⟩
    · exact hoperand i hi u' hu'
    · exact names_const hconst
    · obtain ⟨c', hc', rfl⟩ := List.mem_map.mp hj
      have hcty := (hbuilt.instr hrule.toBuilds hsel hoperands hc').1
      obtain ⟨-, w, hty⟩ := hrule.selects i hsel
      refine ⟨_, hG.mem_defs hk (hG.mem_code hk hi hsel hc'), rfl, ?_⟩
      show c'.ty ≠ .void
      rw [hcty, hty]
      nofun
  · obtain ⟨u', hu', rfl⟩ := List.mem_map.mp hu
    exact hoperand i hi u' hu'

theorem Replaced.wellFormed : G.WellFormed where
  nonempty := hG.order.symm ▸ hF.nonempty
  nodup := hG.order.symm ▸ hF.nodup
  ids_nodup := nodup_ids hG hrule.toBuilds hF hI hops
  operands := by
    rw [hG.order]
    intro k hk v hv
    rcases List.mem_append.mp hv with hv | hv
    · obtain ⟨c, hc, hv⟩ := List.mem_flatMap.mp hv
      exact hG.names_instr hrule hF hI hops hk hc v hv
    · rw [hG.term k hk] at hv
      obtain ⟨u, hu, rfl⟩ := List.mem_map.mp hv
      exact (hG.names hrule hF hI hops (hF.operands k hk u (List.mem_append_right _ hu))).1
  successors := by
    rw [hG.order, hG.entry]
    intro k hk j hj
    have hsucc : G.successors k = F.successors k := by
      unfold Function.successors
      rw [hG.term k hk, successors_map hG.toReplacing.keepsBlocks]
    exact hF.successors k hk j (hsucc ▸ hj)
  terminators := by
    rw [hG.order]
    intro k hk
    rw [hG.term k hk]
    exact hF.terminators k hk
  debug := by
    rw [hG.order]
    intro k hk c hc hdebug
    obtain ⟨i, hi, ⟨hsel, hc⟩ | ⟨-, rfl⟩⟩ := hG.mem_cases hk hc
    · obtain ⟨a, b, hoperands⟩ := hops k hk i hi hsel
      have hbuilt := hG.built k hk i hi ((picked_iff hF hk hi).mpr hsel)
      obtain ⟨-, ⟨_, _, _, op', -, hop⟩, -⟩ := hbuilt.instr hrule.toBuilds hsel hoperands hc
      simp [Instr.isDbgInfoIntrinsic, hop] at hdebug
    · obtain ⟨hty, hnone⟩ := hF.debug k hk i hi hdebug
      refine ⟨hty, fun v hv => ?_⟩
      obtain ⟨u, hu, rfl⟩ := List.mem_map.mp hv
      have hσ : Fixes F.nextInst σ := hG.toReplacing.fixes fun id hid => picked_lt hI hid
      rw [hσ.other u (hnone u hu)]
      exact hnone u hu
  phis := by
    rw [hG.order]
    intro k hk c hc
    rw [(hG.phis hrule.toBuilds hF hops hk).2] at hc
    obtain ⟨i, hi, hc⟩ := List.mem_flatMap.mp hc
    have hi' : i ∈ (F.block k).instrs := (List.dropWhile_sublist _).subset hi
    unfold piece at hc
    split at hc
    · next hsel =>
        obtain ⟨a, b, hoperands⟩ := hops k hk i hi' hsel
        have hbuilt := hG.built k hk i hi' ((picked_iff hF hk hi').mpr hsel)
        obtain ⟨-, ⟨_, _, _, op', -, hop⟩, -⟩ := hbuilt.instr hrule.toBuilds hsel hoperands hc
        simp [Instr.isPhi, hop]
    · obtain rfl := List.mem_singleton.mp hc
      exact hF.phis k hk i hi
  incoming := by
    rw [hG.order]
    intro k hk c hc
    rw [(hG.phis hrule.toBuilds hF hops hk).1] at hc
    obtain ⟨i, hi, rfl⟩ := List.mem_map.mp hc
    rw [Instr.mapOperands, List.length_map]
    exact hF.incoming k hk i hi

theorem Replaced.wellTyped (hty : F.WellTyped) : G.WellTyped := by
  have hnodup := nodup_ids hG hrule.toBuilds hF hI hops
  unfold Function.WellTyped
  rw [hG.order]
  intro k hk c hc
  have htype : ∀ i ∈ (F.block k).instrs, ∀ u ∈ i.operands, G.typeOf (σ u) = F.typeOf u :=
    fun i hi u hu => (hG.names hrule hF hI hops (hF.operands k hk u (mem_operands hi hu))).2
  obtain ⟨i, hi, ⟨hsel, hc⟩ | ⟨-, rfl⟩⟩ := hG.mem_cases hk hc
  · obtain ⟨a, b, hoperands⟩ := hops k hk i hi hsel
    obtain ⟨hop, w, hity⟩ := hrule.selects i hsel
    have hcheck := hty k hk i hi
    simp only [Instr.checks, hop, hoperands, hity, Bool.and_eq_true, beq_iff_eq] at hcheck
    have hint : ∀ u ∈ i.operands, G.typeOf (σ u) = .int w := by
      intro u hu
      rw [htype i hi u hu]
      rw [hoperands] at hu
      simp only [List.mem_cons, List.not_mem_nil, or_false] at hu
      rcases hu with rfl | rfl
      · exact hcheck.1.1
      · exact hcheck.1.2
    refine (hG.built k hk i hi ((picked_iff hF hk hi).mpr hsel)).checks hrule hsel hity hoperands
      (fun _ _ => Function.typeOf_const G) hint (fun c' hc' => ?_) c hc
    exact typeOf_of_mem hnodup (hG.mem_defs hk (hG.mem_code hk hi hsel hc'))
  · rw [checks_mapOperands, ConvertFCmpEq.checks_congr (htype i hi)]
    exact hty k hk i hi

end

/-! ## What the passes leave -/

/-- Handles are only taken. -/
theorem next_le (hrule : rule.Builds op tree) (hF : F.WellFormed)
    (hI : ∀ d ∈ F.defs, d.1 < F.nextInst) (hops : Binary rule F) :
    F.nextInst ≤ (substitute rule F).2.nextInst := by
  obtain ⟨σ, code, G, hstage, hfold⟩ := (stage_start F).visits hrule hF hI hops (fun _ hk => hk)
    hF.nodup (fun _ _ _ _ hid => nomatch hid) []
  have hG : (substitute rule F).2.nextInst = G.nextInst := by
    unfold substitute
    rw [hfold]
    rfl
  exact hG ▸ hstage.next

theorem Replaced.edges (hG : Replaced rule F G σ code) {j : Nat} (hj : j ∈ F.order) (k : Nat) :
    G.edges j k = F.edges j k := by
  unfold Function.edges
  rw [hG.term j hj]
  exact count_block_map hG.toReplacing.keepsBlocks _ _

theorem Replaced.issued (hG : Replaced rule F G σ code) (hnext : F.nextInst ≤ G.nextInst)
    (hF : F.WellFormed) (hI : DuplicateBB.Issued F) (hrule : rule.Builds op tree)
    (hops : Binary rule F) : DuplicateBB.Issued G where
  blocks := by
    rw [hG.order]
    intro k hk
    have hblock : G.nextBlock = F.nextBlock := by rw [hG.same]
    exact hblock ▸ hI.blocks k hk
  insts := by
    intro d hd
    have hid : d.1 ∈ G.defs.map Prod.fst := List.mem_map_of_mem hd
    rw [hG.ids hF] at hid
    obtain ⟨id, hid, hd⟩ := List.mem_flatMap.mp hid
    obtain ⟨d', hd', rfl⟩ := List.mem_map.mp hid
    unfold standsFor at hd
    split at hd
    · next hpicked => exact (hG.fresh _ hpicked _ hd).2
    · rw [List.mem_singleton.mp hd]
      exact Nat.lt_of_lt_of_le (hI.insts d' hd') hnext
  incoming := by
    rw [hG.order]
    intro k hk p hp
    have hblock : G.nextBlock = F.nextBlock := by rw [hG.same]
    rw [hblock]
    refine hI.incoming k hk p ?_
    rcases List.mem_append.mp hp with hp | hp
    · obtain ⟨c, hc, hp⟩ := List.mem_flatMap.mp hp
      obtain ⟨i, hi, ⟨hsel, hc⟩ | ⟨-, rfl⟩⟩ := hG.mem_cases hk hc
      · obtain ⟨a, b, hoperands⟩ := hops k hk i hi hsel
        have hbuilt := hG.built k hk i hi ((picked_iff hF hk hi).mpr hsel)
        rw [hbuilt.incoming hrule hsel hoperands hc] at hp
        cases hp
      · exact List.mem_append_left _ (List.mem_flatMap.mpr ⟨i, hi, hp⟩)
    · rw [hG.term k hk] at hp
      exact List.mem_append_right _ hp

theorem Replaced.supported (hG : Replaced rule F G σ code) (hnext : F.nextInst ≤ G.nextInst)
    (hrule : rule.Typed op tree) (hF : F.Supported) : G.Supported := by
  have hI := hF.issued.insts
  have hops : Binary rule F := binary_of_wellTyped hrule.toBuilds hF.wellTyped
  have hσ : Fixes F.nextInst σ := hG.toReplacing.fixes fun id hid => picked_lt hI hid
  refine ⟨hG.wellFormed hrule hF.wellFormed hI hops,
    hG.issued hnext hF.wellFormed hF.issued hrule.toBuilds hops,
    hG.wellTyped hrule hF.wellFormed hI hops hF.wellTyped, fun k hk phi hphi p => ?_, ?_,
    fun k hk => ?_, fun k hk j hj => ?_, fun k hk hop v hv => ?_⟩
  all_goals try rw [hG.order] at hk
  · rw [(hG.phis hrule.toBuilds hF.wellFormed hops hk).1] at hphi
    obtain ⟨i, hi, rfl⟩ := List.mem_map.mp hphi
    rw [hG.order]
    refine (hF.matched k hk i hi p).trans ?_
    split
    · next hp => rw [hG.edges hp]
    · rfl
  · rw [hG.entry, (hG.phis hrule.toBuilds hF.wellFormed hops hF.wellFormed.entry_mem).1, hF.entry]
    rfl
  · rw [hG.term k hk]
    exact hF.terminators k hk
  · unfold Function.successors
    rw [hG.term k hk] at hj ⊢
    rw [successors_map hG.toReplacing.keepsBlocks]
    obtain ⟨u, hu, heq⟩ := List.mem_map.mp hj
    obtain rfl := (hG.toReplacing.keepsBlocks u j).mp heq
    exact hF.targets k hk j hu
  · rw [hG.term k hk] at hop hv
    obtain ⟨u, hu, rfl⟩ : ∃ u ∈ (F.block k).term.operands.tail, σ u = v :=
      List.mem_map.mp (List.map_tail ▸ hv)
    have hinst := hF.switches k hk hop u hu
    rw [hσ.other u hinst]
    exact hinst

theorem supported_substitute (hrule : rule.Typed op tree) (hF : F.Supported) :
    (substitute rule F).2.Supported := by
  have hops : Binary rule F := binary_of_wellTyped hrule.toBuilds hF.wellTyped
  obtain ⟨σ, code, hG⟩ := substitute_replaced hrule.toBuilds hF.wellFormed hF.issued.insts hops
  exact hG.supported (next_le hrule.toBuilds hF.wellFormed hF.issued.insts hops) hrule hF

end MBA

namespace MBASub

theorem rule_typed : rule.Typed .sub tree where
  toBuilds := rule_builds
  constants := by
    intro i w a b _ _ v hv
    simp only [tree, Expr.leaves, List.mem_append, List.mem_singleton] at hv
    rcases hv with (rfl | rfl | rfl) | rfl
    · exact .inl rfl
    · exact .inr (.inl rfl)
    · exact .inr (.inr rfl)
    · exact .inr (.inr rfl)
  last := fun _ _ _ _ _ _ => ⟨_, _, _, rfl, rfl⟩

end MBASub

namespace MBAAdd

theorem rule_typed : rule.Typed .add tree where
  toBuilds := rule_builds
  constants := by
    intro i w a b hsel hty v hv
    obtain rfl : w = 8 := by
      rw [(isAdd_iff.mp hsel).2, Ty.int.injEq] at hty
      exact hty.symm
    simp only [tree, Expr.leaves, List.mem_append, List.mem_singleton] at hv
    have hconst : ∀ n, v = constant n → v.constTy = some (.int 8) := by
      rintro n rfl
      rfl
    tauto
  last := by
    intro i w a b hsel hty
    obtain rfl : w = 8 := by
      rw [(isAdd_iff.mp hsel).2, Ty.int.injEq] at hty
      exact hty.symm
    exact ⟨_, _, _, rfl, rfl⟩

end MBAAdd

end LlvmPasses
