import LlvmPasses.Ir.Expr
import LlvmPasses.Pass.MBA

/-!
# What the operators are replaced by

While a pass goes through a function, an operator that it has come to stands
behind the code that was built for it, and every operand names what was built.
Code that has been built stays as it is, but for operands that name operators
which the pass comes to later. At the end the operators are erased, and nothing
names them any more.

`substitute_replaced` is what the other modules about the substitutions use. It
says of the function that a pass leaves: the operators that its rule selects
are gone, in the place of each there is code built from an expression of its
operands, every other instruction is where it was, and one map of names turns
the old operands into the new ones (`Replaced`).

The loop of a pass replaces as it goes and erases at the end, so in the middle
there are operators that are still there and used by nothing. `Stage` has the
function at such a moment, by the handles of the operators that have been
replaced. A step is `Stage.replace`: the code for one more is inserted, its
uses are replaced, and with them operands in code that was built earlier
(`extend`). An operator is never replaced twice, and no operator that was
inserted is ever looked at, because the position moves past it (`visit_ends`).
Erasing then takes out exactly the operators (`filter_staged`).
-/

namespace LlvmPasses.MBA

open Ir IRBuilder

/-- What a rule selects, and the expression that it builds on the operands. -/
structure Rule.Builds (rule : Rule) (op : BinOp) (tree : Nat → Value → Value → Expr) : Prop where
  selects : ∀ i, rule.selects i = true → i.op = .binop op ∧ ∃ w, i.ty = .int w
  congr : ∀ i j : Instr Op, i.op = j.op → i.ty = j.ty → rule.selects i = rule.selects j
  build : ∀ i w a b, i.ty = .int w → i.operands = [a, b] → rule.build i = (tree w a b).emit (.int w)
  root : ∀ w a b, ∃ op l r, tree w a b = .binop op l r
  leaves : ∀ w a b, ∀ v ∈ (tree w a b).leaves, v = a ∨ v = b ∨ ∃ ty, v.constTy = some ty

/-- The handles of the operators in a block. -/
def pickedIn (rule : Rule) (b : Block) : List Nat := (b.instrs.filter rule.selects).map Instr.id

def picked (rule : Rule) (F : Function) : List Nat :=
  F.order.flatMap fun k => pickedIn rule (F.block k)

/-- The code and its value have been built for an operator, under handles from
`start` on: some operators had been replaced before, and others have been since. -/
def Built (rule : Rule) (start : Nat) (σ : Value → Value) (i : Instr Op) (v : Value)
    (code : List (Instr Op)) : Prop :=
  ∃ n ρ τ, start ≤ n ∧ Fixes start τ ∧ (∀ u, τ (ρ u) = σ u) ∧ (∀ u ∈ i.operands, (ρ u).Before n) ∧
    v = (rule.build (i.mapOperands ρ) ⟨[], n⟩).1 ∧
    code = (rule.build (i.mapOperands ρ) ⟨[], n⟩).2.inserted.map (Instr.mapOperands τ)

/-- Operators that have been replaced, and their code. -/
structure Replacing (rule : Rule) (F : Function) (done : List Nat) (σ : Value → Value)
    (code : Nat → List (Instr Op)) (next : Nat) : Prop where
  kept : ∀ v, (∀ id ∈ done, v ≠ .inst id) → σ v = v
  value : ∀ id ∈ done, (∃ ty, (σ (.inst id)).constTy = some ty) ∨
    ∃ j ∈ (code id).map Instr.id, σ (.inst id) = .inst j
  fresh : ∀ id ∈ done, ∀ j ∈ (code id).map Instr.id, F.nextInst ≤ j ∧ j < next
  apart : ∀ id ∈ done, ∀ id' ∈ done, id ≠ id' →
    ∀ j ∈ (code id).map Instr.id, j ∉ (code id').map Instr.id
  built : ∀ k ∈ F.order, ∀ i ∈ (F.block k).instrs, i.id ∈ done →
    Built rule F.nextInst σ i (σ (.inst i.id)) (code i.id)

/-- The code for an operator, or the instruction on what its operands name now. -/
def piece (rule : Rule) (σ : Value → Value) (code : Nat → List (Instr Op)) (i : Instr Op) :
    List (Instr Op) :=
  if rule.selects i then code i.id else [i.mapOperands σ]

/-- Every operator has been replaced, and is gone. -/
structure Replaced (rule : Rule) (F G : Function) (σ : Value → Value)
    (code : Nat → List (Instr Op)) : Prop
    extends Replacing rule F (picked rule F) σ code G.nextInst where
  same : G = { F with block := G.block, nextInst := G.nextInst }
  instrs : ∀ k ∈ F.order, (G.block k).instrs = (F.block k).instrs.flatMap (piece rule σ code)
  term : ∀ k ∈ F.order, (G.block k).term = (F.block k).term.mapOperands σ
  unused : ∀ k ∈ F.order, ∀ v ∈ (G.block k).operands, ∀ id ∈ picked rule F, v ≠ .inst id

variable {rule : Rule} {op : BinOp} {tree : Nat → Value → Value → Expr} {F G : Function}
variable {done : List Nat} {σ ρ τ : Value → Value} {code : Nat → List (Instr Op)} {next n k : Nat}
variable {i : Instr Op} {l pre post : List (Instr Op)} {v a b : Value} {free : FreeList}

/-! ## The code for one operator -/

theorem mem_pickedIn {b : Block} {id : Nat} :
    id ∈ pickedIn rule b ↔ ∃ i ∈ b.instrs, rule.selects i = true ∧ i.id = id := by
  simp only [pickedIn, List.mem_map, List.mem_filter, and_assoc]

theorem mem_picked {id : Nat} : id ∈ picked rule F ↔
    ∃ k ∈ F.order, ∃ i ∈ (F.block k).instrs, rule.selects i = true ∧ i.id = id := by
  simp only [picked, List.mem_flatMap, mem_pickedIn]

theorem picked_lt (hI : ∀ d ∈ F.defs, d.1 < F.nextInst) {id : Nat} (h : id ∈ picked rule F) :
    id < F.nextInst := by
  obtain ⟨k, hk, i, hi, -, rfl⟩ := mem_picked.mp h
  exact hI _ (Function.mem_defs_of_instr hk hi)

theorem picked_iff (hF : F.WellFormed) (hk : k ∈ F.order) (hi : i ∈ (F.block k).instrs) :
    i.id ∈ picked rule F ↔ rule.selects i = true := by
  constructor
  · intro h
    obtain ⟨j, hj, i', hi', hsel, hid⟩ := mem_picked.mp h
    obtain ⟨-, rfl⟩ := hF.instr_unique hk hj hi hi' hid.symm
    exact hsel
  · exact fun hsel => mem_picked.mpr ⟨k, hk, i, hi, hsel, rfl⟩

theorem selects_mapOperands (hrule : rule.Builds op tree) (f : Value → Value) (i : Instr Op) :
    rule.selects (i.mapOperands f) = rule.selects i := hrule.congr _ _ rfl rfl

/-- What is built when the operands name other values. -/
theorem build_mapOperands (hrule : rule.Builds op tree) {w : Nat} (hty : i.ty = .int w)
    (hops : i.operands = [a, b]) (ρ : Value → Value) :
    rule.build (i.mapOperands ρ) = (tree w (ρ a) (ρ b)).emit (.int w) :=
  hrule.build _ w _ _ hty (by simp only [Instr.mapOperands, hops, List.map_cons, List.map_nil])

/-- The code is numbered from the handle on, and the value is a constant or one of
its results. -/
theorem build_code (hrule : rule.Builds op tree) (hsel : rule.selects i = true)
    (hops : i.operands = [a, b]) (hbefore : ∀ u ∈ i.operands, (ρ u).Before n) :
    Code n (rule.build (i.mapOperands ρ) ⟨[], n⟩).2 ∧
      ((∃ ty, (rule.build (i.mapOperands ρ) ⟨[], n⟩).1.constTy = some ty) ∨
        ∃ j ∈ (rule.build (i.mapOperands ρ) ⟨[], n⟩).2.inserted.map Instr.id,
          (rule.build (i.mapOperands ρ) ⟨[], n⟩).1 = .inst j) := by
  obtain ⟨-, w, hty⟩ := hrule.selects i hsel
  rw [build_mapOperands hrule hty hops]
  have hleaves : ∀ v ∈ (tree w (ρ a) (ρ b)).leaves, v.Before n := by
    intro v hv
    rcases hrule.leaves _ _ _ v hv with rfl | rfl | ⟨ty, hv⟩
    · exact hbefore a (by simp [hops])
    · exact hbefore b (by simp [hops])
    · exact before_const hv
  obtain ⟨hcode, hvalue, -⟩ := Expr.emit_code (tree w (ρ a) (ρ b)) (.int w) (code_nil n) hleaves
  refine ⟨hcode, ?_⟩
  obtain ⟨op', l, r, hroot⟩ := hrule.root w (ρ a) (ρ b)
  rcases Expr.emit_root (.int w) op' l r ⟨[], n⟩ (Nat.le_refl n) with
    ⟨w', hconst⟩ | ⟨id, hid, hle⟩
  · rw [← hroot] at hconst
    exact .inl ⟨_, hconst⟩
  · rw [← hroot] at hid
    refine .inr ⟨id, ?_, hid⟩
    rw [hcode.ids, List.mem_range'_1, ← hcode.next]
    exact ⟨hle, hvalue id hid⟩

/-! ## Replacing an operator -/

/-- All uses of one value become uses of another. -/
def subst (old new v : Value) : Value := if v = old then new else v

theorem subst_other {old new : Value} (h : v ≠ old) : subst old new v = v := if_neg h

theorem subst_self (old new : Value) : subst old new old = new := if_pos rfl

theorem fixes_subst {id : Nat} (hid : id < n) (new : Value) : Fixes n (subst (.inst id) new) where
  inst := by
    intro j hj
    refine subst_other fun heq => ?_
    cases heq
    omega
  other := by
    intro v hv
    refine subst_other fun heq => ?_
    rw [heq] at hv
    cases hv

theorem Fixes.comp (hτ : Fixes n τ) (hσ : Fixes n σ) : Fixes n (τ ∘ σ) where
  inst := fun id hid => by rw [Function.comp_apply, hσ.inst id hid, hτ.inst id hid]
  other := fun v hv => by rw [Function.comp_apply, hσ.other v hv, hτ.other v hv]

theorem Replacing.fixes (h : Replacing rule F done σ code next)
    (hdone : ∀ id ∈ done, id < F.nextInst) : Fixes F.nextInst σ where
  inst := by
    intro id hid
    refine h.kept _ fun id' hid' heq => ?_
    cases heq
    have hlt := hdone id hid'
    omega
  other := by
    intro v hv
    refine h.kept v fun id _ heq => ?_
    rw [heq] at hv
    cases hv

/-- What an operand names has been made. -/
theorem Replacing.before (h : Replacing rule F done σ code next) (hnext : F.nextInst ≤ next)
    (hv : v.Before F.nextInst) : (σ v).Before next := by
  intro j hj
  by_cases hdone : ∃ id ∈ done, v = .inst id
  · obtain ⟨id, hid, rfl⟩ := hdone
    rcases h.value id hid with ⟨ty, hconst⟩ | ⟨j', hj', heq⟩
    · rw [hj] at hconst
      cases hconst
    · rw [hj] at heq
      cases heq
      exact (h.fresh id hid j hj').2
  · have hkept := h.kept v fun id hid heq => hdone ⟨id, hid, heq⟩
    exact Nat.lt_of_lt_of_le (hv j (hkept ▸ hj)) hnext

theorem Built.replace (h : Built rule n σ i v l) (hτ : Fixes n τ) :
    Built rule n (τ ∘ σ) i v (l.map (Instr.mapOperands τ)) := by
  obtain ⟨m, ρ, τ', hle, hτ', hcomp, hbefore, hv, rfl⟩ := h
  refine ⟨m, ρ, τ ∘ τ', hle, Fixes.comp hτ hτ', fun u => congrArg τ (hcomp u), hbefore, hv, ?_⟩
  rw [List.map_map]
  refine List.map_congr_left fun c _ => ?_
  simp only [Function.comp_apply, Instr.mapOperands, List.map_map]

/-- The code for one more operator. -/
def extend (code : Nat → List (Instr Op)) (id : Nat) (l : List (Instr Op)) (τ : Value → Value) :
    Nat → List (Instr Op) := fun id' =>
  (if id' = id then l else code id').map (Instr.mapOperands τ)

theorem extend_self {id : Nat} :
    extend code id l τ id = l.map (Instr.mapOperands τ) := by
  rw [extend, if_pos rfl]

theorem extend_other {id id' : Nat} (h : id' ≠ id) :
    extend code id l τ id' = (code id').map (Instr.mapOperands τ) := by
  rw [extend, if_neg h]

theorem ids_map (l : List (Instr Op)) :
    (l.map (Instr.mapOperands τ)).map Instr.id = l.map Instr.id := by
  rw [List.map_map]
  rfl

theorem Replacing.step (h : Replacing rule F done σ code next) (hrule : rule.Builds op tree)
    (hF : F.WellFormed) (hI : ∀ d ∈ F.defs, d.1 < F.nextInst) (hnext : F.nextInst ≤ next)
    (hk : k ∈ F.order) (hi : i ∈ (F.block k).instrs) (hsel : rule.selects i = true)
    (hops : i.operands = [a, b]) (hnew : i.id ∉ done) :
    let r := rule.build (i.mapOperands σ) ⟨[], next⟩
    let τ := subst (.inst i.id) r.1
    Code next r.2 ∧
      Replacing rule F (done ++ [i.id]) (τ ∘ σ) (extend code i.id r.2.inserted τ) r.2.next := by
  intro r τ
  have hid : i.id < F.nextInst := hI _ (Function.mem_defs_of_instr hk hi)
  have hτ : Fixes F.nextInst τ := fixes_subst hid r.1
  have hbefore : ∀ u ∈ i.operands, (σ u).Before next := fun u hu =>
    h.before hnext (hF.operand_before hI hk (mem_operands hi hu))
  obtain ⟨hcode, hvalue⟩ := build_code hrule hsel hops hbefore
  have hself : (τ ∘ σ) (.inst i.id) = r.1 := by
    have hkept : σ (.inst i.id) = .inst i.id := h.kept _ fun id hid heq => by
      cases heq
      exact hnew hid
    rw [Function.comp_apply, hkept]
    exact subst_self ..
  have hfresh : ∀ j ∈ r.2.inserted.map Instr.id, next ≤ j ∧ j < r.2.next := by
    intro j hj
    obtain ⟨c, hc, rfl⟩ := List.mem_map.mp hj
    exact hcode.le_id hc
  have hle : next ≤ r.2.next := hcode.next ▸ Nat.le_add_right ..
  -- what was built before keeps its value and its code
  have hold : ∀ id ∈ done, id ≠ i.id ∧ (τ ∘ σ) (.inst id) = σ (.inst id) := by
    intro id hid'
    refine ⟨fun heq => hnew (heq ▸ hid'), subst_other fun heq => ?_⟩
    rcases h.value id hid' with ⟨ty, hconst⟩ | ⟨j, hj, hj'⟩
    · rw [heq] at hconst
      cases hconst
    · have hlow := (h.fresh id hid' j hj).1
      rw [heq] at hj'
      cases hj'
      omega
  have hids : ∀ id ∈ done, (extend code i.id r.2.inserted τ id).map Instr.id =
      (code id).map Instr.id := by
    intro id hid'
    rw [extend_other (hold id hid').1, ids_map]
  have hids' : (extend code i.id r.2.inserted τ i.id).map Instr.id = r.2.inserted.map Instr.id := by
    rw [extend_self, ids_map]
  refine ⟨hcode, ⟨fun v hv => ?_, fun id hid' => ?_, fun id hid' j hj => ?_,
    fun id hid₁ id' hid₂ hne j hj hj' => ?_, fun k' hk' i' hi' hid' => ?_⟩⟩
  · have hkept : σ v = v := h.kept v fun id hid => hv id (List.mem_append_left _ hid)
    rw [Function.comp_apply, hkept]
    exact subst_other (hv i.id (List.mem_append_right _ (List.mem_singleton_self _)))
  · rcases List.mem_append.mp hid' with hid' | hid'
    · rw [(hold id hid').2, hids id hid']
      exact h.value id hid'
    · obtain rfl := List.mem_singleton.mp hid'
      rw [hself, hids']
      exact hvalue
  · rcases List.mem_append.mp hid' with hid' | hid'
    · rw [hids id hid'] at hj
      obtain ⟨hlow, hhigh⟩ := h.fresh id hid' j hj
      exact ⟨hlow, Nat.lt_of_lt_of_le hhigh hle⟩
    · obtain rfl := List.mem_singleton.mp hid'
      rw [hids'] at hj
      exact ⟨Nat.le_trans hnext (hfresh j hj).1, (hfresh j hj).2⟩
  · rcases List.mem_append.mp hid₁ with hid₁ | hid₁ <;>
      rcases List.mem_append.mp hid₂ with hid₂ | hid₂
    · rw [hids _ hid₁] at hj
      rw [hids _ hid₂] at hj'
      exact h.apart id hid₁ id' hid₂ hne j hj hj'
    · obtain rfl := List.mem_singleton.mp hid₂
      rw [hids _ hid₁] at hj
      rw [hids'] at hj'
      have hlow := (hfresh j hj').1
      have hhigh := (h.fresh id hid₁ j hj).2
      omega
    · obtain rfl := List.mem_singleton.mp hid₁
      rw [hids'] at hj
      rw [hids _ hid₂] at hj'
      have hlow := (hfresh j hj).1
      have hhigh := (h.fresh id' hid₂ j hj').2
      omega
    · obtain rfl := List.mem_singleton.mp hid₁
      obtain rfl := List.mem_singleton.mp hid₂
      exact hne rfl
  · rcases List.mem_append.mp hid' with hid' | hid'
    · rw [(hold i'.id hid').2, extend_other (hold i'.id hid').1]
      exact (h.built k' hk' i' hi' hid').replace hτ
    · have heq := List.mem_singleton.mp hid'
      obtain ⟨-, rfl⟩ := hF.instr_unique hk hk' hi hi' heq.symm
      rw [hself, extend_self]
      exact ⟨next, σ, τ, hnext, hτ, fun _ => rfl, hbefore, rfl, rfl⟩

/-! ## Going through the function -/

/-- What stands for an instruction on the way. -/
def staged (done : List Nat) (σ : Value → Value) (code : Nat → List (Instr Op)) (i : Instr Op) :
    List (Instr Op) :=
  if i.id ∈ done then code i.id ++ [i.mapOperands σ] else [i.mapOperands σ]

/-- The operators, each with the block it is in. -/
def toErase (rule : Rule) (F : Function) : FreeList :=
  F.order.flatMap fun k => ((F.block k).instrs.filter rule.selects).map fun i => (k, i.id)

/-- The operators under some handles have been replaced. -/
structure Stage (rule : Rule) (F : Function) (done : List Nat) (σ : Value → Value)
    (code : Nat → List (Instr Op)) (G : Function) : Prop
    extends Replacing rule F done σ code G.nextInst where
  same : G = { F with block := G.block, nextInst := G.nextInst }
  next : F.nextInst ≤ G.nextInst
  block : ∀ k ∈ F.order, G.block k =
    ⟨(F.block k).instrs.flatMap (staged done σ code), (F.block k).term.mapOperands σ⟩

theorem staged_self {id : Nat} {r : List (Instr Op)} (hid : i.id = id) :
    staged (done ++ [id]) (τ ∘ σ) (extend code id r τ) i =
      (r ++ [i.mapOperands σ]).map (Instr.mapOperands τ) := by
  subst hid
  rw [staged, if_pos (List.mem_append_right _ (List.mem_singleton_self _)), extend_self,
    List.map_append, List.map_singleton]
  simp only [Instr.mapOperands, List.map_map]

theorem staged_other {id : Nat} {r : List (Instr Op)} (hid : i.id ≠ id) :
    staged (done ++ [id]) (τ ∘ σ) (extend code id r τ) i =
      (staged done σ code i).map (Instr.mapOperands τ) := by
  have hmem : i.id ∈ done ++ [id] ↔ i.id ∈ done := by
    simp only [List.mem_append, List.mem_singleton, hid, or_false]
  unfold staged
  simp only [hmem]
  split
  · rw [extend_other hid, List.map_append, List.map_singleton]
    simp only [Instr.mapOperands, List.map_map]
  · simp only [List.map_singleton, Instr.mapOperands, List.map_map]

theorem staged_others {id : Nat} {r : List (Instr Op)} (hid : ∀ i ∈ l, i.id ≠ id) :
    l.flatMap (staged (done ++ [id]) (τ ∘ σ) (extend code id r τ)) =
      (l.flatMap (staged done σ code)).map (Instr.mapOperands τ) := by
  rw [List.map_flatMap]
  exact List.flatMap_congr fun i hi => staged_other (hid i hi)

/-- The other instructions of a block have other handles. -/
theorem ids_ne (hF : F.WellFormed) (hk : k ∈ F.order)
    (hsplit : (F.block k).instrs = pre ++ i :: post) :
    (∀ j ∈ pre, j.id ≠ i.id) ∧ ∀ j ∈ post, j.id ≠ i.id := by
  have hnodup := hF.block_nodup hk
  rw [Block.defs, List.map_append, List.map_map, hsplit, List.map_append, List.map_cons] at hnodup
  have hsplit' := List.nodup_append.mp hnodup.of_append_left
  refine ⟨fun j hj => hsplit'.2.2 _ (List.mem_map_of_mem hj) _ (List.mem_cons_self ..), ?_⟩
  intro j hj heq
  refine (List.nodup_cons.mp hsplit'.2.1).1 ?_
  show i.id ∈ _
  rw [← heq]
  exact List.mem_map_of_mem hj

/-- An operator is replaced where the pass has come to it. -/
theorem Stage.replace (h : Stage rule F done σ code G) (hrule : rule.Builds op tree)
    (hF : F.WellFormed) (hI : ∀ d ∈ F.defs, d.1 < F.nextInst) (hk : k ∈ F.order)
    (hsplit : (F.block k).instrs = pre ++ i :: post) (hsel : rule.selects i = true)
    (hops : i.operands = [a, b]) (hnew : i.id ∉ done) (free : FreeList) :
    ∃ σ' code' inserted G', Stage rule F (done ++ [i.id]) σ' code' G' ∧
      replace rule k (pre.flatMap (staged done σ code)).length (i.mapOperands σ) (G, free) =
        (inserted, G', free ++ [(k, i.id)]) ∧
      ((pre ++ [i]).flatMap (staged (done ++ [i.id]) σ' code')).length =
        (pre.flatMap (staged done σ code)).length + inserted + 1 := by
  have hi : i ∈ (F.block k).instrs := hsplit ▸ List.mem_append_right _ (List.mem_cons_self ..)
  obtain ⟨hcode, hreplacing⟩ := h.toReplacing.step hrule hF hI h.next hk hi hsel hops hnew
  obtain ⟨hpre, hpost⟩ := ids_ne hF hk hsplit
  let r := rule.build (i.mapOperands σ) ⟨[], G.nextInst⟩
  let τ := subst (.inst i.id) r.1
  let p := (pre.flatMap (staged done σ code)).length
  have hself : staged done σ code i = [i.mapOperands σ] := if_neg hnew
  refine ⟨τ ∘ σ, extend code i.id r.2.inserted τ, r.2.inserted.length,
    (G.build k p (rule.build (i.mapOperands σ))).2.2.replaceAllUsesWith (.inst i.id) r.1,
    ⟨hreplacing, ?_, ?_, ?_⟩, rfl, ?_⟩
  · rw [h.same]
    rfl
  · have hle : G.nextInst ≤ r.2.next := hcode.next ▸ Nat.le_add_right ..
    exact Nat.le_trans h.next hle
  · intro j hj
    by_cases hjk : j = k
    · subst hjk
      have hblock : ((G.build j p (rule.build (i.mapOperands σ))).2.2.replaceAllUsesWith
          (.inst i.id) r.1).block j = Block.mapOperands τ
          { G.block j with instrs := (G.block j).instrs.take p ++ r.2.inserted ++
              (G.block j).instrs.drop p } := by
        show Block.replaceUses _ _ (if j = j then _ else _) = _
        rw [if_pos rfl]
        rfl
      rw [hblock, h.block j hj, hsplit, List.flatMap_append, List.flatMap_cons, hself,
        List.take_left, List.drop_left, List.flatMap_append, List.flatMap_cons,
        staged_others hpre, staged_self rfl, staged_others hpost]
      simp only [Block.mapOperands, List.map_append, List.append_assoc, Instr.mapOperands,
        List.map_map]
    · have hother : ∀ i' ∈ (F.block j).instrs, i'.id ≠ i.id := fun i' hi' heq =>
        hjk (hF.instr_unique hj hk hi' hi heq).1
      have hblock : ((G.build k p (rule.build (i.mapOperands σ))).2.2.replaceAllUsesWith
          (.inst i.id) r.1).block j = Block.mapOperands τ (G.block j) := by
        show Block.replaceUses _ _ (if j = k then _ else _) = _
        rw [if_neg hjk]
        rfl
      rw [hblock, h.block j hj, staged_others hother]
      simp only [Block.mapOperands, Instr.mapOperands, List.map_map]
  · rw [List.flatMap_append, staged_others hpre, List.flatMap_singleton, staged_self rfl]
    simp only [List.length_append, List.length_map, List.length_singleton]
    omega

/-- The operators have two operands. -/
def Binary (rule : Rule) (F : Function) : Prop :=
  ∀ k ∈ F.order, ∀ i ∈ (F.block k).instrs, rule.selects i = true → ∃ a b, i.operands = [a, b]

/-- What is left of a block is gone through. -/
theorem Stage.visit (h : Stage rule F done σ code G) (hrule : rule.Builds op tree)
    (hF : F.WellFormed) (hI : ∀ d ∈ F.defs, d.1 < F.nextInst) (hops : Binary rule F)
    (hk : k ∈ F.order) (hsplit : (F.block k).instrs = pre ++ post)
    (hpost : ∀ i ∈ post, i.id ∉ done) (free : FreeList) :
    ∃ σ' code' G', Stage rule F (done ++ (post.filter rule.selects).map Instr.id) σ' code' G' ∧
      MBA.visit rule k post.length (pre.flatMap (staged done σ code)).length (G, free) =
        (G', free ++ (post.filter rule.selects).map fun i => (k, i.id)) := by
  induction post generalizing pre done σ code G free with
  | nil =>
      refine ⟨σ, code, G, ?_, ?_⟩
      · rwa [List.filter_nil, List.map_nil, List.append_nil]
      · rw [List.filter_nil, List.map_nil, List.append_nil]
        rfl
  | cons i post ih =>
      have hnew : i.id ∉ done := hpost i (List.mem_cons_self ..)
      have hi : i ∈ (F.block k).instrs := hsplit ▸ List.mem_append_right _ (List.mem_cons_self ..)
      have hsplit' : (F.block k).instrs = (pre ++ [i]) ++ post := by
        rw [hsplit, List.append_assoc, List.singleton_append]
      have hself : staged done σ code i = [i.mapOperands σ] := if_neg hnew
      have hget : (G.block k).instrs[(pre.flatMap (staged done σ code)).length]? =
          some (i.mapOperands σ) := by
        rw [h.block k hk, hsplit]
        simp only [List.flatMap_append, List.flatMap_cons, hself]
        rw [List.getElem?_append_right (Nat.le_refl _), Nat.sub_self]
        rfl
      rw [List.length_cons, MBA.visit]
      simp only [hget, selects_mapOperands hrule]
      cases hsel : rule.selects i with
      | true =>
          obtain ⟨a, b, hoperands⟩ := hops k hk i hi hsel
          obtain ⟨σ₁, code₁, inserted, G₁, hstage, hreplace, hlength⟩ :=
            h.replace hrule hF hI hk hsplit hsel hoperands hnew free
          have hpost' : ∀ j ∈ post, j.id ∉ done ++ [i.id] := by
            intro j hj hmem
            rcases List.mem_append.mp hmem with hmem | hmem
            · exact hpost j (List.mem_cons_of_mem _ hj) hmem
            · exact (ids_ne hF hk hsplit).2 j hj (List.mem_singleton.mp hmem)
          obtain ⟨σ', code', G', hstage', hvisit⟩ :=
            ih hstage hsplit' hpost' (free ++ [(k, i.id)])
          rw [List.append_assoc] at hstage' hvisit
          refine ⟨σ', code', G', ?_, ?_⟩
          · rwa [List.filter_cons_of_pos hsel, List.map_cons]
          · rw [List.filter_cons_of_pos hsel, List.map_cons, if_pos rfl, hreplace]
            dsimp only
            rw [← hlength]
            exact hvisit
      | false =>
          have hsel' : ¬ rule.selects i = true := Bool.eq_false_iff.mp hsel
          have hlength : ((pre ++ [i]).flatMap (staged done σ code)).length =
              (pre.flatMap (staged done σ code)).length + 1 := by
            rw [List.flatMap_append, List.flatMap_singleton, hself, List.length_append]
            rfl
          obtain ⟨σ', code', G', hstage', hvisit⟩ :=
            ih h hsplit' (fun j hj => hpost j (List.mem_cons_of_mem _ hj)) free
          rw [hlength] at hvisit
          refine ⟨σ', code', G', ?_, ?_⟩
          · rwa [List.filter_cons_of_neg hsel']
          · rw [List.filter_cons_of_neg hsel', if_neg Bool.false_ne_true]
            exact hvisit

/-- The blocks are gone through one after the other. -/
theorem Stage.visits {order : List Nat} (h : Stage rule F done σ code G)
    (hrule : rule.Builds op tree) (hF : F.WellFormed) (hI : ∀ d ∈ F.defs, d.1 < F.nextInst)
    (hops : Binary rule F) (hmem : ∀ k ∈ order, k ∈ F.order) (hnodup : order.Nodup)
    (hdone : ∀ k ∈ order, ∀ i ∈ (F.block k).instrs, i.id ∉ done) (free : FreeList) :
    ∃ σ' code' G', Stage rule F (done ++ order.flatMap fun k => pickedIn rule (F.block k))
        σ' code' G' ∧
      order.foldl (fun s k => MBA.visit rule k (s.1.block k).instrs.length 0 s) (G, free) =
        (G', free ++ order.flatMap fun k =>
          ((F.block k).instrs.filter rule.selects).map fun i => (k, i.id)) := by
  induction order generalizing done σ code G free with
  | nil =>
      refine ⟨σ, code, G, ?_, ?_⟩
      · rwa [List.flatMap_nil, List.append_nil]
      · rw [List.flatMap_nil, List.append_nil]
        rfl
  | cons k order ih =>
      obtain ⟨hk, hrest⟩ := List.forall_mem_cons.mp hmem
      obtain ⟨hout, hnodup⟩ := List.nodup_cons.mp hnodup
      have hstay : ∀ i ∈ (F.block k).instrs, i.id ∉ done := hdone k (List.mem_cons_self ..)
      have hsingle : (F.block k).instrs.flatMap (staged done σ code) =
          (F.block k).instrs.map (Instr.mapOperands σ) := by
        rw [List.map_eq_flatMap]
        exact List.flatMap_congr fun i hi => if_neg (hstay i hi)
      have hlength : (G.block k).instrs.length = (F.block k).instrs.length := by
        rw [h.block k hk]
        show ((F.block k).instrs.flatMap (staged done σ code)).length = _
        rw [hsingle, List.length_map]
      have hsplit : (F.block k).instrs = [] ++ (F.block k).instrs := rfl
      obtain ⟨σ₁, code₁, G₁, hstage, hvisit⟩ := h.visit hrule hF hI hops hk hsplit hstay free
      have hdone' : ∀ j ∈ order, ∀ i ∈ (F.block j).instrs,
          i.id ∉ done ++ pickedIn rule (F.block k) := by
        intro j hj i hi hid
        rcases List.mem_append.mp hid with hid | hid
        · exact hdone j (List.mem_cons_of_mem _ hj) i hi hid
        · obtain ⟨i', hi', -, heq⟩ := mem_pickedIn.mp hid
          obtain ⟨rfl, -⟩ := hF.instr_unique hk (hrest j hj) hi' hi heq
          exact hout hj
      obtain ⟨σ', code', G', hstage', hfold⟩ := ih hstage hrest hnodup hdone'
        (free ++ ((F.block k).instrs.filter rule.selects).map fun i => (k, i.id))
      refine ⟨σ', code', G', ?_, ?_⟩
      · rwa [List.flatMap_cons, ← List.append_assoc]
      · have hvisit' : MBA.visit rule k (G.block k).instrs.length 0 (G, free) = _ :=
          hlength ▸ hvisit
        rw [List.foldl_cons, List.flatMap_cons, ← List.append_assoc, ← hfold, hvisit']

/-! ## The operators are erased -/

theorem stage_start (F : Function) : Stage rule F [] id (fun _ => []) F where
  kept := fun _ _ => rfl
  value := nofun
  fresh := nofun
  apart := nofun
  built := nofun
  same := rfl
  next := Nat.le_refl _
  block := by
    intro k _
    have hself : ∀ i : Instr Op, i.mapOperands id = i := mapOperands_id fun _ => rfl
    have hinstrs : (F.block k).instrs.flatMap (staged [] id fun _ => []) = (F.block k).instrs :=
      calc
        _ = (F.block k).instrs.flatMap fun i => [i] :=
          List.flatMap_congr fun i _ => congrArg (fun j => [j]) (hself i)
        _ = _ := List.flatMap_singleton' _
    have hterm : (F.block k).term.mapOperands id = (F.block k).term :=
      mapOperands_id (fun _ => rfl) _
    rw [hinstrs, hterm]

theorem mem_toErase {id : Nat} : (k, id) ∈ toErase rule F ↔
    k ∈ F.order ∧ ∃ i ∈ (F.block k).instrs, rule.selects i = true ∧ i.id = id := by
  simp only [toErase, List.mem_flatMap, List.mem_map, List.mem_filter, Prod.mk.injEq]
  constructor
  · rintro ⟨j, hj, i, ⟨hi, hsel⟩, rfl, rfl⟩
    exact ⟨hj, i, hi, hsel, rfl⟩
  · rintro ⟨hk, i, hi, hsel, rfl⟩
    exact ⟨k, hk, i, ⟨hi, hsel⟩, rfl, rfl⟩

theorem erased_iff {id : Nat} (hF : F.WellFormed) (hk : k ∈ F.order)
    (hid : ∃ i ∈ (F.block k).instrs, i.id = id) :
    (k, id) ∈ toErase rule F ↔ id ∈ picked rule F := by
  rw [mem_toErase]
  constructor
  · rintro ⟨-, i, hi, hsel, rfl⟩
    exact mem_picked.mpr ⟨k, hk, i, hi, hsel, rfl⟩
  · intro h
    obtain ⟨j, hj, i, hi, hsel, rfl⟩ := mem_picked.mp h
    obtain ⟨i', hi', heq⟩ := hid
    obtain ⟨rfl, -⟩ := hF.instr_unique hk hj hi' hi heq
    exact ⟨hk, i, hi, hsel, rfl⟩

/-- What is left of what stood for an instruction. -/
theorem filter_staged (h : Stage rule F (picked rule F) σ code G) (hrule : rule.Builds op tree)
    (hF : F.WellFormed) (hI : ∀ d ∈ F.defs, d.1 < F.nextInst) (hk : k ∈ F.order)
    (hi : i ∈ (F.block k).instrs) :
    (staged (picked rule F) σ code i).filter
      (fun c => !(isBinaryOperator c && (toErase rule F).contains (k, c.id))) =
        piece rule σ code i := by
  have hpicked : i.id ∈ picked rule F ↔ rule.selects i = true := picked_iff hF hk hi
  have herased : (k, i.id) ∈ toErase rule F ↔ i.id ∈ picked rule F :=
    erased_iff hF hk ⟨i, hi, rfl⟩
  have hid : (i.mapOperands σ).id = i.id := rfl
  unfold staged piece
  by_cases hsel : rule.selects i = true
  · have hop : isBinaryOperator (i.mapOperands σ) = true := by
      simp only [isBinaryOperator, Instr.mapOperands, (hrule.selects i hsel).1]
    have hgone : (toErase rule F).contains (k, i.id) = true :=
      List.contains_iff_mem.mpr (herased.mpr (hpicked.mpr hsel))
    have hcode : ∀ c ∈ code i.id, (toErase rule F).contains (k, c.id) = false := by
      intro c hc
      have hfresh := (h.fresh i.id (hpicked.mpr hsel) c.id (List.mem_map_of_mem hc)).1
      refine Bool.eq_false_iff.mpr fun hmem => ?_
      obtain ⟨hj, i', hi', -, heq⟩ := mem_toErase.mp (List.contains_iff_mem.mp hmem)
      have hlt : i'.id < F.nextInst := hI _ (Function.mem_defs_of_instr hj hi')
      omega
    rw [if_pos (hpicked.mpr hsel), if_pos hsel, List.filter_append, List.filter_singleton, hop, hid,
      hgone, List.filter_eq_self.mpr fun c hc => by rw [hcode c hc, Bool.and_false]; rfl]
    exact List.append_nil _
  · have hstays : (toErase rule F).contains (k, i.id) = false :=
      Bool.eq_false_iff.mpr fun hmem =>
        hsel (hpicked.mp (herased.mp (List.contains_iff_mem.mp hmem)))
    rw [if_neg fun hmem => hsel (hpicked.mp hmem), if_neg hsel, List.filter_singleton, hid, hstays,
      Bool.and_false]
    rfl

/-! ## The end of the loop -/

theorem length_replace (rule : Rule) (k p : Nat) (i : Instr Op) (s : Function × FreeList) :
    ((replace rule k p i s).2.1.block k).instrs.length =
      (s.1.block k).instrs.length + (replace rule k p i s).1 := by
  let r := rule.build i ⟨[], s.1.nextInst⟩
  have hinstrs : ((replace rule k p i s).2.1.block k).instrs =
      ((s.1.block k).instrs.take p ++ r.2.inserted ++ (s.1.block k).instrs.drop p).map
        (Instr.replaceUses (.inst i.id) r.1) := by
    show (Block.replaceUses _ _ (if k = k then _ else _)).instrs = _
    rw [if_pos rfl]
    rfl
  have hinserted : (replace rule k p i s).1 = r.2.inserted.length := rfl
  rw [hinstrs, hinserted]
  simp only [List.length_map, List.length_append, List.length_take, List.length_drop]
  omega

/-- The loop over a block ends: it goes once over every instruction that was there
before, and not over those that have been inserted. -/
theorem visit_ends (rule : Rule) (k n extra p : Nat) (s : Function × FreeList)
    (h : (s.1.block k).instrs.length ≤ p + n) :
    visit rule k (n + extra) p s = visit rule k n p s := by
  induction n generalizing p s with
  | zero =>
      have hnone : (s.1.block k).instrs[p]? = none := List.getElem?_eq_none h
      cases extra with
      | zero => rfl
      | succ extra =>
          rw [Nat.zero_add]
          unfold visit
          rw [hnone]
  | succ n ih =>
      rw [Nat.add_right_comm, visit, visit]
      cases hget : (s.1.block k).instrs[p]? with
      | none => rfl
      | some i =>
          dsimp only
          split
          · have hlength := length_replace rule k p i s
            exact ih _ _ (by omega)
          · exact ih _ _ (by omega)

/-! ## Nothing names them -/

/-- What stands in the code of an operator: operations of the expression, on what
the operands name now, on constants and on what has been made. -/
theorem Built.instr (h : Built rule n σ i v l) (hrule : rule.Builds op tree)
    (hsel : rule.selects i = true) (hops : i.operands = [a, b]) {c : Instr Op} (hc : c ∈ l) :
    c.ty = i.ty ∧ (∃ w a' b', ∃ op' ∈ (tree w a' b').ops, c.op = .binop op') ∧
      ∀ u ∈ c.operands, (∃ u', u = σ u') ∨ (∃ ty, u.constTy = some ty) ∨
        ∃ id, u = .inst id ∧ n ≤ id := by
  obtain ⟨m, ρ, τ, hle, hτ, hcomp, -, -, rfl⟩ := h
  obtain ⟨-, w, hty⟩ := hrule.selects i hsel
  rw [build_mapOperands hrule hty hops] at hc
  obtain ⟨c', hc', rfl⟩ := List.mem_map.mp hc
  rcases Expr.emit_inserted (tree w (ρ a) (ρ b)) (.int w) ⟨[], m⟩ (Nat.le_refl m) c' hc' with
    hno | ⟨hcty, ⟨op', hop', heq⟩, huses⟩
  · cases hno
  · refine ⟨hcty.trans hty.symm, ⟨w, ρ a, ρ b, op', hop', heq⟩, fun u hu => ?_⟩
    obtain ⟨u', hu', rfl⟩ := List.mem_map.mp hu
    rcases huses u' hu' with hleaf | ⟨ty, hconst⟩ | ⟨id, rfl, hid⟩
    · rcases hrule.leaves _ _ _ u' hleaf with rfl | rfl | ⟨ty, hconst⟩
      · exact .inl ⟨a, hcomp a⟩
      · exact .inl ⟨b, hcomp b⟩
      · exact .inr (.inl ⟨ty, by rwa [hτ.const hconst]⟩)
    · exact .inr (.inl ⟨ty, by rwa [hτ.const hconst]⟩)
    · exact .inr (.inr ⟨id, hτ.inst id (Nat.le_trans hle hid), Nat.le_trans hle hid⟩)

/-- What is named instead of something is no operator. -/
theorem Replacing.ne (h : Replacing rule F done σ code next)
    (hdone : ∀ id ∈ done, id < F.nextInst) (u : Value) {id : Nat} (hid : id ∈ done) :
    σ u ≠ .inst id := by
  intro heq
  have hlt := hdone id hid
  by_cases hu : ∃ id' ∈ done, u = .inst id'
  · obtain ⟨id', hid', rfl⟩ := hu
    rcases h.value id' hid' with ⟨ty, hconst⟩ | ⟨j, hj, hj'⟩
    · rw [heq] at hconst
      cases hconst
    · have hfresh := (h.fresh id' hid' j hj).1
      rw [heq] at hj'
      cases hj'
      omega
  · have hkept := h.kept u fun id' hid' heq' => hu ⟨id', hid', heq'⟩
    exact hu ⟨id, hid, hkept ▸ heq⟩

/-- What the pass leaves. -/
theorem substitute_replaced (hrule : rule.Builds op tree) (hF : F.WellFormed)
    (hI : ∀ d ∈ F.defs, d.1 < F.nextInst) (hops : Binary rule F) :
    ∃ σ code, Replaced rule F (substitute rule F).2 σ code := by
  obtain ⟨σ, code, G, hstage, hfold⟩ := (stage_start F).visits hrule hF hI hops (fun _ hk => hk)
    hF.nodup (fun _ _ _ _ hid => nomatch hid) []
  rw [List.nil_append] at hstage hfold
  have hG : (substitute rule F).2 = eraseFromParents G (toErase rule F) := by
    unfold substitute
    rw [hfold]
    rfl
  have hlt : ∀ id ∈ picked rule F, id < F.nextInst := fun id hid => picked_lt hI hid
  have hinstrs : ∀ k ∈ F.order, ((eraseFromParents G (toErase rule F)).block k).instrs =
      (F.block k).instrs.flatMap (piece rule σ code) := by
    intro k hk
    show (G.block k).instrs.filter _ = _
    rw [hstage.block k hk, List.filter_flatMap]
    exact List.flatMap_congr fun i hi => filter_staged hstage hrule hF hI hk hi
  have hterm : ∀ k ∈ F.order, ((eraseFromParents G (toErase rule F)).block k).term =
      (F.block k).term.mapOperands σ := by
    intro k hk
    show (G.block k).term = _
    rw [hstage.block k hk]
  rw [hG]
  refine ⟨σ, code, ⟨hstage.toReplacing, ?_, hinstrs, hterm, ?_⟩⟩
  · have hsame := hstage.same
    show { G with block := _ } = _
    rw [hsame]
    rfl
  · intro k hk v hv id hid
    have hne : ∀ u, σ u ≠ .inst id := fun u => hstage.toReplacing.ne hlt u hid
    rcases List.mem_append.mp hv with hv | hv
    · obtain ⟨c, hc, hv⟩ := List.mem_flatMap.mp hv
      rw [hinstrs k hk] at hc
      obtain ⟨i, hi, hc⟩ := List.mem_flatMap.mp hc
      unfold piece at hc
      split at hc
      · next hsel =>
          obtain ⟨a, b, hoperands⟩ := hops k hk i hi hsel
          have hbuilt := hstage.built k hk i hi ((picked_iff hF hk hi).mpr hsel)
          obtain ⟨-, -, huses⟩ := hbuilt.instr hrule hsel hoperands hc
          rcases huses v hv with ⟨u, rfl⟩ | ⟨ty, hconst⟩ | ⟨j, rfl, hj⟩
          · exact hne u
          · rintro rfl
            cases hconst
          · rintro heq
            cases heq
            have hlt := hlt id hid
            omega
      · obtain rfl := List.mem_singleton.mp hc
        obtain ⟨u, -, rfl⟩ := List.mem_map.mp hv
        exact hne u
    · rw [hterm k hk] at hv
      obtain ⟨u, -, rfl⟩ := List.mem_map.mp hv
      exact hne u

end LlvmPasses.MBA
