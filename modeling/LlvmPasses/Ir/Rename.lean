import Mathlib.Data.Option.Basic
import LlvmPasses.Ir.Steps

/-!
# Instructions on other names

An instruction whose operands go by other names does the same in an environment
that has the values under these names. Which results are there under which name
is a map between handles; only the handles that operands may name matter.
-/

namespace LlvmPasses.Ir

/-- Every result goes by another handle. -/
def Value.rename (ρ : Nat → Nat) : Value → Value
  | .inst id => .inst (ρ id)
  | v => v

def Instr.mapOperands {ω : Type} (f : Value → Value) (i : Instr ω) : Instr ω :=
  { i with operands := i.operands.map f }

def Block.mapOperands (f : Value → Value) (b : Block) : Block :=
  ⟨b.instrs.map (Instr.mapOperands f), b.term.mapOperands f⟩

/-- Nothing but a block goes by the name of one, and blocks keep their names. -/
def KeepsBlocks (f : Value → Value) : Prop := ∀ v k, f v = .block k ↔ v = .block k

/-- What a switch compares with keeps its name. -/
def Instr.KeepsCases (f : Value → Value) (t : Instr TermOp) : Prop :=
  t.op = .switch → ∀ v ∈ t.operands.tail, ∀ w c, f v = .constInt w c ↔ v = .constInt w c

/-- The values of the handles in `S` are there under other handles. -/
def Env.Via (ρ : Nat → Nat) (S : Nat → Prop) (env env' : Env) : Prop :=
  ∀ id, S id → env' (ρ id) = env id

/-- No other handle in `S` goes by the new name of this one. -/
def Alone (ρ : Nat → Nat) (S : Nat → Prop) (id : Nat) : Prop :=
  ∀ j, S j → ρ j = ρ id → j = id

/-! ## Operands -/

section Operands

variable {ω : Type} {f g : Value → Value} {i : Instr ω} {k : Nat}

theorem mapOperands_congr (h : ∀ v ∈ i.operands, f v = g v) : i.mapOperands f = i.mapOperands g :=
  congrArg (fun vs => { i with operands := vs }) (List.map_congr_left h)

theorem mapOperands_id (h : ∀ v, f v = v) (i : Instr ω) : i.mapOperands f = i := by
  have hid : f = id := funext h
  unfold Instr.mapOperands
  rw [hid, List.map_id]

theorem mapOperands_block_id (h : ∀ v, f v = v) (b : Block) : b.mapOperands f = b := by
  unfold Block.mapOperands
  rw [mapOperands_id h]
  have hmap : b.instrs.map (Instr.mapOperands f) = b.instrs := by
    rw [List.map_congr_left fun i _ => mapOperands_id h i, List.map_id']
  rw [hmap]

theorem isPhi_mapOperands (f : Value → Value) (i : Instr Op) :
    (i.mapOperands f).isPhi = i.isPhi := rfl

theorem entries_mapOperands (f : Value → Value) (i : Instr ω) :
    (i.mapOperands f).entries = i.entries.map (Prod.map id f) := by
  unfold Instr.entries Instr.mapOperands
  rw [List.zip_map_right]

theorem getIncoming_mapOperands (f : Value → Value) (i : Instr Op) (k : Nat) :
    (i.mapOperands f).getIncomingValueForBlock k = (i.getIncomingValueForBlock k).map f := by
  show ((i.mapOperands f).entries.find? fun p => p.1 == k).map Prod.snd = _
  rw [entries_mapOperands, List.find?_map, Option.map_map]
  show Option.map _ (i.entries.find? fun p => p.1 == k) =
    Option.map f ((i.entries.find? fun p => p.1 == k).map Prod.snd)
  rw [Option.map_map]
  rfl

theorem incoming_mem {i : Instr Op} {v : Value} (h : i.getIncomingValueForBlock k = some v) :
    v ∈ i.operands := by
  obtain ⟨e, he, rfl⟩ := Option.map_eq_some_iff.mp h
  exact (List.of_mem_zip (List.mem_of_find?_eq_some he)).2

end Operands

/-! ## Successors -/

section Successors

variable {ρ : Nat → Nat} {t : Instr TermOp} {f : Value → Value}

open Instr

theorem evens_map {α β : Type} (f : α → β) (l : List α) : evens (l.map f) = (evens l).map f := by
  fun_induction evens l with
  | case1 => rfl
  | case2 a => rfl
  | case3 a b l ih => simp [evens, ih]

theorem successorOperands_mapOperands (f : Value → Value) (t : Instr TermOp) :
    (t.mapOperands f).successorOperands = t.successorOperands.map f := by
  obtain ⟨id, ty, op, operands, incoming, flags⟩ := t
  cases op with
  | br =>
      match operands with
      | [] | [_] | [_, _] | [_, _, _] | _ :: _ :: _ :: _ :: _ => rfl
  | switch =>
      cases operands with
      | nil => rfl
      | cons c dests => exact evens_map f dests
  | indirectbr => cases operands <;> rfl
  | invoke => simp [successorOperands, mapOperands, List.map_dropLast, List.map_drop]
  | ret => cases operands <;> rfl
  | resume => cases operands <;> rfl
  | unreachable => cases operands <;> rfl

theorem successors_map {f : Value → Value} (hblock : KeepsBlocks f) (t : Instr TermOp) :
    (t.mapOperands f).successors = t.successors := by
  unfold successors
  rw [successorOperands_mapOperands, List.filterMap_map]
  congr 1
  funext v
  cases hv : v with
  | block k => rw [Function.comp_apply, (hblock _ k).mpr rfl]
  | _ =>
      rw [Function.comp_apply]
      split
      · next k hk => cases (hblock _ k).mp hk
      · rfl

theorem keepsBlocks_rename (ρ : Nat → Nat) : KeepsBlocks (Value.rename ρ) := by
  intro v k
  cases v <;> simp [Value.rename]

theorem successors_rename (ρ : Nat → Nat) (t : Instr TermOp) :
    (t.mapOperands (Value.rename ρ)).successors = t.successors :=
  successors_map (keepsBlocks_rename ρ) t

end Successors

/-! ## Effects -/

section Effects

variable {μ : Type} {W : World μ} {args : List Val} {ρ ρ' : Nat → Nat} {S : Nat → Prop}
variable {env env' : Env} {mem : μ} {id id' : Nat}

theorem Env.Via.eval (h : Env.Via ρ S env env') {v : Value} (hv : ∀ id, v = .inst id → S id) :
    Ir.eval W args env' (v.rename ρ) = Ir.eval W args env v := by
  cases v with
  | inst id => exact h id (hv id rfl)
  | _ => rfl

theorem evalAll_map {get get' : Value → Option Val} {f : Value → Value} {vs : List Value}
    (h : ∀ v ∈ vs, get' (f v) = get v) : evalAll get' (vs.map f) = evalAll get vs := by
  induction vs with
  | nil => rfl
  | cons v vs ih =>
      rw [List.map_cons, evalAll, evalAll, h v (List.mem_cons_self ..),
        ih fun w hw => h w (List.mem_cons_of_mem _ hw)]

theorem effect_rename (h : Env.Via ρ S env env') {i : Instr Op}
    (hi : ∀ id, .inst id ∈ i.operands → S id) :
    effect W args env' mem (i.mapOperands (Value.rename ρ)) = effect W args env mem i := by
  have hvals : evalAll (eval W args env') (i.operands.map (Value.rename ρ)) =
      evalAll (eval W args env) i.operands :=
    evalAll_map fun v hv => h.eval fun id hid => hi id (hid ▸ hv)
  have hoperands : (i.mapOperands (Value.rename ρ)).operands =
      i.operands.map (Value.rename ρ) := rfl
  unfold effect
  rw [hoperands, hvals]
  rfl

/-- The result of an instruction, under a name that is new. -/
theorem Env.Via.set (h : Env.Via ρ S env env') (v : Val) (hself : S id → ρ' id = id')
    (hother : ∀ j, S j → j ≠ id → ρ' j = ρ j ∧ ρ j ≠ id') :
    Env.Via ρ' S (env.set id v) (env'.set id' v) := by
  intro j hj
  by_cases heq : j = id
  · subst heq
    rw [hself hj, Env.set_self, Env.set_self]
  · obtain ⟨hsame, hne⟩ := hother j hj heq
    rw [hsame, Env.set_other _ _ hne, Env.set_other _ _ heq]
    exact h j hj

/-- An instruction without result is named by no operand. -/
theorem Env.Via.none (h : Env.Via ρ S env env') (hid : ¬ S id)
    (hother : ∀ j, S j → j ≠ id → ρ' j = ρ j) : Env.Via ρ' S env env' := by
  intro j hj
  rw [hother j hj fun heq => hid (heq ▸ hj)]
  exact h j hj

/-- The environments after the same result, or after none. -/
theorem Env.Via.assign (h : Env.Via ρ S env env') {ty : Ty} (v : Option Val)
    (hself : S id → ty ≠ .void ∧ ρ' id = id')
    (hother : ∀ j, S j → j ≠ id → ρ' j = ρ j ∧ ρ j ≠ id') :
    Option.Rel (Env.Via ρ' S) (env.assign id ty v) (env'.assign id' ty v) := by
  unfold Env.assign
  cases v with
  | none =>
      by_cases hty : ty = .void
      · simp only [if_pos hty]
        exact .some (h.none (fun hid => (hself hid).1 hty) fun j hj hne => (hother j hj hne).1)
      · simp only [if_neg hty]
        exact .none
  | some v =>
      by_cases hty : v.hasTy ty = true
      · simp only [if_pos hty]
        exact .some (h.set v (fun hid => (hself hid).2) hother)
      · simp only [if_neg hty]
        exact .none

theorem Env.Via.refl_set (h : Env.Via ρ S env env') (v : Val) (hfix : ρ id = id)
    (halone : Alone ρ S id) : Env.Via ρ S (env.set id v) (env'.set id v) :=
  h.set v (fun _ => hfix) fun j hj hne =>
    ⟨rfl, fun heq => hne (halone j hj (heq.trans hfix.symm))⟩

/-- PHI nodes that have the same values coming in. -/
theorem Env.Via.readPhis {get get' : Value → Option Val} {prev prev' : Nat}
    {change : Instr Op → Instr Op} {phis : List (Instr Op)}
    (hid : ∀ phi ∈ phis, (change phi).id = phi.id ∧ (change phi).ty = phi.ty)
    (hget : ∀ phi ∈ phis, ((change phi).getIncomingValueForBlock prev').bind get' =
      (phi.getIncomingValueForBlock prev).bind get)
    (hfix : ∀ phi ∈ phis, ρ phi.id = phi.id ∧ Alone ρ S phi.id)
    {env env' : Env} (h : Env.Via ρ S env env') :
    Option.Rel (Env.Via ρ S) (Ir.readPhis get prev phis env)
      (Ir.readPhis get' prev' (phis.map change) env') := by
  induction phis generalizing env env' with
  | nil => exact .some h
  | cons phi phis ih =>
      obtain ⟨hphi, hphis⟩ := List.forall_mem_cons.mp hget
      obtain ⟨⟨hid₁, hty₁⟩, hids⟩ := List.forall_mem_cons.mp hid
      obtain ⟨⟨hfix₁, halone⟩, hfixes⟩ := List.forall_mem_cons.mp hfix
      rw [List.map_cons]
      unfold Ir.readPhis
      rw [hphi, hid₁, hty₁]
      cases (phi.getIncomingValueForBlock prev).bind get with
      | none => exact .none
      | some v =>
          by_cases hty : v.hasTy phi.ty = true
          · simp only [if_pos hty]
            exact ih hids hphis hfixes (h.refl_set v hfix₁ halone)
          · simp only [if_neg hty]
            exact .none

end Effects

/-! ## Terminators -/

section Terminators

variable {μ : Type} {W : World μ} {ρ : Nat → Nat} {get get' : Value → Option Val} {mem : μ}

theorem caseTarget_map {f : Value → Value} (hblock : KeepsBlocks f) (x : Nat) (cases : List Value)
    (hcase : ∀ v ∈ cases, ∀ w c, f v = .constInt w c ↔ v = .constInt w c) :
    caseTarget x (cases.map f) = caseTarget x cases := by
  induction cases using caseTarget.induct (x := x) with
  | case1 w c k cases hc =>
      rw [List.map_cons, List.map_cons, (hcase _ (List.mem_cons_self ..) w c).mpr rfl,
        (hblock _ k).mpr rfl, caseTarget, caseTarget, if_pos hc, if_pos hc]
  | case2 w c k cases hc ih =>
      rw [List.map_cons, List.map_cons, (hcase _ (List.mem_cons_self ..) w c).mpr rfl,
        (hblock _ k).mpr rfl, caseTarget, caseTarget, if_neg hc, if_neg hc]
      exact ih fun v hv => hcase v (List.mem_cons_of_mem _ (List.mem_cons_of_mem _ hv))
  | case3 cases hno =>
      have hnone : ∀ cases : List Value,
          (∀ w (c : BitVec w) k rest, cases = .constInt w c :: .block k :: rest → False) →
          caseTarget x cases = none := by
        intro cases hno
        rw [caseTarget]
        exact hno
      rw [hnone cases hno, hnone]
      intro w c k rest heq
      obtain ⟨v, cases', rfl, hv, heq⟩ := List.map_eq_cons_iff.mp heq
      obtain ⟨b, rest', rfl, hb, -⟩ := List.map_eq_cons_iff.mp heq
      have hc : v = .constInt w c := (hcase v (List.mem_cons_self ..) w c).mp hv
      exact hno w c k rest' (by rw [hc, (hblock b k).mp hb])

theorem callOperands_map {f : Value → Value} (operands : List Value) :
    callOperands (operands.map f) = (callOperands operands).map f := by
  simp [callOperands, List.map_take, List.map_drop]

/-- A branch on anything else. -/
theorem transfer_br_undefined {t : Instr TermOp} (hop : t.op = .br)
    (hjump : ∀ k, t.operands ≠ [.block k])
    (hbranch : ∀ c j k, t.operands ≠ [c, .block j, .block k]) :
    W.transfer t get mem = .undefined := by
  unfold World.transfer
  split <;> simp_all

theorem transfer_switch_undefined {t : Instr TermOp} (hop : t.op = .switch)
    (hno : ∀ c k cases, t.operands ≠ c :: .block k :: cases) :
    W.transfer t get mem = .undefined := by
  unfold World.transfer
  split <;> simp_all

theorem transfer_br_map {t : Instr TermOp} {f : Value → Value} (hop : t.op = .br)
    (hblock : KeepsBlocks f) (h : ∀ v ∈ t.operands, get' (f v) = get v) :
    W.transfer (t.mapOperands f) get' mem = W.transfer t get mem := by
  have hkept : ∀ k, f (.block k) = .block k := fun k => (hblock _ k).mpr rfl
  by_cases hjump : ∃ k, t.operands = [.block k]
  · obtain ⟨k, hk⟩ := hjump
    simp only [World.transfer, Instr.mapOperands, hop, hk, List.map_cons, List.map_nil, hkept]
  by_cases hbranch : ∃ c j k, t.operands = [c, .block j, .block k]
  · obtain ⟨c, j, k, hk⟩ := hbranch
    have hc := h c (by simp [hk])
    simp only [World.transfer, Instr.mapOperands, hop, hk, List.map_cons, List.map_nil, hkept, hc]
  rw [not_exists] at hjump
  simp only [not_exists] at hbranch
  rw [transfer_br_undefined hop hjump hbranch]
  refine transfer_br_undefined (t := t.mapOperands f) hop ?_ ?_
  · intro k hk
    obtain ⟨v, hv, hveq⟩ := List.map_eq_singleton_iff.mp hk
    exact hjump k (by rw [hv, (hblock v k).mp hveq])
  · intro c j k hk
    obtain ⟨c', _, hv, -, h₁⟩ := List.map_eq_cons_iff.mp hk
    obtain ⟨v, _, rfl, hveq, h₂⟩ := List.map_eq_cons_iff.mp h₁
    obtain ⟨w, rfl, hweq⟩ := List.map_eq_singleton_iff.mp h₂
    exact hbranch c' j k (by rw [hv, (hblock v j).mp hveq, (hblock w k).mp hweq])

theorem transfer_map {t : Instr TermOp} {f : Value → Value} (hblock : KeepsBlocks f)
    (hcase : t.KeepsCases f) (h : ∀ v ∈ t.operands, get' (f v) = get v) :
    W.transfer (t.mapOperands f) get' mem = W.transfer t get mem := by
  have hsuccessors := successors_map hblock t
  have hkept : ∀ k, f (.block k) = .block k := fun k => (hblock _ k).mpr rfl
  obtain ⟨id, ty, op, operands, incoming, flags⟩ := t
  have hmem : ∀ v ∈ operands, get' (f v) = get v := h
  cases op with
  | br => exact transfer_br_map rfl hblock h
  | switch =>
      cases operands with
      | nil => rfl
      | cons c operands =>
          cases operands with
          | nil => rfl
          | cons default cases =>
              have hc := hmem c (List.mem_cons_self ..)
              have hcases : ∀ x, caseTarget x (cases.map f) = caseTarget x cases := fun x =>
                caseTarget_map hblock x cases fun v hv =>
                  hcase rfl v (List.mem_cons_of_mem default hv)
              by_cases hdefault : ∃ k, default = .block k
              · obtain ⟨k, rfl⟩ := hdefault
                simp only [World.transfer, Instr.mapOperands, List.map_cons, hkept, hc, hcases]
              · refine (transfer_switch_undefined rfl ?_).trans
                  (transfer_switch_undefined rfl ?_).symm
                · intro c' k cases' heq
                  have hk : f default = .block k := (List.cons.inj (List.cons.inj heq).2).1
                  exact hdefault ⟨k, (hblock _ k).mp hk⟩
                · intro c' k cases' heq
                  cases heq
                  exact hdefault ⟨k, rfl⟩
  | indirectbr =>
      cases operands with
      | nil => rfl
      | cons address dests =>
          have haddress := hmem address (List.mem_cons_self ..)
          unfold World.transfer
          rw [hsuccessors]
          simp only [Instr.mapOperands, List.map_cons, haddress]
  | ret =>
      cases operands with
      | nil => rfl
      | cons v operands =>
          cases operands with
          | nil =>
              have hv := hmem v (List.mem_cons_self ..)
              simp only [World.transfer, Instr.mapOperands, List.map_cons, List.map_nil, hv]
          | cons u operands => rfl
  | invoke =>
      have hvals : evalAll get' (callOperands (operands.map f)) =
          evalAll get (callOperands operands) := by
        rw [callOperands_map]
        exact evalAll_map fun v hv => hmem v (callOperands_subset hv)
      unfold World.transfer
      rw [hsuccessors]
      simp only [Instr.mapOperands, hvals]
  | resume => rfl
  | unreachable => rfl

theorem transfer_rename {t : Instr TermOp}
    (h : ∀ v ∈ t.operands, get' (v.rename ρ) = get v) :
    W.transfer (t.mapOperands (Value.rename ρ)) get' mem = W.transfer t get mem :=
  transfer_map (keepsBlocks_rename ρ)
    (fun _ v _ w c => by cases v <;> simp [Value.rename]) h

end Terminators

end LlvmPasses.Ir
