import LlvmPasses.Ir.Rename
import LlvmPasses.Ir.WellFormed

/-!
# Edges led on to another block

The edges to one block are led on to another, in every branch and every switch.
Control then goes where it went, or to the other block in place of the one.
-/

namespace LlvmPasses.Ir

open Instr

/-- What an operand of a terminator is once the edges to `bb` lead to `bb2`. -/
def retarget (bb bb2 : Nat) (v : Value) : Value := if v = .block bb then .block bb2 else v

/-- The block that control goes to instead. -/
def landing (bb bb2 k : Nat) : Nat := if k = bb then bb2 else k

/-- A transfer, with its edge led on. -/
def land {μ : Type} (bb bb2 : Nat) : Transfer μ → Transfer μ
  | .goto k v mem events => .goto (landing bb bb2 k) v mem events
  | t => t

variable {μ : Type} {W : World μ} {args : List Val} {bb bb2 k : Nat} {get : Value → Option Val}
variable {t : Instr TermOp} {mem : μ} {v : Value} {F G : Function}

theorem retarget_block (k : Nat) : retarget bb bb2 (.block k) = .block (landing bb bb2 k) := by
  unfold retarget landing
  by_cases hk : k = bb
  · rw [if_pos hk, if_pos (congrArg Value.block hk)]
  · rw [if_neg hk, if_neg fun heq => hk (Value.block.inj heq)]

theorem retarget_constInt {w : Nat} (c : BitVec w) :
    retarget bb bb2 (.constInt w c) = .constInt w c := rfl

theorem retarget_cases (bb bb2 : Nat) (v : Value) :
    (∃ k, v = .block k ∧ retarget bb bb2 v = .block (landing bb bb2 k)) ∨
      (∀ k, v ≠ .block k) ∧ retarget bb bb2 v = v := by
  cases v with
  | block k => exact .inl ⟨k, rfl, retarget_block k⟩
  | _ => exact .inr ⟨by simp, rfl⟩

theorem caseTarget_retarget (x : Nat) (cases : List Value) :
    caseTarget x (cases.map (retarget bb bb2)) = (caseTarget x cases).map (landing bb bb2) := by
  induction cases using caseTarget.induct (x := x) with
  | case1 w c j cases hc =>
      rw [List.map_cons, List.map_cons, retarget_block, retarget_constInt, caseTarget, caseTarget,
        if_pos hc, if_pos hc]
      rfl
  | case2 w c j cases hc ih =>
      rw [List.map_cons, List.map_cons, retarget_block, retarget_constInt, caseTarget, caseTarget,
        if_neg hc, if_neg hc, ih]
  | case3 cases hno =>
      have hnone : caseTarget x cases = none := by
        rw [caseTarget]
        exact hno
      have hnone' : caseTarget x (cases.map (retarget bb bb2)) = none := by
        rw [caseTarget]
        intro w c j rest heq
        obtain ⟨a, l, rfl, ha, hl⟩ := List.map_eq_cons_iff.mp heq
        obtain ⟨b, l, rfl, hb, -⟩ := List.map_eq_cons_iff.mp hl
        rcases retarget_cases bb bb2 a with ⟨i, rfl, hi⟩ | ⟨-, hi⟩
        · rw [hi] at ha
          cases ha
        rcases retarget_cases bb bb2 b with ⟨i', rfl, -⟩ | ⟨hnot, hi'⟩
        · exact hno w c i' l (by rw [← hi, ha])
        · exact hnot j (hi'.symm.trans hb)
      rw [hnone, hnone']
      rfl

/-- A branch or a switch that has been led on goes to where its edge is led. -/
theorem transfer_retarget (hop : t.op = .br ∨ t.op = .switch)
    (hget : ∀ k w x, get (.block k) ≠ some (.int w x)) :
    W.transfer { t with operands := t.operands.map (retarget bb bb2) } get mem =
      land bb bb2 (W.transfer t get mem) := by
  -- the address of a block is no condition
  have hcond : ∀ c, get (retarget bb bb2 c) = get c ∨
      (∀ w x, get (retarget bb bb2 c) ≠ some (.int w x)) ∧ ∀ w x, get c ≠ some (.int w x) := by
    intro c
    rcases retarget_cases bb bb2 c with ⟨k, rfl, hk⟩ | ⟨-, hk⟩
    · rw [hk]
      exact .inr ⟨hget _, hget _⟩
    · exact .inl (by rw [hk])
  have hblock : ∀ {v k}, retarget bb bb2 v = .block k → ∃ j, v = .block j := by
    intro v k h
    rcases retarget_cases bb bb2 v with ⟨j, hj, -⟩ | ⟨hnot, hv⟩
    · exact ⟨j, hj⟩
    · exact absurd (hv.symm.trans h) (hnot k)
  rcases hop with hop | hop
  · by_cases hbr : ∃ k, t.operands = [.block k]
    · obtain ⟨k, hops⟩ := hbr
      simp only [World.transfer, hop, hops, List.map_cons, List.map_nil, retarget_block, land]
    by_cases hif : ∃ c i j, t.operands = [c, .block i, .block j]
    · obtain ⟨c, i, j, hops⟩ := hif
      simp only [World.transfer, hop, hops, List.map_cons, List.map_nil, retarget_block]
      rcases hcond c with heq | ⟨hnot, hnot'⟩
      · rw [heq]
        split
        · simp only [land]
          split <;> rfl
        · rfl
      · split
        · next hx => exact absurd hx (hnot _ _)
        · simp only [land]
    rw [transfer_br_undefined hop (fun k heq => hbr ⟨k, heq⟩)
      fun c i j heq => hif ⟨c, i, j, heq⟩]
    refine transfer_br_undefined hop (fun k heq => ?_) fun c i j heq => ?_
    · obtain ⟨v, hops, hv⟩ := List.map_eq_singleton_iff.mp heq
      obtain ⟨k', rfl⟩ := hblock hv
      exact hbr ⟨k', hops⟩
    · obtain ⟨c', l, hops, -, hl⟩ := List.map_eq_cons_iff.mp heq
      obtain ⟨v, l, rfl, hv, hl⟩ := List.map_eq_cons_iff.mp hl
      obtain ⟨u, rfl, hu⟩ := List.map_eq_singleton_iff.mp hl
      obtain ⟨i', rfl⟩ := hblock hv
      obtain ⟨j', rfl⟩ := hblock hu
      exact hif ⟨c', i', j', hops⟩
  · by_cases hswitch : ∃ c k cases, t.operands = c :: .block k :: cases
    · obtain ⟨c, k, cases, hops⟩ := hswitch
      simp only [World.transfer, hop, hops, List.map_cons, retarget_block, caseTarget_retarget]
      rcases hcond c with heq | ⟨hnot, hnot'⟩
      · rw [heq]
        split
        · next x _ =>
            cases caseTarget x.toNat cases <;> rfl
        · rfl
      · split
        · next hx => exact absurd hx (hnot _ _)
        · simp only [land]
    rw [transfer_switch_undefined hop fun c k cases heq => hswitch ⟨c, k, cases, heq⟩]
    refine transfer_switch_undefined hop fun c k cases heq => ?_
    obtain ⟨c', l, hops, -, hl⟩ := List.map_eq_cons_iff.mp heq
    obtain ⟨v, l, rfl, hv, -⟩ := List.map_eq_cons_iff.mp hl
    obtain ⟨k', rfl⟩ := hblock hv
    exact hswitch ⟨c', k', l, hops⟩

theorem evens_subset {α : Type} {l : List α} {a : α} (h : a ∈ evens l) : a ∈ l := by
  induction l using evens.induct with
  | case1 => exact h
  | case2 => exact h
  | case3 b c l ih =>
      rcases List.mem_cons.mp h with rfl | h
      · exact List.mem_cons_self ..
      · exact List.mem_cons_of_mem _ (List.mem_cons_of_mem _ (ih h))

/-- A terminator names the blocks that it leads to. -/
theorem mem_operands_of_successor (h : k ∈ t.successors) : .block k ∈ t.operands := by
  have hmem : .block k ∈ t.successorOperands := by
    obtain ⟨v, hv, hk⟩ := List.mem_filterMap.mp h
    cases v with
    | block j =>
        cases hk
        exact hv
    | _ => cases hk
  unfold successorOperands at hmem
  split at hmem
  · next hops => rwa [hops]
  · next hops =>
      rw [hops]
      simp only [List.mem_cons, List.not_mem_nil, or_false] at hmem ⊢
      exact .inr hmem.symm
  · next hops =>
      rw [hops]
      exact List.mem_cons_of_mem _ (evens_subset hmem)
  · next hops =>
      rw [hops]
      exact List.mem_cons_of_mem _ hmem
  · exact List.dropLast_subset _ (List.mem_of_mem_drop hmem)
  · cases hmem

/-! ## Functions -/

/-- The edges to `bb` have been led on to `bb2`; nothing else has changed. -/
structure LedOn (F G : Function) (bb bb2 : Nat) : Prop where
  order : G.order = F.order
  params : G.params = F.params
  instrs : ∀ k, (G.block k).instrs = (F.block k).instrs
  term : ∀ k ∈ F.order, (G.block k).term =
    { (F.block k).term with operands := (F.block k).term.operands.map (retarget bb bb2) }
  /-- Only branches and switches have such edges. -/
  named : ∀ k ∈ F.order, .block bb ∈ (F.block k).term.operands →
    (F.block k).term.op = .br ∨ (F.block k).term.op = .switch

theorem LedOn.transfer (h : LedOn F G bb bb2) (hk : k ∈ F.order)
    (hget : ∀ k w x, get (.block k) ≠ some (.int w x)) :
    W.transfer (G.block k).term get mem = land bb bb2 (W.transfer (F.block k).term get mem) := by
  rw [h.term k hk]
  by_cases hnamed : .block bb ∈ (F.block k).term.operands
  · exact transfer_retarget (h.named k hk hnamed) hget
  · have hsame : (F.block k).term.operands.map (retarget bb bb2) = (F.block k).term.operands := by
      refine (List.map_congr_left fun v hv => ?_).trans (List.map_id _)
      have hne : v ≠ .block bb := fun heq => hnamed (heq ▸ hv)
      exact if_neg hne
    rw [hsame]
    cases htransfer : W.transfer (F.block k).term get mem with
    | goto j v mem events =>
        have hne : j ≠ bb := fun heq =>
          hnamed (heq ▸ mem_operands_of_successor (transfer_goto htransfer))
        simp only [land, landing, if_neg hne]
    | _ => rfl

end LlvmPasses.Ir
