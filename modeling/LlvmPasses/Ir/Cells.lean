import LlvmPasses.Ir.Same

/-!
# Cells beside memory

A world is given cells at some addresses, each holding one value. What the
world does to memory leaves them alone, so an instruction comes to the same on
both, unless in the first world it is undefined.
-/

namespace LlvmPasses.Ir

variable {μ ν : Type}

def Reply.map (g : μ → ν) : Reply μ → Reply ν
  | .returns v mem => .returns v (g mem)
  | .unwinds mem => .unwinds (g mem)
  | .never => .never
  | .undefined => .undefined

def Effect.map (g : μ → ν) : Effect μ → Effect ν
  | .done v mem events => .done v (g mem) events
  | .unwinds mem events => .unwinds (g mem) events
  | .never events => .never events
  | .undefined => .undefined

def Transfer.map (g : μ → ν) : Transfer μ → Transfer ν
  | .goto k v mem events => .goto k v (g mem) events
  | .ret v => .ret v
  | .unwinds mem events => .unwinds (g mem) events
  | .never events => .never events
  | .undefined => .undefined

/-- What the cells hold, by address. -/
abbrev Cells := Nat → Val

def Cells.set (cells : Cells) (a : Nat) (v : Val) : Cells := fun b => if b = a then v else cells b

theorem Cells.set_self (cells : Cells) (a : Nat) (v : Val) : cells.set a v a = v := if_pos rfl

theorem Cells.set_other (cells : Cells) {a b : Nat} (v : Val) (h : b ≠ a) :
    cells.set a v b = cells b := if_neg h

/-- The world with cells at some addresses. -/
def World.withCells (W : World μ) (isCell : Nat → Bool) : World (Cells × μ) where
  address := W.address
  blockAddress := W.blockAddress
  alloca ty m := ((W.alloca ty m.2).1, (m.1, (W.alloca ty m.2).2))
  load a ty m :=
    if isCell a then if (m.1 a).hasTy ty then some (m.1 a) else none else W.load a ty m.2
  store a v m := if isCell a then some (m.1.set a v, m.2) else (W.store a v m.2).map (Prod.mk m.1)
  call a args m := (W.call a args m.2).map (Prod.mk m.1)
  other op ty vals m := (W.other op ty vals m.2).map (Prod.mk m.1)

/-- The world has nothing at the addresses that are to be cells. -/
def World.Leaves (W : World μ) (isCell : Nat → Bool) : Prop :=
  ∀ a, isCell a = true → (∀ ty m, W.load a ty m = none) ∧ ∀ v m, W.store a v m = none

section

variable {W : World μ} {isCell : Nat → Bool} {cells : Cells} {mem : μ} {args : List Val}
variable {env : Env}

theorem eval_withCells : eval (W.withCells isCell) args env = eval W args env := by
  funext v
  cases v <;> rfl

theorem computes_map (o : Option Val) :
    computes (cells, mem) o = (computes mem o).map (Prod.mk cells) := by
  cases o <;> rfl

theorem applyCall_withCells (vals : List Val) : (W.withCells isCell).applyCall vals (cells, mem) =
    (W.applyCall vals mem).map (Prod.mk cells) := by
  unfold World.applyCall
  cases vals.getLast? with
  | none => rfl
  | some v =>
      cases v with
      | ptr a =>
          have hcall : (W.withCells isCell).call a vals.dropLast (cells, mem) =
            (W.call a vals.dropLast mem).map (Prod.mk cells) := rfl
          simp only [hcall]
          cases W.call a vals.dropLast mem <;> rfl
      | _ => rfl

/-- An instruction that the world defines comes to the same beside cells. -/
theorem apply_withCells (hW : W.Leaves isCell) (op : Op) (ty : Ty) (f : Flags) (vals : List Val)
    (h : W.apply op ty f vals mem ≠ .undefined) :
    (W.withCells isCell).apply op ty f vals (cells, mem) =
      (W.apply op ty f vals mem).map (Prod.mk cells) := by
  unfold World.apply at h ⊢
  split at h
  case h_9 isVolatile _ a =>
    have hload : (W.withCells isCell).load a ty (cells, mem) = W.load a ty mem := by
      refine if_neg fun ha => h ?_
      rw [(hW a ha).1]
    simp only [hload]
    cases W.load a ty mem <;> rfl
  case h_10 v a =>
    have hstore : (W.withCells isCell).store a v (cells, mem) =
        (W.store a v mem).map (Prod.mk cells) := by
      refine if_neg fun ha => h ?_
      rw [(hW a ha).2]
    simp only [hstore]
    cases W.store a v mem <;> rfl
  case h_14 => exact applyCall_withCells _
  case h_15 => rfl
  case h_4 op _ _ =>
    cases op.isInteger with
    | true => exact computes_map _
    | false => rfl
  case h_5 op _ _ _ =>
    cases op.isInteger with
    | true => exact computes_map _
    | false => rfl
  all_goals first | exact computes_map _ | rfl

theorem effect_withCells (hW : W.Leaves isCell) (i : Instr Op)
    (h : effect W args env mem i ≠ .undefined) :
    effect (W.withCells isCell) args env (cells, mem) i =
      (effect W args env mem i).map (Prod.mk cells) := by
  unfold effect at h ⊢
  rw [eval_withCells]
  by_cases hdbg : i.isDbgInfoIntrinsic = true
  · rw [if_pos hdbg, if_pos hdbg]
    rfl
  rw [if_neg hdbg] at h
  rw [if_neg hdbg, if_neg hdbg]
  cases hvals : evalAll (eval W args env) i.operands with
  | none => rfl
  | some vals =>
      rw [hvals] at h
      exact apply_withCells hW _ _ _ _ h

/-- Terminators other than an `invoke` do not look at memory. -/
theorem transfer_withCells (t : Instr TermOp) (ht : t.op ≠ .invoke) (get : Value → Option Val) :
    (W.withCells isCell).transfer t get (cells, mem) =
      (W.transfer t get mem).map (Prod.mk cells) := by
  unfold World.transfer
  split
  case h_2 c _ _ _ _ =>
    rcases get c with _ | (_ | _ | _ | _ | _) <;> rfl
  case h_3 c _ _ _ _ =>
    rcases get c with _ | (_ | _ | _ | _ | _) <;> rfl
  case h_4 address _ _ _ =>
    rcases get address with _ | (_ | a | _ | _ | _)
    case some.ptr =>
      have hblock : (W.withCells isCell).blockAddress = W.blockAddress := rfl
      simp only [hblock]
      cases t.successors.find? fun k => W.blockAddress k == a <;> rfl
    all_goals rfl
  case h_6 v _ _ =>
    cases get v <;> rfl
  case h_7 hop => exact absurd hop ht
  all_goals rfl

end

end LlvmPasses.Ir
