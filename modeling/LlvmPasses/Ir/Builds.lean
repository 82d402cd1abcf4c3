import Mathlib.Data.List.Nodup
import LlvmPasses.Ir.IRBuilder
import LlvmPasses.Ir.Same
import LlvmPasses.Ir.Types

/-!
# What a builder makes

Whatever is asked for comes back as a constant or is inserted under the next
handle. So the handles of what has been inserted are consecutive, operands come
before what uses them, and everything has the type that was asked for.
-/

namespace LlvmPasses.Ir

/-- The operand is no result from the handle on. -/
def Value.Before (n : Nat) (v : Value) : Prop := ∀ id, v = .inst id → id < n

theorem Value.Before.mono {n n' : Nat} {v : Value} (h : v.Before n) (hle : n ≤ n') :
    v.Before n' := fun id hid => Nat.lt_of_lt_of_le (h id hid) hle

theorem before_const {n : Nat} {v : Value} {ty : Ty} (h : v.constTy = some ty) :
    v.Before n := by
  rintro id rfl
  cases h

theorem applyInt_cases {w : Nat} {op : BinOp} {f : Flags} {x y : BitVec w} {v : Val}
    (h : op.applyInt f x y = some v) : v = .poison ∨ ∃ z, v = .int w z := by
  rcases op.applyInt_flags x y with hnone | ⟨z, hsome⟩
  · rw [hnone] at h
    cases h
  · rcases hsome f with heq | heq
    · exact .inl (Option.some.inj (h.symm.trans heq))
    · exact .inr ⟨z, Option.some.inj (h.symm.trans heq)⟩

theorem foldBinOp_constTy {op : BinOp} {lhs rhs v : Value} (h : foldBinOp op lhs rhs = some v) :
    ∃ w, lhs.constTy = some (.int w) ∧ rhs.constTy = some (.int w) ∧
      v.constTy = some (.int w) := by
  have hconst : ∀ {v w}, Value.constWidth v = some w → v.constTy = some (.int w) := by
    intro v w hw
    unfold Value.constWidth at hw
    split at hw
    · exact congrArg _ (congrArg _ (Option.some.inj hw))
    · exact congrArg _ (congrArg _ (Option.some.inj hw))
    · cases hw
  unfold foldBinOp at h
  split at h
  · split at h
    · next w x w' y heq =>
        subst heq
        split at h
        · next w'' z hz =>
            cases h
            rcases applyInt_cases hz with hno | ⟨z', heq⟩
            · cases hno
            · cases heq
              exact ⟨_, rfl, rfl, rfl⟩
        · cases h
          exact ⟨_, rfl, rfl, rfl⟩
    · cases h
  · split at h
    · next w w' hl hr =>
        split at h
        · next heq =>
            cases h
            exact ⟨w, hconst hl, heq ▸ hconst hr, rfl⟩
        · cases h
    · cases h

namespace IRBuilder

variable {ty : Ty} {op : Op} {operands : List Value} {b b' : IRBuilder} {v : Value} {n : Nat}

/-- A constant of the type, or the instruction. -/
inductive Made (ty : Ty) (op : Op) (operands : List Value) (b : IRBuilder) :
    Value × IRBuilder → Prop
  | folded (v : Value) (hv : v.constTy = some ty) : Made ty op operands b (v, b)
  | inserted : Made ty op operands b (insert ty op operands b)

theorem createBinOp_made {op : BinOp} {lhs rhs : Value} {w : Nat}
    (hl : ∀ ty, lhs.constTy = some ty → ty = .int w) (b : IRBuilder) :
    Made (.int w) (.binop op) [lhs, rhs] b (createBinOp op (.int w) lhs rhs b) := by
  unfold createBinOp
  cases hfold : foldBinOp op lhs rhs with
  | some v =>
      obtain ⟨w', hlhs, -, hv⟩ := foldBinOp_constTy hfold
      exact .folded v (hl _ hlhs ▸ hv)
  | none => exact .inserted

theorem Made.constTy (h : Made ty op operands b (v, b')) {ty' : Ty} (hv : v.constTy = some ty') :
    ty' = ty := by
  cases h with
  | folded _ hv' => exact Option.some.inj (hv.symm.trans hv')
  | inserted => cases hv

/-- What has been inserted from the handle `n` on. -/
structure Code (n : Nat) (b : IRBuilder) : Prop where
  ids : b.inserted.map Instr.id = List.range' n b.inserted.length
  next : b.next = n + b.inserted.length
  before : ∀ i ∈ b.inserted, ∀ v ∈ i.operands, v.Before b.next

theorem code_nil (n : Nat) : Code n ⟨[], n⟩ := ⟨rfl, rfl, nofun⟩

theorem Made.code (h : Made ty op operands b (v, b')) (hb : Code n b)
    (hoperands : ∀ v ∈ operands, v.Before b.next) :
    Code n b' ∧ v.Before b'.next ∧ b.next ≤ b'.next := by
  cases h with
  | folded _ hv => exact ⟨hb, before_const hv, Nat.le_refl _⟩
  | inserted =>
      refine ⟨⟨?_, ?_, ?_⟩, ?_, Nat.le_succ _⟩
      · show List.map Instr.id (b.inserted ++ [_]) = _
        rw [List.map_append, List.length_append, hb.ids, List.length_singleton,
          ← List.range'_append_1, ← hb.next]
        rfl
      · show b.next + 1 = n + (b.inserted ++ [_]).length
        rw [List.length_append, hb.next, List.length_singleton, Nat.add_assoc]
      · intro i hi w hw
        rcases List.mem_append.mp hi with hi | hi
        · exact (hb.before i hi w hw).mono (Nat.le_succ _)
        · obtain rfl := List.mem_singleton.mp hi
          exact (hoperands w hw).mono (Nat.le_succ _)
      · rintro id heq
        cases heq
        exact Nat.lt_succ_self _

theorem Code.le_id (hb : Code n b) {i : Instr Op} (hi : i ∈ b.inserted) :
    n ≤ i.id ∧ i.id < b.next := by
  have hmem : i.id ∈ b.inserted.map Instr.id := List.mem_map_of_mem hi
  rw [hb.ids, List.mem_range'_1] at hmem
  exact ⟨hmem.1, hb.next ▸ hmem.2⟩

theorem Code.nodup (hb : Code n b) : (b.inserted.map Instr.id).Nodup := hb.ids ▸ List.nodup_range'

/-! ## Types -/

/-- What has been inserted has the types that results have under `T`. -/
def Named (T : Value → Ty) (b : IRBuilder) : Prop := ∀ i ∈ b.inserted, T (.inst i.id) = i.ty

/-- What has been inserted is well typed. -/
def Sound (T : Value → Ty) (b : IRBuilder) : Prop := ∀ i ∈ b.inserted, i.checks T = true

variable {T : Value → Ty}

theorem Made.named (h : Made ty op operands b (v, b')) (hT : Named T b') : Named T b := by
  cases h with
  | folded => exact hT
  | inserted => exact fun i hi => hT i (List.mem_append_left _ hi)

theorem Made.typeOf (h : Made ty op operands b (v, b'))
    (hconst : ∀ v ty, v.constTy = some ty → T v = ty) (hT : Named T b') : T v = ty := by
  cases h with
  | folded _ hv => exact hconst _ _ hv
  | inserted => exact hT _ (List.mem_append_right _ (List.mem_singleton_self _))

/-- An instruction that is well typed if a constant can be made instead. -/
theorem Made.sound_iff {c : Prop} (h : Made ty op operands b (v, b'))
    (hfold : b' = b → c)
    (hcheck : ∀ id, (⟨id, ty, op, operands, [], {}⟩ : Instr Op).checks T = true ↔ c) :
    Sound T b' ↔ Sound T b ∧ c := by
  cases h with
  | folded => exact (and_iff_left (hfold rfl)).symm
  | inserted =>
      unfold Sound
      rw [← hcheck b.next]
      simp only [List.forall_mem_append, List.forall_mem_singleton]

end IRBuilder

end LlvmPasses.Ir
