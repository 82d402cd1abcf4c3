import Mathlib.Data.Option.NAry
import LlvmPasses.Ir.BuildRuns

/-!
# Expressions

Operations on integers of one type, made by a builder from the operands up. What
has been made computes the value of the expression, and uses nothing but its
leaves and what has been made along with it.
-/

namespace LlvmPasses.Ir

open IRBuilder

inductive Expr where
  | value (v : Value)
  | binop (op : BinOp) (lhs rhs : Expr)

namespace Expr

/-- The operations are made, those of the left operand first. -/
def emit (ty : Ty) : Expr → StateM IRBuilder Value
  | .value v => pure v
  | .binop op lhs rhs => do
      let l ← lhs.emit ty
      let r ← rhs.emit ty
      createBinOp op ty l r

/-- What the expression comes to on integers of `w` bits. -/
def eval (w : Nat) (get : Value → Option Val) : Expr → Option Val
  | .value v => get v
  | .binop op lhs rhs =>
      match lhs.eval w get, rhs.eval w get with
      | some x, some y => op.apply w {} x y
      | _, _ => none

def leaves : Expr → List Value
  | .value v => [v]
  | .binop _ lhs rhs => lhs.leaves ++ rhs.leaves

def ops : Expr → List BinOp
  | .value _ => []
  | .binop op lhs rhs => op :: (lhs.ops ++ rhs.ops)

/-- A leaf, a constant, or something made from the handle on. -/
def Uses (e : Expr) (n : Nat) (v : Value) : Prop :=
  v ∈ e.leaves ∨ (∃ ty, v.constTy = some ty) ∨ ∃ id, v = .inst id ∧ n ≤ id

variable {ty : Ty} {e lhs rhs : Expr} {op : BinOp} {b : IRBuilder} {n w : Nat} {v : Value}

theorem emit_binop : (Expr.binop op lhs rhs).emit ty b =
    createBinOp op ty (lhs.emit ty b).1 (rhs.emit ty (lhs.emit ty b).2).1
      (rhs.emit ty (lhs.emit ty b).2).2 := rfl

theorem eval_binop {get : Value → Option Val} {z : Val}
    (h : (Expr.binop op lhs rhs).eval w get = some z) :
    ∃ x y, lhs.eval w get = some x ∧ rhs.eval w get = some y ∧ op.apply w {} x y = some z := by
  rw [eval] at h
  split at h
  · next x y hx hy => exact ⟨x, y, hx, hy, h⟩
  · cases h

theorem Uses.left (h : lhs.Uses n v) : (Expr.binop op lhs rhs).Uses n v :=
  h.imp_left fun hv => List.mem_append_left _ hv

theorem Uses.right (h : rhs.Uses n v) : (Expr.binop op lhs rhs).Uses n v :=
  h.imp_left fun hv => List.mem_append_right _ hv

/-! ## What is made -/

/-- A constant comes back, or the operation is inserted. -/
theorem createBinOp_cases (op : BinOp) (ty : Ty) (l r : Value) (b : IRBuilder) :
    ∃ ty', Made ty' (.binop op) [l, r] b (createBinOp op ty l r b) := by
  unfold createBinOp
  cases hfold : foldBinOp op l r with
  | some v =>
      obtain ⟨w, -, -, hv⟩ := foldBinOp_constTy hfold
      exact ⟨.int w, .folded v hv⟩
  | none => exact ⟨ty, .inserted⟩

theorem createBinOp_value (op : BinOp) (ty : Ty) (l r : Value) (b : IRBuilder) :
    (∃ w, (createBinOp op ty l r b).1.constTy = some (.int w)) ∨
      (createBinOp op ty l r b).1 = .inst b.next := by
  unfold createBinOp
  cases hfold : foldBinOp op l r with
  | some v =>
      obtain ⟨w, -, -, hv⟩ := foldBinOp_constTy hfold
      exact .inl ⟨w, hv⟩
  | none => exact .inr rfl

theorem emit_code (e : Expr) (ty : Ty) (hb : Code n b) (hleaves : ∀ v ∈ e.leaves, v.Before b.next) :
    Code n (e.emit ty b).2 ∧ (e.emit ty b).1.Before (e.emit ty b).2.next ∧
      b.next ≤ (e.emit ty b).2.next := by
  induction e generalizing b with
  | value v => exact ⟨hb, hleaves v (List.mem_singleton_self v), Nat.le_refl _⟩
  | binop op lhs rhs ihl ihr =>
      obtain ⟨hl, hlv, hll⟩ := ihl hb fun v hv => hleaves v (List.mem_append_left _ hv)
      obtain ⟨hr, hrv, hrl⟩ := ihr hl fun v hv =>
        (hleaves v (List.mem_append_right _ hv)).mono hll
      obtain ⟨ty', hmade⟩ := createBinOp_cases op ty (lhs.emit ty b).1
        (rhs.emit ty (lhs.emit ty b).2).1 (rhs.emit ty (lhs.emit ty b).2).2
      obtain ⟨hcode, hv, hle⟩ := hmade.code hr
        (List.forall_mem_cons.mpr ⟨hlv.mono hrl, List.forall_mem_singleton.mpr hrv⟩)
      exact ⟨hcode, hv, Nat.le_trans hll (Nat.le_trans hrl hle)⟩

theorem emit_value (e : Expr) (ty : Ty) (b : IRBuilder) (h : n ≤ b.next) :
    e.Uses n (e.emit ty b).1 ∧ n ≤ (e.emit ty b).2.next := by
  induction e generalizing b with
  | value v => exact ⟨.inl (List.mem_singleton_self v), h⟩
  | binop op lhs rhs ihl ihr =>
      obtain ⟨-, hl⟩ := ihl b h
      obtain ⟨-, hr⟩ := ihr _ hl
      refine ⟨.inr ?_, Nat.le_trans hr (createBinOp_le _)⟩
      exact (createBinOp_value op ty _ _ _).imp (Exists.imp' Ty.int fun _ => id)
        fun hv => ⟨_, hv, hr⟩

/-- The value of an operation is a constant or has been made. -/
theorem emit_root (ty : Ty) (op : BinOp) (lhs rhs : Expr) (b : IRBuilder) (h : n ≤ b.next) :
    (∃ w, ((Expr.binop op lhs rhs).emit ty b).1.constTy = some (.int w)) ∨
      ∃ id, ((Expr.binop op lhs rhs).emit ty b).1 = .inst id ∧ n ≤ id := by
  obtain ⟨-, hl⟩ := emit_value lhs ty b h
  obtain ⟨-, hr⟩ := emit_value rhs ty _ hl
  exact (createBinOp_value op ty _ _ _).imp_right fun hv => ⟨_, hv, hr⟩

theorem mem_createBinOp {l r : Value} {i : Instr Op}
    (hi : i ∈ (createBinOp op ty l r b).2.inserted) :
    i ∈ b.inserted ∨ i = ⟨b.next, ty, .binop op, [l, r], [], {}⟩ := by
  unfold createBinOp at hi
  cases hfold : foldBinOp op l r with
  | some v =>
      rw [hfold] at hi
      exact .inl hi
  | none =>
      rw [hfold] at hi
      exact (List.mem_append.mp hi).imp_right List.mem_singleton.mp

/-- Every operation that has been made is one of the expression's, on its leaves
and on others that have been made. -/
theorem emit_inserted (e : Expr) (ty : Ty) (b : IRBuilder) (h : n ≤ b.next) :
    ∀ i ∈ (e.emit ty b).2.inserted, i ∈ b.inserted ∨
      i.ty = ty ∧ (∃ op ∈ e.ops, i.op = .binop op) ∧ ∀ v ∈ i.operands, e.Uses n v := by
  induction e generalizing b with
  | value v => exact fun i hi => .inl hi
  | binop op lhs rhs ihl ihr =>
      obtain ⟨hlv, hl⟩ := emit_value lhs ty b h
      obtain ⟨hrv, -⟩ := emit_value rhs ty _ hl
      have hbefore : ∀ i ∈ (rhs.emit ty (lhs.emit ty b).2).2.inserted, i ∈ b.inserted ∨
          i.ty = ty ∧ (∃ op' ∈ (Expr.binop op lhs rhs).ops, i.op = .binop op') ∧
            ∀ v ∈ i.operands, (Expr.binop op lhs rhs).Uses n v := by
        intro i hi
        rcases ihr _ hl i hi with hi | ⟨hty, ⟨op', hop', heq⟩, huses⟩
        · rcases ihl b h i hi with hi | ⟨hty, ⟨op', hop', heq⟩, huses⟩
          · exact .inl hi
          · exact .inr ⟨hty, ⟨op', List.mem_cons_of_mem _ (List.mem_append_left _ hop'), heq⟩,
              fun v hv => (huses v hv).left⟩
        · exact .inr ⟨hty, ⟨op', List.mem_cons_of_mem _ (List.mem_append_right _ hop'), heq⟩,
            fun v hv => (huses v hv).right⟩
      intro i hi
      rw [emit_binop] at hi
      rcases mem_createBinOp hi with hi | rfl
      · exact hbefore i hi
      · refine .inr ⟨rfl, ⟨op, List.mem_cons_self .., rfl⟩, fun v hv => ?_⟩
        rcases List.mem_cons.mp hv with rfl | hv
        · exact hlv.left
        · obtain rfl := List.mem_singleton.mp hv
          exact hrv.right

/-! ## What it computes -/

section

variable {μ : Type} {W : World μ} {args : List Val} {τ : Value → Value} {last : Nat}
variable {m : Machine μ} {env : Env} {z : Val}

theorem emit_le (e : Expr) (ty : Ty) (b : IRBuilder) : b.next ≤ (e.emit ty b).2.next :=
  (emit_value e ty b (Nat.le_refl _)).2

/-- What has been made runs through and leaves the value of the expression. -/
theorem emit_runs (hτ : Fixes n τ) (hb : Runs W args τ n m b env)
    (hleaves : ∀ v ∈ e.leaves, ∀ x, Ir.eval W args m.env (τ v) = some x →
      Knows W args τ last b env v x)
    (hlast : (e.emit (.int w) b).2.next ≤ last)
    (heval : e.eval w (fun v => Ir.eval W args m.env (τ v)) = some z) :
    Grows W args τ n last m b env (e.emit (.int w) b) z := by
  induction e generalizing b env z with
  | value v =>
      exact ⟨env, hb, hleaves v (List.mem_singleton_self v) z heval, fun _ _ hu => hu⟩
  | binop op lhs rhs ihl ihr =>
      obtain ⟨x, y, hx, hy, hz⟩ := eval_binop heval
      have hend : (createBinOp op (.int w) (lhs.emit (.int w) b).1
          (rhs.emit (.int w) (lhs.emit (.int w) b).2).1
          (rhs.emit (.int w) (lhs.emit (.int w) b).2).2).2.next ≤ last := hlast
      have hright := Nat.le_trans (createBinOp_le _) hend
      have hleft := Nat.le_trans (emit_le rhs (.int w) _) hright
      obtain ⟨env₁, h₁, hv₁, hkept₁⟩ := ihl hb
        (fun v hv => hleaves v (List.mem_append_left _ hv)) hleft hx
      obtain ⟨env₂, h₂, hv₂, hkept₂⟩ := ihr h₁
        (fun v hv u hu => hkept₁ v u (hleaves v (List.mem_append_right _ hv) u hu)) hright hy
      obtain ⟨env₃, h₃, hv₃, hkept₃⟩ := h₂.createBinOp hτ (hkept₂ _ _ hv₁) hv₂ hz hend
      exact ⟨env₃, h₃, hv₃, fun u a hu => hkept₃ u a (hkept₂ u a (hkept₁ u a hu))⟩

end

end Expr

/-! ## Words that may be poison -/

section

variable {w : Nat} {op : BinOp} {f : Flags} {x y z : Val}

/-- What has been operated on are words. -/
theorem BinOp.apply_words (h : op.apply w f x y = some z) :
    ∃ p q : Option (BitVec w), x = .word p ∧ y = .word q := by
  unfold BinOp.apply at h
  split at h
  · next w₁ a w₂ b =>
      split at h
      · next heq =>
          obtain ⟨rfl, rfl⟩ := heq
          exact ⟨some a, some b, rfl, rfl⟩
      · cases h
  · next w' b =>
      split at h
      · cases h
      · next hno =>
          obtain ⟨hw, -⟩ := not_or.mp hno
          obtain rfl := not_ne_iff.mp hw
          exact ⟨none, some b, rfl, rfl⟩
  · next w' a =>
      split at h
      · cases h
      · next hno =>
          obtain ⟨hw, -⟩ := not_or.mp hno
          obtain rfl := not_ne_iff.mp hw
          exact ⟨some a, none, rfl, rfl⟩
  · exact ⟨none, none, rfl, rfl⟩
  · cases h

/-- An operation that comes to a word on all words. -/
theorem BinOp.apply_word {g : BitVec w → BitVec w → BitVec w}
    (hop : ∀ a b, op.applyInt {} a b = some (.int w (g a b))) (hdivision : op.isDivision = false)
    (p q : Option (BitVec w)) :
    op.apply w {} (.word p) (.word q) = some (.word (Option.map₂ g p q)) := by
  have hdivisor : ∀ b : BitVec w, op.badDivisor b = false := by
    intro b
    cases op with
    | udiv | sdiv | urem | srem => cases hdivision
    | _ => rfl
  cases p with
  | none => cases q <;> simp [Val.word, BinOp.apply, hdivision, hdivisor]
  | some a =>
      cases q with
      | none => simp [Val.word, BinOp.apply, hdivision]
      | some b => simp [Val.word, BinOp.apply, hop]

end

end LlvmPasses.Ir
