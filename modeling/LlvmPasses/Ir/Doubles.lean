import LlvmPasses.Ir.Exec
import LlvmPasses.Ir.Types
import LlvmPasses.Lib.Double

/-!
# Instructions on doubles

What instructions on doubles compute, as far as it matters here: comparisons and
reinterpretations are exact, and of a difference no more is assumed than what it
is when the numbers are equal or one of them is none.
-/

namespace LlvmPasses.Ir

def Val.double (d : Double) : Val := .other .double d.bits.toNat

def Value.double (d : Double) : Value := .constFP .double d.bits.toNat

/-- What the comparison of two doubles comes to. -/
def FCmpPred.apply (pred : FCmpPred) (a b : Double) : Bool :=
  match pred with
  | .oeq => a.eq b
  | .ogt => b.lt a
  | .oge => b.lt a || a.eq b
  | .olt => a.lt b
  | .ole => a.lt b || a.eq b
  | .one => a.lt b || b.lt a
  | .ord => !a.unordered b
  | .uno => a.unordered b
  | .ueq => a.unordered b || a.eq b
  | .ugt => a.unordered b || b.lt a
  | .uge => a.unordered b || b.lt a || a.eq b
  | .ult => a.unordered b || a.lt b
  | .ule => a.unordered b || a.lt b || a.eq b
  | .une => a.unordered b || a.lt b || b.lt a

/-- `c` may be the difference of `a` and `b`. -/
structure Difference (a b c : Double) : Prop where
  equal : a.eq b = true → a.isInf = false → c.isNaN = false ∧ c.key = 0
  infinite : a.eq b = true → a.isInf = true → c.isNaN = true
  unordered : a.unordered b = true → c.isNaN = true

/-- The world computes on doubles. -/
structure World.OnDoubles {μ : Type} (W : World μ) : Prop where
  fsub : ∀ a b mem, ∃ c, Difference a b c ∧
    W.other (.fbinop .fsub) .double [.double a, .double b] mem = .done (some (.double c)) mem []
  toBits : ∀ d mem, W.other (.cast .bitcast) (.int 64) [.double d] mem =
    .done (some (.int 64 d.bits)) mem []
  ofBits : ∀ x mem, W.other (.cast .bitcast) .double [.int 64 x] mem =
    .done (some (.double ⟨x⟩)) mem []
  fcmp : ∀ pred a b mem, W.other (.fcmp pred) (.int 1) [.double a, .double b] mem =
    .done (some (.bool (pred.apply a b))) mem []

/-- A constant that is a double. -/
theorem eq_double {μ : Type} {W : World μ} {args : List Val} {env : Env} {v : Value} {ty : Ty}
    {d : Double} (hv : v.constTy = some ty) (h : eval W args env v = some (.double d)) :
    v = .double d := by
  cases v with
  | constFP ty bits =>
      cases h
      rfl
  | inst id => cases hv
  | arg i => cases hv
  | block k => cases hv
  | constInt w x => cases h
  | constVec w lanes => cases h
  | global g => cases h
  | null => cases h
  | poison ty => cases h

end LlvmPasses.Ir
