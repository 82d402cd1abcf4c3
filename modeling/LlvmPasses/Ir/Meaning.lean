import LlvmPasses.Ir.Exec
import LlvmPasses.Lib.Stutters

/-!
# Functions that mean the same

The runs of two functions go along with each other when their machines are
related for as long as both are going on, and both end alike. A function that
is followed in this way means the same as the one that follows it.
-/

namespace LlvmPasses.Ir

open Transition

variable {μ : Type} {W : World μ} {F G : Function} {args : List Val} {m : Machine μ} {mem : μ}
variable {s t : Config μ} {P Q : Machine μ → Machine μ → Prop}

/-! ## Steps -/

theorem step_term (hrest : m.rest = []) : step W F args (.running m) =
    some (execTerm W F args m (F.block m.block).term) := by
  simp only [step, hrest]

theorem step_instr {i : Instr Op} {rest : List (Instr Op)} (hrest : m.rest = i :: rest) :
    step W F args (.running m) = some (execInstr W args m i rest) := by
  simp only [step, hrest]

theorem step_running (W : World μ) (F : Function) (args : List Val) (m : Machine μ) :
    ∃ t, step W F args (.running m) = some t := by
  cases hrest : m.rest with
  | nil => exact ⟨_, step_term hrest⟩
  | cons i rest => exact ⟨_, step_instr hrest⟩

/-- A run that has ended goes on alike in every function. -/
theorem step_ended {G : Function} (hs : ∀ m, s ≠ .running m) :
    step W F args s = step W G args s := by
  cases s with
  | running m => exact absurd rfl (hs m)
  | _ => rfl

theorem ended_step (hs : ∀ m, s ≠ .running m) (ht : step W F args s = some t) : t = s := by
  cases s with
  | running m => exact absurd rfl (hs m)
  | waiting trace => exact (Option.some.inj ht).symm
  | _ => cases ht

/-! ## Runs that go along -/

/-- Two runs that are both going on, or have ended alike. -/
inductive Along (P : Machine μ → Machine μ → Prop) : Config μ → Config μ → Prop
  | on {m m' : Machine μ} (h : P m m') : Along P (.running m) (.running m')
  | off {c : Config μ} (hc : ∀ m, c ≠ .running m) : Along P c c

theorem Along.mono (h : Along P s t) (himp : ∀ m m', P m m' → Q m m') : Along Q s t := by
  cases h with
  | on h => exact .on (himp _ _ h)
  | off hc => exact .off hc

theorem Along.undefined {trace : List Event} (h : Along P s (.undefined trace)) :
    s = .undefined trace := by
  cases h with
  | off _ => rfl

/-- A run that has halted has been followed to the same end. -/
theorem Along.halted (h : Along P s t) (hs : step W F args s = none) : s = t := by
  cases h with
  | off _ => rfl
  | @on n _ _ =>
      obtain ⟨u, hu⟩ := step_running W F args n
      rw [hs] at hu
      cases hu

theorem Along.trace (h : Along P s t) (hP : ∀ m m', P m m' → m'.trace = m.trace) :
    t.trace = s.trace := by
  cases h with
  | on hm => exact hP _ _ hm
  | off _ => rfl

/-! ## Meaning -/

/-- The run from the start comes to nothing undefined. -/
def Defined (W : World μ) (F : Function) (args : List Val) (mem : μ) : Prop :=
  ∀ trace, ¬ Reaches (step W F args) (start F mem) (.undefined trace)

/-- A run that ends in a way comes to nothing undefined. -/
theorem defined_of_returned {v : Option Val} {trace : List Event}
    (h : Reaches (step W F args) (start F mem) (.returned v mem trace)) : Defined W F args mem :=
  fun _ hno => nomatch Halts.unique ⟨hno, rfl⟩ ⟨h, rfl⟩

/-- The runs of two functions end alike or both do not, and the same sequences of
events come of them. -/
structure Alike (W : World μ) (F G : Function) (args : List Val) (mem : μ) : Prop where
  halts : ∀ c, Halts (step W F args) (start F mem) c ↔ Halts (step W G args) (start G mem) c
  traces : ∀ trace, (∃ c, Reaches (step W F args) (start F mem) c ∧ c.trace = trace) ↔
    ∃ c, Reaches (step W G args) (start G mem) c ∧ c.trace = trace

/-- A run that is followed to its end is alike. -/
theorem alike_of_staggers {guard : Config μ → Prop} {lag rank : Config μ → Nat}
    {S : Config μ → Config μ → Prop}
    (h : Staggers (step W F args) (step W G args) guard lag rank S (Along P))
    (hstart : Along P (start F mem) (start G mem))
    (hguard : ∀ u, Reaches (step W F args) (start F mem) u → guard u)
    (htrace : ∀ m m', P m m' → m'.trace = m.trace) : Alike W F G args mem := by
  refine ⟨fun c => ⟨fun hc => ?_, fun hc => ?_⟩, fun trace => ⟨?_, ?_⟩⟩
  · obtain ⟨t, ht, hmatch⟩ := h.halts hstart hguard hc
    exact hmatch.halted hc.2 ▸ ht
  · obtain ⟨s, hs, hmatch⟩ := h.halted hstart hguard hc
    exact hmatch.halted hs.2 ▸ hs
  · rintro ⟨c, hc, rfl⟩
    obtain ⟨t, ht, hmatch⟩ := h.reaches hstart hguard hc
    exact ⟨t, ht, hmatch.trace htrace⟩
  · rintro ⟨c, hc, rfl⟩
    obtain ⟨s, hs, hmatch⟩ := h.reached hstart hguard hc
    exact ⟨s, hs, (hmatch.trace htrace).symm⟩

end LlvmPasses.Ir
