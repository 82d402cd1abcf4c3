import LlvmPasses.Ir.Running
import LlvmPasses.Proofs.DuplicateMeaning

/-!
# Runs on defined values

What a pass makes of a function computes what the function computes, and so
nothing that is poison where the function computes nothing that is. The lemmas
follow one step: an instruction that comes to the same effect, and a block that
is entered with the same values for its PHI nodes.

`Behaves` is the hypothesis under which a transformation may compare or branch
on a value that the function only passes on: the arguments are defined, every
result in the run is, and nothing undefined happens. For a transformation to be
followed by another it has to hold again of what is left. That is shown by
running both functions in step, and this module has the part that does not
depend on the transformation. The last section turns it round: runs that end
alike come to something undefined alike.
-/

namespace LlvmPasses.Ir

open Transition
open DuplicateBB (IsDefined AllDefined)

/-- No value there is poison. -/
def Env.Defined (env : Env) : Prop := ∀ id v, env id = some v → IsDefined v

/-- The function is given values and computes values that are defined, and comes
to nothing undefined. -/
structure Behaves {μ : Type} (W : World μ) (F : Function) (args : List Val) (mem : μ) : Prop where
  values : AllDefined W F args mem
  runs : Defined W F args mem

variable {μ : Type} {W : World μ} {F G : Function} {args : List Val} {m m' n n' : Machine μ}
variable {env env' env₁ env₁' : Env} {mem : μ} {id k : Nat} {ty : Ty} {x : Val}

/-! ## Environments -/

theorem Env.Defined.set (h : env.Defined) (hx : IsDefined x) : (env.set id x).Defined :=
  DuplicateBB.isDefined_set h hx

theorem assign_cases {v : Option Val} (h : env.assign id ty v = some env') :
    (v = none ∧ env' = env) ∨ ∃ x, v = some x ∧ env' = env.set id x := by
  cases v with
  | none =>
      rw [Env.assign] at h
      split at h
      · exact .inl ⟨rfl, (Option.some.inj h).symm⟩
      · cases h
  | some x =>
      rw [Env.assign] at h
      split at h
      · exact .inr ⟨x, rfl, (Option.some.inj h).symm⟩
      · cases h

theorem execInstr_running {i : Instr Op} {rest : List (Instr Op)}
    (h : execInstr W args m i rest = .running n) : ∃ v mem events,
      effect W args m.env m.mem i = .done v mem events ∧ m.env.assign i.id i.ty v = some n.env := by
  unfold execInstr at h
  split at h
  · next v mem events heffect =>
      split at h
      · next env hassign =>
          cases h
          exact ⟨v, mem, events, heffect, hassign⟩
      · cases h
  · cases h
  · cases h
  · cases h

/-- Where the one instruction computes something defined, so does another that
comes to the same. -/
theorem defined_instr {i i' : Instr Op} {rest rest' : List (Instr Op)}
    (hsame : effect W args m'.env m'.mem i' = effect W args m.env m.mem i)
    (hgo : execInstr W args m i rest = .running n) (hn : n.env.Defined)
    (hgo' : execInstr W args m' i' rest' = .running n') (hm' : m'.env.Defined) :
    n'.env.Defined := by
  obtain ⟨v, mem, events, heffect, hassign⟩ := execInstr_running hgo
  obtain ⟨v', mem', events', heffect', hassign'⟩ := execInstr_running hgo'
  rw [hsame, heffect] at heffect'
  cases heffect'
  rcases assign_cases hassign' with ⟨-, henv'⟩ | ⟨x, rfl, henv'⟩
  · rw [henv']
    exact hm'
  · rcases assign_cases hassign with ⟨hno, -⟩ | ⟨y, hy, henv⟩
    · cases hno
    · cases hy
      rw [henv']
      refine hm'.set (hn i.id x ?_)
      rw [henv]
      exact Env.set_self ..

/-! ## PHI nodes -/

theorem readPhis_cons {get : Value → Option Val} {prev : Nat} {phi : Instr Op}
    {phis : List (Instr Op)} (h : readPhis get prev (phi :: phis) env = some env₁) :
    ∃ v, (phi.getIncomingValueForBlock prev).bind get = some v ∧
      readPhis get prev phis (env.set phi.id v) = some env₁ := by
  rw [readPhis] at h
  split at h
  · next v hv =>
      split at h
      · exact ⟨v, hv, h⟩
      · cases h
  · cases h

/-- Every PHI node is left with what it has read. -/
theorem readPhis_values {get : Value → Option Val} {prev : Nat} {phis : List (Instr Op)}
    (hnodup : (phis.map Instr.id).Nodup) (h : readPhis get prev phis env = some env₁) :
    ∀ phi ∈ phis, ∃ v, (phi.getIncomingValueForBlock prev).bind get = some v ∧
      env₁ phi.id = some v := by
  induction phis generalizing env with
  | nil => exact List.forall_mem_nil _
  | cons phi phis ih =>
      obtain ⟨v, hv, hrest⟩ := readPhis_cons h
      obtain ⟨hout, hnodup⟩ := List.nodup_cons.mp hnodup
      refine List.forall_mem_cons.mpr ⟨⟨v, hv, ?_⟩, ih hnodup hrest⟩
      rw [readPhis_env hrest hout, Env.set_self]

theorem readPhis_defined {get : Value → Option Val} {prev : Nat} {phis : List (Instr Op)}
    (h : readPhis get prev phis env = some env₁) (henv : env.Defined)
    (hphis : ∀ phi ∈ phis, ∀ v, (phi.getIncomingValueForBlock prev).bind get = some v →
      IsDefined v) : env₁.Defined := by
  induction phis generalizing env with
  | nil =>
      cases h
      exact henv
  | cons phi phis ih =>
      obtain ⟨v, hv, hrest⟩ := readPhis_cons h
      obtain ⟨hphi, hphis⟩ := List.forall_mem_cons.mp hphis
      exact ih hrest (henv.set (hphi v hv)) hphis

theorem phis_nodup (hF : F.WellFormed) (hk : k ∈ F.order) :
    ((F.block k).phis.map Instr.id).Nodup := by
  have hnodup := hF.block_nodup hk
  rw [Block.defs, List.map_append, List.map_map] at hnodup
  exact hnodup.of_append_left.sublist ((List.takeWhile_sublist _).map _)

/-- Where the PHI nodes of the one block read something defined, so do those of
another that read the same. -/
theorem defined_enter {j : Nat} {f : Instr Op → Instr Op} (hF : F.WellFormed) (hk : k ∈ F.order)
    (hphis : (G.block j).phis = (F.block k).phis.map f)
    (hsame : ∀ phi ∈ (F.block k).phis, ∀ v,
      (phi.getIncomingValueForBlock m.block).bind (eval W args m.env) = some v →
      ((f phi).getIncomingValueForBlock m'.block).bind (eval W args m'.env) = some v)
    (hgo : enter W F args m k = .running n) (hn : n.env.Defined)
    (hgo' : enter W G args m' j = .running n') (hm' : m'.env.Defined) : n'.env.Defined := by
  obtain ⟨env₁, hread, rfl⟩ := enter_running hgo
  obtain ⟨env₁', hread', rfl⟩ := enter_running hgo'
  rw [hphis] at hread'
  refine readPhis_defined hread' hm' fun phi' hphi' v hv => ?_
  obtain ⟨phi, hphi, rfl⟩ := List.mem_map.mp hphi'
  obtain ⟨x, hx, hvalue⟩ := readPhis_values (phis_nodup hF hk) hread phi hphi
  rw [hsame phi hphi x hx] at hv
  cases hv
  exact hn phi.id _ hvalue

/-! ## Terminators -/

theorem goto_value {t : Instr TermOp} {get : Value → Option Val} {mem' : μ} {v : Option Val}
    {events : List Event} (hop : t.op ≠ .invoke)
    (h : W.transfer t get mem = .goto k v mem' events) : v = none := by
  unfold World.transfer at h
  split at h
  case h_7 hinvoke => exact absurd hinvoke hop
  case h_1 => cases h; rfl
  case h_2 => split at h <;> cases h; rfl
  case h_3 => split at h <;> cases h; rfl
  case h_4 =>
    split at h
    · split at h <;> cases h; rfl
    · cases h
  case h_6 => split at h <;> cases h
  all_goals cases h

/-- A step to another block. -/
theorem execTerm_running {t : Instr TermOp} (hop : t.op ≠ .invoke)
    (h : execTerm W F args m t = .running n) : ∃ j mem events,
      W.transfer t (eval W args m.env) m.mem = .goto j none mem events ∧
      enter W F args { m with mem, trace := m.trace ++ events } j = .running n := by
  unfold execTerm at h
  split at h
  · next j v mem events htransfer =>
      obtain rfl := goto_value hop htransfer
      exact ⟨j, mem, events, htransfer, h⟩
  all_goals cases h

/-! ## Runs that end alike -/

theorem Alike.defined (h : Alike W F G args mem) (hF : Defined W F args mem) :
    Defined W G args mem := fun trace hreach =>
  hF trace ((h.halts (.undefined trace)).mpr ⟨hreach, rfl⟩).1

end LlvmPasses.Ir
