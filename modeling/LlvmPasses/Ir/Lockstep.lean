import Mathlib.Data.List.Forall2
import LlvmPasses.Ir.Running
import LlvmPasses.Ir.Same

/-!
# Machines in lockstep

Two machines, each at an instruction of its own, or each on its way to a block:
where the instructions come to the same, up to their values, and where the PHI
nodes take the same, the machines go on together or end alike.
-/

namespace LlvmPasses.Ir

open Transition

variable {μ : Type} {W : World μ} {F G H : Function} {args : List Val} {A : Val → Val → Prop}
variable {i j : Instr Op} {rest rest' : List (Instr Op)} {m m' n n' : Machine μ} {mem : μ}

/-! ## Instructions -/

/-- Both have the results of two instructions, or both have none. -/
inductive Assigned (A : Val → Val → Prop) (i j : Instr Op) (env env' : Env) : Env → Env → Prop
  | none (hty : i.ty = .void) : Assigned A i j env env' env env'
  | some {v v' : Val} (h : A v v') :
      Assigned A i j env env' (env.set i.id v) (env'.set j.id v')

/-- Two machines after an instruction each. -/
inductive Stepped (A : Val → Val → Prop) (i j : Instr Op) (rest rest' : List (Instr Op))
    (m m' : Machine μ) : Config μ → Config μ → Prop
  | on {env env' : Env} (mem : μ) (trace : List Event) (h : Assigned A i j m.env m'.env env env') :
      Stepped A i j rest rest' m m' (.running { m with rest, env, mem, trace })
        (.running { m' with rest := rest', env := env', mem, trace })
  | off {c : Config μ} (hc : ∀ n, c ≠ .running n) : Stepped A i j rest rest' m m' c c

theorem execInstr_stepped (hA : ∀ v, A v v) (hty : i.ty = j.ty) (hmem : m'.mem = m.mem)
    (htrace : m'.trace = m.trace)
    (h : Effects A i.ty m.mem (effect W args m.env m.mem i) (effect W args m'.env m.mem j)) :
    Stepped A i j rest rest' m m' (execInstr W args m i rest) (execInstr W args m' j rest') := by
  unfold execInstr
  rw [hmem, htrace, ← hty]
  rcases h with heq | ⟨v, v', hv, hv', hrel, h₁, h₂⟩
  · rw [← heq]
    cases effect W args m.env m.mem i with
    | done v mem events =>
        unfold Env.assign
        cases v with
        | none =>
            by_cases hvoid : i.ty = .void
            · simp only [if_pos hvoid]
              exact .on _ _ (.none hvoid)
            · simp only [if_neg hvoid]
              exact .off (by simp)
        | some v =>
            by_cases hv : v.hasTy i.ty = true
            · simp only [if_pos hv]
              exact .on _ _ (.some (hA v))
            · simp only [if_neg hv]
              exact .off (by simp)
    | _ => exact .off (by simp)
  · rw [h₁, h₂]
    simp only [Env.assign, if_pos hv, if_pos hv', List.append_nil]
    exact .on _ _ (.some hrel)

/-! ## PHI nodes -/

/-- Whatever has changed is the same now. -/
def Updated (env env' e e' : Env) : Prop := ∀ id, e id = e' id ∨ (e id = env id ∧ e' id = env' id)

theorem updated_refl (env env' : Env) : Updated env env' env env' := fun _ => .inr ⟨rfl, rfl⟩

theorem updated_set (env env' : Env) (id : Nat) (v : Val) :
    Updated env env' (env.set id v) (env'.set id v) := by
  intro j
  by_cases hj : j = id
  · rw [hj, Env.set_self, Env.set_self]
    exact .inl rfl
  · rw [Env.set_other _ _ hj, Env.set_other _ _ hj]
    exact .inr ⟨rfl, rfl⟩

/-- The same result of both instructions. -/
theorem Assigned.updated {env env' e e' : Env} (h : Assigned Eq i i env env' e e') :
    Updated env env' e e' := by
  cases h with
  | none hty => exact updated_refl _ _
  | some hv =>
      cases hv
      exact updated_set _ _ _ _

theorem Updated.trans {env env' e e' u u' : Env} (h : Updated env env' e e')
    (h' : Updated e e' u u') : Updated env env' u u' := by
  intro id
  rcases h' id with heq | ⟨hu, hu'⟩
  · exact .inl heq
  · rw [hu, hu']
    exact h id

/-- PHI nodes that take the same from two blocks are all read or not. -/
theorem readPhis_updated {get get' : Value → Option Val} {prev prev' : Nat}
    {phis : List (Instr Op)} (h : ∀ phi ∈ phis,
      (phi.getIncomingValueForBlock prev).bind get = (phi.getIncomingValueForBlock prev').bind get')
    (env env' : Env) : (∃ e e', readPhis get prev phis env = some e ∧
      readPhis get' prev' phis env' = some e' ∧ Updated env env' e e') ∨
      readPhis get prev phis env = none ∧ readPhis get' prev' phis env' = none := by
  induction phis generalizing env env' with
  | nil => exact .inl ⟨env, env', rfl, rfl, updated_refl env env'⟩
  | cons phi phis ih =>
      obtain ⟨hphi, hphis⟩ := List.forall_mem_cons.mp h
      rw [readPhis, readPhis, hphi]
      cases (phi.getIncomingValueForBlock prev').bind get' with
      | none => exact .inr ⟨rfl, rfl⟩
      | some v =>
          by_cases hv : v.hasTy phi.ty = true
          · simp only [if_pos hv]
            rcases ih hphis (env.set phi.id v) (env'.set phi.id v) with ⟨e, e', he, he', hupd⟩ | hno
            · exact .inl ⟨e, e', he, he', (updated_set env env' phi.id v).trans hupd⟩
            · exact .inr hno
          · right
            simp only [if_neg hv, and_self]

/-! ## Values that nothing else can take the place of -/

def Fixed (A : Val → Val → Prop) (v : Val) : Prop := ∀ v', A v v' → v' = v

def Sharp (A : Val → Val → Prop) (env : Env) : Prop := ∀ id v, env id = some v → Fixed A v

theorem Updated.sharp {env env' e e' : Env} (h : Updated env env' e e') (henv : Sharp A env')
    (he : Sharp A e) : Sharp A e' := by
  intro id v hv
  rcases h id with heq | ⟨-, hold⟩
  · exact he id v (heq.trans hv)
  · exact henv id v (hold.symm.trans hv)

theorem Sharp.set {env : Env} {id : Nat} {v : Val} (h : Sharp A env) (hv : Fixed A v) :
    Sharp A (env.set id v) := by
  intro j w hw
  by_cases hj : j = id
  · rw [hj, Env.set_self] at hw
    cases hw
    exact hv
  · rw [Env.set_other _ _ hj] at hw
    exact h j w hw

/-! ## Functions that take the same steps -/

/-- Two runs that go on or end in one way, with what is known of the first. -/
theorem Along.imp {P Q : Machine μ → Machine μ → Prop} {c c' : Config μ} (h : Along P c c')
    (himp : ∀ n n', c = .running n → P n n' → Q n n') : Along Q c c' := by
  cases h with
  | on h => exact .on (himp _ _ rfl h)
  | off hc => exact .off hc

/-- A step looks at the block it is in, and at the PHI nodes of those it goes to. -/
theorem step_congr (hterm : (G.block m.block).term = (F.block m.block).term)
    (henter : ∀ k ∈ F.successors m.block, ∀ n : Machine μ, n.block = m.block →
      enter W G args n k = enter W F args n k) :
    step W G args (.running m) = step W F args (.running m) := by
  cases hrest : m.rest with
  | cons i rest => rw [step_instr hrest, step_instr hrest]
  | nil =>
      rw [step_term hrest, step_term hrest]
      unfold execTerm
      rw [hterm]
      cases htransfer : W.transfer (F.block m.block).term (eval W args m.env) m.mem with
      | goto k v mem events => exact congrArg some (henter k (transfer_goto htransfer) _ rfl)
      | _ => rfl

/-- PHI nodes that take the same are read alike. -/
theorem readPhis_congr {get : Value → Option Val} {prev : Nat} {phis phis' : List (Instr Op)}
    (h : List.Forall₂ (fun phi phi' => phi'.id = phi.id ∧ phi'.ty = phi.ty ∧
      phi'.getIncomingValueForBlock prev = phi.getIncomingValueForBlock prev) phis phis')
    (env : Env) : readPhis get prev phis' env = readPhis get prev phis env := by
  induction h generalizing env with
  | nil => rfl
  | cons hphi _ ih =>
      obtain ⟨hid, hty, hin⟩ := hphi
      rw [readPhis, readPhis, hid, hty, hin]
      simp only [ih]

theorem steps_same (hsteps : ∀ m, Reaches (step W F args) (start F mem) (.running m) →
      step W G args (.running m) = step W F args (.running m))
    {s : Config μ} (hs : Reaches (step W F args) (start F mem) s) :
    step W G args s = step W F args s := by
  cases s with
  | running m => exact hsteps m hs
  | _ => rfl

section

variable (hstart : start F mem = start G mem)
variable (hsteps : ∀ m, Reaches (step W F args) (start F mem) (.running m) →
  step W G args (.running m) = step W F args (.running m))

include hstart hsteps

/-- Where the steps are the same from all that is reached, nothing else is. -/
theorem reached_of_steps {s : Config μ} (hs : Reaches (step W G args) (start G mem) s) :
    Reaches (step W F args) (start F mem) s := by
  refine hs.induction (hstart ▸ .refl _) fun a b ha hb => ha.trans (.single ?_)
  rw [← steps_same hsteps ha]
  exact hb

theorem alike_of_steps : Alike W F G args mem := by
  have hstaggers : Staggers (step W F args) (step W G args)
      (fun u => Reaches (step W F args) (start F mem) u) (fun _ => 0) (fun _ => 0)
      (Along fun m m' => m' = m) (Along fun m m' => m' = m) := by
    refine ⟨fun _ _ h => h, fun s t hR hs => .inr ?_⟩
    obtain rfl : t = s := by
      cases hR with
      | on h => rw [h]
      | off => rfl
    rw [steps_same hsteps hs]
    refine ⟨id, fun t' ht => .inl ⟨t', ht, ?_⟩⟩
    cases t' with
    | running n => exact .on rfl
    | _ => exact .off (by simp)
  have hbegin : Along (fun m m' => m' = m) (start F mem) (start G mem) := hstart ▸ .on rfl
  exact alike_of_staggers hstaggers hbegin (fun _ hu => hu) fun m m' heq => heq ▸ rfl

end

/-! ## Functions that mean the same -/

theorem Alike.refl (W : World μ) (F : Function) (args : List Val) (mem : μ) :
    Alike W F F args mem :=
  ⟨fun _ => Iff.rfl, fun _ => Iff.rfl⟩

theorem Alike.trans (h : Alike W F G args mem) (h' : Alike W G H args mem) : Alike W F H args mem :=
  ⟨fun c => (h.halts c).trans (h'.halts c), fun trace => (h.traces trace).trans (h'.traces trace)⟩

end LlvmPasses.Ir
