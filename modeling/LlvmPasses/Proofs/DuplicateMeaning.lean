import Mathlib.Data.List.Forall2
import LlvmPasses.Proofs.DuplicateSafe

/-!
# What the duplicated function does

On values that are all defined every test has an outcome: the value that is
checked is an argument, or comes from a block above, which the run has left. The
form then does what the function does, event by event, and ends as it does.

`duplicateAll_alike` is the pass's correctness. It is about every function that
is well formed, every draw of the generator and every order of the targets. The
simulation is `DuplicateSim`'s, and what is added is that no test is without an
outcome (`testable_of_riv`). A value that the analysis says is reachable in a
block is an argument, or a result of a block that dominates it and is not it;
on the way to the block control has been through that block, so the result is
there (`held_above`), and by hypothesis it is no poison.
-/

namespace LlvmPasses.DuplicateBB

open Ir Ir.Function Table Transition
open MergeBB (emptyWorld)

variable {μ : Type} {W : World μ} {F G : Function} {args : List Val} {rs : List Round}
variable {k : Nat} {m : Machine μ} {mem : μ} {ts : List (Nat × Value)}

/-! ## Defined values -/

/-- The value is no poison, and an integer if its type says so. The lanes of a
vector do not matter: no test is made of them. -/
def IsDefined : Val → Prop
  | .poison => False
  | .other ty _ => ty.isIntegerTy = false
  | _ => True

/-- The function is given arguments of its parameters' types, and no value that
it is given or that its run computes is poison. -/
structure AllDefined (W : World μ) (F : Function) (args : List Val) (mem : μ) : Prop where
  given : List.Forall₂ (fun v ty => v.hasTy ty = true ∧ IsDefined v) args F.params
  results : ∀ m, Reaches (step W F args) (start F mem) (.running m) →
    ∀ id v, m.env id = some v → IsDefined v

theorem IsDefined.integer {v : Val} {w : Nat} (h : IsDefined v) (hty : v.hasTy (.int w) = true) :
    ∃ x, v = .int w x := by
  cases v with
  | int w' x =>
      obtain rfl : w = w' := by simpa [Val.hasTy] using hty
      exact ⟨x, rfl⟩
  | ptr a => cases hty
  | poison => exact h.elim
  | vec w' lanes => cases hty
  | other ty bits =>
      obtain rfl : Ty.int w = ty := by simpa [Val.hasTy] using hty
      cases h

/-- A result of a block above is there. -/
theorem held_above (hF : F.WellFormed) (hop : ∀ k ∈ F.order, (F.block k).term.op ≠ .invoke)
    (hm : Computed F m) {a : Nat} (ha : a ∈ F.order) (hdom : F.StrictlyDominates a m.block)
    {id w : Nat} (hd : (id, .int w) ∈ (F.block a).defs) : Held m.env (id, .int w) := by
  obtain ⟨walk, hwalk, hleft⟩ := hm.left
  obtain ⟨p, hp, rfl⟩ := List.mem_map.mp (hdom _ hwalk.path)
  rcases List.mem_append.mp hd with hd | hd
  · obtain ⟨i, hi, heq⟩ := List.mem_map.mp hd
    exact heq ▸ hleft p hp i hi
  · have hvoid := hF.terminators _ ha (hop _ ha)
    have hty := congrArg Prod.snd (List.mem_singleton.mp hd)
    rw [hvoid] at hty
    cases hty

/-- A value that is reachable in a block can be tested there. -/
theorem testable_of_riv {T : RIV.DomTree} (hF : F.WellFormed) (hT : T.Describes F)
    (hop : ∀ k ∈ F.order, (F.block k).term.op ≠ .invoke) {globals : List Nat} {v : Value}
    (hargs : List.Forall₂ (fun v ty => v.hasTy ty = true ∧ IsDefined v) args F.params)
    (hresults : ∀ id v, m.env id = some v → IsDefined v) (hm : Computed F m)
    (hv : v ∈ RIV.run T F globals m.block) : Testable W F args m.env v := by
  obtain ⟨w, hty, hsource⟩ := riv_cases hF hT hv
  have htest : ∀ x, eval W args m.env v = some x → x.hasTy (.int w) = true → IsDefined x →
      Testable W F args m.env v := by
    intro x hx hxty hxdef
    obtain ⟨y, rfl⟩ := hxdef.integer hxty
    exact ⟨w, y, hty, hx⟩
  rcases hsource with ⟨i, hget, rfl⟩ | ⟨a, ha, hdom, id, hd, rfl⟩
  · obtain ⟨hlt, hparam⟩ := List.getElem?_eq_some_iff.mp hget
    have hlen : i < args.length := hargs.length_eq ▸ hlt
    obtain ⟨hxty, hxdef⟩ := hargs.get hlen hlt
    exact htest _ (List.getElem?_eq_getElem hlen) (hparam ▸ hxty) hxdef
  · obtain ⟨x, hx, hxty⟩ := held_above hF hop hm ha hdom hd nofun
    exact htest x hx hxty (hresults id x hx)

/-! ## The pass -/

theorem alike_of_checked (hF : F.WellFormed) (hI : Issued F) (h : Chosen F ts)
    (hchecked : Checked W F args ts mem) : Alike W F (duplicateAll F ts) args mem := by
  rw [duplicateAll_eq hF hI h]
  have hstart : Along (Match W F args (rounds F ts)) (start F mem)
      (start (form F (rounds F ts)) mem) := start_match hF hI h.planned
  exact alike_of_staggers (stutters W args hF hI h.planned).staggers hstart
    (fun u hu m hm => checked_iff.mp hchecked m (hm ▸ hu)) fun _ _ hm => hm.trace

/-- On values that are all defined the pass preserves what a function does. -/
theorem duplicateAll_alike {T : RIV.DomTree} (hF : F.WellFormed) (hI : Issued F)
    (hT : T.Describes F) (hentry : (F.block F.entry).phis = [])
    (hterm : ∀ k ∈ F.order, (F.block k).term.op ∈ [TermOp.br, .switch, .ret])
    (globals : List Nat) (dist : Nat → Nat)
    (hts : ts.Perm (targets F (RIV.run T F globals) dist)) (hdefined : AllDefined W F args mem) :
    Alike W F (duplicateAll F ts) args mem := by
  have hop : ∀ k ∈ F.order, (F.block k).term.op ≠ .invoke := by
    intro k hk heq
    have hmem := hterm k hk
    rw [heq] at hmem
    simp at hmem
  refine alike_of_checked hF hI ((chosen_targets hF hT globals dist).perm hts.symm) ?_
  intro m hm t ht hbb _
  obtain ⟨k, -, hq⟩ := List.mem_filterMap.mp (hts.subset ht)
  obtain ⟨hk, hv⟩ := entry_some hq
  have hriv : t.2 ∈ RIV.run T F globals m.block := by
    rw [hbb, hk]
    exact hv
  exact testable_of_riv hF hT hop hdefined.given (hdefined.results m hm)
    (computed_of_reaches hF hentry hop hm) hriv

/-! ### Sums of a given integer -/

theorem isDefined_set {env : Env} {id : Nat} {v : Val}
    (h : ∀ id v, env id = some v → IsDefined v) (hv : IsDefined v) :
    ∀ id' v', env.set id v id' = some v' → IsDefined v' := by
  intro id' v' hset
  by_cases hid : id' = id
  · rw [hid, Env.set_self, Option.some.injEq] at hset
    exact hset ▸ hv
  · exact h id' v' (Env.set_other env v hid ▸ hset)

theorem allDefined_adding : AllDefined emptyWorld adding [.int 8 7] () where
  given := .cons ⟨by decide, trivial⟩ .nil
  results := by
    have hnone : ∀ id v, (fun _ => none : Env) id = some v → IsDefined v := nofun
    have hfirst := @isDefined_set _ 0 (.int 8 14) hnone trivial
    have hsecond := @isDefined_set _ 2 (.int 8 7) hfirst trivial
    rintro m ⟨n, hn⟩
    match n with
    | 0 => cases hn; exact hnone
    | 1 => cases hn; exact hfirst
    | 2 => cases hn; exact hfirst
    | 3 => cases hn; exact hsecond
    | 4 => cases hn
    | n + 5 => cases hn

theorem duplicateAll_alike_adding :
    Alike emptyWorld adding (duplicateAll adding [(0, .arg 0), (1, .inst 0)]) [.int 8 7] () :=
  duplicateAll_alike wellFormed_adding issued_adding describes_adding rfl (by decide) []
    (fun _ => 0) (by decide) allDefined_adding

end LlvmPasses.DuplicateBB
