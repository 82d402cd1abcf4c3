import Mathlib.Data.List.Forall2
import Mathlib.Data.List.TakeWhile
import LlvmPasses.Ir.Same
import LlvmPasses.Ir.Straight
import LlvmPasses.Proofs.MergeAccepts

/-!
# Running one block for the other

Two blocks that the acceptance test finds alike, run from the same state: their
instructions have the same operations and the same operands, and no operand is
computed in either block, so each pair computes the same from what was there at
the entry, with the same effects. The flags are not compared, so one of the
two results may be poison where the other is not; nothing in the blocks reads
it, only the PHI node of the successor does.

`mergeTarget_sound` is about one pair of blocks that the test accepts and about
every state in which control can be at their entry. The two are run to their
ends (`SameRun`): the same memory and the same events, the same way out, and
for each PHI node of the successor the same value unless one of the two is
poison. Debug intrinsics are left out on both sides first, since they do
nothing and the walk skips them (`execAll_filter`); what is left is two lists
of the same length, run in step by induction (`execAll_lined`). `MergeFlags`
says when the exception for poison is empty.
-/

namespace LlvmPasses.MergeBB

open Ir Ir.Function

/-! ## Two lists of instructions in step -/

/-- A pair of instructions of two blocks that define the handles in `X` and in
`Y`; the operands are from outside. -/
structure Lined {μ : Type} (W : World μ) (args : List Val) (A : Val → Val → Prop)
    (X Y : List Nat) (i j : Instr Op) : Prop where
  ty : i.ty = j.ty
  outside : ∀ id, .inst id ∈ i.operands → id ∉ X ∧ id ∉ Y
  left : i.id ∈ X
  right : j.id ∈ Y
  effects : ∀ env env' : Env, (∀ id, .inst id ∈ i.operands → env id = env' id) → ∀ mem,
    Effects A i.ty mem (effect W args env mem i) (effect W args env' mem j)

/-- The environments differ at most in what the blocks define. -/
def Apart (X Y : List Nat) (env env' : Env) : Prop :=
  ∀ id, id ∉ X → id ∉ Y → env id = env' id

section

variable {μ : Type} {W : World μ} {args : List Val} {A : Val → Val → Prop} {X Y : List Nat}
variable {i j : Instr Op} {is js rest rest' : List (Instr Op)} {m m' m₁ m₂ : Machine μ}

/-- The results of two instructions are related. -/
def Related (A : Val → Val → Prop) (i j : Instr Op) (env env' : Env) : Prop :=
  i.ty ≠ .void → Option.Rel A (env i.id) (env' j.id)

/-- How two runs end: with the same effects and related results, or before the
end and alike. -/
inductive Ended {μ : Type} (A : Val → Val → Prop) (X Y : List Nat) (is js : List (Instr Op)) :
    Config μ → Config μ → Prop
  | on {n₁ n₂ : Machine μ} (mem : n₁.mem = n₂.mem) (trace : n₁.trace = n₂.trace)
      (apart : Apart X Y n₁.env n₂.env)
      (related : List.Forall₂ (fun i j => Related A i j n₁.env n₂.env) is js) :
      Ended A X Y is js (.running n₁) (.running n₂)
  | off {c : Config μ} (hc : ∀ m, c ≠ .running m) : Ended A X Y is js c c

theorem Apart.set (h : Apart X Y m₁.env m₂.env) (hl : i.id ∈ X) (hr : j.id ∈ Y) (v v' : Val) :
    Apart X Y (m₁.env.set i.id v) (m₂.env.set j.id v') := by
  intro id hx hy
  have hi : id ≠ i.id := fun heq => hx (heq ▸ hl)
  have hj : id ≠ j.id := fun heq => hy (heq ▸ hr)
  rw [Env.set_other _ v hi, Env.set_other _ v' hj]
  exact h id hx hy

theorem execInstr_lined (rest rest' : List (Instr Op)) (hA : ∀ v, A v v)
    (h : Lined W args A X Y i j) (hmem : m₁.mem = m₂.mem) (htrace : m₁.trace = m₂.trace)
    (hapart : Apart X Y m₁.env m₂.env) :
    Ended A X Y [i] [j] (execInstr W args m₁ i rest) (execInstr W args m₂ j rest') := by
  have henv : ∀ id, .inst id ∈ i.operands → m₁.env id = m₂.env id := fun id hid =>
    hapart id (h.outside id hid).1 (h.outside id hid).2
  have hset : ∀ v v', A v v' → Related A i j (m₁.env.set i.id v) (m₂.env.set j.id v') := by
    intro v v' hv _
    rw [Env.set_self, Env.set_self]
    exact .some hv
  unfold execInstr
  rw [← hmem, ← htrace, ← h.ty]
  rcases h.effects m₁.env m₂.env henv m₁.mem with heq | ⟨v, v', hv, hv', hrel, h₁, h₂⟩
  · rw [← heq]
    cases effect W args m₁.env m₁.mem i with
    | done v mem events =>
        unfold Env.assign
        cases v with
        | none =>
            by_cases hvoid : i.ty = .void
            · simp only [if_pos hvoid]
              exact .on rfl rfl hapart (.cons (fun hty => absurd hvoid hty) .nil)
            · simp only [if_neg hvoid]
              exact .off nofun
        | some v =>
            by_cases hty : v.hasTy i.ty = true
            · simp only [if_pos hty]
              exact .on rfl rfl (hapart.set h.left h.right v v) (.cons (hset v v (hA v)) .nil)
            · simp only [if_neg hty]
              exact .off nofun
    | unwinds mem events => exact .off nofun
    | never events => exact .off nofun
    | undefined => exact .off nofun
  · rw [h₁, h₂]
    simp only [Env.assign, if_pos hv, if_pos hv']
    exact .on rfl rfl (hapart.set h.left h.right v v') (.cons (hset v v' hrel) .nil)

theorem execAll_lined (hA : ∀ v, A v v) (h : List.Forall₂ (Lined W args A X Y) is js)
    (his : (is.map Instr.id).Nodup) (hjs : (js.map Instr.id).Nodup) (hmem : m₁.mem = m₂.mem)
    (htrace : m₁.trace = m₂.trace) (hapart : Apart X Y m₁.env m₂.env) :
    Ended A X Y is js (execAll W args is m₁) (execAll W args js m₂) := by
  induction h generalizing m₁ m₂ with
  | nil => exact .on hmem htrace hapart .nil
  | @cons i j is js hij htail ih =>
      rw [List.map_cons, List.nodup_cons] at his hjs
      rw [execAll, execAll]
      have hstep := execInstr_lined [] [] hA hij hmem htrace hapart
      generalize execInstr W args m₁ i [] = c at hstep
      generalize execInstr W args m₂ j [] = c' at hstep
      cases hstep with
      | on hmem htrace hapart hrel =>
          have hend := ih his.2 hjs.2 hmem htrace hapart
          simp only
          generalize hd : execAll W args is _ = d at hend ⊢
          generalize hd' : execAll W args js _ = d' at hend ⊢
          cases hend with
          | on hmem htrace hapart hrest =>
              refine .on hmem htrace hapart (.cons (fun hty => ?_) hrest)
              rw [execAll_env hd his.1, execAll_env hd' hjs.1]
              cases hrel with
              | cons hrel _ => exact hrel hty
          | off hoff => exact .off hoff
      | off hoff =>
          cases c with
          | running n => exact absurd rfl (hoff n)
          | _ => exact .off fun _ h => by cases h

/-! ## Debug intrinsics -/

theorem execInstr_debug (hdbg : i.isDbgInfoIntrinsic = true) (hty : i.ty = .void) :
    execInstr W args m i rest = .running { m with rest } := by
  unfold execInstr effect
  simp only [if_pos hdbg, Env.assign, if_pos hty, List.append_nil]

/-- They can be left out. -/
theorem execAll_filter (h : ∀ i ∈ is, i.isDbgInfoIntrinsic = true → i.ty = .void) :
    execAll W args (is.filter fun i => !i.isDbgInfoIntrinsic) m = execAll W args is m := by
  induction is generalizing m with
  | nil => rfl
  | cons i is ih =>
      have ih := fun {m} => ih (m := m) fun j hj => h j (List.mem_cons_of_mem _ hj)
      rw [List.filter_cons]
      by_cases hdbg : i.isDbgInfoIntrinsic = true
      · rw [if_neg (by simp [hdbg]), execAll, ih,
          execInstr_debug hdbg (h i (List.mem_cons_self ..) hdbg)]
        exact execAll_rest.symm
      · rw [if_pos (by simp [hdbg]), execAll, execAll]
        cases execInstr W args m i [] with
        | running n => exact ih
        | _ => rfl

end

/-! ## The two blocks -/

/-- Runs of two blocks to their ends, from one state: the same effects, and for
each PHI node of the successor the same value, if neither is poison. -/
inductive SameRun {μ : Type} (W : World μ) (F : Function) (args : List Val) (bb bb2 succ : Nat) :
    Config μ → Config μ → Prop
  | on {m₁ m₂ : Machine μ} (mem : m₁.mem = m₂.mem) (trace : m₁.trace = m₂.trace)
      (phis : ∀ phi ∈ (F.block succ).phis, ∀ inVal1 inVal2,
        phi.getIncomingValueForBlock bb = some inVal1 →
        phi.getIncomingValueForBlock bb2 = some inVal2 →
        Option.Rel Agree (eval W args m₁.env inVal1) (eval W args m₂.env inVal2)) :
      SameRun W F args bb bb2 succ (.running m₁) (.running m₂)
  | off {c : Config μ} (hc : ∀ m, c ≠ .running m) : SameRun W F args bb bb2 succ c c

/-- The block `bb2` can be run in place of `bb`: whatever the world, the
arguments and the state at the entry. -/
structure Interchangeable (F : Function) (bb bb2 succ : Nat) : Prop where
  runs : ∀ {μ : Type} (W : World μ) (args : List Val) (m : Machine μ),
    SameRun W F args bb bb2 succ (execAll W args (F.block bb).body m)
      (execAll W args (F.block bb2).body m)
  /-- Both go to the same place. -/
  transfer : ∀ {μ : Type} (W : World μ) (value : Value → Option Val) (mem : μ),
    W.transfer (F.block bb).term value mem = .goto succ none mem [] ∧
      W.transfer (F.block bb2).term value mem = .goto succ none mem []
  /-- What they define is used only by the PHI node of the successor, by its
  entry for the block. -/
  unused : ∀ k ∈ [bb, bb2], ∀ id ∈ (F.block k).defs.map Prod.fst,
    ∀ user ∈ F.users (.inst id), user.1 = succ ∧ ∃ phi, user.2 = some phi ∧
      phi.isPhi = true ∧ phi.getIncomingValueForBlock k = some (.inst id)

namespace State

section

variable {s : State} {bb bb2 succ : Nat} {deleteList : List Nat} {i j : Instr Op}

/-- What is run of a block when control has come to it. -/
def nonDbg (b : Block) : List (Instr Op) := b.body.filter fun i => !i.isDbgInfoIntrinsic

theorem reverseNonDbg_eq (b : Block) : reverseNonDbg b = (nonDbg b).reverse ++ b.phis.reverse := by
  have hphis : b.phis.filter (fun i => !i.isDbgInfoIntrinsic) = b.phis := by
    refine List.filter_eq_self.mpr fun i hi => ?_
    have hphi : i.isPhi = true := List.mem_takeWhile_imp hi
    unfold Instr.isPhi at hphi
    unfold Instr.isDbgInfoIntrinsic
    rw [beq_iff_eq] at hphi
    rw [hphi]
    rfl
  have hsplit : b.instrs = b.phis ++ b.body := List.takeWhile_append_dropWhile.symm
  unfold reverseNonDbg
  rw [hsplit, List.filter_append, hphis, List.reverse_append]
  rfl

theorem isPhi_of_paired (h : s.Accepted bb bb2 succ) (hp : Paired s.fn bb bb2 i j) :
    i.isPhi = j.isPhi := by
  unfold Instr.isPhi
  rw [(h.identical i j hp).op]

/-- The walk compares PHI nodes with PHI nodes. -/
theorem Accepted.length_le (h : s.Accepted bb bb2 succ) (hF : s.fn.WellFormed) :
    (nonDbg (s.fn.block bb2)).length ≤ (nonDbg (s.fn.block bb)).length := by
  by_contra hlt
  rw [Nat.not_le] at hlt
  have hlen := h.length
  rw [reverseNonDbg_eq, reverseNonDbg_eq] at hlen
  simp only [List.length_append, List.length_reverse] at hlen
  -- the first place where the body of `bb` is over
  have h₁ : (nonDbg (s.fn.block bb)).length < (reverseNonDbg (s.fn.block bb)).length := by
    rw [reverseNonDbg_eq]
    simp only [List.length_append, List.length_reverse]
    omega
  have h₂ : (nonDbg (s.fn.block bb)).length < (reverseNonDbg (s.fn.block bb2)).length := by
    rw [← h.length]
    exact h₁
  have hp : Paired s.fn bb bb2 _ _ :=
    ⟨_, List.getElem?_eq_getElem h₁, List.getElem?_eq_getElem h₂⟩
  have hphi := isPhi_of_paired h hp
  have hleft : (reverseNonDbg (s.fn.block bb))[(nonDbg (s.fn.block bb)).length] ∈
      (s.fn.block bb).phis := by
    simp only [reverseNonDbg_eq]
    rw [List.getElem_append_right (by simp)]
    exact List.mem_reverse.mp (List.getElem_mem _)
  have hright : (reverseNonDbg (s.fn.block bb2))[(nonDbg (s.fn.block bb)).length] ∈
      nonDbg (s.fn.block bb2) := by
    simp only [reverseNonDbg_eq]
    rw [List.getElem_append_left (by simpa using hlt)]
    exact List.mem_reverse.mp (List.getElem_mem _)
  rw [hF.phis bb2 h.mem2 _ (List.mem_filter.mp hright).1, List.mem_takeWhile_imp hleft] at hphi
  cases hphi

theorem Accepted.forall₂_body (h : s.Accepted bb bb2 succ) (hF : s.fn.WellFormed)
    {R : Instr Op → Instr Op → Prop} :
    List.Forall₂ R (nonDbg (s.fn.block bb)) (nonDbg (s.fn.block bb2)) ↔
      ∀ i j, Paired s.fn bb bb2 i j → i.isPhi = false → R i j := by
  have hlen : (nonDbg (s.fn.block bb)).length = (nonDbg (s.fn.block bb2)).length :=
    Nat.le_antisymm (h.symm.length_le hF) (h.length_le hF)
  rw [← List.forall₂_reverse_iff, List.forall₂_iff_get]
  constructor
  · rintro ⟨-, hall⟩ i j ⟨n, hi, hj⟩ hphi
    rw [reverseNonDbg_eq] at hi hj
    have hn : n < (nonDbg (s.fn.block bb)).reverse.length := by
      by_contra hge
      rw [List.getElem?_append_right (Nat.not_lt.mp hge)] at hi
      have hmem := List.mem_reverse.mp (List.mem_of_getElem? hi)
      rw [show i.isPhi = true from List.mem_takeWhile_imp hmem] at hphi
      cases hphi
    have hn₂ : n < (nonDbg (s.fn.block bb2)).reverse.length := by
      rw [List.length_reverse, ← hlen, ← List.length_reverse]
      exact hn
    rw [List.getElem?_append_left hn] at hi
    rw [List.getElem?_append_left hn₂] at hj
    obtain ⟨h₁, rfl⟩ := List.getElem?_eq_some_iff.mp hi
    obtain ⟨h₂, rfl⟩ := List.getElem?_eq_some_iff.mp hj
    exact hall n h₁ h₂
  · intro hall
    refine ⟨by simp [hlen], fun n h₁ h₂ => hall _ _ ⟨n, ?_, ?_⟩ ?_⟩
    · rw [reverseNonDbg_eq, List.getElem?_append_left h₁]
      exact List.getElem?_eq_getElem h₁
    · rw [reverseNonDbg_eq, List.getElem?_append_left h₂]
      exact List.getElem?_eq_getElem h₂
    · have hmem := List.mem_reverse.mp (List.getElem_mem h₁)
      exact hF.phis bb h.mem _ (List.mem_filter.mp hmem).1

theorem Accepted.lined (h : s.Accepted bb bb2 succ) (hF : s.fn.WellFormed) {μ : Type}
    {W : World μ} {args : List Val} {A : Val → Val → Prop} (hp : Paired s.fn bb bb2 i j)
    (heffects : ∀ env env' : Env, (∀ id, .inst id ∈ i.operands → env id = env' id) → ∀ mem,
      Effects A i.ty mem (effect W args env mem i) (effect W args env' mem j)) :
    Lined W args A ((s.fn.block bb).defs.map Prod.fst)
      ((s.fn.block bb2).defs.map Prod.fst) i j := by
  have hident := h.identical i j hp
  refine ⟨hident.ty, fun id hid => ⟨h.outside hF hp hid, ?_⟩,
    mem_ids.mpr (.inl ⟨i, hp.mem.1, rfl⟩), mem_ids.mpr (.inl ⟨j, hp.symm.mem.1, rfl⟩), heffects⟩
  exact h.symm.outside hF hp.symm (hident.operands ▸ hid)

/-- The two blocks run in step. -/
theorem Accepted.ended (h : s.Accepted bb bb2 succ) (hF : s.fn.WellFormed) {μ : Type}
    (W : World μ) (args : List Val) (m : Machine μ) {A : Val → Val → Prop} (hA : ∀ v, A v v)
    (heffects : ∀ i j, Paired s.fn bb bb2 i j → ∀ env env' : Env,
      (∀ id, .inst id ∈ i.operands → env id = env' id) → ∀ mem,
      Effects A i.ty mem (effect W args env mem i) (effect W args env' mem j)) :
    Ended A ((s.fn.block bb).defs.map Prod.fst) ((s.fn.block bb2).defs.map Prod.fst)
      (nonDbg (s.fn.block bb)) (nonDbg (s.fn.block bb2))
      (execAll W args (s.fn.block bb).body m) (execAll W args (s.fn.block bb2).body m) := by
  have hnodup : ∀ {k}, k ∈ s.fn.order → ((nonDbg (s.fn.block k)).map Instr.id).Nodup := by
    intro k hk
    have hall := hF.block_nodup hk
    rw [Block.defs, List.map_append, List.map_map] at hall
    refine (List.nodup_append.mp hall).1.sublist (List.Sublist.map _ ?_)
    exact List.filter_sublist.trans (List.dropWhile_sublist _)
  have hdebug : ∀ {k}, k ∈ s.fn.order → ∀ i ∈ (s.fn.block k).body,
      i.isDbgInfoIntrinsic = true → i.ty = .void := fun hk i hi hdbg =>
    (hF.debug _ hk i ((List.dropWhile_sublist _).subset hi) hdbg).1
  rw [← execAll_filter (hdebug h.mem), ← execAll_filter (hdebug h.mem2)]
  exact execAll_lined hA ((h.forall₂_body hF).mpr fun i j hp _ => h.lined hF hp (heffects i j hp))
    (hnodup h.mem) (hnodup h.mem2) rfl rfl fun _ _ _ => rfl

/-- An instruction that the PHI node takes has a result. -/
theorem Accepted.ty_of_phi (h : s.Accepted bb bb2 succ) (hF : s.fn.WellFormed) {phi : Instr Op}
    (hphi : phi ∈ (s.fn.block succ).phis) (hp : Paired s.fn bb bb2 i j)
    (hin : phi.getIncomingValueForBlock bb = some (.inst i.id)) : i.ty ≠ .void := by
  have hsucc : succ ∈ s.fn.order := by
    refine (hF.successors bb h.mem succ ?_).1
    rw [h.successors]
    exact List.mem_singleton_self _
  obtain ⟨d, hd, hid, hty⟩ : s.fn.Names (.inst i.id) :=
    hF.operands succ hsucc _ (List.mem_append_left _ (List.mem_flatMap.mpr
      ⟨phi, phis_subset hphi, mem_operands_of_incoming hin⟩))
  have hmem : (i.id, i.ty) ∈ s.fn.defs := mem_defs_of_instr h.mem hp.mem.1
  have heq := List.inj_on_of_nodup_map hF.ids_nodup hd hmem hid
  rw [heq] at hty
  exact hty

/-- What the PHI nodes of the successor take, unless it is a PHI node. -/
theorem Accepted.phi_related (h : s.Accepted bb bb2 succ) (hF : s.fn.WellFormed) {μ : Type}
    (W : World μ) (args : List Val) {A : Val → Val → Prop} (hA : ∀ v, A v v) {env env' : Env}
    (hapart : Apart ((s.fn.block bb).defs.map Prod.fst) ((s.fn.block bb2).defs.map Prod.fst)
      env env')
    (hrelated : List.Forall₂ (fun i j => Related A i j env env') (nonDbg (s.fn.block bb))
      (nonDbg (s.fn.block bb2)))
    {phi : Instr Op} (hphi : phi ∈ (s.fn.block succ).phis) {inVal1 inVal2 : Value}
    (hin1 : phi.getIncomingValueForBlock bb = some inVal1)
    (hin2 : phi.getIncomingValueForBlock bb2 = some inVal2)
    (hown : ∀ p ∈ (s.fn.block bb).phis, inVal1 ≠ .inst p.id) :
    Option.Rel A (eval W args env inVal1) (eval W args env' inVal2) := by
  rcases h.phi_values hF hphi hin1 hin2 with ⟨i, j, hp, rfl, rfl⟩ | ⟨rfl, hout⟩
  · have hnot : i.isPhi = false := by
      rw [Bool.eq_false_iff]
      exact fun hi => hown i (mem_phis hF h.mem hp.mem.1 hi) rfl
    exact (h.forall₂_body hF).mp hrelated i j hp hnot (h.ty_of_phi hF hphi hp hin1)
  · have hsame : eval W args env inVal1 = eval W args env' inVal1 :=
      eval_congr fun id hid => hapart id (hout id hid).1 (hout id hid).2
    rw [hsame]
    cases eval W args env' inVal1 with
    | none => exact .none
    | some v => exact .some (hA v)

theorem Accepted.sameRun (h : s.Accepted bb bb2 succ) (hF : s.fn.WellFormed)
    (hphis : (s.fn.block bb).phis = []) {μ : Type} (W : World μ) (args : List Val)
    (m : Machine μ) : SameRun W s.fn args bb bb2 succ (execAll W args (s.fn.block bb).body m)
      (execAll W args (s.fn.block bb2).body m) := by
  have hend := h.ended hF W args m (A := Agree) Agree.refl fun i j hp env env' henv mem =>
    have hident := h.identical i j hp
    effect_same ⟨hident.op, hident.ty, hident.operands⟩ henv mem
  generalize execAll W args (s.fn.block bb).body m = c at hend
  generalize execAll W args (s.fn.block bb2).body m = c' at hend
  cases hend with
  | off hc => exact .off hc
  | on hmem htrace hapart hrelated =>
      refine .on hmem htrace fun phi hphi inVal1 inVal2 hin1 hin2 => ?_
      refine h.phi_related hF W args Agree.refl hapart hrelated hphi hin1 hin2 fun p hp => ?_
      rw [hphis] at hp
      cases hp

theorem Accepted.unused (h : s.Accepted bb bb2 succ) (hF : s.fn.WellFormed) {id : Nat}
    (hid : id ∈ (s.fn.block bb).defs.map Prod.fst) {user : Nat × Option (Instr Op)}
    (huser : user ∈ s.fn.users (.inst id)) : user.1 = succ ∧ ∃ phi, user.2 = some phi ∧
      phi.isPhi = true ∧ phi.getIncomingValueForBlock bb = some (.inst id) := by
  obtain ⟨k, u⟩ := user
  have hop : k ∈ s.fn.order ∧ .inst id ∈ (s.fn.block k).operands := by
    cases u with
    | none =>
        obtain ⟨hk, hop⟩ := mem_users_term.mp huser
        exact ⟨hk, List.mem_append_right _ hop⟩
    | some i =>
        obtain ⟨hk, hi, hop⟩ := mem_users.mp huser
        exact ⟨hk, List.mem_append_left _ (List.mem_flatMap.mpr ⟨i, hi, hop⟩)⟩
  obtain ⟨i, j, hp, rfl⟩ := h.compared hF (hF.operands k hop.1 _ hop.2) hid
  exact h.user hF hp huser

/-- Whenever a block without PHI nodes of its own is merged into another, which
then has none either, the one that stays can be run in place of the one that
goes. -/
theorem mergeTarget_sound (hs : s.Linked) (hF : s.fn.WellFormed) (hbb : bb ∈ s.fn.order)
    (hphis : (s.fn.block bb).phis = [])
    (h : s.mergeTarget deleteList bb = .ok (some bb2)) :
    ∃ succ, Interchangeable s.fn bb bb2 succ := by
  obtain ⟨succ, hacc⟩ := mergeTarget_accepted hs hbb h
  refine ⟨succ, hacc.sameRun hF hphis, fun W value mem => ⟨?_, ?_⟩,
    fun k hk id hid user huser => ?_⟩
  · unfold World.transfer
    rw [hacc.term.1, hacc.term.2]
  · unfold World.transfer
    rw [hacc.term2.1, hacc.term2.2]
  · simp only [List.mem_cons, List.not_mem_nil, or_false] at hk
    rcases hk with rfl | rfl
    · exact hacc.unused hF hid huser
    · exact hacc.symm.unused hF hid huser

end

end State

theorem wellFormed_foo : foo.WellFormed where
  nonempty := by decide
  nodup := by decide
  ids_nodup := by decide
  operands := by decide
  successors := by decide
  terminators := by decide
  debug := by decide
  phis := by decide
  incoming := by decide

theorem mergeTarget_sound_foo : ∃ succ, Interchangeable foo 3 5 succ :=
  State.mergeTarget_sound (s := .ofFunction foo) (State.linked_ofFunction (by decide))
    wellFormed_foo (by decide) rfl (show State.mergeTarget _ [] _ = _ by decide)

end LlvmPasses.MergeBB
