import LlvmPasses.Ir.WellFormed
import LlvmPasses.Proofs.MergeRun

/-!
# What the acceptance test establishes

The test never asks whether the two values that a successor's PHI node takes
stand at the same place in their blocks. It follows from the rest: an
instruction that has a user has one, and no operand can name an instruction of
either block, since its counterpart would be another user. So the only user is
the PHI node, which takes the instruction for its own block, and the
counterpart for the other.

`mergeTarget_accepted` takes the test apart: if it has named a block, the
comparisons on its way succeeded (`Accepted`), for the instructions that the
lockstep walk pairs and for the successor's PHI nodes. What follows from that
alone is proved next. Every instruction of either block but debug intrinsics
has a counterpart, and the relation is symmetric, so each fact is needed for
one side only (`Accepted.symm`).

The rest is counting. `canRemoveInst` lets an instruction through that has no
users, or one. An operand that named a compared instruction would be one user,
and its counterpart's operand, which is the same, another; so the operands of
compared instructions are defined in neither block (`Accepted.outside`), and
the one user there may be is the successor's PHI node (`Accepted.user`).
`Accepted.phi_values` says the same from the PHI node's side, and that is the
form in which the soundness of the merge uses it.
-/

namespace LlvmPasses.MergeBB

open Ir Ir.Function

/-- The pairs that the lockstep walk compares. -/
def State.Paired (F : Function) (bb bb2 : Nat) (inst1 inst2 : Instr Op) : Prop :=
  ∃ n : Nat, (State.reverseNonDbg (F.block bb))[n]? = some inst1 ∧
    (State.reverseNonDbg (F.block bb2))[n]? = some inst2

/-- One comparison that succeeded. -/
structure State.Identical (F : Function) (bb bb2 : Nat) (inst1 inst2 : Instr Op) : Prop where
  op : inst1.op = inst2.op
  ty : inst1.ty = inst2.ty
  operands : inst1.operands = inst2.operands
  users : (F.users (.inst inst1.id)).length ≤ 1
  users2 : (F.users (.inst inst2.id)).length = (F.users (.inst inst1.id)).length
  removable : (F.users (.inst inst1.id)).length = 1 →
    State.canRemoveInst F bb inst1 = .ok true ∧ State.canRemoveInst F bb2 inst2 = .ok true

/-- The test has been passed: the blocks have the same only successor, and the
comparisons succeeded. -/
structure State.Accepted (s : State) (bb bb2 succ : Nat) : Prop where
  mem : bb ∈ s.fn.order
  mem2 : bb2 ∈ s.fn.order
  ne : bb ≠ bb2
  term : (s.fn.block bb).term.op = .br ∧ (s.fn.block bb).term.operands = [.block succ]
  term2 : (s.fn.block bb2).term.op = .br ∧ (s.fn.block bb2).term.operands = [.block succ]
  length : (State.reverseNonDbg (s.fn.block bb)).length =
    (State.reverseNonDbg (s.fn.block bb2)).length
  phi : (s.fn.block succ).phis = [] ∨ ∃ phi inVal1 inVal2, (s.fn.block succ).phis = [phi] ∧
    phi.getIncomingValueForBlock bb = some inVal1 ∧
    phi.getIncomingValueForBlock bb2 = some inVal2 ∧
    (inVal1 = inVal2 ∨ (State.definedIn s.fn bb inVal1 = true ∧
      State.definedIn s.fn bb2 inVal2 = true))
  identical : ∀ inst1 inst2, State.Paired s.fn bb bb2 inst1 inst2 →
    State.Identical s.fn bb bb2 inst1 inst2

namespace State

section

variable {s : State} {F : Function} {bb bb2 succ k : Nat} {deleteList : List Nat}
variable {inst1 inst2 i : Instr Op} {v : Value}

/-! ## Users -/

theorem mem_users : (k, some i) ∈ F.users v ↔
    k ∈ F.order ∧ i ∈ (F.block k).instrs ∧ v ∈ i.operands := by
  simp only [Function.users, List.mem_flatMap, List.mem_append, List.mem_map, List.mem_filter,
    beq_iff_eq, Prod.mk.injEq, Option.some.injEq, reduceCtorEq, and_false, exists_false, or_false]
  constructor
  · rintro ⟨k', hk, i', hi, w, ⟨hw, rfl⟩, rfl, rfl⟩
    exact ⟨hk, hi, hw⟩
  · rintro ⟨hk, hi, hv⟩
    exact ⟨k, hk, i, hi, v, ⟨hv, rfl⟩, rfl, rfl⟩

theorem mem_users_term : (k, none) ∈ F.users v ↔ k ∈ F.order ∧ v ∈ (F.block k).term.operands := by
  simp only [Function.users, List.mem_flatMap, List.mem_append, List.mem_map, List.mem_filter,
    beq_iff_eq, Prod.mk.injEq, reduceCtorEq, and_false, exists_false, false_or, and_true]
  constructor
  · rintro ⟨k', hk, w, ⟨hw, rfl⟩, rfl⟩
    exact ⟨hk, hw⟩
  · rintro ⟨hk, hv⟩
    exact ⟨k, hk, v, ⟨hv, rfl⟩, rfl⟩

/-- The only user of an instruction that may be removed. -/
theorem canRemoveInst_true {parent : Nat} (hlen : (F.users (.inst i.id)).length = 1)
    (h : canRemoveInst F parent i = .ok true) : ∃ user, F.users (.inst i.id) = [user] ∧
      (user.1 = parent ∨ ∃ phi, user.2 = some phi ∧ phi.isPhi = true ∧
        some user.1 = (F.block parent).term.successors.head? ∧
        phi.getIncomingValueForBlock parent = some (.inst i.id)) := by
  obtain ⟨⟨userParent, user⟩, huser⟩ := List.length_eq_one_iff.mp hlen
  refine ⟨_, huser, ?_⟩
  unfold canRemoveInst at h
  rw [huser] at h
  by_cases hparent : userParent = parent
  · exact .inl hparent
  right
  cases user with
  | none =>
      simp [bind, Except.bind, pure, Except.pure, hparent] at h
  | some phi =>
      by_cases hphi :
          (phi.isPhi && some userParent == (F.block parent).term.successors.head?) = true
      · rw [Bool.and_eq_true, beq_iff_eq] at hphi
        cases hin : phi.getIncomingValueForBlock parent with
        | none => simp [bind, Except.bind, hphi, hin] at h
        | some w =>
            refine ⟨phi, rfl, hphi.1, hphi.2, ?_⟩
            simpa [bind, Except.bind, pure, Except.pure, hphi, hin, hparent] using h
      · simp [bind, Except.bind, pure, Except.pure, hphi, hparent] at h

theorem identical_of_ok (h : identicalInstructions F bb bb2 inst1 inst2 = .ok true) :
    Identical F bb bb2 inst1 inst2 := by
  unfold identicalInstructions at h
  by_cases hsame : isSameOperationAs F inst1 inst2 = true
  · by_cases huses : (((F.users (.inst inst1.id)).length == 0 ||
        (F.users (.inst inst1.id)).length == 1) &&
        (F.users (.inst inst1.id)).length == (F.users (.inst inst2.id)).length) = true
    · have hshape := hsame
      unfold isSameOperationAs at hshape
      simp only [Bool.and_eq_true, beq_iff_eq] at hshape
      have hlen := huses
      simp only [Bool.and_eq_true, Bool.or_eq_true, beq_iff_eq] at hlen
      have hrest : inst1.operands = inst2.operands ∧
          ((F.users (.inst inst1.id)).length = 1 →
            canRemoveInst F bb inst1 = .ok true ∧ canRemoveInst F bb2 inst2 = .ok true) := by
        by_cases hone : (F.users (.inst inst1.id)).length = 1
        · have htwo : (F.users (.inst inst2.id)).length = 1 := hlen.2 ▸ hone
          cases hr1 : canRemoveInst F bb inst1 with
          | error e => simp [hsame, hone, htwo, hr1, bind, Except.bind] at h
          | ok r1 =>
              cases hr2 : canRemoveInst F bb2 inst2 with
              | error e =>
                  cases r1 <;> simp [hsame, hone, htwo, hr1, hr2, bind, Except.bind, pure,
                    Except.pure] at h
              | ok r2 =>
                  cases r1 <;> cases r2 <;> simp_all [bind, Except.bind, pure, Except.pure]
        · refine ⟨?_, fun h => absurd h hone⟩
          simpa [hsame, huses, hone, pure, Except.pure] using h
      exact ⟨hshape.1.1, hshape.1.2, hrest.1, by omega, hlen.2.symm, hrest.2⟩
    · simp [hsame, huses, pure, Except.pure] at h
  · simp [hsame, pure, Except.pure] at h

/-! ## Inversion of the test -/

theorem lockstep_true {insts1 insts2 : List (Instr Op)}
    (h : lockstep F bb bb2 insts1 insts2 = .ok true) {n : Nat} (h1 : insts1[n]? = some inst1)
    (h2 : insts2[n]? = some inst2) : identicalInstructions F bb bb2 inst1 inst2 = .ok true := by
  induction n generalizing insts1 insts2 with
  | zero =>
      cases insts1 with
      | nil => cases h1
      | cons i1 insts1 =>
          cases insts2 with
          | nil => cases h2
          | cons i2 insts2 =>
              cases h1
              cases h2
              rw [lockstep] at h
              cases hi : identicalInstructions F bb bb2 inst1 inst2 with
              | error e =>
                  rw [hi] at h
                  cases h
              | ok same =>
                  rw [hi] at h
                  cases same with
                  | true => rfl
                  | false => cases h
  | succ n ih =>
      cases insts1 with
      | nil => cases h1
      | cons i1 insts1 =>
          cases insts2 with
          | nil => cases h2
          | cons i2 insts2 =>
              rw [lockstep] at h
              cases hi : identicalInstructions F bb bb2 i1 i2 with
              | error e =>
                  rw [hi] at h
                  cases h
              | ok same =>
                  rw [hi] at h
                  cases same with
                  | true => exact ih h h1 h2
                  | false => cases h

/-- A terminator that is an unconditional branch. -/
theorem isUnconditionalBr_iff {t : Instr TermOp} :
    t.isUnconditionalBr = true ↔ t.op = .br ∧ ∃ v, t.operands = [v] := by
  unfold Instr.isUnconditionalBr
  rw [Bool.and_eq_true, beq_iff_eq, beq_iff_eq, List.length_eq_one_iff]

theorem accepts_spec {phiNode : Option (Instr Op × Value)}
    (h : s.accepts deleteList bb bb2 phiNode = .ok true) :
    bb ≠ bb2 ∧ (s.fn.block bb2).term.isUnconditionalBr = true ∧
      getNumNonDbgInstrs (s.fn.block bb) = getNumNonDbgInstrs (s.fn.block bb2) ∧
      (∀ phi inVal1, phiNode = some (phi, inVal1) →
        phiAccepts s.fn bb bb2 inVal1 phi = .ok true) ∧
      lockstep s.fn bb bb2 (reverseNonDbg (s.fn.block bb)) (reverseNonDbg (s.fn.block bb2)) =
        .ok true := by
  unfold accepts at h
  split at h
  · cases h
  split at h
  · cases h
  next hbr =>
  split at h
  · cases h
  split at h
  · cases h
  next hcond =>
  simp only [Bool.or_eq_true, beq_iff_eq, bne_iff_ne, not_or, ne_eq, not_not] at hcond
  rw [Bool.not_eq_true, Bool.not_eq_false'] at hbr
  refine ⟨hcond.1.2, hbr, hcond.2, ?_⟩
  cases phiNode with
  | none =>
      refine ⟨fun phi inVal1 heq => ?_, h⟩
      cases heq
  | some p =>
      obtain ⟨phi, inVal1⟩ := p
      cases hp : phiAccepts s.fn bb bb2 inVal1 phi with
      | error e =>
          simp only [hp] at h
          cases h
      | ok taken =>
          simp only [hp] at h
          cases taken with
          | false => cases h
          | true =>
              refine ⟨fun phi' inVal1' heq => ?_, h⟩
              cases heq
              exact hp

theorem candidate_spec {phiNode : Option (Instr Op × Value)} {preds : List Nat}
    (h : s.candidate deleteList bb phiNode preds = .ok (some bb2)) :
    bb2 ∈ preds ∧ s.accepts deleteList bb bb2 phiNode = .ok true := by
  induction preds with
  | nil => cases h
  | cons k preds ih =>
      unfold candidate at h
      cases ha : s.accepts deleteList bb k phiNode with
      | error e =>
          rw [ha] at h
          cases h
      | ok taken =>
          rw [ha] at h
          cases taken with
          | true =>
              cases h
              exact ⟨List.mem_cons_self .., ha⟩
          | false =>
              obtain ⟨hmem, haccepts⟩ := ih h
              exact ⟨List.mem_cons_of_mem _ hmem, haccepts⟩

theorem successorPhi_spec {phiNode : Option (Instr Op × Value)}
    (h : successorPhi F bb succ = .ok (some phiNode)) :
    (phiNode = none ∧ (F.block succ).phis = []) ∨ ∃ phi inVal1,
      phiNode = some (phi, inVal1) ∧ (F.block succ).phis = [phi] ∧
        phi.getIncomingValueForBlock bb = some inVal1 := by
  unfold successorPhi at h
  split at h
  · next hphis =>
      cases h
      exact .inl ⟨rfl, hphis⟩
  · next phi hphis =>
      split at h
      · next inVal1 hin =>
          cases h
          exact .inr ⟨phi, inVal1, rfl, hphis, hin⟩
      · cases h
  · cases h

theorem phiAccepts_spec {phi : Instr Op} {inVal1 : Value}
    (h : phiAccepts F bb bb2 inVal1 phi = .ok true) :
    ∃ inVal2, phi.getIncomingValueForBlock bb2 = some inVal2 ∧
      (inVal1 = inVal2 ∨ (definedIn F bb inVal1 = true ∧ definedIn F bb2 inVal2 = true)) := by
  unfold phiAccepts at h
  cases hin : phi.getIncomingValueForBlock bb2 with
  | none =>
      rw [hin] at h
      cases h
  | some inVal2 =>
      rw [hin] at h
      refine ⟨inVal2, rfl, ?_⟩
      simpa using h

/-- A block that is left for one place only by its terminator's operands. -/
theorem successors_of_isUnconditionalBr {t : Instr TermOp} (h : t.isUnconditionalBr = true)
    (hsucc : .block succ ∈ t.operands) : t.op = .br ∧ t.operands = [.block succ] := by
  obtain ⟨hop, v, hv⟩ := isUnconditionalBr_iff.mp h
  rw [hv, List.mem_singleton] at hsucc
  exact ⟨hop, by rw [hv, hsucc]⟩

theorem operands_of_successor {t : Instr TermOp} (h : t.isUnconditionalBr = true)
    (hsucc : t.successors.head? = some succ) : .block succ ∈ t.operands := by
  obtain ⟨hop, v, hv⟩ := isUnconditionalBr_iff.mp h
  unfold Instr.successors Instr.successorOperands at hsucc
  simp only [hop, hv] at hsucc
  cases v with
  | block k =>
      obtain rfl : k = succ := by simpa using hsucc
      rw [hv]
      exact List.mem_singleton_self _
  | _ => simp at hsucc

theorem mergeTarget_accepted (hs : s.Linked) (hbb : bb ∈ s.fn.order)
    (h : s.mergeTarget deleteList bb = .ok (some bb2)) : ∃ succ, s.Accepted bb bb2 succ := by
  unfold mergeTarget at h
  split at h
  · cases h
  split at h
  · cases h
  next hbr =>
  split at h
  · cases h
  split at h
  · cases h
  next succ hsucc =>
  cases hp : successorPhi s.fn bb succ with
  | error e =>
      rw [hp] at h
      cases h
  | ok o =>
      rw [hp] at h
      cases o with
      | none => cases h
      | some phiNode =>
          rw [Bool.not_eq_true, Bool.not_eq_false'] at hbr
          obtain ⟨hpred, haccepts⟩ := candidate_spec h
          obtain ⟨hne, hbr2, hlen, hphi, hlockstep⟩ := accepts_spec haccepts
          obtain ⟨hbb2, j, hoperand⟩ := (mem_predecessors hs).mp hpred
          have hsucc2 : .block succ ∈ (s.fn.block bb2).term.operands :=
            List.mem_of_getElem? hoperand
          refine ⟨succ, hbb, hbb2, hne,
            successors_of_isUnconditionalBr hbr (operands_of_successor hbr hsucc),
            successors_of_isUnconditionalBr hbr2 hsucc2, Nat.succ.inj hlen, ?_, ?_⟩
          · rcases successorPhi_spec hp with ⟨-, hnone⟩ | ⟨phi, inVal1, heq, hphis, hin⟩
            · exact .inl hnone
            · obtain ⟨inVal2, hin2, hsame⟩ := phiAccepts_spec (hphi phi inVal1 heq)
              exact .inr ⟨phi, inVal1, inVal2, hphis, hin, hin2, hsame⟩
          · rintro inst1 inst2 ⟨n, h1, h2⟩
            exact identical_of_ok (lockstep_true hlockstep h1 h2)

/-! ## Where the instructions of the blocks are used -/

theorem Paired.symm (h : Paired F bb bb2 inst1 inst2) : Paired F bb2 bb inst2 inst1 := by
  obtain ⟨n, h1, h2⟩ := h
  exact ⟨n, h2, h1⟩

theorem Identical.symm (h : Identical F bb bb2 inst1 inst2) :
    Identical F bb2 bb inst2 inst1 where
  op := h.op.symm
  ty := h.ty.symm
  operands := h.operands.symm
  users := h.users2 ▸ h.users
  users2 := h.users2.symm
  removable := fun hone => (h.removable (h.users2 ▸ hone)).symm

theorem Accepted.symm (h : s.Accepted bb bb2 succ) : s.Accepted bb2 bb succ where
  mem := h.mem2
  mem2 := h.mem
  ne := h.ne.symm
  term := h.term2
  term2 := h.term
  length := h.length.symm
  phi := by
    rcases h.phi with hnone | ⟨phi, inVal1, inVal2, hphis, hin1, hin2, hsame⟩
    · exact .inl hnone
    · exact .inr ⟨phi, inVal2, inVal1, hphis, hin2, hin1, hsame.imp Eq.symm And.symm⟩
  identical := fun inst2 inst1 hp => (h.identical inst1 inst2 hp.symm).symm

theorem Accepted.successors (h : s.Accepted bb bb2 succ) : s.fn.successors bb = [succ] := by
  unfold Function.successors Instr.successors Instr.successorOperands
  rw [h.term.1, h.term.2]
  rfl

/-- An instruction that is no debug intrinsic has a counterpart. -/
theorem Accepted.counterpart (h : s.Accepted bb bb2 succ) (hi : i ∈ (s.fn.block bb).instrs)
    (hdbg : i.isDbgInfoIntrinsic = false) : ∃ inst2, Paired s.fn bb bb2 i inst2 := by
  have hmem : i ∈ reverseNonDbg (s.fn.block bb) := by
    unfold reverseNonDbg
    rw [List.mem_reverse, List.mem_filter]
    exact ⟨hi, by simp [hdbg]⟩
  obtain ⟨n, hn⟩ := List.mem_iff_getElem?.mp hmem
  obtain ⟨hlt, -⟩ := List.getElem?_eq_some_iff.mp hn
  rw [h.length] at hlt
  exact ⟨_, n, hn, List.getElem?_eq_getElem hlt⟩

theorem Paired.mem (h : Paired F bb bb2 inst1 inst2) :
    inst1 ∈ (F.block bb).instrs ∧ inst1.isDbgInfoIntrinsic = false := by
  obtain ⟨n, h1, -⟩ := h
  have hmem := List.mem_of_getElem? h1
  unfold reverseNonDbg at hmem
  rw [List.mem_reverse, List.mem_filter] at hmem
  exact ⟨hmem.1, by simpa using hmem.2⟩

/-- What an operand can name of a block is an instruction that was compared. -/
theorem Accepted.compared (h : s.Accepted bb bb2 succ) (hF : s.fn.WellFormed) {id : Nat}
    (hnames : s.fn.Names (.inst id)) (hid : id ∈ (s.fn.block bb).defs.map Prod.fst) :
    ∃ inst1 inst2, Paired s.fn bb bb2 inst1 inst2 ∧ inst1.id = id := by
  obtain ⟨d, hd, rfl, hty⟩ := hnames
  obtain ⟨k, hk, hdk⟩ := Function.mem_defs.mp hd
  obtain rfl : k = bb := hF.block_unique hk h.mem (List.mem_map_of_mem hdk) hid
  rcases List.mem_append.mp hdk with hdk | hdk
  · obtain ⟨i, hi, rfl⟩ := List.mem_map.mp hdk
    have hdbg : i.isDbgInfoIntrinsic = false := by
      rw [Bool.eq_false_iff]
      exact fun hdbg => hty (hF.debug k hk i hi hdbg).1
    obtain ⟨inst2, hpaired⟩ := h.counterpart hi hdbg
    exact ⟨i, inst2, hpaired, rfl⟩
  · obtain rfl := List.mem_singleton.mp hdk
    refine absurd (hF.terminators k hk ?_) hty
    rw [h.term.1]
    decide

/-- Two users are more than an instruction that was compared has. -/
theorem Accepted.one_user (h : s.Accepted bb bb2 succ) (hp : Paired s.fn bb bb2 inst1 inst2)
    {x y : Nat × Option (Instr Op)} (hx : x ∈ s.fn.users (.inst inst1.id))
    (hy : y ∈ s.fn.users (.inst inst1.id)) : x = y := by
  have hlen := (h.identical inst1 inst2 hp).users
  generalize s.fn.users (.inst inst1.id) = us at hx hy hlen
  cases us with
  | nil => cases hx
  | cons u us =>
      obtain rfl : us = [] := List.eq_nil_of_length_eq_zero (by
        rw [List.length_cons] at hlen
        omega)
      rw [List.mem_singleton.mp hx, List.mem_singleton.mp hy]

/-- No operand of a compared instruction is defined in either block. -/
theorem Accepted.outside (h : s.Accepted bb bb2 succ) (hF : s.fn.WellFormed)
    (hp : Paired s.fn bb bb2 inst1 inst2) {id : Nat} (hop : .inst id ∈ inst1.operands) :
    id ∉ (s.fn.block bb).defs.map Prod.fst := by
  intro hid
  have hnames : s.fn.Names (.inst id) := by
    refine hF.operands bb h.mem _ (List.mem_append_left _ (List.mem_flatMap.mpr ?_))
    exact ⟨inst1, hp.mem.1, hop⟩
  obtain ⟨d, e, hde, rfl⟩ := h.compared hF hnames hid
  have hx : (bb, some inst1) ∈ s.fn.users (.inst d.id) := mem_users.mpr ⟨h.mem, hp.mem.1, hop⟩
  have hy : (bb2, some inst2) ∈ s.fn.users (.inst d.id) := by
    refine mem_users.mpr ⟨h.mem2, hp.symm.mem.1, ?_⟩
    rw [← (h.identical inst1 inst2 hp).operands]
    exact hop
  have heq := h.one_user hde hx hy
  exact h.ne (congrArg Prod.fst heq)

/-- The user of an instruction that was compared is the PHI node of the
successor, by its entry for the block. -/
theorem Accepted.user (h : s.Accepted bb bb2 succ) (hF : s.fn.WellFormed)
    (hp : Paired s.fn bb bb2 inst1 inst2) {user : Nat × Option (Instr Op)}
    (huser : user ∈ s.fn.users (.inst inst1.id)) : user.1 = succ ∧ ∃ phi, user.2 = some phi ∧
      phi.isPhi = true ∧ phi.getIncomingValueForBlock bb = some (.inst inst1.id) := by
  have hident := h.identical inst1 inst2 hp
  have hone : (s.fn.users (.inst inst1.id)).length = 1 := by
    have hpos := List.length_pos_of_mem huser
    have hle := hident.users
    omega
  obtain ⟨only, heq, honly⟩ := canRemoveInst_true hone (hident.removable hone).1
  rw [heq] at huser
  obtain rfl := List.mem_singleton.mp huser
  have hmem : user ∈ s.fn.users (.inst inst1.id) := heq ▸ List.mem_singleton_self user
  rcases honly with hparent | ⟨phi, hphi, hisPhi, hsucc, hin⟩
  · exfalso
    obtain ⟨k, u⟩ := user
    obtain rfl : k = bb := hparent
    cases u with
    | none =>
        have hop := (mem_users_term.mp hmem).2
        rw [h.term.2] at hop
        cases List.mem_singleton.mp hop
    | some i =>
        obtain ⟨-, hi, hop⟩ := mem_users.mp hmem
        by_cases hdbg : i.isDbgInfoIntrinsic = true
        · have hnot := (hF.debug k h.mem i hi hdbg).2 _ hop
          cases hnot
        · obtain ⟨j, hij⟩ := h.counterpart hi (Bool.eq_false_iff.mpr hdbg)
          exact h.outside hF hij hop (mem_ids.mpr (.inl ⟨inst1, hp.mem.1, rfl⟩))
  · refine ⟨?_, phi, hphi, hisPhi, hin⟩
    have hsuccs : (s.fn.block bb).term.successors = [succ] := h.successors
    rw [hsuccs] at hsucc
    exact Option.some.inj hsucc

/-! ## What the PHI node takes -/

theorem mem_operands_of_incoming (h : i.getIncomingValueForBlock k = some v) :
    v ∈ i.operands := by
  unfold Instr.getIncomingValueForBlock at h
  obtain ⟨p, hp, rfl⟩ := Option.map_eq_some_iff.mp h
  exact (List.of_mem_zip (List.mem_of_find?_eq_some hp)).2

theorem mem_phis (hF : F.WellFormed) (hk : k ∈ F.order) (hi : i ∈ (F.block k).instrs)
    (hphi : i.isPhi = true) : i ∈ (F.block k).phis := by
  rw [← List.takeWhile_append_dropWhile (p := Instr.isPhi) (l := (F.block k).instrs)] at hi
  rcases List.mem_append.mp hi with hi | hi
  · exact hi
  · rw [hF.phis k hk i hi] at hphi
    cases hphi

theorem phis_subset (hi : i ∈ (F.block k).phis) : i ∈ (F.block k).instrs :=
  (List.takeWhile_sublist _).subset hi

/-- Where the PHI node takes an instruction of the block, it takes the
counterpart for the other block. -/
theorem Accepted.takes_counterpart (h : s.Accepted bb bb2 succ) (hF : s.fn.WellFormed)
    {phi : Instr Op} (hphis : (s.fn.block succ).phis = [phi]) {id : Nat}
    (hin : phi.getIncomingValueForBlock bb = some (.inst id))
    (hid : id ∈ (s.fn.block bb).defs.map Prod.fst) {w : Value}
    (hin2 : phi.getIncomingValueForBlock bb2 = some w) :
    ∃ inst1 inst2, Paired s.fn bb bb2 inst1 inst2 ∧ inst1.id = id ∧ w = .inst inst2.id := by
  have hsucc : succ ∈ s.fn.order := by
    refine (hF.successors bb h.mem succ ?_).1
    rw [h.successors]
    exact List.mem_singleton_self _
  have hphi : phi ∈ (s.fn.block succ).instrs := phis_subset (by
    rw [hphis]
    exact List.mem_singleton_self _)
  have hop := mem_operands_of_incoming hin
  have hnames : s.fn.Names (.inst id) :=
    hF.operands succ hsucc _ (List.mem_append_left _ (List.mem_flatMap.mpr ⟨phi, hphi, hop⟩))
  obtain ⟨d, e, hde, rfl⟩ := h.compared hF hnames hid
  refine ⟨d, e, hde, rfl, ?_⟩
  have hpos : 0 < (s.fn.users (.inst e.id)).length := by
    rw [(h.identical d e hde).users2]
    exact List.length_pos_of_mem (mem_users.mpr ⟨hsucc, hphi, hop⟩)
  obtain ⟨user, huser⟩ := List.exists_mem_of_length_pos hpos
  obtain ⟨hblock, phi2, hsome, hisPhi, htakes⟩ := h.symm.user hF hde.symm huser
  have hmem : (succ, some phi2) ∈ s.fn.users (.inst e.id) := by
    rw [← hblock, ← hsome]
    exact huser
  have hphi2 := mem_phis hF hsucc (mem_users.mp hmem).2.1 hisPhi
  rw [hphis, List.mem_singleton] at hphi2
  rw [hphi2, hin2] at htakes
  exact Option.some.inj htakes

/-- The PHI node takes two counterparts, or the same value, defined in neither
block. -/
theorem Accepted.phi_values (h : s.Accepted bb bb2 succ) (hF : s.fn.WellFormed)
    {phi : Instr Op} (hphi : phi ∈ (s.fn.block succ).phis) {inVal1 inVal2 : Value}
    (hin1 : phi.getIncomingValueForBlock bb = some inVal1)
    (hin2 : phi.getIncomingValueForBlock bb2 = some inVal2) :
    (∃ inst1 inst2, Paired s.fn bb bb2 inst1 inst2 ∧ inVal1 = .inst inst1.id ∧
      inVal2 = .inst inst2.id) ∨
    (inVal1 = inVal2 ∧ ∀ id, inVal1 = .inst id → id ∉ (s.fn.block bb).defs.map Prod.fst ∧
      id ∉ (s.fn.block bb2).defs.map Prod.fst) := by
  rcases h.phi with hnone | ⟨phi', v1, v2, hphis, hin1', hin2', hsame⟩
  · rw [hnone] at hphi
    cases hphi
  rw [hphis, List.mem_singleton] at hphi
  subst hphi
  rw [hin1] at hin1'
  rw [hin2] at hin2'
  cases hin1'
  cases hin2'
  by_cases hown : ∃ id, inVal1 = .inst id ∧ id ∈ (s.fn.block bb).defs.map Prod.fst
  · obtain ⟨id, rfl, hid⟩ := hown
    obtain ⟨d, e, hde, rfl, heq⟩ := h.takes_counterpart hF hphis hin1 hid hin2
    exact .inl ⟨d, e, hde, rfl, heq⟩
  by_cases hown2 : ∃ id, inVal2 = .inst id ∧ id ∈ (s.fn.block bb2).defs.map Prod.fst
  · obtain ⟨id, rfl, hid⟩ := hown2
    obtain ⟨e, d, hed, rfl, heq⟩ := h.symm.takes_counterpart hF hphis hin2 hid hin1
    exact .inl ⟨d, e, hed.symm, heq, rfl⟩
  · right
    have heq : inVal1 = inVal2 := by
      refine hsame.resolve_right fun hdefined => hown ?_
      unfold definedIn at hdefined
      cases inVal1 with
      | inst id =>
          refine ⟨id, rfl, ?_⟩
          simpa [List.any_eq_true] using hdefined.1
      | _ => simp at hdefined
    exact ⟨heq, fun id hid => ⟨fun hmem => hown ⟨id, hid, hmem⟩,
      fun hmem => hown2 ⟨id, heq ▸ hid, hmem⟩⟩⟩

end

end State

end LlvmPasses.MergeBB
