import Mathlib.Data.List.Nodup
import Mathlib.Data.List.Pairwise
import LlvmPasses.Ir.Syntax
import LlvmPasses.Lib.Flow

/-!
# Well-formed functions

What the verifier checks of a function that has a body: that every handle is
defined once, that operands name something that has a value, and that control
never comes back to the entry block.
-/

namespace LlvmPasses.Ir

/-- Every operand in the block. -/
def Block.operands (b : Block) : List Value :=
  b.instrs.flatMap Instr.operands ++ b.term.operands

namespace Function

/-- What an operand may be: a result of the function, but not of an instruction
that has none, an argument, or something from outside. -/
def Names (F : Function) : Value → Prop
  | .inst id => ∃ d ∈ F.defs, d.1 = id ∧ d.2 ≠ .void
  | .arg i => i < F.params.length
  | .block k => k ∈ F.order
  | _ => True

instance (F : Function) : (v : Value) → Decidable (F.Names v)
  | .inst id => inferInstanceAs (Decidable (∃ d ∈ F.defs, d.1 = id ∧ d.2 ≠ .void))
  | .arg i => inferInstanceAs (Decidable (i < F.params.length))
  | .block k => inferInstanceAs (Decidable (k ∈ F.order))
  | .constInt _ _ | .constFP _ _ | .constVec _ _ | .global _ | .null | .poison _ => isTrue trivial

/-- The operand is no result of the function. -/
def isInst : Value → Bool
  | .inst _ => true
  | _ => false

structure WellFormed (F : Function) : Prop where
  nonempty : F.order ≠ []
  nodup : F.order.Nodup
  ids_nodup : (F.defs.map Prod.fst).Nodup
  operands : ∀ k ∈ F.order, ∀ v ∈ (F.block k).operands, F.Names v
  successors : ∀ k ∈ F.order, ∀ j ∈ F.successors k, j ∈ F.order ∧ j ≠ F.entry
  /-- The results of other terminators cannot be used. -/
  terminators : ∀ k ∈ F.order, (F.block k).term.op ≠ .invoke → (F.block k).term.ty = .void
  /-- A debug intrinsic describes values through metadata. -/
  debug : ∀ k ∈ F.order, ∀ i ∈ (F.block k).instrs, i.isDbgInfoIntrinsic = true →
    i.ty = .void ∧ ∀ v ∈ i.operands, isInst v = false
  phis : ∀ k ∈ F.order, ∀ i ∈ (F.block k).body, i.isPhi = false
  incoming : ∀ k ∈ F.order, ∀ i ∈ (F.block k).phis, i.incoming.length = i.operands.length

/-- Every PHI node has one entry for each edge that comes to its block. -/
def PhisMatch (F : Function) : Prop :=
  ∀ k ∈ F.order, ∀ phi ∈ (F.block k).phis, ∀ p,
    phi.incoming.count p = if p ∈ F.order then F.edges p k else 0

/-- What an unconditional branch holds is a block. -/
def Branches (F : Function) : Prop :=
  ∀ k ∈ F.order, (F.block k).term.isUnconditionalBr = true →
    ∃ t, (F.block k).term.operands = [.block t]

section

variable {F : Function} {k j id : Nat}

/-- Control can come to the block. -/
abbrev Reachable (F : Function) (k : Nat) : Prop :=
  Flow.Reachable F.entry (Flow.Edge F.successors) k

abbrev StrictlyDominates (F : Function) (a b : Nat) : Prop :=
  Flow.StrictlyDominates F.entry (Flow.Edge F.successors) a b

abbrev Walk (F : Function) (w : List (Nat × Nat)) (k : Nat) : Prop :=
  Flow.Walk F.entry F.successors w k

theorem phisMatch_iff : F.PhisMatch ↔ ∀ k ∈ F.order, ∀ phi ∈ (F.block k).phis,
    (∀ p ∈ phi.incoming, p ∈ F.order) ∧
      ∀ p ∈ F.order, phi.incoming.count p = F.edges p k := by
  refine forall₂_congr fun k _ => forall₂_congr fun phi _ => ?_
  constructor
  · refine fun h => ⟨fun p hp => ?_, fun p hp => (h p).trans (if_pos hp)⟩
    by_contra hout
    have hcount := h p
    rw [if_neg hout, List.count_eq_zero] at hcount
    exact hcount hp
  · rintro ⟨hincoming, hedges⟩ p
    split
    · next hp => exact hedges p hp
    · next hout => exact List.count_eq_zero.mpr fun hp => hout (hincoming p hp)

instance (F : Function) : Decidable F.PhisMatch := decidable_of_iff _ phisMatch_iff.symm

theorem WellFormed.entry_mem (h : F.WellFormed) : F.entry ∈ F.order := by
  unfold entry
  cases ho : F.order with
  | nil => exact absurd ho h.nonempty
  | cons k ks => exact List.mem_cons_self ..

theorem WellFormed.mem_of_path (h : F.WellFormed) {p : List Nat}
    (hp : Flow.Path F.entry (Flow.Edge F.successors) p k) : k ∈ F.order := by
  induction hp with
  | start => exact h.entry_mem
  | snoc _ he ih => exact (h.successors _ ih _ he).1

theorem WellFormed.mem_of_reachable (h : F.WellFormed) (hk : F.Reachable k) : k ∈ F.order := by
  obtain ⟨p, hp⟩ := hk
  exact h.mem_of_path hp

theorem mem_defs {d : Nat × Ty} : d ∈ F.defs ↔ ∃ k ∈ F.order, d ∈ (F.block k).defs := by
  simp only [defs, blocks, List.mem_flatMap, List.mem_map]
  constructor
  · rintro ⟨-, ⟨k, hk, rfl⟩, hd⟩
    exact ⟨k, hk, hd⟩
  · rintro ⟨k, hk, hd⟩
    exact ⟨_, ⟨k, hk, rfl⟩, hd⟩

theorem mem_defs_of_instr (hk : k ∈ F.order) {i : Instr Op} (hi : i ∈ (F.block k).instrs) :
    (i.id, i.ty) ∈ F.defs :=
  mem_defs.mpr ⟨k, hk, List.mem_append_left _ (List.mem_map_of_mem hi)⟩

theorem mem_defs_term (hk : k ∈ F.order) :
    ((F.block k).term.id, (F.block k).term.ty) ∈ F.defs :=
  mem_defs.mpr ⟨k, hk, List.mem_append_right _ (List.mem_singleton_self _)⟩

/-- The handles defined in a block. -/
theorem mem_ids {b : Block} : id ∈ b.defs.map Prod.fst ↔
    (∃ i ∈ b.instrs, i.id = id) ∨ b.term.id = id := by
  simp only [Block.defs, List.map_append, List.map_map, List.mem_append, List.mem_map,
    Function.comp_apply, List.mem_singleton, List.map_cons, List.map_nil, eq_comm]

theorem ids_eq : F.defs.map Prod.fst = F.order.flatMap fun k => (F.block k).defs.map Prod.fst := by
  simp only [defs, blocks, List.flatMap_map, List.map_flatMap]

/-- A handle is defined in one block only. -/
theorem WellFormed.block_unique (h : F.WellFormed) (hk : k ∈ F.order) (hj : j ∈ F.order)
    (hid : id ∈ (F.block k).defs.map Prod.fst) (hid' : id ∈ (F.block j).defs.map Prod.fst) :
    k = j := by
  have hnodup := h.ids_nodup
  rw [ids_eq, List.nodup_flatMap] at hnodup
  by_contra hne
  have : Std.Symm (Function.onFun List.Disjoint fun k => (F.block k).defs.map Prod.fst) :=
    ⟨fun _ _ hd _ hx hy => hd hy hx⟩
  exact hnodup.2.forall hk hj hne hid hid'

/-- Handles are defined once in a block. -/
theorem WellFormed.block_nodup (h : F.WellFormed) (hk : k ∈ F.order) :
    ((F.block k).defs.map Prod.fst).Nodup := by
  have hnodup := h.ids_nodup
  rw [ids_eq, List.nodup_flatMap] at hnodup
  exact hnodup.1 k hk

/-- An instruction is known by its handle. -/
theorem WellFormed.instr_unique (h : F.WellFormed) (hk : k ∈ F.order) (hj : j ∈ F.order)
    {i i' : Instr Op} (hi : i ∈ (F.block k).instrs) (hi' : i' ∈ (F.block j).instrs)
    (hid : i.id = i'.id) : k = j ∧ i = i' := by
  obtain rfl := h.block_unique hk hj (mem_ids.mpr (.inl ⟨i, hi, rfl⟩))
    (mem_ids.mpr (.inl ⟨i', hi', hid.symm⟩))
  have hnodup := h.block_nodup hk
  rw [Block.defs, List.map_append, List.map_map] at hnodup
  exact ⟨rfl, List.inj_on_of_nodup_map hnodup.of_append_left hi hi' hid⟩

theorem WellFormed.id_ne_term (h : F.WellFormed) (hk : k ∈ F.order) {i : Instr Op}
    (hi : i ∈ (F.block k).instrs) : i.id ≠ (F.block k).term.id := by
  have hnodup := h.block_nodup hk
  rw [Block.defs, List.map_append, List.nodup_append] at hnodup
  refine hnodup.2.2 _ ?_ _ (List.mem_singleton_self _)
  rw [List.map_map]
  exact List.mem_map_of_mem hi

theorem typeOf_inst {ty : Ty} (hmem : (id, ty) ∈ F.defs)
    (huniq : ∀ d ∈ F.defs, d.1 = id → d.2 = ty) : F.typeOf (.inst id) = ty := by
  have hfind : F.typeOf (.inst id) =
      ((F.defs.find? fun d => d.1 == id).map Prod.snd).getD .void := rfl
  rw [hfind]
  cases hd : F.defs.find? fun d => d.1 == id with
  | none => simpa using List.find?_eq_none.mp hd _ hmem
  | some d => exact huniq d (List.mem_of_find?_eq_some hd) (by simpa using List.find?_some hd)

end

end Function

end LlvmPasses.Ir
