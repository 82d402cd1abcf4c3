import Mathlib.Data.List.Nodup
import Mathlib.Data.List.Range
import LlvmPasses.Ir.Rename
import LlvmPasses.Lib.Layout
import LlvmPasses.Pass.DuplicateBB

/-!
# The handles of copies

Each instruction of a tail gets two clones and, where it has a result, a PHI
node that replaces it everywhere. The handles are given out in order, so the
table of them (`copies`) is known from the start, and so is the handle by which
an operand names a result: outside the arms a replaced instruction goes by its
PHI node, in an arm by the arm's own clone once there is one. The maps that the
pass remaps clones with say the same.

The module is arithmetic on lists of handles, with no function and no run in
it. The lemmas come in three groups. Appending one copy to a table changes one
name and no other (`phiName_append`, `armName_append` and their variants for an
instruction without result); this is what the loop of a round needs. A map that
the pass remaps with agrees with the table (`ArmMap`), which is kept by the
insertions of the loop. And tables of different rounds do not interfere: where
one has new handles that the other knows nothing of (`Separate`), naming by one
and then by the other is naming by both together, in whichever order. The last
group is what makes the order of the targets harmless.
-/

namespace LlvmPasses.DuplicateBB

open Ir

/-! ## The table -/

/-- An instruction of a tail with the handles of its clones and of its PHI node. -/
structure Copy where
  old : Instr Op
  thenId : Nat
  elseId : Nat
  phiId : Option Nat

def Copy.make (n : Nat) (i : Instr Op) : Copy where
  old := i
  thenId := n
  elseId := n + 1
  phiId := if i.ty.isVoidTy then none else some (n + 2)

/-- How many handles an instruction takes. -/
def handles (i : Instr Op) : Nat := if i.ty.isVoidTy then 2 else 3

def copies : Nat → List (Instr Op) → List Copy
  | _, [] => []
  | n, i :: is => Copy.make n i :: copies (n + handles i) is

def used (is : List (Instr Op)) : Nat := (is.map handles).sum

/-- The handles of a copy, in the order they are given out. -/
def Copy.ids (c : Copy) : List Nat := [c.thenId, c.elseId] ++ c.phiId.toList

section Copies

variable {n : Nat} {i : Instr Op} {is js : List (Instr Op)} {c : Copy}

theorem copies_append : copies n (is ++ js) = copies n is ++ copies (n + used is) js := by
  induction is generalizing n with
  | nil => rfl
  | cons i is ih =>
      simp only [List.cons_append, copies, ih, used, List.map_cons, List.sum_cons]
      rw [Nat.add_assoc]

theorem map_old_copies : (copies n is).map Copy.old = is := by
  induction is generalizing n with
  | nil => rfl
  | cons i is ih => simp [copies, ih, Copy.make]

theorem length_copies : (copies n is).length = is.length := by
  rw [← List.length_map Copy.old, map_old_copies]

theorem old_mem (hc : c ∈ copies n is) : c.old ∈ is := by
  have hmem := List.mem_map_of_mem (f := Copy.old) hc
  rwa [map_old_copies] at hmem

theorem ids_make : (Copy.make n i).ids = List.range' n (handles i) := by
  unfold Copy.ids Copy.make handles
  split <;> rfl

theorem ids_copies : (copies n is).flatMap Copy.ids = List.range' n (used is) := by
  induction is generalizing n with
  | nil => rfl
  | cons i is ih =>
      simp only [copies, List.flatMap_cons, ih, ids_make, used, List.map_cons, List.sum_cons]
      exact List.range'_append_1

/-- The handles are new. -/
theorem mem_ids_copies {id : Nat} (hc : c ∈ copies n is) (hid : id ∈ c.ids) :
    n ≤ id ∧ id < n + used is := by
  have hmem : id ∈ (copies n is).flatMap Copy.ids := List.mem_flatMap.mpr ⟨c, hc, hid⟩
  rw [ids_copies, List.mem_range'_1] at hmem
  exact hmem

theorem thenId_mem (c : Copy) : c.thenId ∈ c.ids := by simp [Copy.ids]

theorem elseId_mem (c : Copy) : c.elseId ∈ c.ids := by simp [Copy.ids]

theorem phiId_mem {id : Nat} (h : c.phiId = some id) : id ∈ c.ids := by simp [Copy.ids, h]

theorem phiId_eq_none (hc : c ∈ copies n is) : c.phiId = none ↔ c.old.ty.isVoidTy = true := by
  induction is generalizing n with
  | nil => cases hc
  | cons i is ih =>
      rcases List.mem_cons.mp hc with rfl | hc
      · simp [Copy.make]
      · exact ih hc

end Copies

/-! ## Names -/

/-- The copy of the instruction of a handle. -/
def findCopy (cs : List Copy) (id : Nat) : Option Copy := cs.find? fun c => c.old.id == id

/-- The PHI node that has replaced an instruction. -/
def phiOf (cs : List Copy) (id : Nat) : Option Nat := (findCopy cs id).bind Copy.phiId

/-- The handle by which operands outside the arms name a result. -/
def phiName (cs : List Copy) (id : Nat) : Nat := (phiOf cs id).getD id

/-- The handle by which a clone names a result, given the copies made before it. -/
def armName (arm : Copy → Nat) (before cs : List Copy) (id : Nat) : Nat :=
  match findCopy before id with
  | some c => arm c
  | none => phiName cs id

abbrev toPhi (cs : List Copy) : Value → Value := Value.rename (phiName cs)

abbrev toArm (arm : Copy → Nat) (before cs : List Copy) : Value → Value :=
  Value.rename (armName arm before cs)

/-- The value is no result from `n` on. -/
def Below (n : Nat) : Value → Prop
  | .inst id => id < n
  | _ => True

section Names

variable {cs before : List Copy} {c : Copy} {id phiId : Nat} {v : Value} {arm : Copy → Nat}

/-- One more copy. -/
theorem findCopy_append (hc : findCopy cs c.old.id = none) (id : Nat) :
    findCopy (cs ++ [c]) id = if id = c.old.id then some c else findCopy cs id := by
  unfold findCopy at *
  rw [List.find?_append, List.find?_singleton]
  by_cases heq : id = c.old.id
  · rw [if_pos heq, heq, hc]
    simp
  · have hne : (c.old.id == id) = false := by simpa using fun h => heq h.symm
    rw [if_neg heq, hne]
    simp

theorem findCopy_some {d : Copy} (h : findCopy cs id = some d) : d ∈ cs ∧ d.old.id = id :=
  ⟨List.mem_of_find?_eq_some h, by simpa using List.find?_some h⟩

theorem findCopy_eq_none : findCopy cs id = none ↔ ∀ c ∈ cs, c.old.id ≠ id := by
  simp [findCopy]

theorem phiOf_some (h : phiOf cs id = some phiId) :
    ∃ c ∈ cs, c.old.id = id ∧ c.phiId = some phiId := by
  obtain ⟨c, hc, hphi⟩ := Option.bind_eq_some_iff.mp h
  obtain ⟨hmem, hid⟩ := findCopy_some hc
  exact ⟨c, hmem, hid, hphi⟩

theorem phiName_of_none (h : findCopy cs id = none) : phiName cs id = id := by
  unfold phiName phiOf
  rw [h]
  rfl

theorem phiName_of_some {d : Copy} (h : findCopy cs id = some d) :
    phiName cs id = d.phiId.getD id := by
  unfold phiName phiOf
  rw [h]
  rfl

theorem armName_of_none (h : findCopy before id = none) :
    armName arm before cs id = phiName cs id := by
  simp only [armName, h]

theorem armName_of_some {d : Copy} (h : findCopy before id = some d) :
    armName arm before cs id = arm d := by
  simp only [armName, h]

theorem phiOf_append (hc : findCopy cs c.old.id = none) (id : Nat) :
    phiOf (cs ++ [c]) id = if id = c.old.id then c.phiId else phiOf cs id := by
  unfold phiOf
  rw [findCopy_append hc]
  split <;> rfl

theorem phiOf_append_void (hc : findCopy cs c.old.id = none) (hphi : c.phiId = none) :
    phiOf (cs ++ [c]) = phiOf cs := by
  funext id
  rw [phiOf_append hc]
  split
  · next heq =>
      rw [heq, hphi]
      unfold phiOf
      rw [hc]
      rfl
  · rfl

theorem phiName_append_void (hc : findCopy cs c.old.id = none) (hphi : c.phiId = none) :
    phiName (cs ++ [c]) = phiName cs := by
  funext id
  unfold phiName
  rw [phiOf_append_void hc hphi]

theorem armName_append_void (hc : findCopy cs c.old.id = none) (hphi : c.phiId = none) :
    armName arm before (cs ++ [c]) = armName arm before cs := by
  funext id
  unfold armName
  rw [phiName_append_void hc hphi]

/-- Nothing else goes by a handle that no copy has. -/
theorem phiName_ne {j : Nat} (hid : ∀ d ∈ cs, j ∉ d.ids) (hne : id ≠ j) : phiName cs id ≠ j := by
  unfold phiName
  cases hphi : phiOf cs id with
  | none => exact hne
  | some p =>
      obtain ⟨c, hc, -, hcphi⟩ := phiOf_some hphi
      intro heq
      exact hid c hc (heq ▸ phiId_mem hcphi)

section Fresh

variable (hc : findCopy cs c.old.id = none) (hphi : c.phiId = some phiId)
variable (hfresh : ∀ d ∈ cs, c.old.id ∉ d.ids)

include hc hphi hfresh

/-- Replacing one more instruction by its PHI node. -/
theorem phiName_append (id : Nat) : phiName (cs ++ [c]) id =
    if phiName cs id = c.old.id then phiId else phiName cs id := by
  by_cases heq : id = c.old.id
  · have hself : phiName cs id = c.old.id := by rw [heq, phiName_of_none hc]
    rw [if_pos hself]
    unfold phiName
    rw [phiOf_append hc, if_pos heq, hphi]
    rfl
  · rw [if_neg (phiName_ne hfresh heq)]
    unfold phiName
    rw [phiOf_append hc, if_neg heq]

theorem armName_append (hbefore : ∀ d ∈ before, d ∈ cs) (harm : ∀ d ∈ cs, arm d ∈ d.ids)
    (id : Nat) : armName arm before (cs ++ [c]) id =
      if armName arm before cs id = c.old.id then phiId else armName arm before cs id := by
  cases hf : findCopy before id with
  | none =>
      rw [armName_of_none hf, armName_of_none hf]
      exact phiName_append hc hphi hfresh id
  | some d =>
      obtain ⟨hd, -⟩ := findCopy_some hf
      rw [armName_of_some hf, armName_of_some hf, if_neg]
      intro heq
      exact hfresh d (hbefore d hd) (heq ▸ harm d (hbefore d hd))

end Fresh

/-- What replacing uses does to names. -/
theorem rename_replace {ρ ρ' : Nat → Nat} {old new : Nat}
    (h : ∀ id, ρ' id = if ρ id = old then new else ρ id) (v : Value) :
    v.rename ρ' = if v.rename ρ = .inst old then .inst new else v.rename ρ := by
  cases v with
  | inst id =>
      simp only [Value.rename, h, Value.inst.injEq]
      split <;> rfl
  | _ => simp [Value.rename]

end Names

/-! ## Maps -/

/-- The clone that an operand names in an arm, if there is one. -/
def cloneOf (arm : Copy → Nat) (cs : List Copy) : Value → Option Value
  | .inst id => (findCopy cs id).map fun c => .inst (arm c)
  | _ => none

/-- An arm's map finds the clones by what now stands for the instructions, and
knows nothing of handles from `next` on. -/
structure ArmMap (arm : Copy → Nat) (cs : List Copy) (n next : Nat) (m : ValueMap) :
    Prop where
  old : ∀ v, Below n v → m (toPhi cs v) = cloneOf arm cs v
  new : ∀ id, next ≤ id → m (.inst id) = none

/-- The copies made so far are of handles between `n` and `next`, and the
instruction at hand is from before and has not been copied. -/
structure Fresh (cs : List Copy) (n next : Nat) (c : Copy) : Prop where
  ids : ∀ d ∈ cs, ∀ id ∈ d.ids, n ≤ id ∧ id < next
  le : n ≤ next
  old : c.old.id < n
  first : findCopy cs c.old.id = none

section Maps

variable {arm : Copy → Nat} {cs : List Copy} {c : Copy} {n next next' : Nat} {m : ValueMap}
variable {v : Value}

theorem getD_armMap (h : ArmMap arm cs n next m) (hv : Below n v) :
    (m (toPhi cs v)).getD (toPhi cs v) = toArm arm cs cs v := by
  rw [h.old v hv]
  cases v with
  | inst id =>
      cases hf : findCopy cs id with
      | none => simp [cloneOf, Value.rename, hf, armName_of_none hf]
      | some d => simp [cloneOf, Value.rename, hf, armName_of_some hf]
  | _ => rfl

theorem cloneOf_append (hc : findCopy cs c.old.id = none) (v : Value) :
    cloneOf arm (cs ++ [c]) v =
      if v = .inst c.old.id then some (.inst (arm c)) else cloneOf arm cs v := by
  cases v with
  | inst id =>
      simp only [cloneOf, findCopy_append hc, Value.inst.injEq]
      split <;> rfl
  | _ => rfl

theorem Fresh.not_mem (h : Fresh cs n next c) : ∀ d ∈ cs, c.old.id ∉ d.ids := by
  intro d hd hmem
  have hlt := (h.ids d hd _ hmem).1
  have hold := h.old
  omega

theorem Fresh.toPhi_self (h : Fresh cs n next c) :
    toPhi cs (.inst c.old.id) = .inst c.old.id := by
  simp only [Value.rename, phiName_of_none h.first]

theorem Fresh.toPhi_ne (h : Fresh cs n next c) (hne : v ≠ .inst c.old.id) :
    toPhi cs v ≠ .inst c.old.id := by
  cases v with
  | inst id =>
      intro heq
      exact phiName_ne h.not_mem (fun hid => hne (congrArg _ hid)) (Value.inst.inj heq)
  | _ => exact nofun

/-- The map after the copy of an instruction without result. -/
theorem ArmMap.void (h : ArmMap arm cs n next m) (hf : Fresh cs n next c)
    (hphi : c.phiId = none) (hnext : next ≤ next') :
    ArmMap arm (cs ++ [c]) n next' (m.insert (.inst c.old.id) (.inst (arm c))) where
  old := fun v hv => by
    unfold toPhi
    rw [phiName_append_void hf.first hphi, cloneOf_append hf.first]
    unfold ValueMap.insert
    by_cases hveq : v = .inst c.old.id
    · rw [if_pos hveq, hveq, if_pos hf.toPhi_self]
    · rw [if_neg hveq, if_neg (hf.toPhi_ne hveq), h.old v hv]
  new := fun id hid => by
    have hold := hf.old
    have hle := hf.le
    have hne : id ≠ c.old.id := by omega
    unfold ValueMap.insert
    rw [if_neg fun heq => hne (Value.inst.inj heq), h.new id (by omega)]

/-- The map after the copy of an instruction that a PHI node has replaced. -/
theorem ArmMap.phi (h : ArmMap arm cs n next m) (hf : Fresh cs n next c)
    (harm : ∀ d ∈ cs, arm d ∈ d.ids) {phiId : Nat} (hphi : c.phiId = some phiId)
    (hc : next ≤ arm c) (hphiId : next ≤ phiId) (hnext : phiId < next') :
    ArmMap arm (cs ++ [c]) n next'
      ((m.insert (.inst c.old.id) (.inst (arm c))).followReplacement
        (.inst c.old.id) (.inst phiId)) := by
  have hold := hf.old
  have hle := hf.le
  have hinst : ∀ {a b : Nat}, a ≠ b → ¬ Value.inst a = .inst b :=
    fun hne heq => hne (Value.inst.inj heq)
  have hnew : ¬ Value.inst phiId = .inst c.old.id := hinst (by omega)
  constructor
  · intro v hv
    have hphis : toPhi (cs ++ [c]) v = if toPhi cs v = .inst c.old.id then .inst phiId
        else toPhi cs v := rename_replace (phiName_append hf.first hphi hf.not_mem) v
    rw [hphis, cloneOf_append hf.first]
    unfold ValueMap.followReplacement
    by_cases hveq : v = .inst c.old.id
    · have hclone : ¬ Value.inst (arm c) = .inst c.old.id := hinst (by omega)
      rw [if_pos hveq, hveq, if_pos hf.toPhi_self]
      simp only [ValueMap.insert, if_neg hnew, if_pos, h.new phiId hphiId, Option.none_or,
        Option.map_some, if_neg hclone]
    · have hw := hf.toPhi_ne hveq
      have hwphi : ¬ toPhi cs v = .inst phiId := by
        cases v with
        | inst id =>
            have hlt : id < n := hv
            refine hinst (phiName_ne (fun d hd hmem => ?_) (by omega))
            have hbound := (hf.ids d hd _ hmem).2
            omega
        | _ => exact nofun
      rw [if_neg hveq, if_neg hw]
      simp only [ValueMap.insert, if_neg hw, if_neg hwphi, h.old v hv]
      cases hclone : cloneOf arm cs v with
      | none => rfl
      | some w =>
          cases v with
          | inst id =>
              obtain ⟨d, hd, rfl⟩ := Option.map_eq_some_iff.mp hclone
              have hmem := (findCopy_some hd).1
              have hne : ¬ Value.inst (arm d) = .inst c.old.id := hinst fun heq =>
                hf.not_mem d hmem (heq ▸ harm d hmem)
              simp only [Option.map_some, if_neg hne]
          | _ => cases hclone
  · intro id hid
    have hne : ¬ Value.inst id = .inst c.old.id := hinst (by omega)
    have hne' : ¬ Value.inst id = .inst phiId := hinst (by omega)
    unfold ValueMap.followReplacement
    simp only [ValueMap.insert, if_neg hne, if_neg hne', h.new id (by omega), Option.map_none]

end Maps

/-! ## Several tables -/

/-- The instructions copied are old, the copies new. -/
structure Separate (n : Nat) (cs : List Copy) : Prop where
  old : ∀ c ∈ cs, c.old.id < n
  new : ∀ c ∈ cs, ∀ id ∈ c.ids, n ≤ id
  nodup : (cs.map fun c => c.old.id).Nodup

def Copy.mapOld (f : Value → Value) (c : Copy) : Copy := { c with old := c.old.mapOperands f }

section Tables

variable {cs cs' before rest : List Copy} {arm : Copy → Nat} {f : Value → Value}
variable {is : List (Instr Op)} {n id : Nat} {v : Value} {c : Copy}

theorem copies_mapOperands : copies n (is.map (Instr.mapOperands f)) =
    (copies n is).map (Copy.mapOld f) := by
  induction is generalizing n with
  | nil => rfl
  | cons i is ih =>
      have hhandles : handles (i.mapOperands f) = handles i := rfl
      simp only [List.map_cons, copies, hhandles, ih]
      rfl

theorem used_mapOperands : used (is.map (Instr.mapOperands f)) = used is := by
  unfold used
  rw [List.map_map]
  rfl

theorem findCopy_mapOld (id : Nat) : findCopy (cs.map (Copy.mapOld f)) id =
    (findCopy cs id).map (Copy.mapOld f) :=
  @Table.lookup_map _ _ (fun c : Copy => c.old.id) cs id _ _ _ _ (fun c : Copy => c.old.id)
    (Copy.mapOld f) (fun id => id) (fun _ _ => rfl) (fun _ _ h => h)

theorem phiOf_mapOld : phiOf (cs.map (Copy.mapOld f)) = phiOf cs := by
  funext id
  unfold phiOf
  rw [findCopy_mapOld]
  cases findCopy cs id <;> rfl

theorem phiName_mapOld : phiName (cs.map (Copy.mapOld f)) = phiName cs := by
  unfold phiName
  rw [phiOf_mapOld]

theorem armName_mapOld (harm : ∀ c, arm (c.mapOld f) = arm c) :
    armName arm (before.map (Copy.mapOld f)) (cs.map (Copy.mapOld f)) =
      armName arm before cs := by
  funext id
  unfold armName
  rw [findCopy_mapOld, phiName_mapOld]
  cases findCopy before id with
  | none => rfl
  | some c => exact harm c

theorem Separate.findCopy_none (h : Separate n cs) (hid : n ≤ id) : findCopy cs id = none := by
  refine findCopy_eq_none.mpr fun c hc heq => ?_
  have hlt := h.old c hc
  omega

theorem Separate.left (h : Separate n (cs ++ cs')) : Separate n cs where
  old := fun c hc => h.old c (List.mem_append_left _ hc)
  new := fun c hc => h.new c (List.mem_append_left _ hc)
  nodup := by
    have hnodup := h.nodup
    rw [List.map_append] at hnodup
    exact hnodup.of_append_left

theorem Separate.right (h : Separate n (cs ++ cs')) : Separate n cs' where
  old := fun c hc => h.old c (List.mem_append_right _ hc)
  new := fun c hc => h.new c (List.mem_append_right _ hc)
  nodup := by
    have hnodup := h.nodup
    rw [List.map_append] at hnodup
    exact hnodup.of_append_right

/-- What one table has, the other has not. -/
theorem Separate.only_left (h : Separate n (cs ++ cs')) (hc : findCopy cs id = some c) :
    findCopy cs' id = none := by
  obtain ⟨hmem, rfl⟩ := findCopy_some hc
  have hnodup := h.nodup
  rw [List.map_append, List.nodup_append] at hnodup
  exact findCopy_eq_none.mpr fun d hd heq => hnodup.2.2 _ (List.mem_map_of_mem hmem) _
    (List.mem_map_of_mem hd) heq.symm

theorem findCopy_of_append (hc : findCopy cs id = none) :
    findCopy (cs ++ cs') id = findCopy cs' id := by
  have happend := @Table.lookup_append _ _ (fun c : Copy => c.old.id) cs cs' _ id
  have hnone : Table.lookup (fun c : Copy => c.old.id) cs id = none := hc
  rw [hnone, Option.none_or] at happend
  exact happend

theorem findCopy_of_append_some (hc : findCopy cs id = some c) :
    findCopy (cs ++ cs') id = some c := by
  have happend := @Table.lookup_append _ _ (fun c : Copy => c.old.id) cs cs' _ id
  have hsome : Table.lookup (fun c : Copy => c.old.id) cs id = some c := hc
  rw [hsome, Option.some_or] at happend
  exact happend

theorem phiName_append_none (hc : findCopy cs id = none) :
    phiName (cs ++ cs') id = phiName cs' id := by
  unfold phiName phiOf
  rw [findCopy_of_append hc]

/-- The copies of one round, and then those of later ones. -/
theorem Separate.phiName_phiName (h : Separate n (cs ++ cs')) (id : Nat) :
    phiName cs' (phiName cs id) = phiName (cs ++ cs') id := by
  cases hc : findCopy cs id with
  | none => rw [phiName_of_none hc, phiName_append_none hc]
  | some c =>
      rw [phiName_of_some hc, phiName_of_some (findCopy_of_append_some hc)]
      cases hphi : c.phiId with
      | none => exact phiName_of_none (h.only_left hc)
      | some p =>
          have hnew := h.left.new c (findCopy_some hc).1 p (phiId_mem hphi)
          exact phiName_of_none (h.right.findCopy_none hnew)

theorem Separate.armName_phiName (h : Separate n (cs ++ cs')) (hbefore : ∀ d ∈ before, d ∈ cs')
    (id : Nat) : armName arm before cs' (phiName cs id) = armName arm before (cs ++ cs') id := by
  have hsub : ∀ x, findCopy cs' x = none → findCopy before x = none := fun x hnone =>
    findCopy_eq_none.mpr fun d hd => findCopy_eq_none.mp hnone d (hbefore d hd)
  cases hb : findCopy before id with
  | some d =>
      have hc : findCopy cs id = none := by
        cases hc : findCopy cs id with
        | none => rfl
        | some c =>
            rw [hsub id (h.only_left hc)] at hb
            cases hb
      rw [phiName_of_none hc, armName_of_some hb, armName_of_some hb]
  | none =>
      have hphi : findCopy before (phiName cs id) = none := by
        cases hc : findCopy cs id with
        | none => rwa [phiName_of_none hc]
        | some c =>
            rw [phiName_of_some hc]
            cases hphi : c.phiId with
            | none => exact hb
            | some p =>
                have hp := h.left.new c (findCopy_some hc).1 p (phiId_mem hphi)
                exact hsub p (h.right.findCopy_none hp)
      rw [armName_of_none hphi, armName_of_none hb, h.phiName_phiName]

theorem Separate.phiName_armName (h : Separate n (cs ++ cs')) (hbefore : ∀ d ∈ before, d ∈ cs)
    (harm : ∀ d ∈ cs, arm d ∈ d.ids) (id : Nat) :
    phiName cs' (armName arm before cs id) = armName arm before (cs ++ cs') id := by
  cases hb : findCopy before id with
  | none => rw [armName_of_none hb, armName_of_none hb, h.phiName_phiName]
  | some d =>
      have hd := hbefore d (findCopy_some hb).1
      rw [armName_of_some hb, armName_of_some hb]
      exact phiName_of_none (h.right.findCopy_none (h.left.new d hd _ (harm d hd)))

end Tables

end LlvmPasses.DuplicateBB
