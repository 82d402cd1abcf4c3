import Mathlib.Data.List.ProdSigma
import LlvmPasses.Ir.Relabel
import LlvmPasses.Ir.WellFormed
import LlvmPasses.Lib.Layout
import LlvmPasses.Proofs.DuplicateForm

/-!
# What the pass leaves

The function after any number of rounds in closed form (`form`). A round is
known by its block, its check value and the first handles it takes, and nothing
else about the rounds before it matters: what an operand goes by in the end is
found in the table of all copies, whichever were made first.

The definitions come first, as they are what later modules are about:
`partBlock` has the four blocks of a diamond (the head with the test, two arms,
the tail), `plainBlock` a block that is left whole, and `form` the function.
They depend on the list of rounds only through lookups by block and by handle,
so they are as good for any order of the rounds. `Planned` says what a list of
rounds has to satisfy for this to make sense: blocks of the function, each
once, and ranges of handles that do not overlap.

The lemmas after them are of two kinds. Names of several rounds compose, as the
clones of one round are renamed by the PHI nodes of the others. And the parts
of different rounds are different blocks, which is shown by an offset for each
part within its round's range.
-/

namespace LlvmPasses.DuplicateBB

open Ir Ir.Function Table

/-! ## Rounds -/

/-- One round of the pass: the entry of the map, and the first handles taken. -/
structure Round where
  bb : Nat
  checkValue : Value
  block : Nat
  inst : Nat

/-- The four blocks that a round leaves in the place of one. -/
inductive Part where
  | head
  | thenArm
  | elseArm
  | tail
  deriving DecidableEq

def Round.handle (r : Round) : Part → Nat
  | .head => r.bb
  | .tail => r.block
  | .thenArm => r.block + 1
  | .elseArm => r.block + 2

def parts (rs : List Round) : List (Round × Part) :=
  rs.product [.head, .thenArm, .elseArm, .tail]

/-- The round of a block, and the part that the block is. -/
def partAt (rs : List Round) (j : Nat) : Option (Round × Part) :=
  lookup (fun p => p.1.handle p.2) (parts rs) j

def roundAt (rs : List Round) (k : Nat) : Option Round := lookup Round.bb rs k

section Form

variable (F : Function)

/-- How many handles for instructions a round takes. -/
def needs (k : Nat) : Nat := 4 + used (F.block k).body

def copiesOf (r : Round) : List Copy := copies (r.inst + 4) (F.block r.bb).body

def allCopies (rs : List Round) : List Copy := rs.flatMap (copiesOf F)

/-- The block from which control comes to `j` where it came from `p`. -/
def tailOf (rs : List Round) (j p : Nat) : Nat :=
  match roundAt rs p with
  | some r => if j ∈ F.successors p then r.block else p
  | none => p

/-- A PHI node of the block `j`. -/
def headPhi (rs : List Round) (j : Nat) (i : Instr Op) : Instr Op :=
  { i.mapOperands (toPhi (allCopies F rs)) with incoming := i.incoming.map (tailOf F rs j) }

/-- The branches that a round makes. -/
def branch (r : Round) (n : Nat) (dests : List Value) : Instr TermOp :=
  ⟨r.inst + n, .void, .br, dests, [], {}⟩

def partBlock (rs : List Round) (r : Round) : Part → Block
  | .head =>
      ⟨(F.block r.bb).phis.map (headPhi F rs r.bb) ++
          [(test F r.inst r.checkValue).mapOperands (toPhi (allCopies F rs))],
        branch r 1 [.inst r.inst, .block (r.block + 2), .block (r.block + 1)]⟩
  | .thenArm =>
      ⟨clones Copy.thenId (allCopies F rs) [] (copiesOf F r), branch r 2 [.block r.block]⟩
  | .elseArm =>
      ⟨clones Copy.elseId (allCopies F rs) [] (copiesOf F r), branch r 3 [.block r.block]⟩
  | .tail =>
      ⟨(copiesOf F r).filterMap (merge (r.block + 1) (r.block + 2)),
        (F.block r.bb).term.mapOperands (toPhi (allCopies F rs))⟩

/-- A block that no round has split. -/
def plainBlock (rs : List Round) (j : Nat) : Block :=
  ⟨(F.block j).phis.map (headPhi F rs j) ++
      (F.block j).body.map (Instr.mapOperands (toPhi (allCopies F rs))),
    (F.block j).term.mapOperands (toPhi (allCopies F rs))⟩

/-- The blocks in the place of one. -/
def placeOf (rs : List Round) (k : Nat) : List Nat :=
  match roundAt rs k with
  | some r => [k, r.block + 1, r.block + 2, r.block]
  | none => [k]

/-- The function after the rounds. -/
def form (rs : List Round) : Function :=
  { F with
    order := F.order.flatMap (placeOf rs)
    block := fun j => match partAt rs j with
      | some (r, p) => partBlock F rs r p
      | none => plainBlock F rs j
    nextBlock := F.nextBlock + 3 * rs.length
    nextInst := F.nextInst + (rs.map fun r => needs F r.bb).sum }

/-- Every handle in the function has been given out. -/
structure Issued : Prop where
  blocks : ∀ k ∈ F.order, k < F.nextBlock
  insts : ∀ d ∈ F.defs, d.1 < F.nextInst
  incoming : ∀ k ∈ F.order, ∀ p ∈ (F.block k).incoming, p < F.nextBlock

/-- Rounds that have taken handles of their own for blocks of the function. -/
structure Planned (rs : List Round) : Prop where
  nodup : (rs.map Round.bb).Nodup
  mem : ∀ r ∈ rs, r.bb ∈ F.order
  block : ∀ r ∈ rs, F.nextBlock ≤ r.block
  block_inj : ∀ r ∈ rs, ∀ r' ∈ rs, ∀ i < 3, ∀ i' < 3, r.block + i = r'.block + i' →
    r = r' ∧ i = i'
  inst : ∀ r ∈ rs, F.nextInst ≤ r.inst
  inst_inj : ∀ r ∈ rs, ∀ r' ∈ rs, ∀ o < needs F r.bb, ∀ o' < needs F r'.bb,
    r.inst + o = r'.inst + o' → r = r' ∧ o = o'
  names : ∀ r ∈ rs, F.Names r.checkValue

end Form

/-! ## Operands -/

section Operands

variable {ω : Type} {n : Nat} {all cs cs' before rest : List Copy} {arm : Copy → Nat}

theorem mapOperands_mapOperands (f g : Value → Value) (i : Instr ω) :
    (i.mapOperands f).mapOperands g = i.mapOperands fun v => g (f v) := by
  unfold Instr.mapOperands
  rw [List.map_map]
  rfl

theorem Separate.toPhi_toPhi (h : Separate n (cs ++ cs')) (v : Value) :
    toPhi cs' (toPhi cs v) = toPhi (cs ++ cs') v := by
  cases v with
  | inst id => exact congrArg Value.inst (h.phiName_phiName id)
  | _ => rfl

theorem Separate.toArm_toPhi (h : Separate n (cs ++ cs')) (hbefore : ∀ d ∈ before, d ∈ cs')
    (v : Value) : toArm arm before cs' (toPhi cs v) = toArm arm before (cs ++ cs') v := by
  cases v with
  | inst id => exact congrArg Value.inst (h.armName_phiName hbefore id)
  | _ => rfl

theorem Separate.toPhi_toArm (h : Separate n (cs ++ cs')) (hbefore : ∀ d ∈ before, d ∈ cs)
    (harm : ∀ d ∈ cs, arm d ∈ d.ids) (v : Value) :
    toPhi cs' (toArm arm before cs v) = toArm arm before (cs ++ cs') v := by
  cases v with
  | inst id => exact congrArg Value.inst (h.phiName_armName hbefore harm id)
  | _ => rfl

theorem Separate.toPhi_mapOperands (h : Separate n (cs ++ cs')) (i : Instr ω) :
    (i.mapOperands (toPhi cs)).mapOperands (toPhi cs') = i.mapOperands (toPhi (cs ++ cs')) := by
  rw [mapOperands_mapOperands]
  exact mapOperands_congr fun v _ => h.toPhi_toPhi v

theorem forall_mem_snoc {c : Copy} (hbefore : ∀ d ∈ before, d ∈ cs) (hc : c ∈ cs) :
    ∀ d ∈ before ++ [c], d ∈ cs := by
  intro d hd
  rcases List.mem_append.mp hd with hd | hd
  · exact hbefore d hd
  · exact List.mem_singleton.mp hd ▸ hc

/-- The clones of instructions that went by the names of earlier rounds. -/
theorem clones_mapOld (h : Separate n (all ++ cs))
    (harm : ∀ c f, arm (c.mapOld f) = arm c) (hbefore : ∀ d ∈ before, d ∈ cs)
    (hrest : ∀ d ∈ rest, d ∈ cs) :
    clones arm (cs.map (Copy.mapOld (toPhi all))) (before.map (Copy.mapOld (toPhi all)))
      (rest.map (Copy.mapOld (toPhi all))) = clones arm (all ++ cs) before rest := by
  induction rest generalizing before with
  | nil => rfl
  | cons c rest ih =>
      obtain ⟨hc, hrest⟩ := List.forall_mem_cons.mp hrest
      have hclone : (c.old.mapOperands (toPhi all)).mapOperands (toArm arm
          (before.map (Copy.mapOld (toPhi all))) (cs.map (Copy.mapOld (toPhi all)))) =
          c.old.mapOperands (toArm arm before (all ++ cs)) := by
        rw [toArm, armName_mapOld fun c => harm c _, mapOperands_mapOperands]
        exact mapOperands_congr fun v _ => h.toArm_toPhi hbefore v
      have htail := ih (forall_mem_snoc hbefore hc) hrest
      rw [List.map_append, List.map_singleton] at htail
      rw [List.map_cons, clones, clones, htail, harm]
      exact congrArg (fun i : Instr Op => { i with id := arm c } :: _) hclone

/-- The clones of a round go by the names of later ones. -/
theorem clones_mapOperands (h : Separate n (cs ++ cs')) (harm : ∀ d ∈ cs, arm d ∈ d.ids)
    (hbefore : ∀ d ∈ before, d ∈ cs) (hrest : ∀ d ∈ rest, d ∈ cs) :
    (clones arm cs before rest).map (Instr.mapOperands (toPhi cs')) =
      clones arm (cs ++ cs') before rest := by
  induction rest generalizing before with
  | nil => rfl
  | cons c rest ih =>
      obtain ⟨hc, hrest⟩ := List.forall_mem_cons.mp hrest
      have hclone : (c.old.mapOperands (toArm arm before cs)).mapOperands (toPhi cs') =
          c.old.mapOperands (toArm arm before (cs ++ cs')) := by
        rw [mapOperands_mapOperands]
        exact mapOperands_congr fun v _ => h.toPhi_toArm hbefore harm v
      rw [clones, clones, List.map_cons, ih (forall_mem_snoc hbefore hc) hrest]
      exact congrArg (fun i : Instr Op => { i with id := arm c } :: _) hclone

theorem filterMap_merge_mapOld (f : Value → Value) (thenBlock elseBlock : Nat) :
    (cs.map (Copy.mapOld f)).filterMap (merge thenBlock elseBlock) =
      cs.filterMap (merge thenBlock elseBlock) := by
  rw [List.filterMap_map]
  rfl

/-- The operands of a merging PHI node are clones, which nothing replaces. -/
theorem Separate.filterMap_merge (h : Separate n (cs ++ cs')) (thenBlock elseBlock : Nat)
    (hrest : ∀ c ∈ rest, c ∈ cs) :
    (rest.filterMap (merge thenBlock elseBlock)).map (Instr.mapOperands (toPhi cs')) =
      rest.filterMap (merge thenBlock elseBlock) := by
  have hself : ∀ c ∈ rest, (merge thenBlock elseBlock c).map (Instr.mapOperands (toPhi cs')) =
      merge thenBlock elseBlock c := by
    intro c hc
    have hname : ∀ id ∈ c.ids, toPhi cs' (.inst id) = .inst id := fun id hid =>
      congrArg Value.inst
        (phiName_of_none (h.right.findCopy_none (h.left.new c (hrest c hc) id hid)))
    unfold merge
    cases c.phiId with
    | none => rfl
    | some p =>
        simp only [Option.map_some, Instr.mapOperands, List.map_cons, List.map_nil,
          hname _ (thenId_mem c), hname _ (elseId_mem c)]
  rw [List.map_filterMap]
  exact List.filterMap_congr hself

theorem getD_recordPhis (v : Value) : (recordPhis all .empty v).getD v = toPhi all v := by
  cases v with
  | inst id =>
      show (((phiOf all id).map Value.inst).or none).getD (.inst id) =
        .inst ((phiOf all id).getD id)
      cases phiOf all id <;> rfl
  | _ => rfl

theorem Separate.recordPhis_recordPhis (h : Separate n (all ++ cs)) (f : Value → Value) :
    recordPhis (cs.map (Copy.mapOld f)) (recordPhis all .empty) =
      recordPhis (all ++ cs) .empty := by
  funext v
  cases v with
  | inst id =>
      show ((phiOf (cs.map (Copy.mapOld f)) id).map Value.inst).or
        (((phiOf all id).map .inst).or none) = ((phiOf (all ++ cs) id).map .inst).or none
      rw [phiOf_mapOld, Option.or_none, Option.or_none]
      cases hc : findCopy all id with
      | none =>
          have hall : phiOf all id = none := by
            unfold phiOf
            rw [hc]
            rfl
          have hphi : phiOf (all ++ cs) id = phiOf cs id := by
            unfold phiOf
            rw [findCopy_of_append hc]
          rw [hall, hphi, Option.map_none, Option.or_none]
      | some c =>
          have hcs : phiOf cs id = none := by
            unfold phiOf
            rw [h.only_left hc]
            rfl
          have hphi : phiOf (all ++ cs) id = phiOf all id := by
            unfold phiOf
            rw [findCopy_of_append_some hc, hc]
          rw [hcs, hphi, Option.map_none, Option.none_or]
  | _ => rfl

end Operands

/-! ## Handles -/

section Handles

variable {F : Function} {rs rs' : List Round} {r r' : Round} {p p' : Part} {j : Nat}

/-- Where among the new blocks of its round a part is. -/
def Part.offset : Part → Nat
  | .head | .tail => 0
  | .thenArm => 1
  | .elseArm => 2

theorem handle_eq (hp : p ≠ .head) : r.handle p = r.block + p.offset := by
  cases p with
  | head => exact absurd rfl hp
  | _ => rfl

theorem offset_lt (p : Part) : p.offset < 3 := by
  cases p <;> decide

theorem offset_inj (hp : p ≠ .head) (hp' : p' ≠ .head) (heq : p.offset = p'.offset) : p = p' := by
  cases p <;> cases p' <;> simp_all [Part.offset]

theorem mem_parts : (r, p) ∈ parts rs ↔ r ∈ rs := by
  unfold parts
  rw [List.pair_mem_product]
  cases p <;> simp

theorem Planned.left (h : Planned F (rs ++ rs')) : Planned F rs where
  nodup := by
    have hnodup := h.nodup
    rw [List.map_append] at hnodup
    exact hnodup.of_append_left
  mem := fun r hr => h.mem r (List.mem_append_left _ hr)
  block := fun r hr => h.block r (List.mem_append_left _ hr)
  block_inj := fun r hr r' hr' =>
    h.block_inj r (List.mem_append_left _ hr) r' (List.mem_append_left _ hr')
  inst := fun r hr => h.inst r (List.mem_append_left _ hr)
  inst_inj := fun r hr r' hr' =>
    h.inst_inj r (List.mem_append_left _ hr) r' (List.mem_append_left _ hr')
  names := fun r hr => h.names r (List.mem_append_left _ hr)

/-- The blocks that rounds leave are all different. -/
theorem Planned.handle_inj (h : Planned F rs) (hI : Issued F) (hr : r ∈ rs) (hr' : r' ∈ rs)
    (heq : r.handle p = r'.handle p') : r = r' ∧ p = p' := by
  have hold := hI.blocks _ (h.mem r hr)
  have hold' := hI.blocks _ (h.mem r' hr')
  have hnew := h.block r hr
  have hnew' := h.block r' hr'
  by_cases hp : p = .head
  · subst hp
    by_cases hp' : p' = .head
    · subst hp'
      exact ⟨key_inj h.nodup hr hr' heq, rfl⟩
    · rw [handle_eq hp'] at heq
      have hhead : r.handle .head = r.bb := rfl
      omega
  · by_cases hp' : p' = .head
    · subst hp'
      rw [handle_eq hp] at heq
      have hhead : r'.handle .head = r'.bb := rfl
      omega
    · rw [handle_eq hp, handle_eq hp'] at heq
      obtain ⟨hrs, hoffset⟩ := h.block_inj r hr r' hr' _ (offset_lt p) _ (offset_lt p') heq
      exact ⟨hrs, offset_inj hp hp' hoffset⟩

theorem Planned.nodup_parts (h : Planned F rs) (hI : Issued F) :
    ((parts rs).map fun q => q.1.handle q.2).Nodup := by
  refine List.Nodup.map_on ?_ ((List.Nodup.of_map _ h.nodup).product (by decide))
  rintro ⟨r, p⟩ hr ⟨r', p'⟩ hr' heq
  obtain ⟨rfl, rfl⟩ := h.handle_inj hI (mem_parts.mp hr) (mem_parts.mp hr') heq
  rfl

theorem Planned.partAt_eq_some (h : Planned F rs) (hI : Issued F) :
    partAt rs j = some (r, p) ↔ r ∈ rs ∧ r.handle p = j := by
  unfold partAt
  rw [lookup_eq_some (h.nodup_parts hI), mem_parts]

theorem partAt_eq_none : partAt rs j = none ↔ ∀ r ∈ rs, ∀ p, r.handle p ≠ j := by
  unfold partAt
  rw [lookup_eq_none]
  exact ⟨fun h r hr p => h (r, p) (mem_parts.mpr hr),
    fun h q hq => h q.1 (mem_parts.mp hq) q.2⟩

theorem roundAt_eq_none : roundAt rs j = none ↔ ∀ r ∈ rs, r.bb ≠ j := lookup_eq_none

theorem Planned.roundAt_eq_some (h : Planned F rs) :
    roundAt rs j = some r ↔ r ∈ rs ∧ r.bb = j := lookup_eq_some h.nodup

theorem roundAt_append (j : Nat) : roundAt (rs ++ rs') j = (roundAt rs j).or (roundAt rs' j) :=
  lookup_append j

/-- A block that is no head is new. -/
theorem Planned.le_handle (h : Planned F rs) (hr : r ∈ rs) (hp : p ≠ .head) :
    F.nextBlock ≤ r.handle p := by
  rw [handle_eq hp]
  exact Nat.le_add_right_of_le (h.block r hr)

theorem mem_defs_of_body {k : Nat} (hk : k ∈ F.order) {i : Instr Op}
    (hi : i ∈ (F.block k).body) : (i.id, i.ty) ∈ F.defs :=
  mem_defs_of_instr hk ((List.dropWhile_sublist _).subset hi)

theorem nodup_body (hF : F.WellFormed) {k : Nat} (hk : k ∈ F.order) :
    ((F.block k).body.map Instr.id).Nodup := by
  have hnodup := hF.block_nodup hk
  rw [Block.defs, List.map_append, List.map_map] at hnodup
  exact hnodup.of_append_left.sublist ((List.dropWhile_sublist _).map Instr.id)

theorem mem_copiesOf {c : Copy} {id : Nat} (hc : c ∈ copiesOf F r) (hid : id ∈ c.ids) :
    ∃ o, 4 ≤ o ∧ o < needs F r.bb ∧ id = r.inst + o := by
  have hbound := mem_ids_copies hc hid
  unfold needs
  exact ⟨id - r.inst, by omega, by omega, by omega⟩

/-- The copies of all rounds are of different instructions. -/
theorem Planned.separate (hF : F.WellFormed) (hI : Issued F) (h : Planned F rs) :
    Separate F.nextInst (allCopies F rs) where
  old := by
    intro c hc
    obtain ⟨r, hr, hc⟩ := List.mem_flatMap.mp hc
    exact hI.insts _ (mem_defs_of_body (h.mem r hr) (old_mem hc))
  new := by
    intro c hc id hid
    obtain ⟨r, hr, hc⟩ := List.mem_flatMap.mp hc
    obtain ⟨o, -, -, rfl⟩ := mem_copiesOf hc hid
    exact Nat.le_add_right_of_le (h.inst r hr)
  nodup := by
    have holds : ∀ r, (copiesOf F r).map (fun c => c.old.id) =
        (F.block r.bb).body.map Instr.id := by
      intro r
      have hmap : (copiesOf F r).map Copy.old = (F.block r.bb).body := map_old_copies
      rw [← hmap, List.map_map]
      rfl
    unfold allCopies
    simp only [List.map_flatMap, holds]
    rw [List.nodup_flatMap]
    refine ⟨fun r hr => nodup_body hF (h.mem r hr), ?_⟩
    refine (List.pairwise_map.mp h.nodup).imp_of_mem fun hr hr' hne id hid hid' => hne ?_
    have hmem : ∀ r ∈ rs, id ∈ (F.block r.bb).body.map Instr.id →
        id ∈ (F.block r.bb).defs.map Prod.fst := by
      intro r _ hid
      obtain ⟨i, hi, rfl⟩ := List.mem_map.mp hid
      exact mem_ids.mpr (.inl ⟨i, (List.dropWhile_sublist _).subset hi, rfl⟩)
    exact hF.block_unique (h.mem _ hr) (h.mem _ hr') (hmem _ hr hid) (hmem _ hr' hid')

end Handles

end LlvmPasses.DuplicateBB
