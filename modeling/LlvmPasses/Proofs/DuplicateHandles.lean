import Mathlib.Data.List.Flatten
import LlvmPasses.Proofs.DuplicateSafe

/-!
# The handles of the form

The rounds define no handle twice: what a block had outside its body is now in
its head and its tail, and everything else is new and in one part.

A handle is the name of an instruction, and the form has to give each
instruction its own: `nodup_ids_form` is the part of well-formedness that the
simulation relies on when it looks a value up. Handles come from four places,
the block that was split, the frame of tests and branches, and the clones with
their PHI nodes; `ids_cases` says for a handle of a part where it is from.
Uniqueness is then a lemma for each place, and no handle is in two parts
because the places have ranges of their own.
-/

namespace LlvmPasses.DuplicateBB

open Ir Ir.Function Table

variable {F : Function} {rs : List Round} {r r' : Round} {p p' : Part} {j j' k id : Nat}
variable {c : Copy}

/-! ## Handles -/

def ids (b : Block) : List Nat := b.defs.map Prod.fst

/-- What a part has of the block that was split, besides its body. -/
def oldIds (F : Function) (r : Round) : Part → List Nat
  | .head => (F.block r.bb).phis.map Instr.id
  | .tail => [(F.block r.bb).term.id]
  | _ => []

/-- The test and the branches. -/
def frameIds (r : Round) : Part → List Nat
  | .head => [r.inst, r.inst + 1]
  | .thenArm => [r.inst + 2]
  | .elseArm => [r.inst + 3]
  | .tail => []

def Copy.idsAt (c : Copy) : Part → List Nat
  | .head => []
  | .thenArm => [c.thenId]
  | .elseArm => [c.elseId]
  | .tail => c.phiId.toList

def copyIds (F : Function) (r : Round) (p : Part) : List Nat :=
  (copiesOf F r).flatMap fun c => c.idsAt p

theorem ids_partBlock :
    ids (partBlock F rs r p) = copyIds F r p ++ (oldIds F r p ++ frameIds r p) := by
  have harm : ∀ (arm : Copy → Nat) (o : Nat),
      ids ⟨clones arm (allCopies F rs) [] (copiesOf F r), branch r o [.block r.block]⟩ =
        ((copiesOf F r).flatMap fun c => [arm c]) ++ [r.inst + o] := by
    intro arm o
    unfold ids
    rw [Block.defs, defs_clones, List.map_append, List.map_map]
    exact congrArg (· ++ _) List.map_eq_flatMap
  cases p with
  | head =>
      have hnone : copyIds F r .head = [] := List.flatMap_eq_nil_iff.mpr fun _ _ => rfl
      unfold ids partBlock
      rw [defs_append, hnone, List.map_append, List.map_map, List.map_map, List.nil_append]
      rfl
  | thenArm => exact harm Copy.thenId 2
  | elseArm => exact harm Copy.elseId 3
  | tail =>
      have hmerge : ∀ c, ((merge (r.block + 1) (r.block + 2) c).map Instr.id).toList =
          c.phiId.toList := by
        intro c
        unfold merge
        rw [Option.map_map]
        cases c.phiId <;> rfl
      unfold ids partBlock
      rw [Block.defs, List.map_append, List.map_map]
      refine congrArg (· ++ _) ?_
      show ((copiesOf F r).filterMap (merge (r.block + 1) (r.block + 2))).map Instr.id = _
      rw [List.map_filterMap, List.filterMap_eq_flatMap_toList]
      exact List.flatMap_congr fun c _ => hmerge c

theorem defs_plainBlock : (plainBlock F rs j).defs = (F.block j).defs := by
  have hsplit : (F.block j).defs = (Block.mk ((F.block j).phis ++ (F.block j).body)
      (F.block j).term).defs := by
    unfold Block.phis Block.body
    rw [List.takeWhile_append_dropWhile]
  rw [hsplit, plainBlock, defs_append, defs_append, List.map_map, List.map_map]
  rfl

theorem ids_plainBlock : ids (plainBlock F rs j) = ids (F.block j) :=
  congrArg (List.map Prod.fst) defs_plainBlock

theorem idsAt_sublist (c : Copy) (p : Part) : (c.idsAt p).Sublist c.ids := by
  unfold Copy.idsAt Copy.ids
  cases p with
  | head => exact List.nil_sublist _
  | thenArm =>
      exact ((List.nil_sublist [c.elseId]).cons_cons c.thenId).trans (List.sublist_append_left ..)
  | elseArm =>
      exact (List.sublist_cons_self c.thenId [c.elseId]).trans (List.sublist_append_left ..)
  | tail => exact List.sublist_append_right ..

/-- A handle of a copy is in one part. -/
theorem idsAt_unique (hc : c ∈ copiesOf F r) (hid : id ∈ c.idsAt p) (hid' : id ∈ c.idsAt p') :
    p = p' := by
  have hdistinct : c.thenId ≠ c.elseId ∧ (∀ q ∈ c.phiId, q ≠ c.thenId ∧ q ≠ c.elseId) := by
    have hmake : ∀ {n : Nat} {is : List (Instr Op)}, c ∈ copies n is →
        ∃ m i, c = Copy.make m i := by
      intro n is
      induction is generalizing n with
      | nil => exact fun hc => nomatch hc
      | cons i is ih =>
          intro hc
          rcases List.mem_cons.mp hc with rfl | hc
          · exact ⟨n, i, rfl⟩
          · exact ih hc
    obtain ⟨m, i, rfl⟩ := hmake hc
    refine ⟨Nat.ne_of_lt (Nat.lt_succ_self m), fun q hq => ?_⟩
    unfold Copy.make at hq ⊢
    dsimp only at hq ⊢
    split at hq
    · cases hq
    · cases hq
      omega
  obtain ⟨hne, hphi⟩ := hdistinct
  cases p <;> cases p' <;>
    simp only [Copy.idsAt, List.mem_singleton, List.not_mem_nil, Option.mem_toList] at hid hid' <;>
    first
      | rfl
      | exact absurd (hid.symm.trans hid') hne
      | exact absurd (hid'.symm.trans hid) hne
      | exact absurd hid' (hphi id hid).1
      | exact absurd hid' (hphi id hid).2
      | exact absurd hid (hphi id hid').1
      | exact absurd hid (hphi id hid').2

theorem mem_copyIds : id ∈ copyIds F r p ↔ ∃ c ∈ copiesOf F r, id ∈ c.idsAt p := List.mem_flatMap

theorem copyIds_bound (hid : id ∈ copyIds F r p) :
    ∃ o, 4 ≤ o ∧ o < needs F r.bb ∧ id = r.inst + o := by
  obtain ⟨c, hc, hid⟩ := mem_copyIds.mp hid
  exact mem_copiesOf hc ((idsAt_sublist c p).subset hid)

theorem nodup_copyIds : (copyIds F r p).Nodup := by
  have hall : ((copiesOf F r).flatMap Copy.ids).Nodup := by
    unfold copiesOf
    rw [ids_copies]
    exact List.nodup_range'
  exact hall.sublist (List.Sublist.flatMap_right _ fun c _ => idsAt_sublist c p)

theorem frameIds_bound (hid : id ∈ frameIds r p) : ∃ o < 4, id = r.inst + o := by
  cases p <;> simp only [frameIds, List.mem_cons, List.not_mem_nil, or_false] at hid
  · rcases hid with rfl | rfl
    · exact ⟨0, by decide, rfl⟩
    · exact ⟨1, by decide, rfl⟩
  · exact ⟨2, by decide, hid⟩
  · exact ⟨3, by decide, hid⟩

/-- A handle of the frame is in one part. -/
theorem frameIds_unique (hid : id ∈ frameIds r p) (hid' : id ∈ frameIds r p') : p = p' := by
  cases p <;> cases p' <;>
    simp only [frameIds, List.mem_cons, List.not_mem_nil, or_false] at hid hid' <;>
    first | rfl | omega

theorem mem_ids_of_phi {i : Instr Op} (hi : i ∈ (F.block k).phis) : i.id ∈ ids (F.block k) :=
  mem_ids.mpr (.inl ⟨i, (List.takeWhile_sublist _).subset hi, rfl⟩)

theorem oldIds_mem (hid : id ∈ oldIds F r p) : id ∈ ids (F.block r.bb) := by
  cases p with
  | head =>
      obtain ⟨i, hi, rfl⟩ := List.mem_map.mp hid
      exact mem_ids_of_phi hi
  | tail => exact List.mem_singleton.mp hid ▸ mem_ids.mpr (.inr rfl)
  | _ => cases hid

theorem oldIds_unique (hF : F.WellFormed) (hk : r.bb ∈ F.order) (hid : id ∈ oldIds F r p)
    (hid' : id ∈ oldIds F r p') : p = p' := by
  have hne : ∀ i ∈ (F.block r.bb).phis, i.id ≠ (F.block r.bb).term.id := fun i hi =>
    hF.id_ne_term hk ((List.takeWhile_sublist _).subset hi)
  cases p <;> cases p' <;>
    simp only [oldIds, List.mem_map, List.mem_singleton, List.not_mem_nil] at hid hid' <;>
    first
      | rfl
      | (obtain ⟨i, hi, rfl⟩ := hid; exact absurd hid' (hne i hi))
      | (obtain ⟨i, hi, rfl⟩ := hid'; exact absurd hid (hne i hi))

theorem nodup_oldIds (hF : F.WellFormed) (hk : r.bb ∈ F.order) : (oldIds F r p).Nodup := by
  cases p with
  | head =>
      have hnodup := hF.block_nodup hk
      rw [Block.defs, List.map_append, List.map_map] at hnodup
      exact hnodup.of_append_left.sublist ((List.takeWhile_sublist _).map Instr.id)
  | tail => exact List.nodup_singleton _
  | _ => exact List.nodup_nil

theorem lt_of_mem_ids (hI : Issued F) (hk : k ∈ F.order) (hid : id ∈ ids (F.block k)) :
    id < F.nextInst := by
  obtain ⟨d, hd, rfl⟩ := List.mem_map.mp hid
  exact hI.insts d (mem_defs.mpr ⟨k, hk, hd⟩)

/-- Where a handle of a part is from. -/
theorem ids_cases (h : Planned F rs) (hI : Issued F) (hr : r ∈ rs)
    (hid : id ∈ ids (partBlock F rs r p)) :
    (id ∈ oldIds F r p ∧ id < F.nextInst) ∨
      ∃ o < needs F r.bb, id = r.inst + o ∧
        ((4 ≤ o ∧ id ∈ copyIds F r p) ∨ (o < 4 ∧ id ∈ frameIds r p)) := by
  rw [ids_partBlock] at hid
  rcases List.mem_append.mp hid with hid | hid
  · obtain ⟨o, ho, hlt, heq⟩ := copyIds_bound hid
    exact .inr ⟨o, hlt, heq, .inl ⟨ho, hid⟩⟩
  · rcases List.mem_append.mp hid with hid | hid
    · exact .inl ⟨hid, lt_of_mem_ids hI (h.mem r hr) (oldIds_mem hid)⟩
    · obtain ⟨o, ho, heq⟩ := frameIds_bound hid
      exact .inr ⟨o, Nat.lt_of_lt_of_le ho (Nat.le_add_right 4 _), heq, .inr ⟨ho, hid⟩⟩

theorem nodup_ids_partBlock (hF : F.WellFormed) (hI : Issued F) (h : Planned F rs) (hr : r ∈ rs) :
    (ids (partBlock F rs r p)).Nodup := by
  have hk := h.mem r hr
  have hle := h.inst r hr
  have hframe : (frameIds r p).Nodup := by
    cases p <;> simp [frameIds]
  rw [ids_partBlock]
  refine List.nodup_append.mpr ⟨nodup_copyIds, List.nodup_append.mpr
    ⟨nodup_oldIds hF hk, hframe, fun i hi j hj => ?_⟩, fun i hi j hj => ?_⟩
  · have hlt := lt_of_mem_ids hI hk (oldIds_mem hi)
    obtain ⟨o, ho, rfl⟩ := frameIds_bound hj
    omega
  · obtain ⟨o, ho, -, rfl⟩ := copyIds_bound hi
    rcases List.mem_append.mp hj with hj | hj
    · have hlt := lt_of_mem_ids hI hk (oldIds_mem hj)
      omega
    · obtain ⟨o', ho', rfl⟩ := frameIds_bound hj
      omega

/-- No handle is in two parts. -/
theorem part_unique (hF : F.WellFormed) (hI : Issued F) (h : Planned F rs) (hr : r ∈ rs)
    (hr' : r' ∈ rs) (hid : id ∈ ids (partBlock F rs r p))
    (hid' : id ∈ ids (partBlock F rs r' p')) : r = r' ∧ p = p' := by
  have hle := h.inst r hr
  have hle' := h.inst r' hr'
  rcases ids_cases h hI hr hid with ⟨hold, hlt⟩ | ⟨o, ho, heq, hcase⟩
  · rcases ids_cases h hI hr' hid' with ⟨hold', -⟩ | ⟨o', ho', heq', -⟩
    · obtain rfl : r = r' := key_inj h.nodup hr hr' (hF.block_unique (h.mem r hr) (h.mem r' hr')
        (oldIds_mem hold) (oldIds_mem hold'))
      exact ⟨rfl, oldIds_unique hF (h.mem r hr) hold hold'⟩
    · omega
  · rcases ids_cases h hI hr' hid' with ⟨-, hlt⟩ | ⟨o', ho', heq', hcase'⟩
    · omega
    · obtain ⟨rfl, rfl⟩ := h.inst_inj r hr r' hr' o ho o' ho' (heq.symm.trans heq')
      refine ⟨rfl, ?_⟩
      rcases hcase with ⟨hlow, hcopy⟩ | ⟨hhigh, hframe⟩
      · rcases hcase' with ⟨-, hcopy'⟩ | ⟨hhigh, -⟩
        · obtain ⟨c, hc, hcid⟩ := mem_copyIds.mp hcopy
          obtain ⟨c', hc', hcid'⟩ := mem_copyIds.mp hcopy'
          obtain rfl := copies_unique hc hc' ((idsAt_sublist c p).subset hcid)
            ((idsAt_sublist c' p').subset hcid')
          exact idsAt_unique hc hcid hcid'
        · omega
      · rcases hcase' with ⟨hlow, -⟩ | ⟨-, hframe'⟩
        · omega
        · exact frameIds_unique hframe hframe'

/-- Nor in a part and a block that has not been split. -/
theorem part_ne_plain (hF : F.WellFormed) (hI : Issued F) (h : Planned F rs) (hr : r ∈ rs)
    (hj : j ∈ F.order) (hno : ∀ r ∈ rs, r.bb ≠ j) (hid : id ∈ ids (partBlock F rs r p)) :
    id ∉ ids (F.block j) := by
  intro hid'
  have hlt := lt_of_mem_ids hI hj hid'
  rcases ids_cases h hI hr hid with ⟨hold, -⟩ | ⟨o, -, heq, -⟩
  · exact hno r hr (hF.block_unique (h.mem r hr) hj (oldIds_mem hold) hid')
  · have hle := h.inst r hr
    omega

/-- The blocks of the form, as they are in it. -/
theorem block_cases (h : Planned F rs) (hI : Issued F) (hj : j ∈ (form F rs).order) :
    (∃ r ∈ rs, ∃ p, j = r.handle p ∧ (form F rs).block j = partBlock F rs r p) ∨
      (j ∈ F.order ∧ (∀ r ∈ rs, r.bb ≠ j) ∧ (form F rs).block j = plainBlock F rs j) := by
  rcases (mem_order_form h).mp hj with ⟨r, hr, p, rfl⟩ | ⟨hj, hno⟩
  · exact .inl ⟨r, hr, p, rfl, block_form_some ((h.partAt_eq_some hI).mpr ⟨hr, rfl⟩)⟩
  · exact .inr ⟨hj, hno, block_form_none (partAt_of_mem h hI hj hno)⟩

theorem nodup_order_form (hF : F.WellFormed) (hI : Issued F) (h : Planned F rs) :
    (form F rs).order.Nodup := by
  refine List.nodup_flatMap.mpr ⟨fun k hk => ?_, hF.nodup.imp_of_mem fun hk hk' hne => ?_⟩
  · unfold placeOf
    cases hround : roundAt rs k with
    | none => exact List.nodup_singleton k
    | some r =>
        obtain ⟨hr, rfl⟩ := h.roundAt_eq_some.mp hround
        have hlt := hI.blocks _ (h.mem r hr)
        have hle := h.block r hr
        simp only [List.nodup_cons, List.mem_cons, List.not_mem_nil, or_false]
        refine ⟨?_, ?_, ?_, not_false, List.nodup_nil⟩ <;> omega
  · intro i hi hi'
    rcases (mem_placeOf h).mp hi with ⟨r, hr, rfl, p, rfl⟩ | ⟨rfl, hno⟩
    · rcases (mem_placeOf h).mp hi' with ⟨r', hr', rfl, p', heq⟩ | ⟨heq, hno⟩
      · obtain ⟨rfl, -⟩ := h.handle_inj hI hr' hr heq
        exact hne rfl
      · refine partAt_eq_none.mp (partAt_of_mem h hI hk' hno) r hr p heq
    · rcases (mem_placeOf h).mp hi' with ⟨r', hr', rfl, p', heq⟩ | ⟨heq, -⟩
      · exact partAt_eq_none.mp (partAt_of_mem h hI hk hno) r' hr' p' heq
      · exact hne heq

theorem nodup_ids_form (hF : F.WellFormed) (hI : Issued F) (h : Planned F rs) :
    ((form F rs).defs.map Prod.fst).Nodup := by
  rw [ids_eq]
  refine List.nodup_flatMap.mpr ⟨fun j hj => ?_,
    (nodup_order_form hF hI h).imp_of_mem fun {i j} hi hj hne => ?_⟩
  · rcases block_cases h hI hj with ⟨r, hr, p, -, hblock⟩ | ⟨hj, -, hblock⟩
    · rw [hblock]
      exact nodup_ids_partBlock hF hI h hr
    · rw [hblock, defs_plainBlock]
      exact hF.block_nodup hj
  · intro id (hid : id ∈ ids _) (hid' : id ∈ ids _)
    rcases block_cases h hI hi with ⟨r, hr, p, rfl, hblock⟩ | ⟨hi, hno, hblock⟩ <;>
      rcases block_cases h hI hj with ⟨r', hr', p', rfl, hblock'⟩ | ⟨hj, hno', hblock'⟩ <;>
      rw [hblock] at hid <;> rw [hblock'] at hid'
    · obtain ⟨rfl, rfl⟩ := part_unique hF hI h hr hr' hid hid'
      exact hne rfl
    · rw [ids_plainBlock] at hid'
      exact part_ne_plain hF hI h hr hj hno' hid hid'
    · rw [ids_plainBlock] at hid
      exact part_ne_plain hF hI h hr' hi hno hid' hid
    · rw [ids_plainBlock] at hid hid'
      exact hne (hF.block_unique hi hj hid hid')

end LlvmPasses.DuplicateBB
