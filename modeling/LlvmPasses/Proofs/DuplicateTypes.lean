import Mathlib.Data.List.TakeWhile
import LlvmPasses.Proofs.DuplicatePass

/-!
# What is defined in the closed form

The blocks of the form, and where what they define comes from: it was there
before, belongs to a test, or is a copy. Handles are taken once, so a value has
the type it had, whatever it goes by after the rounds.

What a block of the form defines is listed by `origin_form`, with a case for
each place it can be from (`Origin`). Uniqueness of handles then fixes the
type: `typeOf_old` for what the function has, `typeOf_copy` for clones and
their PHI nodes, and `typeOf_toPhi` for an operand under its new name. The
lemmas in the first section say which blocks are in the form and where its PHI
nodes end, which all later modules use.
-/

namespace LlvmPasses.DuplicateBB

open Ir Ir.Function Table

variable {F : Function} {rs : List Round} {r r' : Round} {p : Part} {j k : Nat}

/-! ## Blocks of the form -/

section Split

variable {f g : Instr Op → Instr Op}

/-- PHI nodes in front of what is none. -/
theorem split_map (hf : ∀ i, (f i).isPhi = i.isPhi) (hg : ∀ i, (g i).isPhi = i.isPhi)
    (is : List (Instr Op)) :
    let is' := (is.takeWhile Instr.isPhi).map f ++ (is.dropWhile Instr.isPhi).map g
    is'.takeWhile Instr.isPhi = (is.takeWhile Instr.isPhi).map f ∧
      is'.dropWhile Instr.isPhi = (is.dropWhile Instr.isPhi).map g := by
  induction is with
  | nil => exact ⟨rfl, rfl⟩
  | cons i is ih =>
      cases hi : i.isPhi with
      | true =>
          have hfi : (f i).isPhi = true := (hf i).trans hi
          simp only [List.takeWhile_cons, List.dropWhile_cons, hi, if_true, List.map_cons,
            List.cons_append, hfi]
          exact ⟨congrArg _ ih.1, ih.2⟩
      | false =>
          have hgi : (g i).isPhi = false := (hg i).trans hi
          simp [hi, hgi]

theorem phis_body_map (b : Block) (hf : ∀ i, (f i).isPhi = i.isPhi)
    (hg : ∀ i, (g i).isPhi = i.isPhi) (t : Instr TermOp) :
    (Block.mk (b.phis.map f ++ b.body.map g) t).phis = b.phis.map f ∧
      (Block.mk (b.phis.map f ++ b.body.map g) t).body = b.body.map g :=
  split_map hf hg b.instrs

theorem phis_body_snoc (b : Block) (hf : ∀ i, (f i).isPhi = i.isPhi) {i : Instr Op}
    (hi : i.isPhi = false) (t : Instr TermOp) :
    (Block.mk (b.phis.map f ++ [i]) t).phis = b.phis.map f ∧
      (Block.mk (b.phis.map f ++ [i]) t).body = [i] := by
  have hphis : ∀ j ∈ b.phis.map f, j.isPhi = true := by
    intro j hj
    obtain ⟨phi, hphi, rfl⟩ := List.mem_map.mp hj
    exact (hf phi).trans (List.mem_takeWhile_imp hphi)
  show (b.phis.map f ++ [i]).takeWhile _ = _ ∧ (b.phis.map f ++ [i]).dropWhile _ = _
  rw [List.takeWhile_append_of_pos hphis, List.dropWhile_append_of_pos hphis]
  simp [hi]

end Split

theorem isPhi_headPhi (i : Instr Op) : (headPhi F rs j i).isPhi = i.isPhi := rfl

theorem phis_plainBlock : (plainBlock F rs j).phis = (F.block j).phis.map (headPhi F rs j) :=
  (phis_body_map _ isPhi_headPhi (isPhi_mapOperands _) _).1

theorem body_plainBlock : (plainBlock F rs j).body =
    (F.block j).body.map (Instr.mapOperands (toPhi (allCopies F rs))) :=
  (phis_body_map _ isPhi_headPhi (isPhi_mapOperands _) _).2

theorem block_form_none (h : partAt rs j = none) : (form F rs).block j = plainBlock F rs j := by
  simp only [form, h]

theorem block_form_some (h : partAt rs j = some (r, p)) :
    (form F rs).block j = partBlock F rs r p := by
  simp only [form, h]

theorem mem_placeOf (h : Planned F rs) : j ∈ placeOf rs k ↔
    (∃ r ∈ rs, r.bb = k ∧ ∃ p, r.handle p = j) ∨ (j = k ∧ ∀ r ∈ rs, r.bb ≠ k) := by
  unfold placeOf
  cases hr : roundAt rs k with
  | none =>
      have hnone := roundAt_eq_none.mp hr
      constructor
      · intro hj
        exact .inr ⟨List.mem_singleton.mp hj, hnone⟩
      · rintro (⟨r, hr, hk, -⟩ | ⟨rfl, -⟩)
        · exact absurd hk (hnone r hr)
        · exact List.mem_singleton_self _
  | some r =>
      obtain ⟨hmem, rfl⟩ := h.roundAt_eq_some.mp hr
      constructor
      · intro hj
        refine .inl ⟨r, hmem, rfl, ?_⟩
        simp only [List.mem_cons, List.not_mem_nil, or_false] at hj
        rcases hj with rfl | rfl | rfl | rfl
        · exact ⟨.head, rfl⟩
        · exact ⟨.thenArm, rfl⟩
        · exact ⟨.elseArm, rfl⟩
        · exact ⟨.tail, rfl⟩
      · rintro (⟨r', hr', hbb, p, rfl⟩ | ⟨rfl, hno⟩)
        · obtain rfl := key_inj h.nodup hr' hmem hbb
          cases p <;> simp [Round.handle]
        · exact absurd rfl (hno r hmem)

/-- The blocks of the form: parts of rounds, and blocks that no round has split. -/
theorem mem_order_form (h : Planned F rs) : j ∈ (form F rs).order ↔
    (∃ r ∈ rs, ∃ p, r.handle p = j) ∨ (j ∈ F.order ∧ ∀ r ∈ rs, r.bb ≠ j) := by
  simp only [form, List.mem_flatMap, mem_placeOf h]
  constructor
  · rintro ⟨k, hk, ⟨r, hr, -, p, rfl⟩ | ⟨rfl, hno⟩⟩
    · exact .inl ⟨r, hr, p, rfl⟩
    · exact .inr ⟨hk, hno⟩
  · rintro (⟨r, hr, p, rfl⟩ | ⟨hj, hno⟩)
    · exact ⟨r.bb, h.mem r hr, .inl ⟨r, hr, rfl, p, rfl⟩⟩
    · exact ⟨j, hj, .inr ⟨rfl, hno⟩⟩

/-! ## Types -/

/-- What is defined in the form is a result of the function, belongs to a test
or its branches, or is a copy. -/
inductive Origin (F : Function) (rs : List Round) (d : Nat × Ty) : Prop where
  | old (h : d ∈ F.defs)
  | frame (r : Round) (hr : r ∈ rs) (o : Nat) (ho : o < 4) (h : d.1 = r.inst + o)
  | copy (c : Copy) (hc : c ∈ allCopies F rs) (hid : d.1 ∈ c.ids) (hty : d.2 = c.old.ty)

theorem defs_clones {arm : Copy → Nat} {all before rest : List Copy} :
    (clones arm all before rest).map (fun i => (i.id, i.ty)) =
      rest.map fun c => (arm c, c.old.ty) := by
  induction rest generalizing before with
  | nil => rfl
  | cons c rest ih => simp only [clones, List.map_cons, ih, Instr.mapOperands]

theorem defs_append (l l' : List (Instr Op)) (t : Instr TermOp) : (Block.mk (l ++ l') t).defs =
    l.map (fun i => (i.id, i.ty)) ++ (l'.map (fun i => (i.id, i.ty)) ++ [(t.id, t.ty)]) := by
  simp [Block.defs]

theorem mem_defs_phi {k : Nat} (hk : k ∈ F.order) {i : Instr Op} (hi : i ∈ (F.block k).phis) :
    (i.id, i.ty) ∈ F.defs :=
  mem_defs_of_instr hk ((List.takeWhile_sublist _).subset hi)

theorem mem_allCopies {c : Copy} (hr : r ∈ rs) (hc : c ∈ copiesOf F r) : c ∈ allCopies F rs :=
  List.mem_flatMap.mpr ⟨r, hr, hc⟩

theorem origin_part (h : Planned F rs) (hr : r ∈ rs) {d : Nat × Ty}
    (hd : d ∈ (partBlock F rs r p).defs) : Origin F rs d := by
  have hk := h.mem r hr
  have harms : ∀ (arm : Copy → Nat) (o : Nat), (∀ c, arm c ∈ c.ids) → o < 4 →
      d ∈ (Block.mk (clones arm (allCopies F rs) [] (copiesOf F r))
        (branch r o [.block r.block])).defs → Origin F rs d := by
    intro arm o harm ho hd
    rw [Block.defs, defs_clones] at hd
    rcases List.mem_append.mp hd with hd | hd
    · obtain ⟨c, hc, rfl⟩ := List.mem_map.mp hd
      exact .copy c (mem_allCopies hr hc) (harm c) rfl
    · obtain rfl := List.mem_singleton.mp hd
      exact .frame r hr o ho rfl
  cases p with
  | head =>
      unfold partBlock at hd
      rw [defs_append] at hd
      rcases List.mem_append.mp hd with hd | hd
      · obtain ⟨i, hi, rfl⟩ := List.mem_map.mp hd
        obtain ⟨phi, hphi, rfl⟩ := List.mem_map.mp hi
        have hmem := mem_defs_phi hk hphi
        exact .old hmem
      · simp only [List.map_cons, List.map_nil, List.cons_append, List.nil_append,
          List.mem_cons, List.not_mem_nil, or_false] at hd
        rcases hd with rfl | rfl
        · exact .frame r hr 0 (by decide) rfl
        · exact .frame r hr 1 (by decide) rfl
  | thenArm => exact harms Copy.thenId 2 thenId_mem (by decide) hd
  | elseArm => exact harms Copy.elseId 3 elseId_mem (by decide) hd
  | tail =>
      rcases List.mem_append.mp hd with hd | hd
      · obtain ⟨i, hi, rfl⟩ := List.mem_map.mp hd
        obtain ⟨c, hc, hi⟩ := List.mem_filterMap.mp hi
        obtain ⟨phiId, hphi, rfl⟩ := Option.map_eq_some_iff.mp hi
        exact .copy c (mem_allCopies hr hc) (phiId_mem hphi) rfl
      · obtain rfl := List.mem_singleton.mp hd
        exact .old (mem_defs_term hk)

theorem origin_plain (hj : j ∈ F.order) {d : Nat × Ty} (hd : d ∈ (plainBlock F rs j).defs) :
    Origin F rs d := by
  unfold plainBlock at hd
  rw [defs_append] at hd
  rcases List.mem_append.mp hd with hd | hd
  · obtain ⟨i, hi, rfl⟩ := List.mem_map.mp hd
    obtain ⟨phi, hphi, rfl⟩ := List.mem_map.mp hi
    have hmem := mem_defs_phi hj hphi
    exact .old hmem
  · rcases List.mem_append.mp hd with hd | hd
    · obtain ⟨i, hi, rfl⟩ := List.mem_map.mp hd
      obtain ⟨i, hbody, rfl⟩ := List.mem_map.mp hi
      have hmem := mem_defs_of_body hj hbody
      exact .old hmem
    · obtain rfl := List.mem_singleton.mp hd
      exact .old (mem_defs_term hj)

theorem origin_form (h : Planned F rs) (hI : Issued F) {d : Nat × Ty}
    (hd : d ∈ (form F rs).defs) : Origin F rs d := by
  obtain ⟨j, hj, hd⟩ := mem_defs.mp hd
  cases hp : partAt rs j with
  | some q =>
      obtain ⟨r, p⟩ := q
      rw [block_form_some hp] at hd
      exact origin_part h ((h.partAt_eq_some hI).mp hp).1 hd
  | none =>
      have hnone := partAt_eq_none.mp hp
      rw [block_form_none hp] at hd
      rcases (mem_order_form h).mp hj with ⟨r, hr, p, heq⟩ | ⟨hj, -⟩
      · exact absurd heq (hnone r hr p)
      · exact origin_plain hj hd


theorem copies_unique {n id : Nat} {is : List (Instr Op)} {c c' : Copy} (hc : c ∈ copies n is)
    (hc' : c' ∈ copies n is) (hid : id ∈ c.ids) (hid' : id ∈ c'.ids) : c = c' := by
  induction is generalizing n with
  | nil => cases hc
  | cons i is ih =>
      have hfirst : ∀ {d : Copy}, d = Copy.make n i → id ∈ d.ids → id < n + handles i := by
        rintro d rfl hd
        rw [ids_make, List.mem_range'_1] at hd
        exact hd.2
      have hrest : ∀ {d : Copy}, d ∈ copies (n + handles i) is → id ∈ d.ids →
          n + handles i ≤ id := fun hd hid => (mem_ids_copies hd hid).1
      rcases List.mem_cons.mp hc with heq | hc
      · rcases List.mem_cons.mp hc' with heq' | hc'
        · rw [heq, heq']
        · exact absurd (hfirst heq hid) (Nat.not_lt.mpr (hrest hc' hid'))
      · rcases List.mem_cons.mp hc' with heq' | hc'
        · exact absurd (hfirst heq' hid') (Nat.not_lt.mpr (hrest hc hid))
        · exact ih hc hc'

theorem allCopies_unique (h : Planned F rs) {c c' : Copy} {id : Nat} (hc : c ∈ allCopies F rs)
    (hc' : c' ∈ allCopies F rs) (hid : id ∈ c.ids) (hid' : id ∈ c'.ids) : c = c' := by
  obtain ⟨r, hr, hc⟩ := List.mem_flatMap.mp hc
  obtain ⟨r', hr', hc'⟩ := List.mem_flatMap.mp hc'
  obtain ⟨o, -, ho, heq⟩ := mem_copiesOf hc hid
  obtain ⟨o', -, ho', heq'⟩ := mem_copiesOf hc' hid'
  obtain ⟨rfl, -⟩ := h.inst_inj r hr r' hr' o ho o' ho' (heq.symm.trans heq')
  exact copies_unique hc hc' hid hid'

/-- A copy has the type of what was copied. -/
theorem typeOf_copy (h : Planned F rs) (hI : Issued F) {c : Copy} {id : Nat}
    (hc : c ∈ allCopies F rs) (hid : id ∈ c.ids) (hmem : (id, c.old.ty) ∈ (form F rs).defs) :
    (form F rs).typeOf (.inst id) = c.old.ty := by
  refine typeOf_inst hmem ?_
  rintro d hd rfl
  obtain ⟨r, hr, hc'⟩ := List.mem_flatMap.mp hc
  obtain ⟨o, ho, hlt, heq⟩ := mem_copiesOf hc' hid
  cases origin_form h hI hd with
  | old hold =>
      have hlt := hI.insts d hold
      have hle := h.inst r hr
      omega
  | frame r' hr' o' ho' heq' =>
      have hlt' : o' < needs F r'.bb := Nat.lt_of_lt_of_le ho' (Nat.le_add_right 4 _)
      obtain ⟨rfl, rfl⟩ := h.inst_inj r hr r' hr' o hlt o' hlt' (heq.symm.trans heq')
      omega
  | copy c' hc' hid' hty => rw [hty, allCopies_unique h hc hc' hid hid']

/-- What is defined in the function still has its type. -/
theorem typeOf_old (hF : F.WellFormed) (hI : Issued F) (h : Planned F rs) {d : Nat × Ty}
    (hd : d ∈ F.defs) (hmem : d ∈ (form F rs).defs) : (form F rs).typeOf (.inst d.1) = d.2 := by
  refine typeOf_inst hmem ?_
  intro d' hd' heq
  have hlt := hI.insts d hd
  cases origin_form h hI hd' with
  | old hold => exact congrArg Prod.snd (key_inj hF.ids_nodup hold hd heq)
  | frame r hr o ho heq' =>
      have hle := h.inst r hr
      omega
  | copy c hc hid hty =>
      have hle := (h.separate hF hI).new c hc _ hid
      omega

theorem mem_defs_part (h : Planned F rs) (hI : Issued F) (hr : r ∈ rs) {d : Nat × Ty}
    (hd : d ∈ (partBlock F rs r p).defs) : d ∈ (form F rs).defs := by
  refine mem_defs.mpr ⟨r.handle p, (mem_order_form h).mpr (.inl ⟨r, hr, p, rfl⟩), ?_⟩
  rwa [block_form_some ((h.partAt_eq_some hI).mpr ⟨hr, rfl⟩)]

/-- A block that no round is about is no part of one. -/
theorem partAt_of_mem (h : Planned F rs) (hI : Issued F) (hj : j ∈ F.order)
    (hno : ∀ r ∈ rs, r.bb ≠ j) : partAt rs j = none := by
  refine partAt_eq_none.mpr fun r hr p heq => ?_
  by_cases hp : p = .head
  · subst hp
    exact hno r hr heq
  · have hle := h.le_handle hr hp
    have hlt := hI.blocks j hj
    omega

/-- What has not been copied stays. -/
theorem mem_defs_form (hI : Issued F) (h : Planned F rs) {d : Nat × Ty} (hd : d ∈ F.defs)
    (hc : findCopy (allCopies F rs) d.1 = none) : d ∈ (form F rs).defs := by
  obtain ⟨k, hk, hd⟩ := mem_defs.mp hd
  have hsplit : (F.block k).defs = (Block.mk ((F.block k).phis ++ (F.block k).body)
      (F.block k).term).defs := by
    unfold Block.phis Block.body
    rw [List.takeWhile_append_dropWhile]
  rw [hsplit, defs_append] at hd
  by_cases hno : ∀ r ∈ rs, r.bb ≠ k
  · refine mem_defs.mpr ⟨k, (mem_order_form h).mpr (.inr ⟨hk, hno⟩), ?_⟩
    rw [block_form_none (partAt_of_mem h hI hk hno), plainBlock, defs_append, List.map_map,
      List.map_map]
    exact hd
  · push Not at hno
    obtain ⟨r, hr, rfl⟩ := hno
    rcases List.mem_append.mp hd with hd | hd
    · refine mem_defs_part (p := .head) h hI hr ?_
      unfold partBlock
      rw [defs_append, List.map_map]
      exact List.mem_append_left _ hd
    · rcases List.mem_append.mp hd with hd | hd
      · obtain ⟨i, hi, rfl⟩ := List.mem_map.mp hd
        have hold : (copiesOf F r).map Copy.old = (F.block r.bb).body := map_old_copies
        rw [← hold] at hi
        obtain ⟨c, hc', rfl⟩ := List.mem_map.mp hi
        exact absurd rfl (findCopy_eq_none.mp hc c (mem_allCopies hr hc'))
      · exact mem_defs_part (p := .tail) h hI hr (List.mem_append_right _ hd)

/-- A value that the function names has the type it had, by what it goes by now. -/
theorem typeOf_toPhi (hF : F.WellFormed) (hI : Issued F) (h : Planned F rs) {v : Value}
    (hv : F.Names v) : (form F rs).typeOf (toPhi (allCopies F rs) v) = F.typeOf v := by
  cases v with
  | inst id =>
      obtain ⟨d, hd, rfl, hty⟩ := hv
      have htype : F.typeOf (.inst d.1) = d.2 := typeOf_inst hd fun d' hd' heq =>
        congrArg Prod.snd (key_inj hF.ids_nodup hd' hd heq)
      show (form F rs).typeOf (.inst (phiName (allCopies F rs) d.1)) = _
      rw [htype]
      cases hc : findCopy (allCopies F rs) d.1 with
      | none =>
          rw [phiName_of_none hc]
          exact typeOf_old hF hI h hd (mem_defs_form hI h hd hc)
      | some c =>
          obtain ⟨hmem, hid⟩ := findCopy_some hc
          obtain ⟨r, hr, hcopy⟩ := List.mem_flatMap.mp hmem
          have hold := mem_defs_of_body (h.mem r hr) (old_mem hcopy)
          have hsame : (c.old.id, c.old.ty) = d := key_inj hF.ids_nodup hold hd hid
          have hcty : c.old.ty = d.2 := congrArg Prod.snd hsame
          cases hphi : c.phiId with
          | none =>
              have hvoid := (phiId_eq_none hcopy).mp hphi
              refine absurd ?_ hty
              rw [← hcty]
              cases hc : c.old.ty <;> simp_all [Ty.isVoidTy]
          | some phiId =>
              rw [phiName_of_some hc, hphi, Option.getD_some, ← hcty]
              refine typeOf_copy h hI hmem (phiId_mem hphi) ?_
              refine mem_defs_part (p := .tail) h hI hr (List.mem_append_left _ ?_)
              have hmerge : merge (r.block + 1) (r.block + 2) c =
                  some ⟨phiId, c.old.ty, .phi, [.inst c.thenId, .inst c.elseId],
                    [r.block + 1, r.block + 2], {}⟩ := by
                unfold merge
                rw [hphi]
                rfl
              exact List.mem_map_of_mem (List.mem_filterMap.mpr ⟨c, hcopy, hmerge⟩)
  | _ => rfl

end LlvmPasses.DuplicateBB
