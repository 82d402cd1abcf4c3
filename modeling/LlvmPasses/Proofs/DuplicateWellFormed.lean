import LlvmPasses.Proofs.DuplicateHandles

/-!
# The form is well formed

Whatever an operand named is still there under the name it goes by now, and
control goes where it went, through the arms and from the tail.

`wellFormed_form` is the result; the simulation and the other transformations
take it from here. Its conjuncts are about operands, successors and PHI nodes,
and each is proved for a block of the form by what kind of block it is. For
operands the question is whether the new name names something: a PHI node that
is in a tail, a clone that is earlier in the same arm, or what was there
before. `Instance` lists what an instruction of the form can be, so that a
property of all instructions has a case for the clones, for the PHI nodes and
for the test instead of one for each block.
-/

namespace LlvmPasses.DuplicateBB

open Ir Ir.Function Table

variable {F : Function} {rs : List Round} {r r' : Round} {p p' : Part} {j j' k id : Nat}
variable {c : Copy}

/-! ## Operands -/

theorem mem_order_old (h : Planned F rs) (hj : j ∈ F.order) : j ∈ (form F rs).order := by
  by_cases hno : ∀ r ∈ rs, r.bb ≠ j
  · exact (mem_order_form h).mpr (.inr ⟨hj, hno⟩)
  · push Not at hno
    obtain ⟨r, hr, rfl⟩ := hno
    exact (mem_order_form h).mpr (.inl ⟨r, hr, .head, rfl⟩)

theorem mem_order_handle (h : Planned F rs) (hr : r ∈ rs) (p : Part) :
    r.handle p ∈ (form F rs).order :=
  (mem_order_form h).mpr (.inl ⟨r, hr, p, rfl⟩)

theorem defs_copy (hc : c ∈ copiesOf F r) (hid : id ∈ c.idsAt p) :
    (id, c.old.ty) ∈ (partBlock F rs r p).defs := by
  have hclone : ∀ (arm : Copy → Nat) (o : Nat), id = arm c → (id, c.old.ty) ∈
      (Block.mk (clones arm (allCopies F rs) [] (copiesOf F r))
        (branch r o [.block r.block])).defs := by
    rintro arm o rfl
    rw [Block.defs, defs_clones]
    exact List.mem_append_left _ (List.mem_map.mpr ⟨c, hc, rfl⟩)
  cases p with
  | head => cases hid
  | thenArm => exact hclone Copy.thenId 2 (List.mem_singleton.mp hid)
  | elseArm => exact hclone Copy.elseId 3 (List.mem_singleton.mp hid)
  | tail =>
      have hmerge : merge (r.block + 1) (r.block + 2) c =
          some ⟨id, c.old.ty, .phi, [.inst c.thenId, .inst c.elseId],
            [r.block + 1, r.block + 2], {}⟩ := by
        unfold merge
        rw [Option.mem_toList.mp hid]
        rfl
      exact List.mem_append_left _ (List.mem_map_of_mem (List.mem_filterMap.mpr ⟨c, hc, hmerge⟩))

/-- A copy can be named as what was copied can. -/
theorem names_copy (h : Planned F rs) (hI : Issued F) (hr : r ∈ rs) (hc : c ∈ copiesOf F r)
    (hid : id ∈ c.idsAt p) (hty : c.old.ty ≠ .void) : (form F rs).Names (.inst id) :=
  ⟨(id, c.old.ty), mem_defs_part h hI hr (defs_copy hc hid), rfl, hty⟩

/-- What is named has a type, and so has its copy. -/
theorem ty_of_names (hF : F.WellFormed) (h : Planned F rs) (hr : r ∈ rs) (hc : c ∈ copiesOf F r)
    (hn : F.Names (.inst c.old.id)) : c.old.ty ≠ .void :=
  ty_of_named hF (mem_defs_of_body (h.mem r hr) (old_mem hc)) hn

theorem names_toPhi (hF : F.WellFormed) (hI : Issued F) (h : Planned F rs) {v : Value}
    (hv : F.Names v) : (form F rs).Names (toPhi (allCopies F rs) v) := by
  cases v with
  | inst id =>
      cases hf : findCopy (allCopies F rs) id with
      | none =>
          obtain ⟨d, hd, rfl, hty⟩ := hv
          show (form F rs).Names (.inst (phiName (allCopies F rs) d.1))
          rw [phiName_of_none hf]
          exact ⟨d, mem_defs_form hI h hd hf, rfl, hty⟩
      | some c =>
          obtain ⟨hmem, rfl⟩ := findCopy_some hf
          obtain ⟨r, hr, hc⟩ := List.mem_flatMap.mp hmem
          have hty := ty_of_names hF h hr hc hv
          show (form F rs).Names (.inst (phiName (allCopies F rs) c.old.id))
          rw [phiName_of_some hf]
          cases hphi : c.phiId with
          | none => exact absurd (eq_void ((phiId_eq_none hc).mp hphi)) hty
          | some q =>
              exact names_copy (p := .tail) h hI hr hc (Option.mem_toList.mpr hphi) hty
  | block k => exact mem_order_old h hv
  | arg i => exact hv
  | _ => trivial

/-- In an arm the copies made before go by their clones. -/
theorem names_toArm (hF : F.WellFormed) (hI : Issued F) (h : Planned F rs) (hr : r ∈ rs)
    {arm : Copy → Nat} (harm : ∀ c : Copy, arm c ∈ c.idsAt p) {done : List Copy}
    (hdone : ∀ c ∈ done, c ∈ copiesOf F r) {v : Value} (hv : F.Names v) :
    (form F rs).Names (toArm arm done (allCopies F rs) v) := by
  cases v with
  | inst id =>
      cases hf : findCopy done id with
      | none =>
          have hphi := names_toPhi hF hI h hv
          show (form F rs).Names (.inst (armName arm done (allCopies F rs) id))
          rwa [armName_of_none hf]
      | some c =>
          obtain ⟨hmem, rfl⟩ := findCopy_some hf
          have hc := hdone c hmem
          show (form F rs).Names (.inst (armName arm done (allCopies F rs) c.old.id))
          rw [armName_of_some hf]
          exact names_copy h hI hr hc (harm c) (ty_of_names hF h hr hc hv)
  | block k => exact mem_order_old h hv
  | arg i => exact hv
  | _ => trivial

/-- A clone, and the copies made before it. -/
theorem mem_clones {arm : Copy → Nat} {all before rest : List Copy} {i : Instr Op}
    (hi : i ∈ clones arm all before rest) : ∃ done, ∃ c ∈ rest,
      (∀ d ∈ done, d ∈ before ++ rest) ∧
        i = { c.old.mapOperands (toArm arm done all) with id := arm c } := by
  induction rest generalizing before with
  | nil => cases hi
  | cons c rest ih =>
      rcases List.mem_cons.mp hi with rfl | hi
      · exact ⟨before, c, List.mem_cons_self .., fun d hd => List.mem_append_left _ hd, rfl⟩
      · obtain ⟨done, c', hc', hdone, rfl⟩ := ih hi
        refine ⟨done, c', List.mem_cons_of_mem _ hc', fun d hd => ?_, rfl⟩
        have hmem := hdone d hd
        rwa [List.append_assoc] at hmem

theorem mem_operands_phi (hj : j ∈ F.order) (hF : F.WellFormed) {i : Instr Op}
    (hi : i ∈ (F.block j).phis) {v : Value} (hv : v ∈ i.operands) : F.Names v :=
  hF.operands j hj v (List.mem_append_left _
    (List.mem_flatMap.mpr ⟨i, (List.takeWhile_sublist _).subset hi, hv⟩))

theorem mem_operands_body (hj : j ∈ F.order) (hF : F.WellFormed) {i : Instr Op}
    (hi : i ∈ (F.block j).body) {v : Value} (hv : v ∈ i.operands) : F.Names v :=
  hF.operands j hj v (List.mem_append_left _
    (List.mem_flatMap.mpr ⟨i, (List.dropWhile_sublist _).subset hi, hv⟩))

theorem names_headPhis (hF : F.WellFormed) (hI : Issued F) (h : Planned F rs) (hj : j ∈ F.order)
    {v : Value} (hv : v ∈ ((F.block j).phis.map (headPhi F rs j)).flatMap Instr.operands) :
    (form F rs).Names v := by
  obtain ⟨i, hi, hv⟩ := List.mem_flatMap.mp hv
  obtain ⟨phi, hphi, rfl⟩ := List.mem_map.mp hi
  obtain ⟨u, hu, rfl⟩ := List.mem_map.mp hv
  exact names_toPhi hF hI h (mem_operands_phi hj hF hphi hu)

theorem names_term (hF : F.WellFormed) (hI : Issued F) (h : Planned F rs) (hj : j ∈ F.order)
    {v : Value} (hv : v ∈ ((F.block j).term.mapOperands (toPhi (allCopies F rs))).operands) :
    (form F rs).Names v := by
  obtain ⟨u, hu, rfl⟩ := List.mem_map.mp hv
  exact names_toPhi hF hI h (hF.operands j hj u (List.mem_append_right _ hu))

theorem names_arm (hF : F.WellFormed) (hI : Issued F) (h : Planned F rs) (hr : r ∈ rs)
    {arm : Copy → Nat} (harm : ∀ c : Copy, arm c ∈ c.idsAt p) {v : Value} {o : Nat}
    (hv : v ∈ (Block.mk (clones arm (allCopies F rs) [] (copiesOf F r))
      (branch r o [.block r.block])).operands) : (form F rs).Names v := by
  rcases List.mem_append.mp hv with hv | hv
  · obtain ⟨i, hi, hv⟩ := List.mem_flatMap.mp hv
    obtain ⟨done, c, hc, hdone, rfl⟩ := mem_clones hi
    obtain ⟨u, hu, rfl⟩ := List.mem_map.mp hv
    exact names_toArm hF hI h hr harm hdone (mem_operands_body (h.mem r hr) hF (old_mem hc) hu)
  · obtain rfl := List.mem_singleton.mp hv
    exact mem_order_handle h hr .tail

theorem names_part (hF : F.WellFormed) (hI : Issued F) (h : Planned F rs) (hr : r ∈ rs)
    {v : Value} (hv : v ∈ (partBlock F rs r p).operands) : (form F rs).Names v := by
  have hk := h.mem r hr
  cases p with
  | head =>
      unfold partBlock Block.operands at hv
      rw [List.flatMap_append] at hv
      rcases List.mem_append.mp hv with hv | hv
      · rcases List.mem_append.mp hv with hv | hv
        · exact names_headPhis hF hI h hk hv
        · rw [List.flatMap_singleton] at hv
          obtain ⟨u, hu, rfl⟩ := List.mem_map.mp hv
          refine names_toPhi hF hI h ?_
          rcases List.mem_cons.mp hu with rfl | hu
          · exact h.names r hr
          · obtain rfl := List.mem_singleton.mp hu
            trivial
      · simp only [branch, List.mem_cons, List.not_mem_nil, or_false] at hv
        rcases hv with rfl | rfl | rfl
        · refine ⟨(r.inst, .int 1), mem_defs_part (p := .head) h hI hr ?_, rfl, by simp⟩
          unfold partBlock
          rw [defs_append]
          exact List.mem_append_right _ (List.mem_cons_self ..)
        · exact mem_order_handle h hr .elseArm
        · exact mem_order_handle h hr .thenArm
  | thenArm => exact names_arm (p := .thenArm) hF hI h hr (fun _ => List.mem_singleton_self _) hv
  | elseArm => exact names_arm (p := .elseArm) hF hI h hr (fun _ => List.mem_singleton_self _) hv
  | tail =>
      rcases List.mem_append.mp hv with hv | hv
      · obtain ⟨i, hi, hv⟩ := List.mem_flatMap.mp hv
        obtain ⟨c, hc, hi⟩ := List.mem_filterMap.mp hi
        obtain ⟨q, hq, rfl⟩ := Option.map_eq_some_iff.mp hi
        have hty : c.old.ty ≠ .void := by
          intro hvoid
          have hnone := (phiId_eq_none hc).mpr (by rw [hvoid]; rfl)
          rw [hq] at hnone
          cases hnone
        simp only [List.mem_cons, List.not_mem_nil, or_false] at hv
        rcases hv with rfl | rfl
        · exact names_copy (p := .thenArm) h hI hr hc (List.mem_singleton_self _) hty
        · exact names_copy (p := .elseArm) h hI hr hc (List.mem_singleton_self _) hty
      · exact names_term hF hI h hk hv

theorem names_plain (hF : F.WellFormed) (hI : Issued F) (h : Planned F rs) (hj : j ∈ F.order)
    {v : Value} (hv : v ∈ (plainBlock F rs j).operands) : (form F rs).Names v := by
  unfold plainBlock Block.operands at hv
  rw [List.flatMap_append] at hv
  rcases List.mem_append.mp hv with hv | hv
  · rcases List.mem_append.mp hv with hv | hv
    · exact names_headPhis hF hI h hj hv
    · obtain ⟨i, hi, hv⟩ := List.mem_flatMap.mp hv
      obtain ⟨i, hbody, rfl⟩ := List.mem_map.mp hi
      obtain ⟨u, hu, rfl⟩ := List.mem_map.mp hv
      exact names_toPhi hF hI h (mem_operands_body hj hF hbody hu)
  · exact names_term hF hI h hj hv

/-! ## Instructions -/

/-- What an instruction of the form is. -/
inductive Instance (F : Function) (rs : List Round) (i : Instr Op) : Prop
  | phi (k : Nat) (phi : Instr Op) (hk : k ∈ F.order) (hphi : phi ∈ (F.block k).phis)
      (heq : i = headPhi F rs k phi)
  | test (r : Round) (hr : r ∈ rs)
      (heq : i = (test F r.inst r.checkValue).mapOperands (toPhi (allCopies F rs)))
  | clone (k : Nat) (old : Instr Op) (ρ : Nat → Nat) (id : Nat) (hk : k ∈ F.order)
      (hold : old ∈ (F.block k).body)
      (htype : ∀ v, F.Names v → (form F rs).typeOf (v.rename ρ) = F.typeOf v)
      (heq : i = { old.mapOperands (Value.rename ρ) with id })
  | merge (hop : i.op = .phi) (hlength : i.incoming.length = i.operands.length)

theorem typeOf_toArm (hF : F.WellFormed) (hI : Issued F) (h : Planned F rs) (hr : r ∈ rs)
    {arm : Copy → Nat} (harm : ∀ c : Copy, arm c ∈ c.idsAt p) {done : List Copy}
    (hdone : ∀ c ∈ done, c ∈ copiesOf F r) {v : Value} (hv : F.Names v) :
    (form F rs).typeOf (toArm arm done (allCopies F rs) v) = F.typeOf v := by
  cases v with
  | inst id =>
      show (form F rs).typeOf (.inst (armName arm done (allCopies F rs) id)) = _
      cases hf : findCopy done id with
      | none =>
          rw [armName_of_none hf]
          exact typeOf_toPhi hF hI h hv
      | some c =>
          obtain ⟨hmem, rfl⟩ := findCopy_some hf
          have hc := hdone c hmem
          have hdefs := mem_defs_of_body (h.mem r hr) (old_mem hc)
          rw [armName_of_some hf, typeOf_copy h hI (mem_allCopies hr hc)
            ((idsAt_sublist c p).subset (harm c)) (mem_defs_part h hI hr (defs_copy hc (harm c)))]
          exact (typeOf_inst hdefs fun d hd heq =>
            congrArg Prod.snd (key_inj hF.ids_nodup hd hdefs heq)).symm
  | _ => rfl

theorem instance_clones (hF : F.WellFormed) (hI : Issued F) (h : Planned F rs) (hr : r ∈ rs)
    {arm : Copy → Nat} (harm : ∀ c : Copy, arm c ∈ c.idsAt p) {i : Instr Op}
    (hi : i ∈ clones arm (allCopies F rs) [] (copiesOf F r)) : Instance F rs i := by
  obtain ⟨done, c, hc, hdone, rfl⟩ := mem_clones hi
  exact .clone r.bb c.old _ (arm c) (h.mem r hr) (old_mem hc)
    (fun v hv => typeOf_toArm hF hI h hr harm hdone hv) rfl

theorem instance_form (hF : F.WellFormed) (hI : Issued F) (h : Planned F rs)
    (hj : j ∈ (form F rs).order) {i : Instr Op} (hi : i ∈ ((form F rs).block j).instrs) :
    Instance F rs i := by
  rcases block_cases h hI hj with ⟨r, hr, p, -, hblock⟩ | ⟨hj, -, hblock⟩
  · rw [hblock] at hi
    cases p with
    | head =>
        rcases List.mem_append.mp hi with hi | hi
        · obtain ⟨phi, hphi, rfl⟩ := List.mem_map.mp hi
          exact .phi r.bb phi (h.mem r hr) hphi rfl
        · exact .test r hr (List.mem_singleton.mp hi)
    | thenArm =>
        exact instance_clones (p := .thenArm) hF hI h hr (fun _ => List.mem_singleton_self _) hi
    | elseArm =>
        exact instance_clones (p := .elseArm) hF hI h hr (fun _ => List.mem_singleton_self _) hi
    | tail =>
        obtain ⟨c, hc, hi⟩ := List.mem_filterMap.mp hi
        obtain ⟨q, hq, rfl⟩ := Option.map_eq_some_iff.mp hi
        exact .merge rfl rfl
  · rw [hblock] at hi
    rcases List.mem_append.mp hi with hi | hi
    · obtain ⟨phi, hphi, rfl⟩ := List.mem_map.mp hi
      exact .phi j phi hj hphi rfl
    · obtain ⟨old, hold, rfl⟩ := List.mem_map.mp hi
      exact .clone j old _ old.id hj hold (fun v hv => typeOf_toPhi hF hI h hv) rfl

/-- A PHI node is none of the body's. -/
theorem Instance.not_clone (hF : F.WellFormed) {old i : Instr Op} {ρ : Nat → Nat} (hk : k ∈ F.order)
    (hold : old ∈ (F.block k).body) (heq : i = { old.mapOperands (Value.rename ρ) with id }) :
    i.isPhi = false := by
  subst heq
  exact hF.phis k hk old hold

theorem phis_partBlock (hF : F.WellFormed) (hk : r.bb ∈ F.order) :
    ∀ i ∈ (partBlock F rs r p).body, i.isPhi = false := by
  have harm : ∀ (arm : Copy → Nat) (t : Instr TermOp),
      ∀ i ∈ (Block.mk (clones arm (allCopies F rs) [] (copiesOf F r)) t).body,
        i.isPhi = false := by
    intro arm t i hi
    obtain ⟨done, c, hc, -, rfl⟩ := mem_clones ((List.dropWhile_sublist _).subset hi)
    exact hF.phis r.bb hk c.old (old_mem hc)
  cases p with
  | head =>
      intro i hi
      have hbody := (phis_body_snoc (F.block r.bb) (f := headPhi F rs r.bb) isPhi_headPhi
        (i := (test F r.inst r.checkValue).mapOperands (toPhi (allCopies F rs))) rfl
        (branch r 1 [.inst r.inst, .block (r.block + 2), .block (r.block + 1)])).2
      have hi : i ∈ (partBlock F rs r .head).body := hi
      unfold partBlock at hi
      rw [hbody] at hi
      obtain rfl := List.mem_singleton.mp hi
      rfl
  | thenArm => exact harm _ _
  | elseArm => exact harm _ _
  | tail =>
      have hphi : ∀ i ∈ (partBlock F rs r .tail).instrs, i.isPhi = true := by
        intro i hi
        obtain ⟨c, -, hc⟩ := List.mem_filterMap.mp hi
        obtain ⟨q, -, rfl⟩ := Option.map_eq_some_iff.mp hc
        rfl
      have hbody : (partBlock F rs r .tail).body = [] := List.dropWhile_eq_nil_iff.mpr hphi
      rw [hbody]
      exact List.forall_mem_nil _

/-! ## Terminators -/

/-- Where control goes from a block of the form. -/
theorem successors_form (h : Planned F rs) (hI : Issued F) (hj : j ∈ (form F rs).order) :
    (∃ r ∈ rs, j = r.handle .head ∧
      (form F rs).successors j = [r.handle .thenArm, r.handle .elseArm]) ∨
    (∃ r ∈ rs, (j = r.handle .thenArm ∨ j = r.handle .elseArm) ∧
      (form F rs).successors j = [r.handle .tail]) ∨
    ∃ k ∈ F.order, ((∃ r ∈ rs, r.bb = k ∧ j = r.handle .tail) ∨ (j = k ∧ ∀ r ∈ rs, r.bb ≠ k)) ∧
      ((form F rs).block j).term = (F.block k).term.mapOperands (toPhi (allCopies F rs)) ∧
      (form F rs).successors j = F.successors k := by
  rcases block_cases h hI hj with ⟨r, hr, p, rfl, hblock⟩ | ⟨hj, hno, hblock⟩
  · have hsucc : (form F rs).successors (r.handle p) = (partBlock F rs r p).term.successors := by
      unfold Function.successors
      rw [hblock]
    cases p with
    | head => exact .inl ⟨r, hr, rfl, hsucc⟩
    | thenArm => exact .inr (.inl ⟨r, hr, .inl rfl, hsucc⟩)
    | elseArm => exact .inr (.inl ⟨r, hr, .inr rfl, hsucc⟩)
    | tail =>
        refine .inr (.inr ⟨r.bb, h.mem r hr, .inl ⟨r, hr, rfl, rfl⟩, ?_, ?_⟩)
        · rw [hblock]
          rfl
        · exact hsucc.trans (successors_rename _ _)
  · refine .inr (.inr ⟨j, hj, .inr ⟨rfl, hno⟩, ?_, ?_⟩)
    · rw [hblock]
      rfl
    · unfold Function.successors
      rw [hblock]
      exact successors_rename _ _

theorem handle_ne_entry (hF : F.WellFormed) (hI : Issued F) (h : Planned F rs) (hr : r ∈ rs)
    (hp : p ≠ .head) : r.handle p ≠ (form F rs).entry := by
  have hle := h.le_handle hr hp
  have hlt := hI.blocks _ hF.entry_mem
  rw [entry_form hF]
  omega

/-- The function that the rounds leave is well formed. -/
theorem wellFormed_form (hF : F.WellFormed) (hI : Issued F) (h : Planned F rs) :
    (form F rs).WellFormed where
  nonempty := List.ne_nil_of_mem (mem_order_old h hF.entry_mem)
  nodup := nodup_order_form hF hI h
  ids_nodup := nodup_ids_form hF hI h
  operands := by
    intro j hj v hv
    rcases block_cases h hI hj with ⟨r, hr, p, -, hblock⟩ | ⟨hj, -, hblock⟩
    · rw [hblock] at hv
      exact names_part hF hI h hr hv
    · rw [hblock] at hv
      exact names_plain hF hI h hj hv
  successors := by
    intro j hj i hi
    rcases successors_form h hI hj with ⟨r, hr, -, hsucc⟩ | ⟨r, hr, -, hsucc⟩ |
        ⟨k, hk, -, -, hsucc⟩ <;> rw [hsucc] at hi
    · simp only [List.mem_cons, List.not_mem_nil, or_false] at hi
      rcases hi with rfl | rfl
      · exact ⟨mem_order_handle h hr _, handle_ne_entry hF hI h hr nofun⟩
      · exact ⟨mem_order_handle h hr _, handle_ne_entry hF hI h hr nofun⟩
    · obtain rfl := List.mem_singleton.mp hi
      exact ⟨mem_order_handle h hr _, handle_ne_entry hF hI h hr nofun⟩
    · obtain ⟨hmem, hne⟩ := hF.successors k hk i hi
      rw [entry_form hF]
      exact ⟨mem_order_old h hmem, hne⟩
  terminators := by
    intro j hj hop
    rcases block_cases h hI hj with ⟨r, hr, p, -, hblock⟩ | ⟨hj, -, hblock⟩
    · rw [hblock] at hop ⊢
      cases p with
      | tail => exact hF.terminators _ (h.mem r hr) hop
      | _ => rfl
    · rw [hblock] at hop ⊢
      exact hF.terminators j hj hop
  debug := by
    intro j hj i hi hdebug
    cases instance_form hF hI h hj hi with
    | phi k phi hk hphi heq =>
        subst heq
        have hop : phi.isPhi = true := List.mem_takeWhile_imp hphi
        have hcall : phi.isDbgInfoIntrinsic = true := hdebug
        unfold Instr.isPhi at hop
        unfold Instr.isDbgInfoIntrinsic at hcall
        rw [beq_iff_eq] at hop hcall
        rw [hop] at hcall
        cases hcall
    | test r hr heq =>
        subst heq
        cases hdebug
    | clone k old ρ id hk hold _ heq =>
        subst heq
        obtain ⟨hty, hoperands⟩ := hF.debug k hk old ((List.dropWhile_sublist _).subset hold) hdebug
        refine ⟨hty, fun v hv => ?_⟩
        obtain ⟨u, hu, rfl⟩ := List.mem_map.mp hv
        have hinst := hoperands u hu
        cases u <;> exact hinst
    | merge hop _ =>
        unfold Instr.isDbgInfoIntrinsic at hdebug
        rw [hop] at hdebug
        cases hdebug
  phis := by
    intro j hj
    rcases block_cases h hI hj with ⟨r, hr, p, -, hblock⟩ | ⟨hj, -, hblock⟩
    · rw [hblock]
      exact phis_partBlock hF (h.mem r hr)
    · rw [hblock, body_plainBlock]
      intro i hi
      obtain ⟨old, hold, rfl⟩ := List.mem_map.mp hi
      exact hF.phis j hj old hold
  incoming := by
    intro j hj i hi
    have htrue : i.isPhi = true := List.mem_takeWhile_imp hi
    cases instance_form hF hI h hj ((List.takeWhile_sublist _).subset hi) with
    | phi k phi hk hphi heq =>
        subst heq
        show (phi.incoming.map _).length = (phi.operands.map _).length
        rw [List.length_map, List.length_map]
        exact hF.incoming k hk phi hphi
    | test r hr heq =>
        subst heq
        cases htrue
    | clone k old ρ id hk hold _ heq =>
        rw [Instance.not_clone hF hk hold heq] at htrue
        cases htrue
    | merge _ hlength => exact hlength

end LlvmPasses.DuplicateBB
