import LlvmPasses.Proofs.DuplicateNames

/-!
# What one duplication leaves

The loop over a tail in closed form, and with it one round of the pass. After
any number of rounds of the loop the arms hold the clones made so far, the tail
holds the PHI nodes that took the place of instructions, and every operand goes
by the names of the table. The loop's invariant says so, and what it says of the
maps is what makes the next clones right.

`duplicate_eq` is the result: one round of the pass, as the source has it with
its loops over maps and its replacements of uses, leaves a function that can be
written down (`copiedBlocks` after `splitAt`). From there on the pass is a fold
of these equations, and no module looks at the loop again.

`Copied` is the loop's invariant. In it `done` are the copies made and `todo`
the instructions to come; the arms hold the clones of `done`, in the tail there
is `inTail` of each copy and then `todo`, and the three maps have an entry for
every copy. A round on an instruction without result adds two clones
(`Copied.void`); a round on one with a result also replaces it by its PHI node,
and with it all its uses, those in the clones to come included (`Copied.phi`).
That replacing the uses is the same as reading operands through a table is the
content of the second section; it takes that a handle given out is newer than
everything in the tail (`Ready`).
-/

namespace LlvmPasses.DuplicateBB

open Ir

/-! ## The blocks -/

/-- The clones of an arm, given the copies made before them. -/
def clones (arm : Copy → Nat) (cs : List Copy) : List Copy → List Copy → List (Instr Op)
  | _, [] => []
  | before, c :: rest =>
      { c.old.mapOperands (toArm arm before cs) with id := arm c } ::
        clones arm cs (before ++ [c]) rest

/-- The PHI node of a copy. -/
def merge (thenBlock elseBlock : Nat) (c : Copy) : Option (Instr Op) :=
  c.phiId.map fun phiId =>
    ⟨phiId, c.old.ty, .phi, [.inst c.thenId, .inst c.elseId], [thenBlock, elseBlock], {}⟩

/-- What is in the tail for an instruction that has been copied. -/
def inTail (thenBlock elseBlock : Nat) (cs : List Copy) (c : Copy) : Instr Op :=
  (merge thenBlock elseBlock c).getD (c.old.mapOperands (toPhi cs))

/-- The blocks with the arms and the instructions of the tail given, and all
other operands under the names of the copies. -/
def withArms (G : Function) (thenBlock elseBlock tail : Nat) (cs : List Copy)
    (thens elses instrs : List (Instr Op)) (k : Nat) : Block :=
  if k = thenBlock then ⟨thens, (G.block thenBlock).term⟩
  else if k = elseBlock then ⟨elses, (G.block elseBlock).term⟩
  else if k = tail then ⟨instrs, (G.block tail).term.mapOperands (toPhi cs)⟩
  else (G.block k).mapOperands (toPhi cs)

/-- The blocks after the rounds that made the copies `cs`, with the
instructions `todo` still to come. -/
def blocksAfter (G : Function) (thenBlock elseBlock tail : Nat) (cs : List Copy)
    (todo : List (Instr Op)) : Nat → Block :=
  withArms G thenBlock elseBlock tail cs (clones Copy.thenId cs [] cs)
    (clones Copy.elseId cs [] cs)
    (cs.map (inTail thenBlock elseBlock cs) ++ todo.map (Instr.mapOperands (toPhi cs)))

/-! ## One replacement -/

section Replace

variable {ω : Type} {f g : Value → Value} {old new : Value}

theorem replaceUses_mapOperands (h : ∀ v, g v = if f v = old then new else f v)
    (i : Instr ω) : (i.mapOperands f).replaceUses old new = i.mapOperands g := by
  unfold Instr.mapOperands Instr.replaceUses
  simp only [List.map_map]
  congr 1
  exact List.map_congr_left fun v _ => (h v).symm

theorem replaceUses_mapOperands_block (h : ∀ v, g v = if f v = old then new else f v)
    (b : Block) : (b.mapOperands f).replaceUses old new = b.mapOperands g := by
  unfold Block.mapOperands Block.replaceUses
  simp only [List.map_map, replaceUses_mapOperands h]
  congr 1
  exact List.map_congr_left fun i _ => replaceUses_mapOperands h i

theorem replaceUses_of_not_mem {i : Instr ω} (h : old ∉ i.operands) :
    i.replaceUses old new = i := by
  have hmap : (i.operands.map fun v => if v = old then new else v) = i.operands := by
    have heq : ∀ v ∈ i.operands, (if v = old then new else v) = id v := by
      intro v hv
      exact if_neg fun hveq : v = old => h (hveq ▸ hv)
    rw [List.map_congr_left heq, List.map_id]
  unfold Instr.replaceUses
  rw [hmap]

end Replace

section Copies

variable {cs before rest : List Copy} {c d : Copy} {arm : Copy → Nat} {n next phiId : Nat}
variable {thenBlock elseBlock : Nat}

theorem clones_append (all : List Copy) :
    clones arm all before (rest ++ [c]) = clones arm all before rest ++
      [{ c.old.mapOperands (toArm arm (before ++ rest) all) with id := arm c }] := by
  induction rest generalizing before with
  | nil => simp [clones]
  | cons d rest ih => simp [clones, ih]

/-- A copy without PHI node changes no name. -/
theorem clones_void (hf : Fresh cs n next c) (hphi : c.phiId = none) :
    clones arm (cs ++ [c]) before rest = clones arm cs before rest := by
  induction rest generalizing before with
  | nil => rfl
  | cons d rest ih =>
      simp only [clones, toArm]
      rw [ih, armName_append_void hf.first hphi]

theorem inTail_void (hf : Fresh cs n next c) (hphi : c.phiId = none) :
    inTail thenBlock elseBlock (cs ++ [c]) d = inTail thenBlock elseBlock cs d := by
  unfold inTail toPhi
  rw [phiName_append_void hf.first hphi]

theorem Fresh.toPhi_append (hf : Fresh cs n next c) (hphi : c.phiId = some phiId) (v : Value) :
    toPhi (cs ++ [c]) v = if toPhi cs v = .inst c.old.id then .inst phiId else toPhi cs v :=
  rename_replace (phiName_append hf.first hphi hf.not_mem) v

theorem Fresh.toArm_append (hf : Fresh cs n next c) (hphi : c.phiId = some phiId)
    (hbefore : ∀ d ∈ before, d ∈ cs) (harm : ∀ d ∈ cs, arm d ∈ d.ids) (v : Value) :
    toArm arm before (cs ++ [c]) v =
      if toArm arm before cs v = .inst c.old.id then .inst phiId else toArm arm before cs v :=
  rename_replace (armName_append hf.first hphi hf.not_mem hbefore harm) v

theorem replaceUses_clones (hf : Fresh cs n next c) (hphi : c.phiId = some phiId)
    (harm : ∀ d ∈ cs, arm d ∈ d.ids) (hbefore : ∀ d ∈ before, d ∈ cs)
    (hrest : ∀ d ∈ rest, d ∈ cs) :
    (clones arm cs before rest).map (Instr.replaceUses (.inst c.old.id) (.inst phiId)) =
      clones arm (cs ++ [c]) before rest := by
  induction rest generalizing before with
  | nil => rfl
  | cons d rest ih =>
      obtain ⟨hd, hrest⟩ := List.forall_mem_cons.mp hrest
      have hbefore' : ∀ e ∈ before ++ [d], e ∈ cs := by
        intro e he
        rcases List.mem_append.mp he with he | he
        · exact hbefore e he
        · exact List.mem_singleton.mp he ▸ hd
      simp only [clones, List.map_cons]
      rw [ih hbefore' hrest, ← replaceUses_mapOperands (hf.toArm_append hphi hbefore harm) d.old]
      rfl

/-- What was put into the tail for a copy is no use of the instruction at hand,
unless it has no PHI node. -/
theorem replaceUses_inTail (hf : Fresh cs n next c) (hphi : c.phiId = some phiId)
    (hd : d ∈ cs) :
    (inTail thenBlock elseBlock cs d).replaceUses (.inst c.old.id) (.inst phiId) =
      inTail thenBlock elseBlock (cs ++ [c]) d := by
  unfold inTail merge
  cases hdphi : d.phiId with
  | none => exact replaceUses_mapOperands (hf.toPhi_append hphi) d.old
  | some p =>
      have hthen : ¬ d.thenId = c.old.id := fun h => hf.not_mem d hd (h ▸ thenId_mem d)
      have helse : ¬ d.elseId = c.old.id := fun h => hf.not_mem d hd (h ▸ elseId_mem d)
      simp [Instr.replaceUses, hthen, helse]

/-- The clone that a round puts into an arm. -/
theorem remap_armMap {m : ValueMap} (h : ArmMap arm cs n next m) {i : Instr Op}
    (hi : ∀ v ∈ i.operands, Below n v) :
    (i.mapOperands (toPhi cs)).remap m = i.mapOperands (toArm arm cs cs) := by
  have hoperands : ((i.operands.map (toPhi cs)).map fun v => (m v).getD v) =
      i.operands.map (toArm arm cs cs) := by
    rw [List.map_map]
    exact List.map_congr_left fun v hv => getD_armMap h (hi v hv)
  have hincoming : (i.remap m).incoming = i.incoming := by
    refine Eq.trans (List.map_congr_left fun k _ => ?_) (List.map_id i.incoming)
    have hk : m (.block k) = none := h.old (.block k) trivial
    rw [hk]
    rfl
  exact congrArg₂ (fun vs ks => { i with operands := vs, incoming := ks }) hoperands hincoming

end Copies

/-! ## The loop -/

/-- The PHI nodes of the copies, over what else a map holds. -/
def recordPhis (cs : List Copy) (m : ValueMap) : ValueMap
  | .inst id => ((phiOf cs id).map .inst).or (m (.inst id))
  | v => m v

/-- The loop after the rounds for `done`, with `todo` still to come. -/
structure Copied (G : Function) (thenBlock elseBlock tail : Nat) (valueToPhi : ValueMap)
    (done todo : List (Instr Op)) (s : State) : Prop where
  fn : s.fn = { G with
    block := blocksAfter G thenBlock elseBlock tail (copies G.nextInst done) todo
    nextInst := G.nextInst + used done }
  thenMap : ArmMap Copy.thenId (copies G.nextInst done) G.nextInst (G.nextInst + used done)
    s.thenVMap
  elseMap : ArmMap Copy.elseId (copies G.nextInst done) G.nextInst (G.nextInst + used done)
    s.elseVMap
  tailMap : ∀ v t, s.tailVMap v = some t → t = v
  phis : s.valueToPhi = recordPhis (copies G.nextInst done) valueToPhi
  free : s.freeList = (done.filter fun i => i.ty.isVoidTy).map Instr.id

/-- The function a tail is copied in: the arms are empty, and what is in the
tail is older than any handle that will be given out. -/
structure Ready (G : Function) (thenBlock elseBlock tail : Nat) (body : List (Instr Op)) :
    Prop where
  thenEmpty : (G.block thenBlock).instrs = []
  elseEmpty : (G.block elseBlock).instrs = []
  tailInstrs : (G.block tail).instrs = body
  thenElse : thenBlock ≠ elseBlock
  thenTail : thenBlock ≠ tail
  elseTail : elseBlock ≠ tail
  armTerms : ∀ k, k = thenBlock ∨ k = elseBlock → (G.block k).term.operands = [.block tail]
  nodup : (body.map Instr.id).Nodup
  ids : ∀ i ∈ body, i.id < G.nextInst
  operands : ∀ i ∈ body, ∀ v ∈ i.operands, Below G.nextInst v

section Loop

variable {G : Function} {thenBlock elseBlock tail : Nat} {valueToPhi : ValueMap}
variable {body done todo : List (Instr Op)} {instr : Instr Op} {s : State}

theorem toPhi_nil (v : Value) : toPhi [] v = v := by
  cases v <;> rfl

theorem copied_start (hr : Ready G thenBlock elseBlock tail body) :
    Copied G thenBlock elseBlock tail valueToPhi [] body { fn := G, valueToPhi } where
  fn := by
    have hblocks : blocksAfter G thenBlock elseBlock tail [] body = G.block := by
      funext k
      unfold blocksAfter withArms
      split
      · next hk =>
          rw [hk]
          exact congrArg (Block.mk · _) hr.thenEmpty.symm
      · split
        · next hk =>
            rw [hk]
            exact congrArg (Block.mk · _) hr.elseEmpty.symm
        · split
          · next hk =>
              have hmap : body.map (Instr.mapOperands (toPhi [])) = body := by
                rw [List.map_congr_left fun i _ => mapOperands_id toPhi_nil i, List.map_id']
              rw [hk, hmap, mapOperands_id toPhi_nil, ← hr.tailInstrs]
              rfl
          · exact mapOperands_block_id toPhi_nil _
    show G = { G with block := blocksAfter G thenBlock elseBlock tail [] body, nextInst := _ }
    rw [hblocks]
    rfl
  thenMap := ⟨fun v _ => by cases v <;> rfl, fun _ _ => rfl⟩
  elseMap := ⟨fun v _ => by cases v <;> rfl, fun _ _ => rfl⟩
  tailMap := nofun
  phis := by
    funext v
    cases v <;> rfl
  free := rfl

/-- The instruction at hand has not been copied, and all handles are newer. -/
theorem Ready.fresh (hr : Ready G thenBlock elseBlock tail body)
    (hbody : body = done ++ instr :: todo) :
    Fresh (copies G.nextInst done) G.nextInst (G.nextInst + used done)
      (Copy.make (G.nextInst + used done) instr) where
  ids := fun d hd id hid => mem_ids_copies hd hid
  le := Nat.le_add_right _ _
  old := hr.ids instr (by rw [hbody]; simp)
  first := findCopy_eq_none.mpr fun d hd heq => by
    have hnodup := hr.nodup
    rw [hbody, List.map_append, List.nodup_append] at hnodup
    exact hnodup.2.2 _ (List.mem_map_of_mem (old_mem hd)) _ (by simp [Copy.make]) heq

/-- The blocks with one more clone in each arm, the tail untouched. -/
def withClones (G : Function) (thenBlock elseBlock tail : Nat) (cs : List Copy) (c : Copy)
    (todo : List (Instr Op)) : Nat → Block :=
  withArms G thenBlock elseBlock tail cs
    (clones Copy.thenId cs [] cs ++
      [{ c.old.mapOperands (toArm Copy.thenId cs cs) with id := c.thenId }])
    (clones Copy.elseId cs [] cs ++
      [{ c.old.mapOperands (toArm Copy.elseId cs cs) with id := c.elseId }])
    (cs.map (inTail thenBlock elseBlock cs) ++
      (c.old :: todo).map (Instr.mapOperands (toPhi cs)))

theorem withClones_void {cs : List Copy} {c : Copy} {n next : Nat} (hf : Fresh cs n next c)
    (hphi : c.phiId = none) :
    withClones G thenBlock elseBlock tail cs c todo =
      blocksAfter G thenBlock elseBlock tail (cs ++ [c]) todo := by
  have harms : ∀ arm : Copy → Nat, clones arm (cs ++ [c]) [] (cs ++ [c]) =
      clones arm cs [] cs ++ [{ c.old.mapOperands (toArm arm cs cs) with id := arm c }] := by
    intro arm
    rw [clones_append, clones_void hf hphi, List.nil_append, toArm,
      armName_append_void hf.first hphi]
  have htail : (cs ++ [c]).map (inTail thenBlock elseBlock (cs ++ [c])) =
      cs.map (inTail thenBlock elseBlock cs) ++ [c.old.mapOperands (toPhi cs)] := by
    rw [List.map_append, List.map_congr_left fun d _ => inTail_void hf hphi, List.map_singleton,
      inTail_void hf hphi]
    simp [inTail, merge, hphi]
  have hnames : toPhi (cs ++ [c]) = toPhi cs := by
    unfold toPhi
    rw [phiName_append_void hf.first hphi]
  unfold withClones blocksAfter
  rw [harms, harms, htail, hnames, List.append_assoc]
  unfold withArms
  rw [hnames]
  rfl

/-- The blocks once the instruction has given way to its PHI node. -/
theorem withClones_phi (hr : Ready G thenBlock elseBlock tail body) {cs : List Copy} {c : Copy}
    {next : Nat} (hf : Fresh cs G.nextInst next c) {phi : Instr Op} (hphi : c.phiId = some phi.id)
    (heq : merge thenBlock elseBlock c = some phi) (k : Nat) :
    (let b := (withClones G thenBlock elseBlock tail cs c todo k).replaceUses
        (.inst c.old.id) (.inst phi.id)
      if k = tail then { b with instrs := b.instrs.set cs.length phi } else b) =
      blocksAfter G thenBlock elseBlock tail (cs ++ [c]) todo k := by
  have harms : ∀ arm : Copy → Nat, (∀ d ∈ cs, arm d ∈ d.ids) →
      (clones arm cs [] cs ++
        [{ c.old.mapOperands (toArm arm cs cs) with id := arm c }]).map
          (Instr.replaceUses (.inst c.old.id) (.inst phi.id)) =
        clones arm (cs ++ [c]) [] (cs ++ [c]) := by
    intro arm harm
    rw [clones_append, List.map_append, List.nil_append, List.map_singleton,
      replaceUses_clones hf hphi harm (by simp) fun _ h => h,
      ← replaceUses_mapOperands (hf.toArm_append hphi (fun _ h => h) harm) c.old]
    rfl
  have hterm : ∀ j, j = thenBlock ∨ j = elseBlock →
      (G.block j).term.replaceUses (.inst c.old.id) (.inst phi.id) = (G.block j).term := by
    intro j hj
    refine replaceUses_of_not_mem ?_
    rw [hr.armTerms j hj]
    simp
  have hnames := hf.toPhi_append hphi
  have hself : inTail thenBlock elseBlock (cs ++ [c]) c = phi := by
    rw [inTail, heq, Option.getD_some]
  have hdone : (cs.map (inTail thenBlock elseBlock cs)).map
      (Instr.replaceUses (.inst c.old.id) (.inst phi.id)) =
      cs.map (inTail thenBlock elseBlock (cs ++ [c])) := by
    rw [List.map_map]
    exact List.map_congr_left fun d hd => replaceUses_inTail hf hphi hd
  have htodo : (todo.map (Instr.mapOperands (toPhi cs))).map
      (Instr.replaceUses (.inst c.old.id) (.inst phi.id)) =
      todo.map (Instr.mapOperands (toPhi (cs ++ [c]))) := by
    rw [List.map_map]
    exact List.map_congr_left fun i _ => replaceUses_mapOperands hnames i
  have hlen : (cs.map (inTail thenBlock elseBlock (cs ++ [c]))).length = cs.length :=
    List.length_map ..
  unfold withClones blocksAfter withArms
  by_cases hthen : k = thenBlock
  · have htail : ¬ k = tail := fun h => hr.thenTail (hthen.symm.trans h)
    simp only [if_pos hthen, if_neg htail, Block.replaceUses]
    rw [harms Copy.thenId fun d _ => thenId_mem d, hterm _ (.inl rfl)]
  by_cases helse : k = elseBlock
  · have htail : ¬ k = tail := fun h => hr.elseTail (helse.symm.trans h)
    simp only [if_neg hthen, if_pos helse, if_neg htail, Block.replaceUses]
    rw [harms Copy.elseId fun d _ => elseId_mem d, hterm _ (.inr rfl)]
  by_cases htail : k = tail
  · simp only [if_neg hthen, if_neg helse, if_pos htail, Block.replaceUses]
    rw [List.map_append, hdone, List.map_cons, List.map_cons, htodo,
      replaceUses_mapOperands hnames c.old, replaceUses_mapOperands hnames (G.block tail).term,
      ← hlen, List.set_append_right _ _ (Nat.le_refl _), Nat.sub_self, List.map_append,
      List.map_singleton, hself, List.append_assoc]
    rfl
  · simp only [if_neg hthen, if_neg helse, if_neg htail]
    exact replaceUses_mapOperands_block hnames _

/-- The two clones of a round. -/
theorem insertClones (hr : Ready G thenBlock elseBlock tail body)
    (h : Copied G thenBlock elseBlock tail valueToPhi done (instr :: todo) s)
    (hi : instr ∈ body) :
    let cs := copies G.nextInst done
    let old := instr.mapOperands (toPhi cs)
    State.insertClone (State.insertClone s.fn thenBlock s.thenVMap old) elseBlock s.elseVMap old =
      { G with
        block := withClones G thenBlock elseBlock tail cs
          (Copy.make (G.nextInst + used done) instr) todo
        nextInst := G.nextInst + used done + 2 } := by
  intro cs old
  have hops := hr.operands instr hi
  have hthen : old.remap s.thenVMap = instr.mapOperands (toArm Copy.thenId cs cs) :=
    remap_armMap h.thenMap hops
  have helse : old.remap s.elseVMap = instr.mapOperands (toArm Copy.elseId cs cs) :=
    remap_armMap h.elseMap hops
  have hne : ¬ elseBlock = thenBlock := fun heq => hr.thenElse heq.symm
  unfold State.insertClone
  rw [hthen, helse, h.fn]
  unfold Function.setBlock
  simp only [Nat.add_assoc]
  congr 1
  funext k
  unfold withClones blocksAfter withArms
  by_cases hk : k = thenBlock
  · subst hk
    simp only [if_pos, if_neg hr.thenElse]
    rfl
  · by_cases hk' : k = elseBlock
    · subst hk'
      simp only [if_pos, if_neg hk]
      rfl
    · simp only [if_neg hk, if_neg hk']
      rfl

theorem instr_at (hr : Ready G thenBlock elseBlock tail body)
    (h : Copied G thenBlock elseBlock tail valueToPhi done (instr :: todo) s) :
    (s.fn.block tail).instrs[done.length]? =
      some (instr.mapOperands (toPhi (copies G.nextInst done))) := by
  have hthen : ¬ tail = thenBlock := fun heq => hr.thenTail heq.symm
  have helse : ¬ tail = elseBlock := fun heq => hr.elseTail heq.symm
  have hlen : ((copies G.nextInst done).map
      (inTail thenBlock elseBlock (copies G.nextInst done))).length = done.length := by
    rw [List.length_map, length_copies]
  rw [h.fn]
  unfold blocksAfter withArms
  simp only [if_neg hthen, if_neg helse, if_pos]
  rw [← hlen, List.getElem?_append_right (Nat.le_refl _), Nat.sub_self]
  rfl

theorem recordPhis_append {cs : List Copy} {c : Copy} (hc : findCopy cs c.old.id = none)
    {phiId : Nat} (hphi : c.phiId = some phiId) (m : ValueMap) :
    recordPhis (cs ++ [c]) m = (recordPhis cs m).insert (.inst c.old.id) (.inst phiId) := by
  funext v
  cases v with
  | inst id =>
      simp only [recordPhis, phiOf_append hc, ValueMap.insert, Value.inst.injEq]
      split
      · simp [hphi]
      · rfl
  | _ => simp [recordPhis, ValueMap.insert]

theorem recordPhis_void {cs : List Copy} {c : Copy} (hc : findCopy cs c.old.id = none)
    (hphi : c.phiId = none) (m : ValueMap) : recordPhis (cs ++ [c]) m = recordPhis cs m := by
  funext v
  cases v with
  | inst id => simp only [recordPhis, phiOf_append_void hc hphi]
  | _ => rfl

/-- An entry that is made under an instruction and moves to what replaces it is
an identity. -/
theorem identity_replace {m : ValueMap} {old new : Value} (h : ∀ v t, m v = some t → t = v) :
    ∀ v t, (m.insert old new).followReplacement old new v = some t → t = v := by
  intro v t hvt
  unfold ValueMap.followReplacement ValueMap.insert at hvt
  obtain ⟨t', htarget, rfl⟩ := Option.map_eq_some_iff.mp hvt
  by_cases hold : v = old
  · simp [hold] at htarget
  · by_cases hnew : v = new
    · subst hnew
      rw [if_neg hold, if_pos rfl, if_neg hold] at htarget
      cases hm : m v with
      | none =>
          simp only [hm, Option.none_or, if_pos, Option.some.injEq] at htarget
          rw [← htarget, if_neg hold]
      | some t'' =>
          rw [hm, Option.some_or] at htarget
          obtain rfl : t'' = t' := Option.some.inj htarget
          rw [h v t'' hm, if_neg hold]
    · rw [if_neg hold, if_neg hnew, if_neg hold] at htarget
      rw [h v t' htarget, if_neg hold]

theorem copies_snoc (n : Nat) : copies n (done ++ [instr]) =
    copies n done ++ [Copy.make (n + used done) instr] := copies_append

theorem used_snoc : used (done ++ [instr]) = used done + handles instr := by
  simp [used]

/-- One round on an instruction without result. -/
theorem Copied.void (hr : Ready G thenBlock elseBlock tail body)
    (h : Copied G thenBlock elseBlock tail valueToPhi done (instr :: todo) s)
    (hbody : body = done ++ instr :: todo) (hvoid : instr.ty.isVoidTy = true) :
    Copied G thenBlock elseBlock tail valueToPhi (done ++ [instr]) todo
      (s.duplicateInstr thenBlock elseBlock tail done.length) := by
  have hf := hr.fresh hbody
  have hclones := insertClones hr h (by rw [hbody]; simp)
  have hfirst : s.fn.nextInst = G.nextInst + used done := by rw [h.fn]
  have hnext : (State.insertClone s.fn thenBlock s.thenVMap
      (instr.mapOperands (toPhi (copies G.nextInst done)))).nextInst =
      G.nextInst + used done + 1 := by
    unfold State.insertClone
    rw [h.fn]
  have hphi : (Copy.make (G.nextInst + used done) instr).phiId = none := by
    simp [Copy.make, hvoid]
  have hused : used (done ++ [instr]) = used done + 2 := by
    rw [used_snoc, handles, if_pos hvoid]
  have hty : (instr.mapOperands (toPhi (copies G.nextInst done))).ty.isVoidTy = true := hvoid
  have hstep : s.duplicateInstr thenBlock elseBlock tail done.length =
      { s with
        fn := { G with
          block := withClones G thenBlock elseBlock tail (copies G.nextInst done)
            (Copy.make (G.nextInst + used done) instr) todo
          nextInst := G.nextInst + used done + 2 }
        thenVMap := s.thenVMap.insert (.inst instr.id) (.inst (G.nextInst + used done))
        elseVMap := s.elseVMap.insert (.inst instr.id) (.inst (G.nextInst + used done + 1))
        freeList := s.freeList ++ [instr.id] } := by
    unfold State.duplicateInstr
    rw [instr_at hr h]
    simp only [hclones, hnext, hfirst, hty, if_true]
    rfl
  rw [hstep]
  refine ⟨?_, ?_, ?_, h.tailMap, ?_, ?_⟩
  · simp only [copies_snoc, hused, withClones_void hf hphi, Nat.add_assoc]
  · rw [copies_snoc]
    exact h.thenMap.void hf hphi (by omega)
  · rw [copies_snoc]
    exact h.elseMap.void hf hphi (by omega)
  · rw [copies_snoc, recordPhis_void hf.first hphi]
    exact h.phis
  · rw [List.filter_append, List.map_append, ← h.free]
    simp [hvoid]

/-- One round on an instruction with a result. -/
theorem Copied.phi (hr : Ready G thenBlock elseBlock tail body)
    (h : Copied G thenBlock elseBlock tail valueToPhi done (instr :: todo) s)
    (hbody : body = done ++ instr :: todo) (hvoid : instr.ty.isVoidTy = false) :
    Copied G thenBlock elseBlock tail valueToPhi (done ++ [instr]) todo
      (s.duplicateInstr thenBlock elseBlock tail done.length) := by
  have hf := hr.fresh hbody
  have hclones := insertClones hr h (by rw [hbody]; simp)
  have hfirst : s.fn.nextInst = G.nextInst + used done := by rw [h.fn]
  have hnext : (State.insertClone s.fn thenBlock s.thenVMap
      (instr.mapOperands (toPhi (copies G.nextInst done)))).nextInst =
      G.nextInst + used done + 1 := by
    unfold State.insertClone
    rw [h.fn]
  have hphi : (Copy.make (G.nextInst + used done) instr).phiId =
      some (G.nextInst + used done + 2) := by
    simp [Copy.make, hvoid]
  have hused : used (done ++ [instr]) = used done + 3 := by
    rw [used_snoc, handles, if_neg (by simp [hvoid])]
  have hty : (instr.mapOperands (toPhi (copies G.nextInst done))).ty.isVoidTy = false := hvoid
  let n := G.nextInst + used done
  let phi : Instr Op := ⟨n + 2, instr.ty, .phi, [.inst n, .inst (n + 1)],
    [thenBlock, elseBlock], {}⟩
  have hmerge : merge thenBlock elseBlock (Copy.make n instr) = some phi := by
    rw [merge, hphi]
    rfl
  have hfn : State.replaceInst
      { G with
        block := withClones G thenBlock elseBlock tail (copies G.nextInst done)
          (Copy.make n instr) todo
        nextInst := n + 3 } tail done.length instr phi =
      { G with
        block := blocksAfter G thenBlock elseBlock tail (copies G.nextInst (done ++ [instr])) todo
        nextInst := n + 3 } := by
    refine congrArg (fun blocks => { G with block := blocks, nextInst := n + 3 })
      (funext fun k => ?_)
    rw [copies_snoc, ← withClones_phi hr hf hphi hmerge k, length_copies]
    dsimp only
    split
    · next hk =>
        rw [hk]
        rfl
    · rfl
  have hstep : s.duplicateInstr thenBlock elseBlock tail done.length =
      { s with
        fn := { G with
          block := blocksAfter G thenBlock elseBlock tail
            (copies G.nextInst (done ++ [instr])) todo
          nextInst := n + 3 }
        tailVMap := (s.tailVMap.insert (.inst instr.id) (.inst (n + 2))).followReplacement
          (.inst instr.id) (.inst (n + 2))
        thenVMap := (s.thenVMap.insert (.inst instr.id) (.inst n)).followReplacement
          (.inst instr.id) (.inst (n + 2))
        elseVMap := (s.elseVMap.insert (.inst instr.id) (.inst (n + 1))).followReplacement
          (.inst instr.id) (.inst (n + 2))
        valueToPhi := s.valueToPhi.insert (.inst instr.id) (.inst (n + 2)) } := by
    rw [← hfn]
    unfold State.duplicateInstr
    rw [instr_at hr h]
    simp only [hclones, hnext, hfirst, hty, Bool.false_eq_true, if_false]
    rfl
  rw [hstep]
  refine ⟨?_, ?_, ?_, ?_, ?_, ?_⟩
  · rw [hused]
    rfl
  · rw [copies_snoc]
    exact h.thenMap.phi hf (fun d _ => thenId_mem d) hphi (Nat.le_refl _) (by omega) (by omega)
  · rw [copies_snoc]
    exact h.elseMap.phi hf (fun d _ => elseId_mem d) hphi (Nat.le_succ _) (by omega)
      (by omega)
  · exact identity_replace h.tailMap
  · rw [copies_snoc, recordPhis_append hf.first hphi, ← h.phis]
    rfl
  · rw [List.filter_append, List.map_append, ← h.free]
    simp [hvoid]

/-- The loop makes all copies. -/
theorem copied_all (hr : Ready G thenBlock elseBlock tail body) :
    Copied G thenBlock elseBlock tail valueToPhi body []
      ((List.range body.length).foldl (State.duplicateInstr thenBlock elseBlock tail)
        { fn := G, valueToPhi }) := by
  have hprefix : ∀ k ≤ body.length, Copied G thenBlock elseBlock tail valueToPhi
      (body.take k) (body.drop k) ((List.range k).foldl
        (State.duplicateInstr thenBlock elseBlock tail) { fn := G, valueToPhi }) := by
    intro k
    induction k with
    | zero => exact fun _ => copied_start hr
    | succ k ih =>
        intro hk
        have hlt : k < body.length := hk
        have h := ih (Nat.le_of_lt hlt)
        have hbody : body = body.take k ++ body[k] :: body.drop (k + 1) := by
          rw [← List.drop_eq_getElem_cons hlt, List.take_append_drop]
        have hlen : (body.take k).length = k := by
          rw [List.length_take]
          omega
        rw [List.drop_eq_getElem_cons hlt] at h
        rw [List.range_succ, List.foldl_append, ← List.take_append_getElem hlt]
        show Copied _ _ _ _ _ _ _ (State.duplicateInstr thenBlock elseBlock tail _ k)
        cases hvoid : body[k].ty.isVoidTy with
        | true =>
            have hvoid := h.void hr hbody hvoid
            rwa [hlen] at hvoid
        | false =>
            have hphi := h.phi hr hbody hvoid
            rwa [hlen] at hphi
  have h := hprefix body.length (Nat.le_refl _)
  rwa [List.take_length, List.drop_length] at h

/-! ## After the loop -/

/-- The blocks once the tail has lost what has no PHI node. -/
def copiedBlocks (G : Function) (thenBlock elseBlock tail : Nat) (cs : List Copy) :
    Nat → Block :=
  withArms G thenBlock elseBlock tail cs (clones Copy.thenId cs [] cs)
    (clones Copy.elseId cs [] cs) (cs.filterMap (merge thenBlock elseBlock))

theorem filter_inTail {cs : List Copy} {free : List Nat}
    (hfree : ∀ c ∈ cs, c.phiId = none → c.old.id ∈ free)
    (hphi : ∀ c ∈ cs, ∀ p, c.phiId = some p → p ∉ free) (all : List Copy) :
    (cs.map (inTail thenBlock elseBlock all)).filter (fun i => i.id ∉ free) =
      cs.filterMap (merge thenBlock elseBlock) := by
  induction cs with
  | nil => rfl
  | cons c cs ih =>
      obtain ⟨hfree₁, hfrees⟩ := List.forall_mem_cons.mp hfree
      obtain ⟨hphi₁, hphis⟩ := List.forall_mem_cons.mp hphi
      rw [List.map_cons, List.filterMap_cons]
      cases hc : c.phiId with
      | none =>
          have hid : (inTail thenBlock elseBlock all c).id ∈ free := by
            simpa [inTail, merge, hc, Instr.mapOperands] using hfree₁ hc
          have hnone : merge thenBlock elseBlock c = none := by simp [merge, hc]
          rw [List.filter_cons_of_neg (by simpa using hid), hnone, ih hfrees hphis]
      | some p =>
          have hid : (inTail thenBlock elseBlock all c).id ∉ free := by
            simpa [inTail, merge, hc] using hphi₁ p hc
          obtain ⟨phi, hsome⟩ : ∃ phi, merge thenBlock elseBlock c = some phi := by
            simp [merge, hc]
          have hself : inTail thenBlock elseBlock all c = phi := by
            rw [inTail, hsome, Option.getD_some]
          rw [List.filter_cons_of_pos (by simpa using hid), hsome, ih hfrees hphis, hself]

theorem remap_identity {ω : Type} {m : ValueMap} (h : ∀ v t, m v = some t → t = v)
    (i : Instr ω) : i.remap m = i := by
  have hoperands : (i.operands.map fun v => (m v).getD v) = i.operands := by
    have heq : ∀ v ∈ i.operands, (m v).getD v = id v := by
      intro v _
      cases hv : m v with
      | none => rfl
      | some t => exact h v t hv
    rw [List.map_congr_left heq, List.map_id]
  have hincoming : (i.remap m).incoming = i.incoming := by
    refine Eq.trans (List.map_congr_left fun k _ => ?_) (List.map_id i.incoming)
    cases hk : m (.block k) with
    | none => rfl
    | some t =>
        rw [h _ t hk]
        rfl
  exact congrArg₂ (fun vs ks => { i with operands := vs, incoming := ks }) hoperands hincoming

/-- The loop and what comes after it. -/
theorem finish_copied (hr : Ready G thenBlock elseBlock tail body)
    (h : Copied G thenBlock elseBlock tail valueToPhi body [] s) :
    (s.finish tail).valueToPhi = recordPhis (copies G.nextInst body) valueToPhi ∧
      (s.finish tail).fn = { G with
        block := copiedBlocks G thenBlock elseBlock tail (copies G.nextInst body)
        nextInst := G.nextInst + used body } := by
  refine ⟨h.phis, ?_⟩
  have hmem : ∀ c ∈ copies G.nextInst body, c.old ∈ body := fun c hc => old_mem hc
  have hfree : ∀ c ∈ copies G.nextInst body, c.phiId = none → c.old.id ∈ s.freeList := by
    intro c hc hphi
    rw [h.free]
    exact List.mem_map_of_mem
      (List.mem_filter.mpr ⟨hmem c hc, (phiId_eq_none hc).mp hphi⟩)
  have hphi : ∀ c ∈ copies G.nextInst body, ∀ p, c.phiId = some p → p ∉ s.freeList := by
    intro c hc p hp hin
    rw [h.free] at hin
    obtain ⟨i, hi, rfl⟩ := List.mem_map.mp hin
    have hold := hr.ids i (List.mem_filter.mp hi).1
    have hnew := (mem_ids_copies hc (phiId_mem hp)).1
    omega
  have hthen : ¬ tail = thenBlock := fun heq => hr.thenTail heq.symm
  have helse : ¬ tail = elseBlock := fun heq => hr.elseTail heq.symm
  unfold State.finish Function.setBlock
  rw [h.fn]
  simp only [remap_identity h.tailMap]
  refine congrArg (fun blocks => { G with block := blocks, nextInst := G.nextInst + used body })
    (funext fun k => ?_)
  unfold blocksAfter copiedBlocks withArms
  by_cases hk : k = tail
  · subst hk
    simp only [if_pos, if_neg hthen, if_neg helse, List.map_nil, List.append_nil]
    rw [filter_inTail hfree hphi]
  · simp only [if_neg hk]

end Loop

/-! ## One round of the pass -/

/-- The test that is put into a block. -/
def test (F : Function) (id : Nat) (value : Value) : Instr Op :=
  let width := match F.typeOf value with
    | .int w => w
    | _ => 0
  ⟨id, .int 1, .icmp .eq, [value, .constInt width 0], [], {}⟩

/-- A block can be split in `F`: what is in it is older than any handle that
will be given out. -/
structure Splits (F : Function) (k : Nat) : Prop where
  block : k < F.nextBlock
  nodup : ((F.block k).body.map Instr.id).Nodup
  ids : ∀ i ∈ (F.block k).body, i.id < F.nextInst
  operands : ∀ i ∈ (F.block k).body, ∀ v ∈ i.operands, Below F.nextInst v

/-- The function as it is split, before anything is copied. -/
def splitAt (F : Function) (k : Nat) (value : Value) : Function :=
  (Function.splitBlockAndInsertIfThenElse { F with nextInst := F.nextInst + 1 } k
    (test F F.nextInst value)).fn

/-- The copies that a round makes. -/
def copiesAt (F : Function) (k : Nat) : List Copy := copies (F.nextInst + 4) (F.block k).body

section Round

variable {F : Function} {k : Nat} {value : Value}

theorem ready_splitAt (h : Splits F k) :
    Ready (splitAt F k value) (F.nextBlock + 1) (F.nextBlock + 2) F.nextBlock
      (F.block k).body := by
  have hk := h.block
  have h₀ : ¬ F.nextBlock = k := by omega
  have h₁ : ¬ F.nextBlock + 1 = k := by omega
  have h₂ : ¬ F.nextBlock + 2 = k := by omega
  have hle : F.nextInst ≤ (splitAt F k value).nextInst := Nat.le_add_right F.nextInst 4
  refine ⟨?_, ?_, ?_, by omega, by omega, by omega, ?_, h.nodup, ?_, ?_⟩
  · simp [splitAt, Function.splitBlockAndInsertIfThenElse, h₁]
  · simp [splitAt, Function.splitBlockAndInsertIfThenElse, h₂]
  · simp [splitAt, Function.splitBlockAndInsertIfThenElse, h₀]
  · rintro j (rfl | rfl)
    · simp [splitAt, Function.splitBlockAndInsertIfThenElse, h₁]
    · simp [splitAt, Function.splitBlockAndInsertIfThenElse, h₂]
  · exact fun i hi => Nat.lt_of_lt_of_le (h.ids i hi) hle
  · intro i hi v hv
    have hv := h.operands i hi v hv
    cases v with
    | inst id => exact Nat.lt_of_lt_of_le hv hle
    | _ => trivial

/-- One round in closed form. -/
theorem duplicate_eq (h : Splits F k) (valueToPhi : ValueMap) (v : Value) :
    duplicate F valueToPhi (k, v) =
      ({ splitAt F k ((valueToPhi v).getD v) with
          block := copiedBlocks (splitAt F k ((valueToPhi v).getD v)) (F.nextBlock + 1)
            (F.nextBlock + 2) F.nextBlock (copiesAt F k)
          nextInst := F.nextInst + 4 + used (F.block k).body },
        recordPhis (copiesAt F k) valueToPhi) := by
  let G := splitAt F k ((valueToPhi v).getD v)
  have hr : Ready G (F.nextBlock + 1) (F.nextBlock + 2) F.nextBlock (F.block k).body :=
    ready_splitAt h
  have hloop : duplicate F valueToPhi (k, v) = (fun s : State => (s.fn, s.valueToPhi))
      (State.finish F.nextBlock ((List.range (G.block F.nextBlock).instrs.length).foldl
        (State.duplicateInstr (F.nextBlock + 1) (F.nextBlock + 2) F.nextBlock)
        { fn := G, valueToPhi })) := rfl
  have hall := @copied_all _ _ _ _ valueToPhi _ hr
  obtain ⟨hphis, hfn⟩ := finish_copied hr hall
  rw [hloop, hr.tailInstrs]
  exact Prod.ext hfn hphis

end Round

end LlvmPasses.DuplicateBB
