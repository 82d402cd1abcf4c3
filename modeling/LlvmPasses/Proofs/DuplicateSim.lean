import LlvmPasses.Ir.Meaning
import LlvmPasses.Ir.Results
import LlvmPasses.Proofs.DuplicateRounds

/-!
# Running the form

A run of the form goes along with the run of the function: through blocks that
no round has split in step, through a diamond by the test, one arm, and the PHI
nodes of the tail. In an arm the results of what has run go by the clones of the
arm, everywhere else by what has replaced them. The test needs an integer to
compare; as long as it gets one, both runs do the same.

`Match` is the relation between a machine on the function and one on the form.
It says in which block and before which instruction each is (`Place`), that
memory and events are the same, and that every value of the function is found
in the form under the name that operands use there. The step lemmas are by
place: a block that has not been split (`plain_step`), the head up to the
branch (`head_step`, `branch_step`), an arm (`arm_instr`, `arm_leave`) and the
tail (`tail_step`). Entering a block is one lemma for all of them, as every
block of the function begins with the same PHI nodes under other names
(`enter_match`).

The delicate steps are at the two ends of an arm. Inside it an operand that has
been copied goes by the arm's clone and all others by the PHI nodes; at its end
the tail's PHI nodes take over each clone's value, and the values go by the PHI
nodes again (`via_merge`).
-/

namespace LlvmPasses.DuplicateBB

open Ir Ir.Function Table Transition

variable {μ : Type} {W : World μ} {F : Function} {args : List Val} {rs : List Round} {r : Round}
variable {p : Part} {j k : Nat}

/-! ## Who goes by which name -/

/-- What operands of the function may name. -/
abbrev Named (F : Function) (id : Nat) : Prop := F.Names (.inst id)

theorem named_lt (hI : Issued F) {id : Nat} (h : Named F id) : id < F.nextInst := by
  obtain ⟨d, hd, rfl, -⟩ := h
  exact hI.insts d hd

/-- What a block defines outside its body has no copy, and neither has anything
in a block that has not been split. -/
theorem not_copied (hF : F.WellFormed) (h : Planned F rs) (hk : k ∈ F.order) {id : Nat}
    (hid : id ∈ (F.block k).defs.map Prod.fst)
    (hout : ∀ r ∈ rs, r.bb = k → id ∉ (F.block k).body.map Instr.id) :
    findCopy (allCopies F rs) id = none := by
  refine findCopy_eq_none.mpr fun c hc heq => ?_
  obtain ⟨r, hr, hc⟩ := List.mem_flatMap.mp hc
  have hbody : c.old.id ∈ (F.block r.bb).body.map Instr.id := List.mem_map_of_mem (old_mem hc)
  have hdefs : c.old.id ∈ (F.block r.bb).defs.map Prod.fst :=
    mem_ids.mpr (.inl ⟨c.old, (List.dropWhile_sublist _).subset (old_mem hc), rfl⟩)
  have hbb : r.bb = k := hF.block_unique (h.mem r hr) hk hdefs (heq ▸ hid)
  exact hout r hr hbb (heq ▸ hbb ▸ hbody)

theorem id_phi_not_body (hF : F.WellFormed) (hk : k ∈ F.order) {phi : Instr Op}
    (hphi : phi ∈ (F.block k).phis) : phi.id ∉ (F.block k).body.map Instr.id := by
  have hnodup := hF.block_nodup hk
  have hsplit : (F.block k).instrs = (F.block k).phis ++ (F.block k).body :=
    List.takeWhile_append_dropWhile.symm
  rw [Block.defs, hsplit, List.map_append, List.map_append, List.map_append, List.map_map,
    List.map_map] at hnodup
  intro hbody
  exact (List.nodup_append.mp hnodup.of_append_left).2.2 _ (List.mem_map_of_mem hphi) _ hbody rfl

theorem id_term_not_body (hF : F.WellFormed) (hk : k ∈ F.order) :
    (F.block k).term.id ∉ (F.block k).body.map Instr.id := by
  intro hbody
  obtain ⟨i, hi, heq⟩ := List.mem_map.mp hbody
  exact hF.id_ne_term hk ((List.dropWhile_sublist _).subset hi) heq

theorem not_copied_phi (hF : F.WellFormed) (h : Planned F rs) (hk : k ∈ F.order)
    {phi : Instr Op} (hphi : phi ∈ (F.block k).phis) :
    findCopy (allCopies F rs) phi.id = none :=
  not_copied hF h hk (mem_ids.mpr (.inl ⟨phi, (List.takeWhile_sublist _).subset hphi, rfl⟩))
    fun _ _ _ => id_phi_not_body hF hk hphi

theorem not_copied_term (hF : F.WellFormed) (h : Planned F rs) (hk : k ∈ F.order) :
    findCopy (allCopies F rs) (F.block k).term.id = none :=
  not_copied hF h hk (mem_ids.mpr (.inr rfl)) fun _ _ _ => id_term_not_body hF hk

/-- Nothing else goes by an old handle. -/
theorem phiName_ne_old (hF : F.WellFormed) (hI : Issued F) (h : Planned F rs) {id id' : Nat}
    (hid : id < F.nextInst) (hne : id' ≠ id) : phiName (allCopies F rs) id' ≠ id := by
  refine phiName_ne (fun c hc hmem => ?_) hne
  have hle := (h.separate hF hI).new c hc id hmem
  omega

/-- By what name a result with no copy goes. -/
theorem alone_of_not_copied (hF : F.WellFormed) (hI : Issued F) (h : Planned F rs) {id : Nat}
    (hid : id < F.nextInst) (hc : findCopy (allCopies F rs) id = none) :
    phiName (allCopies F rs) id = id ∧ Alone (phiName (allCopies F rs)) (Named F) id := by
  have hself := phiName_of_none hc
  refine ⟨hself, fun id' _ heq => ?_⟩
  by_contra hne
  exact phiName_ne_old hF hI h hid hne (heq.trans hself)

/-! ## One instruction -/

/-- What is the same in two runs, apart from where they are. -/
structure Level (ρ : Nat → Nat) (S : Nat → Prop) (m m' : Machine μ) : Prop where
  via : Env.Via ρ S m.env m'.env
  mem : m'.mem = m.mem
  trace : m'.trace = m.trace

section Instr

variable {ρ ρ' : Nat → Nat} {S : Nat → Prop} {m m' : Machine μ} {i : Instr Op} {id' : Nat}
variable {rest rest' : List (Instr Op)}

/-- After an instruction and its counterpart under other names. -/
structure Stepped (ρ : Nat → Nat) (S : Nat → Prop) (m m' : Machine μ)
    (rest rest' : List (Instr Op)) (ty : Ty) (id' : Nat) (n n' : Machine μ) : Prop where
  level : Level ρ S n n'
  block : n.block = m.block
  block' : n'.block = m'.block
  rest : n.rest = rest
  rest' : n'.rest = rest'
  result : ty ≠ .void → ∃ v, n'.env id' = some v ∧ v.hasTy ty = true
  frame : ∀ j, j ≠ id' → n'.env j = m'.env j

theorem execInstr_via (h : Level ρ S m m') (hops : ∀ id, .inst id ∈ i.operands → S id)
    (hself : S i.id → i.ty ≠ .void ∧ ρ' i.id = id')
    (hother : ∀ j, S j → j ≠ i.id → ρ' j = ρ j ∧ ρ j ≠ id') :
    Along (Stepped ρ' S m m' rest rest' i.ty id') (execInstr W args m i rest)
      (execInstr W args m' { i.mapOperands (Value.rename ρ) with id := id' } rest') := by
  have heffect : effect W args m'.env m'.mem { i.mapOperands (Value.rename ρ) with id := id' } =
      effect W args m.env m.mem i := by
    rw [h.mem]
    exact effect_rename h.via hops
  unfold execInstr
  rw [heffect, h.trace]
  cases effect W args m.env m.mem i with
  | done v mem events =>
      have hassign := @Env.Via.assign _ _ _ _ _ _ _ h.via i.ty v hself hother
      dsimp only [Instr.mapOperands]
      have hresult : ∀ env', m'.env.assign id' i.ty v = some env' →
          (i.ty ≠ .void → ∃ x, env' id' = some x ∧ x.hasTy i.ty = true) ∧
            ∀ j, j ≠ id' → env' j = m'.env j := fun env' => assign_some
      generalize m.env.assign i.id i.ty v = a at hassign ⊢
      generalize m'.env.assign id' i.ty v = a' at hassign hresult ⊢
      cases hassign with
      | none =>
          refine .off ?_
          rintro _ ⟨⟩
      | some hvia =>
          obtain ⟨hres, hframe⟩ := hresult _ rfl
          exact .on ⟨⟨hvia, rfl, rfl⟩, rfl, rfl, rfl, rfl, hres, hframe⟩
  | unwinds mem events => exact .off fun _ h => by cases h
  | never events => exact .off fun _ h => by cases h
  | undefined => exact .off fun _ h => by cases h

end Instr

/-! ## Where the runs are -/

/-- Which clones an arm runs. -/
def armId : Part → Copy → Nat
  | .thenArm => Copy.thenId
  | _ => Copy.elseId

/-- The values are there by what has replaced what. -/
abbrev Everywhere (F : Function) (rs : List Round) (m m' : Machine μ) : Prop :=
  Env.Via (phiName (allCopies F rs)) (Named F) m.env m'.env

/-- The value is there, and is an integer of its type. -/
def Testable (W : World μ) (F : Function) (args : List Val) (env : Env) (v : Value) : Prop :=
  ∃ (w : Nat) (x : BitVec w), F.typeOf v = .int w ∧ eval W args env v = some (.int w x)

/-- Whenever control comes to a block that is split, the value checked there is
an integer. -/
def Tested (W : World μ) (F : Function) (args : List Val) (rs : List Round) (m : Machine μ) :
    Prop :=
  ∀ r ∈ rs, m.block = r.bb → m.rest = (F.block r.bb).body → Testable W F args m.env r.checkValue

/-- Where the run of the form is when that of the function is somewhere. -/
inductive Place (W : World μ) (F : Function) (args : List Val) (rs : List Round)
    (m m' : Machine μ) : Prop
  | plain (hpart : partAt rs m.block = none) (hblock : m'.block = m.block)
      (hrest : m'.rest = m.rest.map (Instr.mapOperands (toPhi (allCopies F rs))))
      (hvia : Everywhere F rs m m')
  | head (r : Round) (hr : r ∈ rs) (hbb : m.block = r.bb)
      (hentry : m.rest = (F.block r.bb).body) (hblock : m'.block = r.bb)
      (hrest : m'.rest = [(test F r.inst r.checkValue).mapOperands (toPhi (allCopies F rs))])
      (hvia : Everywhere F rs m m')
  | branch (r : Round) (hr : r ∈ rs) (hbb : m.block = r.bb)
      (hentry : m.rest = (F.block r.bb).body) (hblock : m'.block = r.bb) (hrest : m'.rest = [])
      (hcond : ∃ b : BitVec 1, m'.env r.inst = some (.int 1 b))
      (htested : Testable W F args m.env r.checkValue) (hvia : Everywhere F rs m m')
  | arm (r : Round) (hr : r ∈ rs) (p : Part) (hp : p = .thenArm ∨ p = .elseArm)
      (hbb : m.block = r.bb) (done todo : List Copy) (hcopies : copiesOf F r = done ++ todo)
      (hrest : m.rest = todo.map Copy.old) (hblock : m'.block = r.handle p)
      (hrest' : m'.rest = clones (armId p) (allCopies F rs) done todo)
      (hvia : Env.Via (armName (armId p) done (allCopies F rs)) (Named F) m.env m'.env)
      (hresults : ∀ c ∈ done, c.old.ty ≠ .void →
        ∃ v, m'.env (armId p c) = some v ∧ v.hasTy c.old.ty = true)
      (htested : done = [] → Testable W F args m.env r.checkValue)
  | tail (r : Round) (hr : r ∈ rs) (hbb : m.block = r.bb) (hrest : m.rest = [])
      (hblock : m'.block = r.block) (hrest' : m'.rest = []) (hvia : Everywhere F rs m m')
      (htested : (F.block r.bb).body = [] → Testable W F args m.env r.checkValue)

structure Match (W : World μ) (F : Function) (args : List Val) (rs : List Round)
    (m m' : Machine μ) : Prop where
  inside : m.block ∈ F.order
  suffix : m.rest <:+ (F.block m.block).body
  mem : m'.mem = m.mem
  trace : m'.trace = m.trace
  place : Place W F args rs m m'

/-! ## Leaving a block -/

section Leave

theorem tailOf_cases (F : Function) (rs : List Round) (j k : Nat) :
    tailOf F rs j k = k ∨ ∃ r ∈ rs, r.bb = k ∧ tailOf F rs j k = r.block := by
  unfold tailOf
  cases hround : roundAt rs k with
  | none => exact .inl rfl
  | some r =>
      obtain ⟨hr, hbb⟩ := lookup_some hround
      dsimp only
      split
      · exact .inr ⟨r, hr, hbb, rfl⟩
      · exact .inl rfl

theorem tailOf_inj (h : Planned F rs) {k' : Nat} (hk : k < F.nextBlock) (hk' : k' < F.nextBlock)
    (heq : tailOf F rs j k = tailOf F rs j k') : k = k' := by
  rcases tailOf_cases F rs j k with hself | ⟨r, hr, hbb, hnew⟩ <;>
    rcases tailOf_cases F rs j k' with hself' | ⟨r', hr', hbb', hnew'⟩
  · rw [hself, hself'] at heq
    exact heq
  · have hle := h.block r' hr'
    omega
  · have hle := h.block r hr
    omega
  · obtain ⟨rfl, -⟩ := h.block_inj r hr r' hr' 0 (by decide) 0 (by decide)
      (hnew.symm.trans (heq.trans hnew'))
    exact hbb.symm.trans hbb'

/-- What comes in from a block comes in from its tail. -/
theorem getIncoming_headPhi (hI : Issued F) (h : Planned F rs) (hj : j ∈ F.order)
    {phi : Instr Op} (hphi : phi ∈ (F.block j).phis) (hk : k < F.nextBlock) :
    (headPhi F rs j phi).getIncomingValueForBlock (tailOf F rs j k) =
      (phi.getIncomingValueForBlock k).map (toPhi (allCopies F rs)) := by
  have hzip : (headPhi F rs j phi).entries =
      phi.entries.map (Prod.map (tailOf F rs j) (toPhi (allCopies F rs))) := List.zip_map ..
  have hlookup : lookup Prod.fst (headPhi F rs j phi).entries (tailOf F rs j k) =
      (lookup Prod.fst phi.entries k).map (Prod.map (tailOf F rs j) (toPhi (allCopies F rs))) := by
    rw [hzip]
    refine lookup_map (fun _ _ => rfl) fun e he heq => ?_
    have hmem : phi ∈ (F.block j).instrs := (List.takeWhile_sublist _).subset hphi
    refine tailOf_inj h (hI.incoming j hj e.1 ?_) hk heq
    exact List.mem_append_left _ (List.mem_flatMap.mpr ⟨phi, hmem, (List.of_mem_zip he).1⟩)
  show (lookup Prod.fst (headPhi F rs j phi).entries (tailOf F rs j k)).map Prod.snd =
    ((lookup Prod.fst phi.entries k).map Prod.snd).map _
  rw [hlookup, Option.map_map, Option.map_map]
  rfl

/-- A block of the function, in the form: its PHI nodes, and what is run next. -/
theorem entered (hI : Issued F) (h : Planned F rs) (hj : j ∈ F.order) :
    ((form F rs).block j).phis = (F.block j).phis.map (headPhi F rs j) ∧
      ((partAt rs j = none ∧ ((form F rs).block j).body =
        (F.block j).body.map (Instr.mapOperands (toPhi (allCopies F rs)))) ∨
      ∃ r ∈ rs, r.bb = j ∧ ((form F rs).block j).body =
        [(test F r.inst r.checkValue).mapOperands (toPhi (allCopies F rs))]) := by
  cases hq : partAt rs j with
  | none =>
      rw [block_form_none hq]
      exact ⟨phis_plainBlock, .inl ⟨rfl, body_plainBlock⟩⟩
  | some q =>
      obtain ⟨r, p⟩ := q
      obtain ⟨hr, hhandle⟩ := (h.partAt_eq_some hI).mp hq
      have hp : p = .head := by
        by_contra hp
        have hle := h.le_handle hr hp
        have hlt := hI.blocks j hj
        omega
      subst hp
      have hbb : r.bb = j := hhandle
      subst hbb
      rw [block_form_some hq]
      have hsplit := phis_body_snoc (F.block r.bb) (f := headPhi F rs r.bb) isPhi_headPhi
        (i := (test F r.inst r.checkValue).mapOperands (toPhi (allCopies F rs))) rfl
        (branch r 1 [.inst r.inst, .block (r.block + 2), .block (r.block + 1)])
      exact ⟨hsplit.1, .inr ⟨r, hr, rfl, hsplit.2⟩⟩

/-- Control goes to a block from another, or from its tail. -/
theorem enter_match (hF : F.WellFormed) (hI : Issued F) (h : Planned F rs) {m m' : Machine μ}
    (hk : m.block ∈ F.order) (hj : j ∈ F.successors m.block)
    (hblock : m'.block = tailOf F rs j m.block) (hmem : m'.mem = m.mem)
    (htrace : m'.trace = m.trace) (hvia : Everywhere F rs m m') :
    Along (Match W F args rs) (enter W F args m j) (enter W (form F rs) args m' j) := by
  have hjmem : j ∈ F.order := (hF.successors _ hk j hj).1
  obtain ⟨hphis, hbody⟩ := entered hI h hjmem
  have hget : ∀ phi ∈ (F.block j).phis,
      ((headPhi F rs j phi).getIncomingValueForBlock m'.block).bind (eval W args m'.env) =
        (phi.getIncomingValueForBlock m.block).bind (eval W args m.env) := by
    intro phi hphi
    rw [hblock, getIncoming_headPhi hI h hjmem hphi (hI.blocks _ hk)]
    cases hin : phi.getIncomingValueForBlock m.block with
    | none => rfl
    | some v =>
        have hv : F.Names v := hF.operands j hjmem v (List.mem_append_left _
          (List.mem_flatMap.mpr ⟨phi, (List.takeWhile_sublist _).subset hphi, incoming_mem hin⟩))
        refine hvia.eval fun id hid => ?_
        rwa [hid] at hv
  have hfix : ∀ phi ∈ (F.block j).phis, phiName (allCopies F rs) phi.id = phi.id ∧
      Alone (phiName (allCopies F rs)) (Named F) phi.id := by
    intro phi hphi
    exact alone_of_not_copied hF hI h (hI.insts _ (mem_defs_phi hjmem hphi))
      (not_copied_phi hF h hjmem hphi)
  have hread : Option.Rel (Env.Via (phiName (allCopies F rs)) (Named F))
      (readPhis (eval W args m.env) m.block (F.block j).phis m.env)
      (readPhis (eval W args m'.env) m'.block ((F.block j).phis.map (headPhi F rs j)) m'.env) :=
    @Env.Via.readPhis _ _ _ _ _ _ (headPhi F rs j) _ (fun _ _ => ⟨rfl, rfl⟩) hget hfix _ _ hvia
  unfold enter
  rw [hphis]
  generalize readPhis (eval W args m.env) m.block (F.block j).phis m.env = e at hread
  generalize readPhis (eval W args m'.env) m'.block ((F.block j).phis.map (headPhi F rs j))
    m'.env = e' at hread
  cases hread with
  | none =>
      rw [htrace]
      exact .off nofun
  | some hvia =>
      refine .on ⟨hjmem, List.suffix_refl _, hmem, htrace, ?_⟩
      rcases hbody with ⟨hpart, hbody⟩ | ⟨r, hr, rfl, hbody⟩
      · exact .plain hpart rfl hbody hvia
      · exact .head r hr rfl rfl rfl hbody hvia

/-- The terminator of a block, wherever the form has it. -/
theorem term_match (hF : F.WellFormed) (hI : Issued F) (h : Planned F rs) {m m' : Machine μ}
    (hk : m.block ∈ F.order) (hblock : ∀ j ∈ F.successors m.block, m'.block = tailOf F rs j m.block)
    (hmem : m'.mem = m.mem) (htrace : m'.trace = m.trace) (hvia : Everywhere F rs m m') :
    Along (Match W F args rs) (execTerm W F args m (F.block m.block).term)
      (execTerm W (form F rs) args m'
        ((F.block m.block).term.mapOperands (toPhi (allCopies F rs)))) := by
  have htransfer : W.transfer ((F.block m.block).term.mapOperands (toPhi (allCopies F rs)))
      (eval W args m'.env) m'.mem =
        W.transfer (F.block m.block).term (eval W args m.env) m.mem := by
    rw [hmem]
    refine transfer_rename fun v hv => hvia.eval fun id hid => ?_
    have hname := hF.operands _ hk v (List.mem_append_right _ hv)
    rwa [hid] at hname
  unfold execTerm
  rw [htransfer, hmem, htrace]
  cases hgoto : W.transfer (F.block m.block).term (eval W args m.env) m.mem with
  | goto j v mem events =>
      have hj : j ∈ F.successors m.block := transfer_goto hgoto
      refine enter_match hF hI h hk hj (hblock j hj) rfl rfl ?_
      cases v with
      | none => exact hvia
      | some v =>
          have halone := alone_of_not_copied hF hI h (hI.insts _ (mem_defs_term hk))
            (not_copied_term hF h hk)
          exact hvia.refl_set v halone.1 halone.2
  | ret v => exact .off nofun
  | unwinds mem events => exact .off nofun
  | never events => exact .off nofun
  | undefined => exact .off nofun

end Leave

/-! ## Steps outside the diamonds -/

section Steps

variable {m m' : Machine μ}

/-- An instruction with a type has a result that can be named. -/
theorem ty_of_named (hF : F.WellFormed) {i : Instr Op} (hi : (i.id, i.ty) ∈ F.defs)
    (hn : Named F i.id) : i.ty ≠ .void := by
  obtain ⟨d, hd, hid, hty⟩ := hn
  have heq : d = (i.id, i.ty) := key_inj hF.ids_nodup hd hi hid
  rwa [heq] at hty

theorem named_operands (hF : F.WellFormed) (hk : k ∈ F.order) {i : Instr Op}
    (hi : i ∈ (F.block k).body) : ∀ id, .inst id ∈ i.operands → Named F id := fun id hid =>
  hF.operands k hk (.inst id) (List.mem_append_left _
    (List.mem_flatMap.mpr ⟨i, (List.dropWhile_sublist _).subset hi, hid⟩))

theorem unsplit_round (hpart : partAt rs k = none) : roundAt rs k = none :=
  roundAt_eq_none.mpr fun r hr => partAt_eq_none.mp hpart r hr .head

theorem plain_instr (hF : F.WellFormed) (hI : Issued F) (h : Planned F rs) {i : Instr Op}
    {rest : List (Instr Op)} (hm : Match W F args rs m m') (hrest : m.rest = i :: rest)
    (hpart : partAt rs m.block = none) (hblock : m'.block = m.block)
    (hvia : Everywhere F rs m m') :
    Along (Match W F args rs) (execInstr W args m i rest)
      (execInstr W args m' (i.mapOperands (toPhi (allCopies F rs)))
        (rest.map (Instr.mapOperands (toPhi (allCopies F rs))))) := by
  have hsuffix : i :: rest <:+ (F.block m.block).body := hrest ▸ hm.suffix
  have hi : i ∈ (F.block m.block).body := hsuffix.subset (List.mem_cons_self ..)
  have hdefs := mem_defs_of_body hm.inside hi
  have hcopied : findCopy (allCopies F rs) i.id = none :=
    not_copied hF h hm.inside (mem_ids.mpr (.inl ⟨i, (List.dropWhile_sublist _).subset hi, rfl⟩))
      fun r hr hbb => absurd hbb (partAt_eq_none.mp hpart r hr .head)
  have halone := alone_of_not_copied hF hI h (hI.insts _ hdefs) hcopied
  have hstep := @execInstr_via _ W args (phiName (allCopies F rs)) (phiName (allCopies F rs))
    (Named F) m m' i i.id rest (rest.map (Instr.mapOperands (toPhi (allCopies F rs))))
    ⟨hvia, hm.mem, hm.trace⟩ (named_operands hF hm.inside hi)
    (fun hn => ⟨ty_of_named hF hdefs hn, halone.1⟩)
    (fun id hn hne => ⟨rfl, fun heq => hne (halone.2 id hn (heq.trans halone.1.symm))⟩)
  refine hstep.mono fun n n' hn => ?_
  refine ⟨hn.block ▸ hm.inside, ?_, hn.level.mem, hn.level.trace, ?_⟩
  · rw [hn.rest, hn.block]
    exact (List.suffix_cons i rest).trans hsuffix
  · refine .plain (hn.block ▸ hpart) ?_ ?_ hn.level.via
    · rw [hn.block, hn.block', hblock]
    · rw [hn.rest, hn.rest']

/-- A step in a block that has not been split. -/
theorem plain_step (hF : F.WellFormed) (hI : Issued F) (h : Planned F rs)
    (hm : Match W F args rs m m') (hpart : partAt rs m.block = none) (hblock : m'.block = m.block)
    (hrest : m'.rest = m.rest.map (Instr.mapOperands (toPhi (allCopies F rs))))
    (hvia : Everywhere F rs m m') {t' : Config μ}
    (ht : step W (form F rs) args (.running m') = some t') :
    ∃ s', step W F args (.running m) = some s' ∧ Along (Match W F args rs) s' t' := by
  cases hmrest : m.rest with
  | nil =>
      rw [hmrest, List.map_nil] at hrest
      rw [step_term hrest, Option.some.injEq] at ht
      refine ⟨_, step_term hmrest, ?_⟩
      rw [← ht, hblock, block_form_none hpart]
      refine term_match hF hI h hm.inside (fun j _ => ?_) hm.mem hm.trace hvia
      unfold tailOf
      rw [hblock, unsplit_round hpart]
  | cons i rest =>
      rw [hmrest, List.map_cons] at hrest
      rw [step_instr hrest, Option.some.injEq] at ht
      refine ⟨_, step_instr hmrest, ?_⟩
      rw [← ht]
      exact plain_instr hF hI h hm hmrest hpart hblock hvia

/-- The terminator that has gone to the tail. -/
theorem tail_step (hF : F.WellFormed) (hI : Issued F) (h : Planned F rs)
    (hm : Match W F args rs m m') (hr : r ∈ rs) (hbb : m.block = r.bb) (hrest : m.rest = [])
    (hblock : m'.block = r.block) (hrest' : m'.rest = []) (hvia : Everywhere F rs m m')
    {t' : Config μ} (ht : step W (form F rs) args (.running m') = some t') :
    ∃ s', step W F args (.running m) = some s' ∧ Along (Match W F args rs) s' t' := by
  have hpart : partAt rs r.block = some (r, .tail) := (h.partAt_eq_some hI).mpr ⟨hr, rfl⟩
  rw [step_term hrest', hblock, block_form_some hpart, Option.some.injEq] at ht
  refine ⟨_, step_term hrest, ?_⟩
  have hterm : (partBlock F rs r .tail).term =
      (F.block m.block).term.mapOperands (toPhi (allCopies F rs)) := by
    rw [hbb]
    rfl
  rw [← ht, hterm]
  refine term_match hF hI h hm.inside (fun j hj => ?_) hm.mem hm.trace hvia
  have hround : roundAt rs m.block = some r := h.roundAt_eq_some.mpr ⟨hr, hbb.symm⟩
  unfold tailOf
  simp only [hround, if_pos hj, hblock]

end Steps

/-! ## Steps in a diamond -/

theorem eq_void {ty : Ty} (h : ty.isVoidTy = true) : ty = .void := by
  cases ty <;> first | rfl | cases h

section Diamond

variable {m m' : Machine μ} {done todo : List Copy} {c : Copy}

/-- No name is that of a test or a branch. -/
theorem phiName_ne_frame (h : Planned F rs) (hr : r ∈ rs) {id o : Nat}
    (hid : id < F.nextInst) (ho : o < 4) : phiName (allCopies F rs) id ≠ r.inst + o := by
  have hle := h.inst r hr
  refine phiName_ne (fun c hc hmem => ?_) (by omega)
  obtain ⟨r', hr', hc⟩ := List.mem_flatMap.mp hc
  obtain ⟨o', ho', hlt, heq⟩ := mem_copiesOf hc hmem
  obtain ⟨rfl, rfl⟩ := h.inst_inj r hr r' hr' o (Nat.lt_of_lt_of_le ho (Nat.le_add_right 4 _)) o'
    hlt heq
  omega

/-- The test compares what the function has for the value that is checked. -/
theorem effect_test (W : World μ) (args : List Val) {w : Nat} (hvia : Everywhere F rs m m')
    (hname : F.Names r.checkValue)
    (hty : F.typeOf r.checkValue = .int w) :
    effect W args m'.env m'.mem
        ((test F r.inst r.checkValue).mapOperands (toPhi (allCopies F rs))) =
      match eval W args m.env r.checkValue with
      | some x => computes m'.mem (ICmpPred.apply .eq x (.int w 0))
      | none => .undefined := by
  have heval : eval W args m'.env (toPhi (allCopies F rs) r.checkValue) =
      eval W args m.env r.checkValue := by
    refine hvia.eval fun id hid => ?_
    rwa [hid] at hname
  have hoperands : ((test F r.inst r.checkValue).mapOperands (toPhi (allCopies F rs))).operands =
      [toPhi (allCopies F rs) r.checkValue, .constInt w 0] := by
    unfold test
    rw [hty]
    rfl
  have hvals : evalAll (eval W args m'.env)
      [toPhi (allCopies F rs) r.checkValue, .constInt w 0] =
      (eval W args m.env r.checkValue).map fun x => [x, .int w 0] := by
    rw [evalAll, evalAll, evalAll, heval]
    cases eval W args m.env r.checkValue <;> rfl
  unfold effect
  rw [hoperands, hvals]
  cases eval W args m.env r.checkValue <;> rfl

theorem effect_testable (hvia : Everywhere F rs m m')
    (hname : F.Names r.checkValue) (htest : Testable W F args m.env r.checkValue) :
    ∃ b : BitVec 1, effect W args m'.env m'.mem
      ((test F r.inst r.checkValue).mapOperands (toPhi (allCopies F rs))) =
        .done (some (.int 1 b)) m'.mem [] := by
  obtain ⟨w, x, hty, hx⟩ := htest
  refine ⟨BitVec.ofBool (x == 0), ?_⟩
  rw [effect_test W args hvia hname hty, hx]
  simp [ICmpPred.apply, ICmpPred.applyInt, computes, Val.bool]

/-- What runs in the head of a diamond, besides the PHI nodes. -/
theorem exec_test {v : Val} (hty : v.hasTy (.int 1) = true)
    (heffect : effect W args m'.env m'.mem
      ((test F r.inst r.checkValue).mapOperands (toPhi (allCopies F rs))) =
        .done (some v) m'.mem []) :
    execInstr W args m' ((test F r.inst r.checkValue).mapOperands (toPhi (allCopies F rs))) [] =
      .running { m' with rest := [], env := m'.env.set r.inst v } := by
  have hassign : m'.env.assign
      ((test F r.inst r.checkValue).mapOperands (toPhi (allCopies F rs))).id
      ((test F r.inst r.checkValue).mapOperands (toPhi (allCopies F rs))).ty (some v) =
      some (m'.env.set r.inst v) := by
    show m'.env.assign r.inst (.int 1) (some v) = _
    simp only [Env.assign, hty, if_true]
  unfold execInstr
  rw [heffect]
  simp only [hassign, List.append_nil]

theorem head_step (hI : Issued F) (h : Planned F rs) (hm : Match W F args rs m m') (hr : r ∈ rs)
    (hbb : m.block = r.bb) (hentry : m.rest = (F.block r.bb).body) (hblock : m'.block = r.bb)
    (hrest : m'.rest = [(test F r.inst r.checkValue).mapOperands (toPhi (allCopies F rs))])
    (hvia : Everywhere F rs m m') (htest : Testable W F args m.env r.checkValue)
    {t' : Config μ} (ht : step W (form F rs) args (.running m') = some t') :
    ∃ n', t' = .running n' ∧ Match W F args rs m n' ∧ n'.block = r.bb ∧ n'.rest = [] := by
  obtain ⟨b, heffect⟩ := effect_testable hvia (h.names r hr) htest
  have hty : (Val.int 1 b).hasTy (.int 1) = true := by simp [Val.hasTy]
  rw [step_instr hrest, Option.some.injEq, exec_test hty heffect] at ht
  refine ⟨_, ht.symm, ⟨hm.inside, hm.suffix, hm.mem, hm.trace, ?_⟩, hblock, rfl⟩
  refine .branch r hr hbb hentry hblock rfl ⟨b, Env.set_self ..⟩ htest fun id hn => ?_
  have hne : phiName (allCopies F rs) id ≠ r.inst :=
    phiName_ne_frame (o := 0) h hr (named_lt hI hn) (by decide)
  exact (Env.set_other _ _ hne).trans (hvia id hn)

/-- The clones of a body have no PHI node among them. -/
theorem enter_arm (hF : F.WellFormed) (hI : Issued F) (h : Planned F rs) (hr : r ∈ rs)
    (hp : p = .thenArm ∨ p = .elseArm) (m' : Machine μ) :
    enter W (form F rs) args m' (r.handle p) = .running { m' with
      block := r.handle p
      rest := clones (armId p) (allCopies F rs) [] (copiesOf F r) } := by
  have hnot : ∀ i ∈ clones (armId p) (allCopies F rs) [] (copiesOf F r), i.isPhi = false := by
    have hclones : ∀ before rest, (∀ c ∈ rest, c.old.isPhi = false) →
        ∀ i ∈ clones (armId p) (allCopies F rs) before rest, i.isPhi = false := by
      intro before rest hrest i hi
      induction rest generalizing before with
      | nil => cases hi
      | cons c rest ih =>
          obtain ⟨hc, hrest⟩ := List.forall_mem_cons.mp hrest
          rcases List.mem_cons.mp hi with rfl | hi
          · exact hc
          · exact ih _ hrest hi
    exact hclones [] _ fun c hc => hF.phis r.bb (h.mem r hr) c.old (old_mem hc)
  have hblock : ((form F rs).block (r.handle p)).instrs =
      clones (armId p) (allCopies F rs) [] (copiesOf F r) := by
    rw [block_form_some ((h.partAt_eq_some hI).mpr ⟨hr, rfl⟩)]
    rcases hp with rfl | rfl <;> rfl
  have hphis : ((form F rs).block (r.handle p)).phis = [] := by
    unfold Block.phis
    rw [hblock]
    exact List.takeWhile_eq_nil_iff.mpr fun hlen => by
      have hfirst := hnot _ (List.getElem_mem hlen)
      simpa using hfirst
  have hbody : ((form F rs).block (r.handle p)).body =
      clones (armId p) (allCopies F rs) [] (copiesOf F r) := by
    have hsplit : ((form F rs).block (r.handle p)).phis ++ ((form F rs).block (r.handle p)).body =
        ((form F rs).block (r.handle p)).instrs := List.takeWhile_append_dropWhile
    rw [hphis, List.nil_append] at hsplit
    rw [hsplit, hblock]
  unfold enter
  rw [hphis, hbody]
  rfl

/-- The branch to one of the arms. -/
theorem branch_step (hF : F.WellFormed) (hI : Issued F) (h : Planned F rs)
    (hm : Match W F args rs m m') (hr : r ∈ rs) (hbb : m.block = r.bb)
    (hentry : m.rest = (F.block r.bb).body) (hblock : m'.block = r.bb) (hrest : m'.rest = [])
    (hcond : ∃ b : BitVec 1, m'.env r.inst = some (.int 1 b))
    (htested : Testable W F args m.env r.checkValue) (hvia : Everywhere F rs m m')
    {t' : Config μ} (ht : step W (form F rs) args (.running m') = some t') :
    ∃ n' p, t' = .running n' ∧ Match W F args rs m n' ∧ (p = .thenArm ∨ p = .elseArm) ∧
      n'.block = r.handle p := by
  obtain ⟨b, hb⟩ := hcond
  have hpart : partAt rs r.bb = some (r, .head) := (h.partAt_eq_some hI).mpr ⟨hr, rfl⟩
  rw [step_term hrest, hblock, block_form_some hpart, Option.some.injEq] at ht
  have htransfer : W.transfer (partBlock F rs r .head).term (eval W args m'.env) m'.mem =
      .goto (if b.toNat = 0 then r.block + 2 else r.block + 1) none m'.mem [] :=
    transfer_condBr rfl rfl hb
  obtain ⟨p, hp, harm⟩ : ∃ p, (p = .thenArm ∨ p = .elseArm) ∧
      (if b.toNat = 0 then r.block + 2 else r.block + 1) = r.handle p := by
    split
    · exact ⟨.elseArm, .inr rfl, rfl⟩
    · exact ⟨.thenArm, .inl rfl, rfl⟩
  unfold execTerm at ht
  rw [htransfer, harm] at ht
  simp only [Option.map_none, Option.getD_none, List.append_nil] at ht
  rw [enter_arm hF hI h hr hp] at ht
  refine ⟨_, p, ht.symm, ⟨hm.inside, hm.suffix, hm.mem, hm.trace, ?_⟩, hp, rfl⟩
  refine .arm r hr p hp hbb [] (copiesOf F r) rfl ?_ rfl rfl hvia
    (List.forall_mem_nil _) fun _ => htested
  rw [hentry]
  exact map_old_copies.symm

theorem armId_mem (p : Part) (c : Copy) : armId p c ∈ c.ids := by
  cases p with
  | thenArm => exact thenId_mem c
  | _ => exact elseId_mem c

theorem findCopy_of_mem (hF : F.WellFormed) (hI : Issued F) (h : Planned F rs)
    (hc : c ∈ allCopies F rs) : findCopy (allCopies F rs) c.old.id = some c :=
  (lookup_eq_some (h.separate hF hI).nodup).mpr ⟨hc, rfl⟩

/-- What goes by the name of a copy is what was copied. -/
theorem eq_of_phiName (hF : F.WellFormed) (hI : Issued F) (h : Planned F rs)
    (hc : c ∈ allCopies F rs) {id : Nat} (hid : id < F.nextInst)
    (hname : phiName (allCopies F rs) id ∈ c.ids) : id = c.old.id := by
  cases hf : findCopy (allCopies F rs) id with
  | none =>
      rw [phiName_of_none hf] at hname
      have hle := (h.separate hF hI).new c hc id hname
      omega
  | some d =>
      obtain ⟨hd, hid'⟩ := findCopy_some hf
      rw [phiName_of_some hf] at hname
      cases hphi : d.phiId with
      | none =>
          rw [hphi, Option.getD_none] at hname
          have hle := (h.separate hF hI).new c hc id hname
          omega
      | some q =>
          rw [hphi, Option.getD_some] at hname
          rw [← hid', allCopies_unique h hd hc (phiId_mem hphi) hname]

theorem eq_of_armName (hF : F.WellFormed) (hI : Issued F) (h : Planned F rs)
    (hdone : ∀ d ∈ done, d ∈ allCopies F rs) (hc : c ∈ allCopies F rs) {id : Nat}
    (hid : id < F.nextInst) (heq : armName (armId p) done (allCopies F rs) id = armId p c) :
    id = c.old.id := by
  cases hf : findCopy done id with
  | none =>
      rw [armName_of_none hf] at heq
      exact eq_of_phiName hF hI h hc hid (heq ▸ armId_mem p c)
  | some d =>
      obtain ⟨hd, hid'⟩ := findCopy_some hf
      rw [armName_of_some hf] at heq
      rw [← hid', allCopies_unique h (hdone d hd) hc (armId_mem p d) (heq ▸ armId_mem p c)]

/-- A clone runs along with what it was made of. -/
theorem arm_instr (hF : F.WellFormed) (hI : Issued F) (h : Planned F rs)
    (hm : Match W F args rs m m') (hr : r ∈ rs) (hp : p = .thenArm ∨ p = .elseArm)
    (hbb : m.block = r.bb) (hcopies : copiesOf F r = done ++ c :: todo)
    (hrest : m.rest = c.old :: todo.map Copy.old) (hblock : m'.block = r.handle p)
    (hvia : Env.Via (armName (armId p) done (allCopies F rs)) (Named F) m.env m'.env)
    (hresults : ∀ d ∈ done, d.old.ty ≠ .void →
      ∃ v, m'.env (armId p d) = some v ∧ v.hasTy d.old.ty = true) :
    Along (Match W F args rs) (execInstr W args m c.old (todo.map Copy.old))
      (execInstr W args m'
        { c.old.mapOperands (toArm (armId p) done (allCopies F rs)) with id := armId p c }
        (clones (armId p) (allCopies F rs) (done ++ [c]) todo)) := by
  have hall : ∀ d ∈ done ++ c :: todo, d ∈ allCopies F rs := fun d hd =>
    mem_allCopies hr (hcopies ▸ hd)
  have hdone : ∀ d ∈ done, d ∈ allCopies F rs := fun d hd => hall d (List.mem_append_left _ hd)
  have hcmem : c ∈ allCopies F rs := hall c (by simp)
  have hci : c ∈ copiesOf F r := hcopies ▸ by simp
  have hbody : c.old ∈ (F.block r.bb).body := old_mem hci
  have hdefs := mem_defs_of_body (h.mem r hr) hbody
  have hfirst : findCopy done c.old.id = none := by
    refine findCopy_eq_none.mpr fun d hd heq => ?_
    have hnodup : (((done ++ c :: todo).map Copy.old).map Instr.id).Nodup := by
      have hmap : (copiesOf F r).map Copy.old = (F.block r.bb).body := map_old_copies
      rw [← hcopies, hmap]
      exact nodup_body hF (h.mem r hr)
    rw [List.map_append, List.map_append, List.nodup_append] at hnodup
    exact hnodup.2.2 _ (List.mem_map_of_mem (List.mem_map_of_mem hd)) _ (by simp) heq
  have hself : armName (armId p) (done ++ [c]) (allCopies F rs) c.old.id = armId p c := by
    refine armName_of_some ?_
    rw [findCopy_append hfirst, if_pos rfl]
  have hother : ∀ id, Named F id → id ≠ c.old.id →
      armName (armId p) (done ++ [c]) (allCopies F rs) id =
        armName (armId p) done (allCopies F rs) id ∧
      armName (armId p) done (allCopies F rs) id ≠ armId p c := by
    intro id hn hne
    constructor
    · unfold armName
      rw [findCopy_append hfirst, if_neg hne]
    · exact fun heq => hne (eq_of_armName hF hI h hdone hcmem (named_lt hI hn) heq)
  have hstep := @execInstr_via _ W args (armName (armId p) done (allCopies F rs))
    (armName (armId p) (done ++ [c]) (allCopies F rs)) (Named F) m m' c.old (armId p c)
    (todo.map Copy.old) (clones (armId p) (allCopies F rs) (done ++ [c]) todo)
    ⟨hvia, hm.mem, hm.trace⟩ (named_operands hF (h.mem r hr) hbody)
    (fun hn => ⟨ty_of_named hF hdefs hn, hself⟩) hother
  refine hstep.mono fun n n' hn => ?_
  refine ⟨hn.block ▸ hm.inside, ?_, hn.level.mem, hn.level.trace, ?_⟩
  · rw [hn.rest, hn.block]
    exact (List.suffix_cons _ _).trans (hrest ▸ hm.suffix)
  · refine .arm r hr p hp (hn.block.trans hbb) (done ++ [c]) todo ?_ hn.rest
      (hn.block'.trans hblock) hn.rest' hn.level.via (fun d hd hty => ?_) fun hnil => ?_
    · rw [hcopies, List.append_assoc]
      rfl
    · by_cases hdc : armId p d = armId p c
      · have hdmem : d ∈ allCopies F rs := by
          rcases List.mem_append.mp hd with hd | hd
          · exact hdone d hd
          · exact List.mem_singleton.mp hd ▸ hcmem
        obtain rfl := allCopies_unique h hdmem hcmem (armId_mem p d) (hdc ▸ armId_mem p c)
        exact hn.result hty
      · rw [hn.frame _ hdc]
        rcases List.mem_append.mp hd with hd | hd
        · exact hresults d hd hty
        · exact absurd (congrArg (armId p) (List.mem_singleton.mp hd)) hdc
    · simp at hnil

/-- The PHI nodes of a tail take over what an arm has computed. -/
theorem readPhis_merge (hp : p = .thenArm ∨ p = .elseArm) {get : Value → Option Val}
    {rest : List Copy} (hrest : ∀ c ∈ rest, c ∈ copiesOf F r)
    (hresults : ∀ c ∈ rest, c.old.ty ≠ .void →
      ∃ v, get (.inst (armId p c)) = some v ∧ v.hasTy c.old.ty = true) (env : Env) :
    ∃ env', readPhis get (r.handle p)
        (rest.filterMap (merge (r.block + 1) (r.block + 2))) env = some env' ∧
      (∀ c ∈ rest, ∀ q, c.phiId = some q → env' q = get (.inst (armId p c))) ∧
      ∀ id, (∀ c ∈ rest, c.phiId ≠ some id) → env' id = env id := by
  induction rest generalizing env with
  | nil => exact ⟨env, rfl, List.forall_mem_nil _, fun _ _ => rfl⟩
  | cons c rest ih =>
      obtain ⟨hc, hrest⟩ := List.forall_mem_cons.mp hrest
      obtain ⟨hcres, hresults⟩ := List.forall_mem_cons.mp hresults
      cases hphi : c.phiId with
      | none =>
          have hmerge : merge (r.block + 1) (r.block + 2) c = none := by
            rw [merge, hphi]
            rfl
          obtain ⟨env', hread, hnew, hframe⟩ := ih hrest hresults env
          rw [List.filterMap_cons_none hmerge]
          refine ⟨env', hread, fun d hd q hq => ?_, fun id hid => ?_⟩
          · rcases List.mem_cons.mp hd with rfl | hd
            · rw [hphi] at hq
              cases hq
            · exact hnew d hd q hq
          · exact hframe id fun d hd => hid d (List.mem_cons_of_mem _ hd)
      | some q =>
          have hty : c.old.ty ≠ .void := by
            intro hvoid
            have hnone := (phiId_eq_none hc).mpr (by rw [hvoid]; rfl)
            rw [hphi] at hnone
            cases hnone
          obtain ⟨v, hv, hvty⟩ := hcres hty
          let phi : Instr Op := ⟨q, c.old.ty, .phi, [.inst c.thenId, .inst c.elseId],
            [r.block + 1, r.block + 2], {}⟩
          have hmerge : merge (r.block + 1) (r.block + 2) c = some phi := by
            rw [merge, hphi]
            rfl
          have hincoming : phi.getIncomingValueForBlock (r.handle p) =
              some (.inst (armId p c)) := by
            rcases hp with rfl | rfl <;>
              simp [phi, Instr.getIncomingValueForBlock, Round.handle, armId]
          obtain ⟨env', hread, hnew, hframe⟩ := ih hrest hresults (env.set q v)
          have hsame : env' q = some v := by
            by_cases hlater : ∃ d ∈ rest, d.phiId = some q
            · obtain ⟨d, hd, hq⟩ := hlater
              obtain rfl := copies_unique (hrest d hd) hc (phiId_mem hq) (phiId_mem hphi)
              rw [hnew d hd q hq, hv]
            · rw [hframe q fun d hd hq => hlater ⟨d, hd, hq⟩, Env.set_self]
          rw [List.filterMap_cons_some hmerge]
          refine ⟨env', ?_, fun d hd q' hq => ?_, fun id hid => ?_⟩
          · rw [readPhis, hincoming, Option.bind_some, hv]
            have hvphi : v.hasTy phi.ty = true := hvty
            simp only [hvphi, if_true]
            exact hread
          · rcases List.mem_cons.mp hd with rfl | hd
            · rw [hphi, Option.some.injEq] at hq
              rw [← hq, hsame, hv]
            · exact hnew d hd q' hq
          · rw [hframe id fun d hd => hid d (List.mem_cons_of_mem _ hd)]
            refine Env.set_other _ v fun heq => ?_
            exact hid c (List.mem_cons_self ..) (heq ▸ hphi)

/-- Every result goes over from the arm's name to everybody's. -/
theorem via_merge (hF : F.WellFormed) (hI : Issued F) (h : Planned F rs) (hr : r ∈ rs)
    {env env' env'' : Env}
    (hvia : Env.Via (armName (armId p) (copiesOf F r) (allCopies F rs)) (Named F) env env')
    (hnew : ∀ c ∈ copiesOf F r, ∀ q, c.phiId = some q → env'' q = env' (armId p c))
    (hframe : ∀ id, (∀ c ∈ copiesOf F r, c.phiId ≠ some id) → env'' id = env' id) :
    Env.Via (phiName (allCopies F rs)) (Named F) env env'' := by
  intro id hn
  have hlt := named_lt hI hn
  cases hf : findCopy (copiesOf F r) id with
  | some c =>
      obtain ⟨hc, rfl⟩ := findCopy_some hf
      have hall := mem_allCopies hr hc
      have hty := ty_of_named hF (mem_defs_of_body (h.mem r hr) (old_mem hc)) hn
      have hold := hvia c.old.id hn
      rw [armName_of_some hf] at hold
      cases hphi : c.phiId with
      | none =>
          have hvoid := (phiId_eq_none hc).mp hphi
          exact absurd (eq_void hvoid) hty
      | some q =>
          rw [phiName_of_some (findCopy_of_mem hF hI h hall), hphi, Option.getD_some,
            hnew c hc q hphi, hold]
  | none =>
      have hold := hvia id hn
      rw [armName_of_none hf] at hold
      rw [hframe _ fun c hc hq => ?_, hold]
      have heq := eq_of_phiName hF hI h (mem_allCopies hr hc) hlt (phiId_mem hq)
      exact findCopy_eq_none.mp hf c hc heq.symm

/-- From an arm to the tail. -/
theorem arm_leave (hF : F.WellFormed) (hI : Issued F) (h : Planned F rs)
    (hm : Match W F args rs m m') (hr : r ∈ rs) (hp : p = .thenArm ∨ p = .elseArm)
    (hbb : m.block = r.bb) (hrest : m.rest = []) (hblock : m'.block = r.handle p)
    (hrest' : m'.rest = [])
    (hvia : Env.Via (armName (armId p) (copiesOf F r) (allCopies F rs)) (Named F) m.env m'.env)
    (hresults : ∀ c ∈ copiesOf F r, c.old.ty ≠ .void →
      ∃ v, m'.env (armId p c) = some v ∧ v.hasTy c.old.ty = true)
    (htested : copiesOf F r = [] → Testable W F args m.env r.checkValue)
    {t' : Config μ} (ht : step W (form F rs) args (.running m') = some t') :
    ∃ n', t' = .running n' ∧ Match W F args rs m n' ∧ n'.block = r.block := by
  have hpart : partAt rs (r.handle p) = some (r, p) := (h.partAt_eq_some hI).mpr ⟨hr, rfl⟩
  have htail : (form F rs).block r.block = partBlock F rs r .tail :=
    block_form_some ((h.partAt_eq_some hI).mpr ⟨hr, rfl⟩)
  rw [step_term hrest', hblock, block_form_some hpart, Option.some.injEq] at ht
  have htransfer : W.transfer (partBlock F rs r p).term (eval W args m'.env) m'.mem =
      .goto r.block none m'.mem [] := by
    rcases hp with rfl | rfl <;> rfl
  have hphi : ∀ i ∈ (partBlock F rs r .tail).instrs, i.isPhi = true := by
    intro i hi
    obtain ⟨c, -, hc⟩ := List.mem_filterMap.mp hi
    obtain ⟨q, -, rfl⟩ := Option.map_eq_some_iff.mp hc
    rfl
  have hphis : ((form F rs).block r.block).phis =
      (copiesOf F r).filterMap (merge (r.block + 1) (r.block + 2)) := by
    rw [htail]
    exact List.takeWhile_eq_self_iff.mpr hphi
  have hbody : ((form F rs).block r.block).body = [] := by
    rw [htail]
    exact List.dropWhile_eq_nil_iff.mpr hphi
  obtain ⟨env', hread, hnew, hframe⟩ := @readPhis_merge F r p hp (eval W args m'.env) _
    (fun _ hc => hc) hresults m'.env
  unfold execTerm at ht
  rw [htransfer] at ht
  simp only [Option.map_none, Option.getD_none, List.append_nil] at ht
  unfold enter at ht
  rw [hphis, hbody, hblock, hread] at ht
  refine ⟨_, ht.symm, ⟨hm.inside, hm.suffix, hm.mem, hm.trace, ?_⟩, rfl⟩
  refine .tail r hr hbb hrest rfl rfl (via_merge hF hI h hr hvia hnew hframe) fun hbody => ?_
  exact htested (List.map_eq_nil_iff.mp (map_old_copies.trans hbody))

end Diamond

end LlvmPasses.DuplicateBB
