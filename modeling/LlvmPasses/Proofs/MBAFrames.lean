import LlvmPasses.Pass.Counters
import LlvmPasses.Pass.FCmpEq
import LlvmPasses.Pass.RIV
import LlvmPasses.Proofs.MBAForm

/-!
# What the substitutions leave alone

Only operators come and go, and operands come to name other results, or
constants. So the blocks lead where they did, the calls name what they did, and
the comparisons are still there; a block without an operator to replace defines
what it did. Nothing is asked of the function for that.

`substitute_touched` is about every function, well formed or not, and every
rule that selects and builds operators. It says that there is a map of names
which changes only results, and that the instructions which are no operators
are the same under it, block by block. So an analysis that looks at anything
but operators finds what it found, and this is proved for each of the
repository's analyses in the last section. `CachedAnalyses` uses it to say
which results `mba-add` may keep.
-/

namespace LlvmPasses.MBA

open Ir IRBuilder

/-- A result of an instruction, or an integer constant. -/
def IsResult (v : Value) : Prop := (∃ w, v.constTy = some (.int w)) ∨ ∃ id, v = .inst id

/-- What a rule selects is an operator, and so is whatever it builds for one. -/
structure Rule.OnOperators (rule : Rule) : Prop where
  selects : ∀ i, rule.selects i = true → isBinaryOperator i = true
  congr : ∀ i j : Instr Op, i.op = j.op → i.ty = j.ty → rule.selects i = rule.selects j
  value : ∀ i n, IsResult (rule.build i ⟨[], n⟩).1
  inserted : ∀ i n, ∀ c ∈ (rule.build i ⟨[], n⟩).2.inserted, isBinaryOperator c = true

/-- Only results come to be named otherwise, by results or constants. -/
structure Redirects (σ : Value → Value) : Prop where
  other : ∀ v, Function.isInst v = false → σ v = v
  inst : ∀ id, IsResult (σ (.inst id))

/-- The instructions that are no operators. -/
def others (instrs : List (Instr Op)) : List (Instr Op) :=
  instrs.filter fun i => !isBinaryOperator i

/-- A block has nothing to replace. -/
def Still (rule : Rule) (F : Function) (k : Nat) : Prop :=
  k ∈ F.order → ∀ i ∈ (F.block k).instrs, rule.selects i = false

/-- Operators have been replaced in a function, and those on the list are to be
erased. -/
structure Touched (rule : Rule) (F : Function) (σ : Value → Value) (s : Function × FreeList) :
    Prop where
  redirects : Redirects σ
  same : s.1 = { F with block := s.1.block, nextInst := s.1.nextInst }
  term : ∀ k, (s.1.block k).term = (F.block k).term.mapOperands σ
  others : ∀ k, others (s.1.block k).instrs =
    (others (F.block k).instrs).map (Instr.mapOperands σ)
  still : ∀ k, Still rule F k → (s.1.block k).instrs = (F.block k).instrs.map (Instr.mapOperands σ)
  free : ∀ e ∈ s.2, ¬ Still rule F e.1

variable {rule : Rule} {F G : Function} {σ τ : Value → Value} {s : Function × FreeList}
variable {k n p : Nat} {i : Instr Op} {v : Value} {free : FreeList}

/-! ## Names -/

theorem redirects_id : Redirects id where
  other := fun _ _ => rfl
  inst := fun id => .inr ⟨id, rfl⟩

theorem IsResult.map (h : IsResult v) (hσ : Redirects σ) : IsResult (σ v) := by
  rcases h with ⟨w, hconst⟩ | ⟨id, rfl⟩
  · refine .inl ⟨w, ?_⟩
    rw [hσ.other v (by cases v <;> first | rfl | cases hconst)]
    exact hconst
  · exact hσ.inst id

theorem Redirects.comp (hτ : Redirects τ) (hσ : Redirects σ) : Redirects (τ ∘ σ) where
  other := fun v hv => by rw [Function.comp_apply, hσ.other v hv, hτ.other v hv]
  inst := fun id => (hσ.inst id).map hτ

theorem redirects_subst {id : Nat} (hv : IsResult v) : Redirects (subst (.inst id) v) where
  other := by
    intro u hu
    refine subst_other fun heq => ?_
    rw [heq] at hu
    cases hu
  inst := by
    intro j
    by_cases hj : j = id
    · rw [hj, subst_self]
      exact hv
    · rw [subst_other fun heq => hj (Value.inst.inj heq)]
      exact .inr ⟨j, rfl⟩

/-- What is named by something that is no result is the same as before. -/
theorem Redirects.eq_iff (h : Redirects σ) {u : Value} (hu : ¬ IsResult u) : σ v = u ↔ v = u := by
  cases v with
  | inst id =>
      constructor
      · rintro rfl
        exact absurd (h.inst id) hu
      · rintro rfl
        exact absurd (.inr ⟨id, rfl⟩) hu
  | _ => rw [h.other _ rfl]

theorem Redirects.keepsBlocks (h : Redirects σ) : KeepsBlocks σ := by
  intro v k
  refine h.eq_iff ?_
  rintro (⟨ty, hconst⟩ | ⟨id, heq⟩)
  · cases hconst
  · cases heq

theorem Redirects.global (h : Redirects σ) (f : Nat) : σ v = .global f ↔ v = .global f := by
  refine h.eq_iff ?_
  rintro (⟨ty, hconst⟩ | ⟨id, heq⟩)
  · cases hconst
  · cases heq

/-! ## One replacement -/

theorem mapOperands_comp {ω : Type} (i : Instr ω) :
    (i.mapOperands σ).mapOperands τ = i.mapOperands (τ ∘ σ) := by
  simp only [Instr.mapOperands, List.map_map]

theorem map_mapOperands_comp (l : List (Instr Op)) :
    (l.map (Instr.mapOperands σ)).map (Instr.mapOperands τ) =
      l.map (Instr.mapOperands (τ ∘ σ)) := by
  rw [List.map_map]
  exact List.map_congr_left fun i _ => mapOperands_comp i

theorem others_append (l l' : List (Instr Op)) : others (l ++ l') = others l ++ others l' :=
  List.filter_append ..

theorem others_map (l : List (Instr Op)) :
    others (l.map (Instr.mapOperands σ)) = (others l).map (Instr.mapOperands σ) := by
  unfold others
  rw [List.filter_map]
  rfl

theorem touched_start (rule : Rule) (F : Function) : Touched rule F id (F, []) where
  redirects := redirects_id
  same := rfl
  term := fun _ => (mapOperands_id (fun _ => rfl) _).symm
  others := fun k => by
    rw [show Instr.mapOperands (ω := Op) id = id from funext (mapOperands_id fun _ => rfl),
      List.map_id]
  still := fun k _ => by
    rw [show Instr.mapOperands (ω := Op) id = id from funext (mapOperands_id fun _ => rfl),
      List.map_id]
  free := fun e he => absurd he List.not_mem_nil

theorem Touched.replace (h : Touched rule F σ s) (hrule : rule.OnOperators) (hk : k ∈ F.order)
    (hget : (s.1.block k).instrs[p]? = some i) (hsel : rule.selects i = true) :
    ∃ τ, Touched rule F τ (MBA.replace rule k p i s).2 := by
  let r := rule.build i ⟨[], s.1.nextInst⟩
  let τ := subst (.inst i.id) r.1
  -- a block that has nothing to replace still has nothing
  have hmoved : ¬ Still rule F k := by
    intro hstill
    have hmem := List.mem_of_getElem? hget
    rw [h.still k hstill] at hmem
    obtain ⟨j, hj, rfl⟩ := List.mem_map.mp hmem
    rw [hrule.congr (j.mapOperands σ) j rfl rfl, hstill hk j hj] at hsel
    cases hsel
  have hhere : (MBA.replace rule k p i s).2.1.block k =
      ⟨((s.1.block k).instrs.take p ++ r.2.inserted ++ (s.1.block k).instrs.drop p).map
        (Instr.mapOperands τ), (s.1.block k).term.mapOperands τ⟩ := by
    show Block.replaceUses _ _ (if k = k then _ else _) = _
    rw [if_pos rfl]
    rfl
  have hthere : ∀ j, j ≠ k → (MBA.replace rule k p i s).2.1.block j =
      ⟨(s.1.block j).instrs.map (Instr.mapOperands τ), (s.1.block j).term.mapOperands τ⟩ := by
    intro j hj
    show Block.replaceUses _ _ (if j = k then _ else _) = _
    rw [if_neg hj]
    rfl
  have hinserted : MBA.others r.2.inserted = [] := by
    refine List.filter_eq_nil_iff.mpr fun c hc => ?_
    rw [hrule.inserted i _ c hc]
    exact Bool.false_ne_true
  refine ⟨τ ∘ σ, ⟨(redirects_subst (hrule.value i _)).comp h.redirects, ?_, fun j => ?_,
    fun j => ?_,
    fun j hstill => ?_, fun e he => ?_⟩⟩
  · have hsame := h.same
    show { s.1 with block := _, nextInst := _ : Function } = _
    rw [hsame]
    rfl
  · rw [← mapOperands_comp, ← h.term j]
    by_cases hj : j = k
    · subst hj
      rw [hhere]
    · rw [hthere j hj]
  · rw [← map_mapOperands_comp, ← h.others j]
    by_cases hj : j = k
    · subst hj
      rw [hhere, others_map, others_append, others_append, hinserted, List.append_nil,
        ← others_append, List.take_append_drop]
    · rw [hthere j hj, others_map]
  · have hj : j ≠ k := fun hj => hmoved (hj ▸ hstill)
    rw [hthere j hj, ← map_mapOperands_comp, ← h.still j hstill]
  · rcases List.mem_append.mp he with he | he
    · exact h.free e he
    · obtain rfl := List.mem_singleton.mp he
      exact hmoved

/-! ## The whole pass -/

theorem Touched.visit (h : Touched rule F σ s) (hrule : rule.OnOperators) (hk : k ∈ F.order)
    (n p : Nat) : ∃ τ, Touched rule F τ (MBA.visit rule k n p s) := by
  induction n generalizing p s σ with
  | zero => exact ⟨σ, h⟩
  | succ n ih =>
      unfold MBA.visit
      cases hget : (s.1.block k).instrs[p]? with
      | none => exact ⟨σ, h⟩
      | some i =>
          dsimp only
          split
          · next hsel =>
              obtain ⟨τ, h'⟩ := h.replace hrule hk hget hsel
              exact ih h' _
          · exact ih h _

theorem Touched.visits {order : List Nat} (h : Touched rule F σ s) (hrule : rule.OnOperators)
    (hmem : ∀ k ∈ order, k ∈ F.order) : ∃ τ, Touched rule F τ
      (order.foldl (fun s k => MBA.visit rule k (s.1.block k).instrs.length 0 s) s) := by
  induction order generalizing s σ with
  | nil => exact ⟨σ, h⟩
  | cons k order ih =>
      obtain ⟨hk, hrest⟩ := List.forall_mem_cons.mp hmem
      obtain ⟨τ, h'⟩ := h.visit hrule hk (s.1.block k).instrs.length 0
      exact ih h' hrest

theorem others_erased (erased : Instr Op → Bool) (l : List (Instr Op)) :
    others (l.filter fun i => !(isBinaryOperator i && erased i)) = others l := by
  unfold others
  rw [List.filter_filter]
  refine List.filter_congr fun i _ => ?_
  cases isBinaryOperator i <;> rfl

theorem Touched.erase (h : Touched rule F σ (G, free)) :
    Touched rule F σ (eraseFromParents G free, []) where
  redirects := h.redirects
  same := by
    have hsame : G = _ := h.same
    rw [hsame]
    rfl
  term := h.term
  others := fun k => (others_erased _ _).trans (h.others k)
  still := fun k hstill => by
    have hall : ∀ i ∈ (G.block k).instrs,
        (!(isBinaryOperator i && free.contains (k, i.id))) = true := by
      intro i _
      have hout : free.contains (k, i.id) = false :=
        Bool.eq_false_iff.mpr fun hmem => h.free _ (List.contains_iff_mem.mp hmem) hstill
      rw [hout, Bool.and_false]
      rfl
    exact (List.filter_eq_self.mpr hall).trans (h.still k hstill)
  free := fun e he => absurd he List.not_mem_nil

/-- What has become of a function, and where it has been changed. -/
theorem substitute_touched (hrule : rule.OnOperators) (F : Function) :
    (∃ σ, Touched rule F σ ((substitute rule F).2, [])) ∧
      ((substitute rule F).1 = true →
        ∃ k ∈ F.order, ∃ i ∈ (F.block k).instrs, rule.selects i = true) := by
  obtain ⟨σ, h⟩ := (touched_start rule F).visits hrule (fun k hk => hk)
  refine ⟨⟨σ, h.erase⟩, fun hchanged => ?_⟩
  obtain ⟨e, he⟩ := List.exists_mem_of_ne_nil _ (by simpa [substitute] using hchanged)
  by_contra hno
  refine h.free e he fun hk i hi => ?_
  exact Bool.eq_false_iff.mpr fun hsel => hno ⟨e.1, hk, i, hi, hsel⟩

/-- Operators are only put on the list when they are replaced. -/
theorem visit_grows (rule : Rule) (k n p : Nat) (s : Function × FreeList) :
    ∃ new, (visit rule k n p s).2 = s.2 ++ new ∧ (new = [] → visit rule k n p s = s) := by
  induction n generalizing p s with
  | zero => exact ⟨[], (List.append_nil _).symm, fun _ => rfl⟩
  | succ n ih =>
      unfold visit
      cases hget : (s.1.block k).instrs[p]? with
      | none => exact ⟨[], (List.append_nil _).symm, fun _ => rfl⟩
      | some i =>
          dsimp only
          split
          · obtain ⟨new, hnew, -⟩ := ih (p + (replace rule k p i s).1 + 1) (replace rule k p i s).2
            refine ⟨(k, i.id) :: new, ?_, fun heq => ?_⟩
            · rw [hnew]
              exact List.append_assoc ..
            · cases heq
          · exact ih (p + 1) s

theorem visits_grow (rule : Rule) (order : List Nat) (s : Function × FreeList) :
    ∃ new,
      (order.foldl (fun s k => visit rule k (s.1.block k).instrs.length 0 s) s).2 = s.2 ++ new ∧
      (new = [] →
        order.foldl (fun s k => visit rule k (s.1.block k).instrs.length 0 s) s = s) := by
  induction order generalizing s with
  | nil => exact ⟨[], (List.append_nil _).symm, fun _ => rfl⟩
  | cons k order ih =>
      obtain ⟨new, hnew, hstay⟩ := visit_grows rule k (s.1.block k).instrs.length 0 s
      obtain ⟨new', hnew', hstay'⟩ := ih (visit rule k (s.1.block k).instrs.length 0 s)
      refine ⟨new ++ new', ?_, fun hnil => ?_⟩
      · rw [List.foldl_cons, hnew', hnew, List.append_assoc]
      · obtain ⟨hn, hn'⟩ := List.append_eq_nil_iff.mp hnil
        rw [List.foldl_cons, hstay' hn', hstay hn]

theorem eraseFromParents_nil (F : Function) : eraseFromParents F [] = F := by
  have hblock : ∀ k, (F.block k).instrs.filter (fun i =>
      !(isBinaryOperator i && ([] : FreeList).contains (k, i.id))) = (F.block k).instrs := by
    intro k
    refine List.filter_eq_self.mpr fun i _ => ?_
    rw [List.contains_nil, Bool.and_false]
    rfl
  unfold eraseFromParents
  simp only [hblock]

/-- A pass that reports no change has made none. -/
theorem substitute_unchanged (h : (substitute rule F).1 = false) : (substitute rule F).2 = F := by
  obtain ⟨new, hnew, hstay⟩ := visits_grow rule F.order (F, [])
  let s := F.order.foldl (fun s k => visit rule k (s.1.block k).instrs.length 0 s) (F, [])
  have hempty : (!s.2.isEmpty) = false := h
  have hnil : new = [] := by
    rw [hnew] at hempty
    simpa using hempty
  have hs : s = (F, []) := hstay hnil
  show eraseFromParents s.1 s.2 = F
  rw [hs]
  exact eraseFromParents_nil F

/-! ## What an analysis sees -/

section

variable {instrs : List (Instr Op)}

theorem filterMap_others {β : Type} (f : Instr Op → Option β)
    (hf : ∀ i, isBinaryOperator i = true → f i = none) :
    (others instrs).filterMap f = instrs.filterMap f := by
  unfold others
  rw [List.filterMap_filter]
  refine List.filterMap_congr fun i _ => ?_
  cases hop : isBinaryOperator i with
  | true => rw [hf i hop]; rfl
  | false => rfl

/-- What is looked for in instructions that are no operators is found again. -/
theorem Touched.filterMap {β : Type} (h : Touched rule F σ s) (f : Instr Op → Option β)
    (hf : ∀ i, isBinaryOperator i = true → f i = none)
    (hsame : ∀ i, f (i.mapOperands σ) = f i) (k : Nat) :
    (s.1.block k).instrs.filterMap f = (F.block k).instrs.filterMap f := by
  have hmap : f ∘ Instr.mapOperands σ = f := funext hsame
  rw [← filterMap_others f hf, h.others k, List.filterMap_map, hmap, filterMap_others f hf]

theorem Touched.order (h : Touched rule F σ s) : s.1.order = F.order := by
  rw [h.same]

theorem Touched.successors (h : Touched rule F σ s) (k : Nat) :
    s.1.successors k = F.successors k := by
  show (s.1.block k).term.successors = _
  rw [h.term, successors_map h.redirects.keepsBlocks]
  rfl

theorem Touched.findFCmpEq (h : Touched rule F σ s) : FindFCmpEq.run s.1 = FindFCmpEq.run F := by
  have hfound : ∀ l : List (Instr Op), (l.filter FindFCmpEq.finds).map Instr.id =
      l.filterMap fun i => if FindFCmpEq.finds i then some i.id else none := by
    intro l
    rw [← List.filterMap_eq_map, List.filterMap_filter]
    rfl
  unfold FindFCmpEq.run Function.blocks
  rw [h.order, List.flatMap_map, List.flatMap_map]
  refine List.flatMap_congr fun k _ => ?_
  rw [hfound, hfound]
  refine h.filterMap (fun i => if FindFCmpEq.finds i then some i.id else none)
    (fun i hop => if_neg ?_) (fun i => rfl) k
  cases i with
  | mk id ty op operands incoming flags =>
      cases op <;> simp_all [isBinaryOperator, FindFCmpEq.finds]

theorem Touched.getCalledFunction (h : Touched rule F σ s) (functions : List Nat)
    (operands : List Value) :
    StaticCallCounter.getCalledFunction functions (operands.map σ) =
      StaticCallCounter.getCalledFunction functions operands := by
  unfold StaticCallCounter.getCalledFunction
  rw [List.getLast?_map]
  cases operands.getLast? with
  | none => rfl
  | some v =>
      by_cases hv : ∃ f, v = .global f
      · obtain ⟨f, rfl⟩ := hv
        rw [Option.map_some, (h.redirects.global f).mpr rfl]
      · have hσ : ∀ f, σ v ≠ .global f := fun f heq => hv ⟨f, (h.redirects.global f).mp heq⟩
        rw [Option.map_some]
        split
        · next f heq => exact absurd (Option.some.inj heq) (hσ f)
        · split
          · next f heq => exact absurd ⟨f, Option.some.inj heq⟩ hv
          · rfl

theorem Touched.calledIn (h : Touched rule F σ s) (functions : List Nat) :
    StaticCallCounter.calledIn functions s.1 = StaticCallCounter.calledIn functions F := by
  unfold StaticCallCounter.calledIn Function.blocks
  rw [h.order, List.flatMap_map, List.flatMap_map]
  refine List.flatMap_congr fun k _ => ?_
  congr 1
  · refine h.filterMap _ (fun i hop => ?_) (fun i => ?_) k
    · unfold StaticCallCounter.calledByInstr
      split
      · next hcall => simp [isBinaryOperator, hcall] at hop
      · rfl
    · unfold StaticCallCounter.calledByInstr
      simp only [Instr.mapOperands, h.getCalledFunction]
  · rw [h.term k]
    unfold StaticCallCounter.calledByTerm
    simp only [Instr.mapOperands, h.getCalledFunction]

theorem Touched.definedValues (h : Touched rule F σ s) (hstill : Still rule F k) :
    RIV.definedValues s.1 k = RIV.definedValues F k := by
  have hdefs : (s.1.block k).defs = (F.block k).defs := by
    unfold Block.defs
    rw [h.still k hstill, h.term k, List.map_map]
    rfl
  unfold RIV.definedValues
  rw [hdefs]

end

end LlvmPasses.MBA
