import LlvmPasses.Pass.Pipeline
import LlvmPasses.Proofs.CounterNames
import LlvmPasses.Proofs.MBAFrames
import LlvmPasses.Proofs.MBAMeaning
import LlvmPasses.Proofs.MergeRun
import LlvmPasses.Proofs.PrintfCompose

/-!
# Cached analyses

What the analysis manager hands out is what the analysis would compute, as long
as a pass that reports everything preserved has changed nothing that a result in
the cache depends on. The passes keep to that, but for `mba-add`: it reports
everything preserved whatever it has replaced, and the counts of opcodes and the
reachable values depend on that.

`obtained_current` is about pipelines of any length. In one whose steps lose
nothing, every result that a pass obtains is what the analysis would compute at
that moment, and the module after each pass is what it would be with an empty
cache. `loses` is the exception, spelled out as a condition on the step and on
what is in the cache; `stale_obtained` shows that it cannot be left out.

The invariant is that the cache is up to date (`UpToDate` of `Lib.Cache`), and
the step lemma is `next_upToDate`. It needs two things of a pass. What it
obtains must be current, which follows from the invariant (`getResult_spec`).
And what it keeps must still be current afterwards: either it has reported a
change, and then all results are dropped that depend on the function, or it has
changed nothing (`run_unchanged`), or it is `mba-add`, and then what the result
depends on has to be looked at (`run_kept`). The reachable values only depend
on the additions in blocks that have children in the dominator tree, since only
those pass their values on.
-/

namespace LlvmPasses

open Ir

/-- The dominator tree is one of the blocks and of where they lead. -/
def OfBlocks (domTree : Function → RIV.DomTree) : Prop :=
  ∀ F G : Function, G.order = F.order → (∀ k ∈ F.order, G.successors k = F.successors k) →
    domTree G = domTree F

/-- Whether `mba-add` replaces something in a block. -/
def addsBytes (F : Function) (k : Nat) : Bool := (F.block k).instrs.any MBAAdd.isAdd

/-- A step replaces additions while there are counts of the opcodes that it does
not drop, or reachable values, where the additions are reachable further down. -/
def loses (domTree : Function → RIV.DomTree) (s : Managed) : Step → Bool
  | .onFunction .mbaAdd n =>
      (s.module.body n).any fun F => F.order.any fun k => addsBytes F k &&
        ((s.analyses (.opcodeCounter n)).isSome ||
          (s.analyses (.riv n)).isSome && !((domTree F).children k).isEmpty)
  | _ => false

variable {domTree : Function → RIV.DomTree} {M M' : Module} {F G : Function} {n m : Nat}
variable {a : Analysis} {c : AnalysisManager} {s t : Managed} {p : Step}

/-! ## What results depend on -/

namespace RIV

variable {T : DomTree} {globals globals' : List Nat}

/-- No global is an integer. -/
theorem entryValues_congr (h : G.params = F.params) :
    entryValues G globals' = entryValues F globals := by
  have hglobals : ∀ (F : Function) (gs : List Nat),
      (gs.map Value.global).filter (fun g => (F.typeOf g).isIntegerTy) = [] := by
    intro F gs
    refine List.filter_eq_nil_iff.mpr fun v hv => ?_
    obtain ⟨g, -, rfl⟩ := List.mem_map.mp hv
    exact Bool.false_ne_true
  have hargs : ∀ v ∈ (List.range F.params.length).map Value.arg,
      (G.typeOf v).isIntegerTy = (F.typeOf v).isIntegerTy := by
    intro v hv
    obtain ⟨i, -, rfl⟩ := List.mem_map.mp hv
    show (G.params.getD i .void).isIntegerTy = _
    rw [h]
    rfl
  unfold entryValues
  rw [hglobals, hglobals, h, List.filter_congr hargs]

/-- Only what blocks with children define is passed on. -/
theorem propagate_congr
    (h : ∀ k, T.children k ≠ [] → definedValues G k = definedValues F k) (n : Nat)
    (worklist : List Nat) (r : Result) :
    propagate T G n worklist r = propagate T F n worklist r := by
  induction n generalizing worklist r with
  | zero => rfl
  | succ n ih =>
      cases worklist with
      | nil => rfl
      | cons k worklist =>
          unfold propagate
          by_cases hchildren : T.children k = []
          · simp only [hchildren]
            exact ih ..
          · rw [h k hchildren]
            exact ih ..

theorem run_congr (horder : G.order = F.order) (hparams : G.params = F.params)
    (h : ∀ k, T.children k ≠ [] → definedValues G k = definedValues F k) :
    run T G globals' = run T F globals := by
  have hentry : G.entry = F.entry := congrArg (fun order : List Nat => order.headD 0) horder
  unfold run
  rw [horder, hentry, entryValues_congr hparams, propagate_congr h]

end RIV

/-- An analysis of a function looks at this function only. -/
theorem Analysis.run_congr (hbody : M'.body m = M.body m) (ha : a.function = some m) :
    a.run domTree M' = a.run domTree M := by
  cases a with
  | riv n =>
      cases ha
      unfold Analysis.run
      simp only [hbody]
      exact RIV.run_congr rfl rfl fun _ _ => rfl
  | staticCallCounter => cases ha
  | _ =>
      cases ha
      unfold Analysis.run
      simp only [hbody]

theorem staticCallCounter_congr (hids : M'.functions.map Func.id = M.functions.map Func.id)
    (hcalls : ∀ functions, (M'.functions.map fun f => StaticCallCounter.calledIn functions f.fn) =
      M.functions.map fun f => StaticCallCounter.calledIn functions f.fn) :
    StaticCallCounter.run M' = StaticCallCounter.run M := by
  unfold StaticCallCounter.run
  rw [List.flatMap_def, List.flatMap_def, hids, hcalls]

/-! ## Bodies -/

theorem body_eq_some (h : M.body n = some F) :
    ∃ f, M.functions[n]? = some f ∧ f.fn = F ∧ F.isDeclaration = false := by
  unfold Module.body at h
  obtain ⟨hsome, hbody⟩ := Option.filter_eq_some_iff.mp h
  obtain ⟨f, hf, rfl⟩ := Option.map_eq_some_iff.mp hsome
  exact ⟨f, hf, rfl, by simpa using hbody⟩

theorem functions_setBody : (M.setBody n G).functions =
    M.functions.modify n fun f => { f with fn := G } := rfl

theorem body_setBody_ne (h : m ≠ n) : (M.setBody n G).body m = M.body m := by
  unfold Module.body
  rw [functions_setBody, List.getElem?_modify_ne _ _ (Ne.symm h)]

theorem body_setBody (h : M.body n = some F) (horder : G.order = F.order) :
    (M.setBody n G).body n = some G := by
  obtain ⟨f, hf, rfl, hbody⟩ := body_eq_some h
  have hdecl : G.isDeclaration = false := by
    unfold Function.isDeclaration at hbody ⊢
    rw [horder]
    exact hbody
  unfold Module.body
  rw [functions_setBody, List.getElem?_modify_eq, hf]
  simp [hdecl]

theorem setBody_self (h : M.body n = some F) : M.setBody n F = M := by
  obtain ⟨f, hf, rfl, -⟩ := body_eq_some h
  have hsame : M.functions.modify n (fun g => { g with fn := f.fn }) = M.functions := by
    refine List.ext_getElem? fun i => ?_
    by_cases hi : n = i
    · subst hi
      rw [List.getElem?_modify_eq, hf]
      rfl
    · rw [List.getElem?_modify_ne _ _ hi]
  unfold Module.setBody
  rw [hsame]

theorem body_eq_none (h : M.defined = []) (n : Nat) : M.body n = none := by
  cases hbody : M.body n with
  | none => rfl
  | some F =>
      obtain ⟨f, hf, rfl, hdecl⟩ := body_eq_some hbody
      have hmem : f ∈ M.defined :=
        List.mem_filter.mpr ⟨List.mem_of_getElem? hf, by simp [hdecl]⟩
      rw [h] at hmem
      cases hmem

/-- Without bodies there is nothing to analyse. -/
theorem run_of_no_bodies (h : M.defined = []) (h' : M'.defined = []) (a : Analysis) :
    a.run domTree M' = a.run domTree M := by
  have hcounts : ∀ {M : Module}, M.defined = [] → StaticCallCounter.run M = [] := by
    intro M h
    have hnone : ∀ functions, ∀ f ∈ M.functions,
        StaticCallCounter.calledIn functions f.fn = [] := by
      intro functions f hf
      have hdecl := List.filter_eq_nil_iff.mp h f hf
      have horder : f.fn.order = [] := by simpa [Function.isDeclaration] using hdecl
      unfold StaticCallCounter.calledIn Function.blocks
      rw [horder]
      rfl
    unfold StaticCallCounter.run
    rw [List.flatMap_eq_nil_iff.mpr (hnone _)]
    rfl
  cases hfunction : a.function with
  | some m => exact Analysis.run_congr (by rw [body_eq_none h, body_eq_none h']) hfunction
  | none =>
      cases a with
      | staticCallCounter => exact (hcounts h').trans (hcounts h).symm
      | _ => cases hfunction

/-! ## Passes that report no change -/

theorem ConvertFCmpEq.convertFCmpEq_unchanged {folder : ConvertFCmpEq.Folder} {id : Nat}
    (h : (ConvertFCmpEq.convertFCmpEq folder F id).1 = false) :
    (ConvertFCmpEq.convertFCmpEq folder F id).2 = F := by
  unfold ConvertFCmpEq.convertFCmpEq at h ⊢
  split
  · rfl
  · next hlocate =>
      simp only [hlocate] at h
      split
      · next hop hops =>
          simp only [hop, hops] at h
          split
          · rfl
          · next hpred =>
              simp only [hpred] at h
              cases h
      · rfl

theorem ConvertFCmpEq.run_unchanged {folder : ConvertFCmpEq.Folder} {analysis : List Nat}
    (h : (ConvertFCmpEq.run folder analysis F).1 = .all) :
    (ConvertFCmpEq.run folder analysis F).2 = F := by
  have hloop : ∀ (ids : List Nat) (changed : Bool) (G : Function),
      let s := ids.foldl (fun (s : Bool × Function) id =>
        (s.1 || (convertFCmpEq folder s.2 id).1, (convertFCmpEq folder s.2 id).2)) (changed, G)
      s.1 = false → changed = false ∧ s.2 = G := by
    intro ids
    induction ids with
    | nil => exact fun _ _ hs => ⟨hs, rfl⟩
    | cons id ids ih =>
        intro changed G s hs
        obtain ⟨hfirst, hrest⟩ := ih _ _ hs
        obtain ⟨hchanged, hconverted⟩ := Bool.or_eq_false_iff.mp hfirst
        exact ⟨hchanged, hrest.trans (convertFCmpEq_unchanged hconverted)⟩
  by_cases hopt : F.optnone = true
  · unfold ConvertFCmpEq.run
    rw [if_pos hopt]
  · have hchanged : (analysis.foldl (fun (s : Bool × Function) id =>
        (s.1 || (convertFCmpEq folder s.2 id).1, (convertFCmpEq folder s.2 id).2)) (false, F)).1 =
        false := by
      unfold ConvertFCmpEq.run at h
      rw [if_neg hopt] at h
      refine Bool.eq_false_iff.mpr fun htrue => ?_
      have hnone : (if (analysis.foldl (fun (s : Bool × Function) id =>
          (s.1 || (convertFCmpEq folder s.2 id).1, (convertFCmpEq folder s.2 id).2))
          (false, F)).1 = true then PreservedAnalyses.none else .all) = .all := h
      rw [if_pos htrue] at hnone
      cases hnone
    unfold ConvertFCmpEq.run
    rw [if_neg hopt]
    exact (hloop analysis false F hchanged).2

theorem DuplicateBB.run_unchanged {dist : Nat → Nat} {order : Arrangement (Nat × Value)}
    {rivAnalysis : RIV.Result}
    (h : (DuplicateBB.run dist order.arrange rivAnalysis F).1 = .all) :
    (DuplicateBB.run dist order.arrange rivAnalysis F).2 = F := by
  unfold DuplicateBB.run at h ⊢
  by_cases hempty : (DuplicateBB.targets F rivAnalysis dist).isEmpty = true
  · have hnil : order.arrange (DuplicateBB.targets F rivAnalysis dist) = [] := by
      have hperm := order.perm (DuplicateBB.targets F rivAnalysis dist)
      rw [List.isEmpty_iff.mp hempty] at hperm ⊢
      exact List.perm_nil.mp hperm
    show DuplicateBB.duplicateAll F (order.arrange (DuplicateBB.targets F rivAnalysis dist)) = F
    rw [hnil]
    rfl
  · simp only [if_neg hempty] at h
    cases h

theorem MergeBB.mergeBlocks_unchanged {s s' : MergeBB.State} {deleteList deleteList' bbs : List Nat}
    {changed : Bool} (h : s.mergeBlocks deleteList changed bbs = .ok (false, s', deleteList')) :
    changed = false ∧ s' = s ∧ deleteList' = deleteList := by
  induction bbs generalizing s deleteList changed with
  | nil =>
      cases h
      exact ⟨rfl, rfl, rfl⟩
  | cons bb bbs ih =>
      rcases MergeBB.State.mergeBlocks_cons h with ⟨-, hrest⟩ | ⟨bb2, t, -, -, hrest⟩
      · obtain ⟨hchanged, hsame⟩ := ih hrest
        exact ⟨(Bool.or_eq_false_iff.mp hchanged).1, hsame⟩
      · obtain ⟨hchanged, -⟩ := ih hrest
        rw [Bool.or_true] at hchanged
        cases hchanged

theorem MergeBB.run_unchanged {order : Arrangement Nat}
    (h : MergeBB.run order.arrange F = .ok (false, G)) : G = F := by
  unfold MergeBB.run at h
  cases hblocks : (MergeBB.State.ofFunction F).mergeBlocks [] false F.order with
  | error e =>
      rw [hblocks] at h
      cases h
  | ok r =>
      obtain ⟨changed, s, deleteList⟩ := r
      rw [hblocks] at h
      cases hdelete : (order.arrange deleteList).foldlM MergeBB.deleteDeadBlock s.fn with
      | error e =>
          simp only [hdelete, bind, Except.bind] at h
          cases h
      | ok F' =>
          simp only [hdelete, bind, Except.bind] at h
          cases h
          obtain ⟨-, rfl, rfl⟩ := MergeBB.mergeBlocks_unchanged hblocks
          rw [List.perm_nil.mp (order.perm [])] at hdelete
          cases hdelete
          rfl

theorem InjectFuncCall.run_unchanged (h : InjectFuncCall.run M = some (M', [])) :
    M.defined = [] ∧ M'.defined = [] := by
  rw [InjectFuncCall.run_eq] at h
  obtain ⟨⟨printf, M₁⟩, hprintf, hinject⟩ := Option.bind_eq_some_iff.mp h
  obtain ⟨new, hfunctions, hnew⟩ := DynamicCallCounter.getOrInsertFunction_functions hprintf
  let M₂ := (setFormatStr M₁ InjectFuncCall.formatStr).2
  have hdefined : M₂.defined = [] := by
    cases hlist : M₂.defined with
    | nil => rfl
    | cons f fs =>
        rw [show (setFormatStr M₁ InjectFuncCall.formatStr).2.defined = f :: fs from hlist]
          at hinject
        cases hinject
  have hM' : M' = M₂ := by
    rw [show (setFormatStr M₁ InjectFuncCall.formatStr).2.defined = [] from hdefined] at hinject
    cases hinject
    rfl
  have hsame : M₂.functions = M.functions ++ new :=
    (DynamicCallCounter.setFormatStr_functions M₁ _).trans hfunctions
  refine ⟨?_, hM' ▸ hdefined⟩
  unfold Module.defined at hdefined ⊢
  rw [hsame, List.filter_append] at hdefined
  exact (List.append_eq_nil_iff.mp hdefined).1

/-! ## What a pass gets and what it reports -/

/-- A result that is handed out is what the analysis computes. -/
theorem getResult_spec (h : c.UpToDate (Analysis.run domTree M)) (a : Analysis) :
    (getResult domTree M a c).1 = a.run domTree M ∧
      (getResult domTree M a c).2.UpToDate (Analysis.run domTree M) := by
  cases a with
  | riv n =>
      let T : StateM AnalysisManager RIV.DomTree :=
        pure ((Analysis.dominatorTree n).run domTree M)
      have hT : (T c).1 = (Analysis.dominatorTree n).run domTree M ∧
          (T c).2.UpToDate (Analysis.run domTree M) := ⟨rfl, h⟩
      obtain ⟨hT, hc⟩ := Cache.UpToDate.obtain h (k := Analysis.dominatorTree n) hT
      refine h.obtain ⟨?_, hc⟩
      show RIV.run (Cache.obtain (Analysis.dominatorTree n) T c).1 _ _ = _
      rw [hT]
      rfl
  | _ => exact h.obtain ⟨rfl, h⟩

namespace FunctionPass

variable {PA : PreservedAnalyses} {q : FunctionPass}

/-- A pass does what it does when nothing has been computed before. -/
theorem run_spec (h : c.UpToDate (Analysis.run domTree M)) (q : FunctionPass) (n : Nat)
    (F : Function) :
    (q.run domTree M n F c).1 = (q.run domTree M n F .empty).1 ∧
      (q.run domTree M n F c).2.UpToDate (Analysis.run domTree M) := by
  have hspec := fun a => getResult_spec h a
  have hempty := fun a => getResult_spec (Cache.upToDate_empty (Analysis.run domTree M)) a
  cases q with
  | mbaAdd | mbaSub | mergeBB | helloWorld => exact ⟨rfl, h⟩
  | convertFCmpEq folder =>
      refine ⟨?_, (hspec (.findFCmpEq n)).2⟩
      show some (ConvertFCmpEq.run folder (getResult domTree M (.findFCmpEq n) c).1 F) =
        some (ConvertFCmpEq.run folder (getResult domTree M (.findFCmpEq n) .empty).1 F)
      rw [(hspec _).1, (hempty _).1]
  | duplicateBB dist order =>
      refine ⟨?_, (hspec (.riv n)).2⟩
      show some (DuplicateBB.run dist order.arrange (getResult domTree M (.riv n) c).1 F) =
        some (DuplicateBB.run dist order.arrange (getResult domTree M (.riv n) .empty).1 F)
      rw [(hspec _).1, (hempty _).1]
  | riv => exact ⟨rfl, (hspec (.riv n)).2⟩
  | opcodeCounter => exact ⟨rfl, (hspec (.opcodeCounter n)).2⟩
  | findFCmpEq => exact ⟨rfl, (hspec (.findFCmpEq n)).2⟩

/-- All passes but `mba-add` have changed nothing if they report that everything
is preserved. -/
theorem run_unchanged (hq : q ≠ .mbaAdd)
    (h : (q.run domTree M n F c).1 = some (.all, G)) : G = F := by
  cases q with
  | mbaAdd => exact absurd rfl hq
  | mbaSub =>
      have heq : (if (MBA.substitute MBASub.rule F).1 = true then PreservedAnalyses.none else .all,
          (MBA.substitute MBASub.rule F).2) = (.all, G) := Option.some.inj h
      obtain ⟨hreport, rfl⟩ := Prod.mk.inj heq
      cases hchanged : (MBA.substitute MBASub.rule F).1 with
      | false => exact MBA.substitute_unchanged hchanged
      | true =>
          rw [if_pos hchanged] at hreport
          cases hreport
  | convertFCmpEq folder =>
      have heq : ConvertFCmpEq.run folder (getResult domTree M (.findFCmpEq n) c).1 F = (.all, G) :=
        Option.some.inj h
      have hsame := ConvertFCmpEq.run_unchanged (congrArg Prod.fst heq)
      exact (congrArg Prod.snd heq).symm.trans hsame
  | duplicateBB dist order =>
      have heq :
          DuplicateBB.run dist order.arrange (getResult domTree M (.riv n) c).1 F = (.all, G) :=
        Option.some.inj h
      have hsame := DuplicateBB.run_unchanged (congrArg Prod.fst heq)
      exact (congrArg Prod.snd heq).symm.trans hsame
  | mergeBB order =>
      cases hrun : MergeBB.run order.arrange F with
      | error e =>
          simp only [FunctionPass.run, hrun] at h
          cases h
      | ok r =>
          obtain ⟨changed, G'⟩ := r
          simp only [FunctionPass.run, hrun] at h
          cases changed with
          | true => cases h
          | false =>
              cases h
              exact MergeBB.run_unchanged hrun
  | riv | opcodeCounter | findFCmpEq | helloWorld =>
      cases h
      rfl

end FunctionPass

namespace ModulePass

variable {q : ModulePass}

theorem run_spec (h : c.UpToDate (Analysis.run domTree M)) (q : ModulePass) :
    (q.run domTree M c).1 = (q.run domTree M .empty).1 ∧
      (q.run domTree M c).2.UpToDate (Analysis.run domTree M) := by
  cases q with
  | injectFuncCall | dynamicCallCounter => exact ⟨rfl, h⟩
  | staticCallCounter => exact ⟨rfl, (getResult_spec h .staticCallCounter).2⟩

/-- A module pass that reports that everything is preserved has changed nothing,
or there was nothing to analyse. -/
theorem run_unchanged (h : (q.run domTree M c).1 = some (.all, M')) :
    M' = M ∨ M.defined = [] ∧ M'.defined = [] := by
  cases q with
  | injectFuncCall =>
      obtain ⟨⟨M₁, calls⟩, hrun, heq⟩ := Option.map_eq_some_iff.mp h
      obtain ⟨hreport, rfl⟩ := Prod.mk.inj heq
      cases calls with
      | nil => exact .inr (InjectFuncCall.run_unchanged hrun)
      | cons call calls => cases hreport
  | dynamicCallCounter order =>
      obtain ⟨⟨M₁, calls⟩, hrun, heq⟩ := Option.map_eq_some_iff.mp h
      obtain ⟨hreport, rfl⟩ := Prod.mk.inj heq
      by_cases hempty : M.defined.isEmpty = true
      · unfold DynamicCallCounter.run at hrun
        rw [if_pos hempty] at hrun
        cases hrun
        exact .inl rfl
      · simp only [if_neg hempty] at hreport
        cases hreport
  | staticCallCounter =>
      cases h
      exact .inl rfl

end ModulePass

/-! ## Steps -/

namespace MBAAdd

theorem obfuscate_eq (i : Instr Op) : obfuscate i =
    (tree 8 (MBA.getOperand i 0) (MBA.getOperand i 1)).emit i.ty := rfl

theorem onOperators : rule.OnOperators where
  selects := by
    intro i hsel
    unfold MBA.isBinaryOperator
    rw [(isAdd_iff.mp hsel).1]
  congr := rule_builds.congr
  value := by
    intro i n
    show MBA.IsResult (obfuscate i ⟨[], n⟩).1
    rw [obfuscate_eq]
    refine (Expr.emit_root i.ty _ _ _ ⟨[], n⟩ (Nat.le_refl n)).imp_right ?_
    rintro ⟨id, hid, -⟩
    exact ⟨id, hid⟩
  inserted := by
    intro i n d hd
    have hmade : d ∈ (obfuscate i ⟨[], n⟩).2.inserted := hd
    rw [obfuscate_eq] at hmade
    rcases Expr.emit_inserted _ _ ⟨[], n⟩ (Nat.le_refl n) d hmade with hno | ⟨-, ⟨op, -, hop⟩, -⟩
    · cases hno
    · unfold MBA.isBinaryOperator
      rw [hop]

theorem still_iff {k : Nat} :
    MBA.Still rule F k ↔ (k ∈ F.order → addsBytes F k = false) := by
  unfold MBA.Still addsBytes
  rw [List.any_eq_false]
  simp only [Bool.not_eq_true]
  rfl

/-- What a result depends on is still there, unless it is the additions. -/
theorem run_kept (hdom : OfBlocks domTree) (hF : M.body n = some F) (a : Analysis)
    (hopcodes : a = .opcodeCounter n → ∀ k ∈ F.order, addsBytes F k = false)
    (hriv : a = .riv n → ∀ k ∈ F.order, addsBytes F k = true → (domTree F).children k = []) :
    a.run domTree (M.setBody n (MBA.substitute rule F).2) = a.run domTree M := by
  obtain ⟨⟨σ, h⟩, hchanged⟩ := MBA.substitute_touched onOperators F
  generalize hG : (MBA.substitute rule F).2 = G at h ⊢
  have hbody := body_setBody hF h.order
  have htree : domTree G = domTree F := hdom F G h.order fun k _ => h.successors k
  have hother : ∀ m, m ≠ n → a.function = some m →
      a.run domTree (M.setBody n G) = a.run domTree M := fun m hm ha =>
    Analysis.run_congr (body_setBody_ne hm) ha
  cases a with
  | staticCallCounter =>
      obtain ⟨f, hf, rfl, -⟩ := body_eq_some hF
      refine staticCallCounter_congr (List.ext_getElem? fun i => ?_) fun functions =>
        List.ext_getElem? fun i => ?_
      all_goals
        rw [List.getElem?_map, List.getElem?_map, functions_setBody]
        by_cases hi : n = i
        · subst hi
          rw [List.getElem?_modify_eq, hf]
          first
            | rfl
            | exact congrArg some (h.calledIn functions)
        · rw [List.getElem?_modify_ne _ _ hi]
  | dominatorTree m =>
      by_cases hm : m = n
      · subst hm
        unfold Analysis.run
        simp only [hbody, hF, Option.getD_some]
        exact htree
      · exact hother m hm rfl
  | riv m =>
      by_cases hm : m = n
      · subst hm
        show RIV.run _ _ _ = RIV.run _ _ _
        simp only [hbody, hF, Option.getD_some]
        rw [htree]
        have hsame : G = { F with block := G.block, nextInst := G.nextInst } := h.same
        have hparams : G.params = F.params := by rw [hsame]
        refine RIV.run_congr h.order hparams fun k hk => h.definedValues ?_
        refine still_iff.mpr fun hmem => Bool.eq_false_iff.mpr fun hadds => ?_
        exact hk (hriv rfl k hmem hadds)
      · exact hother m hm rfl
  | opcodeCounter m =>
      by_cases hm : m = n
      · subst hm
        have hsame : G = F := by
          rw [← hG]
          refine MBA.substitute_unchanged (Bool.eq_false_iff.mpr fun htrue => ?_)
          obtain ⟨k, hk, i, hi, hsel⟩ := hchanged htrue
          have hadds := List.any_eq_false.mp (hopcodes rfl k hk) i hi
          exact hadds hsel
        rw [hsame, setBody_self hF]
      · exact hother m hm rfl
  | findFCmpEq m =>
      by_cases hm : m = n
      · subst hm
        unfold Analysis.run
        simp only [hbody, hF, Option.getD_some]
        exact h.findFCmpEq
      · exact hother m hm rfl

end MBAAdd

namespace Step

variable {q : FunctionPass}

theorem next_declaration (h : s.module.body n = none) :
    (Step.onFunction q n).next domTree s = some s := by
  unfold Step.next
  simp only [h]

theorem next_onFunction (h : s.module.body n = some F) :
    (Step.onFunction q n).next domTree s = (q.run domTree s.module n F s.analyses).1.map fun r =>
      ⟨s.module.setBody n r.2,
        (q.run domTree s.module n F s.analyses).2.keep (r.1.keeps (some n))⟩ := by
  unfold Step.next
  simp only [h]
  rfl

theorem next_onModule (q : ModulePass) :
    (Step.onModule q).next domTree s = (q.run domTree s.module s.analyses).1.map fun r =>
      ⟨r.2, (q.run domTree s.module s.analyses).2.keep (r.1.keeps none)⟩ := rfl

/-- The module after a step is the one after it when nothing has been computed
before. -/
theorem next_module (h : s.analyses.UpToDate (Analysis.run domTree s.module)) (p : Step) :
    (p.next domTree s).map Managed.module =
      (p.next domTree ⟨s.module, .empty⟩).map Managed.module := by
  cases p with
  | onFunction q n =>
      cases hF : s.module.body n with
      | none => rw [next_declaration hF, next_declaration (s := ⟨s.module, .empty⟩) hF]; rfl
      | some F =>
          rw [next_onFunction hF, next_onFunction (s := ⟨s.module, .empty⟩) hF, Option.map_map,
            Option.map_map, (FunctionPass.run_spec h q n F).1]
          rfl
  | onModule q =>
      rw [next_onModule, next_onModule, Option.map_map, Option.map_map, (ModulePass.run_spec h q).1]
      rfl

/-- A step that does not lose anything leaves a cache that is up to date. -/
theorem next_upToDate (hdom : OfBlocks domTree)
    (h : s.analyses.UpToDate (Analysis.run domTree s.module)) (hkept : loses domTree s p = false)
    (hnext : p.next domTree s = some t) : t.analyses.UpToDate (Analysis.run domTree t.module) := by
  cases p with
  | onFunction q n =>
      cases hF : s.module.body n with
      | none =>
          rw [next_declaration hF] at hnext
          cases hnext
          exact h
      | some F =>
          rw [next_onFunction hF] at hnext
          obtain ⟨⟨PA, G⟩, hrun, rfl⟩ := Option.map_eq_some_iff.mp hnext
          refine (FunctionPass.run_spec h q n F).2.keep fun a hkeeps hcached => ?_
          cases PA with
          | none =>
              simp only [PreservedAnalyses.keeps, Bool.and_eq_true, bne_iff_ne, ne_eq] at hkeeps
              obtain ⟨m, hm⟩ := Option.isSome_iff_exists.mp hkeeps.1
              refine Analysis.run_congr (body_setBody_ne fun heq => hkeeps.2 ?_) hm
              rw [hm, heq]
          | all =>
              by_cases hq : q = .mbaAdd
              · subst hq
                obtain ⟨-, rfl⟩ := Prod.mk.inj (Option.some.inj hrun)
                have hno : ∀ k ∈ F.order, ¬ (addsBytes F k = true ∧
                    ((s.analyses (.opcodeCounter n)).isSome = true ∨
                      (s.analyses (.riv n)).isSome = true ∧ (domTree F).children k ≠ [])) := by
                  simpa [loses, hF] using hkept
                refine MBAAdd.run_kept hdom hF a ?_ ?_
                · rintro rfl k hk
                  exact Bool.eq_false_iff.mpr fun hadds => hno k hk ⟨hadds, .inl hcached⟩
                · rintro rfl k hk hadds
                  by_contra hchildren
                  exact hno k hk ⟨hadds, .inr ⟨hcached, hchildren⟩⟩
              · rw [FunctionPass.run_unchanged hq hrun, setBody_self hF]
  | onModule q =>
      rw [next_onModule] at hnext
      obtain ⟨⟨PA, M⟩, hrun, rfl⟩ := Option.map_eq_some_iff.mp hnext
      refine (ModulePass.run_spec h q).2.keep fun a hkeeps hcached => ?_
      cases PA with
      | none => cases hkeeps
      | all =>
          rcases ModulePass.run_unchanged hrun with rfl | ⟨hdefined, hdefined'⟩
          · rfl
          · exact run_of_no_bodies hdefined hdefined' a

end Step

/-! ## Pipelines -/

/-- In a pipeline whose steps lose nothing, whatever a pass obtains is what the
analysis computes of the module as it then is, and every pass does what it would
do if nothing had been kept. -/
theorem obtained_current (hdom : OfBlocks domTree) {ps pre post : List Step}
    (hkept : Simulation.Allowed (Step.next domTree) (fun s p => loses domTree s p = false) ps
      ⟨M, .empty⟩)
    (hps : ps = pre ++ post) (hrun : runPipeline domTree pre M = some s) (p : Step) :
    (∀ a, p.obtains s.module = some a →
      (getResult domTree s.module a s.analyses).1 = a.run domTree s.module) ∧
    (p.next domTree s).map Managed.module =
      (p.next domTree ⟨s.module, .empty⟩).map Managed.module := by
  let current (s : Managed) : Prop := s.analyses.UpToDate (Analysis.run domTree s.module)
  have hstep : ∀ p s t, current s → loses domTree s p = false → p.next domTree s = some t →
      current t := fun _ _ _ h hkept hnext => Step.next_upToDate hdom h hkept hnext
  have hstart : current ⟨M, .empty⟩ := Cache.upToDate_empty _
  rw [hps] at hkept
  have hcurrent : current s := Simulation.run_invariant hstep hstart hkept.of_append hrun
  exact ⟨fun a _ => (getResult_spec hcurrent a).1, Step.next_module hcurrent p⟩

/-! ### Counts of what is gone -/

/-- `define i8 @f(i8 %0, i8 %1)`: `%3 = add i8 %0, %1` and `ret i8 %3`. -/
def addingBytes : Module where
  globals := []
  functions := [⟨0, "f", {
    params := [.int 8, .int 8]
    retTy := .int 8
    order := [0]
    block := fun _ => ⟨[⟨0, .int 8, .binop .add, [.arg 0, .arg 1], [], {}⟩],
      ⟨1, .void, .ret, [.inst 0], [], {}⟩⟩
    nextBlock := 1
    nextInst := 2 }⟩]
  aliases := []
  next := 1

/-- The dominator tree of a function with one block. -/
def singleTree (F : Function) : RIV.DomTree := ⟨F.entry, fun _ => []⟩

theorem ofBlocks_singleTree : OfBlocks singleTree := by
  intro F G horder _
  unfold singleTree Function.entry
  rw [horder]

/-- The values are reachable nowhere else, and the opcodes are counted after. -/
theorem obtained_current_addingBytes : ∃ s,
    runPipeline singleTree [.onFunction .riv 0, .onFunction .mbaAdd 0, .onFunction .opcodeCounter 0]
      addingBytes = some s ∧ ∀ p : Step,
    (∀ a, p.obtains s.module = some a →
      (getResult singleTree s.module a s.analyses).1 = a.run singleTree s.module) ∧
    (p.next singleTree s).map Managed.module =
      (p.next singleTree ⟨s.module, .empty⟩).map Managed.module := by
  have hsome : (runPipeline singleTree
      [.onFunction .riv 0, .onFunction .mbaAdd 0, .onFunction .opcodeCounter 0]
      addingBytes).isSome = true := by decide
  obtain ⟨s, hrun⟩ := Option.isSome_iff_exists.mp hsome
  exact ⟨s, hrun, obtained_current ofBlocks_singleTree (by decide) (List.append_nil _).symm hrun⟩

/-- The opcodes of `@f` are counted, `mba-add` replaces its addition, and the
addition is still counted. -/
theorem stale_obtained :
    ¬ ∀ (domTree : Function → RIV.DomTree) (M : Module) (ps : List Step) (s : Managed),
      OfBlocks domTree → runPipeline domTree ps M = some s → ∀ (p : Step) (a : Analysis),
        p.obtains s.module = some a →
          (getResult domTree s.module a s.analyses).1 = a.run domTree s.module := by
  intro h
  have hstale : (runPipeline singleTree [.onFunction .opcodeCounter 0, .onFunction .mbaAdd 0]
      addingBytes).any (fun s =>
        decide ((Step.onFunction .opcodeCounter 0).obtains s.module = some (.opcodeCounter 0)) &&
          (getResult singleTree s.module (.opcodeCounter 0) s.analyses).1 !=
            (Analysis.opcodeCounter 0).run singleTree s.module) = true := by
    decide
  obtain ⟨s, hs, hstale⟩ := (Option.any_eq_true _ _).mp hstale
  rw [Bool.and_eq_true, decide_eq_true_eq] at hstale
  exact bne_iff_ne.mp hstale.2 (h singleTree addingBytes _ s ofBlocks_singleTree hs _ _ hstale.1)

end LlvmPasses
