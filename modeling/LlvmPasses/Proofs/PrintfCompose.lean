import Mathlib.Data.List.Induction
import LlvmPasses.Proofs.PrintfUpdates

/-!
# Runs of the two printf passes

What one run does to a module: the format string it sets, the counters it
clears, and the calls it inserts. The calls inserted so far stay right as long
as no run sets what they pass to something else, and there is one variable for
both format strings.

`composed_iff` is about pipelines of any length of the two passes, in any
order. `Composed` says of a module and the calls inserted so far that each call
is where it was put and passes a variable that holds the format string of its
own pass, and that all initializers have the types of their variables. On the
right is a condition on each run at the moment it begins (`Fits`): what the
pass looks up is of the kind and type it expects, and no call of the other pass
passes the variable that it is about to set.

Each pass is run once, with what it sets and what it inserts
(`InjectFuncCall.ran`, `DynamicCallCounter.ran`), and the loops by induction on
the functions. `Ran.keeps_iff` is the step, for any pass that does this: a
variable that a run sets held another format string before, or nothing, and in
the first case the calls of the other pass are wrong afterwards. The list of
destructors is made anew by every run of one of the passes. It may be called
like nothing that a call passes (`Unlisted`), as the passes pass only strings
they have made or asked for.
-/

namespace LlvmPasses

open Ir

section

variable {M M' : Module} {set : Nat → Option Const} {name : String} {g printf : Nat}
variable {fs : List Func} {calls : List Inserted} {map : List (String × Nat)}

/-- The call passes the variable as its format string. -/
def Inserted.On (c : Inserted) (g : Nat) : Prop := c.call.operands.head? = some (.global g)

/-- The functions that a loop is to come by are still there. -/
def Present (M : Module) (fs : List Func) : Prop :=
  ∀ F ∈ fs, ∃ f ∈ M.functions, f.id = F.id ∧ f.fn.isDeclaration = false

theorem present_defined (M : Module) : Present M M.defined := by
  intro F hF
  obtain ⟨hmem, hdef⟩ := List.mem_filter.mp hF
  exact ⟨F, hmem, rfl, by simpa using hdef⟩

/-! ## Instructions at the entry -/

theorem insertFirst_keeps (new : Function → List (Instr Op)) (F : Function) :
    ∀ k ∈ F.order, ∀ i ∈ (F.block k).instrs,
      k ∈ (F.insertFirst (new F)).order ∧ i ∈ ((F.insertFirst (new F)).block k).instrs := by
  intro k hk i hi
  refine ⟨hk, ?_⟩
  show i ∈ (if k = F.entry then _ else F.block k).instrs
  by_cases hentry : k = F.entry
  · rw [if_pos hentry]
    rw [hentry, ← List.takeWhile_append_dropWhile (p := Instr.isPhi)
      (l := (F.block F.entry).instrs)] at hi
    show i ∈ (F.block F.entry).phis ++ new F ++ (F.block F.entry).body
    rw [List.append_assoc, List.mem_append, List.mem_append]
    rcases List.mem_append.mp hi with hi | hi
    · exact .inl hi
    · exact .inr (.inr hi)
  · rw [if_neg hentry]
    exact hi

theorem insertFirst_updates (M : Module) (id : Nat) (new : Function → List (Instr Op)) :
    Updates M (M.modifyFunction id fun fn => fn.insertFirst (new fn)) fun _ => none :=
  modifyFunction_updates (fun f _ => insertFirst_keeps new f.fn) fun _ _ h => h

theorem Present.insertFirst (h : Present M fs) (id : Nat) (new : Function → List (Instr Op)) :
    Present (M.modifyFunction id fun fn => fn.insertFirst (new fn)) fs := by
  intro F hF
  obtain ⟨f, hf, hid, hdef⟩ := h F hF
  refine ⟨_, List.mem_map_of_mem hf, ?_⟩
  by_cases hfid : f.id = id
  · rw [if_pos hfid]
    exact ⟨hid, hdef⟩
  · rw [if_neg hfid]
    exact ⟨hid, hdef⟩

/-- What has been inserted is there. -/
theorem has_insertFirst {F : Func} (h : ∃ f ∈ M.functions, f.id = F.id ∧ f.fn.isDeclaration = false)
    {new : Function → List (Instr Op)} {i : Instr Op} (hi : ∀ fn, i ∈ new fn) :
    (M.modifyFunction F.id fun fn => fn.insertFirst (new fn)).Has ⟨F.id, i⟩ := by
  obtain ⟨f, hf, hid, hdef⟩ := h
  refine ⟨_, List.mem_map_of_mem hf, ?_⟩
  rw [if_pos hid]
  refine ⟨hid, f.fn.entry, ?_, ?_⟩
  · show f.fn.entry ∈ f.fn.order
    unfold Function.isDeclaration at hdef
    unfold Function.entry
    cases horder : f.fn.order with
    | nil =>
        rw [horder] at hdef
        cases hdef
    | cons k ks => exact List.mem_cons_self ..
  · show i ∈ (if f.fn.entry = f.fn.entry then _ else f.fn.block f.fn.entry).instrs
    rw [if_pos rfl]
    exact List.mem_append_left _ (List.mem_append_right _ (hi f.fn))

/-! ## The loops -/

/-- `inject` sets nothing, and its calls pass the variable it is given. -/
theorem inject_spec (printf g : Nat) (fs : List Func) : ∀ M : Module, Present M fs →
    Updates M (InjectFuncCall.inject printf g fs M).1 (fun _ => none) ∧
      ∀ c ∈ (InjectFuncCall.inject printf g fs M).2,
        c.On g ∧ (InjectFuncCall.inject printf g fs M).1.Has c := by
  induction fs with
  | nil => exact fun M _ => ⟨.refl M, List.forall_mem_nil _⟩
  | cons F fs ih =>
      intro M hpresent
      obtain ⟨hF, hfs⟩ := List.forall_mem_cons.mp hpresent
      have hstring := createGlobalString_updates M F.name
      obtain ⟨call, hcall, heq⟩ : ∃ call : Instr Op, call.operands.head? = some (.global g) ∧
          InjectFuncCall.inject printf g (F :: fs) M =
            (fun r => (r.1, ⟨F.id, call⟩ :: r.2)) (InjectFuncCall.inject printf g fs
              ((M.createGlobalString F.name).2.modifyFunction F.id fun fn =>
                fn.insertFirst [call])) :=
        ⟨printfCall printf g (M.createGlobalString F.name).1
          (.constInt 32 (BitVec.ofNat 32 F.fn.params.length)) F.fn.nextInst, rfl, rfl⟩
      rw [heq]
      have hfirst := insertFirst_updates (M.createGlobalString F.name).2 F.id fun _ => [call]
      obtain ⟨hrest, hcalls⟩ := ih _
        (Present.insertFirst (M := (M.createGlobalString F.name).2) hfs F.id fun _ => [call])
      refine ⟨(hstring.trans_none hfirst).trans_none hrest, fun c hc => ?_⟩
      rcases List.mem_cons.mp hc with rfl | hc
      · exact ⟨hcall, hrest.calls _ (has_insertFirst (M := (M.createGlobalString F.name).2) hF
          fun _ => List.mem_singleton_self _)⟩
      · exact hcalls c hc

/-- What `count` sets are the counters that are already there. -/
theorem count_spec (fs : List Func) : ∀ (map : List (String × Nat)) (M : Module), M.Handled →
    (∃ set, Updates M (DynamicCallCounter.count fs map M).1 set ∧
      (∀ id c, set id = some c → c = .int 32 0) ∧
      ∀ id < M.next, set id = some (.int 32 0) ↔
        ∃ F ∈ fs, M.getNamedValue (F.name ++ "_Counter") = some (.global id)) ∧
      ∀ name, Reserved name → Stable M (DynamicCallCounter.count fs map M).1 name := by
  induction fs with
  | nil =>
      intro map M _
      refine ⟨⟨fun _ => none, .refl M, nofun, fun id _ => ?_⟩, fun _ _ => rfl⟩
      exact iff_of_false nofun fun ⟨F, hF, _⟩ => nomatch hF
  | cons F fs ih =>
      intro map M hM
      obtain ⟨functionGlobal, M₁, M₂, hM₁, hM₂, hglobals, hsame, heq⟩ : ∃ functionGlobal M₁ M₂,
          Assigned M (F.name ++ "_Counter") (.int 32 0) functionGlobal M₁ ∧
          Updates M₁ M₂ (fun _ => none) ∧ M₂.globals = M₁.globals ∧
          (∀ name, Stable M₁ M₂ name) ∧
          DynamicCallCounter.count (F :: fs) map M = DynamicCallCounter.count fs
            (DynamicCallCounter.insertGlobal map F.name functionGlobal) M₂ :=
        ⟨_, _, _, assigned_getOrInsertGlobal hM (F.name ++ "_Counter") (.int 32 0),
          insertFirst_updates _ F.id fun fn => DynamicCallCounter.increment _ fn.nextInst,
          rfl, modifyFunction_stable _ F.id _, rfl⟩
      rw [heq]
      have hfirst := hM₁.updates.trans_none hM₂
      obtain ⟨⟨set, hset, hzero, hsome⟩, hstable⟩ := ih
        (DynamicCallCounter.insertGlobal map F.name functionGlobal) M₂ (hfirst.handled hM)
      refine ⟨⟨_, hfirst.trans hset fun v hv hle c hc => ?_, fun id c hc => ?_, fun id hid => ?_⟩,
        fun name hname => ?_⟩
      · rw [hzero v.id c hc]
        exact (hM₁.fresh v (hglobals ▸ hv) hle).symm
      · cases hs : set id with
        | some d =>
            rw [hs] at hc
            cases hc
            exact hzero id c hs
        | none =>
            rw [hs] at hc
            unfold assigned at hc
            split at hc
            · cases hc
              rfl
            · cases hc
      · rw [List.exists_mem_cons_iff]
        have hold : ∀ F' : Func, M₂.getNamedValue (F'.name ++ "_Counter") = some (.global id) ↔
            M.getNamedValue (F'.name ++ "_Counter") = some (.global id) :=
          fun _ => getNamedValue_old hfirst hid
        have hrest := hsome id (Nat.lt_of_lt_of_le hid hfirst.next)
        simp only [hold] at hrest
        rw [or_comm, ← hrest]
        cases hs : set id with
        | some d =>
            obtain rfl := hzero id d hs
            simp
        | none => simp [assigned]
      · exact (hM₁.stable name hname (counter_ne hname.2.2 F.name)).trans
          ((hsame name).trans (hstable name hname))

/-- `print` sets nothing, and its calls pass the variable it is given. -/
theorem print_spec (printf g : Nat) (map : List (String × Nat)) : ∀ (id : Nat) (M : Module),
    let r := DynamicCallCounter.print printf g map id M
    Updates M r.1 (fun _ => none) ∧ r.1.functions = M.functions ∧
      ∀ i ∈ r.2.2, i ∈ r.2.1 ∧ i.operands.head? = some (.global g) := by
  induction map with
  | nil => exact fun _ M => ⟨.refl M, rfl, List.forall_mem_nil _⟩
  | cons e map ih =>
      intro id M
      obtain ⟨fnName, global⟩ := e
      obtain ⟨hrest, hfunctions, hcalls⟩ := ih (id + 2) (M.createGlobalString fnName).2
      refine ⟨(createGlobalString_updates M fnName).trans_none hrest, hfunctions, fun i hi => ?_⟩
      rcases List.mem_cons.mp hi with rfl | hi
      · exact ⟨List.mem_cons_of_mem _ (List.mem_cons_self ..), rfl⟩
      · exact ⟨List.mem_cons_of_mem _ (List.mem_cons_of_mem _ (hcalls i hi).1), (hcalls i hi).2⟩

/-! ## One run -/

/-- A run of the pass gives the variable this initializer, if the variable is
there already. -/
def Sets (M : Module) (p : PrintfPass) (id : Nat) (c : Const) : Prop :=
  (M.getNamedValue "PrintfFormatStr" = some (.global id) ∧ c = .string p.formatStr) ∨
    (p = .dynamicCallCounter ∧ c = .int 32 0 ∧
      ∃ F ∈ M.defined, M.getNamedValue (F.name ++ "_Counter") = some (.global id))

/-- What a run has done. -/
structure Ran (M : Module) (p : PrintfPass) (M' : Module) (calls : List Inserted) : Prop where
  updates : ∃ set M₀, Updates M M₀ set ∧ Relisted M₀ p M' ∧
    ∀ id < M.next, ∀ c, set id = some c ↔ Sets M p id c
  calls : ∃ g, (∃ v ∈ M'.globals, v.id = g ∧ v.name ≠ globalDtors ∧
    v.init = some (.string p.formatStr)) ∧ ∀ c ∈ calls, c.On g ∧ M'.Has c

/-- The run has something to do. -/
def PrintfPass.Acts (M : Module) : PrintfPass → Prop
  | .injectFuncCall => True
  | .dynamicCallCounter => M.defined ≠ []

/-- Everything that the pass takes for a function can be one. -/
def PrintfPass.Callable (M : Module) : PrintfPass → Prop
  | .injectFuncCall => LlvmPasses.Callable M "printf"
  | .dynamicCallCounter => LlvmPasses.Callable M "printf" ∧ LlvmPasses.Callable M "print_wrapper"

theorem reserved_printf : Reserved "printf" := by decide

theorem reserved_print_wrapper : Reserved "print_wrapper" := by decide

theorem reserved_formatStr : Reserved "PrintfFormatStr" := by decide

theorem Stable.callable (h : Stable M M' name) : Callable M' name ↔ Callable M name := by
  unfold Callable
  rw [h]

/-- A variable set once and never again keeps what it was set to. -/
theorem Updates.mem (h : Updates M M' fun _ => none) {v : GlobalVariable} (hv : v ∈ M.globals) :
    v ∈ M'.globals := by
  obtain ⟨new, hglobals, -, -⟩ := h.globals
  rw [hglobals, funext GlobalVariable.update_none, List.map_id']
  exact List.mem_append_left _ hv

/-- The variable that is set is not the list of destructors. -/
theorem Assigned.format {c : Const} (h : Assigned M "PrintfFormatStr" c g M') :
    ∃ v ∈ M'.globals, v.id = g ∧ v.name ≠ globalDtors ∧ v.init = some c := by
  obtain ⟨v, hv, hid, hprefix, hinit⟩ := h.init
  refine ⟨v, hv, hid, fun hname => ?_, hinit⟩
  rw [hname] at hprefix
  revert hprefix
  decide

/-- `setFormatStr` sets the variable and makes it hold the format string. -/
theorem setFormatStr_spec (hM : M.Handled) (str : String) :
    Assigned M "PrintfFormatStr" (.string str) (setFormatStr M str).1 (setFormatStr M str).2 :=
  assigned_getOrInsertGlobal hM "PrintfFormatStr" (.string str)

theorem InjectFuncCall.run_eq (M : Module) : InjectFuncCall.run M =
    (getOrInsertPrintf M).bind fun r =>
      some (InjectFuncCall.inject r.1 (setFormatStr r.2 InjectFuncCall.formatStr).1
        (setFormatStr r.2 InjectFuncCall.formatStr).2.defined
        (setFormatStr r.2 InjectFuncCall.formatStr).2) := rfl

theorem InjectFuncCall.run_callable :
    (∃ r, InjectFuncCall.run M = some r) ↔ PrintfPass.injectFuncCall.Callable M := by
  show _ ↔ LlvmPasses.Callable M "printf"
  rw [← getOrInsertFunction_callable [.ptr] (.int 32),
    InjectFuncCall.run_eq, getOrInsertPrintf]
  cases M.getOrInsertFunction "printf" [.ptr] (.int 32) <;> simp

theorem InjectFuncCall.ran (hM : M.Handled) (h : InjectFuncCall.run M = some (M', calls)) :
    Ran M .injectFuncCall M' calls := by
  rw [InjectFuncCall.run_eq] at h
  obtain ⟨⟨printf, M₁⟩, hprintf, h⟩ := Option.bind_eq_some_iff.mp h
  obtain ⟨hfirst, hglobals, hstable, -⟩ := getOrInsertFunction_spec hprintf
  have hassigned := setFormatStr_spec (hfirst.handled hM) InjectFuncCall.formatStr
  simp only at h
  generalize setFormatStr M₁ InjectFuncCall.formatStr = r at h hassigned
  obtain ⟨hrest, hcalls⟩ := inject_spec printf r.1 _ r.2 (present_defined r.2)
  rw [Option.some.inj h] at hrest hcalls
  obtain ⟨v, hv, hformat⟩ := hassigned.format
  refine ⟨⟨_, _, (hfirst.none_trans hassigned.updates fun v hv hle c hc => ?_).trans_none hrest,
    .kept, fun id _ c => ?_⟩, _, ⟨v, hrest.mem hv, hformat⟩, hcalls⟩
  · exact absurd (hM.below v (hglobals ▸ hv)) (Nat.not_lt.mpr hle)
  · unfold assigned Sets
    rw [hstable "PrintfFormatStr" (by decide)]
    split
    · next hvar => simp [hvar, PrintfPass.formatStr, eq_comm]
    · next hvar => simp [hvar]

theorem DynamicCallCounter.run_eq {arrange : List (String × Nat) → List (String × Nat)}
    (h : M.defined ≠ []) : DynamicCallCounter.run arrange M =
      (getOrInsertPrintf (DynamicCallCounter.count M.defined [] M).1).bind fun r =>
        ((setFormatStr r.2 DynamicCallCounter.formatStr).2.getOrInsertFunction "print_wrapper" []
          .void).bind fun w =>
          let id := ((w.2.functions.find? fun f => f.id == w.1).map (·.fn.nextInst)).getD 0
          let p := DynamicCallCounter.print r.1 (setFormatStr r.2 DynamicCallCounter.formatStr).1
            (arrange (DynamicCallCounter.count M.defined [] M).2) id w.2
          some ((p.1.modifyFunction w.1 fun fn =>
            DynamicCallCounter.appendBlock fn p.2.1).appendToGlobalDtors w.1,
            p.2.2.map (Inserted.mk w.1)) := by
  unfold DynamicCallCounter.run
  rw [if_neg (by simpa using h)]
  rfl

theorem DynamicCallCounter.run_callable (hM : M.Handled)
    (arrange : List (String × Nat) → List (String × Nat)) (h : M.defined ≠ []) :
    (∃ r, DynamicCallCounter.run arrange M = some r) ↔
      PrintfPass.dynamicCallCounter.Callable M := by
  obtain ⟨⟨set, hcount, -⟩, hstable⟩ := count_spec M.defined [] M hM
  rw [DynamicCallCounter.run_eq h]
  generalize DynamicCallCounter.count M.defined [] M = r at hcount hstable
  unfold PrintfPass.Callable
  rw [← (hstable _ reserved_printf).callable, ← (hstable _ reserved_print_wrapper).callable,
    ← getOrInsertFunction_callable [.ptr] (.int 32)]
  show _ ↔ (∃ r', getOrInsertPrintf r.1 = some r') ∧ _
  cases hprintf : getOrInsertPrintf r.1 with
  | none => simp
  | some q =>
      obtain ⟨printf, M₁⟩ := q
      obtain ⟨hfirst, -, hsame, -⟩ := getOrInsertFunction_spec hprintf
      have hassigned := setFormatStr_spec (hfirst.handled (hcount.handled hM))
        DynamicCallCounter.formatStr
      have hwrapper := (hsame "print_wrapper" (by decide)).trans
        (hassigned.stable _ reserved_print_wrapper (by decide))
      rw [← hwrapper.callable, ← getOrInsertFunction_callable [] .void]
      simp only [Option.bind_some]
      cases (setFormatStr M₁ DynamicCallCounter.formatStr).2.getOrInsertFunction "print_wrapper" []
        .void <;> simp

/-- The new block does not take the place of another. -/
theorem appendBlock_keeps {F : Function} (h : ∀ k ∈ F.order, k < F.nextBlock)
    (instrs : List (Instr Op)) : ∀ k ∈ F.order, ∀ i ∈ (F.block k).instrs,
      k ∈ (DynamicCallCounter.appendBlock F instrs).order ∧
        i ∈ ((DynamicCallCounter.appendBlock F instrs).block k).instrs := by
  intro k hk i hi
  refine ⟨List.mem_append_left _ hk, ?_⟩
  show i ∈ (if k = F.nextBlock then _ else F.block k).instrs
  rw [if_neg (Nat.ne_of_lt (h k hk))]
  exact hi

theorem appendBlock_updates (hM : M.FreshBlocks) (id : Nat) (instrs : List (Instr Op)) :
    Updates M (M.modifyFunction id fun fn => DynamicCallCounter.appendBlock fn instrs)
      fun _ => none :=
  modifyFunction_updates (fun f hf => appendBlock_keeps (hM f hf) instrs) fun f hf h k hk => by
    show k < f.fn.nextBlock + 1
    rcases List.mem_append.mp hk with hk | hk
    · exact Nat.lt_succ_of_lt (h k hk)
    · exact List.mem_singleton.mp hk ▸ Nat.lt_succ_self _

theorem has_appendBlock {id : Nat} (h : ∃ f ∈ M.functions, f.id = id) {instrs : List (Instr Op)}
    {i : Instr Op} (hi : i ∈ instrs) :
    (M.modifyFunction id fun fn => DynamicCallCounter.appendBlock fn instrs).Has ⟨id, i⟩ := by
  obtain ⟨f, hf, hid⟩ := h
  refine ⟨_, List.mem_map_of_mem hf, ?_⟩
  rw [if_pos hid]
  refine ⟨hid, f.fn.nextBlock, List.mem_append_right _ (List.mem_singleton_self _), ?_⟩
  show i ∈ (if f.fn.nextBlock = f.fn.nextBlock then _ else f.fn.block _).instrs
  rw [if_pos rfl]
  exact hi

/-- No counter is called like the format string. -/
theorem counter_ne_format (hM : M.Handled) {id : Nat} {fn : String}
    (h : M.getNamedValue (fn ++ "_Counter") = some (.global id)) :
    M.getNamedValue "PrintfFormatStr" ≠ some (.global id) := by
  intro hformat
  obtain ⟨v, hv, hid, hname⟩ := getNamedValue_global h
  obtain ⟨w, hw, hid', hname'⟩ := getNamedValue_global hformat
  have heq : v = w := List.inj_on_of_nodup_map hM.nodup hv hw (hid.trans hid'.symm)
  exact counter_ne reserved_formatStr.2.2 fn (hname.symm.trans (heq ▸ hname'))

theorem DynamicCallCounter.ran (hM : M.Handled)
    {arrange : List (String × Nat) → List (String × Nat)} (hdef : M.defined ≠ [])
    (h : DynamicCallCounter.run arrange M = some (M', calls)) :
    Ran M .dynamicCallCounter M' calls := by
  obtain ⟨⟨set, hcount, hzero, hsome⟩, hstable⟩ := count_spec M.defined [] M hM
  rw [DynamicCallCounter.run_eq hdef] at h
  generalize DynamicCallCounter.count M.defined [] M = r at h hcount hstable
  obtain ⟨⟨printf, M₁⟩, hprintf, h⟩ := Option.bind_eq_some_iff.mp h
  obtain ⟨hfirst, hglobals, hsame, -⟩ := getOrInsertFunction_spec hprintf
  have hcounted := hcount.trans_none hfirst
  have hassigned := setFormatStr_spec (hcounted.handled hM) DynamicCallCounter.formatStr
  simp only at h
  generalize setFormatStr M₁ DynamicCallCounter.formatStr = q at h hassigned
  obtain ⟨⟨printWrapper, M₂⟩, hwrapper, h⟩ := Option.bind_eq_some_iff.mp h
  obtain ⟨hsecond, -, -, hmem⟩ := getOrInsertFunction_spec hwrapper
  simp only at h
  generalize Option.getD _ _ = id at h
  obtain ⟨hprint, hfunctions, hcalls⟩ := print_spec printf q.1 (arrange r.2)
    id M₂
  generalize print printf q.1 (arrange r.2) id M₂ = p at h hprint hfunctions hcalls
  have hformat : Stable M M₁ "PrintfFormatStr" :=
    (hstable _ reserved_formatStr).trans (hsame _ (by decide))
  have hset := hcounted.trans hassigned.updates fun v _ hle c hc => by
    unfold assigned at hc
    rw [hformat] at hc
    split at hc
    · next hvar =>
        obtain ⟨w, hw, hid, -⟩ := getNamedValue_global hvar
        exact absurd (hM.below w hw) (Nat.not_lt.mpr (hid ▸ hle))
    · cases hc
  have hupto := (hset.trans_none hsecond).trans_none hprint
  have happend := appendBlock_updates (hupto.handled hM).blocks printWrapper p.2.1
  have hlist : Relisted (p.1.modifyFunction printWrapper fun fn =>
      DynamicCallCounter.appendBlock fn p.2.1) .dynamicCallCounter M' := by
    cases h
    exact .appended printWrapper
  obtain ⟨v, hv, hvid, hvname, hinit⟩ := hassigned.format
  refine ⟨⟨_, _, hupto.trans_none happend, hlist, fun id hid c => ?_⟩, q.1,
    ⟨v, hlist.mem (happend.mem (hprint.mem (hsecond.mem hv))) hvname, hvid, hvname, hinit⟩,
    fun c hc => ?_⟩
  · unfold assigned Sets
    rw [hformat]
    by_cases hvar : M.getNamedValue "PrintfFormatStr" = some (.global id)
    · simp only [hvar, if_true, true_and, PrintfPass.formatStr, Option.orElse_some,
        Option.some.injEq]
      constructor
      · exact fun heq => .inl heq.symm
      · rintro (heq | ⟨-, F, -, hF⟩)
        · exact heq.symm
        · exact absurd hvar (counter_ne_format hM hF)
    · simp only [hvar, if_false, false_and, false_or, Option.orElse_none, true_and]
      constructor
      · intro hc
        obtain rfl := hzero id c hc
        exact ⟨rfl, (hsome id hid).mp hc⟩
      · rintro ⟨rfl, hF⟩
        exact (hsome id hid).mpr hF
  · cases h
    obtain ⟨i, hi, rfl⟩ := List.mem_map.mp hc
    obtain ⟨hin, hon⟩ := hcalls i hi
    obtain ⟨f, hf, hid⟩ := hmem
    exact ⟨hon, hlist.calls (has_appendBlock ⟨f, hfunctions ▸ hf, hid⟩ hin)⟩

/-! ## The calls inserted so far -/

/-- Every call that a run inserted is there and passes a variable that holds the
format string of its pass, and every initializer has its variable's type. -/
structure Composed (M : Module) (log : List (PrintfPass × Inserted)) : Prop where
  formats : ∀ e ∈ log, M.Has e.2 ∧ ∃ g, e.2.On g ∧
    ∃ v ∈ M.globals, v.id = g ∧ v.init = some (.string e.1.formatStr)
  typed : ∀ v ∈ M.globals, v.Typed

/-- What the pass looks up is of the right kind and type, and no call of the
other pass passes the variable that is to hold its format string. -/
structure Fits (M : Module) (log : List (PrintfPass × Inserted)) (p : PrintfPass) : Prop where
  callable : p.Callable M
  format : ∀ v ∈ M.globals, M.getNamedValue "PrintfFormatStr" = some (.global v.id) →
    v.valueType = (Const.string p.formatStr).ty ∧ ∀ e ∈ log, e.2.On v.id → e.1 = p
  counters : p = .dynamicCallCounter → ∀ F ∈ M.defined, ∀ v ∈ M.globals,
    M.getNamedValue (F.name ++ "_Counter") = some (.global v.id) → v.valueType = .int 32

variable {log : List (PrintfPass × Inserted)} {p : PrintfPass}
variable {arrange : List (String × Nat) → List (String × Nat)}

theorem formatStr_inj {p q : PrintfPass} (h : p.formatStr = q.formatStr) : p = q := by
  revert h
  cases p <;> cases q <;> decide

theorem PrintfPass.run_callable (arrange : List (String × Nat) → List (String × Nat))
    (hM : M.Handled) (h : p.Acts M) :
    (∃ r, p.run arrange M = some r) ↔ p.Callable M := by
  cases p with
  | injectFuncCall => exact InjectFuncCall.run_callable
  | dynamicCallCounter => exact DynamicCallCounter.run_callable hM arrange h

theorem PrintfPass.ran (hM : M.Handled) (h : p.Acts M)
    (hrun : p.run arrange M = some (M', calls)) : Ran M p M' calls := by
  cases p with
  | injectFuncCall => exact InjectFuncCall.ran hM hrun
  | dynamicCallCounter => exact DynamicCallCounter.ran hM h hrun

theorem Sets.name_ne {v : GlobalVariable} {c : Const} (h : Sets M p v.id c) (hM : M.Handled)
    (hv : v ∈ M.globals) : v.name ≠ globalDtors := by
  have hname : ∀ {name}, M.getNamedValue name = some (.global v.id) → v.name = name := by
    intro name hvar
    obtain ⟨w, hw, hid, hname⟩ := getNamedValue_global hvar
    rwa [← List.inj_on_of_nodup_map hM.nodup hw hv hid]
  rcases h with ⟨hvar, -⟩ | ⟨-, -, F, -, hvar⟩
  · rw [hname hvar]
    decide
  · rw [hname hvar]
    exact counter_ne_globalDtors F.name

/-- A variable that was there is there, with what the run sets, unless it is the
list of destructors. -/
theorem Ran.kept (h : Ran M p M' calls) : ∃ set : Nat → Option Const,
    (∀ id < M.next, ∀ c, set id = some c ↔ Sets M p id c) ∧
    (∀ v ∈ M.globals, v.name ≠ globalDtors → v.update set ∈ M'.globals) ∧
    ∀ v ∈ M'.globals, (∃ w ∈ M.globals, v = w.update set) ∨ v.Typed := by
  obtain ⟨set, M₀, hset, hlist, hsets⟩ := h.updates
  obtain ⟨new, hglobals, -, hnew⟩ := hset.globals
  refine ⟨set, hsets, fun v hv hname => hlist.mem ?_ hname, fun v hv => ?_⟩
  · rw [hglobals]
    exact List.mem_append_left _ (List.mem_map_of_mem hv)
  · rcases hlist.cases hv with hv | ⟨-, htyped⟩
    · rw [hglobals] at hv
      rcases List.mem_append.mp hv with hv | hv
      · obtain ⟨w, hw, rfl⟩ := List.mem_map.mp hv
        exact .inl ⟨w, hw, rfl⟩
      · exact .inr (hnew v hv).2.2
    · exact .inr htyped

theorem Ran.handled (h : Ran M p M' calls) (hM : M.Handled) : M'.Handled := by
  obtain ⟨set, M₀, hset, hlist, -⟩ := h.updates
  exact hlist.handled (hset.handled hM)

theorem Ran.has (h : Ran M p M' calls) {c : Inserted} (hc : M.Has c) : M'.Has c := by
  obtain ⟨set, M₀, hset, hlist, -⟩ := h.updates
  exact hlist.calls (hset.calls c hc)

theorem Ran.after (h : Ran M p M' calls) (hM : M.Handled) {v : GlobalVariable}
    (hv : v ∈ M.globals) {c : Const} (hc : Sets M p v.id c) :
    ∃ v' ∈ M'.globals, v'.id = v.id ∧ v'.valueType = v.valueType ∧ v'.init = some c := by
  obtain ⟨set, hsets, hkept, -⟩ := h.kept
  refine ⟨v.update set, hkept v hv (hc.name_ne hM hv), rfl, rfl, ?_⟩
  unfold GlobalVariable.update
  rw [(hsets v.id (hM.below v hv) c).mpr hc]
  rfl

/-- What the calls pass is never the list of destructors. -/
def Unlisted (M : Module) (log : List (PrintfPass × Inserted)) : Prop :=
  ∀ e ∈ log, ∃ v ∈ M.globals, e.2.On v.id ∧ v.name ≠ globalDtors

theorem Ran.unlisted (h : Ran M p M' calls) (hnames : Unlisted M log) :
    Unlisted M' (log ++ calls.map (Prod.mk p)) := by
  intro e he
  rcases List.mem_append.mp he with he | he
  · obtain ⟨set, -, hkept, -⟩ := h.kept
    obtain ⟨v, hv, hon, hname⟩ := hnames e he
    exact ⟨v.update set, hkept v hv hname, hon, hname⟩
  · obtain ⟨c, hc, rfl⟩ := List.mem_map.mp he
    obtain ⟨g, ⟨v, hv, rfl, hname, -⟩, hcalls⟩ := h.calls
    exact ⟨v, hv, (hcalls c hc).1, hname⟩

/-- The run keeps the calls right exactly if the module fits. -/
theorem Ran.keeps_iff (h : Ran M p M' calls) (hM : M.Handled) (hlog : Composed M log)
    (hnames : Unlisted M log) (hcallable : p.Callable M) :
    Composed M' (log ++ calls.map (Prod.mk p)) ↔ Fits M log p := by
  have hM' := h.handled hM
  constructor
  · intro hafter
    refine ⟨hcallable, fun v hv hvar => ?_, fun hp F hF v hv hvar => ?_⟩
    · obtain ⟨v', hv', hid, hty, hinit⟩ := h.after hM hv (.inl ⟨hvar, rfl⟩)
      refine ⟨(hty ▸ hafter.typed v' hv' _ hinit).symm, fun e he hon => ?_⟩
      obtain ⟨-, g, hg, w, hw, hwid, hwinit⟩ := hafter.formats e (List.mem_append_left _ he)
      unfold Inserted.On at hon hg
      rw [hon] at hg
      cases hg
      have heq : w = v' :=
        List.inj_on_of_nodup_map hM'.nodup hw hv' (hwid.trans hid.symm)
      rw [heq, hinit] at hwinit
      exact (formatStr_inj (Const.string.inj (Option.some.inj hwinit))).symm
    · obtain ⟨v', hv', -, hty, hinit⟩ := h.after hM hv (.inr ⟨hp, rfl, F, hF, hvar⟩)
      exact (hty ▸ hafter.typed v' hv' _ hinit).symm
  · intro hfits
    obtain ⟨set, hsets, hkept, hcases⟩ := h.kept
    refine ⟨fun e he => ?_, fun v hv => ?_⟩
    · rcases List.mem_append.mp he with he | he
      · obtain ⟨hhas, g, hon, v, hv, rfl, hinit⟩ := hlog.formats e he
        have hname : v.name ≠ globalDtors := by
          obtain ⟨w, hw, hon', hname⟩ := hnames e he
          unfold Inserted.On at hon hon'
          rw [hon] at hon'
          rwa [List.inj_on_of_nodup_map hM.nodup hv hw (Value.global.inj (Option.some.inj hon'))]
        refine ⟨h.has hhas, v.id, hon, v.update set, hkept v hv hname, rfl, ?_⟩
        unfold GlobalVariable.update
        cases hc : set v.id with
        | none => exact hinit
        | some c =>
            rcases (hsets v.id (hM.below v hv) c).mp hc with ⟨hvar, rfl⟩ | ⟨hp, -, F, hF, hvar⟩
            · rw [((hfits.format v hv hvar).2 e he hon)]
              rfl
            · have hty := hlog.typed v hv _ hinit
              rw [hfits.counters hp F hF v hv hvar] at hty
              cases hty
      · obtain ⟨c, hc, rfl⟩ := List.mem_map.mp he
        obtain ⟨g, ⟨v, hv, hid, -, hinit⟩, hcalls⟩ := h.calls
        exact ⟨(hcalls c hc).2, g, (hcalls c hc).1, v, hv, hid, hinit⟩
    · rcases hcases v hv with ⟨w, hw, rfl⟩ | htyped
      · intro c hinit
        unfold GlobalVariable.update at hinit
        cases hc : set w.id with
        | none =>
            rw [hc] at hinit
            exact hlog.typed w hw c hinit
        | some d =>
            rw [hc] at hinit
            obtain rfl : d = c := Option.some.inj hinit
            show d.ty = w.valueType
            rcases (hsets w.id (hM.below w hw) d).mp hc with ⟨hvar, rfl⟩ | ⟨hp, rfl, F, hF, hvar⟩
            · exact (hfits.format w hw hvar).1.symm
            · exact (hfits.counters hp F hF w hw hvar).symm
      · exact htyped

/-! ## Pipelines -/

/-- A run that has nothing to do does nothing. -/
theorem PrintfPass.run_of_not_acts (h : ¬ p.Acts M) : p.run arrange M = some (M, []) := by
  cases p with
  | injectFuncCall => exact absurd trivial h
  | dynamicCallCounter =>
      have hnil : M.defined = [] := not_not.mp h
      show DynamicCallCounter.run arrange M = _
      unfold DynamicCallCounter.run
      rw [if_pos (by rw [hnil]; rfl)]

/-- One more run keeps everything right exactly if it fits. -/
theorem composed_step_iff (hM : M.Handled) (hlog : Composed M log) (hnames : Unlisted M log) :
    (∃ M' calls, p.run arrange M = some (M', calls) ∧
      Composed M' (log ++ calls.map (Prod.mk p))) ↔ (p.Acts M → Fits M log p) := by
  by_cases hacts : p.Acts M
  · constructor
    · rintro ⟨M', calls, hrun, hafter⟩ -
      have hcallable := (PrintfPass.run_callable arrange hM hacts).mp ⟨_, hrun⟩
      exact ((PrintfPass.ran hM hacts hrun).keeps_iff hM hlog hnames hcallable).mp hafter
    · intro hfits
      obtain ⟨⟨M', calls⟩, hrun⟩ :=
        (PrintfPass.run_callable arrange hM hacts).mpr (hfits hacts).callable
      exact ⟨M', calls, hrun, ((PrintfPass.ran hM hacts hrun).keeps_iff hM hlog hnames
        (hfits hacts).callable).mpr (hfits hacts)⟩
  · refine ⟨fun _ h => absurd h hacts, fun _ => ⟨M, [], PrintfPass.run_of_not_acts hacts, ?_⟩⟩
    rw [List.map_nil, List.append_nil]
    exact hlog

theorem PrintfPass.run_handled (hM : M.Handled) (hnames : Unlisted M log)
    (hrun : p.run arrange M = some (M', calls)) :
    M'.Handled ∧ Unlisted M' (log ++ calls.map (Prod.mk p)) := by
  by_cases hacts : p.Acts M
  · have hran := PrintfPass.ran hM hacts hrun
    exact ⟨hran.handled hM, hran.unlisted hnames⟩
  · rw [PrintfPass.run_of_not_acts hacts] at hrun
    cases hrun
    rw [List.map_nil, List.append_nil]
    exact ⟨hM, hnames⟩

theorem runPasses_append (qs rs : List PrintfPass) (M : Module)
    (log : List (PrintfPass × Inserted)) : runPasses arrange (qs ++ rs) M log =
      (runPasses arrange qs M log).bind fun r => runPasses arrange rs r.1 r.2 := by
  induction qs generalizing M log with
  | nil => rfl
  | cons p qs ih =>
      rw [List.cons_append, runPasses, runPasses]
      cases hp : p.run arrange M with
      | none => rfl
      | some r => exact ih r.1 _

theorem runPasses_handled {qs : List PrintfPass} {log' : List (PrintfPass × Inserted)}
    (hM : M.Handled) (hnames : Unlisted M log)
    (h : runPasses arrange qs M log = some (M', log')) : M'.Handled ∧ Unlisted M' log' := by
  induction qs generalizing M log with
  | nil =>
      cases h
      exact ⟨hM, hnames⟩
  | cons p qs ih =>
      obtain ⟨r, hr, h⟩ := Option.bind_eq_some_iff.mp h
      obtain ⟨hM₁, hnames₁⟩ := PrintfPass.run_handled hM hnames hr
      exact ih hM₁ hnames₁ h

/-- In a pipeline, the calls are right after every run exactly if every run
fits the module it finds. -/
theorem composed_iff (arrange : List (String × Nat) → List (String × Nat)) (ps : List PrintfPass)
    (M : Module) (hM : M.Handled) (htyped : ∀ v ∈ M.globals, v.Typed) :
    (∀ qs, qs <+: ps → ∃ M' log, runPasses arrange qs M [] = some (M', log) ∧ Composed M' log) ↔
      ∀ qs p, qs ++ [p] <+: ps → ∀ M' log, runPasses arrange qs M [] = some (M', log) →
        p.Acts M' → Fits M' log p := by
  have hsnoc : ∀ {qs p M' log}, runPasses arrange qs M [] = some (M', log) →
      runPasses arrange (qs ++ [p]) M [] =
        (p.run arrange M').bind fun r => some (r.1, log ++ r.2.map (Prod.mk p)) := by
    intro qs p M' log h
    rw [runPasses_append, h]
    rfl
  constructor
  · intro hall qs p hprefix M' log hrun
    obtain ⟨M₁, log₁, hrun₁, hlog⟩ := hall qs ((List.prefix_append qs [p]).trans hprefix)
    rw [hrun] at hrun₁
    cases hrun₁
    obtain ⟨M'', log'', hrun'', hlog''⟩ := hall _ hprefix
    rw [hsnoc hrun] at hrun''
    obtain ⟨⟨N, calls⟩, hp, heq⟩ := Option.bind_eq_some_iff.mp hrun''
    cases heq
    obtain ⟨hM', hnames⟩ := runPasses_handled hM (List.forall_mem_nil _) hrun
    exact (composed_step_iff hM' hlog hnames).mp ⟨_, calls, hp, hlog''⟩
  · intro hall qs
    induction qs using List.reverseRecOn with
    | nil => exact fun _ => ⟨M, [], rfl, List.forall_mem_nil _, htyped⟩
    | append_singleton qs p ih =>
        intro hprefix
        obtain ⟨M', log, hrun, hlog⟩ := ih ((List.prefix_append qs [p]).trans hprefix)
        obtain ⟨hM', hnames⟩ := runPasses_handled hM (List.forall_mem_nil _) hrun
        obtain ⟨M'', calls, hp, hlog''⟩ :=
          (composed_step_iff hM' hlog hnames).mpr (hall qs p hprefix M' log hrun)
        refine ⟨M'', _, ?_, hlog''⟩
        rw [hsnoc hrun, hp]
        rfl

end

/-- A module with one function, of the name `f`, that returns at once. -/
def oneFunction : Module where
  globals := []
  functions :=
    [⟨0, "f", ⟨[], .void, [0], fun _ => ⟨[], ⟨0, .void, .ret, [], [], {}⟩⟩, 1, 1, false⟩⟩]
  aliases := []
  next := 1

theorem handled_oneFunction : oneFunction.Handled where
  nodup := List.nodup_nil
  below := nofun
  blocks := by
    intro f hf k hk
    simp only [oneFunction, List.mem_singleton] at hf
    subst hf
    rw [List.mem_singleton.mp hk]
    exact Nat.zero_lt_one

/-- `void f() {}`, beside a variable of type `i32` that is 7. -/
def beside (name : String) : Module :=
  { oneFunction with globals := [⟨1, name, .int 32, some (.int 32 7)⟩], next := 2 }

theorem handled_beside (name : String) : (beside name).Handled where
  nodup := List.nodup_singleton _
  below := by simp [beside]
  blocks := handled_oneFunction.blocks

theorem typed_beside (name : String) : ∀ v ∈ (beside name).globals, v.Typed := by
  intro v hv c hc
  obtain rfl := List.mem_singleton.mp hv
  cases hc
  rfl

/-- The second run of a pass finds the format string and the calls of the first. -/
theorem composed_iff_twice : ∃ M' log,
    runPasses id [.injectFuncCall, .injectFuncCall] (beside "n") [] = some (M', log) ∧
      Composed M' log := by
  refine (composed_iff id [.injectFuncCall, .injectFuncCall] (beside "n") (handled_beside _)
    (typed_beside _)).mpr ?_ _ List.prefix_rfl
  intro qs p hprefix M' log hrun _
  rcases qs with _ | ⟨q, _ | ⟨q', qs⟩⟩
  · obtain rfl : p = .injectFuncCall := (List.cons_prefix_cons.mp hprefix).1
    cases hrun
    refine ⟨.inl (by decide), fun v _ hvar => ?_, nofun⟩
    rw [show (beside "n").getNamedValue "PrintfFormatStr" = none by decide] at hvar
    cases hvar
  · obtain ⟨rfl, hrest⟩ := List.cons_prefix_cons.mp hprefix
    obtain rfl : p = .injectFuncCall := (List.cons_prefix_cons.mp hrest).1
    have hfirst : (match runPasses id [.injectFuncCall] (beside "n") [] with
      | some (M', log) => decide ((∃ f ∈ M'.functions,
          M'.getNamedValue "printf" = some (.function f.id)) ∧
          (∀ v ∈ M'.globals, M'.getNamedValue "PrintfFormatStr" = some (.global v.id) →
            v.valueType = (Const.string InjectFuncCall.formatStr).ty) ∧
          ∀ e ∈ log, e.1 = .injectFuncCall)
      | none => true) = true := by decide
    rw [hrun] at hfirst
    obtain ⟨⟨f, -, hprintf⟩, hformat, hlog⟩ := of_decide_eq_true hfirst
    exact ⟨.inr ⟨f.id, hprintf⟩, fun v hv hvar => ⟨hformat v hv hvar, fun e he _ => hlog e he⟩,
      nofun⟩
  · have hlen := hprefix.length_le
    simp at hlen

/-- The first call is left with the format string of the second pass, in a
variable of another type. -/
theorem format_overwritten :
    ¬ ∀ (arrange : List (String × Nat) → List (String × Nat)) (ps : List PrintfPass) (M : Module),
      M.Handled → (∀ v ∈ M.globals, v.Typed) →
        ∃ M' log, runPasses arrange ps M [] = some (M', log) ∧ Composed M' log := by
  intro h
  obtain ⟨M', log, hrun, hlog⟩ := h id [.injectFuncCall, .dynamicCallCounter] oneFunction
    handled_oneFunction nofun
  have hwrong : (match runPasses id [.injectFuncCall, .dynamicCallCounter] oneFunction [] with
    | some (M', _) => decide (∃ v ∈ M'.globals, ∃ c ∈ v.init, c.ty ≠ v.valueType)
    | none => true) = true := by decide
  rw [hrun] at hwrong
  obtain ⟨v, hv, c, hc, hne⟩ := of_decide_eq_true hwrong
  exact hne (hlog.typed v hv c hc)

end LlvmPasses
