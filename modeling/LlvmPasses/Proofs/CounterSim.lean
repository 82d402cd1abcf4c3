import LlvmPasses.Proofs.CounterFrames

/-!
# A module and its instrumented module run alike

The stacks of the two programs differ in the counting instructions and in calls
of the print function, which the original program does not have. `Sim` is kept
by every move; once the original program is undefined it promises nothing.

The two programs are stacks of frames that make calls to code outside and are
called from there. `Stacks` relates the stacks frame by frame. A frame of the
original corresponds to one that has the same left to do, below the top at a
call, so that returning to it finds the same instruction in both. The print
function may lie in between where the caller says so. `Counts` relates the
memories and the traces: the trace without the entries of the print function
and the stores to the counters is the original one, and each counter holds the
number of entries in it, one less for the function that has been entered last.

The step lemma is `step_forward`: a move of the instrumented program is one of
the original, or the original stays where it is. A step inside a function goes
by the instruction: its effect is the same as memory is the same outside the
counters (`instr_sim`), a call enters a function on both sides (`call_sim`),
and a terminator leaves for the same block or returns (`terminator_sim`). Steps
of counting and of printing are the instrumented program's own, and are gone
through by what is left to do of them (`counting_step`, `printing_step`).
-/

namespace LlvmPasses.DynamicCallCounter

open Ir

/-! ## The relation -/

section

variable {μ : Type} (W : World μ) (M : Module) (printf formatStr printWrapper : Nat)

/-- The two traces are the same but for the print function and the counters'
stores, and each counter holds how often its function has been entered, where
the last time is not counted yet that `pending` was. -/
structure Counts (pending : Option Nat) (cells : Cells) (trace' trace : List Observed) : Prop where
  seen : trace'.filter (ofProgram printWrapper (isCounter W M)) =
    trace.filter (ofProgram printWrapper (isCounter W M))
  counts : ∀ f ∈ M.defined, ∃ n, cells (W.address (counter M f.id)) = .int 32 (BitVec.ofNat 32 n) ∧
    n + (if pending = some f.id then 1 else 0) = entered f.id trace'

/-- What is left to do of counting, where `g` is the counter. -/
inductive Counting (cells : Cells) (g n : Nat) : List (Instr Op) → Env → Prop
  | load {env} : Counting cells g n (increment g n) env
  | add {env} (h : env n = some (cells (W.address g))) :
      Counting cells g n ((increment g n).drop 1) env
  | store {env} {x : BitVec 32} (hx : cells (W.address g) = .int 32 x)
      (h : env (n + 1) = some (.int 32 (x + 1))) : Counting cells g n ((increment g n).drop 2) env

/-- Loads and calls of `printf` for some of the counters. -/
def Prints (is : List (Instr Op)) : Prop :=
  ∃ es id, (∀ e ∈ es, isCounter W M (W.address e.1) = true) ∧
    is = printing printf formatStr es id

/-- What is left to do of printing, perhaps in the middle of an entry. -/
inductive Printing : List (Instr Op) → Env → Prop
  | next {is env} (h : Prints W M printf formatStr is) : Printing is env
  | call {is env name id} {v : Val} (h : Prints W M printf formatStr is) (hv : env id = some v) :
      Printing (printfCall printf formatStr name (.inst id) (id + 1) :: is) env

/-- A frame of the print function. -/
structure Printer (w : Frame) : Prop where
  func : ∃ instrs, w.func = wrapper printWrapper instrs
  block : w.block = w.func.fn.entry

/-- The stacks of the two programs between steps; `prints` says whether the
print function may be under way in between. -/
inductive Stacks (prints : Prop) : List Activation → List Activation → Prop
  | nil : Stacks prints [] []
  | inside {fr' fr s' s} (h : Frames M [] fr' fr) (hs : Stacks prints s' s) :
      Stacks prints (.inside fr' :: s') (.inside fr :: s)
  | outside {s' s} (hs : Stacks prints s' s) : Stacks prints (.outside :: s') (.outside :: s)
  | printing {w i rest s' s} (hp : prints) (hw : Printer printWrapper w)
      (hi : w.rest = i :: rest) (hty : i.ty = .int 32) (hrest : Prints W M printf formatStr rest)
      (hs : Stacks prints (.outside :: s') (.outside :: s)) :
      Stacks prints (.outside :: .inside w :: .outside :: s') (.outside :: s)

/-- What the two programs come to. -/
inductive Sim (prints : Prop) : Outcome (Cells × μ) → Outcome μ → Prop
  | undefined (o') : Sim prints o' .undefined
  | waiting {s' s cells mem tr' tr} (hs : Stacks W M printf formatStr printWrapper prints s' s)
      (hcounts : Counts W M printWrapper none cells tr' tr) :
      Sim prints (.waiting ⟨s', (cells, mem), tr'⟩) (.waiting ⟨s, mem, tr⟩)
  | settled {s' s cells mem tr' tr} (hs : Stacks W M printf formatStr printWrapper prints s' s)
      (hcounts : Counts W M printWrapper none cells tr' tr) :
      Sim prints (.running ⟨s', (cells, mem), tr'⟩) (.running ⟨s, mem, tr⟩)
  | counting {pre fr' fr s' s cells mem tr' tr} (h : Frames M pre fr' fr)
      (hpre : Counting W cells (counter M fr.func.id) fr.func.fn.nextInst pre fr'.env)
      (hs : Stacks W M printf formatStr printWrapper prints s' s)
      (hcounts : Counts W M printWrapper (some fr.func.id) cells tr' tr) :
      Sim prints (.running ⟨.inside fr' :: s', (cells, mem), tr'⟩)
        (.running ⟨.inside fr :: s, mem, tr⟩)
  | printing {w s' s cells mem tr' tr} (hp : prints) (hw : Printer printWrapper w)
      (hrest : Printing W M printf formatStr w.rest w.env)
      (hs : Stacks W M printf formatStr printWrapper prints (.outside :: s') (.outside :: s))
      (hcounts : Counts W M printWrapper none cells tr' tr) :
      Sim prints (.running ⟨.inside w :: .outside :: s', (cells, mem), tr'⟩)
        (.running ⟨.outside :: s, mem, tr⟩)

end

section

variable {μ : Type} {W : World μ} {M M' : Module} {printf formatStr printWrapper : Nat}
variable {entries : List ((String × Nat) × Nat)} {external : Nat → Bool} {prints : Prop}
variable {s' s : List Activation} {cells : Cells} {mem : μ} {tr' tr : List Observed}
variable {fr' fr : Frame} {pending : Option Nat}

/-! ## Traces -/

theorem entered_append (fn : Nat) (tr es : List Observed) :
    entered fn (tr ++ es) = entered fn tr + entered fn es := List.countP_append

theorem entered_does (fn fn' : Nat) (events : List Event) :
    entered fn (events.map (.does fn')) = 0 := by
  rw [entered, List.countP_eq_zero]
  intro o ho
  obtain ⟨e, -, rfl⟩ := List.mem_map.mp ho
  exact nofun

theorem Counts.append (h : Counts W M printWrapper pending cells tr' tr) (es : List Observed)
    (hes : ∀ fn, entered fn es = 0) :
    Counts W M printWrapper pending cells (tr' ++ es) (tr ++ es) where
  seen := by rw [List.filter_append, List.filter_append, h.seen]
  counts f hf := by
    obtain ⟨n, hn, hcount⟩ := h.counts f hf
    exact ⟨n, hn, by rw [entered_append, hes, hcount, Nat.add_zero]⟩

/-- What only the instrumented program does. -/
theorem Counts.hide (h : Counts W M printWrapper pending cells tr' tr) (es : List Observed)
    (hseen : es.filter (ofProgram printWrapper (isCounter W M)) = [])
    (hes : ∀ f ∈ M.defined, entered f.id es = 0) :
    Counts W M printWrapper pending cells (tr' ++ es) tr where
  seen := by rw [List.filter_append, hseen, List.append_nil, h.seen]
  counts f hf := by
    obtain ⟨n, hn, hcount⟩ := h.counts f hf
    exact ⟨n, hn, by rw [entered_append, hes f hf, hcount, Nat.add_zero]⟩

theorem Counts.enter (h : Counts W M printWrapper none cells tr' tr) (fn : Nat)
    (args : List Val) :
    Counts W M printWrapper (some fn) cells (tr' ++ [.enters fn args])
      (tr ++ [.enters fn args]) where
  seen := by rw [List.filter_append, List.filter_append, h.seen]
  counts f hf := by
    obtain ⟨n, hn, hcount⟩ := h.counts f hf
    refine ⟨n, hn, ?_⟩
    rw [if_neg nofun, Nat.add_zero] at hcount
    rw [entered_append, hcount]
    simp [entered, isEntry, List.countP_cons]

/-- The counter of the function that was entered last is stored. -/
theorem Counts.store (h : Counts W M printWrapper (some fr.func.id) cells tr' tr)
    (hM : Tidy M) (hW : Function.Injective W.address) (hfr : fr.func ∈ M.defined) {x : BitVec 32}
    (hx : cells (W.address (counter M fr.func.id)) = .int 32 x) (v : Val) (fn : Nat) :
    Counts W M printWrapper none (cells.set (W.address (counter M fr.func.id)) (.int 32 (x + 1)))
      (tr' ++ [.does fn (.store (W.address (counter M fr.func.id)) v)]) tr where
  seen := by
    have hcell : isCounter W M (W.address (counter M fr.func.id)) = true :=
      List.any_eq_true.mpr ⟨fr.func, hfr, beq_self_eq_true _⟩
    rw [List.filter_append, h.seen]
    simp [ofProgram, hcell]
  counts f hf := by
    obtain ⟨n, hn, hcount⟩ := h.counts f hf
    rw [entered_append]
    by_cases hid : fr.func.id = f.id
    · have hsame : fr.func = f :=
        List.inj_on_of_nodup_map (nodup_defined hM.ids) hfr hf hid
      subst hsame
      rw [if_pos rfl] at hcount
      rw [hx] at hn
      obtain rfl : x = BitVec.ofNat 32 n := by simpa using hn
      refine ⟨n + 1, ?_, ?_⟩
      · rw [Cells.set_self, BitVec.ofNat_add]
        rfl
      · rw [if_neg nofun, ← hcount]
        rfl
    · have hne : W.address (counter M f.id) ≠ W.address (counter M fr.func.id) := fun heq =>
        hid (congrArg Func.id (handle_inj (nodup_defined hM.ids) hfr hf (hW heq).symm))
      rw [if_neg fun heq => hid (Option.some.inj heq)] at hcount
      refine ⟨n, ?_, ?_⟩
      · rw [Cells.set_other _ _ hne, hn]
      · rw [if_neg nofun, ← hcount]
        rfl

/-! ## Calls -/

theorem callee_some (W : World μ) (external : Nat → Bool)
    (hI : Instrumented M M' printf formatStr printWrapper entries) {a : Nat}
    {f : Func} (h : (original W M external).callee a = some f) :
    f ∈ M.defined ∧
      (instrumented W M M' external).callee a = some (counted (counter M f.id) f) := by
  refine ⟨List.mem_of_find?_eq_some h, ?_⟩
  show M'.defined.find? (fun f => W.address f.id == a) = _
  rw [hI.defined, List.find?_append, List.find?_map]
  show (Option.map _ (M.defined.find? fun f => W.address f.id == a)).or _ = _
  rw [show M.defined.find? (fun f => W.address f.id == a) = some f from h]
  rfl

theorem callee_none (W : World μ) (external : Nat → Bool)
    (hI : Instrumented M M' printf formatStr printWrapper entries) {a : Nat}
    (h : (original W M external).callee a = none) :
    (instrumented W M M' external).callee a = none ∨ a = W.address printWrapper := by
  show M'.defined.find? (fun f => W.address f.id == a) = none ∨ _
  rw [hI.defined, List.find?_append, List.find?_map]
  show (Option.map _ (M.defined.find? fun f => W.address f.id == a)).or _ = none ∨ _
  rw [show M.defined.find? (fun f => W.address f.id == a) = none from h]
  by_cases ha : W.address printWrapper = a
  · exact .inr ha.symm
  · exact .inl (List.find?_eq_none.mpr fun f hf => by
      rw [List.mem_singleton.mp hf]
      simpa [wrapper] using ha)

/-- Every function of the instrumented program has its own address. -/
theorem callee_eq (W : World μ) (external : Nat → Bool)
    (hI : Instrumented M M' printf formatStr printWrapper entries)
    (hW : Function.Injective W.address) {f : Func} (hf : f ∈ M'.functions) :
    (instrumented W M M' external).callee (W.address f.id) =
      if f.fn.isDeclaration then none else some f := by
  have hsame : ∀ g ∈ M'.defined, W.address g.id = W.address f.id → g = f := fun g hg heq =>
    List.inj_on_of_nodup_map hI.tidy.ids (List.mem_filter.mp hg).1 hf (hW heq)
  cases hfind : M'.defined.find? fun g => W.address g.id == W.address f.id with
  | none =>
      have hnone := List.find?_eq_none.mp hfind
      show M'.defined.find? (fun g => W.address g.id == W.address f.id) = _
      rw [hfind, if_pos]
      by_contra hdef
      exact hnone f (List.mem_filter.mpr ⟨hf, by simpa using hdef⟩) (beq_self_eq_true _)
  | some g =>
      have hg := List.mem_of_find?_eq_some hfind
      obtain rfl := hsame g hg (by simpa using List.find?_some hfind)
      show M'.defined.find? (fun f => W.address f.id == W.address g.id) = _
      rw [hfind, if_neg (by simpa using (List.mem_filter.mp hg).2)]

theorem wrapper_mem (hI : Instrumented M M' printf formatStr printWrapper entries) :
    wrapper printWrapper (printing printf formatStr (entries.map fun e => (e.1.2, e.2)) 0) ∈
      M'.functions :=
  (List.mem_filter.mp (hI.defined ▸ List.mem_append_right _ (List.mem_singleton_self _))).1

theorem ne_wrapper (hI : Instrumented M M' printf formatStr printWrapper entries) (hM : Tidy M)
    {f : Func} (hf : f ∈ M.defined) : f.id ≠ printWrapper :=
  Nat.ne_of_lt (Nat.lt_of_lt_of_le (hM.functions_below f (List.mem_filter.mp hf).1) hI.wrapper_new)

/-- A function of the program is entered. -/
theorem enter_sim (hF : ∀ f ∈ M.defined, Sound f.fn) {f : Func} (hf : f ∈ M.defined)
    (args : List Val) (hs : Stacks W M printf formatStr printWrapper prints s' s)
    (hcounts : Counts W M printWrapper none cells tr' tr) :
    Sim W M printf formatStr printWrapper prints
      (.running ⟨.inside (.start (counted (counter M f.id) f) args) :: s', (cells, mem),
        tr' ++ [.enters f.id args]⟩)
      (.running ⟨.inside (.start f args) :: s, mem, tr ++ [.enters f.id args]⟩) :=
  .counting (.start hf (hF f hf) args) .load hs (hcounts.enter f.id args)

theorem call_sim (hI : Instrumented M M' printf formatStr printWrapper entries)
    (hL : Linked W M M' external) (hF : ∀ f ∈ M.defined, Sound f.fn) (h : Frames M [] fr' fr)
    (hs : Stacks W M printf formatStr printWrapper prints s' s)
    (hcounts : Counts W M printWrapper none cells tr' tr) (vals : List Val) :
    Sim W M printf formatStr printWrapper prints
      ((instrumented W M M' external).call fr' vals s' (cells, mem) tr')
      ((original W M external).call fr vals s mem tr) := by
  have hid : fr'.func.id = fr.func.id := by rw [h.func]; rfl
  unfold Program.call
  cases vals.getLast? with
  | none => exact .undefined _
  | some v =>
      cases v with
      | ptr a =>
          have hdoes := hcounts.append [.does fr.func.id (.call a vals.dropLast)]
            (entered_does · fr.func.id [.call a vals.dropLast])
          simp only [hid]
          cases hcallee : (original W M external).callee a with
          | some f =>
              obtain ⟨hf, hcallee'⟩ := callee_some W external hI hcallee
              simp only [hcallee']
              exact enter_sim hF hf vals.dropLast (.inside h hs) hdoes
          | none =>
              simp only
              by_cases hext : external a = true
              · rw [if_pos hext]
                rcases callee_none W external hI hcallee with hnone | rfl
                · simp only [hnone, if_pos hext]
                  exact .settled (.outside (.inside h hs)) hdoes
                · exact absurd (hext.symm.trans (hL.external _ (wrapper_mem hI))) nofun
              · simp only [if_neg hext]
                exact .undefined _
      | _ => exact .undefined _

/-! ## Returns -/

theorem of_sim {o' o : Option Frame} (h : Option.Rel (Frames M []) o' o)
    (hs : Stacks W M printf formatStr printWrapper prints s' s)
    (hcounts : Counts W M printWrapper none cells tr' tr) :
    Sim W M printf formatStr printWrapper prints (.of s' (cells, mem) tr' o') (.of s mem tr o) := by
  cases h with
  | some h => exact .settled (.inside h hs) hcounts
  | none => exact .undefined _

theorem Frames.successor (h : Frames M [] fr' fr) (hF : Sound fr.func.fn) {k : Nat}
    (hk : k ∈ fr.term.successors) : k ∈ fr.func.fn.order ∧ k ≠ fr.func.fn.entry :=
  hF.wellFormed.successors _ h.order k hk

theorem resume_sim (hF : ∀ f ∈ M.defined, Sound f.fn) (e : Ended)
    (hs : Stacks W M printf formatStr printWrapper prints s' s)
    (hcounts : Counts W M printWrapper none cells tr' tr) :
    Sim W M printf formatStr printWrapper prints
      (resume (W.withCells (isCounter W M)) (cells, mem) e s' tr') (resume W mem e s tr) := by
  induction hs generalizing tr' tr with
  | nil => cases e <;> exact .settled .nil hcounts
  | outside hs => cases e <;> exact .settled (.outside hs) hcounts
  | printing hp hw hi hty hrest hs =>
      cases e <;> exact .settled (.printing hp hw hi hty hrest hs) hcounts
  | @inside fr' fr s' s h hs ih =>
      have hid : fr'.func.id = fr.func.id := by rw [h.func]; rfl
      cases e with
      | returned v =>
          unfold resume
          rw [h.rest, List.nil_append]
          cases hr : fr.rest with
          | cons i rest =>
              exact of_sim (h.assign i rest (fun j hj =>
                h.within j (hr ▸ List.mem_cons_of_mem i hj)) v) hs hcounts
          | nil =>
              simp only [h.term]
              split
              · next normal unwind hsucc =>
                  obtain ⟨hk, hentry⟩ := h.successor (hF _ h.defined)
                    (hsucc ▸ List.mem_cons_self .. : normal ∈ fr.term.successors)
                  exact of_sim ((h.setTerm v).goto (hF _ h.defined) hk hentry) hs hcounts
              · exact .undefined _
      | unwound =>
          unfold resume
          rw [h.rest, List.nil_append]
          cases hr : fr.rest with
          | cons i rest =>
              simp only [hid]
              exact ih (hcounts.append [.unwinds fr.func.id] fun _ => rfl)
          | nil =>
              simp only [h.term]
              split
              · next normal unwind hsucc =>
                  obtain ⟨hk, hentry⟩ := h.successor (hF _ h.defined)
                    (hsucc ▸ List.mem_cons_of_mem _ (List.mem_cons_self ..) :
                      unwind ∈ fr.term.successors)
                  exact of_sim (h.goto (hF _ h.defined) hk hentry) hs hcounts
              · exact .undefined _

/-! ## Steps -/

theorem effect_eq (hL : Linked W M M' external) (hF : Sound fr.func.fn) (h : Frames M [] fr' fr)
    (cells : Cells) (mem : μ) {i : Instr Op} (hi : i ∈ (fr.func.fn.block fr.block).instrs)
    (hdef : effect W fr.args fr.env mem i ≠ .undefined) :
    effect (W.withCells (isCounter W M)) fr'.args fr'.env (cells, mem) i =
      (effect W fr.args fr.env mem i).map (Prod.mk cells) := by
  rw [← effect_withCells hL.leaves i hdef]
  unfold effect
  rw [h.args, h.env.evalAll fun id hid => hF.instr h.order hi hid]

theorem instr_sim (hI : Instrumented M M' printf formatStr printWrapper entries)
    (hL : Linked W M M' external) (hF : ∀ f ∈ M.defined, Sound f.fn) (h : Frames M [] fr' fr)
    (hs : Stacks W M printf formatStr printWrapper prints s' s)
    (hcounts : Counts W M printWrapper none cells tr' tr) {i : Instr Op} {rest : List (Instr Op)}
    (hr : fr.rest = i :: rest) :
    Sim W M printf formatStr printWrapper prints
      ((instrumented W M M' external).instr fr' i rest s' (cells, mem) tr')
      ((original W M external).instr fr i rest s mem tr) := by
  have hid : fr'.func.id = fr.func.id := by rw [h.func]; rfl
  have hi := h.within i (hr ▸ List.mem_cons_self ..)
  have hwithin : ∀ j ∈ rest, j ∈ (fr.func.fn.block fr.block).instrs := fun j hj =>
    h.within j (hr ▸ List.mem_cons_of_mem i hj)
  unfold Program.instr
  by_cases hcall : i.op = .call false
  · rw [if_pos hcall, if_pos hcall, eval_withCells, h.args,
      h.env.evalAll fun id hid => (hF _ h.defined).instr h.order hi hid]
    cases evalAll (eval W fr.args fr.env) i.operands with
    | none => exact .undefined _
    | some vals => exact call_sim hI hL hF h hs hcounts vals
  · rw [if_neg hcall, if_neg hcall]
    have heq := effect_eq hL (hF _ h.defined) h cells mem hi
    cases heffect : effect W fr.args fr.env mem i with
    | undefined => exact .undefined _
    | done v mem' events =>
        rw [heffect] at heq
        simp only [heq nofun, Effect.map, hid]
        exact of_sim (h.assign i rest hwithin v) hs (hcounts.append _ (entered_does · _ _))
    | unwinds mem' events =>
        rw [heffect] at heq
        simp only [heq nofun, Effect.map, hid]
        exact resume_sim hF .unwound hs ((hcounts.append _ (entered_does · _ _)).append
          [.unwinds fr.func.id] fun _ => rfl)
    | never events =>
        rw [heffect] at heq
        simp only [heq nofun, Effect.map, hid]
        exact .waiting (.inside h hs) (hcounts.append _ (entered_does · _ _))

theorem terminator_sim (hI : Instrumented M M' printf formatStr printWrapper entries)
    (hL : Linked W M M' external) (hF : ∀ f ∈ M.defined, Sound f.fn) (h : Frames M [] fr' fr)
    (hs : Stacks W M printf formatStr printWrapper prints s' s)
    (hcounts : Counts W M printWrapper none cells tr' tr) :
    Sim W M printf formatStr printWrapper prints
      ((instrumented W M M' external).terminator fr' s' (cells, mem) tr')
      ((original W M external).terminator fr s mem tr) := by
  have hid : fr'.func.id = fr.func.id := by rw [h.func]; rfl
  have hget : ∀ w ∈ fr.term.operands,
      eval (W.withCells (isCounter W M)) fr'.args fr'.env w = eval W fr.args fr.env w := by
    intro w hw
    rw [eval_withCells, h.args]
    exact h.env.eval fun id hid => (hF _ h.defined).term h.order (hid ▸ hw)
  unfold Program.terminator
  rw [h.term]
  by_cases hinvoke : fr.term.op = .invoke
  · rw [if_pos hinvoke, if_pos hinvoke, evalAll_congr fun w hw => hget w (callOperands_subset hw)]
    cases evalAll (eval W fr.args fr.env) (callOperands fr.term.operands) with
    | none => exact .undefined _
    | some vals => exact call_sim hI hL hF h hs hcounts vals
  · rw [if_neg hinvoke, if_neg hinvoke, transfer_congr hget, transfer_withCells _ hinvoke]
    cases htransfer : W.transfer fr.term (eval W fr.args fr.env) mem with
    | undefined => exact .undefined _
    | goto k v mem' events =>
        obtain ⟨hk, hentry⟩ := h.successor (hF _ h.defined) (transfer_goto htransfer)
        simp only [Transfer.map, hid]
        exact of_sim ((h.setTerm v).goto (hF _ h.defined) hk hentry) hs
          (hcounts.append _ (entered_does · _ _))
    | ret v =>
        simp only [Transfer.map, hid]
        exact resume_sim hF (.returned v) hs (hcounts.append [.leaves fr.func.id v] fun _ => rfl)
    | unwinds mem' events =>
        simp only [Transfer.map, hid]
        exact resume_sim hF .unwound hs ((hcounts.append _ (entered_does · _ _)).append
          [.unwinds fr.func.id] fun _ => rfl)
    | never events =>
        simp only [Transfer.map, hid]
        exact .waiting (.inside h hs) (hcounts.append _ (entered_does · _ _))

theorem inside_sim (hI : Instrumented M M' printf formatStr printWrapper entries)
    (hL : Linked W M M' external) (hF : ∀ f ∈ M.defined, Sound f.fn) (h : Frames M [] fr' fr)
    (hs : Stacks W M printf formatStr printWrapper prints s' s)
    (hcounts : Counts W M printWrapper none cells tr' tr) :
    Sim W M printf formatStr printWrapper prints
      ((instrumented W M M' external).inside fr' s' (cells, mem) tr')
      ((original W M external).inside fr s mem tr) := by
  unfold Program.inside
  rw [h.rest, List.nil_append]
  cases hr : fr.rest with
  | nil => exact terminator_sim hI hL hF h hs hcounts
  | cons i rest => exact instr_sim hI hL hF h hs hcounts hr

/-! ## Counting -/

theorem isCounter_counter {f : Func} (hf : f ∈ M.defined) :
    isCounter W M (W.address (counter M f.id)) = true :=
  List.any_eq_true.mpr ⟨f, hf, beq_self_eq_true _⟩

theorem load_eq {g id : Nat} (hg : isCounter W M (W.address g) = true)
    (hty : (cells (W.address g)).hasTy (.int 32) = true) (rest : List (Instr Op)) :
    (instrumented W M M' external).instr fr ⟨id, .int 32, .load false 4, [.global g], [], {}⟩ rest s
      (cells, mem) tr = .running ⟨.inside { fr with
        rest := rest, env := fr.env.set id (cells (W.address g)) } :: s, (cells, mem), tr⟩ := by
  have heffect : effect (W.withCells (isCounter W M)) fr.args fr.env (cells, mem)
      ⟨id, .int 32, .load false 4, [.global g], [], {}⟩ =
        .done (some (cells (W.address g))) (cells, mem) [] := by
    have hload : (W.withCells (isCounter W M)).load (W.address g) (.int 32) (cells, mem) =
        some (cells (W.address g)) := by
      simp only [World.withCells, hg, hty, if_true]
    have heval : eval (W.withCells (isCounter W M)) fr.args fr.env (.global g) =
        some (.ptr (W.address g)) := rfl
    unfold effect
    rw [if_neg (by simp [Instr.isDbgInfoIntrinsic])]
    simp only [evalAll, heval, World.apply, hload, Bool.false_eq_true, if_false]
  unfold Program.instr
  rw [if_neg (by simp)]
  simp only [heffect, Frame.assign, Env.assign, hty, if_true, Option.map_some, Outcome.of,
    List.map_nil, List.append_nil]

theorem add_eq {id id' : Nat} {x : BitVec 32} (hx : fr.env id = some (.int 32 x))
    (rest : List (Instr Op)) :
    (instrumented W M M' external).instr fr
      ⟨id', .int 32, .binop .add, [.inst id, .constInt 32 1], [], {}⟩ rest s (cells, mem) tr =
        .running ⟨.inside { fr with rest := rest, env := fr.env.set id' (.int 32 (x + 1)) } :: s,
          (cells, mem), tr⟩ := by
  have heffect : effect (W.withCells (isCounter W M)) fr.args fr.env (cells, mem)
      ⟨id', .int 32, .binop .add, [.inst id, .constInt 32 1], [], {}⟩ =
        .done (some (.int 32 (x + 1))) (cells, mem) [] := by
    unfold effect
    rw [if_neg (by simp [Instr.isDbgInfoIntrinsic])]
    simp [evalAll, eval, hx, World.apply, BinOp.apply, BinOp.applyInt, poisonIf, computes]
  unfold Program.instr
  rw [if_neg (by simp)]
  simp only [heffect, Frame.assign, Env.assign, Val.hasTy, beq_self_eq_true, if_true,
    Option.map_some, Outcome.of, List.map_nil, List.append_nil]

theorem store_eq {g id id' : Nat} (hg : isCounter W M (W.address g) = true) {v : Val}
    (hv : fr.env id = some v) (rest : List (Instr Op)) :
    (instrumented W M M' external).instr fr
      ⟨id', .void, .store false 4, [.inst id, .global g], [], {}⟩ rest s (cells, mem) tr =
        .running ⟨.inside { fr with rest := rest } :: s, (cells.set (W.address g) v, mem),
          tr ++ [.does fr.func.id (.store (W.address g) v)]⟩ := by
  have heffect : effect (W.withCells (isCounter W M)) fr.args fr.env (cells, mem)
      ⟨id', .void, .store false 4, [.inst id, .global g], [], {}⟩ =
        .done none (cells.set (W.address g) v, mem) [.store (W.address g) v] := by
    unfold effect
    rw [if_neg (by simp [Instr.isDbgInfoIntrinsic])]
    simp [evalAll, eval, hv, World.apply, World.withCells, hg]
  unfold Program.instr
  rw [if_neg (by simp)]
  simp only [heffect, Frame.assign, Env.assign, if_true, Option.map_some, Outcome.of,
    List.map_cons, List.map_nil]

/-- A step of counting: less is left to do, or nothing. -/
theorem counting_step (s' : List Activation) (mem : μ) (hM : Tidy M)
    (hL : Linked W M M' external) {pre : List (Instr Op)}
    (h : Frames M pre fr' fr)
    (hpre : Counting W cells (counter M fr.func.id) fr.func.fn.nextInst pre fr'.env)
    (hcounts : Counts W M printWrapper (some fr.func.id) cells tr' tr) :
    (∃ pre₁ fr₁, (instrumented W M M' external).inside fr' s' (cells, mem) tr' =
        .running ⟨.inside fr₁ :: s', (cells, mem), tr'⟩ ∧ pre₁.length < pre.length ∧
      Frames M pre₁ fr₁ fr ∧
      Counting W cells (counter M fr.func.id) fr.func.fn.nextInst pre₁ fr₁.env) ∨
    ∃ fr₁ cells₁ tr₁, (instrumented W M M' external).inside fr' s' (cells, mem) tr' =
        .running ⟨.inside fr₁ :: s', (cells₁, mem), tr₁⟩ ∧
      Frames M [] fr₁ fr ∧ Counts W M printWrapper none cells₁ tr₁ tr := by
  have hg := isCounter_counter (W := W) h.defined
  obtain ⟨n, hn, -⟩ := hcounts.counts _ h.defined
  have hset : ∀ {id : Nat} {v : Val}, fr.func.fn.nextInst ≤ id →
      Below fr.func.fn.nextInst (fr'.env.set id v) fr.env := fun hle id hid =>
    (Env.set_other _ _ (by omega)).trans (h.env id hid)
  unfold Program.inside
  rw [h.rest]
  cases hpre with
  | load =>
      simp only [increment, List.cons_append, List.nil_append]
      rw [load_eq hg (by rw [hn]; rfl)]
      exact .inl ⟨(increment _ _).drop 1, _, rfl, by simp [increment],
        { h with rest := rfl, env := hset (Nat.le_refl _) }, .add (Env.set_self ..)⟩
  | add henv =>
      simp only [increment, List.drop_succ_cons, List.drop_zero, List.cons_append, List.nil_append]
      rw [add_eq (henv.trans (congrArg some hn))]
      exact .inl ⟨(increment _ _).drop 2, _, rfl, by simp [increment],
        { h with rest := rfl, env := hset (Nat.le_succ _) }, .store hn (Env.set_self ..)⟩
  | store hx henv =>
      simp only [increment, List.drop_succ_cons, List.drop_zero, List.cons_append, List.nil_append]
      rw [store_eq hg henv]
      exact .inr ⟨_, _, _, rfl, { h with rest := rfl },
        hcounts.store hM hL.address h.defined hx _ _⟩

/-! ## Printing -/

theorem Counts.hasTy (h : Counts W M printWrapper pending cells tr' tr) {a : Nat}
    (ha : isCounter W M a = true) : (cells a).hasTy (.int 32) = true := by
  obtain ⟨f, hf, heq⟩ := List.any_eq_true.mp ha
  obtain ⟨n, hn, -⟩ := h.counts f hf
  obtain rfl : W.address (counter M f.id) = a := by simpa using heq
  rw [hn]
  rfl

theorem Printer.id {w : Frame} (h : Printer printWrapper w) : w.func.id = printWrapper := by
  obtain ⟨instrs, hfunc⟩ := h.func
  rw [hfunc]
  rfl

theorem Printer.term {w : Frame} (h : Printer printWrapper w) :
    w.term.op = .ret ∧ w.term.operands = [] := by
  obtain ⟨instrs, hfunc⟩ := h.func
  unfold Frame.term
  rw [h.block, hfunc]
  exact ⟨rfl, rfl⟩

theorem printf_eq (hI : Instrumented M M' printf formatStr printWrapper entries)
    (hL : Linked W M M' external) {name id : Nat} {v : Val} (hv : fr.env id = some v) (id' : Nat)
    (rest : List (Instr Op)) :
    (instrumented W M M' external).instr fr (printfCall printf formatStr name (.inst id) id') rest
      s (cells, mem) tr = .running ⟨.outside :: .inside fr :: s, (cells, mem),
        tr ++ [.does fr.func.id (.call (W.address printf)
          [.ptr (W.address formatStr), .ptr (W.address name), v])]⟩ := by
  obtain ⟨f, hf, rfl, -, hdecl⟩ := hI.printf_known
  have hvals : evalAll (eval (W.withCells (isCounter W M)) fr.args fr.env)
      (printfCall f.id formatStr name (.inst id) id').operands =
      some [.ptr (W.address formatStr), .ptr (W.address name), v, .ptr (W.address f.id)] := by
    simp [printfCall, evalAll, eval, hv, World.withCells]
  have hcallee := callee_eq W external hI hL.address hf
  rw [if_pos hdecl] at hcallee
  have hext := hL.external f hf
  have hop : (printfCall f.id formatStr name (.inst id) id').op = .call false := rfl
  unfold Program.instr
  rw [if_pos hop]
  simp only [hvals, Program.call, List.getLast?_cons_cons, List.getLast?_singleton, hcallee, hext,
    hdecl, if_true, List.dropLast_cons_of_ne_nil, ne_eq, not_false_eq_true,
    List.dropLast_singleton, List.cons_ne_nil]

theorem ret_eq {w : Frame} (hw : Printer printWrapper w) (hrest : w.rest = []) :
    (instrumented W M M' external).inside w (.outside :: s) (cells, mem) tr =
      .running ⟨.outside :: s, (cells, mem), tr ++ [.leaves printWrapper none]⟩ := by
  obtain ⟨hop, hops⟩ := hw.term
  unfold Program.inside Program.terminator World.transfer
  simp only [hrest, hop, hops, hw.id]
  rfl

/-- A step of printing. -/
theorem printing_step (hI : Instrumented M M' printf formatStr printWrapper entries)
    (hL : Linked W M M' external) {w : Frame} (hp : prints)
    (hw : Printer printWrapper w)
    (hrest : Printing W M printf formatStr w.rest w.env)
    (hs : Stacks W M printf formatStr printWrapper prints (.outside :: s') (.outside :: s))
    (hcounts : Counts W M printWrapper none cells tr' tr) :
    Sim W M printf formatStr printWrapper prints
      ((instrumented W M M' external).inside w (.outside :: s') (cells, mem) tr')
      (.running ⟨.outside :: s, mem, tr⟩) := by
  generalize hr : w.rest = is at hrest
  generalize henv : w.env = env at hrest
  cases hrest with
  | next h =>
      obtain ⟨es, id, hes, rfl⟩ := h
      cases es with
      | nil =>
          rw [ret_eq hw hr]
          exact .settled hs (hcounts.hide _ (by simp [ofProgram, Observed.fn]) fun _ _ => rfl)
      | cons e es =>
          obtain ⟨he, hes⟩ := List.forall_mem_cons.mp hes
          unfold Program.inside
          rw [hr]
          simp only [printing]
          rw [load_eq he (hcounts.hasTy he)]
          exact .printing hp ⟨hw.func, hw.block⟩ (.call ⟨es, id + 2, hes, rfl⟩ (Env.set_self ..))
            hs hcounts
  | call h hv =>
      unfold Program.inside
      rw [hr]
      simp only
      rw [printf_eq hI hL (henv ▸ hv), hw.id]
      refine .settled (.printing hp hw hr rfl h hs) (hcounts.hide _ ?_ fun f hf => rfl)
      simp [ofProgram, Observed.fn]

/-! ## Moves -/

theorem Frames.awaited (h : Frames M [] fr' fr) : fr'.awaited = fr.awaited := by
  unfold Frame.awaited
  rw [h.rest, List.nil_append, h.term]

/-- A call of `printf` has come to its end. -/
theorem returned_eq {V : World (Cells × μ)} {w : Frame} {i : Instr Op} {rest : List (Instr Op)}
    (hi : w.rest = i :: rest) (hty : i.ty = .int 32) {v : Option Val}
    (hv : resultHasTy w.awaited v = true) :
    resume V (cells, mem) (.returned v) (.inside w :: s) tr = .running
      ⟨.inside { w with rest := rest, env := (v.map (w.env.set i.id)).getD w.env } :: s,
        (cells, mem), tr⟩ := by
  unfold Frame.awaited at hv
  rw [hi] at hv
  unfold resume
  simp only [hi]
  cases v with
  | none =>
      simp only [hty] at hv
      cases hv
  | some v =>
      have hv : v.hasTy i.ty = true := hv
      simp only [Frame.assign, Env.assign, hv, if_true]
      rfl

/-- The print function is entered. -/
theorem start_wrapper (hI : Instrumented M M' printf formatStr printWrapper entries)
    (args : List Val) :
    let w := Frame.start (wrapper printWrapper
      (printing printf formatStr (entries.map fun e => (e.1.2, e.2)) 0)) args
    Printer printWrapper w ∧
      w.rest = printing printf formatStr (entries.map fun e => (e.1.2, e.2)) 0 ∧
      Prints W M printf formatStr w.rest := by
  have hphis : ∀ es id, (printing printf formatStr es id).dropWhile Instr.isPhi =
      printing printf formatStr es id := by
    intro es id
    cases es <;> rfl
  have hrest := hphis (entries.map fun e => (e.1.2, e.2)) 0
  refine ⟨⟨⟨_, rfl⟩, rfl⟩, hrest, _, 0, fun e he => ?_, hrest⟩
  obtain ⟨entry, hentry, rfl⟩ := List.mem_map.mp he
  obtain ⟨f, hf, heq⟩ := List.mem_map.mp (hI.listed.mem_iff.mp (List.mem_map_of_mem hentry))
  show isCounter W M (W.address entry.1.2) = true
  rw [← heq]
  exact isCounter_counter hf

/-- Code from outside calls a function. -/
theorem calls_forward (hI : Instrumented M M' printf formatStr printWrapper entries)
    (hL : Linked W M M' external) (hM : Tidy M) (hF : ∀ f ∈ M.defined, Sound f.fn)
    (hs : Stacks W M printf formatStr printWrapper True (.outside :: s') (.outside :: s))
    (hcounts : Counts W M printWrapper none cells tr' tr) {a : Nat} {args : List Val}
    {o' : Outcome (Cells × μ)}
    (h : (instrumented W M M' external).outside s' (cells, mem) tr' (.calls a args) = some o') :
    Sim W M printf formatStr printWrapper True o' (.running ⟨.outside :: s, mem, tr⟩) ∨
      ∃ o,
        (original W M external).step (.calls a args) (.running ⟨.outside :: s, mem, tr⟩) =
          some o ∧
        Sim W M printf formatStr printWrapper True o' o := by
  obtain ⟨f', hf', rfl⟩ := Option.map_eq_some_iff.mp h
  cases hcallee : (original W M external).callee a with
  | some f =>
      obtain ⟨hf, hcallee'⟩ := callee_some W external hI hcallee
      rw [hcallee'] at hf'
      cases hf'
      exact .inr ⟨_, congrArg (Option.map _) hcallee, enter_sim hF hf args hs hcounts⟩
  | none =>
      rcases callee_none W external hI hcallee with hnone | rfl
      · rw [hnone] at hf'
        cases hf'
      · have hwrapper : (instrumented W M M' external).callee (W.address printWrapper) = _ :=
          callee_eq W external hI hL.address (wrapper_mem hI)
        rw [hf', if_neg (by simp [wrapper, appendBlock, Function.isDeclaration])] at hwrapper
        cases hwrapper
        obtain ⟨hw, -, hprints⟩ := start_wrapper (W := W) hI args
        refine .inl (.printing trivial hw (.next hprints) hs (hcounts.hide _ ?_ ?_))
        · simp [ofProgram, Observed.fn, wrapper]
        · intro f hf
          have hne := ne_wrapper hI hM hf
          simp [entered, isEntry, wrapper, hne.symm]

theorem step_forward (hI : Instrumented M M' printf formatStr printWrapper entries)
    (hL : Linked W M M' external) (hM : Tidy M) (hF : ∀ f ∈ M.defined, Sound f.fn) (m : Move μ)
    {o' o₁' : Outcome (Cells × μ)} {o : Outcome μ}
    (h : Sim W M printf formatStr printWrapper True o' o)
    (hstep : (instrumented W M M' external).step (besideCells m) o' = some o₁') :
    Sim W M printf formatStr printWrapper True o₁' o ∨
      ∃ o₁, (original W M external).step m o = some o₁ ∧
        Sim W M printf formatStr printWrapper True o₁' o₁ := by
  cases h with
  | undefined => exact .inl (.undefined _)
  | waiting => cases hstep
  | counting h hpre hs hcounts =>
      cases m with
      | silent =>
          cases hstep
          refine .inl ?_
          rcases counting_step _ _ hM hL h hpre hcounts with
            ⟨pre₁, fr₁, heq, -, h₁, hpre₁⟩ | ⟨fr₁, cells₁, tr₁, heq, h₁, hcounts₁⟩
          · rw [heq]
            exact .counting h₁ hpre₁ hs hcounts
          · rw [heq]
            exact .settled (.inside h₁ hs) hcounts₁
      | _ => cases hstep
  | printing hp hw hrest hs hcounts =>
      cases m with
      | silent =>
          cases hstep
          exact .inl (printing_step hI hL hp hw hrest hs hcounts)
      | _ => cases hstep
  | settled hs hcounts =>
      cases hs with
      | nil => cases m <;> cases hstep
      | inside h hs =>
          cases m with
          | silent =>
              cases hstep
              exact .inr ⟨_, rfl, inside_sim hI hL hF h hs hcounts⟩
          | _ => cases hstep
      | outside hs =>
          cases m with
          | silent => cases hstep
          | acts change =>
              cases hstep
              exact .inr ⟨_, rfl, .settled (.outside hs) hcounts⟩
          | calls a args => exact calls_forward hI hL hM hF (.outside hs) hcounts hstep
          | returns v =>
              cases hs with
              | inside h hs =>
                  obtain ⟨hty, heq⟩ := Option.ite_none_right_eq_some.mp hstep
                  cases heq
                  rw [h.awaited] at hty
                  exact .inr ⟨_, if_pos hty, resume_sim hF (.returned v) (.inside h hs) hcounts⟩
              | _ => cases hstep
          | unwinds =>
              cases hs with
              | inside h hs =>
                  cases hstep
                  exact .inr ⟨_, rfl, resume_sim hF .unwound (.inside h hs) hcounts⟩
              | _ => cases hstep
      | @printing w i rest s' s hp hw hi hty hrest hs =>
          cases m with
          | silent => cases hstep
          | acts change =>
              cases hstep
              exact .inr ⟨_, rfl, .settled (.printing hp hw hi hty hrest hs) hcounts⟩
          | calls a args =>
              exact calls_forward hI hL hM hF (.printing hp hw hi hty hrest hs) hcounts hstep
          | returns v =>
              obtain ⟨hv, heq⟩ := Option.ite_none_right_eq_some.mp hstep
              cases heq
              refine .inl ?_
              rw [returned_eq hi hty hv]
              exact .printing hp ⟨hw.func, hw.block⟩ (.next hrest) hs hcounts
          | unwinds =>
              cases hstep
              refine .inl ?_
              unfold resume
              simp only [hi, hw.id]
              refine .settled hs (hcounts.hide _ ?_ fun _ _ => rfl)
              simp [ofProgram, Observed.fn]

end

end LlvmPasses.DynamicCallCounter
