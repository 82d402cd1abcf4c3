import LlvmPasses.Lib.Simulation
import LlvmPasses.Proofs.CounterSim

/-!
# DynamicCallCounter counts the calls

Runs of the instrumented program and of the original one, matched move by move.
At every moment a counter holds how often its function has been entered, and
calling the print function prints every function once with its count.

`counts_calls` has two parts. The first is about what is made of the module:
there is a counter for each function that is defined, and a print function,
which is added to the list of destructors. The second is about runs
(`CallsCounted`) and goes both ways: every run of the instrumented program
goes abreast of one of the original, and every run of the original is answered
by one of the instrumented program with further moves put in. What the two have
in common at a moment is `Matched`. Code from outside may call into the module
whenever it is its turn, so recursion and calls back are runs like any other.

The relation on stacks and its step lemma are in `CounterSim`. The other
direction is here: a function that has been entered still has to count, and
there the original program waits. Counting has an end (`finish_counting`, by
induction on what is left to do of it), so a run can always be brought to a
moment at which no function is counting (`Between`), and from there the next
move is the same in both. A line is printed in four moves (`print_one`), and
all of them by induction on the entries (`print_all`).
-/

namespace LlvmPasses.DynamicCallCounter

open Ir Simulation

section

variable {μ : Type} (W : World μ) (M M' : Module)

/-- What the variables of the instrumented module hold at first, by address. -/
def initial (a : Nat) : Val :=
  match (M'.globals.find? fun v => W.address v.id == a).bind GlobalVariable.init with
  | some (.int w x) => .int w x
  | _ => .poison

/-- A function that was entered and has not come past counting it: the store
that counts is the instruction of its function that was made last. -/
def uncounted (fn : Nat) : List Activation → Nat
  | .inside fr :: _ =>
      if fr.func.id = fn ∧ fr.rest.any (fun i => i.id + 1 == fr.func.fn.nextInst) then 1 else 0
  | _ => 0

/-- The string at an address. -/
def stringAt (a : Nat) : Option String :=
  match (M'.globals.find? fun v => W.address v.id == a).bind GlobalVariable.init with
  | some (.string s) => some s
  | _ => none

/-- What a call of `printf` with the pass's format string prints. -/
def printed : Observed → Option (String × Val)
  | .does _ (.call a [.ptr format, .ptr name, n]) =>
      if (M'.functions.find? fun f => W.address f.id == a).map Func.name = some "printf" ∧
          stringAt W M' format = some formatStr then
        (stringAt W M' name).map fun s => (s, n)
      else none
  | _ => none

/-- The moves with which code from outside has a function print `n` lines:
`printf` may change memory, and it returns something. -/
def printMoves (a : Nat) (args : List Val) (replies : List ((μ → μ) × Val)) : List (Move μ) :=
  .calls a args ::
    (replies.flatMap fun r => [.silent, .silent, .acts r.1, .returns (some r.2)]) ++ [.silent]

def instrumentedStep (external : Nat → Bool) (m : Move μ) :
    Outcome (Cells × μ) → Option (Outcome (Cells × μ)) :=
  (instrumented W M M' external).step (besideCells m)

/-- What holds between the programs at a moment. -/
structure Matched (external : Nat → Bool) (printWrapper : Nat) (P' : Process (Cells × μ))
    (P : Process μ) : Prop where
  mem : P'.mem.2 = P.mem
  seen : P'.trace.filter (ofProgram printWrapper (isCounter W M)) =
    P.trace.filter (ofProgram printWrapper (isCounter W M))
  counts : ∀ f ∈ M.defined, ∃ n,
    P'.mem.1 (W.address (counter M f.id)) = .int 32 (BitVec.ofNat 32 n) ∧
      n + uncounted f.id P'.stack = entered f.id P'.trace
  /-- From here the print function prints every function with its count, and
  changes nothing but what `printf` does. -/
  prints : ∀ stack, P'.stack = .outside :: stack → ∀ args (replies : List ((μ → μ) × Val)),
    replies.length = M.defined.length → (∀ r ∈ replies, r.2.hasTy (.int 32) = true) →
    ∃ out, Simulation.run (instrumentedStep W M M' external)
        (printMoves (W.address printWrapper) args replies) (.running P') =
          some (.running ⟨P'.stack, (P'.mem.1, replies.foldl (fun m r => r.1 m) P'.mem.2),
            P'.trace ++ out⟩) ∧
      (out.filterMap (printed W M')).Perm
        (M.defined.map fun f => (f.name, P'.mem.1 (W.address (counter M f.id))))

/-- Nothing is said of a program once the original one is undefined. -/
inductive Alike (external : Nat → Bool) (printWrapper : Nat) :
    Outcome (Cells × μ) → Outcome μ → Prop
  | undefined (o') : Alike external printWrapper o' .undefined
  | waiting {P' P} (h : Matched W M M' external printWrapper P' P) :
      Alike external printWrapper (.waiting P') (.waiting P)
  | running {P' P} (h : Matched W M M' external printWrapper P' P) :
      Alike external printWrapper (.running P') (.running P)

/-- No function is counting, and nothing is printed. -/
inductive Between (printf formatStr printWrapper : Nat) :
    Outcome (Cells × μ) → Outcome μ → Prop
  | undefined (o') : Between printf formatStr printWrapper o' .undefined
  | waiting {s' s cells mem tr' tr} (hs : Stacks W M printf formatStr printWrapper False s' s)
      (hcounts : Counts W M printWrapper none cells tr' tr) :
      Between printf formatStr printWrapper (.waiting ⟨s', (cells, mem), tr'⟩)
        (.waiting ⟨s, mem, tr⟩)
  | settled {s' s cells mem tr' tr} (hs : Stacks W M printf formatStr printWrapper False s' s)
      (hcounts : Counts W M printWrapper none cells tr' tr) :
      Between printf formatStr printWrapper (.running ⟨s', (cells, mem), tr'⟩)
        (.running ⟨s, mem, tr⟩)

/-- The instrumented program at first, when the counters are initialized. -/
def instrumentedStart (mem : μ) : Outcome (Cells × μ) := .start (initial W M', mem)

/-- The calls are counted in every run. -/
structure CallsCounted (external : Nat → Bool) (printWrapper : Nat) (mem : μ) : Prop where
  abreast : ∀ moves o', Simulation.run (instrumentedStep W M M' external) moves
      (instrumentedStart W M' mem) = some o' →
    ∃ o, Abreast (instrumentedStep W M M' external) (original W M external).step
      (Alike W M M' external printWrapper) (instrumentedStart W M' mem)
      (.start mem) moves o' o
  answered : ∀ moves o, Simulation.run (original W M external).step moves
      (.start mem) = some o →
    ∃ moves' o', List.Sublist moves moves' ∧
      Simulation.run (instrumentedStep W M M' external) moves'
        (instrumentedStart W M' mem) = some o' ∧
      Alike W M M' external printWrapper o' o

end

section

variable {μ : Type} {W : World μ} {M M' : Module} {printf formatStr printWrapper : Nat}
variable {entries : List ((String × Nat) × Nat)} {external : Nat → Bool} {prints : Prop}
variable {s' s : List Activation} {cells : Cells} {mem : μ} {tr' tr : List Observed}
variable {fr' fr : Frame} {pending : Option Nat}

/-! ## Printing -/

/-- One line is printed. -/
theorem print_one (s' : List Activation) (mem : μ) (tr' : List Observed)
    (hI : Instrumented M M' printf formatStr printWrapper entries)
    (hL : Linked W M M' external) {w : Frame} (hw : Printer printWrapper w) {e : Nat × Nat}
    {es : List (Nat × Nat)} {id : Nat} (hrest : w.rest = printing printf formatStr (e :: es) id)
    (he : isCounter W M (W.address e.1) = true)
    (hty : (cells (W.address e.1)).hasTy (.int 32) = true) (r : (μ → μ) × Val)
    (hr : r.2.hasTy (.int 32) = true) :
    ∃ w₁, Printer printWrapper w₁ ∧ w₁.rest = printing printf formatStr es (id + 2) ∧
      Simulation.run (instrumentedStep W M M' external)
        [.silent, .silent, .acts r.1, .returns (some r.2)]
        (.running ⟨.inside w :: .outside :: s', (cells, mem), tr'⟩) =
          some (.running ⟨.inside w₁ :: .outside :: s', (cells, r.1 mem), tr' ++
            [.does printWrapper (.call (W.address printf) [.ptr (W.address formatStr),
              .ptr (W.address e.2), cells (W.address e.1)])]⟩) := by
  obtain ⟨w', hw'⟩ : ∃ w' : Frame, w' = { w with
    rest := printfCall printf formatStr e.2 (.inst id) (id + 1) ::
      printing printf formatStr es (id + 2)
    env := w.env.set id (cells (W.address e.1)) } := ⟨_, rfl⟩
  have hload : instrumentedStep W M M' external .silent
      (.running ⟨.inside w :: .outside :: s', (cells, mem), tr'⟩) =
        some (.running ⟨.inside w' :: .outside :: s', (cells, mem), tr'⟩) := by
    show some (Program.inside _ w _ _ _) = _
    unfold Program.inside
    rw [hrest]
    simp only [printing]
    rw [load_eq he hty, hw']
  have hrest' : w'.rest = printfCall printf formatStr e.2 (.inst id) (id + 1) ::
      printing printf formatStr es (id + 2) := by rw [hw']
  have hcall : instrumentedStep W M M' external .silent
      (.running ⟨.inside w' :: .outside :: s', (cells, mem), tr'⟩) =
        some (.running ⟨.outside :: .inside w' :: .outside :: s', (cells, mem), tr' ++
          [.does printWrapper (.call (W.address printf) [.ptr (W.address formatStr),
            .ptr (W.address e.2), cells (W.address e.1)])]⟩) := by
    have hid : w'.func.id = printWrapper := hw' ▸ hw.id
    show some (Program.inside _ w' _ _ _) = _
    unfold Program.inside
    rw [hrest', ← hid]
    exact congrArg some (printf_eq hI hL (hw' ▸ Env.set_self ..) _ _)
  have hv : resultHasTy w'.awaited (some r.2) = true := by
    unfold Frame.awaited
    rw [hrest']
    exact hr
  refine ⟨{ w with
    rest := printing printf formatStr es (id + 2)
    env := (w.env.set id (cells (W.address e.1))).set (id + 1) r.2 }, ⟨hw.func, hw.block⟩, rfl, ?_⟩
  rw [run_cons hload, run_cons hcall]
  generalize tr' ++ [_] = tr₁
  have hacts : instrumentedStep W M M' external (.acts r.1)
      (.running ⟨.outside :: .inside w' :: .outside :: s', (cells, mem), tr₁⟩) =
        some (.running ⟨.outside :: .inside w' :: .outside :: s', (cells, r.1 mem), tr₁⟩) := rfl
  rw [run_cons hacts]
  refine run_single ((if_pos hv).trans (congrArg some ?_))
  rw [returned_eq hrest' rfl hv, hw']
  rfl

/-- The lines are printed one after the other. -/
theorem print_all (s' : List Activation) (mem : μ) (tr' : List Observed)
    (hI : Instrumented M M' printf formatStr printWrapper entries)
    (hL : Linked W M M' external) {w : Frame} (hw : Printer printWrapper w)
    {es : List (Nat × Nat)} {id : Nat} (hrest : w.rest = printing printf formatStr es id)
    (hes : ∀ e ∈ es, isCounter W M (W.address e.1) = true ∧
      (cells (W.address e.1)).hasTy (.int 32) = true) {replies : List ((μ → μ) × Val)}
    (hlength : replies.length = es.length) (hreplies : ∀ r ∈ replies, r.2.hasTy (.int 32) = true) :
    Simulation.run (instrumentedStep W M M' external)
        ((replies.flatMap fun r => [.silent, .silent, .acts r.1, .returns (some r.2)]) ++ [.silent])
        (.running ⟨.inside w :: .outside :: s', (cells, mem), tr'⟩) =
      some (.running ⟨.outside :: s', (cells, replies.foldl (fun m r => r.1 m) mem),
        tr' ++ (es.map fun e => .does printWrapper (.call (W.address printf)
          [.ptr (W.address formatStr), .ptr (W.address e.2), cells (W.address e.1)])) ++
            [.leaves printWrapper none]⟩) := by
  induction es generalizing w id replies mem tr' with
  | nil =>
      obtain rfl := List.length_eq_zero_iff.mp hlength
      rw [List.map_nil, List.append_nil]
      exact run_single (congrArg some (ret_eq hw hrest))
  | cons e es ih =>
      cases replies with
      | nil => cases hlength
      | cons r replies =>
          obtain ⟨he, hes⟩ := List.forall_mem_cons.mp hes
          obtain ⟨hr, hreplies⟩ := List.forall_mem_cons.mp hreplies
          obtain ⟨w₁, hw₁, hrest₁, hrun⟩ := print_one s' mem tr' hI hL hw hrest
            he.1 he.2 r hr
          rw [List.flatMap_cons, List.append_assoc, run_append hrun,
            ih _ _ hw₁ hrest₁ hes (Nat.succ.inj hlength) hreplies]
          rw [List.map_cons, List.foldl_cons, List.append_assoc tr', List.singleton_append]

/-- What is looked up by its own address is found. -/
theorem find_address {α : Type} {key : α → Nat} {as : List α} {a : α} (has : (as.map key).Nodup)
    (hW : Function.Injective W.address) (ha : a ∈ as) :
    as.find? (fun b => W.address (key b) == W.address (key a)) = some a := by
  cases hfind : as.find? fun b => W.address (key b) == W.address (key a) with
  | none => exact absurd (beq_self_eq_true _) (List.find?_eq_none.mp hfind a ha)
  | some b =>
      have heq : W.address (key b) = W.address (key a) := by simpa using List.find?_some hfind
      rw [List.inj_on_of_nodup_map has (List.mem_of_find?_eq_some hfind) ha (hW heq)]

theorem stringAt_eq (hM' : Tidy M') (hW : Function.Injective W.address) {g : Nat} {str : String}
    (h : ∃ v ∈ M'.globals, v.id = g ∧ v.init = some (.string str)) :
    stringAt W M' (W.address g) = some str := by
  obtain ⟨v, hv, rfl, hinit⟩ := h
  unfold stringAt
  rw [find_address hM'.globals_nodup hW hv, Option.bind_some, hinit]

/-- A call that the print function makes prints its entry. -/
theorem printed_entry (hI : Instrumented M M' printf formatStr printWrapper entries)
    (hW : Function.Injective W.address) {e : (String × Nat) × Nat} (he : e ∈ entries) (n : Val) :
    printed W M' (.does printWrapper (.call (W.address printf)
      [.ptr (W.address formatStr), .ptr (W.address e.2), n])) = some (e.1.1, n) := by
  obtain ⟨f, hf, rfl, hname, -⟩ := hI.printf_known
  have hfound : (M'.functions.find? fun g => W.address g.id == W.address f.id).map Func.name =
      some "printf" := by rw [find_address hI.tidy.ids hW hf, Option.map_some, hname]
  unfold printed
  simp only [if_pos (And.intro hfound (stringAt_eq hI.tidy hW hI.format)),
    stringAt_eq hI.tidy hW (hI.strings e he), Option.map_some]

theorem print_run (hI : Instrumented M M' printf formatStr printWrapper entries)
    (hL : Linked W M M' external) (hcounts : Counts W M printWrapper none cells tr' tr)
    (args : List Val) (replies : List ((μ → μ) × Val)) (hlength : replies.length = M.defined.length)
    (hreplies : ∀ r ∈ replies, r.2.hasTy (.int 32) = true) :
    ∃ out, Simulation.run (instrumentedStep W M M' external)
        (printMoves (W.address printWrapper) args replies)
          (.running ⟨.outside :: s', (cells, mem), tr'⟩) =
        some (.running ⟨.outside :: s', (cells, replies.foldl (fun m r => r.1 m) mem),
          tr' ++ out⟩) ∧
      (out.filterMap (printed W M')).Perm
        (M.defined.map fun f => (f.name, cells (W.address (counter M f.id)))) := by
  obtain ⟨hw, hrest, -⟩ := start_wrapper (W := W) hI args
  have hcallee : (instrumented W M M' external).callee (W.address printWrapper) = _ :=
    callee_eq W external hI hL.address (wrapper_mem hI)
  rw [if_neg (by simp [wrapper, appendBlock, Function.isDeclaration])] at hcallee
  have hcounter : ∀ e ∈ entries.map fun e => (e.1.2, e.2),
      isCounter W M (W.address e.1) = true ∧ (cells (W.address e.1)).hasTy (.int 32) = true := by
    intro e he
    obtain ⟨entry, hentry, rfl⟩ := List.mem_map.mp he
    obtain ⟨f, hf, heq⟩ := List.mem_map.mp (hI.listed.mem_iff.mp (List.mem_map_of_mem hentry))
    have hc : isCounter W M (W.address entry.1.2) = true := by
      rw [← heq]
      exact isCounter_counter hf
    exact ⟨hc, hcounts.hasTy hc⟩
  have hlen : replies.length = (entries.map fun e => (e.1.2, e.2)).length := by
    have hperm := hI.listed.length_eq
    rw [List.length_map, List.length_map] at hperm
    rw [List.length_map, hlength, hperm]
  have hcalls : instrumentedStep W M M' external (.calls (W.address printWrapper) args)
      (.running ⟨.outside :: s', (cells, mem), tr'⟩) = _ :=
    congrArg (Option.map _) hcallee
  have hall := print_all s' mem (tr' ++ [.enters printWrapper args]) hI hL hw hrest hcounter hlen
    hreplies
  refine ⟨.enters printWrapper args :: (entries.map fun e => .does printWrapper
    (.call (W.address printf) [.ptr (W.address formatStr), .ptr (W.address e.2),
      cells (W.address e.1.2)])) ++ [.leaves printWrapper none], (run_cons hcalls).trans ?_, ?_⟩
  · refine hall.trans ?_
    rw [List.map_map, List.append_assoc, List.append_assoc]
    rfl
  · have hlines : (entries.map fun e => Observed.does printWrapper (.call (W.address printf)
        [.ptr (W.address formatStr), .ptr (W.address e.2), cells (W.address e.1.2)])).filterMap
          (printed W M') = (entries.map Prod.fst).map fun e => (e.1, cells (W.address e.2)) := by
      rw [List.filterMap_map, List.map_map]
      rw [← List.filterMap_eq_map]
      exact List.filterMap_congr fun e he => printed_entry hI hL.address he _
    rw [List.cons_append, List.filterMap_cons, List.filterMap_append, hlines]
    refine (List.append_nil _).symm ▸ (hI.listed.map _).trans ?_
    rw [List.map_map]
    rfl

/-! ## What holds at a moment -/

theorem Sound.id_lt {F : Function} (hF : Sound F) {k : Nat} (hk : k ∈ F.order) {i : Instr Op}
    (hi : i ∈ (F.block k).instrs) : i.id < F.nextInst :=
  hF.below (i.id, i.ty) (Function.mem_defs_of_instr hk hi)

theorem Frames.uncounted_iff {pre : List (Instr Op)} (h : Frames M pre fr' fr)
    (hF : Sound fr.func.fn) : fr'.rest.any (fun i => i.id + 1 == fr'.func.fn.nextInst) =
      pre.any fun i => i.id == fr.func.fn.nextInst + 2 := by
  have hnext : fr'.func.fn.nextInst = fr.func.fn.nextInst + 3 := by rw [h.func]; rfl
  have hold : fr.rest.any (fun i => i.id + 1 == fr.func.fn.nextInst + 3) = false := by
    rw [List.any_eq_false]
    intro i hi
    have hlt := hF.id_lt h.order (h.within i hi)
    simp
    omega
  have hsame : (fun i : Instr Op => i.id + 1 == fr.func.fn.nextInst + 3) =
      fun i => i.id == fr.func.fn.nextInst + 2 := by
    funext i
    rw [Bool.eq_iff_iff, beq_iff_eq, beq_iff_eq]
    omega
  rw [h.rest, List.any_append, hnext, hold, Bool.or_false, hsame]

theorem uncounted_inside {pre : List (Instr Op)} (h : Frames M pre fr' fr) (hF : Sound fr.func.fn)
    (fn : Nat) (stack : List Activation) : uncounted fn (.inside fr' :: stack) =
      if fr.func.id = fn ∧ pre.any (fun i => i.id == fr.func.fn.nextInst + 2) = true then 1
      else 0 := by
  have hid : fr'.func.id = fr.func.id := by rw [h.func]; rfl
  show (if fr'.func.id = fn ∧ fr'.rest.any (fun i => i.id + 1 == fr'.func.fn.nextInst) = true
    then 1 else 0) = _
  rw [hid, h.uncounted_iff hF]

theorem uncounted_settled (hF : ∀ f ∈ M.defined, Sound f.fn)
    (hs : Stacks W M printf formatStr printWrapper prints s' s) (fn : Nat) :
    uncounted fn s' = 0 := by
  cases hs with
  | inside h hs =>
      rw [uncounted_inside h (hF _ h.defined)]
      simp
  | _ => rfl

theorem uncounted_counting (hF : ∀ f ∈ M.defined, Sound f.fn) {pre : List (Instr Op)}
    (h : Frames M pre fr' fr)
    (hpre : Counting W cells (counter M fr.func.id) fr.func.fn.nextInst pre fr'.env) (fn : Nat) :
    uncounted fn (.inside fr' :: s') = if some fr.func.id = some fn then 1 else 0 := by
  have hstore : pre.any (fun i => i.id == fr.func.fn.nextInst + 2) = true := by
    generalize fr'.env = env at hpre
    cases hpre <;> simp [increment]
  rw [uncounted_inside h (hF _ h.defined), hstore]
  simp

theorem matched_settled (hI : Instrumented M M' printf formatStr printWrapper entries)
    (hL : Linked W M M' external) (hF : ∀ f ∈ M.defined, Sound f.fn)
    (hs : Stacks W M printf formatStr printWrapper prints s' s)
    (hcounts : Counts W M printWrapper none cells tr' tr) :
    Matched W M M' external printWrapper ⟨s', (cells, mem), tr'⟩ ⟨s, mem, tr⟩ where
  mem := rfl
  seen := hcounts.seen
  counts f hf := by
    obtain ⟨n, hn, hcount⟩ := hcounts.counts f hf
    exact ⟨n, hn, by rw [uncounted_settled hF hs, ← hcount, if_neg nofun]⟩
  prints := by
    rintro stack hstack args replies hlength hreplies
    cases hstack
    exact print_run hI hL hcounts args replies hlength hreplies

theorem alike_of_sim (hI : Instrumented M M' printf formatStr printWrapper entries)
    (hL : Linked W M M' external) (hM : Tidy M) (hF : ∀ f ∈ M.defined, Sound f.fn)
    {o' : Outcome (Cells × μ)} {o : Outcome μ}
    (h : Sim W M printf formatStr printWrapper prints o' o) :
    Alike W M M' external printWrapper o' o := by
  cases h with
  | undefined => exact .undefined _
  | waiting hs hcounts => exact .waiting (matched_settled hI hL hF hs hcounts)
  | settled hs hcounts => exact .running (matched_settled hI hL hF hs hcounts)
  | counting h hpre hs hcounts =>
      refine .running ⟨rfl, hcounts.seen, fun f hf => ?_, nofun⟩
      obtain ⟨n, hn, hcount⟩ := hcounts.counts f hf
      exact ⟨n, hn, by rw [uncounted_counting hF h hpre, ← hcount]⟩
  | printing hp hw hrest hs hcounts =>
      refine .running ⟨rfl, hcounts.seen, fun f hf => ?_, nofun⟩
      obtain ⟨n, hn, hcount⟩ := hcounts.counts f hf
      refine ⟨n, hn, ?_⟩
      rw [← hcount, if_neg nofun]
      exact congrArg (n + ·) (if_neg fun hw' => ne_wrapper hI hM hf (hw'.1.symm.trans hw.id))

/-! ## Following the original program -/

theorem Between.sim {o' : Outcome (Cells × μ)} {o : Outcome μ}
    (h : Between W M printf formatStr printWrapper o' o) :
    Sim W M printf formatStr printWrapper False o' o := by
  cases h with
  | undefined => exact .undefined _
  | waiting hs hcounts => exact .waiting hs hcounts
  | settled hs hcounts => exact .settled hs hcounts

/-- Counting comes to its end. -/
theorem finish_counting (hL : Linked W M M' external) (hM : Tidy M) {pre : List (Instr Op)}
    (h : Frames M pre fr' fr)
    (hpre : Counting W cells (counter M fr.func.id) fr.func.fn.nextInst pre fr'.env)
    (hs : Stacks W M printf formatStr printWrapper False s' s)
    (hcounts : Counts W M printWrapper (some fr.func.id) cells tr' tr) :
    ∃ ms o', Simulation.run (instrumentedStep W M M' external) ms
        (.running ⟨.inside fr' :: s', (cells, mem), tr'⟩) = some o' ∧
      Between W M printf formatStr printWrapper o' (.running ⟨.inside fr :: s, mem, tr⟩) := by
  induction hn : pre.length using Nat.strongRecOn generalizing pre fr' with
  | ind n ih =>
      have hstep : instrumentedStep W M M' external .silent
          (.running ⟨.inside fr' :: s', (cells, mem), tr'⟩) =
            some ((instrumented W M M' external).inside fr' s' (cells, mem) tr') := rfl
      rcases counting_step s' mem hM hL h hpre hcounts with
        ⟨pre₁, fr₁, heq, hlt, h₁, hpre₁⟩ | ⟨fr₁, cells₁, tr₁, heq, h₁, hcounts₁⟩
      · obtain ⟨ms, o', hrun, hbetween⟩ := ih _ (hn ▸ hlt) h₁ hpre₁ rfl
        refine ⟨.silent :: ms, o', ?_, hbetween⟩
        rw [run_cons hstep, heq]
        exact hrun
      · refine ⟨[.silent], _, run_single hstep, ?_⟩
        rw [heq]
        exact .settled (.inside h₁ hs) hcounts₁

theorem finish (hL : Linked W M M' external) (hM : Tidy M) {o' : Outcome (Cells × μ)}
    {o : Outcome μ} (h : Sim W M printf formatStr printWrapper False o' o) :
    ∃ ms o₁', Simulation.run (instrumentedStep W M M' external) ms o' = some o₁' ∧
      Between W M printf formatStr printWrapper o₁' o := by
  cases h with
  | undefined => exact ⟨[], _, rfl, .undefined _⟩
  | waiting hs hcounts => exact ⟨[], _, rfl, .waiting hs hcounts⟩
  | settled hs hcounts => exact ⟨[], _, rfl, .settled hs hcounts⟩
  | counting h hpre hs hcounts => exact finish_counting hL hM h hpre hs hcounts
  | printing hp => exact hp.elim

/-- A move of the original program, made by the instrumented one. -/
theorem step_back (hI : Instrumented M M' printf formatStr printWrapper entries)
    (hL : Linked W M M' external) (hF : ∀ f ∈ M.defined, Sound f.fn) (m : Move μ)
    {o' : Outcome (Cells × μ)} {o o₁ : Outcome μ}
    (h : Between W M printf formatStr printWrapper o' o)
    (hstep : (original W M external).step m o = some o₁) :
    ∃ o₁', instrumentedStep W M M' external m o' = some o₁' ∧
      Sim W M printf formatStr printWrapper False o₁' o₁ := by
  cases h with
  | undefined => cases hstep
  | waiting => cases hstep
  | settled hs hcounts =>
      cases hs with
      | nil => cases hstep
      | printing hp => exact hp.elim
      | inside h hs =>
          cases m with
          | silent =>
              cases hstep
              exact ⟨_, rfl, inside_sim hI hL hF h hs hcounts⟩
          | _ => cases hstep
      | outside hs =>
          cases m with
          | silent => cases hstep
          | acts change =>
              cases hstep
              exact ⟨_, rfl, .settled (.outside hs) hcounts⟩
          | calls a args =>
              obtain ⟨f, hcallee, rfl⟩ := Option.map_eq_some_iff.mp hstep
              obtain ⟨hf, hcallee'⟩ := callee_some W external hI hcallee
              exact ⟨_, congrArg (Option.map _) hcallee',
                enter_sim hF hf args (.outside hs) hcounts⟩
          | returns v =>
              cases hs with
              | inside h hs =>
                  obtain ⟨hty, heq⟩ := Option.ite_none_right_eq_some.mp hstep
                  cases heq
                  rw [← h.awaited] at hty
                  exact ⟨_, if_pos hty, resume_sim hF (.returned v) (.inside h hs) hcounts⟩
              | printing hp => exact hp.elim
              | _ => cases hstep
          | unwinds =>
              cases hs with
              | inside h hs =>
                  cases hstep
                  exact ⟨_, rfl, resume_sim hF .unwound (.inside h hs) hcounts⟩
              | printing hp => exact hp.elim
              | _ => cases hstep

theorem counts_start (hI : Instrumented M M' printf formatStr printWrapper entries)
    (hW : Function.Injective W.address) :
    Counts W M printWrapper none (initial W M') [] [] where
  seen := rfl
  counts f hf := by
    refine ⟨0, ?_, rfl⟩
    unfold initial
    rw [show counter M f.id = (counterVar (counter M f.id) f).id from rfl,
      find_address hI.tidy.globals_nodup hW (hI.counters f hf)]
    rfl

theorem callsCounted (hI : Instrumented M M' printf formatStr printWrapper entries)
    (hL : Linked W M M' external) (hM : Tidy M) (hF : ∀ f ∈ M.defined, Sound f.fn) (mem : μ) :
    CallsCounted W M M' external printWrapper mem where
  abreast moves o' h := by
    refine run_abreast (fun _ _ hsim => alike_of_sim hI hL hM hF hsim)
      (fun m o' o₁' o hsim hstep => step_forward hI hL hM hF m hsim hstep)
      (.settled (.outside .nil) (counts_start hI hL.address)) h
  answered moves o h := by
    have hstep : ∀ m (o o₁ : Outcome μ) (o' : Outcome (Cells × μ)),
        Between W M printf formatStr printWrapper o' o →
        (original W M external).step m o = some o₁ →
        ∃ ms o₁', Simulation.run (instrumentedStep W M M' external) (m :: ms) o' = some o₁' ∧
          Between W M printf formatStr printWrapper o₁' o₁ := by
      intro m o o₁ o' hbetween hm
      obtain ⟨o₁', hm', hsim⟩ := step_back hI hL hF m hbetween hm
      obtain ⟨ms, o₂', hrun, hbetween'⟩ := finish hL hM hsim
      exact ⟨ms, o₂', (run_cons hm').trans hrun, hbetween'⟩
    obtain ⟨moves', o', hsub, hrun, hbetween⟩ := run_answered
      (R := fun o o' => Between W M printf formatStr printWrapper o' o) hstep
      (.settled (.outside .nil) (counts_start hI hL.address)) h
    exact ⟨moves', o', hsub, hrun, alike_of_sim hI hL hM hF hbetween.sim⟩

/-- DynamicCallCounter counts the calls: at every moment of every run a counter
is the number of times that its function has been entered and has come past
counting it. -/
theorem counts_calls {arrange : List (String × Nat) → List (String × Nat)}
    (harrange : ∀ map, (arrange map).Perm map) (M : Module) (hM : Countable M)
    (hF : ∀ f ∈ M.defined, Sound f.fn) :
    (M.defined = [] → DynamicCallCounter.run arrange M = some (M, [])) ∧
    (M.defined ≠ [] → ∃ M' calls printWrapper,
      DynamicCallCounter.run arrange M = some (M', calls) ∧
      (DtorsFree M → M'.dtors = M.dtors ++ [printWrapper]) ∧
      (∃ w ∈ M'.functions, w.id = printWrapper ∧ w.name = "print_wrapper") ∧
      (∀ f ∈ M.defined, ∃ v ∈ M'.globals, v.id = counter M f.id ∧ v.name = f.name ++ "_Counter") ∧
      ∀ {μ : Type} (W : World μ) (external : Nat → Bool) (mem : μ), Linked W M M' external →
        CallsCounted W M M' external printWrapper mem) := by
  refine ⟨fun hdef => if_pos (by rw [hdef]; rfl), fun hdef => ?_⟩
  obtain ⟨M', calls, printf, formatStr, printWrapper, entries, hrun, hI⟩ :=
    run_instrumented harrange hM hdef
  exact ⟨M', calls, printWrapper, hrun, hI.dtors, ⟨_, wrapper_mem hI, rfl, rfl⟩,
    fun f hf => ⟨_, hI.counters f hf, rfl, rfl⟩,
    fun W external mem hL => callsCounted hI hL hM.toTidy hF mem⟩

end

/-- A world without memory, where the handles are the addresses. -/
def emptyWorld : World Unit where
  address := id
  blockAddress := id
  alloca _ m := (0, m)
  load _ _ _ := none
  store _ _ _ := none
  call _ _ _ := .undefined
  other _ _ _ _ := .undefined

/-- `void f() { g(); }` and `void g() {}`. -/
def calling : Module where
  globals := []
  functions := [
    ⟨0, "f", ⟨[], .void, [0], fun _ => ⟨[⟨0, .void, .call false, [.global 1], [], {}⟩],
      ⟨1, .void, .ret, [], [], {}⟩⟩, 1, 2, false⟩⟩,
    ⟨1, "g", ⟨[], .void, [0], fun _ => ⟨[], ⟨0, .void, .ret, [], [], {}⟩⟩, 1, 1, false⟩⟩]
  aliases := []
  next := 2

theorem countable_calling : Countable calling where
  ids := by decide
  functions_below := by decide
  globals_nodup := List.nodup_nil
  globals_below := nofun
  names := by decide
  counter_free := by decide
  format_free := by decide
  wrapper_free := by decide
  printf := .inl (by decide)

theorem sound_calling : ∀ f ∈ calling.defined, Sound f.fn := by
  have hcases : ∀ f ∈ calling.functions, Sound f.fn := by
    refine List.forall_mem_cons.mpr ⟨⟨?_, by decide⟩, List.forall_mem_singleton.mpr ⟨?_, by decide⟩⟩
    · exact {
        nonempty := List.cons_ne_nil _ _
        nodup := List.nodup_singleton _
        ids_nodup := by decide
        operands := by decide
        successors := by decide
        terminators := by decide
        debug := by decide
        phis := by decide
        incoming := by decide }
    · exact {
        nonempty := List.cons_ne_nil _ _
        nodup := List.nodup_singleton _
        ids_nodup := by decide
        operands := by decide
        successors := by decide
        terminators := by decide
        debug := by decide
        phis := by decide
        incoming := by decide }
  exact fun f hf => hcases f (List.mem_filter.mp hf).1

/-- Of the instrumented module, only `printf` is not its own. -/
theorem linked_calling {M' : Module} {calls : List Inserted}
    (hrun : DynamicCallCounter.run id calling = some (M', calls)) :
    Linked emptyWorld calling M' fun a => a == 4 where
  address := fun _ _ h => h
  leaves := fun _ _ => ⟨fun _ _ => rfl, fun _ _ => rfl⟩
  external := by
    have hlinked : (match DynamicCallCounter.run id calling with
      | some (M', _) => decide (∀ f ∈ M'.functions, (f.id == 4) = f.fn.isDeclaration)
      | none => false) = true := by decide
    rw [hrun] at hlinked
    exact of_decide_eq_true hlinked

theorem counts_calls_calling : ∃ M' calls printWrapper,
    DynamicCallCounter.run id calling = some (M', calls) ∧
      CallsCounted emptyWorld calling M' (fun a => a == 4) printWrapper () := by
  obtain ⟨M', calls, printWrapper, hrun, -, -, -, hcounted⟩ :=
    (counts_calls (fun _ => .refl _) calling countable_calling sound_calling).2 (by decide)
  exact ⟨M', calls, printWrapper, hrun, hcounted emptyWorld _ () (linked_calling hrun)⟩

/-- The counter of a function that has been entered is behind the original. -/
def countsBehind : Bool :=
  match DynamicCallCounter.run id calling with
  | some (M', _) =>
      match Simulation.run (instrumentedStep emptyWorld calling M' fun a => a == 4)
          [.calls 0 []] (instrumentedStart emptyWorld M' ()),
        Simulation.run (original emptyWorld calling fun a => a == 4).step [.calls 0 []]
          (.start ()) with
      | some (.running P'), some (.running _) =>
          P'.mem.1 (counter calling 0) != .int 32 (BitVec.ofNat 32 (entered 0 P'.trace))
      | _, _ => false
  | none => false

/-- Until a function has stored its count, the counter is one behind. -/
theorem count_behind :
    ¬ ∀ (arrange : List (String × Nat) → List (String × Nat)) (M M' : Module)
      (calls : List Inserted), (∀ map, (arrange map).Perm map) → Countable M →
      (∀ f ∈ M.defined, Sound f.fn) → DynamicCallCounter.run arrange M = some (M', calls) →
      ∀ (W : World Unit) (external : Nat → Bool), Linked W M M' external →
      ∀ (moves : List (Move Unit)) (P' : Process (Cells × Unit)) (P : Process Unit),
        Simulation.run (instrumentedStep W M M' external) moves (instrumentedStart W M' ()) =
          some (.running P') →
        Simulation.run (original W M external).step moves (.start ()) = some (.running P) →
        ∀ f ∈ M.defined, P'.mem.1 (W.address (counter M f.id)) =
          .int 32 (BitVec.ofNat 32 (entered f.id P'.trace)) := by
  intro h
  have hbehind : countsBehind = true := by decide
  unfold countsBehind at hbehind
  cases hrun : DynamicCallCounter.run id calling with
  | none =>
      rw [hrun] at hbehind
      cases hbehind
  | some r =>
      obtain ⟨M', calls⟩ := r
      simp only [hrun] at hbehind
      split at hbehind
      · next P' P hP' hP =>
          have hf : calling.functions.head (by decide) ∈ calling.defined :=
            List.mem_filter.mpr ⟨List.head_mem _, rfl⟩
          have heq := h id calling M' calls (fun _ => .refl _) countable_calling
            sound_calling hrun emptyWorld _ (linked_calling hrun) _ P' P hP' hP _ hf
          exact bne_iff_ne.mp hbehind heq
      · cases hbehind

end LlvmPasses.DynamicCallCounter
