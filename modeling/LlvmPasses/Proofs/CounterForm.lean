import Mathlib.Data.List.Nodup
import Mathlib.Data.List.Perm.Basic
import LlvmPasses.Proofs.PrintfCompose

/-!
# What DynamicCallCounter makes of a module

Where none of the names that the pass asks for is taken, it does one thing to
the module: each function with a body gets a counter and counts in it, and
`print_wrapper` is a new function that loads and prints the counters. This file
runs the loops of the pass once and for all; `Instrumented` is what is left to
know of them.

`run_instrumented` has the pass run on any module with something to count. The
two loops are closed forms by induction on the functions that are left:
`count_eq` for the one that makes the counters and inserts the instructions,
`print_eq` for the one that fills the print function. Each carries along that
the names still to be asked for are free, which is where the names of counters
have to be different for different functions (`counter_name_inj`).

What comes in between and after is calls of functions of the module that either
find something or make it: `printf`, the format string, the print function and
the list of destructors. A module stays `Tidy` when something is added under
new handles (`Tidy.grow`), and this is shown for each of them in turn. `Filled`
is the module once the print function has its body. The list of destructors is
a variable, which is made anew when the print function is added to it; that its
entries are the earlier ones and one more takes that nothing else has its name
(`DtorsFree`).
-/

namespace LlvmPasses.DynamicCallCounter

open Ir

/-- Every function and every variable has a handle of its own, and no free one. -/
structure Tidy (M : Module) : Prop where
  ids : (M.functions.map Func.id).Nodup
  functions_below : ∀ f ∈ M.functions, f.id < M.next
  globals_nodup : (M.globals.map GlobalVariable.id).Nodup
  globals_below : ∀ v ∈ M.globals, v.id < M.next

/-- Nothing but one variable is called `llvm.global_dtors`, if anything is. -/
def DtorsFree (M : Module) : Prop :=
  (M.eraseGlobal globalDtors).getNamedValue globalDtors = none

/-- A module that the pass can be applied to, with all names it asks for free. -/
structure Countable (M : Module) : Prop extends Tidy M where
  names : (M.functions.map Func.name).Nodup
  counter_free : ∀ f ∈ M.defined, M.getNamedValue (f.name ++ "_Counter") = none
  format_free : M.getNamedValue "PrintfFormatStr" = none
  wrapper_free : M.getNamedValue "print_wrapper" = none
  printf : M.getNamedValue "printf" = none ∨
    ∃ f ∈ M.functions, M.getNamedValue "printf" = some (.function f.id) ∧
      f.fn.isDeclaration = true

/-- The function counts in `g`. -/
def counted (g : Nat) (F : Func) : Func :=
  { F with fn := F.fn.insertFirst (increment g F.fn.nextInst) }

def counterVar (g : Nat) (F : Func) : GlobalVariable :=
  ⟨g, F.name ++ "_Counter", .int 32, some (.int 32 0)⟩

/-- The handles that the functions' counters get, from `n` on. -/
def handle (fs : List Func) (n id : Nat) : Nat := n + (fs.map Func.id).idxOf id

/-- The handle of a function's counter. -/
def counter (M : Module) (id : Nat) : Nat := handle M.defined M.next id

/-- What the print function does with each entry of the map, where a counter
comes with the string for its function's name. -/
def printing (printf formatStr : Nat) : List (Nat × Nat) → Nat → List (Instr Op)
  | [], _ => []
  | (global, name) :: es, id =>
      ⟨id, .int 32, .load false 4, [.global global], [], {}⟩ ::
        printfCall printf formatStr name (.inst id) (id + 1) ::
          printing printf formatStr es (id + 2)

def wrapper (printWrapper : Nat) (instrs : List (Instr Op)) : Func :=
  ⟨printWrapper, "print_wrapper", appendBlock (.declaration [] .void) instrs⟩

/-- The module after the pass. The print function goes by `entries`, which has
each function's name and counter with the string for the name. -/
structure Instrumented (M M' : Module) (printf formatStr printWrapper : Nat)
    (entries : List ((String × Nat) × Nat)) : Prop where
  defined : M'.defined = M.defined.map (fun f => counted (counter M f.id) f) ++
    [wrapper printWrapper (printing printf formatStr (entries.map fun e => (e.1.2, e.2)) 0)]
  listed : (entries.map Prod.fst).Perm (M.defined.map fun f => (f.name, counter M f.id))
  wrapper_new : M.next ≤ printWrapper
  printf_known : ∃ f ∈ M'.functions, f.id = printf ∧ f.name = "printf" ∧
    f.fn.isDeclaration = true
  tidy : Tidy M'
  counters : ∀ f ∈ M.defined, counterVar (counter M f.id) f ∈ M'.globals
  format : ∃ v ∈ M'.globals, v.id = formatStr ∧ v.init = some (.string DynamicCallCounter.formatStr)
  strings : ∀ e ∈ entries, ∃ v ∈ M'.globals, v.id = e.2 ∧ v.init = some (.string e.1.1)
  dtors : DtorsFree M → M'.dtors = M.dtors ++ [printWrapper]

section

variable {M M' : Module} {name : String} {c : Const}

/-! ## Free names -/

theorem getNamedValue_none : M.getNamedValue name = none ↔ (∀ v ∈ M.globals, v.name ≠ name) ∧
    (∀ f ∈ M.functions, f.name ≠ name) ∧ M.aliases.contains name = false := by
  unfold Module.getNamedValue
  cases hv : M.globals.find? fun v => v.name == name with
  | some v =>
      refine iff_of_false nofun fun h => ?_
      exact h.1 v (List.mem_of_find?_eq_some hv) (by simpa using List.find?_some hv)
  | none =>
      have hglobals : ∀ v ∈ M.globals, v.name ≠ name := by simpa using hv
      cases hf : M.functions.find? fun f => f.name == name with
      | some f =>
          refine iff_of_false nofun fun h => ?_
          exact h.2.1 f (List.mem_of_find?_eq_some hf) (by simpa using List.find?_some hf)
      | none =>
          have hfunctions : ∀ f ∈ M.functions, f.name ≠ name := by simpa using hf
          cases M.aliases.contains name with
          | true => exact iff_of_false nofun fun h => nomatch h.2.2
          | false => exact iff_of_true rfl ⟨hglobals, hfunctions, rfl⟩

/-- A variable asked for under a free name and given its initializer. -/
theorem assign_free (h : M.getNamedValue name = none) (hbelow : ∀ v ∈ M.globals, v.id < M.next) :
    (M.getOrInsertGlobal name c.ty).1 = M.next ∧
      (M.getOrInsertGlobal name c.ty).2.setInitializer M.next c =
        { M with globals := M.globals ++ [⟨M.next, name, c.ty, some c⟩], next := M.next + 1 } := by
  have hunique : M.uniqueName name = name := if_pos (.inr h)
  have hnew : M.getOrInsertGlobal name c.ty = M.addGlobal name c.ty none := by
    unfold Module.getOrInsertGlobal
    rw [h]
  rw [hnew]
  refine ⟨rfl, ?_⟩
  unfold Module.setInitializer Module.addGlobal
  have hold : M.globals.map (fun v => if v.id = M.next then { v with init := some c } else v) =
      M.globals := by
    refine (List.map_congr_left fun v hv => ?_).trans (List.map_id _)
    exact if_neg (Nat.ne_of_lt (hbelow v hv))
  simp only [List.map_append, hold, hunique, List.map_cons, List.map_nil, if_pos]

theorem counter_name_inj {s t : String} (h : s ++ "_Counter" = t ++ "_Counter") : s = t := by
  have hlist := congrArg String.toList h
  rw [String.toList_append, String.toList_append] at hlist
  exact String.toList_injective (List.append_cancel_right hlist)

/-! ## The first loop -/

theorem handle_head (F : Func) (fs : List Func) (n : Nat) : handle (F :: fs) n F.id = n := by
  simp [handle]

theorem handle_tail {F : Func} {id : Nat} (h : id ≠ F.id) (fs : List Func) (n : Nat) :
    handle (F :: fs) n id = handle fs (n + 1) id := by
  have hne : F.id ≠ id := fun heq => h heq.symm
  simp [handle, List.idxOf_cons_ne _ hne]
  omega

/-- The module after the loop has gone through `fs`. -/
def countedIn (fs : List Func) (M : Module) : Module :=
  { M with
    globals := M.globals ++ fs.map fun f => counterVar (handle fs M.next f.id) f
    functions := M.functions.map fun f =>
      if f.id ∈ fs.map Func.id then counted (handle fs M.next f.id) f else f
    next := M.next + fs.length }

theorem countedIn_cons {F : Func} {fs : List Func} (hids : ((F :: fs).map Func.id).Nodup)
    (M : Module) :
    countedIn fs ({ M with
        globals := M.globals ++ [counterVar M.next F], next := M.next + 1 }.modifyFunction F.id
          fun fn => fn.insertFirst (increment M.next fn.nextInst)) = countedIn (F :: fs) M := by
  rw [List.map_cons, List.nodup_cons] at hids
  have hne : ∀ f ∈ fs, f.id ≠ F.id := fun f hf heq => hids.1 (heq ▸ List.mem_map_of_mem hf)
  unfold countedIn Module.modifyFunction
  simp only [List.map_cons, List.append_assoc, List.singleton_append, handle_head, List.map_map,
    List.length_cons, Module.mk.injEq, true_and]
  refine ⟨?_, ?_, by omega⟩
  · congr 2
    refine List.map_congr_left fun f hf => ?_
    rw [handle_tail (hne f hf)]
  · refine List.map_congr_left fun f _ => ?_
    by_cases hF : f.id = F.id
    · rw [Function.comp_apply, if_pos hF, if_neg (hF ▸ hids.1), if_pos (hF ▸ List.mem_cons_self ..),
        show handle (F :: fs) M.next f.id = M.next from hF ▸ handle_head F fs M.next]
      rfl
    · rw [Function.comp_apply, if_neg hF, handle_tail hF]
      simp only [List.mem_cons, hF, false_or]

theorem count_eq (fs : List Func) : ∀ (map : List (String × Nat)) (M : Module),
    (fs.map Func.id).Nodup → (fs.map Func.name).Nodup →
    (∀ f ∈ fs, M.getNamedValue (f.name ++ "_Counter") = none) →
    (∀ v ∈ M.globals, v.id < M.next) → (∀ f ∈ fs, ∀ e ∈ map, e.1 ≠ f.name) →
    count fs map M = (countedIn fs M,
      (fs.reverse.map fun f => (f.name, handle fs M.next f.id)) ++ map) := by
  induction fs with
  | nil =>
      intro map M _ _ _ _ _
      unfold countedIn
      simp [count]
  | cons F fs ih =>
      intro map M hids hnames hfree hbelow hmap
      obtain ⟨hg, hset⟩ := assign_free (c := .int 32 0) (hfree F (List.mem_cons_self ..)) hbelow
      change (M.getOrInsertGlobal (F.name ++ "_Counter") (.int 32)).1 = _ at hg
      change (M.getOrInsertGlobal (F.name ++ "_Counter") (.int 32)).2.setInitializer _ _ = _ at hset
      have hcount : count (F :: fs) map M = count fs (insertGlobal map F.name M.next)
          ({ M with globals := M.globals ++ [counterVar M.next F],
                    next := M.next + 1 }.modifyFunction F.id
            fun fn => fn.insertFirst (increment M.next fn.nextInst)) := by
        simp only [count, hg, hset]
        rfl
      have hinsert : insertGlobal map F.name M.next = (F.name, M.next) :: map := by
        unfold insertGlobal
        rw [List.filter_eq_self.mpr fun e he => by simpa using hmap F (List.mem_cons_self ..) e he]
      have hids' := List.nodup_cons.mp hids
      have hnames' := List.nodup_cons.mp hnames
      rw [hcount, hinsert, ih _ _ hids'.2 hnames'.2 ?free ?below ?keys, countedIn_cons hids]
      case free =>
        intro f hf
        have hnew : f.name ≠ F.name := fun heq => hnames'.1 (heq ▸ List.mem_map_of_mem hf)
        obtain ⟨hglobals, hfunctions, haliases⟩ :=
          getNamedValue_none.mp (hfree f (List.mem_cons_of_mem _ hf))
        refine getNamedValue_none.mpr ⟨fun v hv => ?_, fun f' hf' => ?_, haliases⟩
        · rcases List.mem_append.mp hv with hv | hv
          · exact hglobals v hv
          · obtain rfl := List.mem_singleton.mp hv
            exact fun heq => hnew (counter_name_inj heq).symm
        · obtain ⟨f'', hf'', rfl⟩ := List.mem_map.mp hf'
          split
          · exact hfunctions f'' hf''
          · exact hfunctions f'' hf''
      case below =>
        intro v hv
        rcases List.mem_append.mp hv with hv | hv
        · exact Nat.lt_succ_of_lt (hbelow v hv)
        · obtain rfl := List.mem_singleton.mp hv
          exact Nat.lt_succ_self _
      case keys =>
        intro f hf e he
        rcases List.mem_cons.mp he with rfl | he
        · exact fun heq : F.name = f.name => hnames'.1 (heq ▸ List.mem_map_of_mem hf)
        · exact hmap f (List.mem_cons_of_mem _ hf) e he
      congr 1
      rw [List.reverse_cons, List.map_append, List.map_singleton, handle_head, List.append_assoc,
        List.singleton_append]
      congr 1
      refine List.map_congr_left fun f hf => ?_
      have hne : f.id ≠ F.id := fun heq =>
        hids'.1 (heq ▸ List.mem_map_of_mem (List.mem_reverse.mp hf))
      rw [handle_tail hne]
      rfl

/-! ## The second loop -/

theorem print_eq (printf formatStrVar : Nat) (map : List (String × Nat)) :
    ∀ (id : Nat) (M : Module),
    (print printf formatStrVar map id M).1 = { M with
      globals := M.globals ++ (map.zipIdx M.next).map fun e =>
        ⟨e.2, "", (Const.string e.1.1).ty, some (.string e.1.1)⟩
      next := M.next + map.length } ∧
    (print printf formatStrVar map id M).2.1 =
      printing printf formatStrVar ((map.zipIdx M.next).map fun e => (e.1.2, e.2)) id := by
  induction map with
  | nil => exact fun id M => ⟨by simp [print], rfl⟩
  | cons e map ih =>
      intro id M
      obtain ⟨fnName, global⟩ := e
      have hstring : M.createGlobalString fnName = (M.next, { M with
          globals := M.globals ++ [⟨M.next, "", (Const.string fnName).ty, some (.string fnName)⟩]
          next := M.next + 1 }) := by
        unfold Module.createGlobalString Module.addGlobal
        rw [show M.uniqueName "" = "" from if_pos (.inl rfl)]
      obtain ⟨hmodule, hinstrs⟩ := ih (id + 2) (M.createGlobalString fnName).2
      constructor
      · show (print printf formatStrVar map (id + 2) (M.createGlobalString fnName).2).1 = _
        rw [hmodule, hstring]
        simp only [List.zipIdx_cons, List.map_cons, List.append_assoc, List.singleton_append,
          List.length_cons, Module.mk.injEq, true_and]
        omega
      · show _ :: _ ::
          (print printf formatStrVar map (id + 2) (M.createGlobalString fnName).2).2.1 = _
        rw [hinstrs, hstring]
        rfl

/-! ## The pass -/

/-- The first loop touches no name but the counters'. -/
theorem getNamedValue_countedIn (h : Reserved name) (fs : List Func) (M : Module) :
    (countedIn fs M).getNamedValue name = M.getNamedValue name := by
  refine stable_of ?_ (find?_map_function (fun f => ?_) (fun f => ?_) M.functions) rfl
  · unfold countedIn
    rw [List.find?_append, List.find?_eq_none (l := List.map _ fs) |>.mpr fun v hv => ?_,
      Option.or_none]
    obtain ⟨f, -, rfl⟩ := List.mem_map.mp hv
    simpa [counterVar] using counter_ne h.2.2 f.name
  · split <;> rfl
  · split <;> rfl

theorem defined_countedIn (M : Module) :
    (countedIn M.defined M).defined = M.defined.map fun f => counted (counter M f.id) f := by
  show (M.functions.map fun f => if f.id ∈ M.defined.map Func.id then
    counted (handle M.defined M.next f.id) f else f).filter (fun f => !f.fn.isDeclaration) = _
  have hkeeps : ((fun f : Func => !f.fn.isDeclaration) ∘ fun f =>
      if f.id ∈ M.defined.map Func.id then counted (handle M.defined M.next f.id) f else f) =
      fun f => !f.fn.isDeclaration := by
    funext f
    rw [Function.comp_apply]
    split <;> rfl
  rw [List.filter_map, hkeeps]
  refine List.map_congr_left fun f hf => ?_
  exact if_pos (List.mem_map_of_mem (f := Func.id) hf)

theorem handle_inj {fs : List Func} {n : Nat} {f f' : Func} (hids : (fs.map Func.id).Nodup)
    (hf : f ∈ fs) (hf' : f' ∈ fs) (h : handle fs n f.id = handle fs n f'.id) : f = f' := by
  have hidx := Nat.add_left_cancel h
  have hid := (List.idxOf_inj (List.mem_map_of_mem hf)).mp hidx
  exact List.inj_on_of_nodup_map hids hf hf' hid

theorem handle_lt {fs : List Func} {f : Func} (hf : f ∈ fs) (n : Nat) :
    handle fs n f.id < n + fs.length := by
  have hlt := List.idxOf_lt_length_of_mem (List.mem_map_of_mem (f := Func.id) hf)
  rw [List.length_map] at hlt
  exact Nat.add_lt_add_left hlt n

theorem nodup_defined (h : (M.functions.map Func.id).Nodup) : (M.defined.map Func.id).Nodup :=
  (List.filter_sublist.map _).nodup h

/-! ## Handles -/

/-- What new functions and variables have to be for the module to stay tidy. -/
theorem Tidy.grow (h : Tidy M) {p : Func → Func} (hp : ∀ f, (p f).id = f.id)
    (functions : List Func) (globals : List GlobalVariable) (hnext : M.next ≤ M'.next)
    (hfunctions : M'.functions = M.functions.map p ++ functions)
    (hids : (functions.map Func.id).Nodup)
    (hfnew : ∀ f ∈ functions, M.next ≤ f.id ∧ f.id < M'.next)
    (hglobals : M'.globals = M.globals ++ globals)
    (hgids : (globals.map GlobalVariable.id).Nodup)
    (hgnew : ∀ v ∈ globals, M.next ≤ v.id ∧ v.id < M'.next) : Tidy M' where
  ids := by
    have hsame : (M.functions.map p).map Func.id = M.functions.map Func.id := by
      rw [List.map_map]
      exact List.map_congr_left fun f _ => hp f
    rw [hfunctions, List.map_append, hsame, List.nodup_append]
    refine ⟨h.ids, hids, fun a ha b hb => ?_⟩
    obtain ⟨f, hf, rfl⟩ := List.mem_map.mp ha
    obtain ⟨g, hg, rfl⟩ := List.mem_map.mp hb
    exact Nat.ne_of_lt (Nat.lt_of_lt_of_le (h.functions_below f hf) (hfnew g hg).1)
  functions_below := by
    intro f hf
    rw [hfunctions] at hf
    rcases List.mem_append.mp hf with hf | hf
    · obtain ⟨g, hg, rfl⟩ := List.mem_map.mp hf
      rw [hp]
      exact Nat.lt_of_lt_of_le (h.functions_below g hg) hnext
    · exact (hfnew f hf).2
  globals_nodup := by
    rw [hglobals, List.map_append, List.nodup_append]
    refine ⟨h.globals_nodup, hgids, fun a ha b hb => ?_⟩
    obtain ⟨v, hv, rfl⟩ := List.mem_map.mp ha
    obtain ⟨w, hw, rfl⟩ := List.mem_map.mp hb
    exact Nat.ne_of_lt (Nat.lt_of_lt_of_le (h.globals_below v hv) (hgnew w hw).1)
  globals_below := by
    intro v hv
    rw [hglobals] at hv
    rcases List.mem_append.mp hv with hv | hv
    · exact Nat.lt_of_lt_of_le (h.globals_below v hv) hnext
    · exact (hgnew v hv).2

theorem tidy_countedIn (h : Tidy M) : Tidy (countedIn M.defined M) := by
  have hids := nodup_defined h.ids
  refine h.grow (p := fun f => if f.id ∈ M.defined.map Func.id then
    counted (handle M.defined M.next f.id) f else f) (fun f => ?_) [] _ (Nat.le_add_right ..)
    (List.append_nil _).symm List.nodup_nil nofun rfl ?_ fun v hv => ?_
  · split <;> rfl
  · rw [List.map_map]
    refine List.Nodup.map_on (fun f hf f' hf' heq => ?_) (List.Nodup.of_map _ hids)
    exact handle_inj hids hf hf' heq
  · obtain ⟨f, hf, rfl⟩ := List.mem_map.mp hv
    exact ⟨Nat.le_add_right .., handle_lt hf M.next⟩

theorem Tidy.appendToGlobalDtors (h : Tidy M) (fn : Nat) : Tidy (M.appendToGlobalDtors fn) where
  ids := h.ids
  functions_below f hf := Nat.lt_succ_of_lt (h.functions_below f hf)
  globals_nodup := by
    show (List.map GlobalVariable.id (M.globals.eraseP _ ++ [_])).Nodup
    rw [List.map_append, List.nodup_append]
    refine ⟨(List.eraseP_sublist.map _).nodup h.globals_nodup, List.nodup_singleton _,
      fun a ha b hb => ?_⟩
    obtain ⟨v, hv, rfl⟩ := List.mem_map.mp ha
    rw [List.mem_singleton.mp hb]
    exact Nat.ne_of_lt (h.globals_below v (List.mem_of_mem_eraseP hv))
  globals_below := by
    intro v hv
    rcases List.mem_append.mp hv with hv | hv
    · exact Nat.lt_succ_of_lt (h.globals_below v (List.mem_of_mem_eraseP hv))
    · rw [List.mem_singleton.mp hv]
      exact Nat.lt_succ_self _

/-! ## The list of destructors -/

theorem formatStr_ne_globalDtors : "PrintfFormatStr" ≠ globalDtors := by decide

theorem empty_ne_globalDtors : "" ≠ globalDtors := by decide

/-- New variables and functions of other names leave the list alone. -/
theorem dtors_of_grown (new : List GlobalVariable)
    (hfree : DtorsFree M)
    (hglobals : M'.globals = M.globals ++ new) (hnew : ∀ v ∈ new, v.name ≠ globalDtors)
    (hfunctions : ∀ f ∈ M'.functions, f.name = globalDtors →
      ∃ f' ∈ M.functions, f'.name = globalDtors) (haliases : M'.aliases = M.aliases) :
    M'.dtors = M.dtors ∧ DtorsFree M' := by
  obtain ⟨herased, hnone, halias⟩ := getNamedValue_none.mp hfree
  have hnot : ∀ v ∈ new, ¬ (v.name == globalDtors) = true := by simpa using hnew
  constructor
  · unfold Module.dtors Module.getNamedGlobal
    rw [hglobals, List.find?_append, List.find?_eq_none.mpr hnot, Option.or_none]
  · refine getNamedValue_none.mpr ⟨fun v hv => ?_, fun f hf hname => ?_, haliases ▸ halias⟩
    · replace hv : v ∈ M'.globals.eraseP fun v => v.name == globalDtors := hv
      rw [hglobals] at hv
      by_cases hlist : ∃ w ∈ M.globals, (w.name == globalDtors) = true
      · obtain ⟨w, hw, hwname⟩ := hlist
        rw [List.eraseP_append_left (p := fun v => v.name == globalDtors) hwname _ hw] at hv
        rcases List.mem_append.mp hv with hv | hv
        · exact herased v hv
        · exact hnew v hv
      · rw [List.eraseP_append_right _ fun w hw hwname => hlist ⟨w, hw, hwname⟩,
          List.eraseP_of_forall_not hnot] at hv
        rcases List.mem_append.mp hv with hv | hv
        · exact fun hname => hlist ⟨v, hv, by simpa using hname⟩
        · exact hnew v hv
    · obtain ⟨f', hf', hname'⟩ := hfunctions f hf hname
      exact hnone f' hf' hname'

theorem dtors_appended (hfree : DtorsFree M) (fn : Nat) :
    (M.appendToGlobalDtors fn).dtors = M.dtors ++ [fn] := by
  have hname : (M.eraseGlobal globalDtors).uniqueName globalDtors = globalDtors :=
    if_pos (.inr hfree)
  have hnone : (M.eraseGlobal globalDtors).globals.find? (fun v => v.name == globalDtors) = none :=
    List.find?_eq_none.mpr (by simpa using (getNamedValue_none.mp hfree).1)
  unfold Module.appendToGlobalDtors Module.addGlobal
  rw [hname]
  unfold Module.dtors Module.getNamedGlobal
  rw [List.find?_append, hnone, Option.none_or]
  simp

/-- `printf` after it has been asked for. -/
structure Printf (M : Module) (printf : Nat) (M' : Module) : Prop where
  globals : M'.globals = M.globals
  aliases : M'.aliases = M.aliases
  functions : ∃ new, M'.functions = M.functions ++ new ∧ (new.map Func.id).Nodup ∧
    ∀ f ∈ new, M.next ≤ f.id ∧ f.id < M'.next ∧ f.name = "printf" ∧ f.fn.isDeclaration = true
  next : M.next ≤ M'.next
  known : ∃ f ∈ M'.functions, f.id = printf ∧ f.name = "printf" ∧ f.fn.isDeclaration = true

theorem getOrInsertPrintf_spec (hids : (M.functions.map Func.id).Nodup)
    (h : M.getNamedValue "printf" = none ∨
      ∃ f ∈ M.functions, M.getNamedValue "printf" = some (.function f.id) ∧
        f.fn.isDeclaration = true) :
    ∃ printf M', getOrInsertPrintf M = some (printf, M') ∧ Printf M printf M' := by
  unfold getOrInsertPrintf Module.getOrInsertFunction
  rcases h with hnone | ⟨f, hf, hsome, hdecl⟩
  · rw [hnone]
    exact ⟨_, _, rfl, rfl, rfl, ⟨[_], rfl, by simp, by simp [Function.declaration,
      Function.isDeclaration]⟩, Nat.le_succ _, _,
      List.mem_append_right _ (List.mem_singleton_self _),
      rfl, rfl, rfl⟩
  · obtain ⟨f', hf', hid, hname⟩ := getNamedValue_function hsome
    obtain rfl : f' = f := List.inj_on_of_nodup_map hids hf' hf hid
    rw [hsome]
    exact ⟨_, _, rfl, rfl, rfl, ⟨[], by simp, List.nodup_nil, nofun⟩, Nat.le_refl _, f', hf,
      rfl, hname, hdecl⟩

theorem Printf.free {printf : Nat} (h : Printf M printf M') (hname : name ≠ "printf")
    (hfree : M.getNamedValue name = none) : M'.getNamedValue name = none := by
  obtain ⟨hglobals, hfunctions, haliases⟩ := getNamedValue_none.mp hfree
  obtain ⟨new, heq, -, hnew⟩ := h.functions
  refine getNamedValue_none.mpr ⟨h.globals ▸ hglobals, fun f hf => ?_, h.aliases ▸ haliases⟩
  rw [heq] at hf
  rcases List.mem_append.mp hf with hf | hf
  · exact hfunctions f hf
  · exact fun hsame => hname (hsame.symm.trans (hnew f hf).2.2.1)

theorem Printf.tidy {printf : Nat} (h : Printf M printf M') (hM : Tidy M) : Tidy M' := by
  obtain ⟨new, heq, hids, hnew⟩ := h.functions
  refine hM.grow (p := id) (fun _ => rfl) new [] h.next (by rw [heq, List.map_id]) hids
    (fun f hf => ⟨(hnew f hf).1, (hnew f hf).2.1⟩) (by rw [h.globals, List.append_nil])
    List.nodup_nil nofun

theorem setFormatStr_free (h : M.getNamedValue "PrintfFormatStr" = none)
    (hbelow : ∀ v ∈ M.globals, v.id < M.next) (str : String) :
    setFormatStr M str = (M.next, { M with
      globals := M.globals ++
        [⟨M.next, "PrintfFormatStr", (Const.string str).ty, some (.string str)⟩]
      next := M.next + 1 }) := by
  obtain ⟨hg, hset⟩ := assign_free (c := .string str) h hbelow
  have heq : setFormatStr M str =
      ((M.getOrInsertGlobal "PrintfFormatStr" (Const.string str).ty).1,
        (M.getOrInsertGlobal "PrintfFormatStr" (Const.string str).ty).2.setInitializer
          (M.getOrInsertGlobal "PrintfFormatStr" (Const.string str).ty).1 (.string str)) := rfl
  rw [heq, hg, hset]

/-- The print function is made and gets its body. -/
theorem wrapper_eq (hfree : M.getNamedValue "print_wrapper" = none)
    (hbelow : ∀ f ∈ M.functions, f.id < M.next) (printf formatStr : Nat)
    (map : List (String × Nat)) :
    ∃ (M' : Module) (calls : List Inserted),
      ((M.getOrInsertFunction "print_wrapper" [] .void).bind fun w =>
        let id := ((w.2.functions.find? fun f => f.id == w.1).map (·.fn.nextInst)).getD 0
        let p := print printf formatStr map id w.2
        some ((p.1.modifyFunction w.1 fun fn => appendBlock fn p.2.1).appendToGlobalDtors w.1,
          p.2.2.map (Inserted.mk w.1))) = some (M'.appendToGlobalDtors M.next, calls) ∧
      M'.functions = M.functions ++ [wrapper M.next (printing printf formatStr
        ((map.zipIdx (M.next + 1)).map fun e => (e.1.2, e.2)) 0)] ∧
      M'.globals = (M.globals ++ (map.zipIdx (M.next + 1)).map fun e =>
        ⟨e.2, "", (Const.string e.1.1).ty, some (.string e.1.1)⟩) ∧
      M'.next = M.next + 1 + map.length ∧ M'.aliases = M.aliases := by
  have hold : ∀ f ∈ M.functions, f.id ≠ M.next := fun f hf => Nat.ne_of_lt (hbelow f hf)
  have hget : M.getOrInsertFunction "print_wrapper" [] .void = some (M.next, { M with
      functions := M.functions ++ [⟨M.next, "print_wrapper", .declaration [] .void⟩],
      next := M.next + 1 }) := by
    unfold Module.getOrInsertFunction
    rw [hfree]
  have hid : (((M.functions ++ [Func.mk M.next "print_wrapper" (.declaration [] .void)]).find?
      fun f => f.id == M.next).map (·.fn.nextInst)).getD 0 = 0 := by
    rw [List.find?_append, List.find?_eq_none.mpr fun f hf => by simpa using hold f hf]
    simp [Function.declaration]
  obtain ⟨hmodule, hinstrs⟩ := print_eq printf formatStr map 0 { M with
    functions := M.functions ++ [⟨M.next, "print_wrapper", .declaration [] .void⟩]
    next := M.next + 1 }
  rw [hget]
  refine ⟨_, _, rfl, ?_⟩
  simp only [hid, hmodule, hinstrs]
  refine ⟨?_, rfl, rfl, rfl⟩
  show List.map _ (M.functions ++ [_]) = _
  rw [List.map_append, List.map_singleton, if_pos rfl]
  congr 1
  exact (List.map_congr_left fun f hf => if_neg (hold f hf)).trans (List.map_id _)

/-! ## What is made before the list of destructors -/

theorem printf_countedIn (h : M.getNamedValue "printf" = none ∨ ∃ f ∈ M.functions,
      M.getNamedValue "printf" = some (.function f.id) ∧ f.fn.isDeclaration = true) :
    (countedIn M.defined M).getNamedValue "printf" = none ∨
      ∃ f ∈ (countedIn M.defined M).functions,
        (countedIn M.defined M).getNamedValue "printf" = some (.function f.id) ∧
          f.fn.isDeclaration = true := by
  rw [getNamedValue_countedIn reserved_printf M.defined M]
  refine h.imp_right fun ⟨f, hf, hsome, hdecl⟩ => ?_
  refine ⟨_, List.mem_map_of_mem hf, ?_, ?_⟩
  · split
    · exact hsome
    · exact hsome
  · split
    · exact hdecl
    · exact hdecl

def formatVar (n : Nat) : GlobalVariable :=
  ⟨n, "PrintfFormatStr", (Const.string formatStr).ty, some (.string formatStr)⟩

/-- A string for the name of a function. -/
def stringVar (e : (String × Nat) × Nat) : GlobalVariable :=
  ⟨e.2, "", (Const.string e.1.1).ty, some (.string e.1.1)⟩

/-- The module with the format string. -/
def withFormat (M : Module) : Module :=
  { M with globals := M.globals ++ [formatVar M.next], next := M.next + 1 }

theorem tidy_withFormat (h : Tidy M) : Tidy (withFormat M) := by
  refine h.grow (p := id) (fun _ => rfl) [] [formatVar M.next] (Nat.le_succ _)
    (by simp [withFormat]) List.nodup_nil nofun rfl (List.nodup_singleton _) fun v hv => ?_
  rw [List.mem_singleton.mp hv]
  exact ⟨Nat.le_refl _, Nat.lt_succ_self _⟩

theorem withFormat_free (hname : "PrintfFormatStr" ≠ name) (h : M.getNamedValue name = none) :
    (withFormat M).getNamedValue name = none := by
  obtain ⟨hglobals, hfunctions, haliases⟩ := getNamedValue_none.mp h
  refine getNamedValue_none.mpr ⟨fun v hv => ?_, hfunctions, haliases⟩
  rcases List.mem_append.mp hv with hv | hv
  · exact hglobals v hv
  · rw [List.mem_singleton.mp hv]
    exact hname

/-- All is done but for the list of destructors: the counters are there, then
`printf` if it was not, the format string, and the print function with its strings. -/
structure Filled (M M' : Module) (printf formatStr printWrapper : Nat) (map : List (String × Nat))
    (new : List Func) : Prop where
  functions : M'.functions = (countedIn M.defined M).functions ++ new ++
    [wrapper printWrapper (printing printf formatStr
      ((map.zipIdx (printWrapper + 1)).map fun e => (e.1.2, e.2)) 0)]
  declared : ∀ f ∈ new, f.name = "printf" ∧ f.fn.isDeclaration = true
  known : ∃ f ∈ M'.functions, f.id = printf ∧ f.name = "printf" ∧ f.fn.isDeclaration = true
  globals : M'.globals = M.globals ++ (M.defined.map (fun f => counterVar (counter M f.id) f) ++
    formatVar formatStr :: (map.zipIdx (printWrapper + 1)).map stringVar)
  aliases : M'.aliases = M.aliases
  wrapper_new : M.next ≤ printWrapper
  tidy : Tidy M'

/-- The print function and the strings have handles that are new. -/
theorem tidy_wrapper {printWrapper : Nat} {map : List (String × Nat)} {instrs : List (Instr Op)}
    (h : Tidy M) (hnew : M.next = printWrapper)
    (hfunctions : M'.functions = M.functions ++ [wrapper printWrapper instrs])
    (hglobals : M'.globals = M.globals ++ (map.zipIdx (printWrapper + 1)).map stringVar)
    (hnext : M'.next = printWrapper + 1 + map.length) : Tidy M' := by
  have hlt : ∀ e ∈ map.zipIdx (printWrapper + 1), M.next ≤ e.2 ∧ e.2 < M'.next := by
    intro e he
    have hle := List.le_snd_of_mem_zipIdx he
    have hlt := List.snd_lt_add_of_mem_zipIdx he
    omega
  refine h.grow (p := id) (fun _ => rfl) [wrapper printWrapper instrs] _ (by omega)
    (hfunctions.trans (by rw [List.map_id])) (List.nodup_singleton _) ?_ hglobals ?_ ?_
  · intro f hf
    rw [List.mem_singleton.mp hf]
    show M.next ≤ printWrapper ∧ printWrapper < M'.next
    omega
  · rw [List.map_map]
    show (List.map Prod.snd _).Nodup
    rw [List.zipIdx_map_snd]
    exact List.nodup_range'
  · intro v hv
    obtain ⟨e, he, rfl⟩ := List.mem_map.mp hv
    exact hlt e he

/-- The pass, up to the list of destructors. -/
theorem run_filled {arrange : List (String × Nat) → List (String × Nat)} (hM : Countable M)
    (hdef : M.defined ≠ []) : ∃ M' calls printf formatStr printWrapper new,
      run arrange M = some (M'.appendToGlobalDtors printWrapper, calls) ∧
      Filled M M' printf formatStr printWrapper
        (arrange (M.defined.reverse.map fun f => (f.name, counter M f.id))) new := by
  have hcount := count_eq M.defined [] M (nodup_defined hM.ids)
    ((List.filter_sublist.map _).nodup hM.names) hM.counter_free hM.globals_below nofun
  rw [List.append_nil] at hcount
  have hname : ∀ {name}, Reserved name →
      (countedIn M.defined M).getNamedValue name = M.getNamedValue name :=
    fun hres => getNamedValue_countedIn hres M.defined M
  have htidy₁ := tidy_countedIn hM.toTidy
  obtain ⟨printf, M₂, hprintf, hM₂⟩ :=
    getOrInsertPrintf_spec htidy₁.ids (printf_countedIn hM.printf)
  have htidy₂ := hM₂.tidy htidy₁
  have hformat := setFormatStr_free
    (hM₂.free (by decide) ((hname reserved_formatStr).trans hM.format_free)) htidy₂.globals_below
    formatStr
  have hfree := withFormat_free (by decide)
    (hM₂.free (by decide) ((hname reserved_print_wrapper).trans hM.wrapper_free))
  obtain ⟨M₄, calls, hrun, hfunctions, hglobals, hnext, haliases⟩ := wrapper_eq hfree
    (tidy_withFormat htidy₂).functions_below printf M₂.next
    (arrange (M.defined.reverse.map fun f => (f.name, counter M f.id)))
  obtain ⟨new, hnew, -, hdeclared⟩ := hM₂.functions
  refine ⟨M₄, calls, printf, M₂.next, (withFormat M₂).next, new, ?_, {
    functions := hfunctions.trans (by rw [← hnew]; rfl)
    declared := fun f hf => (hdeclared f hf).2.2
    known := ?_
    globals := hglobals.trans ?_
    aliases := haliases.trans hM₂.aliases
    wrapper_new := Nat.le_succ_of_le (Nat.le_trans (Nat.le_add_right ..) hM₂.next)
    tidy := tidy_wrapper (tidy_withFormat htidy₂) rfl hfunctions hglobals hnext }⟩
  · rw [run_eq hdef, hcount, hprintf]
    simp only [Option.bind_some, hformat]
    exact hrun
  · obtain ⟨f, hf, hknown⟩ := hM₂.known
    exact ⟨f, hfunctions ▸ List.mem_append_left _ hf, hknown⟩
  · show M₂.globals ++ [_] ++ _ = _
    rw [hM₂.globals, List.append_assoc]
    exact List.append_assoc ..

section Filled

variable {printf formatStr printWrapper : Nat} {map : List (String × Nat)} {new : List Func}

/-- What has been made has other names than the list of destructors. -/
theorem Filled.dtors (h : Filled M M' printf formatStr printWrapper map new) (hfree : DtorsFree M) :
    M'.dtors = M.dtors ∧ DtorsFree M' := by
  refine dtors_of_grown _ hfree h.globals (fun v hv => ?_) (fun f hf hname => ?_) h.aliases
  · rcases List.mem_append.mp hv with hv | hv
    · obtain ⟨f, -, rfl⟩ := List.mem_map.mp hv
      exact counter_ne_globalDtors f.name
    · rcases List.mem_cons.mp hv with rfl | hv
      · exact formatStr_ne_globalDtors
      · obtain ⟨e, -, rfl⟩ := List.mem_map.mp hv
        exact empty_ne_globalDtors
  · rw [h.functions] at hf
    rcases List.mem_append.mp hf with hf | hf
    · rcases List.mem_append.mp hf with hf | hf
      · obtain ⟨f', hf', rfl⟩ := List.mem_map.mp hf
        refine ⟨f', hf', ?_⟩
        rw [← hname]
        split <;> rfl
      · rw [(h.declared f hf).1] at hname
        exact absurd hname (by decide)
    · rw [List.mem_singleton.mp hf] at hname
      exact absurd hname (by decide : "print_wrapper" ≠ globalDtors)

/-- The list of destructors is made anew, and everything else stays. -/
theorem Filled.instrumented (h : Filled M M' printf formatStr printWrapper map new)
    (hlisted : map.Perm (M.defined.map fun f => (f.name, counter M f.id))) :
    Instrumented M (M'.appendToGlobalDtors printWrapper) printf formatStr printWrapper
      (map.zipIdx (printWrapper + 1)) where
  defined := by
    show M'.functions.filter _ = _
    have hdecl : new.filter (fun f => !f.fn.isDeclaration) = [] :=
      List.filter_eq_nil_iff.mpr fun f hf => by simp [(h.declared f hf).2]
    rw [h.functions, List.filter_append, List.filter_append, hdecl, List.append_nil]
    exact congrArg (· ++ _) (defined_countedIn M)
  listed := by
    rw [List.zipIdx_map_fst]
    exact hlisted
  wrapper_new := h.wrapper_new
  printf_known := h.known
  tidy := h.tidy.appendToGlobalDtors printWrapper
  counters f hf := by
    refine (Relisted.appended printWrapper).mem ?_ (counter_ne_globalDtors f.name)
    rw [h.globals]
    exact List.mem_append_right _ (List.mem_append_left _ (List.mem_map_of_mem hf))
  format := by
    refine ⟨formatVar formatStr, (Relisted.appended printWrapper).mem ?_ formatStr_ne_globalDtors,
      rfl, rfl⟩
    rw [h.globals]
    exact List.mem_append_right _ (List.mem_append_right _ (List.mem_cons_self ..))
  strings e he := by
    refine ⟨stringVar e, (Relisted.appended printWrapper).mem ?_ empty_ne_globalDtors, rfl, rfl⟩
    rw [h.globals]
    exact List.mem_append_right _ (List.mem_append_right _
      (List.mem_cons_of_mem _ (List.mem_map_of_mem he)))
  dtors hfree := by
    obtain ⟨hdtors, hfree'⟩ := h.dtors hfree
    rw [dtors_appended hfree', hdtors]

end Filled

/-- The pass on a module with something to count. -/
theorem run_instrumented {arrange : List (String × Nat) → List (String × Nat)}
    (harrange : ∀ map, (arrange map).Perm map) (hM : Countable M) (hdef : M.defined ≠ []) :
    ∃ M' calls printf formatStr printWrapper entries, run arrange M = some (M', calls) ∧
      Instrumented M M' printf formatStr printWrapper entries := by
  obtain ⟨M', calls, printf, formatStr, printWrapper, new, hrun, h⟩ := run_filled hM hdef
  refine ⟨_, calls, printf, formatStr, printWrapper, _, hrun, h.instrumented ?_⟩
  refine (harrange _).trans ?_
  rw [List.map_reverse]
  exact List.reverse_perm _

end

end LlvmPasses.DynamicCallCounter
