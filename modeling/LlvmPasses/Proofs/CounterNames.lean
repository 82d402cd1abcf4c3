import LlvmPasses.Proofs.CounterForm

/-!
# Counters under names that are taken

Counters are asked for by name. A function gets the variable that has the name
of its counter, if one has it, and a new variable otherwise; so two functions
get the same one if they have the same name. What the program has of its own is
left alone exactly if no variable has a name that the pass asks for, and no two
functions share one.

`leavesAlone_iff` is proved for every module, with names taken or not. To the
left of it is what an observer of the two modules sees: variables have kept
their initializers, no new instruction stores to one of them, and each function
has a counter that no other has. To the right is a condition on the names in
the module before the pass (`NamesFree`).

The counters cannot be described in closed form here, since a name that is
taken by a function or an alias makes the new variable get another name. What
is shown of the first loop is a table of what each function counts in
(`Counters`), by induction over the functions: the name of a counter stands for
the same thing from the round in which it is first asked for until the end,
because the names that are made unique are never names of counters
(`uniqueName_ne_counter`). The stores of the module after the pass are then
those that were there and those of the table (`stored`).

For the direction from what is seen to the names, each way in which a name can
be taken is answered by the conjunct that it breaks. A variable under the name
of the format string or of the list of destructors loses its initializer, one
under the name of a counter gets a store, and two functions of one name share a
counter.
-/

namespace LlvmPasses.DynamicCallCounter

open Ir

/-- The instruction stores to a variable. -/
def StoresTo (i : Instr Op) (g : Nat) : Prop :=
  ∃ isVolatile align v, i.op = .store isVolatile align ∧ i.operands = [v, .global g]

/-- An instruction that was not there before. -/
def Inserts (M M' : Module) (c : Inserted) : Prop := M'.Has c ∧ ¬ M.Has c

/-- A variable that the pass makes a function count in. -/
def CountsIn (M M' : Module) (f : Func) (g : Nat) : Prop :=
  ∃ i, Inserts M M' ⟨f.id, i⟩ ∧ StoresTo i g

/-- The program's own variables are as they were, and every function has a
counter for itself. -/
structure LeavesAlone (M M' : Module) : Prop where
  initializers : ∀ v ∈ M.globals, v ∈ M'.globals
  stores : ∀ c g, Inserts M M' c → StoresTo c.call g → g ∉ M.globals.map GlobalVariable.id
  counted : ∀ f ∈ M.defined, ∃ g, CountsIn M M' f g
  apart : ∀ f ∈ M.defined, ∀ f' ∈ M.defined, f.id ≠ f'.id →
    ∀ g g', CountsIn M M' f g → CountsIn M M' f' g' → g ≠ g'

/-- What has the name of a function's counter. -/
def lookup (M : Module) (F : Func) : Option NamedValue := M.getNamedValue (F.name ++ "_Counter")

/-- No variable has a name that the pass asks for, but one that holds the format
string already, and none lists the destructors; and functions of one name ask for
it in vain. -/
structure NamesFree (M : Module) : Prop where
  counters : ∀ f ∈ M.defined, ∀ id, lookup M f ≠ some (.global id)
  format : ∀ v ∈ M.globals, M.getNamedValue "PrintfFormatStr" = some (.global v.id) →
    v.init = some (.string formatStr)
  dtors : ∀ v ∈ M.globals, v.name ≠ globalDtors
  apart : ∀ f ∈ M.defined, ∀ f' ∈ M.defined, f.id ≠ f'.id → f.name = f'.name → lookup M f ≠ none

/-- Handles of instructions are below the free ones. -/
def FreshInstrs (M : Module) : Prop :=
  ∀ f ∈ M.functions, ∀ k ∈ f.fn.order, ∀ i ∈ (f.fn.block k).instrs, i.id < f.fn.nextInst

section

variable {M M' : Module} {name base : String} {fs : List Func} {map : List (String × Nat)}

/-! ## Names of new variables -/

/-- A name that is made unique ends in a digit or a full stop. -/
theorem uniqueName_last (hempty : base ≠ "") (htaken : M.getNamedValue base ≠ none) :
    ∃ c, (M.uniqueName base).toList.getLast? = some c ∧ (c = '.' ∨ c.isDigit = true) := by
  unfold Module.uniqueName
  rw [if_neg (not_or.mpr ⟨hempty, htaken⟩)]
  dsimp only
  generalize hnames : List.map (fun i => base ++ "." ++ toString (i + 1)) _ = names
  cases hfind : names.find? fun name => (M.getNamedValue name).isNone with
  | none =>
      refine ⟨'.', ?_, .inl rfl⟩
      rw [Option.getD_none, String.toList_append, List.getLast?_append]
      rfl
  | some name =>
      have hmem := List.mem_of_find?_eq_some hfind
      rw [← hnames] at hmem
      obtain ⟨i, -, rfl⟩ := List.mem_map.mp hmem
      rw [Option.getD_some, String.toList_append, String.toList_append, List.getLast?_append]
      cases hlast : (toString (i + 1)).toList.getLast? with
      | none =>
          refine ⟨'.', ?_, .inl rfl⟩
          rw [Option.none_or, List.getLast?_append]
          rfl
      | some c =>
          refine ⟨c, rfl, .inr ?_⟩
          have hdigit := List.mem_of_getLast? hlast
          rw [Nat.toString_eq_repr, Nat.toList_repr] at hdigit
          exact Nat.isDigit_of_mem_toDigits (by decide) (by decide) hdigit

theorem getLast?_counter (fn : String) : (fn ++ "_Counter").toList.getLast? = some 'r' := by
  rw [String.toList_append, List.getLast?_append]
  rfl

/-- A counter whose name is taken gets one that no counter is asked for under. -/
theorem uniqueName_ne_counter {fn fn' : String}
    (h : fn = fn' → M.getNamedValue (fn ++ "_Counter") ≠ none) :
    M.uniqueName (fn ++ "_Counter") ≠ fn' ++ "_Counter" := by
  intro heq
  by_cases hfree : M.getNamedValue (fn ++ "_Counter") = none
  · have hsame : M.uniqueName (fn ++ "_Counter") = fn ++ "_Counter" := if_pos (.inr hfree)
    exact h (counter_name_inj (hsame.symm.trans heq)) hfree
  · have hempty : fn ++ "_Counter" ≠ "" := fun hnil => by
      have hlast := getLast?_counter fn
      rw [hnil] at hlast
      cases hlast
    obtain ⟨c, hlast, hc⟩ := uniqueName_last hempty hfree
    rw [heq, getLast?_counter] at hlast
    cases hlast
    revert hc
    decide

theorem addGlobal_stable_of_ne {ty : Ty} {init : Option Const} (h : M.uniqueName base ≠ name) :
    Stable M (M.addGlobal base ty init).2 name := by
  refine stable_of ?_ rfl rfl
  show ((M.globals ++ [_]).find? _).map _ = _
  rw [List.find?_append]
  have hne : (M.uniqueName base == name) = false := beq_false_of_ne h
  simp [hne]

theorem getNamedValue_addGlobal {ty : Ty} {init : Option Const}
    (h : M.getNamedValue base = none) :
    (M.addGlobal base ty init).2.getNamedValue base = some (.global M.next) := by
  have hunique : M.uniqueName base = base := if_pos (.inr h)
  rw [getNamedValue_global_iff]
  show ((M.globals ++ [_]).find? _).map _ = _
  have hnone : M.globals.find? (fun v => v.name == base) = none :=
    List.find?_eq_none.mpr fun v hv => by simpa using (getNamedValue_none.mp h).1 v hv
  rw [List.find?_append, hnone, Option.none_or, hunique]
  simp

theorem setInitializer_stable (M : Module) (id : Nat) (c : Const) (name : String) :
    Stable M (M.setInitializer id c) name :=
  stable_of (find?_map_update (fun v => by split <;> rfl) (fun v => by split <;> rfl) M.globals)
    rfl rfl

/-! ## The first loop -/

/-- One round of the loop. -/
def counterRound (M : Module) (F : Func) : Nat × Module :=
  let r := M.getOrInsertGlobal (F.name ++ "_Counter") (Const.int 32 0).ty
  (r.1, (r.2.setInitializer r.1 (.int 32 0)).modifyFunction F.id fun fn =>
    fn.insertFirst (increment r.1 fn.nextInst))

/-- The variable that a function gets in its round, and what the names of
counters stand for afterwards. -/
structure Round (M : Module) (F : Func) (g : Nat) (M' : Module) : Prop where
  next : M.next ≤ M'.next
  functions : M'.functions = M.functions.map fun f =>
    if f.id = F.id then DynamicCallCounter.counted g f else f
  known : ∀ id, lookup M F = some (.global id) → g = id
  fresh : (∀ id, lookup M F ≠ some (.global id)) → g = M.next ∧ M'.next = M.next + 1
  lookup : ∀ F', lookup M' F' =
    if lookup M F = none ∧ F'.name = F.name then some (.global M.next) else lookup M F'

theorem round (M : Module) (F : Func) : Round M F (counterRound M F).1 (counterRound M F).2 := by
  have hnames : ∀ (M₁ : Module) g name,
      ((M₁.setInitializer g (.int 32 0)).modifyFunction F.id fun fn =>
      fn.insertFirst (increment g fn.nextInst)).getNamedValue name = M₁.getNamedValue name :=
    fun M₁ g name =>
      Stable.trans (setInitializer_stable M₁ g _ name) (modifyFunction_stable _ F.id _ name)
  unfold counterRound
  by_cases hvar : ∃ g, M.getNamedValue (F.name ++ "_Counter") = some (.global g)
  · obtain ⟨g, hg⟩ := hvar
    have hr : M.getOrInsertGlobal (F.name ++ "_Counter") (Const.int 32 0).ty = (g, M) := by
      unfold Module.getOrInsertGlobal
      rw [hg]
    rw [hr]
    refine ⟨Nat.le_refl _, rfl, fun id hid => ?_, fun hnot => absurd hg (hnot g), fun F' => ?_⟩
    · cases hg.symm.trans hid
      rfl
    · unfold lookup
      rw [hnames, hg, if_neg fun hand => nomatch hand.1]
  · have hr : M.getOrInsertGlobal (F.name ++ "_Counter") (Const.int 32 0).ty =
        M.addGlobal (F.name ++ "_Counter") (Const.int 32 0).ty none := by
      unfold Module.getOrInsertGlobal
      split
      · next g hg => exact absurd ⟨g, hg⟩ hvar
      · rfl
    rw [hr]
    refine ⟨Nat.le_succ _, rfl, fun id hid => absurd ⟨id, hid⟩ hvar, fun _ => ⟨rfl, rfl⟩,
      fun F' => ?_⟩
    unfold lookup
    rw [hnames]
    by_cases hname : F'.name = F.name
    · rw [hname]
      by_cases hnone : M.getNamedValue (F.name ++ "_Counter") = none
      · rw [if_pos ⟨hnone, rfl⟩]
        exact getNamedValue_addGlobal hnone
      · rw [if_neg fun hand => hnone hand.1]
        exact addGlobal_stable_of_ne (uniqueName_ne_counter fun _ => hnone)
    · rw [if_neg fun hand => hname hand.2]
      exact addGlobal_stable_of_ne (uniqueName_ne_counter fun heq => absurd heq.symm hname)

/-- What the loop over `fs` gives each function to count in. -/
structure Counters (M : Module) (fs : List Func) (M' : Module) (g : Nat → Nat) : Prop where
  functions : M'.functions = M.functions.map fun f =>
    if f.id ∈ fs.map Func.id then DynamicCallCounter.counted (g f.id) f else f
  known : ∀ F ∈ fs, ∀ id, lookup M F = some (.global id) → g F.id = id
  fresh : ∀ F ∈ fs, (∀ id, lookup M F ≠ some (.global id)) → M.next ≤ g F.id
  shared : ∀ F ∈ fs, ∀ F' ∈ fs, F.name = F'.name → lookup M F = none → g F.id = g F'.id
  apart : ∀ F ∈ fs, ∀ F' ∈ fs, F.id ≠ F'.id → (∀ id, lookup M F ≠ some (.global id)) →
    (∀ id, lookup M F' ≠ some (.global id)) → (F.name = F'.name → lookup M F ≠ none) →
    g F.id ≠ g F'.id

theorem lookup_congr {F F' : Func} (h : F.name = F'.name) : lookup M F = lookup M F' := by
  unfold lookup
  rw [h]

/-! What the names of counters stand for when the other rounds come. -/

section Cons

variable {F F' F'' : Func} {fs : List Func} {r : Nat} {M₁ : Module} {g : Nat → Nat}

theorem lookup_made (h : Round M F r M₁) (hname : F'.name = F.name)
    (hnone : lookup M F = none) : lookup M₁ F' = some (.global M.next) :=
  (h.lookup F').trans (if_pos ⟨hnone, hname⟩)

theorem lookup_kept (h : Round M F r M₁) (hkeeps : F'.name = F.name → lookup M F ≠ none) :
    lookup M₁ F' = lookup M F' :=
  (h.lookup F').trans (if_neg fun hand => hkeeps hand.2 hand.1)

theorem next_made (h : Round M F r M₁) (hnone : lookup M F = none) :
    r = M.next ∧ M₁.next = M.next + 1 :=
  h.fresh fun id hid => by rw [hnone] at hid; cases hid

/-- A function with no counter yet counts in the one made in the round, when it
has the name that the round was for, or in one that is made later. -/
theorem cases_tail (h : Round M F r M₁) (hg : Counters M₁ fs M' g) (hF' : F' ∈ fs)
    (hnot : ∀ id, lookup M F' ≠ some (.global id)) :
    (F'.name = F.name ∧ lookup M F = none ∧ g F'.id = M.next) ∨
      ((F'.name = F.name → lookup M F ≠ none) ∧ M₁.next ≤ g F'.id) := by
  by_cases hand : F'.name = F.name ∧ lookup M F = none
  · exact .inl ⟨hand.1, hand.2, hg.known F' hF' _ (lookup_made h hand.1 hand.2)⟩
  · have hkeeps : F'.name = F.name → lookup M F ≠ none := fun hname hnone =>
      hand ⟨hname, hnone⟩
    refine .inr ⟨hkeeps, hg.fresh F' hF' fun id => ?_⟩
    rw [lookup_kept h hkeeps]
    exact hnot id

theorem shared_tail (h : Round M F r M₁) (hg : Counters M₁ fs M' g) (hF' : F' ∈ fs)
    (hname : F'.name = F.name) (hnone : lookup M F = none) : g F'.id = r := by
  rw [(next_made h hnone).1]
  exact hg.known F' hF' _ (lookup_made h hname hnone)

theorem apart_tail (h : Round M F r M₁) (hg : Counters M₁ fs M' g) (hF' : F' ∈ fs)
    (hnot : ∀ id, lookup M F ≠ some (.global id)) (hnot' : ∀ id, lookup M F' ≠ some (.global id))
    (hname : F'.name = F.name → lookup M F ≠ none) : r ≠ g F'.id := by
  obtain ⟨hfirst, hnext⟩ := h.fresh hnot
  rcases cases_tail h hg hF' hnot' with ⟨hsame, hnone, -⟩ | ⟨-, hle⟩
  · exact absurd hnone (hname hsame)
  · omega

/-- Two of the other functions count in different variables. -/
theorem tail_apart (h : Round M F r M₁) (hg : Counters M₁ fs M' g) (hF' : F' ∈ fs)
    (hF'' : F'' ∈ fs) (hid : F'.id ≠ F''.id)
    (hnot' : ∀ id, lookup M F' ≠ some (.global id))
    (hnot'' : ∀ id, lookup M F'' ≠ some (.global id))
    (hname : F'.name = F''.name → lookup M F' ≠ none) : g F'.id ≠ g F''.id := by
  rcases cases_tail h hg hF' hnot' with ⟨hsame', hnone, heq'⟩ | ⟨hkeeps', hle'⟩
  · rcases cases_tail h hg hF'' hnot'' with ⟨hsame'', -, -⟩ | ⟨-, hle''⟩
    · exact absurd (lookup_congr hsame' ▸ hnone) (hname (hsame'.trans hsame''.symm))
    · have := (next_made h hnone).2
      omega
  · rcases cases_tail h hg hF'' hnot'' with ⟨-, hnone, heq''⟩ | ⟨hkeeps'', -⟩
    · have := (next_made h hnone).2
      omega
    · have hlookup' := lookup_kept h hkeeps'
      have hlookup'' := lookup_kept h hkeeps''
      refine hg.apart F' hF' F'' hF'' hid ?_ ?_ ?_
      · exact fun id heq => hnot' id (hlookup'.symm.trans heq)
      · exact fun id heq => hnot'' id (hlookup''.symm.trans heq)
      · exact fun heq hnone => hname heq (hlookup'.symm.trans hnone)

/-- The head counts in `r`, and the others where `g` says. -/
def headed (F : Func) (r : Nat) (g : Nat → Nat) (id : Nat) : Nat :=
  if id = F.id then r else g id

theorem headed_head : headed F r g F.id = r := if_pos rfl

theorem headed_tail {id : Nat} (h : id ≠ F.id) : headed F r g id = g id := if_neg h

/-- A round and those of the other functions. -/
theorem Counters.cons (h : Round M F r M₁) (hg : Counters M₁ fs M' g)
    (hids : F.id ∉ fs.map Func.id) : Counters M (F :: fs) M' (headed F r g) := by
  have htail : ∀ F' ∈ fs, headed F r g F'.id = g F'.id := fun F' hF' =>
    headed_tail fun heq => hids (heq ▸ List.mem_map_of_mem hF')
  refine ⟨?_, ?_, ?_, ?_, ?_⟩
  · rw [hg.functions, h.functions, List.map_map]
    refine List.map_congr_left fun f _ => ?_
    by_cases hf : f.id = F.id
    · rw [Function.comp_apply, if_pos hf, if_neg (hf ▸ hids), if_pos (by rw [hf]; simp), hf,
        headed_head]
    · rw [Function.comp_apply, if_neg hf, headed_tail hf]
      simp only [List.map_cons, List.mem_cons, hf, false_or]
  · refine List.forall_mem_cons.mpr ⟨fun id hid => ?_, fun F' hF' id hid => ?_⟩
    · rw [headed_head]
      exact h.known id hid
    · rw [htail F' hF']
      refine hg.known F' hF' id ((lookup_kept h fun hname hnone => ?_).trans hid)
      rw [← lookup_congr hname, hid] at hnone
      cases hnone
  · refine List.forall_mem_cons.mpr ⟨fun hnot => ?_, fun F' hF' hnot => ?_⟩
    · rw [headed_head]
      exact Nat.le_of_eq (h.fresh hnot).1.symm
    · rw [htail F' hF']
      rcases cases_tail h hg hF' hnot with ⟨-, -, heq⟩ | ⟨-, hle⟩
      · exact Nat.le_of_eq heq.symm
      · exact Nat.le_trans h.next hle
  · refine List.forall_mem_cons.mpr ⟨List.forall_mem_cons.mpr ⟨fun _ _ => rfl, ?_⟩,
      fun F' hF' => List.forall_mem_cons.mpr ⟨?_, ?_⟩⟩
    · intro F' hF' hname hnone
      rw [headed_head, htail F' hF', shared_tail h hg hF' hname.symm hnone]
    · intro hname hnone
      rw [headed_head, htail F' hF',
        shared_tail h hg hF' hname ((lookup_congr hname).symm.trans hnone)]
    · intro F'' hF'' hname hnone
      rw [htail F' hF', htail F'' hF'']
      by_cases hsame : F'.name = F.name
      · have hF : lookup M F = none := (lookup_congr hsame).symm.trans hnone
        rw [shared_tail h hg hF' hsame hF, shared_tail h hg hF'' (hname.symm.trans hsame) hF]
      · exact hg.shared F' hF' F'' hF'' hname
          ((lookup_kept h fun heq => absurd heq hsame).trans hnone)
  · refine List.forall_mem_cons.mpr ⟨List.forall_mem_cons.mpr ⟨fun hid => absurd rfl hid, ?_⟩,
      fun F' hF' => List.forall_mem_cons.mpr ⟨?_, ?_⟩⟩
    · intro F' hF' _ hnot hnot' hname
      rw [headed_head, htail F' hF']
      exact apart_tail h hg hF' hnot hnot' fun heq => hname heq.symm
    · intro _ hnot' hnot hname
      rw [headed_head, htail F' hF']
      refine (apart_tail h hg hF' hnot hnot' fun heq => ?_).symm
      rw [← lookup_congr heq]
      exact hname heq
    · intro F'' hF'' hid hnot' hnot'' hname
      rw [htail F' hF', htail F'' hF'']
      exact tail_apart h hg hF' hF'' hid hnot' hnot'' hname

end Cons

theorem count_counters (fs : List Func) : ∀ (map : List (String × Nat)) (M : Module),
    (fs.map Func.id).Nodup → ∃ g, Counters M fs (count fs map M).1 g := by
  induction fs with
  | nil =>
      intro map M _
      exact ⟨fun _ => 0, (List.map_id' M.functions).symm, nofun, nofun, nofun, nofun⟩
  | cons F fs ih =>
      intro map M hids
      rw [List.map_cons, List.nodup_cons] at hids
      have hcount : count (F :: fs) map M =
          count fs (insertGlobal map F.name (counterRound M F).1) (counterRound M F).2 := rfl
      rw [hcount]
      obtain ⟨g, hg⟩ := ih (insertGlobal map F.name (counterRound M F).1) (counterRound M F).2
        hids.2
      exact ⟨_, .cons (round M F) hg hids.1⟩

/-! ## The functions after the pass -/

theorem getOrInsertFunction_functions {params : List Ty} {retTy : Ty} {id : Nat}
    (h : M.getOrInsertFunction name params retTy = some (id, M')) :
    ∃ new, M'.functions = M.functions ++ new ∧ ∀ f ∈ new, f.fn.order = [] := by
  unfold Module.getOrInsertFunction at h
  split at h
  · cases h
    exact ⟨[], (List.append_nil _).symm, nofun⟩
  · cases h
    exact ⟨[_], rfl, fun f hf => List.mem_singleton.mp hf ▸ rfl⟩
  · cases h

/-- The print function stores nothing. -/
theorem print_stores (printf formatStrVar : Nat) (map : List (String × Nat)) :
    ∀ (id : Nat) (M : Module), ∀ i ∈ (print printf formatStrVar map id M).2.1, ∀ g,
      ¬ StoresTo i g := by
  induction map with
  | nil => exact fun id M => List.forall_mem_nil _
  | cons e map ih =>
      intro id M i hi g hstore
      obtain ⟨fnName, global⟩ := e
      rcases List.mem_cons.mp hi with rfl | hi
      · obtain ⟨_, _, _, hop, -⟩ := hstore
        cases hop
      · rcases List.mem_cons.mp hi with rfl | hi
        · obtain ⟨_, _, _, hop, -⟩ := hstore
          cases hop
        · exact ih (id + 2) (M.createGlobalString fnName).2 i hi g hstore

/-- The functions when the pass is done: the counters have been put in, and the
print function has got a block. -/
structure Rewritten (M M' : Module) (g : Nat → Nat) (new : List Func) (printWrapper : Nat)
    (instrs : List (Instr Op)) : Prop where
  functions : M'.functions = (M.functions.map (fun f =>
      if f.id ∈ M.defined.map Func.id then DynamicCallCounter.counted (g f.id) f else f) ++
    new).map fun f => if f.id = printWrapper then { f with fn := appendBlock f.fn instrs } else f
  empty : ∀ f ∈ new, f.fn.order = []
  stores : ∀ i ∈ instrs, ∀ x, ¬ StoresTo i x

theorem setFormatStr_functions (M : Module) (str : String) :
    (setFormatStr M str).2.functions = M.functions := by
  show (M.getOrInsertGlobal "PrintfFormatStr" (Const.string str).ty).2.functions = _
  unfold Module.getOrInsertGlobal
  split <;> rfl

theorem run_rewritten {arrange : List (String × Nat) → List (String × Nat)}
    {calls : List Inserted} (hids : (M.functions.map Func.id).Nodup) (hdef : M.defined ≠ [])
    (h : run arrange M = some (M', calls)) :
    ∃ g M₀ new printWrapper instrs, Counters M M.defined M₀ g ∧
      Rewritten M M' g new printWrapper instrs := by
  obtain ⟨g, hg⟩ := count_counters M.defined [] M (nodup_defined hids)
  rw [run_eq hdef] at h
  generalize count M.defined [] M = r at h hg
  obtain ⟨⟨printf, M₁⟩, hprintf, h⟩ := Option.bind_eq_some_iff.mp h
  obtain ⟨new, hnew, hempty⟩ := getOrInsertFunction_functions hprintf
  have hformat := setFormatStr_functions M₁ formatStr
  simp only at h
  generalize setFormatStr M₁ formatStr = q at h hformat
  obtain ⟨⟨printWrapper, M₂⟩, hwrapper, h⟩ := Option.bind_eq_some_iff.mp h
  obtain ⟨new', hnew', hempty'⟩ := getOrInsertFunction_functions hwrapper
  simp only at h
  generalize Option.getD _ _ = id at h
  have hstores := print_stores printf q.1 (arrange r.2) id M₂
  obtain ⟨-, hfunctions, -⟩ := print_spec printf q.1 (arrange r.2) id M₂
  generalize print printf q.1 (arrange r.2) id M₂ = p at h hstores hfunctions
  cases h
  refine ⟨g, r.1, new ++ new', printWrapper, p.2.1, hg, ⟨?_, fun f hf => ?_, hstores⟩⟩
  · show p.1.functions.map _ = _
    rw [hfunctions, hnew', hformat, hnew, hg.functions, List.append_assoc]
  · exact (List.mem_append.mp hf).elim (hempty f) (hempty' f)

/-! ## The stores -/

theorem mem_insertFirst {F : Function} {new : List (Instr Op)} {k : Nat} {i : Instr Op} :
    i ∈ ((F.insertFirst new).block k).instrs ↔
      i ∈ (F.block k).instrs ∨ (k = F.entry ∧ i ∈ new) := by
  show i ∈ (if k = F.entry then _ else F.block k).instrs ↔ _
  by_cases hk : k = F.entry
  · subst hk
    rw [if_pos rfl]
    show i ∈ (F.block F.entry).phis ++ new ++ (F.block F.entry).body ↔ _
    have hsplit : (F.block F.entry).phis ++ (F.block F.entry).body = (F.block F.entry).instrs :=
      List.takeWhile_append_dropWhile
    rw [← hsplit]
    simp only [List.mem_append, true_and]
    tauto
  · rw [if_neg hk]
    simp [hk]

/-- The store of a function's counter. -/
def storeOf (g : Nat) (F : Func) : Instr Op :=
  ⟨F.fn.nextInst + 2, .void, .store false 4, [.inst (F.fn.nextInst + 1), .global g], [], {}⟩

theorem storesTo_storeOf {g x : Nat} {F : Func} : StoresTo (storeOf g F) x ↔ x = g := by
  constructor
  · rintro ⟨_, _, v, -, hops⟩
    have : [Value.inst (F.fn.nextInst + 1), Value.global g] = [v, .global x] := hops
    simp only [List.cons.injEq, Value.global.injEq, and_true] at this
    exact this.2.symm
  · rintro rfl
    exact ⟨false, 4, _, rfl, rfl⟩

namespace Rewritten

variable {g : Nat → Nat} {new : List Func} {printWrapper x : Nat} {instrs : List (Instr Op)}
variable {F : Func} {i : Instr Op} {id : Nat}

/-- Every store was there, or is that of a counter. -/
theorem stored (h : Rewritten M M' g new printWrapper instrs)
    (hids : (M.functions.map Func.id).Nodup) (hi : M'.Has ⟨id, i⟩) (hstore : StoresTo i x) :
    M.Has ⟨id, i⟩ ∨ ∃ F ∈ M.defined, F.id = id ∧ i = storeOf (g F.id) F := by
  obtain ⟨f, hf, hid, k, hk, hi⟩ := hi
  rw [h.functions] at hf
  obtain ⟨f₀, hf₀, rfl⟩ := List.mem_map.mp hf
  -- it is not in the block of the print function
  obtain ⟨hid₀, hk₀, hi₀⟩ : f₀.id = id ∧ k ∈ f₀.fn.order ∧ i ∈ (f₀.fn.block k).instrs := by
    by_cases hwrapper : f₀.id = printWrapper
    · simp only [if_pos hwrapper] at hid hk hi
      have hi : i ∈ (if k = f₀.fn.nextBlock then _ else f₀.fn.block k).instrs := hi
      by_cases hnext : k = f₀.fn.nextBlock
      · rw [if_pos hnext] at hi
        exact absurd hstore (h.stores i hi x)
      · rw [if_neg hnext] at hi
        rcases List.mem_append.mp hk with hk | hk
        · exact ⟨hid, hk, hi⟩
        · exact absurd (List.mem_singleton.mp hk) hnext
    · simp only [if_neg hwrapper] at hid hk hi
      exact ⟨hid, hk, hi⟩
  rcases List.mem_append.mp hf₀ with hf₀ | hf₀
  · obtain ⟨f₁, hf₁, rfl⟩ := List.mem_map.mp hf₀
    by_cases hdef : f₁.id ∈ M.defined.map Func.id
    · simp only [if_pos hdef] at hid₀ hk₀ hi₀
      obtain ⟨F, hF, hFid⟩ := List.mem_map.mp hdef
      obtain rfl : F = f₁ :=
        List.inj_on_of_nodup_map hids (List.filter_sublist.subset hF) hf₁ hFid
      rcases mem_insertFirst.mp hi₀ with hi₀ | ⟨-, hi₀⟩
      · exact .inl ⟨F, hf₁, hid₀, k, hk₀, hi₀⟩
      · right
        refine ⟨F, hF, hid₀, ?_⟩
        obtain ⟨_, _, _, hop, -⟩ := hstore
        simp only [increment, List.mem_cons, List.not_mem_nil, or_false] at hi₀
        rcases hi₀ with rfl | rfl | rfl
        · cases hop
        · cases hop
        · rfl
    · simp only [if_neg hdef] at hid₀ hk₀ hi₀
      exact .inl ⟨f₁, hf₁, hid₀, k, hk₀, hi₀⟩
  · rw [h.empty f₀ hf₀] at hk₀
    cases hk₀

theorem has_storeOf (h : Rewritten M M' g new printWrapper instrs) (hblocks : M.FreshBlocks)
    (hF : F ∈ M.defined) : M'.Has ⟨F.id, storeOf (g F.id) F⟩ := by
  obtain ⟨hmem, hdecl⟩ := List.mem_filter.mp hF
  have hentry : F.fn.entry ∈ F.fn.order := by
    unfold Function.entry
    cases horder : F.fn.order with
    | nil => simp [Function.isDeclaration, horder] at hdecl
    | cons k ks => exact List.mem_cons_self ..
  have hcounted : storeOf (g F.id) F ∈
      ((DynamicCallCounter.counted (g F.id) F).fn.block F.fn.entry).instrs :=
    mem_insertFirst.mpr (.inr ⟨rfl, by simp [increment, storeOf]⟩)
  refine ⟨_, h.functions ▸ List.mem_map_of_mem (List.mem_append_left _ (List.mem_map_of_mem hmem)),
    ?_⟩
  rw [if_pos (List.mem_map_of_mem (f := Func.id) hF)]
  by_cases hwrapper : (DynamicCallCounter.counted (g F.id) F).id = printWrapper
  · rw [if_pos hwrapper]
    refine ⟨rfl, F.fn.entry, List.mem_append_left _ hentry, ?_⟩
    show storeOf (g F.id) F ∈ (if F.fn.entry = F.fn.nextBlock then _ else _ : Block).instrs
    rw [if_neg (Nat.ne_of_lt (hblocks F hmem _ hentry))]
    exact hcounted
  · rw [if_neg hwrapper]
    exact ⟨rfl, F.fn.entry, hentry, hcounted⟩

theorem countsIn (h : Rewritten M M' g new printWrapper instrs)
    (hids : (M.functions.map Func.id).Nodup) (hblocks : M.FreshBlocks) (hinstrs : FreshInstrs M)
    (hF : F ∈ M.defined) : CountsIn M M' F x ↔ x = g F.id := by
  have hdefids := nodup_defined hids
  constructor
  · rintro ⟨i, ⟨hi, hnew⟩, hstore⟩
    rcases h.stored hids hi hstore with hold | ⟨F', hF', hid, rfl⟩
    · exact absurd hold hnew
    · obtain rfl : F' = F := List.inj_on_of_nodup_map hdefids hF' hF hid
      exact storesTo_storeOf.mp hstore
  · rintro rfl
    refine ⟨storeOf (g F.id) F, ⟨h.has_storeOf hblocks hF, ?_⟩, storesTo_storeOf.mpr rfl⟩
    rintro ⟨f, hf, hid, k, hk, hi⟩
    obtain rfl : f = F := List.inj_on_of_nodup_map hids hf (List.filter_sublist.subset hF) hid
    have hlt : f.fn.nextInst + 2 < f.fn.nextInst := hinstrs f hf k hk _ hi
    omega

end Rewritten

/-! ## The program's own variables -/

/-- The pass leaves what the program has alone exactly if the names that it asks
for are free. -/
theorem leavesAlone_iff {arrange : List (String × Nat) → List (String × Nat)}
    {calls : List Inserted} (hM : Tidy M) (hblocks : M.FreshBlocks) (hinstrs : FreshInstrs M)
    (hrun : run arrange M = some (M', calls)) :
    LeavesAlone M M' ↔ M.defined = [] ∨ NamesFree M := by
  by_cases hdef : M.defined = []
  · have heq : M' = M := by
      unfold run at hrun
      rw [hdef] at hrun
      cases hrun
      rfl
    subst heq
    refine iff_of_true ⟨fun _ hv => hv, fun c g hc => absurd hc.1 hc.2, ?_, ?_⟩ (.inl hdef)
    · rw [hdef]
      nofun
    · rw [hdef]
      nofun
  have hhandled : M.Handled := ⟨hM.globals_nodup, hM.globals_below, hblocks⟩
  have hran := DynamicCallCounter.ran hhandled hdef hrun
  obtain ⟨g, M₀, _, printWrapper, instrs, hg, hrewritten⟩ := run_rewritten hM.ids hdef hrun
  have hcounts : ∀ F ∈ M.defined, ∀ x, CountsIn M M' F x ↔ x = g F.id := fun F hF x =>
    hrewritten.countsIn hM.ids hblocks hinstrs hF
  rw [or_iff_right hdef]
  constructor
  · intro h
    refine ⟨fun f hf id hid => ?_, fun v hv hformat => ?_, fun v hv hname => ?_,
      fun f hf f' hf' hne hname hnone => ?_⟩
    · obtain ⟨v, hv, hvid, -⟩ := getNamedValue_global hid
      obtain ⟨i, hi, hstore⟩ := (hcounts f hf _).mpr rfl
      refine h.stores _ _ hi hstore ?_
      rw [hg.known f hf id hid, ← hvid]
      exact List.mem_map_of_mem hv
    · obtain ⟨v', hv', hid, -, hinit⟩ := hran.after hhandled hv (.inl ⟨hformat, rfl⟩)
      rw [← List.inj_on_of_nodup_map (hran.handled hhandled).nodup hv' (h.initializers v hv) hid]
      exact hinit
    · obtain ⟨set, M₀, hupdates, hlist, -⟩ := hran.updates
      obtain ⟨w, hw⟩ : ∃ w, M.getNamedGlobal globalDtors = some w :=
        Option.isSome_iff_exists.mp (List.find?_isSome.mpr ⟨v, hv, by simpa using hname⟩)
      cases hlist with
      | appended fn =>
          exact erased (hupdates.handled hhandled) (hupdates.getNamedGlobal hw) fn w
            (h.initializers w (List.mem_of_find?_eq_some hw)) rfl
    · exact h.apart f hf f' hf' hne _ _ ((hcounts f hf _).mpr rfl) ((hcounts f' hf' _).mpr rfl)
        (hg.shared f hf f' hf' hname hnone)
  · intro h
    refine ⟨fun v hv => ?_, fun c x hc hstore hx => ?_, fun f hf => ⟨_, (hcounts f hf _).mpr rfl⟩,
      fun f hf f' hf' hne x x' hx hx' => ?_⟩
    · obtain ⟨set, hset, hkept, -⟩ := hran.kept
      have heq : v.update set = v := by
        unfold GlobalVariable.update
        cases hs : set v.id with
        | none => rfl
        | some c =>
            rcases (hset v.id (hM.globals_below v hv) c).mp hs
              with ⟨hformat, rfl⟩ | ⟨-, -, F, hF, hid⟩
            · exact congrArg (fun init => { v with init := init }) (h.format v hv hformat).symm
            · exact absurd hid (h.counters F hF v.id)
      exact heq ▸ hkept v hv (h.dtors v hv)
    · rcases hrewritten.stored hM.ids hc.1 hstore with hold | ⟨F, hF, -, hi⟩
      · exact hc.2 hold
      · rw [hi] at hstore
        obtain rfl := storesTo_storeOf.mp hstore
        obtain ⟨v, hv, hid⟩ := List.mem_map.mp hx
        have hlt := hM.globals_below v hv
        have hle := hg.fresh F hF (h.counters F hF)
        omega
    · rw [(hcounts f hf x).mp hx, (hcounts f' hf' x').mp hx']
      exact hg.apart f hf f' hf' hne (h.counters f hf) (h.counters f' hf') (h.apart f hf f' hf' hne)

end

/-! ### A function beside a variable -/

theorem tidy_beside (name : String) : Tidy (beside name) where
  ids := List.nodup_singleton _
  functions_below := by simp [beside, oneFunction]
  globals_nodup := List.nodup_singleton _
  globals_below := by simp [beside]

theorem freshBlocks_beside (name : String) : (beside name).FreshBlocks := by
  simp [Module.FreshBlocks, beside, oneFunction]

theorem freshInstrs_beside (name : String) : FreshInstrs (beside name) := by
  simp [FreshInstrs, beside, oneFunction]

theorem leavesAlone_beside : ∃ M' calls, run id (beside "n") = some (M', calls) ∧
    LeavesAlone (beside "n") M' := by
  obtain ⟨⟨M', calls⟩, hrun⟩ := Option.isSome_iff_exists.mp
    (show (run id (beside "n")).isSome = true by decide)
  refine ⟨M', calls, hrun, (leavesAlone_iff (tidy_beside _) (freshBlocks_beside _)
    (freshInstrs_beside _) hrun).mpr (.inr ⟨?_, ?_, by decide, ?_⟩)⟩
  · intro f hf id
    obtain rfl := List.mem_singleton.mp hf
    rw [show lookup (beside "n") _ = none by decide]
    nofun
  · intro v _ hformat
    rw [show (beside "n").getNamedValue "PrintfFormatStr" = none by decide] at hformat
    cases hformat
  · intro f hf f' hf' hne
    obtain rfl := List.mem_singleton.mp hf
    obtain rfl := List.mem_singleton.mp hf'
    exact absurd rfl hne

/-- The variable `f_Counter` of the program is taken for the counter of `f`. -/
theorem variable_overwritten :
    ¬ ∀ (arrange : List (String × Nat) → List (String × Nat)) (M M' : Module)
      (calls : List Inserted), Tidy M → M.FreshBlocks → FreshInstrs M →
      run arrange M = some (M', calls) → LeavesAlone M M' := by
  intro h
  obtain ⟨⟨M', calls⟩, hrun⟩ := Option.isSome_iff_exists.mp
    (show (run id (beside "f_Counter")).isSome = true by decide)
  have halone := h id _ M' calls (tidy_beside _) (freshBlocks_beside _) (freshInstrs_beside _) hrun
  have hmem := halone.initializers _ (List.mem_singleton_self _)
  have hglobals : (run id (beside "f_Counter")).map (fun r => decide
      ((⟨1, "f_Counter", .int 32, some (.int 32 7)⟩ : GlobalVariable) ∈ r.1.globals)) =
      some false := by decide
  rw [hrun] at hglobals
  exact of_decide_eq_false (Option.some.inj hglobals) hmem

end LlvmPasses.DynamicCallCounter
