import Mathlib.Data.List.Nodup
import LlvmPasses.Pass.Printf

/-!
# What the printf passes change in a module

Both passes only add variables, functions and instructions, and set the
initializers of variables that they have asked for by name. So a pass is
described by what it sets, among the variables that were there before.

`Updates` is the relation between the module before and the module after, with
a parameter for what has been set: functions have their old instructions in
their old places and perhaps more, variables are there with their names and
types, and the initializer of each is what it was or what `set` says. It
composes, so each operation of the source gets a lemma with what it sets, and a
pass is a chain of these. Functions that are asked for by name may be found or
made; in both cases nothing is set.

Two things about names are needed on the way. Names that the module makes
unique end in a way in which no name that is asked for ends (`Reserved`), so a
variable made under such a name is never found later. And the list of
destructors, which LLVM erases and makes again, is the one variable that may go
away (`Relisted`): what is set is never this one.
-/

namespace LlvmPasses

open Ir

namespace Ir

/-- The initializer has the variable's own type. -/
def GlobalVariable.Typed (v : GlobalVariable) : Prop := ∀ c, v.init = some c → c.ty = v.valueType

def GlobalVariable.update (set : Nat → Option Const) (v : GlobalVariable) : GlobalVariable :=
  { v with init := (set v.id).orElse fun _ => v.init }

/-- The handles of blocks are below the free ones. -/
def Module.FreshBlocks (M : Module) : Prop :=
  ∀ f ∈ M.functions, ∀ k ∈ f.fn.order, k < f.fn.nextBlock

/-- Every variable has a handle of its own. -/
structure Module.Handled (M : Module) : Prop where
  nodup : (M.globals.map GlobalVariable.id).Nodup
  below : ∀ v ∈ M.globals, v.id < M.next
  blocks : M.FreshBlocks

/-- The call is where it was inserted. -/
def Module.Has (M : Module) (c : Inserted) : Prop :=
  ∃ f ∈ M.functions, f.id = c.parent ∧ ∃ k ∈ f.fn.order, c.call ∈ (f.fn.block k).instrs

end Ir

/-- The module has grown, and among the variables that were there what `set`
says has been set. -/
structure Updates (M M' : Module) (set : Nat → Option Const) : Prop where
  next : M.next ≤ M'.next
  globals : ∃ new, M'.globals = M.globals.map (GlobalVariable.update set) ++ new ∧
    (new.map GlobalVariable.id).Nodup ∧ ∀ v ∈ new, M.next ≤ v.id ∧ v.id < M'.next ∧ v.Typed
  calls : ∀ c, M.Has c → M'.Has c
  blocks : M.FreshBlocks → M'.FreshBlocks

/-- What a pass does last: DynamicCallCounter makes the list of destructors anew. -/
inductive Relisted (M : Module) : PrintfPass → Module → Prop
  | kept : Relisted M .injectFuncCall M
  | appended (fn : Nat) : Relisted M .dynamicCallCounter (M.appendToGlobalDtors fn)

/-- Names that only belong to what has been asked for under them. -/
def Reserved (name : String) : Prop :=
  name ≠ "" ∧ '.' ∉ name.toList ∧ ¬ "_Counter".toList <:+ name.toList

instance (name : String) : Decidable (Reserved name) := inferInstanceAs (Decidable (_ ∧ _))

/-- The name stands for what it stood for. -/
def Stable (M M' : Module) (name : String) : Prop := M'.getNamedValue name = M.getNamedValue name

section

variable {M M' M'' : Module} {set set' : Nat → Option Const} {name : String} {c : Const} {g : Nat}
variable {v : GlobalVariable} {p : PrintfPass}

/-! ## Composition -/

theorem GlobalVariable.update_none (v : GlobalVariable) : v.update (fun _ => none) = v := rfl

theorem Updates.refl (M : Module) : Updates M M fun _ => none where
  next := Nat.le_refl _
  globals := ⟨[], by simp [funext GlobalVariable.update_none], List.nodup_nil, nofun⟩
  calls := fun _ h => h
  blocks := id

theorem Updates.handled (h : Updates M M' set) (hM : M.Handled) : M'.Handled := by
  obtain ⟨new, hvars, hnodup, hnew⟩ := h.globals
  have hids : (M.globals.map (GlobalVariable.update set)).map GlobalVariable.id =
      M.globals.map GlobalVariable.id := by
    rw [List.map_map]
    rfl
  constructor
  · rw [hvars, List.map_append, hids, List.nodup_append]
    refine ⟨hM.nodup, hnodup, fun a ha b hb => ?_⟩
    obtain ⟨v, hv, rfl⟩ := List.mem_map.mp ha
    obtain ⟨w, hw, rfl⟩ := List.mem_map.mp hb
    exact Nat.ne_of_lt (Nat.lt_of_lt_of_le (hM.below v hv) (hnew w hw).1)
  rotate_left
  · exact h.blocks hM.blocks
  · intro v hv
    rw [hvars] at hv
    rcases List.mem_append.mp hv with hv | hv
    · obtain ⟨w, hw, rfl⟩ := List.mem_map.mp hv
      exact Nat.lt_of_lt_of_le (hM.below w hw) h.next
    · exact (hnew v hv).2.1

/-- What has come to be is set to nothing of another type afterwards. -/
theorem Updates.trans (h : Updates M M' set) (h' : Updates M' M'' set')
    (hnew : ∀ v ∈ M'.globals, M.next ≤ v.id → ∀ c, set' v.id = some c → c.ty = v.valueType) :
    Updates M M'' fun id => (set' id).orElse fun _ => set id where
  next := Nat.le_trans h.next h'.next
  globals := by
    obtain ⟨new, hvars, hnodup, hall⟩ := h.globals
    obtain ⟨new', hvars', hnodup', hall'⟩ := h'.globals
    refine ⟨new.map (GlobalVariable.update set') ++ new', ?_, ?_, fun v hv => ?_⟩
    · rw [hvars', hvars, List.map_append, List.append_assoc, List.map_map]
      congr 1
      refine List.map_congr_left fun v _ => ?_
      cases hs : set' v.id <;> simp [GlobalVariable.update, hs]
    · rw [List.map_append, List.nodup_append, List.map_map]
      refine ⟨hnodup, hnodup', fun a ha b hb => ?_⟩
      obtain ⟨v, hv, rfl⟩ := List.mem_map.mp ha
      obtain ⟨w, hw, rfl⟩ := List.mem_map.mp hb
      exact Nat.ne_of_lt (Nat.lt_of_lt_of_le (hall v hv).2.1 (hall' w hw).1)
    · rcases List.mem_append.mp hv with hv | hv
      · obtain ⟨w, hw, rfl⟩ := List.mem_map.mp hv
        obtain ⟨hle, hlt, htyped⟩ := hall w hw
        refine ⟨hle, Nat.lt_of_lt_of_le hlt h'.next, fun c hc => ?_⟩
        have hmem : w ∈ M'.globals := by
          rw [hvars]
          exact List.mem_append_right _ hw
        cases hs : set' w.id with
        | none =>
            unfold GlobalVariable.update at hc
            rw [hs] at hc
            exact htyped c hc
        | some d =>
            unfold GlobalVariable.update at hc
            rw [hs] at hc
            cases hc
            exact hnew w hmem hle c hs
      · exact ⟨Nat.le_trans h.next (hall' v hv).1, (hall' v hv).2⟩
  calls := fun c hc => h'.calls c (h.calls c hc)
  blocks := h'.blocks ∘ h.blocks

/-- The second step sets nothing. -/
theorem Updates.trans_none (h : Updates M M' set) (h' : Updates M' M'' fun _ => none) :
    Updates M M'' set := h.trans h' nofun

/-- The first step sets nothing, and the second nothing that is new. -/
theorem Updates.none_trans (h : Updates M M' fun _ => none) (h' : Updates M' M'' set')
    (hnew : ∀ v ∈ M'.globals, M.next ≤ v.id → ∀ c, set' v.id = some c → c.ty = v.valueType) :
    Updates M M'' set' := by
  have := h.trans h' hnew
  simpa using this

/-! ## Names -/

theorem uniqueName_eq_or (M : Module) (base : String) :
    M.uniqueName base = base ∨ '.' ∈ (M.uniqueName base).toList := by
  unfold Module.uniqueName
  by_cases hfree : base = "" ∨ M.getNamedValue base = none
  · rw [if_pos hfree]
    exact .inl rfl
  · rw [if_neg hfree]
    right
    dsimp only
    generalize hnames : List.map (fun i => base ++ "." ++ toString (i + 1)) _ = names
    cases hfind : names.find? fun name => (M.getNamedValue name).isNone with
    | none =>
        rw [Option.getD_none, String.toList_append]
        exact List.mem_append_right _ (by decide)
    | some name =>
        have hmem := List.mem_of_find?_eq_some hfind
        rw [← hnames] at hmem
        obtain ⟨i, -, rfl⟩ := List.mem_map.mp hmem
        rw [Option.getD_some, String.toList_append, String.toList_append]
        exact List.mem_append_left _ (List.mem_append_right _ (by decide))

theorem uniqueName_prefix (M : Module) (base : String) :
    base.toList <+: (M.uniqueName base).toList := by
  unfold Module.uniqueName
  by_cases hfree : base = "" ∨ M.getNamedValue base = none
  · exact ⟨[], by rw [List.append_nil, if_pos hfree]⟩
  · rw [if_neg hfree]
    dsimp only
    generalize hnames : List.map (fun i => base ++ "." ++ toString (i + 1)) _ = names
    cases hfind : names.find? fun name => (M.getNamedValue name).isNone with
    | none =>
        rw [Option.getD_none, String.toList_append]
        exact List.prefix_append _ _
    | some name =>
        have hmem := List.mem_of_find?_eq_some hfind
        rw [← hnames] at hmem
        obtain ⟨i, -, rfl⟩ := List.mem_map.mp hmem
        rw [Option.getD_some, String.toList_append, String.toList_append, List.append_assoc]
        exact List.prefix_append _ _

theorem Reserved.uniqueName_ne (h : Reserved name) {base : String} (hbase : base ≠ name) :
    M.uniqueName base ≠ name := by
  intro heq
  rcases uniqueName_eq_or M base with hsame | hdot
  · exact hbase (hsame.symm.trans heq)
  · rw [heq] at hdot
    exact h.2.1 hdot

theorem counter_ne (h : ¬ "_Counter".toList <:+ name.toList) (fn : String) :
    fn ++ "_Counter" ≠ name := by
  rintro rfl
  refine h ?_
  rw [String.toList_append]
  exact List.suffix_append _ _

theorem counter_ne_globalDtors (fn : String) : fn ++ "_Counter" ≠ globalDtors :=
  counter_ne (by decide) fn

theorem getNamedValue_global_iff {id : Nat} : M.getNamedValue name = some (.global id) ↔
    (M.globals.find? fun v => v.name == name).map GlobalVariable.id = some id := by
  unfold Module.getNamedValue
  cases M.globals.find? fun v => v.name == name with
  | some v => simp
  | none =>
      cases M.functions.find? fun f => f.name == name with
      | some f => simp
      | none => cases M.aliases.contains name <;> simp

/-- A name that stands for a variable is that variable's. -/
theorem getNamedValue_global {id : Nat} (h : M.getNamedValue name = some (.global id)) :
    ∃ v ∈ M.globals, v.id = id ∧ v.name = name := by
  obtain ⟨v, hv, hid⟩ := Option.map_eq_some_iff.mp (getNamedValue_global_iff.mp h)
  exact ⟨v, List.mem_of_find?_eq_some hv, hid, by simpa using List.find?_some hv⟩

theorem getNamedValue_function {id : Nat} (h : M.getNamedValue name = some (.function id)) :
    ∃ f ∈ M.functions, f.id = id ∧ f.name = name := by
  unfold Module.getNamedValue at h
  cases hv : M.globals.find? fun v => v.name == name with
  | some v =>
      rw [hv] at h
      cases h
  | none =>
      rw [hv] at h
      cases hf : M.functions.find? fun f => f.name == name with
      | some f =>
          simp only [hf] at h
          cases h
          exact ⟨f, List.mem_of_find?_eq_some hf, rfl, by simpa using List.find?_some hf⟩
      | none =>
          simp only [hf] at h
          split at h <;> cases h

theorem find?_map_update {p : GlobalVariable → GlobalVariable} (hname : ∀ v, (p v).name = v.name)
    (hid : ∀ v, (p v).id = v.id) (vs : List GlobalVariable) :
    ((vs.map p).find? fun v => v.name == name).map GlobalVariable.id =
      (vs.find? fun v => v.name == name).map GlobalVariable.id := by
  induction vs with
  | nil => rfl
  | cons v vs ih =>
      rw [List.map_cons, List.find?_cons, List.find?_cons, hname]
      cases v.name == name with
      | true => simp [hid]
      | false => exact ih

/-- What the names in two modules stand for, if they have the same names. -/
theorem stable_of (hglobals : (M'.globals.find? fun v => v.name == name).map GlobalVariable.id =
      (M.globals.find? fun v => v.name == name).map GlobalVariable.id)
    (hfunctions : (M'.functions.find? fun f => f.name == name).map Func.id =
      (M.functions.find? fun f => f.name == name).map Func.id)
    (haliases : M'.aliases = M.aliases) : Stable M M' name := by
  unfold Stable Module.getNamedValue
  rw [haliases]
  cases hv : M.globals.find? fun v => v.name == name with
  | some v =>
      rw [hv] at hglobals
      obtain ⟨v', hv', hid⟩ := Option.map_eq_some_iff.mp hglobals
      rw [hv']
      simp only [hid]
  | none =>
      rw [hv] at hglobals
      rw [Option.map_eq_none_iff.mp hglobals]
      cases hf : M.functions.find? fun f => f.name == name with
      | some f =>
          rw [hf] at hfunctions
          obtain ⟨f', hf', hid⟩ := Option.map_eq_some_iff.mp hfunctions
          simp only [hf', hid]
      | none =>
          rw [hf] at hfunctions
          simp only [Option.map_eq_none_iff.mp hfunctions]

theorem Stable.trans (h : Stable M M' name) (h' : Stable M' M'' name) : Stable M M'' name :=
  Eq.trans h' h

/-! ## The operations -/

theorem addGlobal_updates (M : Module) (name : String) {ty : Ty} {init : Option Const}
    (h : ∀ c, init = some c → c.ty = ty) :
    Updates M (M.addGlobal name ty init).2 fun _ => none where
  next := Nat.le_succ _
  globals := ⟨[⟨M.next, M.uniqueName name, ty, init⟩],
    by simp [Module.addGlobal, funext GlobalVariable.update_none], by simp, fun v hv => by
      obtain rfl := List.mem_singleton.mp hv
      exact ⟨Nat.le_refl _, Nat.lt_succ_self _, h⟩⟩
  calls := fun _ hc => hc
  blocks := id

theorem createGlobalString_updates (M : Module) (str : String) :
    Updates M (M.createGlobalString str).2 fun _ => none :=
  addGlobal_updates M "" fun c hc => by
    cases hc
    rfl

/-- A function is changed and keeps its instructions. -/
theorem modifyFunction_updates {id : Nat} {p : Function → Function}
    (h : ∀ f ∈ M.functions, ∀ k ∈ f.fn.order, ∀ i ∈ (f.fn.block k).instrs,
      k ∈ (p f.fn).order ∧ i ∈ ((p f.fn).block k).instrs)
    (hblocks : ∀ f ∈ M.functions, (∀ k ∈ f.fn.order, k < f.fn.nextBlock) →
      ∀ k ∈ (p f.fn).order, k < (p f.fn).nextBlock) :
    Updates M (M.modifyFunction id p) fun _ => none where
  next := Nat.le_refl _
  globals := ⟨[], by simp [Module.modifyFunction, funext GlobalVariable.update_none],
    List.nodup_nil, nofun⟩
  calls := by
    rintro c ⟨f, hf, hid, k, hk, hc⟩
    refine ⟨_, List.mem_map_of_mem hf, ?_⟩
    by_cases hfid : f.id = id
    · rw [if_pos hfid]
      exact ⟨hid, k, h f hf k hk c.call hc⟩
    · rw [if_neg hfid]
      exact ⟨hid, k, hk, hc⟩
  blocks := by
    intro hM f hf
    obtain ⟨g, hg, rfl⟩ := List.mem_map.mp hf
    by_cases hid : g.id = id
    · rw [if_pos hid]
      exact hblocks g hg (hM g hg)
    · rw [if_neg hid]
      exact hM g hg

theorem find?_map_function {p : Func → Func} (hname : ∀ f, (p f).name = f.name)
    (hid : ∀ f, (p f).id = f.id) (fs : List Func) :
    ((fs.map p).find? fun f => f.name == name).map Func.id =
      (fs.find? fun f => f.name == name).map Func.id := by
  induction fs with
  | nil => rfl
  | cons f fs ih =>
      rw [List.map_cons, List.find?_cons, List.find?_cons, hname]
      cases f.name == name with
      | true => simp [hid]
      | false => exact ih

theorem modifyFunction_stable (M : Module) (id : Nat) (p : Function → Function) (name : String) :
    Stable M (M.modifyFunction id p) name :=
  stable_of rfl
    (find?_map_function (fun f => by split <;> rfl) (fun f => by split <;> rfl) M.functions) rfl

theorem getOrInsertFunction_spec {params : List Ty} {retTy : Ty} {id : Nat}
    (h : M.getOrInsertFunction name params retTy = some (id, M')) :
    Updates M M' (fun _ => none) ∧ M'.globals = M.globals ∧
      (∀ name', name' ≠ name → Stable M M' name') ∧ ∃ f ∈ M'.functions, f.id = id := by
  unfold Module.getOrInsertFunction at h
  cases hv : M.getNamedValue name with
  | none =>
      rw [hv] at h
      cases h
      refine ⟨⟨Nat.le_succ _, ⟨[], by simp [funext GlobalVariable.update_none], List.nodup_nil,
        nofun⟩, ?_, ?_⟩, rfl, fun name' hne => stable_of rfl ?_ rfl, _,
        List.mem_append_right _ (List.mem_singleton_self _), rfl⟩
      · rintro c ⟨f, hf, hc⟩
        exact ⟨f, List.mem_append_left _ hf, hc⟩
      · intro hM f hf k hk
        rcases List.mem_append.mp hf with hf | hf
        · exact hM f hf k hk
        · obtain rfl := List.mem_singleton.mp hf
          cases hk
      · rw [List.find?_append]
        have hne : (name == name') = false := beq_false_of_ne fun heq => hne heq.symm
        simp [hne]
  | some w =>
      rw [hv] at h
      cases w with
      | function f =>
          cases h
          obtain ⟨g, hg, hid, -⟩ := getNamedValue_function hv
          exact ⟨.refl M, rfl, fun _ _ => rfl, g, hg, hid⟩
      | global g => cases h
      | indirect => cases h

/-- Nothing has the name, or a function. -/
def Callable (M : Module) (name : String) : Prop :=
  M.getNamedValue name = none ∨ ∃ f, M.getNamedValue name = some (.function f)

theorem getOrInsertFunction_callable (params : List Ty) (retTy : Ty) :
    (∃ r, M.getOrInsertFunction name params retTy = some r) ↔ Callable M name := by
  unfold Module.getOrInsertFunction Callable
  cases M.getNamedValue name with
  | none => simp
  | some w => cases w <;> simp

/-- What asking for a variable and setting its initializer sets. -/
def assigned (M : Module) (name : String) (c : Const) (id : Nat) : Option Const :=
  if M.getNamedValue name = some (.global id) then some c else none

theorem getNamedValue_old (h : Updates M M' set) {id : Nat} (hid : id < M.next) :
    M'.getNamedValue name = some (.global id) ↔ M.getNamedValue name = some (.global id) := by
  obtain ⟨new, hglobals, -, hnew⟩ := h.globals
  rw [getNamedValue_global_iff, getNamedValue_global_iff, hglobals, List.find?_append,
    ← find?_map_update (p := GlobalVariable.update set) (fun _ => rfl) (fun _ => rfl) M.globals]
  cases (M.globals.map (GlobalVariable.update set)).find? fun v => v.name == name with
  | some v => rfl
  | none =>
      rw [Option.none_or, Option.map_none]
      refine iff_of_false (fun hsome => ?_) nofun
      obtain ⟨v, hv, rfl⟩ := Option.map_eq_some_iff.mp hsome
      exact absurd hid (Nat.not_lt.mpr (hnew v (List.mem_of_find?_eq_some hv)).1)

/-- A variable is asked for under a name and given an initializer. -/
structure Assigned (M : Module) (name : String) (c : Const) (g : Nat) (M' : Module) : Prop where
  updates : Updates M M' (assigned M name c)
  init : ∃ v ∈ M'.globals, v.id = g ∧ name.toList <+: v.name.toList ∧ v.init = some c
  stable : ∀ name', Reserved name' → name ≠ name' → Stable M M' name'
  /-- What has come to be, if anything, is of the type asked for. -/
  fresh : ∀ v ∈ M'.globals, M.next ≤ v.id → v.valueType = c.ty

/-- A variable that is there gets the initializer. -/
theorem assigned_of_found (hM : M.Handled) {g : Nat} (hg : M.getNamedValue name = some (.global g))
    (c : Const) : Assigned M name c g (M.setInitializer g c) := by
  have hset : (M.setInitializer g c).globals =
      M.globals.map (GlobalVariable.update (assigned M name c)) := by
    refine List.map_congr_left fun v _ => ?_
    unfold GlobalVariable.update assigned
    rw [hg]
    by_cases hv : v.id = g
    · simp [hv]
    · have hne : g ≠ v.id := fun heq => hv heq.symm
      simp [hv, hne]
  refine ⟨⟨Nat.le_refl _, ⟨[], by rw [hset, List.append_nil], List.nodup_nil, nofun⟩,
    fun _ hc => hc, id⟩, ?_, fun name' _ _ => ?_, fun v hv hle => ?_⟩
  · obtain ⟨v, hv, hid, hname⟩ := getNamedValue_global hg
    refine ⟨_, List.mem_map_of_mem hv, ?_⟩
    rw [if_pos hid]
    exact ⟨hid, hname ▸ List.prefix_rfl, rfl⟩
  · refine stable_of ?_ rfl rfl
    rw [hset]
    exact find?_map_update (p := GlobalVariable.update (assigned M name c)) (fun _ => rfl)
      (fun _ => rfl) M.globals
  · rw [hset] at hv
    obtain ⟨w, hw, rfl⟩ := List.mem_map.mp hv
    exact absurd (hM.below w hw) (Nat.not_lt.mpr hle)

/-- A variable that is made comes last, and no other is touched. -/
theorem assigned_of_made (hM : M.Handled) (hvar : ¬ ∃ g, M.getNamedValue name = some (.global g))
    (c : Const) : Assigned M name c M.next
      ((M.addGlobal name c.ty none).2.setInitializer M.next c) := by
  have hset : ((M.addGlobal name c.ty none).2.setInitializer M.next c).globals =
      M.globals ++ [⟨M.next, M.uniqueName name, c.ty, some c⟩] := by
    show List.map _ (M.globals ++ [_]) = _
    rw [List.map_append, List.map_singleton, if_pos rfl]
    congr 1
    refine (List.map_congr_left fun v hv => ?_).trans (List.map_id _)
    exact if_neg (Nat.ne_of_lt (hM.below v hv))
  have hnone : assigned M name c = fun _ => none := by
    funext id
    exact if_neg fun hid => hvar ⟨id, hid⟩
  have hnew : ∀ v ∈ M.globals ++ [⟨M.next, M.uniqueName name, c.ty, some c⟩],
      M.next ≤ v.id → v = ⟨M.next, M.uniqueName name, c.ty, some c⟩ := by
    intro v hv hle
    rcases List.mem_append.mp hv with hv | hv
    · exact absurd (hM.below v hv) (Nat.not_lt.mpr hle)
    · exact List.mem_singleton.mp hv
  refine ⟨⟨Nat.le_succ _, ⟨[⟨M.next, M.uniqueName name, c.ty, some c⟩], ?_, by simp,
    fun v hv => ?_⟩, fun _ hc => hc, id⟩, ?_, fun name' hname' hne => ?_, fun v hv hle => ?_⟩
  · rw [hnone, funext GlobalVariable.update_none, List.map_id']
    exact hset
  · obtain rfl := List.mem_singleton.mp hv
    refine ⟨Nat.le_refl _, Nat.lt_succ_self _, fun d hd => ?_⟩
    cases hd
    rfl
  · refine ⟨⟨M.next, M.uniqueName name, c.ty, some c⟩, ?_, rfl, uniqueName_prefix M name, rfl⟩
    rw [hset]
    exact List.mem_append_right _ (List.mem_singleton_self _)
  · refine stable_of ?_ rfl rfl
    rw [hset, List.find?_append]
    have hne' : (M.uniqueName name == name') = false := beq_false_of_ne (hname'.uniqueName_ne hne)
    simp [hne']
  · rw [hset] at hv
    rw [hnew v hv hle]

theorem assigned_getOrInsertGlobal (hM : M.Handled) (name : String) (c : Const) :
    Assigned M name c (M.getOrInsertGlobal name c.ty).1
      ((M.getOrInsertGlobal name c.ty).2.setInitializer (M.getOrInsertGlobal name c.ty).1 c) := by
  by_cases hvar : ∃ g, M.getNamedValue name = some (.global g)
  · obtain ⟨g, hg⟩ := hvar
    have heq : M.getOrInsertGlobal name c.ty = (g, M) := by
      unfold Module.getOrInsertGlobal
      rw [hg]
    rw [heq]
    exact assigned_of_found hM hg c
  · have heq : M.getOrInsertGlobal name c.ty = M.addGlobal name c.ty none := by
      unfold Module.getOrInsertGlobal
      split
      · next g hg => exact absurd ⟨g, hg⟩ hvar
      · rfl
    rw [heq]
    exact assigned_of_made hM hvar c

/-! ## The list of destructors -/

/-- Nothing is erased that has another name. -/
theorem Relisted.mem (h : Relisted M p M') (hv : v ∈ M.globals) (hname : v.name ≠ globalDtors) :
    v ∈ M'.globals := by
  cases h with
  | kept => exact hv
  | appended fn =>
      refine List.mem_append_left _ ((List.mem_eraseP_of_neg ?_).mpr hv)
      simpa using hname

theorem Relisted.cases (h : Relisted M p M') (hv : v ∈ M'.globals) :
    v ∈ M.globals ∨ v.id = M.next ∧ v.Typed := by
  cases h with
  | kept => exact .inl hv
  | appended fn =>
      rcases List.mem_append.mp hv with hv | hv
      · exact .inl (List.mem_of_mem_eraseP hv)
      · obtain rfl := List.mem_singleton.mp hv
        exact .inr ⟨rfl, fun c hc => by cases hc; rfl⟩

theorem Relisted.next (h : Relisted M p M') : M.next ≤ M'.next := by
  cases h with
  | kept => exact Nat.le_refl _
  | appended fn => exact Nat.le_succ _

theorem Relisted.functions (h : Relisted M p M') : M'.functions = M.functions := by
  cases h <;> rfl

theorem Relisted.calls (h : Relisted M p M') {c : Inserted} (hc : M.Has c) : M'.Has c := by
  unfold Module.Has
  rwa [h.functions]

theorem Relisted.handled (h : Relisted M p M') (hM : M.Handled) : M'.Handled := by
  cases h with
  | kept => exact hM
  | appended fn =>
      refine ⟨?_, fun v hv => ?_, hM.blocks⟩
      · show (List.map GlobalVariable.id (M.globals.eraseP _ ++ [_])).Nodup
        rw [List.map_append, List.nodup_append]
        refine ⟨(List.eraseP_sublist.map _).nodup hM.nodup, List.nodup_singleton _,
          fun a ha b hb => ?_⟩
        obtain ⟨v, hv, rfl⟩ := List.mem_map.mp ha
        rw [List.mem_singleton.mp hb]
        exact Nat.ne_of_lt (hM.below v (List.mem_of_mem_eraseP hv))
      · rcases List.mem_append.mp hv with hv | hv
        · exact Nat.lt_succ_of_lt (hM.below v (List.mem_of_mem_eraseP hv))
        · rw [List.mem_singleton.mp hv]
          exact Nat.lt_succ_self _

/-- The list that there was is not there any more. -/
theorem erased (hM : M.Handled) (h : M.getNamedGlobal globalDtors = some v) (fn : Nat) :
    ∀ w ∈ (M.appendToGlobalDtors fn).globals, w.id ≠ v.id := by
  obtain ⟨hname, vs, ws, hglobals, hbefore⟩ := List.find?_eq_some_iff_append.mp h
  have hv : v ∈ M.globals := List.mem_of_find?_eq_some h
  intro w hw
  rcases List.mem_append.mp hw with hw | hw
  · replace hw : w ∈ M.globals.eraseP fun v => v.name == globalDtors := hw
    have hnodup := hM.nodup
    rw [hglobals, List.map_append, List.map_cons, List.nodup_middle, List.nodup_cons] at hnodup
    rw [hglobals, List.eraseP_append_right _ fun w hw => by simpa using hbefore w hw,
      List.eraseP_cons_of_pos (p := fun w : GlobalVariable => w.name == globalDtors) hname] at hw
    intro hid
    refine hnodup.1 ?_
    rw [← List.map_append, ← hid]
    exact List.mem_map_of_mem hw
  · rw [List.mem_singleton.mp hw]
    exact Nat.ne_of_gt (hM.below v hv)

theorem Updates.getNamedGlobal (h : Updates M M' set) (hv : M.getNamedGlobal name = some v) :
    M'.getNamedGlobal name = some (v.update set) := by
  obtain ⟨new, hglobals, -, -⟩ := h.globals
  unfold Module.getNamedGlobal at hv ⊢
  rw [hglobals, List.find?_append, List.find?_map]
  rw [show ((fun v : GlobalVariable => v.name == name) ∘ GlobalVariable.update set) =
    fun v => v.name == name from rfl, hv]
  rfl

end

end LlvmPasses
