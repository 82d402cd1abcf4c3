import Mathlib.Data.List.Nodup
import LlvmPasses.Lib.Hoare
import LlvmPasses.Kaleido.Check
import LlvmPasses.Proofs.CodegenSteps

/-!
# What code generation does to the tables

An expression's code leaves `FunctionProtos` and the precedences alone and
gives no function a body. All it does to the module is to declare functions it
found in `FunctionProtos`, which changes nothing about what `getFunction`
would find or about the number of parameters of it. This holds whether code
generation returns or throws, so it is stated as a triple; the calls accepted
on the way are recorded with what was known of their callees.

`functionCodegen_finished` is what the modules about sessions use. However the
code generation of a definition ends, the builder at its end is one of three:
the body has been set, the function has been erased, or a wrong cast was used;
and in each case the tables have been kept up to there (`Keeps`). So an
invariant of sessions needs to be checked for those three and never against the
text of the code generator.

`Keeps` is a preorder on builders that says what may have been added:
declarations of functions with a filed prototype, each under a name that was
free (`Declares`), and calls whose number of arguments is the arity known then.
Operations that only work on the function being built keep everything
(`keepsTables_silent`), a lookup is the one case with work in it
(`keepsTables_getFunction`), and the rest is the induction over the tree, where
the rule for `>>=` chains the parts.
-/

namespace LlvmPasses.Kaleido

open StateError

/-! ## Declarations -/

theorem length_setNames (names : List String) (taken : List String) (last : Nat) :
    (setNames taken names last).length = taken.length + names.length := by
  induction names generalizing taken last with
  | nil => rfl
  | cons name names ih =>
      simp only [setNames, ih, List.length_append, List.length_cons, List.length_nil]
      omega

/-- A name that is free is not changed. -/
theorem uniqueName_free {taken : List String} {name : String} (sep : String) (last : Nat)
    (h : name ∉ taken) : uniqueName taken sep name last = (name, last) := if_neg h

theorem Module.getFunction_eq_none {m : Module} {x : String} (h : m.getFunction x = none) :
    x ∉ m.functions.map Function.name := by
  intro hmem
  obtain ⟨f, hf, hname⟩ := List.mem_map.mp hmem
  have hne := List.find?_eq_none.mp h f hf
  exact hne (by simp [hname])

theorem Module.getFunction_name {m : Module} {x : String} {f : Function}
    (h : m.getFunction x = some f) : f.name = x := by
  simpa using List.find?_some h

/-- A function made under a name that is free is the one found under it, and
the others are found as before. -/
theorem Module.getFunction_create {m : Module} {x : String} {params : List String}
    (h : m.getFunction x = none) (y : String) :
    (m.create x params).getFunction y =
      if y = x then some (m.newFunction x params) else m.getFunction y := by
  have hname : (m.newFunction x params).name = x := by
    simp only [Module.newFunction, uniqueName_free _ _ (getFunction_eq_none h)]
  show (m.functions ++ [m.newFunction x params]).find? (fun f => decide (f.name = y)) = _
  rw [List.find?_append]
  by_cases hy : y = x
  · subst hy
    have hnone : m.functions.find? (fun f => decide (f.name = y)) = none := h
    rw [hnone, if_pos rfl]
    simp [hname]
  · have hfalse : ¬ x = y := fun heq => hy heq.symm
    rw [if_neg hy]
    simp [hname, hfalse, Module.getFunction]

/-- A declaration of a function that `FunctionProtos` has a prototype for. -/
structure Builder.Announces (b : Builder) (f : Function) : Prop where
  bodiless : f.body = none
  arity : b.arityOf f.name = some f.params.length
  proto : ∃ p, b.protos.find f.name = some p ∧ f.params = setNames [] p.args 0

/-- Only the module changed, and by declarations of functions that were known. -/
structure Declares (b b' : Builder) : Prop where
  rest : b' = { b with module := b'.module }
  functions : ∃ new, b'.module.functions = b.module.functions ++ new ∧
    ∀ f ∈ new, b.Announces f
  arity : b'.arityOf = b.arityOf

/-- `getFunction` returns, with what is known of the function. -/
theorem getFunction_run (x : String) (b : Builder) :
    ∃ o b', getFunction x b = .ok o b' ∧ (o.map fun f => f.params.length) = b.arityOf x ∧
      (∀ f ∈ o, f.name = x ∧ f ∈ b'.module.functions) ∧ Declares b b' := by
  unfold getFunction
  rw [bind_ok (show (get : CodegenM Builder) b = .ok b b from rfl)]
  unfold Builder.arityOf
  cases hf : b.module.getFunction x with
  | some f =>
      refine ⟨some f, b, rfl, rfl, fun g hg => ?_, rfl, ⟨[], by simp, List.forall_mem_nil _⟩, rfl⟩
      exact Option.some.inj hg ▸ ⟨Module.getFunction_name hf, List.mem_of_find?_eq_some hf⟩
  | none =>
      cases hp : b.protos.find x with
      | none =>
          refine ⟨none, b, rfl, rfl, fun g hg => ?_, rfl, ⟨[], by simp, List.forall_mem_nil _⟩, rfl⟩
          cases hg
      | some p =>
          obtain rfl : p.name = x := b.protos.name_eq hp
          have hlen := length_setNames p.args [] 0
          have hfree := uniqueName_free "." b.module.lastUnique
            (Module.getFunction_eq_none hf)
          refine ⟨some (b.module.newFunction p.name (setNames [] p.args 0)),
            { b with module := b.module.create p.name (setNames [] p.args 0) }, rfl, ?_, ?_,
            rfl, ⟨_, rfl, ?_⟩, ?_⟩
          · simpa [Module.newFunction] using hlen
          · intro g hg
            obtain rfl := Option.some.inj hg
            exact ⟨congrArg Prod.fst hfree, List.mem_append_right _ (List.mem_singleton_self _)⟩
          · intro g hg
            obtain rfl := List.mem_singleton.mp hg
            have hname : (b.module.newFunction p.name (setNames [] p.args 0)).name = p.name :=
              congrArg Prod.fst hfree
            refine ⟨rfl, ?_, p, by rw [hname, hp], rfl⟩
            rw [hname]
            simp only [Builder.arityOf, hf, hp, Option.map_some]
            simpa [Module.newFunction] using hlen.symm
          · funext y
            unfold Builder.arityOf
            rw [Module.getFunction_create hf]
            by_cases hy : y = p.name
            · subst hy
              rw [if_pos rfl, hf, hp]
              simpa [Module.newFunction] using hlen
            · rw [if_neg hy]

/-! ## What is kept -/

/-- A call that code generation may accept, given the arities it looks up:
calls by name are checked, and an operator is always given its operands. -/
def Permitted (ops : Char → Prop) (arity : String → Option Nat) (c : String × Nat) : Prop :=
  arity c.1 = some c.2 ∨ (∃ op, ops op ∧ c = ("unary".push op, 1)) ∨
    ∃ op, ops op ∧ c = ("binary".push op, 2)

/-- The handles of the functions an instruction calls. -/
def Instr.callees : Instr → List Nat
  | .call _ fn _ => [fn]
  | _ => []

/-- The code emitted so far calls the function. -/
def Builder.Calls (b : Builder) (id : Nat) : Prop :=
  ∃ k, ∃ i ∈ b.body.code k, id ∈ i.callees

structure Keeps (ops : Char → Prop) (b b' : Builder) : Prop where
  protos : b'.protos = b.protos
  precedence : b'.binopPrecedence = b.binopPrecedence
  functions : ∃ new, b'.module.functions = b.module.functions ++ new ∧
    ∀ f ∈ new, b.Announces f
  arity : b'.arityOf = b.arityOf
  accepted : ∃ calls, b'.accepted = b.accepted ++ calls ∧
    ∀ c ∈ calls, Permitted ops b.arityOf c
  callees : ∀ id, b'.Calls id → b.Calls id ∨ ∃ f ∈ b'.module.functions, f.id = id

section Keeps

variable {ops : Char → Prop} {b₀ b b' : Builder} {α β : Type}

theorem Keeps.refl (b : Builder) : Keeps ops b b :=
  ⟨rfl, rfl, ⟨[], by simp, List.forall_mem_nil _⟩, rfl, ⟨[], by simp, List.forall_mem_nil _⟩,
    fun _ h => .inl h⟩

theorem Builder.Announces.of_keeps {f : Function} (h : b'.Announces f)
    (hprotos : b'.protos = b.protos) (harity : b'.arityOf = b.arityOf) : b.Announces f :=
  ⟨h.bodiless, harity ▸ h.arity, hprotos ▸ h.proto⟩

theorem Keeps.trans (h₁ : Keeps ops b₀ b) (h₂ : Keeps ops b b') : Keeps ops b₀ b' where
  protos := h₂.protos.trans h₁.protos
  precedence := h₂.precedence.trans h₁.precedence
  functions := by
    obtain ⟨new₁, heq₁, hnew₁⟩ := h₁.functions
    obtain ⟨new₂, heq₂, hnew₂⟩ := h₂.functions
    refine ⟨new₁ ++ new₂, by rw [heq₂, heq₁, List.append_assoc], fun f hf => ?_⟩
    exact (List.mem_append.mp hf).elim (hnew₁ f) fun hf =>
      (hnew₂ f hf).of_keeps h₁.protos h₁.arity
  arity := h₂.arity.trans h₁.arity
  accepted := by
    obtain ⟨calls₁, heq₁, hcalls₁⟩ := h₁.accepted
    obtain ⟨calls₂, heq₂, hcalls₂⟩ := h₂.accepted
    rw [h₁.arity] at hcalls₂
    refine ⟨calls₁ ++ calls₂, by rw [heq₂, heq₁, List.append_assoc], fun c hc => ?_⟩
    exact (List.mem_append.mp hc).elim (hcalls₁ c) (hcalls₂ c)
  callees := fun id hid => by
    rcases h₂.callees id hid with hid | hid
    · rcases h₁.callees id hid with hid | ⟨f, hf, heq⟩
      · exact .inl hid
      · obtain ⟨new, hnew, -⟩ := h₂.functions
        exact .inr ⟨f, hnew ▸ List.mem_append_left _ hf, heq⟩
    · exact .inr hid

theorem arityOf_eq (hmodule : b'.module = b.module) (hprotos : b'.protos = b.protos) :
    b'.arityOf = b.arityOf := by
  funext x
  unfold Builder.arityOf
  rw [hmodule, hprotos]

/-- The builder with another body, other registers or other names. -/
theorem Keeps.of_eq (hmodule : b'.module = b.module) (hprotos : b'.protos = b.protos)
    (hprec : b'.binopPrecedence = b.binopPrecedence) (haccepted : b'.accepted = b.accepted)
    (hcalls : ∀ id, b'.Calls id → b.Calls id) : Keeps ops b b' :=
  ⟨hprotos, hprec, ⟨[], by simp [hmodule], List.forall_mem_nil _⟩, arityOf_eq hmodule hprotos,
    ⟨[], by simp [haccepted], List.forall_mem_nil _⟩, fun id h => .inl (hcalls id h)⟩

/-- What is called after one more instruction. -/
theorem calls_append {k id : Nat} {i : Instr} (h : (b.append k i).Calls id) :
    b.Calls id ∨ id ∈ i.callees := by
  obtain ⟨j, i', hi', hid⟩ := h
  have hi' : i' ∈ if j = k then b.body.code j ++ [i] else b.body.code j := hi'
  split at hi'
  · rcases List.mem_append.mp hi' with hi' | hi'
    · exact .inl ⟨j, i', hi', hid⟩
    · exact .inr (List.mem_singleton.mp hi' ▸ hid)
  · exact .inl ⟨j, i', hi', hid⟩

theorem calls_append_plain {k : Nat} {i : Instr} (hi : i.callees = []) :
    ∀ id, (b.append k i).Calls id → b.Calls id := fun id h =>
  (calls_append h).resolve_right fun hid => by rw [hi] at hid; cases hid

theorem Declares.keeps (h : Declares b b') : Keeps ops b b' := by
  obtain ⟨hrest, hfunctions, harity⟩ := h
  have hrest' := hrest
  rw [hrest]
  exact ⟨rfl, rfl, hfunctions, hrest' ▸ harity, ⟨[], by simp, nofun⟩, fun _ h => .inl h⟩

/-- However `p` ends, the tables are kept. -/
def KeepsTables (ops : Char → Prop) (p : CodegenM α) : Prop :=
  ∀ b₀, Triple (Keeps ops b₀) p (fun _ => Keeps ops b₀) (fun _ => Keeps ops b₀)

/-- A step that only works on the function being built. -/
theorem keepsTables_silent {p : CodegenM α}
    (h : ∀ b, ∃ a b', p b = .ok a b' ∧ b'.module = b.module ∧ b'.protos = b.protos ∧
      b'.binopPrecedence = b.binopPrecedence ∧ b'.accepted = b.accepted ∧
      ∀ id, b'.Calls id → b.Calls id) :
    KeepsTables ops p := by
  intro b₀ b hb
  obtain ⟨a, b', hp, hmodule, hprotos, hprec, haccepted, hcalls⟩ := h b
  rw [hp]
  exact hb.trans (.of_eq hmodule hprotos hprec haccepted hcalls)

theorem keepsTables_pure (a : α) : KeepsTables ops (pure a : CodegenM α) :=
  fun _ => Triple.pure fun _ h => h

theorem keepsTables_throw (e : Abort) : KeepsTables ops (throw e : CodegenM α) :=
  fun _ => Triple.throw fun _ h => h

theorem KeepsTables.bind {p : CodegenM α} {f : α → CodegenM β} (hp : KeepsTables ops p)
    (hf : ∀ a, KeepsTables ops (f a)) : KeepsTables ops (p >>= f) :=
  fun b₀ => (hp b₀).bind fun a => hf a b₀

theorem keepsTables_emit (i : Instr) (hi : i.callees = []) : KeepsTables ops (emit i) :=
  keepsTables_silent fun _ => ⟨_, _, rfl, rfl, rfl, rfl, rfl, calls_append_plain hi⟩

theorem keepsTables_emitValue (i : Nat → Instr) (hi : ∀ r, (i r).callees = []) :
    KeepsTables ops (emitValue i) :=
  keepsTables_silent fun b => ⟨_, _, rfl, rfl, rfl, rfl, rfl, calls_append_plain (hi b.nextInst)⟩

theorem keepsTables_namedLookup (x : String) : KeepsTables ops (namedLookup x) :=
  keepsTables_silent fun _ => ⟨_, _, rfl, rfl, rfl, rfl, rfl, fun _ h => h⟩

theorem keepsTables_namedSet (x : String) (cell : Option Nat) :
    KeepsTables ops (namedSet x cell) :=
  keepsTables_silent fun _ => ⟨_, _, rfl, rfl, rfl, rfl, rfl, fun _ h => h⟩

theorem keepsTables_alloca : KeepsTables ops createEntryBlockAlloca :=
  keepsTables_silent fun _ => ⟨_, _, rfl, rfl, rfl, rfl, rfl, fun _ h => h⟩

theorem keepsTables_castToVariable (e : Expr) : KeepsTables ops (castToVariable e) :=
  keepsTables_silent fun b => by
    refine ⟨(), _, rfl, ?_⟩
    cases e.isVariable <;> exact ⟨rfl, rfl, rfl, rfl, fun _ h => h⟩

theorem keepsTables_createFBin {A : Arith} {op : FBinOp} {x y : Value} :
    KeepsTables ops (createFBin A op x y) := by
  unfold createFBin
  split
  · exact keepsTables_pure _
  · exact keepsTables_emitValue _ fun _ => rfl

theorem keepsTables_createFCmp {pred : FCmpPred} {x y : Value} :
    KeepsTables ops (createFCmp pred x y) := by
  unfold createFCmp
  split
  · exact keepsTables_pure _
  · exact keepsTables_emitValue _ fun _ => rfl

theorem keepsTables_createUIToFP {x : Value} : KeepsTables ops (createUIToFP x) := by
  unfold createUIToFP
  split
  · exact keepsTables_pure _
  · exact keepsTables_emitValue _ fun _ => rfl

/-- Whichever way it ended, the tables are kept from `b` on. -/
def Kept (ops : Char → Prop) (b : Builder) : EStateM.Result Abort Builder α → Prop
  | .ok _ b' => Keeps ops b b'
  | .error _ b' => Keeps ops b b'

theorem keepsTables_of_kept {p : CodegenM α} (h : ∀ b, Kept ops b (p b)) : KeepsTables ops p := by
  intro b₀ b hb
  have hp := h b
  cases hr : p b with
  | ok a b' =>
      rw [hr] at hp
      exact hb.trans hp
  | error e b' =>
      rw [hr] at hp
      exact hb.trans hp

theorem Kept.from {p : EStateM.Result Abort Builder α} (h : Kept ops b' p) (hb : Keeps ops b b') :
    Kept ops b p := by
  cases p with
  | ok a b'' => exact hb.trans h
  | error e b'' => exact hb.trans h

/-- A function is looked up and then used, knowing its name and arity. -/
theorem keepsTables_getFunction {x : String} {f : Option Function → CodegenM β}
    (hf : ∀ o b, (o.map fun fn => fn.params.length) = b.arityOf x →
      (∀ fn ∈ o, fn.name = x ∧ fn ∈ b.module.functions) → Kept ops b (f o b)) :
    KeepsTables ops (getFunction x >>= f) := by
  refine keepsTables_of_kept fun b => ?_
  obtain ⟨o, b', hrun, harity, hname, hdecl⟩ := getFunction_run x b
  rw [bind_ok hrun]
  rw [← hdecl.arity] at harity
  exact (hf o b' harity hname).from hdecl.keeps

theorem createCall_keeps {fn : Function} (args : List Value) {b : Builder}
    (hfn : fn ∈ b.module.functions) (h : Permitted ops b.arityOf (fn.name, args.length)) :
    ∃ v b', createCall fn args b = .ok v b' ∧ Keeps ops b b' := by
  refine ⟨_, _, rfl, rfl, rfl, ⟨[], by simp [Builder.append], List.forall_mem_nil _⟩,
    arityOf_eq rfl rfl, ⟨[(fn.name, args.length)], rfl, fun c hc => ?_⟩, fun id hid => ?_⟩
  · obtain rfl := List.mem_singleton.mp hc
    exact h
  · have hid : ({ b with accepted := b.accepted ++ [(fn.name, args.length)] }.append b.insert
        (.call b.nextInst fn.id args)).Calls id := hid
    rcases calls_append hid with hid | hid
    · exact .inl hid
    · exact .inr ⟨fn, hfn, (List.mem_singleton.mp hid).symm⟩

end Keeps

/-! ## Expressions -/

section Expressions

variable {A : Arith} {ops : Char → Prop}

/-- `e` has only such operators, and its code keeps the tables. -/
def Tame (A : Arith) (ops : Char → Prop) (e : Expr) : Prop :=
  (∀ c ∈ e.operators, ops c) → KeepsTables ops (e.codegen A)

theorem tame_option {o : Option Expr} {d : Double} (ho : ∀ e ∈ o, Tame A ops e)
    (hops : ∀ c ∈ operatorsOption o, ops c) : KeepsTables ops (codegenOption A d o) := by
  cases o with
  | none =>
      simp only [codegenOption]
      exact keepsTables_pure _
  | some e =>
      simp only [codegenOption]
      exact ho e rfl hops

theorem tame_args {es : List Expr} (hes : ∀ e ∈ es, Tame A ops e)
    (hops : ∀ c ∈ operatorsArgs es, ops c) (b₀ : Builder) :
    Triple (Keeps ops b₀) (codegenArgs A es)
      (fun vs b => Keeps ops b₀ b ∧ vs.length = es.length) (fun _ => Keeps ops b₀) := by
  induction es with
  | nil =>
      simp only [codegenArgs]
      exact Triple.pure fun _ h => ⟨h, rfl⟩
  | cons e es ih =>
      simp only [operatorsArgs, List.mem_append] at hops
      simp only [codegenArgs]
      refine (hes e (List.mem_cons_self ..) (fun c hc => hops c (.inl hc)) b₀).bind fun v => ?_
      refine (ih (fun a ha => hes a (List.mem_cons_of_mem _ ha))
        (fun c hc => hops c (.inr hc))).bind fun vs => ?_
      exact Triple.pure fun _ h => ⟨h.1, by simp [h.2]⟩

theorem tame_vars {vs : List (String × Option Expr)} {old : String → Option Nat}
    (hvs : ∀ v ∈ vs, ∀ e ∈ v.2, Tame A ops e) (hops : ∀ c ∈ operatorsVars vs, ops c) :
    KeepsTables ops (codegenVars A old vs) := by
  induction vs generalizing old with
  | nil =>
      simp only [codegenVars]
      exact keepsTables_pure _
  | cons w vs ih =>
      obtain ⟨x, init⟩ := w
      simp only [operatorsVars, List.mem_append] at hops
      simp only [codegenVars]
      refine (tame_option (hvs _ (List.mem_cons_self ..)) fun c hc => hops c (.inl hc)).bind
        fun _ => keepsTables_alloca.bind fun _ => (keepsTables_emit _ rfl).bind fun _ =>
        (keepsTables_namedLookup x).bind fun _ => (keepsTables_namedSet x _).bind fun _ => ?_
      exact ih (fun w hw => hvs w (List.mem_cons_of_mem _ hw)) fun c hc => hops c (.inr hc)

theorem keepsTables_restoreNamed {old : String → Option Nat}
    {vs : List (String × Option Expr)} : KeepsTables ops (restoreNamed old vs) := by
  induction vs with
  | nil => exact keepsTables_pure _
  | cons w vs ih => exact (keepsTables_namedSet _ _).bind fun _ => ih

theorem keepsTables_operator {op : String} {vs : List Value} {what : String}
    (hop : ∀ arity, Permitted ops arity (op, vs.length)) :
    KeepsTables ops (do
      match ← getFunction op with
      | none => throwCodegen what
      | some fn => createCall fn vs) := by
  refine keepsTables_getFunction fun o b _ hfound => ?_
  cases o with
  | none => exact .refl b
  | some fn =>
      obtain ⟨hname, hmem⟩ := hfound fn rfl
      obtain ⟨v, b', hrun, hkeeps⟩ := createCall_keeps vs hmem (hname ▸ hop _)
      show Kept ops b (createCall fn vs b)
      rw [hrun]
      exact hkeeps

theorem tame_binary {op : Char} {lhs rhs : Expr} (hl : Tame A ops lhs) (hr : Tame A ops rhs) :
    Tame A ops (.binary op lhs rhs) := by
  intro hops
  simp only [Expr.operators, List.mem_cons, List.mem_append] at hops
  have hr := hr fun c hc => hops c (.inr (.inr hc))
  simp only [Expr.codegen]
  split
  · refine (keepsTables_castToVariable _).bind fun _ => hr.bind fun v => ?_
    split
    · refine (keepsTables_namedLookup _).bind fun o => ?_
      cases o with
      | none => exact keepsTables_throw _
      | some cell => exact (keepsTables_emit _ rfl).bind fun _ => keepsTables_pure _
    · exact keepsTables_throw _
  · refine (hl fun c hc => hops c (.inr (.inl hc))).bind fun x => hr.bind fun y => ?_
    split
    · exact keepsTables_createFBin
    · exact keepsTables_createFBin
    · exact keepsTables_createFBin
    · exact keepsTables_createFCmp.bind fun _ => keepsTables_createUIToFP
    · exact keepsTables_operator fun _ => .inr (.inr ⟨op, hops op (.inl rfl), rfl⟩)

theorem tame_ifElse {cond thn els : Expr} (hc : Tame A ops cond) (ht : Tame A ops thn)
    (he : Tame A ops els) : Tame A ops (.ifElse cond thn els) := by
  intro hops
  simp only [Expr.operators, List.mem_append] at hops
  have hblock : KeepsTables ops createBlock :=
    keepsTables_silent fun _ => ⟨_, _, rfl, rfl, rfl, rfl, rfl, fun _ h => h⟩
  have hblockIn : KeepsTables ops createBlockIn :=
    keepsTables_silent fun _ => ⟨_, _, rfl, rfl, rfl, rfl, rfl, fun _ h => h⟩
  have hset : ∀ k, KeepsTables ops (setInsertPoint k) := fun _ =>
    keepsTables_silent fun _ => ⟨_, _, rfl, rfl, rfl, rfl, rfl, fun _ h => h⟩
  have hget : KeepsTables ops getInsertBlock :=
    keepsTables_silent fun _ => ⟨_, _, rfl, rfl, rfl, rfl, rfl, fun _ h => h⟩
  have hattach : ∀ k, KeepsTables ops (attachBlock k) := fun _ =>
    keepsTables_silent fun _ => ⟨_, _, rfl, rfl, rfl, rfl, rfl, fun _ h => h⟩
  simp only [Expr.codegen]
  exact (hc fun c h => hops c (.inl (.inl h))).bind fun _ => keepsTables_createFCmp.bind
    fun _ => hblockIn.bind fun _ => hblock.bind fun _ => hblock.bind fun _ =>
    (keepsTables_emit _ rfl).bind fun _ => (hset _).bind fun _ =>
    (ht fun c h => hops c (.inl (.inr h))).bind fun _ => (keepsTables_emit _ rfl).bind fun _ =>
    hget.bind fun _ => (hattach _).bind fun _ => (hset _).bind fun _ =>
    (he fun c h => hops c (.inr h)).bind fun _ => (keepsTables_emit _ rfl).bind fun _ =>
    hget.bind fun _ => (hattach _).bind fun _ => (hset _).bind fun _ =>
      keepsTables_emitValue _ fun _ => rfl

theorem tame_forIn {x : String} {start fin body : Expr} {step : Option Expr}
    (hs : Tame A ops start) (hf : Tame A ops fin) (ho : ∀ e ∈ step, Tame A ops e)
    (hb : Tame A ops body) : Tame A ops (.forIn x start fin step body) := by
  intro hops
  simp only [Expr.operators, List.mem_append] at hops
  have hblockIn : KeepsTables ops createBlockIn :=
    keepsTables_silent fun _ => ⟨_, _, rfl, rfl, rfl, rfl, rfl, fun _ h => h⟩
  have hset : ∀ k, KeepsTables ops (setInsertPoint k) := fun _ =>
    keepsTables_silent fun _ => ⟨_, _, rfl, rfl, rfl, rfl, rfl, fun _ h => h⟩
  simp only [Expr.codegen]
  exact keepsTables_alloca.bind fun _ =>
    (hs fun c h => hops c (.inl (.inl (.inl h)))).bind fun _ => (keepsTables_emit _ rfl).bind
    fun _ => hblockIn.bind fun _ => (keepsTables_emit _ rfl).bind fun _ => (hset _).bind fun _ =>
    (keepsTables_namedLookup x).bind fun _ => (keepsTables_namedSet x _).bind fun _ =>
    (hb fun c h => hops c (.inr h)).bind fun _ =>
    (tame_option ho fun c h => hops c (.inl (.inr h))).bind fun _ =>
    (hf fun c h => hops c (.inl (.inl (.inr h)))).bind fun _ =>
    (keepsTables_emitValue _ fun _ => rfl).bind fun _ => keepsTables_createFBin.bind fun _ =>
    (keepsTables_emit _ rfl).bind fun _ => keepsTables_createFCmp.bind fun _ => hblockIn.bind
    fun _ => (keepsTables_emit _ rfl).bind fun _ => (hset _).bind fun _ =>
    (keepsTables_namedSet x _).bind fun _ => keepsTables_pure _

theorem tame_call {callee : String} {args : List Expr} (hargs : ∀ e ∈ args, Tame A ops e) :
    Tame A ops (.call callee args) := by
  intro hops
  simp only [Expr.codegen]
  refine keepsTables_getFunction fun o b harity hfound => ?_
  cases o with
  | none => exact .refl b
  | some fn =>
      obtain ⟨hname, hmem⟩ := hfound fn rfl
      simp only
      split
      · exact .refl b
      · next hlen =>
          have hargs := tame_args hargs hops b b (.refl b)
          cases hr : codegenArgs A args b with
          | error e b₂ =>
              rw [hr] at hargs
              rw [bind_error hr]
              exact hargs
          | ok vs b₂ =>
              rw [hr] at hargs
              obtain ⟨hkeeps, hvs⟩ := hargs
              obtain ⟨new, heq, -⟩ := hkeeps.functions
              have hpermitted : Permitted ops b₂.arityOf (fn.name, vs.length) := by
                refine .inl ?_
                rw [hkeeps.arity, hname, ← harity, hvs]
                exact congrArg some (Decidable.of_not_not hlen)
              obtain ⟨v, b', hrun, hcall⟩ :=
                createCall_keeps _ (heq ▸ List.mem_append_left _ hmem) hpermitted
              rw [bind_ok hr, hrun]
              exact hkeeps.trans hcall

/-- The code of an expression keeps the tables, however it ends. -/
theorem tame (A : Arith) (ops : Char → Prop) : ∀ e, Tame A ops e :=
  Expr.Inductive.all {
    number := fun val _ => by
      simp only [Expr.codegen]
      exact keepsTables_pure _
    name := fun x _ => by
      simp only [Expr.codegen]
      refine (keepsTables_namedLookup x).bind fun o => ?_
      cases o with
      | none => exact keepsTables_throw _
      | some cell => exact keepsTables_emitValue _ fun _ => rfl
    varIn := fun varNames body hvars hbody hops => by
      simp only [Expr.operators, List.mem_append] at hops
      simp only [Expr.codegen]
      exact (tame_vars hvars fun c h => hops c (.inl h)).bind fun _ =>
        (hbody fun c h => hops c (.inr h)).bind fun _ => keepsTables_restoreNamed.bind
        fun _ => keepsTables_pure _
    unary := fun op operand ho hops => by
      simp only [Expr.operators, List.mem_cons] at hops
      simp only [Expr.codegen]
      exact (ho fun c h => hops c (.inr h)).bind fun _ =>
        keepsTables_operator fun _ => .inr (.inl ⟨op, hops op (.inl rfl), rfl⟩)
    binary := fun _ _ _ => tame_binary
    ifElse := fun _ _ _ => tame_ifElse
    forIn := fun _ _ _ _ _ => tame_forIn
    call := fun _ _ => tame_call }

end Expressions

/-! ## Definitions -/

/-- The functions that have a body. -/
def Module.bodies (m : Module) : List Function := m.functions.filter fun f => f.body.isSome

section Definitions

variable {A : Arith} {ops : Char → Prop} {proto : Prototype} {b b₁ b₂ : Builder} {fn : Function}

/-- The function a definition is given: the one the module has under the name,
or a declaration from the prototype just filed. -/
structure Declared (proto : Prototype) (b : Builder) (fn : Function) (b₁ : Builder) : Prop where
  declares : Declares (b.file proto) b₁
  found : b₁.module.getFunction proto.name = some fn
  bodiless : fn.body = none
  was : ∀ g, b.module.getFunction proto.name = some g → g = fn
  params : fn.params = b.paramsOf proto

theorem declareFunction_of_getFunction {o : Option Function}
    (h : getFunction proto.name (b.file proto) = .ok o b₁) :
    declareFunction proto b = match o with
      | none => .error (.exception "Could not find function") b₁
      | some fn => if fn.body.isSome then .error (.exception "Function cannot be redefined") b₁
          else .ok fn b₁ := by
  unfold declareFunction
  rw [bind_ok (s := b) (t := b.file proto) (a := ()) rfl, bind_ok h]
  cases o with
  | none => rfl
  | some fn =>
      simp only
      split <;> rfl

theorem declareFunction_run (proto : Prototype) (b : Builder) :
    (b.HasBody proto.name ∧ declareFunction proto b =
      .error (.exception "Function cannot be redefined") (b.file proto)) ∨
    ∃ fn b₁, declareFunction proto b = .ok fn b₁ ∧ Declared proto b fn b₁ := by
  obtain ⟨o, b₁, hrun, -, -, hdecl⟩ := getFunction_run proto.name (b.file proto)
  have hrun' := hrun
  unfold getFunction at hrun'
  rw [bind_ok (show (get : CodegenM Builder) (b.file proto) = .ok (b.file proto) (b.file proto)
    from rfl)] at hrun'
  rw [declareFunction_of_getFunction hrun]
  have hsame : (b.file proto).module.getFunction proto.name =
      b.module.getFunction proto.name := rfl
  cases hf : b.module.getFunction proto.name with
  | some g =>
      simp only [hsame, hf] at hrun'
      cases hrun'
      cases hbody : g.body with
      | some body => exact .inl ⟨⟨g, hf, by rw [hbody]; rfl⟩, by simp only [hbody]; rfl⟩
      | none =>
          refine .inr ⟨g, b.file proto, by simp only [hbody]; rfl, hdecl, hf, hbody,
            fun g' h => Option.some.inj (h.symm.trans hf), ?_⟩
          simp only [Builder.paramsOf, hf]
  | none =>
      have hfind : (b.file proto).protos.find proto.name = some proto := if_pos rfl
      simp only [hsame, hf, hfind] at hrun'
      cases hrun'
      refine .inr ⟨_, _, rfl, hdecl, (Module.getFunction_create hf _).trans (if_pos rfl), rfl,
        fun g h => (nomatch hf.symm.trans h), ?_⟩
      simp only [Builder.paramsOf, hf]
      rfl

theorem Declared.mem (h : Declared proto b fn b₁) : fn ∈ b₁.module.functions :=
  List.mem_of_find?_eq_some h.found

theorem Declared.not_hasBody (h : Declared proto b fn b₁) : ¬ b.HasBody proto.name := by
  rintro ⟨g, hg, hbody⟩
  rw [h.was g hg, h.bodiless] at hbody
  cases hbody

theorem withPrecedence_tables (b : Builder) (proto : Prototype) :
    (b.withPrecedence proto).protos = b.protos ∧ (b.withPrecedence proto).module = b.module ∧
      (b.withPrecedence proto).accepted = b.accepted := by
  unfold Builder.withPrecedence
  split <;> exact ⟨rfl, rfl, rfl⟩

theorem keepsTables_params (ops : Char → Prop) (i : Nat) (names : List String) :
    KeepsTables ops (codegenParams i names) := by
  induction names generalizing i with
  | nil => exact keepsTables_pure _
  | cons name names ih =>
      exact keepsTables_alloca.bind fun _ => (keepsTables_emit _ rfl).bind fun _ =>
        (keepsTables_namedSet _ _).bind fun _ => ih (i + 1)

theorem codegenParams_returns (i : Nat) (names : List String) (b : Builder) :
    ∃ b', codegenParams i names b = .ok () b' := by
  induction names generalizing i b with
  | nil => exact ⟨b, rfl⟩
  | cons name names ih => exact ih (i + 1) _

theorem erasing_ok {α : Type} {p : CodegenM α} {a : α} (h : p b = .ok a b₁) :
    erasing fn p b = .ok a b₁ := by
  unfold erasing
  rw [h]

theorem erasing_exception {α : Type} {p : CodegenM α} {what : String}
    (h : p b = .error (.exception what) b₁) :
    erasing fn p b = .error (.exception what) { b₁ with module := b₁.module.erase fn.id } := by
  unfold erasing
  rw [h]

theorem erasing_misread {α : Type} {p : CodegenM α} (h : p b = .error .misread b₁) :
    erasing fn p b = .error .misread b₁ := by
  unfold erasing
  rw [h]

/-- How a definition past the redefinition check ends. -/
inductive Finished (ops : Char → Prop) (fn : Function) (b : Builder) :
    EStateM.Result Abort Builder Function → Prop
  | defined {b₂ : Builder} (h : Keeps ops b b₂)
      (hcalls : ∀ id, b₂.Calls id → ∃ f ∈ b₂.module.functions, f.id = id) :
      Finished ops fn b (.ok fn { b₂ with module := b₂.module.setBody fn.id b₂.body })
  | erased {what : String} {b₂ : Builder} (h : Keeps ops b b₂) :
      Finished ops fn b (.error (.exception what) { b₂ with module := b₂.module.erase fn.id })
  | misread {b₂ : Builder} : Finished ops fn b (.error .misread b₂)

theorem functionCodegen_finished (A : Arith) {f : FunctionAST}
    (hops : ∀ c ∈ f.body.operators, ops c)
    (h : declareFunction f.prototype b = .ok fn b₁) :
    Finished ops fn (b₁.withPrecedence f.prototype) (f.codegen A b) := by
  rw [functionCodegen_eq h]
  obtain ⟨b₂, hp⟩ := codegenParams_returns 0 fn.params (b₁.withPrecedence f.prototype).begin
  have hnone : ∀ id, ¬ (b₁.withPrecedence f.prototype).begin.Calls id :=
    fun _ ⟨_, _, hi, _⟩ => nomatch hi
  have hbegin : Keeps ops (b₁.withPrecedence f.prototype)
      (b₁.withPrecedence f.prototype).begin :=
    .of_eq rfl rfl rfl rfl fun id h => absurd h (hnone id)
  have hparams := (keepsTables_params ops 0 fn.params _).ok
    (.refl (b₁.withPrecedence f.prototype).begin) hp
  have h₂ := hbegin.trans hparams
  rw [bind_ok hp]
  have htame := tame A ops f.body hops (b₁.withPrecedence f.prototype)
  cases hv : f.body.codegen A b₂ with
  | ok v b₃ =>
      have hbody : codegenBody A fn f.body b₂ = .ok () (b₃.finish fn v) := by
        unfold codegenBody
        rw [bind_ok hv]
        rfl
      rw [bind_ok (erasing_ok hbody)]
      have hret : Keeps ops b₃ (b₃.append b₃.insert (.ret v)) :=
        .of_eq rfl rfl rfl rfl (calls_append_plain rfl)
      have hbuilt := (tame A ops f.body hops (b₁.withPrecedence f.prototype).begin).ok hparams hv
      exact .defined ((htame.ok h₂ hv).trans hret) fun id hid =>
        ((hbuilt.trans hret).callees id hid).resolve_left (hnone id)
  | error e b₃ =>
      have hbody : codegenBody A fn f.body b₂ = .error e b₃ := bind_error hv
      cases e with
      | exception what =>
          rw [bind_error (erasing_exception hbody)]
          exact .erased (htame.error h₂ hv)
      | misread =>
          rw [bind_error (erasing_misread hbody)]
          exact .misread

/-! ### Bodies -/

theorem Keeps.bodies (h : Keeps ops b b₁) : b₁.module.bodies = b.module.bodies := by
  obtain ⟨new, heq, hnew⟩ := h.functions
  unfold Module.bodies
  have hnil : new.filter (fun f => f.body.isSome) = [] :=
    List.filter_eq_nil_iff.mpr fun f hf => by simp [(hnew f hf).bodiless]
  rw [heq, List.filter_append, hnil, List.append_nil]

theorem Declares.bodies (h : Declares b b₁) : b₁.module.bodies = b.module.bodies :=
  have hkeeps : Keeps (fun _ => True) b b₁ := h.keeps
  hkeeps.bodies

/-- Erasing a function without a body erases no body. -/
theorem Module.bodies_erase {m : Module} (hmem : fn ∈ m.functions) (hbody : fn.body = none) :
    (m.erase fn.id).bodies = m.bodies := by
  unfold Module.bodies Module.erase
  rw [List.filter_filter]
  refine List.filter_congr fun g hg => ?_
  by_cases hid : g.id = fn.id
  · obtain rfl := List.inj_on_of_nodup_map m.ids_nodup hg hmem hid
    simp [hbody]
  · simp [hid]

end Definitions

end LlvmPasses.Kaleido
