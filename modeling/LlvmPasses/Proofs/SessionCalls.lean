import LlvmPasses.Proofs.CodegenChecks
import LlvmPasses.Proofs.Rounds

/-!
# Calls and the definitions they reach

What a call is checked against is whatever `getFunction` finds: a function of
the module, or one declared from `FunctionProtos`. The invariant is that for
each name with an accepted definition these agree with the definition. Under
`--compile` the module keeps the defined function for good and nothing else is
ever found. With the JIT the module is replaced again and again, so what is
filed under the name has to agree as well as every function of that name in
the module — and nothing in the source makes it: an `extern`, or a definition
that fails, files what it likes.

`calls_match` is about every session in which each item keeps what is filed
under the names of accepted definitions (`Consistent`). The condition is read
off the item and the tables in front of it; what it excludes is what
`calls_mismatch` does. The invariant has one part for the tables, which depends
on the mode (`Fixed`, `Filed`), and one for the calls accepted so far. That a
call is accepted only with the arity then known is `CodegenTables`'s.

Each operation of the driver on the tables gets a lemma for each of the two:
filing a prototype, setting a precedence, declaring, erasing, setting a body.
The step lemma `sound_next` puts them together along the five ways of `Rounds`.
-/

namespace LlvmPasses.Kaleido

open StateError Transition

/-! ## What the tables know of a name -/

/-- The module has a defined function of `n` parameters under the name. -/
def Builder.Fixed (b : Builder) (x : String) (n : Nat) : Prop :=
  ∃ g, b.module.getFunction x = some g ∧ g.body.isSome ∧ g.params.length = n

/-- A prototype of `n` parameters is filed under the name, and no function of
the module contradicts it. -/
structure Builder.Filed (b : Builder) (x : String) (n : Nat) : Prop where
  proto : ∃ p, b.protos.find x = some p ∧ p.args.length = n
  functions : ∀ g ∈ b.module.functions, g.name = x → g.params.length = n

section Tables

variable {ops : Char → Prop} {b b' : Builder} {x : String} {n : Nat} {proto : Prototype}
variable {fn : Function}

theorem Builder.Fixed.arityOf (h : b.Fixed x n) : b.arityOf x = some n := by
  obtain ⟨g, hg, -, hlen⟩ := h
  unfold Builder.arityOf
  rw [hg]
  exact congrArg some hlen

theorem Builder.Filed.arityOf (h : b.Filed x n) : b.arityOf x = some n := by
  obtain ⟨p, hp, hlen⟩ := h.proto
  unfold Builder.arityOf
  cases hg : b.module.getFunction x with
  | some g =>
      exact congrArg some (h.functions g (List.mem_of_find?_eq_some hg)
        (Module.getFunction_name hg))
  | none =>
      rw [hp]
      exact congrArg some hlen

/-- Functions added at the end are not found before those that were there. -/
theorem Module.getFunction_append {m m' : Module} {new : List Function} {g : Function}
    (heq : m'.functions = m.functions ++ new) (h : m.getFunction x = some g) :
    m'.getFunction x = some g := by
  show m'.functions.find? _ = _
  rw [heq, List.find?_append]
  have h : m.functions.find? (fun f => decide (f.name = x)) = some g := h
  rw [h]
  rfl

theorem Builder.Fixed.keeps (h : b.Fixed x n) (hb : Keeps ops b b') : b'.Fixed x n := by
  obtain ⟨g, hg, hbody, hlen⟩ := h
  obtain ⟨new, heq, -⟩ := hb.functions
  exact ⟨g, Module.getFunction_append heq hg, hbody, hlen⟩

theorem Builder.Filed.keeps (h : b.Filed x n) (hb : Keeps ops b b') : b'.Filed x n where
  proto := by
    rw [hb.protos]
    exact h.proto
  functions := fun g hg hname => by
    obtain ⟨new, heq, hnew⟩ := hb.functions
    rw [heq] at hg
    rcases List.mem_append.mp hg with hg | hg
    · exact h.functions g hg hname
    · have harity := (hnew g hg).arity
      rw [hname, h.arityOf] at harity
      exact (Option.some.inj harity).symm

/-- Filing a prototype under the name is harmless if it has as many parameters. -/
theorem Builder.Filed.file (h : b.Filed x n)
    (hproto : proto.name = x → proto.args.length = n) : (b.file proto).Filed x n where
  proto := by
    show ∃ p, (if x = proto.name then some proto else b.protos.find x) = some p ∧ _
    by_cases hx : x = proto.name
    · exact ⟨proto, if_pos hx, hproto hx.symm⟩
    · rw [if_neg hx]
      exact h.proto
  functions := h.functions

theorem Builder.Filed.withPrecedence (h : b.Filed x n) :
    (b.withPrecedence proto).Filed x n := by
  obtain ⟨hprotos, hmodule, -⟩ := withPrecedence_tables b proto
  exact ⟨hprotos ▸ h.proto, hmodule ▸ h.functions⟩

theorem Builder.Fixed.withPrecedence (h : b.Fixed x n) :
    (b.withPrecedence proto).Fixed x n := by
  obtain ⟨-, hmodule, -⟩ := withPrecedence_tables b proto
  exact show ∃ g, _ from hmodule ▸ h

/-- A function that has a body is not the one erased. -/
theorem Builder.Fixed.erase (h : b.Fixed x n) (hmem : fn ∈ b.module.functions)
    (hbody : fn.body = none) : { b with module := b.module.erase fn.id }.Fixed x n := by
  obtain ⟨g, hg, hgbody, hlen⟩ := h
  have hid : g.id ≠ fn.id := by
    intro hid
    obtain rfl := List.inj_on_of_nodup_map b.module.ids_nodup (List.mem_of_find?_eq_some hg)
      hmem hid
    rw [hbody] at hgbody
    cases hgbody
  refine ⟨g, ?_, hgbody, hlen⟩
  obtain ⟨hname, before, after, heq, hbefore⟩ := List.find?_eq_some_iff_append.mp hg
  refine List.find?_eq_some_iff_append.mpr
    ⟨hname, before.filter (fun f => decide (f.id ≠ fn.id)),
      after.filter (fun f => decide (f.id ≠ fn.id)), ?_, fun f hf => ?_⟩
  · show (b.module.functions.filter fun f => decide (f.id ≠ fn.id)) = _
    rw [heq, List.filter_append, List.filter_cons, if_pos (by simpa using hid)]
  · exact hbefore f (List.mem_filter.mp hf).1

theorem Builder.Filed.erase (h : b.Filed x n) (id : Nat) :
    { b with module := b.module.erase id }.Filed x n :=
  ⟨h.proto, fun g hg => h.functions g (List.mem_filter.mp hg).1⟩

/-- Giving a function its body changes no name and no parameter. -/
theorem Module.getFunction_setBody {m : Module} {id : Nat} {body : Body} (x : String) :
    (m.setBody id body).getFunction x =
      (m.getFunction x).map fun f => if f.id = id then { f with body := some body } else f := by
  show (m.functions.map _).find? _ = _
  rw [List.find?_map]
  congr 1
  unfold Module.getFunction
  congr 1
  funext f
  simp only [Function.comp_apply]
  split <;> rfl

theorem Builder.Fixed.setBody (h : b.Fixed x n) (id : Nat) (body : Body) :
    { b with module := b.module.setBody id body }.Fixed x n := by
  obtain ⟨g, hg, hbody, hlen⟩ := h
  refine ⟨if g.id = id then { g with body := some body } else g, ?_, ?_, ?_⟩
  · show (b.module.setBody id body).getFunction x = _
    rw [Module.getFunction_setBody, hg]
    rfl
  · split
    · rfl
    · exact hbody
  · split <;> exact hlen

end Tables

/-! ## Names given to externs -/

theorem toList_uniqueName (taken : List String) (name : String) (last : Nat) :
    (uniqueName taken "." name last).1 = name ∨
      '.' ∈ (uniqueName taken "." name last).1.toList := by
  unfold uniqueName
  by_cases hmem : name ∈ taken
  · rw [if_pos hmem]
    right
    simp
  · rw [if_neg hmem]
    exact .inl rfl

/-- No name a prototype is parsed with has a dot. -/
theorem Prototype.Named.no_dot {p : Prototype} (h : p.Named) : '.' ∉ p.name.toList := by
  intro hmem
  have hoperator : ∀ (s : String) (c : Char), OpChar c → '.' ∉ s.toList →
      '.' ∉ (s.push c).toList := by
    intro s c hc hs hmem
    rw [toList_push, List.mem_append, List.mem_singleton] at hmem
    exact hmem.elim hs fun heq => hc.2 heq.symm
  cases h with
  | word hname _ => exact absurd (hname _ hmem) (by decide)
  | unary hc hname _ _ =>
      rw [hname] at hmem
      exact hoperator _ _ hc (by decide) hmem
  | binary hc _ hname _ _ _ =>
      rw [hname] at hmem
      exact hoperator _ _ hc (by decide) hmem

/-! ## Accepted definitions -/

/-- The tables agree with the definitions, and so did every call. -/
structure Builder.Agrees (jit : Bool) (defs : List Prototype) (b : Builder) : Prop where
  calls : ∀ d ∈ defs, ∀ n, (d.name, n) ∈ b.accepted → n = d.args.length
  fixed : jit = false → ∀ d ∈ defs, b.Fixed d.name d.args.length
  filed : jit = true → ∀ d ∈ defs, b.Filed d.name d.args.length

/-- With the JIT, a prototype for a name that has an accepted definition has
as many parameters as it. -/
def Retains (jit : Bool) (defs : List Prototype) (p : Prototype) : Prop :=
  jit = true → ∀ d ∈ defs, d.name = p.name → p.args.length = d.args.length

section Agrees

variable {A : Arith} {jit : Bool} {defs : List Prototype} {b b' b₁ b₂ : Builder}
variable {proto : Prototype} {fn : Function} {f : FunctionAST}

/-- A permitted call to a name that is looked up with the right arity. -/
theorem Permitted.eq {arity : String → Option Nat} {d : Prototype} {n : Nat}
    (h : Permitted OpChar arity (d.name, n)) (hd : d.Named)
    (harity : arity d.name = some d.args.length) : n = d.args.length := by
  rcases h with h | ⟨op, hop, heq⟩ | ⟨op, hop, heq⟩
  · rw [harity] at h
    exact (Option.some.inj h).symm
  · obtain ⟨hname, rfl⟩ := Prod.mk.inj heq
    exact (hd.length_unary hop hname).symm
  · obtain ⟨hname, rfl⟩ := Prod.mk.inj heq
    exact (hd.length_binary hop hname).symm

theorem Builder.Agrees.arityOf (h : b.Agrees jit defs) {d : Prototype} (hd : d ∈ defs) :
    b.arityOf d.name = some d.args.length := by
  cases jit with
  | false => exact (h.fixed rfl d hd).arityOf
  | true => exact (h.filed rfl d hd).arityOf

theorem Builder.Agrees.keeps (h : b.Agrees jit defs) (hdefs : ∀ d ∈ defs, d.Named)
    (hb : Keeps OpChar b b') : b'.Agrees jit defs where
  calls := fun d hd n hn => by
    obtain ⟨calls, heq, hcalls⟩ := hb.accepted
    rw [heq] at hn
    rcases List.mem_append.mp hn with hn | hn
    · exact h.calls d hd n hn
    · exact (hcalls _ hn).eq (hdefs d hd) (h.arityOf hd)
  fixed := fun hj d hd => (h.fixed hj d hd).keeps hb
  filed := fun hj d hd => (h.filed hj d hd).keeps hb

theorem Builder.Agrees.file (h : b.Agrees jit defs) (hretain : Retains jit defs proto) :
    (b.file proto).Agrees jit defs where
  calls := h.calls
  fixed := h.fixed
  filed := fun hj d hd => (h.filed hj d hd).file fun hname => hretain hj d hd hname.symm

theorem Builder.Agrees.withPrecedence (h : b.Agrees jit defs) :
    (b.withPrecedence proto).Agrees jit defs where
  calls := by
    rw [(withPrecedence_tables b proto).2.2]
    exact h.calls
  fixed := fun hj d hd => (h.fixed hj d hd).withPrecedence
  filed := fun hj d hd => (h.filed hj d hd).withPrecedence

/-- Up to the end of the body of a definition past the redefinition check. -/
theorem Builder.Agrees.declared (h : b.Agrees jit defs) (hdefs : ∀ d ∈ defs, d.Named)
    (hretain : Retains jit defs proto) (hd : Declared proto b fn b₁)
    (hkeeps : Keeps OpChar (b₁.withPrecedence proto) b₂) : b₂.Agrees jit defs :=
  ((((h.file hretain).keeps hdefs hd.declares.keeps).withPrecedence).keeps hdefs hkeeps)

theorem Declared.mem_keeps {ops : Char → Prop} (hd : Declared proto b fn b₁)
    (hkeeps : Keeps ops (b₁.withPrecedence proto) b₂) : fn ∈ b₂.module.functions := by
  obtain ⟨new, heq, -⟩ := hkeeps.functions
  rw [heq, (withPrecedence_tables b₁ proto).2.1]
  exact List.mem_append_left _ hd.mem

/-- What an accepted definition leaves under its name. -/
theorem Declared.fixed {ops : Char → Prop} (hd : Declared proto b fn b₁)
    (hkeeps : Keeps ops (b₁.withPrecedence proto) b₂) :
    { b₂ with module := b₂.module.setBody fn.id b₂.body }.Fixed proto.name fn.params.length := by
  obtain ⟨new, heq, -⟩ := hkeeps.functions
  have hfound : b₂.module.getFunction proto.name = some fn :=
    Module.getFunction_append heq ((withPrecedence_tables b₁ proto).2.1 ▸ hd.found)
  refine ⟨{ fn with body := some b₂.body }, ?_, rfl, rfl⟩
  show (b₂.module.setBody fn.id b₂.body).getFunction _ = _
  rw [Module.getFunction_setBody, hfound]
  exact congrArg some (if_pos rfl)

/-- A definition or expression that throws. -/
theorem Builder.Agrees.threw (h : b.Agrees jit defs) (hdefs : ∀ d ∈ defs, d.Named)
    (hretain : Retains jit defs f.prototype) (hops : HasOps f.body.operators) {what : String}
    (hcodegen : f.codegen A b = .error (.exception what) b') : b'.Agrees jit defs := by
  rcases declareFunction_run f.prototype b with ⟨-, herr⟩ | ⟨fn, b₁, hdecl, hd⟩
  · have heq : f.codegen A b = .error _ (b.file f.prototype) := bind_error herr
    rw [heq] at hcodegen
    cases hcodegen
    exact h.file hretain
  · have hfin := functionCodegen_finished A hops hdecl
    rw [hcodegen] at hfin
    cases hfin with
    | erased hkeeps =>
        have h₂ := h.declared hdefs hretain hd hkeeps
        exact {
          calls := h₂.calls
          fixed := fun hj d hd' =>
            (h₂.fixed hj d hd').erase (hd.mem_keeps hkeeps) hd.bodiless
          filed := fun hj d hd' => (h₂.filed hj d hd').erase fn.id }

/-- The builder a definition or expression that is accepted leaves, and what
its body calls. -/
theorem codegen_built {ops : Char → Prop} (hops : ∀ c ∈ f.body.operators, ops c)
    (hcodegen : f.codegen A b = .ok fn b') :
    ∃ b₁ b₂, Declared f.prototype b fn b₁ ∧
      Keeps ops (b₁.withPrecedence f.prototype) b₂ ∧
      b' = { b₂ with module := b₂.module.setBody fn.id b₂.body } ∧
      ∀ id, b₂.Calls id → ∃ f ∈ b₂.module.functions, f.id = id := by
  rcases declareFunction_run f.prototype b with ⟨-, herr⟩ | ⟨g, b₁, hdecl, hd⟩
  · have heq : f.codegen A b = .error _ (b.file f.prototype) := bind_error herr
    rw [heq] at hcodegen
    cases hcodegen
  · have hfin := functionCodegen_finished A hops hdecl
    rw [hcodegen] at hfin
    cases hfin with
    | defined hkeeps hcalls => exact ⟨b₁, _, hd, hkeeps, rfl, hcalls⟩

theorem codegen_defined {ops : Char → Prop} (hops : ∀ c ∈ f.body.operators, ops c)
    (hcodegen : f.codegen A b = .ok fn b') :
    ∃ b₁ b₂, Declared f.prototype b fn b₁ ∧
      Keeps ops (b₁.withPrecedence f.prototype) b₂ ∧
      b' = { b₂ with module := b₂.module.setBody fn.id b₂.body } := by
  obtain ⟨b₁, b₂, hd, hkeeps, heq, -⟩ := codegen_built hops hcodegen
  exact ⟨b₁, b₂, hd, hkeeps, heq⟩

theorem Builder.Agrees.turn (h : b.Agrees jit defs) (id : Nat) (body : Body) :
    (Builder.turn jit { b with module := b.module.setBody id body }).Agrees jit defs := by
  cases jit with
  | false => exact ⟨h.calls, fun hj d hd => (h.fixed hj d hd).setBody id body, nofun⟩
  | true => exact ⟨h.calls, nofun, fun hj d hd => ⟨(h.filed hj d hd).proto, nofun⟩⟩

theorem Builder.Agrees.accepted (h : b.Agrees jit defs) (hdefs : ∀ d ∈ defs, d.Named)
    (hretain : Retains jit defs f.prototype) (hops : HasOps f.body.operators)
    (hcodegen : f.codegen A b = .ok fn b') : (Builder.turn jit b').Agrees jit defs := by
  obtain ⟨b₁, b₂, hd, hkeeps, rfl⟩ := codegen_defined hops hcodegen
  exact (h.declared hdefs hretain hd hkeeps).turn fn.id b₂.body

/-- What it takes for an accepted definition to agree with itself: the
function it got has its parameters, and earlier calls passed as many. -/
theorem Builder.Agrees.defined (h : b.Agrees jit defs) (hdefs : ∀ d ∈ defs, d.Named)
    (hretain : Retains jit defs f.prototype) (hops : HasOps f.body.operators)
    (hnamed : f.prototype.Named)
    (hparams : (b.paramsOf f.prototype).length = f.prototype.args.length)
    (hcalls : ∀ n, (f.prototype.name, n) ∈ b.accepted → n = f.prototype.args.length)
    (hcodegen : f.codegen A b = .ok fn b') :
    (Builder.turn jit b').Agrees jit (defs ++ [f.prototype]) := by
  have hold := h.accepted hdefs hretain hops hcodegen
  obtain ⟨b₁, b₂, hd, hkeeps, rfl⟩ := codegen_defined hops hcodegen
  obtain ⟨hprotos, hmodule, haccepted⟩ := withPrecedence_tables b₁ f.prototype
  have hlen : fn.params.length = f.prototype.args.length := by rw [hd.params, hparams]
  -- the calls of its own body were checked against the function it got
  have harity : (b₁.withPrecedence f.prototype).arityOf f.prototype.name =
      some f.prototype.args.length := by
    rw [arityOf_eq hmodule hprotos]
    unfold Builder.arityOf
    rw [hd.found]
    exact congrArg some hlen
  have hown : ∀ n, (f.prototype.name, n) ∈ b₂.accepted → n = f.prototype.args.length := by
    intro n hn
    obtain ⟨calls, heq, hpermitted⟩ := hkeeps.accepted
    rw [heq, haccepted, hd.declares.rest] at hn
    rcases List.mem_append.mp hn with hn | hn
    · exact hcalls n hn
    · exact (hpermitted _ hn).eq hnamed harity
  cases jit with
  | false =>
      refine ⟨fun d hmem n hn => ?_, fun hj d hmem => ?_, nofun⟩
      · rcases List.mem_append.mp hmem with hmem | hmem
        · exact hold.calls d hmem n hn
        · obtain rfl := List.mem_singleton.mp hmem
          exact hown n hn
      · rcases List.mem_append.mp hmem with hmem | hmem
        · exact hold.fixed hj d hmem
        · obtain rfl := List.mem_singleton.mp hmem
          exact hlen ▸ hd.fixed hkeeps
  | true =>
      refine ⟨fun d hmem n hn => ?_, nofun, fun hj d hmem => ?_⟩
      · rcases List.mem_append.mp hmem with hmem | hmem
        · exact hold.calls d hmem n hn
        · obtain rfl := List.mem_singleton.mp hmem
          exact hown n hn
      · rcases List.mem_append.mp hmem with hmem | hmem
        · exact hold.filed hj d hmem
        · obtain rfl := List.mem_singleton.mp hmem
          refine ⟨⟨f.prototype, ?_, rfl⟩, nofun⟩
          show b₂.protos.find _ = _
          rw [hkeeps.protos, hprotos, hd.declares.rest]
          exact if_pos rfl

/-- An `extern` declares a function at the end of the module, under its name
or one with a dot. -/
theorem Builder.Agrees.declareExtern (h : b.Agrees jit defs) (hdefs : ∀ d ∈ defs, d.Named)
    (hretain : Retains jit defs proto) :
    (b.declareExtern proto).Agrees jit defs := by
  refine Builder.Agrees.file (b := { b with
    module := b.module.create proto.name (setNames [] proto.args 0) })
    ⟨h.calls, fun hj d hd => ?_, fun hj d hd => ?_⟩ hretain
  · obtain ⟨g, hg, hbody, hlen⟩ := h.fixed hj d hd
    exact ⟨g, Module.getFunction_append rfl hg, hbody, hlen⟩
  · refine ⟨(h.filed hj d hd).proto, fun g hg hname => ?_⟩
    rcases List.mem_append.mp hg with hg | hg
    · exact (h.filed hj d hd).functions g hg hname
    · obtain rfl := List.mem_singleton.mp hg
      rcases toList_uniqueName (b.module.functions.map Function.name) proto.name
        b.module.lastUnique with heq | hdot
      · have hproto : proto.args.length = d.args.length :=
          hretain hj d hd (hname.symm.trans heq)
        rw [← hproto]
        simpa [Module.newFunction] using length_setNames proto.args [] 0
      · have hname : (uniqueName (b.module.functions.map Function.name) "." proto.name
            b.module.lastUnique).1 = d.name := hname
        rw [hname] at hdot
        exact absurd hdot (hdefs d hd).no_dot

end Agrees

/-! ## Sessions -/

/-- Every call accepted to a name with an accepted definition passes as many
arguments as the definition has parameters. -/
def Session.CallsMatch (s : Session) : Prop :=
  ∀ d ∈ s.definitions, ∀ n, (d.name, n) ∈ s.builder.accepted → n = d.args.length

/-- What keeps calls and definitions together, of the item at hand. With the
JIT, a prototype for a name with an accepted definition has as many parameters
as it, whether or not the item succeeds. A definition that will be accepted has
as many as the function the module has under its name, if it has one, and as
the calls to the name accepted before. -/
structure Session.Consistent (s : Session) : Prop where
  declared : ∀ p left, current s.tokens = .extern_ → parseExtern s.tokens = .ok p left →
    Retains s.jit.isSome s.definitions p
  definition : ∀ f left, current s.tokens = .def_ →
    parseDefinition s.builder.binopPrecedence s.tokens = .ok f left →
    Retains s.jit.isSome s.definitions f.prototype
  accepted : ∀ f left, current s.tokens = .def_ →
    parseDefinition s.builder.binopPrecedence s.tokens = .ok f left →
    f.check s.builder = none →
    (s.builder.paramsOf f.prototype).length = f.prototype.args.length ∧
      ∀ n, (f.prototype.name, n) ∈ s.builder.accepted → n = f.prototype.args.length

instance (jit : Bool) (defs : List Prototype) (p : Prototype) : Decidable (Retains jit defs p) :=
  inferInstanceAs (Decidable (jit = true → ∀ d ∈ defs, d.name = p.name →
    p.args.length = d.args.length))

instance (s : Session) : Decidable s.Consistent :=
  decidable_of_iff ((current s.tokens = .extern_ → okAll (parseExtern s.tokens) (fun p _ =>
      decide (Retains s.jit.isSome s.definitions p)) = true) ∧
    (current s.tokens = .def_ →
      okAll (parseDefinition s.builder.binopPrecedence s.tokens) (fun f _ => decide
        (Retains s.jit.isSome s.definitions f.prototype ∧ (f.check s.builder = none →
          (s.builder.paramsOf f.prototype).length = f.prototype.args.length ∧
            ∀ c ∈ s.builder.accepted, c.1 = f.prototype.name →
              c.2 = f.prototype.args.length))) = true)) <| by
    simp only [okAll_iff, decide_eq_true_eq]
    constructor
    · rintro ⟨hdecl, hdef⟩
      refine ⟨fun p left htok hp => hdecl htok p left hp,
        fun f left htok hf => (hdef htok f left hf).1, fun f left htok hf hcheck => ?_⟩
      obtain ⟨hparams, hcalls⟩ := (hdef htok f left hf).2 hcheck
      exact ⟨hparams, fun n hn => hcalls _ hn rfl⟩
    · intro h
      refine ⟨fun htok p left hp => h.declared p left htok hp, fun htok f left hf =>
        ⟨h.definition f left htok hf, fun hcheck => ?_⟩⟩
      obtain ⟨hparams, hcalls⟩ := h.accepted f left htok hf hcheck
      refine ⟨hparams, fun c hc hname => hcalls c.2 ?_⟩
      rw [← hname]
      exact hc

/-- The invariant of a session whose items are all consistent. -/
structure Session.Sound (s : Session) : Prop where
  lexical : AllLexical s.tokens
  named : ∀ d ∈ s.definitions, d.Named
  agrees : s.builder.Agrees s.jit.isSome s.definitions

section Sessions

variable {A : Arith} {E : Jit} {s s' : Session}

theorem sound_start (strtod : String → Double) (useJIT : Bool) (input : List UInt8) :
    (Session.start strtod useJIT input).Sound :=
  ⟨lexical_start strtod useJIT input, nofun, ⟨nofun, fun _ => nofun, fun _ => nofun⟩⟩

/-- `__anon_expr` is no name a definition can have. -/
theorem Prototype.Named.ne_anon {d : Prototype} (h : d.Named) : d.name ≠ "__anon_expr" := by
  intro hname
  have hnot : ¬ IsWord "__anon_expr" := fun h => absurd (h '_' (by decide)) (by decide)
  have hlast : ∀ (t : String) (c : Char), OpChar c → "__anon_expr" ≠ t.push c := by
    intro t c hc heq
    have hl := congrArg (fun s : String => s.toList.getLast?) heq
    rw [toList_push] at hl
    simp only [List.getLast?_append, List.getLast?_singleton, Option.some_or] at hl
    have hr : c = 'r' := (Option.some.inj hl).symm
    rw [hr] at hc
    exact absurd hc.1 (by decide)
  cases h with
  | word hw _ => exact hnot (hname ▸ hw)
  | unary hc hn _ _ => exact hlast _ _ hc (hname.symm.trans hn)
  | binary hc _ hn _ _ _ => exact hlast _ _ hc (hname.symm.trans hn)

theorem retains_anon {jit : Bool} {defs : List Prototype} (hdefs : ∀ d ∈ defs, d.Named)
    {p : Prototype} (hp : p = { name := "__anon_expr", args := [] }) : Retains jit defs p :=
  fun _ d hd hname => absurd (hname.trans (congrArg Prototype.name hp)) (hdefs d hd).ne_anon

theorem sound_next (h : s.Sound) (hc : s.Consistent) (hn : next A E s = some s') : s'.Sound := by
  have hr := rounds_of_next hn
  have hlex := hr.lexical h.lexical
  cases hr with
  | skipped _ => exact ⟨hlex, h.named, h.agrees⟩
  | declared htok hparse =>
      exact ⟨hlex, h.named, h.agrees.declareExtern h.named (hc.declared _ _ htok hparse)⟩
  | threw hreads hcodegen =>
      cases hreads with
      | definition htok hparse =>
          have hyields := (Triple.ok (yields_definition _) h.lexical hparse).2
          exact ⟨hlex, h.named, h.agrees.threw h.named (hc.definition _ _ htok hparse) hyields.2
            hcodegen⟩
      | topLevel _ hparse =>
          have hyields := (Triple.ok (yields_topLevelExpr _) h.lexical hparse).2
          exact ⟨hlex, h.named, h.agrees.threw h.named (retains_anon h.named hyields.1)
            hyields.2 hcodegen⟩
  | @defined f left fn b htok hparse hcodegen =>
      have hyields := (Triple.ok (yields_definition _) h.lexical hparse).2
      have hcheck := functionCodegen_check A f s.builder
      rw [hcodegen] at hcheck
      obtain ⟨hparams, hcalls⟩ := hc.accepted _ _ htok hparse hcheck
      refine ⟨hlex, fun d hd => ?_, ?_⟩
      · rcases List.mem_append.mp hd with hd | hd
        · exact h.named d hd
        · exact List.mem_singleton.mp hd ▸ hyields.1
      · show (b.turn s.jit.isSome).Agrees (s.jit.map _).isSome _
        rw [Option.isSome_map]
        exact h.agrees.defined h.named (hc.definition _ _ htok hparse) hyields.2 hyields.1
          hparams hcalls hcodegen
  | @evaluated f left fn b found hparse hcodegen hfound =>
      have hyields := (Triple.ok (yields_topLevelExpr _) h.lexical hparse).2
      refine ⟨hlex, h.named, ?_⟩
      show (b.turn s.jit.isSome).Agrees (s.jit.map _).isSome _
      rw [Option.isSome_map]
      exact h.agrees.accepted h.named (retains_anon h.named hyields.1) hyields.2 hcodegen

/-- In a session whose items are all consistent, calls match the definitions
they reach. -/
theorem calls_match (A : Arith) (E : Jit) (strtod : String → Double) (useJIT : Bool)
    (input : List UInt8) {n : Nat} (hrun : runN (next A E) n (.start strtod useJIT input) = some s)
    (hc : ∀ k < n, ∀ t, runN (next A E) k (.start strtod useJIT input) = some t → t.Consistent) :
    s.CallsMatch :=
  have h : s.Sound := runN_induction hrun (sound_start strtod useJIT input) hc
    fun _ _ ha hcond hstep => sound_next ha hcond hstep
  h.agrees.calls

end Sessions

/-! ### A call of a definition, and an extern that contradicts it -/

/-- `def f(x) x`. -/
def identityInput : List UInt8 := [100, 101, 102, 32, 102, 40, 120, 41, 32, 120]

/-- `def f(x) x f(1)`. -/
def callInput : List UInt8 := identityInput ++ [32, 102, 40, 49, 41]

/-- `def f(x) x extern f(x, y) f(1, 1)`. -/
def mismatchInput : List UInt8 := identityInput ++
  [32, 101, 120, 116, 101, 114, 110, 32, 102, 40, 120, 44, 32, 121, 41, 32, 102, 40, 49, 44, 32,
    49, 41]

/-- The call of `f` passes as many arguments as `f` has parameters. -/
theorem calls_match_call :
    let A : Arith := ⟨fun a _ => a, fun a _ => a, fun a _ => a⟩
    let E : Jit := ⟨fun _ _ => true, fun _ => some []⟩
    ∃ s, runN (next A E) 2 (.start (fun _ => .one) true callInput) = some s ∧
      ("f", 1) ∈ s.builder.accepted ∧ (∃ d ∈ s.definitions, d.name = "f") ∧ s.CallsMatch := by
  intro A E
  have hconsistent : ∀ k < 2, (runN (next A E) k (.start (fun _ => .one) true callInput)).all
      (fun t => decide t.Consistent) = true := by
    decide +kernel
  have hrun : (runN (next A E) 2 (.start (fun _ => .one) true callInput)).any
      (fun s => decide (("f", 1) ∈ s.builder.accepted ∧ ∃ d ∈ s.definitions, d.name = "f")) =
        true := by
    decide +kernel
  obtain ⟨s, hs, hrun⟩ := (Option.any_eq_true _ _).mp hrun
  obtain ⟨hcall, hdef⟩ := of_decide_eq_true hrun
  refine ⟨s, hs, hcall, hdef, calls_match A E (fun _ => .one) true callInput hs
    fun k hk t ht => ?_⟩
  have h := hconsistent k hk
  rw [ht] at h
  exact of_decide_eq_true h

/-- After the `extern`, a call with two arguments is accepted. -/
theorem calls_mismatch :
    ¬ ∀ (A : Arith) (E : Jit) (strtod : String → Double) (useJIT : Bool) (input : List UInt8)
      (n : Nat) (s : Session), runN (next A E) n (.start strtod useJIT input) = some s →
      s.CallsMatch := by
  intro h
  let A : Arith := ⟨fun a _ => a, fun a _ => a, fun a _ => a⟩
  let E : Jit := ⟨fun _ _ => true, fun _ => some []⟩
  have hrun : (match runN (next A E) 3 (.start (fun _ => .one) true mismatchInput) with
    | some s => decide (("f", 2) ∈ s.builder.accepted) &&
        s.definitions.any fun d => decide (d.name = "f" ∧ d.args.length = 1)
    | none => false) = true := by decide +kernel
  cases hs : runN (next A E) 3 (.start (fun _ => .one) true mismatchInput) with
  | none =>
      rw [hs] at hrun
      cases hrun
  | some s =>
      rw [hs] at hrun
      simp only [Bool.and_eq_true, decide_eq_true_eq, List.any_eq_true] at hrun
      obtain ⟨hcall, d, hd, hname, hlen⟩ := hrun
      have hmatch := h A E (fun _ => .one) true mismatchInput 3 s hs d hd 2 (hname ▸ hcall)
      omega

end LlvmPasses.Kaleido
