import LlvmPasses.Proofs.DefinitionParams
import LlvmPasses.Proofs.JitSymbols
import LlvmPasses.Proofs.ProgramCorrect

/-!
# What a session builds is what it has accepted

The modules of a session, linked, have a symbol for each name that has been
defined, and under it what the code generator made of the first definition
accepted under the name. This is an invariant of the driver's loop in either
mode: with the JIT the bodies move to modules that nothing touches any more,
without it they stay in one module, where functions are added, given bodies,
and erased again when their definition fails.

The program that was accepted is made of the definitions as they are written,
with the parameters of their prototypes. The code generator binds the names of
the function it finds in the module instead, so a session's definitions have to
be of functions that were declared with these parameters, if they were at all.

`programs_correct` is what the compiler is for. The program on one side is a
list of definitions as they were parsed; on the other side there are the
modules that the driver has built. The invariant `Built` says that they
correspond name by name, and with `ProgramCorrect` it follows that every call
returns what it evaluates to. The step is `contributes_next`: a round adds one
definition, if the code generator has accepted one, or leaves the program as it
was, and in each case the linked modules have the same symbols for it.

A module that changes keeps its symbols as long as nothing with a body is
erased and nothing with a body comes to stand behind another function of its
name (`BodiesFirst`); `Carries` is the relation between two modules of which
this is so. Linking looks through the modules in the order in which they were
handed over, so the first definition of a name is the one that counts on both
sides.
-/

namespace LlvmPasses.Kaleido

open StateError Transition

/-- The same definitions, and the same names for what they call. -/
structure Module.Carries (m m' : Module) : Prop where
  names : ∀ id, m.Calls id → m'.nameOf id = m.nameOf id
  defines : ∀ x, m'.defines x = (m.defines x).map fun c => ⟨⟨c.code.code, m'.nameOf⟩, c.params⟩

/-- A function with a body is the one found under its name. -/
def Module.BodiesFirst (m : Module) : Prop := ∀ g ∈ m.bodies, m.getFunction g.name = some g

/-- What holds of a session and of the definitions it has accepted. -/
structure Session.Built (A : Arith) (s : Session) (defs : List Definition) : Prop where
  compiled : CompiledAs A defs (s.modules s.builder.module)
  first : s.builder.module.BodiesFirst
  closed : s.builder.module.Closed
  params : s.builder.module.NodupParams
  moved : ∀ d, s.jit = some d → s.builder.module.bodies = []

/-- The function a definition is given its code in has the parameters that the
definition names, and they are distinct. -/
structure FunctionAST.Own (f : FunctionAST) (b : Builder) : Prop where
  nodup : f.prototype.args.Nodup
  params : b.OwnParams f.prototype

/-- The item at hand, if it is accepted, sees its own parameters. -/
def Session.OwnsParams (s : Session) : Prop :=
  ∀ f left, s.Reads f left → f.check s.builder = none → f.Own s.builder

/-- What a round adds to the program, and the session after it. -/
inductive Contributes (A : Arith) (s : Session) : List Definition → Session → Prop
  | skipped {left : List Lexeme} : Contributes A s [] { s with tokens := left }
  | declared {p : Prototype} {left : List Lexeme} :
      Contributes A s [] { s with tokens := left, builder := s.builder.declareExtern p }
  | threw {f : FunctionAST} {left : List Lexeme} {what : String} {b : Builder}
      (hreads : s.Reads f left) (hcodegen : f.codegen A s.builder = .error (.exception what) b) :
      Contributes A s [] { s with tokens := left, builder := b }
  | dropped {left : List Lexeme} {b : Builder} {d : JITDylib} {found : List String}
      (hjit : s.jit = some d) : Contributes A s [] { s with
        tokens := left
        builder := initializeModuleAndManagers b
        jit := some (d.resolve found) }
  | added {f : FunctionAST} {left : List Lexeme} {fn : Function} {b : Builder} {s' : Session}
      (hreads : s.Reads f left) (hcodegen : f.codegen A s.builder = .ok fn b)
      (hbuilder : s'.builder = b.turn s.jit.isSome)
      (hjit : s'.jit = s.jit.map fun d => d.add b.module) :
      Contributes A s [⟨f.prototype.name, f.prototype.args, f.body⟩] s'

section

variable {A : Arith} {E : Jit} {s s' : Session} {f : FunctionAST} {fn : Function}
variable {b b' b₁ b₂ : Builder} {left : List Lexeme} {m m' : Module} {defs : List Definition}
variable {held : List Module} {x : String}

/-! ## Modules -/

theorem defines_eq (m : Module) (x : String) : m.defines x =
    (m.getFunction x).bind fun f => f.body.map fun body =>
      ⟨⟨body.instrs, m.nameOf⟩, f.params.length⟩ := rfl

theorem carries_append {new : List Function} (hclosed : m.Closed)
    (heq : m'.functions = m.functions ++ new) (hnew : ∀ g ∈ new, g.body = none) :
    m.Carries m' where
  names := fun id hid => by
    obtain ⟨g, hg, rfl⟩ := hclosed id hid
    rw [nameOf_of_mem hg, nameOf_of_mem (heq ▸ List.mem_append_left _ hg)]
  defines := fun x => by
    rw [defines_eq, defines_eq]
    cases hf : m.getFunction x with
    | some g =>
        rw [Module.getFunction_append heq hf]
        cases hbody : g.body <;> simp [hbody]
    | none =>
        have hfind : m'.getFunction x = new.find? fun g => g.name = x := by
          show m'.functions.find? _ = _
          rw [heq, List.find?_append]
          have hnone : m.functions.find? (fun g => decide (g.name = x)) = none := hf
          rw [hnone]
          rfl
        rw [hfind]
        cases hg : new.find? fun g => decide (g.name = x) with
        | none => rfl
        | some g => simp [hnew g (List.mem_of_find?_eq_some hg)]

theorem bodiesFirst_append {new : List Function} (h : m.BodiesFirst)
    (heq : m'.functions = m.functions ++ new) (hnew : ∀ g ∈ new, g.body = none) :
    m'.BodiesFirst := by
  intro g hg
  obtain ⟨hmem, hbody⟩ := List.mem_filter.mp hg
  rw [heq] at hmem
  rcases List.mem_append.mp hmem with hmem | hmem
  · exact Module.getFunction_append heq (h g (List.mem_filter.mpr ⟨hmem, hbody⟩))
  · rw [hnew g hmem] at hbody
    cases hbody

theorem getFunction_erase {id : Nat} {g : Function} (hg : m.getFunction x = some g)
    (hne : g.id ≠ id) : (m.erase id).getFunction x = some g := by
  obtain ⟨hx, pre, post, heq, hpre⟩ := List.find?_eq_some_iff_append.mp hg
  show (m.functions.filter _).find? _ = _
  rw [heq, List.filter_append, List.filter_cons, if_pos (by simpa using hne)]
  refine List.find?_eq_some_iff_append.mpr ⟨hx, _, _, rfl, fun f hf => ?_⟩
  exact hpre f (List.mem_filter.mp hf).1

theorem bodiesFirst_erase (h : m.BodiesFirst) (hmem : fn ∈ m.functions) (hbody : fn.body = none) :
    (m.erase fn.id).BodiesFirst := by
  intro g hg
  rw [Module.bodies_erase hmem hbody] at hg
  refine getFunction_erase (h g hg) fun hid => ?_
  obtain ⟨hg, hsome⟩ := List.mem_filter.mp hg
  obtain rfl := List.inj_on_of_nodup_map m.ids_nodup hg hmem hid
  rw [hbody] at hsome
  cases hsome

/-- A function without a body that is not called can go. -/
theorem carries_erase (hfirst : m.BodiesFirst) (hclosed : m.Closed) (hmem : fn ∈ m.functions)
    (hbody : fn.body = none) (hcalls : ¬ m.Calls fn.id) : m.Carries (m.erase fn.id) where
  names := fun id hid => by
    obtain ⟨g, hg, rfl⟩ := hclosed id hid
    have hne : g.id ≠ fn.id := fun heq => hcalls (heq ▸ hid)
    rw [nameOf_of_mem hg]
    exact nameOf_of_mem (List.mem_filter.mpr ⟨hg, decide_eq_true hne⟩)
  defines := fun x => by
    rw [defines_eq, defines_eq]
    cases hf : m.getFunction x with
    | none =>
        have hnone : (m.erase fn.id).getFunction x = none := by
          refine List.find?_eq_none.mpr fun g hg => ?_
          exact List.find?_eq_none.mp hf g (List.mem_filter.mp hg).1
        rw [hnone]
        rfl
    | some g =>
        by_cases hid : g.id = fn.id
        · -- what is found now has no body, since a body would have been found first
          obtain rfl := List.inj_on_of_nodup_map m.ids_nodup (List.mem_of_find?_eq_some hf) hmem hid
          cases hf' : (m.erase g.id).getFunction x with
          | none => simp [hbody]
          | some g' =>
              have hg' := (List.mem_filter.mp (List.mem_of_find?_eq_some hf'))
              have hname := Module.getFunction_name hf'
              cases hbody' : g'.body with
              | none => simp [hbody, hbody']
              | some body =>
                  have hfound := hfirst g' (List.mem_filter.mpr ⟨hg'.1, by rw [hbody']; rfl⟩)
                  rw [hname, hf] at hfound
                  cases hfound
                  rw [hbody] at hbody'
                  cases hbody'
        · rw [getFunction_erase hf hid]
          cases hbody' : g.body <;> simp [hbody']

theorem nameOf_setBody (id : Nat) (body : Body) : (m.setBody id body).nameOf = m.nameOf := by
  funext j
  show ((m.functions.map _).find? _).map _ = (m.functions.find? _).map _
  rw [List.find?_map, Option.map_map]
  have hp : ((fun f : Function => decide (f.id = j)) ∘ fun f : Function =>
      if f.id = id then { f with body := some body } else f) = fun f => decide (f.id = j) := by
    funext f
    simp only [Function.comp_apply]
    split <;> rfl
  rw [hp]
  congr 1
  funext f
  simp only [Function.comp_apply]
  split <;> rfl

/-- The function a module finds under a name gets a body. -/
theorem defines_setBody (hfound : m.getFunction fn.name = some fn) (body : Body) (x : String) :
    (m.setBody fn.id body).defines x = if x = fn.name then
      some ⟨⟨body.instrs, m.nameOf⟩, fn.params.length⟩ else m.defines x := by
  rw [defines_eq, defines_eq, Module.getFunction_setBody, nameOf_setBody]
  by_cases hx : x = fn.name
  · subst hx
    rw [hfound, if_pos rfl]
    simp
  · rw [if_neg hx]
    cases hf : m.getFunction x with
    | none => rfl
    | some g =>
        have hne : g.id ≠ fn.id := fun hid => by
          obtain rfl := List.inj_on_of_nodup_map m.ids_nodup (List.mem_of_find?_eq_some hf)
            (List.mem_of_find?_eq_some hfound) hid
          exact hx (Module.getFunction_name hf).symm
        rw [Option.map_some, if_neg hne]

theorem bodiesFirst_setBody (h : m.BodiesFirst) (hfound : m.getFunction fn.name = some fn)
    (body : Body) : (m.setBody fn.id body).BodiesFirst := by
  intro g hg
  obtain ⟨hmem, hbody⟩ := List.mem_filter.mp hg
  obtain ⟨g₀, hg₀, rfl⟩ := List.mem_map.mp hmem
  rw [Module.getFunction_setBody]
  by_cases hid : g₀.id = fn.id
  · obtain rfl := List.inj_on_of_nodup_map m.ids_nodup hg₀ (List.mem_of_find?_eq_some hfound) hid
    rw [if_pos rfl, hfound]
    exact congrArg some (if_pos rfl)
  · rw [if_neg hid] at hbody ⊢
    rw [h g₀ (List.mem_filter.mpr ⟨hg₀, hbody⟩)]
    exact congrArg some (if_neg hid)

/-! ## Linking -/

theorem link_snoc (held : List Module) (m : Module) (x : String) :
    link (held ++ [m]) x = (link held x).or (m.defines x) := by
  unfold link
  rw [List.findSome?_append]
  congr 1
  rw [List.findSome?_cons]
  cases m.defines x <;> rfl

theorem definitionOf_snoc (defs : List Definition) (F : Definition) (x : String) :
    definitionOf (defs ++ [F]) x =
      (definitionOf defs x).or (if F.name = x then some F else none) := by
  unfold definitionOf
  rw [List.find?_append]
  congr 1
  by_cases hx : F.name = x <;> simp [hx]

theorem defines_eq_some {c : Callee} (h : m.defines x = some c) :
    ∃ g ∈ m.functions, ∃ body, g.body = some body ∧
      c = ⟨⟨body.instrs, m.nameOf⟩, g.params.length⟩ := by
  rw [defines_eq] at h
  obtain ⟨g, hg, h⟩ := Option.bind_eq_some_iff.mp h
  obtain ⟨body, hbody, rfl⟩ := Option.map_eq_some_iff.mp h
  exact ⟨g, List.mem_of_find?_eq_some hg, body, hbody, rfl⟩

theorem defines_bodiless (hm : m.bodies = []) (x : String) : m.defines x = none := by
  cases hd : m.defines x with
  | none => rfl
  | some c =>
      obtain ⟨g, hg, body, hbody, -⟩ := defines_eq_some hd
      have hmem : g ∈ m.bodies := List.mem_filter.mpr ⟨hg, by rw [hbody]; rfl⟩
      rw [hm] at hmem
      cases hmem

theorem link_bodiless (hm : m.bodies = []) : link (held ++ [m]) = link held := by
  funext x
  rw [link_snoc, defines_bodiless hm, Option.or_none]

theorem compiledAs_congr {ms ms' : List Module} (h : CompiledAs A defs ms)
    (heq : link ms' = link ms) : CompiledAs A defs ms' := fun x => heq ▸ h x

/-- What calls the same names is compiled from the same. -/
theorem Compiles.of_names {F : Definition} {c : Callee} (h : Compiles A F c)
    (hd : m.defines x = some c) (hc : m.Carries m') :
    Compiles A F ⟨⟨c.code.code, m'.nameOf⟩, c.params⟩ := by
  obtain ⟨hparams, b, v, b', hemits, hcode, hnames⟩ := h
  refine ⟨hparams, b, v, b', hemits, hcode, fun id hid => ?_⟩
  obtain ⟨g, hg, body, hbody, rfl⟩ := defines_eq_some hd
  have hcalls : m.Calls id := by
    obtain ⟨k, i, hi, hcall⟩ := hid
    have hsame : body.instrs k = (b'.returning v).body.instrs k := congrFun hcode k
    exact ⟨g, hg, body, hbody, k, i, hsame ▸ hi, hcall⟩
  exact (hc.names id hcalls).trans (hnames id hid)

theorem CompiledAs.carries (h : CompiledAs A defs (held ++ [m])) (hc : m.Carries m') :
    CompiledAs A defs (held ++ [m']) := by
  intro x
  have hx := h x
  rw [link_snoc] at hx ⊢
  cases hheld : link held x with
  | some c =>
      rw [hheld] at hx
      exact hx
  | none =>
      rw [hheld, Option.none_or] at hx
      rw [Option.none_or, hc.defines]
      cases hm : m.defines x with
      | none =>
          rw [hm] at hx
          exact hx
      | some c =>
          rw [hm] at hx
          generalize definitionOf defs x = o at hx
          cases hx with
          | some hcompiles => exact .some (hcompiles.of_names hm hc)

/-- A definition more, and its body. -/
theorem CompiledAs.setBody {F : Definition} {body : Body} (h : CompiledAs A defs (held ++ [m]))
    (hfound : m.getFunction fn.name = some fn) (hbody : fn.body = none) (hname : F.name = fn.name)
    (hF : Compiles A F ⟨⟨body.instrs, m.nameOf⟩, fn.params.length⟩) :
    CompiledAs A (defs ++ [F]) (held ++ [m.setBody fn.id body]) := by
  intro x
  have hx := h x
  rw [link_snoc] at hx ⊢
  rw [definitionOf_snoc, defines_setBody hfound, hname]
  by_cases heq : x = fn.name
  · subst heq
    have hnone : m.defines fn.name = none := by
      rw [defines_eq, hfound, Option.bind_some, hbody]
      rfl
    rw [hnone, Option.or_none] at hx
    rw [if_pos rfl, if_pos rfl]
    generalize definitionOf defs fn.name = o, link held fn.name = o' at hx
    cases hx with
    | none => exact .some hF
    | some hc => exact .some hc
  · rw [if_neg heq, if_neg (Ne.symm heq), Option.or_none]
    exact hx

/-! ## Items -/

/-- What the code generator has done when it accepts an item. -/
theorem codegen_emits (h : f.codegen A b = .ok fn b') : ∃ b₁ b₂ b₃ v b₄,
    Declared f.prototype b fn b₁ ∧
    Keeps (fun _ => True) (b₁.withPrecedence f.prototype) b₂ ∧
    b' = { b₂ with module := b₂.module.setBody fn.id b₂.body } ∧
    Emits A ⟨fn.name, fn.params, f.body⟩ b₃ v b₄ ∧ b₂.body = (b₄.returning v).body ∧
    b₂.module.nameOf = b₄.module.nameOf := by
  obtain ⟨b₁, b₂, hd, hkeeps, heq⟩ :=
    codegen_defined (fun _ _ => trivial : ∀ c ∈ f.body.operators, (fun _ => True) c) h
  obtain ⟨b₁', b₃, v, b₄, -, hp, hv, heq'⟩ := functionCodegen_ok h
  refine ⟨b₁, b₂, b₃, v, b₄, hd, hkeeps, heq, ⟨⟨_, hp⟩, hv⟩, ?_, ?_⟩
  · have hfinish : (b₄.finish fn v).body = (b₄.returning v).body := rfl
    exact ((congrArg Builder.body heq).symm.trans (congrArg Builder.body heq')).trans hfinish
  · have hnames : (b₂.module.setBody fn.id b₂.body).nameOf =
        (b₄.module.setBody fn.id (b₄.returning v).body).nameOf :=
      congrArg (fun b => b.module.nameOf) (heq.symm.trans heq')
    rwa [nameOf_setBody, nameOf_setBody] at hnames

theorem codegen_name (h : f.codegen A b = .ok fn b') : fn.name = f.prototype.name := by
  obtain ⟨b₁, b₂, b₃, v, b₄, hd, -⟩ := codegen_emits h
  exact Module.getFunction_name hd.found

/-- Distinct names in the same places are the same list. -/
theorem eq_of_sameParams {params args : List String} (h : SameParams params args)
    (hargs : args.Nodup) (hparams : params.Nodup) : params = args := by
  have hlen : params.length = args.length :=
    ((List.perm_ext_iff_of_nodup hparams hargs).mpr h.names).length_eq
  refine List.ext_getElem? fun i => ?_
  cases hi : args[i]? with
  | none =>
      rw [List.getElem?_eq_none_iff] at hi ⊢
      omega
  | some x =>
      exact h.places i x hi (List.count_eq_one_of_mem hargs (List.mem_of_getElem? hi))

/-- What is accepted of a definition with parameters of its own has them. -/
theorem FunctionAST.Own.params_eq (h : f.Own b) (hnodup : b.module.NodupParams)
    (hcodegen : f.codegen A b = .ok fn b') : fn.params = f.prototype.args := by
  obtain ⟨b₁, b₂, b₃, v, b₄, hd, -⟩ := codegen_emits hcodegen
  have hparams := hd.params
  have hown := h.params
  unfold Builder.paramsOf at hparams
  unfold Builder.OwnParams at hown
  rw [hparams]
  cases hf : b.module.getFunction f.prototype.name with
  | none => exact setNames_of_nodup 0 h.nodup
  | some g =>
      simp only [hf] at hown
      exact eq_of_sameParams hown h.nodup (hnodup g (List.mem_of_find?_eq_some hf))

/-- An item that is accepted is one more definition. -/
theorem CompiledAs.codegen (h : CompiledAs A defs (held ++ [b.module]))
    (hclosed : b.module.Closed) (hcodegen : f.codegen A b = .ok fn b')
    (hparams : fn.params = f.prototype.args) :
    CompiledAs A (defs ++ [⟨f.prototype.name, f.prototype.args, f.body⟩])
      (held ++ [b'.module]) := by
  rw [← codegen_name hcodegen, ← hparams]
  obtain ⟨b₁, b₂, b₃, v, b₄, hd, hkeeps, rfl, hemits, hbody, hnames⟩ := codegen_emits hcodegen
  obtain ⟨new, heq, hnew⟩ := hd.functions hkeeps
  have hname : fn.name = f.prototype.name := Module.getFunction_name hd.found
  have hfound : b₂.module.getFunction fn.name = some fn := by
    obtain ⟨new', heq', -⟩ := hkeeps.functions
    rw [(withPrecedence_tables b₁ f.prototype).2.1] at heq'
    exact Module.getFunction_append heq' (hname ▸ hd.found)
  refine (h.carries (carries_append hclosed heq hnew)).setBody hfound hd.bodiless rfl
    ⟨rfl, b₃, v, b₄, hemits, congrArg Body.instrs hbody, fun id _ => ?_⟩
  rw [hnames]

theorem bodiesFirst_codegen (h : b.module.BodiesFirst) (hcodegen : f.codegen A b = .ok fn b') :
    b'.module.BodiesFirst := by
  obtain ⟨b₁, b₂, -, -, -, hd, hkeeps, rfl, -⟩ := codegen_emits hcodegen
  obtain ⟨new, heq, hnew⟩ := hd.functions hkeeps
  have hname : fn.name = f.prototype.name := Module.getFunction_name hd.found
  have hfound : b₂.module.getFunction fn.name = some fn := by
    obtain ⟨new', heq', -⟩ := hkeeps.functions
    rw [(withPrecedence_tables b₁ f.prototype).2.1] at heq'
    exact Module.getFunction_append heq' (hname ▸ hd.found)
  exact bodiesFirst_setBody (bodiesFirst_append h heq hnew) hfound b₂.body

/-- An item that throws leaves the definitions as they were. -/
theorem Threw.carries (h : Threw f.prototype b b') (hfirst : b.module.BodiesFirst)
    (hclosed : b.module.Closed) (hspares : ¬ b.HasBody f.prototype.name →
      ∀ g, b.module.getFunction f.prototype.name = some g → ¬ b.module.Calls g.id) :
    b.module.Carries b'.module ∧ b'.module.BodiesFirst := by
  cases h with
  | redefined _ heq =>
      have hsame : b'.module.functions = b.module.functions ++ [] := by
        rw [heq, List.append_nil]
        rfl
      refine ⟨carries_append hclosed hsame fun _ hg => absurd hg List.not_mem_nil, ?_⟩
      rw [heq]
      exact hfirst
  | @erased fn b₁ b₂ hd hkeeps heq =>
      obtain ⟨new, hfunctions, hnew⟩ := hd.functions hkeeps
      have hmem := hd.mem_keeps hkeeps
      have hfirst₂ := bodiesFirst_append hfirst hfunctions hnew
      have hclosed₂ := hclosed.append hfunctions hnew
      have hcalls : ¬ b₂.module.Calls fn.id := by
        intro hcall
        have hcall := Module.Calls.of_append hfunctions hnew hcall
        obtain ⟨g, hg, hid⟩ := hclosed fn.id hcall
        exact hspares hd.not_hasBody g (hd.found_before hkeeps hg hid) (hid ▸ hcall)
      have h₁ := carries_append hclosed hfunctions hnew
      have h₂ := carries_erase hfirst₂ hclosed₂ hmem hd.bodiless hcalls
      rw [heq]
      refine ⟨⟨fun id hid => ?_, fun x => ?_⟩, bodiesFirst_erase hfirst₂ hmem hd.bodiless⟩
      · obtain ⟨g, hg, body, hbody, hcall⟩ := hid
        have hid₂ : b₂.module.Calls id :=
          ⟨g, hfunctions ▸ List.mem_append_left _ hg, body, hbody, hcall⟩
        exact (h₂.names id hid₂).trans (h₁.names id ⟨g, hg, body, hbody, hcall⟩)
      · rw [h₂.defines, h₁.defines, Option.map_map]
        rfl

/-! ## Rounds -/

/-- Where the code generator accepts the item at hand, it is the item accepted. -/
theorem FunctionAST.accepted_ok (hcodegen : f.codegen A b = .ok fn b') :
    f.accepted A b = [⟨f.prototype.name, f.prototype.args, f.body⟩] := by
  unfold FunctionAST.accepted
  rw [hcodegen]

theorem FunctionAST.accepted_error {e : Abort} (hcodegen : f.codegen A b = .error e b') :
    f.accepted A b = [] := by
  unfold FunctionAST.accepted
  rw [hcodegen]

theorem contributes_definition (htok : current s.tokens = .def_)
    (h : handleDefinition A E s = .ok s') : Contributes A s (s.accepted A) s' := by
  unfold handleDefinition at h
  unfold Session.accepted
  simp only [htok]
  cases hp : parseDefinition s.builder.binopPrecedence s.tokens with
  | error e left =>
      rw [hp] at h
      cases h
      exact .skipped
  | ok f left =>
      simp only [hp] at h
      cases hc : f.codegen A s.builder with
      | error e b =>
          simp only [hc] at h
          simp only [FunctionAST.accepted_error hc]
          cases e with
          | exception what =>
              cases h
              exact .threw (.definition htok hp) hc
          | misread => cases h
      | ok fn b =>
          simp only [hc] at h
          simp only [FunctionAST.accepted_ok hc]
          cases hj : s.jit with
          | none =>
              simp only [hj] at h
              cases h
              exact .added (.definition htok hp) hc (by rw [hj]; rfl) (by rw [hj]; rfl)
          | some d =>
              simp only [hj] at h
              split at h
              · cases h
                exact .added (.definition htok hp) hc (by rw [hj]; rfl) (by rw [hj]; rfl)
              · cases h

theorem contributes_topLevel (htok : current s.tokens ∉ [.eof, .def_, .extern_, .chr ';'])
    (h : handleTopLevelExpression A E s = .ok s') : Contributes A s (s.accepted A) s' := by
  have htok' := htok
  simp only [List.mem_cons, List.not_mem_nil, or_false, not_or] at htok'
  obtain ⟨heof, hdef, hextern, hsemi⟩ := htok'
  unfold Session.accepted
  split
  · contradiction
  · contradiction
  · contradiction
  simp only [hsemi, false_or]
  unfold handleTopLevelExpression at h
  cases hp : parseTopLevelExpr s.builder.binopPrecedence s.tokens with
  | error e left =>
      rw [hp] at h
      cases h
      simp only [ite_self]
      exact .skipped
  | ok f left =>
      simp only [hp] at h
      cases hc : f.codegen A s.builder with
      | error e b =>
          simp only [hc] at h
          simp only [FunctionAST.accepted_error hc, ite_self]
          cases e with
          | exception what =>
              cases h
              exact .threw (.topLevel htok hp) hc
          | misread => cases h
      | ok fn b =>
          simp only [hc] at h
          cases hj : s.jit with
          | none =>
              simp only [hj] at h
              cases h
              simp only [FunctionAST.accepted_ok hc, Option.isSome_none, Bool.false_eq_true,
                if_false]
              exact .added (.topLevel htok hp) hc (by rw [hj]; rfl) (by rw [hj]; rfl)
          | some d =>
              simp only [hj] at h
              split at h
              · cases hfound : E.evaluate (d.add b.module) with
                | none =>
                    rw [hfound] at h
                    cases h
                | some found =>
                    rw [hfound] at h
                    cases h
                    simp only [Option.isSome_some, if_true]
                    exact .dropped hj
              · cases h

/-- A round adds what it accepts. -/
theorem contributes_next (h : next A E s = some s') : Contributes A s (s.accepted A) s' := by
  rw [next_eq_some] at h
  by_cases hdef : current s.tokens = .def_
  · exact contributes_definition hdef ((round_definition hdef).symm.trans h)
  by_cases htop : current s.tokens ∈ [.eof, .def_, .extern_, .chr ';']
  · have hnone : s.accepted A = [] := by
      simp only [List.mem_cons, List.not_mem_nil, or_false] at htop
      unfold Session.accepted
      rcases htop with htok | htok | htok | htok
      · rw [htok]
      · exact absurd htok hdef
      · rw [htok]
      · rw [htok]
        exact if_pos (.inl rfl)
    rw [hnone]
    simp only [List.mem_cons, List.not_mem_nil, or_false] at htop
    rcases htop with htok | htok | htok | htok
    · unfold round at h
      rw [htok] at h
      cases h
    · exact absurd htok hdef
    · rw [round_prototype htok] at h
      unfold handleExtern at h
      cases hp : parseExtern s.tokens with
      | error e left =>
          rw [hp] at h
          cases h
          exact .skipped
      | ok p left =>
          rw [hp] at h
          cases h
          exact .declared
    · unfold round at h
      rw [htok] at h
      cases h
      exact .skipped
  · exact contributes_topLevel htop ((round_topLevel htop).symm.trans h)

theorem Session.Built.next (h : s.Built A defs) (hspares : s.jit = none → s.SparesCallees)
    (howns : s.OwnsParams) (hn : Kaleido.next A E s = some s') :
    s'.Built A (defs ++ s.accepted A) := by
  -- with the JIT there are no bodies that could call what is erased
  have hspares : s.SparesCallees := by
    cases hj : s.jit with
    | none => exact hspares hj
    | some d =>
        rintro f left e - - - g hg ⟨g', hg', body, hbody, -⟩
        have hmem : g' ∈ s.builder.module.bodies :=
          List.mem_filter.mpr ⟨hg', by rw [hbody]; rfl⟩
        rw [h.moved d hj] at hmem
        cases hmem
  have hclosed := closed_next h.closed hspares hn
  have hparams := nodupParams_next h.params hn
  have hc := contributes_next hn
  generalize s.accepted A = ds at hc
  cases hc with
  | skipped =>
      rw [List.append_nil]
      exact ⟨h.compiled, h.first, hclosed, hparams, h.moved⟩
  | @declared p left =>
      rw [List.append_nil]
      have hnew : ∀ g ∈ [s.builder.module.newFunction p.name (setNames [] p.args 0)],
          g.body = none := fun g hg => List.mem_singleton.mp hg ▸ rfl
      refine ⟨h.compiled.carries (carries_append h.closed rfl hnew),
        bodiesFirst_append h.first rfl hnew, hclosed, hparams, fun d hd => ?_⟩
      show (s.builder.module.functions ++ [_]).filter _ = []
      rw [List.filter_append]
      have hbodies : s.builder.module.functions.filter (fun f => f.body.isSome) = [] :=
        h.moved d hd
      rw [hbodies]
      rfl
  | @threw f left what b hreads hcodegen =>
      rw [List.append_nil]
      have hcheck := functionCodegen_check A f s.builder
      rw [hcodegen] at hcheck
      obtain ⟨hcarries, hfirst⟩ := (threw_of_error hcodegen).carries h.first h.closed
        fun hnot => hspares f left _ hreads hnot hcheck
      exact ⟨h.compiled.carries hcarries, hfirst, hclosed, hparams, fun d hd =>
        (threw_of_error hcodegen).tables.2.1.trans (h.moved d hd)⟩
  | @dropped left b d found hjit =>
      rw [List.append_nil]
      refine ⟨compiledAs_congr h.compiled ?_, nofun, hclosed, hparams, fun _ _ => rfl⟩
      unfold Session.modules
      rw [hjit]
      show link (d.modules ++ [Module.empty]) = link (d.modules ++ [s.builder.module])
      rw [link_bodiless (m := Module.empty) rfl, link_bodiless (h.moved d hjit)]
  | @added f left fn b s' hreads hcodegen hbuilder hjit =>
      have hcheck := functionCodegen_check A f s.builder
      rw [hcodegen] at hcheck
      have hown := (howns f left hreads hcheck).params_eq h.params hcodegen
      have hcompiled := h.compiled.codegen h.closed hcodegen hown
      have hfirst := bodiesFirst_codegen h.first hcodegen
      cases hj : s.jit with
      | none =>
          rw [hj] at hbuilder hjit hcompiled
          refine ⟨?_, ?_, hclosed, hparams, fun d hd => ?_⟩
          · unfold Session.modules
            rw [hjit, hbuilder]
            exact hcompiled
          · rw [hbuilder]
            exact hfirst
          · rw [hjit] at hd
            cases hd
      | some d =>
          rw [hj] at hbuilder hjit hcompiled
          refine ⟨?_, ?_, hclosed, hparams, fun _ _ => ?_⟩
          · unfold Session.modules
            rw [hjit, hbuilder]
            exact compiledAs_congr hcompiled (link_bodiless (m := Module.empty) rfl)
          · rw [hbuilder]
            exact fun _ hg => nomatch hg
          · rw [hbuilder]
            rfl

theorem Session.Built.runN {n : Nat} {t : Session} (h : s.Built A defs)
    (hrun : Transition.runN (Kaleido.next A E) n s = some t)
    (hspares : ∀ k < n, ∀ u, Transition.runN (Kaleido.next A E) k s = some u → u.jit = none →
      u.SparesCallees)
    (howns : ∀ k < n, ∀ u, Transition.runN (Kaleido.next A E) k s = some u → u.OwnsParams) :
    t.Built A (defs ++ acceptedIn A E n s) := by
  induction n generalizing s defs with
  | zero =>
      cases hrun
      unfold acceptedIn
      rwa [List.append_nil]
  | succ n ih =>
      rw [runN_next] at hrun
      cases hs : Kaleido.next A E s with
      | none => rw [hs] at hrun; cases hrun
      | some s' =>
          rw [hs] at hrun
          have hnext := h.next (hspares 0 (Nat.succ_pos n) s rfl) (howns 0 (Nat.succ_pos n) s rfl)
            hs
          have ht := ih hnext hrun
            (fun k hk u hu => hspares (k + 1) (Nat.succ_lt_succ hk) u (by rw [runN_succ hs, hu]))
            fun k hk u hu => howns (k + 1) (Nat.succ_lt_succ hk) u (by rw [runN_succ hs, hu])
          unfold acceptedIn
          rw [hs]
          rwa [List.append_assoc] at ht

/-! ## Sessions -/

end

end LlvmPasses.Kaleido
