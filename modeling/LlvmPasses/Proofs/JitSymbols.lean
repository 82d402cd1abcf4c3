import LlvmPasses.Proofs.FailedItems
import LlvmPasses.Proofs.SessionCalls

/-!
# Symbols of the JIT

A module handed to the JIT defines one symbol, the one of the item at hand: the
redefinition check keeps a second body out of the module, but it looks at no
module that has been handed over before. So nothing but the names the program
gives its definitions keeps a symbol from being added twice.

There are three kinds of symbols a name can meet there: those of the modules,
which by an invariant of the loop are the names of the definitions accepted so
far; the two that the driver's constructor adds; and those that the process was
searched for when an expression was evaluated. The expression's own name is
none of them between two rounds. It is no word, so no definition can have it,
and the search is only for symbols that the JIT does not have.

`symbols_added_once` is about every session in which each definition has a name
that is new to the JIT. Its step lemma is `moved_next`, for the invariant
`Moved`; `addModule_iff` then tells for the item at hand whether its module is
taken. What the JIT does with a module is a parameter, of which `DefinesOnce`
says when it refuses one. `returningJit` and `searchingJit` are two that
satisfy this, the second in a process that has functions of its own.
-/

namespace LlvmPasses.Kaleido

open StateError Transition

/-- The symbols a module defines. -/
def Module.symbols (m : Module) : List String := m.bodies.map Function.name

/-- What `Driver::Driver` hands to `addSymbols`. -/
def builtinSymbols : List String := ["putchard", "printd"]

/-- The symbols defined in the JIT. -/
def JITDylib.symbols (d : JITDylib) : List String :=
  builtinSymbols ++ d.resolved ++ d.modules.flatMap Module.symbols

/-- A symbol is defined once: adding a module fails exactly if it defines one
that is defined already, and the process is searched for no such symbol. -/
structure Jit.DefinesOnce (E : Jit) : Prop where
  addModule : ∀ d m, E.addModule d m = true ↔ ∀ x ∈ m.symbols, x ∉ d.symbols
  evaluate : ∀ d found, E.evaluate d = some found → ∀ x ∈ found, x ∉ d.symbols

/-- What the item at hand does to the symbols of the JIT: a module that is added
defines new ones only, and a redefinition is reported with the JIT left as it
was. -/
structure Session.AddsNew (A : Arith) (E : Jit) (s : Session) : Prop where
  added : ∀ f left fn b d, s.Reads f left → f.codegen A s.builder = .ok fn b → s.jit = some d →
    (∀ x ∈ b.module.symbols, x ∉ d.symbols) ∧ E.addModule d b.module = true
  reported : ∀ f left d, s.Reads f left → s.jit = some d → f.prototype.name ∈ d.symbols →
    ∃ b, f.codegen A s.builder = .error (.exception "Function cannot be redefined") b ∧
      ∃ s', round A E s = .ok s' ∧ s'.jit = some d

/-- A definition at hand has a name that the JIT has no symbol for. -/
def Session.DefinesNew (s : Session) : Prop :=
  ∀ f left d, current s.tokens = .def_ →
    parseDefinition s.builder.binopPrecedence s.tokens = .ok f left → s.jit = some d →
    f.prototype.name ∉ d.symbols

instance (s : Session) : Decidable s.DefinesNew :=
  decidable_of_iff (current s.tokens = .def_ → s.jit.all (fun d =>
      okAll (parseDefinition s.builder.binopPrecedence s.tokens) fun f _ =>
        decide (f.prototype.name ∉ d.symbols)) = true) <| by
    unfold Session.DefinesNew
    simp only [Option.all_eq_true, okAll_iff, decide_eq_true_eq]
    exact ⟨fun h f left d htok hparse hd => h htok d hd f left hparse,
      fun h htok d hd f left hparse => h f left d htok hparse hd⟩

/-- With the JIT no function of the module has a body between two items, the
symbols of the modules handed over are the names of the definitions, and the
process has not been searched for the name of an expression. -/
structure Session.Moved (s : Session) : Prop where
  lexical : AllLexical s.tokens
  named : ∀ d ∈ s.definitions, d.Named
  bodies : ∀ d, s.jit = some d → s.builder.module.bodies = []
  symbols : ∀ d, s.jit = some d →
    d.modules.flatMap Module.symbols = s.definitions.map Prototype.name
  resolved : ∀ d, s.jit = some d → "__anon_expr" ∉ d.resolved

section

variable {A : Arith} {E : Jit} {s s' : Session} {f : FunctionAST} {fn : Function}
variable {b b' : Builder} {left : List Lexeme} {d : JITDylib}

theorem Module.bodies_setBody {m : Module} (hm : m.bodies = []) (hfn : fn ∈ m.functions)
    (body : Body) : (m.setBody fn.id body).bodies = [{ fn with body := some body }] := by
  have hnone : ∀ g ∈ m.functions, g.body.isSome = false := by
    intro g hg
    by_contra hsome
    have hmem : g ∈ m.bodies := List.mem_filter.mpr ⟨hg, (Bool.not_eq_false _).mp hsome⟩
    rw [hm] at hmem
    cases hmem
  have hids := m.ids_nodup
  show (m.functions.map _).filter _ = _
  generalize m.functions = gs at hfn hnone hids
  induction gs with
  | nil => cases hfn
  | cons g gs ih =>
      rw [List.map_cons, List.nodup_cons] at hids
      rw [List.map_cons, List.filter_cons]
      have hg := hnone g (List.mem_cons_self ..)
      by_cases hid : g.id = fn.id
      · -- the others have other handles, so they stay without a body
        have hrest : (gs.map fun f => if f.id = fn.id then { f with body := some body }
            else f).filter (fun f => f.body.isSome) = [] := by
          refine List.filter_eq_nil_iff.mpr fun h hh => ?_
          obtain ⟨h', hh', rfl⟩ := List.mem_map.mp hh
          have hne : ¬ h'.id = fn.id := fun heq =>
            hids.1 (hid ▸ heq ▸ List.mem_map_of_mem hh')
          rw [if_neg hne, hnone h' (List.mem_cons_of_mem _ hh')]
          exact Bool.false_ne_true
        rw [if_pos hid, hrest]
        rcases List.mem_cons.mp hfn with rfl | hfn
        · rfl
        · exact absurd (hid ▸ List.mem_map_of_mem hfn) hids.1
      · rw [if_neg hid, if_neg (by simp [hg])]
        rcases List.mem_cons.mp hfn with rfl | hfn
        · exact absurd rfl hid
        · exact ih hfn (fun h hh => hnone h (List.mem_cons_of_mem _ hh)) hids.2

/-- From a module without bodies, what is accepted is the one symbol defined. -/
theorem symbols_codegen (hm : b.module.bodies = []) (hcodegen : f.codegen A b = .ok fn b') :
    b'.module.symbols = [f.prototype.name] := by
  obtain ⟨b₁, b₂, hd, hkeeps, rfl⟩ :=
    codegen_defined (fun _ _ => trivial : ∀ c ∈ f.body.operators, (fun _ => True) c) hcodegen
  have hbodies : b₂.module.bodies = [] := by
    rw [hkeeps.bodies, (withPrecedence_tables b₁ f.prototype).2.1, hd.declares.bodies]
    exact hm
  show (b₂.module.setBody fn.id b₂.body).bodies.map Function.name = _
  rw [Module.bodies_setBody hbodies (hd.mem_keeps hkeeps)]
  have hname : fn.name = f.prototype.name := Module.getFunction_name hd.found
  exact congrArg (fun x => [x]) hname

theorem moved_start (strtod : String → Double) (useJIT : Bool) (input : List UInt8) :
    (Session.start strtod useJIT input).Moved where
  lexical := lexical_start strtod useJIT input
  named := nofun
  bodies := fun _ _ => rfl
  symbols := fun d hd => by
    cases useJIT with
    | false => cases hd
    | true =>
        cases hd
        rfl
  resolved := fun d hd => by
    cases useJIT with
    | false => cases hd
    | true =>
        cases hd
        exact List.not_mem_nil

theorem mem_symbols_add {m : Module} {x : String} (h : x ∈ m.symbols) : x ∈ (d.add m).symbols :=
  List.mem_append_right _ (List.mem_flatMap.mpr
    ⟨m, List.mem_append_right _ (List.mem_singleton_self m), h⟩)

theorem moved_next (hE : E.DefinesOnce) (h : s.Moved) (hn : next A E s = some s') : s'.Moved := by
  have hr := rounds_of_next hn
  have hlex := hr.lexical h.lexical
  cases hr with
  | skipped _ => exact ⟨hlex, h.named, h.bodies, h.symbols, h.resolved⟩
  | @declared p left htok hparse =>
      refine ⟨hlex, h.named, fun d hd => ?_, h.symbols, h.resolved⟩
      show (s.builder.module.functions ++ [_]).filter _ = []
      rw [List.filter_append]
      have hbodies : s.builder.module.functions.filter (fun f => f.body.isSome) = [] :=
        h.bodies d hd
      rw [hbodies]
      rfl
  | threw hreads hcodegen =>
      exact ⟨hlex, h.named, fun d hd =>
        (threw_of_error hcodegen).tables.2.1.trans (h.bodies d hd), h.symbols, h.resolved⟩
  | @defined f left fn b htok hparse hcodegen =>
      have hyields := (Triple.ok (yields_definition _) h.lexical hparse).2
      refine ⟨hlex, fun d hd => ?_, fun d hd => ?_, fun d hd => ?_, fun d hd => ?_⟩
      · rcases List.mem_append.mp hd with hd | hd
        · exact h.named d hd
        · exact List.mem_singleton.mp hd ▸ hyields.1
      · obtain ⟨d', hd', -⟩ := Option.map_eq_some_iff.mp hd
        show (b.turn s.jit.isSome).module.bodies = []
        rw [hd']
        rfl
      · obtain ⟨d', hd', rfl⟩ := Option.map_eq_some_iff.mp hd
        show (d'.modules ++ [b.module]).flatMap _ = _
        rw [List.flatMap_append, h.symbols d' hd', List.map_append]
        simp [symbols_codegen (h.bodies d' hd') hcodegen]
      · obtain ⟨d', hd', rfl⟩ := Option.map_eq_some_iff.mp hd
        exact h.resolved d' hd'
  | @evaluated f left fn b found hparse hcodegen hfound =>
      have hname := (Triple.ok (yields_topLevelExpr _) h.lexical hparse).2.1
      refine ⟨hlex, h.named, fun d hd => ?_, fun d hd => ?_, fun d hd => ?_⟩
      · obtain ⟨d', hd', -⟩ := Option.map_eq_some_iff.mp hd
        show (b.turn s.jit.isSome).module.bodies = []
        rw [hd']
        rfl
      · obtain ⟨d', hd', rfl⟩ := Option.map_eq_some_iff.mp hd
        exact h.symbols d' hd'
      · obtain ⟨d', hd', rfl⟩ := Option.map_eq_some_iff.mp hd
        intro hmem
        rcases List.mem_append.mp hmem with hmem | hmem
        · exact h.resolved d' hd' hmem
        · -- while it is evaluated the expression's own symbol is there
          refine hE.evaluate _ _ (hfound d' hd') _ hmem (mem_symbols_add ?_)
          rw [symbols_codegen (h.bodies d' hd') hcodegen, hname]
          exact List.mem_singleton_self _

/-- An expression's name is new to the JIT. -/
theorem Session.Moved.anon_new (h : s.Moved) (hd : s.jit = some d) :
    "__anon_expr" ∉ d.symbols := by
  intro hmem
  rcases List.mem_append.mp hmem with hmem | hmem
  · rcases List.mem_append.mp hmem with hmem | hmem
    · exact absurd hmem (by decide)
    · exact h.resolved d hd hmem
  · rw [h.symbols d hd] at hmem
    obtain ⟨p, hp, hname⟩ := List.mem_map.mp hmem
    exact (h.named p hp).ne_anon hname

/-- The name of the item at hand is new to the JIT. -/
theorem Session.Moved.name_new (h : s.Moved) (hnew : s.DefinesNew) (hreads : s.Reads f left)
    (hd : s.jit = some d) : f.prototype.name ∉ d.symbols := by
  cases hreads with
  | definition htok hparse => exact hnew f left d htok hparse hd
  | topLevel htok hparse =>
      have hname := (Triple.ok (yields_topLevelExpr _) h.lexical hparse).2.1
      rw [hname]
      exact h.anon_new hd

/-- The JIT takes the module of an item exactly if it has no symbol for its
name. -/
theorem Session.Moved.addModule_iff (h : s.Moved) (hE : E.DefinesOnce) (hd : s.jit = some d)
    (hcodegen : f.codegen A s.builder = .ok fn b) :
    E.addModule d b.module = true ↔ f.prototype.name ∉ d.symbols := by
  rw [hE.addModule, symbols_codegen (h.bodies d hd) hcodegen]
  exact List.forall_mem_singleton

theorem Session.Moved.addsNew (h : s.Moved) (hE : E.DefinesOnce) (hnew : s.DefinesNew) :
    s.AddsNew A E where
  added := fun f left fn b d hreads hcodegen hd => by
    have hadd := (h.addModule_iff hE hd hcodegen).mpr (h.name_new hnew hreads hd)
    exact ⟨(hE.addModule d b.module).mp hadd, hadd⟩
  reported := fun _ _ _ hreads hd hmem => absurd hmem (h.name_new hnew hreads hd)

/-- In a session with the JIT whose definitions all have new names, no symbol
is added twice. -/
theorem symbols_added_once (A : Arith) (E : Jit) (hE : E.DefinesOnce)
    (strtod : String → Double) (input : List UInt8) {n : Nat}
    (hrun : runN (next A E) n (.start strtod true input) = some s)
    (hnew : ∀ k ≤ n, ∀ t, runN (next A E) k (.start strtod true input) = some t →
      t.DefinesNew) : s.AddsNew A E :=
  have h : s.Moved := runN_induction (C := fun _ => True) hrun (moved_start strtod true input)
    (fun _ _ _ _ => trivial) fun _ _ ha _ hstep => moved_next hE ha hstep
  h.addsNew hE (hnew n (Nat.le_refl n) s hrun)

end

/-! ### Names that are new, and one defined twice -/

/-- A JIT in a process that has a `sin`: what is evaluated returns if nothing
else is missing. -/
def searchingJit : Jit where
  addModule := fun d m => decide (∀ x ∈ m.symbols, x ∉ d.symbols)
  evaluate := fun d =>
    let undefined := (d.modules.flatMap fun m => m.functions.map Function.name).filter
      fun x => decide (x ∉ d.symbols)
    if ∀ x ∈ undefined, x = "sin" then some undefined else none

theorem searchingJit_definesOnce : searchingJit.DefinesOnce where
  addModule := fun _ _ => decide_eq_true_iff
  evaluate := fun d found h x hx => by
    unfold searchingJit at h
    simp only at h
    split at h
    · cases h
      exact of_decide_eq_true (List.mem_filter.mp hx).2
    · cases h

/-- A JIT in which whatever is evaluated returns. -/
def returningJit : Jit where
  addModule := fun d m => decide (∀ x ∈ m.symbols, x ∉ d.symbols)
  evaluate := fun _ => some []

theorem returningJit_definesOnce : returningJit.DefinesOnce where
  addModule := fun _ _ => decide_eq_true_iff
  evaluate := fun _ _ h x hx => by
    cases h
    cases hx

/-- `def f(x) x f(1) def g(y) y`. -/
def distinctInput : List UInt8 := identityInput ++
  [32, 102, 40, 49, 41, 32, 100, 101, 102, 32, 103, 40, 121, 41, 32, 121]

/-- After a definition and an expression, the second definition adds a symbol
of its own. -/
theorem symbols_added_once_distinct :
    let A : Arith := ⟨fun a _ => a, fun a _ => a, fun a _ => a⟩
    ∃ s, runN (next A searchingJit) 2 (.start (fun _ => .one) true distinctInput) = some s ∧
      current s.tokens = .def_ ∧ (∃ d, s.jit = some d ∧ "f" ∈ d.symbols) ∧
      s.AddsNew A searchingJit := by
  intro A
  have hnew : ∀ k < 3, (runN (next A searchingJit) k
      (.start (fun _ => .one) true distinctInput)).all (fun t => decide t.DefinesNew) = true := by
    decide +kernel
  have hrun : (runN (next A searchingJit) 2 (.start (fun _ => .one) true distinctInput)).any
      (fun s => decide (current s.tokens = .def_) && s.jit.any fun d => decide ("f" ∈ d.symbols)) =
        true := by
    decide +kernel
  obtain ⟨s, hs, hrun⟩ := (Option.any_eq_true _ _).mp hrun
  rw [Bool.and_eq_true, decide_eq_true_eq] at hrun
  obtain ⟨htok, hjit⟩ := hrun
  obtain ⟨d, hd, hmem⟩ := (Option.any_eq_true _ _).mp hjit
  refine ⟨s, hs, htok, ⟨d, hd, of_decide_eq_true hmem⟩, ?_⟩
  refine symbols_added_once A searchingJit searchingJit_definesOnce _ _ hs fun k hk t ht => ?_
  have ht' := hnew k (by omega)
  rw [ht] at ht'
  exact of_decide_eq_true ht'

/-- `def f(x) x def f(x) x`. -/
def twiceInput : List UInt8 := identityInput ++ [32] ++ identityInput

/-- The second definition compiles, and its module defines `f` again. -/
theorem symbol_added_twice :
    ¬ ∀ (A : Arith) (E : Jit), E.DefinesOnce → ∀ (strtod : String → Double)
      (input : List UInt8) (n : Nat) (s : Session),
      runN (next A E) n (.start strtod true input) = some s → s.AddsNew A E := by
  intro h
  let A : Arith := ⟨fun a _ => a, fun a _ => a, fun a _ => a⟩
  have hrun : (runN (next A searchingJit) 1 (.start (fun _ => .one) true twiceInput)).any (fun s =>
      decide (current s.tokens = .def_) && s.jit.any fun d =>
        okAnd (parseDefinition s.builder.binopPrecedence s.tokens) fun f _ =>
          okAnd (f.codegen A s.builder) fun _ b =>
            decide ("f" ∈ b.module.symbols ∧ "f" ∈ d.symbols)) = true := by
    decide +kernel
  obtain ⟨s, hs, hrun⟩ := (Option.any_eq_true _ _).mp hrun
  have hadds := h A searchingJit searchingJit_definesOnce _ _ 1 s hs
  rw [Bool.and_eq_true, decide_eq_true_eq] at hrun
  obtain ⟨htok, hrun⟩ := hrun
  obtain ⟨d, hjit, hrun⟩ := (Option.any_eq_true _ _).mp hrun
  obtain ⟨f, left, hparse, hrun⟩ := okAnd_iff.mp hrun
  obtain ⟨fn, b, hcodegen, hrun⟩ := okAnd_iff.mp hrun
  obtain ⟨hsymbol, hmem⟩ := of_decide_eq_true hrun
  exact (hadds.added f left fn b d (.definition htok hparse) hcodegen hjit).1 "f" hsymbol hmem

end LlvmPasses.Kaleido
