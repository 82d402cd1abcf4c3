import LlvmPasses.Proofs.JitSymbols
import LlvmPasses.Proofs.MainLoop
import LlvmPasses.Proofs.SessionOperators

/-!
# The two modes side by side

A session with the JIT and one under `--compile`, on the same input. They see
the same tokens, prototypes and precedences, but other modules: the JIT's is
fresh after every accepted item, the other keeps everything. What is looked up
in either agrees as long as the module says what the prototypes filed say, and
the redefinition check agrees as long as the module has no body under the name
of the item, `__anon_expr` included: under `--compile` that name is taken once
an expression has been accepted.

`modes_accept_alike` compares the two sessions on one input, item by item, and
both sides of the equivalence are about every round. The sessions are twins as
long as they read the same tokens with the same prototypes and precedences and
have accepted the same definitions (`Twins`). If the item at hand is portable
in both, then it parses to the same in both, compiles in both or in neither
(`check_eq`, by way of the walk in `Kaleido.Check`), and leaves twins again
(`twins_round`). If it is accepted by one only, then it cannot have been
portable. `second_expression_rejected` is the case in which this happens to a
program of which nothing is wrong.
-/

namespace LlvmPasses.Kaleido

open StateError Transition

/-! ## What acceptance depends on -/

section Congruence

variable {arity arity' : String → Option Nat}

theorem askArity_congr {x : String} (h : arity x = arity' x) :
    askArity arity x = askArity arity' x := by
  unfold askArity
  rw [h]

mutual

theorem check_congr : ∀ {e : Expr}, (∀ x ∈ e.callees, arity x = arity' x) →
    e.check arity = e.check arity'
  | .number _, _ | .variable _, _ => by simp only [Expr.check]
  | .varIn _ _, h => by
      simp only [Expr.callees, List.mem_append] at h
      simp only [Expr.check]
      rw [checkVars_congr fun x hx => h x (.inl hx), check_congr fun x hx => h x (.inr hx)]
  | .unary op _, h => by
      simp only [Expr.callees, List.mem_append, List.mem_singleton] at h
      simp only [Expr.check]
      rw [check_congr fun x hx => h x (.inl hx), askArity_congr (h _ (.inr rfl))]
  | .binary op lhs rhs, h => by
      simp only [Expr.callees, List.mem_append] at h
      simp only [Expr.check]
      have hl := check_congr fun x hx => h x (.inl (.inl hx))
      have hr := check_congr fun x hx => h x (.inl (.inr hx))
      by_cases hassign : op = '='
      · simp only [if_pos hassign, hr]
      · simp only [if_neg hassign, hl, hr]
        by_cases hop : op ∈ ['+', '-', '*', '<']
        · simp only [if_pos hop]
        · have hnot : op ∉ ['=', '+', '-', '*', '<'] := by simp_all
          rw [if_neg hnot] at h
          rw [askArity_congr (h ("binary".push op) (.inr (List.mem_singleton_self _)))]
  | .ifElse _ _ _, h => by
      simp only [Expr.callees, List.mem_append] at h
      rw [Expr.check_ifElse, Expr.check_ifElse, check_congr fun x hx => h x (.inl (.inl hx)),
        check_congr fun x hx => h x (.inl (.inr hx)), check_congr fun x hx => h x (.inr hx)]
  | .forIn _ _ _ _ _, h => by
      simp only [Expr.callees, List.mem_append] at h
      simp only [Expr.check]
      rw [check_congr fun x hx => h x (.inl (.inl (.inl hx))),
        check_congr fun x hx => h x (.inl (.inl (.inr hx))),
        checkOption_congr fun x hx => h x (.inl (.inr hx)), check_congr fun x hx => h x (.inr hx)]
  | .call _ _, h => by
      simp only [Expr.callees, List.mem_cons] at h
      simp only [Expr.check]
      rw [askArity_congr (h _ (.inl rfl)), checkArgs_congr fun x hx => h x (.inr hx)]

theorem checkOption_congr : ∀ {o : Option Expr}, (∀ x ∈ calleesOption o, arity x = arity' x) →
    checkOption arity o = checkOption arity' o
  | none, _ => by simp only [checkOption]
  | some _, h => by
      simp only [checkOption]
      exact check_congr h

theorem checkVars_congr : ∀ {vs : List (String × Option Expr)} {old : Scope},
    (∀ x ∈ calleesVars vs, arity x = arity' x) → checkVars arity old vs = checkVars arity' old vs
  | [], _, _ => by simp only [checkVars]
  | (_, _) :: _, _, h => by
      simp only [calleesVars, List.mem_append] at h
      simp only [checkVars]
      rw [checkOption_congr fun x hx => h x (.inl hx)]
      simp only [checkVars_congr fun x hx => h x (.inr hx)]

theorem checkArgs_congr : ∀ {es : List Expr}, (∀ x ∈ calleesArgs es, arity x = arity' x) →
    checkArgs arity es = checkArgs arity' es
  | [], _ => by simp only [checkArgs]
  | _ :: _, h => by
      simp only [calleesArgs, List.mem_append] at h
      simp only [checkArgs]
      rw [check_congr fun x hx => h x (.inl hx), checkArgs_congr fun x hx => h x (.inr hx)]

end

end Congruence

/-! ## Items that both modes accept -/

/-- What the module has under the names that the item looks up is what the
prototypes filed say, its own among them. -/
structure Builder.Current (b : Builder) (f : FunctionAST) : Prop where
  params : ∀ g, b.module.getFunction f.prototype.name = some g →
    g.params = setNames [] f.prototype.args 0
  callees : ∀ x ∈ f.body.callees, ∀ g, b.module.getFunction x = some g →
    ∃ p, (b.file f.prototype).protos.find x = some p ∧ g.params.length = p.args.length

instance (b : Builder) (f : FunctionAST) : Decidable (b.Current f) :=
  decidable_of_iff ((∀ g ∈ b.module.getFunction f.prototype.name,
      g.params = setNames [] f.prototype.args 0) ∧
    ∀ x ∈ f.body.callees, ∀ g ∈ b.module.getFunction x,
      ∃ p ∈ (b.file f.prototype).protos.find x, g.params.length = p.args.length)
    ⟨fun h => ⟨h.1, h.2⟩, fun h => ⟨h.params, h.callees⟩⟩

/-- The item at hand is accepted: it parses, it compiles, and the driver goes on. -/
def Session.Accepts (A : Arith) (E : Jit) (s : Session) : Prop :=
  (∃ s', round A E s = .ok s') ∧
    ((current s.tokens = .extern_ ∧ ∃ p left, parseExtern s.tokens = .ok p left) ∨
      ∃ f left fn b, s.Reads f left ∧ f.codegen A s.builder = .ok fn b)

/-- The `n`-th round of a session comes, and accepts what is at hand. -/
def AcceptsItem (A : Arith) (E : Jit) (strtod : String → Double) (useJIT : Bool)
    (input : List UInt8) (n : Nat) : Prop :=
  ∃ s, runN (next A E) n (.start strtod useJIT input) = some s ∧ s.Accepts A E

/-- What keeps the modes apart is not in the way of the item at hand. The module
is up to date, and has no body under the item's name: that of an expression is
always the same. With the JIT, a definition is of no function of the host that
it has a symbol for by now, and what it is asked to evaluate can be looked up
and returns. -/
structure Session.Portable (A : Arith) (E : Jit) (s : Session) : Prop where
  current : ∀ f left, s.Reads f left → s.builder.Current f
  undefined : ∀ f left, s.Reads f left → ¬ s.builder.HasBody f.prototype.name
  foreign : ∀ f left d, s.Reads f left → s.jit = some d →
    f.prototype.name ∉ builtinSymbols ++ d.resolved
  evaluates : ∀ f left fn b d, s.Reads f left → f.codegen A s.builder = .ok fn b →
    s.jit = some d → E.evaluate (d.add b.module) ≠ none

instance (A : Arith) (E : Jit) (s : Session) : Decidable (s.Portable A E) :=
  decidable_of_iff (∀ f ∈ s.read, s.builder.Current f ∧ ¬ s.builder.HasBody f.prototype.name ∧
      (∀ d ∈ s.jit, f.prototype.name ∉ builtinSymbols ++ d.resolved) ∧
      okAll (f.codegen A s.builder) (fun _ b => s.jit.all fun d =>
        (E.evaluate (d.add b.module)).isSome) = true) <| by
    simp only [okAll_iff, Option.all_eq_true, Option.isSome_iff_ne_none]
    constructor
    · intro h
      have hread : ∀ f left, s.Reads f left → s.read = some f :=
        fun f left hr => exists_reads_iff.mp ⟨left, hr⟩
      exact ⟨fun f left hr => (h f (hread f left hr)).1,
        fun f left hr => (h f (hread f left hr)).2.1,
        fun f left d hr => (h f (hread f left hr)).2.2.1 d,
        fun f left fn b d hr hc => (h f (hread f left hr)).2.2.2 fn b hc d⟩
    · intro h f hf
      obtain ⟨left, hr⟩ := exists_reads_iff.mpr hf
      exact ⟨h.current f left hr, h.undefined f left hr, fun d => h.foreign f left d hr,
        fun fn b hc d => h.evaluates f left fn b d hr hc⟩

/-- A session with the JIT and one without that have come equally far. -/
structure Twins (s t : Session) : Prop where
  tokens : s.tokens = t.tokens
  protos : s.builder.protos.find = t.builder.protos.find
  precedence : s.builder.binopPrecedence = t.builder.binopPrecedence
  definitions : s.definitions = t.definitions
  jit : s.jit.isSome = true
  nojit : t.jit = none
  moved : s.Moved
  defined : ∀ d ∈ t.definitions, t.Defines d.name

section Twins

variable {A : Arith} {E : Jit} {s t s' : Session} {b b' c c' : Builder} {f : FunctionAST}
variable {fn fn' : Function} {left : List Lexeme} {proto : Prototype} {x : String}

theorem Builder.Current.arityOf (h : b.Current f) (hx : x ∈ f.body.callees) :
    (b.file f.prototype).arityOf x =
      ((b.file f.prototype).protos.find x).map fun p => p.args.length := by
  unfold Builder.arityOf
  cases hf : (b.file f.prototype).module.getFunction x with
  | none => rfl
  | some g =>
      obtain ⟨p, hp, hlen⟩ := h.callees x hx g hf
      rw [hp]
      exact congrArg some hlen

theorem Builder.Current.paramsOf (h : b.Current f) :
    b.paramsOf f.prototype = setNames [] f.prototype.args 0 := by
  unfold Builder.paramsOf
  cases hf : b.module.getFunction f.prototype.name with
  | none => rfl
  | some g => exact h.params g hf

theorem find_file_congr (h : b.protos.find = c.protos.find) (proto : Prototype) :
    (b.file proto).protos.find = (c.file proto).protos.find := by
  funext x
  show (if x = proto.name then some proto else b.protos.find x) =
    if x = proto.name then some proto else c.protos.find x
  rw [h]

/-- An item that both modules are up to date for compiles in both or in none. -/
theorem check_eq (hprotos : b.protos.find = c.protos.find) (hb : b.Current f)
    (hc : c.Current f) (hbody : ¬ b.HasBody f.prototype.name)
    (hbody' : ¬ c.HasBody f.prototype.name) : f.check b = f.check c := by
  have harity : ∀ x ∈ f.body.callees,
      (b.file f.prototype).arityOf x = (c.file f.prototype).arityOf x := by
    intro x hx
    rw [hb.arityOf hx, hc.arityOf hx, find_file_congr hprotos]
  have hwalk : f.walk b = f.walk c := by
    unfold FunctionAST.walk
    rw [check_congr harity, hb.paramsOf, hc.paramsOf]
  unfold FunctionAST.check
  rw [if_neg hbody, if_neg hbody', hwalk]

/-- The same, of the results of code generation. -/
inductive SameOutcome (f : FunctionAST) (A : Arith) (b c : Builder) : Prop
  | accepted {fn fn' : Function} {b' c' : Builder} (hb : f.codegen A b = .ok fn b')
      (hc : f.codegen A c = .ok fn' c')
  | threw {what : String} {b' c' : Builder} (hb : f.codegen A b = .error (.exception what) b')
      (hc : f.codegen A c = .error (.exception what) c')
  | misread {b' c' : Builder} (hb : f.codegen A b = .error .misread b')
      (hc : f.codegen A c = .error .misread c')

theorem sameOutcome (A : Arith) (h : f.check b = f.check c) : SameOutcome f A b c := by
  have hb := functionCodegen_check A f b
  have hc := functionCodegen_check A f c
  cases hcb : f.codegen A b with
  | ok fn b' =>
      rw [hcb] at hb
      cases hcc : f.codegen A c with
      | ok fn' c' => exact .accepted hcb hcc
      | error e c' =>
          rw [hcc] at hc
          rw [h, hc] at hb
          cases hb
  | error e b' =>
      rw [hcb] at hb
      cases hcc : f.codegen A c with
      | ok fn' c' =>
          rw [hcc] at hc
          rw [h, hc] at hb
          cases hb
      | error e' c' =>
          rw [hcc] at hc
          rw [h, hc] at hb
          cases hb
          cases e with
          | exception what => exact .threw hcb hcc
          | misread => exact .misread hcb hcc

theorem withPrecedence_congr (h : b.binopPrecedence = c.binopPrecedence) :
    (b.withPrecedence proto).binopPrecedence = (c.withPrecedence proto).binopPrecedence := by
  unfold Builder.withPrecedence
  split
  · simp only [h]
  · exact h

/-- What is filed once an item is accepted. -/
theorem codegen_protos (hcodegen : f.codegen A b = .ok fn b') :
    b'.protos.find = (b.file f.prototype).protos.find := by
  obtain ⟨b₁, b₂, hd, hk, rfl⟩ := codegen_accepted hcodegen
  show b₂.protos.find = _
  rw [hk.protos, (withPrecedence_tables b₁ f.prototype).1, hd.declares.rest]

/-! ### What a round comes to -/

theorem next_misread (h : s.Reads f left) (hcodegen : f.codegen A s.builder = .error .misread b) :
    next A E s = none := by
  have hround : round A E s = .error .misread := by
    cases h with
    | definition htok hparse =>
        rw [round_definition htok]
        unfold handleDefinition
        simp only [hparse, hcodegen]
    | topLevel htok hparse =>
        rw [round_topLevel htok]
        unfold handleTopLevelExpression
        simp only [hparse, hcodegen]
  unfold next
  rw [hround]

theorem next_threw {what : String} (h : s.Reads f left)
    (hcodegen : f.codegen A s.builder = .error (.exception what) b) :
    next A E s = some { s with tokens := left, builder := b } :=
  next_eq_some.mpr (h.round_of_throw hcodegen)

theorem next_defined (htok : current s.tokens = .def_)
    (hparse : parseDefinition s.builder.binopPrecedence s.tokens = .ok f left)
    (hcodegen : f.codegen A s.builder = .ok fn b)
    (hadd : ∀ d, s.jit = some d → E.addModule d b.module = true) :
    next A E s = some ⟨left, b.turn s.jit.isSome, s.jit.map fun d => d.add b.module,
      s.definitions ++ [f.prototype]⟩ := by
  rw [next_eq_some, round_definition htok]
  unfold handleDefinition
  simp only [hparse, hcodegen]
  cases hj : s.jit with
  | none => rfl
  | some d =>
      simp only [hadd d hj, if_true]
      rfl

theorem next_evaluated (htok : current s.tokens ∉ [.eof, .def_, .extern_, .chr ';'])
    (hparse : parseTopLevelExpr s.builder.binopPrecedence s.tokens = .ok f left)
    (hcodegen : f.codegen A s.builder = .ok fn b)
    {found : List String} (hadd : ∀ d, s.jit = some d →
      E.addModule d b.module = true ∧ E.evaluate (d.add b.module) = some found) :
    next A E s = some { s with
      tokens := left
      builder := b.turn s.jit.isSome
      jit := s.jit.map fun d => d.resolve found } := by
  rw [next_eq_some, round_topLevel htok]
  unfold handleTopLevelExpression
  simp only [hparse, hcodegen]
  cases hj : s.jit with
  | none => rfl
  | some d =>
      simp only [hadd d hj, if_true]
      rfl

/-! ### Twins stay twins -/

theorem Rounds.jit_isSome (h : Rounds A E s s') : s'.jit.isSome = s.jit.isSome := by
  cases h with
  | defined _ _ _ => exact Option.isSome_map
  | evaluated _ _ _ => exact Option.isSome_map
  | _ => rfl

theorem defines_next (h : ∀ d ∈ s.definitions, s.Defines d.name) (hr : Rounds A E s s') :
    ∀ d ∈ s'.definitions, s'.Defines d.name := by
  have hold : ∀ d ∈ s.definitions, s'.Defines d.name := fun d hd => (h d hd).next hr
  cases hr with
  | defined _ _ hcodegen =>
      intro d hd
      rcases List.mem_append.mp hd with hd | hd
      · exact hold d hd
      · obtain rfl := List.mem_singleton.mp hd
        exact defines_defined hcodegen
  | _ => exact hold

theorem Twins.reads (h : Twins s t) : s.Reads f left ↔ t.Reads f left := by
  constructor
  · intro hr
    cases hr with
    | definition htok hparse =>
        exact .definition (h.tokens ▸ htok) (h.precedence ▸ h.tokens ▸ hparse)
    | topLevel htok hparse =>
        exact .topLevel (h.tokens ▸ htok) (h.precedence ▸ h.tokens ▸ hparse)
  · intro hr
    cases hr with
    | definition htok hparse =>
        exact .definition (h.tokens ▸ htok) (h.precedence ▸ h.tokens ▸ hparse)
    | topLevel htok hparse =>
        exact .topLevel (h.tokens ▸ htok) (h.precedence ▸ h.tokens ▸ hparse)

theorem Twins.of_next {t' : Session} (h : Twins s t) (hE : E.DefinesOnce)
    (hs : next A E s = some s')
    (ht : next A E t = some t') (htokens : s'.tokens = t'.tokens)
    (hprotos : s'.builder.protos.find = t'.builder.protos.find)
    (hprec : s'.builder.binopPrecedence = t'.builder.binopPrecedence)
    (hdefs : s'.definitions = t'.definitions) : Twins s' t' where
  tokens := htokens
  protos := hprotos
  precedence := hprec
  definitions := hdefs
  jit := by rw [(rounds_of_next hs).jit_isSome, h.jit]
  nojit := by
    have hnone := (rounds_of_next ht).jit_isSome
    rw [h.nojit] at hnone
    exact Option.isSome_eq_false_iff.mp hnone |> Option.isNone_iff_eq_none.mp
  moved := moved_next hE h.moved hs
  defined := defines_next h.defined (rounds_of_next ht)

theorem Twins.outcome (h : Twins s t) (hs : s.Portable A E) (ht : t.Portable A E)
    (hreads : s.Reads f left) : SameOutcome f A s.builder t.builder :=
  have hreads' := h.reads.mp hreads
  sameOutcome A (check_eq h.protos (hs.current f left hreads) (ht.current f left hreads')
    (hs.undefined f left hreads) (ht.undefined f left hreads'))

/-- The JIT takes the module of an item that compiles. -/
theorem Twins.added (h : Twins s t) (hE : E.DefinesOnce) (hs : s.Portable A E)
    (ht : t.Portable A E) (hreads : s.Reads f left)
    (hcodegen : f.codegen A s.builder = .ok fn b) {d : JITDylib}
    (hd : s.jit = some d) : E.addModule d b.module = true := by
  refine (h.moved.addModule_iff hE hd hcodegen).mpr fun hmem => ?_
  rcases List.mem_append.mp hmem with hmem | hmem
  · exact hs.foreign f left d hreads hd hmem
  · rw [h.moved.symbols d hd, h.definitions] at hmem
    obtain ⟨p, hp, hname⟩ := List.mem_map.mp hmem
    have hdefines := h.defined p hp
    unfold Session.Defines at hdefines
    rw [h.nojit, hname] at hdefines
    exact ht.undefined f left (h.reads.mp hreads) hdefines

/-- What one round does to twins. -/
inductive TwinRounds (A : Arith) (E : Jit) (s t : Session) : Prop
  | halted (hs : next A E s = none) (ht : next A E t = none)
  | on {s' t' : Session} (hs : next A E s = some s') (ht : next A E t = some t')
      (h : Twins s' t')

theorem Twins.threw {what : String} (h : Twins s t) (hE : E.DefinesOnce) (hreads : s.Reads f left)
    (hundefined : ¬ s.builder.HasBody f.prototype.name)
    (hundefined' : ¬ t.builder.HasBody f.prototype.name)
    (hb : f.codegen A s.builder = .error (.exception what) b)
    (hc : f.codegen A t.builder = .error (.exception what) c) : TwinRounds A E s t := by
  have hs := next_threw (E := E) hreads hb
  have ht := next_threw (E := E) (h.reads.mp hreads) hc
  have hthrow := threw_of_error hb
  have hthrow' := threw_of_error hc
  refine .on hs ht (h.of_next hE hs ht rfl ?_ ?_ h.definitions)
  · show b.protos.find = c.protos.find
    rw [hthrow.tables.1, hthrow'.tables.1, find_file_congr h.protos]
  · show b.binopPrecedence = c.binopPrecedence
    cases hthrow with
    | redefined hbody _ => exact absurd hbody hundefined
    | erased hd hk heq =>
        cases hthrow' with
        | redefined hbody _ => exact absurd hbody hundefined'
        | erased hd' hk' heq' =>
            rw [heq, heq']
            show Builder.binopPrecedence _ = Builder.binopPrecedence _
            rw [hk.precedence.trans hd.precedence, hk'.precedence.trans hd'.precedence,
              withPrecedence_congr h.precedence]

theorem Twins.accepted (h : Twins s t) (hE : E.DefinesOnce) (hs : next A E s = some s')
    {t' : Session}
    (ht : next A E t = some t') (hb : f.codegen A s.builder = .ok fn b)
    (hc : f.codegen A t.builder = .ok fn' c) (htokens : s'.tokens = t'.tokens)
    (hbuilder : s'.builder = b.turn true) (hbuilder' : t'.builder = c.turn false)
    (hdefs : s'.definitions = t'.definitions) : TwinRounds A E s t := by
  refine .on hs ht (h.of_next hE hs ht htokens ?_ ?_ hdefs)
  · rw [hbuilder, hbuilder']
    show b.protos.find = c.protos.find
    rw [codegen_protos hb, codegen_protos hc, find_file_congr h.protos]
  · rw [hbuilder, hbuilder']
    show b.binopPrecedence = c.binopPrecedence
    rw [(codegen_precedence hb).2, (codegen_precedence hc).2, withPrecedence_congr h.precedence]

theorem Twins.skipped (h : Twins s t) (hE : E.DefinesOnce) (left : List Lexeme)
    (hs : round A E s = .ok (s.skip left))
    (ht : round A E t = .ok (t.skip left)) : TwinRounds A E s t :=
  have hs := next_eq_some.mpr hs
  have ht := next_eq_some.mpr ht
  .on hs ht (h.of_next hE hs ht rfl h.protos h.precedence h.definitions)

theorem Twins.definition (h : Twins s t) (hE : E.DefinesOnce) (hs : s.Portable A E)
    (ht : t.Portable A E) (htok : current s.tokens = .def_) : TwinRounds A E s t := by
  have htok' : current t.tokens = .def_ := h.tokens ▸ htok
  cases hp : parseDefinition s.builder.binopPrecedence s.tokens with
  | error e left =>
      have hp' : parseDefinition t.builder.binopPrecedence t.tokens = .error e left :=
        h.precedence ▸ h.tokens ▸ hp
      refine h.skipped hE left ?_ ?_
      · rw [round_definition htok, handleDefinition, hp]
      · rw [round_definition htok', handleDefinition, hp']
  | ok f left =>
      have hreads : s.Reads f left := .definition htok hp
      have hp' : parseDefinition t.builder.binopPrecedence t.tokens = .ok f left :=
        h.precedence ▸ h.tokens ▸ hp
      cases h.outcome hs ht hreads with
      | accepted hb hc =>
          have hnext := next_defined htok hp hb fun d => h.added hE hs ht hreads hb
          have hnext' := next_defined (E := E) htok' hp' hc fun d hd => by
            rw [h.nojit] at hd
            cases hd
          refine h.accepted hE hnext hnext' hb hc rfl (by rw [h.jit]) (by rw [h.nojit]; rfl) ?_
          exact congrArg (fun ds => ds ++ [f.prototype]) h.definitions
      | threw hb hc =>
          exact h.threw hE hreads (hs.undefined f left hreads)
            (ht.undefined f left (h.reads.mp hreads)) hb hc
      | misread hb hc =>
          exact .halted (next_misread hreads hb) (next_misread (h.reads.mp hreads) hc)

theorem Twins.topLevel (h : Twins s t) (hE : E.DefinesOnce) (hs : s.Portable A E)
    (ht : t.Portable A E) (htok : current s.tokens ∉ [.eof, .def_, .extern_, .chr ';']) :
    TwinRounds A E s t := by
  have htok' : current t.tokens ∉ [.eof, .def_, .extern_, .chr ';'] := h.tokens ▸ htok
  cases hp : parseTopLevelExpr s.builder.binopPrecedence s.tokens with
  | error e left =>
      have hp' : parseTopLevelExpr t.builder.binopPrecedence t.tokens = .error e left :=
        h.precedence ▸ h.tokens ▸ hp
      refine h.skipped hE left ?_ ?_
      · rw [round_topLevel htok, handleTopLevelExpression, hp]
      · rw [round_topLevel htok', handleTopLevelExpression, hp']
  | ok f left =>
      have hreads : s.Reads f left := .topLevel htok hp
      have hp' : parseTopLevelExpr t.builder.binopPrecedence t.tokens = .ok f left :=
        h.precedence ▸ h.tokens ▸ hp
      cases h.outcome hs ht hreads with
      | @accepted fn fn' b c hb hc =>
          obtain ⟨d, hd⟩ := Option.isSome_iff_exists.mp h.jit
          obtain ⟨found, hfound⟩ := Option.ne_none_iff_exists'.mp
            (hs.evaluates f left _ _ d hreads hb hd)
          have hnext := next_evaluated htok hp hb fun d' hd' => by
            obtain rfl := Option.some.inj (hd.symm.trans hd')
            exact ⟨h.added hE hs ht hreads hb hd, hfound⟩
          have hadd : ∀ d, t.jit = some d →
              E.addModule d c.module = true ∧ E.evaluate (d.add c.module) = some [] := by
            intro d hd
            rw [h.nojit] at hd
            cases hd
          have hnext' := next_evaluated htok' hp' hc hadd
          exact h.accepted hE hnext hnext' hb hc rfl (by rw [h.jit]) (by rw [h.nojit]; rfl)
            h.definitions
      | threw hb hc =>
          exact h.threw hE hreads (hs.undefined f left hreads)
            (ht.undefined f left (h.reads.mp hreads)) hb hc
      | misread hb hc =>
          exact .halted (next_misread hreads hb) (next_misread (h.reads.mp hreads) hc)

theorem Twins.extern (h : Twins s t) (hE : E.DefinesOnce) (htok : current s.tokens = .extern_) :
    TwinRounds A E s t := by
  have htok' : current t.tokens = .extern_ := h.tokens ▸ htok
  cases hp : parseExtern s.tokens with
  | error e left =>
      refine h.skipped hE left ?_ ?_
      · rw [round_prototype htok, handleExtern, hp]
      · rw [round_prototype htok', handleExtern, ← h.tokens, hp]
  | ok p left =>
      have hs : next A E s = some { s with
          tokens := left, builder := s.builder.declareExtern p } := by
        rw [next_eq_some, round_prototype htok, handleExtern, hp]
        rfl
      have ht : next A E t = some { t with
          tokens := left, builder := t.builder.declareExtern p } := by
        rw [next_eq_some, round_prototype htok', handleExtern, ← h.tokens, hp]
        rfl
      exact .on hs ht (h.of_next hE hs ht rfl (find_file_congr h.protos p) h.precedence
        h.definitions)

theorem twins_round (h : Twins s t) (hE : E.DefinesOnce) (hs : s.Portable A E)
    (ht : t.Portable A E) : TwinRounds A E s t := by
  by_cases hdef : current s.tokens = .def_
  · exact h.definition hE hs ht hdef
  by_cases hextern : current s.tokens = .extern_
  · exact h.extern hE hextern
  by_cases heof : current s.tokens = .eof
  · refine .halted ?_ ?_
    · rw [next, round_eof heof]
    · rw [next, round_eof (h.tokens ▸ heof)]
  by_cases hsemi : current s.tokens = .chr ';'
  · have hskip : ∀ {u : Session}, current u.tokens = .chr ';' →
        next A E u = some { u with tokens := u.tokens.tail } := by
      intro u hu
      rw [next_eq_some, round, hu]
      exact if_pos rfl
    have hs := hskip hsemi
    have ht := hskip (h.tokens ▸ hsemi)
    exact .on hs ht (h.of_next hE hs ht (congrArg List.tail h.tokens) h.protos h.precedence
      h.definitions)
  · refine h.topLevel hE hs ht fun hmem => ?_
    simp only [List.mem_cons, List.not_mem_nil, or_false] at hmem
    rcases hmem with hm | hm | hm | hm
    · exact heof hm
    · exact hdef hm
    · exact hextern hm
    · exact hsemi hm

/-- One of the twins accepts what is at hand only if the other does. -/
theorem Twins.accepts (h : Twins s t) (hE : E.DefinesOnce) (hs : s.Portable A E)
    (ht : t.Portable A E) : s.Accepts A E ↔ t.Accepts A E := by
  cases twins_round h hE hs ht with
  | halted hnone hnone' =>
      constructor
      · rintro ⟨⟨s', hs'⟩, -⟩
        rw [next_eq_some.mpr hs'] at hnone
        cases hnone
      · rintro ⟨⟨t', ht'⟩, -⟩
        rw [next_eq_some.mpr ht'] at hnone'
        cases hnone'
  | on hnext hnext' _ =>
      have hcompiles : ∀ f left, s.Reads f left →
          ((∃ fn b, f.codegen A s.builder = .ok fn b) ↔
            ∃ fn b, f.codegen A t.builder = .ok fn b) := by
        intro f left hreads
        cases h.outcome hs ht hreads with
        | accepted hb hc => exact ⟨fun _ => ⟨_, _, hc⟩, fun _ => ⟨_, _, hb⟩⟩
        | threw hb hc =>
            rw [hb, hc]
            exact ⟨nofun, nofun⟩
        | misread hb hc =>
            rw [hb, hc]
            exact ⟨nofun, nofun⟩
      refine and_congr ⟨fun _ => ⟨_, next_eq_some.mp hnext'⟩, fun _ => ⟨_, next_eq_some.mp hnext⟩⟩
        (or_congr (by rw [h.tokens]) ⟨?_, ?_⟩)
      · rintro ⟨f, left, fn, b, hreads, hcodegen⟩
        obtain ⟨fn', c, hc⟩ := (hcompiles f left hreads).mp ⟨fn, b, hcodegen⟩
        exact ⟨f, left, fn', c, h.reads.mp hreads, hc⟩
      · rintro ⟨f, left, fn, c, hreads, hcodegen⟩
        obtain ⟨fn', b, hb⟩ := (hcompiles f left (h.reads.mpr hreads)).mpr ⟨fn, c, hcodegen⟩
        exact ⟨f, left, fn', b, h.reads.mpr hreads, hb⟩

theorem twins_start (strtod : String → Double) (input : List UInt8) :
    Twins (.start strtod true input) (.start strtod false input) where
  tokens := rfl
  protos := rfl
  precedence := rfl
  definitions := rfl
  jit := rfl
  nojit := rfl
  moved := moved_start strtod true input
  defined := nofun

/-- Sessions whose items are all portable run in step. -/
theorem twins_runN (hE : E.DefinesOnce) {n : Nat} (h : Twins s t)
    (hs : ∀ k < n, ∀ u, runN (next A E) k s = some u → u.Portable A E)
    (ht : ∀ k < n, ∀ u, runN (next A E) k t = some u → u.Portable A E) :
    (runN (next A E) n s = none ∧ runN (next A E) n t = none) ∨
      ∃ s' t', runN (next A E) n s = some s' ∧ runN (next A E) n t = some t' ∧ Twins s' t' := by
  induction n generalizing s t with
  | zero => exact .inr ⟨s, t, rfl, rfl, h⟩
  | succ n ih =>
      cases twins_round h hE (hs 0 (Nat.succ_pos n) s rfl) (ht 0 (Nat.succ_pos n) t rfl) with
      | halted hnone hnone' =>
          left
          rw [runN, runN, hnone, hnone']
          exact ⟨rfl, rfl⟩
      | on hnext hnext' h' =>
          rw [runN_succ hnext, runN_succ hnext']
          refine ih h' (fun k hk u hu => ?_) fun k hk u hu => ?_
          · exact hs (k + 1) (Nat.succ_lt_succ hk) u (by rw [runN_succ hnext, hu])
          · exact ht (k + 1) (Nat.succ_lt_succ hk) u (by rw [runN_succ hnext', hu])

/-- Where every item is portable, each is accepted in both modes or in none. -/
theorem modes_accept_alike (A : Arith) (E : Jit) (hE : E.DefinesOnce)
    (strtod : String → Double) (input : List UInt8) (n : Nat)
    (hportable : ∀ useJIT, ∀ k ≤ n, ∀ u,
      runN (next A E) k (.start strtod useJIT input) = some u → u.Portable A E) :
    AcceptsItem A E strtod true input n ↔ AcceptsItem A E strtod false input n := by
  have hrun := twins_runN hE (twins_start strtod input)
    (fun k hk => hportable true k (Nat.le_of_lt hk)) fun k hk => hportable false k (Nat.le_of_lt hk)
  unfold AcceptsItem
  rcases hrun with ⟨hs, ht⟩ | ⟨s, t, hs, ht, htwins⟩
  · rw [hs, ht]
  · rw [hs, ht]
    simp only [Option.some.injEq, exists_eq_left']
    exact htwins.accepts hE (hportable true n (Nat.le_refl n) s hs)
      (hportable false n (Nat.le_refl n) t ht)

end Twins

/-! ### A definition and a call, and two expressions -/

/-- The expression that calls `f` is accepted in either mode. -/
theorem modes_accept_alike_call :
    let A : Arith := ⟨fun a _ => a, fun a _ => a, fun a _ => a⟩
    AcceptsItem A searchingJit (fun _ => .one) true callInput 1 ∧
      AcceptsItem A searchingJit (fun _ => .one) false callInput 1 := by
  intro A
  have hportable : ∀ useJIT, ∀ k < 2, (runN (next A searchingJit) k
      (.start (fun _ => .one) useJIT callInput)).all (fun u => decide (u.Portable A searchingJit)) =
        true := by
    decide +kernel
  have hiff := modes_accept_alike A searchingJit searchingJit_definesOnce (fun _ => .one)
    callInput 1 fun useJIT k hk u hu => by
      have h := hportable useJIT k (by omega)
      rw [hu] at h
      exact of_decide_eq_true h
  have hrun : (runN (next A searchingJit) 1 (.start (fun _ => .one) true callInput)).any
      (fun u => (round A searchingJit u).isOk && u.read.any fun f =>
        okAnd (f.codegen A u.builder) fun _ _ => true) = true := by
    decide +kernel
  obtain ⟨s, hs, hrun⟩ := (Option.any_eq_true _ _).mp hrun
  obtain ⟨hround, hread⟩ := Bool.and_eq_true_iff.mp hrun
  obtain ⟨f, hf, hcodegen⟩ := (Option.any_eq_true _ _).mp hread
  obtain ⟨left, hreads⟩ := exists_reads_iff.mpr hf
  obtain ⟨fn, b, hc, -⟩ := okAnd_iff.mp hcodegen
  have haccepts : AcceptsItem A searchingJit (fun _ => .one) true callInput 1 := by
    cases hr : round A searchingJit s with
    | error r =>
        rw [hr] at hround
        cases hround
    | ok s' => exact ⟨s, hs, ⟨s', hr⟩, .inr ⟨f, left, fn, b, hreads, hc⟩⟩
  exact ⟨haccepts, hiff.mp haccepts⟩

/-- The item at hand is well formed, is no second definition of a name, and
calls what has been defined or declared. -/
structure Session.Regular (s : Session) : Prop where
  declares : current s.tokens = .extern_ → ∃ p left, parseExtern s.tokens = .ok p left
  reads : current s.tokens ∉ [.eof, .extern_, .chr ';'] → ∃ f left, s.Reads f left
  definition : ∀ f left, current s.tokens = .def_ → s.Reads f left →
    f.prototype.name ∉ s.definitions.map Prototype.name
  callees : ∀ f left, s.Reads f left → ∀ x ∈ f.body.callees,
    ∃ n, (s.builder.file f.prototype).arityOf x = some n

/-- `1 2`. -/
def numbersInput : List UInt8 := [49, 32, 50]

/-- What is left of the tokens of `1 2`. -/
def numbersLeft : List (List Lexeme) :=
  [[⟨.number, "", .one⟩, ⟨.number, "", .one⟩], [⟨.number, "", .one⟩], []]

/-- The expression in front of them. -/
def numberExpression : FunctionAST := ⟨{ name := "__anon_expr", args := [] }, .number .one⟩

theorem reads_numbers {s : Session} {left : List Lexeme}
    (h : s.tokens = ⟨.number, "", .one⟩ :: left) (hleft : left ∈ numbersLeft) :
    s.Reads numberExpression left := by
  have htok : current s.tokens = .number := by
    rw [h]
    rfl
  refine .topLevel (by rw [htok]; decide) ?_
  rw [h]
  simp only [numbersLeft, List.mem_cons, List.not_mem_nil, or_false] at hleft
  rcases hleft with rfl | rfl | rfl <;> rfl

theorem regular_numbers {s : Session} (h : s.tokens ∈ numbersLeft) : s.Regular := by
  have hread : s.tokens = [] ∨
      (current s.tokens = .number ∧ ∃ left, s.Reads numberExpression left) := by
    simp only [numbersLeft, List.mem_cons, List.not_mem_nil, or_false] at h
    rcases h with h | h | h
    · exact .inr ⟨by rw [h]; rfl, _, reads_numbers h (by decide)⟩
    · exact .inr ⟨by rw [h]; rfl, _, reads_numbers h (by decide)⟩
    · exact .inl h
  rcases hread with hnil | ⟨htok, left, hreads⟩
  · have heof : current s.tokens = .eof := by
      rw [hnil]
      rfl
    have hnot : ∀ f left, ¬ s.Reads f left := by
      intro f left hr
      cases hr with
      | definition htok _ =>
          rw [heof] at htok
          cases htok
      | topLevel htok _ =>
          rw [heof] at htok
          exact absurd htok (by decide)
    refine ⟨fun htok => ?_, fun htok => ?_, fun f left _ hr => absurd hr (hnot f left),
      fun f left hr => absurd hr (hnot f left)⟩
    · rw [heof] at htok
      cases htok
    · rw [heof] at htok
      exact absurd htok (by decide)
  · refine ⟨fun h => ?_, fun _ => ⟨_, _, hreads⟩, fun f left h => ?_, fun f left hr x hx => ?_⟩
    · rw [htok] at h
      cases h
    · rw [htok] at h
      cases h
    · obtain ⟨rfl, -⟩ := hr.unique hreads
      cases hx

/-- The second expression is another `__anon_expr` in the module that
`--compile` keeps. -/
theorem second_expression_rejected :
    ¬ ∀ (A : Arith) (E : Jit), E.DefinesOnce → (∀ d, E.evaluate d ≠ none) →
      ∀ (strtod : String → Double) (input : List UInt8),
      (∀ useJIT k u, runN (next A E) k (.start strtod useJIT input) = some u → u.Regular) →
      ∀ n, AcceptsItem A E strtod true input n ↔ AcceptsItem A E strtod false input n := by
  intro h
  let A : Arith := ⟨fun a _ => a, fun a _ => a, fun a _ => a⟩
  have hlater : ∀ useJIT,
      (runN (next A returningJit) 3 (.start (fun _ => .one) useJIT numbersInput)).isNone =
        true := by
    decide +kernel
  have hearlier : ∀ useJIT, ∀ k < 3,
      (runN (next A returningJit) k (.start (fun _ => .one) useJIT numbersInput)).all
        (fun u => decide (u.tokens ∈ numbersLeft)) = true := by
    decide +kernel
  have hregular : ∀ useJIT k u,
      runN (next A returningJit) k (.start (fun _ => .one) useJIT numbersInput) = some u →
      u.Regular := by
    intro useJIT k u hu
    by_cases hk : k < 3
    · have htokens := hearlier useJIT k hk
      rw [hu, Option.all_some, decide_eq_true_eq] at htokens
      exact regular_numbers htokens
    · obtain ⟨v, hv⟩ := Lasts.mono ⟨u, hu⟩ (show 3 ≤ k by omega)
      have hnone := hlater useJIT
      rw [hv] at hnone
      cases hnone
  have hiff := h A returningJit returningJit_definesOnce (fun _ => Option.some_ne_none _)
    (fun _ => .one)
    numbersInput hregular 1
  have hrun : ∀ useJIT,
      (runN (next A returningJit) 1 (.start (fun _ => .one) useJIT numbersInput)).any (fun u =>
        decide (u.tokens = [⟨.number, "", .one⟩]) && (round A returningJit u).isOk &&
          okAnd (numberExpression.codegen A u.builder) (fun _ _ => true) == useJIT) = true := by
    decide +kernel
  have haccepts : AcceptsItem A returningJit (fun _ => .one) true numbersInput 1 := by
    obtain ⟨s, hs, hjit⟩ := (Option.any_eq_true _ _).mp (hrun true)
    rw [Bool.and_eq_true, Bool.and_eq_true, decide_eq_true_eq, beq_iff_eq] at hjit
    obtain ⟨⟨htokens, hround⟩, hcodegen⟩ := hjit
    obtain ⟨fn, b, hc, -⟩ := okAnd_iff.mp hcodegen
    cases hr : round A returningJit s with
    | error r =>
        rw [hr] at hround
        cases hround
    | ok s' =>
        exact ⟨s, hs, ⟨s', hr⟩, .inr ⟨_, _, fn, b, reads_numbers htokens (by decide), hc⟩⟩
  obtain ⟨t, ht, -, hitem⟩ := hiff.mp haccepts
  have hnojit := hrun false
  rw [ht, Option.any_some, Bool.and_eq_true, Bool.and_eq_true, decide_eq_true_eq,
    beq_iff_eq] at hnojit
  obtain ⟨⟨htokens, -⟩, hthrows⟩ := hnojit
  rcases hitem with ⟨htok, -⟩ | ⟨f, left, fn, b, hreads, hcodegen⟩
  · rw [htokens] at htok
    cases htok
  · obtain ⟨rfl, -⟩ := hreads.unique (reads_numbers htokens (by decide))
    rw [hcodegen] at hthrows
    cases hthrows

end LlvmPasses.Kaleido
