import LlvmPasses.Proofs.ParserNames
import LlvmPasses.Kaleido.Driver

/-!
# What a round can do

One inversion of the driver's round: every session that follows another does
so in one of five ways. The tokens that are left are lexical if the tokens
were, and what is parsed from them is named as the lexer's characters allow.

A round reads an item, has it compiled and moves the module on, and the driver
has a handler for each kind of item and each way in which it can fail. The
invariants of sessions do not care which handler it was. `Rounds` therefore has
one constructor for each thing that can become of the builder and the JIT, with
the parsed item and the code generator's result as its arguments, and
`rounds_of_next` is the only proof that looks into the handlers. In the other
direction there is a lemma for each handler, for use where a particular item is
at hand.
-/

namespace LlvmPasses.Kaleido

open StateError Transition

/-- The module is kept under `--compile`, and replaced with the JIT. -/
def Builder.turn (jit : Bool) (b : Builder) : Builder :=
  if jit then initializeModuleAndManagers b else b

/-- `PrototypeAST::codegen`, and the prototype filed. -/
def Builder.declareExtern (b : Builder) (proto : Prototype) : Builder :=
  { b with
    module := b.module.create proto.name (setNames [] proto.args 0)
    protos := b.protos.insert proto }

/-- What the item at hand is, if it is a definition or an expression that parses. -/
def Session.read (s : Session) : Option FunctionAST :=
  if current s.tokens = .def_ then
    okOption (parseDefinition s.builder.binopPrecedence s.tokens)
  else if current s.tokens ∈ [.eof, .extern_, .chr ';'] then
    none
  else
    okOption (parseTopLevelExpr s.builder.binopPrecedence s.tokens)

inductive Rounds (A : Arith) (E : Jit) (s : Session) : Session → Prop
  | skipped {left : List Lexeme} (hleft : AllLexical s.tokens → AllLexical left) :
      Rounds A E s { s with tokens := left }
  | declared {p : Prototype} {left : List Lexeme} (htok : current s.tokens = .extern_)
      (hparse : parseExtern s.tokens = .ok p left) :
      Rounds A E s { s with tokens := left, builder := s.builder.declareExtern p }
  | threw {f : FunctionAST} {left : List Lexeme} {what : String} {b : Builder}
      (hreads : s.Reads f left) (hcodegen : f.codegen A s.builder = .error (.exception what) b) :
      Rounds A E s { s with tokens := left, builder := b }
  | defined {f : FunctionAST} {left : List Lexeme} {fn : Function} {b : Builder}
      (htok : current s.tokens = .def_)
      (hparse : parseDefinition s.builder.binopPrecedence s.tokens = .ok f left)
      (hcodegen : f.codegen A s.builder = .ok fn b) :
      Rounds A E s ⟨left, b.turn s.jit.isSome, s.jit.map fun d => d.add b.module,
        s.definitions ++ [f.prototype]⟩
  | evaluated {f : FunctionAST} {left : List Lexeme} {fn : Function} {b : Builder}
      {found : List String}
      (hparse : parseTopLevelExpr s.builder.binopPrecedence s.tokens = .ok f left)
      (hcodegen : f.codegen A s.builder = .ok fn b)
      (hfound : ∀ d, s.jit = some d → E.evaluate (d.add b.module) = some found) :
      Rounds A E s { s with
        tokens := left
        builder := b.turn s.jit.isSome
        jit := s.jit.map fun d => d.resolve found }

section

variable {A : Arith} {E : Jit} {s s' : Session} {f : FunctionAST} {left : List Lexeme}

theorem next_eq_some : next A E s = some s' ↔ round A E s = .ok s' := by
  unfold next
  cases round A E s with
  | error r => simp
  | ok t => simp

theorem lexical_tail {ts : List Lexeme} (h : AllLexical ts) : AllLexical ts.tail :=
  fun x hx => h x (List.mem_of_mem_tail hx)

/-- A parse that fails, and the token skipped for it. -/
theorem Rounds.skip {α : Type} {p : ParseM α} {Q : α → Prop} (hp : Yields p Q) {e : Stop}
    (h : p s.tokens = .error e left) : Rounds A E s (s.skip left) :=
  .skipped fun hs => lexical_tail (Triple.error hp hs h)

theorem rounds_definition (htok : current s.tokens = .def_)
    (h : handleDefinition A E s = .ok s') : Rounds A E s s' := by
  unfold handleDefinition at h
  cases hp : parseDefinition s.builder.binopPrecedence s.tokens with
  | error e left =>
      rw [hp] at h
      cases h
      exact .skip (yields_definition _) hp
  | ok f left =>
      simp only [hp] at h
      cases hc : f.codegen A s.builder with
      | error e b =>
          rw [hc] at h
          cases e with
          | exception what =>
              cases h
              exact .threw (.definition htok hp) hc
          | misread => cases h
      | ok fn b =>
          rw [hc] at h
          cases hj : s.jit with
          | none =>
              simp only [hj] at h
              cases h
              have hr := Rounds.defined (E := E) htok hp hc
              rw [hj] at hr
              exact hr
          | some d =>
              simp only [hj] at h
              split at h
              · cases h
                have hr := Rounds.defined (E := E) htok hp hc
                rw [hj] at hr
                exact hr
              · cases h

theorem rounds_extern (htok : current s.tokens = .extern_) (h : handleExtern s = .ok s') :
    Rounds A E s s' := by
  unfold handleExtern at h
  cases hp : parseExtern s.tokens with
  | error e left =>
      rw [hp] at h
      cases h
      exact .skip yields_extern hp
  | ok p left =>
      rw [hp] at h
      cases h
      exact .declared htok hp

theorem rounds_topLevel (htok : current s.tokens ∉ [.eof, .def_, .extern_, .chr ';'])
    (h : handleTopLevelExpression A E s = .ok s') : Rounds A E s s' := by
  unfold handleTopLevelExpression at h
  cases hp : parseTopLevelExpr s.builder.binopPrecedence s.tokens with
  | error e left =>
      rw [hp] at h
      cases h
      exact .skip (yields_topLevelExpr _) hp
  | ok f left =>
      simp only [hp] at h
      cases hc : f.codegen A s.builder with
      | error e b =>
          rw [hc] at h
          cases e with
          | exception what =>
              cases h
              exact .threw (.topLevel htok hp) hc
          | misread => cases h
      | ok fn b =>
          rw [hc] at h
          cases hj : s.jit with
          | none =>
              simp only [hj] at h
              cases h
              have hfound : ∀ d, s.jit = some d → E.evaluate (d.add b.module) = some [] := by
                intro d hd
                rw [hj] at hd
                cases hd
              have hr := Rounds.evaluated hp hc hfound
              rw [hj] at hr
              exact hr
          | some d =>
              simp only [hj] at h
              split at h
              · cases hfound : E.evaluate (d.add b.module) with
                | none =>
                    rw [hfound] at h
                    cases h
                | some found =>
                    rw [hfound] at h
                    cases h
                    have hr := Rounds.evaluated (E := E) hp hc fun d' hd' => by
                      rw [hj] at hd'
                      cases hd'
                      exact hfound
                    rw [hj] at hr
                    exact hr
              · cases h

theorem rounds_of_next (h : next A E s = some s') : Rounds A E s s' := by
  rw [next_eq_some] at h
  unfold round at h
  split at h
  · cases h
  · next htok => exact rounds_definition htok h
  · next htok => exact rounds_extern htok h
  · next heof hdef hextern =>
      split at h
      · cases h
        exact .skipped lexical_tail
      · next hsemi =>
          refine rounds_topLevel (fun hmem => ?_) h
          simp only [List.mem_cons, List.not_mem_nil, or_false] at hmem
          rcases hmem with hm | hm | hm | hm
          · exact heof hm
          · exact hdef hm
          · exact hextern hm
          · exact hsemi hm

/-! ### The handler a round calls -/

theorem round_definition (htok : current s.tokens = .def_) :
    round A E s = handleDefinition A E s := by
  unfold round
  rw [htok]

theorem round_prototype (htok : current s.tokens = .extern_) : round A E s = handleExtern s := by
  unfold round
  rw [htok]

theorem round_topLevel (htok : current s.tokens ∉ [.eof, .def_, .extern_, .chr ';']) :
    round A E s = handleTopLevelExpression A E s := by
  simp only [List.mem_cons, List.not_mem_nil, or_false, not_or] at htok
  obtain ⟨heof, hdef, hextern, hsemi⟩ := htok
  unfold round
  split
  · contradiction
  · contradiction
  · contradiction
  · rw [if_neg hsemi]

theorem exists_reads_iff :
    (∃ left, s.Reads f left) ↔ s.read = some f := by
  unfold Session.read
  constructor
  · rintro ⟨left, h⟩
    cases h with
    | definition htok hparse => rw [if_pos htok, hparse, okOption]
    | topLevel htok hparse =>
        simp only [List.mem_cons, List.not_mem_nil, or_false, not_or] at htok
        obtain ⟨heof, hdef, hextern, hsemi⟩ := htok
        rw [if_neg hdef, if_neg (by simp [heof, hextern, hsemi]), hparse, okOption]
  · intro h
    split at h
    · next htok =>
        obtain ⟨left, hparse⟩ := okOption_eq_some.mp h
        exact ⟨left, .definition htok hparse⟩
    · next hdef =>
        split at h
        · cases h
        · next htok =>
            obtain ⟨left, hparse⟩ := okOption_eq_some.mp h
            refine ⟨left, .topLevel ?_ hparse⟩
            simp only [List.mem_cons, List.not_mem_nil, or_false, not_or] at htok ⊢
            exact ⟨htok.1, hdef, htok.2⟩

/-- The tokens of a session stay lexical. -/
theorem Rounds.lexical (h : Rounds A E s s') (hs : AllLexical s.tokens) : AllLexical s'.tokens := by
  cases h with
  | skipped hleft => exact hleft hs
  | declared _ hparse => exact (Triple.ok yields_extern hs hparse).1
  | threw hreads _ =>
      cases hreads with
      | definition _ hparse => exact (Triple.ok (yields_definition _) hs hparse).1
      | topLevel _ hparse => exact (Triple.ok (yields_topLevelExpr _) hs hparse).1
  | defined _ hparse _ => exact (Triple.ok (yields_definition _) hs hparse).1
  | evaluated hparse _ => exact (Triple.ok (yields_topLevelExpr _) hs hparse).1

theorem lexical_start (strtod : String → Double) (useJIT : Bool) (input : List UInt8) :
    AllLexical (Session.start strtod useJIT input).tokens := fun _ =>
  lexical_of_mem_tokens fun _ hc => nomatch hc

end

end LlvmPasses.Kaleido
