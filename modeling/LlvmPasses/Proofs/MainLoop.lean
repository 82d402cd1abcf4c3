import LlvmPasses.Proofs.JitSymbols
import LlvmPasses.Proofs.ParserTotal

/-!
# The main loop ends

Every round that is not the last consumes a token: a parse that succeeds has
consumed one, and where a parse fails the handler skips one. So the loop is
over after at most one round more than there are tokens, whatever they are.

There are two ways in which it does not end by returning. A round's code
generation may come to the use of what is no variable as one, behind an
unchecked cast, and nothing more can be said of the program; whether it does is
a question about the item and the tables before it, which `check` answers. Or
the JIT may have no next round for an item that compiles, and `ExitOnErr` ends
the process: it has a symbol for the item's name already, or an expression's
own function cannot be looked up or does not return. The invariant of the JIT's
symbols is carried along to say which names these are.

`terminates_iff` is about every input. `Terminates` says that `mainLoop`
returns within a number of rounds that the length of the input bounds, that
every round before the end takes a token, that each parse returns or throws,
and that `getTok` reads on; to the right there is a condition on each item that
the session comes to. `Rounded` has the three things that a round can do, and
the induction is on the tokens that are left (`mainLoop_stops`). The parse
functions return on every list of tokens, which is `ParserTotal`'s.
-/

namespace LlvmPasses.Kaleido

open StateError TokenParser Transition

/-- Code generation for the item at hand comes to an assignment to something
that is not a variable. -/
def Session.Misreads (s : Session) : Prop :=
  ∃ f left, s.Reads f left ∧ f.check s.builder = some .misread

/-- The item at hand compiles, and the JIT has a symbol for its name, or does
not come back from evaluating it. -/
inductive Session.Exits (A : Arith) (E : Jit) (s : Session) : Prop
  | defined {f : FunctionAST} {left : List Lexeme} {d : JITDylib} (hreads : s.Reads f left)
      (hcheck : f.check s.builder = none) (hjit : s.jit = some d)
      (hmem : f.prototype.name ∈ d.symbols)
  | evaluated {f : FunctionAST} {left : List Lexeme} {fn : Function} {b : Builder} {d : JITDylib}
      (htok : current s.tokens ≠ .def_) (hreads : s.Reads f left)
      (hcodegen : f.codegen A s.builder = .ok fn b) (hjit : s.jit = some d)
      (hnone : E.evaluate (d.add b.module) = none)

/-- The loop can go on from the session. -/
def Session.GoesOn (A : Arith) (E : Jit) (s : Session) : Prop := ¬ s.Misreads ∧ ¬ s.Exits A E

section

variable {A : Arith} {E : Jit} {s s' : Session} {f : FunctionAST} {left : List Lexeme}

/-! ## One round -/

theorem skip_lt (hle : left.length ≤ s.tokens.length) (hne : s.tokens ≠ []) :
    (s.skip left).tokens.length < s.tokens.length := by
  have hpos : 0 < s.tokens.length := List.length_pos_iff.mpr hne
  show left.tail.length < _
  rw [List.length_tail]
  omega

theorem consuming_parseDefinition {prec : Char → Int} {ts left : List Lexeme}
    (hne : ts ≠ []) (h : parseDefinition prec ts = .ok f left) : left.length < ts.length :=
  length_lt_of_next ((nonGrowing_parsePrototypeOn _).bind fun _ =>
    (nonGrowing_each prec _).expression.bind fun _ => nonGrowing_pure _) hne h

theorem consuming_parseExtern {p : Prototype} {ts left : List Lexeme} (hne : ts ≠ [])
    (h : parseExtern ts = .ok p left) : left.length < ts.length :=
  length_lt_of_next (nonGrowing_parsePrototypeOn _) hne h

theorem left_le {α : Type} {p : ParseM α} (hp : NonGrowing p) {ts left : List Lexeme} {e : Stop}
    (h : p ts = .error e left) : left.length ≤ ts.length := by
  have hle := hp ts
  rwa [h] at hle

/-- What a round may do: nothing is defined any more, the process ends, or it
takes a token. -/
inductive Rounded (A : Arith) (E : Jit) (s : Session) : Prop
  | misread (hm : s.Misreads) (h : round A E s = .error .misread)
  | exited (hx : s.Exits A E) (h : round A E s = .error .exited)
  | progress {s' : Session} (hgo : s.GoesOn A E) (h : round A E s = .ok s')
      (hlt : s'.tokens.length < s.tokens.length)

theorem current_nil {ts : List Lexeme} (h : current ts ≠ .eof) : ts ≠ [] := by
  rintro rfl
  exact h rfl

/-- What an item reads is determined. -/
theorem Session.Reads.unique {g : FunctionAST} {left' : List Lexeme} (h : s.Reads f left)
    (h' : s.Reads g left') : f = g ∧ left = left' := by
  cases h with
  | definition htok hp =>
      cases h' with
      | definition htok' hp' =>
          rw [hp] at hp'
          cases hp'
          exact ⟨rfl, rfl⟩
      | topLevel htok' hp' =>
          rw [htok] at htok'
          exact absurd htok' (by decide)
  | topLevel htok hp =>
      cases h' with
      | definition htok' hp' =>
          rw [htok'] at htok
          exact absurd htok (by decide)
      | topLevel htok' hp' =>
          rw [hp] at hp'
          cases hp'
          exact ⟨rfl, rfl⟩

theorem goesOn_of_not_reads (h : ∀ f left, ¬ s.Reads f left) : s.GoesOn A E := by
  refine ⟨fun ⟨f, left, hf, _⟩ => h f left hf, fun hx => ?_⟩
  cases hx with
  | defined hreads => exact h _ _ hreads
  | evaluated _ hreads => exact h _ _ hreads

/-- An item that throws is in nobody's way. -/
theorem goesOn_of_threw {what : String} (h : s.Reads f left)
    (hf : f.check s.builder = some (.exception what)) : s.GoesOn A E := by
  refine ⟨fun ⟨g, left', hg, hm⟩ => ?_, fun hx => ?_⟩
  · obtain ⟨rfl, -⟩ := h.unique hg
    rw [hf] at hm
    cases hm
  · cases hx with
    | defined hreads hcheck =>
        obtain ⟨rfl, -⟩ := h.unique hreads
        rw [hf] at hcheck
        cases hcheck
    | @evaluated g left' fn b d _ hreads hcodegen =>
        obtain ⟨rfl, -⟩ := h.unique hreads
        have hcheck := functionCodegen_check A f s.builder
        rw [hcodegen] at hcheck
        exact absurd (hf.symm.trans hcheck) nofun

/-- Nor is one that compiles, if the JIT can do with it what it has to. -/
theorem goesOn_of_accepted {fn : Function} {b : Builder} (h : s.Reads f left)
    (hcodegen : f.codegen A s.builder = .ok fn b)
    (hnew : ∀ d, s.jit = some d → f.prototype.name ∉ d.symbols)
    (heval : current s.tokens ≠ .def_ → ∀ d, s.jit = some d →
      E.evaluate (d.add b.module) ≠ none) : s.GoesOn A E := by
  have hcheck := functionCodegen_check A f s.builder
  rw [hcodegen] at hcheck
  refine ⟨fun ⟨g, left', hg, hm⟩ => ?_, fun hx => ?_⟩
  · obtain ⟨rfl, -⟩ := h.unique hg
    exact absurd (hm.symm.trans hcheck) nofun
  · cases hx with
    | defined hreads _ hjit hmem =>
        obtain ⟨rfl, -⟩ := h.unique hreads
        exact hnew _ hjit hmem
    | evaluated htok hreads hcodegen' hjit hnone =>
        obtain ⟨rfl, -⟩ := h.unique hreads
        rw [hcodegen] at hcodegen'
        cases hcodegen'
        exact heval htok _ hjit hnone

theorem rounded_definition (hE : E.DefinesOnce) (hs : s.Moved) (htok : current s.tokens = .def_) :
    Rounded A E s := by
  have hne : s.tokens ≠ [] := current_nil (by rw [htok]; decide)
  have hround : round A E s = handleDefinition A E s := round_definition htok
  unfold handleDefinition at hround
  cases hp : parseDefinition s.builder.binopPrecedence s.tokens with
  | error e left =>
      rw [hp] at hround
      refine .progress (goesOn_of_not_reads fun f left' h => ?_) hround
        (skip_lt (left_le (itemParser_definition _).nonGrowing hp) hne)
      cases h with
      | definition _ hp' => rw [hp] at hp'; cases hp'
      | topLevel htok' _ => rw [htok] at htok'; exact absurd htok' (by decide)
  | ok f left =>
      have hlt := consuming_parseDefinition hne hp
      have hreads : s.Reads f left := .definition htok hp
      have hcheck := functionCodegen_check A f s.builder
      simp only [hp] at hround
      cases hc : f.codegen A s.builder with
      | error e b =>
          rw [hc] at hround hcheck
          cases e with
          | exception what => exact .progress (goesOn_of_threw hreads hcheck) hround hlt
          | misread => exact .misread ⟨f, left, hreads, hcheck⟩ hround
      | ok fn b =>
          rw [hc] at hround hcheck
          cases hj : s.jit with
          | none =>
              simp only [hj] at hround
              refine .progress (goesOn_of_accepted hreads hc (fun d hd => ?_)
                fun hne => absurd htok hne) hround hlt
              rw [hj] at hd
              cases hd
          | some d =>
              simp only [hj] at hround
              by_cases hnew : f.prototype.name ∈ d.symbols
              · have hadd := fun h => (hs.addModule_iff hE hj hc).mp h hnew
                rw [if_neg hadd] at hround
                exact .exited (.defined hreads hcheck hj hnew) hround
              · rw [if_pos ((hs.addModule_iff hE hj hc).mpr hnew)] at hround
                refine .progress (goesOn_of_accepted hreads hc (fun d' hd' => ?_)
                  fun hne => absurd htok hne) hround hlt
                rw [hj] at hd'
                exact Option.some.inj hd' ▸ hnew

theorem rounded_topLevel (hE : E.DefinesOnce) (hs : s.Moved)
    (htok : current s.tokens ∉ [.eof, .def_, .extern_, .chr ';']) : Rounded A E s := by
  have htok' := htok
  simp only [List.mem_cons, List.not_mem_nil, or_false, not_or] at htok'
  obtain ⟨heof, hdef, hextern, hsemi⟩ := htok'
  have hne := current_nil heof
  have hround : round A E s = handleTopLevelExpression A E s := round_topLevel htok
  unfold handleTopLevelExpression at hround
  cases hp : parseTopLevelExpr s.builder.binopPrecedence s.tokens with
  | error e left =>
      rw [hp] at hround
      refine .progress (goesOn_of_not_reads fun f left' h => ?_) hround
        (skip_lt (left_le (itemParser_topLevelExpr _).nonGrowing hp) hne)
      cases h with
      | definition h _ => exact hdef h
      | topLevel _ hp' => rw [hp] at hp'; cases hp'
  | ok f left =>
      have hlt := consuming_parseTopLevelExpr _ _ _ _ hp
      have hreads : s.Reads f left := .topLevel htok hp
      have hcheck := functionCodegen_check A f s.builder
      have hname := (Triple.ok (yields_topLevelExpr _) hs.lexical hp).2.1
      simp only [hp] at hround
      cases hc : f.codegen A s.builder with
      | error e b =>
          rw [hc] at hround hcheck
          cases e with
          | exception what => exact .progress (goesOn_of_threw hreads hcheck) hround hlt
          | misread => exact .misread ⟨f, left, hreads, hcheck⟩ hround
      | ok fn b =>
          rw [hc] at hround
          cases hj : s.jit with
          | none =>
              simp only [hj] at hround
              refine .progress (goesOn_of_accepted hreads hc (fun d hd => ?_)
                fun _ d hd => ?_) hround hlt
              · rw [hj] at hd
                cases hd
              · rw [hj] at hd
                cases hd
          | some d =>
              simp only [hj] at hround
              have hnew : f.prototype.name ∉ d.symbols := by
                rw [hname]
                exact hs.anon_new hj
              rw [if_pos ((hs.addModule_iff hE hj hc).mpr hnew)] at hround
              cases hev : E.evaluate (d.add b.module) with
              | none =>
                  rw [hev] at hround
                  exact .exited (.evaluated hdef hreads hc hj hev) hround
              | some found =>
                  rw [hev] at hround
                  refine .progress (goesOn_of_accepted hreads hc (fun d' hd' => ?_)
                    fun _ d' hd' => ?_) hround hlt
                  · rw [hj] at hd'
                    exact Option.some.inj hd' ▸ hnew
                  · rw [hj] at hd'
                    rw [← Option.some.inj hd', hev]
                    exact Option.some_ne_none found

theorem rounded_extern (htok : current s.tokens = .extern_) : Rounded A E s := by
  have hne : s.tokens ≠ [] := current_nil (by rw [htok]; decide)
  have hgo : s.GoesOn A E := goesOn_of_not_reads fun f left h => by
    cases h with
    | definition htok' _ => rw [htok] at htok'; cases htok'
    | topLevel htok' _ => rw [htok] at htok'; exact absurd htok' (by decide)
  have hround : round A E s = handleExtern s := round_prototype htok
  unfold handleExtern at hround
  cases hp : parseExtern s.tokens with
  | error e left =>
      rw [hp] at hround
      exact .progress hgo hround (skip_lt (left_le itemParser_extern.nonGrowing hp) hne)
  | ok p left =>
      rw [hp] at hround
      exact .progress hgo hround (consuming_parseExtern hne hp)

/-- Every round that is not the last takes a token, or is the last. -/
theorem rounded (hE : E.DefinesOnce) (hs : s.Moved) (heof : current s.tokens ≠ .eof) :
    Rounded A E s := by
  by_cases hdef : current s.tokens = .def_
  · exact rounded_definition hE hs hdef
  by_cases hextern : current s.tokens = .extern_
  · exact rounded_extern hextern
  by_cases hsemi : current s.tokens = .chr ';'
  · have hne := current_nil heof
    have hround : round A E s = .ok { s with tokens := s.tokens.tail } := by
      unfold round
      rw [hsemi]
      rfl
    refine .progress (goesOn_of_not_reads fun f left h => ?_) hround
      (skip_lt (Nat.le_refl _) hne)
    cases h with
    | definition htok _ => exact hdef htok
    | topLevel htok _ => rw [hsemi] at htok; exact absurd htok (by decide)
  · refine rounded_topLevel hE hs fun hmem => ?_
    simp only [List.mem_cons, List.not_mem_nil, or_false] at hmem
    rcases hmem with h | h | h | h
    · exact heof h
    · exact hdef h
    · exact hextern h
    · exact hsemi h

/-! ## The loop -/

theorem round_eof (h : current s.tokens = .eof) : round A E s = .error .returned := by
  unfold round
  rw [h]

theorem goesOn_of_eof (h : current s.tokens = .eof) : s.GoesOn A E :=
  goesOn_of_not_reads fun f left hr => by
    cases hr with
    | definition htok _ => rw [h] at htok; cases htok
    | topLevel htok _ => rw [h] at htok; exact absurd htok (by decide)

/-- One round more than there are tokens is enough, and the loop returns
exactly if it can go on from every session on the way. -/
theorem mainLoop_stops (hE : E.DefinesOnce) (hs : s.Moved) {n : Nat}
    (hn : s.tokens.length < n) :
    ∃ r, mainLoop A E n s = some r ∧
      (r = .returned ↔ ∀ s', Reaches (next A E) s s' → s'.GoesOn A E) := by
  induction n generalizing s with
  | zero => exact absurd hn (Nat.not_lt_zero _)
  | succ n ih =>
      rw [mainLoop]
      by_cases heof : current s.tokens = .eof
      · rw [round_eof heof]
        refine ⟨_, rfl, fun _ s' hs' => ?_, fun _ => rfl⟩
        rcases hs'.head_cases with rfl | ⟨t, ht, -⟩
        · exact goesOn_of_eof heof
        · rw [next_eq_some, round_eof heof] at ht
          cases ht
      · cases rounded (A := A) hE hs heof with
        | misread hm h =>
            rw [h]
            exact ⟨_, rfl, nofun, fun hall => absurd hm (hall s (.refl s)).1⟩
        | exited hx h =>
            rw [h]
            exact ⟨_, rfl, nofun, fun hall => absurd hx (hall s (.refl s)).2⟩
        | @progress t hgo h hlt =>
            rw [h]
            obtain ⟨r, hr, hiff⟩ := ih (s := t) (moved_next hE hs (next_eq_some.mpr h)) (by omega)
            refine ⟨r, hr, hiff.trans ⟨fun hall s' hs' => ?_, fun hall s' hs' => ?_⟩⟩
            · rcases hs'.head_cases with rfl | ⟨u, hu, hreach⟩
              · exact hgo
              · rw [next_eq_some, h] at hu
                cases hu
                exact hall s' hreach
            · exact hall s' ((Reaches.single (next_eq_some.mpr h)).trans hs')

/-- The driver terminates on an input of this many characters, from its first
token on. -/
structure Terminates (A : Arith) (E : Jit) (strtod : String → Double) (chars : Nat)
    (s : Session) : Prop where
  returns : mainLoop A E (chars + 2) s = some .returned
  /-- Every round before `Eof` takes a token. -/
  progress : ∀ s', Reaches (next A E) s s' → current s'.tokens ≠ .eof →
    ∃ s'', round A E s' = .ok s'' ∧ s''.tokens.length < s'.tokens.length
  /-- Every parse returns or throws. -/
  parses : ∀ prec ts, Settled (parseDefinition prec ts) ∧ Settled (parseTopLevelExpr prec ts) ∧
    Settled (parseExtern ts)
  /-- `getTok` reads on until there is nothing left. -/
  getTok : ∀ l : Lexer, (l.getTok strtod).1 ≠ .eof →
    (l.getTok strtod).2.remaining < l.remaining

/-- The driver terminates exactly if no round comes to an assignment to
something that is not a variable, and none to an item that compiles and that
the JIT has a symbol for or does not come back from. -/
theorem terminates_iff (A : Arith) {E : Jit} (hE : E.DefinesOnce) (strtod : String → Double)
    (useJIT : Bool) (input : List UInt8) :
    Terminates A E strtod input.length (.start strtod useJIT input) ↔
      ∀ s, Reaches (next A E) (.start strtod useJIT input) s → ¬ s.Misreads ∧ ¬ s.Exits A E := by
  have hlen : (Session.start strtod useJIT input).tokens.length < input.length + 2 :=
    Nat.lt_succ_of_le (Lexer.length_tokens_le strtod (.init input))
  have hmoved := moved_start strtod useJIT input
  obtain ⟨r, hr, hiff⟩ := mainLoop_stops (A := A) hE hmoved hlen
  constructor
  · intro h
    rw [h.returns] at hr
    exact hiff.mp (Option.some.inj hr).symm
  · intro h
    refine ⟨by rw [hr, hiff.mpr h], fun s hs heof => ?_, fun prec ts => ?_, fun l => ?_⟩
    · have hmoved : s.Moved := hs.induction hmoved fun _ _ ht hstep => moved_next hE ht hstep
      cases rounded (A := A) hE hmoved heof with
      | misread hm _ => exact absurd hm (h s hs).1
      | exited hx _ => exact absurd hx (h s hs).2
      | progress _ hround hlt => exact ⟨_, hround, hlt⟩
    · exact ⟨(itemParser_definition prec).settled ts, (itemParser_topLevelExpr prec).settled ts,
        itemParser_extern.settled ts⟩
    · exact Lexer.getTok_remaining_lt

end

/-! ## An assignment to a number -/

/-- `1 = 2`. -/
def assigningInput : List UInt8 := [49, 32, 61, 32, 50]

def assigningSession : Session := .start (fun _ => .one) true assigningInput

theorem tokens_assigningSession : assigningSession.tokens =
    [⟨.number, "", .one⟩, ⟨.chr '=', "", .one⟩, ⟨.number, "", .one⟩] := by
  decide +kernel

theorem round_assigningSession (A : Arith) (E : Jit) :
    round A E assigningSession = .error .misread := by
  have hparse : parseTopLevelExpr assigningSession.builder.binopPrecedence
      assigningSession.tokens = .ok ⟨{ name := "__anon_expr", args := [] },
        .binary '=' (.number .one) (.number .one)⟩ [] := by
    rw [tokens_assigningSession]
    rfl
  unfold round
  rw [tokens_assigningSession]
  simp only [current]
  rw [if_neg (by decide)]
  unfold handleTopLevelExpression
  rw [hparse]
  rfl

/-- The driver does not return on `1 = 2`. -/
theorem mainLoop_assigningInput :
    ¬ ∀ (A : Arith) (E : Jit) (strtod : String → Double) (useJIT : Bool) (input : List UInt8),
      E.DefinesOnce → (∀ d, E.evaluate d ≠ none) →
      ∃ n, mainLoop A E n (.start strtod useJIT input) = some .returned := by
  intro h
  let A : Arith := ⟨fun a _ => a, fun a _ => a, fun a _ => a⟩
  obtain ⟨n, hn⟩ := h A returningJit (fun _ => .one) true assigningInput
    returningJit_definesOnce fun _ => Option.some_ne_none _
  cases n with
  | zero => cases hn
  | succ n =>
      rw [mainLoop, show round A _ (.start (fun _ => .one) true assigningInput) = _ from
        round_assigningSession A _] at hn
      cases hn

/-- On `def f(x) x f(1) def g(y) y` the driver terminates. -/
theorem terminates_iff_distinct :
    let A : Arith := ⟨fun a _ => a, fun a _ => a, fun a _ => a⟩
    Terminates A searchingJit (fun _ => .one) distinctInput.length
      (.start (fun _ => .one) true distinctInput) := by
  intro A
  have hlen : (Session.start (fun _ => .one) true distinctInput).tokens.length < 20 := by
    decide +kernel
  have hret : mainLoop A searchingJit 20 (.start (fun _ => .one) true distinctInput) =
      some .returned := by
    decide +kernel
  obtain ⟨r, hr, hiff⟩ := mainLoop_stops (A := A) searchingJit_definesOnce
    (moved_start (fun _ => .one) true distinctInput) hlen
  rw [hret] at hr
  exact (terminates_iff A searchingJit_definesOnce (fun _ => .one) true distinctInput).mpr
    (hiff.mp (Option.some.inj hr).symm)

end LlvmPasses.Kaleido
