import LlvmPasses.Kaleido.Grammar
import LlvmPasses.Proofs.ParserTotal

/-!
# The parser reads the grammar

Every sentence is consumed and gives its tree, whatever the precedences and
however the chain rises and falls. The induction is on the derivation, with one
statement for each kind of phrase about the function that reads it, and each
construct hands its parts a follower they can stop at: a keyword, a comma, a
closing parenthesis, or the operator between two operands.

For a chain `parseBinOpRHS` is compared with the climb. The operands are read
one by one with what follows them, so the loop sees the precedences the climb
looks at; that it recurses only where the next operator binds more strongly is
the climb's stopping at once everywhere else.

`Derives.parseExpression` is completeness: a sentence is read to its end and
its tree comes back. For every construct there is a lemma that puts together
what is read of its parts, and `Derives.reads` is the induction that uses them.
Budgets are kept out of it. A statement is that the function returns on all
large enough ones (`Runs` of `Lib.TokenParser`), so parts combine without
adding up what they need, and the entry points have enough (`onFuel_of_runs`).

`parseExpression_chain` is the special case of a chain of closed operands with
its one ordered tree. It is for chains of every length and every table of
precedences.
-/

namespace LlvmPasses.Kaleido

open TokenParser StateError Precedence

/-! ## Reading one word -/

section Reading

variable {prec : Char → Int} {α : Type} {a : α} {x : Lexeme} {s rest t : List Lexeme}

theorem runs_next {f : Nat → ParseM α} (h : Runs f s a t) :
    Runs (fun n => getNextToken >>= fun _ => f n) (x :: s) a t :=
  Runs.bind (Runs.const (a := ()) (t := s) rfl) h

theorem runs_peek {f : Nat → Token → ParseM α} (h : Runs (fun n => f n (current s)) s a t) :
    Runs (fun n => peek >>= f n) s a t :=
  Runs.bind (Runs.const (a := current s) rfl) h

theorem runs_identifier {f : Nat → String → ParseM α}
    (h : Runs (fun n => f n x.identifier) (x :: s) a t) :
    Runs (fun n => getIdentifier >>= f n) (x :: s) a t :=
  Runs.bind (Runs.const (a := x.identifier) rfl) h

theorem runs_check {tok : Token} {what : String} {f : Nat → ParseM α}
    (hx : current s = tok) (h : Runs f s a t) :
    Runs (fun n => check tok what >>= fun _ => f n) s a t := by
  refine Runs.bind (Runs.const (a := ()) (t := s) ?_) h
  show (peek >>= fun tok' => if tok' = tok then pure () else fail what) s = _
  rw [bind_ok (show peek s = .ok (current s) s from rfl), if_pos hx]
  rfl

theorem runs_expect {tok : Token} {what : String} {f : Nat → ParseM α}
    (hx : x.tok = tok) (h : Runs f s a t) :
    Runs (fun n => expect tok what >>= fun _ => f n) (x :: s) a t := by
  refine Runs.bind (Runs.const (a := ()) (t := s) ?_) h
  show (check tok what >>= fun _ => getNextToken) (x :: s) = _
  have hc : check tok what (x :: s) = .ok () (x :: s) := by
    show (peek >>= fun tok' => if tok' = tok then pure () else fail what) (x :: s) = _
    rw [bind_ok (show peek (x :: s) = .ok x.tok (x :: s) from rfl), if_pos hx]
    rfl
  rw [bind_ok hc]
  rfl

/-- `parsePrimary` on its first token. -/
def primaryOn (prec : Char → Int) (n : Nat) : Token → ParseM Expr
  | .number => parseNumberExpr
  | .identifier => parseIdentifierExpr prec n
  | .chr '(' => parseParenExpr prec n
  | .if_ => parseIfExpr prec n
  | .for_ => parseForExpr prec n
  | .var => parseVarExpr prec n
  | _ => fail "Unknown token when expecting an expression"

theorem parsePrimary_succ (n : Nat) :
    parsePrimary prec (n + 1) = peek >>= primaryOn prec n := by
  rw [parsePrimary]
  rfl

/-- What starts with no unary operator goes by its first token. -/
theorem runs_unary_of_token {e : Expr} {tok : Token} (hx : x.tok = tok)
    (hop : ∀ c, tok = .chr c → isUnaryChar c = false)
    (h : Runs (fun n => primaryOn prec n tok) (x :: s) e rest) :
    Runs (parseUnary prec) (x :: s) e rest := by
  have hprimary : Runs (parsePrimary prec) (x :: s) e rest := by
    refine Runs.succ ?_
    simp only [parsePrimary_succ]
    refine runs_peek ?_
    rwa [current, hx]
  refine Runs.succ ?_
  simp only [parseUnary]
  refine runs_peek ?_
  simp only [current, hx]
  split
  · next c => simpa only [hop c rfl, Bool.false_eq_true, if_false] using hprimary
  · exact hprimary

theorem runs_unary_char {e : Expr} {op : Char} (hx : x.tok = .chr op)
    (hop : isUnaryChar op = true) (h : Runs (parseUnary prec) s e rest) :
    Runs (parseUnary prec) (x :: s) (.unary op e) rest := by
  refine Runs.succ ?_
  simp only [parseUnary]
  refine runs_peek ?_
  simp only [current, hx, hop, if_true]
  exact runs_next (Runs.bind h (Runs.pure _ _))

end Reading

/-! ## Chains -/

/-- The operators and operands, as the parser meets them: each operand is what
`parseUnary` reads there. -/
inductive ReadsLinks (prec : Char → Int) :
    List (Char × Expr) → List Lexeme → List Lexeme → Prop
  | nil (s : List Lexeme) : ReadsLinks prec [] s s
  | cons {op : Char} {e : Expr} {ls : List (Char × Expr)} {x : Lexeme}
      {s mid rest : List Lexeme} (hx : x.tok = .chr op) (hop : isAscii op = true)
      (hprec : 0 < prec op) (he : Runs (parseUnary prec) s e mid)
      (hls : ReadsLinks prec ls mid rest) : ReadsLinks prec ((op, e) :: ls) (x :: s) rest

namespace ReadsLinks

variable {prec : Char → Int} {ls ls' : List (Char × Expr)} {s rest : List Lexeme}

theorem split (h : ReadsLinks prec (ls ++ ls') s rest) :
    ∃ mid, ReadsLinks prec ls s mid ∧ ReadsLinks prec ls' mid rest := by
  induction ls generalizing s with
  | nil => exact ⟨s, .nil s, h⟩
  | cons x ls ih =>
      cases h with
      | cons hx hop hprec he hls =>
          obtain ⟨mid, h₁, h₂⟩ := ih hls
          exact ⟨mid, .cons hx hop hprec he h₁, h₂⟩

/-- The loop sees the precedence the climb looks at. -/
theorem tokPrecedence (h : ReadsLinks prec ls s rest) :
    getTokPrecedence prec (current s) =
      nextPrec prec (getTokPrecedence prec (current rest)) ls := by
  cases h with
  | nil => rfl
  | cons hx hop hprec he hls =>
      simp only [current, hx]
      exact getTokPrecedence_of_pos hop hprec

/-- In front of the links stands an operator, or what is behind all of them. -/
theorem unopened (hp : PlainPunctuation prec) {ws ws' : List Word}
    (h : ReadsLinks prec ls s rest) (hs : Spells ws' s rest)
    (hopen : Unopened (ws ++ ws') (current rest)) : Unopened ws (current s) := by
  cases h with
  | nil =>
      have hlen := length_spells hs
      obtain rfl : ws' = [] := List.eq_nil_of_length_eq_zero (by omega)
      rwa [List.append_nil] at hopen
  | cons hx hop hprec he hls =>
      simp only [current, hx]
      exact unopened_of_ne (ne_open_of_pos hp hprec)

end ReadsLinks

/-- `parseBinOpRHS` climbs. -/
theorem runs_binOpRHS {prec : Char → Int} {m k : Int} {l t : OpTree Expr Char}
    {ls : List (Char × Expr)} {s rest : List Lexeme} (h : Climb prec m k l ls t)
    (hs : ReadsLinks prec ls s rest) (hk : k = getTokPrecedence prec (current rest)) :
    Runs (fun n => parseBinOpRHS prec n m (chainExpr l)) s (chainExpr t) rest := by
  induction h generalizing s rest with
  | @stop m k l hlt =>
      cases hs
      refine Runs.succ ?_
      simp only [parseBinOpRHS]
      refine runs_peek ?_
      simp only [← hk, hlt, if_true]
      exact Runs.pure _ _
  | @step m k l r t op u inner outer hm hr ht ihr iht =>
      cases hs with
      | @cons _ _ _ x s mid _ hx hop hprec he hls =>
          obtain ⟨mid', hinner, houter⟩ := hls.split
          have hnext := houter.tokPrecedence
          rw [← hk] at hnext
          have hcur : current (x :: s) = .chr op := hx
          have hlt : ¬ prec op < m := by omega
          refine Runs.succ ?_
          simp only [parseBinOpRHS]
          refine runs_peek ?_
          simp only [hcur, getTokPrecedence_of_pos hop hprec, hlt, if_false]
          refine runs_peek (runs_next (Runs.bind he (runs_peek ?_)))
          simp only [hcur, Token.toChar]
          refine Runs.bind ?_ (iht houter hk)
          by_cases hrise : prec op < getTokPrecedence prec (current mid)
          · simp only [hrise, if_true]
            exact ihr hinner hnext.symm
          · -- no higher precedence: the climb for the operand stops at once
            rw [hinner.tokPrecedence, hnext] at hrise
            obtain ⟨rfl, rfl⟩ := hr.of_next_lt (by omega)
            cases hinner
            have hrise : ¬ prec op < getTokPrecedence prec (current mid) := by
              rw [hnext]
              exact hrise
            simp only [hrise, if_false]
            exact Runs.pure _ _

/-- An expression is a chain the parser reads all of. -/
theorem runs_chain {prec : Char → Int} {t : OpTree Expr Char} {s mid rest : List Lexeme}
    (ht : t.Ordered prec) (hfirst : Runs (parseUnary prec) s t.first mid)
    (hlinks : ReadsLinks prec t.links mid rest) (hpos : ∀ x ∈ t.links, 0 < prec x.1)
    (hf : getTokPrecedence prec (current rest) < 0) :
    Runs (parseExpression prec) s (chainExpr t) rest := by
  obtain ⟨t', hclimb⟩ := exists_climb (.leaf t.first) hf
    fun x hx => Int.le_of_lt (hpos x hx)
  have heq : t' = t :=
    (hclimb.ordered trivial trivial).unique ht hclimb.first_eq hclimb.links_eq
  subst heq
  refine Runs.succ ?_
  simp only [parseExpression]
  exact Runs.bind hfirst (runs_binOpRHS hclimb hlinks rfl)

theorem runs_expression_of_unary {prec : Char → Int} {e : Expr} {s rest : List Lexeme}
    (h : Runs (parseUnary prec) s e rest) (hf : getTokPrecedence prec (current rest) < 0) :
    Runs (parseExpression prec) s e rest :=
  runs_chain (t := .leaf e) trivial h (.nil rest) nofun hf

/-! ## Phrases -/

/-- What the parse functions make of the words of a phrase. -/
def Reads (prec : Char → Int) : Phrase → List Word → Prop
  | .operand closed e, ws => ∀ s rest, Spells ws s rest → Unopened ws (current rest) →
      (closed = false → getTokPrecedence prec (current rest) < 0) →
        Runs (parseUnary prec) s e rest
  | .links closed ls, ws => ∀ s rest, Spells ws s rest → Unopened ws (current rest) →
      (closed = false → getTokPrecedence prec (current rest) < 0) → ReadsLinks prec ls s rest
  | .expression e, ws => ∀ s rest, Spells ws s rest → EndsAt prec ws (current rest) →
      Runs (parseExpression prec) s e rest
  | .args es, ws => ∀ s rest, Spells ws s rest → current rest = .chr ')' →
      Runs (parseArgs prec) s es rest
  | .optional intro o, ws => ∀ s rest, Spells ws s rest → Follows prec (current rest) →
      current rest ≠ intro → Runs (fun n => parseOptional prec n intro) s o rest
  | .names vs, ws => ∀ s rest, Spells ws s rest → current rest = .in_ →
      current s = .identifier ∧ Runs (parseVarNames prec) s vs rest

section Phrases

variable {prec : Char → Int} {e : Expr} {ws ws' : List Word}

/-! ### Closed operands -/

theorem reads_number (val : Double) : Reads prec (.operand true (.number val)) [.num val] := by
  intro s rest hs hopen hclosed
  obtain ⟨x, s', rfl, ⟨hx, rfl⟩, rfl⟩ := spells_cons hs
  exact runs_unary_of_token hx (by simp) (Runs.const rfl)

theorem reads_name (name : String) :
    Reads prec (.operand true (.variable name)) [.ident name] := by
  intro s rest hs hopen hclosed
  obtain ⟨x, s', rfl, ⟨hx, rfl⟩, rfl⟩ := spells_cons hs
  refine runs_unary_of_token hx (by simp) (Runs.succ ?_)
  simp only [primaryOn, parseIdentifierExpr]
  refine runs_identifier (runs_next (runs_peek ?_))
  simp only [ne_eq, unopened_ident] at hopen
  simp only [ne_eq, hopen, not_false_eq_true, if_true]
  exact Runs.pure _ _

theorem reads_paren (hp : PlainPunctuation prec) (h : Reads prec (.expression e) ws) :
    Reads prec (.operand true e) (.tok (.chr '(') :: (ws ++ [.tok (.chr ')')])) := by
  intro s rest hs hopen hclosed
  obtain ⟨x, s', rfl, hx, hs⟩ := spells_cons hs
  obtain ⟨y, u, hin, hy, rfl⟩ := spells_split hs
  refine runs_unary_of_token hx (fun c hc => Token.chr.inj hc ▸ rfl) (Runs.succ ?_)
  simp only [primaryOn, parseParenExpr]
  refine runs_next (Runs.bind (h _ _ hin ?_) (runs_expect hy (Runs.pure e u)))
  simp only [current, hy]
  exact (follows_paren hp).ends

/-- A call, up to its arguments: what is read behind the `(` ends at the `)`. -/
theorem runs_call (z : Lexeme) {x y : Lexeme} {es : List Expr} {s u : List Lexeme}
    (hx : x.tok = .identifier) (hy : y.tok = .chr '(')
    (h : Runs (fun n => if current s = .chr ')' then pure [] else parseArgs prec n) s es
      (z :: u)) : Runs (parseUnary prec) (x :: y :: s) (.call x.identifier es) u := by
  refine runs_unary_of_token hx (by simp) (Runs.succ ?_)
  simp only [primaryOn, parseIdentifierExpr]
  refine runs_identifier (runs_next (runs_peek ?_))
  have hcur : current (y :: s) = .chr '(' := hy
  simp only [hcur, ne_eq, not_true_eq_false, if_false]
  exact runs_next (runs_peek (Runs.bind h (runs_next (Runs.pure _ _))))

theorem reads_callEmpty (callee : String) :
    Reads prec (.operand true (.call callee []))
      [.ident callee, .tok (.chr '('), .tok (.chr ')')] := by
  intro s rest hs hopen hclosed
  obtain ⟨x, s', rfl, ⟨hx, rfl⟩, hs₁⟩ := spells_cons hs
  obtain ⟨y, s', rfl, hy, hs₂⟩ := spells_cons hs₁
  obtain ⟨z, s', rfl, hz, rfl⟩ := spells_cons hs₂
  have hcur : current (z :: s') = .chr ')' := hz
  refine runs_call z hx hy ?_
  simp only [hcur, if_true]
  exact Runs.pure _ _

theorem reads_call (callee : String) {es : List Expr} (h : Reads prec (.args es) ws)
    (hws : ws ≠ []) (hne : ws.head? ≠ some (.tok (.chr ')'))) :
    Reads prec (.operand true (.call callee es))
      (.ident callee :: .tok (.chr '(') :: (ws ++ [.tok (.chr ')')])) := by
  intro s rest hs hopen hclosed
  obtain ⟨x, s', rfl, ⟨hx, rfl⟩, hs₁⟩ := spells_cons hs
  obtain ⟨y, s', rfl, hy, hs₂⟩ := spells_cons hs₁
  obtain ⟨z, u, hin, hz, rfl⟩ := spells_split hs₂
  have hcur : current s' ≠ .chr ')' := by
    obtain ⟨w, ws, rfl⟩ := List.exists_cons_of_ne_nil hws
    obtain ⟨a, s'', rfl, ha, _⟩ := spells_cons hin
    cases w with
    | ident name => simp [current, ha.1]
    | num val => simp [current, ha.1]
    | tok t =>
        have ha : a.tok = t := ha
        simpa [current, ha] using hne
  refine runs_call z hx hy ?_
  simp only [hcur, if_false]
  exact h _ _ hin hz

theorem reads_unary {closed : Bool} {op : Char} (hop : isUnaryChar op = true)
    (h : Reads prec (.operand closed e) ws) :
    Reads prec (.operand closed (.unary op e)) (.tok (.chr op) :: ws) := by
  intro s rest hs hopen hclosed
  obtain ⟨x, s', rfl, hx, hs⟩ := spells_cons hs
  exact runs_unary_char hx hop (h s' rest hs hopen.tail hclosed)

/-! ### Operands that go on -/

theorem reads_ifElse {cond thn els : Expr} {wc wt we : List Word}
    (hc : Reads prec (.expression cond) wc) (ht : Reads prec (.expression thn) wt)
    (he : Reads prec (.expression els) we) :
    Reads prec (.operand false (.ifElse cond thn els))
      (.tok .if_ :: (wc ++ .tok .then_ :: (wt ++ .tok .else_ :: we))) := by
  intro s rest hs hopen hclosed
  obtain ⟨x, s', rfl, hx, hs⟩ := spells_cons hs
  obtain ⟨y, u, hcond, hy, hs⟩ := spells_split hs
  obtain ⟨z, v, hthn, hz, hels⟩ := spells_split hs
  have hend : Unopened we (current rest) := hopen.tail.right.tail.right.tail
  refine runs_unary_of_token hx (by simp) (Runs.succ ?_)
  simp only [primaryOn, parseIfExpr]
  refine runs_next (Runs.bind (hc _ _ hcond ?_) (runs_expect hy
    (Runs.bind (ht _ _ hthn ?_) (runs_expect hz
      (Runs.bind (he _ _ hels ⟨hend, hclosed rfl⟩) (Runs.pure _ _))))))
  · simp only [current, hy]
    exact follows_then.ends
  · simp only [current, hz]
    exact follows_else.ends

theorem reads_optionalNone (intro : Token) : Reads prec (.optional intro none) [] := by
  rintro s rest rfl hf hne
  refine Runs.succ ?_
  simp only [parseOptional]
  refine runs_peek ?_
  simp only [hne, if_false]
  exact Runs.pure _ _

theorem reads_optionalSome (intro : Token) (h : Reads prec (.expression e) ws) :
    Reads prec (.optional intro (some e)) (.tok intro :: ws) := by
  intro s rest hs hf hne
  obtain ⟨x, s', rfl, hx, hs⟩ := spells_cons hs
  have hcur : current (x :: s') = intro := hx
  refine Runs.succ ?_
  simp only [parseOptional]
  refine runs_peek ?_
  simp only [hcur, if_true]
  exact runs_next (Runs.bind (h _ _ hs hf.ends) (Runs.pure _ _))

/-- What an optional part leaves behind it is its own introduction, or what
comes next. -/
theorem current_of_optional {unaryOp : Char → Bool} {intro : Token} {o : Option Expr}
    {s rest : List Lexeme} (h : Derives unaryOp prec (.optional intro o) ws)
    (hs : Spells ws s rest) : current s = intro ∨ current s = current rest := by
  cases h with
  | optionalNone =>
      obtain rfl : s = rest := hs
      exact .inr rfl
  | optionalSome _ h =>
      obtain ⟨x, s', rfl, hx, hs⟩ := spells_cons hs
      exact .inl hx

theorem reads_forIn (hp : PlainPunctuation prec) {unaryOp : Char → Bool} (varName : String)
    {start fin body : Expr} {step : Option Expr} {ws wf wo wb : List Word}
    (hs : Reads prec (.expression start) ws) (hf : Reads prec (.expression fin) wf)
    (hd : Derives unaryOp prec (.optional (.chr ',') step) wo)
    (ho : Reads prec (.optional (.chr ',') step) wo) (hb : Reads prec (.expression body) wb) :
    Reads prec (.operand false (.forIn varName start fin step body))
      (.tok .for_ :: .ident varName :: .tok (.chr '=') ::
        (ws ++ .tok (.chr ',') :: (wf ++ (wo ++ .tok .in_ :: wb)))) := by
  intro s rest hspells hopen hclosed
  obtain ⟨x, s', rfl, hx, hs₁⟩ := spells_cons hspells
  obtain ⟨y, s', rfl, ⟨hy, rfl⟩, hs₂⟩ := spells_cons hs₁
  obtain ⟨z, s', rfl, hz, hs₃⟩ := spells_cons hs₂
  obtain ⟨a, u, hstart, ha, hs₄⟩ := spells_split hs₃
  obtain ⟨mid, hfin, hs₅⟩ := spells_append.mp hs₄
  obtain ⟨b, v, hstep, hbtok, hbody⟩ := spells_split hs₅
  have hend : Unopened wb (current rest) := hopen.tail.tail.tail.right.tail.right.right.tail
  -- behind the end condition comes the comma of a step, or `in`
  have hmid : Follows prec (current mid) := by
    rcases current_of_optional hd hstep with hcur | hcur
    · rw [hcur]
      exact follows_comma hp
    · rw [hcur, current, hbtok]
      exact follows_in
  refine runs_unary_of_token hx (by simp) (Runs.succ ?_)
  simp only [primaryOn, parseForExpr]
  refine runs_next (runs_check hy (runs_identifier (runs_next (runs_expect hz
    (Runs.bind (hs _ _ hstart ?_) (runs_expect ha
      (Runs.bind (hf _ _ hfin hmid.ends)
        (Runs.bind (ho _ _ hstep ?_ ?_) (runs_expect hbtok
          (Runs.bind (hb _ _ hbody ⟨hend, hclosed rfl⟩) (Runs.pure _ _)))))))))))
  · simp only [current, ha]
    exact (follows_comma hp).ends
  · simp only [current, hbtok]
    exact follows_in
  · simp [current, hbtok]

theorem reads_varIn {varNames : List (String × Option Expr)} {body : Expr}
    {wv wb : List Word} (hv : Reads prec (.names varNames) wv)
    (hb : Reads prec (.expression body) wb) :
    Reads prec (.operand false (.varIn varNames body))
      (.tok .var :: (wv ++ .tok .in_ :: wb)) := by
  intro s rest hs hopen hclosed
  obtain ⟨x, s', rfl, hx, hs⟩ := spells_cons hs
  obtain ⟨y, u, hin, hy, hs⟩ := spells_split hs
  obtain ⟨hident, hnames⟩ := hv _ _ hin hy
  have hend : Unopened wb (current rest) := hopen.tail.right.tail
  refine runs_unary_of_token hx (by simp) (Runs.succ ?_)
  simp only [primaryOn, parseVarExpr]
  exact runs_next (runs_check hident (Runs.bind hnames (runs_expect hy
    (Runs.bind (hb _ _ hs ⟨hend, hclosed rfl⟩) (Runs.pure _ _)))))

theorem reads_namesOne (name : String) {init : Option Expr}
    (h : Reads prec (.optional (.chr '=') init) ws) :
    Reads prec (.names [(name, init)]) (.ident name :: ws) := by
  intro s rest hs hin
  obtain ⟨x, s', rfl, ⟨hx, rfl⟩, hinit⟩ := spells_cons hs
  refine ⟨hx, Runs.succ ?_⟩
  simp only [parseVarNames]
  refine runs_identifier (runs_next (Runs.bind (h _ _ hinit ?_ ?_) (runs_peek ?_)))
  · rw [hin]
    exact follows_in
  · simp [hin]
  · simp only [hin, ne_eq, reduceCtorEq, not_false_eq_true, if_true]
    exact Runs.pure _ _

theorem reads_namesMore (hp : PlainPunctuation prec) (name : String) {init : Option Expr}
    {vs : List (String × Option Expr)} (h : Reads prec (.optional (.chr '=') init) ws)
    (hvs : Reads prec (.names vs) ws') :
    Reads prec (.names ((name, init) :: vs))
      (.ident name :: (ws ++ .tok (.chr ',') :: ws')) := by
  intro s rest hs hin
  obtain ⟨x, s', rfl, ⟨hx, rfl⟩, htail⟩ := spells_cons hs
  obtain ⟨y, u, hinit, hy, hrest⟩ := spells_split htail
  obtain ⟨hident, hnames⟩ := hvs _ _ hrest hin
  have hcur : current (y :: u) = .chr ',' := hy
  refine ⟨hx, Runs.succ ?_⟩
  simp only [parseVarNames]
  refine runs_identifier (runs_next (Runs.bind (h _ _ hinit ?_ ?_) (runs_peek ?_)))
  · rw [hcur]
    exact follows_comma hp
  · simp [hcur]
  · simp only [hcur, ne_eq, not_true_eq_false, if_false]
    exact runs_next (runs_check hident (Runs.bind hnames (Runs.pure _ _)))

/-! ### Chains and arguments -/

theorem reads_linksCons (hp : PlainPunctuation prec) {closed : Bool} {op : Char}
    {ls : List (Char × Expr)} (hop : isAscii op = true) (hprec : 0 < prec op)
    (h : Reads prec (.operand true e) ws) (hls : Reads prec (.links closed ls) ws') :
    Reads prec (.links closed ((op, e) :: ls)) (.tok (.chr op) :: (ws ++ ws')) := by
  intro s rest hs hopen hclosed
  obtain ⟨x, s', rfl, hx, hs⟩ := spells_cons hs
  obtain ⟨mid, hfirst, hrest⟩ := spells_append.mp hs
  have hlinks := hls _ _ hrest hopen.tail.right hclosed
  exact .cons hx hop hprec (h _ _ hfirst (hlinks.unopened hp hrest hopen.tail) nofun) hlinks

theorem reads_linksLast {op : Char} (hop : isAscii op = true) (hprec : 0 < prec op)
    (h : Reads prec (.operand false e) ws) :
    Reads prec (.links false [(op, e)]) (.tok (.chr op) :: ws) := by
  intro s rest hs hopen hclosed
  obtain ⟨x, s', rfl, hx, hs⟩ := spells_cons hs
  exact .cons hx hop hprec (h _ _ hs hopen.tail hclosed) (.nil rest)

theorem reads_chain (hp : PlainPunctuation prec) {closed : Bool} {t : OpTree Expr Char}
    (hfirst : Reads prec (.operand true t.first) ws)
    (hlinks : Reads prec (.links closed t.links) ws') (ht : t.Ordered prec)
    (hpos : ∀ x ∈ t.links, 0 < prec x.1) :
    Reads prec (.expression (chainExpr t)) (ws ++ ws') := by
  intro s rest hs hf
  obtain ⟨mid, hs₁, hs₂⟩ := spells_append.mp hs
  have hls := hlinks _ _ hs₂ hf.1.right fun _ => hf.2
  exact runs_chain ht (hfirst _ _ hs₁ (hls.unopened hp hs₂ hf.1) nofun) hls hpos hf.2

theorem reads_argsOne (hp : PlainPunctuation prec) (h : Reads prec (.expression e) ws) :
    Reads prec (.args [e]) ws := by
  intro s rest hs hclose
  refine Runs.succ ?_
  simp only [parseArgs]
  refine Runs.bind (h _ _ hs ?_) (runs_peek ?_)
  · rw [hclose]
    exact (follows_paren hp).ends
  · simp only [hclose, if_true]
    exact Runs.pure _ _

theorem reads_argsMore (hp : PlainPunctuation prec) {es : List Expr}
    (h : Reads prec (.expression e) ws) (hes : Reads prec (.args es) ws') :
    Reads prec (.args (e :: es)) (ws ++ .tok (.chr ',') :: ws') := by
  intro s rest hs hclose
  obtain ⟨x, u, hin, hx, hrest⟩ := spells_split hs
  have hcur : current (x :: u) = .chr ',' := hx
  refine Runs.succ ?_
  simp only [parseArgs]
  refine Runs.bind (h _ _ hin ?_) (runs_peek ?_)
  · rw [hcur]
    exact (follows_comma hp).ends
  · simp only [hcur, Token.chr.injEq, Char.reduceEq, if_false]
    exact runs_expect hx (Runs.bind (hes _ _ hrest hclose) (Runs.pure _ _))

end Phrases

/-! ## Sentences -/

section Sentences

variable {prec : Char → Int}

/-- One case for each rule of the grammar. -/
theorem Derives.reads (hp : PlainPunctuation prec) {p : Phrase} {ws : List Word}
    (h : Derives isUnaryChar prec p ws) : Reads prec p ws := by
  induction h with
  | number val => exact reads_number val
  | name x => exact reads_name x
  | paren h ih => exact reads_paren hp ih
  | callEmpty callee => exact reads_callEmpty callee
  | call callee h hne ih => exact reads_call callee ih (h.ne_nil trivial) hne
  | unary hop h ih => exact reads_unary hop ih
  | ifElse hc ht he ihc iht ihe => exact reads_ifElse ihc iht ihe
  | forIn varName hs hf ho hb ihs ihf iho ihb => exact reads_forIn hp varName ihs ihf ho iho ihb
  | varIn hv hb ihv ihb => exact reads_varIn ihv ihb
  | linksNil =>
      rintro s rest rfl hopen hclosed
      exact .nil s
  | linksCons hop hprec h hls ih ihls => exact reads_linksCons hp hop hprec ih ihls
  | linksLast hop hprec h ih => exact reads_linksLast hop hprec ih
  | chain hfirst hlinks ht ihfirst ihlinks =>
      exact reads_chain hp ihfirst ihlinks ht hlinks.prec_pos
  | whole h ih =>
      exact fun s rest hs hf => runs_expression_of_unary (ih s rest hs hf.1 fun _ => hf.2) hf.2
  | argsOne h ih => exact reads_argsOne hp ih
  | argsMore h hes ih ihes => exact reads_argsMore hp ih ihes
  | optionalNone intro => exact reads_optionalNone intro
  | optionalSome intro h ih => exact reads_optionalSome intro ih
  | namesOne name h ih => exact reads_namesOne name ih
  | namesMore name h hvs ih ihvs => exact reads_namesMore hp name ih ihvs

/-- A reading on large budgets is what the entry points compute. -/
theorem onFuel_of_runs {s rest : List Lexeme} {e : Expr}
    (h : Runs (parseExpression prec) s e rest) :
    onFuel (parseExpression prec) s = .ok e rest := by
  obtain ⟨N, hN⟩ := h
  have hrun := hN N (Nat.le_refl N)
  rw [parseExpression_eq_of_settled (n := N) (by rw [hrun]; trivial), hrun]

/-- A sentence is consumed, and no more than that. -/
theorem Derives.parseExpression (hp : PlainPunctuation prec) {e : Expr} {ws : List Word}
    {s rest : List Lexeme} (h : Derives isUnaryChar prec (.expression e) ws)
    (hs : Spells ws s rest) (hf : EndsAt prec ws (current rest)) :
    onFuel (parseExpression prec) s = .ok e rest :=
  onFuel_of_runs (h.reads hp s rest hs hf)

/-- A chain of closed operands is consumed, and gives its one ordered tree:
equal precedences associate to the left, a higher one takes the operand. -/
theorem parseExpression_chain (hp : PlainPunctuation prec) {u : Expr}
    {ls : List (Char × Expr)} {ws ws' : List Word} {s rest : List Lexeme}
    (hu : Derives isUnaryChar prec (.operand true u) ws)
    (hls : Derives isUnaryChar prec (.links true ls) ws') (hs : Spells (ws ++ ws') s rest)
    (hf : Follows prec (current rest)) :
    ∃ t : OpTree Expr Char, onFuel (parseExpression prec) s = .ok (chainExpr t) rest ∧
      (t.first = u ∧ t.links = ls ∧ t.Ordered prec) ∧
        ∀ t' : OpTree Expr Char, t'.first = u → t'.links = ls → t'.Ordered prec → t' = t := by
  obtain ⟨t, ht⟩ := exists_climb (.leaf u) hf.2 fun x hx => Int.le_of_lt (hls.prec_pos x hx)
  have hordered : t.Ordered prec := ht.ordered trivial trivial
  have hfirst : t.first = u := ht.first_eq
  have hlinks : t.links = ls := ht.links_eq
  rw [← hfirst] at hu
  rw [← hlinks] at hls
  have hsentence := Derives.chain hu hls hordered
  refine ⟨t, hsentence.parseExpression hp hs hf.ends, ⟨hfirst, hlinks, hordered⟩, ?_⟩
  intro t' hfirst' hlinks' hordered'
  exact hordered'.unique hordered (hfirst'.trans hfirst.symm) (hlinks'.trans hlinks.symm)

/-- `-x + y * z - 1`, to the end of the input. -/
theorem parseExpression_chain_sum :
    ∃ t : OpTree Expr Char,
      onFuel (parseExpression fun c => if c = '*' then 40 else if c ∈ ['+', '-'] then 20 else 0)
        [⟨.chr '-', "", .zero⟩, ⟨.identifier, "x", .zero⟩, ⟨.chr '+', "x", .zero⟩,
          ⟨.identifier, "y", .zero⟩, ⟨.chr '*', "y", .zero⟩, ⟨.identifier, "z", .zero⟩,
          ⟨.chr '-', "z", .zero⟩, ⟨.number, "z", .one⟩] = .ok (chainExpr t) [] ∧
      (t.first = .unary '-' (.variable "x") ∧
        t.links = [('+', .variable "y"), ('*', .variable "z"), ('-', .number .one)] ∧
        t.Ordered fun c => if c = '*' then 40 else if c ∈ ['+', '-'] then 20 else 0) ∧
      ∀ t' : OpTree Expr Char, t'.first = .unary '-' (.variable "x") →
        t'.links = [('+', .variable "y"), ('*', .variable "z"), ('-', .number .one)] →
        (t'.Ordered fun c => if c = '*' then 40 else if c ∈ ['+', '-'] then 20 else 0) →
          t' = t := by
  refine parseExpression_chain ?_ (.unary rfl (.name "x"))
    (.linksCons rfl ?_ (.name "y") (.linksCons rfl ?_ (.name "z")
      (.linksCons rfl ?_ (.number .one) .linksNil))) ?_ ?_
  · exact ⟨by decide, by decide, by decide⟩
  · decide
  · decide
  · decide
  · exact ⟨_, _, rfl, rfl, _, _, rfl, ⟨rfl, rfl⟩, _, _, rfl, rfl, _, _, rfl, ⟨rfl, rfl⟩, _, _,
      rfl, rfl, _, _, rfl, ⟨rfl, rfl⟩, _, _, rfl, rfl, _, _, rfl, ⟨rfl, rfl⟩, rfl⟩
  · exact ⟨by simp [current], by simp [current, getTokPrecedence]⟩

end Sentences

end LlvmPasses.Kaleido
