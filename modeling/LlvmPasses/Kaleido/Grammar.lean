import LlvmPasses.Kaleido.Parser
import LlvmPasses.Lib.Precedence

/-!
# The expression grammar

What the parser is for, as a relation between words and trees. An expression is
a chain of operands with a binary operator between neighbours, and its tree is
the one the precedences give that chain. An operand is closed when it ends with
a token of its own; a conditional, a loop or a `var` goes on for as long as its
last part does, so it can only stand at the end of a chain.

The characters that are unary operators are a parameter: the grammar as it is
written leaves the punctuation out, and `parseUnary` does not.
-/

namespace LlvmPasses.Kaleido

open Precedence StateError

/-! ## Words -/

/-- A token as the grammar sees it, with its text or value where it has one. -/
inductive Word where
  | ident (name : String)
  | num (val : Double)
  | tok (t : Token)

def Word.Fits : Word → Lexeme → Prop
  | .ident name, x => x.tok = .identifier ∧ x.identifier = name
  | .num val, x => x.tok = .number ∧ x.number = val
  | .tok t, x => x.tok = t

/-- The stream starts with a spelling of the words and goes on with `rest`. -/
def Spells : List Word → List Lexeme → List Lexeme → Prop
  | [], s, rest => s = rest
  | w :: ws, s, rest => ∃ x s', s = x :: s' ∧ w.Fits x ∧ Spells ws s' rest

theorem spells_append {ws vs : List Word} {s rest : List Lexeme} :
    Spells (ws ++ vs) s rest ↔ ∃ mid, Spells ws s mid ∧ Spells vs mid rest := by
  induction ws generalizing s with
  | nil => simp [Spells]
  | cons w ws ih =>
      simp only [List.cons_append, Spells, ih]
      constructor
      · rintro ⟨x, s', rfl, hx, mid, h₁, h₂⟩
        exact ⟨mid, ⟨x, s', rfl, hx, h₁⟩, h₂⟩
      · rintro ⟨mid, ⟨x, s', rfl, hx, h₁⟩, h₂⟩
        exact ⟨x, s', rfl, hx, mid, h₁, h₂⟩

/-- A composite word list starts with the word that names the construct. -/
theorem spells_cons {w : Word} {ws : List Word} {s rest : List Lexeme}
    (h : Spells (w :: ws) s rest) : ∃ x s', s = x :: s' ∧ w.Fits x ∧ Spells ws s' rest := h

/-- A list of words that ends in a token: what comes before it is followed by
that token, and the token by the rest. -/
theorem spells_split {ws vs : List Word} {tok : Token} {s rest : List Lexeme}
    (h : Spells (ws ++ .tok tok :: vs) s rest) :
    ∃ x u, Spells ws s (x :: u) ∧ x.tok = tok ∧ Spells vs u rest := by
  obtain ⟨mid, h₁, h₂⟩ := spells_append.mp h
  obtain ⟨x, u, rfl, hx, h₃⟩ := spells_cons h₂
  exact ⟨x, u, h₁, hx, h₃⟩

/-- The other way round: a stretch, the token behind it, and the rest. -/
theorem spells_join {ws vs : List Word} {tok : Token} {s mid u rest : List Lexeme}
    (h : Spells ws s mid) (htok : Spells [.tok tok] mid u) (hvs : Spells vs u rest) :
    Spells (ws ++ .tok tok :: vs) s rest :=
  spells_append.mpr ⟨mid, h, spells_append.mpr ⟨u, htok, hvs⟩⟩

/-! ## Words read off the stream -/

section Reading

variable {s t : List Lexeme}

theorem peek_bind {α : Type} (f : Token → ParseM α) (s : List Lexeme) :
    (peek >>= f) s = f (current s) s := rfl

theorem next_bind {α : Type} (f : Unit → ParseM α) (s : List Lexeme) :
    (getNextToken >>= f) s = f () s.tail := rfl

/-- A token that is current is the first of the stream. -/
theorem exists_cons_of_current {tok : Token} (h : current s = tok) (hne : tok ≠ .eof) :
    ∃ x s', s = x :: s' ∧ x.tok = tok := by
  cases s with
  | nil => exact absurd h.symm hne
  | cons x s' => exact ⟨x, s', rfl, h⟩

theorem check_ok {tok : Token} {what : String} {u : Unit}
    (h : check tok what s = .ok u t) : current s = tok ∧ t = s := by
  have h : (if current s = tok then pure () else fail what : ParseM Unit) s = .ok u t := h
  split at h
  · next heq => exact ⟨heq, (pure_eq_ok h).2⟩
  · cases h

theorem expect_ok {tok : Token} {what : String} {u : Unit} (hne : tok ≠ .eof)
    (h : expect tok what s = .ok u t) : Spells [.tok tok] s t := by
  obtain ⟨u', s₁, hc, hnext⟩ := bind_eq_ok h
  obtain ⟨hcur, rfl⟩ := check_ok hc
  obtain ⟨x, s', rfl, hx⟩ := exists_cons_of_current hcur hne
  cases hnext
  exact ⟨x, s', rfl, hx, rfl⟩

theorem length_spells {ws : List Word} (h : Spells ws s t) :
    s.length = ws.length + t.length := by
  induction ws generalizing s with
  | nil => rw [show s = t from h, List.length_nil, Nat.zero_add]
  | cons w ws ih =>
      obtain ⟨x, s', rfl, -, hs⟩ := h
      rw [List.length_cons, List.length_cons, ih hs]
      omega

def Word.token : Word → Token
  | .ident _ => .identifier
  | .num _ => .number
  | .tok t => t

theorem token_of_fits {w : Word} {x : Lexeme} (h : w.Fits x) : x.tok = w.token := by
  cases w with
  | ident name => exact h.1
  | num value => exact h.1
  | tok t => exact h

theorem tokens_of_spells {ws : List Word} (h : Spells ws s t) :
    s.map Lexeme.tok = ws.map Word.token ++ t.map Lexeme.tok := by
  induction ws generalizing s with
  | nil => rw [show s = t from h]; rfl
  | cons w ws ih =>
      obtain ⟨x, s', rfl, hx, hs⟩ := h
      rw [List.map_cons, List.map_cons, List.cons_append, ih hs, token_of_fits hx]

end Reading

/-! ## Sentences -/

/-- The syntax tree of a chain's tree. -/
def chainExpr : OpTree Expr Char → Expr
  | .leaf e => e
  | .node l op r => .binary op (chainExpr l) (chainExpr r)

/-- What a stretch of words is read as: an operand, the operators and operands
behind the first, an expression, arguments, a part that `intro` introduces and
that may be missing, the names a `var` binds. -/
inductive Phrase where
  | operand (closed : Bool) (e : Expr)
  | links (closed : Bool) (ls : List (Char × Expr))
  | expression (e : Expr)
  | args (es : List Expr)
  | optional (intro : Token) (o : Option Expr)
  | names (vs : List (String × Option Expr))

/-- A `)` behind the `(` of a call closes it, so no argument list starts with
one. -/
inductive Derives (unaryOp : Char → Bool) (prec : Char → Int) : Phrase → List Word → Prop
  | number (val : Double) : Derives unaryOp prec (.operand true (.number val)) [.num val]
  | name (x : String) : Derives unaryOp prec (.operand true (.variable x)) [.ident x]
  | paren {e : Expr} {ws : List Word} (h : Derives unaryOp prec (.expression e) ws) :
      Derives unaryOp prec (.operand true e) (.tok (.chr '(') :: (ws ++ [.tok (.chr ')')]))
  | callEmpty (callee : String) :
      Derives unaryOp prec (.operand true (.call callee []))
        [.ident callee, .tok (.chr '('), .tok (.chr ')')]
  | call (callee : String) {es : List Expr} {ws : List Word}
      (h : Derives unaryOp prec (.args es) ws) (hne : ws.head? ≠ some (.tok (.chr ')'))) :
      Derives unaryOp prec (.operand true (.call callee es))
        (.ident callee :: .tok (.chr '(') :: (ws ++ [.tok (.chr ')')]))
  | unary {closed : Bool} {op : Char} {e : Expr} {ws : List Word} (hop : unaryOp op = true)
      (h : Derives unaryOp prec (.operand closed e) ws) :
      Derives unaryOp prec (.operand closed (.unary op e)) (.tok (.chr op) :: ws)
  | ifElse {cond thn els : Expr} {wc wt we : List Word}
      (hc : Derives unaryOp prec (.expression cond) wc)
      (ht : Derives unaryOp prec (.expression thn) wt)
      (he : Derives unaryOp prec (.expression els) we) :
      Derives unaryOp prec (.operand false (.ifElse cond thn els))
        (.tok .if_ :: (wc ++ .tok .then_ :: (wt ++ .tok .else_ :: we)))
  | forIn (varName : String) {start fin body : Expr} {step : Option Expr}
      {ws wf wo wb : List Word} (hs : Derives unaryOp prec (.expression start) ws)
      (hf : Derives unaryOp prec (.expression fin) wf)
      (ho : Derives unaryOp prec (.optional (.chr ',') step) wo)
      (hb : Derives unaryOp prec (.expression body) wb) :
      Derives unaryOp prec (.operand false (.forIn varName start fin step body))
        (.tok .for_ :: .ident varName :: .tok (.chr '=') ::
          (ws ++ .tok (.chr ',') :: (wf ++ (wo ++ .tok .in_ :: wb))))
  | varIn {varNames : List (String × Option Expr)} {body : Expr} {wv wb : List Word}
      (hv : Derives unaryOp prec (.names varNames) wv)
      (hb : Derives unaryOp prec (.expression body) wb) :
      Derives unaryOp prec (.operand false (.varIn varNames body))
        (.tok .var :: (wv ++ .tok .in_ :: wb))
  | linksNil : Derives unaryOp prec (.links true []) []
  | linksCons {closed : Bool} {op : Char} {e : Expr} {ls : List (Char × Expr)}
      {ws ws' : List Word} (hop : isAscii op = true) (hprec : 0 < prec op)
      (h : Derives unaryOp prec (.operand true e) ws)
      (hls : Derives unaryOp prec (.links closed ls) ws') :
      Derives unaryOp prec (.links closed ((op, e) :: ls)) (.tok (.chr op) :: (ws ++ ws'))
  | linksLast {op : Char} {e : Expr} {ws : List Word} (hop : isAscii op = true)
      (hprec : 0 < prec op) (h : Derives unaryOp prec (.operand false e) ws) :
      Derives unaryOp prec (.links false [(op, e)]) (.tok (.chr op) :: ws)
  | chain {closed : Bool} {t : OpTree Expr Char} {ws ws' : List Word}
      (hfirst : Derives unaryOp prec (.operand true t.first) ws)
      (hlinks : Derives unaryOp prec (.links closed t.links) ws') (ht : t.Ordered prec) :
      Derives unaryOp prec (.expression (chainExpr t)) (ws ++ ws')
  | whole {e : Expr} {ws : List Word} (h : Derives unaryOp prec (.operand false e) ws) :
      Derives unaryOp prec (.expression e) ws
  | argsOne {e : Expr} {ws : List Word} (h : Derives unaryOp prec (.expression e) ws) :
      Derives unaryOp prec (.args [e]) ws
  | argsMore {e : Expr} {es : List Expr} {ws ws' : List Word}
      (h : Derives unaryOp prec (.expression e) ws) (hes : Derives unaryOp prec (.args es) ws') :
      Derives unaryOp prec (.args (e :: es)) (ws ++ .tok (.chr ',') :: ws')
  | optionalNone (intro : Token) : Derives unaryOp prec (.optional intro none) []
  | optionalSome (intro : Token) {e : Expr} {ws : List Word}
      (h : Derives unaryOp prec (.expression e) ws) :
      Derives unaryOp prec (.optional intro (some e)) (.tok intro :: ws)
  | namesOne (name : String) {init : Option Expr} {ws : List Word}
      (h : Derives unaryOp prec (.optional (.chr '=') init) ws) :
      Derives unaryOp prec (.names [(name, init)]) (.ident name :: ws)
  | namesMore (name : String) {init : Option Expr} {vs : List (String × Option Expr)}
      {ws ws' : List Word} (h : Derives unaryOp prec (.optional (.chr '=') init) ws)
      (hvs : Derives unaryOp prec (.names vs) ws') :
      Derives unaryOp prec (.names ((name, init) :: vs))
        (.ident name :: (ws ++ .tok (.chr ',') :: ws'))

namespace Derives

variable {unaryOp : Char → Bool} {prec : Char → Int} {e : Expr} {ws ws' : List Word}

/-- A closed operand is an expression. -/
theorem single (h : Derives unaryOp prec (.operand true e) ws) :
    Derives unaryOp prec (.expression e) ws := by
  have hchain := chain (t := .leaf e) h linksNil trivial
  rwa [List.append_nil] at hchain

/-- Two stretches of a chain make one. -/
theorem links_append {closed : Bool} {ls ls' : List (Char × Expr)}
    (h : Derives unaryOp prec (.links true ls) ws)
    (h' : Derives unaryOp prec (.links closed ls') ws') :
    Derives unaryOp prec (.links closed (ls ++ ls')) (ws ++ ws') := by
  generalize hp : Phrase.links true ls = p at h
  induction h generalizing ls with
  | linksNil =>
      cases hp
      exact h'
  | linksCons hop hprec h hls ih ihls =>
      cases hp
      have hrest := linksCons hop hprec h (ihls rfl)
      rwa [← List.append_assoc] at hrest
  | _ => cases hp

theorem prec_pos {closed : Bool} {ls : List (Char × Expr)}
    (h : Derives unaryOp prec (.links closed ls) ws) : ∀ x ∈ ls, 0 < prec x.1 := by
  generalize hp : Phrase.links closed ls = p at h
  induction h generalizing ls with
  | linksNil =>
      cases hp
      nofun
  | linksCons hop hprec h hls ih ihls =>
      cases hp
      exact List.forall_mem_cons.mpr ⟨hprec, ihls rfl⟩
  | linksLast hop hprec h ih =>
      cases hp
      exact List.forall_mem_cons.mpr ⟨hprec, nofun⟩
  | _ => cases hp

end Derives

/-- The phrases that have words. -/
def Phrase.Solid : Phrase → Prop
  | .operand _ _ | .expression _ | .args _ => True
  | _ => False

theorem Derives.ne_nil {unaryOp : Char → Bool} {prec : Char → Int} {p : Phrase}
    {ws : List Word} (h : Derives unaryOp prec p ws) (hp : p.Solid) : ws ≠ [] := by
  induction h with
  | chain hfirst hlinks ht ihfirst ihlinks => exact fun h => ihfirst trivial (by simp_all)
  | whole h ih | argsOne h ih => exact ih trivial
  | linksNil | linksCons | linksLast | optionalNone | optionalSome | namesOne | namesMore =>
      exact hp.elim
  | _ => simp

/-! ## What stands around an expression -/

/-- The punctuation of the grammar has no precedence. -/
def PlainPunctuation (prec : Char → Int) : Prop :=
  prec '(' ≤ 0 ∧ prec ')' ≤ 0 ∧ prec ',' ≤ 0

/-- A token that ends an expression: neither the `(` of a call nor a binary
operator. -/
def Follows (prec : Char → Int) (t : Token) : Prop :=
  t ≠ .chr '(' ∧ getTokPrecedence prec t < 0

/-- The words do not end in a name that a `(` behind them would call. -/
def Unopened (ws : List Word) (t : Token) : Prop :=
  ∀ name, ws.getLast? = some (.ident name) → t ≠ .chr '('

/-- An expression of these words ends in front of `t`. -/
def EndsAt (prec : Char → Int) (ws : List Word) (t : Token) : Prop :=
  Unopened ws t ∧ getTokPrecedence prec t < 0

section Followers

variable {prec : Char → Int} {ws vs : List Word} {t : Token}

theorem Follows.ends (h : Follows prec t) : EndsAt prec ws t := ⟨fun _ _ => h.1, h.2⟩

theorem unopened_of_ne (h : t ≠ .chr '(') : Unopened ws t := fun _ _ => h

@[simp] theorem unopened_nil : Unopened [] t := nofun

@[simp] theorem unopened_tok (t' : Token) : Unopened [.tok t'] t := nofun

@[simp] theorem unopened_num (val : Double) : Unopened [.num val] t := nofun

@[simp] theorem unopened_ident (name : String) : Unopened [.ident name] t ↔ t ≠ .chr '(' :=
  ⟨fun h => h name rfl, unopened_of_ne⟩

/-- Only the last word matters. -/
theorem unopened_append (hne : ws ≠ []) : Unopened (vs ++ ws) t ↔ Unopened ws t := by
  unfold Unopened
  rw [List.getLast?_append, List.getLast?_eq_some_getLast hne, Option.some_or]

theorem unopened_cons {w : Word} (hne : ws ≠ []) : Unopened (w :: ws) t ↔ Unopened ws t :=
  @unopened_append ws [w] t hne

theorem Unopened.right (h : Unopened (vs ++ ws) t) : Unopened ws t := by
  by_cases hne : ws = []
  · subst hne
    exact unopened_nil
  · exact (unopened_append hne).mp h

theorem Unopened.tail {w : Word} (h : Unopened (w :: ws) t) : Unopened ws t :=
  @Unopened.right ws [w] t h

/-- A token that is no character ends an expression. -/
theorem follows_of_not_chr (h : ∀ c, t ≠ .chr c) : Follows prec t := by
  refine ⟨h _, ?_⟩
  cases t with
  | chr c => exact absurd rfl (h c)
  | _ => exact Int.negSucc_lt_zero 0

theorem follows_then : Follows prec .then_ := follows_of_not_chr nofun

theorem follows_else : Follows prec .else_ := follows_of_not_chr nofun

theorem follows_in : Follows prec .in_ := follows_of_not_chr nofun

theorem getTokPrecedence_of_nonpos {c : Char} (h : prec c ≤ 0) :
    getTokPrecedence prec (.chr c) < 0 := by
  simp only [getTokPrecedence, h, if_true]
  split <;> decide

theorem getTokPrecedence_of_pos {c : Char} (hc : isAscii c = true) (h : 0 < prec c) :
    getTokPrecedence prec (.chr c) = prec c := by
  have hpos : ¬ prec c ≤ 0 := by omega
  simp only [getTokPrecedence, hc, if_true, hpos, if_false]

theorem follows_paren (h : PlainPunctuation prec) : Follows prec (.chr ')') :=
  ⟨by decide, getTokPrecedence_of_nonpos h.2.1⟩

theorem follows_comma (h : PlainPunctuation prec) : Follows prec (.chr ',') :=
  ⟨by decide, getTokPrecedence_of_nonpos h.2.2⟩

/-- An operator with a precedence is not the `(` of a call. -/
theorem ne_open_of_pos {c : Char} (h : PlainPunctuation prec) (hc : 0 < prec c) :
    Token.chr c ≠ .chr '(' := by
  rintro heq
  cases heq
  have := h.1
  omega

end Followers

end LlvmPasses.Kaleido
