import LlvmPasses.Lib.Hoare
import LlvmPasses.Kaleido.Parser

/-!
# The characters of names and operators

The lexer makes identifiers of letters and digits, and hands out as characters
only what starts neither a name nor a number. So the operators of a parsed
expression are such characters and its callees such words, and a parsed
prototype is either named by an identifier or is an operator's, with as many
parameters as its kind takes: the names `unary` and `binary` are given to
operators are nobody else's.

Two facts come of it that the modules about sessions need. An accepted call by
name is to a word (`Spelled`), so it can never be to the function of an
operator, whose name ends in a character that is in no word (`unary_ne_binary`,
`IsWord.ne_push`). And a prototype under an operator's name has the operator's
number of parameters (`Prototype.Named.length_unary`, `length_binary`), which
the parser checks where it reads the prototype and nobody checks again.

What the lexer hands out is described once, token by token (`Lexeme.Lexical`).
The parse functions are then walked through with a predicate on what they
return and leave over (`Yields`), which sequencing respects; the walk over
expressions is an induction on the budget (`yieldsSpelled`).
-/

namespace LlvmPasses.Kaleido

open StateError

/-- A character the lexer hands out as a token of its own. -/
def OpChar (c : Char) : Prop := c.isAlphanum = false ∧ c ≠ '.'

/-- A name made of letters and digits. -/
def IsWord (s : String) : Prop := ∀ c ∈ s.toList, c.isAlphanum = true

/-- The register of identifiers holds a word at every token. -/
structure Lexeme.Lexical (x : Lexeme) : Prop where
  word : IsWord x.identifier
  op : ∀ c, x.tok = .chr c → OpChar c

/-! ## The lexer -/

theorem isAlphanum_byteChar : ∀ b : UInt8, isAlnum b = true → (byteChar b).isAlphanum = true := by
  have h : ∀ n : Fin 256, isAlnum (UInt8.ofNat n) = true →
      (byteChar (UInt8.ofNat n)).isAlphanum = true := by decide +kernel
  intro b hb
  have hn := h ⟨b.toNat, b.toNat_lt⟩
  simp only [UInt8.ofNat_toNat] at hn
  exact hn hb

theorem opChar_byteChar : ∀ b : UInt8, isAlpha b = false → isNumeric b = false →
    OpChar (byteChar b) := by
  have h : ∀ n : Fin 256, isAlpha (UInt8.ofNat n) = false → isNumeric (UInt8.ofNat n) = false →
      (byteChar (UInt8.ofNat n)).isAlphanum = false ∧ byteChar (UInt8.ofNat n) ≠ '.' := by
    decide +kernel
  intro b ha hn
  have hb := h ⟨b.toNat, b.toNat_lt⟩
  simp only [UInt8.ofNat_toNat] at hb
  exact hb ha hn

theorem isWord_byteText {bs : List UInt8} (h : ∀ b ∈ bs, isAlnum b = true) :
    IsWord (byteText bs) := by
  intro c hc
  rw [byteText, String.toList_ofList] at hc
  obtain ⟨b, hb, rfl⟩ := List.mem_map.mp hc
  exact isAlphanum_byteChar b (h b hb)

theorem keywordOrIdentifier_ne_chr (s : String) (c : Char) : keywordOrIdentifier s ≠ .chr c := by
  unfold keywordOrIdentifier
  repeat' split
  all_goals simp

theorem identifier_skipSpace (l : Lexer) : l.skipSpace.identifier = l.identifier := by
  unfold Lexer.skipSpace
  repeat' split
  all_goals rfl

theorem getTok_lexical {strtod : String → Double} {l : Lexer} (hl : IsWord l.identifier) :
    IsWord (l.getTok strtod).2.identifier ∧ ∀ c, (l.getTok strtod).1 = .chr c → OpChar c := by
  have hspace : IsWord l.skipSpace.identifier := by rwa [identifier_skipSpace]
  induction l using Lexer.getTok.induct with
  | case1 l l₁ hc =>
      rw [Lexer.getTok_end hc]
      exact ⟨hspace, fun c h => by cases h⟩
  | case2 l l₁ c hc ha run l₂ hr =>
      rw [Lexer.getTok_alpha hc ha]
      refine ⟨isWord_byteText fun b hb => ?_, fun c h => ?_⟩
      · rcases List.mem_cons.mp hb with rfl | hb
        · simp [isAlnum, ha]
        · exact List.all_eq_true.mp List.all_takeWhile b hb
      · exact absurd h (keywordOrIdentifier_ne_chr _ c)
  | case3 l l₁ c hc ha hn run l₂ hr =>
      rw [Lexer.getTok_numeric hc (by simpa using ha) hn]
      exact ⟨hspace, fun c h => by cases h⟩
  | case4 l l₁ hend hc ha hn =>
      rw [Lexer.getTok_comment_end hc hend]
      exact ⟨hspace, fun c h => by cases h⟩
  | case5 l l₁ hend hc ha hn ih =>
      rw [Lexer.getTok_comment hc hend]
      have hrest : IsWord (l.skipSpace.readWhile inComment).2.identifier := hspace
      exact ih hrest (by rwa [identifier_skipSpace])
  | case6 l l₁ c hc ha hn hne =>
      rw [Lexer.getTok_chr hc (by simpa using ha) (by simpa using hn) hne]
      refine ⟨?_, fun d hd => ?_⟩
      · unfold Lexer.get
        exact hspace
      · cases hd
        exact opChar_byteChar c (by simpa using ha) (by simpa using hn)

theorem lexical_of_mem_tokens {strtod : String → Double} {l : Lexer} {x : Lexeme}
    (hl : IsWord l.identifier) (h : x ∈ l.tokens strtod) : x.Lexical := by
  induction l using Lexer.tokens.induct strtod with
  | case1 l he => rw [Lexer.tokens, if_pos he] at h; cases h
  | case2 l he ih =>
      rw [Lexer.tokens, if_neg he] at h
      have hlex : IsWord (l.getTok strtod).2.identifier ∧ _ := getTok_lexical hl
      rcases List.mem_cons.mp h with rfl | hmem
      · exact ⟨hlex.1, hlex.2⟩
      · exact ih hlex.1 hmem

/-! ## Parsing lexical tokens -/

def AllLexical (s : List Lexeme) : Prop := ∀ x ∈ s, x.Lexical

/-- On lexical tokens `p` leaves lexical tokens, and what it returns is `Q`. -/
def Yields {α : Type} (p : ParseM α) (Q : α → Prop) : Prop :=
  Triple AllLexical p (fun a s => AllLexical s ∧ Q a) fun _ => AllLexical

section Yields

variable {α β : Type} {p : ParseM α} {f : α → ParseM β} {Q : α → Prop} {R : β → Prop}
variable {prec : Char → Int}

theorem Yields.bind (hp : Yields p Q) (hf : ∀ a, Q a → Yields (f a) R) :
    Yields (p >>= f) R :=
  Triple.bind hp fun a => Triple.pull
    (fun ha => (hf a ha).imp (fun _ h => h.1) (fun _ _ h => h) fun _ _ h => h) fun _ h => h.2

theorem Yields.imp {Q' : α → Prop} (hp : Yields p Q) (h : ∀ a, Q a → Q' a) : Yields p Q' :=
  Triple.imp hp (fun _ h => h) (fun a _ ha => ⟨ha.1, h a ha.2⟩) fun _ _ h => h

theorem yields_pure {a : α} (h : Q a) : Yields (pure a) Q := Triple.pure fun _ hs => ⟨hs, h⟩

theorem yields_fail (what : String) : Yields (fail what : ParseM α) Q :=
  Triple.throw fun _ hs => hs

theorem yields_outOfFuel : Yields (throw .outOfFuel : ParseM α) Q := Triple.throw fun _ hs => hs

theorem op_of_current {s : List Lexeme} (hs : AllLexical s) {c : Char}
    (h : current s = .chr c) : OpChar c := by
  cases s with
  | nil => cases h
  | cons x s => exact (hs x (List.mem_cons_self ..)).op c h

theorem yields_peek : Yields peek fun t => ∀ c, t = .chr c → OpChar c :=
  fun _ hs => ⟨hs, fun _ hc => op_of_current hs hc⟩

theorem yields_next : Yields getNextToken fun _ => True :=
  fun _ hs => ⟨fun x hx => hs x (List.mem_of_mem_tail hx), trivial⟩

theorem word_of_identifier {s : List Lexeme} (hs : AllLexical s) :
    IsWord (s.head?.elim "" Lexeme.identifier) := by
  cases s with
  | nil => exact fun _ hc => nomatch hc
  | cons x s => exact (hs x (List.mem_cons_self ..)).word

theorem yields_identifier : Yields getIdentifier IsWord :=
  fun _ hs => ⟨hs, word_of_identifier hs⟩

theorem yields_number : Yields getNumber fun _ => True := fun _ hs => ⟨hs, trivial⟩

theorem yields_check (t : Token) (what : String) : Yields (check t what) fun _ => True := by
  refine yields_peek.bind fun _ _ => ?_
  split
  · exact yields_pure trivial
  · exact yields_fail _

theorem yields_expect (t : Token) (what : String) : Yields (expect t what) fun _ => True :=
  (yields_check t what).bind fun _ _ => yields_next

/-! ### Expressions -/

/-- The operators of `e` are characters the lexer hands out. -/
def HasOps (ops : List Char) : Prop := ∀ c ∈ ops, OpChar c

mutual

/-- The operators of the tree are characters the lexer hands out, and its
callees are words. -/
def Expr.Spelled : Expr → Prop
  | .number _ | .variable _ => True
  | .varIn varNames body => SpelledVars varNames ∧ body.Spelled
  | .unary op operand => OpChar op ∧ operand.Spelled
  | .binary op lhs rhs => OpChar op ∧ lhs.Spelled ∧ rhs.Spelled
  | .ifElse cond thn els => cond.Spelled ∧ thn.Spelled ∧ els.Spelled
  | .forIn _ start fin step body =>
      start.Spelled ∧ fin.Spelled ∧ SpelledOption step ∧ body.Spelled
  | .call callee args => IsWord callee ∧ SpelledArgs args

def SpelledOption : Option Expr → Prop
  | none => True
  | some e => e.Spelled

def SpelledVars : List (String × Option Expr) → Prop
  | [] => True
  | (_, init) :: vs => SpelledOption init ∧ SpelledVars vs

def SpelledArgs : List Expr → Prop
  | [] => True
  | e :: es => e.Spelled ∧ SpelledArgs es

end

mutual

theorem Expr.Spelled.hasOps : ∀ {e : Expr}, e.Spelled → HasOps e.operators
  | .number _, _ | .variable _, _ => nofun
  | .varIn _ _, h => fun c hc =>
      (List.mem_append.mp hc).elim (SpelledVars.hasOps h.1 c) (h.2.hasOps c)
  | .unary _ _, h => fun c hc =>
      (List.mem_cons.mp hc).elim (fun heq => heq ▸ h.1) (h.2.hasOps c)
  | .binary _ _ _, h => fun c hc =>
      (List.mem_cons.mp hc).elim (fun heq => heq ▸ h.1) fun hc =>
        (List.mem_append.mp hc).elim (h.2.1.hasOps c) (h.2.2.hasOps c)
  | .ifElse _ _ _, h => fun c hc =>
      (List.mem_append.mp hc).elim
        (fun hc => (List.mem_append.mp hc).elim (h.1.hasOps c) (h.2.1.hasOps c))
        (h.2.2.hasOps c)
  | .forIn _ _ _ _ _, h => fun c hc =>
      (List.mem_append.mp hc).elim
        (fun hc => (List.mem_append.mp hc).elim
          (fun hc => (List.mem_append.mp hc).elim (h.1.hasOps c) (h.2.1.hasOps c))
          (SpelledOption.hasOps h.2.2.1 c))
        (h.2.2.2.hasOps c)
  | .call _ _, h => SpelledArgs.hasOps h.2

theorem SpelledOption.hasOps : ∀ {o : Option Expr}, SpelledOption o → HasOps (operatorsOption o)
  | none, _ => nofun
  | some _, h => Expr.Spelled.hasOps h

theorem SpelledVars.hasOps : ∀ {vs : List (String × Option Expr)}, SpelledVars vs →
    HasOps (operatorsVars vs)
  | [], _ => nofun
  | (_, _) :: _, h => fun c hc =>
      (List.mem_append.mp hc).elim (SpelledOption.hasOps h.1 c) (SpelledVars.hasOps h.2 c)

theorem SpelledArgs.hasOps : ∀ {es : List Expr}, SpelledArgs es → HasOps (operatorsArgs es)
  | [], _ => nofun
  | _ :: _, h => fun c hc =>
      (List.mem_append.mp hc).elim (h.1.hasOps c) (SpelledArgs.hasOps h.2 c)

end

/-- What the parse functions yield on `n` units. -/
structure YieldsSpelled (prec : Char → Int) (n : Nat) : Prop where
  paren : Yields (parseParenExpr prec n) Expr.Spelled
  identifier : Yields (parseIdentifierExpr prec n) Expr.Spelled
  args : Yields (parseArgs prec n) SpelledArgs
  ifElse : Yields (parseIfExpr prec n) Expr.Spelled
  forIn : Yields (parseForExpr prec n) Expr.Spelled
  optional : ∀ t, Yields (parseOptional prec n t) SpelledOption
  varIn : Yields (parseVarExpr prec n) Expr.Spelled
  varNames : Yields (parseVarNames prec n) SpelledVars
  primary : Yields (parsePrimary prec n) Expr.Spelled
  expression : Yields (parseExpression prec n) Expr.Spelled
  unary : Yields (parseUnary prec n) Expr.Spelled
  binOpRHS : ∀ k lhs, lhs.Spelled →
    Yields (parseBinOpRHS prec n k lhs) Expr.Spelled

theorem yieldsSpelled_zero : YieldsSpelled prec 0 := by
  constructor
  all_goals intros
  all_goals
    first
      | rw [parseParenExpr] | rw [parseIdentifierExpr] | rw [parseArgs]
      | rw [parseIfExpr] | rw [parseForExpr] | rw [parseOptional]
      | rw [parseVarExpr] | rw [parseVarNames] | rw [parsePrimary]
      | rw [parseExpression] | rw [parseUnary] | rw [parseBinOpRHS]
    exact yields_outOfFuel

theorem toChar_op {t : Token} (h : ∀ c, t = .chr c → OpChar c) : OpChar t.toChar := by
  cases t with
  | chr c => exact h c rfl
  | _ => exact ⟨rfl, by decide⟩

theorem yieldsSpelled_succ {n : Nat} (ih : YieldsSpelled prec n) : YieldsSpelled prec (n + 1) := by
  constructor
  case paren =>
    rw [parseParenExpr]
    exact yields_next.bind fun _ _ => ih.expression.bind fun e he =>
      (yields_expect _ _).bind fun _ _ => yields_pure he
  case identifier =>
    rw [parseIdentifierExpr]
    refine yields_identifier.bind fun _ hword => yields_next.bind fun _ _ =>
      yields_peek.bind fun _ _ => ?_
    split
    · exact yields_pure trivial
    · refine yields_next.bind fun _ _ => yields_peek.bind fun _ _ => ?_
      refine Yields.bind (Q := SpelledArgs) ?_ fun es hes =>
        yields_next.bind fun _ _ => yields_pure ⟨hword, hes⟩
      split
      · exact yields_pure trivial
      · exact ih.args
  case args =>
    rw [parseArgs]
    refine ih.expression.bind fun e he => yields_peek.bind fun _ _ => ?_
    split
    · exact yields_pure ⟨he, trivial⟩
    · exact (yields_expect _ _).bind fun _ _ => ih.args.bind fun es hes =>
        yields_pure ⟨he, hes⟩
  case ifElse =>
    rw [parseIfExpr]
    exact yields_next.bind fun _ _ => ih.expression.bind fun c hc =>
      (yields_expect _ _).bind fun _ _ => ih.expression.bind fun t ht =>
      (yields_expect _ _).bind fun _ _ => ih.expression.bind fun e he =>
      yields_pure ⟨hc, ht, he⟩
  case forIn =>
    rw [parseForExpr]
    exact yields_next.bind fun _ _ => (yields_check _ _).bind fun _ _ =>
      yields_identifier.bind fun _ _ => yields_next.bind fun _ _ =>
      (yields_expect _ _).bind fun _ _ => ih.expression.bind fun s hs =>
      (yields_expect _ _).bind fun _ _ => ih.expression.bind fun f hf =>
      (ih.optional _).bind fun o ho => (yields_expect _ _).bind fun _ _ =>
      ih.expression.bind fun b hb =>
      yields_pure ⟨hs, hf, ho, hb⟩
  case optional =>
    intro t
    rw [parseOptional]
    refine yields_peek.bind fun _ _ => ?_
    split
    · exact yields_next.bind fun _ _ => ih.expression.bind fun e he => yields_pure he
    · exact yields_pure trivial
  case varIn =>
    rw [parseVarExpr]
    exact yields_next.bind fun _ _ => (yields_check _ _).bind fun _ _ =>
      ih.varNames.bind fun vs hvs => (yields_expect _ _).bind fun _ _ =>
      ih.expression.bind fun e he => yields_pure ⟨hvs, he⟩
  case varNames =>
    rw [parseVarNames]
    refine yields_identifier.bind fun _ _ => yields_next.bind fun _ _ =>
      (ih.optional _).bind fun o ho => yields_peek.bind fun _ _ => ?_
    split
    · exact yields_pure ⟨ho, trivial⟩
    · exact yields_next.bind fun _ _ => (yields_check _ _).bind fun _ _ =>
        ih.varNames.bind fun vs hvs => yields_pure ⟨ho, hvs⟩
  case primary =>
    rw [parsePrimary]
    refine yields_peek.bind fun _ _ => ?_
    split
    · exact yields_number.bind fun _ _ => yields_next.bind fun _ _ => yields_pure trivial
    · exact ih.identifier
    · exact ih.paren
    · exact ih.ifElse
    · exact ih.forIn
    · exact ih.varIn
    · exact yields_fail _
  case expression =>
    rw [parseExpression]
    exact ih.unary.bind fun lhs hl => ih.binOpRHS _ _ hl
  case unary =>
    rw [parseUnary]
    refine yields_peek.bind fun t ht => ?_
    split
    · next c =>
        split
        · exact yields_next.bind fun _ _ => ih.unary.bind fun e he =>
            yields_pure ⟨ht c rfl, he⟩
        · exact ih.primary
    · exact ih.primary
  case binOpRHS =>
    intro k lhs hl
    rw [parseBinOpRHS]
    refine yields_peek.bind fun _ _ => ?_
    dsimp only
    split
    · exact yields_pure hl
    · refine yields_peek.bind fun t ht => yields_next.bind fun _ _ => ih.unary.bind fun r hr =>
        yields_peek.bind fun _ _ => ?_
      refine Yields.bind (Q := Expr.Spelled) ?_ fun r hr =>
        ih.binOpRHS _ _ ⟨toChar_op ht, hl, hr⟩
      split
      · exact ih.binOpRHS _ _ hr
      · exact yields_pure hr

theorem yieldsSpelled (prec : Char → Int) (n : Nat) : YieldsSpelled prec n := by
  induction n with
  | zero => exact yieldsSpelled_zero
  | succ n ih => exact yieldsSpelled_succ ih

/-! ### Prototypes -/

/-- A prototype is named by an identifier, or is an operator's. -/
inductive Prototype.Named (p : Prototype) : Prop
  | word (hname : IsWord p.name) (hop : p.isOperator = false)
  | unary {c : Char} (hc : OpChar c) (hname : p.name = "unary".push c)
      (hop : p.isOperator = true) (hlen : p.args.length = 1)
  | binary {c : Char} (hc : OpChar c) (hascii : isAscii c = true)
      (hname : p.name = "binary".push c) (hop : p.isOperator = true)
      (hlen : p.args.length = 2) (hprec : 1 ≤ p.precedence)

/-- The same of a prototype's head. -/
def HeadNamed : String × PrototypeKind × Nat → Prop
  | (name, .identifier, _) => IsWord name
  | (name, .unary, _) => ∃ c, OpChar c ∧ name = "unary".push c
  | (name, .binary, prec) =>
      ∃ c, OpChar c ∧ isAscii c = true ∧ name = "binary".push c ∧ 1 ≤ prec

theorem yields_operatorChar (what : String) :
    Yields (parseOperatorChar what) fun c => OpChar c ∧ isAscii c = true := by
  refine yields_peek.bind fun t ht => ?_
  split
  · next c =>
      split
      · next hascii => exact yields_next.bind fun _ _ => yields_pure ⟨ht c rfl, hascii⟩
      · exact yields_fail _
  · exact yields_fail _

theorem yields_precedence : Yields parsePrecedence fun prec => 1 ≤ prec := by
  refine yields_peek.bind fun _ _ => ?_
  split
  · refine yields_number.bind fun value _ => ?_
    split
    · exact yields_fail _
    · next h =>
        have hlt : value.lt Double.one = false := by
          cases hv : value.lt Double.one with
          | false => rfl
          | true => simp [hv] at h
        exact yields_next.bind fun _ _ => yields_pure (Double.one_le_truncate hlt)
  · exact yields_pure (by decide)

theorem yields_head : Yields parsePrototypeHead HeadNamed := by
  intro s hs
  unfold parsePrototypeHead
  rw [bind_ok (show peek s = .ok (current s) s from rfl)]
  cases hc : current s with
  | identifier =>
      exact ⟨fun x hx => hs x (List.mem_of_mem_tail hx), word_of_identifier hs⟩
  | unary =>
      have h : Yields (do
          getNextToken
          let c ← parseOperatorChar "Expected unary operator"
          pure ("unary".push c, PrototypeKind.unary, 30)) HeadNamed :=
        yields_next.bind fun _ _ => (yields_operatorChar _).bind fun c hc =>
          yields_pure ⟨c, hc.1, rfl⟩
      exact h s hs
  | binary =>
      have h : Yields (do
          getNextToken
          let c ← parseOperatorChar "Expected binary operator"
          let prec ← parsePrecedence
          pure ("binary".push c, PrototypeKind.binary, prec)) HeadNamed :=
        yields_next.bind fun _ _ => (yields_operatorChar _).bind fun c hc =>
          yields_precedence.bind fun prec hp => yields_pure ⟨c, hc.1, hc.2, rfl, hp⟩
      exact h s hs
  | _ => exact hs

theorem yields_argNames (n : Nat) : Yields (parseArgNames n) fun _ => True := by
  induction n with
  | zero => exact yields_outOfFuel
  | succ n ih =>
      unfold parseArgNames
      refine yields_next.bind fun _ _ => yields_peek.bind fun _ _ => ?_
      split
      · refine yields_identifier.bind fun _ _ => yields_next.bind fun _ _ =>
          yields_peek.bind fun _ _ => ?_
        split
        · exact yields_pure trivial
        · exact (yields_check _ _).bind fun _ _ => ih.bind fun _ _ => yields_pure trivial
      · exact yields_pure trivial

theorem yields_prototype (n : Nat) : Yields (parsePrototypeOn n) Prototype.Named := by
  unfold parsePrototypeOn
  refine yields_head.bind fun ⟨name, kind, prec⟩ hhead => (yields_check _ _).bind fun _ _ =>
    (yields_argNames n).bind fun args _ => (yields_expect _ _).bind fun _ _ => ?_
  split
  · exact yields_fail _
  · next hlen =>
      refine yields_pure ?_
      cases kind with
      | identifier => exact .word hhead rfl
      | unary =>
          obtain ⟨c, hc, hname⟩ := hhead
          have hlen : args.length = 1 := by simpa [PrototypeKind.operands] using hlen
          exact .unary hc hname rfl hlen
      | binary =>
          obtain ⟨c, hc, hascii, hname, hprec⟩ := hhead
          have hlen : args.length = 2 := by simpa [PrototypeKind.operands] using hlen
          exact .binary hc hascii hname rfl hlen hprec

/-! ### Items -/

theorem spelled_definition (prec : Char → Int) : Yields (parseDefinition prec) fun f =>
    f.prototype.Named ∧ f.body.Spelled := fun s hs =>
  (yields_next.bind fun _ _ => (yields_prototype _).bind fun _ hp =>
    (yieldsSpelled prec (fuelFor s)).expression.bind fun _ he =>
    yields_pure (Q := fun f : FunctionAST => f.prototype.Named ∧ f.body.Spelled) ⟨hp, he⟩) s hs

theorem yields_definition (prec : Char → Int) : Yields (parseDefinition prec) fun f =>
    f.prototype.Named ∧ HasOps f.body.operators :=
  (spelled_definition prec).imp fun _ h => ⟨h.1, h.2.hasOps⟩

theorem spelled_topLevelExpr (prec : Char → Int) : Yields (parseTopLevelExpr prec) fun f =>
    f.prototype = { name := "__anon_expr", args := [] } ∧ f.body.Spelled := fun s hs =>
  ((yieldsSpelled prec (fuelFor s)).expression.bind fun _ he =>
    yields_pure (Q := fun f : FunctionAST =>
      f.prototype = { name := "__anon_expr", args := [] } ∧ f.body.Spelled) ⟨rfl, he⟩) s hs

theorem yields_topLevelExpr (prec : Char → Int) : Yields (parseTopLevelExpr prec) fun f =>
    f.prototype = { name := "__anon_expr", args := [] } ∧ HasOps f.body.operators :=
  (spelled_topLevelExpr prec).imp fun _ h => ⟨h.1, h.2.hasOps⟩

theorem yields_extern : Yields parseExtern Prototype.Named := fun s hs =>
  (yields_next.bind fun _ _ => yields_prototype (fuelFor s)) s hs

end Yields

/-! ### Names that differ -/

theorem toList_push (s : String) (c : Char) : (s.push c).toList = s.toList ++ [c] := by
  simp

theorem IsWord.ne_push {s t : String} {c : Char} (h : IsWord s) (hc : OpChar c) :
    s ≠ t.push c := by
  rintro rfl
  have hmem : c ∈ (t.push c).toList := by simp
  exact Bool.noConfusion ((h c hmem).symm.trans hc.1)

theorem unary_ne_binary (c d : Char) : "unary".push c ≠ "binary".push d := by
  intro h
  have hlen := congrArg (fun s : String => s.toList.length) h
  simp at hlen

/-- A prototype that has an operator's name takes the operator's operands. -/
theorem Prototype.Named.length_unary {p : Prototype} (h : p.Named) {c : Char} (hc : OpChar c)
    (hname : p.name = "unary".push c) : p.args.length = 1 := by
  cases h with
  | word hw _ => exact absurd hname (hw.ne_push hc)
  | unary _ _ _ hlen => exact hlen
  | binary _ _ hname' _ _ _ => exact absurd (hname.symm.trans hname') (unary_ne_binary _ _)

theorem Prototype.Named.length_binary {p : Prototype} (h : p.Named) {c : Char} (hc : OpChar c)
    (hname : p.name = "binary".push c) : p.args.length = 2 := by
  cases h with
  | word hw _ => exact absurd hname (hw.ne_push hc)
  | unary _ hname' _ _ => exact absurd (hname'.symm.trans hname) (unary_ne_binary _ _)
  | binary _ _ _ _ hlen _ => exact hlen

end LlvmPasses.Kaleido
