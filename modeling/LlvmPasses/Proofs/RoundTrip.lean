import LlvmPasses.Proofs.GrammarReads

/-!
# Printing, then parsing, gives the tree back

`words` writes a tree as the tokens of the grammar, a composite subexpression
in parentheses. Only a number, a variable or a call may go without, and which
of those do is left to a predicate the statement quantifies over, so that the
theorem covers every way of dropping the optional parentheses.

The words written for a tree are a sentence of that tree: so the parser reads
it back. The induction is over the tree, with two statements about it. A
subexpression as it stands inside another is a closed operand; the tree by
itself is an expression.
-/

namespace LlvmPasses.Kaleido

open Precedence

/-! ## Writing a tree -/

/-- The expressions that can stand as an operand without parentheses. -/
def Expr.isAtom : Expr → Bool
  | .number _ => true
  | .variable _ => true
  | .call _ _ => true
  | _ => false

/-- A subexpression's words where it stands inside another expression. -/
def wrap (bare : Expr → Bool) (e : Expr) (ws : List Word) : List Word :=
  if bare e && e.isAtom then ws
  else .tok (.chr '(') :: (ws ++ [.tok (.chr ')')])

mutual

def words (bare : Expr → Bool) : Expr → List Word
  | .number val => [.num val]
  | .variable name => [.ident name]
  | .varIn varNames body =>
      .tok .var :: (varWords bare varNames ++ .tok .in_ :: wrap bare body (words bare body))
  | .unary op operand => .tok (.chr op) :: wrap bare operand (words bare operand)
  | .binary op lhs rhs =>
      wrap bare lhs (words bare lhs) ++ .tok (.chr op) :: wrap bare rhs (words bare rhs)
  | .ifElse cond thn els =>
      .tok .if_ :: (wrap bare cond (words bare cond) ++
        .tok .then_ :: (wrap bare thn (words bare thn) ++
          .tok .else_ :: wrap bare els (words bare els)))
  | .forIn varName start fin step body =>
      .tok .for_ :: .ident varName :: .tok (.chr '=') ::
        (wrap bare start (words bare start) ++
          .tok (.chr ',') :: (wrap bare fin (words bare fin) ++
            (optWords bare (.chr ',') step ++
              .tok .in_ :: wrap bare body (words bare body))))
  | .call callee args =>
      .ident callee :: .tok (.chr '(') :: (argWords bare args ++ [.tok (.chr ')')])

/-- A step or an initialiser, after the token that introduces it. -/
def optWords (bare : Expr → Bool) (intro : Token) : Option Expr → List Word
  | none => []
  | some e => .tok intro :: wrap bare e (words bare e)

def varWords (bare : Expr → Bool) : List (String × Option Expr) → List Word
  | [] => []
  | [(name, init)] => .ident name :: optWords bare (.chr '=') init
  | (name, init) :: v :: vs =>
      .ident name :: (optWords bare (.chr '=') init ++
        .tok (.chr ',') :: varWords bare (v :: vs))

def argWords (bare : Expr → Bool) : List Expr → List Word
  | [] => []
  | [e] => wrap bare e (words bare e)
  | e :: a :: as =>
      wrap bare e (words bare e) ++ .tok (.chr ',') :: argWords bare (a :: as)

end

/-! ## What a tree may contain -/

mutual

/-- The operators of the tree can be written: a unary one is read as such, a
binary one is ASCII and has a precedence, and a `var` binds something. -/
def Printable (prec : Char → Int) : Expr → Prop
  | .number _ => True
  | .variable _ => True
  | .varIn varNames body => varNames ≠ [] ∧ PrintableVars prec varNames ∧ Printable prec body
  | .unary op operand => isUnaryChar op = true ∧ Printable prec operand
  | .binary op lhs rhs =>
      (isAscii op = true ∧ 0 < prec op) ∧ Printable prec lhs ∧ Printable prec rhs
  | .ifElse cond thn els => Printable prec cond ∧ Printable prec thn ∧ Printable prec els
  | .forIn _ start fin step body =>
      Printable prec start ∧ Printable prec fin ∧ PrintableOpt prec step ∧ Printable prec body
  | .call _ args => PrintableArgs prec args

def PrintableOpt (prec : Char → Int) : Option Expr → Prop
  | none => True
  | some e => Printable prec e

def PrintableVars (prec : Char → Int) : List (String × Option Expr) → Prop
  | [] => True
  | (_, init) :: vs => PrintableOpt prec init ∧ PrintableVars prec vs

def PrintableArgs (prec : Char → Int) : List Expr → Prop
  | [] => True
  | e :: es => Printable prec e ∧ PrintableArgs prec es

end

/-! ## The words are a sentence -/

/-- As an operand and as a whole, the words of `e` are words of the grammar. -/
structure Written (prec : Char → Int) (bare : Expr → Bool) (e : Expr) : Prop where
  operand : Derives isUnaryChar prec (.operand true e) (wrap bare e (words bare e))
  whole : Derives isUnaryChar prec (.expression e) (words bare e)

section Trees

variable {prec : Char → Int} {bare : Expr → Bool} {e : Expr}

/-- An atom stands for itself, or in parentheses. -/
theorem Written.atom (h : Derives isUnaryChar prec (.operand true e) (words bare e)) :
    Written prec bare e := by
  refine ⟨?_, h.single⟩
  unfold wrap
  split
  · exact h
  · exact .paren h.single

theorem Written.composite (h : Derives isUnaryChar prec (.expression e) (words bare e))
    (hc : e.isAtom = false) : Written prec bare e := by
  refine ⟨?_, h⟩
  rw [wrap, hc, Bool.and_false]
  exact .paren h

theorem derives_optional {intro : Token} {o : Option Expr}
    (h : ∀ e ∈ o, Written prec bare e) :
    Derives isUnaryChar prec (.optional intro o) (optWords bare intro o) := by
  cases o with
  | none => exact .optionalNone intro
  | some e => exact .optionalSome intro (h e rfl).operand.single

theorem derives_names {vs : List (String × Option Expr)} (hne : vs ≠ [])
    (h : ∀ v ∈ vs, ∀ e ∈ v.2, Written prec bare e) :
    Derives isUnaryChar prec (.names vs) (varWords bare vs) := by
  match vs with
  | [] => exact absurd rfl hne
  | [(name, init)] => exact .namesOne name (derives_optional (h (name, init) (by simp)))
  | (name, init) :: v :: vs =>
      have hrest : Derives isUnaryChar prec (.names (v :: vs)) (varWords bare (v :: vs)) :=
        derives_names (by simp) fun w hw => h w (List.mem_cons_of_mem _ hw)
      exact .namesMore name (derives_optional (h (name, init) (by simp))) hrest

theorem derives_args {es : List Expr} (hne : es ≠ []) (h : ∀ e ∈ es, Written prec bare e) :
    Derives isUnaryChar prec (.args es) (argWords bare es) := by
  match es with
  | [] => exact absurd rfl hne
  | [e] => exact .argsOne (h e (by simp)).operand.single
  | e :: a :: as =>
      have hrest : Derives isUnaryChar prec (.args (a :: as)) (argWords bare (a :: as)) :=
        derives_args (by simp) fun b hb => h b (List.mem_cons_of_mem _ hb)
      exact .argsMore (h e (by simp)).operand.single hrest

/-- No operand starts with the `)` that would close an empty argument list. -/
theorem head_wrap (bare : Expr → Bool) (e : Expr) :
    ∃ w ws, wrap bare e (words bare e) = w :: ws ∧ w ≠ .tok (.chr ')') := by
  unfold wrap
  split
  · next hatom =>
      cases e with
      | number _ | «variable» _ | call _ _ => exact ⟨_, _, rfl, by simp⟩
      | varIn _ _ | unary _ _ | binary _ _ _ | ifElse _ _ _ | forIn _ _ _ _ _ =>
          simp [Expr.isAtom] at hatom
  · exact ⟨_, _, rfl, by simp⟩

theorem head_argWords {es : List Expr} : (argWords bare es).head? ≠ some (.tok (.chr ')')) := by
  match es with
  | [] => simp [argWords]
  | [e] | e :: a :: as =>
      obtain ⟨w, ws, hw, hne⟩ := head_wrap bare e
      simp [argWords, hw, hne]

theorem Written.call {callee : String} {args : List Expr}
    (h : ∀ e ∈ args, Written prec bare e) : Written prec bare (.call callee args) := by
  refine .atom ?_
  by_cases hne : args = []
  · subst hne
    exact .callEmpty callee
  · exact .call callee (derives_args hne h) head_argWords

theorem Written.unary {op : Char} (hop : isUnaryChar op = true) (h : Written prec bare e) :
    Written prec bare (.unary op e) :=
  .composite (Derives.unary hop h.operand).single rfl

theorem Written.binary {op : Char} {lhs rhs : Expr} (hop : isAscii op = true ∧ 0 < prec op)
    (hl : Written prec bare lhs) (hr : Written prec bare rhs) :
    Written prec bare (.binary op lhs rhs) := by
  have hlinks := Derives.linksCons hop.1 hop.2 hr.operand .linksNil
  have hchain := Derives.chain (t := .node (.leaf lhs) op (.leaf rhs)) hl.operand hlinks
    ⟨trivial, trivial, trivial, trivial⟩
  rw [List.append_nil] at hchain
  exact .composite hchain rfl

theorem printable_option {o : Option Expr} (h : PrintableOpt prec o) :
    ∀ e ∈ o, Printable prec e := by
  intro e he
  cases he
  exact h

theorem printable_vars {vs : List (String × Option Expr)} (h : PrintableVars prec vs) :
    ∀ v ∈ vs, ∀ e ∈ v.2, Printable prec e := by
  induction vs with
  | nil => intro v hv; cases hv
  | cons w ws ih =>
      intro v hv
      cases hv with
      | head => exact printable_option h.1
      | tail _ hv => exact ih h.2 v hv

theorem printable_args {es : List Expr} (h : PrintableArgs prec es) :
    ∀ e ∈ es, Printable prec e := by
  induction es with
  | nil => intro e he; cases he
  | cons a as ih =>
      intro e he
      cases he with
      | head => exact h.1
      | tail _ he => exact ih h.2 e he

/-- One case for each constructor of the tree. -/
theorem written (bare : Expr → Bool) : ∀ e, Printable prec e → Written prec bare e :=
  Expr.Inductive.all {
    number := fun val _ => .atom (.number val)
    name := fun x _ => .atom (.name x)
    call := fun _ _ hargs h => .call fun e he => hargs e he (printable_args h e he)
    varIn := fun _ _ hvars hbody h =>
      have hnames := derives_names h.1 fun v hv e he =>
        hvars v hv e he (printable_vars h.2.1 v hv e he)
      .composite (.whole (.varIn hnames (hbody h.2.2).operand.single)) rfl
    unary := fun _ _ ho h => .unary h.1 (ho h.2)
    binary := fun _ _ _ hl hr h => .binary h.1 (hl h.2.1) (hr h.2.2)
    ifElse := fun _ _ _ hc ht he h =>
      .composite (.whole (.ifElse (hc h.1).operand.single (ht h.2.1).operand.single
        (he h.2.2).operand.single)) rfl
    forIn := fun varName _ _ _ _ hs hf ho hb h =>
      have hstep := derives_optional fun e he => ho e he (printable_option h.2.2.1 e he)
      .composite (.whole (.forIn varName (hs h.1).operand.single (hf h.2.1).operand.single hstep
        (hb h.2.2.2).operand.single)) rfl }

/-- Printing, then parsing, gives the tree back, and stops at the token after
it: whichever atoms are left without parentheses, and whether or not the tree
itself is in a pair of its own. -/
theorem parseExpression_words (hp : PlainPunctuation prec) (bare : Expr → Bool) (e : Expr)
    (hpr : Printable prec e) {s rest : List Lexeme} (hf : Follows prec (current rest))
    (hs : Spells (words bare e) s rest ∨ Spells (wrap bare e (words bare e)) s rest) :
    onFuel (parseExpression prec) s = .ok e rest := by
  have h := written bare e hpr
  cases hs with
  | inl hs => exact h.whole.parseExpression hp hs hf.ends
  | inr hs => exact h.operand.single.parseExpression hp hs hf.ends

/-- `(-x) + f(1, y)` followed by the end of the input. -/
theorem parseExpression_words_sum :
    onFuel (parseExpression fun c => if c = '+' then 20 else 0)
      [⟨.chr '(', "", .zero⟩, ⟨.chr '-', "", .zero⟩, ⟨.identifier, "x", .zero⟩,
        ⟨.chr ')', "x", .zero⟩, ⟨.chr '+', "x", .zero⟩, ⟨.identifier, "f", .zero⟩,
        ⟨.chr '(', "f", .zero⟩, ⟨.number, "f", .one⟩, ⟨.chr ',', "f", .one⟩,
        ⟨.identifier, "y", .one⟩, ⟨.chr ')', "y", .one⟩] =
      .ok (.binary '+' (.unary '-' (.variable "x")) (.call "f" [.number .one, .variable "y"]))
        [] := by
  refine parseExpression_words ?_ (fun _ => true) _ ?_ ?_ (Or.inl ?_)
  · exact ⟨by decide, by decide, by decide⟩
  · exact ⟨⟨by decide, by decide⟩, ⟨by decide, trivial⟩, trivial, trivial, trivial⟩
  · exact ⟨by simp [current], by simp [current, getTokPrecedence]⟩
  · exact ⟨_, _, rfl, rfl, _, _, rfl, rfl, _, _, rfl, ⟨rfl, rfl⟩, _, _, rfl, rfl, _, _, rfl,
      rfl, _, _, rfl, ⟨rfl, rfl⟩, _, _, rfl, rfl, _, _, rfl, ⟨rfl, rfl⟩, _, _, rfl, rfl, _, _,
      rfl, ⟨rfl, rfl⟩, _, _, rfl, rfl, rfl⟩

end Trees

end LlvmPasses.Kaleido
