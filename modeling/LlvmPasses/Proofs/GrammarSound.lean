import LlvmPasses.Proofs.GrammarReads

/-!
# What the parser accepts is in the grammar

The other half: a parse that returns has consumed a sentence, of the grammar
whose unary operators are the characters `parseUnary` takes for one. The walk
over the parse functions keeps, beside the derivation, what the parse saw behind
it: no binary operator behind an expression, no `(` behind a name. So the
parser's answers are exactly the sentences that end where they can.

The grammar as it is meant has no punctuation among its operators. A sentence of
it is balanced and has no semicolon in it, and the parser leaves it exactly
where `)` or `;` stands at the place of a unary operator.

`parseExpression_ok_iff` puts both halves together: the parser returns a tree
and a rest exactly if what is in front of the rest derives the tree and the
rest is a place where an expression ends. `parseExpression_sentence_iff`
compares this with the grammar as it is meant. Whether the parser keeps to it
on an input is a condition on the input.

Soundness is an induction on the budget over all parse functions at once
(`Recognises`): what a function with `n + 1` units consumes is put together
from what those with `n` have. There is one lemma for each function
(`paren_succ`, `args_succ`, `ifElse_succ` and so on), and the last step
collects them. In a chain the operands are found with the operator that follows
each, and the climb is rebuilt from the left (`OperandAt.expression`).
-/

namespace LlvmPasses.Kaleido

open StateError Precedence

/-! ## What the walk shows of a stretch of the stream -/

section Stretches

variable {prec : Char → Int} {e : Expr} {ls ls' : List (Char × Expr)} {ws ws' : List Word}
variable {s mid t : List Lexeme}

/-- From `s` to `t` stands an expression with the tree `e`, and it ends there. -/
def ExpressionAt (prec : Char → Int) (e : Expr) (s t : List Lexeme) : Prop :=
  ∃ ws, Derives isUnaryChar prec (.expression e) ws ∧ Spells ws s t ∧
    EndsAt prec ws (current t)

/-- An operand; one that is not closed goes on up to where an expression ends. -/
def OperandAt (prec : Char → Int) (e : Expr) (s t : List Lexeme) : Prop :=
  ∃ closed ws, Derives isUnaryChar prec (.operand closed e) ws ∧ Spells ws s t ∧
    Unopened ws (current t) ∧ (closed = false → getTokPrecedence prec (current t) < 0)

def LinksAt (prec : Char → Int) (ls : List (Char × Expr)) (s t : List Lexeme) : Prop :=
  ∃ closed ws, Derives isUnaryChar prec (.links closed ls) ws ∧ Spells ws s t ∧
    Unopened ws (current t) ∧ (closed = false → getTokPrecedence prec (current t) < 0)

theorem unopened_join (h : Unopened ws (current mid)) (h' : Unopened ws' (current t))
    (hs : Spells ws' mid t) : Unopened (ws ++ ws') (current t) := by
  by_cases hne : ws' = []
  · subst hne
    obtain rfl : mid = t := hs
    rwa [List.append_nil]
  · exact (unopened_append hne).mpr h'

theorem linksAt_nil (s : List Lexeme) : LinksAt prec [] s s :=
  ⟨true, [], .linksNil, rfl, unopened_nil, nofun⟩

/-- What comes next is the first link's operator, or what is behind them. -/
theorem LinksAt.tokPrecedence (h : LinksAt prec ls s t) :
    getTokPrecedence prec (current s) = nextPrec prec (getTokPrecedence prec (current t)) ls := by
  obtain ⟨closed, ws, hd, hs, -, -⟩ := h
  cases hd with
  | linksNil =>
      obtain rfl : s = t := hs
      rfl
  | linksCons hop hprec _ _ | linksLast hop hprec _ =>
      obtain ⟨x, s', rfl, hx, -⟩ := spells_cons hs
      have hx : x.tok = _ := hx
      rw [current, hx]
      exact getTokPrecedence_of_pos hop hprec

/-- Where no binary operator comes next there are no links. -/
theorem LinksAt.of_neg (h : LinksAt prec ls s t) (hneg : getTokPrecedence prec (current s) < 0) :
    ls = [] ∧ s = t := by
  obtain ⟨closed, ws, hd, hs, -, -⟩ := h
  cases hd with
  | linksNil => exact ⟨rfl, hs⟩
  | linksCons hop hprec _ _ | linksLast hop hprec _ =>
      obtain ⟨x, s', rfl, hx, -⟩ := spells_cons hs
      have hx : x.tok = _ := hx
      rw [current, hx, getTokPrecedence_of_pos hop hprec] at hneg
      omega

theorem LinksAt.append (h : LinksAt prec ls s mid) (h' : LinksAt prec ls' mid t) :
    LinksAt prec (ls ++ ls') s t := by
  obtain ⟨closed, ws, hd, hs, hopen, hneg⟩ := id h
  cases closed with
  | false =>
      obtain ⟨rfl, rfl⟩ := h'.of_neg (hneg rfl)
      rwa [List.append_nil]
  | true =>
      obtain ⟨closed, ws', hd', hs', hopen', hneg'⟩ := h'
      exact ⟨closed, ws ++ ws', hd.links_append hd', spells_append.mpr ⟨mid, hs, hs'⟩,
        unopened_join hopen hopen' hs', hneg'⟩

theorem LinksAt.cons {x : Lexeme} {op : Char} (hx : x.tok = .chr op) (hop : isAscii op = true)
    (hprec : 0 < prec op) (he : OperandAt prec e s mid) (h : LinksAt prec ls mid t) :
    LinksAt prec ((op, e) :: ls) (x :: s) t := by
  obtain ⟨closed, ws, hd, hs, hopen, hneg⟩ := he
  cases closed with
  | false =>
      obtain ⟨rfl, rfl⟩ := h.of_neg (hneg rfl)
      refine ⟨false, _, .linksLast hop hprec hd, ⟨x, s, rfl, hx, hs⟩, ?_, hneg⟩
      exact (unopened_cons (hd.ne_nil trivial)).mpr hopen
  | true =>
      obtain ⟨closed, ws', hd', hs', hopen', hneg'⟩ := h
      refine ⟨closed, _, .linksCons hop hprec hd hd',
        ⟨x, s, rfl, hx, spells_append.mpr ⟨mid, hs, hs'⟩⟩, ?_, hneg'⟩
      exact (unopened_cons (by simp [hd.ne_nil trivial])).mpr (unopened_join hopen hopen' hs')

/-- The operand, and the links the climb takes up to a precedence that is none. -/
theorem OperandAt.expression {k : Int} {tree : OpTree Expr Char} (h : OperandAt prec e s mid)
    (hls : LinksAt prec ls mid t) (hclimb : Climb prec 0 k (.leaf e) ls tree)
    (hk : k = getTokPrecedence prec (current t)) : ExpressionAt prec (chainExpr tree) s t := by
  have hend : getTokPrecedence prec (current t) < 0 := hk ▸ hclimb.lt
  obtain ⟨closed, ws, hd, hs, hopen, hneg⟩ := h
  cases closed with
  | false =>
      obtain ⟨rfl, rfl⟩ := hls.of_neg (hneg rfl)
      obtain ⟨-, rfl⟩ := hclimb.of_next_lt hclimb.lt
      exact ⟨ws, .whole hd, hs, hopen, hend⟩
  | true =>
      obtain ⟨closed, ws', hd', hs', hopen', -⟩ := hls
      have hfirst : tree.first = e := hclimb.first_eq
      have hlinks : tree.links = ls := hclimb.links_eq
      rw [← hfirst] at hd
      rw [← hlinks] at hd'
      exact ⟨ws ++ ws', .chain hd hd' (hclimb.ordered trivial trivial),
        spells_append.mpr ⟨mid, hs, hs'⟩, unopened_join hopen hopen' hs', hend⟩

/-- A token a binary operator was read from. -/
theorem operator_of_nonneg {tok : Token} (h : 0 ≤ getTokPrecedence prec tok) :
    ∃ op, tok = .chr op ∧ isAscii op = true ∧ 0 < prec op := by
  cases tok with
  | chr op =>
      simp only [getTokPrecedence] at h
      split at h
      · next hop =>
          split at h
          · omega
          · exact ⟨op, rfl, hop, by omega⟩
      · omega
  | _ => simp [getTokPrecedence] at h

/-- What does not start with a `)` is not spelled from words that do. -/
theorem head_ne_of_current {tok : Token} (hs : Spells ws s t) (h : current s ≠ tok) :
    ws.head? ≠ some (.tok tok) := by
  cases ws with
  | nil => simp
  | cons w ws =>
      obtain ⟨x, s', rfl, hx, -⟩ := spells_cons hs
      intro hw
      obtain rfl : w = .tok tok := by simpa using hw
      exact h hx

end Stretches

/-! ## The walk -/

/-- What the parse functions have consumed when they return, on `n` units. A
construct is entered with its first token current. -/
structure Recognises (prec : Char → Int) (n : Nat) : Prop where
  paren : ∀ {x s e t}, x.tok = .chr '(' → parseParenExpr prec n (x :: s) = .ok e t →
    OperandAt prec e (x :: s) t
  identifier : ∀ {x s e t}, x.tok = .identifier → parseIdentifierExpr prec n (x :: s) = .ok e t →
    OperandAt prec e (x :: s) t
  args : ∀ {s es t}, parseArgs prec n s = .ok es t → current t = .chr ')' ∧
    ∃ ws, Derives isUnaryChar prec (.args es) ws ∧ Spells ws s t
  ifElse : ∀ {x s e t}, x.tok = .if_ → parseIfExpr prec n (x :: s) = .ok e t →
    OperandAt prec e (x :: s) t
  forIn : ∀ {x s e t}, x.tok = .for_ → parseForExpr prec n (x :: s) = .ok e t →
    OperandAt prec e (x :: s) t
  optional : ∀ {intro s o t}, intro ≠ .eof → parseOptional prec n intro s = .ok o t →
    ∃ ws, Derives isUnaryChar prec (.optional intro o) ws ∧ Spells ws s t
  varIn : ∀ {x s e t}, x.tok = .var → parseVarExpr prec n (x :: s) = .ok e t →
    OperandAt prec e (x :: s) t
  names : ∀ {s vs t}, current s = .identifier → parseVarNames prec n s = .ok vs t →
    ∃ ws, Derives isUnaryChar prec (.names vs) ws ∧ Spells ws s t
  primary : ∀ {s e t}, parsePrimary prec n s = .ok e t → OperandAt prec e s t
  expression : ∀ {s e t}, parseExpression prec n s = .ok e t → ExpressionAt prec e s t
  unary : ∀ {s e t}, parseUnary prec n s = .ok e t → OperandAt prec e s t
  binOpRHS : ∀ {m l s e t}, 0 ≤ m → parseBinOpRHS prec n m (chainExpr l) s = .ok e t →
    ∃ ls tree, Climb prec m (getTokPrecedence prec (current t)) l ls tree ∧
      e = chainExpr tree ∧ LinksAt prec ls s t

theorem identifier_bind {α : Type} (f : String → ParseM α) (x : Lexeme) (s : List Lexeme) :
    (getIdentifier >>= f) (x :: s) = f x.identifier (x :: s) := rfl

section Walk

variable {prec : Char → Int} {n : Nat} {x : Lexeme} {s t : List Lexeme} {e : Expr}

theorem recognises_zero : Recognises prec 0 := by
  constructor
  all_goals intros
  all_goals
    rename_i h
    first
      | rw [parseParenExpr] at h | rw [parseIdentifierExpr] at h | rw [parseArgs] at h
      | rw [parseIfExpr] at h | rw [parseForExpr] at h | rw [parseOptional] at h
      | rw [parseVarExpr] at h | rw [parseVarNames] at h | rw [parsePrimary] at h
      | rw [parseExpression] at h | rw [parseUnary] at h | rw [parseBinOpRHS] at h
    cases h

theorem primaryOn_chr {c : Char} (h : c ≠ '(') : primaryOn prec n (.chr c) =
    fail "Unknown token when expecting an expression" := by
  unfold primaryOn
  split <;> simp_all

namespace Recognises

theorem paren_succ (ih : Recognises prec n) (hx : x.tok = .chr '(')
    (h : parseParenExpr prec (n + 1) (x :: s) = .ok e t) : OperandAt prec e (x :: s) t := by
  rw [parseParenExpr, next_bind, List.tail_cons] at h
  obtain ⟨e', s₁, he, h₁⟩ := bind_eq_ok h
  obtain ⟨u, s₂, hclose, h₂⟩ := bind_eq_ok h₁
  obtain ⟨rfl, rfl⟩ := pure_eq_ok h₂
  obtain ⟨ws, hd, hs, -⟩ := ih.expression he
  have hspell := spells_append.mpr ⟨s₁, hs, expect_ok (by simp) hclose⟩
  exact ⟨true, _, .paren hd, ⟨x, s, rfl, hx, hspell⟩, by simp [unopened_cons, unopened_append],
    fun hbin => by cases hbin⟩

theorem identifier_succ (ih : Recognises prec n) (hx : x.tok = .identifier)
    (h : parseIdentifierExpr prec (n + 1) (x :: s) = .ok e t) : OperandAt prec e (x :: s) t := by
  rw [parseIdentifierExpr, identifier_bind, next_bind, List.tail_cons, peek_bind] at h
  split at h
  · next hopen =>
      obtain ⟨rfl, rfl⟩ := pure_eq_ok h
      exact ⟨true, _, .name _, ⟨x, _, rfl, ⟨hx, rfl⟩, rfl⟩, unopened_of_ne hopen,
        fun hbin => by cases hbin⟩
  · next hopen =>
      obtain ⟨y, s', rfl, hy⟩ := exists_cons_of_current (Decidable.not_not.mp hopen) (by simp)
      rw [next_bind, List.tail_cons, peek_bind] at h
      obtain ⟨es, s₁, hargs, h₁⟩ := bind_eq_ok h
      rw [next_bind] at h₁
      obtain ⟨rfl, rfl⟩ := pure_eq_ok h₁
      split at hargs
      · next hclose =>
          obtain ⟨rfl, rfl⟩ := pure_eq_ok hargs
          obtain ⟨z, s', rfl, hz⟩ := exists_cons_of_current hclose (by simp)
          exact ⟨true, _, .callEmpty _, ⟨x, _, rfl, ⟨hx, rfl⟩, y, _, rfl, hy, z, _, rfl, hz, rfl⟩,
            by simp [unopened_cons], fun hbin => by cases hbin⟩
      · next hclose =>
          obtain ⟨hcur, ws, hd, hs⟩ := ih.args hargs
          obtain ⟨z, s₂, rfl, hz⟩ := exists_cons_of_current hcur (by simp)
          have hspell : Spells (ws ++ [.tok (.chr ')')]) s' s₂ :=
            spells_append.mpr ⟨_, hs, z, s₂, rfl, hz, rfl⟩
          exact ⟨true, _, .call _ hd (head_ne_of_current hs hclose),
            ⟨x, _, rfl, ⟨hx, rfl⟩, y, _, rfl, hy, hspell⟩,
            by simp [unopened_cons, unopened_append], fun hbin => by cases hbin⟩

theorem args_succ (ih : Recognises prec n) {es : List Expr}
    (h : parseArgs prec (n + 1) s = .ok es t) : current t = .chr ')' ∧
      ∃ ws, Derives isUnaryChar prec (.args es) ws ∧ Spells ws s t := by
  rw [parseArgs] at h
  obtain ⟨e, s₁, he, h₁⟩ := bind_eq_ok h
  obtain ⟨ws, hd, hs, -⟩ := ih.expression he
  rw [peek_bind] at h₁
  split at h₁
  · next hclose =>
      obtain ⟨rfl, rfl⟩ := pure_eq_ok h₁
      exact ⟨hclose, ws, .argsOne hd, hs⟩
  · obtain ⟨u, s₂, hcomma, h₂⟩ := bind_eq_ok h₁
    obtain ⟨es', s₃, hargs, h₃⟩ := bind_eq_ok h₂
    obtain ⟨rfl, rfl⟩ := pure_eq_ok h₃
    obtain ⟨hclose, ws', hd', hs'⟩ := ih.args hargs
    exact ⟨hclose, _, .argsMore hd hd', spells_join hs (expect_ok (by simp) hcomma) hs'⟩

theorem ifElse_succ (ih : Recognises prec n) (hx : x.tok = .if_)
    (h : parseIfExpr prec (n + 1) (x :: s) = .ok e t) : OperandAt prec e (x :: s) t := by
  rw [parseIfExpr, next_bind, List.tail_cons] at h
  obtain ⟨cond, s₁, hc, h₁⟩ := bind_eq_ok h
  obtain ⟨u, s₂, hthen, h₂⟩ := bind_eq_ok h₁
  obtain ⟨thn, s₃, ht, h₃⟩ := bind_eq_ok h₂
  obtain ⟨u, s₄, helse, h₄⟩ := bind_eq_ok h₃
  obtain ⟨els, s₅, he, h₅⟩ := bind_eq_ok h₄
  obtain ⟨rfl, rfl⟩ := pure_eq_ok h₅
  obtain ⟨wc, hdc, hsc, -⟩ := ih.expression hc
  obtain ⟨wt, hdt, hst, -⟩ := ih.expression ht
  obtain ⟨we, hde, hse, hopen, hend⟩ := ih.expression he
  have hspell := spells_join hsc (expect_ok (by simp) hthen)
    (spells_join hst (expect_ok (by simp) helse) hse)
  refine ⟨false, _, .ifElse hdc hdt hde, ⟨x, _, rfl, hx, hspell⟩, ?_, fun _ => hend⟩
  simpa [unopened_cons, unopened_append, hde.ne_nil trivial] using hopen

theorem optional_succ (ih : Recognises prec n) {intro : Token} {o : Option Expr}
    (hne : intro ≠ .eof) (h : parseOptional prec (n + 1) intro s = .ok o t) :
    ∃ ws, Derives isUnaryChar prec (.optional intro o) ws ∧ Spells ws s t := by
  rw [parseOptional, peek_bind] at h
  split at h
  · next hcur =>
      obtain ⟨x, s', rfl, hx⟩ := exists_cons_of_current hcur hne
      rw [next_bind, List.tail_cons] at h
      obtain ⟨e, s₁, he, h₁⟩ := bind_eq_ok h
      obtain ⟨rfl, rfl⟩ := pure_eq_ok h₁
      obtain ⟨ws, hd, hs, -⟩ := ih.expression he
      exact ⟨_, .optionalSome intro hd, x, s', rfl, hx, hs⟩
  · obtain ⟨rfl, rfl⟩ := pure_eq_ok h
    exact ⟨[], .optionalNone intro, rfl⟩

theorem forIn_succ (ih : Recognises prec n) (hx : x.tok = .for_)
    (h : parseForExpr prec (n + 1) (x :: s) = .ok e t) : OperandAt prec e (x :: s) t := by
  rw [parseForExpr, next_bind, List.tail_cons] at h
  obtain ⟨u, s₁, hident, h₁⟩ := bind_eq_ok h
  obtain ⟨hcur, rfl⟩ := check_ok hident
  obtain ⟨y, s', rfl, hy⟩ := exists_cons_of_current hcur (by simp)
  rw [identifier_bind, next_bind, List.tail_cons] at h₁
  obtain ⟨u, s₂, hequals, h₂⟩ := bind_eq_ok h₁
  obtain ⟨start, s₃, hstart, h₃⟩ := bind_eq_ok h₂
  obtain ⟨u, s₄, hcomma, h₄⟩ := bind_eq_ok h₃
  obtain ⟨fin, s₅, hfin, h₅⟩ := bind_eq_ok h₄
  obtain ⟨step, s₆, hstep, h₆⟩ := bind_eq_ok h₅
  obtain ⟨u, s₇, hin, h₇⟩ := bind_eq_ok h₆
  obtain ⟨body, s₈, hbody, h₈⟩ := bind_eq_ok h₇
  obtain ⟨rfl, rfl⟩ := pure_eq_ok h₈
  obtain ⟨ws, hds, hss, -⟩ := ih.expression hstart
  obtain ⟨wf, hdf, hsf, -⟩ := ih.expression hfin
  obtain ⟨wo, hdo, hso⟩ := ih.optional (by simp) hstep
  obtain ⟨wb, hdb, hsb, hopen, hend⟩ := ih.expression hbody
  have hrest := spells_append.mpr ⟨s₅, hsf, spells_join hso (expect_ok (by simp) hin) hsb⟩
  have hspell := spells_join hss (expect_ok (by simp) hcomma) hrest
  obtain ⟨z, _, rfl, hz, rfl⟩ := expect_ok (by simp) hequals
  refine ⟨false, _, .forIn y.identifier hds hdf hdo hdb,
    ⟨x, _, rfl, hx, y, _, rfl, ⟨hy, rfl⟩, z, _, rfl, hz, hspell⟩, ?_, fun _ => hend⟩
  simpa [unopened_cons, unopened_append, hdb.ne_nil trivial] using hopen

theorem names_succ (ih : Recognises prec n) {vs : List (String × Option Expr)}
    (hcur : current s = .identifier) (h : parseVarNames prec (n + 1) s = .ok vs t) :
    ∃ ws, Derives isUnaryChar prec (.names vs) ws ∧ Spells ws s t := by
  obtain ⟨x, s', rfl, hx⟩ := exists_cons_of_current hcur (by simp)
  rw [parseVarNames, identifier_bind, next_bind, List.tail_cons] at h
  obtain ⟨init, s₁, hinit, h₁⟩ := bind_eq_ok h
  obtain ⟨ws, hd, hs⟩ := ih.optional (by simp) hinit
  rw [peek_bind] at h₁
  split at h₁
  · obtain ⟨rfl, rfl⟩ := pure_eq_ok h₁
    exact ⟨_, .namesOne x.identifier hd, x, s', rfl, ⟨hx, rfl⟩, hs⟩
  · next hcomma =>
      obtain ⟨y, s₂, rfl, hy⟩ := exists_cons_of_current (Decidable.not_not.mp hcomma) (by simp)
      rw [next_bind, List.tail_cons] at h₁
      obtain ⟨u, s₃, hident, h₂⟩ := bind_eq_ok h₁
      obtain ⟨hcur', rfl⟩ := check_ok hident
      obtain ⟨vs', s₄, hvs, h₃⟩ := bind_eq_ok h₂
      obtain ⟨rfl, rfl⟩ := pure_eq_ok h₃
      obtain ⟨ws', hd', hs'⟩ := ih.names hcur' hvs
      exact ⟨_, .namesMore x.identifier hd hd', x, s', rfl, ⟨hx, rfl⟩,
        spells_append.mpr ⟨_, hs, y, _, rfl, hy, hs'⟩⟩

theorem varIn_succ (ih : Recognises prec n) (hx : x.tok = .var)
    (h : parseVarExpr prec (n + 1) (x :: s) = .ok e t) : OperandAt prec e (x :: s) t := by
  rw [parseVarExpr, next_bind, List.tail_cons] at h
  obtain ⟨u, s₁, hident, h₁⟩ := bind_eq_ok h
  obtain ⟨hcur, rfl⟩ := check_ok hident
  obtain ⟨vs, s₂, hvs, h₂⟩ := bind_eq_ok h₁
  obtain ⟨u, s₃, hin, h₃⟩ := bind_eq_ok h₂
  obtain ⟨body, s₄, hbody, h₄⟩ := bind_eq_ok h₃
  obtain ⟨rfl, rfl⟩ := pure_eq_ok h₄
  obtain ⟨wv, hdv, hsv⟩ := ih.names hcur hvs
  obtain ⟨wb, hdb, hsb, hopen, hend⟩ := ih.expression hbody
  have hspell := spells_join hsv (expect_ok (by simp) hin) hsb
  refine ⟨false, _, .varIn hdv hdb, ⟨x, _, rfl, hx, hspell⟩, ?_, fun _ => hend⟩
  simpa [unopened_cons, unopened_append, hdb.ne_nil trivial] using hopen

theorem primary_succ (ih : Recognises prec n) (h : parsePrimary prec (n + 1) s = .ok e t) :
    OperandAt prec e s t := by
  rw [parsePrimary_succ, peek_bind] at h
  generalize hcur : current s = tok at h
  by_cases hne : tok = .eof
  · subst hne
    cases h
  · obtain ⟨x, s', rfl, hx⟩ := exists_cons_of_current hcur hne
    cases tok with
    | number =>
        cases h
        exact ⟨true, _, .number _, ⟨x, _, rfl, ⟨hx, rfl⟩, rfl⟩, unopened_num _, nofun⟩
    | identifier => exact ih.identifier hx h
    | if_ => exact ih.ifElse hx h
    | for_ => exact ih.forIn hx h
    | var => exact ih.varIn hx h
    | chr c =>
        by_cases hc : c = '('
        · subst hc
          exact ih.paren hx h
        · rw [primaryOn_chr hc] at h
          cases h
    | _ => cases h

theorem unary_succ (ih : Recognises prec n) (h : parseUnary prec (n + 1) s = .ok e t) :
    OperandAt prec e s t := by
  rw [parseUnary, peek_bind] at h
  cases hcur : current s with
  | chr op =>
      obtain ⟨x, s', rfl, hx⟩ := exists_cons_of_current hcur (by simp)
      simp only [hcur] at h
      split at h
      · next hop =>
          rw [next_bind, List.tail_cons] at h
          obtain ⟨e', s₁, he, h₁⟩ := bind_eq_ok h
          obtain ⟨rfl, rfl⟩ := pure_eq_ok h₁
          obtain ⟨closed, ws, hd, hs, hopen, hneg⟩ := ih.unary he
          exact ⟨closed, _, .unary hop hd, ⟨x, s', rfl, hx, hs⟩,
            (unopened_cons (hd.ne_nil trivial)).mpr hopen, hneg⟩
      · exact ih.primary h
  | _ =>
      simp only [hcur] at h
      exact ih.primary h

theorem binOpRHS_succ (ih : Recognises prec n) {m : Int} {l : OpTree Expr Char} (hm : 0 ≤ m)
    (h : parseBinOpRHS prec (n + 1) m (chainExpr l) s = .ok e t) :
    ∃ ls tree, Climb prec m (getTokPrecedence prec (current t)) l ls tree ∧
      e = chainExpr tree ∧ LinksAt prec ls s t := by
  rw [parseBinOpRHS, peek_bind] at h
  dsimp only at h
  split at h
  · next hlt =>
      obtain ⟨rfl, rfl⟩ := pure_eq_ok h
      exact ⟨[], l, .stop hlt, rfl, linksAt_nil _⟩
  · next hge =>
      obtain ⟨op, hcur, hop, hprec⟩ := operator_of_nonneg (Int.le_trans hm (Int.not_lt.mp hge))
      obtain ⟨x, s', rfl, hx⟩ := exists_cons_of_current hcur (by simp)
      rw [hcur, getTokPrecedence_of_pos hop hprec] at hge
      rw [peek_bind, next_bind, List.tail_cons, hcur, getTokPrecedence_of_pos hop hprec] at h
      obtain ⟨r, s₁, hr, h₁⟩ := bind_eq_ok h
      rw [peek_bind] at h₁
      obtain ⟨r', s₂, hrhs, h₂⟩ := bind_eq_ok h₁
      -- the operand after the recursion, or without it
      have hright : ∃ inner tree,
          Climb prec (prec op + 1) (getTokPrecedence prec (current s₂)) (.leaf r) inner tree ∧
            r' = chainExpr tree ∧ LinksAt prec inner s₁ s₂ := by
        split at hrhs
        · exact ih.binOpRHS (by omega) hrhs
        · next hfall =>
            obtain ⟨rfl, rfl⟩ := pure_eq_ok hrhs
            exact ⟨[], .leaf r', .stop (by omega), rfl, linksAt_nil _⟩
      obtain ⟨inner, tree, hclimb, rfl, hinner⟩ := hright
      obtain ⟨outer, tree', hclimb', rfl, houter⟩ := ih.binOpRHS (l := .node l op tree) hm h₂
      refine ⟨(op, r) :: (inner ++ outer), tree', .step (Int.not_lt.mp hge) ?_ hclimb', rfl,
        .cons hx hop hprec (ih.unary hr) (hinner.append houter)⟩
      rwa [← houter.tokPrecedence]

theorem expression_succ (ih : Recognises prec n)
    (h : parseExpression prec (n + 1) s = .ok e t) : ExpressionAt prec e s t := by
  rw [parseExpression] at h
  obtain ⟨lhs, s₁, hl, h₁⟩ := bind_eq_ok h
  obtain ⟨ls, tree, hclimb, rfl, hls⟩ := ih.binOpRHS (l := .leaf lhs) (Int.le_refl 0) h₁
  exact (ih.unary hl).expression hls hclimb rfl

end Recognises

theorem recognises (prec : Char → Int) (n : Nat) : Recognises prec n := by
  induction n with
  | zero => exact recognises_zero
  | succ n ih =>
      exact {
        paren := ih.paren_succ
        identifier := ih.identifier_succ
        args := ih.args_succ
        ifElse := ih.ifElse_succ
        forIn := ih.forIn_succ
        optional := ih.optional_succ
        varIn := ih.varIn_succ
        names := ih.names_succ
        primary := ih.primary_succ
        expression := ih.expression_succ
        unary := ih.unary_succ
        binOpRHS := ih.binOpRHS_succ }

end Walk

/-- What the parser accepts, and where it stops. -/
theorem parseExpression_ok_iff {prec : Char → Int} (hp : PlainPunctuation prec) {e : Expr}
    {s t : List Lexeme} :
    onFuel (parseExpression prec) s = .ok e t ↔ ExpressionAt prec e s t := by
  constructor
  · exact (recognises prec _).expression
  · rintro ⟨ws, hd, hs, hend⟩
    exact hd.parseExpression hp hs hend

/-! ## Punctuation -/

/-- What the grammar has for a unary operator. -/
def isOperatorChar (c : Char) : Bool := isAscii c && !(['(', ')', ',', ';'].contains c)

/-- A word that neither opens nor closes anything, nor ends an item. -/
def Word.Inner : Word → Prop
  | .tok (.chr c) => c ≠ '(' ∧ c ≠ ')' ∧ c ≠ ';'
  | _ => True

/-- Every parenthesis has its counterpart, and no semicolon stands anywhere. -/
inductive Balanced : List Word → Prop
  | nil : Balanced []
  | word {w : Word} {ws : List Word} (hw : w.Inner) (h : Balanced ws) : Balanced (w :: ws)
  | paren {ws ws' : List Word} (h : Balanced ws) (h' : Balanced ws') :
      Balanced (.tok (.chr '(') :: (ws ++ .tok (.chr ')') :: ws'))

theorem Balanced.append {ws ws' : List Word} (h : Balanced ws) (h' : Balanced ws') :
    Balanced (ws ++ ws') := by
  induction h with
  | nil => exact h'
  | word hw h ih => exact .word hw ih
  | paren h _ _ ih =>
      have hparen := Balanced.paren h ih
      rwa [List.cons_append, List.append_assoc]

theorem Balanced.join {w : Word} {ws ws' : List Word} (h : Balanced ws) (hw : w.Inner)
    (h' : Balanced ws') : Balanced (ws ++ w :: ws') :=
  h.append (.word hw h')

theorem Balanced.no_semicolon {ws : List Word} (h : Balanced ws) :
    Word.tok (.chr ';') ∉ ws := by
  induction h with
  | nil => simp
  | @word w ws hw h ih =>
      intro hmem
      rcases List.mem_cons.mp hmem with rfl | hmem
      · exact hw.2.2 rfl
      · exact ih hmem
  | paren h h' ih ih' => simp [ih, ih']

/-- The operators read in a phrase. -/
def Phrase.operators : Phrase → List Char
  | .operand _ e | .expression e => e.operators
  | .links _ ls => ls.flatMap fun x => x.1 :: x.2.operators
  | .args es => operatorsArgs es
  | .optional _ o => operatorsOption o
  | .names vs => operatorsVars vs

/-- What introduces an optional part is no bracket and no semicolon. -/
def Phrase.Inner : Phrase → Prop
  | .optional intro _ => Word.Inner (.tok intro)
  | _ => True

section Punctuation

variable {unaryOp unaryOp' : Char → Bool} {prec : Char → Int} {p : Phrase} {ws : List Word}

theorem mem_operators_chainExpr {c : Char} {t : OpTree Expr Char} :
    c ∈ (chainExpr t).operators ↔
      c ∈ t.first.operators ++ t.links.flatMap fun x => x.1 :: x.2.operators := by
  induction t with
  | leaf e => simp [chainExpr, OpTree.first, OpTree.links]
  | node l op r ihl ihr =>
      simp only [chainExpr, Expr.operators, OpTree.first, OpTree.links, List.mem_cons,
        List.mem_append, ihl, ihr, List.flatMap_append, List.flatMap_cons, List.cons_append]
      grind

/-- The operators of a sentence are unary ones, or have a precedence. -/
theorem Derives.operators (h : Derives unaryOp prec p ws) :
    ∀ c ∈ p.operators, unaryOp c = true ∨ 0 < prec c := by
  induction h with
  | unary hop h ih => exact List.forall_mem_cons.mpr ⟨.inl hop, ih⟩
  | linksCons hop hprec h hls ih ihls =>
      simp only [Phrase.operators, List.flatMap_cons, List.cons_append, List.mem_cons,
        List.mem_append]
      rintro c (rfl | hc | hc)
      · exact .inr hprec
      · exact ih c hc
      · exact ihls c hc
  | linksLast hop hprec h ih =>
      simp only [Phrase.operators, List.flatMap_cons, List.flatMap_nil, List.append_nil]
      exact List.forall_mem_cons.mpr ⟨.inr hprec, ih⟩
  | chain hfirst hlinks ht ihfirst ihlinks =>
      intro c hc
      rcases List.mem_append.mp (mem_operators_chainExpr.mp hc) with hc | hc
      · exact ihfirst c hc
      · exact ihlinks c hc
  | paren h ih | call callee h hne ih | whole h ih => exact ih
  | number | name | callEmpty | linksNil | optionalNone => nofun
  | _ => simp_all [Phrase.operators, Expr.operators, operatorsArgs, operatorsOption, operatorsVars,
      or_imp]

/-- A sentence keeps being one where its unary operators stay. -/
theorem Derives.restrict (h : Derives unaryOp prec p ws)
    (hops : ∀ c ∈ p.operators, unaryOp c = true → unaryOp' c = true) :
    Derives unaryOp' prec p ws := by
  induction h with
  | number val => exact .number val
  | name x => exact .name x
  | callEmpty callee => exact .callEmpty callee
  | linksNil => exact .linksNil
  | optionalNone intro => exact .optionalNone intro
  | paren h ih => exact .paren (ih hops)
  | call callee h hne ih => exact .call callee (ih hops) hne
  | whole h ih => exact .whole (ih hops)
  | optionalSome intro h ih => exact .optionalSome intro (ih hops)
  | argsOne h ih => exact .argsOne (ih fun c hc => hops c (List.mem_append_left _ hc))
  | namesOne name h ih => exact .namesOne name (ih fun c hc => hops c (List.mem_append_left _ hc))
  | unary hop h ih =>
      have hrest := List.forall_mem_cons.mp hops
      exact .unary (hrest.1 hop) (ih hrest.2)
  | linksLast hop hprec h ih =>
      refine .linksLast hop hprec (ih fun c hc => hops c ?_)
      exact List.mem_flatMap.mpr ⟨_, List.mem_singleton_self _, List.mem_cons_of_mem _ hc⟩
  | linksCons hop hprec h hls ih ihls =>
      refine .linksCons hop hprec (ih fun c hc => hops c ?_) (ihls fun c hc => hops c ?_)
      · exact List.mem_cons_of_mem _ (List.mem_append_left _ hc)
      · exact List.mem_cons_of_mem _ (List.mem_append_right _ hc)
  | chain hfirst hlinks ht ihfirst ihlinks =>
      refine .chain (ihfirst fun c hc => hops c ?_) (ihlinks fun c hc => hops c ?_) ht
      · exact mem_operators_chainExpr.mpr (List.mem_append_left _ hc)
      · exact mem_operators_chainExpr.mpr (List.mem_append_right _ hc)
  | ifElse hc ht he ihc iht ihe =>
      simp only [Phrase.operators, Expr.operators, List.mem_append] at hops ihc iht ihe
      exact .ifElse (ihc fun c h => hops c (.inl (.inl h)))
        (iht fun c h => hops c (.inl (.inr h))) (ihe fun c h => hops c (.inr h))
  | forIn varName hs hf ho hb ihs ihf iho ihb =>
      simp only [Phrase.operators, Expr.operators, List.mem_append] at hops ihs ihf iho ihb
      exact .forIn varName (ihs fun c h => hops c (.inl (.inl (.inl h))))
        (ihf fun c h => hops c (.inl (.inl (.inr h)))) (iho fun c h => hops c (.inl (.inr h)))
        (ihb fun c h => hops c (.inr h))
  | varIn hv hb ihv ihb =>
      exact .varIn (ihv fun c h => hops c (List.mem_append_left _ h))
        (ihb fun c h => hops c (List.mem_append_right _ h))
  | argsMore h hes ih ihes =>
      exact .argsMore (ih fun c h => hops c (List.mem_append_left _ h))
        (ihes fun c h => hops c (List.mem_append_right _ h))
  | namesMore name h hvs ih ihvs =>
      exact .namesMore name (ih fun c h => hops c (List.mem_append_left _ h))
        (ihvs fun c h => hops c (List.mem_append_right _ h))

/-- Nothing that is an operator is punctuation. -/
theorem inner_of_operator {c : Char} (h : isOperatorChar c = true) :
    Word.Inner (.tok (.chr c)) := by
  refine ⟨?_, ?_, ?_⟩ <;> rintro rfl <;> simp [isOperatorChar] at h

theorem inner_of_prec (hplain : PlainPunctuation prec) (hsemi : prec ';' ≤ 0) {c : Char}
    (h : 0 < prec c) : Word.Inner (.tok (.chr c)) := by
  obtain ⟨hopen, hclose, -⟩ := hplain
  refine ⟨?_, ?_, ?_⟩ <;> rintro rfl <;> omega

theorem Derives.balanced (h : Derives isOperatorChar prec p ws) (hp : p.Inner)
    (hplain : PlainPunctuation prec) (hsemi : prec ';' ≤ 0) : Balanced ws := by
  induction h with
  | number val | name x => exact .word trivial .nil
  | linksNil | optionalNone => exact .nil
  | paren h ih => exact .paren (ih trivial) .nil
  | callEmpty callee => exact .word trivial (.paren .nil .nil)
  | call callee h hne ih => exact .word trivial (.paren (ih trivial) .nil)
  | unary hop h ih => exact .word (inner_of_operator hop) (ih trivial)
  | ifElse hc ht he ihc iht ihe =>
      exact .word trivial ((ihc trivial).join trivial ((iht trivial).join trivial (ihe trivial)))
  | forIn varName hs hf ho hb ihs ihf iho ihb =>
      have hcomma : Word.Inner (.tok (.chr ',')) := by simp [Word.Inner]
      have hequals : Word.Inner (.tok (.chr '=')) := by simp [Word.Inner]
      exact .word trivial (.word trivial (.word hequals ((ihs trivial).join hcomma
        ((ihf trivial).append ((iho hcomma).join trivial (ihb trivial))))))
  | varIn hv hb ihv ihb => exact .word trivial ((ihv trivial).join trivial (ihb trivial))
  | linksCons hop hprec h hls ih ihls =>
      exact .word (inner_of_prec hplain hsemi hprec) ((ih trivial).append (ihls trivial))
  | linksLast hop hprec h ih => exact .word (inner_of_prec hplain hsemi hprec) (ih trivial)
  | chain hfirst hlinks ht ihfirst ihlinks => exact (ihfirst trivial).append (ihlinks trivial)
  | whole h ih | argsOne h ih => exact ih trivial
  | argsMore h hes ih ihes =>
      exact (ih trivial).join (by simp [Word.Inner]) (ihes trivial)
  | optionalSome intro h ih => exact .word hp (ih trivial)
  | namesOne name h ih => exact .word trivial (ih (by simp [Phrase.Inner, Word.Inner]))
  | namesMore name h hvs ih ihvs =>
      exact .word trivial ((ih (by simp [Phrase.Inner, Word.Inner])).join (by simp [Word.Inner])
        (ihvs trivial))

end Punctuation

/-! ## Sentences of the grammar -/

/-- The words are an expression of the grammar with the tree `e`: its
parentheses match, no semicolon is among its words, and no punctuation among its
operators. -/
structure Sentence (prec : Char → Int) (e : Expr) (ws : List Word) : Prop where
  derives : Derives isOperatorChar prec (.expression e) ws
  balanced : Balanced ws
  semicolon : Word.tok (.chr ';') ∉ ws
  operators : ∀ c ∈ ['(', ')', ',', ';'], c ∉ e.operators

section Sentences

variable {prec : Char → Int}

theorem Derives.sentence {e : Expr} {ws : List Word} (hplain : PlainPunctuation prec)
    (hsemi : prec ';' ≤ 0) (h : Derives isOperatorChar prec (.expression e) ws) :
    Sentence prec e ws where
  derives := h
  balanced := h.balanced trivial hplain hsemi
  semicolon := (h.balanced trivial hplain hsemi).no_semicolon
  operators := by
    intro c hc hmem
    rcases h.operators c hmem with hop | hprec
    · simp [isOperatorChar, hc] at hop
    · obtain ⟨hopen, hclose, hcomma⟩ := hplain
      simp only [List.mem_cons, List.not_mem_nil, or_false] at hc
      rcases hc with rfl | rfl | rfl | rfl <;> omega

/-- What the parser takes for unary operators, punctuation apart, is what the
grammar has. -/
theorem isOperatorChar_of_unary {c : Char} (h : isUnaryChar c = true) (hclose : c ≠ ')')
    (hsemi : c ≠ ';') : isOperatorChar c = true := by
  simp only [isUnaryChar, Bool.and_eq_true, bne_iff_ne, ne_eq] at h
  simp [isOperatorChar, h, hclose, hsemi]

/-- The parser keeps to the grammar exactly where no `)` and no `;` stands at
the place of a unary operator in what the stream starts with. -/
theorem parseExpression_sentence_iff (hplain : PlainPunctuation prec) (hsemi : prec ';' ≤ 0)
    (s : List Lexeme) :
    (∀ e t, onFuel (parseExpression prec) s = .ok e t →
        ∃ ws, Spells ws s t ∧ Sentence prec e ws) ↔
      ∀ ws e t, Spells ws s t → Derives isUnaryChar prec (.expression e) ws →
        EndsAt prec ws (current t) → ')' ∉ e.operators ∧ ';' ∉ e.operators := by
  constructor
  · intro h ws e t hs hd hend
    obtain ⟨ws', -, hsentence⟩ := h e t (hd.parseExpression hplain hs hend)
    exact ⟨hsentence.operators ')' (by simp), hsentence.operators ';' (by simp)⟩
  · intro h e t hok
    obtain ⟨ws, hd, hs, hend⟩ := (parseExpression_ok_iff hplain).mp hok
    obtain ⟨hclose, hsemicolon⟩ := h ws e t hs hd hend
    have hgrammar : Derives isOperatorChar prec (.expression e) ws :=
      hd.restrict fun c hc hop => isOperatorChar_of_unary hop
        (fun heq => hclose (heq ▸ hc)) fun heq => hsemicolon (heq ▸ hc)
    exact ⟨ws, hs, hgrammar.sentence hplain hsemi⟩

/-- `(x)` is one of those streams or not, as the grammar has it. -/
theorem parseExpression_sentence_iff_paren :
    (∀ e t, onFuel (parseExpression fun c => if c = '+' then 20 else 0)
        [⟨.chr '(', "", .zero⟩, ⟨.identifier, "x", .zero⟩, ⟨.chr ')', "x", .zero⟩] = .ok e t →
        ∃ ws, Spells ws [⟨.chr '(', "", .zero⟩, ⟨.identifier, "x", .zero⟩,
            ⟨.chr ')', "x", .zero⟩] t ∧
          Sentence (fun c => if c = '+' then 20 else 0) e ws) ↔
      ∀ ws e t, Spells ws [⟨.chr '(', "", .zero⟩, ⟨.identifier, "x", .zero⟩,
          ⟨.chr ')', "x", .zero⟩] t →
        Derives isUnaryChar (fun c => if c = '+' then 20 else 0) (.expression e) ws →
          EndsAt (fun c => if c = '+' then 20 else 0) ws (current t) →
            ')' ∉ e.operators ∧ ';' ∉ e.operators :=
  parseExpression_sentence_iff ⟨by decide, by decide, by decide⟩ (by decide) _

/-- `x + ; y`: the operand missing at the end of the item is taken from the
next one, across the semicolon. -/
theorem parseExpression_not_sentence :
    ¬ ∀ e t, onFuel (parseExpression fun c => if c = '+' then 20 else 0)
        [⟨.identifier, "x", .zero⟩, ⟨.chr '+', "x", .zero⟩, ⟨.chr ';', "x", .zero⟩,
          ⟨.identifier, "y", .zero⟩] = .ok e t →
        ∃ ws, Spells ws [⟨.identifier, "x", .zero⟩, ⟨.chr '+', "x", .zero⟩,
            ⟨.chr ';', "x", .zero⟩, ⟨.identifier, "y", .zero⟩] t ∧
          Sentence (fun c => if c = '+' then 20 else 0) e ws := by
  intro h
  obtain ⟨ws, -, hsentence⟩ :=
    h (.binary '+' (.variable "x") (.unary ';' (.variable "y"))) [] rfl
  exact hsentence.operators ';' (by simp) (by simp [Expr.operators])

end Sentences

end LlvmPasses.Kaleido
