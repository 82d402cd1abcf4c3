import LlvmPasses.Kaleido.Parser

/-!
# The parser halts, and its fuel is never load-bearing

Three walks over the mutually recursive parse functions.

The first is done once for every property that sequencing respects: a relation
between parsers that holds of the primitives and is closed under `>>=` holds
between each parse function on a small and on a large budget (`Congruence`,
`each_of_congruence`). What a parse leaves over and the agreement of budgets
are two such relations.

The second says that an expression consumes at least one token, which the
relations of the first walk cannot express: it depends on the token the
dispatch has seen.

The third turns it into a bound. The measure is the number of tokens left,
with eight units of fuel for each: every function that calls another without
consuming a token ranks above it, and every call that follows a token has
eight units to spare.

What the other modules take from here is `parseExpression_settled` and its
likes for the items: on every list of tokens a parse returns or throws, and
running out of fuel is neither. So a statement about parsing may be made on any
budget that settles (`parseExpression_eq_of_settled`), and the parser of the
source, which has no budget, is the one that the entry points compute.
-/

namespace LlvmPasses.Kaleido

open TokenParser StateError

/-! ## Relations closed under sequencing -/

/-- A relation between parsers that the primitives satisfy and `>>=` keeps. -/
structure Congruence (Φ : {α : Type} → ParseM α → ParseM α → Prop) : Prop where
  pure : ∀ {α : Type} (a : α), Φ (pure a) (pure a)
  fail : ∀ {α : Type} (what : String), Φ (α := α) (fail what) (fail what)
  outOfFuel : ∀ {α : Type} (q : ParseM α), Φ (throw .outOfFuel) q
  peek : Φ peek peek
  next : Φ getNextToken getNextToken
  identifier : Φ getIdentifier getIdentifier
  number : Φ getNumber getNumber
  bind : ∀ {α β : Type} {p q : ParseM α} {f g : α → ParseM β},
    Φ p q → (∀ a, Φ (f a) (g a)) → Φ (p >>= f) (q >>= g)

/-- The relation, between every parse function on `n` and on `m` units. -/
structure Each (Φ : {α : Type} → ParseM α → ParseM α → Prop) (prec : Char → Int)
    (n m : Nat) : Prop where
  paren : Φ (parseParenExpr prec n) (parseParenExpr prec m)
  identifier : Φ (parseIdentifierExpr prec n) (parseIdentifierExpr prec m)
  args : Φ (parseArgs prec n) (parseArgs prec m)
  ifElse : Φ (parseIfExpr prec n) (parseIfExpr prec m)
  forIn : Φ (parseForExpr prec n) (parseForExpr prec m)
  optional : ∀ t, Φ (parseOptional prec n t) (parseOptional prec m t)
  varIn : Φ (parseVarExpr prec n) (parseVarExpr prec m)
  varNames : Φ (parseVarNames prec n) (parseVarNames prec m)
  primary : Φ (parsePrimary prec n) (parsePrimary prec m)
  expression : Φ (parseExpression prec n) (parseExpression prec m)
  unary : Φ (parseUnary prec n) (parseUnary prec m)
  binOpRHS : ∀ k lhs, Φ (parseBinOpRHS prec n k lhs) (parseBinOpRHS prec m k lhs)

section Congruence

variable {Φ : {α : Type} → ParseM α → ParseM α → Prop} {prec : Char → Int}

theorem Congruence.check (h : Congruence Φ) (t : Token) (what : String) :
    Φ (check t what) (check t what) := by
  refine h.bind h.peek fun a => ?_
  split
  · exact h.pure _
  · exact h.fail _

theorem Congruence.expect (h : Congruence Φ) (t : Token) (what : String) :
    Φ (expect t what) (expect t what) :=
  h.bind (h.check t what) fun _ => h.next

theorem Congruence.parseNumberExpr (h : Congruence Φ) :
    Φ parseNumberExpr parseNumberExpr :=
  h.bind h.number fun _ => h.bind h.next fun _ => h.pure _

theorem each_zero (h : Congruence Φ) (m : Nat) : Each Φ prec 0 m := by
  constructor
  all_goals intros
  all_goals
    first
      | rw [parseParenExpr] | rw [parseIdentifierExpr] | rw [parseArgs]
      | rw [parseIfExpr] | rw [parseForExpr] | rw [parseOptional]
      | rw [parseVarExpr] | rw [parseVarNames] | rw [parsePrimary]
      | rw [parseExpression] | rw [parseUnary] | rw [parseBinOpRHS]
    exact h.outOfFuel _

theorem each_succ (h : Congruence Φ) {n m : Nat} (ih : Each Φ prec n m) :
    Each Φ prec (n + 1) (m + 1) := by
  constructor
  case paren =>
    rw [parseParenExpr, parseParenExpr]
    exact h.bind h.next fun _ => h.bind ih.expression fun _ =>
      h.bind (h.expect _ _) fun _ => h.pure _
  case identifier =>
    rw [parseIdentifierExpr, parseIdentifierExpr]
    refine h.bind h.identifier fun _ => h.bind h.next fun _ => h.bind h.peek fun _ => ?_
    split
    · exact h.pure _
    · refine h.bind h.next fun _ => h.bind h.peek fun _ => ?_
      refine h.bind ?_ fun _ => h.bind h.next fun _ => h.pure _
      split
      · exact h.pure _
      · exact ih.args
  case args =>
    rw [parseArgs, parseArgs]
    refine h.bind ih.expression fun _ => h.bind h.peek fun _ => ?_
    split
    · exact h.pure _
    · exact h.bind (h.expect _ _) fun _ => h.bind ih.args fun _ => h.pure _
  case ifElse =>
    rw [parseIfExpr, parseIfExpr]
    exact h.bind h.next fun _ => h.bind ih.expression fun _ =>
      h.bind (h.expect _ _) fun _ => h.bind ih.expression fun _ =>
      h.bind (h.expect _ _) fun _ => h.bind ih.expression fun _ => h.pure _
  case forIn =>
    rw [parseForExpr, parseForExpr]
    exact h.bind h.next fun _ => h.bind (h.check _ _) fun _ =>
      h.bind h.identifier fun _ => h.bind h.next fun _ =>
      h.bind (h.expect _ _) fun _ => h.bind ih.expression fun _ =>
      h.bind (h.expect _ _) fun _ => h.bind ih.expression fun _ =>
      h.bind (ih.optional _) fun _ => h.bind (h.expect _ _) fun _ =>
      h.bind ih.expression fun _ => h.pure _
  case optional =>
    intro t
    rw [parseOptional, parseOptional]
    refine h.bind h.peek fun _ => ?_
    split
    · exact h.bind h.next fun _ => h.bind ih.expression fun _ => h.pure _
    · exact h.pure _
  case varIn =>
    rw [parseVarExpr, parseVarExpr]
    exact h.bind h.next fun _ => h.bind (h.check _ _) fun _ =>
      h.bind ih.varNames fun _ => h.bind (h.expect _ _) fun _ =>
      h.bind ih.expression fun _ => h.pure _
  case varNames =>
    rw [parseVarNames, parseVarNames]
    refine h.bind h.identifier fun _ => h.bind h.next fun _ =>
      h.bind (ih.optional _) fun _ => h.bind h.peek fun _ => ?_
    split
    · exact h.pure _
    · exact h.bind h.next fun _ => h.bind (h.check _ _) fun _ =>
        h.bind ih.varNames fun _ => h.pure _
  case primary =>
    rw [parsePrimary, parsePrimary]
    refine h.bind h.peek fun _ => ?_
    split
    · exact h.parseNumberExpr
    · exact ih.identifier
    · exact ih.paren
    · exact ih.ifElse
    · exact ih.forIn
    · exact ih.varIn
    · exact h.fail _
  case expression =>
    rw [parseExpression, parseExpression]
    exact h.bind ih.unary fun _ => ih.binOpRHS _ _
  case unary =>
    rw [parseUnary, parseUnary]
    refine h.bind h.peek fun _ => ?_
    split
    · split
      · exact h.bind h.next fun _ => h.bind ih.unary fun _ => h.pure _
      · exact ih.primary
    · exact ih.primary
  case binOpRHS =>
    intro k lhs
    rw [parseBinOpRHS, parseBinOpRHS]
    refine h.bind h.peek fun _ => ?_
    dsimp only
    split
    · exact h.pure _
    · refine h.bind h.peek fun _ => h.bind h.next fun _ => h.bind ih.unary fun _ =>
        h.bind h.peek fun _ => ?_
      refine h.bind ?_ fun _ => ih.binOpRHS _ _
      split
      · exact ih.binOpRHS _ _
      · exact h.pure _

theorem each_of_congruence (h : Congruence Φ) {n m : Nat} (hle : n ≤ m) :
    Each Φ prec n m := by
  induction n generalizing m with
  | zero => exact each_zero h m
  | succ n ih =>
      obtain ⟨k, rfl⟩ : ∃ k, m = k + 1 := ⟨m - 1, by omega⟩
      exact each_succ h (ih (by omega))

end Congruence

/-! ## What a parse leaves over -/

theorem nonGrowing_peek : NonGrowing peek := fun _ => Nat.le_refl _

theorem nonGrowing_getNextToken : NonGrowing getNextToken := fun s => by
  simp [getNextToken, left]

theorem congruence_nonGrowing : Congruence fun p _ => NonGrowing p where
  pure := nonGrowing_pure
  fail := fun _ => nonGrowing_throw _
  outOfFuel := fun _ => nonGrowing_throw _
  peek := nonGrowing_peek
  next := nonGrowing_getNextToken
  identifier := fun _ => Nat.le_refl _
  number := fun _ => Nat.le_refl _
  bind := NonGrowing.bind

theorem nonGrowing_each (prec : Char → Int) (n : Nat) :
    Each (fun p _ => NonGrowing p) prec n n :=
  each_of_congruence congruence_nonGrowing (Nat.le_refl n)

theorem nonGrowing_check (t : Token) (what : String) : NonGrowing (check t what) :=
  congruence_nonGrowing.check t what

theorem nonGrowing_expect (t : Token) (what : String) : NonGrowing (expect t what) :=
  congruence_nonGrowing.expect t what

/-! ## An expression consumes a token

`parseNumberExpr` and `parseIdentifierExpr` drop the token the dispatch saw,
so they consume one as long as there is one; the other constructs consume
because an expression inside them does. -/

/-- Dropping a token of a nonempty list, then anything that does not grow. -/
theorem length_lt_of_next {α : Type} {f : Unit → ParseM α} (hf : NonGrowing (f ()))
    {s t : List Lexeme} {a : α} (hs : s ≠ [])
    (h : (getNextToken >>= f) s = .ok a t) : t.length < s.length := by
  have hle := hf s.tail
  rw [bind_ok (show getNextToken s = .ok () s.tail from rfl)] at h
  rw [h] at hle
  have hpos := List.length_pos_iff.mpr hs
  simp only [left, List.length_tail] at hle
  omega

structure ConsumeSpec (prec : Char → Int) (n : Nat) : Prop where
  primary : Consuming (parsePrimary prec n)
  unary : Consuming (parseUnary prec n)
  expression : Consuming (parseExpression prec n)

theorem consuming_paren {prec : Char → Int} {n : Nat}
    (h : Consuming (parseExpression prec n)) : Consuming (parseParenExpr prec (n + 1)) := by
  rw [parseParenExpr]
  exact consuming_bind_right nonGrowing_getNextToken fun _ =>
    h.bind fun _ => (nonGrowing_expect _ _).bind fun _ => nonGrowing_pure _

theorem consuming_ifElse {prec : Char → Int} {n : Nat}
    (h : Consuming (parseExpression prec n)) : Consuming (parseIfExpr prec (n + 1)) := by
  have hg := (nonGrowing_each prec n).expression
  rw [parseIfExpr]
  exact consuming_bind_right nonGrowing_getNextToken fun _ =>
    h.bind fun _ => (nonGrowing_expect _ _).bind fun _ => hg.bind fun _ =>
      (nonGrowing_expect _ _).bind fun _ => hg.bind fun _ => nonGrowing_pure _

theorem consuming_forIn {prec : Char → Int} {n : Nat}
    (h : Consuming (parseExpression prec n)) : Consuming (parseForExpr prec (n + 1)) := by
  have hg := (nonGrowing_each prec n).expression
  rw [parseForExpr]
  exact consuming_bind_right nonGrowing_getNextToken fun _ =>
    consuming_bind_right (nonGrowing_check _ _) fun _ =>
    consuming_bind_right congruence_nonGrowing.identifier fun _ =>
    consuming_bind_right nonGrowing_getNextToken fun _ =>
    consuming_bind_right (nonGrowing_expect _ _) fun _ =>
    h.bind fun _ => (nonGrowing_expect _ _).bind fun _ => hg.bind fun _ =>
      ((nonGrowing_each prec n).optional _).bind fun _ =>
      (nonGrowing_expect _ _).bind fun _ => hg.bind fun _ => nonGrowing_pure _

theorem consuming_varIn {prec : Char → Int} {n : Nat}
    (h : Consuming (parseExpression prec n)) : Consuming (parseVarExpr prec (n + 1)) := by
  rw [parseVarExpr]
  exact consuming_bind_right nonGrowing_getNextToken fun _ =>
    consuming_bind_right (nonGrowing_check _ _) fun _ =>
    consuming_bind_right (nonGrowing_each prec n).varNames fun _ =>
    consuming_bind_right (nonGrowing_expect _ _) fun _ =>
    h.bind fun _ => nonGrowing_pure _

theorem identifier_length_lt {prec : Char → Int} {n : Nat} {s t : List Lexeme} {e : Expr}
    (hs : s ≠ []) (h : parseIdentifierExpr prec n s = .ok e t) : t.length < s.length := by
  cases n with
  | zero => rw [parseIdentifierExpr] at h; cases h
  | succ n =>
      have hg := nonGrowing_each prec n
      rw [parseIdentifierExpr,
        bind_ok (show getIdentifier s = .ok (s.head?.elim "" Lexeme.identifier) s from rfl)]
        at h
      refine length_lt_of_next ?_ hs h
      refine nonGrowing_peek.bind fun _ => ?_
      split
      · exact nonGrowing_pure _
      · refine nonGrowing_getNextToken.bind fun _ => nonGrowing_peek.bind fun _ => ?_
        refine NonGrowing.bind ?_ fun _ => nonGrowing_getNextToken.bind fun _ =>
          nonGrowing_pure _
        split
        · exact nonGrowing_pure _
        · exact hg.args

theorem number_length_lt {s t : List Lexeme} {e : Expr} (hs : s ≠ [])
    (h : parseNumberExpr s = .ok e t) : t.length < s.length := by
  rw [parseNumberExpr,
    bind_ok (show getNumber s = .ok (s.head?.elim Double.zero Lexeme.number) s from rfl)] at h
  refine length_lt_of_next ?_ hs h
  exact nonGrowing_pure _

/-- A token other than `Eof` can only be current where there is a token. -/
theorem ne_nil_of_current {s : List Lexeme} {t : Token} (h : current s = t)
    (ht : t ≠ .eof) : s ≠ [] := by
  rintro rfl
  exact ht h.symm

theorem consuming_primary {prec : Char → Int} {n : Nat}
    (hparen : Consuming (parseParenExpr prec n)) (hif : Consuming (parseIfExpr prec n))
    (hfor : Consuming (parseForExpr prec n)) (hvar : Consuming (parseVarExpr prec n)) :
    Consuming (parsePrimary prec (n + 1)) := by
  intro s e t h
  rw [parsePrimary, bind_ok (show peek s = .ok (current s) s from rfl)] at h
  generalize hc : current s = c at h
  split at h
  · exact number_length_lt (ne_nil_of_current hc (by simp)) h
  · exact identifier_length_lt (ne_nil_of_current hc (by simp)) h
  · exact hparen s e t h
  · exact hif s e t h
  · exact hfor s e t h
  · exact hvar s e t h
  · cases h

theorem consuming_unary {prec : Char → Int} {n : Nat}
    (hu : Consuming (parseUnary prec n)) (hp : Consuming (parsePrimary prec n)) :
    Consuming (parseUnary prec (n + 1)) := by
  rw [parseUnary]
  refine consuming_bind_right nonGrowing_peek fun _ => ?_
  split
  · split
    · exact consuming_bind_right nonGrowing_getNextToken fun _ =>
        hu.bind fun _ => nonGrowing_pure _
    · exact hp
  · exact hp

theorem consumeSpec (prec : Char → Int) (n : Nat) : ConsumeSpec prec n ∧
    Consuming (parseParenExpr prec n) ∧ Consuming (parseIfExpr prec n) ∧
    Consuming (parseForExpr prec n) ∧ Consuming (parseVarExpr prec n) := by
  induction n with
  | zero =>
      refine ⟨⟨?_, ?_, ?_⟩, ?_, ?_, ?_, ?_⟩
      all_goals
        first
          | rw [parsePrimary] | rw [parseUnary] | rw [parseExpression]
          | rw [parseParenExpr] | rw [parseIfExpr] | rw [parseForExpr]
          | rw [parseVarExpr]
        exact consuming_throw _
  | succ n ih =>
      obtain ⟨hs, hparen, hif, hfor, hvar⟩ := ih
      refine ⟨⟨consuming_primary hparen hif hfor hvar,
        consuming_unary hs.unary hs.primary, ?_⟩, consuming_paren hs.expression,
        consuming_ifElse hs.expression, consuming_forIn hs.expression,
        consuming_varIn hs.expression⟩
      rw [parseExpression]
      exact hs.unary.bind fun _ => (nonGrowing_each prec n).binOpRHS _ _

theorem consuming_expression (prec : Char → Int) (n : Nat) :
    Consuming (parseExpression prec n) := (consumeSpec prec n).1.expression

/-! ## Budgets agree -/

theorem congruence_stable : Congruence (fun p q => Stable p q) where
  pure := fun _ => Stable.refl _
  fail := fun _ => Stable.refl _
  outOfFuel := stable_outOfFuel
  peek := Stable.refl _
  next := Stable.refl _
  identifier := Stable.refl _
  number := Stable.refl _
  bind := Stable.bind

theorem stable_each (prec : Char → Int) {n m : Nat} (h : n ≤ m) :
    Each (fun p q => Stable p q) prec n m :=
  each_of_congruence congruence_stable h

/-! ## The budget suffices -/

/-- Dropping a token leaves one token less to deal with, and none where there
was none. -/
theorem endsWithin_next {α : Type} {m : Nat} {f : Unit → ParseM α}
    (h : EndsWithin m (f ())) : EndsWithin (m + 1) (getNextToken >>= f) := by
  intro s hs
  rw [bind_ok (show getNextToken s = .ok () s.tail from rfl)]
  exact h s.tail (by simp only [List.length_tail]; omega)

theorem endsWithin_peek (m : Nat) : EndsWithin m peek := fun _ _ => trivial

theorem endsWithin_getNextToken (m : Nat) : EndsWithin m getNextToken := fun _ _ => trivial

theorem endsWithin_getIdentifier (m : Nat) : EndsWithin m getIdentifier := fun _ _ => trivial

theorem endsWithin_peek_bind {α : Type} {m : Nat} {f : Token → ParseM α}
    (h : ∀ t, EndsWithin m (f t)) : EndsWithin m (peek >>= f) :=
  (endsWithin_peek m).bind nonGrowing_peek h

theorem endsWithin_identifier_bind {α : Type} {m : Nat} {f : String → ParseM α}
    (h : ∀ t, EndsWithin m (f t)) : EndsWithin m (getIdentifier >>= f) :=
  (endsWithin_getIdentifier m).bind congruence_nonGrowing.identifier h

theorem endsWithin_check (m : Nat) (t : Token) (what : String) :
    EndsWithin m (check t what) := by
  refine endsWithin_peek_bind fun a => ?_
  split
  · exact endsWithin_pure _ _
  · exact endsWithin_exception _ _

theorem endsWithin_expect (m : Nat) (t : Token) (what : String) :
    EndsWithin m (expect t what) :=
  (endsWithin_check m t what).bind (nonGrowing_check _ _) fun _ => endsWithin_getNextToken m

theorem endsWithin_check_bind {α : Type} {m : Nat} {t : Token} {what : String}
    {f : Unit → ParseM α} (h : EndsWithin m (f ())) : EndsWithin m (check t what >>= f) :=
  (endsWithin_check m t what).bind (nonGrowing_check _ _) fun _ => h

theorem endsWithin_expect_bind {α : Type} {m : Nat} {t : Token} {what : String}
    {f : Unit → ParseM α} (h : EndsWithin m (f ())) : EndsWithin m (expect t what >>= f) :=
  (endsWithin_expect m t what).bind (nonGrowing_expect _ _) fun _ => h

theorem endsWithin_parseNumberExpr (m : Nat) : EndsWithin m parseNumberExpr :=
  fun _ _ => trivial

/-- How much fuel covers each function on `m` tokens. The loops and the
constructs come first, then the three levels that call down without consuming
anything, then the argument loop, which starts with an expression. -/
structure Ends (prec : Char → Int) (m : Nat) : Prop where
  paren : ∀ n, 8 * m + 5 ≤ n → EndsWithin m (parseParenExpr prec n)
  identifier : ∀ n, 8 * m + 5 ≤ n → EndsWithin m (parseIdentifierExpr prec n)
  ifElse : ∀ n, 8 * m + 5 ≤ n → EndsWithin m (parseIfExpr prec n)
  forIn : ∀ n, 8 * m + 5 ≤ n → EndsWithin m (parseForExpr prec n)
  varIn : ∀ n, 8 * m + 5 ≤ n → EndsWithin m (parseVarExpr prec n)
  optional : ∀ n t, t ≠ .eof → 8 * m + 5 ≤ n → EndsWithin m (parseOptional prec n t)
  varNames : ∀ n, 8 * m + 5 ≤ n → EndsWithin m (parseVarNames prec n)
  binOpRHS : ∀ n k lhs, 8 * m + 5 ≤ n → EndsWithin m (parseBinOpRHS prec n k lhs)
  primary : ∀ n, 8 * m + 6 ≤ n → EndsWithin m (parsePrimary prec n)
  unary : ∀ n, 8 * m + 7 ≤ n → EndsWithin m (parseUnary prec n)
  expression : ∀ n, 8 * m + 8 ≤ n → EndsWithin m (parseExpression prec n)
  args : ∀ n, 8 * m + 9 ≤ n → EndsWithin m (parseArgs prec n)

/-! At the end of input an expression throws at once, and so does everything
that starts with one. -/

theorem parseUnary_nil {prec : Char → Int} {n : Nat} (h : 2 ≤ n) :
    parseUnary prec n [] =
      .error (.exception "Unknown token when expecting an expression") [] := by
  obtain ⟨k, rfl⟩ : ∃ k, n = k + 2 := ⟨n - 2, by omega⟩
  rw [parseUnary, bind_ok (show peek [] = .ok .eof [] from rfl)]
  simp only []
  rw [parsePrimary, bind_ok (show peek [] = .ok .eof [] from rfl)]
  rfl

theorem parseExpression_nil {prec : Char → Int} {n : Nat} (h : 3 ≤ n) :
    parseExpression prec n [] =
      .error (.exception "Unknown token when expecting an expression") [] := by
  obtain ⟨k, rfl⟩ : ∃ k, n = k + 1 := ⟨n - 1, by omega⟩
  rw [parseExpression, bind_apply, parseUnary_nil (by omega)]

theorem endsWithin_zero {α : Type} {p : ParseM α} (h : Settled (p [])) : EndsWithin 0 p := by
  intro s hs
  obtain rfl := List.length_eq_zero_iff.mp (Nat.le_zero.mp hs)
  exact h

theorem getNextToken_nil : getNextToken [] = .ok () [] := rfl

theorem peek_nil : peek [] = .ok .eof [] := rfl

theorem ends_zero (prec : Char → Int) : Ends prec 0 := by
  constructor
  all_goals intro n
  case paren =>
    intro hn
    obtain ⟨k, rfl⟩ : ∃ k, n = k + 1 := ⟨n - 1, by omega⟩
    rw [parseParenExpr]
    refine endsWithin_zero ?_
    rw [bind_ok getNextToken_nil, bind_apply, parseExpression_nil (by omega)]
    exact Stop.noConfusion
  case identifier =>
    intro hn
    obtain ⟨k, rfl⟩ : ∃ k, n = k + 1 := ⟨n - 1, by omega⟩
    rw [parseIdentifierExpr]
    exact endsWithin_zero trivial
  case ifElse =>
    intro hn
    obtain ⟨k, rfl⟩ : ∃ k, n = k + 1 := ⟨n - 1, by omega⟩
    rw [parseIfExpr]
    refine endsWithin_zero ?_
    rw [bind_ok getNextToken_nil, bind_apply, parseExpression_nil (by omega)]
    exact Stop.noConfusion
  case forIn =>
    intro hn
    obtain ⟨k, rfl⟩ : ∃ k, n = k + 1 := ⟨n - 1, by omega⟩
    rw [parseForExpr]
    exact endsWithin_zero Stop.noConfusion
  case varIn =>
    intro hn
    obtain ⟨k, rfl⟩ : ∃ k, n = k + 1 := ⟨n - 1, by omega⟩
    rw [parseVarExpr]
    exact endsWithin_zero Stop.noConfusion
  case optional =>
    intro t ht hn
    obtain ⟨k, rfl⟩ : ∃ k, n = k + 1 := ⟨n - 1, by omega⟩
    rw [parseOptional]
    refine endsWithin_zero ?_
    rw [bind_ok peek_nil, if_neg ht.symm]
    trivial
  case varNames =>
    intro hn
    obtain ⟨k, rfl⟩ : ∃ k, n = k + 2 := ⟨n - 2, by omega⟩
    rw [parseVarNames]
    refine endsWithin_zero ?_
    rw [parseOptional]
    trivial
  case binOpRHS =>
    intro k lhs hn
    obtain ⟨j, rfl⟩ : ∃ j, n = j + 1 := ⟨n - 1, by omega⟩
    rw [parseBinOpRHS]
    refine endsWithin_zero ?_
    rw [bind_ok peek_nil]
    dsimp only
    split
    · trivial
    · rw [bind_ok peek_nil, bind_ok getNextToken_nil, bind_apply, parseUnary_nil (by omega)]
      exact Stop.noConfusion
  case primary =>
    intro hn
    obtain ⟨k, rfl⟩ : ∃ k, n = k + 1 := ⟨n - 1, by omega⟩
    rw [parsePrimary]
    exact endsWithin_zero Stop.noConfusion
  case unary =>
    intro hn
    refine endsWithin_zero ?_
    rw [parseUnary_nil (by omega)]
    exact Stop.noConfusion
  case expression =>
    intro hn
    refine endsWithin_zero ?_
    rw [parseExpression_nil (by omega)]
    exact Stop.noConfusion
  case args =>
    intro hn
    obtain ⟨k, rfl⟩ : ∃ k, n = k + 1 := ⟨n - 1, by omega⟩
    rw [parseArgs]
    refine endsWithin_zero ?_
    rw [bind_apply, parseExpression_nil (by omega)]
    exact Stop.noConfusion

/-! One token more. Past the first `getNextToken` everything runs on the
smaller measure, where any budget this size is enough. -/

section Step

variable {prec : Char → Int} {m n : Nat}

theorem ends_constructs (ih : Ends prec m) (hn : 8 * (m + 1) + 5 ≤ n) :
    EndsWithin (m + 1) (parseParenExpr prec n) ∧
    EndsWithin (m + 1) (parseIdentifierExpr prec n) ∧
    EndsWithin (m + 1) (parseIfExpr prec n) ∧
    EndsWithin (m + 1) (parseForExpr prec n) ∧
    EndsWithin (m + 1) (parseVarExpr prec n) := by
  obtain ⟨k, rfl⟩ : ∃ k, n = k + 1 := ⟨n - 1, by omega⟩
  have he := ih.expression k (by omega)
  have hg := nonGrowing_each prec k
  refine ⟨?_, ?_, ?_, ?_, ?_⟩
  · rw [parseParenExpr]
    exact endsWithin_next (he.bind hg.expression fun _ =>
      endsWithin_expect_bind (endsWithin_pure _ _))
  · rw [parseIdentifierExpr]
    refine endsWithin_identifier_bind fun _ => endsWithin_next (endsWithin_peek_bind fun _ => ?_)
    split
    · exact endsWithin_pure _ _
    · refine (endsWithin_getNextToken m).bind nonGrowing_getNextToken fun _ =>
        endsWithin_peek_bind fun _ => ?_
      refine EndsWithin.bind ?_ ?_ fun _ =>
        (endsWithin_getNextToken m).bind nonGrowing_getNextToken fun _ => endsWithin_pure _ _
      · split
        · exact endsWithin_pure _ _
        · exact ih.args k (by omega)
      · split
        · exact nonGrowing_pure _
        · exact hg.args
  · rw [parseIfExpr]
    exact endsWithin_next (he.bind hg.expression fun _ => endsWithin_expect_bind
      (he.bind hg.expression fun _ => endsWithin_expect_bind
        (he.bind hg.expression fun _ => endsWithin_pure _ _)))
  · rw [parseForExpr]
    refine endsWithin_next (endsWithin_check_bind (endsWithin_identifier_bind fun _ => ?_))
    refine (endsWithin_getNextToken m).bind nonGrowing_getNextToken fun _ =>
      endsWithin_expect_bind (he.bind hg.expression fun _ => endsWithin_expect_bind
        (he.bind hg.expression fun _ => ?_))
    exact (ih.optional k _ (by simp) (by omega)).bind (hg.optional _) fun _ =>
      endsWithin_expect_bind (he.bind hg.expression fun _ => endsWithin_pure _ _)
  · rw [parseVarExpr]
    refine endsWithin_next (endsWithin_check_bind ?_)
    exact (ih.varNames k (by omega)).bind hg.varNames fun _ =>
      endsWithin_expect_bind (he.bind hg.expression fun _ => endsWithin_pure _ _)

theorem ends_loops (ih : Ends prec m) (hn : 8 * (m + 1) + 5 ≤ n) :
    (∀ t, EndsWithin (m + 1) (parseOptional prec n t)) ∧
    EndsWithin (m + 1) (parseVarNames prec n) ∧
    (∀ k lhs, EndsWithin (m + 1) (parseBinOpRHS prec n k lhs)) := by
  obtain ⟨k, rfl⟩ : ∃ k, n = k + 1 := ⟨n - 1, by omega⟩
  have he := ih.expression k (by omega)
  have hg := nonGrowing_each prec k
  refine ⟨fun t => ?_, ?_, fun j lhs => ?_⟩
  · rw [parseOptional]
    refine endsWithin_peek_bind fun _ => ?_
    split
    · exact endsWithin_next (he.bind hg.expression fun _ => endsWithin_pure _ _)
    · exact endsWithin_pure _ _
  · rw [parseVarNames]
    refine endsWithin_identifier_bind fun _ => endsWithin_next ?_
    refine (ih.optional k _ (by simp) (by omega)).bind (hg.optional _) fun _ =>
      endsWithin_peek_bind fun _ => ?_
    split
    · exact endsWithin_pure _ _
    · exact (endsWithin_getNextToken m).bind nonGrowing_getNextToken fun _ =>
        endsWithin_check_bind ((ih.varNames k (by omega)).bind hg.varNames fun _ =>
          endsWithin_pure _ _)
  · rw [parseBinOpRHS]
    refine endsWithin_peek_bind fun _ => ?_
    dsimp only
    split
    · exact endsWithin_pure _ _
    · refine endsWithin_peek_bind fun _ => endsWithin_next ?_
      refine (ih.unary k (by omega)).bind hg.unary fun _ => endsWithin_peek_bind fun _ => ?_
      refine EndsWithin.bind ?_ ?_ fun _ => ih.binOpRHS k _ _ (by omega)
      · split
        · exact ih.binOpRHS k _ _ (by omega)
        · exact endsWithin_pure _ _
      · split
        · exact hg.binOpRHS _ _
        · exact nonGrowing_pure _

theorem ends_primary (ih : Ends prec m) (hn : 8 * (m + 1) + 6 ≤ n) :
    EndsWithin (m + 1) (parsePrimary prec n) := by
  obtain ⟨k, rfl⟩ : ∃ k, n = k + 1 := ⟨n - 1, by omega⟩
  obtain ⟨hparen, hident, hif, hfor, hvar⟩ := ends_constructs ih (n := k) (by omega)
  rw [parsePrimary]
  refine endsWithin_peek_bind fun _ => ?_
  split
  · exact endsWithin_parseNumberExpr _
  · exact hident
  · exact hparen
  · exact hif
  · exact hfor
  · exact hvar
  · exact endsWithin_exception _ _

theorem ends_unary (ih : Ends prec m) (hn : 8 * (m + 1) + 7 ≤ n) :
    EndsWithin (m + 1) (parseUnary prec n) := by
  obtain ⟨k, rfl⟩ : ∃ k, n = k + 1 := ⟨n - 1, by omega⟩
  have hp := ends_primary ih (n := k) (by omega)
  rw [parseUnary]
  refine endsWithin_peek_bind fun _ => ?_
  split
  · split
    · exact endsWithin_next ((ih.unary k (by omega)).bind (nonGrowing_each prec k).unary
        fun _ => endsWithin_pure _ _)
    · exact hp
  · exact hp

theorem ends_expression (ih : Ends prec m) (hn : 8 * (m + 1) + 8 ≤ n) :
    EndsWithin (m + 1) (parseExpression prec n) := by
  obtain ⟨k, rfl⟩ : ∃ k, n = k + 1 := ⟨n - 1, by omega⟩
  rw [parseExpression]
  exact (ends_unary ih (n := k) (by omega)).bind_consuming (consumeSpec prec k).1.unary
    fun _ => ih.binOpRHS k _ _ (by omega)

theorem ends_args (ih : Ends prec m) (hn : 8 * (m + 1) + 9 ≤ n) :
    EndsWithin (m + 1) (parseArgs prec n) := by
  obtain ⟨k, rfl⟩ : ∃ k, n = k + 1 := ⟨n - 1, by omega⟩
  rw [parseArgs]
  refine (ends_expression ih (n := k) (by omega)).bind_consuming
    (consuming_expression prec k) fun _ => endsWithin_peek_bind fun _ => ?_
  split
  · exact endsWithin_pure _ _
  · exact endsWithin_expect_bind ((ih.args k (by omega)).bind (nonGrowing_each prec k).args
      fun _ => endsWithin_pure _ _)

end Step

theorem ends (prec : Char → Int) (m : Nat) : Ends prec m := by
  induction m with
  | zero => exact ends_zero prec
  | succ m ih =>
      exact {
        paren := fun n hn => (ends_constructs ih hn).1
        identifier := fun n hn => (ends_constructs ih hn).2.1
        ifElse := fun n hn => (ends_constructs ih hn).2.2.1
        forIn := fun n hn => (ends_constructs ih hn).2.2.2.1
        varIn := fun n hn => (ends_constructs ih hn).2.2.2.2
        optional := fun n t _ hn => (ends_loops ih hn).1 t
        varNames := fun n hn => (ends_loops ih hn).2.1
        binOpRHS := fun n k lhs hn => (ends_loops ih hn).2.2 k lhs
        primary := fun n hn => ends_primary ih hn
        unary := fun n hn => ends_unary ih hn
        expression := fun n hn => ends_expression ih hn
        args := fun n hn => ends_args ih hn }

/-- `parseExpression` settles on the budget the entry points pass. -/
theorem parseExpression_settled {prec : Char → Int} {n : Nat} {s : List Lexeme}
    (h : fuelFor s ≤ n) : Settled (parseExpression prec n s) :=
  (ends prec s.length).expression n h s (Nat.le_refl _)

/-- A parse that settled on any budget gives what the entry points compute. -/
theorem parseExpression_eq_of_settled {prec : Char → Int} {n : Nat} {s : List Lexeme}
    (h : Settled (parseExpression prec n s)) :
    onFuel (parseExpression prec) s = parseExpression prec n s := by
  have h₁ := (stable_each prec (Nat.le_max_left n (fuelFor s))).expression s h
  have h₂ := (stable_each prec (Nat.le_max_right n (fuelFor s))).expression s
    (parseExpression_settled (Nat.le_refl _))
  rw [onFuel, ← h₂, h₁]

/-! ## Prototypes and items -/

theorem nonGrowing_parseOperatorChar (what : String) :
    NonGrowing (parseOperatorChar what) := by
  refine nonGrowing_peek.bind fun _ => ?_
  split
  · split
    · exact nonGrowing_getNextToken.bind fun _ => nonGrowing_pure _
    · exact nonGrowing_throw _
  · exact nonGrowing_throw _

theorem nonGrowing_parsePrecedence : NonGrowing parsePrecedence := by
  refine nonGrowing_peek.bind fun _ => ?_
  split
  · refine congruence_nonGrowing.number.bind fun _ => ?_
    split
    · exact nonGrowing_throw _
    · exact nonGrowing_getNextToken.bind fun _ => nonGrowing_pure _
  · exact nonGrowing_pure _

theorem nonGrowing_parsePrototypeHead : NonGrowing parsePrototypeHead := by
  refine nonGrowing_peek.bind fun _ => ?_
  split
  · exact congruence_nonGrowing.identifier.bind fun _ =>
      nonGrowing_getNextToken.bind fun _ => nonGrowing_pure _
  · exact nonGrowing_getNextToken.bind fun _ =>
      (nonGrowing_parseOperatorChar _).bind fun _ => nonGrowing_pure _
  · exact nonGrowing_getNextToken.bind fun _ =>
      (nonGrowing_parseOperatorChar _).bind fun _ =>
      nonGrowing_parsePrecedence.bind fun _ => nonGrowing_pure _
  · exact nonGrowing_throw _

theorem nonGrowing_parseArgNames (n : Nat) : NonGrowing (parseArgNames n) := by
  induction n with
  | zero => rw [parseArgNames]; exact nonGrowing_throw _
  | succ n ih =>
      rw [parseArgNames]
      refine nonGrowing_getNextToken.bind fun _ => nonGrowing_peek.bind fun _ => ?_
      split
      · refine congruence_nonGrowing.identifier.bind fun _ =>
          nonGrowing_getNextToken.bind fun _ => nonGrowing_peek.bind fun _ => ?_
        split
        · exact nonGrowing_pure _
        · exact (nonGrowing_check _ _).bind fun _ => ih.bind fun _ => nonGrowing_pure _
      · exact nonGrowing_pure _

theorem nonGrowing_parsePrototypeOn (n : Nat) : NonGrowing (parsePrototypeOn n) := by
  refine nonGrowing_parsePrototypeHead.bind fun _ => (nonGrowing_check _ _).bind fun _ =>
    (nonGrowing_parseArgNames n).bind fun _ => (nonGrowing_expect _ _).bind fun _ => ?_
  split
  · exact nonGrowing_throw _
  · exact nonGrowing_pure _

/-- The parameter loop drops a token a round. -/
theorem endsWithin_parseArgNames {m n : Nat} (h : m + 1 ≤ n) :
    EndsWithin m (parseArgNames n) := by
  induction m generalizing n with
  | zero =>
      obtain ⟨k, rfl⟩ : ∃ k, n = k + 1 := ⟨n - 1, by omega⟩
      rw [parseArgNames]
      exact endsWithin_zero trivial
  | succ m ih =>
      obtain ⟨k, rfl⟩ : ∃ k, n = k + 1 := ⟨n - 1, by omega⟩
      rw [parseArgNames]
      refine endsWithin_next (endsWithin_peek_bind fun _ => ?_)
      split
      · refine endsWithin_identifier_bind fun _ =>
          (endsWithin_getNextToken m).bind nonGrowing_getNextToken fun _ =>
          endsWithin_peek_bind fun _ => ?_
        split
        · exact endsWithin_pure _ _
        · exact endsWithin_check_bind ((ih (by omega)).bind (nonGrowing_parseArgNames k)
            fun _ => endsWithin_pure _ _)
      · exact endsWithin_pure _ _

theorem endsWithin_parsePrototypeHead (m : Nat) : EndsWithin m parsePrototypeHead := by
  have hchar : ∀ what, EndsWithin m (parseOperatorChar what) := fun what => by
    refine endsWithin_peek_bind fun _ => ?_
    split
    · split
      · exact (endsWithin_getNextToken m).bind nonGrowing_getNextToken fun _ =>
          endsWithin_pure _ _
      · exact endsWithin_exception _ _
    · exact endsWithin_exception _ _
  have hprec : EndsWithin m parsePrecedence := by
    refine endsWithin_peek_bind fun _ => ?_
    split
    · refine EndsWithin.bind (fun _ _ => trivial) congruence_nonGrowing.number fun _ => ?_
      split
      · exact endsWithin_exception _ _
      · exact (endsWithin_getNextToken m).bind nonGrowing_getNextToken fun _ =>
          endsWithin_pure _ _
    · exact endsWithin_pure _ _
  refine endsWithin_peek_bind fun _ => ?_
  split
  · exact endsWithin_identifier_bind fun _ =>
      (endsWithin_getNextToken m).bind nonGrowing_getNextToken fun _ => endsWithin_pure _ _
  · exact (endsWithin_getNextToken m).bind nonGrowing_getNextToken fun _ =>
      (hchar _).bind (nonGrowing_parseOperatorChar _) fun _ => endsWithin_pure _ _
  · exact (endsWithin_getNextToken m).bind nonGrowing_getNextToken fun _ =>
      (hchar _).bind (nonGrowing_parseOperatorChar _) fun _ =>
      hprec.bind nonGrowing_parsePrecedence fun _ => endsWithin_pure _ _
  · exact endsWithin_exception _ _

theorem endsWithin_parsePrototypeOn {m n : Nat} (h : m + 1 ≤ n) :
    EndsWithin m (parsePrototypeOn n) := by
  refine (endsWithin_parsePrototypeHead m).bind nonGrowing_parsePrototypeHead fun _ =>
    endsWithin_check_bind ((endsWithin_parseArgNames h).bind (nonGrowing_parseArgNames n)
      fun _ => endsWithin_expect_bind ?_)
  split
  · exact endsWithin_exception _ _
  · exact endsWithin_pure _ _

/-- What a parse of one item does to the tokens: it settles, and leaves no
more than it was given. -/
structure ItemParser {α : Type} (p : ParseM α) : Prop where
  settled : ∀ s, Settled (p s)
  nonGrowing : NonGrowing p

theorem itemParser_definition (prec : Char → Int) : ItemParser (parseDefinition prec) where
  settled := fun s => by
    have he := (ends prec s.length).expression (fuelFor s) (Nat.le_refl _)
    refine EndsWithin.bind (endsWithin_getNextToken s.length) nonGrowing_getNextToken
      (fun _ => ?_) s (Nat.le_refl _)
    exact (endsWithin_parsePrototypeOn (by unfold fuelFor; omega)).bind
      (nonGrowing_parsePrototypeOn _) fun _ =>
      he.bind (nonGrowing_each prec _).expression fun _ => endsWithin_pure _ _
  nonGrowing := fun s =>
    (nonGrowing_getNextToken.bind fun _ => (nonGrowing_parsePrototypeOn _).bind fun _ =>
      (nonGrowing_each prec (fuelFor s)).expression.bind fun _ => nonGrowing_pure _) s

theorem itemParser_topLevelExpr (prec : Char → Int) :
    ItemParser (parseTopLevelExpr prec) where
  settled := fun s =>
    ((ends prec s.length).expression (fuelFor s) (Nat.le_refl _)).bind
      (nonGrowing_each prec _).expression (fun _ => endsWithin_pure _ _) s (Nat.le_refl _)
  nonGrowing := fun s =>
    ((nonGrowing_each prec (fuelFor s)).expression.bind fun _ => nonGrowing_pure _) s

theorem itemParser_extern : ItemParser parseExtern where
  settled := fun s => by
    refine EndsWithin.bind (endsWithin_getNextToken s.length) nonGrowing_getNextToken
      (fun _ => ?_) s (Nat.le_refl _)
    exact endsWithin_parsePrototypeOn (by unfold fuelFor; omega)
  nonGrowing := fun s =>
    (nonGrowing_getNextToken.bind fun _ => nonGrowing_parsePrototypeOn _) s

/-- A top-level expression that parsed consumed a token. -/
theorem consuming_parseTopLevelExpr (prec : Char → Int) :
    Consuming (parseTopLevelExpr prec) := fun s _ _ h =>
  ((consuming_expression prec (fuelFor s)).bind fun _ => nonGrowing_pure _) s _ _ h

end LlvmPasses.Kaleido
