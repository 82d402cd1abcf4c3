import LlvmPasses.Kaleido.Grammar

/-!
# The prototypes that are accepted

The parameter loop of `parsePrototype` looks for a name after every comma and
leaves it at that if there is none: whatever comes instead only has to be the
closing parenthesis. So the lists it accepts are those with a comma between
neighbours, and those with a comma behind every name.

`parsePrototype_grammar_iff` is about every list of tokens. The grammar of
prototypes is written down as lists of tokens (`PrototypeWords`), with the list
of names either as it is meant (`nameWords`) or with the comma at the end
(`commaWords`). `parsePrototype_ok_iff` says that the parser accepts the two
and nothing else, soundness by following the parse functions and completeness
by running them on the words. The equivalence with the grammar as it is meant
then only excludes the second kind (`TrailingComma`), which can be told from
its last two tokens as soon as there is a parameter.
-/

namespace LlvmPasses.Kaleido

open StateError

/-! ## The grammar -/

/-- A list of names, with a comma between neighbours. -/
def nameWords : List String → List Word
  | [] => []
  | [name] => [.ident name]
  | name :: next :: names => .ident name :: .tok (.chr ',') :: nameWords (next :: names)

/-- A list of names, with a comma behind each. -/
def commaWords : List String → List Word
  | [] => []
  | name :: names => .ident name :: .tok (.chr ',') :: commaWords names

/-- What comes before the parameters: the function's name, the kind of the
prototype and its precedence. A precedence that is given is neither below one
nor above a hundred. -/
inductive HeadWords : List Word → String × PrototypeKind × Nat → Prop
  | identifier (name : String) : HeadWords [.ident name] (name, .identifier, 30)
  | unary {c : Char} (hc : isAscii c = true) :
      HeadWords [.tok .unary, .tok (.chr c)] ("unary".push c, .unary, 30)
  | binary {c : Char} (hc : isAscii c = true) :
      HeadWords [.tok .binary, .tok (.chr c)] ("binary".push c, .binary, 30)
  | binaryWith {c : Char} {value : Double} (hc : isAscii c = true)
      (hlow : value.lt .one = false) (hhigh : Double.hundred.lt value = false) :
      HeadWords [.tok .binary, .tok (.chr c), .num value]
        ("binary".push c, .binary, value.truncate)

/-- A prototype whose parameters are written as `list` has them; an operator
has as many as it takes operands. -/
inductive PrototypeWords (list : List String → List Word) : List Word → Prototype → Prop
  | intro {head : List Word} {name : String} {kind : PrototypeKind} {prec : Nat}
      (args : List String) (hhead : HeadWords head (name, kind, prec))
      (hargs : kind ≠ .identifier → args.length = kind.operands) :
      PrototypeWords list (head ++ .tok (.chr '(') :: (list args ++ [.tok (.chr ')')]))
        { name := name, args := args, isOperator := kind ≠ .identifier, precedence := prec }

section

variable {s t rest : List Lexeme} {names args : List String} {p : Prototype} {n : Nat}

/-! ## The head -/

theorem operatorChar_ok {what : String} {c : Char} (h : parseOperatorChar what s = .ok c t) :
    isAscii c = true ∧ Spells [.tok (.chr c)] s t := by
  unfold parseOperatorChar at h
  rw [peek_bind] at h
  cases hcur : current s with
  | chr c' =>
      obtain ⟨x, s', rfl, hx⟩ := exists_cons_of_current hcur (by simp)
      simp only [hcur] at h
      by_cases hascii : isAscii c' = true
      · rw [if_pos hascii, next_bind] at h
        obtain ⟨rfl, rfl⟩ := pure_eq_ok h
        exact ⟨hascii, x, _, rfl, hx, rfl⟩
      · rw [if_neg hascii] at h
        cases h
  | _ =>
      simp only [hcur] at h
      cases h

theorem precedence_ok {prec : Nat} (h : parsePrecedence s = .ok prec t) :
    (prec = 30 ∧ t = s) ∨ ∃ value, Double.lt value .one = false ∧
      Double.hundred.lt value = false ∧ prec = value.truncate ∧ Spells [.num value] s t := by
  unfold parsePrecedence at h
  rw [peek_bind] at h
  split at h
  · next hcur =>
      obtain ⟨x, s', rfl, hx⟩ := exists_cons_of_current hcur (by simp)
      obtain ⟨value, s₁, hv, h⟩ := bind_eq_ok h
      cases hv
      split at h
      · cases h
      · next hrange =>
          rw [next_bind] at h
          obtain ⟨rfl, rfl⟩ := pure_eq_ok h
          simp only [Bool.or_eq_true, not_or, Bool.not_eq_true] at hrange
          exact .inr ⟨_, hrange.1, hrange.2, rfl, x, _, rfl, ⟨hx, rfl⟩, rfl⟩
  · obtain ⟨rfl, rfl⟩ := pure_eq_ok h
    exact .inl ⟨rfl, rfl⟩

theorem head_sound {r : String × PrototypeKind × Nat} (h : parsePrototypeHead s = .ok r t) :
    ∃ ws, HeadWords ws r ∧ Spells ws s t := by
  unfold parsePrototypeHead at h
  rw [peek_bind] at h
  cases hcur : current s with
  | identifier =>
      obtain ⟨x, s', rfl, hx⟩ := exists_cons_of_current hcur (by simp)
      simp only [hcur] at h
      obtain ⟨name, s₁, hname, h⟩ := bind_eq_ok h
      cases hname
      rw [next_bind] at h
      obtain ⟨rfl, rfl⟩ := pure_eq_ok h
      exact ⟨_, .identifier _, x, _, rfl, ⟨hx, rfl⟩, rfl⟩
  | unary =>
      obtain ⟨x, s', rfl, hx⟩ := exists_cons_of_current hcur (by simp)
      simp only [hcur, next_bind, List.tail_cons] at h
      obtain ⟨c, s₁, hc, h⟩ := bind_eq_ok h
      obtain ⟨rfl, rfl⟩ := pure_eq_ok h
      obtain ⟨hascii, hspells⟩ := operatorChar_ok hc
      exact ⟨_, .unary hascii, x, s', rfl, hx, hspells⟩
  | binary =>
      obtain ⟨x, s', rfl, hx⟩ := exists_cons_of_current hcur (by simp)
      simp only [hcur, next_bind, List.tail_cons] at h
      obtain ⟨c, s₁, hc, h⟩ := bind_eq_ok h
      obtain ⟨prec, s₂, hprec, h⟩ := bind_eq_ok h
      obtain ⟨rfl, rfl⟩ := pure_eq_ok h
      obtain ⟨hascii, y, s₃, rfl, hy, rfl⟩ := operatorChar_ok hc
      rcases precedence_ok hprec with ⟨rfl, rfl⟩ | ⟨value, hlow, hhigh, rfl, hspells⟩
      · exact ⟨_, .binary hascii, x, _, rfl, hx, y, _, rfl, hy, rfl⟩
      · exact ⟨_, .binaryWith hascii hlow hhigh, x, _, rfl, hx, y, _, rfl, hy, hspells⟩
  | _ =>
      simp only [hcur] at h
      cases h

theorem operatorChar_cons {x : Lexeme} {c : Char} (what : String) (hx : x.tok = .chr c)
    (hc : isAscii c = true) : parseOperatorChar what (x :: s) = .ok c s := by
  unfold parseOperatorChar
  rw [peek_bind]
  simp only [current, hx, if_pos hc]
  rfl

theorem head_complete {ws : List Word} {r : String × PrototypeKind × Nat} (h : HeadWords ws r)
    (hs : Spells ws s t) (ht : current t = .chr '(') : parsePrototypeHead s = .ok r t := by
  unfold parsePrototypeHead
  cases h with
  | identifier name =>
      obtain ⟨x, s', rfl, ⟨hx, rfl⟩, rfl⟩ := hs
      rw [peek_bind]
      simp only [current, hx]
      rfl
  | unary hc =>
      obtain ⟨x, s', rfl, hx, y, s₁, rfl, hy, rfl⟩ := hs
      have hx : x.tok = .unary := hx
      rw [peek_bind]
      simp only [current, hx, next_bind, List.tail_cons]
      rw [bind_ok (operatorChar_cons _ hy hc)]
      rfl
  | binary hc =>
      obtain ⟨x, s', rfl, hx, y, s₁, rfl, hy, rfl⟩ := hs
      have hx : x.tok = .binary := hx
      have hprec : parsePrecedence s₁ = .ok 30 s₁ := by
        unfold parsePrecedence
        rw [peek_bind, ht, if_neg (by simp)]
        rfl
      rw [peek_bind]
      simp only [current, hx, next_bind, List.tail_cons]
      rw [bind_ok (operatorChar_cons _ hy hc), bind_ok hprec]
      rfl
  | @binaryWith c value hc hlow hhigh =>
      obtain ⟨x, s', rfl, hx, y, s₁, rfl, hy, z, s₂, rfl, ⟨hz, rfl⟩, rfl⟩ := hs
      have hx : x.tok = .binary := hx
      have hprec : parsePrecedence (z :: s₂) = .ok z.number.truncate s₂ := by
        unfold parsePrecedence
        rw [peek_bind, current, if_pos hz,
          bind_ok (show getNumber (z :: s₂) = .ok z.number (z :: s₂) from rfl), hlow, hhigh]
        rfl
      rw [peek_bind]
      simp only [current, hx, next_bind, List.tail_cons]
      rw [bind_ok (operatorChar_cons _ hy hc), bind_ok hprec]
      rfl

/-! ## The parameters -/

/-- The loop on a name: what follows it decides whether it goes on. -/
theorem parseArgNames_name {x y : Lexeme} (hy : y.tok = .identifier) :
    parseArgNames (n + 1) (x :: y :: s) =
      (if current s = .chr ')' then pure [y.identifier]
        else check (.chr ',') "Expected ')' or ',' in argument list" >>= fun _ =>
          parseArgNames n >>= fun names => pure (y.identifier :: names)) s := by
  rw [parseArgNames, next_bind, List.tail_cons, peek_bind, current, if_pos hy]
  rfl

theorem parseArgNames_other {x : Lexeme} (hs : current s ≠ .identifier) :
    parseArgNames (n + 1) (x :: s) = .ok [] s := by
  rw [parseArgNames, next_bind, List.tail_cons, peek_bind, if_neg hs]
  rfl

theorem parseArgNames_comma {x y z : Lexeme} (hy : y.tok = .identifier) (hz : z.tok = .chr ',')
    (h : parseArgNames n (z :: s) = .ok names t) :
    parseArgNames (n + 1) (x :: y :: z :: s) = .ok (y.identifier :: names) t := by
  have hcur : current (z :: s) ≠ .chr ')' := by simp [current, hz]
  have hcheck : check (.chr ',') "Expected ')' or ',' in argument list" (z :: s) =
      .ok () (z :: s) := by
    show (if z.tok = .chr ',' then pure () else fail _ : ParseM Unit) _ = _
    rw [if_pos hz]
    rfl
  rw [parseArgNames_name hy, if_neg hcur, bind_ok hcheck, bind_ok h]
  rfl

theorem parseArgNames_nameWords {x : Lexeme} (hs : Spells (nameWords names) s t)
    (ht : current t = .chr ')') (hn : names.length < n) :
    parseArgNames n (x :: s) = .ok names t := by
  induction names generalizing n x s with
  | nil =>
      obtain ⟨n, rfl⟩ : ∃ k, n = k + 1 := ⟨n - 1, by omega⟩
      obtain rfl : s = t := hs
      exact parseArgNames_other (by simp [ht])
  | cons name names ih =>
      obtain ⟨n, rfl⟩ : ∃ k, n = k + 1 := ⟨n - 1, by omega⟩
      cases names with
      | nil =>
          obtain ⟨y, s', rfl, ⟨hy, rfl⟩, rfl⟩ := hs
          rw [parseArgNames_name hy, if_pos ht]
          rfl
      | cons next names =>
          obtain ⟨y, s', rfl, ⟨hy, rfl⟩, z, s'', rfl, hz, hs⟩ := hs
          exact parseArgNames_comma hy hz (ih hs (Nat.lt_of_succ_lt_succ hn))

theorem parseArgNames_commaWords {x : Lexeme} (hs : Spells (commaWords names) s t)
    (ht : current t = .chr ')') (hn : names.length < n) :
    parseArgNames n (x :: s) = .ok names t := by
  induction names generalizing n x s with
  | nil =>
      obtain ⟨n, rfl⟩ : ∃ k, n = k + 1 := ⟨n - 1, by omega⟩
      obtain rfl : s = t := hs
      exact parseArgNames_other (by simp [ht])
  | cons name names ih =>
      obtain ⟨n, rfl⟩ : ∃ k, n = k + 1 := ⟨n - 1, by omega⟩
      obtain ⟨y, s', rfl, ⟨hy, rfl⟩, z, s'', rfl, hz, hs⟩ := hs
      exact parseArgNames_comma hy hz (ih hs (Nat.lt_of_succ_lt_succ hn))

/-- What the loop accepts: the commas are between the names, or behind each. -/
theorem parseArgNames_sound (h : parseArgNames n s = .ok names t) :
    Spells (nameWords names) s.tail t ∨ (names ≠ [] ∧ Spells (commaWords names) s.tail t) := by
  induction n generalizing s names with
  | zero =>
      rw [parseArgNames] at h
      cases h
  | succ n ih =>
      rw [parseArgNames, next_bind, peek_bind] at h
      by_cases hcur : current s.tail = .identifier
      · obtain ⟨y, s', hs, hy⟩ := exists_cons_of_current hcur (by simp)
        rw [if_pos hcur, hs] at h
        obtain ⟨name, s₁, hname, h⟩ := bind_eq_ok h
        cases hname
        rw [next_bind, peek_bind, List.tail_cons] at h
        rw [hs]
        by_cases hclose : current s' = .chr ')'
        · rw [if_pos hclose] at h
          obtain ⟨rfl, rfl⟩ := pure_eq_ok h
          exact .inl ⟨y, _, rfl, ⟨hy, rfl⟩, rfl⟩
        · rw [if_neg hclose] at h
          obtain ⟨u, s₂, hc, h⟩ := bind_eq_ok h
          obtain ⟨hcomma, rfl⟩ := check_ok hc
          obtain ⟨names, s₃, hrest, h⟩ := bind_eq_ok h
          obtain ⟨rfl, rfl⟩ := pure_eq_ok h
          obtain ⟨z, s'', rfl, hz⟩ := exists_cons_of_current hcomma (by simp)
          have hwords : ∀ ws, Spells ws s'' t →
              Spells (.ident y.identifier :: .tok (.chr ',') :: ws) (y :: z :: s'') t :=
            fun ws hws => ⟨y, _, rfl, ⟨hy, rfl⟩, z, _, rfl, hz, hws⟩
          rcases ih hrest with hws | ⟨hne, hws⟩
          · cases names with
            | nil => exact .inr ⟨by simp, hwords [] hws⟩
            | cons next names => exact .inl (hwords _ hws)
          · exact .inr ⟨by simp, hwords _ hws⟩
      · rw [if_neg hcur] at h
        obtain ⟨rfl, rfl⟩ := pure_eq_ok h
        exact .inl rfl

/-! ## Prototypes -/

theorem parsePrototypeOn_sound (h : parsePrototypeOn n s = .ok p rest) :
    ∃ ws, (PrototypeWords nameWords ws p ∨ (PrototypeWords commaWords ws p ∧ p.args ≠ [])) ∧
      Spells ws s rest := by
  obtain ⟨⟨name, kind, prec⟩, s₁, hread, h₁⟩ := bind_eq_ok h
  obtain ⟨u, s₂, hopen, h₂⟩ := bind_eq_ok h₁
  obtain ⟨args, s₃, hargs, h₃⟩ := bind_eq_ok h₂
  obtain ⟨u', s₄, hclose, h₄⟩ := bind_eq_ok h₃
  obtain ⟨ws, hhead, hws⟩ := head_sound hread
  obtain ⟨hcur, rfl⟩ := check_ok hopen
  obtain ⟨x, s', rfl, hx⟩ := exists_cons_of_current hcur (by simp)
  have hclose := expect_ok (by simp) hclose
  by_cases hbad : kind ≠ .identifier ∧ args.length ≠ kind.operands
  · rw [if_pos hbad] at h₄
    cases h₄
  · rw [if_neg hbad] at h₄
    obtain ⟨rfl, rfl⟩ := pure_eq_ok h₄
    have hcount : kind ≠ .identifier → args.length = kind.operands := fun hk =>
      Decidable.not_not.mp fun hne => hbad ⟨hk, hne⟩
    have hspells : ∀ list : List String → List Word, Spells (list args) s' s₃ →
        Spells (ws ++ .tok (.chr '(') :: (list args ++ [.tok (.chr ')')])) s rest :=
      fun list hlist => spells_append.mpr
        ⟨x :: s', hws, x, s', rfl, hx, spells_append.mpr ⟨s₃, hlist, hclose⟩⟩
    rcases parseArgNames_sound hargs with hlist | ⟨hne, hlist⟩
    · exact ⟨_, .inl (.intro args hhead hcount), hspells nameWords hlist⟩
    · exact ⟨_, .inr ⟨.intro args hhead hcount, hne⟩, hspells commaWords hlist⟩

/-- A way of writing the parameters that the loop reads back. -/
structure Readable (list : List String → List Word) : Prop where
  length : ∀ names, names.length ≤ (list names).length
  reads : ∀ {n names s t} {x : Lexeme}, Spells (list names) s t → current t = .chr ')' →
    names.length < n → parseArgNames n (x :: s) = .ok names t

theorem readable_nameWords : Readable nameWords where
  length := fun names => by
    induction names with
    | nil => exact Nat.le_refl 0
    | cons name names ih =>
        cases names with
        | nil => exact Nat.le_refl 1
        | cons next names =>
            have hwords : (nameWords (name :: next :: names)).length =
                (nameWords (next :: names)).length + 1 + 1 := rfl
            rw [hwords, List.length_cons]
            omega
  reads := parseArgNames_nameWords

theorem readable_commaWords : Readable commaWords where
  length := fun names => by
    induction names with
    | nil => exact Nat.le_refl 0
    | cons name names ih =>
        rw [commaWords, List.length_cons, List.length_cons, List.length_cons]
        omega
  reads := parseArgNames_commaWords

theorem parsePrototype_of_words {list : List String → List Word} {ws : List Word}
    (hlist : Readable list) (h : PrototypeWords list ws p) (hs : Spells ws s rest) :
    parsePrototype s = .ok p rest := by
  have hlen := length_spells hs
  show parsePrototypeOn (fuelFor s) s = _
  cases h with
  | @intro head name kind prec args hhead hcount =>
      obtain ⟨x, s₁, hws, hx, hrest⟩ := spells_split hs
      obtain ⟨y, s₂, hargs, hy, rfl⟩ := spells_split hrest
      have hopen : current (x :: s₁) = .chr '(' := hx
      have hcheck : check (.chr '(') "Expected '(' in prototype" (x :: s₁) =
          .ok () (x :: s₁) := by
        show (if x.tok = .chr '(' then pure () else fail _ : ParseM Unit) _ = _
        rw [if_pos hx]
        rfl
      have hfuel : args.length < fuelFor s := by
        have := hlist.length args
        simp only [List.length_append, List.length_cons] at hlen
        unfold fuelFor
        omega
      have hclose : expect (.chr ')') "Expected ')' in prototype" (y :: s₂) = .ok () s₂ := by
        show (check (.chr ')') _ >>= fun _ => getNextToken) (y :: s₂) = _
        have hc : check (.chr ')') "Expected ')' in prototype" (y :: s₂) = .ok () (y :: s₂) := by
          show (if y.tok = .chr ')' then pure () else fail _ : ParseM Unit) _ = _
          rw [if_pos hy]
          rfl
        rw [bind_ok hc]
        rfl
      have hgood : ¬ (kind ≠ .identifier ∧ args.length ≠ kind.operands) :=
        fun hbad => hbad.2 (hcount hbad.1)
      unfold parsePrototypeOn
      rw [bind_ok (head_complete hhead hws hopen)]
      show (check _ _ >>= _) (x :: s₁) = _
      rw [bind_ok hcheck, bind_ok (hlist.reads hargs hy hfuel), bind_ok hclose, if_neg hgood]
      rfl

/-- What the parser accepts. -/
theorem parsePrototype_ok_iff : parsePrototype s = .ok p rest ↔
    ∃ ws, (PrototypeWords nameWords ws p ∨ (PrototypeWords commaWords ws p ∧ p.args ≠ [])) ∧
      Spells ws s rest := by
  constructor
  · exact parsePrototypeOn_sound
  · rintro ⟨ws, hws | ⟨hws, -⟩, hs⟩
    · exact parsePrototype_of_words readable_nameWords hws hs
    · exact parsePrototype_of_words readable_commaWords hws hs

/-! ## The comma before the parenthesis -/

/-- The token in front of the last. -/
theorem penultimate {ws : List Word} {list : List String → List Word}
    (h : PrototypeWords list ws p) :
    (ws.map Word.token).dropLast.getLast? =
      (.chr '(' :: (list p.args).map Word.token).getLast? := by
  cases h with
  | @intro head name kind prec args _ _ =>
      have hws : (head ++ Word.tok (.chr '(') :: (list args ++ [.tok (.chr ')')])).map Word.token =
          (head.map Word.token ++ .chr '(' :: (list args).map Word.token) ++ [.chr ')'] := by
        simp [Word.token]
      rw [hws, List.dropLast_concat]
      rw [List.getLast?_append, List.getLast?_cons]
      rfl

theorem getLast_nameWords (front : Token) (name : String) (names : List String) :
    (front :: (nameWords (name :: names)).map Word.token).getLast? = some .identifier := by
  induction names generalizing front name with
  | nil => rfl
  | cons next names ih => exact ih (.chr ',') next

theorem getLast_commaWords (front : Token) (name : String) (names : List String) :
    (front :: (commaWords (name :: names)).map Word.token).getLast? = some (.chr ',') := by
  induction names generalizing front name with
  | nil => rfl
  | cons next names ih => exact ih (.chr ',') next

/-- The stream starts with a prototype that has a comma behind every parameter. -/
def TrailingComma (s : List Lexeme) : Prop :=
  ∃ ws p rest, PrototypeWords commaWords ws p ∧ p.args ≠ [] ∧ Spells ws s rest

/-- A comma behind every parameter is accepted where the grammar has none. -/
theorem TrailingComma.accepted (h : TrailingComma s) : ¬ ∀ p rest,
    parsePrototype s = .ok p rest ↔ ∃ ws, PrototypeWords nameWords ws p ∧ Spells ws s rest := by
  obtain ⟨ws, p, rest, hws, hne, hs⟩ := h
  intro hiff
  obtain ⟨ws', hws', hs'⟩ := (hiff p rest).mp
    (parsePrototype_ok_iff.mpr ⟨ws, .inr ⟨hws, hne⟩, hs⟩)
  -- the two would have the same tokens, and differ in the last but one
  have htokens : ws'.map Word.token = ws.map Word.token :=
    List.append_cancel_right ((tokens_of_spells hs').symm.trans (tokens_of_spells hs))
  have hlast := penultimate hws'
  rw [htokens, penultimate hws] at hlast
  cases hargs : p.args with
  | nil => exact hne hargs
  | cons name names =>
      rw [hargs, getLast_nameWords, getLast_commaWords] at hlast
      cases hlast

/-- Exactly the prototypes of the grammar are accepted, unless the stream
starts with one that has a comma in front of the closing parenthesis. -/
theorem parsePrototype_grammar_iff (s : List Lexeme) :
    (∀ p rest, parsePrototype s = .ok p rest ↔
      ∃ ws, PrototypeWords nameWords ws p ∧ Spells ws s rest) ↔ ¬ TrailingComma s := by
  refine ⟨fun h htrailing => htrailing.accepted h, fun hnot p rest => ?_⟩
  rw [parsePrototype_ok_iff]
  constructor
  · rintro ⟨ws, hws | ⟨hws, hne⟩, hs⟩
    · exact ⟨ws, hws, hs⟩
    · exact absurd ⟨ws, p, rest, hws, hne, hs⟩ hnot
  · rintro ⟨ws, hws, hs⟩
    exact ⟨ws, .inl hws, hs⟩

end

/-- `f(a,)` is accepted. -/
theorem parsePrototype_trailing :
    ¬ ∀ (s : List Lexeme) (p : Prototype) (rest : List Lexeme), parsePrototype s = .ok p rest ↔
      ∃ ws, PrototypeWords nameWords ws p ∧ Spells ws s rest := by
  intro h
  refine TrailingComma.accepted ?_ (h [⟨.identifier, "f", .zero⟩, ⟨.chr '(', "f", .zero⟩,
    ⟨.identifier, "a", .zero⟩, ⟨.chr ',', "a", .zero⟩, ⟨.chr ')', "a", .zero⟩])
  exact ⟨_, _, [], .intro ["a"] (.identifier "f") nofun, by simp, _, _, rfl, ⟨rfl, rfl⟩, _, _,
    rfl, rfl, _, _, rfl, ⟨rfl, rfl⟩, _, _, rfl, rfl, _, _, rfl, rfl, rfl⟩

end LlvmPasses.Kaleido
