import LlvmPasses.Lib.Double

/-!
# The lexer

`Lexer::getTok` over a finite byte stream. The state is the class's own: what
`in_` still holds, the one character of lookahead `lastChar_` (`none` is
`EOF`), and the two registers a token's text and value are left in. A loop
that reads while a test holds is `readWhile`; a token that is a plain
character carries that character's code.

`strtod` is the C library's; the lexer passes it the text it collected and
stores whatever comes back.
-/

namespace LlvmPasses.Kaleido

inductive Token where
  | eof
  | def_
  | extern_
  | identifier
  | number
  | if_
  | then_
  | else_
  | for_
  | in_
  | binary
  | unary
  | var
  | chr (c : Char)
  deriving DecidableEq, Repr

/-! The character classes of `<cctype>` in the C locale. -/

def isSpace (b : UInt8) : Bool := b == 32 || (9 ≤ b && b ≤ 13)

def isDigit (b : UInt8) : Bool := 48 ≤ b && b ≤ 57

def isAlpha (b : UInt8) : Bool := (65 ≤ b && b ≤ 90) || (97 ≤ b && b ≤ 122)

def isAlnum (b : UInt8) : Bool := isAlpha b || isDigit b

/-- The characters of a number's text: digits and dots, in any arrangement. -/
def isNumeric (b : UInt8) : Bool := isDigit b || b == 46

/-- A comment runs to a newline or a carriage return. -/
def inComment (b : UInt8) : Bool := b != 10 && b != 13

def byteChar (b : UInt8) : Char := Char.ofNat b.toNat

def byteText (bs : List UInt8) : String := String.ofList (bs.map byteChar)

/-- The comparisons of a collected name with the keywords, in their order. -/
def keywordOrIdentifier (s : String) : Token :=
  if s = "def" then .def_
  else if s = "extern" then .extern_
  else if s = "if" then .if_
  else if s = "then" then .then_
  else if s = "else" then .else_
  else if s = "for" then .for_
  else if s = "in" then .in_
  else if s = "binary" then .binary
  else if s = "unary" then .unary
  else if s = "var" then .var
  else .identifier

structure Lexer where
  input : List UInt8
  lastChar : Option UInt8
  identifier : String
  numberValue : Double
  deriving Repr

namespace Lexer

/-- The constructor: a blank in the lookahead, nothing read yet. -/
def init (input : List UInt8) : Lexer := ⟨input, some 32, "", Double.zero⟩

/-- `lastChar_ = in_.get()`. -/
def get (l : Lexer) : Lexer :=
  { l with input := l.input.tail, lastChar := l.input.head? }

/-- Read characters into `lastChar_` for as long as they pass the test: the
run that passed, and the lexer looking at the first one that did not. -/
def readWhile (p : UInt8 → Bool) (l : Lexer) : List UInt8 × Lexer :=
  let rest := l.input.dropWhile p
  (l.input.takeWhile p, { l with input := rest.tail, lastChar := rest.head? })

/-- `while (isspace(lastChar_)) lastChar_ = in_.get()`. -/
def skipSpace (l : Lexer) : Lexer :=
  match l.lastChar with
  | none => l
  | some b => if isSpace b then (l.readWhile isSpace).2 else l

theorem readWhile_input_le (p : UInt8 → Bool) (l : Lexer) :
    (l.readWhile p).2.input.length ≤ l.input.length := by
  have h := (List.dropWhile_suffix p (l := l.input)).length_le
  simp only [readWhile, List.length_tail]
  omega

theorem readWhile_input_lt {p : UInt8 → Bool} {l : Lexer}
    (h : (l.readWhile p).2.lastChar ≠ none) :
    (l.readWhile p).2.input.length < l.input.length := by
  have hle := (List.dropWhile_suffix p (l := l.input)).length_le
  simp only [readWhile, List.length_tail] at h ⊢
  cases hr : l.input.dropWhile p with
  | nil => rw [hr] at h; exact absurd rfl h
  | cons b bs => rw [hr, List.length_cons] at hle; simp only [List.length_cons]; omega

theorem skipSpace_input_le (l : Lexer) : l.skipSpace.input.length ≤ l.input.length := by
  unfold skipSpace
  split
  · exact Nat.le_refl _
  · split
    · exact readWhile_input_le _ l
    · exact Nat.le_refl _

/-- `Lexer::getTok`. The recursive call after a comment is made on strictly
less input, since the character that ended the comment was read from it. -/
def getTok (strtod : String → Double) (l : Lexer) : Token × Lexer :=
  let l₁ := l.skipSpace
  match l₁.lastChar with
  | none => (.eof, l₁)
  | some c =>
      if isAlpha c then
        let (run, l₂) := l₁.readWhile isAlnum
        let name := byteText (c :: run)
        (keywordOrIdentifier name, { l₂ with identifier := name })
      else if isNumeric c then
        let (run, l₂) := l₁.readWhile isNumeric
        (.number, { l₂ with numberValue := strtod (byteText (c :: run)) })
      else if c = 35 then
        if (l₁.readWhile inComment).2.lastChar = none then
          (.eof, (l₁.readWhile inComment).2)
        else
          getTok strtod (l₁.readWhile inComment).2
      else
        (.chr (byteChar c), l₁.get)
termination_by l.input.length
decreasing_by
  rename_i hne
  exact Nat.lt_of_lt_of_le (readWhile_input_lt hne) (skipSpace_input_le l)

/-! ## One equation for each branch -/

section Branches

variable {strtod : String → Double} {l : Lexer} {c : UInt8}

theorem getTok_end (h : l.skipSpace.lastChar = none) :
    l.getTok strtod = (.eof, l.skipSpace) := by
  rw [getTok, h]

theorem getTok_alpha (h : l.skipSpace.lastChar = some c) (ha : isAlpha c = true) :
    l.getTok strtod =
      (keywordOrIdentifier (byteText (c :: (l.skipSpace.readWhile isAlnum).1)),
        { (l.skipSpace.readWhile isAlnum).2 with
          identifier := byteText (c :: (l.skipSpace.readWhile isAlnum).1) }) := by
  rw [getTok]
  simp only [h, ha, if_true]

theorem getTok_numeric (h : l.skipSpace.lastChar = some c) (ha : isAlpha c = false)
    (hn : isNumeric c = true) :
    l.getTok strtod =
      (.number,
        { (l.skipSpace.readWhile isNumeric).2 with
          numberValue := strtod (byteText (c :: (l.skipSpace.readWhile isNumeric).1)) }) := by
  rw [getTok]
  simp only [h, ha, hn, if_true, Bool.false_eq_true, if_false]

theorem getTok_comment_end (h : l.skipSpace.lastChar = some 35)
    (he : (l.skipSpace.readWhile inComment).2.lastChar = none) :
    l.getTok strtod = (.eof, (l.skipSpace.readWhile inComment).2) := by
  rw [getTok]
  simp only [h, he, if_true, show isAlpha 35 = false from rfl,
    show isNumeric 35 = false from rfl, Bool.false_eq_true, if_false]

theorem getTok_comment (h : l.skipSpace.lastChar = some 35)
    (he : (l.skipSpace.readWhile inComment).2.lastChar ≠ none) :
    l.getTok strtod = (l.skipSpace.readWhile inComment).2.getTok strtod := by
  rw [getTok]
  simp only [h, he, if_true, show isAlpha 35 = false from rfl,
    show isNumeric 35 = false from rfl, Bool.false_eq_true, if_false]

theorem getTok_chr (h : l.skipSpace.lastChar = some c) (ha : isAlpha c = false)
    (hn : isNumeric c = false) (hc : c ≠ 35) :
    l.getTok strtod = (.chr (byteChar c), l.skipSpace.get) := by
  rw [getTok]
  simp only [h, ha, hn, hc, Bool.false_eq_true, if_false]

end Branches

/-! ## Progress

The measure of a lexer is what it can still hand out: the unread input and
the lookahead. A call either pays at least one character or answers `Eof`,
and once it has answered `Eof` the lookahead stays at the end of input. -/

/-- Characters still to be handed out. -/
def remaining (l : Lexer) : Nat := l.input.length + l.lastChar.toList.length

theorem remaining_readWhile (p : UInt8 → Bool) (l : Lexer) :
    (l.readWhile p).2.remaining ≤ l.input.length := by
  have hle := (List.dropWhile_suffix p (l := l.input)).length_le
  simp only [readWhile, remaining]
  cases hr : l.input.dropWhile p with
  | nil => simp
  | cons b bs =>
      rw [hr, List.length_cons] at hle
      simp only [List.tail_cons, List.head?_cons, Option.toList_some, List.length_cons,
        List.length_nil]
      omega

theorem remaining_get (l : Lexer) : l.get.remaining = l.input.length := by
  unfold get remaining
  cases l.input <;> simp

theorem remaining_skipSpace (l : Lexer) : l.skipSpace.remaining ≤ l.remaining := by
  unfold skipSpace
  split
  · exact Nat.le_refl _
  · split
    · have h := remaining_readWhile isSpace l
      unfold remaining at h ⊢
      omega
    · exact Nat.le_refl _

theorem remaining_of_lastChar {l : Lexer} {c : UInt8} (h : l.lastChar = some c) :
    l.remaining = l.input.length + 1 := by
  simp [remaining, h]

/-- Every call that does not answer `Eof` reads at least one character. -/
theorem getTok_remaining_lt {strtod : String → Double} {l : Lexer}
    (h : (l.getTok strtod).1 ≠ .eof) : (l.getTok strtod).2.remaining < l.remaining := by
  have hspace := remaining_skipSpace l
  induction l using getTok.induct with
  | case1 l l₁ hc =>
      rw [getTok_end hc] at h
      exact absurd rfl h
  | case2 l l₁ c hc ha run l₂ hr =>
      rw [getTok_alpha hc ha]
      have hle := remaining_readWhile isAlnum l.skipSpace
      have hone : l.skipSpace.remaining = l.skipSpace.input.length + 1 :=
        remaining_of_lastChar hc
      show (readWhile isAlnum l.skipSpace).2.remaining < l.remaining
      omega
  | case3 l l₁ c hc ha hn run l₂ hr =>
      rw [getTok_numeric hc (by simpa using ha) hn]
      have hle := remaining_readWhile isNumeric l.skipSpace
      have hone : l.skipSpace.remaining = l.skipSpace.input.length + 1 :=
        remaining_of_lastChar hc
      show (readWhile isNumeric l.skipSpace).2.remaining < l.remaining
      omega
  | case4 l l₁ hend hc ha hn =>
      rw [getTok_comment_end hc hend] at h
      exact absurd rfl h
  | case5 l l₁ hend hc ha hn ih =>
      -- a comment: the recursive call starts with less to hand out
      rw [getTok_comment hc hend] at h ⊢
      have hrec : ((l.skipSpace.readWhile inComment).2.getTok strtod).2.remaining <
          (l.skipSpace.readWhile inComment).2.remaining :=
        ih h (remaining_skipSpace _)
      have hle := remaining_readWhile inComment l.skipSpace
      have hone : l.skipSpace.remaining = l.skipSpace.input.length + 1 :=
        remaining_of_lastChar hc
      omega
  | case6 l l₁ c hc ha hn hne =>
      rw [getTok_chr hc (by simpa using ha) (by simpa using hn) hne]
      have hle := remaining_get l.skipSpace
      have hone : l.skipSpace.remaining = l.skipSpace.input.length + 1 :=
        remaining_of_lastChar hc
      show l.skipSpace.get.remaining < l.remaining
      omega

/-- From the end of input every further call answers `Eof` again. -/
theorem getTok_of_end {strtod : String → Double} {l : Lexer} (h : l.lastChar = none) :
    l.getTok strtod = (.eof, l) := by
  have hs : l.skipSpace = l := by
    unfold skipSpace
    rw [h]
  rw [getTok_end (by rw [hs]; exact h), hs]

end Lexer

/-! ## The tokens of an input -/

/-- What a caller sees right after one `getTok`: the token, and the contents
of the two registers. -/
structure Lexeme where
  tok : Token
  identifier : String
  number : Double
  deriving DecidableEq, Repr

/-- What successive `getTok` calls deliver, up to the first `Eof`. -/
def Lexer.tokens (strtod : String → Double) (l : Lexer) : List Lexeme :=
  if (l.getTok strtod).1 = .eof then []
  else
    ⟨(l.getTok strtod).1, (l.getTok strtod).2.identifier,
      (l.getTok strtod).2.numberValue⟩ :: tokens strtod (l.getTok strtod).2
termination_by l.remaining
decreasing_by
  rename_i hne
  exact getTok_remaining_lt hne

namespace Lexer

/-- No more tokens than characters. -/
theorem length_tokens_le (strtod : String → Double) (l : Lexer) :
    (l.tokens strtod).length ≤ l.remaining := by
  induction l using tokens.induct strtod with
  | case1 l he => rw [tokens, if_pos he]; exact Nat.zero_le _
  | case2 l he ih =>
      rw [tokens, if_neg he, List.length_cons]
      have := getTok_remaining_lt he
      omega

end Lexer

end LlvmPasses.Kaleido
