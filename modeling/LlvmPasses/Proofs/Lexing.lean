import LlvmPasses.Kaleido.Lexer
import Mathlib.Data.List.TakeWhile

/-!
# Lexing undoes rendering

A lexer is what is ahead of it, the character of lookahead first, and its two
registers. Seen this way each of its loops drops a prefix of what is ahead, and
a call does one of three things: it skips what separates tokens, it takes the
longest word or run that starts there, or it takes one character.

So a text in which white space or a comment stands between any two tokens is
read back token for token. A run of digits and dots is taken whole whether or
not it is a numeral, and its value is whatever `strtod` makes of it.

`lexing_undoes_rendering` is about every list of tokens and every way of
separating them. The induction is on the list (`reads_rendering`), and its step
is one call of `getTok` in front of a token and of what separates it from the
next (`getTok_item`). White space and comments are skipped by an induction of
their own (`getTok_blank`).

`number_of_run_iff` is about any input and any moment at which a run of digits
and dots is ahead. `strtod` is a parameter, and what is asked of it is what it
is documented to do: to convert the longest prefix that is a numeral, and to
return zero if there is none. So a run is taken for what it says exactly if it
is a numeral itself.
-/

namespace LlvmPasses.Kaleido

/-! ## Numerals -/

/-- A decimal numeral: digits, at least one, and at most one dot. -/
def isNumeral (text : List UInt8) : Bool :=
  text.all isNumeric && text.any isDigit && text.count 46 ≤ 1

def digitsValue (text : List UInt8) : Nat :=
  text.foldl (fun n b => if isDigit b then 10 * n + (b.toNat - 48) else n) 0

/-- The digits behind the dot. -/
def fractionDigits (text : List UInt8) : List UInt8 := (text.dropWhile (· ≠ 46)).tail

/-- The number a decimal numeral stands for. -/
def numeralValue (text : List UInt8) : Rat :=
  digitsValue text / 10 ^ (fractionDigits text).length

example : numeralValue [49, 50, 46, 53] = 25 / 2 := by decide +kernel

/-- The longest prefix that is a numeral. -/
def numeralPrefix (text : List UInt8) : Option (List UInt8) :=
  ((List.range (text.length + 1)).reverse.map text.take).find? isNumeral

/-- What `strtod` converts: the longest numeral in front, or nothing. -/
def prefixValue (text : List UInt8) : Rat :=
  match numeralPrefix text with
  | some numeral => numeralValue numeral
  | none => 0

theorem prefixValue_of_isNumeral {text : List UInt8} (h : isNumeral text = true) :
    prefixValue text = numeralValue text := by
  have hfind : numeralPrefix text = some text := by
    unfold numeralPrefix
    rw [List.range_succ, List.reverse_append, List.reverse_singleton, List.singleton_append,
      List.map_cons, List.take_length, List.find?_cons_of_pos h]
  simp only [prefixValue, hfind]

namespace Lexer

/-! ## Lexers by what is ahead -/

/-- The lexer with these characters ahead, and these registers. -/
def facing (ahead : List UInt8) (identifier : String) (value : Double) : Lexer :=
  ⟨ahead.tail, ahead.head?, identifier, value⟩

/-- The lexer after a number of calls. -/
def after (strtod : String → Double) (l : Lexer) : Nat → Lexer
  | 0 => l
  | n + 1 => after strtod (l.getTok strtod).2 n

section

variable {strtod : String → Double} {c : UInt8} {bs : List UInt8} {name : String} {value : Double}

theorem readWhile_facing (p : UInt8 → Bool) :
    (facing (c :: bs) name value).readWhile p =
      (bs.takeWhile p, facing (bs.dropWhile p) name value) := rfl

theorem skipSpace_facing :
    (facing bs name value).skipSpace = facing (bs.dropWhile isSpace) name value := by
  cases bs with
  | nil => rfl
  | cons b bs =>
      show (if isSpace b = true then ((facing (b :: bs) name value).readWhile isSpace).2
        else facing (b :: bs) name value) = _
      by_cases hb : isSpace b = true
      · rw [if_pos hb, readWhile_facing, List.dropWhile_cons_of_pos hb]
      · rw [if_neg hb, List.dropWhile_cons_of_neg hb]

theorem skipSpace_facing_of_not (hc : isSpace c = false) :
    (facing (c :: bs) name value).skipSpace = facing (c :: bs) name value := by
  rw [skipSpace_facing, List.dropWhile_cons_of_neg (by simp [hc])]

/-- Lexers that agree once white space is skipped answer alike. -/
theorem getTok_congr {l l' : Lexer} (h : l.skipSpace = l'.skipSpace) :
    l.getTok strtod = l'.getTok strtod := by
  rw [getTok, h]
  conv => rhs; rw [getTok]

/-! ### What starts with a character that is not white space -/

theorem getTok_word (hc : isAlpha c = true) (hs : isSpace c = false) :
    (facing (c :: bs) name value).getTok strtod =
      (keywordOrIdentifier (byteText (c :: bs.takeWhile isAlnum)),
        facing (bs.dropWhile isAlnum) (byteText (c :: bs.takeWhile isAlnum)) value) := by
  have hskip : (facing (c :: bs) name value).skipSpace = _ := skipSpace_facing_of_not hs
  rw [getTok_alpha (c := c) (by rw [hskip]; rfl) hc, hskip]
  rfl

theorem getTok_run (hn : isNumeric c = true) (hc : isAlpha c = false) (hs : isSpace c = false) :
    (facing (c :: bs) name value).getTok strtod =
      (.number, facing (bs.dropWhile isNumeric) name
        (strtod (byteText (c :: bs.takeWhile isNumeric)))) := by
  have hskip : (facing (c :: bs) name value).skipSpace = _ := skipSpace_facing_of_not hs
  rw [getTok_numeric (c := c) (by rw [hskip]; rfl) hc hn, hskip]
  rfl

theorem getTok_single (hs : isSpace c = false) (hc : isAlpha c = false)
    (hn : isNumeric c = false) (hhash : c ≠ 35) :
    (facing (c :: bs) name value).getTok strtod = (.chr (byteChar c), facing bs name value) := by
  have hskip : (facing (c :: bs) name value).skipSpace = _ := skipSpace_facing_of_not hs
  rw [getTok_chr (c := c) (by rw [hskip]; rfl) hc hn hhash, hskip]
  rfl

/-! ### What separates tokens -/

theorem getTok_space (hs : isSpace c = true) :
    (facing (c :: bs) name value).getTok strtod = (facing bs name value).getTok strtod := by
  refine getTok_congr ?_
  rw [skipSpace_facing, skipSpace_facing, List.dropWhile_cons_of_pos hs]

theorem isSpace_of_not_inComment {b : UInt8} (h : inComment b = false) : isSpace b = true := by
  simp only [inComment, Bool.and_eq_false_iff, bne_eq_false_iff_eq] at h
  rcases h with rfl | rfl <;> decide

/-- A comment, its end included. -/
theorem getTok_hash {comment : List UInt8} (hbody : ∀ b ∈ comment, inComment b = true)
    (hc : inComment c = false) :
    (facing (35 :: (comment ++ c :: bs)) name value).getTok strtod =
      (facing bs name value).getTok strtod := by
  have hskip : (facing (35 :: (comment ++ c :: bs)) name value).skipSpace = _ :=
    skipSpace_facing_of_not (by decide)
  have hdrop : (comment ++ c :: bs).dropWhile inComment = c :: bs := by
    rw [List.dropWhile_append_of_pos hbody, List.dropWhile_cons_of_neg (by simp [hc])]
  have hread : ((facing (35 :: (comment ++ c :: bs)) name value).readWhile inComment).2 =
      facing (c :: bs) name value := by
    rw [readWhile_facing, hdrop]
  rw [getTok_comment (by rw [hskip]; rfl) (by rw [hskip, hread]; exact nofun), hskip, hread]
  exact getTok_space (isSpace_of_not_inComment hc)

/-- A comment that ends with the input. -/
theorem getTok_hash_end {comment : List UInt8} (hbody : ∀ b ∈ comment, inComment b = true) :
    (facing (35 :: comment) name value).getTok strtod = (.eof, facing [] name value) := by
  have hskip : (facing (35 :: comment) name value).skipSpace = _ :=
    skipSpace_facing_of_not (by decide)
  have hdrop : comment.dropWhile inComment = [] := List.dropWhile_eq_nil_iff.mpr hbody
  have hread : ((facing (35 :: comment) name value).readWhile inComment).2 =
      facing [] name value := by
    rw [readWhile_facing, hdrop]
  rw [getTok_comment_end (by rw [hskip]; rfl) (by rw [hskip, hread]; rfl), hskip, hread]

end

end Lexer

/-! ## Renderings -/

/-- White space and comments, in any order. -/
inductive Blank : List UInt8 → Prop
  | nil : Blank []
  | space {b : UInt8} {bs : List UInt8} (hb : isSpace b = true) (h : Blank bs) : Blank (b :: bs)
  | comment {body : List UInt8} {b : UInt8} {bs : List UInt8}
      (hbody : ∀ c ∈ body, inComment c = true) (hb : inComment b = false) (h : Blank bs) :
      Blank (35 :: (body ++ b :: bs))

/-- What may follow the last token: the last comment may end with the input. -/
inductive Blank.Last : List UInt8 → Prop
  | closed {bs : List UInt8} (h : Blank bs) (hne : bs ≠ []) : Last bs
  | open_ {bs body : List UInt8} (h : Blank bs) (hbody : ∀ c ∈ body, inComment c = true) :
      Last (bs ++ 35 :: body)

def keywords : List (String × Token) :=
  [("def", .def_), ("extern", .extern_), ("if", .if_), ("then", .then_), ("else", .else_),
    ("for", .for_), ("in", .in_), ("binary", .binary), ("unary", .unary), ("var", .var)]

/-- The characters of an ASCII text. -/
def textBytes (s : String) : List UInt8 := s.toList.map fun c => UInt8.ofNat c.toNat

/-- A token to be rendered. -/
inductive Item where
  | keyword (name : String) (token : Token) (h : (name, token) ∈ keywords)
  | identifier (first : UInt8) (others : List UInt8) (hfirst : isAlpha first = true)
      (hothers : ∀ b ∈ others, isAlnum b = true)
      (hkeyword : byteText (first :: others) ∉ keywords.map Prod.fst)
  | numeral (text : List UInt8) (h : isNumeral text = true)
  | char (b : UInt8) (hascii : b < 128) (hspace : isSpace b = false) (halpha : isAlpha b = false)
      (hnumeric : isNumeric b = false) (hhash : b ≠ 35)

namespace Item

def bytes : Item → List UInt8
  | keyword name _ _ => textBytes name
  | identifier first others _ _ _ => first :: others
  | numeral text _ => text
  | char b _ _ _ _ _ => [b]

/-- A call answered the token, and left its text or its value where the parser
looks for it. `round` is how a number becomes a double. -/
def ReadBy (round : Rat → Double) : Item → Token × Lexer → Prop
  | keyword _ token _, r => r.1 = token
  | identifier first others _ _ _, r =>
      r.1 = .identifier ∧ r.2.identifier = byteText (first :: others)
  | numeral text _, r => r.1 = .number ∧ r.2.numberValue = round (numeralValue text)
  | char b _ _ _ _ _, r => r.1 = .chr (byteChar b)

end Item

/-- Tokens with something between any two of them, in front and behind. -/
inductive Renders : List Item → List UInt8 → Prop
  | nil {bs : List UInt8} (h : Blank.Last bs) : Renders [] bs
  | cons {item : Item} {items : List Item} {sep bs : List UInt8} (hsep : Blank sep)
      (hne : sep ≠ []) (h : Renders items bs) :
      Renders (item :: items) (sep ++ (item.bytes ++ bs))

/-! ## Reading one token -/

theorem not_space_of_alpha : ∀ {b : UInt8}, isAlpha b = true → isSpace b = false := by
  grind [isAlpha, isSpace, UInt8.le_iff_toNat_le]

theorem plain_of_numeric : ∀ {b : UInt8}, isNumeric b = true →
    isSpace b = false ∧ isAlpha b = false := by
  grind [isAlpha, isSpace, isNumeric, isDigit, UInt8.le_iff_toNat_le]

/-- A token ends where white space or a comment starts. -/
theorem stops_of_space : ∀ {b : UInt8}, isSpace b = true ∨ b = 35 →
    isAlnum b = false ∧ isNumeric b = false := by
  grind [isAlpha, isAlnum, isSpace, isNumeric, isDigit, UInt8.le_iff_toNat_le]

/-- What is ahead starts with white space or a comment, if there is anything. -/
def Separated (bs : List UInt8) : Prop := ∀ b ∈ bs.head?, isSpace b = true ∨ b = 35

section

variable {strtod : String → Double} {round : Rat → Double} {bs sep : List UInt8}
variable {name : String} {value : Double}

theorem Blank.separated (h : Blank sep) (hne : sep ≠ []) (bs : List UInt8) :
    Separated (sep ++ bs) := by
  intro b hb
  cases h with
  | nil => exact absurd rfl hne
  | space hspace _ => cases hb; exact .inl hspace
  | comment _ _ _ => cases hb; exact .inr rfl

theorem Blank.Last.separated (h : Blank.Last bs) : Separated bs := by
  cases h with
  | closed h hne => exact List.append_nil bs ▸ h.separated hne []
  | @open_ bs body h _ =>
      cases hbs : bs with
      | nil => intro b hb; cases hb; exact .inr rfl
      | cons c cs => exact hbs ▸ h.separated (by simp [hbs]) _

theorem Renders.separated {items : List Item} (h : Renders items bs) : Separated bs := by
  cases h with
  | nil h => exact h.separated
  | cons hsep hne _ => exact hsep.separated hne _

theorem getTok_blank (h : Blank sep) :
    (Lexer.facing (sep ++ bs) name value).getTok strtod =
      (Lexer.facing bs name value).getTok strtod := by
  induction h with
  | nil => rfl
  | space hb _ ih => exact (Lexer.getTok_space hb).trans ih
  | @comment body b rest hbody hb _ ih =>
      have happend : 35 :: (body ++ b :: rest) ++ bs = 35 :: (body ++ b :: (rest ++ bs)) := by simp
      rw [happend]
      exact (Lexer.getTok_hash hbody hb).trans ih

/-- A run ends with what is ahead of it. -/
theorem span_append {p : UInt8 → Bool} {run : List UInt8} (hrun : ∀ b ∈ run, p b = true)
    (hbs : ∀ b ∈ bs.head?, p b = false) :
    (run ++ bs).takeWhile p = run ∧ (run ++ bs).dropWhile p = bs := by
  rw [List.takeWhile_append_of_pos hrun, List.dropWhile_append_of_pos hrun]
  cases bs with
  | nil => exact ⟨List.append_nil run, rfl⟩
  | cons b bs =>
      have hb : ¬ p b = true := by simp [hbs b rfl]
      rw [List.takeWhile_cons_of_neg hb, List.dropWhile_cons_of_neg hb]
      exact ⟨List.append_nil run, rfl⟩

theorem getTok_facing_word {c : UInt8} {run : List UInt8} (hc : isAlpha c = true)
    (hrun : ∀ b ∈ run, isAlnum b = true) (hbs : Separated bs) :
    (Lexer.facing (c :: run ++ bs) name value).getTok strtod =
      (keywordOrIdentifier (byteText (c :: run)),
        Lexer.facing bs (byteText (c :: run)) value) := by
  obtain ⟨htake, hdrop⟩ := span_append hrun fun b hb => (stops_of_space (hbs b hb)).1
  rw [List.cons_append, Lexer.getTok_word hc (not_space_of_alpha hc), htake, hdrop]

/-- A run of digits and dots is taken whole. -/
theorem getTok_facing_run {run : List UInt8} (hne : run ≠ [])
    (hrun : ∀ b ∈ run, isNumeric b = true) (hbs : ∀ b ∈ bs.head?, isNumeric b = false) :
    (Lexer.facing (run ++ bs) name value).getTok strtod =
      (.number, Lexer.facing bs name (strtod (byteText run))) := by
  cases run with
  | nil => exact absurd rfl hne
  | cons c run =>
      have hc := hrun c (List.mem_cons_self ..)
      obtain ⟨hspace, halpha⟩ := plain_of_numeric hc
      obtain ⟨htake, hdrop⟩ := span_append
        (fun b hb => hrun b (List.mem_cons_of_mem _ hb)) hbs
      rw [List.cons_append, Lexer.getTok_run hc halpha hspace, htake, hdrop]

/-- The texts of the keywords start with a letter, and are what the lexer
compares names with. -/
theorem keyword_text : ∀ k ∈ keywords, ∃ c run, textBytes k.1 = c :: run ∧ isAlpha c = true ∧
    (∀ b ∈ run, isAlnum b = true) ∧ keywordOrIdentifier (byteText (c :: run)) = k.2 := by
  have h : ∀ k ∈ keywords, (match textBytes k.1 with
      | c :: run => isAlpha c && run.all isAlnum &&
          decide (keywordOrIdentifier (byteText (c :: run)) = k.2)
      | [] => false) = true := by decide
  intro k hk
  have hmatch := h k hk
  cases htext : textBytes k.1 with
  | nil =>
      rw [htext] at hmatch
      cases hmatch
  | cons c run =>
      simp only [htext, Bool.and_eq_true, List.all_eq_true, decide_eq_true_eq] at hmatch
      exact ⟨c, run, rfl, hmatch.1.1, hmatch.1.2, hmatch.2⟩

theorem keywordOrIdentifier_of_not_mem {s : String} (h : s ∉ keywords.map Prod.fst) :
    keywordOrIdentifier s = .identifier := by
  simp only [keywords, List.map_cons, List.map_nil, List.mem_cons, List.not_mem_nil, or_false,
    not_or] at h
  unfold keywordOrIdentifier
  simp only [h, if_false]

/-- The call that comes to a token reads it, and leaves what is behind it. -/
theorem getTok_item (hstrtod : ∀ text, isNumeral text = true →
      strtod (byteText text) = round (numeralValue text))
    (item : Item) (hbs : Separated bs) :
    ∃ t name' value', (Lexer.facing (item.bytes ++ bs) name value).getTok strtod =
        (t, Lexer.facing bs name' value') ∧
      item.ReadBy round (t, Lexer.facing bs name' value') := by
  cases item with
  | keyword kw token hmem =>
      obtain ⟨c, run, htext, hc, hrun, htok⟩ := keyword_text _ hmem
      refine ⟨keywordOrIdentifier (byteText (c :: run)), byteText (c :: run), value, ?_, htok⟩
      rw [Item.bytes, htext]
      exact getTok_facing_word hc hrun hbs
  | identifier first others hfirst hothers hkeyword =>
      exact ⟨_, _, _, getTok_facing_word hfirst hothers hbs,
        keywordOrIdentifier_of_not_mem hkeyword, rfl⟩
  | numeral text h =>
      have hrun : ∀ b ∈ text, isNumeric b = true := by
        simp only [isNumeral, Bool.and_eq_true, List.all_eq_true] at h
        exact h.1.1
      have hne : text ≠ [] := by
        rintro rfl
        cases h
      exact ⟨_, _, _, getTok_facing_run hne hrun fun b hb => (stops_of_space (hbs b hb)).2,
        rfl, hstrtod text h⟩
  | char b hascii hspace halpha hnumeric hhash =>
      exact ⟨_, _, _, Lexer.getTok_single hspace halpha hnumeric hhash, rfl⟩

/-! ## Reading a rendering -/

theorem getTok_last (h : Blank.Last bs) : ∃ name' value',
    (Lexer.facing bs name value).getTok strtod = (.eof, Lexer.facing [] name' value') := by
  cases h with
  | closed h _ =>
      refine ⟨name, value, ?_⟩
      rw [← List.append_nil bs, getTok_blank h]
      exact Lexer.getTok_of_end rfl
  | open_ h hbody => exact ⟨name, value, (getTok_blank h).trans (Lexer.getTok_hash_end hbody)⟩

theorem Lexer.after_of_end {l : Lexer} (h : l.lastChar = none) (n : Nat) :
    l.after strtod n = l := by
  induction n with
  | zero => rfl
  | succ n ih => rw [Lexer.after, Lexer.getTok_of_end h]; exact ih

theorem reads_rendering (hstrtod : ∀ text, isNumeral text = true →
      strtod (byteText text) = round (numeralValue text))
    {items : List Item} (h : Renders items bs) (name : String) (value : Double) :
    (∀ (i : Nat) item, items[i]? = some item →
      item.ReadBy round (((Lexer.facing bs name value).after strtod i).getTok strtod)) ∧
    ∀ i, items.length ≤ i →
      (((Lexer.facing bs name value).after strtod i).getTok strtod).1 = .eof := by
  induction h generalizing name value with
  | nil h =>
      obtain ⟨name', value', hget⟩ : ∃ name' value', (Lexer.facing _ name value).getTok strtod =
          (.eof, .facing [] name' value') := getTok_last h
      refine ⟨nofun, fun i _ => ?_⟩
      cases i with
      | zero => rw [Lexer.after, hget]
      | succ i =>
          rw [Lexer.after, hget, Lexer.after_of_end rfl, Lexer.getTok_of_end rfl]
  | @cons item items sep bs hsep _ h ih =>
      obtain ⟨t, name', value', hget, hread⟩ : ∃ t name' value',
          (Lexer.facing (item.bytes ++ bs) name value).getTok strtod =
            (t, .facing bs name' value') ∧ _ := getTok_item hstrtod item h.separated
      rw [← getTok_blank hsep] at hget
      obtain ⟨hitems, hend⟩ := ih name' value'
      refine ⟨fun i other hi => ?_, fun i hi => ?_⟩
      · cases i with
        | zero =>
            cases hi
            rw [Lexer.after, hget]
            exact hread
        | succ i =>
            rw [Lexer.after, hget]
            exact hitems i other hi
      · obtain ⟨i, rfl⟩ : ∃ k, i = k + 1 := ⟨i - 1, by simp at hi; omega⟩
        rw [Lexer.after, hget]
        exact hend i (Nat.le_of_succ_le_succ hi)

/-- The blank the constructor leaves in the lookahead makes no difference. -/
theorem getTok_after_init (input : List UInt8) (i : Nat) :
    ((Lexer.init input).after strtod i).getTok strtod =
      ((Lexer.facing input "" .zero).after strtod i).getTok strtod := by
  have hget : (Lexer.init input).getTok strtod = (Lexer.facing input "" .zero).getTok strtod :=
    Lexer.getTok_space (by decide)
  cases i with
  | zero => exact hget
  | succ i => rw [Lexer.after, Lexer.after, hget]

/-- Successive calls on a rendering read back its tokens one by one, and answer
`Eof` ever after. -/
theorem lexing_undoes_rendering (hstrtod : ∀ text, isNumeral text = true →
      strtod (byteText text) = round (numeralValue text))
    {items : List Item} {input : List UInt8} (h : Renders items input) :
    (∀ (i : Nat) item, items[i]? = some item →
      item.ReadBy round (((Lexer.init input).after strtod i).getTok strtod)) ∧
    ∀ i, items.length ≤ i → (((Lexer.init input).after strtod i).getTok strtod).1 = .eof := by
  simp only [getTok_after_init]
  exact reads_rendering hstrtod h "" .zero

end

/-! ### A keyword, a name, a numeral and a comment -/

theorem textBytes_byteText (bs : List UInt8) : textBytes (byteText bs) = bs := by
  have hbyte : ∀ b : UInt8, UInt8.ofNat (byteChar b).toNat = b := fun b => by
    have hvalid : b.toNat.isValidChar := .inl (Nat.lt_trans b.toNat_lt (by decide))
    rw [byteChar, Char.ofNat, dif_pos hvalid]
    exact UInt8.ofNat_toNat
  unfold textBytes byteText
  rw [String.toList_ofList, List.map_map]
  exact (List.map_congr_left fun b _ => hbyte b).trans (List.map_id bs)

/-- ` def x1 1.#`. -/
theorem lexing_undoes_rendering_def :
    let round : Rat → Double := fun q => if q = 1 then .one else .zero
    let strtod : String → Double := fun text => round (prefixValue (textBytes text))
    let l := Lexer.init [32, 100, 101, 102, 32, 120, 49, 32, 49, 46, 35]
    (l.getTok strtod).1 = .def_ ∧
      ((l.after strtod 1).getTok strtod).1 = .identifier ∧
      ((l.after strtod 1).getTok strtod).2.identifier = "x1" ∧
      ((l.after strtod 2).getTok strtod).1 = .number ∧
      ((l.after strtod 2).getTok strtod).2.numberValue = .one ∧
      ((l.after strtod 7).getTok strtod).1 = .eof := by
  intro round strtod l
  have hstrtod : ∀ text, isNumeral text = true →
      strtod (byteText text) = round (numeralValue text) := fun text h => by
    show round (prefixValue (textBytes (byteText text))) = _
    rw [textBytes_byteText, prefixValue_of_isNumeral h]
  have hblank : Blank [32] := .space (by decide) .nil
  have hrenders : Renders
      [.keyword "def" .def_ (by decide),
        .identifier 120 [49] (by decide) (by simp [isAlnum, isDigit]) (by decide),
        .numeral [49, 46] (by decide)]
      [32, 100, 101, 102, 32, 120, 49, 32, 49, 46, 35] :=
    .cons hblank (by simp) (.cons hblank (by simp) (.cons hblank (by simp)
      (.nil (.open_ .nil (nofun : ∀ c ∈ [], inComment c = true)))))
  obtain ⟨hitems, hend⟩ := lexing_undoes_rendering hstrtod hrenders
  have hname := hitems 1 _ rfl
  have hnumber := hitems 2 _ rfl
  refine ⟨hitems 0 _ rfl, hname.1, hname.2.trans (by decide), hnumber.1,
    hnumber.2.trans (by decide +kernel), hend 7 (by decide)⟩

/-! ## Runs of digits and dots -/

section

variable {strtod : String → Double} {round : Rat → Double}

/-- A run of digits and dots at which a token starts: where it is a number the
run is a numeral and the number its value, exactly if the run is a numeral. -/
theorem number_of_run_iff (hstrtod : ∀ text, (∀ b ∈ text, isNumeric b = true) →
      strtod (byteText text) = round (prefixValue text))
    {input sep run post : List UInt8} {k : Nat} {name : String} {value : Double}
    (hl : (Lexer.init input).after strtod k = .facing (sep ++ (run ++ post)) name value)
    (hsep : Blank sep) (hne : run ≠ []) (hrun : ∀ b ∈ run, isNumeric b = true)
    (hpost : ∀ b ∈ post.head?, isNumeric b = false) :
    let r := ((Lexer.init input).after strtod k).getTok strtod
    (r.1 = .number → isNumeral run = true ∧ r.2.numberValue = round (numeralValue run)) ↔
      isNumeral run = true := by
  intro r
  have hr : r = (.number, .facing post name (strtod (byteText run))) := by
    show ((Lexer.init input).after strtod k).getTok strtod = _
    rw [hl, getTok_blank hsep, getTok_facing_run hne hrun hpost]
  rw [hr]
  refine ⟨fun h => (h rfl).1, fun h _ => ⟨h, ?_⟩⟩
  show strtod (byteText run) = _
  rw [hstrtod run hrun, prefixValue_of_isNumeral h]

end

/-- A `strtod` that rounds the value of the prefix it reads. -/
theorem strtod_reads (round : Rat → Double) : ∀ text, (∀ b ∈ text, isNumeric b = true) →
    (fun text => round (prefixValue (textBytes text))) (byteText text) =
      round (prefixValue text) := by
  intro text _
  show round (prefixValue (textBytes (byteText text))) = _
  rw [textBytes_byteText]

/-- `1.5`, the whole input. -/
theorem number_of_run_iff_half :
    let round : Rat → Double := fun q => if q = 3 / 2 then ⟨0x3FF8000000000000⟩ else .zero
    let strtod : String → Double := fun text => round (prefixValue (textBytes text))
    (((Lexer.init [49, 46, 53]).after strtod 0).getTok strtod).2.numberValue =
      ⟨0x3FF8000000000000⟩ := by
  intro round strtod
  have hl : (Lexer.init [49, 46, 53]).after strtod 0 =
    .facing ([32] ++ ([49, 46, 53] ++ [])) "" .zero := rfl
  have hiff := number_of_run_iff (strtod_reads round) hl (.space (by decide) .nil) (by simp)
    (by simp [isNumeric, isDigit]) nofun
  have htok : (((Lexer.init [49, 46, 53]).after strtod 0).getTok strtod).1 = .number :=
    congrArg Prod.fst (Lexer.getTok_numeric (c := 49) rfl rfl rfl)
  exact (hiff.mpr (by decide) htok).2.trans (by decide +kernel)

/-- `1.2.3` is accepted as the number 1.2. -/
theorem number_of_run_prefix :
    ¬ ∀ (strtod : String → Double) (round : Rat → Double),
      (∀ text, (∀ b ∈ text, isNumeric b = true) →
        strtod (byteText text) = round (prefixValue text)) →
      ∀ (input sep run post : List UInt8) (k : Nat) (name : String) (value : Double),
        (Lexer.init input).after strtod k = .facing (sep ++ (run ++ post)) name value →
        Blank sep → run ≠ [] → (∀ b ∈ run, isNumeric b = true) →
        (∀ b ∈ post.head?, isNumeric b = false) →
        let r := ((Lexer.init input).after strtod k).getTok strtod
        r.1 = .number → isNumeral run = true ∧ r.2.numberValue = round (numeralValue run) := by
  intro h
  let round : Rat → Double := fun q => if q = 6 / 5 then ⟨0x3FF3333333333333⟩ else .zero
  let strtod : String → Double := fun text => round (prefixValue (textBytes text))
  have hl : (Lexer.init [49, 46, 50, 46, 51]).after strtod 0 =
    .facing ([32] ++ ([49, 46, 50, 46, 51] ++ [])) "" .zero := rfl
  have hrun := h strtod round (strtod_reads round) _ [32] [49, 46, 50, 46, 51] [] 0 "" .zero hl
    (.space (by decide) .nil) (by simp) (by simp [isNumeric, isDigit]) nofun
  have htok : (((Lexer.init [49, 46, 50, 46, 51]).after strtod 0).getTok strtod).1 = .number :=
    congrArg Prod.fst (Lexer.getTok_numeric (c := 49) rfl rfl rfl)
  cases (hrun htok).1

end LlvmPasses.Kaleido
