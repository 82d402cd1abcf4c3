import LlvmPasses.Proofs.FailedItems
import LlvmPasses.Proofs.SessionCalls

/-!
# Operators and the definitions they run

A unary operator's use, and a binary one's that `BinaryExprAST::codegen` does
not take for its own, compiles to a call of the function named after it, from
whatever builder it is compiled. So what there is to keep over a session is
that the name stays defined, that the table keeps the precedence, and that no
definition is of a character the code generator never looks up. The last two
are not checked: a definition of `+` is accepted and never called, and one that
fails after the redefinition check has already set its precedence.

`operators_honoured` is about every session whose definitions respect the
operators that have been defined before them. Its conclusion, `Honours`, ranges
over every use of the operator, from any builder: the use compiles to the code
of its operands and a call of the function, and it is parsed with the
precedence of the definition.

What is kept from round to round is `Holds`. That the name stays defined needs
no condition, for a function with a body is never erased
(`Builder.HasBody.threw`). For the precedence it takes the condition, as the
table has one entry for a character and every definition that comes past the
redefinition check writes to it (`precedence_next`).
-/

namespace LlvmPasses.Kaleido

open StateError Transition

/-- What `BinaryExprAST::codegen` compiles without looking for a function. -/
def builtinOps : List Char := ['=', '+', '-', '*', '<']

/-- The code from `b` to `b'`: that of the operands, one after the other, and
then a call of a function of the name `x` on their values. -/
def EmitsCall (A : Arith) (x : String) (operands : List Expr) (b : Builder) (v : Value)
    (b' : Builder) : Prop :=
  ∃ vs b₁ fn b₂, codegenArgs A operands b = .ok vs b₁ ∧
    getFunction x b₁ = .ok (some fn) b₂ ∧ fn.name = x ∧ createCall fn vs b₂ = .ok v b'

/-- The name has a body: in the module under `--compile`, in one of the modules
handed over with the JIT. -/
def Session.Defines (s : Session) (x : String) : Prop :=
  match s.jit with
  | none => s.builder.HasBody x
  | some d => ∃ m ∈ d.modules, ∃ g ∈ m.functions, g.name = x ∧ g.body.isSome

/-- Uses of the operator that `d` defines run it, and are parsed with its
precedence. -/
structure Session.Honours (A : Arith) (s : Session) (d : Prototype) : Prop where
  defines : s.Defines d.name
  unary : d.isUnaryOp = true → ∀ operand b v b',
    (Expr.unary d.getOperatorName operand).codegen A b = .ok v b' →
    EmitsCall A d.name [operand] b v b'
  binary : d.isBinaryOp = true → ∀ lhs rhs b v b',
    (Expr.binary d.getOperatorName lhs rhs).codegen A b = .ok v b' →
    EmitsCall A d.name [lhs, rhs] b v b'
  precedence : d.isBinaryOp = true →
    getTokPrecedence s.builder.binopPrecedence (.chr d.getOperatorName) = d.precedence

/-! ## What a use compiles to -/

section Uses

variable {A : Arith} {b b' : Builder} {v : Value} {c : Char}

theorem getFunction_ok_name {x : String} {fn : Function}
    (h : getFunction x b = .ok (some fn) b') : fn.name = x := by
  obtain ⟨o, b₁, hrun, -, hname, -⟩ := getFunction_run x b
  rw [hrun] at h
  cases h
  exact (hname fn rfl).1

theorem codegenArgs_nil (b : Builder) : codegenArgs A [] b = .ok [] b := by
  simp only [codegenArgs]
  rfl

theorem codegenArgs_cons {e : Expr} {es : List Expr} {x : Value} {xs : List Value}
    {b₁ : Builder} (h : e.codegen A b = .ok x b₁) (hs : codegenArgs A es b₁ = .ok xs b') :
    codegenArgs A (e :: es) b = .ok (x :: xs) b' := by
  simp only [codegenArgs]
  rw [bind_ok h, bind_ok hs]
  rfl

theorem emitsCall_unary {operand : Expr}
    (h : (Expr.unary c operand).codegen A b = .ok v b') :
    EmitsCall A ("unary".push c) [operand] b v b' := by
  obtain ⟨x, b₁, fn, b₂, hx, hf, hcall⟩ := codegen_unary h
  exact ⟨[x], b₁, fn, b₂, codegenArgs_cons hx (codegenArgs_nil b₁), hf, getFunction_ok_name hf,
    hcall⟩

theorem createBinary_user {x y : Value} (hc : c ∉ builtinOps)
    (h : createBinary A c x y b = .ok v b') :
    ∃ fn b₁, getFunction ("binary".push c) b = .ok (some fn) b₁ ∧
      createCall fn [x, y] b₁ = .ok v b' := by
  simp only [builtinOps, List.mem_cons, List.not_mem_nil, or_false, not_or] at hc
  obtain ⟨-, hadd, hsub, hmul, hlt⟩ := hc
  unfold createBinary at h
  split at h
  · exact absurd rfl hadd
  · exact absurd rfl hsub
  · exact absurd rfl hmul
  · exact absurd rfl hlt
  · obtain ⟨o, b₁, hf, h⟩ := bind_eq_ok h
    cases o with
    | none => cases h
    | some fn => exact ⟨fn, b₁, hf, h⟩

theorem emitsCall_binary {lhs rhs : Expr} (hc : c ∉ builtinOps)
    (h : (Expr.binary c lhs rhs).codegen A b = .ok v b') :
    EmitsCall A ("binary".push c) [lhs, rhs] b v b' := by
  have hassign : c ≠ '=' := fun heq => hc (heq ▸ List.mem_cons_self ..)
  obtain ⟨x, b₁, y, b₂, hx, hy, h⟩ := codegen_binary hassign h
  obtain ⟨fn, b₃, hf, hcall⟩ := createBinary_user hc h
  have hargs : codegenArgs A [lhs, rhs] b = .ok [x, y] b₂ :=
    codegenArgs_cons hx (codegenArgs_cons hy (codegenArgs_nil b₂))
  exact ⟨[x, y], b₂, fn, b₃, hargs, hf, getFunction_ok_name hf, hcall⟩

end Uses

/-! ## Operator prototypes -/

section Prototypes

variable {p q : Prototype} {c : Char}

theorem getOperatorName_push {t : String} (h : p.name = t.push c) : p.getOperatorName = c := by
  unfold Prototype.getOperatorName
  rw [h, toList_push]
  simp

theorem Prototype.Named.unary_name (h : p.Named) (hop : p.isUnaryOp = true) :
    p.name = "unary".push p.getOperatorName := by
  simp only [Prototype.isUnaryOp, Bool.and_eq_true, beq_iff_eq] at hop
  cases h with
  | word _ hnot => exact absurd hop.1 (by simp [hnot])
  | unary _ hname _ _ => rw [getOperatorName_push hname, hname]
  | binary _ _ _ _ hlen _ => exact absurd hop.2 (by omega)

theorem Prototype.Named.binary_name (h : p.Named) (hop : p.isBinaryOp = true) :
    p.name = "binary".push p.getOperatorName ∧ isAscii p.getOperatorName = true ∧
      1 ≤ p.precedence := by
  simp only [Prototype.isBinaryOp, Bool.and_eq_true, beq_iff_eq] at hop
  cases h with
  | word _ hnot => exact absurd hop.1 (by simp [hnot])
  | unary _ _ _ hlen => exact absurd hop.2 (by omega)
  | binary _ hascii hname _ _ hprec =>
      rw [getOperatorName_push hname]
      exact ⟨hname, hascii, hprec⟩

theorem getTokPrecedence_positive {prec : Char → Int} {n : Nat} (hascii : isAscii c = true)
    (hprec : prec c = n) (hn : 1 ≤ n) : getTokPrecedence prec (.chr c) = n := by
  simp only [getTokPrecedence, hascii, if_true, hprec]
  exact if_neg (by omega)

end Prototypes

/-! ## Names that stay defined -/

section Bodies

variable {A : Arith} {b b' : Builder} {f : FunctionAST} {fn : Function} {what x : String}
variable {n : Nat}

theorem codegen_accepted (h : f.codegen A b = .ok fn b') :
    ∃ b₁ b₂, Declared f.prototype b fn b₁ ∧
      Keeps (fun _ => True) (b₁.withPrecedence f.prototype) b₂ ∧
      b' = { b₂ with module := b₂.module.setBody fn.id b₂.body } := by
  have hall : ∀ c ∈ f.body.operators, (fun _ : Char => True) c := fun _ _ => trivial
  exact codegen_defined hall h

theorem Builder.HasBody.fixed (h : b.HasBody x) : ∃ n, b.Fixed x n := by
  obtain ⟨g, hg, hbody⟩ := h
  exact ⟨g.params.length, g, hg, hbody, rfl⟩

theorem Builder.Fixed.hasBody (h : b.Fixed x n) : b.HasBody x := by
  obtain ⟨g, hg, hbody, -⟩ := h
  exact ⟨g, hg, hbody⟩

/-- Up to the end of the body of a definition past the redefinition check. -/
theorem Builder.Fixed.declared {proto : Prototype} {b₁ b₂ : Builder} (h : b.Fixed x n)
    (hd : Declared proto b fn b₁)
    (hkeeps : Keeps (fun _ => True) (b₁.withPrecedence proto) b₂) : b₂.Fixed x n := by
  have hfile : (b.file proto).Fixed x n := h
  have hdecl : Keeps (fun _ => True) (b.file proto) b₁ := hd.declares.keeps
  exact (hfile.keeps hdecl).withPrecedence.keeps hkeeps

theorem Builder.HasBody.threw (h : b.HasBody x)
    (hthrow : f.codegen A b = .error (.exception what) b') : b'.HasBody x := by
  obtain ⟨n, hfixed⟩ := h.fixed
  cases threw_of_error hthrow with
  | redefined _ heq =>
      rw [heq]
      exact h
  | erased hd hkeeps heq =>
      rw [heq]
      exact ((hfixed.declared hd hkeeps).erase (hd.mem_keeps hkeeps) hd.bodiless).hasBody

theorem Builder.HasBody.codegen (h : b.HasBody x) (hcodegen : f.codegen A b = .ok fn b') :
    b'.HasBody x := by
  obtain ⟨n, hfixed⟩ := h.fixed
  obtain ⟨b₁, b₂, hd, hkeeps, rfl⟩ := codegen_accepted hcodegen
  exact ((hfixed.declared hd hkeeps).setBody fn.id b₂.body).hasBody

theorem hasBody_defined (hcodegen : f.codegen A b = .ok fn b') :
    b'.HasBody f.prototype.name := by
  obtain ⟨b₁, b₂, hd, hkeeps, rfl⟩ := codegen_accepted hcodegen
  exact (hd.fixed hkeeps).hasBody

end Bodies

section Defines

variable {A : Arith} {E : Jit} {s : Session} {x : String} {left : List Lexeme} {b : Builder}

/-- With the JIT it is the modules handed over that count. -/
theorem Session.Defines.of_builder (h : s.Defines x)
    (hb : s.jit = none → s.builder.HasBody x → b.HasBody x) :
    { s with tokens := left, builder := b }.Defines x := by
  unfold Session.Defines at h ⊢
  cases hj : s.jit with
  | none =>
      simp only [hj] at h ⊢
      exact hb hj h
  | some d =>
      simp only [hj] at h ⊢
      exact h

theorem Session.Defines.next {s' : Session} (h : s.Defines x) (hr : Rounds A E s s') :
    s'.Defines x := by
  cases hr with
  | skipped _ => exact h
  | declared _ _ =>
      refine h.of_builder fun _ hbody => ?_
      obtain ⟨g, hg, hg'⟩ := hbody
      exact ⟨g, Module.getFunction_append rfl hg, hg'⟩
  | threw _ hthrow => exact h.of_builder fun _ hbody => hbody.threw hthrow
  | evaluated _ hcodegen _ =>
      unfold Session.Defines at h ⊢
      cases hj : s.jit with
      | none =>
          simp only [hj] at h
          exact h.codegen hcodegen
      | some d =>
          simp only [hj] at h
          exact h
  | @defined f left fn b _ _ hcodegen =>
      unfold Session.Defines at h ⊢
      cases hj : s.jit with
      | none =>
          simp only [hj] at h
          exact h.codegen hcodegen
      | some d =>
          simp only [hj] at h
          obtain ⟨m, hm, hg⟩ := h
          exact ⟨m, List.mem_append_left _ hm, hg⟩

/-- An accepted definition's name. -/
theorem defines_defined {f : FunctionAST} {fn : Function}
    (hcodegen : f.codegen A s.builder = .ok fn b) :
    Session.Defines ⟨left, b.turn s.jit.isSome, s.jit.map fun d => d.add b.module,
      s.definitions ++ [f.prototype]⟩ f.prototype.name := by
  have hbody := hasBody_defined hcodegen
  unfold Session.Defines
  cases s.jit with
  | none => exact hbody
  | some d =>
      obtain ⟨g, hg, hsome⟩ := hbody
      exact ⟨b.module, List.mem_append_right _ (List.mem_singleton_self _), g,
        List.mem_of_find?_eq_some hg, Module.getFunction_name hg, hsome⟩

end Defines

/-! ## Precedences -/

section Precedences

variable {A : Arith} {b b' : Builder} {f : FunctionAST} {fn : Function} {what : String}
variable {proto d : Prototype}

/-- A definition that throws sets a precedence only past the redefinition check. -/
theorem Threw.precedence (h : Threw proto b b') : b'.binopPrecedence = b.binopPrecedence ∨
    ¬ b.HasBody proto.name ∧ b'.binopPrecedence = (b.withPrecedence proto).binopPrecedence := by
  cases h with
  | redefined _ heq =>
      rw [heq]
      exact .inl rfl
  | erased hd hkeeps heq =>
      rw [heq]
      exact .inr ⟨hd.not_hasBody, hkeeps.precedence.trans hd.precedence⟩

theorem codegen_precedence (h : f.codegen A b = .ok fn b') :
    ¬ b.HasBody f.prototype.name ∧
      b'.binopPrecedence = (b.withPrecedence f.prototype).binopPrecedence := by
  obtain ⟨b₁, b₂, hd, hkeeps, rfl⟩ := codegen_accepted h
  exact ⟨hd.not_hasBody, hkeeps.precedence.trans hd.precedence⟩

/-- The precedence of an operator survives another definition, unless that one
is of the same operator with another precedence. -/
theorem withPrecedence_same (hd : d.Named) (hdop : d.isBinaryOp = true) (hp : proto.Named)
    (h : b.binopPrecedence d.getOperatorName = d.precedence)
    (hsame : proto.isBinaryOp = true → d.name = proto.name → d.precedence = proto.precedence) :
    (b.withPrecedence proto).binopPrecedence d.getOperatorName = d.precedence := by
  unfold Builder.withPrecedence
  by_cases hop : proto.isBinaryOp = true
  · rw [if_pos hop]
    show (if d.getOperatorName = proto.getOperatorName then (proto.precedence : Int) else
      b.binopPrecedence d.getOperatorName) = _
    by_cases hc : d.getOperatorName = proto.getOperatorName
    · have hname : d.name = proto.name := by
        rw [(hd.binary_name hdop).1, (hp.binary_name hop).1, hc]
      rw [if_pos hc, hsame hop hname]
    · rw [if_neg hc, h]
  · rw [if_neg hop, h]

end Precedences

/-! ## Sessions -/

/-- What keeps operators and their definitions together, of the definition at
hand. An accepted one is not of a binary operator that the code generator takes
for its own. One that comes past the redefinition check, accepted or not, does
not give an operator that is already defined another precedence. -/
structure Session.Respects (s : Session) : Prop where
  dispatched : ∀ f left, current s.tokens = .def_ →
    parseDefinition s.builder.binopPrecedence s.tokens = .ok f left →
    f.prototype.isBinaryOp = true → f.check s.builder = none →
    f.prototype.getOperatorName ∉ builtinOps
  precedence : ∀ f left, current s.tokens = .def_ →
    parseDefinition s.builder.binopPrecedence s.tokens = .ok f left →
    f.prototype.isBinaryOp = true → ¬ s.builder.HasBody f.prototype.name →
    ∀ d ∈ s.definitions, d.name = f.prototype.name → d.precedence = f.prototype.precedence

/-- What the session still holds of an accepted definition. -/
structure Session.Holds (s : Session) (d : Prototype) : Prop where
  named : d.Named
  defines : s.Defines d.name
  dispatched : d.isBinaryOp = true → d.getOperatorName ∉ builtinOps
  precedence : d.isBinaryOp = true →
    s.builder.binopPrecedence d.getOperatorName = d.precedence

section Sessions

variable {A : Arith} {E : Jit} {s s' : Session} {d : Prototype}

theorem Session.Holds.honours (h : s.Holds d) : s.Honours A d where
  defines := h.defines
  unary := fun hop operand b v b' hc => by
    rw [h.named.unary_name hop]
    exact emitsCall_unary hc
  binary := fun hop lhs rhs b v b' hc => by
    rw [(h.named.binary_name hop).1]
    exact emitsCall_binary (h.dispatched hop) hc
  precedence := fun hop =>
    have ⟨_, hascii, hpositive⟩ := h.named.binary_name hop
    getTokPrecedence_positive hascii (h.precedence hop) hpositive

/-- A round changes the precedence of a defined operator only by a definition
of the same operator. -/
theorem precedence_next (hlex : AllLexical s.tokens) (hc : s.Respects) (hd : d ∈ s.definitions)
    (hnamed : d.Named) (hop : d.isBinaryOp = true)
    (h : s.builder.binopPrecedence d.getOperatorName = d.precedence) (hr : Rounds A E s s') :
    s'.builder.binopPrecedence d.getOperatorName = d.precedence := by
  have hturn : ∀ jit (b : Builder), (b.turn jit).binopPrecedence = b.binopPrecedence := by
    intro jit b
    cases jit <;> rfl
  -- an expression's prototype is of no operator
  have hanon : ∀ {f : FunctionAST} {left},
      parseTopLevelExpr s.builder.binopPrecedence s.tokens = .ok f left →
      (s.builder.withPrecedence f.prototype).binopPrecedence = s.builder.binopPrecedence := by
    intro f left hparse
    rw [(Triple.ok (yields_topLevelExpr _) hlex hparse).2.1]
    rfl
  cases hr with
  | skipped _ => exact h
  | declared _ _ => exact h
  | threw hreads hthrow =>
      rcases (threw_of_error hthrow).precedence with heq | ⟨hbody, heq⟩
      · show Builder.binopPrecedence _ _ = _
        rw [heq, h]
      · show Builder.binopPrecedence _ _ = _
        rw [heq]
        cases hreads with
        | definition htok hparse =>
            have hp := (Triple.ok (yields_definition _) hlex hparse).2.1
            exact withPrecedence_same hnamed hop hp h fun hop' =>
              hc.precedence _ _ htok hparse hop' hbody d hd
        | topLevel _ hparse => rw [hanon hparse, h]
  | defined htok hparse hcodegen =>
      obtain ⟨hbody, heq⟩ := codegen_precedence hcodegen
      show (Builder.turn _ _).binopPrecedence _ = _
      rw [hturn, heq]
      have hp := (Triple.ok (yields_definition _) hlex hparse).2.1
      exact withPrecedence_same hnamed hop hp h fun hop' =>
        hc.precedence _ _ htok hparse hop' hbody d hd
  | evaluated hparse hcodegen _ =>
      show (Builder.turn _ _).binopPrecedence _ = _
      rw [hturn, (codegen_precedence hcodegen).2, hanon hparse, h]

/-- The definition a round accepts. -/
theorem holds_defined {f : FunctionAST} {left : List Lexeme} {fn : Function} {b : Builder}
    (hlex : AllLexical s.tokens) (hc : s.Respects) (htok : current s.tokens = .def_)
    (hparse : parseDefinition s.builder.binopPrecedence s.tokens = .ok f left)
    (hcodegen : f.codegen A s.builder = .ok fn b) :
    Session.Holds ⟨left, b.turn s.jit.isSome, s.jit.map fun d => d.add b.module,
      s.definitions ++ [f.prototype]⟩ f.prototype where
  named := (Triple.ok (yields_definition _) hlex hparse).2.1
  defines := defines_defined hcodegen
  dispatched := fun hop => by
    have hcheck := functionCodegen_check A f s.builder
    rw [hcodegen] at hcheck
    exact hc.dispatched _ _ htok hparse hop hcheck
  precedence := fun hop => by
    have hset : (s.builder.withPrecedence f.prototype).binopPrecedence
        f.prototype.getOperatorName = f.prototype.precedence := by
      unfold Builder.withPrecedence
      rw [if_pos hop]
      exact if_pos rfl
    show (Builder.turn _ _).binopPrecedence _ = _
    rw [← hset, ← (codegen_precedence hcodegen).2]
    cases s.jit <;> rfl

theorem holds_next (hlex : AllLexical s.tokens) (h : ∀ d ∈ s.definitions, s.Holds d)
    (hc : s.Respects) (hn : next A E s = some s') : ∀ d ∈ s'.definitions, s'.Holds d := by
  have hr := rounds_of_next hn
  have hold : ∀ d ∈ s.definitions, s'.Holds d := fun d hd =>
    ⟨(h d hd).named, (h d hd).defines.next hr, (h d hd).dispatched, fun hop =>
      precedence_next hlex hc hd (h d hd).named hop ((h d hd).precedence hop) hr⟩
  cases hr with
  | defined htok hparse hcodegen =>
      intro d hd
      rcases List.mem_append.mp hd with hd | hd
      · exact hold d hd
      · obtain rfl := List.mem_singleton.mp hd
        exact holds_defined hlex hc htok hparse hcodegen
  | _ => exact hold

/-- In a session whose definitions all respect the operators, those that have
been defined are the ones that run. -/
theorem operators_honoured (A : Arith) (E : Jit) (strtod : String → Double) (useJIT : Bool)
    (input : List UInt8) {n : Nat}
    (hrun : runN (next A E) n (.start strtod useJIT input) = some s)
    (hc : ∀ k < n, ∀ t, runN (next A E) k (.start strtod useJIT input) = some t → t.Respects) :
    ∀ d ∈ s.definitions, s.Honours A d := by
  have hinv : AllLexical s.tokens ∧ ∀ d ∈ s.definitions, s.Holds d :=
    runN_induction (P := fun t => AllLexical t.tokens ∧ ∀ d ∈ t.definitions, t.Holds d) hrun
      ⟨lexical_start strtod useJIT input, nofun⟩ hc fun _ _ ht hcond hstep =>
        ⟨(rounds_of_next hstep).lexical ht.1, holds_next ht.1 ht.2 hcond hstep⟩
  exact fun d hd => (hinv.2 d hd).honours

end Sessions

/-! ### One operator of the user's own, and one that is built in -/

/-- `def binary % (x, y) x`. -/
def remainderInput : List UInt8 :=
  [100, 101, 102, 32, 98, 105, 110, 97, 114, 121, 32, 37, 32, 40, 120, 44, 32, 121, 41, 32, 120]

/-- `def binary + (x, y) x 1 + 1`. -/
def plusInput : List UInt8 :=
  [100, 101, 102, 32, 98, 105, 110, 97, 114, 121, 32, 43, 32, 40, 120, 44, 32, 121, 41, 32, 120,
    32, 49, 32, 43, 32, 49]

def remainderSession : Session := .start (fun _ => .one) true remainderInput

theorem respects_remainderSession : remainderSession.Respects := by
  have htokens : remainderSession.tokens =
      [⟨.def_, "def", .zero⟩, ⟨.binary, "binary", .zero⟩, ⟨.chr '%', "binary", .zero⟩,
        ⟨.chr '(', "binary", .zero⟩, ⟨.identifier, "x", .zero⟩, ⟨.chr ',', "x", .zero⟩,
        ⟨.identifier, "y", .zero⟩, ⟨.chr ')', "y", .zero⟩, ⟨.identifier, "x", .zero⟩] := by
    decide +kernel
  have hparsed : ∀ f left, parseDefinition remainderSession.builder.binopPrecedence
      remainderSession.tokens = .ok f left → f.prototype.getOperatorName = '%' := by
    intro f left hparse
    rw [htokens] at hparse
    have heq : parseDefinition remainderSession.builder.binopPrecedence
        [⟨.def_, "def", .zero⟩, ⟨.binary, "binary", .zero⟩, ⟨.chr '%', "binary", .zero⟩,
          ⟨.chr '(', "binary", .zero⟩, ⟨.identifier, "x", .zero⟩, ⟨.chr ',', "x", .zero⟩,
          ⟨.identifier, "y", .zero⟩, ⟨.chr ')', "y", .zero⟩, ⟨.identifier, "x", .zero⟩] =
        .ok ⟨{ name := "binary%", args := ["x", "y"], isOperator := true, precedence := 30 },
          .variable "x"⟩ [] := rfl
    rw [heq] at hparse
    cases hparse
    decide
  refine ⟨fun f left _ hparse _ _ => ?_, fun _ _ _ _ _ _ => nofun⟩
  rw [hparsed f left hparse]
  decide

theorem operators_honoured_remainder :
    let A : Arith := ⟨fun a _ => a, fun a _ => a, fun a _ => a⟩
    let E : Jit := ⟨fun _ _ => true, fun _ => some []⟩
    ∃ s, runN (next A E) 1 remainderSession = some s ∧ ∀ d ∈ s.definitions, s.Honours A d := by
  intro A E
  have hsome : (runN (next A E) 1 remainderSession).isSome = true := by decide +kernel
  obtain ⟨s, hs⟩ := Option.isSome_iff_exists.mp hsome
  refine ⟨s, hs, operators_honoured A E (fun _ => .one) true remainderInput hs fun k hk t ht => ?_⟩
  obtain rfl : k = 0 := by omega
  cases ht
  exact respects_remainderSession

/-- After the definition of `+`, a sum still compiles to a sum. -/
theorem builtin_definition_ignored :
    ¬ ∀ (A : Arith) (E : Jit) (s : Session), Reachable A E s →
      ∀ d ∈ s.definitions, s.Honours A d := by
  intro h
  let A : Arith := ⟨fun a _ => a, fun a _ => a, fun a _ => a⟩
  let E : Jit := ⟨fun _ _ => true, fun _ => some []⟩
  have hrun : (match runN (next A E) 1 (.start (fun _ => .one) true plusInput) with
    | some s => s.definitions.any fun d => decide (d.isBinaryOp = true ∧ d.getOperatorName = '+')
    | none => false) = true := by decide +kernel
  cases hs : runN (next A E) 1 (.start (fun _ => .one) true plusInput) with
  | none =>
      rw [hs] at hrun
      cases hrun
  | some s =>
      rw [hs] at hrun
      simp only [decide_eq_true_eq, List.any_eq_true] at hrun
      obtain ⟨d, hd, hop, hplus⟩ := hrun
      have hreach : Reachable A E s := ⟨fun _ => .one, true, plusInput, 1, hs⟩
      have hbinary := (h A E s hreach d hd).binary hop
      rw [hplus] at hbinary
      obtain ⟨vs, b₁, fn, b₂, -, -, -, hcall⟩ := hbinary (.number .one) (.number .one) s.builder
        _ _ rfl
      cases hcall

end LlvmPasses.Kaleido
