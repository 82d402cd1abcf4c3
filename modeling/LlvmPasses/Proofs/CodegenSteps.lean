import LlvmPasses.Kaleido.Codegen

/-!
# What a construct emits

Each construct's code generation, taken apart once: the builders its parts
start from and end in, and what happens in between as one update of the
builder. The inductions over the tree are carried out on these, never on the
text of `codegen`.

The source writes a construct as one function with a dozen effects. Here it
becomes a chain: if the code generation of an `if` returns, then that of its
condition has returned in some builder, that of an arm has returned from this
builder after `enterThen`, and so on to the end. The named updates
(`enterThen`, `enterArm`, `enterLoop`, `leaveLoop`) stand for the stretches of
plain instructions in between. `codegen_ifElse`, `codegen_forIn`,
`codegen_varIn` and their likes state this once, as equations between `do`
blocks unfolded by the rules of `Lib.StateError`, and no other module looks
into `Expr.codegen`.

Functions are taken apart in the same way: finding or declaring the function,
binding its parameters, and the `try` around the body with its two ends.
-/

namespace LlvmPasses.Kaleido

open StateError

variable {A : Arith} {b b' : Builder} {v : Value}

namespace Builder

/-- The last instruction of a block, and on to the block `k`. -/
def branch (b : Builder) (i : Instr) (k : Nat) : Builder :=
  { b.append b.insert i with insert := k }

def attach (b : Builder) (k : Nat) : Builder :=
  { b with body := { b.body with blocks := b.body.blocks ++ [k] } }

/-- `n` blocks created, none of them attached. -/
def newBlocks (b : Builder) (n : Nat) : Builder := { b with nextBlock := b.nextBlock + n }

def setNamed (b : Builder) (x : String) (cell : Option Nat) : Builder :=
  { b with named := fun y => if y = x then cell else b.named y }

def newAlloca (b : Builder) : Builder :=
  { b with nextInst := b.nextInst + 1
           body := { b.body with allocas := b.nextInst :: b.body.allocas } }

/-- The branch of an `if`, its three blocks, and on to the first. -/
def enterThen (b : Builder) (cond : Value) : Builder :=
  ((b.newBlocks 3).attach b.nextBlock).branch
    (.condBr cond b.nextBlock (b.nextBlock + 1)) b.nextBlock

/-- The end of one arm at `merge`, and on to the block `next`. -/
def enterArm (b : Builder) (merge next : Nat) : Builder :=
  (b.attach next).branch (.br merge) next

/-- A loop's block, and on to it. -/
def enterLoop (b : Builder) : Builder :=
  ((b.newBlocks 1).attach b.nextBlock).branch (.br b.nextBlock) b.nextBlock

/-- The branch back to the loop, and on to what comes after it. -/
def leaveLoop (b : Builder) (cond : Value) (loop : Nat) : Builder :=
  ((b.newBlocks 1).attach b.nextBlock).branch (.condBr cond loop b.nextBlock) b.nextBlock

/-- A function's entry block, with nothing in it. -/
def begin (b : Builder) : Builder :=
  { b with
    body := { blocks := [entryBlock], allocas := [], code := fun _ => [] }
    insert := entryBlock
    nextInst := 0
    nextBlock := entryBlock + 1
    named := fun _ => none }

/-- The table with the precedence of an operator that is being defined. -/
def withPrecedence (b : Builder) (proto : Prototype) : Builder :=
  if proto.isBinaryOp then
    { b with binopPrecedence := fun c =>
        if c = proto.getOperatorName then proto.precedence else b.binopPrecedence c }
  else b

/-- The end of a function, and its body to the module. -/
def finish (b : Builder) (fn : Function) (v : Value) : Builder :=
  { b.append b.insert (.ret v) with
    module := b.module.setBody fn.id (b.append b.insert (.ret v)).body }

end Builder

/-! ## Inversion -/

-- The equations are derived here, before the lemmas ask for them side by side.
attribute [local simp] Expr.codegen

theorem namedLookup_ok {x : String} {cell : Option Nat}
    (h : namedLookup x b = .ok cell b') : b.named x = cell ∧ b' = b := by
  obtain ⟨h₁, h₂⟩ := EStateM.Result.ok.inj h
  exact ⟨h₁, h₂.symm⟩

theorem codegen_variable {name : String}
    (h : (Expr.variable name).codegen A b = .ok v b') :
    ∃ alloca, b.named name = some alloca ∧ createLoad alloca b = .ok v b' := by
  simp only [Expr.codegen] at h
  obtain ⟨named, b₁, hn, h⟩ := bind_eq_ok h
  obtain ⟨hn, rfl⟩ := namedLookup_ok hn
  cases named with
  | none => cases h
  | some alloca => exact ⟨alloca, hn, h⟩

theorem codegen_unary {op : Char} {operand : Expr}
    (h : (Expr.unary op operand).codegen A b = .ok v b') :
    ∃ x b₁ fn b₂, operand.codegen A b = .ok x b₁ ∧
      getFunction ("unary".push op) b₁ = .ok (some fn) b₂ ∧
      createCall fn [x] b₂ = .ok v b' := by
  simp only [Expr.codegen] at h
  obtain ⟨x, b₁, hx, h⟩ := bind_eq_ok h
  obtain ⟨fn, b₂, hf, h⟩ := bind_eq_ok h
  split at h
  · cases h
  · next fn => exact ⟨x, b₁, fn, b₂, hx, hf, h⟩

/-- An assignment, whose left side has to be a variable. -/
theorem codegen_assign {lhs rhs : Expr}
    (h : (Expr.binary '=' lhs rhs).codegen A b = .ok v b') :
    ∃ name b₁ alloca, lhs = .variable name ∧ rhs.codegen A b = .ok v b₁ ∧
      b₁.named name = some alloca ∧ createStore v alloca b₁ = .ok () b' := by
  simp only [Expr.codegen, if_true] at h
  obtain ⟨u, b₀, hcast, hrest⟩ := bind_eq_ok h
  obtain ⟨x, b₁, hx, huse⟩ := bind_eq_ok hrest
  cases lhs with
  | «variable» name =>
      cases hcast
      obtain ⟨named, b₂, hn, hstore⟩ := bind_eq_ok huse
      obtain ⟨hn, rfl⟩ := namedLookup_ok hn
      cases named with
      | none => cases hstore
      | some alloca =>
          obtain ⟨u, b₂, hs, hret⟩ := bind_eq_ok hstore
          obtain ⟨rfl, rfl⟩ := pure_eq_ok hret
          exact ⟨name, _, alloca, rfl, hx, hn, hs⟩
  | _ => cases huse

/-- What a binary operator other than `=` does with its operands. -/
def createBinary (A : Arith) (op : Char) (lhs rhs : Value) : CodegenM Value :=
  match op with
  | '+' => createFBin A .add lhs rhs
  | '-' => createFBin A .sub lhs rhs
  | '*' => createFBin A .mul lhs rhs
  | '<' => do
      let cmp ← createFCmp .ult lhs rhs
      createUIToFP cmp
  | _ => do
      match ← getFunction ("binary".push op) with
      | none => throwCodegen s!"Binary operator binary{op} not found!"
      | some fn => createCall fn [lhs, rhs]

theorem codegen_binary {op : Char} {lhs rhs : Expr} (hop : op ≠ '=')
    (h : (Expr.binary op lhs rhs).codegen A b = .ok v b') :
    ∃ x b₁ y b₂, lhs.codegen A b = .ok x b₁ ∧ rhs.codegen A b₁ = .ok y b₂ ∧
      createBinary A op x y b₂ = .ok v b' := by
  simp only [Expr.codegen, hop, if_false] at h
  obtain ⟨x, b₁, hx, h⟩ := bind_eq_ok h
  obtain ⟨y, b₂, hy, h⟩ := bind_eq_ok h
  exact ⟨x, b₁, y, b₂, hx, hy, h⟩

theorem codegen_call {callee : String} {args : List Expr}
    (h : (Expr.call callee args).codegen A b = .ok v b') :
    ∃ fn b₁ vs b₂, getFunction callee b = .ok (some fn) b₁ ∧
      fn.params.length = args.length ∧ codegenArgs A args b₁ = .ok vs b₂ ∧
      createCall fn vs b₂ = .ok v b' := by
  simp only [Expr.codegen] at h
  obtain ⟨fn, b₁, hf, h⟩ := bind_eq_ok h
  split at h
  · cases h
  · next fn =>
      split at h
      · cases h
      · next hlen =>
          obtain ⟨vs, b₂, hvs, h⟩ := bind_eq_ok h
          exact ⟨fn, b₁, vs, b₂, hf, Decidable.not_not.mp hlen, hvs, h⟩

theorem codegen_args_cons {e : Expr} {es : List Expr} {vs : List Value}
    (h : codegenArgs A (e :: es) b = .ok vs b') :
    ∃ x b₁ xs, e.codegen A b = .ok x b₁ ∧ codegenArgs A es b₁ = .ok xs b' ∧ vs = x :: xs := by
  simp only [codegenArgs] at h
  obtain ⟨x, b₁, hx, h⟩ := bind_eq_ok h
  obtain ⟨xs, b₂, hxs, h⟩ := bind_eq_ok h
  obtain ⟨rfl, rfl⟩ := pure_eq_ok h
  exact ⟨x, b₁, xs, hx, hxs, rfl⟩

theorem codegen_ifElse {cond thn els : Expr}
    (h : (Expr.ifElse cond thn els).codegen A b = .ok v b') :
    ∃ c b₁ bit b₂ x b₃ y b₄, cond.codegen A b = .ok c b₁ ∧
      createFCmp .one c (.const .zero) b₁ = .ok bit b₂ ∧
      thn.codegen A (b₂.enterThen bit) = .ok x b₃ ∧
      els.codegen A (b₃.enterArm (b₂.nextBlock + 2) (b₂.nextBlock + 1)) = .ok y b₄ ∧
      createPhi [(x, b₃.insert), (y, b₄.insert)]
        (b₄.enterArm (b₂.nextBlock + 2) (b₂.nextBlock + 2)) = .ok v b' := by
  simp only [Expr.codegen] at h
  obtain ⟨c, b₁, hc, h⟩ := bind_eq_ok h
  obtain ⟨bit, b₂, hb, h⟩ := bind_eq_ok h
  obtain ⟨x, b₃, hx, h⟩ := bind_eq_ok (p := thn.codegen A) (s := b₂.enterThen bit) h
  obtain ⟨y, b₄, hy, h⟩ := bind_eq_ok (p := els.codegen A)
    (s := b₃.enterArm (b₂.nextBlock + 2) (b₂.nextBlock + 1)) h
  exact ⟨c, b₁, bit, b₂, x, b₃, y, b₄, hc, hb, hx, hy, h⟩

theorem codegen_forIn {x : String} {start fin body : Expr} {step : Option Expr}
    (h : (Expr.forIn x start fin step body).codegen A b = .ok v b') :
    ∃ s b₁ u b₂ d b₃ e b₄ cur b₅ next b₆ bit b₇,
      start.codegen A b.newAlloca = .ok s b₁ ∧
      body.codegen A ((b₁.append b₁.insert (.store s b.nextInst)).enterLoop.setNamed x
        (some b.nextInst)) = .ok u b₂ ∧
      codegenOption A .one step b₂ = .ok d b₃ ∧ fin.codegen A b₃ = .ok e b₄ ∧
      createLoad b.nextInst b₄ = .ok cur b₅ ∧ createFBin A .add cur d b₅ = .ok next b₆ ∧
      createFCmp .one e (.const .zero) (b₆.append b₆.insert (.store next b.nextInst)) =
        .ok bit b₇ ∧
      v = .const .zero ∧ b' = (b₇.leaveLoop bit b₁.nextBlock).setNamed x (b₁.named x) := by
  simp only [Expr.codegen] at h
  obtain ⟨s, b₁, hs, h⟩ := bind_eq_ok (p := start.codegen A) (s := b.newAlloca) h
  obtain ⟨u, b₂, hu, h⟩ := bind_eq_ok (p := body.codegen A)
    (s := (b₁.append b₁.insert (.store s b.nextInst)).enterLoop.setNamed x
      (some b.nextInst)) h
  obtain ⟨d, b₃, hd, h⟩ := bind_eq_ok h
  obtain ⟨e, b₄, he, h⟩ := bind_eq_ok h
  obtain ⟨cur, b₅, hcur, h⟩ := bind_eq_ok h
  obtain ⟨next, b₆, hnext, h⟩ := bind_eq_ok h
  obtain ⟨bit, b₇, hbit, h⟩ := bind_eq_ok
    (p := createFCmp .one e (.const .zero))
    (s := b₆.append b₆.insert (.store next b.nextInst)) h
  cases h
  exact ⟨s, b₁, u, b₂, d, b₃, e, b₄, cur, b₅, next, b₆, bit, b₇, hs, hu, hd, he, hcur, hnext,
    hbit, rfl, rfl⟩

theorem codegen_vars_cons {x : String} {init : Option Expr}
    {vs : List (String × Option Expr)} {old new : String → Option Nat}
    (h : codegenVars A old ((x, init) :: vs) b = .ok new b') :
    ∃ d b₁, codegenOption A .zero init b = .ok d b₁ ∧
      codegenVars A (fun y => if y = x then b₁.named x else old y) vs
        ((b₁.newAlloca.append b₁.insert (.store d b₁.nextInst)).setNamed x
          (some b₁.nextInst)) = .ok new b' := by
  simp only [codegenVars] at h
  obtain ⟨d, b₁, hd, h⟩ := bind_eq_ok h
  exact ⟨d, b₁, hd, h⟩

/-- The bindings after the restoring loop. -/
def restored (old : String → Option Nat) :
    List (String × Option Expr) → (String → Option Nat) → String → Option Nat
  | [], named => named
  | (x, _) :: vs, named => restored old vs fun y => if y = x then old x else named y

theorem restoreNamed_ok (old : String → Option Nat) (vs : List (String × Option Expr))
    (b : Builder) :
    restoreNamed old vs b = .ok () { b with named := restored old vs b.named } := by
  induction vs generalizing b with
  | nil => rfl
  | cons v vs ih =>
      simp only [restoreNamed]
      rw [bind_ok (show namedSet v.1 (old v.1) b = .ok () (b.setNamed v.1 (old v.1)) from rfl)]
      exact ih _

theorem codegen_varIn {varNames : List (String × Option Expr)} {body : Expr}
    (h : (Expr.varIn varNames body).codegen A b = .ok v b') :
    ∃ old b₁ b₂, codegenVars A (fun _ => none) varNames b = .ok old b₁ ∧
      body.codegen A b₁ = .ok v b₂ ∧
      b' = { b₂ with named := restored old varNames b₂.named } := by
  simp only [Expr.codegen] at h
  obtain ⟨old, b₁, hold, h⟩ := bind_eq_ok h
  obtain ⟨x, b₂, hx, h⟩ := bind_eq_ok h
  obtain ⟨u, b₃, hr, h⟩ := bind_eq_ok h
  rw [restoreNamed_ok] at hr
  cases hr
  obtain ⟨rfl, rfl⟩ := pure_eq_ok h
  exact ⟨old, b₁, b₂, hold, hx, rfl⟩

/-! ### Functions -/

variable {fn : Function} {f : FunctionAST} {proto : Prototype}

theorem declareFunction_ok (h : declareFunction proto b = .ok fn b') :
    getFunction proto.name { b with protos := b.protos.insert proto } = .ok (some fn) b' ∧
      fn.body = none := by
  unfold declareFunction at h
  obtain ⟨o, b₁, hg, h⟩ := bind_eq_ok (p := getFunction proto.name)
    (s := { b with protos := b.protos.insert proto }) h
  cases o with
  | none => cases h
  | some g =>
      cases hb : g.body with
      | none =>
          simp only [hb] at h
          cases h
          exact ⟨hg, hb⟩
      | some _ =>
          simp only [hb] at h
          cases h

/-- After the function is found, `codegen` is the parameters and the `try`. -/
theorem functionCodegen_eq {b₁ : Builder} (h : declareFunction f.prototype b = .ok fn b₁) :
    f.codegen A b = (codegenParams 0 fn.params >>= fun _ =>
      erasing fn (codegenBody A fn f.body) >>= fun _ => pure fn)
        (b₁.withPrecedence f.prototype).begin := by
  unfold FunctionAST.codegen
  rw [bind_ok h]
  unfold Builder.withPrecedence
  split <;> rfl

theorem functionCodegen_ok (h : f.codegen A b = .ok fn b') :
    ∃ b₁ b₂ v b₃, declareFunction f.prototype b = .ok fn b₁ ∧
      codegenParams 0 fn.params (b₁.withPrecedence f.prototype).begin = .ok () b₂ ∧
      f.body.codegen A b₂ = .ok v b₃ ∧ b' = b₃.finish fn v := by
  obtain ⟨g, b₁, hd, -⟩ := bind_eq_ok h
  rw [functionCodegen_eq hd] at h
  obtain ⟨_, b₂, hp, h⟩ := bind_eq_ok h
  obtain ⟨_, b₃, he, h⟩ := bind_eq_ok h
  obtain ⟨rfl, rfl⟩ := pure_eq_ok h
  unfold erasing at he
  cases hb : codegenBody A fn f.body b₂ with
  | error e b₄ =>
      rw [hb] at he
      cases e <;> cases he
  | ok u b₄ =>
      rw [hb] at he
      cases he
      obtain ⟨v, b₅, hv, hb⟩ := bind_eq_ok hb
      cases hb
      exact ⟨b₁, b₂, v, b₅, hd, hp, hv, rfl⟩

end LlvmPasses.Kaleido
