import LlvmPasses.Proofs.CodegenTables

/-!
# What code generation rejects

Code generation and `check` stop the same way: both return, or both throw and
throw the same. The relation between their states is that the scope has the
names bound, that the same casts went wrong, and that the arities are those
`getFunction` would find, which code generation never changes. It also says
what became of the module: `getFunction` has declared something in it exactly
if it was asked for a function that the module did not have and a prototype
was filed for, and so the walk's record of what was asked for tells whether the
module is still as it was. The relation holds where both throw as well, since
an exception that is thrown inside a body undoes nothing there.

The point of `functionCodegen_check` is that a definition's fate can be told
without generating code. The walk of `Kaleido.Check` reads names, arities and
operators only; here it is shown that code generation returns where the walk
returns and throws what the walk throws, with the scope, the casts and the
declared functions in the same state. `AssignTargets` and the modules about
sessions then reason about the walk.

The proof uses the rules for two programs in `Lib.Hoare`: `Matches` relates a
program of the code generator to one of the walk under a relation on states.
Most operations have no counterpart in the walk and keep the relation
(`Unscoped`), so they are passed over one at a time; a lookup, a binding, a
cast and a call are matched with theirs. The induction over the tree then
follows the two programs construct by construct.
-/

namespace LlvmPasses.Kaleido

open StateError

/-- Asking for the function declares nothing. -/
def Builder.Quiet (b : Builder) (x : String) : Prop :=
  (b.module.getFunction x).isSome ∨ b.protos.find x = none

/-- The walk is where code generation is that began with `b₀`. -/
structure Scopes (b₀ b : Builder) (w : Walk) : Prop where
  arity : b.arityOf = b₀.arityOf
  protos : b.protos.find = b₀.protos.find
  scope : b.scope = w.scope
  miscasts : b.miscasts = b₀.miscasts + w.miscasts
  unique : b.module.lastUnique = b₀.module.lastUnique
  same : (∀ x ∈ w.asked, b₀.Quiet x) → b.module.functions = b₀.module.functions
  more : ∀ x ∈ w.asked, ¬ b₀.Quiet x →
    b₀.module.functions.length < b.module.functions.length

section

variable {A : Arith} {α β γ : Type} {b₀ b b' : Builder} {w : Walk}

theorem Scopes.refl (b : Builder) : Scopes b b { scope := b.scope } :=
  ⟨rfl, rfl, rfl, rfl, rfl, fun _ => rfl, nofun⟩

theorem Scopes.of_eq (h : Scopes b₀ b w) (hmodule : b'.module = b.module)
    (hprotos : b'.protos = b.protos) (hnamed : b'.named = b.named)
    (hmiscasts : b'.miscasts = b.miscasts) : Scopes b₀ b' w where
  arity := (arityOf_eq hmodule hprotos).trans h.arity
  protos := hprotos ▸ h.protos
  scope := by
    rw [← h.scope]
    unfold Builder.scope
    rw [hnamed]
  miscasts := hmiscasts.trans h.miscasts
  unique := hmodule ▸ h.unique
  same := hmodule ▸ h.same
  more := hmodule ▸ h.more

/-- A step that binds nothing and declares nothing has no counterpart. -/
def Unscoped (p : CodegenM α) : Prop :=
  ∀ b, ∃ a b', p b = .ok a b' ∧ b'.module = b.module ∧ b'.protos = b.protos ∧
    b'.named = b.named ∧ b'.miscasts = b.miscasts

theorem Unscoped.left {p : CodegenM α} (h : Unscoped p) {f : α → CodegenM β} {q : CheckM γ}
    {S : β → γ → Prop} (hf : ∀ a, Matches (Scopes b₀) (f a) q S) :
    Matches (Scopes b₀) (p >>= f) q S := by
  refine Matches.left (fun b w hb => ?_) fun a (_ : True) => hf a
  obtain ⟨a, b', hp, hmodule, hprotos, hnamed, hmiscasts⟩ := h b
  exact ⟨a, b', hp, hb.of_eq hmodule hprotos hnamed hmiscasts, trivial⟩

theorem Unscoped.last {p : CodegenM α} (h : Unscoped p) :
    Matches (Scopes b₀) p (pure ()) fun _ _ => True := by
  intro b w hb
  obtain ⟨a, b', hp, hmodule, hprotos, hnamed, hmiscasts⟩ := h b
  rw [hp]
  exact ⟨hb.of_eq hmodule hprotos hnamed hmiscasts, trivial⟩

theorem unscoped_emit (i : Instr) : Unscoped (emit i) := fun _ => ⟨_, _, rfl, rfl, rfl, rfl, rfl⟩

theorem unscoped_emitValue (i : Nat → Instr) : Unscoped (emitValue i) :=
  fun _ => ⟨_, _, rfl, rfl, rfl, rfl, rfl⟩

theorem unscoped_pure (a : α) : Unscoped (pure a) := fun _ => ⟨_, _, rfl, rfl, rfl, rfl, rfl⟩

theorem unscoped_alloca : Unscoped createEntryBlockAlloca :=
  fun _ => ⟨_, _, rfl, rfl, rfl, rfl, rfl⟩

theorem unscoped_createCall (fn : Function) (args : List Value) : Unscoped (createCall fn args) :=
  fun _ => ⟨_, _, rfl, rfl, rfl, rfl, rfl⟩

theorem unscoped_createFBin (op : FBinOp) (x y : Value) : Unscoped (createFBin A op x y) := by
  unfold createFBin
  split
  · exact unscoped_pure _
  · exact unscoped_emitValue _

theorem unscoped_createFCmp (pred : FCmpPred) (x y : Value) : Unscoped (createFCmp pred x y) := by
  unfold createFCmp
  split
  · exact unscoped_pure _
  · exact unscoped_emitValue _

theorem unscoped_createUIToFP (x : Value) : Unscoped (createUIToFP x) := by
  unfold createUIToFP
  split
  · exact unscoped_pure _
  · exact unscoped_emitValue _

theorem unscoped_block : Unscoped createBlock := fun _ => ⟨_, _, rfl, rfl, rfl, rfl, rfl⟩

theorem unscoped_blockIn : Unscoped createBlockIn := fun _ => ⟨_, _, rfl, rfl, rfl, rfl, rfl⟩

theorem unscoped_attach (k : Nat) : Unscoped (attachBlock k) :=
  fun _ => ⟨_, _, rfl, rfl, rfl, rfl, rfl⟩

theorem unscoped_setInsert (k : Nat) : Unscoped (setInsertPoint k) :=
  fun _ => ⟨_, _, rfl, rfl, rfl, rfl, rfl⟩

theorem unscoped_getInsert : Unscoped getInsertBlock := fun _ => ⟨_, _, rfl, rfl, rfl, rfl, rfl⟩

/-! ## Names and functions -/

theorem matches_lookup (x : String) :
    Matches (Scopes b₀) (namedLookup x) (bound x) fun o isBound => o.isSome = isBound := by
  intro b w hb
  refine ⟨hb, ?_⟩
  show b.scope x = w.scope x
  rw [hb.scope]

theorem matches_set (x : String) (cell : Option Nat) {isBound : Bool}
    (h : cell.isSome = isBound) :
    Matches (Scopes b₀) (namedSet x cell) (bindName x isBound) fun _ _ => True := by
  intro b w hb
  refine ⟨⟨hb.arity, hb.protos, ?_, hb.miscasts, hb.unique, hb.same, hb.more⟩, trivial⟩
  show _ = fun y => if y = x then isBound else w.scope y
  rw [← hb.scope, ← h]
  funext y
  show (if y = x then cell else b.named y).isSome = if y = x then cell.isSome else _
  split <;> rfl

theorem matches_cast (e : Expr) :
    Matches (Scopes b₀) (castToVariable e) (noteCast e) fun _ _ => True := by
  intro b w hb
  refine ⟨?_, trivial⟩
  show Scopes b₀ (if e.isVariable then b else { b with miscasts := b.miscasts + 1 })
    (if e.isVariable then w else { w with miscasts := w.miscasts + 1 })
  split
  · exact hb
  · exact ⟨hb.arity, hb.protos, hb.scope, congrArg Nat.succ hb.miscasts, hb.unique, hb.same,
      hb.more⟩

/-- What `getFunction` does to the functions there are. -/
theorem getFunction_functions {x : String} {o : Option Function}
    (h : getFunction x b = .ok o b') :
    (b'.miscasts = b.miscasts ∧ b'.module.lastUnique = b.module.lastUnique) ∧
      (b.Quiet x → b'.module.functions = b.module.functions) ∧
      (¬ b.Quiet x → ∃ f, o = some f ∧ b'.module.functions = b.module.functions ++ [f]) := by
  unfold getFunction at h
  rw [bind_ok (show (get : CodegenM Builder) b = .ok b b from rfl)] at h
  unfold Builder.Quiet
  cases hf : b.module.getFunction x with
  | some f =>
      simp only [hf] at h
      cases h
      exact ⟨⟨rfl, rfl⟩, fun _ => rfl, fun hq => absurd (.inl rfl) hq⟩
  | none =>
      simp only [hf] at h
      cases hp : b.protos.find x with
      | none =>
          simp only [hp] at h
          cases h
          exact ⟨⟨rfl, rfl⟩, fun _ => rfl, fun hq => absurd (.inr rfl) hq⟩
      | some p =>
          simp only [hp] at h
          cases h
          obtain rfl : p.name = x := b.protos.name_eq hp
          have hfree := uniqueName_free "." b.module.lastUnique (Module.getFunction_eq_none hf)
          exact ⟨⟨rfl, congrArg Prod.snd hfree⟩, fun hq => by simp at hq, fun _ => ⟨_, rfl, rfl⟩⟩

/-- While nothing has been declared, the same functions are there to be found. -/
theorem Scopes.quiet_iff (h : Scopes b₀ b w) (hq : ∀ x ∈ w.asked, b₀.Quiet x) (x : String) :
    b.Quiet x ↔ b₀.Quiet x := by
  unfold Builder.Quiet Module.getFunction
  rw [h.same hq, h.protos]

/-- A function is found exactly if it has an arity, and it has that arity. -/
theorem matches_getFunction (x : String) :
    Matches (Scopes b₀) (getFunction x) (askArity b₀.arityOf x)
      fun o n => (o.map fun fn => fn.params.length) = n := by
  intro b w hb
  obtain ⟨o, b', hrun, hlen, -, hdecl⟩ := getFunction_run x b
  obtain ⟨⟨hmiscasts, hunique⟩, hquiet, hloud⟩ := getFunction_functions hrun
  have hlt : ¬ b.Quiet x → b.module.functions.length < b'.module.functions.length := fun hq => by
    obtain ⟨f, -, heq⟩ := hloud hq
    rw [heq, List.length_append]
    exact Nat.lt_succ_self _
  have hle : b.module.functions.length ≤ b'.module.functions.length := by
    by_cases hq : b.Quiet x
    · exact Nat.le_of_eq (congrArg List.length (hquiet hq)).symm
    · exact Nat.le_of_lt (hlt hq)
  rw [hrun]
  refine ⟨⟨hdecl.arity.trans hb.arity, ?_, ?_, hmiscasts.trans hb.miscasts,
    hunique.trans hb.unique, fun hall => ?_, fun y hy hnot => ?_⟩,
    hlen.trans (congrFun hb.arity x)⟩
  · rw [hdecl.rest]
    exact hb.protos
  · rw [hdecl.rest]
    exact hb.scope
  · have hbefore : ∀ y ∈ w.asked, b₀.Quiet y := fun y hy => hall y (List.mem_append_left _ hy)
    have hx := hall x (List.mem_append_right _ (List.mem_singleton_self x))
    rw [hquiet ((hb.quiet_iff hbefore x).mpr hx), hb.same hbefore]
  · by_cases hbefore : ∀ z ∈ w.asked, b₀.Quiet z
    · -- it is the function asked for now that is declared
      obtain rfl : y = x := (List.mem_append.mp hy).elim (fun hy => absurd (hbefore y hy) hnot)
        List.mem_singleton.mp
      rw [← hb.same hbefore]
      exact hlt fun hq => hnot ((hb.quiet_iff hbefore y).mp hq)
    · simp only [not_forall] at hbefore
      obtain ⟨z, hz, hz'⟩ := hbefore
      exact Nat.lt_of_lt_of_le (hb.more z hz hz') hle

/-! ## Expressions -/

/-- Code generation for `e` and its check stop the same way. -/
def Checked (A : Arith) (b₀ : Builder) (e : Expr) : Prop :=
  Matches (Scopes b₀) (e.codegen A) (e.check b₀.arityOf) fun _ _ => True

theorem checked_option {o : Option Expr} {d : Double} (ho : ∀ e ∈ o, Checked A b₀ e) :
    Matches (Scopes b₀) (codegenOption A d o) (checkOption b₀.arityOf o) fun _ _ => True := by
  cases o with
  | none =>
      simp only [codegenOption, checkOption]
      exact .pure trivial
  | some e =>
      simp only [codegenOption, checkOption]
      exact ho e rfl

theorem checked_args {es : List Expr} (hes : ∀ e ∈ es, Checked A b₀ e) :
    Matches (Scopes b₀) (codegenArgs A es) (checkArgs b₀.arityOf es) fun _ _ => True := by
  induction es with
  | nil =>
      simp only [codegenArgs, checkArgs]
      exact .pure trivial
  | cons e es ih =>
      have h : Matches (Scopes b₀) (codegenArgs A (e :: es))
          (checkArgs b₀.arityOf (e :: es) >>= pure) fun _ _ => True := by
        simp only [codegenArgs, checkArgs, bind_assoc]
        exact (hes e (List.mem_cons_self ..)).bind fun _ _ _ =>
          (ih fun a ha => hes a (List.mem_cons_of_mem _ ha)).bind fun _ _ _ => .pure trivial
      rwa [bind_pure] at h

theorem checked_vars {vs : List (String × Option Expr)} {old : String → Option Nat}
    {was : Scope} (hvs : ∀ v ∈ vs, ∀ e ∈ v.2, Checked A b₀ e)
    (hold : ∀ x, (old x).isSome = was x) :
    Matches (Scopes b₀) (codegenVars A old vs) (checkVars b₀.arityOf was vs)
      fun old was => ∀ x, (old x).isSome = was x := by
  induction vs generalizing old was with
  | nil =>
      simp only [codegenVars, checkVars]
      exact .pure hold
  | cons w vs ih =>
      obtain ⟨x, init⟩ := w
      simp only [codegenVars, checkVars]
      refine (checked_option (hvs _ (List.mem_cons_self ..))).bind fun _ _ _ =>
        unscoped_alloca.left fun cell => (unscoped_emit _).left fun _ =>
        (matches_lookup x).bind fun o isBound ho =>
        (matches_set x (some cell) rfl).bind fun _ _ _ => ?_
      refine ih (fun w hw => hvs w (List.mem_cons_of_mem _ hw)) fun y => ?_
      split
      · exact ho
      · exact hold y

theorem checked_restore {vs : List (String × Option Expr)} {old : String → Option Nat}
    {was : Scope} (hold : ∀ x, (old x).isSome = was x) :
    Matches (Scopes b₀) (restoreNamed old vs) (restoreScope was vs) fun _ _ => True := by
  induction vs with
  | nil => exact .pure trivial
  | cons w vs ih => exact (matches_set w.1 _ (hold w.1)).bind fun _ _ _ => ih

theorem checked_operator {op : String} {vs : List Value} {what : String} :
    Matches (Scopes b₀) (do
        match ← getFunction op with
        | none => throwCodegen what
        | some fn => createCall fn vs)
      (do
        match ← askArity b₀.arityOf op with
        | none => checkFail what
        | some _ => pure ()) fun _ _ => True := by
  refine (matches_getFunction op).bind fun o n ho => ?_
  subst ho
  cases o with
  | none => exact .throw _
  | some fn => exact (unscoped_createCall fn vs).last

theorem checked_assign {lhs rhs : Expr} (hr : Checked A b₀ rhs) :
    Checked A b₀ (.binary '=' lhs rhs) := by
  unfold Checked
  simp only [Expr.codegen, Expr.check, if_true]
  refine (matches_cast lhs).bind fun _ _ _ => hr.bind fun v _ _ => ?_
  cases lhs with
  | «variable» name =>
      refine (matches_lookup name).bind fun o isBound ho => ?_
      subst ho
      cases o with
      | none => exact .throw _
      | some cell => exact (unscoped_emit _).left fun _ => .pure trivial
  | _ => exact .throw _

theorem checked_binary {op : Char} {lhs rhs : Expr} (hop : op ≠ '=') (hl : Checked A b₀ lhs)
    (hr : Checked A b₀ rhs) : Checked A b₀ (.binary op lhs rhs) := by
  unfold Checked
  simp only [Expr.codegen, Expr.check, if_neg hop]
  refine hl.bind fun x _ _ => hr.bind fun y _ _ => ?_
  split
  · exact (unscoped_createFBin _ _ _).last
  · exact (unscoped_createFBin _ _ _).last
  · exact (unscoped_createFBin _ _ _).last
  · exact (unscoped_createFCmp _ _ _).left fun _ => (unscoped_createUIToFP _).last
  · next hadd hsub hmul hlt =>
      have hmem : op ∉ ['+', '-', '*', '<'] := by
        simp only [List.mem_cons, List.not_mem_nil, or_false, not_or]
        exact ⟨hadd, hsub, hmul, hlt⟩
      rw [if_neg hmem]
      exact checked_operator

theorem checked_ifElse {cond thn els : Expr} (hc : Checked A b₀ cond)
    (ht : Checked A b₀ thn) (he : Checked A b₀ els) :
    Checked A b₀ (.ifElse cond thn els) := by
  unfold Checked
  have h : Matches (Scopes b₀) ((Expr.ifElse cond thn els).codegen A)
      ((Expr.ifElse cond thn els).check b₀.arityOf >>= pure) fun _ _ => True := by
    simp only [Expr.codegen, Expr.check_ifElse, bind_assoc]
    exact hc.bind fun _ _ _ => (unscoped_createFCmp _ _ _).left fun _ =>
      unscoped_blockIn.left fun _ => unscoped_block.left fun _ => unscoped_block.left fun _ =>
      (unscoped_emit _).left fun _ => (unscoped_setInsert _).left fun _ => ht.bind fun _ _ _ =>
      (unscoped_emit _).left fun _ => unscoped_getInsert.left fun _ =>
      (unscoped_attach _).left fun _ => (unscoped_setInsert _).left fun _ =>
      he.bind fun _ _ _ => (unscoped_emit _).left fun _ => unscoped_getInsert.left fun _ =>
      (unscoped_attach _).left fun _ => (unscoped_setInsert _).left fun _ =>
      (unscoped_emitValue _).last
  rwa [bind_pure] at h

theorem checked_forIn {x : String} {start fin body : Expr} {step : Option Expr}
    (hs : Checked A b₀ start) (hf : Checked A b₀ fin)
    (ho : ∀ e ∈ step, Checked A b₀ e) (hb : Checked A b₀ body) :
    Checked A b₀ (.forIn x start fin step body) := by
  unfold Checked
  have h : Matches (Scopes b₀) ((Expr.forIn x start fin step body).codegen A)
      ((Expr.forIn x start fin step body).check b₀.arityOf >>= pure) fun _ _ => True := by
    simp only [Expr.codegen, Expr.check, bind_assoc]
    exact unscoped_alloca.left fun cell => hs.bind fun _ _ _ => (unscoped_emit _).left fun _ =>
      unscoped_blockIn.left fun _ => (unscoped_emit _).left fun _ =>
      (unscoped_setInsert _).left fun _ => (matches_lookup x).bind fun o isBound hold =>
      (matches_set x (some cell) rfl).bind fun _ _ _ => hb.bind fun _ _ _ =>
      (checked_option ho).bind fun _ _ _ => hf.bind fun _ _ _ =>
      (unscoped_emitValue _).left fun _ => (unscoped_createFBin _ _ _).left fun _ =>
      (unscoped_emit _).left fun _ => (unscoped_createFCmp _ _ _).left fun _ =>
      unscoped_blockIn.left fun _ => (unscoped_emit _).left fun _ =>
      (unscoped_setInsert _).left fun _ => (matches_set x _ hold).bind fun _ _ _ => .pure trivial
  rwa [bind_pure] at h

theorem checked_call {callee : String} {args : List Expr}
    (hargs : ∀ e ∈ args, Checked A b₀ e) : Checked A b₀ (.call callee args) := by
  unfold Checked
  simp only [Expr.codegen, Expr.check]
  refine (matches_getFunction callee).bind fun o n ho => ?_
  subst ho
  cases o with
  | none => exact .throw _
  | some fn =>
      simp only [Option.map_some]
      split
      · exact .throw _
      · have h : Matches (Scopes b₀) (codegenArgs A args >>= createCall fn)
            (checkArgs b₀.arityOf args >>= pure) fun _ _ => True :=
          (checked_args hargs).bind fun vs _ _ => (unscoped_createCall fn vs).last
        rwa [bind_pure] at h

/-- Code generation rejects what `check` rejects, for the same reason. -/
theorem checked (A : Arith) (b₀ : Builder) : ∀ e, Checked A b₀ e :=
  Expr.Inductive.all {
    number := fun val => by
      unfold Checked
      simp only [Expr.codegen, Expr.check]
      exact .pure trivial
    name := fun x => by
      unfold Checked
      simp only [Expr.codegen, Expr.check]
      refine (matches_lookup x).bind fun o isBound ho => ?_
      subst ho
      cases o with
      | none => exact .throw _
      | some cell => exact (unscoped_emitValue _).last
    varIn := fun varNames body hvars hbody => by
      have h : Matches (Scopes b₀) ((Expr.varIn varNames body).codegen A)
          ((Expr.varIn varNames body).check b₀.arityOf >>= pure) fun _ _ => True := by
        simp only [Expr.codegen, Expr.check, bind_assoc]
        exact (checked_vars hvars fun _ => rfl).bind fun old was hold => hbody.bind
          fun _ _ _ => (checked_restore hold).bind fun _ _ _ => .pure trivial
      unfold Checked
      rwa [bind_pure] at h
    unary := fun op operand ho => by
      unfold Checked
      simp only [Expr.codegen, Expr.check]
      exact ho.bind fun _ _ _ => checked_operator
    binary := fun op lhs rhs hl hr => by
      by_cases hop : op = '='
      · subst hop
        exact checked_assign hr
      · exact checked_binary hop hl hr
    ifElse := fun _ _ _ => checked_ifElse
    forIn := fun _ _ _ _ _ => checked_forIn
    call := fun _ _ => checked_call }

/-- How generating an expression's code and walking it end: alike. -/
inductive Walked (b₀ : Builder) :
    EStateM.Result Abort Builder Value → EStateM.Result Abort Walk Unit → Prop
  | ok {v : Value} {b : Builder} {w : Walk} (h : Scopes b₀ b w) : Walked b₀ (.ok v b) (.ok () w)
  | error {e : Abort} {b : Builder} {w : Walk} (h : Scopes b₀ b w) :
      Walked b₀ (.error e b) (.error e w)

theorem walked (A : Arith) (e : Expr) (b : Builder) :
    Walked b (e.codegen A b) (e.check b.arityOf { scope := b.scope }) := by
  have h := checked A b e b _ (.refl b)
  cases hv : e.codegen A b with
  | ok v b' =>
      rw [hv] at h
      cases hw : e.check b.arityOf { scope := b.scope } with
      | ok u w =>
          rw [hw] at h
          exact .ok h.1
      | error x w =>
          rw [hw] at h
          exact h.elim
  | error x b' =>
      rw [hv] at h
      cases hw : e.check b.arityOf { scope := b.scope } with
      | ok u w =>
          rw [hw] at h
          exact h.elim
      | error y w =>
          rw [hw] at h
          obtain ⟨h, rfl⟩ := h
          exact .error h

/-! ## Definitions -/

/-- The parameters, and what was bound before them. -/
theorem codegenParams_scope {i : Nat} {names : List String} {u : Unit}
    (h : codegenParams i names b = .ok u b') (x : String) :
    b'.scope x = (b.scope x || decide (x ∈ names)) := by
  induction names generalizing i b with
  | nil =>
      cases h
      simp
  | cons name names ih =>
      rw [ih (b := (b.newAlloca.append b.insert (.store (.arg i) b.nextInst)).setNamed name
        (some b.nextInst)) h]
      by_cases hx : x = name
      · simp [Builder.scope, Builder.setNamed, hx]
      · simp [Builder.scope, Builder.setNamed, hx, Builder.append, Builder.newAlloca]

theorem codegenParams_tables {i : Nat} {names : List String} {u : Unit}
    (h : codegenParams i names b = .ok u b') : b'.module = b.module ∧ b'.protos = b.protos := by
  induction names generalizing i b with
  | nil =>
      cases h
      exact ⟨rfl, rfl⟩
  | cons name names ih =>
      exact ih (b := (b.newAlloca.append b.insert (.store (.arg i) b.nextInst)).setNamed name
        (some b.nextInst)) h

/-- Where the body's turn comes, and how it goes from there. -/
theorem body_walked {f : FunctionAST} {fn : Function} {b₁ : Builder}
    (hd : Declared f.prototype b fn b₁) : ∃ b₂,
      codegenParams 0 fn.params (b₁.withPrecedence f.prototype).begin = .ok () b₂ ∧
      b₂.module = b₁.module ∧ b₂.protos = b₁.protos ∧
      Walked b₂ (f.body.codegen A b₂) (f.walk b) := by
  obtain ⟨b₂, hp⟩ := codegenParams_returns 0 fn.params (b₁.withPrecedence f.prototype).begin
  obtain ⟨hprotos, hmodule, -⟩ := withPrecedence_tables b₁ f.prototype
  obtain ⟨hmodule₂, hprotos₂⟩ := codegenParams_tables hp
  have hmodule₂ : b₂.module = b₁.module := hmodule₂.trans hmodule
  have hprotos₂ : b₂.protos = b₁.protos := hprotos₂.trans hprotos
  have harity : b₂.arityOf = (b.file f.prototype).arityOf :=
    (arityOf_eq hmodule₂ hprotos₂).trans hd.declares.arity
  have hscope : b₂.scope = fun x => decide (x ∈ b.paramsOf f.prototype) := by
    funext x
    rw [codegenParams_scope hp, hd.params]
    rfl
  refine ⟨b₂, hp, hmodule₂, hprotos₂, ?_⟩
  have h := walked A f.body b₂
  rw [harity, hscope] at h
  exact h

/-- A definition is rejected as `FunctionAST.check` says. -/
theorem functionCodegen_check (A : Arith) (f : FunctionAST) (b : Builder) :
    match f.codegen A b with
    | .ok _ _ => f.check b = none
    | .error e _ => f.check b = some e := by
  unfold FunctionAST.check
  rcases declareFunction_run f.prototype b with ⟨hbody, herr⟩ | ⟨fn, b₁, hdecl, hd⟩
  · have hcodegen : f.codegen A b =
        .error (.exception "Function cannot be redefined") (b.file f.prototype) :=
      bind_error herr
    rw [hcodegen, if_pos hbody]
  · obtain ⟨b₂, hp, -, -, hw⟩ := body_walked (A := A) hd
    rw [if_neg hd.not_hasBody, functionCodegen_eq hdecl, bind_ok hp]
    generalize f.walk b = r at hw
    generalize hv : f.body.codegen A b₂ = r' at hw
    cases hw with
    | @ok v b₃ w h =>
        have hbody : codegenBody A fn f.body b₂ = .ok () (b₃.finish fn v) := by
          unfold codegenBody
          rw [bind_ok hv]
          rfl
        rw [bind_ok (erasing_ok hbody)]
        rfl
    | @error e b₃ w h =>
        have hbody : codegenBody A fn f.body b₂ = .error e b₃ := bind_error hv
        cases e with
        | exception what => rw [bind_error (erasing_exception hbody)]
        | misread => rw [bind_error (erasing_misread hbody)]

end

end LlvmPasses.Kaleido
