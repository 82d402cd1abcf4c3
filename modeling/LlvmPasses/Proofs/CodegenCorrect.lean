import LlvmPasses.Proofs.CodegenRun

/-!
# The code generator is correct

Code generated for an expression, run from the insertion point, tracks the
reference evaluation: it gets to the insertion point after the expression with
the value in the register that `codegen` returned, the variables' cells holding
the same store and the same calls made, or it is still running after as many
steps as the evaluation had fuel.

The statement is carried by induction over the tree, in one lemma for each
construct. What is proved of an expression is proved for every program that
extends the code emitted for it, so that a part keeps its meaning inside the
whole: the code of an arm of an `if` runs the same whatever is emitted after
it, and the code of a loop's body each time round.

`codegen_correct` is about both directions of termination. Whatever the
evaluation answers with some fuel the code comes to, and whatever the code
comes to the evaluation answers with enough fuel; so a loop that never ends in
one never ends in the other, and a call that is not answered blocks both. Both
directions come from one statement, since an evaluation without an answer keeps
the machine running for as many steps as it had fuel (`Tracks`).
-/

namespace LlvmPasses.Kaleido

open StateError Transition

/-- The machine after the code of an expression: at the insertion point `b'`,
with the value and the store of the evaluation. -/
structure After (outer : String → Option Nat) (scope : List (String × Nat)) (G : Program)
    (b b' : Builder) (v : Value) (m : Machine) (d : Double) (st' : Store) (m' : Machine) :
    Prop where
  at_ : At G b' m'
  holds : Holds outer scope m' st'
  value : m'.value v = some (.dbl d)
  frame : Frame b.nextInst m m'

/-- What the induction over the tree says of one expression. -/
def Simulates (W : World) (outer : String → Option Nat) (fuel : Nat) (e : Expr) : Prop :=
  ∀ b v b' G scope m st, e.codegen W.arith b = .ok v b' → b.Ok → Extends b' G →
    Scoped outer scope b.named b.nextInst → At G b m → Holds outer scope m st →
    Tracks (Machine.step W G) fuel m (eval W outer fuel e st) (After outer scope G b b' v m)

section Parts

variable {W : World} {outer : String → Option Nat} {fuel : Nat} {b b' : Builder} {v : Value}
variable {G : Program} {scope : List (String × Nat)} {m : Machine} {st : Store}

theorem simulates_number (val : Double) : Simulates W outer fuel (.number val) := by
  intro b v b' G scope m st h hb hext hs hat hh
  simp only [Expr.codegen] at h
  obtain ⟨rfl, rfl⟩ := pure_eq_ok h
  rw [eval]
  exact Tracks.pure ⟨hat, hh, rfl, .refl _ m⟩

theorem simulates_variable (x : String) : Simulates W outer fuel (.variable x) := by
  intro b v b' G scope m st h hb hext hs hat hh
  obtain ⟨alloca, hn, hl⟩ := codegen_variable h
  obtain ⟨d, hread, hcell⟩ := hh.read hs hn
  obtain ⟨m', hm, hat', hv, hq⟩ := run_load hl hext hat hcell
  rw [eval, hread]
  exact ⟨m', hm, hat', hh.of_quiet hq.cells hq.calls, hv, hq.toFrame⟩

theorem callFn_some {name : String} {ds : List Double} {d : Double}
    (h : W.oracle (st.calls ++ [(name, ds)]) = some d) :
    callFn W name ds st = .ok d { st with calls := st.calls ++ [(name, ds)] } := by
  simp only [callFn, h]

theorem callFn_none {name : String} {ds : List Double}
    (h : W.oracle (st.calls ++ [(name, ds)]) = none) :
    callFn W name ds st = .error .timeout st := by
  simp only [callFn, h]

/-- A call: the machine waits where the evaluation does not end. -/
theorem tracks_call (W : World) (fuel : Nat) {fn : Function} {args : List Value} {ds : List Double}
    (h : createCall fn args b = .ok v b') (hext : Extends b' G)
    (hname : G.nameOf fn.id = some fn.name) (hat : At G b m) (hh : Holds outer scope m st)
    (hargs : List.Forall₂ (fun v d => m.value v = some (.dbl d)) args ds) :
    Tracks (Machine.step W G) fuel m (callFn W fn.name ds st)
      (After outer scope G b b' v m) := by
  obtain ⟨rfl, rfl⟩ := createCall_ok h
  obtain ⟨rest, hrest, hat'⟩ := hat.next (i := .call b.nextInst fn.id args) { hext with }
  have hds := doubles_eq hargs
  cases ho : W.oracle (m.calls ++ [(fn.name, ds)]) with
  | none =>
      rw [callFn_none (hh.calls ▸ ho)]
      refine Lasts.of_loop ?_ fuel
      simp [Machine.step, hrest, Machine.waits, hname, hds, ho]
  | some d =>
      have hds' : Machine.doubles { m with rest } args = some ds :=
        doubles_eq (hargs.imp fun x _ hx => by cases x <;> exact hx)
      have hstep : Machine.step W G m = some
          { ({ m with rest } : Machine).assign b.nextInst (.dbl d) with
            calls := m.calls ++ [(fn.name, ds)] } := by
        refine step_of_exec hrest (by simp [Machine.waits, hname, hds, ho]) ?_
        simp only [Machine.exec, hname, hds', ho, Option.bind_eq_bind, Option.bind_some]
      rw [callFn_some (hh.calls ▸ ho)]
      refine ⟨_, .single hstep, { hat' with }, ⟨hh.locals, hh.cells, ?_⟩, ?_, ?_, rfl⟩
      · show m.calls ++ _ = st.calls ++ _
        rw [hh.calls]
      · simp [Machine.assign, Machine.value]
      · exact fun r hr => if_neg (Nat.ne_of_lt hr)

theorem extends_of_getFunction {name : String} {fn : Function} (hb : b.Ok)
    (h : getFunction name b = .ok (some fn) b') (hext : Extends b' G) :
    fn.name = name ∧ G.nameOf fn.id = some fn.name ∧ Extends b G := by
  obtain ⟨hmem, hname, -, -⟩ := getFunction_ok h
  exact ⟨hname, hext.names fn hmem, .of_grows (getFunction_grown hb h).grows hext⟩

/-- A function's declaration moves no insertion point and binds no name. -/
theorem At.of_getFunction {name : String} {fn : Function}
    (h : getFunction name b = .ok (some fn) b') (hat : At G b m) : At G b' m := by
  rw [(getFunction_ok h).2.2.1]
  exact { hat with }

theorem simulates_unary {op : Char} {operand : Expr} (ho : Simulates W outer fuel operand) :
    Simulates W outer fuel (.unary op operand) := by
  intro b v b' G scope m st h hb hext hs hat hh
  obtain ⟨x, b₁, fn, b₂, hx, hf, hcall⟩ := codegen_unary h
  have h₁ := (adds _ operand _ _ _ hb hx).1
  have h₂ := getFunction_grown h₁.ok hf
  have hext₂ := Extends.of_grows (createCall_grown h₂.ok hcall).1.grows hext
  obtain ⟨hname, hnameOf, hext₁⟩ := extends_of_getFunction h₁.ok hf hext₂
  rw [eval]
  refine Tracks.bind (ho _ _ _ _ _ _ _ hx hb hext₁ hs hat hh) fun d st₁ m₁ hd => ?_
  have hcall' := tracks_call W fuel hcall hext hnameOf
    (hd.at_.of_getFunction hf) hd.holds (.cons hd.value .nil)
  rw [hname] at hcall'
  refine hcall'.imp fun d' st' m' hd' => { hd' with frame := ?_ }
  exact hd.frame.trans hd'.frame (h₁.trans h₂).grows.insts

theorem simulates_assign {x : String} {rhs : Expr} (hr : Simulates W outer fuel rhs)
    (hd : rhs.Distinct) : Simulates W outer fuel (.binary '=' (.variable x) rhs) := by
  intro b v b' G scope m st h hb hext hs hat hh
  obtain ⟨name, b₁, alloca, heq, hx, hn, hstore⟩ := codegen_assign h
  cases heq
  cases hstore
  have hgrown := (adds _ rhs _ _ _ hb hx).1
  have hext₁ := Extends.of_grows (.append b₁ _) hext
  rw [keepsNamed _ rhs hd _ _ _ hx] at hn
  rw [eval, if_pos rfl]
  refine Tracks.bind (hr _ _ _ _ _ _ _ hx hb hext₁ hs hat hh) fun d st₁ m₁ h₁ => ?_
  obtain ⟨m₂, hm₂, hat₂, hframe, hcells, hcalls⟩ := run_store (W := W) hext h₁.at_ h₁.value
  obtain ⟨st₂, hwrite, hholds⟩ := h₁.holds.write hs hn d
  rw [bind_ok hwrite]
  refine ⟨m₂, hm₂, hat₂, hholds.of_quiet hcells hcalls, ?_, ?_⟩
  · rw [((adds _ rhs _ _ _ hb hx).2).value_eq hframe]
    exact h₁.value
  · exact h₁.frame.trans hframe hgrown.grows.insts

/-- What a binary operator other than `=` computes from its operands. -/
def evalBinary (W : World) (op : Char) (x y : Double) : EvalM Double :=
  match op with
  | '+' => pure (W.arith.add x y)
  | '-' => pure (W.arith.sub x y)
  | '*' => pure (W.arith.mul x y)
  | '<' => pure (boolToDouble (x.unordered y || x.lt y))
  | _ => callFn W ("binary".push op) [x, y]

theorem eval_binary {op : Char} {lhs rhs : Expr} (hop : op ≠ '=') :
    eval W outer fuel (.binary op lhs rhs) = (do
      let x ← eval W outer fuel lhs
      let y ← eval W outer fuel rhs
      evalBinary W op x y) := by
  rw [eval.eq_def]
  simp only [hop, if_false]
  rfl

theorem tracks_binary (fuel : Nat) {op : Char} {x y : Value} {c d : Double} (hb : b.Ok)
    (h : createBinary W.arith op x y b = .ok v b') (hext : Extends b' G) (hat : At G b m)
    (hh : Holds outer scope m st) (hx : m.value x = some (.dbl c))
    (hy : m.value y = some (.dbl d)) :
    Tracks (Machine.step W G) fuel m (evalBinary W op c d st)
      (After outer scope G b b' v m) := by
  unfold createBinary at h
  split at h
  · obtain ⟨m', hm, hat', hv, hq⟩ := run_fbin h hext hat hx hy
    exact ⟨m', hm, hat', hh.of_quiet hq.cells hq.calls, hv, hq.toFrame⟩
  · obtain ⟨m', hm, hat', hv, hq⟩ := run_fbin h hext hat hx hy
    exact ⟨m', hm, hat', hh.of_quiet hq.cells hq.calls, hv, hq.toFrame⟩
  · obtain ⟨m', hm, hat', hv, hq⟩ := run_fbin h hext hat hx hy
    exact ⟨m', hm, hat', hh.of_quiet hq.cells hq.calls, hv, hq.toFrame⟩
  · obtain ⟨cmp, b₁, hc, h⟩ := bind_eq_ok h
    have h₁ := ((createFCmp_result hc).grown hb).1
    have hext₁ := Extends.of_grows ((createUIToFP_result h).grown h₁.ok).1.grows hext
    obtain ⟨m₁, hm₁, hat₁, hv₁, hq₁⟩ := run_fcmp (W := W) hc hext₁ hat hx hy
    obtain ⟨m₂, hm₂, hat₂, hv₂, hq₂⟩ := run_uitofp (W := W) h hext hat₁ hv₁
    exact ⟨m₂, hm₁.trans hm₂, hat₂,
      hh.of_quiet (hq₂.cells.trans hq₁.cells) (hq₂.calls.trans hq₁.calls), hv₂,
      hq₁.toFrame.trans hq₂.toFrame h₁.grows.insts⟩
  · obtain ⟨fn, b₁, hf, h⟩ := bind_eq_ok h
    cases fn with
    | none => cases h
    | some fn =>
        have h₁ := getFunction_grown hb hf
        have hext₁ := Extends.of_grows (createCall_grown h₁.ok h).1.grows hext
        obtain ⟨hname, hnameOf, -⟩ := extends_of_getFunction hb hf hext₁
        have heval : evalBinary W op c d = callFn W ("binary".push op) [c, d] := by
          unfold evalBinary
          split <;> first | rfl | contradiction
        have hcall := tracks_call W fuel h hext hnameOf
          (hat.of_getFunction hf) hh (.cons hx (.cons hy .nil))
        rw [hname, ← heval] at hcall
        exact hcall.imp fun d' st' m' hd' =>
          { hd' with frame := (Frame.refl _ m).trans hd'.frame h₁.grows.insts }

theorem simulates_binary {op : Char} {lhs rhs : Expr} (hop : op ≠ '=')
    (hl : Simulates W outer fuel lhs) (hr : Simulates W outer fuel rhs) (hd : lhs.Distinct) :
    Simulates W outer fuel (.binary op lhs rhs) := by
  intro b v b' G scope m st h hb hext hs hat hh
  obtain ⟨x, b₁, y, b₂, hx, hy, hbin⟩ := codegen_binary hop h
  obtain ⟨h₁, hxb⟩ := adds _ lhs _ _ _ hb hx
  have h₂ := (adds _ rhs _ _ _ h₁.ok hy).1
  have hext₂ := Extends.of_grows (createBinary_grown h₂.ok hbin).1.grows hext
  have hext₁ := Extends.of_grows h₂.grows hext₂
  have hs₁ : Scoped outer scope b₁.named b₁.nextInst := by
    rw [keepsNamed _ lhs hd _ _ _ hx]
    exact hs.mono h₁.grows.insts
  rw [eval_binary hop]
  refine Tracks.bind (hl _ _ _ _ _ _ _ hx hb hext₁ hs hat hh) fun c st₁ m₁ hc => ?_
  refine Tracks.bind (hr _ _ _ _ _ _ _ hy h₁.ok hext₂ hs₁ hc.at_ hc.holds) fun d st₂ m₂ hd' => ?_
  have hxv : m₂.value x = some (.dbl c) := (hxb.value_eq hd'.frame).trans hc.value
  have hframe := hc.frame.trans hd'.frame h₁.grows.insts
  exact (tracks_binary fuel h₂.ok hbin hext hd'.at_ hd'.holds hxv hd'.value).imp
    fun _ _ _ hf => { hf with frame := hframe.trans hf.frame (h₁.trans h₂).grows.insts }

theorem simulates_option {o : Option Expr} {d : Double} (ho : ∀ e ∈ o, Simulates W outer fuel e)
    (h : codegenOption W.arith d o b = .ok v b') (hb : b.Ok) (hext : Extends b' G)
    (hs : Scoped outer scope b.named b.nextInst) (hat : At G b m)
    (hh : Holds outer scope m st) :
    Tracks (Machine.step W G) fuel m (evalOption W outer fuel d o st)
      (After outer scope G b b' v m) := by
  cases o with
  | none =>
      simp only [codegenOption] at h
      obtain ⟨rfl, rfl⟩ := pure_eq_ok h
      rw [evalOption]
      exact Tracks.pure ⟨hat, hh, rfl, .refl _ m⟩
  | some e =>
      simp only [codegenOption] at h
      rw [evalOption]
      exact ho e rfl _ _ _ _ _ _ _ h hb hext hs hat hh

/-- The machine after the code of a list of arguments. -/
structure AfterArgs (outer : String → Option Nat) (scope : List (String × Nat)) (G : Program)
    (b b' : Builder) (vs : List Value) (m : Machine) (ds : List Double) (st' : Store)
    (m' : Machine) : Prop where
  at_ : At G b' m'
  holds : Holds outer scope m' st'
  values : List.Forall₂ (fun v d => m'.value v = some (.dbl d)) vs ds
  frame : Frame b.nextInst m m'

theorem simulates_args {es : List Expr} {vs : List Value}
    (hes : ∀ e ∈ es, Simulates W outer fuel e) (hd : ∀ e ∈ es, e.Distinct)
    (h : codegenArgs W.arith es b = .ok vs b') (hb : b.Ok) (hext : Extends b' G)
    (hs : Scoped outer scope b.named b.nextInst) (hat : At G b m)
    (hh : Holds outer scope m st) :
    Tracks (Machine.step W G) fuel m (evalArgs W outer fuel es st)
      (AfterArgs outer scope G b b' vs m) := by
  induction es generalizing b vs m st with
  | nil =>
      simp only [codegenArgs] at h
      obtain ⟨rfl, rfl⟩ := pure_eq_ok h
      rw [evalArgs]
      exact Tracks.pure ⟨hat, hh, .nil, .refl _ m⟩
  | cons e es ih =>
      obtain ⟨x, b₁, xs, hx, hxs, rfl⟩ := codegen_args_cons h
      have he := hd e (List.mem_cons_self ..)
      obtain ⟨h₁, hxb⟩ := adds _ e _ _ _ hb hx
      have h₂ := (adds_args (fun a _ => adds W.arith a) h₁.ok hxs).1
      have hext₁ := Extends.of_grows h₂.grows hext
      have hs₁ : Scoped outer scope b₁.named b₁.nextInst := by
        rw [keepsNamed _ e he _ _ _ hx]
        exact hs.mono h₁.grows.insts
      rw [evalArgs]
      refine Tracks.bind (hes e (List.mem_cons_self ..) _ _ _ _ _ _ _ hx hb hext₁ hs hat hh)
        fun d st₁ m₁ h₁' => ?_
      refine Tracks.bind (ih (fun a ha => hes a (List.mem_cons_of_mem _ ha))
        (fun a ha => hd a (List.mem_cons_of_mem _ ha)) hxs h₁.ok hs₁ h₁'.at_ h₁'.holds)
        fun ds st₂ m₂ h₂' => ?_
      exact Tracks.pure ⟨h₂'.at_, h₂'.holds,
        .cons ((hxb.value_eq h₂'.frame).trans h₁'.value) h₂'.values,
        h₁'.frame.trans h₂'.frame h₁.grows.insts⟩

theorem simulates_call {callee : String} {args : List Expr}
    (hes : ∀ e ∈ args, Simulates W outer fuel e) (hd : ∀ e ∈ args, e.Distinct) :
    Simulates W outer fuel (.call callee args) := by
  intro b v b' G scope m st h hb hext hs hat hh
  obtain ⟨fn, b₁, vs, b₂, hf, _, hvs, hcall⟩ := codegen_call h
  have h₁ := getFunction_grown hb hf
  have h₂ := (adds_args (fun a _ => adds W.arith a) h₁.ok hvs).1
  have hext₂ := Extends.of_grows (createCall_grown h₂.ok hcall).1.grows hext
  have hext₁ := Extends.of_grows h₂.grows hext₂
  obtain ⟨hname, hnameOf, -⟩ := extends_of_getFunction hb hf hext₁
  have hs₁ : Scoped outer scope b₁.named b₁.nextInst := by
    rw [getFunction_named hf]
    exact hs.mono h₁.grows.insts
  rw [eval]
  refine Tracks.bind (simulates_args hes hd hvs h₁.ok hext₂ hs₁ (hat.of_getFunction hf) hh)
    fun ds st₁ m₁ hargs => ?_
  have hcall' := tracks_call W fuel hcall hext hnameOf hargs.at_ hargs.holds
    hargs.values
  rw [hname] at hcall'
  refine hcall'.imp fun d' st' m' hd' => { hd' with frame := ?_ }
  exact ((Frame.refl _ m).trans hargs.frame h₁.grows.insts).trans hd'.frame
    (h₁.trans h₂).grows.insts

/-! ### Branching -/

theorem simulates_ifElse {cond thn els : Expr} (hc : Simulates W outer fuel cond)
    (ht : Simulates W outer fuel thn) (he : Simulates W outer fuel els)
    (hdc : cond.Distinct) (hdt : thn.Distinct) :
    Simulates W outer fuel (.ifElse cond thn els) := by
  intro b v b' G scope m st h hb hext hs hat hh
  obtain ⟨c, b₁, bit, b₂, x, b₃, y, b₄, hc', hbit, hx, hy, hphi⟩ := codegen_ifElse h
  have h₁ := (adds _ cond _ _ _ hb hc').1
  have h₂ := ((createFCmp_result hbit).grown h₁.ok).1
  have h₃ := (adds _ thn _ _ _ (h₂.ok.enterThen bit) hx).1
  have hblocks : b₂.nextBlock + 3 ≤ b₃.nextBlock := h₃.grows.blocks
  have hok₃ := h₃.ok.enterArm (b₂.nextBlock + 2) (b₂.nextBlock + 1) (by omega)
  have h₄ := (adds _ els _ _ _ hok₃ hy).1
  have hif := ifBlocks h₂.ok h₃ h₄
  have hblocks₄ := hif.blocks₄
  have hok₄ := h₄.ok.enterArm (b₂.nextBlock + 2) (b₂.nextBlock + 2) (by omega)
  -- the program extends the builder at every point on the way
  have hextm := Extends.of_grows ((emitValue_result hphi).grown hok₄).1.grows hext
  have hext₄ : Extends (b₄.append b₄.insert (.br (b₂.nextBlock + 2))) G := { hextm with }
  have hextarm := Extends.of_grows h₄.grows (.of_grows (.append b₄ _) hext₄)
  have hext₃ : Extends (b₃.append b₃.insert (.br (b₂.nextBlock + 2))) G := { hextarm with }
  have hextthen := Extends.of_grows h₃.grows (.of_grows (.append b₃ _) hext₃)
  have hext₂ : Extends (b₂.append b₂.insert
      (.condBr bit b₂.nextBlock (b₂.nextBlock + 1))) G := { hextthen with }
  have hextb₂ := Extends.of_grows (.append b₂ _) hext₂
  have hn₁ := keepsNamed _ cond hdc _ _ _ hc'
  have hn₂ : b₂.named = b.named := (createFCmp_result hbit).named.trans hn₁
  have hn₃ : b₃.named = b.named := (keepsNamed _ thn hdt _ _ _ hx).trans hn₂
  have hle₂ := (h₁.trans h₂).grows.insts
  have hle₃ : b₂.nextInst ≤ b₃.nextInst := h₃.grows.insts
  have hle₄ : b₃.nextInst ≤ b₄.nextInst := h₄.grows.insts
  rw [eval_ifElse]
  refine Tracks.bind (hc _ _ _ _ _ _ _ hc' hb (.of_grows h₂.grows hextb₂) hs hat hh)
    fun d st₁ m₁ hd => ?_
  obtain ⟨m₂, hm₂, hat₂, hv₂, hq₂⟩ := run_fcmp (W := W) hbit hextb₂ hd.at_ hd.value rfl
  obtain ⟨m₃, hm₃, hent⟩ := run_condBr (W := W) hext₂ hat₂ hv₂
  refine Tracks.of_reaches (hm₂.trans (.single hm₃)) ?_
  have hh₃ : Holds outer scope m₃ st₁ :=
    hd.holds.of_quiet (hent.cells.trans hq₂.cells) (hent.calls.trans hq₂.calls)
  have hf₃ : Frame b.nextInst m m₃ :=
    (hd.frame.trans hq₂.toFrame h₁.grows.insts).trans (hent.quiet b.nextInst).toFrame
      (Nat.le_refl _)
  have hmerge : (b₄.enterArm (b₂.nextBlock + 2) (b₂.nextBlock + 2)).body.code
      (b₂.nextBlock + 2) = [] := by
    have hne : b₂.nextBlock + 2 ≠ b₄.insert := by have := hif.insert₄; omega
    exact (if_neg hne).trans hif.merge_empty
  have hle₅ : b.nextInst ≤ b₄.nextInst := by omega
  show Tracks _ _ _ ((if FCmpPred.one.apply d .zero then eval W outer fuel thn
    else eval W outer fuel els) st₁) _
  cases htrue : FCmpPred.one.apply d .zero with
  | true =>
      rw [htrue] at hent
      have hs' : Scoped outer scope b₂.named b₂.nextInst := hn₂ ▸ hs.mono hle₂
      have hat₃ : At G (b₂.enterThen bit) m₃ := hent.at_ rfl (by
        have hne : b₂.nextBlock ≠ b₂.insert := by have := h₂.ok.insert_lt; omega
        exact (if_neg hne).trans (h₂.ok.code_fresh _ (Nat.le_refl _)))
      refine (ht _ _ _ _ _ _ _ hx (h₂.ok.enterThen bit) (.of_grows (.append b₃ _) hext₃) hs'
        hat₃ hh₃).and_then fun d' st₂ m₄ hd' => ?_
      obtain ⟨m₅, hm₅, hat₅, hv₅, hq₅⟩ := run_arm (W := W) (x := x) (k := b₃.insert) hext₃
        hmerge hphi hext (by simp) hd'.at_ hd'.value
      exact ⟨m₅, hm₅, hat₅, hd'.holds.of_quiet hq₅.cells hq₅.calls, hv₅,
        (hf₃.trans hd'.frame hle₂).trans hq₅.toFrame hle₅⟩
  | false =>
      rw [htrue] at hent
      have hs' : Scoped outer scope b₃.named b₃.nextInst :=
        hn₃ ▸ hs.mono (Nat.le_trans hle₂ hle₃)
      have hat₃ : At G (b₃.enterArm (b₂.nextBlock + 2) (b₂.nextBlock + 1)) m₃ :=
        hent.at_ rfl (by
          have hne : b₂.nextBlock + 1 ≠ b₃.insert := by have := hif.insert₃; omega
          exact (if_neg hne).trans hif.else_empty)
      have hne : b₃.insert ≠ b₄.insert := by
        have := hif.insert₃
        have := hif.insert₃_lt
        have := hif.insert₄
        omega
      refine (he _ _ _ _ _ _ _ hy hok₃ (.of_grows (.append b₄ _) hext₄) hs' hat₃
        hh₃).and_then fun d' st₂ m₄ hd' => ?_
      obtain ⟨m₅, hm₅, hat₅, hv₅, hq₅⟩ := run_arm (W := W) (x := y) (k := b₄.insert) hext₄
        hmerge hphi hext (by simp [hne]) hd'.at_ hd'.value
      exact ⟨m₅, hm₅, hat₅, hd'.holds.of_quiet hq₅.cells hq₅.calls, hv₅,
        (hf₃.trans hd'.frame (Nat.le_trans hle₂ hle₃)).trans hq₅.toFrame hle₅⟩

/-! ### Loops -/

/-- One round of a loop: body, step, end condition, and the variable advanced by
the step. What the loop then branches on is whether the end condition held. -/
theorem tracks_round {x : String} {cell : Nat} {fin body : Expr} {step : Option Expr}
    {u d e cur next bit : Value} {b₂ b₃ b₄ b₅ b₆ b₇ : Builder}
    (hbody : Simulates W outer fuel body) (hfin : Simulates W outer fuel fin)
    (hstep : ∀ e ∈ step, Simulates W outer fuel e) (hdb : body.Distinct)
    (hds : ∀ e ∈ step, e.Distinct) (hb : b.Ok) (hcell : b.named x = some cell)
    (h₂ : body.codegen W.arith b = .ok u b₂)
    (h₃ : codegenOption W.arith .one step b₂ = .ok d b₃)
    (h₄ : fin.codegen W.arith b₃ = .ok e b₄) (h₅ : createLoad cell b₄ = .ok cur b₅)
    (h₆ : createFBin W.arith .add cur d b₅ = .ok next b₆)
    (h₇ : createFCmp .one e (.const .zero) (b₆.append b₆.insert (.store next cell)) =
      .ok bit b₇)
    (hext : Extends b₇ G) (hs : Scoped outer scope b.named b.nextInst) (hat : At G b m)
    (hh : Holds outer scope m st) :
    Tracks (Machine.step W G) fuel m
      ((do
        let _ ← eval W outer fuel body
        let s ← evalOption W outer fuel .one step
        let c ← eval W outer fuel fin
        let cur ← readVar outer x
        writeVar outer x (W.arith.add cur s)
        pure (isTrue c) : EvalM Bool) st)
      fun go st' m' => At G b₇ m' ∧ Holds outer scope m' st' ∧
        m'.value bit = some (.bit go) ∧ Frame b.nextInst m m' := by
  have g₂ := (adds _ body _ _ _ hb h₂).1
  obtain ⟨g₃, hdv⟩ := adds_option (fun e _ => adds W.arith e) g₂.ok h₃
  obtain ⟨g₄, hev⟩ := adds _ fin _ _ _ g₃.ok h₄
  have g₅ := ((emitValue_result h₅).grown g₄.ok).1
  obtain ⟨g₆, hnv⟩ := (createFBin_result h₆).grown g₅.ok
  have g₇ := ((createFCmp_result h₇).grown (g₆.ok.append _)).1
  have hext₆' := Extends.of_grows g₇.grows hext
  have hext₆ := Extends.of_grows (.append b₆ _) hext₆'
  have hext₅ := Extends.of_grows g₆.grows hext₆
  have hext₄ := Extends.of_grows g₅.grows hext₅
  have hext₃ := Extends.of_grows g₄.grows hext₄
  have hext₂ := Extends.of_grows g₃.grows hext₃
  have hn₂ := keepsNamed _ body hdb _ _ _ h₂
  have hn₃ : b₃.named = b.named :=
    (keepsNamed_option hds h₃).trans hn₂
  have hle₂ := g₂.grows.insts
  have hle₃ := g₃.grows.insts
  have hle₄ := g₄.grows.insts
  have hle₅ := g₅.grows.insts
  have hle₆ := g₆.grows.insts
  have hs₂ : Scoped outer scope b₂.named b₂.nextInst := hn₂ ▸ hs.mono hle₂
  have hs₃ : Scoped outer scope b₃.named b₃.nextInst := hn₃ ▸ hs.mono (by omega)
  refine Tracks.bind (hbody _ _ _ _ _ _ _ h₂ hb hext₂ hs hat hh) fun _ st₂ m₂ a₂ => ?_
  refine Tracks.bind (simulates_option hstep h₃ g₂.ok hext₃ hs₂ a₂.at_ a₂.holds)
    fun inc st₃ m₃ a₃ => ?_
  refine Tracks.bind (hfin _ _ _ _ _ _ _ h₄ g₃.ok hext₄ hs₃ a₃.at_ a₃.holds)
    fun c st₄ m₄ a₄ => ?_
  obtain ⟨old, hread, hold⟩ := a₄.holds.read hs hcell
  obtain ⟨m₅, hm₅, at₅, hcur, q₅⟩ := run_load (W := W) h₅ hext₅ a₄.at_ hold
  have hinc : m₅.value d = some (.dbl inc) := by
    rw [hdv.value_eq (a₄.frame.trans q₅.toFrame hle₄)]
    exact a₃.value
  obtain ⟨m₆, hm₆, at₆, hnext, q₆⟩ := run_fbin h₆ hext₆ at₅ hcur hinc
  obtain ⟨m₇, hm₇, at₇, f₇, hcells, hcalls⟩ := run_store (W := W) hext₆' at₆ hnext
  have hc : m₇.value e = some (.dbl c) := by
    have hf : Frame b₄.nextInst m₄ m₇ :=
      (q₅.toFrame.trans q₆.toFrame hle₅).trans f₇ (by omega)
    exact (hev.value_eq hf).trans a₄.value
  obtain ⟨m₈, hm₈, at₈, hbit, q₈⟩ := run_fcmp (W := W) h₇ hext at₇ hc rfl
  have hh₆ := a₄.holds.of_quiet (q₆.cells.trans q₅.cells) (q₆.calls.trans q₅.calls)
  obtain ⟨st₅, hwrite, hholds⟩ := hh₆.write hs hcell (W.arith.add old inc)
  rw [bind_ok hread, bind_ok hwrite]
  refine ⟨m₈, hm₅.trans (hm₆.trans (hm₇.trans hm₈)), at₈,
    hholds.of_quiet (q₈.cells.trans hcells) (q₈.calls.trans hcalls), hbit, ?_⟩
  have hf₄ : Frame b.nextInst m m₄ :=
    (a₂.frame.trans a₃.frame hle₂).trans a₄.frame (Nat.le_trans hle₂ hle₃)
  have hf₇ : Frame b.nextInst m m₇ :=
    ((hf₄.trans q₅.toFrame (by omega)).trans q₆.toFrame (by omega)).trans f₇ (by omega)
  exact hf₇.trans q₈.toFrame (show b.nextInst ≤ b₆.nextInst by omega)

theorem simulates_forIn {x : String} {start fin body : Expr} {step : Option Expr}
    (hstart : Simulates W outer fuel start) (hfin : Simulates W outer fuel fin)
    (hstep : ∀ e ∈ step, Simulates W outer fuel e) (hbody : Simulates W outer fuel body)
    (hd : (Expr.forIn x start fin step body).Distinct) :
    Simulates W outer fuel (.forIn x start fin step body) := by
  intro b v b' G scope m st h hb hext hs hat hh
  obtain ⟨hdstart, -, hdstep, hdb⟩ := hd
  have hds := distinct_of_mem_option hdstep
  obtain ⟨s, b₁, u, b₂, d, b₃, e, b₄, cur, b₅, next, b₆, bit, b₇, h₁, h₂, h₃, h₄, h₅, h₆, h₇,
    rfl, rfl⟩ := codegen_forIn h
  have g₁ := (adds _ start _ _ _ hb.newAlloca h₁).1
  have hle₁ : b.nextInst + 1 ≤ b₁.nextInst := g₁.grows.insts
  -- the builders where a round begins and where it ends
  let bl := (b₁.append b₁.insert (.store s b.nextInst)).enterLoop.setNamed x (some b.nextInst)
  have hinst : bl.nextInst = b₁.nextInst := rfl
  have hlel : b.nextInst + 1 ≤ bl.nextInst := by
    rw [hinst]
    exact hle₁
  have hbl : bl.Ok := (g₁.ok.append _).enterLoop.setNamed _ _
  have hround : Grown bl b₇ := by
    have g₂ := (adds _ body _ _ _ hbl h₂).1
    have g₃ := (adds_option (fun e _ => adds W.arith e) g₂.ok h₃).1
    have g₄ := (adds _ fin _ _ _ g₃.ok h₄).1
    have g₅ := ((emitValue_result h₅).grown g₄.ok).1
    have g₆ := ((createFBin_result h₆).grown g₅.ok).1
    have g₇ := ((createFCmp_result h₇).grown (g₆.ok.append _)).1
    exact g₂.trans (g₃.trans (g₄.trans (g₅.trans (g₆.trans
      ((Grown.mk (g₆.ok.append _) (.append _ _)).trans g₇)))))
  have hext₈ : Extends (b₇.append b₇.insert
      (.condBr bit b₁.nextBlock b₇.nextBlock)) G := { hext with }
  have hext₇ := Extends.of_grows (.append b₇ _) hext₈
  have hextl := Extends.of_grows hround.grows hext₇
  have hextbr : Extends ((b₁.append b₁.insert (.store s b.nextInst)).append b₁.insert
      (.br b₁.nextBlock)) G := { hextl with }
  have hextst := Extends.of_grows (.append (b₁.append b₁.insert (.store s b.nextInst)) _) hextbr
  have hext₁ := Extends.of_grows (.append b₁ _) hextst
  have hnamed₁ : b₁.named = b.named := keepsNamed _ start hdstart b.newAlloca _ _ h₁
  have hnamedl : bl.named = fun y => if y = x then some b.nextInst else b.named y := by
    show (fun y => if y = x then some b.nextInst else b₁.named y) = _
    rw [hnamed₁]
  have hsl : Scoped outer ((x, b.nextInst) :: scope) bl.named bl.nextInst := by
    rw [hnamedl]
    exact (hs.push x).mono hlel
  have hloopEmpty : bl.body.code b₁.nextBlock = [] := by
    have hne : b₁.nextBlock ≠ b₁.insert := by have := g₁.ok.insert_lt; omega
    exact (if_neg hne).trans ((if_neg hne).trans (g₁.ok.code_fresh _ (Nat.le_refl _)))
  have hafterEmpty : (b₇.leaveLoop bit b₁.nextBlock).body.code b₇.nextBlock = [] := by
    have hne : b₇.nextBlock ≠ b₇.insert := by have := hround.ok.insert_lt; omega
    exact (if_neg hne).trans (hround.ok.code_fresh _ (Nat.le_refl _))
  rw [eval]
  refine Tracks.bind (hstart _ _ _ _ _ _ _ h₁ hb.newAlloca hext₁
    (hs.mono (Nat.le_succ _)) { hat with } hh) fun val st₁ m₁ a₁ => ?_
  obtain ⟨m₂, hm₂, at₂, f₂, hcells₂, hcalls₂⟩ := run_store (W := W) hextst a₁.at_ a₁.value
  obtain ⟨m₃, hm₃, ent₃⟩ := run_br (W := W) hextbr at₂
  have hh₃ : Holds outer ((x, b.nextInst) :: scope) m₃
      { st₁ with locals := (x, val) :: st₁.locals } :=
    (a₁.holds.push hs x val).of_quiet (ent₃.cells.trans hcells₂) (ent₃.calls.trans hcalls₂)
  have hf₃ : Frame b.nextInst m m₃ := by
    have hf₁ : Frame b.nextInst m m₁ := ⟨fun r hr => a₁.frame.env r (Nat.lt_succ_of_lt hr),
      a₁.frame.args⟩
    exact (hf₁.trans f₂ (by omega)).trans (ent₃.quiet b.nextInst).toFrame (Nat.le_refl _)
  refine Tracks.of_reaches (hm₂.trans (.single hm₃)) ?_
  rw [bind_ok (show pushLocal x val st₁ = .ok () { st₁ with
    locals := (x, val) :: st₁.locals } from rfl)]
  -- the loop, with what holds whenever a round begins and what once it is left
  refine Tracks.bind (Tracks.rounds
    (I := fun st m' => At G bl m' ∧ Holds outer ((x, b.nextInst) :: scope) m' st ∧
      Frame b.nextInst m m')
    (S := fun st m' => At G (b₇.leaveLoop bit b₁.nextBlock) m' ∧
      Holds outer ((x, b.nextInst) :: scope) m' st ∧ Frame b.nextInst m m')
    ?_ (Nat.le_refl fuel) ⟨ent₃.at_ rfl hloopEmpty, hh₃, hf₃⟩) ?_
  · rintro st₂ m₄ ⟨at₄, hh₄, hf₄⟩
    refine (tracks_round hbody hfin hstep hdb hds hbl (by simp [bl, Builder.setNamed])
      h₂ h₃ h₄ h₅ h₆ h₇ hext₇ hsl at₄ hh₄).imp ?_
    rintro go st₃ m₅ ⟨at₅, hh₅, hbit, hf₅⟩
    obtain ⟨m₆, hm₆, ent₆⟩ := run_condBr (W := W) hext₈ at₅ hbit
    have hh₆ := hh₅.of_quiet ent₆.cells ent₆.calls
    have hf₆ : Frame b.nextInst m m₆ :=
      (hf₄.trans hf₅ (Nat.le_of_succ_le hlel)).trans
        (ent₆.quiet b.nextInst).toFrame (Nat.le_refl _)
    refine ⟨m₆, hm₆, ?_⟩
    cases go with
    | true => exact ⟨ent₆.at_ rfl hloopEmpty, hh₆, hf₆⟩
    | false => exact ⟨ent₆.at_ rfl hafterEmpty, hh₆, hf₆⟩
  · rintro _ st₂ m₄ ⟨at₄, hh₄, hf₄⟩
    exact ⟨m₄, .refl m₄, { at₄ with }, hh₄.drop [(x, b.nextInst)], rfl, hf₄⟩

/-! ### Bindings -/

theorem simulates_vars {vs : List (String × Option Expr)} {old new : String → Option Nat}
    (hvs : ∀ v ∈ vs, ∀ e ∈ v.2, Simulates W outer fuel e)
    (hd : ∀ v ∈ vs, ∀ e ∈ v.2, e.Distinct)
    (h : codegenVars W.arith old vs b = .ok new b') (hb : b.Ok) (hext : Extends b' G)
    (hs : Scoped outer scope b.named b.nextInst) (hat : At G b m)
    (hh : Holds outer scope m st) :
    Tracks (Machine.step W G) fuel m (evalVars W outer fuel vs st) fun _ st' m' =>
      ∃ inner, inner.length = vs.length ∧ At G b' m' ∧
        Scoped outer (inner ++ scope) b'.named b'.nextInst ∧
        Holds outer (inner ++ scope) m' st' ∧ Frame b.nextInst m m' := by
  induction vs generalizing b m st scope old with
  | nil =>
      simp only [codegenVars] at h
      obtain ⟨rfl, rfl⟩ := pure_eq_ok h
      rw [evalVars]
      exact Tracks.pure ⟨[], rfl, hat, hs, hh, .refl _ m⟩
  | cons v vs ih =>
      obtain ⟨x, init⟩ := v
      obtain ⟨d, b₁, h₁, h⟩ := codegen_vars_cons h
      have hd₁ := hd _ (List.mem_cons_self ..)
      have g₁ := (adds_option (fun e _ => adds W.arith e) hb h₁).1
      have hbind := grown_bind g₁.ok x d
      have g₂ := adds_vars (fun _ _ e _ => adds W.arith e) hbind.ok h
      have hext₂ := Extends.of_grows g₂.grows hext
      have hextst : Extends (b₁.newAlloca.append b₁.insert (.store d b₁.nextInst)) G :=
        { hext₂ with }
      have hext₁ := Extends.of_grows hbind.grows hext₂
      have hn₁ : b₁.named = b.named :=
        keepsNamed_option hd₁ h₁
      have hs₁ : Scoped outer scope b₁.named b₁.nextInst := hn₁ ▸ hs.mono g₁.grows.insts
      rw [evalVars]
      refine Tracks.bind (simulates_option (hvs _ (List.mem_cons_self ..)) h₁ hb hext₁ hs hat
        hh) fun val st₁ m₁ a₁ => ?_
      obtain ⟨m₂, hm₂, at₂, f₂, hcells, hcalls⟩ := run_store (W := W) (b := b₁.newAlloca)
        hextst { a₁.at_ with } a₁.value
      refine Tracks.of_reaches hm₂ ?_
      rw [bind_ok (show pushLocal x val st₁ = .ok () { st₁ with
        locals := (x, val) :: st₁.locals } from rfl)]
      have hh₂ := (a₁.holds.push hs₁ x val).of_quiet hcells hcalls
      refine (ih (fun w hw => hvs w (List.mem_cons_of_mem _ hw))
        (fun w hw => hd w (List.mem_cons_of_mem _ hw)) h hbind.ok (hs₁.push x) { at₂ with }
        hh₂).imp ?_
      rintro _ st₂ m₃ ⟨inner, hlen, at₃, hs₃, hh₃, hf₃⟩
      have hf₁ : Frame b.nextInst m m₂ := a₁.frame.trans
        (Frame.mk (n := b₁.nextInst) (fun r hr => f₂.env r (Nat.lt_succ_of_lt hr)) f₂.args)
        g₁.grows.insts
      refine ⟨inner ++ [(x, b₁.nextInst)], by simp [hlen], at₃, ?_, ?_, ?_⟩
      · rwa [List.append_assoc]
      · rwa [List.append_assoc]
      · exact hf₁.trans hf₃ (Nat.le_succ_of_le g₁.grows.insts)

theorem simulates_varIn {varNames : List (String × Option Expr)} {body : Expr}
    (hvs : ∀ v ∈ varNames, ∀ e ∈ v.2, Simulates W outer fuel e)
    (hbody : Simulates W outer fuel body) (hd : (Expr.varIn varNames body).Distinct) :
    Simulates W outer fuel (.varIn varNames body) := by
  intro b v b' G scope m st h hb hext hs hat hh
  have hnamed := keepsNamed _ _ hd _ _ _ h
  obtain ⟨old, b₁, b₂, hold, hv, rfl⟩ := codegen_varIn h
  have hdv := distinct_of_mem_vars hd.2.1
  have g₁ := adds_vars (fun _ _ e _ => adds W.arith e) hb hold
  have g₂ := (adds _ body _ _ _ g₁.ok hv).1
  have hext₂ : Extends b₂ G := { hext with }
  rw [eval]
  refine Tracks.bind (simulates_vars hvs hdv hold hb (.of_grows g₂.grows hext₂) hs hat hh) ?_
  rintro _ st₁ m₁ ⟨inner, hlen, at₁, hs₁, hh₁, hf₁⟩
  refine Tracks.bind (hbody _ _ _ _ _ _ _ hv g₁.ok hext₂ hs₁ at₁ hh₁) fun d st₂ m₂ a₂ => ?_
  refine ⟨m₂, .refl m₂, { a₂.at_ with }, ?_, a₂.value, hf₁.trans a₂.frame g₁.grows.insts⟩
  rw [← hlen]
  exact a₂.holds.drop _

/-! ## Every expression -/

/-- The code of every expression that binds distinct names tracks its
evaluation. -/
theorem simulates (W : World) (outer : String → Option Nat) (fuel : Nat) :
    ∀ e, e.Distinct → Simulates W outer fuel e :=
  Expr.Inductive.all {
    number := fun val _ => simulates_number val
    name := fun x _ => simulates_variable x
    varIn := fun varNames body hvars hbody hd => simulates_varIn
      (fun v hv e he => hvars v hv e he (distinct_of_mem_vars hd.2.1 v hv e he))
      (hbody hd.2.2) hd
    unary := fun op operand ho hd => simulates_unary (ho hd)
    binary := fun op lhs rhs hl hr hd => by
      by_cases hop : op = '='
      · subst hop
        cases lhs with
        | «variable» x => exact simulates_assign (hr hd.2) hd.2
        | _ =>
            intro b v b' G scope m st h
            obtain ⟨name, _, _, heq, _⟩ := codegen_assign h
            cases heq
      · exact simulates_binary hop (hl hd.1) (hr hd.2) hd.1
    ifElse := fun cond thn els hc ht he hd =>
      simulates_ifElse (hc hd.1) (ht hd.2.1) (he hd.2.2) hd.1 hd.2.1
    forIn := fun x start fin step body hs hf ho hb hd =>
      simulates_forIn (hs hd.1) (hf hd.2.1)
        (fun e he => ho e he (distinct_of_mem_option hd.2.2.1 e he)) (hb hd.2.2.2) hd
    call := fun callee args hargs hd => simulates_call
      (fun e he => hargs e he (distinct_of_mem_args hd e he)) (distinct_of_mem_args hd) }

end Parts

/-! ## Running an expression on its own -/

/-- What code generation relies on: handles not given out yet are unused, and
the names in scope are bound to cells that exist. -/
structure Builder.Valid (b : Builder) : Prop extends b.Ok where
  named_lt : ∀ x c, b.named x = some c → c < b.nextInst

/-- The outer variables' cells hold the store, and both have made the same calls. -/
structure Agrees (named : String → Option Nat) (m : Machine) (st : Store) : Prop where
  cells : ∀ x c, named x = some c → m.cells c = some (st.cells c)
  calls : m.calls = st.calls

/-- The code generator is correct: the code emitted for an expression, run from
the insertion point, halts exactly if the evaluation answers, and then with the
value of the evaluation, the variables' final contents, and the calls made. -/
theorem codegen_correct (W : World) {e : Expr} (hd : e.Distinct) {b b' : Builder} {v : Value}
    (h : e.codegen W.arith b = .ok v b') (hb : b.Valid) {m : Machine}
    (hat : At b'.program b m) {st : Store} (hlocals : st.locals = [])
    (hst : Agrees b.named m st) :
    (∀ fuel d st', eval W b.named fuel e st = .ok d st' →
      ∃ m', Halts (Machine.step W b'.program) m m' ∧ m'.value v = some (.dbl d) ∧
        Agrees b.named m' st') ∧
    (∀ m', Halts (Machine.step W b'.program) m m' →
      ∃ fuel d st', eval W b.named fuel e st = .ok d st' ∧ m'.value v = some (.dbl d) ∧
        Agrees b.named m' st') := by
  have hscope : Scoped b.named [] b.named b.nextInst :=
    ⟨List.nodup_nil, nofun, hb.named_lt, nofun, fun _ => rfl⟩
  have hholds : Holds b.named [] m st := ⟨hlocals ▸ .nil, hst.cells, hst.calls⟩
  have htracks := fun fuel => simulates W b.named fuel e hd b v b' b'.program [] m st h
    hb.toOk (extends_program b') hscope hat hholds
  -- the end of what was emitted is where the machine halts
  have hend : ∀ (d : Double) st' m', After b.named [] b'.program b b' v m d st' m' →
      Machine.step W b'.program m' = none := by
    intro d st' m' ha
    have hrest : m'.rest = [] := by simpa [Builder.program] using ha.at_.rest
    simp [Machine.step, hrest]
  obtain ⟨hforward, hback⟩ := Tracks.halts_iff htracks hend
  refine ⟨fun fuel d st' heq => ?_, fun m' hm => ?_⟩
  · obtain ⟨m', hm, ha⟩ := hforward fuel d st' heq
    exact ⟨m', hm, ha.value, ha.holds.cells, ha.holds.calls⟩
  · obtain ⟨fuel, d, st', heq, ha⟩ := hback m' hm
    exact ⟨fuel, d, st', heq, ha.value, ha.holds.cells, ha.holds.calls⟩

/-- `for i = x, i < 1 in x = if x then x else 1`, with `x` in the cell 0, goes round
twice. -/
theorem codegen_correct_loop :
    let W : World := ⟨⟨fun _ b => b, fun a _ => a, fun a _ => a⟩, fun _ => none⟩
    let b := (Builder.initial fun _ => 0).newAlloca.setNamed "x" (some 0)
    let e : Expr := .forIn "i" (.variable "x") (.binary '<' (.variable "i") (.number .one)) none
      (.binary '=' (.variable "x") (.ifElse (.variable "x") (.variable "x") (.number .one)))
    ∃ v b', e.codegen W.arith b = .ok v b' ∧
      let m : Machine := ⟨0, 0, b'.program.code 0, fun _ => none, fun _ => some .zero, [], []⟩
      ∃ m', Halts (Machine.step W b'.program) m m' ∧ m'.value v = some (.dbl .zero) ∧
        m'.cells 0 = some .one ∧ m'.calls = [] := by
  intro W b e
  have hb : b.Valid := {
    insert_lt := by decide
    code_fresh := fun _ _ => rfl
    named_lt := fun x c hc => by
      have hc : (if x = "x" then some 0 else none) = some c := hc
      split at hc
      · cases hc
        decide
      · cases hc }
  let st : Store := ⟨[], fun _ => .zero, []⟩
  have hok : okAnd (e.codegen W.arith b) (fun _ _ => true) = true := by decide +kernel
  have heval : okAnd (eval W b.named 2 e st) (fun d st' =>
      d == .zero && st'.cells 0 == .one && st'.calls.isEmpty) = true := by
    decide +kernel
  obtain ⟨v, b', h, -⟩ := okAnd_iff.mp hok
  obtain ⟨d, st', heval, hst'⟩ := okAnd_iff.mp heval
  simp only [Bool.and_eq_true, beq_iff_eq, List.isEmpty_iff] at hst'
  obtain ⟨⟨rfl, hcell⟩, hcalls⟩ := hst'
  refine ⟨v, b', h, ?_⟩
  intro m
  have hst : Agrees b.named m st := ⟨fun _ _ _ => rfl, rfl⟩
  have hdistinct : e.Distinct :=
    ⟨trivial, ⟨trivial, trivial⟩, trivial, trivial, trivial, trivial, trivial⟩
  obtain ⟨hforward, -⟩ := codegen_correct W hdistinct h hb (m := m) ⟨rfl, rfl⟩ rfl hst
  obtain ⟨m', hm, hv, hagrees⟩ := hforward 2 _ _ heval
  exact ⟨m', hm, hv, hcell ▸ hagrees.cells "x" 0 rfl, hagrees.calls.trans hcalls⟩

end LlvmPasses.Kaleido
