import LlvmPasses.Proofs.CodegenGrows

/-!
# What code generation does to the bindings

A `var` puts back what it shadowed from a map keyed by name, and fills that
map as it binds. For a name it binds twice the second save overwrites the
first, so what comes back is the cell of the first binding: the name leaks. A
leak goes on outwards, through everything but a construct that puts the name
back to what it was before the leak.

`Expr.leaks` is that rule, and code generation restores exactly the names it
says are not leaked. An expression that binds distinct names in each of its
`var`s leaks none.

`named_restored_iff` holds of every expression and in both directions: the
symbol table comes back as it was exactly if no name is leaked. The rule is
computed on the tree (`Expr.leaks`), so that it can be evaluated, and it is
proved to be what code generation does (`leaves`) by induction. The statement
that is carried says of each name that it is either bound as before or at a
cell made since (`LeavesNames`); the two never agree, as a new cell is none
that a map made earlier could hold.

A `var` is the only construct with a case of its own. `leaves_vars` follows the
bindings, `vars_saved` the map that is filled on the way, and `restored_apply`
the loop that puts names back. The modules about whole expressions and
definitions only need the corollary `keepsNamed`, that expressions binding
distinct names leave the bindings as they were.
-/

namespace LlvmPasses.Kaleido

open StateError

mutual

/-- Code generation leaves `x` bound to a cell of the expression's own. -/
def Expr.leaks (x : String) : Expr → Bool
  | .number _ | .variable _ => false
  | .varIn varNames body =>
      if x ∈ varNames.map Prod.fst then leaksSaved x varNames
      else leaksVars x varNames || body.leaks x
  | .unary _ operand => operand.leaks x
  | .binary _ lhs rhs => lhs.leaks x || rhs.leaks x
  | .ifElse cond thn els => cond.leaks x || thn.leaks x || els.leaks x
  | .forIn varName start fin step body =>
      start.leaks x || (x != varName && (body.leaks x || leaksOption x step || fin.leaks x))
  | .call _ args => leaksArgs x args

def leaksOption (x : String) : Option Expr → Bool
  | none => false
  | some e => e.leaks x

/-- One of the initialisers leaks `x`. -/
def leaksVars (x : String) : List (String × Option Expr) → Bool
  | [] => false
  | (_, init) :: vs => leaksOption x init || leaksVars x vs

/-- What is saved for `x`, at the last of its bindings, is a cell of the
expression's own: there is another binding, or the leak of an initialiser, in
front of it. -/
def leaksSaved (x : String) : List (String × Option Expr) → Bool
  | [] => false
  | (y, init) :: vs =>
      leaksOption x init || (decide (x ∈ vs.map Prod.fst) && (x == y || leaksSaved x vs))

def leaksArgs (x : String) : List Expr → Bool
  | [] => false
  | e :: es => e.leaks x || leaksArgs x es

end

/-- The bindings of `b'` are those of `b`, but for the names `L` has been
left at a cell made since. -/
structure LeavesNames (L : String → Bool) (b b' : Builder) : Prop where
  insts : b.nextInst ≤ b'.nextInst
  kept : ∀ x, L x = false → b'.named x = b.named x
  left : ∀ x, L x = true → ∃ a, b'.named x = some a ∧ b.nextInst ≤ a

namespace LeavesNames

variable {L M : String → Bool} {b b' b'' : Builder}

theorem of_named (hi : b.nextInst ≤ b'.nextInst) (hn : b'.named = b.named) :
    LeavesNames (fun _ => false) b b' :=
  ⟨hi, fun x _ => congrFun hn x, nofun⟩

theorem refl (b : Builder) : LeavesNames (fun _ => false) b b := of_named (Nat.le_refl _) rfl

theorem trans (h₁ : LeavesNames L b b') (h₂ : LeavesNames M b' b'') :
    LeavesNames (fun x => L x || M x) b b'' where
  insts := Nat.le_trans h₁.insts h₂.insts
  kept := fun x hx => by
    obtain ⟨hL, hM⟩ := Bool.or_eq_false_iff.mp hx
    rw [h₂.kept x hM, h₁.kept x hL]
  left := fun x hx => by
    cases hM : M x with
    | true =>
        obtain ⟨a, ha, hle⟩ := h₂.left x hM
        exact ⟨a, ha, Nat.le_trans h₁.insts hle⟩
    | false =>
        rw [hM, Bool.or_false] at hx
        rw [h₂.kept x hM]
        exact h₁.left x hx

theorem congr (h : LeavesNames L b b') (hLM : ∀ x, L x = M x) : LeavesNames M b b' :=
  (funext hLM : L = M) ▸ h

/-- Steps that leave the bindings alone, in front and behind. -/
theorem after (h : LeavesNames L b' b'') (hi : b.nextInst ≤ b'.nextInst)
    (hn : b'.named = b.named) : LeavesNames L b b'' :=
  ((of_named hi hn).trans h).congr fun _ => rfl

theorem before (h : LeavesNames L b b') (hi : b'.nextInst ≤ b''.nextInst)
    (hn : b''.named = b'.named) : LeavesNames L b b'' :=
  (h.trans (of_named hi hn)).congr fun _ => Bool.or_false _

/-- A name that is bound for a while and then put back. -/
theorem within {x : String} (h : LeavesNames L b' b'') (hi : b.nextInst ≤ b'.nextInst)
    (hn : ∀ y, y ≠ x → b'.named y = b.named y) :
    LeavesNames (fun y => y != x && L y) b (b''.setNamed x (b.named x)) where
  insts := Nat.le_trans hi h.insts
  kept := fun y hy => by
    by_cases heq : y = x
    · rw [heq]
      exact if_pos rfl
    · have hL : L y = false := by simpa [heq] using hy
      exact (if_neg heq).trans ((h.kept y hL).trans (hn y heq))
  left := fun y hy => by
    obtain ⟨hne, hL⟩ := Bool.and_eq_true_iff.mp hy
    obtain ⟨a, ha, hle⟩ := h.left y hL
    exact ⟨a, (if_neg (by simpa using hne)).trans ha, Nat.le_trans hi hle⟩

/-- A name is bound to a new cell. -/
theorem bind (b : Builder) (x : String) (d : Value) :
    LeavesNames (fun y => y == x) b
      ((b.newAlloca.append b.insert (.store d b.nextInst)).setNamed x (some b.nextInst)) where
  insts := Nat.le_succ _
  kept := fun y hy => if_neg (by simpa using hy)
  left := fun y hy => ⟨b.nextInst, if_pos (by simpa using hy), Nat.le_refl _⟩

end LeavesNames

/-- What the induction over the tree says of one expression. -/
def LeavesLeaks (A : Arith) (e : Expr) : Prop :=
  ∀ b v b', e.codegen A b = .ok v b' → LeavesNames (fun x => e.leaks x) b b'

section

variable {A : Arith} {b b' : Builder} {v : Value}

/-! ## Single operations -/

theorem Result.leaves {i : Nat → Instr} (h : Result i b v b') :
    LeavesNames (fun _ => false) b b' := by
  cases h with
  | emitted => exact .of_named (Nat.le_succ _) rfl
  | folded _ => exact .refl b

theorem Result.named {i : Nat → Instr} (h : Result i b v b') : b'.named = b.named :=
  funext fun x => h.leaves.kept x rfl

theorem createCall_leaves {fn : Function} {args : List Value}
    (h : createCall fn args b = .ok v b') : LeavesNames (fun _ => false) b b' := by
  rw [(createCall_ok h).2]
  exact .of_named (Nat.le_succ _) rfl

theorem getFunction_leaves {name : String} {fn : Function}
    (h : getFunction name b = .ok (some fn) b') : LeavesNames (fun _ => false) b b' := by
  rw [(getFunction_ok h).2.2.1]
  exact .of_named (Nat.le_refl _) rfl

theorem getFunction_named {name : String} {fn : Function}
    (h : getFunction name b = .ok (some fn) b') : b'.named = b.named :=
  funext fun x => (getFunction_leaves h).kept x rfl

theorem createBinary_leaves {op : Char} {x y : Value} (h : createBinary A op x y b = .ok v b') :
    LeavesNames (fun _ => false) b b' := by
  unfold createBinary at h
  split at h
  · exact (createFBin_result h).leaves
  · exact (createFBin_result h).leaves
  · exact (createFBin_result h).leaves
  · obtain ⟨c, b₁, hc, h⟩ := bind_eq_ok h
    exact (createFCmp_result hc).leaves.trans (createUIToFP_result h).leaves
  · obtain ⟨fn, b₁, hf, h⟩ := bind_eq_ok h
    cases fn with
    | none => cases h
    | some fn => exact (getFunction_leaves hf).trans (createCall_leaves h)

/-! ## Constructs -/

theorem leaves_option {o : Option Expr} {d : Double} (ho : ∀ e ∈ o, LeavesLeaks A e)
    (h : codegenOption A d o b = .ok v b') : LeavesNames (fun x => leaksOption x o) b b' := by
  cases o with
  | none =>
      simp only [codegenOption] at h
      rw [(pure_eq_ok h).2]
      exact (LeavesNames.refl b).congr fun _ => by rw [leaksOption]
  | some e =>
      simp only [codegenOption] at h
      exact (ho e rfl b v b' h).congr fun _ => by rw [leaksOption]

theorem leaves_args {es : List Expr} {vs : List Value} (hes : ∀ e ∈ es, LeavesLeaks A e)
    (h : codegenArgs A es b = .ok vs b') : LeavesNames (fun x => leaksArgs x es) b b' := by
  induction es generalizing b vs with
  | nil =>
      simp only [codegenArgs] at h
      rw [(pure_eq_ok h).2]
      exact (LeavesNames.refl b).congr fun _ => by rw [leaksArgs]
  | cons e es ih =>
      obtain ⟨x, b₁, xs, hx, hxs, -⟩ := codegen_args_cons h
      have h₁ := hes e (List.mem_cons_self ..) b x b₁ hx
      have h₂ := ih (fun a ha => hes a (List.mem_cons_of_mem _ ha)) hxs
      exact (h₁.trans h₂).congr fun _ => by rw [leaksArgs]

/-- The bindings of a `var`: the names it binds are at cells of its own. -/
theorem leaves_vars {vs : List (String × Option Expr)} {old new : String → Option Nat}
    (hvs : ∀ v ∈ vs, ∀ e ∈ v.2, LeavesLeaks A e) (h : codegenVars A old vs b = .ok new b') :
    LeavesNames (fun x => leaksVars x vs || decide (x ∈ vs.map Prod.fst)) b b' := by
  induction vs generalizing b old with
  | nil =>
      simp only [codegenVars] at h
      rw [(pure_eq_ok h).2]
      exact (LeavesNames.refl b).congr fun _ => by simp [leaksVars]
  | cons v vs ih =>
      obtain ⟨y, init⟩ := v
      obtain ⟨d, b₁, hd, h⟩ := codegen_vars_cons h
      have h₁ := leaves_option (hvs _ (List.mem_cons_self ..)) hd
      have h₂ := ih (fun w hw => hvs w (List.mem_cons_of_mem _ hw)) h
      refine ((h₁.trans (.bind b₁ y d)).trans h₂).congr fun x => ?_
      rw [leaksVars]
      by_cases heq : x = y
      · simp [heq]
      · have hne : (x == y) = false := by simpa using heq
        simp only [hne, Bool.or_false, List.map_cons, List.mem_cons, heq, false_or,
          Bool.or_assoc]

/-- What the map holds: for a name that is bound, a cell of the `var`'s own if
the name leaks and else what the name was bound to; for any other name what
was there. -/
theorem vars_saved {vs : List (String × Option Expr)} {old new : String → Option Nat}
    (hvs : ∀ v ∈ vs, ∀ e ∈ v.2, LeavesLeaks A e) (h : codegenVars A old vs b = .ok new b')
    (x : String) :
    (x ∉ vs.map Prod.fst → new x = old x) ∧
    (x ∈ vs.map Prod.fst → leaksSaved x vs = false → new x = b.named x) ∧
    (x ∈ vs.map Prod.fst → leaksSaved x vs = true → ∃ a, new x = some a ∧ b.nextInst ≤ a) := by
  induction vs generalizing b old with
  | nil =>
      simp only [codegenVars] at h
      obtain ⟨rfl, rfl⟩ := pure_eq_ok h
      exact ⟨fun _ => rfl, fun hx => absurd hx List.not_mem_nil,
        fun hx => absurd hx List.not_mem_nil⟩
  | cons v vs ih =>
      obtain ⟨y, init⟩ := v
      obtain ⟨d, b₁, hd, h⟩ := codegen_vars_cons h
      have h₁ := leaves_option (hvs _ (List.mem_cons_self ..)) hd
      have hbind := LeavesNames.bind b₁ y d
      obtain ⟨hout, hin, hin'⟩ := ih (fun w hw => hvs w (List.mem_cons_of_mem _ hw)) h
      have hboth := h₁.trans hbind
      rw [leaksSaved]
      by_cases hx : x ∈ vs.map Prod.fst
      · -- the last of the bindings is further on
        refine ⟨fun hn => absurd (List.mem_cons_of_mem _ hx) hn, fun _ hl => ?_, fun _ hl => ?_⟩
        · simp only [hx, decide_true, Bool.true_and, Bool.or_eq_false_iff] at hl
          rw [hin hx hl.2.2]
          exact hboth.kept x (by simp only [hl.1, hl.2.1, Bool.or_self])
        · cases hl' : leaksSaved x vs with
          | true =>
              obtain ⟨a, ha, hle⟩ := hin' hx hl'
              exact ⟨a, ha, Nat.le_trans hboth.insts hle⟩
          | false =>
              rw [hin hx hl']
              refine hboth.left x ?_
              simpa only [hx, hl', decide_true, Bool.true_and, Bool.or_false] using hl
      · -- the binding at hand is the last
        simp only [hx, decide_false, Bool.false_and, Bool.or_false]
        rw [hout hx]
        by_cases heq : x = y
        · rw [if_pos heq, ← heq]
          exact ⟨fun hn => absurd (heq ▸ List.mem_cons_self ..) hn, fun _ => h₁.kept x,
            fun _ => h₁.left x⟩
        · have hnot : x ∉ ((y, init) :: vs).map Prod.fst :=
            fun hmem => (List.mem_cons.mp hmem).elim heq hx
          rw [if_neg heq]
          exact ⟨fun _ => rfl, fun hmem => absurd hmem hnot, fun hmem => absurd hmem hnot⟩

/-- The restoring loop puts each name bound to what the map holds. -/
theorem restored_apply (old : String → Option Nat) (vs : List (String × Option Expr))
    (named : String → Option Nat) (x : String) :
    restored old vs named x = if x ∈ vs.map Prod.fst then old x else named x := by
  induction vs generalizing named with
  | nil => rfl
  | cons v vs ih =>
      obtain ⟨y, init⟩ := v
      rw [restored, ih, List.map_cons]
      by_cases hx : x ∈ vs.map Prod.fst
      · rw [if_pos hx, if_pos (List.mem_cons_of_mem _ hx)]
      · rw [if_neg hx]
        by_cases heq : x = y
        · rw [if_pos heq, if_pos (List.mem_cons.mpr (.inl heq)), heq]
        · rw [if_neg heq, if_neg fun hmem => (List.mem_cons.mp hmem).elim heq hx]

theorem leaves_varIn {varNames : List (String × Option Expr)} {body : Expr}
    (hvs : ∀ v ∈ varNames, ∀ e ∈ v.2, LeavesLeaks A e) (hbody : LeavesLeaks A body) :
    LeavesLeaks A (.varIn varNames body) := by
  intro b v b' h
  obtain ⟨old, b₁, b₂, hold, hv, rfl⟩ := codegen_varIn h
  have hboth := (leaves_vars hvs hold).trans (hbody _ _ _ hv)
  refine ⟨hboth.insts, fun x hl => ?_, fun x hl => ?_⟩
  all_goals
    obtain ⟨-, hin, hin'⟩ := vars_saved hvs hold x
    rw [Expr.leaks] at hl
    simp only [restored_apply]
    by_cases hx : x ∈ varNames.map Prod.fst
  · rw [if_pos hx] at hl ⊢
    exact hin hx hl
  · rw [if_neg hx] at hl ⊢
    exact hboth.kept x (by simpa [hx] using hl)
  · rw [if_pos hx] at hl ⊢
    exact hin' hx hl
  · rw [if_neg hx] at hl ⊢
    exact hboth.left x (by simpa [hx] using hl)

theorem leaves_forIn {x : String} {start fin body : Expr} {step : Option Expr}
    (hs : LeavesLeaks A start) (hf : LeavesLeaks A fin) (ho : ∀ e ∈ step, LeavesLeaks A e)
    (hb : LeavesLeaks A body) : LeavesLeaks A (.forIn x start fin step body) := by
  intro b v b' h
  obtain ⟨s, b₁, u, b₂, d, b₃, e, b₄, cur, b₅, next, b₆, bit, b₇, hstart, hbody, hstep, hfin,
    hcur, hnext, hbit, rfl, rfl⟩ := codegen_forIn h
  have h₁ : LeavesNames (fun y => start.leaks y) b b₁ :=
    (hs b.newAlloca _ _ hstart).after (Nat.le_succ _) rfl
  have hround := ((hb _ _ _ hbody).trans (leaves_option ho hstep)).trans (hf _ _ _ hfin)
  have h₆ := (emitValue_result hcur).leaves.trans (createFBin_result hnext).leaves
  have h₇ := (createFCmp_result hbit).leaves.after (b := b₆) (Nat.le_refl _) rfl
  have hloop : LeavesNames _ _ (b₇.leaveLoop bit b₁.nextBlock) :=
    ((hround.trans h₆).trans h₇).before (Nat.le_refl _) rfl
  -- within the loop the name is bound to the loop's own cell
  have hscoped := hloop.within (b := b₁) (x := x) (Nat.le_refl _) fun y hy => if_neg hy
  exact (h₁.trans hscoped).congr fun y => by simp only [Expr.leaks, Bool.or_false]

/-- Code generation of an expression leaves behind exactly what it leaks. -/
theorem leaves (A : Arith) : ∀ e, LeavesLeaks A e :=
  Expr.Inductive.all {
    number := fun val b v b' h => by
      simp only [Expr.codegen] at h
      rw [(pure_eq_ok h).2]
      exact (LeavesNames.refl b).congr fun _ => by rw [Expr.leaks]
    name := fun name b v b' h => by
      obtain ⟨alloca, _, hl⟩ := codegen_variable h
      exact (emitValue_result hl).leaves.congr fun _ => by rw [Expr.leaks]
    varIn := fun _ _ => leaves_varIn
    unary := fun op operand ho b v b' h => by
      obtain ⟨x, b₁, fn, b₂, hx, hf, hcall⟩ := codegen_unary h
      exact ((ho _ _ _ hx).trans ((getFunction_leaves hf).trans (createCall_leaves hcall))).congr
        fun _ => by simp only [Expr.leaks, Bool.or_false]
    binary := fun op lhs rhs hl hr b v b' h => by
      by_cases hop : op = '='
      · subst hop
        obtain ⟨name, b₁, alloca, rfl, hx, _, hs⟩ := codegen_assign h
        cases hs
        have hstore : LeavesNames _ _ (b₁.append b₁.insert (.store v alloca)) :=
          (hr b _ b₁ hx).before (Nat.le_refl _) rfl
        exact hstore.congr fun _ => by simp only [Expr.leaks, Bool.false_or]
      · obtain ⟨x, b₁, y, b₂, hx, hy, hbin⟩ := codegen_binary hop h
        exact (((hl _ _ _ hx).trans (hr _ _ _ hy)).trans (createBinary_leaves hbin)).congr
          fun _ => by simp only [Expr.leaks, Bool.or_false]
    ifElse := fun cond thn els hc ht he b v b' h => by
      obtain ⟨c, b₁, bit, b₂, x, b₃, y, b₄, hc', hbit, hx, hy, hphi⟩ := codegen_ifElse h
      have h₂ := (hc _ _ _ hc').trans (createFCmp_result hbit).leaves
      have h₃ := (ht _ _ _ hx).after (b := b₂) (Nat.le_refl _) rfl
      have h₄ := (he _ _ _ hy).after (b := b₃) (Nat.le_refl _) rfl
      have h₅ := (emitValue_result hphi).leaves.after (b := b₄) (Nat.le_refl _) rfl
      exact (((h₂.trans h₃).trans h₄).trans h₅).congr
        fun _ => by simp only [Expr.leaks, Bool.or_false]
    forIn := fun _ _ _ _ _ => leaves_forIn
    call := fun callee args hargs b v b' h => by
      obtain ⟨fn, b₁, vs, b₂, hf, _, hvs, hcall⟩ := codegen_call h
      exact (((getFunction_leaves hf).trans (leaves_args hargs hvs)).trans
        (createCall_leaves hcall)).congr
          fun _ => by simp only [Expr.leaks, Bool.false_or, Bool.or_false] }

end

/-! ## The bindings are restored -/

/-- A name is left at a cell made since, which is none the map held before. -/
theorem LeavesNames.named_iff {L : String → Bool} {b b' : Builder} (h : LeavesNames L b b')
    (hb : ∀ x a, b.named x = some a → a < b.nextInst) :
    b'.named = b.named ↔ ∀ x, L x = false := by
  refine ⟨fun heq x => ?_, fun hL => funext fun x => h.kept x (hL x)⟩
  cases hL : L x with
  | false => rfl
  | true =>
      obtain ⟨a, ha, hle⟩ := h.left x hL
      have hlt := hb x a (heq ▸ ha)
      omega

/-- Code generation leaves the symbol table as it found it exactly where the
expression leaks no name. -/
theorem named_restored_iff (A : Arith) (e : Expr) {b b' : Builder} {v : Value}
    (hb : ∀ x a, b.named x = some a → a < b.nextInst) (h : e.codegen A b = .ok v b') :
    b'.named = b.named ↔ ∀ x, e.leaks x = false :=
  (leaves A e b v b' h).named_iff hb

/-- `var a = 1, a = a in a` leaves `a` at the cell of its first binding. -/
theorem named_restored_iff_var_twice :
    let A : Arith := ⟨fun a _ => a, fun a _ => a, fun a _ => a⟩
    let e : Expr := .varIn [("a", some (.number .one)), ("a", some (.variable "a"))]
      (.variable "a")
    ∃ v b', e.codegen A (Builder.initial fun _ => 0) = .ok v b' ∧ b'.named "a" = some 0 ∧
      b'.named ≠ (Builder.initial fun _ => 0).named := by
  intro A e
  refine ⟨_, _, rfl, rfl, fun heq => ?_⟩
  have hleak : e.leaks "a" = true := by decide
  rw [(named_restored_iff A e (b := Builder.initial fun _ => 0) nofun rfl).mp heq "a"] at hleak
  cases hleak

/-- Not every expression leaves the symbol table as it found it. -/
theorem named_not_restored : ¬ ∀ (A : Arith) (e : Expr) (b b' : Builder) (v : Value),
    (∀ x a, b.named x = some a → a < b.nextInst) → e.codegen A b = .ok v b' →
      b'.named = b.named := by
  intro h
  have heq := h ⟨fun a _ => a, fun a _ => a, fun a _ => a⟩
    (.varIn [("a", some (.number .one)), ("a", some (.number .one))] (.variable "a"))
    (Builder.initial fun _ => 0) _ _ nofun rfl
  have ha : some 0 = (none : Option Nat) := congrFun heq "a"
  cases ha

/-! ## Expressions that bind distinct names -/

theorem leaksSaved_eq_leaksVars {x : String} {vs : List (String × Option Expr)}
    (hnd : (vs.map Prod.fst).Nodup) (hvs : leaksVars x vs = false) :
    leaksSaved x vs = false := by
  induction vs with
  | nil => rfl
  | cons v vs ih =>
      obtain ⟨y, init⟩ := v
      obtain ⟨hy, hnd⟩ := List.nodup_cons.mp hnd
      obtain ⟨ho, hvs⟩ := Bool.or_eq_false_iff.mp hvs
      rw [leaksSaved, ho, ih hnd hvs, Bool.or_false, Bool.false_or, Bool.and_eq_false_iff]
      by_cases hx : x ∈ vs.map Prod.fst
      · exact .inr (by simpa using fun heq : x = y => hy (heq ▸ hx))
      · exact .inl (by simpa using hx)

theorem leaksVars_eq_false {x : String} {vs : List (String × Option Expr)}
    (hvs : ∀ v ∈ vs, ∀ e ∈ v.2, e.leaks x = false) : leaksVars x vs = false := by
  induction vs with
  | nil => rfl
  | cons v vs ih =>
      obtain ⟨y, init⟩ := v
      have hv := hvs _ (List.mem_cons_self ..)
      rw [leaksVars, ih fun w hw => hvs w (List.mem_cons_of_mem _ hw), Bool.or_false]
      cases init with
      | none => rfl
      | some e => exact hv e rfl

theorem leaksArgs_eq_false {x : String} {es : List Expr} (hes : ∀ e ∈ es, e.leaks x = false) :
    leaksArgs x es = false := by
  induction es with
  | nil => rfl
  | cons e es ih =>
      rw [leaksArgs, hes e (List.mem_cons_self ..),
        ih fun a ha => hes a (List.mem_cons_of_mem _ ha), Bool.or_false]

/-- An expression that binds distinct names in each `var` leaks none. -/
theorem leaks_of_distinct (x : String) : ∀ e : Expr, e.Distinct → e.leaks x = false :=
  Expr.Inductive.all {
    number := fun _ _ => rfl
    name := fun _ _ => rfl
    varIn := fun varNames body hvars hbody hd => by
      have hvs := leaksVars_eq_false fun v hv e he =>
        hvars v hv e he (distinct_of_mem_vars hd.2.1 v hv e he)
      rw [Expr.leaks, leaksSaved_eq_leaksVars hd.1 hvs, hvs, hbody hd.2.2]
      exact ite_self _
    unary := fun _ _ ho hd => ho hd
    binary := fun _ _ _ hl hr hd => by rw [Expr.leaks, hl hd.1, hr hd.2, Bool.or_false]
    ifElse := fun _ _ _ hc ht he hd => by
      rw [Expr.leaks, hc hd.1, ht hd.2.1, he hd.2.2, Bool.or_false, Bool.or_false]
    forIn := fun y start fin step body hs hf ho hb hd => by
      have hstep : leaksOption x step = false := by
        cases step with
        | none => rfl
        | some e => exact ho e rfl hd.2.2.1
      rw [Expr.leaks, hs hd.1, hf hd.2.1, hstep, hb hd.2.2.2, Bool.or_false, Bool.or_false,
        Bool.and_false, Bool.or_false]
    call := fun _ args hargs hd =>
      leaksArgs_eq_false fun e he => hargs e he (distinct_of_mem_args hd e he) }

/-- Code generation of an expression with distinct names leaves the bindings
as they were. -/
theorem keepsNamed (A : Arith) (e : Expr) (hd : e.Distinct) (b : Builder) (v : Value)
    (b' : Builder) (h : e.codegen A b = .ok v b') : b'.named = b.named :=
  funext fun x => (leaves A e b v b' h).kept x (leaks_of_distinct x e hd)

theorem keepsNamed_option {A : Arith} {o : Option Expr} {d : Double} {b b' : Builder}
    {v : Value} (ho : ∀ e ∈ o, e.Distinct) (h : codegenOption A d o b = .ok v b') :
    b'.named = b.named := by
  refine funext fun x => (leaves_option (fun e _ => leaves A e) h).kept x ?_
  cases o with
  | none => rfl
  | some e => exact leaks_of_distinct x e (ho e rfl)

end LlvmPasses.Kaleido
