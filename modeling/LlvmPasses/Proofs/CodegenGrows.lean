import LlvmPasses.Proofs.CodegenSteps

/-!
# Code generation only adds

Code generation appends to the block it is inserting into and to blocks it
creates itself, leaves every other block as it was, never lets go of a handle,
and only ever adds functions to the module. `Grows` says so of two builders,
and `Grown` of an expression's code generation, along with what it takes for
this to be worth anything: the handles yet to be given out are unused, before
and after.

`adds` is the frame that everything else about code generation rests on. A
program that runs the code of a part of an expression extends what was emitted
for the part, because nothing emitted later changes it; a register or a cell
that was made before is none of those made now. It is proved by induction over
the tree with a lemma for each construct, and the operations of the builder are
tagged with what they do to the order `Grows`, so that a construct is a chain
of `trans`.

An `if` and a loop move the insertion point to blocks of their own. `IfBlocks`
names the builders in between once, for all the modules that have to look into
an `if`.
-/

namespace LlvmPasses.Kaleido

open StateError

/-- The handles yet to be given out name nothing. -/
structure Builder.Ok (b : Builder) : Prop where
  insert_lt : b.insert < b.nextBlock
  code_fresh : ∀ k, b.nextBlock ≤ k → b.body.code k = []

structure Grows (b b' : Builder) : Prop where
  insts : b.nextInst ≤ b'.nextInst
  blocks : b.nextBlock ≤ b'.nextBlock
  code : ∀ k, b.body.code k <+: b'.body.code k
  others : ∀ k, k < b.nextBlock → k ≠ b.insert → b'.body.code k = b.body.code k
  insert : b'.insert = b.insert ∨ b.nextBlock ≤ b'.insert
  functions : b.module.functions <+: b'.module.functions

/-- A value that refers to instructions numbered below `n` only. -/
def Value.Below (n : Nat) : Value → Prop
  | .inst r => r < n
  | _ => True

theorem Value.Below.mono {n k : Nat} {v : Value} (h : v.Below n) (hle : n ≤ k) :
    v.Below k := by
  cases v with
  | inst r => exact Nat.lt_of_lt_of_le h hle
  | const | bool | arg => trivial

namespace Grows

variable {b b' b'' : Builder} {i : Instr} {k : Nat}

theorem refl (b : Builder) : Grows b b :=
  ⟨Nat.le_refl _, Nat.le_refl _, fun _ => List.prefix_rfl, fun _ _ _ => rfl, .inl rfl,
    List.prefix_rfl⟩

theorem trans (h₁ : Grows b b') (h₂ : Grows b' b'') : Grows b b'' where
  insts := Nat.le_trans h₁.insts h₂.insts
  blocks := Nat.le_trans h₁.blocks h₂.blocks
  code := fun k => (h₁.code k).trans (h₂.code k)
  others := fun k hk hne => by
    have hne' : k ≠ b'.insert := by
      rcases h₁.insert with heq | hge
      · exact heq ▸ hne
      · omega
    rw [h₂.others k (Nat.lt_of_lt_of_le hk h₁.blocks) hne', h₁.others k hk hne]
  insert := by
    rcases h₂.insert with heq | hge
    · exact heq ▸ h₁.insert
    · exact .inr (Nat.le_trans h₁.blocks hge)
  functions := h₁.functions.trans h₂.functions

theorem append (b : Builder) (i : Instr) : Grows b (b.append b.insert i) where
  insts := Nat.le_refl _
  blocks := Nat.le_refl _
  code := fun k => by
    simp only [Builder.append]
    split
    · exact List.prefix_append _ _
    · exact List.prefix_rfl
  others := fun k _ hne => if_neg hne
  insert := .inl rfl
  functions := List.prefix_rfl

/-- The builder moves to a block made since `b`. -/
theorem branch (h : Grows b b') (hk : b.nextBlock ≤ k) : Grows b (b'.branch i k) :=
  { h.trans (append b' i) with insert := .inr hk }

theorem attach (h : Grows b b') : Grows b (b'.attach k) := { h with }

theorem setNamed (h : Grows b b') {x : String} {cell : Option Nat} :
    Grows b (b'.setNamed x cell) := { h with }

theorem newBlocks (h : Grows b b') (n : Nat) : Grows b (b'.newBlocks n) :=
  { h with blocks := Nat.le_trans h.blocks (Nat.le_add_right _ n) }

theorem newAlloca (b : Builder) : Grows b b.newAlloca :=
  { refl b with insts := Nat.le_succ _ }

theorem newInst (b : Builder) : Grows b { b with nextInst := b.nextInst + 1 } :=
  { refl b with insts := Nat.le_succ _ }

theorem enterThen (b : Builder) (cond : Value) : Grows b (b.enterThen cond) :=
  (((refl b).newBlocks 3).attach).branch (Nat.le_refl _)

theorem enterArm (h : Grows b b') {merge next : Nat} (hn : b.nextBlock ≤ next) :
    Grows b (b'.enterArm merge next) := h.attach.branch hn

theorem enterLoop (b : Builder) : Grows b b.enterLoop :=
  (((refl b).newBlocks 1).attach).branch (Nat.le_refl _)

theorem leaveLoop (b : Builder) (cond : Value) (loop : Nat) :
    Grows b (b.leaveLoop cond loop) :=
  (((refl b).newBlocks 1).attach).branch (Nat.le_refl _)

end Grows

namespace Builder.Ok

variable {b : Builder} {i : Instr} {k : Nat}

theorem append (h : b.Ok) (i : Instr) : (b.append b.insert i).Ok where
  insert_lt := h.insert_lt
  code_fresh := fun k hk => by
    have hne : k ≠ b.insert := by
      have := h.insert_lt
      have hk : b.nextBlock ≤ k := hk
      omega
    exact (if_neg hne).trans (h.code_fresh k hk)

theorem branch (h : b.Ok) (hk : k < b.nextBlock) : (b.branch i k).Ok :=
  { h.append i with insert_lt := hk }

theorem newBlocks (h : b.Ok) (n : Nat) : (b.newBlocks n).Ok where
  insert_lt := Nat.lt_of_lt_of_le h.insert_lt (Nat.le_add_right _ n)
  code_fresh := fun k hk => h.code_fresh k (Nat.le_trans (Nat.le_add_right _ n) hk)

theorem attach (h : b.Ok) : (b.attach k).Ok := { h with }

theorem setNamed (h : b.Ok) (x : String) (cell : Option Nat) : (b.setNamed x cell).Ok :=
  { h with }

theorem newAlloca (h : b.Ok) : b.newAlloca.Ok := { h with }

theorem enterThen (h : b.Ok) (cond : Value) : (b.enterThen cond).Ok :=
  ((h.newBlocks 3).attach).branch (Nat.lt_add_of_pos_right (by decide))

theorem enterArm (h : b.Ok) (merge next : Nat) (hn : next < b.nextBlock) :
    (b.enterArm merge next).Ok := h.attach.branch hn

theorem enterLoop (h : b.Ok) : b.enterLoop.Ok :=
  ((h.newBlocks 1).attach).branch (Nat.lt_succ_self _)

theorem leaveLoop (h : b.Ok) (cond : Value) (loop : Nat) : (b.leaveLoop cond loop).Ok :=
  ((h.newBlocks 1).attach).branch (Nat.lt_succ_self _)

end Builder.Ok

/-! ## Single operations -/

/-- What code generation does to the builder. -/
structure Grown (b b' : Builder) : Prop where
  ok : b'.Ok
  grows : Grows b b'

section Operations

variable {A : Arith} {b b' : Builder} {v : Value}

theorem Grown.refl (h : b.Ok) : Grown b b := ⟨h, .refl b⟩

theorem Grown.trans {b'' : Builder} (h₁ : Grown b b') (h₂ : Grown b' b'') : Grown b b'' :=
  ⟨h₂.ok, h₁.grows.trans h₂.grows⟩

def Value.IsConstant : Value → Prop
  | .const _ | .bool _ => True
  | .arg _ | .inst _ => False

theorem Value.IsConstant.below {n : Nat} (h : v.IsConstant) : v.Below n := by
  cases v with
  | const | bool => trivial
  | arg | inst => exact h.elim

/-- The result of an operation: the instruction it emitted, or a constant it
folded to without emitting anything. -/
inductive Result (i : Nat → Instr) (b : Builder) : Value → Builder → Prop where
  | emitted : Result i b (.inst b.nextInst)
      { b.append b.insert (i b.nextInst) with nextInst := b.nextInst + 1 }
  | folded {v : Value} : v.IsConstant → Result i b v b

theorem Result.grown {i : Nat → Instr} (h : Result i b v b') (hb : b.Ok) :
    Grown b b' ∧ v.Below b'.nextInst := by
  cases h with
  | emitted => exact ⟨⟨{ hb.append _ with }, (Grows.append b _).trans (.newInst _)⟩,
      Nat.lt_succ_self _⟩
  | folded hv => exact ⟨.refl hb, hv.below⟩

theorem emitValue_result {i : Nat → Instr} (h : emitValue i b = .ok v b') :
    Result i b v b' := by
  cases h
  exact .emitted

theorem createFBin_result {op : FBinOp} {x y : Value} (h : createFBin A op x y b = .ok v b') :
    Result (fun r => .fbin r op x y) b v b' := by
  unfold createFBin at h
  split at h
  · obtain ⟨rfl, rfl⟩ := pure_eq_ok h
    exact .folded trivial
  · exact emitValue_result h

theorem createFCmp_result {pred : FCmpPred} {x y : Value}
    (h : createFCmp pred x y b = .ok v b') : Result (fun r => .fcmp r pred x y) b v b' := by
  unfold createFCmp at h
  split at h
  · obtain ⟨rfl, rfl⟩ := pure_eq_ok h
    exact .folded trivial
  · exact emitValue_result h

theorem createUIToFP_result {x : Value} (h : createUIToFP x b = .ok v b') :
    Result (fun r => .uitofp r x) b v b' := by
  unfold createUIToFP at h
  split at h
  · obtain ⟨rfl, rfl⟩ := pure_eq_ok h
    exact .folded trivial
  · exact emitValue_result h

theorem createCall_ok {fn : Function} {args : List Value} (h : createCall fn args b = .ok v b') :
    v = .inst b.nextInst ∧
      b' = { b.append b.insert (.call b.nextInst fn.id args) with
        nextInst := b.nextInst + 1
        accepted := b.accepted ++ [(fn.name, args.length)] } := by
  cases h
  exact ⟨rfl, rfl⟩

theorem createCall_grown {fn : Function} {args : List Value} (hb : b.Ok)
    (h : createCall fn args b = .ok v b') : Grown b b' ∧ v.Below b'.nextInst := by
  obtain ⟨rfl, rfl⟩ := createCall_ok h
  obtain ⟨hg, hv⟩ := (Result.emitted (i := fun r => .call r fn.id args)).grown hb
  exact ⟨⟨{ hg.ok with }, { hg.grows with }⟩, hv⟩

/-- A function that is looked up is in the module afterwards, under the name
it was looked up by, and nothing but the module can have changed. -/
theorem getFunction_ok {name : String} {fn : Function}
    (h : getFunction name b = .ok (some fn) b') :
    fn ∈ b'.module.functions ∧ fn.name = name ∧ b' = { b with module := b'.module } ∧
      b.module.functions <+: b'.module.functions := by
  unfold getFunction at h
  rw [bind_ok (show (get : CodegenM Builder) b = .ok b b from rfl)] at h
  cases hf : b.module.getFunction name with
  | some f =>
      simp only [hf] at h
      cases h
      exact ⟨List.mem_of_find?_eq_some hf, by simpa using List.find?_some hf, rfl,
        List.prefix_rfl⟩
  | none =>
      cases hp : b.protos.find name with
      | none => simp only [hf, hp] at h; cases h
      | some p =>
          simp only [hf, hp] at h
          obtain ⟨f, b₁, hc, h⟩ := bind_eq_ok h
          cases hc
          cases h
          refine ⟨List.mem_append_right _ (List.mem_singleton_self _), ?_, rfl,
            List.prefix_append _ _⟩
          -- no function has the name, so it is not made unique
          have hfree : p.name ∉ b.module.functions.map Function.name := by
            rw [b.protos.name_eq hp]
            intro hmem
            obtain ⟨f, hmem, hn⟩ := List.mem_map.mp hmem
            simpa [hn] using List.find?_eq_none.mp hf f hmem
          simp only [Module.newFunction, uniqueName, hfree, if_false]
          exact b.protos.name_eq hp

theorem getFunction_grown {name : String} {fn : Function} (hb : b.Ok)
    (h : getFunction name b = .ok (some fn) b') : Grown b b' := by
  obtain ⟨_, _, heq, hf⟩ := getFunction_ok h
  rw [heq]
  exact ⟨{ hb with }, { Grows.refl b with functions := hf }⟩

end Operations

/-! ## Expressions -/

/-- What the induction over the tree says of one expression. -/
def Adds (A : Arith) (e : Expr) : Prop :=
  ∀ b v b', b.Ok → e.codegen A b = .ok v b' → Grown b b' ∧ v.Below b'.nextInst

section Constructs

variable {A : Arith} {b b' : Builder} {v : Value}

theorem adds_option {o : Option Expr} {d : Double} (ho : ∀ e ∈ o, Adds A e) (hb : b.Ok)
    (h : codegenOption A d o b = .ok v b') : Grown b b' ∧ v.Below b'.nextInst := by
  cases o with
  | none =>
      simp only [codegenOption] at h
      obtain ⟨rfl, rfl⟩ := pure_eq_ok h
      exact ⟨.refl hb, trivial⟩
  | some e =>
      simp only [codegenOption] at h
      exact ho e rfl b v b' hb h

theorem adds_args {es : List Expr} {vs : List Value} (hes : ∀ e ∈ es, Adds A e) (hb : b.Ok)
    (h : codegenArgs A es b = .ok vs b') : Grown b b' ∧ ∀ v ∈ vs, v.Below b'.nextInst := by
  induction es generalizing b vs with
  | nil =>
      simp only [codegenArgs] at h
      obtain ⟨rfl, rfl⟩ := pure_eq_ok h
      exact ⟨.refl hb, List.forall_mem_nil _⟩
  | cons e es ih =>
      obtain ⟨x, b₁, xs, hx, hxs, rfl⟩ := codegen_args_cons h
      obtain ⟨hg, hv⟩ := hes e (List.mem_cons_self ..) b x b₁ hb hx
      obtain ⟨hg', hvs⟩ := ih (fun a ha => hes a (List.mem_cons_of_mem _ ha)) hg.ok hxs
      refine ⟨hg.trans hg', fun y hy => ?_⟩
      rcases List.mem_cons.mp hy with rfl | hy
      · exact hv.mono hg'.grows.insts
      · exact hvs y hy

/-- The state the bindings after one of a `var` are generated from. -/
theorem grown_bind (hb : b.Ok) (x : String) (d : Value) :
    Grown b ((b.newAlloca.append b.insert (.store d b.nextInst)).setNamed x
      (some b.nextInst)) :=
  ⟨((hb.newAlloca.append _).setNamed _ _),
    ((Grows.newAlloca b).trans (Grows.append b.newAlloca _)).setNamed⟩

theorem adds_vars {vs : List (String × Option Expr)} {old new : String → Option Nat}
    (hvs : ∀ v ∈ vs, ∀ e ∈ v.2, Adds A e) (hb : b.Ok)
    (h : codegenVars A old vs b = .ok new b') : Grown b b' := by
  induction vs generalizing b old with
  | nil =>
      simp only [codegenVars] at h
      obtain ⟨rfl, rfl⟩ := pure_eq_ok h
      exact .refl hb
  | cons v vs ih =>
      obtain ⟨x, init⟩ := v
      obtain ⟨d, b₁, hd, h⟩ := codegen_vars_cons h
      have hg := (adds_option (hvs _ (List.mem_cons_self ..)) hb hd).1
      have hbind := grown_bind hg.ok x d
      exact hg.trans (hbind.trans
        (ih (fun w hw => hvs w (List.mem_cons_of_mem _ hw)) hbind.ok h))

theorem createBinary_grown {op : Char} {x y : Value} (hb : b.Ok)
    (h : createBinary A op x y b = .ok v b') : Grown b b' ∧ v.Below b'.nextInst := by
  unfold createBinary at h
  split at h
  · exact (createFBin_result h).grown hb
  · exact (createFBin_result h).grown hb
  · exact (createFBin_result h).grown hb
  · obtain ⟨c, b₁, hc, h⟩ := bind_eq_ok h
    have hg := ((createFCmp_result hc).grown hb).1
    obtain ⟨hg', hv⟩ := (createUIToFP_result h).grown hg.ok
    exact ⟨hg.trans hg', hv⟩
  · obtain ⟨fn, b₁, hf, h⟩ := bind_eq_ok h
    cases fn with
    | none => cases h
    | some fn =>
        have hg := getFunction_grown hb hf
        obtain ⟨hg', hv⟩ := createCall_grown hg.ok h
        exact ⟨hg.trans hg', hv⟩

/-- Where the blocks of an `if` are: `b₂` ends in the branch, `b₃` is where the
first arm ends and `b₄` where the second does. -/
structure IfBlocks (b₂ b₃ b₄ : Builder) : Prop where
  insert₃ : b₃.insert = b₂.nextBlock ∨ b₂.nextBlock + 3 ≤ b₃.insert
  insert₃_lt : b₃.insert < b₃.nextBlock
  insert₄ : b₄.insert = b₂.nextBlock + 1 ∨ b₃.nextBlock ≤ b₄.insert
  insert₄_lt : b₄.insert < b₄.nextBlock
  blocks₃ : b₂.nextBlock + 3 ≤ b₃.nextBlock
  blocks₄ : b₃.nextBlock ≤ b₄.nextBlock
  else_empty : b₃.body.code (b₂.nextBlock + 1) = []
  merge_empty : b₄.body.code (b₂.nextBlock + 2) = []

theorem ifBlocks {b₂ b₃ b₄ : Builder} {bit : Value} (hb : b₂.Ok)
    (h₃ : Grown (b₂.enterThen bit) b₃)
    (h₄ : Grown (b₃.enterArm (b₂.nextBlock + 2) (b₂.nextBlock + 1)) b₄) :
    IfBlocks b₂ b₃ b₄ := by
  have hlt := hb.insert_lt
  have hthen : b₃.insert = b₂.nextBlock ∨ b₂.nextBlock + 3 ≤ b₃.insert := h₃.grows.insert
  have hblocks₃ : b₂.nextBlock + 3 ≤ b₃.nextBlock := h₃.grows.blocks
  have hels : b₄.insert = b₂.nextBlock + 1 ∨ b₃.nextBlock ≤ b₄.insert := h₄.grows.insert
  have hfresh : ∀ k, b₂.nextBlock < k → k < b₂.nextBlock + 3 → b₃.body.code k = [] := by
    intro k hk hk'
    have hne : k ≠ b₂.insert := by omega
    rw [h₃.grows.others k hk' (by simp only [Builder.enterThen, Builder.branch]; omega)]
    exact (if_neg hne).trans (hb.code_fresh k (by omega))
  have hne : b₂.nextBlock + 2 ≠ b₃.insert := by omega
  exact {
    insert₃ := hthen
    insert₃_lt := h₃.ok.insert_lt
    insert₄ := hels
    insert₄_lt := h₄.ok.insert_lt
    blocks₃ := hblocks₃
    blocks₄ := h₄.grows.blocks
    else_empty := hfresh _ (by omega) (by omega)
    merge_empty := by
      rw [h₄.grows.others (b₂.nextBlock + 2) (by show _ < b₃.nextBlock; omega)
        (by simp only [Builder.enterArm, Builder.branch]; omega)]
      exact (if_neg hne).trans (hfresh _ (by omega) (by omega)) }

theorem adds_ifElse {cond thn els : Expr} (hc : Adds A cond) (ht : Adds A thn)
    (he : Adds A els) : Adds A (.ifElse cond thn els) := by
  intro b v b' hb h
  obtain ⟨c, b₁, bit, b₂, x, b₃, y, b₄, hc', hbit, hx, hy, hphi⟩ := codegen_ifElse h
  have h₁ := (hc _ _ _ hb hc').1
  have h₂ := ((createFCmp_result hbit).grown h₁.ok).1
  have h₃ := (ht _ _ _ (h₂.ok.enterThen bit) hx).1
  have hblocks : b₂.nextBlock + 3 ≤ b₃.nextBlock := h₃.grows.blocks
  have hok₃ : (b₃.enterArm (b₂.nextBlock + 2) (b₂.nextBlock + 1)).Ok :=
    h₃.ok.enterArm _ _ (by omega)
  have h₄ := (he _ _ _ hok₃ hy).1
  have hblocks₄ : b₃.nextBlock ≤ b₄.nextBlock := h₄.grows.blocks
  have hok₄ : (b₄.enterArm (b₂.nextBlock + 2) (b₂.nextBlock + 2)).Ok :=
    h₄.ok.enterArm _ _ (by omega)
  obtain ⟨h₅, hv⟩ := (emitValue_result hphi).grown hok₄
  have hthen : Grows b₂ b₃ := (Grows.enterThen b₂ bit).trans h₃.grows
  have hels : Grows b₂ b₄ := (hthen.enterArm (by omega)).trans h₄.grows
  exact ⟨⟨h₅.ok, (h₁.grows.trans h₂.grows).trans ((hels.enterArm (by omega)).trans h₅.grows)⟩,
    hv⟩

theorem adds_forIn {x : String} {start fin body : Expr} {step : Option Expr}
    (hs : Adds A start) (hf : Adds A fin) (ho : ∀ e ∈ step, Adds A e) (hb' : Adds A body) :
    Adds A (.forIn x start fin step body) := by
  intro b v b' hb h
  obtain ⟨s, b₁, u, b₂, d, b₃, e, b₄, cur, b₅, next, b₆, bit, b₇, hstart, hbody, hstep, hfin,
    hcur, hnext, hbit, rfl, rfl⟩ := codegen_forIn h
  have h₁ := (hs _ _ _ hb.newAlloca hstart).1
  have hloop := (h₁.ok.append (.store s b.nextInst)).enterLoop.setNamed x (some b.nextInst)
  have h₂ := (hb' _ _ _ hloop hbody).1
  have h₃ := (adds_option ho h₂.ok hstep).1
  have h₄ := (hf _ _ _ h₃.ok hfin).1
  have h₅ := ((emitValue_result hcur).grown h₄.ok).1
  have h₆ := ((createFBin_result hnext).grown h₅.ok).1
  have h₇ := ((createFCmp_result hbit).grown (h₆.ok.append _)).1
  refine ⟨⟨(h₇.ok.leaveLoop _ _).setNamed _ _, ?_⟩, trivial⟩
  have hin : Grows b₁ ((b₁.append b₁.insert (.store s b.nextInst)).enterLoop.setNamed x
      (some b.nextInst)) := ((Grows.append b₁ _).trans (.enterLoop _)).setNamed
  have hround : Grows b₂ b₇ := h₃.grows.trans (h₄.grows.trans (h₅.grows.trans
    (h₆.grows.trans ((Grows.append b₆ _).trans h₇.grows))))
  have hall : Grows b b₇ := (Grows.newAlloca b).trans (h₁.grows.trans (hin.trans
    (h₂.grows.trans hround)))
  exact (hall.trans (.leaveLoop b₇ bit b₁.nextBlock)).setNamed

/-- Code generation of an expression only adds to what was there. -/
theorem adds (A : Arith) : ∀ e, Adds A e :=
  Expr.Inductive.all {
    number := fun val b v b' hb h => by
      simp only [Expr.codegen] at h
      obtain ⟨rfl, rfl⟩ := pure_eq_ok h
      exact ⟨.refl hb, trivial⟩
    name := fun name b v b' hb h => by
      obtain ⟨alloca, _, hl⟩ := codegen_variable h
      exact (emitValue_result hl).grown hb
    varIn := fun varNames body hvars hbody b v b' hb h => by
      obtain ⟨old, b₁, b₂, hold, hv, rfl⟩ := codegen_varIn h
      have h₁ := adds_vars hvars hb hold
      obtain ⟨h₂, hv⟩ := hbody _ _ _ h₁.ok hv
      exact ⟨⟨{ h₂.ok with }, { h₁.grows.trans h₂.grows with }⟩, hv⟩
    unary := fun op operand ho b v b' hb h => by
      obtain ⟨x, b₁, fn, b₂, hx, hf, hcall⟩ := codegen_unary h
      have h₁ := (ho _ _ _ hb hx).1
      have h₂ := getFunction_grown h₁.ok hf
      obtain ⟨h₃, hv⟩ := createCall_grown h₂.ok hcall
      exact ⟨h₁.trans (h₂.trans h₃), hv⟩
    binary := fun op lhs rhs hl hr b v b' hb h => by
      by_cases hop : op = '='
      · subst hop
        obtain ⟨name, b₁, alloca, rfl, hx, _, hs⟩ := codegen_assign h
        obtain ⟨h₁, hv⟩ := hr _ _ _ hb hx
        cases hs
        exact ⟨⟨h₁.ok.append _, h₁.grows.trans (.append _ _)⟩, hv⟩
      · obtain ⟨x, b₁, y, b₂, hx, hy, hbin⟩ := codegen_binary hop h
        have h₁ := (hl _ _ _ hb hx).1
        have h₂ := (hr _ _ _ h₁.ok hy).1
        obtain ⟨h₃, hv⟩ := createBinary_grown h₂.ok hbin
        exact ⟨h₁.trans (h₂.trans h₃), hv⟩
    ifElse := fun _ _ _ => adds_ifElse
    forIn := fun _ _ _ _ _ => adds_forIn
    call := fun callee args hargs b v b' hb h => by
      obtain ⟨fn, b₁, vs, b₂, hf, _, hvs, hcall⟩ := codegen_call h
      have h₁ := getFunction_grown hb hf
      have h₂ := (adds_args hargs h₁.ok hvs).1
      obtain ⟨h₃, hv⟩ := createCall_grown h₂.ok hcall
      exact ⟨h₁.trans (h₂.trans h₃), hv⟩ }

end Constructs

end LlvmPasses.Kaleido
