import LlvmPasses.Proofs.CodegenCert

/-!
# Definitions compile to well-formed functions

`codegen_wellFormed`: whatever definition the code generator accepts, the
function it leaves in the module is well formed. Every block ends in its only
terminator, every branch leads to a block of the function, each `phi` has one
entry for each edge to its block, and every register is defined on all paths to
its use.

The invariant of a function being built is carried through the tree by
induction, with one lemma for each construct (`WellBuilt`). An expression may
be generated into a block other than the one it ends in, so what is claimed of
its value is that it is available where the code generator then stands. The
arms of an `if` and the parts of a loop are chained by `Builds.trans`, and the
edges into the block behind them are counted when the last of them is made.

Of an `if`, all three blocks are created before any of them is attached, so
while the first arm is generated the other two are pending, and each end of an
arm takes one of them off (`leaves_enterArm`). What is said of the three is
what was available where the branch to the arms is made. The values of the arms
are registers that only the arms define; the `phi` may name them because what
an entry of a `phi` has to be is available at the end of the block it is for,
and not where the `phi` stands. A loop is entered from the block before it and
again from the end of each round, where everything is still available that was
so at the first entry (`leaves_leaveLoop`).

A definition begins with an entry block in which nothing is said to be defined,
stores its parameters in cells, generates its body and returns; sealing the
last block turns the invariant into the statement (`Sealed`). A use is defined
on every path because the sets hold up along edges and the entry's is empty, so
whatever is in the set of a block was defined on the way there
(`Sealed.defined`). The allocas in front of the entry block come before
everything, so they may be named anywhere.
-/

namespace LlvmPasses.Kaleido

open StateError

/-! ## Expressions -/

/-- What the induction over the tree says of one expression. -/
def WellBuilt (A : Arith) (params : Nat) (e : Expr) : Prop :=
  ∀ b v b' pending said, b.Ok → Cert params pending said b → e.codegen A b = .ok v b' →
    ∃ said', Builds params pending said said' b b' ∧
      v.Fits params (Avail said' b' b'.insert)

section Constructs

variable {A : Arith} {params : Nat} {pending : Nat → Prop} {said : Said}
variable {b b' : Builder} {v x y : Value}

theorem wellBuilt_fbin {op : FBinOp} (hc : Cert params pending said b) (hb : b.Ok)
    (h : createFBin A op x y b = .ok v b') (hx : x.Fits params (Avail said b b.insert))
    (hy : y.Fits params (Avail said b b.insert)) :
    Builds params pending said said b b' ∧ v.Fits params (Avail said b' b'.insert) := by
  refine Builds.result (createFBin_result h) hc hb ⟨rfl, rfl, nofun, ?_, nofun⟩ rfl
  intro w hw
  rcases List.mem_pair.mp hw with rfl | rfl
  · exact hx
  · exact hy

theorem wellBuilt_fcmp {pred : FCmpPred} (hc : Cert params pending said b) (hb : b.Ok)
    (h : createFCmp pred x y b = .ok v b') (hx : x.Fits params (Avail said b b.insert))
    (hy : y.Fits params (Avail said b b.insert)) :
    Builds params pending said said b b' ∧ v.Fits params (Avail said b' b'.insert) := by
  refine Builds.result (createFCmp_result h) hc hb ⟨rfl, rfl, nofun, ?_, nofun⟩ rfl
  intro w hw
  rcases List.mem_pair.mp hw with rfl | rfl
  · exact hx
  · exact hy

theorem wellBuilt_uitofp (hc : Cert params pending said b) (hb : b.Ok)
    (h : createUIToFP x b = .ok v b') (hx : x.Fits params (Avail said b b.insert)) :
    Builds params pending said said b b' ∧ v.Fits params (Avail said b' b'.insert) := by
  refine Builds.result (createUIToFP_result h) hc hb ⟨rfl, rfl, nofun, ?_, nofun⟩ rfl
  intro w hw
  obtain rfl := List.mem_singleton.mp hw
  exact hx

theorem wellBuilt_load {cell : Nat} (hc : Cert params pending said b) (hb : b.Ok)
    (h : createLoad cell b = .ok v b') (hcell : cell ∈ b.body.allocas) :
    Builds params pending said said b b' ∧ v.Fits params (Avail said b' b'.insert) := by
  refine Builds.result (emitValue_result h) hc hb ⟨rfl, rfl, nofun, nofun, ?_⟩ rfl
  intro c hcm
  obtain rfl := List.mem_singleton.mp hcm
  exact hcell

theorem wellBuilt_store (cell : Nat) (hc : Cert params pending said b) (hb : b.Ok)
    (hx : x.Fits params (Avail said b b.insert)) (hcell : cell ∈ b.body.allocas) :
    Builds params pending said said b (b.append b.insert (.store x cell)) := by
  refine Builds.emit hc hb ⟨rfl, rfl, nofun, ?_, ?_⟩
  · intro w hw
    obtain rfl := List.mem_singleton.mp hw
    exact hx
  · intro c hcm
    obtain rfl := List.mem_singleton.mp hcm
    exact hcell

theorem wellBuilt_createCall {fn : Function} {args : List Value}
    (hc : Cert params pending said b) (hb : b.Ok) (h : createCall fn args b = .ok v b')
    (hargs : ∀ x ∈ args, x.Fits params (Avail said b b.insert)) :
    Builds params pending said said b b' ∧ v.Fits params (Avail said b' b'.insert) := by
  obtain ⟨rfl, rfl⟩ := createCall_ok h
  obtain ⟨h₁, h₂⟩ := Builds.result (i := fun r => .call r fn.id args) .emitted hc hb
    ⟨rfl, rfl, nofun, hargs, nofun⟩ rfl
  exact ⟨h₁.of_body rfl rfl rfl (Nat.le_refl _) List.prefix_rfl hc.named, h₂⟩

theorem wellBuilt_getFunction {name : String} {fn : Function}
    (hc : Cert params pending said b) (hb : b.Ok)
    (h : getFunction name b = .ok (some fn) b') : Builds params pending said said b b' := by
  obtain ⟨-, -, heq, hf⟩ := getFunction_ok h
  rw [heq]
  exact (Builds.refl hc hb).of_body rfl rfl rfl (Nat.le_refl _) hf hc.named

theorem wellBuilt_createBinary {op : Char} (hc : Cert params pending said b) (hb : b.Ok)
    (h : createBinary A op x y b = .ok v b') (hx : x.Fits params (Avail said b b.insert))
    (hy : y.Fits params (Avail said b b.insert)) :
    Builds params pending said said b b' ∧ v.Fits params (Avail said b' b'.insert) := by
  unfold createBinary at h
  split at h
  · exact wellBuilt_fbin hc hb h hx hy
  · exact wellBuilt_fbin hc hb h hx hy
  · exact wellBuilt_fbin hc hb h hx hy
  · obtain ⟨c, b₁, hcmp, h⟩ := bind_eq_ok h
    obtain ⟨h₁, hcv⟩ := wellBuilt_fcmp hc hb hcmp hx hy
    obtain ⟨h₂, hv⟩ := wellBuilt_uitofp h₁.cert h₁.ok h hcv
    exact ⟨h₁.trans h₂, hv⟩
  · obtain ⟨fn, b₁, hf, h⟩ := bind_eq_ok h
    cases fn with
    | none => cases h
    | some fn =>
        have h₁ := wellBuilt_getFunction hc hb hf
        obtain ⟨h₂, hv⟩ := wellBuilt_createCall h₁.cert h₁.ok h fun w hw => by
          rcases List.mem_pair.mp hw with rfl | rfl
          · exact hx.keeps h₁
          · exact hy.keeps h₁
        exact ⟨h₁.trans h₂, hv⟩

theorem wellBuilt_option {o : Option Expr} {d : Double} (ho : ∀ e ∈ o, WellBuilt A params e)
    (hb : b.Ok) (hc : Cert params pending said b) (h : codegenOption A d o b = .ok v b') :
    ∃ said', Builds params pending said said' b b' ∧
      v.Fits params (Avail said' b' b'.insert) := by
  cases o with
  | none =>
      simp only [codegenOption] at h
      obtain ⟨rfl, rfl⟩ := pure_eq_ok h
      exact ⟨said, .refl hc hb, .of_constant trivial⟩
  | some e =>
      simp only [codegenOption] at h
      exact ho e rfl _ _ _ _ _ hb hc h

theorem wellBuilt_args {es : List Expr} {vs : List Value} (hes : ∀ e ∈ es, WellBuilt A params e)
    (hb : b.Ok) (hc : Cert params pending said b) (h : codegenArgs A es b = .ok vs b') :
    ∃ said', Builds params pending said said' b b' ∧
      ∀ v ∈ vs, v.Fits params (Avail said' b' b'.insert) := by
  induction es generalizing b vs said with
  | nil =>
      simp only [codegenArgs] at h
      obtain ⟨rfl, rfl⟩ := pure_eq_ok h
      exact ⟨said, .refl hc hb, List.forall_mem_nil _⟩
  | cons e es ih =>
      obtain ⟨x, b₁, xs, hx, hxs, rfl⟩ := codegen_args_cons h
      obtain ⟨said₁, h₁, hv⟩ := hes e (List.mem_cons_self ..) _ _ _ _ _ hb hc hx
      obtain ⟨said₂, h₂, hvs⟩ := ih (fun a ha => hes a (List.mem_cons_of_mem _ ha)) h₁.ok
        h₁.cert hxs
      refine ⟨said₂, h₁.trans h₂, fun w hw => ?_⟩
      rcases List.mem_cons.mp hw with rfl | hw
      · exact hv.keeps h₂
      · exact hvs w hw

/-- Code for a new variable of a `var`, given the code of its initialiser. -/
theorem wellBuilt_bind {d : Value} (hb : b.Ok) (hc : Cert params pending said b)
    (hd : d.Fits params (Avail said b b.insert)) (x : String) :
    Builds params pending said said b
      ((b.newAlloca.append b.insert (.store d b.nextInst)).setNamed x (some b.nextInst)) := by
  have h₁ := Builds.alloca hc hb
  have h₂ := wellBuilt_store (b := b.newAlloca) b.nextInst h₁.cert h₁.ok hd
    (List.mem_cons_self ..)
  refine (h₁.trans h₂).of_body rfl rfl rfl (Nat.le_refl _) List.prefix_rfl fun y c hy => ?_
  have hy : (if y = x then some b.nextInst else b.named y) = some c := hy
  split at hy
  · cases hy
    exact List.mem_cons_self ..
  · exact List.mem_cons_of_mem _ (hc.named y c hy)

theorem wellBuilt_vars {vs : List (String × Option Expr)} {old new : String → Option Nat}
    (hvs : ∀ v ∈ vs, ∀ e ∈ v.2, WellBuilt A params e) (hb : b.Ok)
    (hc : Cert params pending said b) (hold : ∀ x c, old x = some c → c ∈ b.body.allocas)
    (h : codegenVars A old vs b = .ok new b') :
    ∃ said', Builds params pending said said' b b' ∧
      ∀ x c, new x = some c → c ∈ b'.body.allocas := by
  induction vs generalizing b old said with
  | nil =>
      simp only [codegenVars] at h
      obtain ⟨rfl, rfl⟩ := pure_eq_ok h
      exact ⟨said, .refl hc hb, hold⟩
  | cons w vs ih =>
      obtain ⟨x, init⟩ := w
      obtain ⟨d, b₁, hd, h⟩ := codegen_vars_cons h
      obtain ⟨said₁, h₁, hdv⟩ := wellBuilt_option (hvs _ (List.mem_cons_self ..)) hb hc hd
      have h₂ := wellBuilt_bind h₁.ok h₁.cert hdv x
      have hold' : ∀ y c, (if y = x then b₁.named x else old y) = some c →
          c ∈ (b₁.newAlloca.append b₁.insert (.store d b₁.nextInst)).body.allocas := by
        intro y c hy
        refine h₂.allocas c ?_
        split at hy
        · exact h₁.cert.named x c hy
        · exact h₁.allocas c (hold y c hy)
      obtain ⟨said₂, h₃, hnew⟩ := ih (fun w hw => hvs w (List.mem_cons_of_mem _ hw)) h₂.ok
        h₂.cert hold' h
      exact ⟨said₂, (h₁.trans h₂).trans h₃, hnew⟩

theorem restored_mem {vs : List (String × Option Expr)} {old named : String → Option Nat}
    {cells : List Nat} (hold : ∀ x c, old x = some c → c ∈ cells)
    (hnamed : ∀ x c, named x = some c → c ∈ cells) {x : String} {c : Nat}
    (h : restored old vs named x = some c) : c ∈ cells := by
  induction vs generalizing named with
  | nil => exact hnamed x c h
  | cons w vs ih =>
      refine ih (fun y k hy => ?_) h
      split at hy
      · exact hold _ k hy
      · exact hnamed y k hy

theorem wellBuilt_varIn {varNames : List (String × Option Expr)} {body : Expr}
    (hvs : ∀ v ∈ varNames, ∀ e ∈ v.2, WellBuilt A params e) (hbody : WellBuilt A params body) :
    WellBuilt A params (.varIn varNames body) := by
  intro b v b' pending said hb hc h
  obtain ⟨old, b₁, b₂, hold, hv, rfl⟩ := codegen_varIn h
  obtain ⟨said₁, h₁, hnew⟩ := wellBuilt_vars hvs hb hc
    (fun x c (h : none = some c) => nomatch h) hold
  obtain ⟨said₂, h₂, hfits⟩ := hbody _ _ _ _ _ h₁.ok h₁.cert hv
  refine ⟨said₂, (h₁.trans h₂).of_body rfl rfl rfl (Nat.le_refl _) List.prefix_rfl ?_, hfits⟩
  exact fun x c hx => restored_mem (fun y k hy => h₂.allocas k (hnew y k hy)) h₂.cert.named hx

/-! ### Branching -/

theorem leaves_enterThen {bit : Value} (hb : b.Ok) (hc : Cert params pending said b)
    (hbit : bit.Fits params (Avail said b b.insert)) :
    Leaves params pending
      (fun k => pending k ∨ k = b.nextBlock + 1 ∨ k = b.nextBlock + 2)
      said (saidFrom said b b.nextBlock) b (b.enterThen bit)
      (.condBr bit b.nextBlock (b.nextBlock + 1)) b.nextBlock where
  eq := rfl
  blocks := Nat.le_add_right _ 3
  terminator := rfl
  operands := fun w hw => List.mem_singleton.mp hw ▸ hbit
  next_lt := Nat.lt_add_of_pos_right (by decide)
  next_new := fun hm => Nat.lt_irrefl _ (hc.blocks_lt _ hm)
  next_empty := hb.code_fresh _ (Nat.le_refl _)
  agree := fun k hk => saidFrom_below hk
  target := fun t ht => by
    have hge : b.nextBlock ≤ t := by
      rcases List.mem_pair.mp ht with rfl | rfl <;> omega
    refine ⟨?_, fun r hr => saidFrom_ge said hge ▸ hr, fun hm => ?_⟩
    · rcases List.mem_pair.mp ht with rfl | rfl
      · exact .inr (.inl rfl)
      · exact .inr (.inr (.inr (.inl rfl)))
    · exact absurd (hc.blocks_lt t hm) (Nat.not_lt_of_le hge)
  pending_sub := fun k hk => .inl (.inl hk)
  pending_lt := fun k hk => by
    have hnew : b.nextBlock < k → k < b.nextBlock + 3 →
        k < b.nextBlock + 3 ∧ k ∉ b.body.blocks ∧ k ≠ b.nextBlock := fun h₁ h₂ =>
      ⟨h₂, fun hm => Nat.lt_asymm h₁ (hc.blocks_lt k hm), Nat.ne_of_gt h₁⟩
    rcases hk with hk | rfl | rfl
    · obtain ⟨hlt, hnot⟩ := hc.pending_lt k hk
      exact ⟨Nat.lt_of_lt_of_le hlt (Nat.le_add_right _ 3), hnot, Nat.ne_of_lt hlt⟩
    · exact hnew (by omega) (by omega)
    · exact hnew (by omega) (by omega)

/-- The end of an arm of an `if`. -/
theorem leaves_enterArm (pending' : Nat → Prop) (merge next : Nat)
    (hc : Cert params pending said b) (hempty : b.body.code next = []) (hnext : pending next)
    (hmerge : pending merge) (htarget : merge = next ∨ pending' merge)
    (hsub : ∀ k, pending k ↔ pending' k ∨ k = next) (hdisj : ¬ pending' next)
    (hsaid : ∀ r, said merge r → Avail said b b.insert r) :
    Leaves params pending pending' said said b (b.enterArm merge next) (.br merge) next where
  eq := rfl
  blocks := Nat.le_refl _
  terminator := rfl
  operands := nofun
  next_lt := (hc.pending_lt next hnext).1
  next_new := (hc.pending_lt next hnext).2
  next_empty := hempty
  agree := fun _ _ => rfl
  target := fun t ht => by
    obtain rfl := List.mem_singleton.mp ht
    exact ⟨.inr htarget, hsaid, fun hm => absurd hm (hc.pending_lt t hmerge).2⟩
  pending_sub := fun k hk => (hsub k).mp hk
  pending_lt := fun k hk => by
    obtain ⟨hlt, hnot⟩ := hc.pending_lt k ((hsub k).mpr (.inl hk))
    exact ⟨hlt, hnot, fun heq => hdisj (heq ▸ hk)⟩

theorem wellBuilt_ifElse {cond thn els : Expr} (hcond : WellBuilt A params cond)
    (hthn : WellBuilt A params thn) (hels : WellBuilt A params els) :
    WellBuilt A params (.ifElse cond thn els) := by
  intro b v b' pending said hb hc h
  have hgrown := adds A _ _ _ _ hb h
  obtain ⟨c, b₁, bit, b₂, x, b₃, y, b₄, hc', hbit, hx, hy, hphi⟩ := codegen_ifElse h
  obtain ⟨said₁, h₁, hcv⟩ := hcond _ _ _ _ _ hb hc hc'
  obtain ⟨h₂, hbv⟩ := wellBuilt_fcmp h₁.cert h₁.ok hbit hcv (.of_constant trivial)
  have h₁₂ := h₁.trans h₂
  -- the branch, and the first arm
  have hl₁ := leaves_enterThen h₂.ok h₂.cert hbv
  have hok₁ := h₂.ok.enterThen bit
  have hc₁ := hl₁.cert h₂.cert h₂.ok
  obtain ⟨said₃, h₃, hxv⟩ := hthn _ _ _ _ _ hok₁ hc₁ hx
  have hg₃ : b₂.nextBlock + 3 ≤ b₃.nextBlock := h₃.grows.blocks
  have hsaid₃ : ∀ k, b₂.nextBlock ≤ k → k < b₂.nextBlock + 3 →
      said₃ k = Avail said₁ b₂ b₂.insert := fun k hge hlt =>
    (h₃.agree k hlt).trans (saidFrom_ge _ hge)
  have hok₂ : (b₃.enterArm (b₂.nextBlock + 2) (b₂.nextBlock + 1)).Ok :=
    h₃.ok.enterArm _ _ (by omega)
  have hg₄ := (adds A els _ _ _ hok₂ hy).1
  have hif := ifBlocks h₂.ok h₃.toGrown hg₄
  -- its end, and the second arm
  have hl₂ := leaves_enterArm (fun k => pending k ∨ k = b₂.nextBlock + 2)
    (b₂.nextBlock + 2) (b₂.nextBlock + 1) h₃.cert hif.else_empty
    (.inr (.inl rfl)) (.inr (.inr rfl)) (.inr (.inr rfl))
    (fun k => by simp only [or_assoc, or_comm (a := k = b₂.nextBlock + 1)])
    (fun hp => by
      rcases hp with hp | hp
      · exact absurd (h₂.cert.pending_lt _ hp).1 (by omega)
      · omega)
    (fun r hr => h₃.keeps r (.inl (by
      rw [hsaid₃ _ (by omega) (by omega)] at hr
      exact saidFrom_ge said₁ (Nat.le_refl _) ▸ hr)))
  have hc₂ := hl₂.cert h₃.cert h₃.ok
  obtain ⟨said₄, h₄, hyv⟩ := hels _ _ _ _ _ hok₂ hc₂ hy
  have hagree₄ : ∀ k, k < b₃.nextBlock → said₄ k = said₃ k := h₄.agree
  -- the end of that, and the block the arms meet in
  have hl₃ := leaves_enterArm pending (b₂.nextBlock + 2) (b₂.nextBlock + 2)
    h₄.cert hif.merge_empty (.inr rfl) (.inr rfl) (.inl rfl)
    (fun k => Iff.rfl) (fun hp => absurd (h₂.cert.pending_lt _ hp).1 (by omega))
    (fun r hr => by
      rw [hagree₄ _ (by omega), hsaid₃ _ (by omega) (by omega)] at hr
      refine h₄.keeps r (.inl ?_)
      show said₃ (b₂.nextBlock + 1) r
      rw [hsaid₃ _ (by omega) (by omega)]
      exact hr)
  have hc₃ := hl₃.cert h₄.cert h₄.ok
  obtain ⟨rfl, rfl⟩ : v = .inst b₄.nextInst ∧
      b' = { (b₄.enterArm (b₂.nextBlock + 2) (b₂.nextBlock + 2)).append (b₂.nextBlock + 2)
        (.phi b₄.nextInst [(x, b₃.insert), (y, b₄.insert)]) with
        nextInst := b₄.nextInst + 1 } := by
    cases hphi
    exact ⟨rfl, rfl⟩
  have hedges : ∀ p, ([(x, b₃.insert), (y, b₄.insert)].map Prod.snd).count p =
      (b₄.enterArm (b₂.nextBlock + 2) (b₂.nextBlock + 2)).edges p (b₂.nextBlock + 2) := by
    intro p
    have hfirst : b₃.edges p (b₂.nextBlock + 2) = 0 := by
      rw [h₃.edges p _ (show b₂.nextBlock + 2 < b₂.nextBlock + 3 by omega), hl₁.edges h₂.cert,
        h₂.cert.edges_fresh (by omega)]
      simp [Instr.successors]
    rw [hl₃.edges h₄.cert, h₄.edges p _ (show b₂.nextBlock + 2 < b₃.nextBlock by omega),
      hl₂.edges h₃.cert, hfirst]
    simp only [List.map_cons, List.map_nil, Instr.successors, List.count_cons, List.count_nil,
      beq_iff_eq, if_true]
    simp only [eq_comm (a := p), Nat.zero_add]
    omega
  have hxm : x.Fits params (Avail said₄ (b₄.enterArm (b₂.nextBlock + 2) (b₂.nextBlock + 2))
      b₃.insert) := hxv.imp fun r hr =>
    (hl₃.avail (Nat.lt_of_lt_of_le hif.insert₃_lt hif.blocks₄)).mpr
      (h₄.avail hif.insert₃_lt ((hl₂.avail hif.insert₃_lt).mpr hr))
  have hym : y.Fits params (Avail said₄ (b₄.enterArm (b₂.nextBlock + 2) (b₂.nextBlock + 2))
      b₄.insert) := hyv.imp fun r hr => (hl₃.avail hif.insert₄_lt).mpr hr
  have hc₄ : Cert params pending said₄ _ := hc₃.append
    (i := .phi b₄.nextInst [(x, b₃.insert), (y, b₄.insert)]) rfl rfl nofun nofun
    fun r inc heq => by
      cases heq
      have hne : b₃.insert ≠ b₄.insert := by
        rcases hif.insert₃ with h₃ | h₃ <;> rcases hif.insert₄ with h₄ | h₄ <;>
          have := hif.insert₃_lt <;> have := hif.blocks₃ <;> omega
      refine ⟨by simpa using hne, hedges, fun q hq => ?_⟩
      rcases List.mem_pair.mp hq with rfl | rfl
      · exact hxm
      · exact hym
  have hle : b.nextBlock ≤ b₂.nextBlock := h₁₂.grows.blocks
  have hun : Unseen b.nextBlock said said₄ b
      (b₄.enterArm (b₂.nextBlock + 2) (b₂.nextBlock + 2)) := by
    refine h₁₂.toUnseen.trans ?_
    refine (hl₁.unseen h₂.cert hle fun k hk => ?_).trans ?_
    · simp [Instr.successors, List.count_cons]
      omega
    refine (h₃.toUnseen.mono (show b.nextBlock ≤ b₂.nextBlock + 3 by omega)).trans ?_
    refine (hl₂.unseen h₃.cert (by omega) fun k hk => ?_).trans ?_
    · simp [Instr.successors, List.count_cons]
      omega
    refine (h₄.toUnseen.mono (show b.nextBlock ≤ b₃.nextBlock by omega)).trans ?_
    refine hl₃.unseen h₄.cert (by have := hif.blocks₄; omega) fun k hk => ?_
    simp [Instr.successors, List.count_cons]
    omega
  have hstays : Stays b (b₄.enterArm (b₂.nextBlock + 2) (b₂.nextBlock + 2)) :=
    h₁₂.toStays.trans (hl₁.stays.trans (h₃.toStays.trans (hl₂.stays.trans
      (h₄.toStays.trans hl₃.stays))))
  refine ⟨said₄, { hgrown.1, hun, hstays with
    cert := { hc₄ with }
    edges := fun p k hk => (edges_append rfl p).trans (hun.edges p k hk)
    old_phis := fun k r inc hk hmem => ?_
    keeps := fun r hr => .inl ?_ }, trivial, fun r hr => .inr ?_⟩
  · rcases mem_append hmem with hmem | ⟨rfl, -⟩
    · exact hun.old_phis k r inc hk hmem
    · exact absurd hk (by simp only [Builder.enterArm, Builder.branch]; omega)
  · show said₄ (b₂.nextBlock + 2) r
    rw [hagree₄ _ (by omega), hsaid₃ _ (by omega) (by omega)]
    exact h₁₂.keeps r hr
  · obtain rfl := List.mem_singleton.mp hr
    exact results_here (b := b₄.enterArm (b₂.nextBlock + 2) (b₂.nextBlock + 2)) rfl

/-! ### Loops -/

theorem leaves_enterLoop (hb : b.Ok) (hc : Cert params pending said b) :
    Leaves params pending pending said (saidFrom said b b.nextBlock) b b.enterLoop
      (.br b.nextBlock) b.nextBlock where
  eq := rfl
  blocks := Nat.le_succ _
  terminator := rfl
  operands := nofun
  next_lt := Nat.lt_succ_self _
  next_new := fun hm => Nat.lt_irrefl _ (hc.blocks_lt _ hm)
  next_empty := hb.code_fresh _ (Nat.le_refl _)
  agree := fun k hk => saidFrom_below hk
  target := fun t ht => by
    obtain rfl := List.mem_singleton.mp ht
    exact ⟨.inr (.inl rfl), fun r hr => saidFrom_ge said (Nat.le_refl _) ▸ hr,
      fun hm => absurd (hc.blocks_lt _ hm) (Nat.lt_irrefl _)⟩
  pending_sub := fun k hk => .inl hk
  pending_lt := fun k hk => by
    obtain ⟨hlt, hnot⟩ := hc.pending_lt k hk
    exact ⟨Nat.lt_succ_of_lt hlt, hnot, Nat.ne_of_lt hlt⟩

/-- The end of a round: back to the loop, which has no `phi`, or on. -/
theorem leaves_leaveLoop {bit : Value} {loop : Nat} (hb : b.Ok)
    (hc : Cert params pending said b) (hbit : bit.Fits params (Avail said b b.insert))
    (hloop : loop ∈ b.body.blocks) (hsaid : ∀ r, said loop r → Avail said b b.insert r)
    (hphi : ∀ r incoming, Instr.phi r incoming ∉ b.body.code loop) :
    Leaves params pending pending said (saidFrom said b b.nextBlock) b (b.leaveLoop bit loop)
      (.condBr bit loop b.nextBlock) b.nextBlock where
  eq := rfl
  blocks := Nat.le_succ _
  terminator := rfl
  operands := fun w hw => List.mem_singleton.mp hw ▸ hbit
  next_lt := Nat.lt_succ_self _
  next_new := fun hm => Nat.lt_irrefl _ (hc.blocks_lt _ hm)
  next_empty := hb.code_fresh _ (Nat.le_refl _)
  agree := fun k hk => saidFrom_below hk
  target := fun t ht => by
    rcases List.mem_pair.mp ht with rfl | rfl
    · refine ⟨.inl hloop, fun r hr => hsaid r ?_, fun _ => hphi⟩
      rwa [saidFrom_below (hc.blocks_lt _ hloop)] at hr
    · exact ⟨.inr (.inl rfl), fun r hr => saidFrom_ge said (Nat.le_refl _) ▸ hr,
        fun hm => absurd (hc.blocks_lt _ hm) (Nat.lt_irrefl _)⟩
  pending_sub := fun k hk => .inl hk
  pending_lt := fun k hk => by
    obtain ⟨hlt, hnot⟩ := hc.pending_lt k hk
    exact ⟨Nat.lt_succ_of_lt hlt, hnot, Nat.ne_of_lt hlt⟩

/-- The code of one round of a loop. -/
theorem wellBuilt_round {fin body : Expr} {step : Option Expr} {cell : Nat}
    {u d e cur next bit : Value} {b₂ b₃ b₄ b₅ b₆ b₇ : Builder} (hbody : WellBuilt A params body)
    (hstep : ∀ e ∈ step, WellBuilt A params e) (hfin : WellBuilt A params fin) (hb : b.Ok)
    (hc : Cert params pending said b) (hcell : cell ∈ b.body.allocas)
    (h₂ : body.codegen A b = .ok u b₂) (h₃ : codegenOption A .one step b₂ = .ok d b₃)
    (h₄ : fin.codegen A b₃ = .ok e b₄) (h₅ : createLoad cell b₄ = .ok cur b₅)
    (h₆ : createFBin A .add cur d b₅ = .ok next b₆)
    (h₇ : createFCmp .one e (.const .zero) (b₆.append b₆.insert (.store next cell)) =
      .ok bit b₇) :
    ∃ said', Builds params pending said said' b b₇ ∧
      bit.Fits params (Avail said' b₇ b₇.insert) := by
  obtain ⟨said₂, g₂, -⟩ := hbody _ _ _ _ _ hb hc h₂
  obtain ⟨said₃, g₃, hd⟩ := wellBuilt_option hstep g₂.ok g₂.cert h₃
  obtain ⟨said₄, g₄, he⟩ := hfin _ _ _ _ _ g₃.ok g₃.cert h₄
  have hcell₄ := g₄.allocas _ (g₃.allocas _ (g₂.allocas _ hcell))
  obtain ⟨g₅, hcur⟩ := wellBuilt_load g₄.cert g₄.ok h₅ hcell₄
  obtain ⟨g₆, hnext⟩ := wellBuilt_fbin g₅.cert g₅.ok h₆ hcur ((hd.keeps g₄).keeps g₅)
  have g₆' := wellBuilt_store cell g₆.cert g₆.ok hnext
    (g₆.allocas _ (g₅.allocas _ hcell₄))
  obtain ⟨g₇, hbit⟩ := wellBuilt_fcmp g₆'.cert g₆'.ok h₇
    (((he.keeps g₅).keeps g₆).keeps g₆') (.of_constant trivial)
  exact ⟨said₄, g₂.trans (g₃.trans (g₄.trans (g₅.trans (g₆.trans (g₆'.trans g₇))))), hbit⟩

theorem wellBuilt_forIn {x : String} {start fin body : Expr} {step : Option Expr}
    (hstart : WellBuilt A params start) (hfin : WellBuilt A params fin)
    (hstep : ∀ e ∈ step, WellBuilt A params e) (hbody : WellBuilt A params body) :
    WellBuilt A params (.forIn x start fin step body) := by
  intro b v b' pending said hb hc h
  have hgrown := adds A _ _ _ _ hb h
  obtain ⟨s, b₁, u, b₂, d, b₃, e, b₄, cur, b₅, next, b₆, bit, b₇, h₁, h₂, h₃, h₄, h₅, h₆, h₇,
    rfl, rfl⟩ := codegen_forIn h
  have g₀ := Builds.alloca hc hb
  obtain ⟨said₁, g₁, hs⟩ := hstart _ _ _ _ _ g₀.ok g₀.cert h₁
  have hcell₁ : b.nextInst ∈ b₁.body.allocas := g₁.allocas _ (List.mem_cons_self ..)
  have g₁' := wellBuilt_store b.nextInst g₁.cert g₁.ok hs hcell₁
  have g := g₀.trans (g₁.trans g₁')
  -- into the loop
  have hl₁ := leaves_enterLoop g₁'.ok g₁'.cert
  have hcl := hl₁.cert g₁'.cert g₁'.ok
  let bl := (b₁.append b₁.insert (.store s b.nextInst)).enterLoop.setNamed x (some b.nextInst)
  have hokl : bl.Ok := g₁'.ok.enterLoop.setNamed _ _
  have hcl' : Cert params pending (saidFrom said₁ (b₁.append b₁.insert (.store s b.nextInst))
      b₁.nextBlock) bl := { hcl with
    named := fun y c hy => by
      have hy : (if y = x then some b.nextInst else b₁.named y) = some c := hy
      split at hy
      · cases hy
        exact hcell₁
      · exact g₁.cert.named y c hy }
  obtain ⟨said₇, g₇, hbit⟩ := wellBuilt_round hbody hstep hfin hokl hcl' hcell₁ h₂ h₃ h₄ h₅ h₆ h₇
  -- and out of it
  have hlt : b₁.nextBlock < bl.nextBlock := Nat.lt_succ_self _
  have hblocks₇ : bl.nextBlock ≤ b₇.nextBlock := g₇.grows.blocks
  have hempty : bl.body.code b₁.nextBlock = [] := by
    have hne : b₁.nextBlock ≠ b₁.insert := by have := g₁.ok.insert_lt; omega
    exact (if_neg hne).trans (g₁'.ok.code_fresh _ (Nat.le_refl _))
  have hsaid : ∀ r, said₇ b₁.nextBlock r → Avail said₇ b₇ b₇.insert r := fun r hr =>
    g₇.keeps r (.inl (g₇.agree _ hlt ▸ hr))
  have hphi : ∀ r inc, Instr.phi r inc ∉ b₇.body.code b₁.nextBlock := fun r inc hmem => by
    have hmem := g₇.old_phis _ r inc hlt hmem
    rw [hempty] at hmem
    cases hmem
  have hl₂ := leaves_leaveLoop g₇.ok g₇.cert hbit
    (g₇.blocks _ (hl₁.mem_blocks.mpr (.inr rfl))) hsaid hphi
  have hc₂ := hl₂.cert g₇.cert g₇.ok
  have hle : b.nextBlock ≤ b₁.nextBlock := g.grows.blocks
  have hun : Unseen b.nextBlock said (saidFrom said₇ b₇ b₇.nextBlock) b
      (b₇.leaveLoop bit b₁.nextBlock) := by
    refine g.toUnseen.trans ?_
    refine (hl₁.unseen g₁'.cert hle fun k hk => ?_).trans ?_
    · have hne : b₁.nextBlock ≠ k := by omega
      exact List.count_eq_zero_of_not_mem fun hm => hne (List.mem_singleton.mp hm).symm
    have hle₇ : b.nextBlock ≤ b₇.nextBlock := by omega
    have hun := g₇.toUnseen.mono (m := b.nextBlock) (by omega)
    have hun₇ : Unseen b.nextBlock (saidFrom said₁ (b₁.append b₁.insert (.store s b.nextInst))
        b₁.nextBlock) said₇ (b₁.append b₁.insert (.store s b.nextInst)).enterLoop b₇ :=
      ⟨hun.agree, hun.edges, hun.old_phis⟩
    refine hun₇.trans (hl₂.unseen g₇.cert hle₇ fun k hk => ?_)
    refine List.count_eq_zero_of_not_mem fun hm => ?_
    rcases List.mem_pair.mp hm with rfl | rfl
    · exact Nat.not_lt_of_le hle hk
    · exact Nat.not_lt_of_le hle₇ hk
  have hstays : Stays b (b₇.leaveLoop bit b₁.nextBlock) :=
    have hstays₇ : Stays (b₁.append b₁.insert (.store s b.nextInst)).enterLoop b₇ :=
      ⟨g₇.blocks, g₇.allocas⟩
    g.toStays.trans (hl₁.stays.trans (hstays₇.trans hl₂.stays))
  refine ⟨saidFrom said₇ b₇ b₇.nextBlock, { hgrown.1, hun, hstays with
    cert := { hc₂ with named := fun y c hy => ?_ }
    keeps := fun r hr => .inl ?_ }, .of_constant trivial⟩
  · have hy : (if y = x then b₁.named x else b₇.named y) = some c := hy
    split at hy
    · exact g₇.allocas c (g₁.cert.named x c hy)
    · exact g₇.cert.named y c hy
  · show saidFrom said₇ b₇ b₇.nextBlock b₇.nextBlock r
    rw [saidFrom_ge _ (Nat.le_refl _)]
    refine g₇.keeps r (.inl ?_)
    show saidFrom said₁ _ b₁.nextBlock b₁.nextBlock r
    rw [saidFrom_ge _ (Nat.le_refl _)]
    exact g.keeps r hr

/-- The code of every expression is well built. -/
theorem wellBuilt (A : Arith) (params : Nat) : ∀ e, WellBuilt A params e :=
  Expr.Inductive.all {
    number := fun val b v b' pending said hb hc h => by
      simp only [Expr.codegen] at h
      obtain ⟨rfl, rfl⟩ := pure_eq_ok h
      exact ⟨said, .refl hc hb, .of_constant trivial⟩
    name := fun name b v b' pending said hb hc h => by
      obtain ⟨alloca, hn, hl⟩ := codegen_variable h
      exact ⟨said, wellBuilt_load hc hb hl (hc.named name alloca hn)⟩
    varIn := fun varNames body hvars hbody => wellBuilt_varIn hvars hbody
    unary := fun op operand ho b v b' pending said hb hc h => by
      obtain ⟨x, b₁, fn, b₂, hx, hf, hcall⟩ := codegen_unary h
      obtain ⟨said₁, h₁, hxv⟩ := ho _ _ _ _ _ hb hc hx
      have h₂ := wellBuilt_getFunction h₁.cert h₁.ok hf
      obtain ⟨h₃, hv⟩ := wellBuilt_createCall h₂.cert h₂.ok hcall fun w hw => by
        obtain rfl := List.mem_singleton.mp hw
        exact hxv.keeps h₂
      exact ⟨said₁, h₁.trans (h₂.trans h₃), hv⟩
    binary := fun op lhs rhs hl hr b v b' pending said hb hc h => by
      by_cases hop : op = '='
      · subst hop
        obtain ⟨name, b₁, alloca, rfl, hx, hn, hs⟩ := codegen_assign h
        obtain ⟨said₁, h₁, hxv⟩ := hr _ _ _ _ _ hb hc hx
        cases hs
        have h₂ := wellBuilt_store alloca h₁.cert h₁.ok hxv
          (h₁.cert.named name alloca hn)
        exact ⟨said₁, h₁.trans h₂, hxv.keeps h₂⟩
      · obtain ⟨x, b₁, y, b₂, hx, hy, hbin⟩ := codegen_binary hop h
        obtain ⟨said₁, h₁, hxv⟩ := hl _ _ _ _ _ hb hc hx
        obtain ⟨said₂, h₂, hyv⟩ := hr _ _ _ _ _ h₁.ok h₁.cert hy
        obtain ⟨h₃, hv⟩ := wellBuilt_createBinary h₂.cert h₂.ok hbin (hxv.keeps h₂) hyv
        exact ⟨said₂, h₁.trans (h₂.trans h₃), hv⟩
    ifElse := fun _ _ _ => wellBuilt_ifElse
    forIn := fun _ _ _ _ _ => wellBuilt_forIn
    call := fun callee args hargs b v b' pending said hb hc h => by
      obtain ⟨fn, b₁, vs, b₂, hf, _, hvs, hcall⟩ := codegen_call h
      have h₁ := wellBuilt_getFunction hc hb hf
      obtain ⟨said₂, h₂, hvv⟩ := wellBuilt_args hargs h₁.ok h₁.cert hvs
      obtain ⟨h₃, hv⟩ := wellBuilt_createCall h₂.cert h₂.ok hcall hvv
      exact ⟨said₂, h₁.trans (h₂.trans h₃), hv⟩ }

end Constructs

/-! ## Functions -/

section Functions

variable {A : Arith} {params : Nat} {b b' : Builder}

/-- A function is begun with an empty entry block. -/
theorem cert_begin (params : Nat) (b : Builder) :
    b.begin.Ok ∧ Cert params (fun _ => False) (fun _ _ => False) b.begin := by
  refine ⟨⟨Nat.lt_succ_self entryBlock, fun _ _ => rfl⟩, ?_⟩
  exact {
    entry_mem := List.mem_singleton_self _
    insert_mem := List.mem_singleton_self _
    blocks_lt := fun k hk => by
      obtain rfl := List.mem_singleton.mp hk
      exact Nat.lt_succ_self entryBlock
    pending_lt := nofun
    current := nofun
    finished := fun k hk hne => absurd (List.mem_singleton.mp hk) hne
    attached := fun k _ t ht => nomatch ht
    said_entry := nofun
    said_edge := fun k _ t ht => nomatch ht
    operands := fun k _ pre i post heq => by cases pre <;> cases heq
    phis := fun k _ r inc hm => nomatch hm
    cells := fun k _ i hi => nomatch hi
    no_alloca := fun k _ i hi => nomatch hi
    named := nofun }

theorem wellBuilt_params {names : List String} {i : Nat} {said : Said}
    (hlen : i + names.length ≤ params) (hb : b.Ok) (hc : Cert params (fun _ => False) said b)
    (h : codegenParams i names b = .ok () b') :
    Builds params (fun _ => False) said said b b' := by
  induction names generalizing b i with
  | nil =>
      cases h
      exact .refl hc hb
  | cons x names ih =>
      have hbind := wellBuilt_bind hb hc (d := .arg i)
        ⟨show i < params by simp only [List.length_cons] at hlen; omega, nofun⟩ x
      exact hbind.trans (ih (by simp only [List.length_cons] at hlen; omega) hbind.ok
        hbind.cert h)

/-- Appending the `ret` adds no edges, and finishes the last block. -/
theorem targets_ret {v : Value} {k : Nat} :
    targets ((b.append b.insert (.ret v)).body.code k) = targets (b.body.code k) := by
  by_cases hk : k = b.insert
  · subst hk
    rw [append_here, targets_append]
    exact List.append_nil _
  · rw [append_other hk]

theorem Body.instrs_eq (f : Body) (k : Nat) :
    f.instrs k = (if k = entryBlock then f.allocas.map .alloca else []) ++ f.code k := by
  unfold Body.instrs
  split <;> rfl

theorem Body.targets_instrs (f : Body) (k : Nat) : targets (f.instrs k) = targets (f.code k) := by
  rw [f.instrs_eq, targets_append, targets_eq_nil, List.nil_append]
  intro i hi
  split at hi
  · obtain ⟨r, -, rfl⟩ := List.mem_map.mp hi
    rfl
  · cases hi

theorem Body.mem_instrs {f : Body} {k : Nat} {i : Instr} (h : i ∈ f.instrs k) :
    (k = entryBlock ∧ ∃ r ∈ f.allocas, i = .alloca r) ∨ i ∈ f.code k := by
  rw [f.instrs_eq] at h
  rcases List.mem_append.mp h with h | h
  · split at h
    · next hk =>
        obtain ⟨r, hr, rfl⟩ := List.mem_map.mp h
        exact .inl ⟨hk, r, hr, rfl⟩
    · cases h
  · exact .inr h

theorem results_allocas (cells : List Nat) : results (cells.map .alloca) = cells := by
  induction cells with
  | nil => rfl
  | cons c cs ih => exact congrArg (c :: ·) ih

/-- An instruction is either in the first of two runs or somewhere in the second. -/
theorem append_split {is js pre post : List Instr} {i : Instr}
    (h : is ++ js = pre ++ i :: post) :
    i ∈ is ∨ ∃ pre', pre = is ++ pre' ∧ js = pre' ++ i :: post := by
  rcases List.append_eq_append_iff.mp h with ⟨pre', hpre, hjs⟩ | ⟨mid, his, hmid⟩
  · exact .inr ⟨pre', hpre, hjs⟩
  · cases mid with
    | nil => exact .inr ⟨[], by simpa using his.symm, by simpa using hmid.symm⟩
    | cons j mid =>
        obtain ⟨rfl, -⟩ := List.cons.inj hmid
        exact .inl (his ▸ List.mem_append_right _ (List.mem_cons_self ..))

/-- What `Cert` says of a body once the `ret` is there. -/
structure Sealed (params : Nat) (said : Said) (f : Body) : Prop where
  entry_mem : entryBlock ∈ f.blocks
  finished : ∀ k ∈ f.blocks, ∃ init t, f.code k = init ++ [t] ∧ t.isTerminator = true ∧
    ∀ i ∈ init, i.isTerminator = false
  attached : ∀ k ∈ f.blocks, ∀ t ∈ targets (f.code k), t ∈ f.blocks
  said_entry : ∀ r, ¬ said entryBlock r
  said_edge : ∀ k ∈ f.blocks, ∀ t ∈ targets (f.code k), ∀ r, said t r →
    said k r ∨ r ∈ results (f.code k)
  operands : ∀ k ∈ f.blocks, ∀ pre i post, f.code k = pre ++ i :: post →
    ∀ v ∈ i.operands, v.Fits params fun r => said k r ∨ r ∈ results pre
  phis : ∀ k ∈ f.blocks, ∀ r incoming, Instr.phi r incoming ∈ f.code k →
    (incoming.map Prod.snd).Nodup ∧
      (∀ p, (incoming.map Prod.snd).count p =
        if p ∈ f.blocks then (targets (f.code p)).count k else 0) ∧
      ∀ q ∈ incoming, q.1.Fits params fun r => said q.2 r ∨ r ∈ results (f.code q.2)
  cells : ∀ k ∈ f.blocks, ∀ i ∈ f.code k, ∀ c ∈ i.cells, c ∈ f.allocas
  no_alloca : ∀ k ∈ f.blocks, ∀ i ∈ f.code k, i.isAlloca = false

theorem Cert.sealed {said : Said} {v : Value} (hc : Cert params (fun _ => False) said b)
    (hv : v.Fits params (Avail said b b.insert)) :
    Sealed params said (b.append b.insert (.ret v)).body where
  entry_mem := hc.entry_mem
  finished := fun k hk => by
    by_cases hkb : k = b.insert
    · subst hkb
      exact ⟨_, _, append_here, rfl, hc.current⟩
    · rw [append_other hkb]
      exact hc.finished k hk hkb
  attached := fun k hk t ht => (hc.attached k hk t (targets_ret ▸ ht)).resolve_right id
  said_entry := hc.said_entry
  said_edge := fun k hk t ht r hr => (hc.said_edge k hk t (targets_ret ▸ ht) r hr).append
  operands := fun k hk pre j post heq w hw => by
    by_cases hkb : k = b.insert
    · subst hkb
      rw [append_here] at heq
      rcases append_eq_append_cons heq with ⟨post', heq⟩ | ⟨rfl, rfl⟩
      · exact hc.operands _ hk pre j post' heq w hw
      · obtain rfl := List.mem_singleton.mp hw
        exact hv
    · rw [append_other hkb] at heq
      exact hc.operands k hk pre j post heq w hw
  phis := fun k hk r inc hmem => by
    rcases mem_append hmem with hmem | ⟨-, heq⟩
    · obtain ⟨hnodup, hcount, hfits⟩ := hc.phis k hk r inc hmem
      refine ⟨hnodup, fun p => ?_, fun q hq => (hfits q hq).imp fun _ => Avail.append⟩
      rw [targets_ret]
      exact hcount p
    · cases heq
  cells := fun k hk j hj => by
    rcases mem_append hj with hj | ⟨-, rfl⟩
    · exact hc.cells k hk j hj
    · exact nofun
  no_alloca := fun k hk j hj => by
    rcases mem_append hj with hj | ⟨-, rfl⟩
    · exact hc.no_alloca k hk j hj
    · rfl

namespace Sealed

variable {said : Said} {f : Body}

theorem instrs_of_ne {k : Nat} (hk : k ≠ entryBlock) : f.instrs k = f.code k := if_neg hk

/-- What is said of a block is defined on every path to it. -/
theorem defined (h : Sealed params said f) {path : List Nat} {k : Nat} (hpath : f.Path path k)
    {r : Nat} (hr : said k r) : r ∈ f.defined path := by
  refine Flow.covered (f := fun k => results (f.instrs k)) h.said_entry ?_ hpath hr
  rintro k t x ⟨hk, ht⟩ hx
  rw [f.targets_instrs] at ht
  refine (h.said_edge k hk t ht x hx).imp_right fun hres => ?_
  rw [f.instrs_eq, results_append]
  exact List.mem_append_right _ hres

/-- The allocas are on every path to a block that is not the entry. -/
theorem alloca_defined (_h : Sealed params said f) {path : List Nat} {k c : Nat}
    (hpath : f.Path path k) (hk : k ≠ entryBlock) (hc : c ∈ f.allocas) :
    c ∈ f.defined path := by
  refine List.mem_flatMap.mpr ⟨entryBlock, hpath.entry_mem hk, ?_⟩
  rw [f.instrs_eq, if_pos rfl, results_append, results_allocas]
  exact List.mem_append_left _ hc

theorem uses_defined (h : Sealed params said f) {path : List Nat} {k : Nat}
    {pre post : List Instr} {i : Instr} (hk : k ∈ f.blocks) (hpath : f.Path path k)
    (heq : f.instrs k = pre ++ i :: post) {r : Nat} (hr : r ∈ i.uses) :
    r ∈ f.defined path ++ results pre := by
  rw [f.instrs_eq] at heq
  rcases append_split heq with hi | ⟨pre', rfl, hcode⟩
  · -- an alloca uses nothing
    split at hi
    · obtain ⟨c, -, rfl⟩ := List.mem_map.mp hi
      cases hr
    · cases hi
  · rcases List.mem_append.mp hr with hr | hr
    · obtain ⟨v, hv, hr⟩ := List.mem_flatMap.mp hr
      rcases (h.operands k hk pre' i post hcode v hv).uses r hr with hsaid | hres
      · exact List.mem_append_left _ (h.defined hpath hsaid)
      · rw [results_append]
        exact List.mem_append_right _ (List.mem_append_right _ hres)
    · have hc := h.cells k hk i (hcode ▸ List.mem_append_right _ (List.mem_cons_self ..)) r hr
      by_cases hke : k = entryBlock
      · rw [if_pos hke, results_append, results_allocas]
        exact List.mem_append_right _ (List.mem_append_left _ hc)
      · exact List.mem_append_left _ (h.alloca_defined hpath hke hc)

theorem phi_mem {k r : Nat} {inc : List (Value × Nat)} (h : Instr.phi r inc ∈ f.instrs k) :
    Instr.phi r inc ∈ f.code k := by
  rcases f.mem_instrs h with ⟨-, c, -, heq⟩ | h
  · cases heq
  · exact h

theorem wellFormed (h : Sealed params said f) : f.WellFormed params where
  entry_mem := h.entry_mem
  terminated := fun k hk => by
    obtain ⟨init, t, heq, ht, hinit⟩ := h.finished k hk
    refine ⟨(if k = entryBlock then f.allocas.map .alloca else []) ++ init, t, ?_, ht, ?_⟩
    · rw [f.instrs_eq, heq, List.append_assoc]
    · intro i hi
      rcases List.mem_append.mp hi with hi | hi
      · split at hi
        · obtain ⟨c, -, rfl⟩ := List.mem_map.mp hi
          rfl
        · cases hi
      · exact hinit i hi
  attached := fun k t ⟨hk, ht⟩ => h.attached k hk t (f.targets_instrs k ▸ ht)
  phi_nodup := fun k hk r inc hmem => (h.phis k hk r inc (phi_mem hmem)).1
  phi_edges := fun k hk r inc hmem p => by
    unfold Body.edges
    rw [f.targets_instrs]
    exact (h.phis k hk r inc (phi_mem hmem)).2.1 p
  uses_defined := fun k path pre i post hk hpath heq r hr => h.uses_defined hk hpath heq hr
  incoming_defined := fun k hk r inc hmem q hq path hpath x hx => by
    rcases ((h.phis k hk r inc (phi_mem hmem)).2.2 q hq).uses x hx with hsaid | hres
    · exact List.mem_append_left _ (h.defined hpath hsaid)
    · rw [f.instrs_eq, results_append]
      exact List.mem_append_right _ (List.mem_append_right _ hres)
  args_lt := fun k hk i hi v hv => by
    rcases f.mem_instrs hi with ⟨-, c, -, rfl⟩ | hi
    · cases hv
    · obtain ⟨pre, post, heq⟩ := List.append_of_mem hi
      exact (h.operands k hk pre i post heq v hv).arg
  allocas := by
    refine ⟨f.allocas.map .alloca, f.code entryBlock, if_pos rfl, ?_,
      h.no_alloca _ h.entry_mem, ?_, ?_⟩
    · intro i hi
      obtain ⟨c, -, rfl⟩ := List.mem_map.mp hi
      rfl
    · intro k hk hne i hi
      rw [instrs_of_ne hne] at hi
      exact h.no_alloca k hk i hi
    · intro k hk i hi c hc
      rw [results_allocas]
      rcases f.mem_instrs hi with ⟨-, a, -, rfl⟩ | hi
      · cases hc
      · exact h.cells k hk i hi c hc

end Sealed

/-- A definition compiles to a well-formed function: the one the module has
under the handle that is returned, as it was emitted. -/
theorem codegen_wellFormed (A : Arith) {f : FunctionAST} {fn : Function} {b b' : Builder}
    (h : f.codegen A b = .ok fn b') :
    ∃ g ∈ b'.module.functions, g.id = fn.id ∧
      ∃ body, g.body = some body ∧ body.WellFormed g.params.length := by
  obtain ⟨b₁, b₂, v, b₃, hd, hp, hv, rfl⟩ := functionCodegen_ok h
  obtain ⟨hok, hcert⟩ := cert_begin fn.params.length
    (b₁.withPrecedence f.prototype)
  have g₂ := wellBuilt_params (by omega) hok hcert hp
  obtain ⟨said₃, g₃, hfits⟩ := wellBuilt A fn.params.length f.body _ _ _ _ _ g₂.ok g₂.cert hv
  -- the function found is still in the module when its body is finished
  have hfn : fn ∈ b₃.module.functions := by
    have hmem := (getFunction_ok (declareFunction_ok hd).1).1
    refine g₃.grows.functions.subset (g₂.grows.functions.subset ?_)
    unfold Builder.begin Builder.withPrecedence
    split <;> exact hmem
  refine ⟨{ fn with body := some (b₃.append b₃.insert (.ret v)).body },
    List.mem_map.mpr ⟨fn, hfn, if_pos rfl⟩, rfl, _, rfl, ?_⟩
  exact (g₃.cert.sealed hfits).wellFormed

/-- `def f(x) if x then x else 1`. -/
theorem codegen_wellFormed_ifElse :
    let A : Arith := ⟨fun a _ => a, fun a _ => a, fun a _ => a⟩
    let f : FunctionAST := ⟨{ name := "f", args := ["x"] },
      .ifElse (.variable "x") (.variable "x") (.number .one)⟩
    ∃ fn b', f.codegen A (.initial fun _ => 0) = .ok fn b' ∧
      ∃ g ∈ b'.module.functions, g.id = fn.id ∧
        ∃ body, g.body = some body ∧ body.WellFormed g.params.length := by
  intro A f
  have hok : okAnd (f.codegen A (.initial fun _ => 0)) (fun _ _ => true) = true := by
    decide +kernel
  obtain ⟨fn, b', h, -⟩ := okAnd_iff.mp hok
  exact ⟨fn, b', h, codegen_wellFormed A h⟩

end Functions

end LlvmPasses.Kaleido
