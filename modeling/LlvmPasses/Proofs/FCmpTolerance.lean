import Mathlib.Data.Nat.Init
import LlvmPasses.Ir.BuildRuns
import LlvmPasses.Ir.Doubles
import LlvmPasses.Proofs.FCmpTypes

/-!
# What converted comparisons say of equal numbers

The difference of equal numbers is zero and below the epsilon, and a number that
is none makes a difference that is none, which every predicate treats as it
treats the number. But the difference of an infinity from itself is no number
either: an ordered comparison for equality fails then, and an unordered one for
inequality holds.

`convertFCmpEq_keeps_iff` is about two machines, one before the comparison and
one before the code that is inserted for it. The code runs to the end and
leaves the absolute value of the difference (`absDifference_runs`, one lemma
for each instruction of it), or has been folded to that value; then the
comparison with the epsilon is decided. What is wanted of its outcome is
`Keeps`, and `keeps_iff` decides it for each of the four predicates: numbers
that are equal have difference zero, a number that is none has a difference
that is none, and the one pair of equal numbers whose difference is none are
the infinities of one sign.

Subtraction is rounding arithmetic of the machine. All that is asked of it is
what the standard says of equal operands and of operands that are no numbers,
as hypotheses on the world.
-/

namespace LlvmPasses.ConvertFCmpEq

open Ir Ir.Function IRBuilder

variable {folder : Folder} {F : Function} {a b c : Double} {pred pred' : FCmpPred}

/-! ## Comparing with the epsilon -/

/-- What is wanted of a converted comparison: equal numbers are still equal, and
on what is no number it says what it said. -/
def Keeps (pred : FCmpPred) (a b : Double) (result : Bool) : Prop :=
  (a.eq b = true → result = (pred == .oeq || pred == .ueq)) ∧
    (a.unordered b = true → result = pred.apply a b)

def epsilon : Double := ⟨0x3CB0000000000000⟩

theorem apply_of_isNaN (h : c.isNaN = true) (hpred : convertPredicate pred = some pred') :
    pred'.apply c.abs epsilon = (pred == .ueq || pred == .une) := by
  have hnan : c.abs.isNaN = true := c.isNaN_abs.trans h
  cases pred with
  | oeq | ueq | one | une =>
      cases hpred
      simp [FCmpPred.apply, Double.lt, Double.eq, Double.unordered, hnan]
  | _ => cases hpred

theorem apply_of_zero (h : c.isNaN = false) (hkey : c.key = 0)
    (hpred : convertPredicate pred = some pred') :
    pred'.apply c.abs epsilon = (pred == .oeq || pred == .ueq) := by
  have hnan : c.abs.isNaN = false := c.isNaN_abs.trans h
  have hzero : c.abs.key = 0 := by rw [c.key_abs, hkey, Int.natAbs_zero, Int.ofNat_zero]
  have hsmall : (0 : Int) < epsilon.key := by decide
  have heps : epsilon.isNaN = false := by decide
  have hlt : ¬ epsilon.key < 0 := by omega
  have hne : (0 : Int) ≠ epsilon.key := by omega
  cases pred with
  | oeq | ueq | one | une =>
      cases hpred
      simp [FCmpPred.apply, Double.lt, Double.eq, Double.unordered, hnan, heps, hzero, hsmall,
        hlt, hne]
  | _ => cases hpred

theorem apply_of_unordered (h : a.unordered b = true) (hpred : convertPredicate pred = some pred') :
    pred.apply a b = (pred == .ueq || pred == .une) := by
  have hsome : a.isNaN = true ∨ b.isNaN = true := by simpa [Double.unordered] using h
  cases pred with
  | oeq | ueq | one | une =>
      rcases hsome with hnan | hnan <;>
        simp [FCmpPred.apply, Double.lt, Double.eq, Double.unordered, hnan]
  | _ => cases hpred

/-- Infinities are the exception. -/
theorem keeps_iff (hc : Difference a b c) (hpred : convertPredicate pred = some pred') :
    Keeps pred a b (pred'.apply c.abs epsilon) ↔
      ¬ (a.eq b = true ∧ a.isInf = true ∧ (pred = .oeq ∨ pred = .une)) := by
  have hordered : a.eq b = true → a.unordered b = false := by
    intro h
    simp only [Double.eq, Bool.and_eq_true, Bool.not_eq_true'] at h
    simp [Double.unordered, h]
  unfold Keeps
  cases heq : a.eq b with
  | false =>
      simp only [Bool.false_eq_true, false_implies, true_and, false_and, not_false_eq_true,
        iff_true]
      intro hun
      rw [apply_of_isNaN (hc.unordered hun) hpred, apply_of_unordered hun hpred]
  | true =>
      rw [hordered heq]
      simp only [Bool.false_eq_true, false_implies, and_true, true_implies, true_and]
      cases hinf : a.isInf with
      | false =>
          obtain ⟨hnan, hkey⟩ := hc.equal heq hinf
          rw [apply_of_zero hnan hkey hpred]
          simp
      | true =>
          rw [apply_of_isNaN (hc.infinite heq hinf) hpred]
          cases pred with
          | oeq | ueq | one | une => decide
          | _ => cases hpred

/-! ## Running the code -/

/-- What is folded is what would have been computed. -/
structure Folder.OnDoubles (folder : Folder) : Prop where
  fsub : ∀ a b v, folder.fsub (.double a) (.double b) = some v →
    ∃ c, Difference a b c ∧ v = .double c
  toBits : ∀ d v, folder.bitcast (.double d) (.int 64) = some v → v = .constInt 64 d.bits
  ofBits : ∀ x v, folder.bitcast (.constInt 64 x) .double = some v → v = .double ⟨x⟩

section Code

variable {μ : Type} {W : World μ} {args : List Val} {n e : Nat} {m : Machine μ} {b₀ : IRBuilder}
variable {env : Env} {lhs rhs v : Value}

theorem hasTy_double (d : Double) : (Val.double d).hasTy .double = true := rfl

theorem runs_createFSub (h : Runs W args id n m b₀ env) (hW : W.OnDoubles)
    (hfolder : folder.OnDoubles) (htyped : folder.Typed)
    (hx : Knows W args id e b₀ env lhs (.double a)) (hy : Knows W args id e b₀ env rhs (.double b))
    (he : (createFSub folder .double lhs rhs b₀).2.next ≤ e) :
    ∃ c, Difference a b c ∧
      Grows W args id n e m b₀ env (createFSub folder .double lhs rhs b₀) (.double c) := by
  unfold ConvertFCmpEq.createFSub at he ⊢
  cases hfold : folder.fsub lhs rhs with
  | some v =>
      obtain ⟨ty, hl, hr, hv⟩ := htyped.fsub _ _ _ hfold
      obtain rfl := eq_double hl hx.eval
      obtain rfl := eq_double hr hy.eval
      obtain ⟨c, hc, rfl⟩ := hfolder.fsub _ _ _ hfold
      exact ⟨c, hc, h.folded (fixes_id n) hv rfl⟩
  | none =>
      rw [hfold] at he
      obtain ⟨c, hc, happly⟩ := hW.fsub a b m.mem
      exact ⟨c, hc, h.inserted (fixes_id n) (evalAll_pair hx hy) happly (hasTy_double c) nofun he⟩

theorem evalAll_single {x : Val} (hx : Knows W args id e b₀ env v x) :
    evalAll (Ir.eval W args env) ([v].map id) = some [x] := by
  have hx' := hx.eval
  simp only [id_eq] at hx'
  simp only [List.map_cons, List.map_nil, evalAll, id_eq, hx']

theorem runs_toBits (h : Runs W args id n m b₀ env) (hW : W.OnDoubles)
    (hfolder : folder.OnDoubles) (htyped : folder.Typed)
    (hx : Knows W args id e b₀ env v (.double c))
    (he : (createBitCast folder .double v (.int 64) b₀).2.next ≤ e) :
    Grows W args id n e m b₀ env (createBitCast folder .double v (.int 64) b₀)
      (.int 64 c.bits) := by
  unfold createBitCast at he ⊢
  rw [if_neg (by decide)] at he ⊢
  cases hfold : folder.bitcast v (.int 64) with
  | some w =>
      obtain ⟨ty, hv, -, hw⟩ := htyped.bitcast _ _ _ hfold
      obtain rfl := eq_double hv hx.eval
      obtain rfl := hfolder.toBits _ _ hfold
      exact h.folded (fixes_id n) hw rfl
  | none =>
      rw [hfold] at he
      exact h.inserted (fixes_id n) (evalAll_single hx) (hW.toBits c m.mem) rfl nofun he

theorem runs_ofBits {x : BitVec 64} (h : Runs W args id n m b₀ env) (hW : W.OnDoubles)
    (hfolder : folder.OnDoubles) (htyped : folder.Typed)
    (hx : Knows W args id e b₀ env v (.int 64 x))
    (he : (createBitCast folder (.int 64) v .double b₀).2.next ≤ e) :
    Grows W args id n e m b₀ env (createBitCast folder (.int 64) v .double b₀)
      (.double ⟨x⟩) := by
  unfold createBitCast at he ⊢
  rw [if_neg (by decide)] at he ⊢
  cases hfold : folder.bitcast v .double with
  | some w =>
      obtain ⟨ty, hv, -, hw⟩ := htyped.bitcast _ _ _ hfold
      obtain rfl : v = .constInt 64 x := by
        have heval := hx.eval
        cases v with
        | constInt w y =>
            cases heval
            rfl
        | inst id => cases hv
        | arg i => cases hv
        | block k => cases hv
        | _ => cases heval
      obtain rfl := hfolder.ofBits _ _ hfold
      exact h.folded (fixes_id n) hw rfl
  | none =>
      rw [hfold] at he
      exact h.inserted (fixes_id n) (evalAll_single hx) (hW.ofBits x m.mem) (hasTy_double _)
        nofun he

theorem createBitCast_le {ty dest : Ty} (b : IRBuilder) :
    b.next ≤ (createBitCast folder ty v dest b).2.next := by
  unfold createBitCast
  split
  · exact Nat.le_refl _
  · cases folder.bitcast v dest with
    | some w => exact Nat.le_refl _
    | none => exact Nat.le_succ _

/-- The code for a comparison of doubles leaves how far they are apart. -/
theorem absDifference_runs (hW : W.OnDoubles) (hfolder : folder.OnDoubles) (htyped : folder.Typed)
    (hlhs : lhs.Before n) (hrhs : rhs.Before n) (hx : Ir.eval W args m.env lhs = some (.double a))
    (hy : Ir.eval W args m.env rhs = some (.double b)) :
    let code := absDifference folder .double lhs rhs ⟨[], n⟩
    ∃ c env, Difference a b c ∧ Runs W args id n m code.2 env ∧
      Ir.eval W args env code.1 = some (.double c.abs) := by
  intro code
  obtain ⟨p₁, hp₁⟩ : ∃ p, createFSub folder .double lhs rhs ⟨[], n⟩ = p := ⟨_, rfl⟩
  obtain ⟨p₂, hp₂⟩ : ∃ p, createBitCast folder .double p₁.1 (.int 64) p₁.2 = p := ⟨_, rfl⟩
  obtain ⟨p₃, hp₃⟩ : ∃ p, createAnd (.int 64) p₂.1 signMask p₂.2 = p := ⟨_, rfl⟩
  have hcode : createBitCast folder (.int 64) p₃.1 .double p₃.2 = code := by
    rw [← hp₃, ← hp₂, ← hp₁]
    rfl
  -- the handles are taken one after the other, up to the last
  have he₄ : (createBitCast folder (.int 64) p₃.1 .double p₃.2).2.next ≤ code.2.next :=
    Nat.le_of_eq (by rw [hcode])
  have he₃ : p₃.2.next ≤ code.2.next := Nat.le_trans (createBitCast_le _) he₄
  have he₂ : p₂.2.next ≤ code.2.next := by
    have hle : p₂.2.next ≤ (createAnd (.int 64) p₂.1 signMask p₂.2).2.next := createBinOp_le _
    rw [hp₃] at hle
    exact Nat.le_trans hle he₃
  have he₁ : p₁.2.next ≤ code.2.next := by
    have hle := @createBitCast_le folder p₁.1 .double (.int 64) p₁.2
    rw [hp₂] at hle
    exact Nat.le_trans hle he₂
  have hstart : Runs W args id n m ⟨[], n⟩ m.env := runs_nil m
  have hknown : ∀ {v x}, v.Before n → Ir.eval W args m.env v = some x →
      Knows W args id code.2.next ⟨[], n⟩ m.env v x := fun hv hx =>
    ⟨hx, fun id hid => .inl (hv id hid)⟩
  obtain ⟨c, hc, env₁, h₁, hv₁, -⟩ := runs_createFSub hstart hW hfolder htyped
    (hknown hlhs hx) (hknown hrhs hy) (by rwa [hp₁])
  rw [hp₁] at h₁ hv₁
  obtain ⟨env₂, h₂, hv₂, -⟩ := runs_toBits h₁ hW hfolder htyped hv₁ (by rwa [hp₂])
  rw [hp₂] at h₂ hv₂
  obtain ⟨env₃, h₃, hv₃, -⟩ : Grows W args id n code.2.next m p₂.2 env₂
      (createAnd (.int 64) p₂.1 signMask p₂.2) (.int 64 c.abs.bits) :=
    h₂.createBinOp (fixes_id n) hv₂ (knows_const (fixes_id n) rfl rfl) rfl (by
      show (createAnd (.int 64) p₂.1 signMask p₂.2).2.next ≤ _
      rwa [hp₃])
  rw [hp₃] at h₃ hv₃
  obtain ⟨env₄, h₄, hv₄, -⟩ := runs_ofBits h₃ hW hfolder htyped hv₃ he₄
  rw [hcode] at h₄ hv₄
  exact ⟨c, env₄, hc, h₄, hv₄.eval⟩

end Code

/-! ## The conversion -/

/-- The code stands where the instruction was, and nothing else has changed. -/
def InPlace (F G : Function) (k : Nat) (instr : Instr Op) (code : List (Instr Op)) : Prop :=
  ∃ pre post, (F.block k).instrs = pre ++ instr :: post ∧
    G.block k = { F.block k with instrs := pre ++ code ++ post } ∧
      ∀ j, j ≠ k → G.block j = F.block j

/-- From a machine, the comparison comes to one result, and the code to the other
under the same handle; it changes nothing else below the handle `n`. -/
structure Compares {μ : Type} (W : World μ) (args : List Val) (n : Nat) (m : Machine μ)
    (fcmp : Instr Op) (code : List (Instr Op)) (result converted : Bool) : Prop where
  original : execInstr W args m fcmp [] =
    .running { m with rest := [], env := m.env.set fcmp.id (.bool result) }
  replaced : ∃ env, execAll W args code m = .running { m with rest := [], env } ∧
    env fcmp.id = some (.bool converted) ∧ ∀ id, id < n → id ≠ fcmp.id → env id = m.env id

section Conversion

variable {μ : Type} {W : World μ} {args : List Val} {m : Machine μ} {fcmp : Instr Op}
variable {lhs rhs : Value} {k : Nat}

/-- A comparison of doubles. -/
theorem execInstr_fcmp (hW : W.OnDoubles) (hop : fcmp.op = .fcmp pred) (hty : fcmp.ty = .int 1)
    (hoperands : fcmp.operands = [lhs, rhs]) (hx : Ir.eval W args m.env lhs = some (.double a))
    (hy : Ir.eval W args m.env rhs = some (.double b)) :
    execInstr W args m fcmp [] =
      .running { m with rest := [], env := m.env.set fcmp.id (.bool (pred.apply a b)) } := by
  have heffect : effect W args m.env m.mem fcmp =
      .done (some (.bool (pred.apply a b))) m.mem [] := by
    unfold effect
    have hdebug : fcmp.isDbgInfoIntrinsic = false := by
      simp [Instr.isDbgInfoIntrinsic, hop]
    rw [hdebug, hoperands, hop, hty]
    simp only [Bool.false_eq_true, if_false, evalAll, hx, hy]
    exact hW.fcmp pred a b m.mem
  unfold execInstr
  rw [heffect, hty]
  simp only [Env.assign, Val.bool, Val.hasTy, beq_self_eq_true, if_true, List.append_nil]

/-- Conversion keeps equal numbers equal, and what is said of what is no number,
except on infinities. -/
theorem convertFCmpEq_keeps_iff (hfolder : folder.OnDoubles) (htyped : folder.Typed)
    (hF : F.WellFormed) (hI : ∀ d ∈ F.defs, d.1 < F.nextInst) (hty : F.WellTyped)
    (hk : k ∈ F.order) (hmem : fcmp ∈ (F.block k).instrs) (hop : fcmp.op = .fcmp pred)
    (hequality : isEquality pred = true) (hoperands : fcmp.operands = [lhs, rhs])
    (hdouble : F.typeOf lhs = .double) :
    ∃ G code, convertFCmpEq folder F fcmp.id = (true, G) ∧ InPlace F G k fcmp code ∧
      ∀ {μ : Type} (W : World μ), W.OnDoubles → ∀ (args : List Val) (m : Machine μ) (a b : Double),
        Ir.eval W args m.env lhs = some (.double a) → Ir.eval W args m.env rhs = some (.double b) →
        ∃ converted, Compares W args F.nextInst m fcmp code (pred.apply a b) converted ∧
          (Keeps pred a b converted ↔
            ¬ (a.eq b = true ∧ a.isInf = true ∧ (pred = .oeq ∨ pred = .une))) := by
  have hfinds : FindFCmpEq.finds fcmp = true := finds_iff.mpr ⟨pred, hop, hequality⟩
  obtain ⟨pre₀, post₀, hsplit⟩ := List.append_of_mem hmem
  obtain ⟨⟨k', i, fcmp'⟩, hloc⟩ := locate_isSome ⟨hk, hsplit, hfinds, rfl⟩
  obtain ⟨pre, post, hat, rfl⟩ := locate_some hloc
  obtain ⟨rfl, rfl⟩ := hF.instr_unique hat.mem hk (by simp [hat.instrs]) hmem hat.comparison.2
  obtain ⟨pred', hpred', -⟩ := convertPredicate_of_isEquality hequality
  have hbefore : ∀ v ∈ fcmp'.operands, v.Before F.nextInst := fun v hv =>
    hF.operand_before hI hk (mem_operands hmem hv)
  have hlhs : lhs.Before F.nextInst := hbefore lhs (by simp [hoperands])
  have hrhs : rhs.Before F.nextInst := hbefore rhs (by simp [hoperands])
  have hbool : fcmp'.ty = .int 1 := by
    have hcheck := hty k' hk fcmp' hmem
    simp only [Instr.checks, hop, hoperands, hdouble, Bool.and_eq_true, beq_iff_eq] at hcheck
    exact hcheck.2
  have hcode :
      difference folder F lhs rhs = absDifference folder .double lhs rhs ⟨[], F.nextInst⟩ := by
    unfold difference
    rw [hdouble]
  refine ⟨_, (difference folder F lhs rhs).2.inserted ++
    [tolerance fcmp' pred' (difference folder F lhs rhs).1],
    convertFCmpEq_eq hat hloc hop hoperands hpred', ⟨pre, post, hat.instrs, ?_, ?_⟩, ?_⟩
  · rw [block_converted]
    simp
  · exact fun j hj => block_converted_other hj
  · intro μ W hW args m a b hx hy
    obtain ⟨c, env, hc, hruns, hvalue⟩ :=
      absDifference_runs hW hfolder htyped hlhs hrhs hx hy
    rw [← hcode] at hruns hvalue
    refine ⟨pred'.apply c.abs epsilon, ⟨execInstr_fcmp hW hop hbool hoperands hx hy,
      env.set fcmp'.id (.bool (pred'.apply c.abs epsilon)), ?_, Env.set_self ..,
      fun id hid hne => ?_⟩, keeps_iff hc hpred'⟩
    · have hrun := hruns.run
      rw [List.map_id'' (mapOperands_id (f := id) fun _ => rfl)] at hrun
      have heps : Ir.eval W args env epsilonValue = some (.double epsilon) := rfl
      have hlast : execInstr W args { m with rest := [], env }
          (tolerance fcmp' pred' (difference folder F lhs rhs).1) [] = _ :=
        execInstr_fcmp hW rfl hbool rfl hvalue heps
      rw [execAll_append hrun]
      simp only [execAll, hlast]
      rfl
    · rw [Env.set_other _ _ hne]
      exact hruns.frame id (.inl hid)

end Conversion

/-! ### Equal infinities -/

/-- A difference, of which only the cases above are as they are. -/
def apart (a b : Double) : Double :=
  if a.unordered b then ⟨0x7FF8000000000000⟩
  else if a.eq b then if a.isInf then ⟨0x7FF8000000000000⟩ else .zero
  else .one

theorem difference_apart (a b : Double) : Difference a b (apart a b) where
  equal := by
    intro heq hinf
    have hordered : a.unordered b = false := by
      simp only [Double.eq, Bool.and_eq_true, Bool.not_eq_true'] at heq
      simp [Double.unordered, heq]
    simp only [apart, hordered, heq, hinf, if_true, Bool.false_eq_true, if_false]
    decide
  infinite := by
    intro heq hinf
    unfold apart
    rw [if_pos heq, if_pos hinf]
    split <;> decide
  unordered := by
    intro hun
    rw [apart, if_pos hun]
    decide

/-- A world with nothing in it but doubles. -/
def doubleWorld : World Unit where
  address := fun _ => 0
  blockAddress := fun _ => 0
  alloca := fun _ _ => (0, ())
  load := fun _ _ _ => none
  store := fun _ _ _ => none
  call := fun _ _ _ => .undefined
  other := fun op ty vals _ => match op, ty, vals with
    | .fbinop .fsub, .double, [.other .double x, .other .double y] =>
        .done (some (.double (apart ⟨x⟩ ⟨y⟩))) () []
    | .cast .bitcast, .int 64, [.other .double x] => .done (some (.int 64 x)) () []
    | .cast .bitcast, .double, [.int 64 x] => .done (some (.double ⟨x⟩)) () []
    | .fcmp pred, .int 1, [.other .double x, .other .double y] =>
        .done (some (.bool (pred.apply ⟨x⟩ ⟨y⟩))) () []
    | _, _, _ => .undefined

theorem onDoubles_doubleWorld : doubleWorld.OnDoubles where
  fsub := fun a b _ => ⟨apart a b, difference_apart a b, by
    simp [doubleWorld, Val.double]⟩
  toBits := fun d _ => by simp [doubleWorld, Val.double]
  ofBits := fun _ _ => rfl
  fcmp := fun pred a b _ => by simp [doubleWorld, Val.double]

theorem onDoubles_noFolder : noFolder.OnDoubles := ⟨nofun, nofun, nofun⟩

theorem convertFCmpEq_keeps_iff_comparing :
    ∃ G code, convertFCmpEq noFolder (comparing .double) 0 = (true, G) ∧
      InPlace (comparing .double) G 0 ⟨0, .int 1, .fcmp .oeq, [.arg 0, .arg 1], [], {}⟩ code ∧
      ∀ {μ : Type} (W : World μ), W.OnDoubles → ∀ (args : List Val) (m : Machine μ) (a b : Double),
        Ir.eval W args m.env (.arg 0) = some (.double a) →
        Ir.eval W args m.env (.arg 1) = some (.double b) →
        ∃ converted, Compares W args 2 m ⟨0, .int 1, .fcmp .oeq, [.arg 0, .arg 1], [], {}⟩ code
            (FCmpPred.apply .oeq a b) converted ∧
          (Keeps .oeq a b converted ↔
            ¬ (a.eq b = true ∧ a.isInf = true ∧ (FCmpPred.oeq = .oeq ∨ FCmpPred.oeq = .une))) :=
  convertFCmpEq_keeps_iff onDoubles_noFolder typed_noFolder (wellFormed_comparing .double)
    (insts_comparing .double) (by decide) (List.mem_singleton_self 0) (List.mem_singleton_self _)
    rfl rfl rfl rfl

def infinity : Double := ⟨0x7FF0000000000000⟩

/-- A function that compares its arguments says of equal infinities that they are
not equal. -/
theorem infinities_unequal :
    ¬ ∀ (W : World Unit) (a b : Double), W.OnDoubles → a.eq b = true →
      let G := (run noFolder (FindFCmpEq.run (comparing .double)) (comparing .double)).2
      Transition.Halts (step W G [.double a, .double b]) (start G ())
        (.returned (some (.bool true)) () []) := by
  intro h
  have hequal := h doubleWorld infinity infinity onDoubles_doubleWorld (by decide)
  have hunequal : Transition.Halts
      (step doubleWorld (run noFolder (FindFCmpEq.run (comparing .double)) (comparing .double)).2
        [.double infinity, .double infinity])
      (start (run noFolder (FindFCmpEq.run (comparing .double)) (comparing .double)).2 ())
      (.returned (some (.bool false)) () []) := ⟨⟨6, rfl⟩, rfl⟩
  cases hequal.unique hunequal

end LlvmPasses.ConvertFCmpEq
