import LlvmPasses.Lib.Words
import LlvmPasses.Proofs.MBASim

/-!
# What the obfuscated function does

Differences and sums are still computed, modulo the width, by operations that
wrap: so the function does what it did, wherever its operators do not overflow
against their flags, and what it would do without these flags everywhere else.

`sub_preserved` and `add_preserved` are about every well-formed and well-typed
function and every world. Each says three things: which operators were replaced
and which were not; that what is left does what the function does when these
operators wrap; and, where no operator of the run overflows against its flags,
that it does what the function itself does. Flags are dropped by a
transformation of the function (`wrapping`), so that the simulation of `MBASim`
applies once to the function and once to its wrapped version.

A rule comes in with two facts: that it builds the code for a certain tree
(`rule_builds`), and that the tree evaluates to the operator's result at every
width it selects (`rule_computes`). The second is the arithmetic, and it is
proved on words in `Lib.Words`.
-/

namespace LlvmPasses

open Ir Transition

namespace MBA

variable {μ : Type} {W : World μ} {args : List Val} {rule : Rule} {op : BinOp}
variable {tree : Nat → Value → Value → Expr} {F G : Function} {σ : Value → Value}
variable {code : Nat → List (Instr Op)} {i : Instr Op} {m : Machine μ} {mem : μ} {k : Nat}

/-! ## Runs of the two functions -/

/-- The operators never come to poison that their flags make. -/
def Unflagged (W : World μ) (args : List Val) (rule : Rule) (F : Function) (mem : μ) : Prop :=
  ∀ m, Reaches (step W F args) (start F mem) (.running m) → ∀ i rest, m.rest = i :: rest →
    rule.selects i = true →
      effect W args m.env m.mem i = effect W args m.env m.mem { i with flags := {} }

/-- The one function does what the other does, and wherever that comes to, the
other comes to with the same values under the names that stand for them. -/
structure Carries (W : World μ) (args : List Val) (rule : Rule) (F G : Function)
    (σ : Value → Value) (code : Nat → List (Instr Op)) (mem : μ) : Prop where
  alike : Defined W F args mem → Alike W F G args mem
  values : ∀ m, Reaches (step W F args) (start F mem) (.running m) →
    ∃ m', Reaches (step W G args) (start G mem) (.running m') ∧ Level W args rule F σ code m m'

theorem start_level (hG : Replaced rule F G σ code) (hrule : rule.Builds op tree)
    (hF : F.WellFormed) (hI : ∀ d ∈ F.defs, d.1 < F.nextInst) (hops : Binary rule F) :
    Along (Level W args rule F σ code) (start F mem) (start G mem) := by
  have hentry : G.entry = F.entry := by
    rw [hG.same]
    rfl
  have hσ : Fixes F.nextInst σ := hG.toReplacing.fixes fun id hid => picked_lt hI hid
  have hbody := (hG.phis hrule hF hops hF.entry_mem).2
  unfold start
  rw [hentry]
  exact .on ⟨inside_start hF, rfl, hbody, rfl, rfl, carried_of_inst hσ nofun⟩

theorem carries (hG : Replaced rule F G σ code) (hrule : rule.Computes op tree)
    (hF : F.WellFormed) (hI : ∀ d ∈ F.defs, d.1 < F.nextInst) (hops : Binary rule F)
    (hswitch : Switches F) (hflags : Unflagged W args rule F mem) :
    Carries W args rule F G σ code mem := by
  have hsim := staggers W args hG hrule hF hI hops hswitch
  have hstart : Along (Level W args rule F σ code) (start F mem) (start G mem) :=
    start_level hG hrule.toBuilds hF hI hops
  constructor
  · intro hdefined
    refine alike_of_staggers hsim (hsim.settled _ _ hstart) ?_ fun _ _ h => h.trace
    rintro _ hu m rfl
    exact ⟨fun trace hno => hdefined trace (hu.trans (.single hno)), hflags m hu⟩
  · intro m hm
    have hbefore : ∀ s t, Reaches (step W F args) (start F mem) s → step W F args s = some t →
        (∀ trace, t ≠ .undefined trace) →
          (∀ trace, s ≠ .undefined trace) ∧ ∀ m, s = .running m → Goes W args rule F m := by
      intro s t hs hstep hdefined
      refine ⟨fun trace hno => ?_, fun m hm => ⟨fun trace hno => ?_, hflags m (hm ▸ hs)⟩⟩
      · rw [hno] at hstep
        cases hstep
      · rw [← hm, hstep, Option.some.injEq] at hno
        exact hdefined trace hno
    obtain ⟨t, ht, hlevel⟩ := hsim.reaches_good hstart hbefore hm nofun
    cases hlevel with
    | on h => exact ⟨_, ht, h⟩
    | off hs => exact absurd rfl (hs m)

/-! ## Operators that wrap -/

/-- The flags of the operators are dropped, so that none comes to poison. -/
def wrap (rule : Rule) (i : Instr Op) : Instr Op :=
  if rule.selects i then { i with flags := {} } else i

def wrapping (rule : Rule) (F : Function) : Function :=
  { F with block := fun k => { F.block k with instrs := (F.block k).instrs.map (wrap rule) } }

theorem wrap_of_not (h : ¬ rule.selects i = true) : wrap rule i = i := if_neg h

theorem wrap_of (h : rule.selects i = true) : wrap rule i = { i with flags := {} } := if_pos h

/-- Nothing but the flags is different. -/
theorem wrap_same (rule : Rule) (i : Instr Op) : (wrap rule i).id = i.id ∧ (wrap rule i).ty = i.ty ∧
    (wrap rule i).op = i.op ∧ (wrap rule i).operands = i.operands ∧
      (wrap rule i).incoming = i.incoming := by
  unfold wrap
  split <;> exact ⟨rfl, rfl, rfl, rfl, rfl⟩

theorem selects_wrap (hrule : rule.Builds op tree) (i : Instr Op) :
    rule.selects (wrap rule i) = rule.selects i :=
  hrule.congr _ _ (wrap_same rule i).2.2.1 (wrap_same rule i).2.1

theorem isPhi_wrap (i : Instr Op) : (wrap rule i).isPhi = i.isPhi := by
  unfold Instr.isPhi
  rw [(wrap_same rule i).2.2.1]

theorem defs_wrapping : (wrapping rule F).defs = F.defs := by
  have hblock : ∀ k, ((wrapping rule F).block k).defs = (F.block k).defs := by
    intro k
    show ((F.block k).instrs.map (wrap rule)).map _ ++ _ = _
    rw [List.map_map]
    refine congrArg (· ++ _) (List.map_congr_left fun i _ => ?_)
    rw [Function.comp_apply, (wrap_same rule i).1, (wrap_same rule i).2.1]
  unfold Function.defs Function.blocks
  rw [List.flatMap_map, List.flatMap_map]
  exact List.flatMap_congr fun k _ => hblock k

theorem operands_wrapping : ((wrapping rule F).block k).operands = (F.block k).operands := by
  show ((F.block k).instrs.map (wrap rule)).flatMap _ ++ _ = _
  rw [List.flatMap_map]
  exact congrArg (· ++ _) (List.flatMap_congr fun i _ => (wrap_same rule i).2.2.2.1)

theorem wellFormed_wrapping (hF : F.WellFormed) : (wrapping rule F).WellFormed where
  nonempty := hF.nonempty
  nodup := hF.nodup
  ids_nodup := by
    rw [defs_wrapping]
    exact hF.ids_nodup
  operands := by
    intro k hk v hv
    rw [operands_wrapping] at hv
    have hnames := hF.operands k hk v hv
    cases v with
    | inst id =>
        unfold Function.Names
        rw [defs_wrapping]
        exact hnames
    | _ => exact hnames
  successors := hF.successors
  terminators := hF.terminators
  debug := by
    intro k hk j hj hdebug
    obtain ⟨i, hi, rfl⟩ := List.mem_map.mp hj
    obtain ⟨-, hty, hop, hoperands, -⟩ := wrap_same rule i
    rw [hty, hoperands]
    refine hF.debug k hk i hi ?_
    unfold Instr.isDbgInfoIntrinsic at hdebug ⊢
    rwa [← hop]
  phis := by
    intro k hk j hj
    have hbody : ((wrapping rule F).block k).body = (F.block k).body.map (wrap rule) := by
      show ((F.block k).instrs.map (wrap rule)).dropWhile _ = _
      rw [List.dropWhile_map, show Instr.isPhi ∘ wrap rule = Instr.isPhi from funext isPhi_wrap]
      rfl
    rw [hbody] at hj
    obtain ⟨i, hi, rfl⟩ := List.mem_map.mp hj
    rw [isPhi_wrap]
    exact hF.phis k hk i hi
  incoming := by
    intro k hk j hj
    have hphis : ((wrapping rule F).block k).phis = (F.block k).phis.map (wrap rule) := by
      show ((F.block k).instrs.map (wrap rule)).takeWhile _ = _
      rw [List.takeWhile_map, show Instr.isPhi ∘ wrap rule = Instr.isPhi from funext isPhi_wrap]
      rfl
    rw [hphis] at hj
    obtain ⟨i, hi, rfl⟩ := List.mem_map.mp hj
    obtain ⟨-, -, -, hoperands, hincoming⟩ := wrap_same rule i
    rw [hoperands, hincoming]
    exact hF.incoming k hk i hi

/-- The code stands for the operators whatever their flags. -/
theorem Replaced.wrapping (hG : Replaced rule F G σ code) (hrule : rule.Builds op tree)
    (hF : F.WellFormed) (hops : Binary rule F) : Replaced rule (MBA.wrapping rule F) G σ code := by
  have hpicked : picked rule (MBA.wrapping rule F) = picked rule F := by
    refine List.flatMap_congr fun k _ => ?_
    show (((F.block k).instrs.map (wrap rule)).filter _).map _ = _
    rw [List.filter_map, List.map_map,
      show rule.selects ∘ wrap rule = rule.selects from funext (selects_wrap hrule)]
    exact List.map_congr_left fun i _ => (wrap_same rule i).1
  refine ⟨⟨?_, ?_, ?_, ?_, ?_⟩, hG.same, ?_, hG.term, ?_⟩
  · rw [hpicked]
    exact hG.kept
  · rw [hpicked]
    exact hG.value
  · rw [hpicked]
    exact hG.fresh
  · rw [hpicked]
    exact hG.apart
  · rw [hpicked]
    intro k hk j hj hid
    obtain ⟨i, hi, rfl⟩ := List.mem_map.mp hj
    obtain ⟨hsame, hty, -, hoperands, -⟩ := wrap_same rule i
    rw [hsame] at hid ⊢
    obtain ⟨n, ρ, τ, hn, hτ, hcomp, hbefore, hv, hcode⟩ := hG.built k hk i hi hid
    have hsel : rule.selects i = true := (picked_iff hF hk hi).mp hid
    obtain ⟨-, w, htyw⟩ := hrule.selects i hsel
    obtain ⟨a, b, hops'⟩ := hops k hk i hi hsel
    have hbuild : rule.build ((wrap rule i).mapOperands ρ) = rule.build (i.mapOperands ρ) := by
      rw [build_mapOperands hrule htyw hops' ρ,
        build_mapOperands hrule (hty.trans htyw) (hoperands.trans hops') ρ]
    refine ⟨n, ρ, τ, hn, hτ, hcomp, ?_, ?_, ?_⟩
    · rwa [hoperands]
    · rwa [hbuild]
    · rwa [hbuild]
  · intro k hk
    show _ = ((F.block k).instrs.map (wrap rule)).flatMap _
    rw [hG.instrs k hk, List.flatMap_map]
    refine List.flatMap_congr fun i _ => ?_
    unfold piece
    rw [selects_wrap hrule, (wrap_same rule i).1]
    split
    · rfl
    · next hsel => rw [wrap_of_not hsel]
  · rw [hpicked]
    exact hG.unused

theorem unflagged_wrapping (hrule : rule.Builds op tree) (hF : F.WellFormed) :
    Unflagged W args rule (wrapping rule F) mem := by
  intro m hm j rest hrest hsel
  have hmem := (inside_of_reaches (wellFormed_wrapping hF) hm).instr_mem hrest
  obtain ⟨i, -, rfl⟩ := List.mem_map.mp hmem
  rw [selects_wrap hrule] at hsel
  rw [wrap_of hsel]

theorem binary_wrapping (hrule : rule.Builds op tree) (hops : Binary rule F) :
    Binary rule (wrapping rule F) := by
  intro k hk j hj hsel
  obtain ⟨i, hi, rfl⟩ := List.mem_map.mp hj
  rw [selects_wrap hrule] at hsel
  rw [(wrap_same rule i).2.2.2.1]
  exact hops k hk i hi hsel

theorem carries_wrapping (hG : Replaced rule F G σ code) (hrule : rule.Computes op tree)
    (hF : F.WellFormed) (hI : ∀ d ∈ F.defs, d.1 < F.nextInst) (hops : Binary rule F)
    (hswitch : Switches F) : Carries W args rule (wrapping rule F) G σ code mem :=
  carries (hG.wrapping hrule.toBuilds hF hops) hrule (wellFormed_wrapping hF)
    (by rw [defs_wrapping]; exact hI) (binary_wrapping hrule.toBuilds hops) hswitch
    (unflagged_wrapping hrule.toBuilds hF)

theorem binary_of_wellTyped (hrule : rule.Builds op tree) (hty : F.WellTyped) : Binary rule F := by
  intro k hk i hi hsel
  have hcheck := hty k hk i hi
  have hop := (hrule.selects i hsel).1
  unfold Instr.checks at hcheck
  match hoperands : i.operands with
  | [a, b] => exact ⟨a, b, rfl⟩
  | [] | [_] | _ :: _ :: _ :: _ => simp [hop, hoperands] at hcheck

/-- An instruction of what is left is in the code of an operator, or stands for an
instruction that is none. -/
theorem Replaced.instr_cases (hG : Replaced rule F G σ code) (hrule : rule.Builds op tree)
    (hF : F.WellFormed) (hops : Binary rule F) (hk : k ∈ F.order) {c : Instr Op}
    (hc : c ∈ (G.block k).instrs) :
    (F.nextInst ≤ c.id ∧ ∃ w a b, ∃ op' ∈ (tree w a b).ops, c.op = .binop op') ∨
      ∃ i, rule.selects i = false ∧ c = i.mapOperands σ := by
  rw [hG.instrs k hk] at hc
  obtain ⟨i, hi, hc⟩ := List.mem_flatMap.mp hc
  unfold piece at hc
  split at hc
  · next hsel =>
      obtain ⟨a, b, hoperands⟩ := hops k hk i hi hsel
      have hid := (picked_iff hF hk hi).mpr hsel
      obtain ⟨-, hop, -⟩ := (hG.built k hk i hi hid).instr hrule hsel hoperands hc
      exact .inl ⟨(hG.fresh i.id hid c.id (List.mem_map_of_mem hc)).1, hop⟩
  · next hsel =>
      exact .inr ⟨i, Bool.eq_false_iff.mpr hsel, List.mem_singleton.mp hc⟩

end MBA

/-! ## Differences -/

namespace MBASub

open MBA

/-- `a + ~b + 1`. -/
def tree (w : Nat) (a b : Value) : Expr :=
  .binop .add (.binop .add (.value a)
    (.binop .xor (.value b) (.value (.constInt w (BitVec.allOnes w)))))
    (.value (.constInt w (BitVec.ofNat w 1)))

theorem isSub_iff {i : Instr Op} :
    isSub i = true ↔ i.op = .binop .sub ∧ i.ty.isIntegerTy = true := by
  simp only [isSub, Bool.and_eq_true, beq_iff_eq]

theorem rule_builds : rule.Builds .sub tree where
  selects := by
    intro i hsel
    obtain ⟨hop, hty⟩ := isSub_iff.mp hsel
    refine ⟨hop, ?_⟩
    cases hcase : i.ty with
    | int w => exact ⟨w, rfl⟩
    | _ =>
        rw [hcase] at hty
        cases hty
  congr := by
    intro i j hop hty
    show isSub i = isSub j
    unfold isSub
    rw [hop, hty]
  build := by
    intro i w a b hty hops
    show obfuscate i = _
    unfold obfuscate
    rw [hty]
    simp only [getOperand, hops]
    rfl
  root := fun _ _ _ => ⟨_, _, _, rfl⟩
  leaves := by
    intro w a b v hv
    simp only [tree, Expr.leaves, List.mem_append, List.mem_singleton] at hv
    rcases hv with (rfl | rfl | rfl) | rfl
    · exact .inl rfl
    · exact .inr (.inl rfl)
    · exact .inr (.inr ⟨_, rfl⟩)
    · exact .inr (.inr ⟨_, rfl⟩)

theorem eval_tree {w : Nat} {a b : Value} {get : Value → Option Val} {p q : Option (BitVec w)}
    (hconst : ∀ w' (c : BitVec w'), get (.constInt w' c) = some (.int w' c))
    (ha : get a = some (.word p)) (hb : get b = some (.word q)) :
    (tree w a b).eval w get = some (.word (Option.map₂ (· - ·) p q)) := by
  have hword : ∀ c : BitVec w, get (.constInt w c) = some (.word (some c)) := hconst w
  have hadd := @BinOp.apply_word w .add (· + ·) (fun _ _ => rfl) rfl
  have hxor := @BinOp.apply_word w .xor (· ^^^ ·) (fun _ _ => rfl) rfl
  simp only [tree, Expr.eval, ha, hb, hword, hadd, hxor]
  cases p with
  | none => rfl
  | some x =>
      cases q with
      | none => rfl
      | some y =>
          simp only [Option.map₂_some_some, Words.add_not_add_one]

theorem rule_computes : rule.Computes .sub tree where
  toBuilds := rule_builds
  sound := by
    intro i w a b get x y z hsel hty hconst ha hb hz
    obtain ⟨p, q, rfl, rfl⟩ := BinOp.apply_words hz
    rw [eval_tree hconst ha hb, ← hz]
    exact (BinOp.apply_word (fun _ _ => rfl) rfl p q).symm

/-- The pass replaces every subtraction of integers, by code that computes the
same difference modulo the width: the function does what it does when its
subtractions wrap, and so what it did where none overflows against its flags. -/
theorem sub_preserved {F : Function} (hF : F.WellFormed) (hI : ∀ d ∈ F.defs, d.1 < F.nextInst)
    (hty : F.WellTyped) (hswitch : Switches F) :
    ∃ σ code, Replaced rule F (run F).2 σ code ∧
      (∀ k ∈ F.order, ∀ i ∈ ((run F).2.block k).instrs, isSub i = false) ∧
      ∀ {μ : Type} (W : World μ) (args : List Val) (mem : μ),
        Carries W args rule (wrapping rule F) (run F).2 σ code mem ∧
          (Unflagged W args rule F mem → Carries W args rule F (run F).2 σ code mem) := by
  have hops : Binary rule F := binary_of_wellTyped rule_builds hty
  obtain ⟨σ, code, hG⟩ := substitute_replaced rule_builds hF hI hops
  refine ⟨σ, code, hG, fun k hk i hi => ?_, fun W args mem =>
    ⟨carries_wrapping hG rule_computes hF hI hops hswitch,
      carries hG rule_computes hF hI hops hswitch⟩⟩
  rcases hG.instr_cases rule_builds hF hops hk hi with ⟨-, w, a, b, op, hop, heq⟩ | ⟨j, hsel, rfl⟩
  · refine Bool.eq_false_iff.mpr fun hsub => ?_
    rw [(isSub_iff.mp hsub).1, Op.binop.injEq] at heq
    subst heq
    simp [tree, Expr.ops] at hop
  · exact hsel

/-! ### A loop -/

/-- `0: br label %1`, `1: %1 = phi i8 [%a, %0], [%3, %1]; %2 = sub nsw i8 %1, %b;
%3 = sub i8 %2, %1; %4 = icmp eq i8 %3, 0; br i1 %4, label %2, label %1`, and
`2: ret i8 %3`. -/
def looping : Function where
  params := [.int 8, .int 8]
  retTy := .int 8
  order := [0, 1, 2]
  block := fun k => match k with
    | 0 => ⟨[], ⟨0, .void, .br, [.block 1], [], {}⟩⟩
    | 1 => ⟨[⟨1, .int 8, .phi, [.arg 0, .inst 3], [0, 1], {}⟩,
        ⟨2, .int 8, .binop .sub, [.inst 1, .arg 1], [], { nsw := true }⟩,
        ⟨3, .int 8, .binop .sub, [.inst 2, .inst 1], [], {}⟩,
        ⟨4, .int 1, .icmp .eq, [.inst 3, .constInt 8 0], [], {}⟩],
        ⟨5, .void, .br, [.inst 4, .block 1, .block 2], [], {}⟩⟩
    | _ => ⟨[], ⟨6, .void, .ret, [.inst 3], [], {}⟩⟩
  nextBlock := 3
  nextInst := 7

theorem wellFormed_looping : looping.WellFormed where
  nonempty := by decide
  nodup := by decide
  ids_nodup := by decide
  operands := by decide
  successors := by decide
  terminators := by decide
  debug := by decide
  phis := by decide
  incoming := by decide

theorem sub_preserved_looping : ∃ σ code, Replaced rule looping (run looping).2 σ code ∧
    (∀ k ∈ looping.order, ∀ i ∈ ((run looping).2.block k).instrs, isSub i = false) ∧
    ∀ {μ : Type} (W : World μ) (args : List Val) (mem : μ),
      Carries W args rule (wrapping rule looping) (run looping).2 σ code mem ∧
        (Unflagged W args rule looping mem →
          Carries W args rule looping (run looping).2 σ code mem) :=
  sub_preserved wellFormed_looping (by decide) (by decide) (by unfold Switches; decide)

end MBASub

/-! ## Sums -/

namespace MBAAdd

open MBA

/-- `((a ^ b) + 2 * (a & b)) * 39 + 23) * 151 + 111`. -/
def tree (_w : Nat) (a b : Value) : Expr :=
  .binop .add (.binop .mul (.binop .add (.binop .mul
    (.binop .add (.binop .xor (.value a) (.value b))
      (.binop .mul (.value (constant 2)) (.binop .and (.value a) (.value b))))
    (.value (constant 39))) (.value (constant 23))) (.value (constant 151))) (.value (constant 111))

theorem isAdd_iff {i : Instr Op} : isAdd i = true ↔ i.op = .binop .add ∧ i.ty = .int 8 := by
  simp only [isAdd, Bool.and_eq_true, beq_iff_eq]

theorem rule_builds : rule.Builds .add tree where
  selects := by
    intro i hsel
    obtain ⟨hop, hty⟩ := isAdd_iff.mp hsel
    exact ⟨hop, 8, hty⟩
  congr := by
    intro i j hop hty
    show isAdd i = isAdd j
    unfold isAdd
    rw [hop, hty]
  build := by
    intro i w a b hty hops
    show obfuscate i = _
    unfold obfuscate
    rw [hty]
    simp only [getOperand, hops]
    rfl
  root := fun _ _ _ => ⟨_, _, _, rfl⟩
  leaves := by
    intro w a b v hv
    have hmem : v = a ∨ v = b ∨ v ∈ [2, 39, 23, 151, 111].map constant := by
      simp only [tree, Expr.leaves, List.mem_append, List.mem_singleton] at hv
      simp only [List.map_cons, List.map_nil, List.mem_cons, List.not_mem_nil, or_false]
      tauto
    rcases hmem with rfl | rfl | hconst
    · exact .inl rfl
    · exact .inr (.inl rfl)
    · obtain ⟨n, -, rfl⟩ := List.mem_map.mp hconst
      exact .inr (.inr ⟨_, rfl⟩)

/-- The affine maps undo each other modulo 256. -/
theorem eval_tree {a b : Value} {get : Value → Option Val} {p q : Option (BitVec 8)}
    (hconst : ∀ w' (c : BitVec w'), get (.constInt w' c) = some (.int w' c))
    (ha : get a = some (.word p)) (hb : get b = some (.word q)) :
    (tree 8 a b).eval 8 get = some (.word (Option.map₂ (· + ·) p q)) := by
  have hword : ∀ n, get (constant n) = some (.word (some (BitVec.ofNat 8 n))) := fun n => hconst 8 _
  have hadd := @BinOp.apply_word 8 .add (· + ·) (fun _ _ => rfl) rfl
  have hmul := @BinOp.apply_word 8 .mul (· * ·) (fun _ _ => rfl) rfl
  have hand := @BinOp.apply_word 8 .and (· &&& ·) (fun _ _ => rfl) rfl
  have hxor := @BinOp.apply_word 8 .xor (· ^^^ ·) (fun _ _ => rfl) rfl
  simp only [tree, Expr.eval, ha, hb, hword, hadd, hmul, hand, hxor]
  cases p with
  | none => rfl
  | some x =>
      cases q with
      | none => rfl
      | some y =>
          have hundo : ((x + y) * 39#8 + 23#8) * 151#8 + 111#8 = x + y :=
            Words.affine_affine (x + y) (by decide) (by decide)
          simp only [Option.map₂_some_some, Words.xor_add_two_mul_and, hundo]

theorem rule_computes : rule.Computes .add tree where
  toBuilds := rule_builds
  sound := by
    intro i w a b get x y z hsel hty hconst ha hb hz
    obtain rfl : w = 8 := by
      rw [(isAdd_iff.mp hsel).2, Ty.int.injEq] at hty
      exact hty.symm
    obtain ⟨p, q, rfl, rfl⟩ := BinOp.apply_words hz
    rw [eval_tree hconst ha hb, ← hz]
    exact (BinOp.apply_word (fun _ _ => rfl) rfl p q).symm

/-- The pass replaces every addition of bytes that was there, and none that it has
inserted, by code that computes the same sum: the function does what it does when
these additions wrap, and so what it did where none overflows against its flags. -/
theorem add_preserved {F : Function} (hF : F.WellFormed) (hI : ∀ d ∈ F.defs, d.1 < F.nextInst)
    (hty : F.WellTyped) (hswitch : Switches F) :
    (∀ k n s, visit rule k ((s.1.block k).instrs.length + n) 0 s =
      visit rule k (s.1.block k).instrs.length 0 s) ∧
    ∃ σ code, Replaced rule F (run F).2 σ code ∧
      (∀ k ∈ F.order, ∀ i ∈ ((run F).2.block k).instrs, isAdd i = true → F.nextInst ≤ i.id) ∧
      ∀ {μ : Type} (W : World μ) (args : List Val) (mem : μ),
        Carries W args rule (wrapping rule F) (run F).2 σ code mem ∧
          (Unflagged W args rule F mem → Carries W args rule F (run F).2 σ code mem) := by
  have hops : Binary rule F := binary_of_wellTyped rule_builds hty
  refine ⟨fun k n s => visit_ends rule k _ n 0 s (Nat.le_of_eq (Nat.zero_add _).symm), ?_⟩
  obtain ⟨σ, code, hG⟩ := substitute_replaced rule_builds hF hI hops
  refine ⟨σ, code, hG, fun k hk i hi hadd => ?_, fun W args mem =>
    ⟨carries_wrapping hG rule_computes hF hI hops hswitch,
      carries hG rule_computes hF hI hops hswitch⟩⟩
  rcases hG.instr_cases rule_builds hF hops hk hi with ⟨hle, -⟩ | ⟨j, hsel, rfl⟩
  · exact hle
  · have hsel' : isAdd j = true := hadd
    rw [show isAdd j = false from hsel] at hsel'
    cases hsel'

/-! ### Sums of sums -/

/-- `define i8 @foo(i8 %0, i8 %1, i8 %2, i8 %3)`: `%5 = add i8 %1, %0`,
`%6 = add i8 %5, %2`, `%7 = add i8 %6, %3` and `ret i8 %7`. -/
def foo : Function where
  params := [.int 8, .int 8, .int 8, .int 8]
  retTy := .int 8
  order := [0]
  block := fun _ => ⟨[⟨5, .int 8, .binop .add, [.arg 1, .arg 0], [], {}⟩,
    ⟨6, .int 8, .binop .add, [.inst 5, .arg 2], [], {}⟩,
    ⟨7, .int 8, .binop .add, [.inst 6, .arg 3], [], {}⟩],
    ⟨8, .void, .ret, [.inst 7], [], {}⟩⟩
  nextBlock := 1
  nextInst := 9

theorem wellFormed_foo : foo.WellFormed where
  nonempty := by decide
  nodup := by decide
  ids_nodup := by decide
  operands := by decide
  successors := by decide
  terminators := by decide
  debug := by decide
  phis := by decide
  incoming := by decide

theorem add_preserved_foo :
    (∀ k n s, visit rule k ((s.1.block k).instrs.length + n) 0 s =
      visit rule k (s.1.block k).instrs.length 0 s) ∧
    ∃ σ code, Replaced rule foo (run foo).2 σ code ∧
      (∀ k ∈ foo.order, ∀ i ∈ ((run foo).2.block k).instrs, isAdd i = true → foo.nextInst ≤ i.id) ∧
      ∀ {μ : Type} (W : World μ) (args : List Val) (mem : μ),
        Carries W args rule (wrapping rule foo) (run foo).2 σ code mem ∧
          (Unflagged W args rule foo mem → Carries W args rule foo (run foo).2 σ code mem) :=
  add_preserved wellFormed_foo (by decide) (by decide) (by unfold Switches; decide)

end MBAAdd

end LlvmPasses
