import LlvmPasses.Ir.Carried
import LlvmPasses.Proofs.FCmpForm

/-!
# Which converted comparisons are well typed

The analysis finds comparisons of numbers of every floating-point type, and the
conversion looks at none: it reinterprets the difference as 64 bits, and what it
leaves compares doubles. So what it makes is well typed exactly for doubles:
other numbers have another size, and vectors of 64 bits are compared
element by element.

`run_wellTyped_iff` is about the whole run of the pass. `Stage` is its
invariant: the comparisons under some handles have been converted, the others
are where they were, and nothing that was there has changed its type.
`conversion_sound_iff` is one conversion, well typed exactly if it compares
doubles, and `eq_double_iff` the arithmetic of sizes behind it. Instructions
that the function had are well typed by hypothesis, so the question is only
about those that were inserted or changed.

One conversion inserts code in front of the comparison and gives the comparison
other operands and another predicate. Of the code only the bitcast of the
difference can be ill typed (`absDifference_sound`), and of the comparison only
its result, which is a vector where vectors were compared. Converting one
comparison takes nothing away from another: what was there before keeps its
type (`typeOf_converted`), so the next comparison is found as it was
(`Stage.converts`).

Constants may be folded while the code is built. What the folder makes is a
parameter, with the types of what it makes as its only property
(`Folder.Typed`).
-/

namespace LlvmPasses.ConvertFCmpEq

open Ir IRBuilder

/-- Constants are folded to constants of the type that is asked for, and
reinterpreted where that is possible. -/
structure Folder.Typed (folder : Folder) : Prop where
  fsub : ∀ lhs rhs v, folder.fsub lhs rhs = some v →
    ∃ ty, lhs.constTy = some ty ∧ rhs.constTy = some ty ∧ v.constTy = some ty
  bitcast : ∀ v dest w, folder.bitcast v dest = some w →
    ∃ ty, v.constTy = some ty ∧ ty.castIsValid dest = true ∧ w.constTy = some dest

variable {folder : Folder} {F G : Function} {T : Value → Ty} {ty dest : Ty} {lhs rhs v : Value}
variable {b : IRBuilder} {n : Nat}

/-! ## The code for one comparison -/

theorem createFSub_made (hfolder : folder.Typed) (hl : ∀ ty', lhs.constTy = some ty' → ty' = ty)
    (b : IRBuilder) :
    Made ty (.fbinop .fsub) [lhs, rhs] b (createFSub folder ty lhs rhs b) := by
  unfold createFSub
  cases hfold : folder.fsub lhs rhs with
  | some v =>
      obtain ⟨ty', hlhs, -, hv⟩ := hfolder.fsub _ _ _ hfold
      exact .folded v (hl _ hlhs ▸ hv)
  | none => exact .inserted

theorem createBitCast_made (hfolder : folder.Typed) (hne : ty ≠ dest)
    (hv : ∀ ty', v.constTy = some ty' → ty' = ty) (b : IRBuilder) :
    Made dest (.cast .bitcast) [v] b (createBitCast folder ty v dest b) ∧
      ((createBitCast folder ty v dest b).2 = b → ty.castIsValid dest = true) := by
  unfold createBitCast
  rw [if_neg hne]
  cases hfold : folder.bitcast v dest with
  | some w =>
      obtain ⟨ty', hty', hvalid, hw⟩ := hfolder.bitcast _ _ _ hfold
      exact ⟨.folded w hw, fun _ => hv _ hty' ▸ hvalid⟩
  | none => exact ⟨.inserted, fun heq => absurd (congrArg next heq) (Nat.succ_ne_self _)⟩

/-- The four steps of the code for a comparison. -/
theorem absDifference_made (rhs : Value) (hfolder : folder.Typed) (hty : ty ≠ .int 64)
    (hl : ∀ ty', lhs.constTy = some ty' → ty' = ty) (b : IRBuilder) :
    ∃ v₁ b₁ v₂ b₂ v₃ b₃ v₄ b₄, absDifference folder ty lhs rhs b = (v₄, b₄) ∧
      Made ty (.fbinop .fsub) [lhs, rhs] b (v₁, b₁) ∧
      Made (.int 64) (.cast .bitcast) [v₁] b₁ (v₂, b₂) ∧
      (b₂ = b₁ → ty.castIsValid (.int 64) = true) ∧
      Made (.int 64) (.binop .and) [v₂, signMask] b₂ (v₃, b₃) ∧
      Made .double (.cast .bitcast) [v₃] b₃ (v₄, b₄) := by
  have h₁ : Made ty (.fbinop .fsub) [lhs, rhs] b (createFSub folder ty lhs rhs b) :=
    createFSub_made hfolder hl b
  obtain ⟨h₂, hvalid⟩ := createBitCast_made (v := (createFSub folder ty lhs rhs b).1) hfolder hty
    (fun _ => h₁.constTy) (createFSub folder ty lhs rhs b).2
  let cast := createBitCast folder ty (createFSub folder ty lhs rhs b).1 (.int 64)
    (createFSub folder ty lhs rhs b).2
  have h₃ : Made (.int 64) (.binop .and) [cast.1, signMask] cast.2
      (createAnd (.int 64) cast.1 signMask cast.2) :=
    createBinOp_made (fun _ hv => Made.constTy h₂ hv) cast.2
  have hne : Ty.int 64 ≠ .double := by decide
  obtain ⟨h₄, -⟩ := createBitCast_made hfolder hne (fun _ => h₃.constTy) _
  exact ⟨_, _, _, _, _, _, _, _, rfl, h₁, h₂, hvalid, h₃, h₄⟩

/-- What is inserted, and the value it leaves. -/
theorem absDifference_code (hfolder : folder.Typed) (hty : ty ≠ .int 64)
    (hl : ∀ ty', lhs.constTy = some ty' → ty' = ty) (hlhs : lhs.Before n) (hrhs : rhs.Before n) :
    let code := absDifference folder ty lhs rhs ⟨[], n⟩
    Code n code.2 ∧ code.1.Before code.2.next := by
  obtain ⟨v₁, b₁, v₂, b₂, v₃, b₃, v₄, b₄, heq, h₁, h₂, -, h₃, h₄⟩ :=
    absDifference_made rhs hfolder hty hl ⟨[], n⟩
  rw [heq]
  have hmask : signMask.Before b₂.next := before_const rfl
  obtain ⟨hc₁, hv₁, -⟩ := h₁.code (code_nil n)
    (List.forall_mem_cons.mpr ⟨hlhs, List.forall_mem_singleton.mpr hrhs⟩)
  obtain ⟨hc₂, hv₂, -⟩ := h₂.code hc₁ (List.forall_mem_singleton.mpr hv₁)
  obtain ⟨hc₃, hv₃, -⟩ := h₃.code hc₂
    (List.forall_mem_cons.mpr ⟨hv₂, List.forall_mem_singleton.mpr hmask⟩)
  obtain ⟨hc₄, hv₄, -⟩ := h₄.code hc₃ (List.forall_mem_singleton.mpr hv₃)
  exact ⟨hc₄, hv₄⟩

/-- None of it is a comparison. -/
theorem Made.quiet {op : Op} {operands : List Value} {b' : IRBuilder}
    (h : Made ty op operands b (v, b')) (hop : ∀ pred, op ≠ .fcmp pred)
    (hb : ∀ i ∈ b.inserted, FindFCmpEq.finds i = false) :
    ∀ i ∈ b'.inserted, FindFCmpEq.finds i = false := by
  cases h with
  | folded => exact hb
  | inserted =>
      intro i hi
      rcases List.mem_append.mp hi with hi | hi
      · exact hb i hi
      · obtain rfl := List.mem_singleton.mp hi
        cases op with
        | fcmp pred => exact absurd rfl (hop pred)
        | _ => rfl

theorem absDifference_quiet (hfolder : folder.Typed) (hty : ty ≠ .int 64)
    (hl : ∀ ty', lhs.constTy = some ty' → ty' = ty) :
    ∀ i ∈ (absDifference folder ty lhs rhs ⟨[], n⟩).2.inserted, FindFCmpEq.finds i = false := by
  obtain ⟨v₁, b₁, v₂, b₂, v₃, b₃, v₄, b₄, heq, h₁, h₂, -, h₃, h₄⟩ :=
    absDifference_made rhs hfolder hty hl ⟨[], n⟩
  rw [heq]
  have hnil : ∀ i ∈ ([] : List (Instr Op)), FindFCmpEq.finds i = false := List.forall_mem_nil _
  exact Made.quiet h₄ nofun (Made.quiet h₃ nofun (Made.quiet h₂ nofun (Made.quiet h₁ nofun hnil)))

/-- It leaves a double, and all that can be wrong with it is that the difference
is reinterpreted. -/
theorem absDifference_sound (hfolder : folder.Typed) (hty : ty.scalar.isFloatingPointTy = true)
    (hconst : ∀ v ty, v.constTy = some ty → T v = ty) (hlhs : T lhs = ty) (hrhs : T rhs = ty)
    (hT : Named T (absDifference folder ty lhs rhs ⟨[], n⟩).2) :
    let code := absDifference folder ty lhs rhs ⟨[], n⟩
    T code.1 = .double ∧ (Sound T code.2 ↔ ty.castIsValid (.int 64) = true) := by
  have hne : ty ≠ .int 64 := by
    rintro rfl
    cases hty
  have hl : ∀ ty', lhs.constTy = some ty' → ty' = ty := fun ty' hty' =>
    (hconst _ _ hty').symm.trans hlhs
  obtain ⟨v₁, b₁, v₂, b₂, v₃, b₃, v₄, b₄, heq, h₁, h₂, hvalid, h₃, h₄⟩ :=
    absDifference_made rhs hfolder hne hl ⟨[], n⟩
  rw [heq] at hT ⊢
  have hT₃ := h₄.named hT
  have hT₂ := h₃.named hT₃
  have hT₁ := h₂.named hT₂
  have hmask : T signMask = .int 64 := hconst _ _ rfl
  have hv₁ : T v₁ = ty := h₁.typeOf hconst hT₁
  have hv₂ : T v₂ = .int 64 := h₂.typeOf hconst hT₂
  have hv₃ : T v₃ = .int 64 := h₃.typeOf hconst hT₃
  refine ⟨h₄.typeOf hconst hT, ?_⟩
  have hs₁ : Sound T b₁ ↔ Sound T ⟨[], n⟩ ∧ True := h₁.sound_iff (fun _ => trivial) fun id => by
    simp [Instr.checks, hlhs, hrhs, hty]
  have hs₂ : Sound T b₂ ↔ Sound T b₁ ∧ ty.castIsValid (.int 64) = true :=
    h₂.sound_iff hvalid fun id => by simp [Instr.checks, hv₁]
  have hs₃ : Sound T b₃ ↔ Sound T b₂ ∧ True := h₃.sound_iff (fun _ => trivial) fun id => by
    simp [Instr.checks, hv₂, hmask, Ty.scalar, Ty.isIntegerTy]
  have hs₄ : Sound T b₄ ↔ Sound T b₃ ∧ True := h₄.sound_iff (fun _ => trivial) fun id => by
    simp [Instr.checks, hv₃, Ty.castIsValid, Ty.sizeInBits]
  have hnil : Sound T ⟨[], n⟩ := List.forall_mem_nil _
  rw [hs₄, hs₃, hs₂, hs₁, and_true, and_true, and_true]
  exact and_iff_right hnil

/-- Of the types that numbers are of, alone or in vectors, only one is as wide as
an integer of 64 bits and is compared to one truth value. -/
theorem eq_double_iff (hty : ty.scalar.isFloatingPointTy = true) :
    (ty.castIsValid (.int 64) = true ∧ ty.makeCmpResultType = .int 1) ↔ ty = .double := by
  cases ty with
  | vec n elem => simp [Ty.makeCmpResultType]
  | half | float | double | fp128 => decide
  | _ => cases hty

/-! ## The function after one conversion -/

/-- Handles are defined once, and have been given out. -/
structure Numbered (F : Function) : Prop where
  order : F.order.Nodup
  ids : (F.defs.map Prod.fst).Nodup
  insts : ∀ d ∈ F.defs, d.1 < F.nextInst

theorem flatMap_perm {α : Type} {order : List Nat} {k : Nat} {f g : Nat → List α} {l : List α}
    (hnodup : order.Nodup) (hk : k ∈ order) (hother : ∀ j, j ≠ k → f j = g j)
    (hself : (f k).Perm (g k ++ l)) : (order.flatMap f).Perm (order.flatMap g ++ l) := by
  induction order with
  | nil => cases hk
  | cons j order ih =>
      obtain ⟨hj, hnodup⟩ := List.nodup_cons.mp hnodup
      rw [List.flatMap_cons, List.flatMap_cons]
      rcases List.mem_cons.mp hk with rfl | hk
      · have hrest : order.flatMap f = order.flatMap g :=
          List.flatMap_congr fun i hi => hother i fun heq => hj (heq ▸ hi)
        rw [hrest]
        refine (hself.append_right _).trans ?_
        rw [List.append_assoc, List.append_assoc]
        exact List.perm_append_comm.append_left _
      · have hne : j ≠ k := fun heq => hj (heq ▸ hk)
        rw [hother j hne, List.append_assoc]
        exact (ih hnodup hk).append_left _

section Step

variable {id k : Nat} {pre post : List (Instr Op)} {fcmp : Instr Op} {pred : FCmpPred}
variable {code : Value × IRBuilder} {i : Instr Op}

theorem block_converted : (converted F k pre code fcmp pred post).block k =
    { F.block k with instrs := pre ++ code.2.inserted ++ tolerance fcmp pred code.1 :: post } :=
  if_pos rfl

theorem block_converted_other {j : Nat} (hj : j ≠ k) :
    (converted F k pre code fcmp pred post).block j = F.block j := if_neg hj

theorem defs_converted (hF : Numbered F) (h : At F id k pre fcmp post) :
    (converted F k pre code fcmp pred post).defs.Perm
      (F.defs ++ code.2.inserted.map fun i => (i.id, i.ty)) := by
  unfold Function.defs Function.blocks
  rw [List.flatMap_map, List.flatMap_map]
  refine flatMap_perm hF.order h.mem (fun j hj => ?_) ?_
  · show ((converted F k pre code fcmp pred post).block j).defs = _
    rw [block_converted_other hj]
  · show ((converted F k pre code fcmp pred post).block k).defs.Perm _
    rw [block_converted]
    unfold Block.defs
    rw [h.instrs]
    simp only [List.map_append, List.map_cons, List.append_assoc, List.cons_append]
    refine List.Perm.append_left _ ?_
    refine List.perm_append_comm.trans ?_
    simp only [List.append_assoc, List.cons_append, List.nil_append]
    exact .refl _

theorem mem_defs_converted (hF : Numbered F) (h : At F id k pre fcmp post) {d : Nat × Ty} :
    d ∈ (converted F k pre code fcmp pred post).defs ↔
      d ∈ F.defs ∨ ∃ i ∈ code.2.inserted, (i.id, i.ty) = d := by
  rw [(defs_converted hF h).mem_iff, List.mem_append, List.mem_map]

theorem Numbered.converted (hF : Numbered F) (h : At F id k pre fcmp post)
    (hcode : Code F.nextInst code.2) :
    Numbered (ConvertFCmpEq.converted F k pre code fcmp pred post) where
  order := hF.order
  ids := by
    rw [((defs_converted hF h).map _).nodup_iff, List.map_append, List.map_map]
    refine List.nodup_append.mpr ⟨hF.ids, hcode.nodup, ?_⟩
    rintro id hid id' hid' rfl
    obtain ⟨d, hd, rfl⟩ := List.mem_map.mp hid
    obtain ⟨i, hi, heq⟩ := List.mem_map.mp hid'
    have hlt := hF.insts d hd
    have hle := (hcode.le_id hi).1
    have heq : i.id = d.1 := heq
    omega
  insts := by
    intro d hd
    show d.1 < code.2.next
    rcases (mem_defs_converted hF h).mp hd with hd | ⟨i, hi, rfl⟩
    · exact Nat.lt_of_lt_of_le (hF.insts d hd) (hcode.next ▸ Nat.le_add_right ..)
    · exact (hcode.le_id hi).2

theorem Numbered.typeOf (hF : Numbered F) {d : Nat × Ty} (hd : d ∈ F.defs) :
    F.typeOf (.inst d.1) = d.2 :=
  Function.typeOf_inst hd fun _ hd' heq =>
    congrArg Prod.snd (List.inj_on_of_nodup_map hF.ids hd' hd heq)

theorem typeOf_undefined {id : Nat} (h : ∀ d ∈ F.defs, d.1 ≠ id) : F.typeOf (.inst id) = .void := by
  have hnone : F.defs.find? (fun d => d.1 == id) = none :=
    List.find?_eq_none.mpr fun d hd => by simp [h d hd]
  have hfind : F.typeOf (.inst id) =
      ((F.defs.find? fun d => d.1 == id).map Prod.snd).getD .void := rfl
  rw [hfind, hnone]
  rfl

/-- A conversion changes no types of what there was before. -/
theorem typeOf_converted (hF : Numbered F) (h : At F id k pre fcmp post)
    (hcode : Code F.nextInst code.2) (hv : v.Before F.nextInst) :
    (converted F k pre code fcmp pred post).typeOf v = F.typeOf v := by
  cases v with
  | inst id' =>
      have hlt := hv id' rfl
      by_cases hdef : ∃ d ∈ F.defs, d.1 = id'
      · obtain ⟨d, hd, rfl⟩ := hdef
        rw [hF.typeOf hd, (hF.converted h hcode).typeOf ((mem_defs_converted hF h).mpr (.inl hd))]
      · have hnone : ∀ d ∈ F.defs, d.1 ≠ id' := fun d hd heq => hdef ⟨d, hd, heq⟩
        rw [typeOf_undefined hnone]
        refine typeOf_undefined fun d hd heq => ?_
        rcases (mem_defs_converted hF h).mp hd with hd | ⟨i, hi, rfl⟩
        · exact hnone d hd heq
        · have hle := (hcode.le_id hi).1
          have heq : i.id = id' := heq
          omega
  | _ => rfl

theorem named_converted (hF : Numbered F) (h : At F id k pre fcmp post)
    (hcode : Code F.nextInst code.2) :
    Named (converted F k pre code fcmp pred post).typeOf code.2 := fun i hi =>
  (hF.converted h hcode).typeOf (d := (i.id, i.ty))
    ((mem_defs_converted hF h).mpr (.inr ⟨i, hi, rfl⟩))

theorem difference_code (hfolder : folder.Typed)
    (hty : (F.typeOf lhs).scalar.isFloatingPointTy = true) (hlhs : lhs.Before F.nextInst)
    (hrhs : rhs.Before F.nextInst) :
    Code F.nextInst (difference folder F lhs rhs).2 ∧
      (difference folder F lhs rhs).1.Before (difference folder F lhs rhs).2.next := by
  refine absDifference_code hfolder (fun heq => ?_) (fun ty' hty' => ?_) hlhs hrhs
  · rw [heq] at hty
    cases hty
  · exact (F.typeOf_const hty').symm

/-- What a conversion makes is well typed exactly if it compares doubles. -/
theorem conversion_sound_iff (pred : FCmpPred) (hfolder : folder.Typed) (hF : Numbered F)
    (h : At F id k pre fcmp post) (hop : ∃ pred, fcmp.op = .fcmp pred)
    (hoperands : fcmp.operands = [lhs, rhs]) (hcheck : fcmp.checks F.typeOf = true)
    (hlhs : lhs.Before F.nextInst) (hrhs : rhs.Before F.nextInst) :
    let code := difference folder F lhs rhs
    let T := (converted F k pre code fcmp pred post).typeOf
    (Sound T code.2 ∧ (tolerance fcmp pred code.1).checks T = true) ↔
      ∀ v ∈ fcmp.operands, F.typeOf v = .double := by
  intro code T
  obtain ⟨pred₀, hop⟩ := hop
  simp only [Instr.checks, hop, hoperands, Bool.and_eq_true, beq_iff_eq] at hcheck
  obtain ⟨⟨hsame, hty⟩, hresult⟩ := hcheck
  obtain ⟨hcode, -⟩ := difference_code hfolder hty hlhs hrhs
  have hT : ∀ {v : Value}, v.Before F.nextInst → T v = F.typeOf v := typeOf_converted hF h hcode
  obtain ⟨hv, hsound⟩ := absDifference_sound (T := T) hfolder hty
    (fun _ _ => Function.typeOf_const _)
    (hT hlhs) ((hT hrhs).trans hsame) (named_converted hF h hcode)
  have htolerance : (tolerance fcmp pred code.1).checks T = true ↔ fcmp.ty = .int 1 := by
    have heps : T epsilonValue = .double := rfl
    have hv : T code.1 = .double := hv
    simp [Instr.checks, tolerance, hv, heps, Ty.scalar, Ty.isFloatingPointTy, Ty.makeCmpResultType]
  have hdoubles : (∀ v ∈ fcmp.operands, F.typeOf v = .double) ↔ F.typeOf lhs = .double := by
    simp [hoperands, hsame]
  rw [hdoubles, ← eq_double_iff hty, ← hresult, htolerance]
  exact and_congr_left fun _ => hsound

theorem checks_congr {T T' : Value → Ty} (h : ∀ v ∈ i.operands, T v = T' v) :
    i.checks T = i.checks T' := by
  unfold Instr.checks
  split
  case h_1 hop hops => rw [h _ (by simp [hops]), h _ (by simp [hops])]
  case h_3 hop hops => rw [h _ (by simp [hops]), h _ (by simp [hops])]
  case h_5 hop hops => rw [h _ (by simp [hops]), h _ (by simp [hops])]
  case h_7 hop hops => rw [h _ (by simp [hops])]
  all_goals rfl

end Step

/-! ## All conversions -/

section Run

variable {id k : Nat} {done : List Nat} {i : Instr Op}

/-- The comparisons under some handles have been converted. -/
structure Stage (F G : Function) (done : List Nat) : Prop where
  numbered : Numbered G
  order : G.order = F.order
  next : F.nextInst ≤ G.nextInst
  typeOf : ∀ v, v.Before F.nextInst → G.typeOf v = F.typeOf v
  left : ∀ k ∈ F.order, ∀ i ∈ (G.block k).instrs, FindFCmpEq.finds i = true →
    i ∈ (F.block k).instrs
  kept : ∀ k ∈ F.order, ∀ i ∈ (F.block k).instrs, FindFCmpEq.finds i = true → i.id ∉ done →
    i ∈ (G.block k).instrs
  before : ∀ k ∈ F.order, ∀ i ∈ (G.block k).instrs, i ∉ (F.block k).instrs →
    ∀ v ∈ i.operands, v.Before G.nextInst
  sound : (∀ k ∈ F.order, ∀ i ∈ (G.block k).instrs, i ∉ (F.block k).instrs →
      i.checks G.typeOf = true) ↔
    ∀ k ∈ F.order, ∀ i ∈ (F.block k).instrs, FindFCmpEq.finds i = true → i.id ∈ done →
      ∀ v ∈ i.operands, F.typeOf v = .double

theorem stage_start (hF : F.WellFormed) (hI : ∀ d ∈ F.defs, d.1 < F.nextInst) : Stage F F [] where
  numbered := ⟨hF.nodup, hF.ids_nodup, hI⟩
  order := rfl
  next := Nat.le_refl _
  typeOf := fun _ _ => rfl
  left := fun _ _ _ hi _ => hi
  kept := fun _ _ _ hi _ _ => hi
  before := fun _ _ _ hi hnot => absurd hi hnot
  sound := ⟨fun _ _ _ _ _ _ hid => (nomatch hid), fun _ _ _ _ hi hnot => absurd hi hnot⟩

/-- A comparison that has its turn is where it was, and is converted. -/
theorem Stage.converts (hs : Stage F G done) (hF : F.WellFormed) (hty : F.WellTyped)
    (folder : Folder) (hk : k ∈ F.order) (hi : i ∈ (F.block k).instrs)
    (hfinds : FindFCmpEq.finds i = true) (hnew : i.id ∉ done) :
    ∃ pre post lhs rhs pred, At G i.id k pre i post ∧ i.operands = [lhs, rhs] ∧
      isEquality pred = false ∧ (convertFCmpEq folder G i.id).2 =
        converted G k pre (difference folder G lhs rhs) i pred post := by
  obtain ⟨pre₀, post₀, hsplit⟩ := List.append_of_mem (hs.kept k hk i hi hfinds hnew)
  have hat₀ : At G i.id k pre₀ i post₀ := ⟨hs.order ▸ hk, hsplit, hfinds, rfl⟩
  obtain ⟨⟨k', n, fcmp⟩, hloc⟩ := locate_isSome hat₀
  obtain ⟨pre, post, hat, rfl⟩ := locate_some hloc
  have hmem : fcmp ∈ (G.block k').instrs := by simp [hat.instrs]
  have hk' : k' ∈ F.order := hs.order ▸ hat.mem
  obtain ⟨rfl, rfl⟩ := hF.instr_unique hk' hk (hs.left k' hk' fcmp hmem hat.comparison.1) hi
    hat.comparison.2
  obtain ⟨pred, hop, hequality⟩ := finds_iff.mp hfinds
  obtain ⟨pred', hpred', hquiet⟩ := convertPredicate_of_isEquality hequality
  obtain ⟨lhs, rhs, hoperands⟩ : ∃ lhs rhs, fcmp.operands = [lhs, rhs] := by
    have hcheck := hty k' hk' fcmp hi
    unfold Instr.checks at hcheck
    match hops : fcmp.operands with
    | [lhs, rhs] => exact ⟨lhs, rhs, rfl⟩
    | [] | [_] | _ :: _ :: _ :: _ => simp [hop, hops] at hcheck
  exact ⟨pre, post, lhs, rhs, pred', hat, hoperands, hquiet,
    congrArg Prod.snd (convertFCmpEq_eq hat hloc hop hoperands hpred')⟩

/-- The instructions of a block after a conversion. -/
theorem mem_converted {pre post : List (Instr Op)} {fcmp : Instr Op} {pred : FCmpPred}
    {code : Value × IRBuilder} (h : At G id k pre fcmp post) {j : Nat} :
    i ∈ ((converted G k pre code fcmp pred post).block j).instrs →
      i ∈ (G.block j).instrs ∨ j = k ∧ (i ∈ code.2.inserted ∨ i = tolerance fcmp pred code.1) := by
  intro hi
  by_cases hj : j = k
  · subst hj
    rw [block_converted] at hi
    simp only [List.mem_append, List.mem_cons] at hi
    rcases hi with (hi | hi) | rfl | hi
    · exact .inl (by simp [h.instrs, hi])
    · exact .inr ⟨rfl, .inl hi⟩
    · exact .inr ⟨rfl, .inr rfl⟩
    · exact .inl (by simp [h.instrs, hi])
  · rw [block_converted_other hj] at hi
    exact .inl hi

/-- All of them but the comparison itself are still there. -/
theorem mem_converted_of_ne {pre post : List (Instr Op)} {fcmp : Instr Op} {pred : FCmpPred}
    {code : Value × IRBuilder} (h : At G id k pre fcmp post) {j : Nat}
    (hi : i ∈ (G.block j).instrs) (hne : i ≠ fcmp) :
    i ∈ ((converted G k pre code fcmp pred post).block j).instrs := by
  by_cases hj : j = k
  · subst hj
    rw [h.instrs] at hi
    rw [block_converted]
    simp only [List.mem_append, List.mem_cons] at hi ⊢
    rcases hi with hi | hi | hi
    · exact .inl (.inl hi)
    · exact absurd hi hne
    · exact .inr (.inr hi)
  · rwa [block_converted_other hj]

theorem mem_code {pre post : List (Instr Op)} {fcmp : Instr Op} {pred : FCmpPred}
    {code : Value × IRBuilder} {j : Instr Op}
    (hj : j ∈ code.2.inserted ∨ j = tolerance fcmp pred code.1) :
    j ∈ ((converted G k pre code fcmp pred post).block k).instrs := by
  rw [block_converted]
  simp only [List.mem_append, List.mem_cons]
  rcases hj with hj | hj
  · exact .inl (.inr hj)
  · exact .inr (.inl hj)

theorem Stage.step (hs : Stage F G done) (hfolder : folder.Typed) (hF : F.WellFormed)
    (hI : ∀ d ∈ F.defs, d.1 < F.nextInst) (hty : F.WellTyped) (hk : k ∈ F.order)
    (hi : i ∈ (F.block k).instrs) (hfinds : FindFCmpEq.finds i = true) (hnew : i.id ∉ done) :
    Stage F (convertFCmpEq folder G i.id).2 (i.id :: done) := by
  obtain ⟨pre, post, lhs, rhs, pred, hat, hoperands, hquiet, heq⟩ :=
    hs.converts hF hty folder hk hi hfinds hnew
  obtain ⟨pred₀, hop, hequality⟩ := finds_iff.mp hfinds
  have hold : ∀ v ∈ i.operands, v.Before F.nextInst := fun v hv =>
    hF.operand_before hI hk (mem_operands hi hv)
  have hnow : ∀ v ∈ i.operands, v.Before G.nextInst := fun v hv => (hold v hv).mono hs.next
  have hlhs : lhs.Before G.nextInst := hnow lhs (by simp [hoperands])
  have hrhs : rhs.Before G.nextInst := hnow rhs (by simp [hoperands])
  have hcheck : i.checks G.typeOf = true := by
    rw [checks_congr fun v hv => hs.typeOf v (hold v hv)]
    exact hty k hk i hi
  have hscalar : (G.typeOf lhs).scalar.isFloatingPointTy = true := by
    simp only [Instr.checks, hop, hoperands, Bool.and_eq_true] at hcheck
    exact hcheck.1.2
  obtain ⟨hcode, hvalue⟩ := difference_code hfolder hscalar hlhs hrhs
  have hsilent : ∀ j ∈ (difference folder G lhs rhs).2.inserted, FindFCmpEq.finds j = false := by
    refine absDifference_quiet hfolder (fun heq => ?_) fun ty' hty' => (G.typeOf_const hty').symm
    rw [heq] at hscalar
    cases hscalar
  have htolerance : FindFCmpEq.finds (tolerance i pred (difference folder G lhs rhs).1) = false :=
    hquiet
  -- what is new is not in the block it is inserted into
  have hfresh : ∀ j, j ∈ (difference folder G lhs rhs).2.inserted ∨
      j = tolerance i pred (difference folder G lhs rhs).1 → j ∉ (F.block k).instrs := by
    rintro j (hj | rfl) hmem
    · have hlt := hI _ (Function.mem_defs_of_instr hk hmem)
      have hle := (hcode.le_id hj).1
      have hnext := hs.next
      omega
    · obtain ⟨-, hsame⟩ := hF.instr_unique hk hk hmem hi rfl
      rw [hsame, hfinds] at htolerance
      cases htolerance
  have hle : G.nextInst ≤ (difference folder G lhs rhs).2.next :=
    hcode.next ▸ Nat.le_add_right ..
  rw [heq]
  refine ⟨hs.numbered.converted hat hcode, hs.order, Nat.le_trans hs.next hle, fun v hv => ?_,
    fun j hj i' hi' hfinds' => ?_, fun j hj i' hi' hfinds' hid => ?_,
    fun j hj i' hi' hnot v hv => ?_, ?_⟩
  · exact (typeOf_converted hs.numbered hat hcode (hv.mono hs.next)).trans (hs.typeOf v hv)
  · rcases mem_converted hat hi' with hi' | ⟨-, hi' | rfl⟩
    · exact hs.left j hj i' hi' hfinds'
    · rw [hsilent i' hi'] at hfinds'
      cases hfinds'
    · rw [htolerance] at hfinds'
      cases hfinds'
  · obtain ⟨hne, hid⟩ := not_or.mp (List.mem_cons.not.mp hid)
    refine mem_converted_of_ne hat (hs.kept j hj i' hi' hfinds' hid) ?_
    rintro rfl
    exact hne rfl
  · rcases mem_converted hat hi' with hi' | ⟨-, hi' | rfl⟩
    · exact (hs.before j hj i' hi' hnot v hv).mono hle
    · exact hcode.before i' hi' v hv
    · rcases List.mem_cons.mp hv with rfl | hv
      · exact hvalue
      · obtain rfl := List.mem_singleton.mp hv
        exact before_const rfl
  · have hiff := conversion_sound_iff pred hfolder hs.numbered hat ⟨pred₀, hop⟩ hoperands
      hcheck hlhs hrhs
    have hsame : ∀ v ∈ i.operands, G.typeOf v = F.typeOf v := fun v hv => hs.typeOf v (hold v hv)
    have hstays : ∀ j ∈ F.order, ∀ i' ∈ (G.block j).instrs, i' ∉ (F.block j).instrs →
        i'.checks (converted G k pre (difference folder G lhs rhs) i pred post).typeOf =
          i'.checks G.typeOf := fun j hj i' hi' hnot => checks_congr fun v hv =>
      typeOf_converted hs.numbered hat hcode (hs.before j hj i' hi' hnot v hv)
    constructor
    · intro hall j hj i' hi' hfinds' hid
      rcases List.mem_cons.mp hid with hid | hid
      · obtain ⟨-, rfl⟩ := hF.instr_unique hj hk hi' hi hid
        have hcodeSound := hiff.mp
          ⟨fun c hc => hall k hk c (mem_code (.inl hc)) (hfresh c (.inl hc)),
          hall k hk _ (mem_code (.inr rfl)) (hfresh _ (.inr rfl))⟩
        exact fun v hv => (hsame v hv).symm.trans (hcodeSound v hv)
      · refine hs.sound.mp (fun j hj i' hi' hnot => ?_) j hj i' hi' hfinds' hid
        rw [← hstays j hj i' hi' hnot]
        refine hall j hj i' (mem_converted_of_ne hat hi' ?_) hnot
        rintro rfl
        exact hnot (hs.left j hj i' hi' hfinds)
    · intro hall j hj i' hi' hnot
      have hdoubles : ∀ v ∈ i.operands, G.typeOf v = .double := fun v hv =>
        (hsame v hv).trans (hall k hk i hi hfinds (List.mem_cons_self ..) v hv)
      obtain ⟨hsound, hchecked⟩ := hiff.mpr hdoubles
      rcases mem_converted hat hi' with hi' | ⟨-, hi' | rfl⟩
      · rw [hstays j hj i' hi' hnot]
        exact hs.sound.mpr (fun j hj i' hi' hfinds' hid =>
          hall j hj i' hi' hfinds' (List.mem_cons_of_mem _ hid)) j hj i' hi' hnot
      · exact hsound i' hi'
      · exact hchecked

theorem Stage.all (hs : Stage F G done) (hfolder : folder.Typed) (hF : F.WellFormed)
    (hI : ∀ d ∈ F.defs, d.1 < F.nextInst) (hty : F.WellTyped) {ids : List Nat}
    (hids : ∀ id ∈ ids, ∃ k ∈ F.order, ∃ i ∈ (F.block k).instrs,
      FindFCmpEq.finds i = true ∧ i.id = id)
    (hnodup : ids.Nodup) (hnew : ∀ id ∈ ids, id ∉ done) :
    ∃ done', Stage F (ids.foldl (fun G id => (convertFCmpEq folder G id).2) G) done' ∧
      ∀ id, id ∈ done' ↔ id ∈ done ∨ id ∈ ids := by
  induction ids generalizing G done with
  | nil => exact ⟨done, hs, fun id => by simp⟩
  | cons id ids ih =>
      obtain ⟨⟨k, hk, i, hi, hfinds, rfl⟩, hrest⟩ := List.forall_mem_cons.mp hids
      obtain ⟨hout, hnodup'⟩ := List.nodup_cons.mp hnodup
      obtain ⟨hid, hnew'⟩ := List.forall_mem_cons.mp hnew
      obtain ⟨done', hdone', hmem⟩ := ih (hs.step hfolder hF hI hty hk hi hfinds hid) hrest hnodup'
        fun id' hid' => List.mem_cons.not.mpr
          (not_or.mpr ⟨fun heq => hout (heq ▸ hid'), hnew' id' hid'⟩)
      refine ⟨done', hdone', fun id' => ?_⟩
      rw [hmem, List.mem_cons, List.mem_cons]
      tauto

/-- The loop over what the analysis has found. -/
theorem run_eq (folder : Folder) (analysis : List Nat) (hopt : F.optnone = false) :
    (run folder analysis F).2 = analysis.foldl (fun G id => (convertFCmpEq folder G id).2) F := by
  have hloop : ∀ (ids : List Nat) (changed : Bool) (G : Function),
      (ids.foldl (fun (s : Bool × Function) id =>
        (s.1 || (convertFCmpEq folder s.2 id).1, (convertFCmpEq folder s.2 id).2)) (changed, G)).2 =
      ids.foldl (fun G id => (convertFCmpEq folder G id).2) G := by
    intro ids
    induction ids with
    | nil => exact fun _ _ => rfl
    | cons id ids ih => exact fun _ _ => ih _ _
  unfold run
  rw [if_neg (by simp [hopt])]
  exact hloop analysis false F

theorem mem_run {id : Nat} : id ∈ FindFCmpEq.run F ↔ ∃ k ∈ F.order, ∃ i ∈ (F.block k).instrs,
    FindFCmpEq.finds i = true ∧ i.id = id := by
  unfold FindFCmpEq.run Function.blocks
  simp only [List.flatMap_map, List.mem_flatMap, List.mem_map, List.mem_filter]
  constructor
  · rintro ⟨k, hk, i, ⟨hi, hfinds⟩, rfl⟩
    exact ⟨k, hk, i, hi, hfinds, rfl⟩
  · rintro ⟨k, hk, i, hi, hfinds, rfl⟩
    exact ⟨k, hk, i, ⟨hi, hfinds⟩, rfl⟩

/-- The handles found are handles defined, in their order. -/
theorem nodup_run (hF : F.WellFormed) : (FindFCmpEq.run F).Nodup := by
  refine hF.ids_nodup.sublist ?_
  unfold FindFCmpEq.run Function.defs
  rw [List.map_flatMap]
  generalize F.blocks = blocks
  induction blocks with
  | nil => exact .slnil
  | cons b blocks ih =>
      rw [List.flatMap_cons, List.flatMap_cons]
      refine List.Sublist.append ?_ ih
      unfold Block.defs
      rw [List.map_append, List.map_map]
      exact (List.filter_sublist.map Instr.id).trans (List.sublist_append_left _ _)

/-- What the pass inserts or changes is well typed exactly if all comparisons
that are found compare doubles. A vector of 64 bits, such as `<2 x float>`, may be
cast to `i64` and back to `double`; there the comparison itself is ill typed, as it
now compares two doubles and its result is still a vector of `i1`. -/
theorem run_wellTyped_iff (hfolder : folder.Typed) (hF : F.WellFormed)
    (hI : ∀ d ∈ F.defs, d.1 < F.nextInst) (hty : F.WellTyped) (hopt : F.optnone = false) :
    let G := (run folder (FindFCmpEq.run F) F).2
    (∀ k ∈ G.order, ∀ i ∈ (G.block k).instrs, i ∉ (F.block k).instrs →
        i.checks G.typeOf = true) ↔
      ∀ k ∈ F.order, ∀ i ∈ (F.block k).instrs, FindFCmpEq.finds i = true →
        ∀ v ∈ i.operands, F.typeOf v = .double := by
  obtain ⟨done, hs, hdone⟩ := (stage_start hF hI).all hfolder hF hI hty
    (fun _ hid => mem_run.mp hid) (nodup_run hF) fun _ _ => List.not_mem_nil
  intro G
  have hG : G = (FindFCmpEq.run F).foldl (fun G id => (convertFCmpEq folder G id).2) F :=
    run_eq folder _ hopt
  rw [hG, hs.order, hs.sound]
  refine forall₂_congr fun k hk => forall₂_congr fun i hi => forall_congr' fun hfinds => ?_
  exact imp_iff_right ((hdone i.id).mpr (.inr (mem_run.mpr ⟨k, hk, i, hi, hfinds, rfl⟩)))

end Run

/-! ### One comparison of arguments -/

/-- `define i1 @f(T %a, T %b)`: `%0 = fcmp oeq T %a, %b; ret i1 %0`. -/
def comparing (ty : Ty) : Function where
  params := [ty, ty]
  retTy := .int 1
  order := [0]
  block := fun _ => ⟨[⟨0, .int 1, .fcmp .oeq, [.arg 0, .arg 1], [], {}⟩],
    ⟨1, .void, .ret, [.inst 0], [], {}⟩⟩
  nextBlock := 1
  nextInst := 2

/-- Where there are no constants, nothing is folded. -/
def noFolder : Folder := ⟨fun _ _ => none, fun _ _ => none⟩

theorem typed_noFolder : noFolder.Typed := ⟨nofun, nofun⟩

theorem wellFormed_comparing (ty : Ty) : (comparing ty).WellFormed where
  nonempty := nofun
  nodup := List.nodup_singleton _
  ids_nodup := show [0, 1].Nodup by decide
  operands := by
    intro k hk v hv
    have hv : v ∈ [Value.arg 0, .arg 1, .inst 0] := hv
    have hdefs : ∃ d ∈ (comparing ty).defs, d.1 = 0 ∧ d.2 ≠ .void :=
      ⟨(0, .int 1), List.mem_cons_self .., rfl, nofun⟩
    simp only [List.mem_cons, List.not_mem_nil, or_false] at hv
    rcases hv with rfl | rfl | rfl
    · exact Nat.zero_lt_two
    · exact Nat.one_lt_two
    · exact hdefs
  successors := by
    intro k hk j hj
    cases hj
  terminators := fun _ _ _ => rfl
  debug := by
    intro k hk i hi hdebug
    obtain rfl := List.mem_singleton.mp hi
    cases hdebug
  phis := by
    intro k hk i hi
    obtain rfl := List.mem_singleton.mp hi
    rfl
  incoming := by
    intro k hk i hi
    cases hi

theorem insts_comparing (ty : Ty) : ∀ d ∈ (comparing ty).defs, d.1 < (comparing ty).nextInst := by
  intro d hd
  have hd : d ∈ [(0, Ty.int 1), (1, .void)] := hd
  simp only [List.mem_cons, List.not_mem_nil, or_false] at hd
  rcases hd with rfl | rfl
  · exact Nat.zero_lt_two
  · exact Nat.one_lt_two

theorem run_wellTyped_iff_comparing :
    let G := (run noFolder (FindFCmpEq.run (comparing .double)) (comparing .double)).2
    (∀ k ∈ G.order, ∀ i ∈ (G.block k).instrs, i ∉ ((comparing .double).block k).instrs →
        i.checks G.typeOf = true) ↔
      ∀ k ∈ (comparing .double).order, ∀ i ∈ ((comparing .double).block k).instrs,
        FindFCmpEq.finds i = true → ∀ v ∈ i.operands, (comparing .double).typeOf v = .double :=
  run_wellTyped_iff typed_noFolder (wellFormed_comparing .double) (insts_comparing .double)
    (by decide) rfl

/-- The difference of two floats is reinterpreted as 64 bits. -/
theorem float_reinterpreted :
    ¬ ∀ (folder : Folder) (F : Function), folder.Typed → F.WellFormed →
      (∀ d ∈ F.defs, d.1 < F.nextInst) → F.WellTyped → F.optnone = false →
      let G := (run folder (FindFCmpEq.run F) F).2
      ∀ k ∈ G.order, ∀ i ∈ (G.block k).instrs, i ∉ (F.block k).instrs →
        i.checks G.typeOf = true := by
  intro h
  have hcheck := h noFolder (comparing .float) typed_noFolder (wellFormed_comparing .float)
    (insts_comparing .float) (by decide) rfl 0 (by decide)
    ⟨3, .int 64, .cast .bitcast, [.inst 2], [], {}⟩ (by decide) (by decide)
  exact absurd hcheck (by decide)

end LlvmPasses.ConvertFCmpEq
