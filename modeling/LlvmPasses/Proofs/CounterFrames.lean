import Mathlib.Data.List.TakeWhile
import Mathlib.Data.Option.Basic
import LlvmPasses.Ir.Cells
import LlvmPasses.Ir.Steps
import LlvmPasses.Ir.WellFormed
import LlvmPasses.Ir.Program
import LlvmPasses.Proofs.CounterForm

/-!
# A function and its counted function

The instrumented program has the counters beside the memory of the original
one. A frame of a counted function is through with counting before anything
else; from then on it has the same left to do as a frame of the function, in an
environment that differs only in the handles that the pass has made.

The relation between the two frames is `Frames`. It has a parameter for what
the counted frame has to do first: the load, the sum and the store in the block
at the entry, and nothing anywhere else. Where it is nothing, both frames have
the same instructions left, and the lemmas of the last section say that what
one frame does to them the other does too, whether it assigns a result, goes to
another block or is entered. Handles are the only difference between the
environments: the instructions that count have handles that the function did
not use, so the operands of the function's own instructions read the same
(`Below.eval`).

`original` and `instrumented` are the two programs as systems that move, and
`Linked` is what the instrumented one needs of its surroundings: that every
global has an address of its own and that `printf` is a function from outside.
-/

namespace LlvmPasses.DynamicCallCounter

open Ir

/-- A function that can be counted: no handle in it is a free one. -/
structure Sound (F : Function) : Prop where
  wellFormed : F.WellFormed
  below : ∀ d ∈ F.defs, d.1 < F.nextInst

/-- The handle of a function that is entered. -/
def isEntry (fn : Nat) : Observed → Bool
  | .enters fn' _ => fn' == fn
  | _ => false

/-- How often a function has been entered. -/
def entered (fn : Nat) (trace : List Observed) : Nat := trace.countP (isEntry fn)

/-- What is neither of the print function nor a store to a counter. -/
def ofProgram (printWrapper : Nat) (isCell : Nat → Bool) : Observed → Bool
  | .does fn (.store a _) => fn != printWrapper && !isCell a
  | o => o.fn != printWrapper

section

variable {μ : Type} (W : World μ) (M : Module)

/-- The addresses of the counters. -/
def isCounter (a : Nat) : Bool := M.defined.any fun f => W.address (counter M f.id) == a

/-- The original program. -/
abbrev original (external : Nat → Bool) : Program μ := ⟨W, M, external⟩

/-- The instrumented program, which has the counters beside its memory. -/
abbrev instrumented (M' : Module) (external : Nat → Bool) : Program (Cells × μ) :=
  ⟨W.withCells (isCounter W M), M', external⟩

/-- What the instrumented program is linked with. -/
structure Linked (M' : Module) (external : Nat → Bool) : Prop where
  address : Function.Injective W.address
  leaves : W.Leaves (isCounter W M)
  external : ∀ f ∈ M'.functions, external (W.address f.id) = f.fn.isDeclaration

/-- Code from outside does not know of the counters. -/
def besideCells : Move μ → Move (Cells × μ)
  | .silent => .silent
  | .acts change => .acts fun m => (m.1, change m.2)
  | .calls a args => .calls a args
  | .returns v => .returns v
  | .unwinds => .unwinds

/-- The environments agree below a handle. -/
def Below (n : Nat) (env' env : Env) : Prop := ∀ id < n, env' id = env id

/-- Frames of a function and of its counted one, which has `pre` left to do. -/
structure Frames (pre : List (Instr Op)) (fr' fr : Frame) : Prop where
  defined : fr.func ∈ M.defined
  func : fr'.func = counted (counter M fr.func.id) fr.func
  args : fr'.args = fr.args
  block : fr'.block = fr.block
  order : fr.block ∈ fr.func.fn.order
  rest : fr'.rest = pre ++ fr.rest
  within : ∀ i ∈ fr.rest, i ∈ (fr.func.fn.block fr.block).instrs
  env : Below fr.func.fn.nextInst fr'.env fr.env

end

/-! ## The counted function -/

section

variable {F : Function} {new : List (Instr Op)} {k : Nat}

theorem insertFirst_other (h : k ≠ F.entry) : (F.insertFirst new).block k = F.block k := if_neg h

theorem insertFirst_entry : (F.insertFirst new).block F.entry =
    { F.block F.entry with instrs := (F.block F.entry).phis ++ new ++ (F.block F.entry).body } :=
  if_pos rfl

theorem insertFirst_term : ((F.insertFirst new).block k).term = (F.block k).term := by
  by_cases h : k = F.entry
  · rw [h, insertFirst_entry]
  · rw [insertFirst_other h]

/-- The first new instruction, or what comes after the PHI nodes. -/
theorem phis_body (phis rest : List (Instr Op)) (hphis : ∀ i ∈ phis, i.isPhi = true)
    (hrest : ∀ i ∈ rest.head?, i.isPhi = false) :
    (phis ++ rest).takeWhile Instr.isPhi = phis ∧ (phis ++ rest).dropWhile Instr.isPhi = rest := by
  induction phis with
  | nil =>
      cases rest with
      | nil => exact ⟨rfl, rfl⟩
      | cons i rest =>
          have hi := hrest i rfl
          exact ⟨List.takeWhile_cons_of_neg (by simpa using hi),
            List.dropWhile_cons_of_neg (by simpa using hi)⟩
  | cons i phis ih =>
      have hi := hphis i (List.mem_cons_self ..)
      obtain ⟨htake, hdrop⟩ := ih fun j hj => hphis j (List.mem_cons_of_mem _ hj)
      rw [List.cons_append, List.takeWhile_cons_of_pos hi, List.dropWhile_cons_of_pos hi, htake,
        hdrop]
      exact ⟨rfl, rfl⟩

theorem head?_body (b : Block) : ∀ i ∈ b.body.head?, i.isPhi = false := by
  intro i hi
  have h := List.head?_dropWhile_not Instr.isPhi b.instrs
  unfold Block.body at hi
  rw [Option.mem_def.mp hi] at h
  simpa using h

theorem insertFirst_blocks (hnew : ∀ i ∈ new, i.isPhi = false) :
    ((F.insertFirst new).block k).phis = (F.block k).phis ∧
      ((F.insertFirst new).block k).body = if k = F.entry then new ++ (F.block k).body
        else (F.block k).body := by
  by_cases h : k = F.entry
  · subst h
    rw [if_pos rfl, insertFirst_entry]
    unfold Block.phis Block.body
    simp only [List.append_assoc]
    refine phis_body _ _ (fun i hi => List.mem_takeWhile_imp hi) fun i hi => ?_
    cases new with
    | nil => exact head?_body (F.block F.entry) i hi
    | cons j new =>
        obtain rfl : j = i := Option.some.inj hi
        exact hnew j (List.mem_cons_self ..)
  · rw [if_neg h, insertFirst_other h]
    exact ⟨rfl, rfl⟩

theorem isPhi_increment (g n : Nat) : ∀ i ∈ increment g n, i.isPhi = false := by
  simp [increment, Instr.isPhi]

end

/-! ## Values -/

section

variable {W : World μ} {F : Function} {k : Nat} {n : Nat} {args : List Val} {env env' : Env}

/-- The operands in a block of a sound function. -/
theorem Sound.operand (hF : Sound F) (hk : k ∈ F.order) {id : Nat}
    (hv : .inst id ∈ (F.block k).operands) : id < F.nextInst := by
  obtain ⟨d, hd, rfl, -⟩ := hF.wellFormed.operands k hk _ hv
  exact hF.below d hd

theorem Sound.instr (hF : Sound F) (hk : k ∈ F.order) {i : Instr Op}
    (hi : i ∈ (F.block k).instrs) {id : Nat} (hv : .inst id ∈ i.operands) : id < F.nextInst :=
  hF.operand hk (List.mem_append_left _ (List.mem_flatMap.mpr ⟨i, hi, hv⟩))

theorem Sound.term (hF : Sound F) (hk : k ∈ F.order) {id : Nat}
    (hv : .inst id ∈ (F.block k).term.operands) : id < F.nextInst :=
  hF.operand hk (List.mem_append_right _ hv)

theorem Below.eval (h : Below n env' env) {v : Value} (hv : ∀ id, v = .inst id → id < n) :
    Ir.eval W args env' v = Ir.eval W args env v :=
  eval_congr fun id hid => h id (hv id hid)

theorem Below.evalAll (h : Below n env' env) {vs : List Value}
    (hvs : ∀ id, .inst id ∈ vs → id < n) :
    Ir.evalAll (Ir.eval W args env') vs = Ir.evalAll (Ir.eval W args env) vs :=
  evalAll_congr fun _ hv => h.eval fun id hid => hvs id (hid ▸ hv)

theorem Below.set (h : Below n env' env) (id : Nat) (v : Val) :
    Below n (env'.set id v) (env.set id v) := by
  intro j hj
  unfold Env.set
  split
  · rfl
  · exact h j hj

theorem Below.assign (h : Below n env' env) (id : Nat) (ty : Ty) (v : Option Val) :
    Option.Rel (Below n) (env'.assign id ty v) (env.assign id ty v) := by
  cases v with
  | none =>
      unfold Env.assign
      by_cases hty : ty = .void
      · simp only [if_pos hty]
        exact .some h
      · simp only [if_neg hty]
        exact .none
  | some v =>
      unfold Env.assign
      by_cases hty : v.hasTy ty = true
      · simp only [if_pos hty]
        exact .some (h.set id v)
      · simp only [if_neg hty]
        exact .none

theorem Below.readPhis (get get' : Value → Option Val) (prev : Nat) (phis : List (Instr Op))
    (hget : ∀ phi ∈ phis, ∀ v ∈ phi.operands, get' v = get v) {env env' : Env}
    (h : Below n env' env) :
    Option.Rel (Below n) (Ir.readPhis get' prev phis env') (Ir.readPhis get prev phis env) := by
  induction phis generalizing env env' with
  | nil => exact .some h
  | cons phi phis ih =>
      obtain ⟨hphi, hphis⟩ := List.forall_mem_cons.mp hget
      have hvalue : (phi.getIncomingValueForBlock prev).bind get' =
          (phi.getIncomingValueForBlock prev).bind get := by
        cases hv : phi.getIncomingValueForBlock prev with
        | none => rfl
        | some v =>
            refine hphi v ?_
            obtain ⟨e, he, rfl⟩ := Option.map_eq_some_iff.mp hv
            exact (List.of_mem_zip (List.mem_of_find?_eq_some he)).2
      unfold Ir.readPhis
      rw [hvalue]
      cases (phi.getIncomingValueForBlock prev).bind get with
      | none => exact .none
      | some v =>
          by_cases hty : v.hasTy phi.ty = true
          · simp only [if_pos hty]
            exact ih hphis (h.set phi.id v)
          · simp only [if_neg hty]
            exact .none

end

/-! ## Frames -/

section

variable {μ : Type} {W : World μ} {M : Module} {fr' fr : Frame} {pre : List (Instr Op)}

theorem Frames.body (h : Frames M pre fr' fr) (k : Nat) (hk : k ≠ fr.func.fn.entry) :
    fr'.func.fn.block k = fr.func.fn.block k := by
  rw [h.func]
  exact insertFirst_other hk

theorem Frames.term (h : Frames M pre fr' fr) : fr'.term = fr.term := by
  unfold Frame.term
  rw [h.func, h.block]
  exact insertFirst_term

theorem Frames.assign (h : Frames M [] fr' fr) (i : Instr Op) (rest : List (Instr Op))
    (hrest : ∀ j ∈ rest, j ∈ (fr.func.fn.block fr.block).instrs) (v : Option Val) :
    Option.Rel (Frames M []) (fr'.assign i rest v) (fr.assign i rest v) := by
  unfold Frame.assign
  have hassign := h.env.assign i.id i.ty v
  generalize fr'.env.assign i.id i.ty v = o' at hassign ⊢
  generalize fr.env.assign i.id i.ty v = o at hassign ⊢
  cases hassign with
  | some henv => exact .some { h with rest := rfl, within := hrest, env := henv }
  | none => exact .none

theorem Frames.setTerm (h : Frames M [] fr' fr) (v : Option Val) :
    Frames M [] (fr'.setTerm v) (fr.setTerm v) := by
  unfold Frame.setTerm
  rw [h.term]
  cases v with
  | none => exact h
  | some v => exact { h with env := h.env.set _ v }

/-- Control goes the same way in both. -/
theorem Frames.goto (h : Frames M [] fr' fr) (hF : Sound fr.func.fn) {k : Nat}
    (hk : k ∈ fr.func.fn.order) (hentry : k ≠ fr.func.fn.entry) :
    Option.Rel (Frames M []) (fr'.goto (W.withCells (isCounter W M)) k) (fr.goto W k) := by
  unfold Frame.goto
  have hphis := h.env.readPhis (eval W fr.args fr.env)
    (eval (W.withCells (isCounter W M)) fr'.args fr'.env) fr.block
    (fr.func.fn.block k).phis fun phi hphi v hv => by
      rw [eval_withCells, h.args]
      refine h.env.eval fun id hid => hF.instr hk (List.takeWhile_subset _ hphi) (hid ▸ hv)
  rw [h.body k hentry, h.block]
  generalize readPhis _ _ _ fr'.env = o' at hphis ⊢
  generalize readPhis _ _ _ fr.env = o at hphis ⊢
  cases hphis with
  | some henv =>
      exact .some { h with
        block := rfl
        order := hk
        rest := rfl
        within := fun i hi => List.dropWhile_subset _ hi
        env := henv }
  | none => exact .none

/-- A function is entered. -/
theorem Frames.start {F : Func} (hF : F ∈ M.defined) (hsound : Sound F.fn) (args : List Val) :
    Frames M (increment (counter M F.id) F.fn.nextInst)
      (.start (counted (counter M F.id) F) args) (.start F args) where
  defined := hF
  func := rfl
  args := rfl
  block := rfl
  order := hsound.wellFormed.entry_mem
  rest := by
    have h := (insertFirst_blocks (F := F.fn) (k := F.fn.entry)
      (isPhi_increment (counter M F.id) F.fn.nextInst)).2
    rw [if_pos rfl] at h
    exact h
  within := fun i hi => List.dropWhile_subset _ hi
  env := fun _ _ => rfl

end

end LlvmPasses.DynamicCallCounter
