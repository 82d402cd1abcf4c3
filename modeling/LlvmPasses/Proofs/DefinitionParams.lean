import LlvmPasses.Proofs.FailedItems
import LlvmPasses.Proofs.SessionCalls
import Mathlib.Data.List.Perm.Subperm

/-!
# The parameters a definition sees

`FunctionAST::codegen` binds the argument names of the function that
`getFunction` returns. For a definition the module knows nothing of, these are
the names of its own prototype, made distinct; for one that has been declared
before they are the names the declaration was given. No function of a session's
module has an argument name twice, so the cells tell the arguments apart.

`params_bound_iff` is about every session that can be reached and every
definition whose body's turn comes in it. `BindsParams` says what the body
ought to see: exactly the prototype's names, each bound to the cell that the
argument at its position is stored to. `OwnParams` is a condition on the module
before, which can be looked up.

Two things go wrong in the source. A name that occurs twice in a prototype is
renamed when the argument is named, so the names bound are those of the list
made distinct (`setNames_of_nodup`, `nodup_setNames`). And a function that was
declared before keeps the names of its declaration. The parameter loop is run
once, for any list of names (`codegenParams_cells`, `codegenParams_stores`).
That the names of a function found in the module are distinct is an invariant
of sessions (`nodupParams_reachable`): functions get their names when they are
made, and nothing renames them later.
-/

namespace LlvmPasses.Kaleido

open StateError Transition

/-- `FunctionAST::codegen` up to where the body's turn comes. -/
def FunctionAST.enter (f : FunctionAST) : CodegenM Function := do
  let fn ← declareFunction f.prototype
  if f.prototype.isBinaryOp then
    setPrecedence f.prototype
  beginFunction
  codegenParams 0 fn.params
  pure fn

/-- The names bound are those of the list, and a name that is in it once is
bound to the cell that the argument at its position, and no other, is stored
to. -/
structure Builder.BindsParams (b : Builder) (args : List String) : Prop where
  names : ∀ x, (b.named x).isSome ↔ x ∈ args
  cells : ∀ (i : Nat) (x : String), args[i]? = some x → args.count x = 1 →
    ∃ cell, b.named x = some cell ∧
    ∀ j, .store (.arg j) cell ∈ b.body.code entryBlock ↔ j = i

/-- The names are the same, and those that are in `args` once are in the same
place. -/
structure SameParams (params args : List String) : Prop where
  names : ∀ x, x ∈ params ↔ x ∈ args
  places : ∀ (i : Nat) (x : String), args[i]? = some x → args.count x = 1 → params[i]? = some x

/-- The module has no function under the definition's name and its parameters
are distinct, or the declaration it has is given the same ones. -/
def Builder.OwnParams (b : Builder) (proto : Prototype) : Prop :=
  match b.module.getFunction proto.name with
  | none => proto.args.Nodup
  | some g => SameParams g.params proto.args

/-! ## Names made distinct -/

theorem toString_injective {j k : Nat} (h : toString j = toString k) : j = k := by
  have hdigits : Nat.toDigits 10 j = Nat.toDigits 10 k := by
    simpa only [Nat.toString_eq_ofList_toDigits, String.ofList_inj] using h
  calc j = Nat.ofDigitChars 10 (Nat.toDigits 10 j) 0 := Nat.ofDigitChars_ten_toDigits.symm
    _ = Nat.ofDigitChars 10 (Nat.toDigits 10 k) 0 := by rw [hdigits]
    _ = k := Nat.ofDigitChars_ten_toDigits

theorem suffixed_injective (name sep : String) (last : Nat) {j k : Nat}
    (h : name ++ sep ++ toString (last + j + 1) = name ++ sep ++ toString (last + k + 1)) :
    j = k := by
  have heq := toString_injective ((String.append_right_inj _).mp h)
  omega

/-- One of the suffixes tried is free: there are more of them than names. -/
theorem exists_suffix (taken : List String) (name sep : String) (last : Nat) :
    ∃ k < taken.length + 1, name ++ sep ++ toString (last + k + 1) ∉ taken := by
  by_contra hall
  simp only [not_exists, not_and, Decidable.not_not] at hall
  let candidates := (List.range (taken.length + 1)).map fun k =>
    name ++ sep ++ toString (last + k + 1)
  have hnodup : candidates.Nodup :=
    List.nodup_range.map_on fun j _ k _ h => suffixed_injective name sep last h
  have hsub : candidates ⊆ taken := by
    intro x hx
    obtain ⟨k, hk, rfl⟩ := List.mem_map.mp hx
    exact hall k (List.mem_range.mp hk)
  have hle := (List.subperm_of_subset hnodup hsub).length_le
  simp only [candidates, List.length_map, List.length_range] at hle
  omega

theorem uniqueName_not_mem (taken : List String) (sep name : String) (last : Nat) :
    (uniqueName taken sep name last).1 ∉ taken := by
  unfold uniqueName
  split
  · obtain ⟨k, hk, hfree⟩ := exists_suffix taken name sep last
    cases hfind : (List.range (taken.length + 1)).find? fun k =>
        decide (name ++ sep ++ toString (last + k + 1) ∉ taken) with
    | none =>
        have hnone := List.find?_eq_none.mp hfind k (List.mem_range.mpr hk)
        exact absurd (decide_eq_true hfree) hnone
    | some j =>
        have hj := List.find?_some hfind
        simp only [hfind, Option.getD_some]
        exact of_decide_eq_true hj
  · assumption

theorem nodup_setNames {taken : List String} (names : List String) (last : Nat)
    (h : taken.Nodup) : (setNames taken names last).Nodup := by
  induction names generalizing taken last with
  | nil => exact h
  | cons name names ih =>
      have hfree := uniqueName_not_mem taken "" name last
      refine ih _ (List.nodup_append.mpr ⟨h, List.nodup_singleton _, ?_⟩)
      rintro x hx y hy rfl
      obtain rfl := List.mem_singleton.mp hy
      exact hfree hx

/-- Distinct names stay as they are. -/
theorem setNames_of_nodup {taken names : List String} (last : Nat)
    (h : (taken ++ names).Nodup) : setNames taken names last = taken ++ names := by
  induction names generalizing taken last with
  | nil => simp [setNames]
  | cons name names ih =>
      have hfree : name ∉ taken := fun hmem =>
        (List.nodup_append.mp h).2.2 name hmem name (List.mem_cons_self ..) rfl
      have happend : taken ++ name :: names = taken ++ [name] ++ names := by simp
      rw [happend] at h ⊢
      rw [setNames, uniqueName_free "" last hfree]
      exact ih last h

theorem nodup_of_sameParams {params args : List String} (h : SameParams params args)
    (hnd : params.Nodup) (hlen : params.length = args.length) : args.Nodup := by
  have hsub : params ⊆ args := fun x hx => (h.names x).mp hx
  have hperm := (List.subperm_of_subset hnd hsub).perm_of_length_le (Nat.le_of_eq hlen.symm)
  exact hperm.nodup_iff.mp hnd

theorem sameParams_setNames {args : List String} :
    SameParams (setNames [] args 0) args ↔ args.Nodup := by
  constructor
  · intro h
    refine nodup_of_sameParams h (nodup_setNames args 0 List.nodup_nil) ?_
    simpa using length_setNames args [] 0
  · intro h
    have heq : setNames [] args 0 = args := setNames_of_nodup 0 h
    rw [heq]
    exact ⟨fun _ => Iff.rfl, fun _ _ hi _ => hi⟩

/-! ## The parameter loop -/

section

variable {A : Arith} {E : Jit} {s s' : Session} {f : FunctionAST} {fn : Function}
variable {b b' b₁ : Builder} {left : List Lexeme} {m m' : Module} {proto : Prototype}

theorem codegenParams_cells {i : Nat} {names : List String} (hnd : names.Nodup)
    (h : codegenParams i names b = .ok () b') :
    (∀ x, x ∉ names → b'.named x = b.named x) ∧
    (∀ (k : Nat) (x : String), names[k]? = some x → b'.named x = some (b.nextInst + k)) := by
  induction names generalizing i b with
  | nil =>
      cases h
      exact ⟨fun _ _ => rfl, nofun⟩
  | cons name names ih =>
      obtain ⟨hname, hnd⟩ := List.nodup_cons.mp hnd
      obtain ⟨hout, hin⟩ := ih hnd (b := (b.newAlloca.append b.insert
        (.store (.arg i) b.nextInst)).setNamed name (some b.nextInst)) h
      refine ⟨fun x hx => ?_, fun k x hk => ?_⟩
      · obtain ⟨hne, hx⟩ := not_or.mp fun hor => hx (List.mem_cons.mpr hor)
        exact (hout x hx).trans (if_neg hne)
      · cases k with
        | zero =>
            cases hk
            exact (hout _ hname).trans (if_pos rfl)
        | succ k =>
            have hcell := hin k x hk
            rw [hcell]
            show some (b.nextInst + 1 + k) = some (b.nextInst + (k + 1))
            rw [Nat.add_right_comm, Nat.add_assoc]

/-- The stores of the parameter loop: each argument to its own cell. -/
theorem codegenParams_stores {i e : Nat} {names : List String} (he : b.insert = e)
    (h : codegenParams i names b = .ok () b') (j cell : Nat) :
    .store (.arg j) cell ∈ b'.body.code e ↔
      .store (.arg j) cell ∈ b.body.code e ∨
        ∃ k < names.length, j = i + k ∧ cell = b.nextInst + k := by
  induction names generalizing i b with
  | nil =>
      cases h
      exact ⟨.inl, fun hor => hor.elim id fun ⟨_, hk, _⟩ => absurd hk (Nat.not_lt_zero _)⟩
  | cons name names ih =>
      have hcode : ((b.newAlloca.append b.insert (.store (.arg i) b.nextInst)).setNamed name
          (some b.nextInst)).body.code e = b.body.code e ++ [.store (.arg i) b.nextInst] :=
        if_pos he.symm
      rw [ih (b := (b.newAlloca.append b.insert (.store (.arg i) b.nextInst)).setNamed name
        (some b.nextInst)) he h, hcode, List.mem_append, List.mem_singleton, or_assoc]
      refine or_congr_right ⟨?_, ?_⟩
      · rintro (heq | ⟨k, hk, hj, hcell⟩)
        · cases heq
          exact ⟨0, Nat.zero_lt_succ _, rfl, rfl⟩
        · refine ⟨k + 1, Nat.succ_lt_succ hk, by omega, ?_⟩
          have hcell : cell = b.nextInst + 1 + k := hcell
          omega
      · rintro ⟨k, hk, hj, hcell⟩
        cases k with
        | zero =>
            subst hj hcell
            exact .inl rfl
        | succ k =>
            refine .inr ⟨k, Nat.lt_of_succ_lt_succ hk, by omega, ?_⟩
            show cell = b.nextInst + 1 + k
            omega

/-- With distinct parameters the loop binds the names of a list exactly if they
are the same. -/
theorem bindsParams_iff {params args : List String} (hnd : params.Nodup)
    (h : codegenParams 0 params b.begin = .ok () b') :
    b'.BindsParams args ↔ SameParams params args := by
  have hscope : ∀ x, (b'.named x).isSome ↔ x ∈ params := by
    intro x
    have hx := codegenParams_scope h x
    simp only [Builder.scope, Builder.begin, Option.isSome_none, Bool.false_or] at hx
    rw [hx, decide_eq_true_iff]
  have hcells : ∀ (k : Nat) (x : String), params[k]? = some x → b'.named x = some k := by
    intro k x hk
    rw [(codegenParams_cells hnd h).2 k x hk]
    exact congrArg some (Nat.zero_add k)
  have hstores : ∀ j cell, .store (.arg j) cell ∈ b'.body.code entryBlock ↔
      j < params.length ∧ cell = j := by
    intro j cell
    have hj := codegenParams_stores rfl h j cell
    simp only [Builder.begin, List.not_mem_nil, false_or, Nat.zero_add] at hj
    rw [hj]
    constructor
    · rintro ⟨k, hk, hj, hcell⟩
      exact ⟨hj ▸ hk, hcell.trans hj.symm⟩
    · rintro ⟨hk, hcell⟩
      exact ⟨j, hk, rfl, hcell⟩
  constructor
  · rintro ⟨hnames, hbound⟩
    have hsame : ∀ x, x ∈ params ↔ x ∈ args := fun x => (hscope x).symm.trans (hnames x)
    refine ⟨hsame, fun i x hi hcount => ?_⟩
    obtain ⟨cell, hcell, hstore⟩ := hbound i x hi hcount
    obtain ⟨k, hk⟩ := List.mem_iff_getElem?.mp ((hsame x).mpr (List.mem_of_getElem? hi))
    rw [hcells k x hk] at hcell
    obtain rfl : k = cell := Option.some.inj hcell
    have hlt : k < params.length := (List.getElem?_eq_some_iff.mp hk).1
    obtain rfl := (hstore k).mp ((hstores k k).mpr ⟨hlt, rfl⟩)
    exact hk
  · intro hsame
    refine ⟨fun x => (hscope x).trans (hsame.names x), fun i x hi hcount => ?_⟩
    have hk := hsame.places i x hi hcount
    refine ⟨i, hcells i x hk, fun j => (hstores j i).trans ⟨fun hj => hj.2.symm, ?_⟩⟩
    rintro rfl
    exact ⟨(List.getElem?_eq_some_iff.mp hk).1, rfl⟩

/-! ## Argument names -/

/-- No function of the module has an argument name twice. -/
def Module.NodupParams (m : Module) : Prop := ∀ f ∈ m.functions, f.params.Nodup

theorem Builder.Announces.nodup (h : b.Announces fn) : fn.params.Nodup := by
  obtain ⟨p, -, heq⟩ := h.proto
  exact heq ▸ nodup_setNames p.args 0 List.nodup_nil

theorem Module.NodupParams.append {new : List Function} (h : m.NodupParams)
    (heq : m'.functions = m.functions ++ new) (hnew : ∀ f ∈ new, f.params.Nodup) :
    m'.NodupParams := fun f hf =>
  (List.mem_append.mp (heq ▸ hf)).elim (h f) (hnew f)

theorem Module.NodupParams.erase (h : m.NodupParams) (id : Nat) : (m.erase id).NodupParams :=
  fun f hf => h f (List.mem_filter.mp hf).1

theorem Module.NodupParams.setBody (h : m.NodupParams) (id : Nat) (body : Body) :
    (m.setBody id body).NodupParams := by
  intro f hf
  obtain ⟨g, hg, rfl⟩ := List.mem_map.mp hf
  split
  · exact h g hg
  · exact h g hg

theorem Module.NodupParams.turn (jit : Bool) (h : b.module.NodupParams) :
    (b.turn jit).module.NodupParams := by
  cases jit with
  | false => exact h
  | true => exact fun _ hf => nomatch hf

theorem Declares.nodupParams (hd : Declares b b') (h : b.module.NodupParams) :
    b'.module.NodupParams := by
  obtain ⟨new, heq, hnew⟩ := hd.functions
  exact h.append heq fun f hf => (hnew f hf).nodup

theorem Keeps.nodupParams {ops : Char → Prop} (hk : Keeps ops b b') (h : b.module.NodupParams) :
    b'.module.NodupParams := by
  obtain ⟨new, heq, hnew⟩ := hk.functions
  exact h.append heq fun f hf => (hnew f hf).nodup

/-- Where a definition is given its function, and as far as its body goes. -/
theorem Declared.nodupParams {ops : Char → Prop} (hd : Declared proto b fn b₁)
    (hk : Keeps ops (b₁.withPrecedence proto) b') (h : b.module.NodupParams) :
    b'.module.NodupParams := by
  refine hk.nodupParams ?_
  rw [(withPrecedence_tables b₁ proto).2.1]
  exact hd.declares.nodupParams h

theorem nodupParams_codegen (h : b.module.NodupParams) (hcodegen : f.codegen A b = .ok fn b') :
    b'.module.NodupParams := by
  obtain ⟨b₁, b₂, hd, hkeeps, rfl⟩ :=
    codegen_defined (fun _ _ => trivial : ∀ c ∈ f.body.operators, (fun _ => True) c) hcodegen
  exact (hd.nodupParams hkeeps h).setBody fn.id b₂.body

theorem nodupParams_next (h : s.builder.module.NodupParams) (hn : next A E s = some s') :
    s'.builder.module.NodupParams := by
  cases rounds_of_next hn with
  | skipped _ => exact h
  | @declared p left _ _ =>
      refine h.append rfl fun g hg => ?_
      obtain rfl := List.mem_singleton.mp hg
      exact nodup_setNames p.args 0 List.nodup_nil
  | threw _ hcodegen =>
      cases threw_of_error hcodegen with
      | redefined _ heq => exact heq ▸ h
      | erased hd hkeeps heq => exact heq ▸ (hd.nodupParams hkeeps h).erase _
  | defined _ _ hcodegen => exact (nodupParams_codegen h hcodegen).turn _
  | evaluated _ hcodegen _ => exact (nodupParams_codegen h hcodegen).turn _

theorem nodupParams_reachable (h : Reachable A E s) : s.builder.module.NodupParams := by
  obtain ⟨strtod, useJIT, input, hreaches⟩ := h
  exact hreaches.induction (fun _ hf => nomatch hf) fun _ _ ht hn => nodupParams_next ht hn

/-! ## The start of the body -/

/-- Code generation of a definition is entering it and then its body. -/
theorem codegen_eq_enter (A : Arith) (f : FunctionAST) : f.codegen A =
    f.enter >>= fun fn => erasing fn (codegenBody A fn f.body) >>= fun _ => pure fn := by
  unfold FunctionAST.codegen FunctionAST.enter
  rw [bind_assoc]
  refine bind_congr fun fn => ?_
  split
  · simp only [bind_assoc, pure_bind]
  · simp only [bind_assoc, pure_bind]

theorem enter_ok (h : f.enter b = .ok fn b') :
    ∃ b₁, Declared f.prototype b fn b₁ ∧
      codegenParams 0 fn.params (b₁.withPrecedence f.prototype).begin = .ok () b' := by
  unfold FunctionAST.enter at h
  rcases declareFunction_run f.prototype b with ⟨-, herr⟩ | ⟨g, b₁, hdecl, hd⟩
  · rw [bind_error herr] at h
    cases h
  · rw [bind_ok hdecl] at h
    have hrun : (codegenParams 0 g.params >>= fun _ => pure g)
        (b₁.withPrecedence f.prototype).begin = .ok fn b' := by
      rw [← h]
      unfold Builder.withPrecedence
      split <;> rfl
    obtain ⟨u, b₂, hp, hret⟩ := bind_eq_ok hrun
    obtain ⟨rfl, rfl⟩ := pure_eq_ok hret
    exact ⟨b₁, hd, hp⟩

/-- In every session, the body of a definition that is come to sees its own
parameters exactly if these are distinct and new to the module, or those that
the function was declared with. -/
theorem params_bound_iff (hs : Reachable A E s) (h : f.enter s.builder = .ok fn b) :
    b.BindsParams f.prototype.args ↔ s.builder.OwnParams f.prototype := by
  obtain ⟨b₁, hd, hp⟩ := enter_ok h
  unfold Builder.OwnParams
  have hparams := hd.params
  unfold Builder.paramsOf at hparams
  cases hf : s.builder.module.getFunction f.prototype.name with
  | some g =>
      simp only [hf] at hparams ⊢
      rw [← hparams]
      refine bindsParams_iff ?_ hp
      rw [hparams]
      exact nodupParams_reachable hs g (List.mem_of_find?_eq_some hf)
  | none =>
      simp only [hf] at hparams ⊢
      rw [← sameParams_setNames, ← hparams]
      refine bindsParams_iff ?_ hp
      rw [hparams]
      exact nodup_setNames _ 0 List.nodup_nil

end

/-- `extern f(a, b) def f(a, b) b`. -/
def declaredInput : List UInt8 :=
  [101, 120, 116, 101, 114, 110, 32, 102, 40, 97, 44, 32, 98, 41, 32, 100, 101, 102, 32, 102, 40,
   97, 44, 32, 98, 41, 32, 98]

/-- The definition of a function that has been declared with the same two
parameters binds them both. -/
theorem params_bound_iff_declared :
    let A : Arith := ⟨fun a _ => a, fun a _ => a, fun a _ => a⟩
    let E : Jit := ⟨fun _ _ => true, fun _ => some []⟩
    ∃ s f left fn b, runN (next A E) 1 (.start (fun _ => .one) true declaredInput) = some s ∧
      parseDefinition s.builder.binopPrecedence s.tokens = .ok f left ∧
      f.enter s.builder = .ok fn b ∧ b.BindsParams ["a", "b"] := by
  intro A E
  have hrun : (runN (next A E) 1 (.start (fun _ => .one) true declaredInput)).any (fun s =>
      okAnd (parseDefinition s.builder.binopPrecedence s.tokens) fun f _ =>
        decide (f.prototype.args = ["a", "b"]) &&
        decide ((s.builder.module.getFunction f.prototype.name).map Function.params =
          some ["a", "b"]) && okAnd (f.enter s.builder) fun _ _ => true) = true := by
    decide +kernel
  obtain ⟨s, hs, hrun⟩ := (Option.any_eq_true _ _).mp hrun
  obtain ⟨f, left, hparse, hrun⟩ := okAnd_iff.mp hrun
  rw [Bool.and_eq_true, Bool.and_eq_true, decide_eq_true_eq, decide_eq_true_eq] at hrun
  obtain ⟨⟨hargs, hparams⟩, henter⟩ := hrun
  obtain ⟨fn, b, henter, -⟩ := okAnd_iff.mp henter
  have hreachable : Reachable A E s := ⟨_, _, _, 1, hs⟩
  refine ⟨s, f, left, fn, b, hs, hparse, henter, ?_⟩
  rw [← hargs]
  refine (params_bound_iff hreachable henter).mpr ?_
  obtain ⟨g, hg, hsame⟩ := Option.map_eq_some_iff.mp hparams
  unfold Builder.OwnParams
  rw [hg, hargs]
  simp only [hsame]
  exact ⟨fun _ => Iff.rfl, fun _ _ hi _ => hi⟩

/-! ### A definition of what was declared with another parameter -/

/-- `extern f(a) def f(b) b`. -/
def renamedInput : List UInt8 :=
  [101, 120, 116, 101, 114, 110, 32, 102, 40, 97, 41, 32, 100, 101, 102, 32, 102, 40, 98, 41,
   32, 98]

/-- In the body of `f` the name `b` is not bound. -/
theorem params_not_bound :
    ¬ ∀ (A : Arith) (E : Jit) (s : Session) (f : FunctionAST) (left : List Lexeme)
      (fn : Function) (b : Builder), Reachable A E s → current s.tokens = .def_ →
      parseDefinition s.builder.binopPrecedence s.tokens = .ok f left →
      f.enter s.builder = .ok fn b → b.BindsParams f.prototype.args := by
  intro h
  let A : Arith := ⟨fun a _ => a, fun a _ => a, fun a _ => a⟩
  let E : Jit := ⟨fun _ _ => true, fun _ => some []⟩
  have hrun : (runN (next A E) 1 (.start (fun _ => .one) false renamedInput)).any (fun s =>
      decide (current s.tokens = .def_) &&
        okAnd (parseDefinition s.builder.binopPrecedence s.tokens) fun f _ =>
          decide ("b" ∈ f.prototype.args) &&
            okAnd (f.enter s.builder) fun _ b => (b.named "b").isNone) = true := by
    decide +kernel
  obtain ⟨s, hs, hrun⟩ := (Option.any_eq_true _ _).mp hrun
  rw [Bool.and_eq_true, decide_eq_true_eq] at hrun
  obtain ⟨htok, hrun⟩ := hrun
  obtain ⟨f, left, hparse, hrun⟩ := okAnd_iff.mp hrun
  rw [Bool.and_eq_true, decide_eq_true_eq] at hrun
  obtain ⟨hmem, hrun⟩ := hrun
  obtain ⟨fn, b, henter, hnone⟩ := okAnd_iff.mp hrun
  have hbound := h A E s f left fn b ⟨_, _, _, 1, hs⟩ htok hparse henter
  have hsome := (hbound.names "b").mpr hmem
  rw [Option.isNone_iff_eq_none.mp hnone] at hsome
  cases hsome

end LlvmPasses.Kaleido
