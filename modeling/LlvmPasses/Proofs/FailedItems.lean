import LlvmPasses.Proofs.CodegenChecks
import LlvmPasses.Proofs.Rounds

/-!
# What a failed item leaves behind

A definition or top-level expression that code generation throws on leaves the
functions with a body as they were: what it declared has no body, and its own
function is erased again. The prototype it filed stays filed, and so does the
precedence of its operator when the failure came after the redefinition check.

The declarations are another matter. Erasing the item's function takes a
declaration away if there had been one before, by an `extern` or a call, and
the declarations that `getFunction` made for the functions asked for in the
body stay. Both are seen by later items, whose calls and definitions take what
the module has under a name before they look at the prototypes.

So the session is as it was before exactly when what the item filed was there
already, and either it failed at the redefinition check or nothing was declared
for it but its own function. What it asks for before it fails is read off its
walk, which the relation of the walk to code generation makes exact.
-/

namespace LlvmPasses.Kaleido

/-- The tables an item may not disturb by failing: the precedences, the
prototypes, and the functions of the module, declared or with a body, with the
number that names are made unique by. -/
structure Undisturbed (s s' : Session) : Prop where
  precedence : s'.builder.binopPrecedence = s.builder.binopPrecedence
  protos : s'.builder.protos.find = s.builder.protos.find
  functions : s'.builder.module.functions = s.builder.module.functions
  unique : s'.builder.module.lastUnique = s.builder.module.lastUnique

/-- The functions asked for in the body before it fails. -/
def FunctionAST.asked (f : FunctionAST) (b : Builder) : List String :=
  match f.walk b with
  | .ok _ w => w.asked
  | .error _ w => w.asked

/-- What a failing definition would file is there already, and it declares
nothing that stays and erases nothing that was there. -/
structure Builder.FailsCleanly (b : Builder) (f : FunctionAST) : Prop where
  filed : b.protos.find f.prototype.name = some f.prototype
  precedence : f.prototype.isBinaryOp = true →
    b.binopPrecedence f.prototype.getOperatorName = f.prototype.precedence ∨
      b.HasBody f.prototype.name
  declared : b.HasBody f.prototype.name ∨ (b.module.getFunction f.prototype.name = none ∧
    ∀ x ∈ f.asked b, x = f.prototype.name ∨ b.Quiet x)

instance (b : Builder) (x : String) : Decidable (b.Quiet x) :=
  inferInstanceAs (Decidable (_ ∨ _))

instance (b : Builder) (f : FunctionAST) : Decidable (b.FailsCleanly f) :=
  decidable_of_iff (b.protos.find f.prototype.name = some f.prototype ∧
      (f.prototype.isBinaryOp = true →
        b.binopPrecedence f.prototype.getOperatorName = f.prototype.precedence ∨
          b.HasBody f.prototype.name) ∧
      (b.HasBody f.prototype.name ∨ ((b.module.getFunction f.prototype.name).isNone ∧
        ∀ x ∈ f.asked b, x = f.prototype.name ∨ b.Quiet x))) <| by
    rw [Option.isNone_iff_eq_none]
    exact ⟨fun h => ⟨h.1, h.2.1, h.2.2⟩, fun h => ⟨h.filed, h.precedence, h.declared⟩⟩

section

variable {A : Arith} {E : Jit} {b b' : Builder} {proto : Prototype} {f : FunctionAST}
variable {fn : Function} {what : String} {s : Session} {left : List Lexeme}

theorem find_file_eq_iff : (b.file proto).protos.find = b.protos.find ↔
    b.protos.find proto.name = some proto := by
  constructor
  · intro h
    rw [← h]
    exact if_pos rfl
  · intro h
    funext x
    show (if x = proto.name then some proto else b.protos.find x) = _
    split
    · next hx => rw [hx, h]
    · rfl

theorem withPrecedence_eq_iff : (b.withPrecedence proto).binopPrecedence = b.binopPrecedence ↔
    (proto.isBinaryOp = true → b.binopPrecedence proto.getOperatorName = proto.precedence) := by
  unfold Builder.withPrecedence
  by_cases hop : proto.isBinaryOp = true
  · rw [if_pos hop]
    constructor
    · intro h _
      rw [← h]
      exact if_pos rfl
    · intro h
      funext c
      show (if c = proto.getOperatorName then (proto.precedence : Int) else
        b.binopPrecedence c) = _
      split
      · next hc => rw [hc, h hop]
      · rfl
  · rw [if_neg hop]
    exact ⟨fun _ h => absurd h hop, fun _ => rfl⟩

/-- Where a definition can throw, and what the builder is then. -/
inductive Threw (proto : Prototype) (b b' : Builder) : Prop
  | redefined (h : b.HasBody proto.name) (heq : b' = b.file proto)
  | erased {fn : Function} {b₁ b₂ : Builder} (h : Declared proto b fn b₁)
      (hkeeps : Keeps (fun _ => True) (b₁.withPrecedence proto) b₂)
      (heq : b' = { b₂ with module := b₂.module.erase fn.id })

theorem threw_of_error (h : f.codegen A b = .error (.exception what) b') :
    Threw f.prototype b b' := by
  rcases declareFunction_run f.prototype b with ⟨hbody, herr⟩ | ⟨fn, b₁, hdecl, hd⟩
  · have hcodegen : f.codegen A b =
        .error (.exception "Function cannot be redefined") (b.file f.prototype) :=
      StateError.bind_error herr
    rw [hcodegen] at h
    cases h
    exact .redefined hbody rfl
  · have hall : ∀ c ∈ f.body.operators, (fun _ : Char => True) c := fun _ _ => trivial
    have hfin := functionCodegen_finished A hall hdecl
    rw [h] at hfin
    cases hfin with
    | erased hkeeps => exact .erased hd hkeeps rfl

theorem Declared.precedence (h : Declared proto b fn b') :
    (b'.withPrecedence proto).binopPrecedence = (b.withPrecedence proto).binopPrecedence := by
  rw [h.declares.rest]
  unfold Builder.withPrecedence
  split <;> rfl

/-- The tables after a throw, against the builder before. -/
theorem Threw.tables (h : Threw proto b b') :
    b'.protos.find = (b.file proto).protos.find ∧ b'.module.bodies = b.module.bodies ∧
      (b'.binopPrecedence = b.binopPrecedence ↔
        (proto.isBinaryOp = true → b.binopPrecedence proto.getOperatorName = proto.precedence ∨
          b.HasBody proto.name)) := by
  cases h with
  | redefined h heq =>
      rw [heq]
      exact ⟨rfl, rfl, fun _ _ => .inr h, fun _ => rfl⟩
  | @erased fn b₁ b₂ h hkeeps heq =>
      obtain ⟨hprotos, hmodule, -⟩ := withPrecedence_tables b₁ proto
      have hmem : fn ∈ b₂.module.functions := by
        obtain ⟨new, hnew, -⟩ := hkeeps.functions
        rw [hnew, hmodule]
        exact List.mem_append_left _ h.mem
      have hfile : b₁.protos = (b.file proto).protos := by rw [h.declares.rest]
      have hbodies : b₂.module.bodies = b.module.bodies := by
        rw [hkeeps.bodies, hmodule, h.declares.bodies]
        rfl
      have hprec : b₂.binopPrecedence = (b.withPrecedence proto).binopPrecedence :=
        hkeeps.precedence.trans h.precedence
      rw [heq]
      refine ⟨?_, ?_, ?_⟩
      · show b₂.protos.find = _
        rw [hkeeps.protos, hprotos, hfile]
      · exact (Module.bodies_erase hmem h.bodiless).trans hbodies
      · show b₂.binopPrecedence = _ ↔ _
        rw [hprec, withPrecedence_eq_iff]
        exact forall_congr' fun _ => ⟨.inl, fun hor => hor.resolve_right h.not_hasBody⟩

/-! ## Declarations -/

/-- Where a definition is given its function, and what is declared for that. -/
theorem declared_functions {b₁ : Builder} (h : declareFunction proto b = .ok fn b₁) :
    b₁.module.lastUnique = b.module.lastUnique ∧ b₁.protos = (b.file proto).protos ∧
      ((b.module.getFunction proto.name).isSome → b₁.module.functions = b.module.functions) ∧
      (b.module.getFunction proto.name = none →
        b₁.module.functions = b.module.functions ++ [fn]) := by
  have hget : getFunction proto.name (b.file proto) = .ok (some fn) b₁ := (declareFunction_ok h).1
  obtain ⟨⟨-, hunique⟩, hquiet, hloud⟩ := getFunction_functions hget
  obtain ⟨o, b₂, hrun, -, -, hdecl⟩ := getFunction_run proto.name (b.file proto)
  rw [hget] at hrun
  cases hrun
  refine ⟨hunique, by rw [hdecl.rest], fun hsome => hquiet (.inl hsome), fun hnone => ?_⟩
  have hnot : ¬ (b.file proto).Quiet proto.name := by
    rintro (hsome | hfind)
    · have hsome : (b.module.getFunction proto.name).isSome = true := hsome
      rw [hnone] at hsome
      cases hsome
    · have hfiled : (b.file proto).protos.find proto.name = some proto := if_pos rfl
      exact Option.some_ne_none _ (hfiled.symm.trans hfind)
  obtain ⟨g, hg, heq⟩ := hloud hnot
  cases hg
  exact heq

/-- When the body's turn comes, the function itself is asked for without more
ado, and the others as before. -/
theorem quiet_declared {b₁ b₂ : Builder} (hdecl : declareFunction proto b = .ok fn b₁)
    (hd : Declared proto b fn b₁) (hmodule : b₂.module = b₁.module)
    (hprotos : b₂.protos = b₁.protos) (x : String) : b₂.Quiet x ↔ x = proto.name ∨ b.Quiet x := by
  obtain ⟨-, hfile, hsame, hnew⟩ := declared_functions hdecl
  unfold Builder.Quiet
  rw [hmodule, hprotos, hfile]
  by_cases hx : x = proto.name
  · subst hx
    exact ⟨fun _ => .inl rfl, fun _ => .inl (by rw [hd.found]; rfl)⟩
  · have hfind : (b.file proto).protos.find x = b.protos.find x := if_neg hx
    have hget : b₁.module.getFunction x = b.module.getFunction x := by
      show b₁.module.functions.find? _ = b.module.functions.find? _
      cases hf : b.module.getFunction proto.name with
      | some g => rw [hsame (by rw [hf]; rfl)]
      | none =>
          have hname : ¬ fn.name = x := fun h =>
            hx (h.symm.trans (Module.getFunction_name hd.found))
          rw [hnew hf, List.find?_append, List.find?_cons_of_neg (by simpa using hname)]
          simp
    rw [hfind, hget]
    exact ⟨.inr, fun h => h.resolve_left hx⟩

/-- Erasing takes at most one function away. -/
theorem length_erase (m : Module) (id : Nat) :
    m.functions.length ≤ (m.erase id).functions.length + 1 := by
  have hids := m.ids_nodup
  show _ ≤ (m.functions.filter _).length + 1
  generalize m.functions = gs at hids
  induction gs with
  | nil => exact Nat.zero_le _
  | cons g gs ih =>
      rw [List.map_cons, List.nodup_cons] at hids
      have ih := ih hids.2
      rw [List.filter_cons]
      by_cases hid : g.id = id
      · -- the others have other handles
        have hrest : gs.filter (fun f => decide (f.id ≠ id)) = gs :=
          List.filter_eq_self.mpr fun f hf => decide_eq_true fun heq =>
            hids.1 (hid ▸ heq ▸ List.mem_map_of_mem hf)
        rw [if_neg (by simp [hid]), hrest]
        exact Nat.le_refl _
      · rw [if_pos (by simp [hid]), List.length_cons, List.length_cons]
        omega

/-- Once its function is erased, a body has left no function only if the function
was made for it and nothing else was declared on the way. -/
theorem functions_erased_iff {b₁ b₂ b₃ : Builder} {w : Walk}
    (hdecl : declareFunction proto b = .ok fn b₁) (hd : Declared proto b fn b₁)
    (hmodule : b₂.module = b₁.module) (hprotos : b₂.protos = b₁.protos) (h : Scopes b₂ b₃ w) :
    (b₃.module.erase fn.id).functions = b.module.functions ↔
      b.module.getFunction proto.name = none ∧ ∀ x ∈ w.asked, x = proto.name ∨ b.Quiet x := by
  obtain ⟨-, -, -, hnew⟩ := declared_functions hdecl
  have hquiet := quiet_declared hdecl hd hmodule hprotos
  cases hf : b.module.getFunction proto.name with
  | some g =>
      -- the declaration that was there is gone
      obtain rfl := hd.was g hf
      refine iff_of_false (fun heq => ?_) fun hand => Option.some_ne_none _ hand.1
      have hmem : g ∈ (b₃.module.erase g.id).functions :=
        heq ▸ List.mem_of_find?_eq_some hf
      exact absurd rfl (of_decide_eq_true (List.mem_filter.mp hmem).2)
  | none =>
      have hb₂ : b₂.module.functions = b.module.functions ++ [fn] := hmodule ▸ hnew hf
      constructor
      · intro heq
        refine ⟨rfl, fun x hx => (hquiet x).mp ?_⟩
        by_contra hnot
        have hmore := h.more x hx hnot
        have hlen := length_erase b₃.module fn.id
        rw [heq] at hlen
        rw [hb₂, List.length_append, List.length_singleton] at hmore
        omega
      · rintro ⟨-, hall⟩
        have hb₃ := h.same fun x hx => (hquiet x).mpr (hall x hx)
        have hold : ∀ g ∈ b.module.functions, decide (g.id ≠ fn.id) = true := by
          have hids := b₂.module.ids_nodup
          rw [hb₂, List.map_append, List.nodup_append] at hids
          exact fun g hg => decide_eq_true fun heq => hids.2.2 _ (List.mem_map_of_mem hg)
            _ (List.mem_singleton_self _) heq
        show b₃.module.functions.filter _ = _
        rw [hb₃, hb₂, List.filter_append, List.filter_eq_self.mpr hold,
          List.filter_cons_of_neg (by simp)]
        exact List.append_nil _

/-- The functions of the module after a throw, against those before. -/
theorem functions_of_throw (h : f.codegen A b = .error (.exception what) b') :
    b'.module.lastUnique = b.module.lastUnique ∧
      (b'.module.functions = b.module.functions ↔ b.HasBody f.prototype.name ∨
        (b.module.getFunction f.prototype.name = none ∧
          ∀ x ∈ f.asked b, x = f.prototype.name ∨ b.Quiet x)) := by
  rcases declareFunction_run f.prototype b with ⟨hbody, herr⟩ | ⟨fn, b₁, hdecl, hd⟩
  · have hcodegen : f.codegen A b =
        .error (.exception "Function cannot be redefined") (b.file f.prototype) :=
      StateError.bind_error herr
    rw [hcodegen] at h
    cases h
    exact ⟨rfl, fun _ => .inl hbody, fun _ => rfl⟩
  obtain ⟨hunique, -, -, -⟩ := declared_functions hdecl
  obtain ⟨b₂, hp, hmodule, hprotos, hw⟩ := body_walked (A := A) hd
  rw [functionCodegen_eq hdecl, StateError.bind_ok hp] at h
  have hasked : ∀ w, f.walk b = .ok () w ∨ (∃ e, f.walk b = .error e w) → f.asked b = w.asked := by
    rintro w (hw | ⟨e, hw⟩)
    · unfold FunctionAST.asked
      rw [hw]
    · unfold FunctionAST.asked
      rw [hw]
  generalize hwalk : f.walk b = r at hw hasked
  generalize hv : f.body.codegen A b₂ = r' at hw
  cases hw with
  | @ok v b₃ w hscopes =>
      have hbody : codegenBody A fn f.body b₂ = .ok () (b₃.finish fn v) := by
        unfold codegenBody
        rw [StateError.bind_ok hv]
        rfl
      rw [StateError.bind_ok (erasing_ok hbody)] at h
      cases h
  | @error e b₃ w hscopes =>
      have hbody : codegenBody A fn f.body b₂ = .error e b₃ := StateError.bind_error hv
      cases e with
      | misread =>
          rw [StateError.bind_error (erasing_misread hbody)] at h
          cases h
      | exception what =>
          rw [StateError.bind_error (erasing_exception hbody)] at h
          cases h
          rw [hasked w (.inr ⟨_, rfl⟩)]
          exact ⟨hscopes.unique.trans (hmodule ▸ hunique),
            (functions_erased_iff hdecl hd hmodule hprotos hscopes).trans
              ⟨.inr, fun hor => hor.resolve_left hd.not_hasBody⟩⟩

/-- The round of an item that throws goes on from the builder it left. -/
theorem Session.Reads.round_of_throw (h : s.Reads f left)
    (hthrow : f.codegen A s.builder = .error (.exception what) b') :
    round A E s = .ok { s with tokens := left, builder := b' } := by
  cases h with
  | definition htok hparse =>
      unfold round handleDefinition
      simp only [htok, hparse, hthrow]
  | topLevel htok hparse =>
      simp only [List.mem_cons, List.not_mem_nil, or_false, not_or] at htok
      obtain ⟨heof, hdef, hextern, hsemi⟩ := htok
      unfold round
      split
      · contradiction
      · contradiction
      · contradiction
      · rw [if_neg hsemi]
        unfold handleTopLevelExpression
        simp only [hparse, hthrow]

/-- A definition or top-level expression that throws leaves the session as it
was exactly if what it filed was there already and nothing is declared or
erased for it. -/
theorem undisturbed_iff (A : Arith) (E : Jit) (hread : s.Reads f left)
    (hthrow : f.codegen A s.builder = .error (.exception what) b') :
    ∃ s', round A E s = .ok s' ∧ (Undisturbed s s' ↔ s.builder.FailsCleanly f) := by
  refine ⟨_, hread.round_of_throw hthrow, ?_⟩
  obtain ⟨hprotos, -, hprec⟩ := (threw_of_error hthrow).tables
  obtain ⟨hunique, hfunctions⟩ := functions_of_throw hthrow
  constructor
  · intro h
    exact ⟨find_file_eq_iff.mp (hprotos.symm.trans h.protos), hprec.mp h.precedence,
      hfunctions.mp h.functions⟩
  · intro h
    exact ⟨hprec.mpr h.precedence, hprotos.trans (find_file_eq_iff.mpr h.filed),
      hfunctions.mpr h.declared, hunique⟩

/-- After an item that left the session as it was, every other is rejected, or
not, as it would have been. -/
theorem Undisturbed.check {s' : Session} (h : Undisturbed s s') (f : FunctionAST) :
    f.check s'.builder = f.check s.builder := by
  have hget : s'.builder.module.getFunction = s.builder.module.getFunction := by
    unfold Module.getFunction
    rw [h.functions]
  have harity : (s'.builder.file f.prototype).arityOf = (s.builder.file f.prototype).arityOf := by
    funext x
    have hfind : (s'.builder.file f.prototype).protos.find x =
        (s.builder.file f.prototype).protos.find x := by
      show (if x = f.prototype.name then _ else s'.builder.protos.find x) =
        if x = f.prototype.name then _ else s.builder.protos.find x
      rw [h.protos]
    have hmodule : (s'.builder.file f.prototype).module.getFunction x =
        (s.builder.file f.prototype).module.getFunction x := congrFun hget x
    unfold Builder.arityOf
    rw [hfind, hmodule]
  have hparams : s'.builder.paramsOf f.prototype = s.builder.paramsOf f.prototype := by
    unfold Builder.paramsOf
    rw [hget]
  have hbody : s'.builder.HasBody f.prototype.name ↔ s.builder.HasBody f.prototype.name := by
    unfold Builder.HasBody
    rw [hget]
  unfold FunctionAST.check FunctionAST.walk
  rw [harity, hparams]
  exact if_congr hbody rfl rfl

end

/-! ## A definition that fails -/

/-- `def binary % (x, y) z`. -/
def failingInput : List UInt8 :=
  [100, 101, 102, 32, 98, 105, 110, 97, 114, 121, 32, 37, 32, 40, 120, 44, 32, 121, 41, 32, 122]

def failingDefinition : FunctionAST where
  prototype := { name := "binary%", args := ["x", "y"], isOperator := true, precedence := 30 }
  body := .variable "z"

def failingSession : Session := .start (fun _ => .zero) true failingInput

theorem tokens_failingSession : failingSession.tokens =
    [⟨.def_, "def", .zero⟩, ⟨.binary, "binary", .zero⟩, ⟨.chr '%', "binary", .zero⟩,
      ⟨.chr '(', "binary", .zero⟩, ⟨.identifier, "x", .zero⟩, ⟨.chr ',', "x", .zero⟩,
      ⟨.identifier, "y", .zero⟩, ⟨.chr ')', "y", .zero⟩, ⟨.identifier, "z", .zero⟩] := by
  decide +kernel

theorem reads_failingSession : failingSession.Reads failingDefinition [] := by
  refine .definition ?_ ?_
  · rw [tokens_failingSession]
    rfl
  · rw [tokens_failingSession]
    rfl

/-- `%` has its precedence afterwards, and nothing else of the definition. -/
theorem failingDefinition_throws (A : Arith) :
    ∃ b, failingDefinition.codegen A failingSession.builder =
        .error (.exception "Variable z can't be found in environment") b ∧
      b.binopPrecedence '%' = 30 := ⟨_, rfl, rfl⟩

/-- `def f(x) x def f(x) f(z)`. -/
def failingAgainInput : List UInt8 :=
  [100, 101, 102, 32, 102, 40, 120, 41, 32, 120, 32, 100, 101, 102, 32, 102, 40, 120, 41, 32, 102,
   40, 122, 41]

/-- With the JIT, a second definition of a name that has the same prototype
leaves nothing behind when it fails. -/
theorem undisturbed_iff_failingAgain :
    let A : Arith := ⟨fun a _ => a, fun a _ => a, fun a _ => a⟩
    let E : Jit := ⟨fun _ _ => true, fun _ => some []⟩
    ∃ s f left what b, Transition.runN (next A E) 1
        (.start (fun _ => .zero) true failingAgainInput) = some s ∧ s.Reads f left ∧
      f.codegen A s.builder = .error (.exception what) b ∧
      ∃ s', round A E s = .ok s' ∧ Undisturbed s s' := by
  intro A E
  have hrun : (Transition.runN (next A E) 1
      (.start (fun _ => .zero) true failingAgainInput)).any (fun s => s.read.any fun f =>
        decide (s.builder.FailsCleanly f ∧
          f.check s.builder = some (.exception "Variable z can't be found in environment"))) =
        true := by
    decide +kernel
  obtain ⟨s, hs, hread⟩ := (Option.any_eq_true _ _).mp hrun
  obtain ⟨f, hf, hrun⟩ := (Option.any_eq_true _ _).mp hread
  obtain ⟨hcleanly, hthrows⟩ := of_decide_eq_true hrun
  obtain ⟨left, hreads⟩ := exists_reads_iff.mpr hf
  have hcheck := functionCodegen_check A f s.builder
  cases hc : f.codegen A s.builder with
  | ok fn b =>
      rw [hc] at hcheck
      exact absurd (hthrows.symm.trans hcheck) nofun
  | error e b =>
      rw [hc] at hcheck
      obtain rfl := Option.some.inj (hthrows.symm.trans hcheck)
      obtain ⟨s', hs', hiff⟩ := undisturbed_iff A E hreads hc
      exact ⟨s, f, left, _, b, hs, hreads, hc, s', hs', hiff.mpr hcleanly⟩

/-- A failed definition does disturb the session. -/
theorem failed_definition_disturbs :
    ¬ ∀ (A : Arith) (E : Jit) (s s' : Session) (f : FunctionAST) (left : List Lexeme)
      (what : String) (b' : Builder), Reachable A E s → s.Reads f left →
      f.codegen A s.builder = .error (.exception what) b' → round A E s = .ok s' →
      Undisturbed s s' := by
  intro h
  let A : Arith := ⟨fun a _ => a, fun a _ => a, fun a _ => a⟩
  let E : Jit := ⟨fun _ _ => true, fun _ => some []⟩
  obtain ⟨b, hb, hprec⟩ := failingDefinition_throws A
  have hu := h A E failingSession _ _ _ _ b ⟨_, _, _, .refl _⟩ reads_failingSession hb
    (reads_failingSession.round_of_throw hb)
  have heq : b.binopPrecedence '%' = failingSession.builder.binopPrecedence '%' :=
    congrFun hu.precedence '%'
  rw [hprec] at heq
  exact absurd heq (by decide)

end LlvmPasses.Kaleido
