import LlvmPasses.Proofs.CodegenGrows
import LlvmPasses.Kaleido.WellFormed
import Mathlib.Data.List.Basic

/-!
# What holds of a function that is being built

In the middle of code generation the function is not well formed: the block
that is inserted into has no terminator, and branches have been made to blocks
that are still to be attached. What does hold is the invariant `Cert`. Blocks
that are attached and are not being inserted into are finished; terminators
name attached blocks or `pending` ones, created and still to be attached; and
each block has a set of registers that are `said` to be defined when it is
entered, which holds up along every edge and covers what the block refers to.
With nothing pending and the last block terminated it says that the function
is well formed.

The sets are carried along instead of being computed from the dominator tree.
What is said of a block is fixed when the block is attached, and an edge made
later has to honour it; so a step of code generation is checked against what
was said before and never against the paths through the function.

`Builds` is what a piece of code generation does. It keeps the invariant and
leaves alone what was there before: the edges into blocks that existed, the
`phi`s in them, and what was said of them (`Unseen`). That is what lets an `if`
put its `phi` into a block whose two incoming edges were made while other
expressions were generated in between. There is one lemma for each kind of
step: an instruction with or without a result, a block that is left by a
branch, and a new block that is attached and inserted into.
-/

namespace LlvmPasses.Kaleido

open StateError

/-- The registers said to be defined when a block is entered. -/
abbrev Said := Nat → Nat → Prop

/-- Defined at the end of a block, as far as it has been emitted. -/
def Avail (said : Said) (b : Builder) (k r : Nat) : Prop :=
  said k r ∨ r ∈ results (b.body.code k)

/-- A value that refers to arguments there are and to such registers only. -/
structure Value.Fits (params : Nat) (P : Nat → Prop) (v : Value) : Prop where
  arg : v.ArgBelow params
  uses : ∀ r ∈ v.uses, P r

/-- How many times the terminator of `p` names `k`, as far as it is emitted. -/
def Builder.edges (b : Builder) (p k : Nat) : Nat :=
  if p ∈ b.body.blocks then (targets (b.body.code p)).count k else 0

structure Cert (params : Nat) (pending : Nat → Prop) (said : Said) (b : Builder) : Prop where
  entry_mem : entryBlock ∈ b.body.blocks
  insert_mem : b.insert ∈ b.body.blocks
  blocks_lt : ∀ k ∈ b.body.blocks, k < b.nextBlock
  pending_lt : ∀ k, pending k → k < b.nextBlock ∧ k ∉ b.body.blocks
  current : ∀ i ∈ b.body.code b.insert, i.isTerminator = false
  finished : ∀ k ∈ b.body.blocks, k ≠ b.insert → ∃ init t, b.body.code k = init ++ [t] ∧
    t.isTerminator = true ∧ ∀ i ∈ init, i.isTerminator = false
  attached : ∀ k ∈ b.body.blocks, ∀ t ∈ targets (b.body.code k),
    t ∈ b.body.blocks ∨ pending t
  said_entry : ∀ r, ¬ said entryBlock r
  said_edge : ∀ k ∈ b.body.blocks, ∀ t ∈ targets (b.body.code k), ∀ r, said t r →
    Avail said b k r
  operands : ∀ k ∈ b.body.blocks, ∀ pre i post, b.body.code k = pre ++ i :: post →
    ∀ v ∈ i.operands, v.Fits params fun r => said k r ∨ r ∈ results pre
  phis : ∀ k ∈ b.body.blocks, ∀ r incoming, Instr.phi r incoming ∈ b.body.code k →
    (incoming.map Prod.snd).Nodup ∧ (∀ p, (incoming.map Prod.snd).count p = b.edges p k) ∧
      ∀ q ∈ incoming, q.1.Fits params (Avail said b q.2)
  cells : ∀ k ∈ b.body.blocks, ∀ i ∈ b.body.code k, ∀ c ∈ i.cells, c ∈ b.body.allocas
  no_alloca : ∀ k ∈ b.body.blocks, ∀ i ∈ b.body.code k, i.isAlloca = false
  named : ∀ x c, b.named x = some c → c ∈ b.body.allocas

/-- Nothing changed that a block below `n` could see: what is said of it, the
edges into it, the `phi`s it has. -/
structure Unseen (n : Nat) (said said' : Said) (b b' : Builder) : Prop where
  agree : ∀ k, k < n → said' k = said k
  edges : ∀ p k, k < n → b'.edges p k = b.edges p k
  old_phis : ∀ k r incoming, k < n → Instr.phi r incoming ∈ b'.body.code k →
    Instr.phi r incoming ∈ b.body.code k

/-- Blocks and allocas stay. -/
structure Stays (b b' : Builder) : Prop where
  blocks : ∀ k ∈ b.body.blocks, k ∈ b'.body.blocks
  allocas : ∀ c ∈ b.body.allocas, c ∈ b'.body.allocas

/-- What an expression's code does to the function being built. -/
structure Builds (params : Nat) (pending : Nat → Prop) (said said' : Said) (b b' : Builder) :
    Prop extends Grown b b', Unseen b.nextBlock said said' b b', Stays b b' where
  cert : Cert params pending said' b'
  keeps : ∀ r, Avail said b b.insert r → Avail said' b' b'.insert r

section

variable {params : Nat} {pending pending' : Nat → Prop} {said said' said'' : Said}
variable {b b' b'' : Builder} {v : Value} {i : Instr} {k : Nat}

theorem Value.Fits.imp {P Q : Nat → Prop} (h : v.Fits params P) (hpq : ∀ r, P r → Q r) :
    v.Fits params Q := ⟨h.arg, fun r hr => hpq r (h.uses r hr)⟩

theorem Value.Fits.of_constant {P : Nat → Prop} (h : v.IsConstant) : v.Fits params P := by
  cases v with
  | const | bool => exact ⟨trivial, nofun⟩
  | arg | inst => exact h.elim

theorem results_append (is js : List Instr) : results (is ++ js) = results is ++ results js :=
  List.filterMap_append

theorem targets_append (is js : List Instr) : targets (is ++ js) = targets is ++ targets js :=
  List.flatMap_append

/-- Only terminators name blocks. -/
theorem successors_eq_nil (h : i.isTerminator = false) : i.successors = [] := by
  cases i <;> first | rfl | cases h

theorem targets_eq_nil {is : List Instr} (h : ∀ i ∈ is, i.isTerminator = false) :
    targets is = [] :=
  List.flatMap_eq_nil_iff.mpr fun i hi => successors_eq_nil (h i hi)

theorem targets_singleton (h : i.isTerminator = false) : targets [i] = [] :=
  targets_eq_nil fun _ hj => List.mem_singleton.mp hj ▸ h

namespace Unseen

variable {n m : Nat}

theorem refl (n : Nat) (said : Said) (b : Builder) : Unseen n said said b b :=
  ⟨fun _ _ => rfl, fun _ _ _ => rfl, fun _ _ _ _ h => h⟩

theorem mono (h : Unseen n said said' b b') (hle : m ≤ n) : Unseen m said said' b b' :=
  ⟨fun k hk => h.agree k (Nat.lt_of_lt_of_le hk hle),
    fun p k hk => h.edges p k (Nat.lt_of_lt_of_le hk hle),
    fun k r inc hk => h.old_phis k r inc (Nat.lt_of_lt_of_le hk hle)⟩

theorem trans (h₁ : Unseen n said said' b b') (h₂ : Unseen n said' said'' b' b'') :
    Unseen n said said'' b b'' :=
  ⟨fun k hk => (h₂.agree k hk).trans (h₁.agree k hk),
    fun p k hk => (h₂.edges p k hk).trans (h₁.edges p k hk),
    fun k r inc hk hp => h₁.old_phis k r inc hk (h₂.old_phis k r inc hk hp)⟩

end Unseen

theorem Stays.refl (b : Builder) : Stays b b := ⟨fun _ h => h, fun _ h => h⟩

theorem Stays.trans (h₁ : Stays b b') (h₂ : Stays b' b'') : Stays b b'' :=
  ⟨fun k hk => h₂.blocks k (h₁.blocks k hk), fun c hc => h₂.allocas c (h₁.allocas c hc)⟩

theorem Builds.refl (h : Cert params pending said b) (hb : b.Ok) :
    Builds params pending said said b b :=
  { Grown.refl hb, Unseen.refl b.nextBlock said b, Stays.refl b with
    cert := h
    keeps := fun _ h => h }

theorem Builds.trans (h₁ : Builds params pending said said' b b')
    (h₂ : Builds params pending said' said'' b' b'') :
    Builds params pending said said'' b b'' :=
  { h₁.toGrown.trans h₂.toGrown,
    h₁.toUnseen.trans (h₂.toUnseen.mono h₁.grows.blocks),
    h₁.toStays.trans h₂.toStays with
    cert := h₂.cert
    keeps := fun r hr => h₂.keeps r (h₁.keeps r hr) }

/-- A value that can be used at one insertion point can be at the next. -/
theorem Value.Fits.keeps (h : v.Fits params (Avail said b b.insert))
    (hb : Builds params pending said said' b b') :
    v.Fits params (Avail said' b' b'.insert) := h.imp hb.keeps

/-- What is available in a block stays so. -/
theorem Builds.avail (h : Builds params pending said said' b b') {r : Nat}
    (hk : k < b.nextBlock) (hr : Avail said b k r) : Avail said' b' k r := by
  rcases hr with hr | hr
  · exact .inl (h.agree k hk ▸ hr)
  · obtain ⟨post, heq⟩ := h.grows.code k
    refine .inr ?_
    rw [← heq, results_append]
    exact List.mem_append_left _ hr

/-! ## One instruction -/

theorem mem_append {j : Instr} (h : j ∈ (b.append b.insert i).body.code k) :
    j ∈ b.body.code k ∨ (k = b.insert ∧ j = i) := by
  simp only [Builder.append] at h
  split at h
  · next hk =>
      rcases List.mem_append.mp h with h | h
      · exact .inl h
      · exact .inr ⟨hk, List.mem_singleton.mp h⟩
  · exact .inl h

theorem append_here : (b.append b.insert i).body.code b.insert = b.body.code b.insert ++ [i] :=
  if_pos rfl

theorem append_other (hk : k ≠ b.insert) :
    (b.append b.insert i).body.code k = b.body.code k := if_neg hk

theorem results_here {r : Nat} (h : i.result = some r) :
    r ∈ results ((b.append b.insert i).body.code b.insert) := by
  rw [append_here, results_append]
  exact List.mem_append_right _ (by simp [results, h])

theorem Avail.append {r : Nat} (h : Avail said b k r) : Avail said (b.append b.insert i) k r := by
  refine h.imp id fun hr => ?_
  by_cases hk : k = b.insert
  · subst hk
    rw [append_here, results_append]
    exact List.mem_append_left _ hr
  · rwa [append_other hk]

/-- Where an instruction stands in a list with one more at the end. -/
theorem append_eq_append_cons {is pre post : List Instr} {i j : Instr}
    (h : is ++ [i] = pre ++ j :: post) :
    (∃ post', is = pre ++ j :: post') ∨ (pre = is ∧ j = i) := by
  rcases List.eq_nil_or_concat post with rfl | ⟨post', l, rfl⟩
  · obtain ⟨rfl, hj⟩ := List.append_inj' h rfl
    exact .inr ⟨rfl, (List.cons.inj hj).1.symm⟩
  · rw [List.concat_eq_append, ← List.cons_append, ← List.append_assoc] at h
    exact .inl ⟨post', (List.append_inj' h rfl).1⟩

/-- An instruction that neither ends the block nor reads its predecessors. -/
structure Plain (params : Nat) (said : Said) (b : Builder) (i : Instr) : Prop where
  body : i.isTerminator = false
  alloca : i.isAlloca = false
  phi : ∀ r incoming, i ≠ .phi r incoming
  operands : ∀ v ∈ i.operands, v.Fits params (Avail said b b.insert)
  cells : ∀ c ∈ i.cells, c ∈ b.body.allocas

theorem edges_append (hi : i.isTerminator = false) (p : Nat) :
    (b.append b.insert i).edges p k = b.edges p k := by
  unfold Builder.edges
  by_cases hp : p = b.insert
  · subst hp
    rw [append_here, targets_append, targets_singleton hi,
      List.append_nil]
    rfl
  · rw [append_other hp]
    rfl

theorem Cert.append (h : Cert params pending said b) (hi : i.isTerminator = false)
    (halloca : i.isAlloca = false) (hcells : ∀ c ∈ i.cells, c ∈ b.body.allocas)
    (hops : ∀ v ∈ i.operands, v.Fits params (Avail said b b.insert))
    (hphi : ∀ r incoming, i = .phi r incoming → (incoming.map Prod.snd).Nodup ∧
      (∀ p, (incoming.map Prod.snd).count p = b.edges p b.insert) ∧
        ∀ q ∈ incoming, q.1.Fits params (Avail said b q.2)) :
    Cert params pending said (b.append b.insert i) where
  entry_mem := h.entry_mem
  insert_mem := h.insert_mem
  blocks_lt := h.blocks_lt
  pending_lt := h.pending_lt
  current := fun j hj => by
    rcases mem_append hj with hj | ⟨_, rfl⟩
    · exact h.current j hj
    · exact hi
  finished := fun k hk (hne : k ≠ b.insert) => by
    rw [append_other hne]
    exact h.finished k hk hne
  attached := fun k hk t ht => by
    by_cases hkb : k = b.insert
    · subst hkb
      rw [append_here, targets_append, targets_eq_nil h.current,
        targets_singleton hi] at ht
      cases ht
    · rw [append_other hkb] at ht
      exact h.attached k hk t ht
  said_entry := h.said_entry
  said_edge := fun k hk t ht r hr => by
    by_cases hkb : k = b.insert
    · subst hkb
      rw [append_here, targets_append, targets_eq_nil h.current,
        targets_singleton hi] at ht
      cases ht
    · rw [append_other hkb] at ht
      exact (h.said_edge k hk t ht r hr).append
  operands := fun k hk pre j post heq v hv => by
    by_cases hkb : k = b.insert
    · subst hkb
      rw [append_here] at heq
      rcases append_eq_append_cons heq with ⟨post', heq⟩ | ⟨rfl, rfl⟩
      · exact h.operands _ hk pre j post' heq v hv
      · exact hops v hv
    · rw [append_other hkb] at heq
      exact h.operands k hk pre j post heq v hv
  phis := fun k hk r inc hmem => by
    simp only [edges_append hi]
    rcases mem_append hmem with hmem | ⟨rfl, heq⟩
    · obtain ⟨hnodup, hc, hq⟩ := h.phis k hk r inc hmem
      exact ⟨hnodup, hc, fun q hqm => (hq q hqm).imp fun _ => Avail.append⟩
    · obtain ⟨hnodup, hc, hq⟩ := hphi r inc heq.symm
      exact ⟨hnodup, hc, fun q hqm => (hq q hqm).imp fun _ => Avail.append⟩
  cells := fun k hk j hj => by
    rcases mem_append hj with hj | ⟨_, rfl⟩
    · exact h.cells k hk j hj
    · exact hcells
  no_alloca := fun k hk j hj => by
    rcases mem_append hj with hj | ⟨_, rfl⟩
    · exact h.no_alloca k hk j hj
    · exact halloca
  named := h.named

theorem Builds.emit (h : Cert params pending said b) (hb : b.Ok)
    (hi : Plain params said b i) :
    Builds params pending said said b (b.append b.insert i) :=
  { ok := hb.append i
    grows := .append b i
    cert := h.append hi.body hi.alloca hi.cells hi.operands
      fun r inc heq => absurd heq (hi.phi r inc)
    agree := fun _ _ => rfl
    keeps := fun _ hr => hr.append
    edges := fun p k _ => edges_append hi.body p
    old_phis := fun k r inc _ hmem => by
      rcases mem_append hmem with hmem | ⟨_, heq⟩
      · exact hmem
      · exact absurd heq.symm (hi.phi r inc)
    blocks := fun _ h => h
    allocas := fun _ h => h }

/-- The same builder, with other registers, names or log of calls. -/
theorem Builds.of_body (h : Builds params pending said said' b b') (hbody : b''.body = b'.body)
    (hinsert : b''.insert = b'.insert) (hblock : b''.nextBlock = b'.nextBlock)
    (hinst : b'.nextInst ≤ b''.nextInst) (hmodule : b'.module.functions <+: b''.module.functions)
    (hnamed : ∀ x c, b''.named x = some c → c ∈ b'.body.allocas) :
    Builds params pending said said' b b'' := by
  obtain ⟨⟨hok, hgrows⟩, hunseen, hstays, hcert, hkeeps⟩ := h
  obtain ⟨module, protos, prec, named, body, insert, inst, block, accepted⟩ := b''
  cases hbody
  cases hinsert
  cases hblock
  exact {
    ok := { hok with }
    grows := { hgrows with
      insts := Nat.le_trans hgrows.insts hinst
      functions := hgrows.functions.trans hmodule }
    agree := hunseen.agree
    edges := hunseen.edges
    old_phis := hunseen.old_phis
    blocks := hstays.blocks
    allocas := hstays.allocas
    cert := { hcert with named := hnamed }
    keeps := hkeeps }

/-- The result of an operation is available once it is emitted. -/
theorem Builds.result {i : Nat → Instr} (h : Result i b v b')
    (hc : Cert params pending said b) (hb : b.Ok) (hi : Plain params said b (i b.nextInst))
    (hres : (i b.nextInst).result = some b.nextInst) :
    Builds params pending said said b b' ∧ v.Fits params (Avail said b' b'.insert) := by
  cases h with
  | folded hv => exact ⟨.refl hc hb, .of_constant hv⟩
  | emitted =>
      refine ⟨(Builds.emit hc hb hi).of_body rfl rfl rfl (Nat.le_succ _) List.prefix_rfl
        hc.named, trivial, fun r hr => .inr ?_⟩
      obtain rfl := List.mem_singleton.mp hr
      exact results_here hres

/-- An alloca at the front of the entry block. -/
theorem Builds.alloca (h : Cert params pending said b) (hb : b.Ok) :
    Builds params pending said said b b.newAlloca :=
  { ok := hb.newAlloca
    grows := .newAlloca b
    cert := { h with
      cells := fun k hk i hi c hc => List.mem_cons_of_mem _ (h.cells k hk i hi c hc)
      named := fun x c hc => List.mem_cons_of_mem _ (h.named x c hc) }
    agree := fun _ _ => rfl
    keeps := fun _ hr => hr
    edges := fun _ _ _ => rfl
    old_phis := fun _ _ _ _ hp => hp
    blocks := fun _ h => h
    allocas := fun _ hc => List.mem_cons_of_mem _ hc }

/-! ## Leaving a block -/

/-- The insertion point leaves the current block by a terminator, for a block
nothing is in yet. -/
structure Leaves (params : Nat) (pending pending' : Nat → Prop) (said said' : Said)
    (b b' : Builder) (i : Instr) (next : Nat) : Prop where
  eq : b' = { b with
    insert := next
    nextBlock := b'.nextBlock
    body := { b.body with
      blocks := b.body.blocks ++ [next]
      code := fun j => if j = b.insert then b.body.code j ++ [i] else b.body.code j } }
  blocks : b.nextBlock ≤ b'.nextBlock
  terminator : i.isTerminator = true
  operands : ∀ v ∈ i.operands, v.Fits params (Avail said b b.insert)
  next_lt : next < b'.nextBlock
  next_new : next ∉ b.body.blocks
  next_empty : b.body.code next = []
  agree : ∀ k, k < b.nextBlock → said' k = said k
  target : ∀ t ∈ i.successors, (t ∈ b.body.blocks ∨ t = next ∨ pending' t) ∧
    (∀ r, said' t r → Avail said b b.insert r) ∧
    (t ∈ b.body.blocks → ∀ r incoming, Instr.phi r incoming ∉ b.body.code t)
  pending_sub : ∀ k, pending k → pending' k ∨ k = next
  pending_lt : ∀ k, pending' k → k < b'.nextBlock ∧ k ∉ b.body.blocks ∧ k ≠ next

theorem terminator_facts (h : i.isTerminator = true) :
    i.result = none ∧ i.cells = [] ∧ i.isAlloca = false ∧ ∀ r inc, i ≠ .phi r inc := by
  cases i <;> first
    | exact ⟨rfl, rfl, rfl, fun _ _ heq => nomatch heq⟩
    | cases h

section Leaving

variable {next : Nat}

theorem Leaves.insert (h : Leaves params pending pending' said said' b b' i next) :
    b'.insert = next := by rw [h.eq]

theorem Leaves.mem_blocks (h : Leaves params pending pending' said said' b b' i next) :
    k ∈ b'.body.blocks ↔ k ∈ b.body.blocks ∨ k = next := by
  rw [h.eq]
  simp

theorem Leaves.code (h : Leaves params pending pending' said said' b b' i next) :
    b'.body.code = (b.append b.insert i).body.code := by
  rw [h.eq]
  rfl

theorem Leaves.edges (h : Leaves params pending pending' said said' b b' i next)
    (hc : Cert params pending said b) (p : Nat) :
    b'.edges p k = b.edges p k + if p = b.insert then i.successors.count k else 0 := by
  have hne : next ≠ b.insert := fun heq => h.next_new (heq ▸ hc.insert_mem)
  unfold Builder.edges
  rw [h.code]
  by_cases hp : p = b.insert
  · subst hp
    simp only [if_pos (h.mem_blocks.mpr (.inl hc.insert_mem)), if_pos hc.insert_mem, if_true,
      append_here, targets_append, List.count_append]
    simp [targets]
  · rw [append_other hp, if_neg hp, Nat.add_zero]
    by_cases hn : p = next
    · subst hn
      simp [h.mem_blocks, h.next_new, h.next_empty, targets]
    · simp [h.mem_blocks, hn]

theorem Leaves.avail (h : Leaves params pending pending' said said' b b' i next) {r : Nat}
    (hk : k < b.nextBlock) : Avail said' b' k r ↔ Avail said b k r := by
  have hres : results (b'.body.code k) = results (b.body.code k) := by
    rw [h.code]
    by_cases hkb : k = b.insert
    · subst hkb
      rw [append_here, results_append]
      simp [results, (terminator_facts h.terminator).1]
    · rw [append_other hkb]
  unfold Avail
  rw [h.agree k hk, hres]

theorem Leaves.cert (h : Leaves params pending pending' said said' b b' i next)
    (hc : Cert params pending said b) (hb : b.Ok) : Cert params pending' said' b' := by
  have hlt := hb.insert_lt
  obtain ⟨-, hcells, halloca, hphi⟩ := terminator_facts h.terminator
  have hne : next ≠ b.insert := fun heq => h.next_new (heq ▸ hc.insert_mem)
  have hnext : b'.body.code next = [] := by rw [h.code, append_other hne, h.next_empty]
  exact {
    entry_mem := h.mem_blocks.mpr (.inl hc.entry_mem)
    insert_mem := h.mem_blocks.mpr (.inr h.insert)
    blocks_lt := fun k hk => by
      rcases h.mem_blocks.mp hk with hk | rfl
      · exact Nat.lt_of_lt_of_le (hc.blocks_lt k hk) h.blocks
      · exact h.next_lt
    pending_lt := fun k hk => by
      obtain ⟨hlt, hnot, hkn⟩ := h.pending_lt k hk
      exact ⟨hlt, fun hmem => (h.mem_blocks.mp hmem).elim hnot hkn⟩
    current := fun j hj => by rw [h.insert, hnext] at hj; cases hj
    finished := fun k hk hkn => by
      rw [h.insert] at hkn
      have hk := (h.mem_blocks.mp hk).resolve_right hkn
      rw [h.code]
      by_cases hkb : k = b.insert
      · subst hkb
        exact ⟨b.body.code b.insert, i, append_here, h.terminator, hc.current⟩
      · rw [append_other hkb]
        exact hc.finished k hk hkb
    attached := fun k hk t ht => by
      rcases h.mem_blocks.mp hk with hk | rfl
      · rw [h.code] at ht
        by_cases hkb : k = b.insert
        · subst hkb
          rw [append_here, targets_append, targets_eq_nil hc.current] at ht
          have ht : t ∈ i.successors := by simpa [targets] using ht
          rcases (h.target t ht).1 with hm | hm | hm
          · exact .inl (h.mem_blocks.mpr (.inl hm))
          · exact .inl (h.mem_blocks.mpr (.inr hm))
          · exact .inr hm
        · rw [append_other hkb] at ht
          rcases hc.attached k hk t ht with hm | hm
          · exact .inl (h.mem_blocks.mpr (.inl hm))
          · rcases h.pending_sub t hm with hm | hm
            · exact .inr hm
            · exact .inl (h.mem_blocks.mpr (.inr hm))
      · rw [hnext] at ht
        cases ht
    said_entry := fun r hr => hc.said_entry r
      (h.agree entryBlock (hc.blocks_lt _ hc.entry_mem) ▸ hr)
    said_edge := fun k hk t ht r hr => by
      rcases h.mem_blocks.mp hk with hk | rfl
      · rw [h.code] at ht
        refine (h.avail (hc.blocks_lt k hk)).mpr ?_
        by_cases hkb : k = b.insert
        · subst hkb
          rw [append_here, targets_append, targets_eq_nil hc.current] at ht
          have ht : t ∈ i.successors := by simpa [targets] using ht
          exact (h.target t ht).2.1 r hr
        · rw [append_other hkb] at ht
          have htlt : t < b.nextBlock := by
            rcases hc.attached k hk t ht with hm | hm
            · exact hc.blocks_lt t hm
            · exact (hc.pending_lt t hm).1
          rw [h.agree t htlt] at hr
          exact hc.said_edge k hk t ht r hr
      · rw [hnext] at ht
        cases ht
    operands := fun k hk pre j post heq v hv => by
      rcases h.mem_blocks.mp hk with hk | rfl
      · rw [h.agree k (hc.blocks_lt k hk)]
        rw [h.code] at heq
        by_cases hkb : k = b.insert
        · subst hkb
          rw [append_here] at heq
          rcases append_eq_append_cons heq with ⟨post', heq⟩ | ⟨rfl, rfl⟩
          · exact hc.operands _ hk pre j post' heq v hv
          · exact h.operands v hv
        · rw [append_other hkb] at heq
          exact hc.operands k hk pre j post heq v hv
      · rw [hnext] at heq
        cases pre <;> cases heq
    phis := fun k hk r inc hmem => by
      rcases h.mem_blocks.mp hk with hk | rfl
      · rw [h.code] at hmem
        have hmem : Instr.phi r inc ∈ b.body.code k := by
          rcases mem_append hmem with hmem | ⟨_, heq⟩
          · exact hmem
          · exact absurd heq.symm (hphi r inc)
        obtain ⟨hnodup, hcount, hfits⟩ := hc.phis k hk r inc hmem
        refine ⟨hnodup, fun p => ?_, fun q hq => ?_⟩
        · -- a block with a `phi` is not one the terminator names
          have hnot : k ∉ i.successors := fun hs => (h.target k hs).2.2 hk r inc hmem
          rw [h.edges hc, hcount p]
          simp [List.count_eq_zero_of_not_mem hnot]
        · have hqlt : q.2 < b.nextBlock := by
            have hpos : 0 < (inc.map Prod.snd).count q.2 :=
              List.count_pos_iff.mpr (List.mem_map_of_mem hq)
            rw [hcount] at hpos
            unfold Builder.edges at hpos
            split at hpos
            · next hm => exact hc.blocks_lt _ hm
            · cases hpos
          exact (hfits q hq).imp fun r hr => (h.avail hqlt).mpr hr
      · rw [hnext] at hmem
        cases hmem
    cells := fun k hk j hj => by
      have hall : b'.body.allocas = b.body.allocas := by rw [h.eq]
      rcases h.mem_blocks.mp hk with hk | rfl
      · rw [h.code] at hj
        rcases mem_append hj with hj | ⟨_, rfl⟩
        · rw [hall]
          exact hc.cells k hk j hj
        · rw [hcells]
          nofun
      · rw [hnext] at hj
        cases hj
    no_alloca := fun k hk j hj => by
      rcases h.mem_blocks.mp hk with hk | rfl
      · rw [h.code] at hj
        rcases mem_append hj with hj | ⟨_, rfl⟩
        · exact hc.no_alloca k hk j hj
        · exact halloca
      · rw [hnext] at hj
        cases hj
    named := fun x c hx => by
      rw [h.eq] at hx ⊢
      exact hc.named x c hx }

theorem Leaves.unseen (h : Leaves params pending pending' said said' b b' i next)
    (hc : Cert params pending said b) {n : Nat} (hn : n ≤ b.nextBlock)
    (hsucc : ∀ k, k < n → i.successors.count k = 0) : Unseen n said said' b b' where
  agree := fun k hk => h.agree k (Nat.lt_of_lt_of_le hk hn)
  edges := fun p k hk => by simp [h.edges hc, hsucc k hk]
  old_phis := fun k r inc _ hmem => by
    rw [h.code] at hmem
    rcases mem_append hmem with hmem | ⟨_, heq⟩
    · exact hmem
    · exact absurd heq.symm ((terminator_facts h.terminator).2.2.2 r inc)

theorem Leaves.stays (h : Leaves params pending pending' said said' b b' i next) :
    Stays b b' where
  blocks := fun k hk => h.mem_blocks.mpr (.inl hk)
  allocas := fun c hc => by
    rw [h.eq]
    exact hc

/-- Blocks created from `n` on are said to have what is available here. -/
def saidFrom (said : Said) (b : Builder) (n : Nat) : Said := fun k r =>
  if n ≤ k then Avail said b b.insert r else said k r

theorem saidFrom_below {n : Nat} (hk : k < n) : saidFrom said b n k = said k := by
  funext r
  exact if_neg (Nat.not_le_of_lt hk)

theorem saidFrom_ge (said : Said) {n : Nat} (hk : n ≤ k) :
    saidFrom said b n k = Avail said b b.insert := by
  funext r
  exact if_pos hk

/-- No terminator names a block that does not exist. -/
theorem Cert.edges_fresh (h : Cert params pending said b) (hk : b.nextBlock ≤ k) (p : Nat) :
    b.edges p k = 0 := by
  unfold Builder.edges
  split
  · next hp =>
      refine List.count_eq_zero_of_not_mem fun hmem => ?_
      rcases h.attached p hp k hmem with hm | hm
      · exact absurd (h.blocks_lt k hm) (Nat.not_lt_of_le hk)
      · exact absurd (h.pending_lt k hm).1 (Nat.not_lt_of_le hk)
  · rfl

end Leaving

end

end LlvmPasses.Kaleido
