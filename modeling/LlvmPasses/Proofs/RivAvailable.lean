import Mathlib.Data.List.Perm.Subperm
import LlvmPasses.Ir.WellFormed
import LlvmPasses.Pass.RIV

/-!
# What RIV reports is available

The worklist takes every reachable block once, after its parent in the
dominator tree, so a block's set is complete when it is taken: the values of
the entry and whatever the block's strict dominators define. A block that is
dominated comes after its dominator, and so after what the dominator defines,
unless that is the result of the dominator's own terminator. An `invoke` has
its result on the normal edge only, while the tree knows nothing of edges.

`available_iff` is about every function and every tree that describes its
dominators. What is reported for a block is there whenever control comes to it,
exactly if no `invoke` with an integer result dominates its own unwind
destination (`Unwinds`). The walk of control is the one of `Lib.Flow`, with the
edge by which a block was left. From left to right the walk along the unwind
edge is the counterexample, and one has to see that it is possible
(`unwind_dominated`).

The analysis itself is followed with an invariant between two rounds of its
loop (`Progress`). There is fuel for one round for each reachable block, and
none is taken twice as each has one parent. From the invariant at the end come
`run_sound` and `run_complete`: what is reported comes from the entry or a
strict dominator, and what these define is reported. `RivExact` makes an
equation of it.
-/

namespace LlvmPasses.RIV

open Ir Ir.Function LlvmPasses.Flow

/-- The tree is the dominator tree of the function: its nodes are the blocks
that can be reached, each but the root under its immediate dominator. -/
structure DomTree.Describes (T : DomTree) (F : Function) : Prop where
  root : T.root = F.entry
  child : ∀ a, ∀ b ∈ T.children a, F.Reachable b ∧
    ImmediatelyDominates F.entry (Edge F.successors) a b
  parent : ∀ b, F.Reachable b → b ≠ F.entry → ∃ a, b ∈ T.children a
  nodup : ∀ a, (T.children a).Nodup

/-- The definition of a value has been executed on the walk: the block has
been left, and if the value is the result of an `invoke`, along the edge on
which it has one. -/
def Executed (F : Function) (w : List (Nat × Nat)) : Value → Prop
  | .inst id => ∃ p ∈ w, (∃ i ∈ (F.block p.1).instrs, i.id = id) ∨
      ((F.block p.1).term.id = id ∧ ((F.block p.1).term.op = .invoke → p.2 = 0))
  | _ => True

/-- What is reported for a block is there whenever control comes to it. -/
def Available (F : Function) (r : Result) : Prop :=
  ∀ k, F.Reachable k → ∀ v ∈ r k, ∀ w, F.Walk w k → Executed F w v

/-- No `invoke` with an integer result stands in a block that every way to its
unwind destination passes. -/
def Unwinds (F : Function) : Prop :=
  ∀ k, F.Reachable k → (F.block k).term.op = .invoke → (F.block k).term.ty.isIntegerTy = true →
    ∀ u, (F.successors k)[1]? = some u → ¬ F.StrictlyDominates k u

section

variable {T : DomTree} {F : Function} {globals : List Nat} {r : Result} {v : Value}
variable {j k a b : Nat} {vs defs rivs : List Value} {popped worklist : List Nat}

/-! ## Sets -/

theorem mem_insert : v ∈ r.insert k vs j ↔ v ∈ r j ∨ (j = k ∧ v ∈ vs) := by
  unfold Result.insert
  by_cases h : j = k
  · rw [if_pos h, List.mem_append, List.mem_filter]
    by_cases hv : v ∈ r j
    · simp [hv]
    · simp [h, h ▸ hv]
  · simp [h]

/-- The loop over the children of a node. -/
theorem mem_insertAll {children : List Nat} :
    v ∈ (children.foldl (fun result child => (result.insert child defs).insert child rivs) r) j ↔
      v ∈ r j ∨ (j ∈ children ∧ (v ∈ defs ∨ v ∈ rivs)) := by
  induction children generalizing r with
  | nil => simp
  | cons c children ih =>
      rw [List.foldl_cons, ih, mem_insert, mem_insert, List.mem_cons]
      constructor
      · rintro (((h | ⟨rfl, h⟩) | ⟨rfl, h⟩) | ⟨hj, h⟩)
        · exact .inl h
        · exact .inr ⟨.inl rfl, .inl h⟩
        · exact .inr ⟨.inl rfl, .inr h⟩
        · exact .inr ⟨.inr hj, h⟩
      · rintro (h | ⟨rfl | hj, h⟩)
        · exact .inl (.inl (.inl h))
        · rcases h with h | h
          · exact .inl (.inl (.inr ⟨rfl, h⟩))
          · exact .inl (.inr ⟨rfl, h⟩)
        · exact .inr ⟨hj, h⟩

/-- An integer value that the block defines. -/
theorem mem_definedValues : v ∈ definedValues F k ↔
    ∃ d ∈ (F.block k).defs, d.2.isIntegerTy = true ∧ v = .inst d.1 := by
  simp only [definedValues, List.mem_map, List.mem_filter]
  constructor
  · rintro ⟨d, ⟨hd, hty⟩, rfl⟩
    exact ⟨d, hd, hty, rfl⟩
  · rintro ⟨d, hd, hty, rfl⟩
    exact ⟨d, ⟨hd, hty⟩, rfl⟩

/-! ## The worklist -/

/-- Between two rounds of the loop. Every block that has been taken has its
children in one of the lists, and every block that is or was on the worklist
has all that its strict dominators define. -/
structure Progress (T : DomTree) (F : Function) (globals : List Nat) (popped worklist : List Nat)
    (r : Result) : Prop where
  nodup : (popped ++ worklist).Nodup
  reachable : ∀ j ∈ popped ++ worklist, F.Reachable j
  entry : F.entry ∈ popped ++ worklist
  children : ∀ a ∈ popped, ∀ b ∈ T.children a, b ∈ popped ++ worklist
  parent : ∀ b ∈ popped ++ worklist, b = F.entry ∨ ∃ a ∈ popped, b ∈ T.children a
  sound : ∀ j, ∀ v ∈ r j, v ∈ entryValues F globals ∨
    ∃ a, F.StrictlyDominates a j ∧ v ∈ definedValues F a
  complete : ∀ j ∈ popped ++ worklist, ∀ a, F.StrictlyDominates a j →
    ∀ v ∈ definedValues F a, v ∈ r j

theorem progress_start (hT : T.Describes F) :
    Progress T F globals [] [T.root] (Result.insert (fun _ => []) F.entry
      (entryValues F globals)) where
  nodup := List.nodup_singleton _
  reachable := by
    intro j hj
    rw [List.nil_append, List.mem_singleton] at hj
    rw [hj, hT.root]
    exact ⟨[], .start⟩
  entry := by simp [hT.root]
  children := nofun
  parent := by
    intro b hb
    rw [List.nil_append, List.mem_singleton] at hb
    exact .inl (hb.trans hT.root)
  sound := by
    intro j v hv
    rcases mem_insert.mp hv with hv | ⟨-, hv⟩
    · cases hv
    · exact .inl hv
  complete := by
    intro j hj a ha
    rw [List.nil_append, List.mem_singleton] at hj
    rw [hj, hT.root] at ha
    exact absurd ha not_strictlyDominates_entry

/-- A child of the block that is taken is new. -/
theorem Progress.child_new (h : Progress T F globals popped (k :: worklist) r)
    (hT : T.Describes F) (hb : b ∈ T.children k) : b ∉ popped ++ k :: worklist := by
  intro hmem
  obtain ⟨hreach, hk⟩ := hT.child k b hb
  rcases h.parent b hmem with rfl | ⟨a, ha, hba⟩
  · exact not_strictlyDominates_entry hk.strict
  · obtain rfl : a = k := (hT.child a b hba).2.unique hk hreach
    exact List.disjoint_of_nodup_append h.nodup ha (List.mem_cons_self ..)

/-- The blocks that are or were on the worklist, after a round. -/
theorem mem_taken : j ∈ popped ++ [k] ++ ((T.children k).reverse ++ worklist) ↔
    j ∈ popped ++ k :: worklist ∨ j ∈ T.children k := by
  simp only [List.mem_append, List.mem_cons, List.mem_reverse, List.not_mem_nil, or_false]
  tauto

theorem Progress.step (h : Progress T F globals popped (k :: worklist) r) (hT : T.Describes F) :
    Progress T F globals (popped ++ [k]) ((T.children k).reverse ++ worklist)
      ((T.children k).foldl (fun result child =>
        (result.insert child (definedValues F k)).insert child (r k)) r) := by
  have hk : k ∈ popped ++ k :: worklist := List.mem_append_right _ (List.mem_cons_self ..)
  have hmem : ∀ j, j ∈ popped ++ [k] ++ ((T.children k).reverse ++ worklist) ↔
      j ∈ popped ++ k :: worklist ∨ j ∈ T.children k := fun _ => mem_taken
  refine ⟨?_, fun j hj => ?_, ?_, fun a ha b hb => ?_, fun b hb => ?_, fun j v hv => ?_,
    fun j hj a ha v hv => ?_⟩
  · have hperm : (popped ++ [k] ++ ((T.children k).reverse ++ worklist)).Perm
        (T.children k ++ (popped ++ k :: worklist)) := by
      refine (((List.reverse_perm _).append_right worklist).append_left _).trans ?_
      refine (List.perm_append_comm_assoc _ _ _).trans ?_
      rw [List.append_assoc, List.singleton_append]
    rw [hperm.nodup_iff, List.nodup_append]
    refine ⟨hT.nodup k, h.nodup, ?_⟩
    rintro b hb c hc rfl
    exact h.child_new hT hb hc
  · rcases (hmem j).mp hj with hj | hj
    · exact h.reachable j hj
    · exact (hT.child k j hj).1
  · exact (hmem _).mpr (.inl h.entry)
  · rw [hmem]
    rcases List.mem_append.mp ha with ha | ha
    · exact .inl (h.children a ha b hb)
    · exact .inr (List.mem_singleton.mp ha ▸ hb)
  · rcases (hmem b).mp hb with hb | hb
    · rcases h.parent b hb with heq | ⟨a, ha, hba⟩
      · exact .inl heq
      · exact .inr ⟨a, List.mem_append_left _ ha, hba⟩
    · exact .inr ⟨k, List.mem_append_right _ (List.mem_singleton_self _), hb⟩
  · rcases mem_insertAll.mp hv with hv | ⟨hj, hv | hv⟩
    · exact h.sound j v hv
    · exact .inr ⟨k, (hT.child k j hj).2.strict, hv⟩
    · rcases h.sound k v hv with hv | ⟨a, ha, hv⟩
      · exact .inl hv
      · exact .inr ⟨a, ha.trans (hT.child k j hj).2.strict, hv⟩
  · rw [mem_insertAll]
    rcases (hmem j).mp hj with hj | hj
    · exact .inl (h.complete j hj a ha v hv)
    · refine .inr ⟨hj, ?_⟩
      -- the other strict dominators of a child are those of its parent
      rcases (hT.child k j hj).2.nearest a ha with rfl | ha
      · exact .inl hv
      · exact .inr (h.complete k hk a ha v hv)

/-- There is fuel for every reachable block, and what every round keeps holds at
the end. -/
theorem Progress.propagate_keeps {Q : List Nat → List Nat → Result → Prop} (hF : F.WellFormed)
    (hT : T.Describes F)
    (hstep : ∀ popped k worklist r, Progress T F globals popped (k :: worklist) r →
      Q popped (k :: worklist) r → Q (popped ++ [k]) ((T.children k).reverse ++ worklist)
        ((T.children k).foldl (fun result child =>
          (result.insert child (definedValues F k)).insert child (r k)) r))
    {n : Nat} (h : Progress T F globals popped worklist r)
    (hn : F.order.length ≤ popped.length + n) (hQ : Q popped worklist r) :
    ∃ popped', Progress T F globals popped' [] (propagate T F n worklist r) ∧
      Q popped' [] (propagate T F n worklist r) := by
  induction n generalizing popped worklist r with
  | zero =>
      have hsub : popped ++ worklist ⊆ F.order := fun j hj =>
        hF.mem_of_reachable (h.reachable j hj)
      have hlen := (List.subperm_of_subset h.nodup hsub).length_le
      rw [List.length_append] at hlen
      obtain rfl : worklist = [] := List.eq_nil_of_length_eq_zero (by omega)
      exact ⟨popped, h, hQ⟩
  | succ n ih =>
      cases worklist with
      | nil => exact ⟨popped, h, hQ⟩
      | cons k worklist =>
          refine ih (h.step hT) ?_ (hstep popped k worklist r h hQ)
          rw [List.length_append, List.length_singleton]
          omega

theorem Progress.propagate (hF : F.WellFormed) (hT : T.Describes F) {n : Nat}
    (h : Progress T F globals popped worklist r) (hn : F.order.length ≤ popped.length + n) :
    ∃ popped', Progress T F globals popped' [] (propagate T F n worklist r) := by
  obtain ⟨popped', hpopped, -⟩ := h.propagate_keeps (Q := fun _ _ _ => True) hF hT
    (fun _ _ _ _ _ _ => trivial) hn trivial
  exact ⟨popped', hpopped⟩

/-- When nothing is left every reachable block has been taken. -/
theorem Progress.all (h : Progress T F globals popped [] r) (hT : T.Describes F)
    (hj : F.Reachable j) : j ∈ popped := by
  obtain ⟨p, hp⟩ := hj
  induction hn : p.length using Nat.strongRecOn generalizing p j with
  | ind n ih =>
      by_cases hentry : j = F.entry
      · rw [hentry, ← List.append_nil popped]
        exact h.entry
      · obtain ⟨a, ha⟩ := hT.parent j ⟨p, hp⟩ hentry
        obtain ⟨p₁, p₂, rfl, hp₁, -⟩ := hp.upto ((hT.child a j ha).2.strict p hp)
        rw [List.length_append, List.length_cons] at hn
        have hmem := h.children a (ih p₁.length (by omega) p₁ hp₁ rfl) j ha
        rwa [List.append_nil] at hmem

/-- What the analysis reports comes from the entry or a strict dominator. -/
theorem run_sound (hF : F.WellFormed) (hT : T.Describes F) (hv : v ∈ run T F globals k) :
    v ∈ entryValues F globals ∨ ∃ a, F.StrictlyDominates a k ∧ v ∈ definedValues F a := by
  obtain ⟨popped, h⟩ := (progress_start hT).propagate hF hT (Nat.le_add_left F.order.length _)
  exact h.sound k v hv

/-- Everything that a strict dominator defines is reported. -/
theorem run_complete (hF : F.WellFormed) (hT : T.Describes F) (hk : F.Reachable k)
    (ha : F.StrictlyDominates a k) (hv : v ∈ definedValues F a) : v ∈ run T F globals k := by
  obtain ⟨popped, h⟩ := (progress_start hT).propagate hF hT (Nat.le_add_left F.order.length _)
  exact h.complete k (List.mem_append_left _ (h.all hT hk)) a ha v hv

/-! ## Availability -/

theorem executed_entry (hv : v ∈ entryValues F globals) (w : List (Nat × Nat)) :
    Executed F w v := by
  rcases List.mem_append.mp hv with hv | hv
  · obtain ⟨g, -, rfl⟩ := List.mem_map.mp (List.mem_filter.mp hv).1
    trivial
  · obtain ⟨i, -, rfl⟩ := List.mem_map.mp (List.mem_filter.mp hv).1
    trivial

theorem length_successors_invoke {t : Instr TermOp} (h : t.op = .invoke) :
    t.successors.length ≤ 2 := by
  unfold Instr.successors
  refine Nat.le_trans (List.length_filterMap_le _ _) ?_
  unfold Instr.successorOperands
  simp only [h, List.length_drop]
  omega

/-- A walk that leaves a block always for the unwind destination shows that the
destination is below it if the end of the walk is. -/
theorem unwind_dominated {w : List (Nat × Nat)} (hw : F.Walk w k) (ha : F.StrictlyDominates a k)
    (hleave : ∀ p ∈ w, p.1 = a → p.2 = 1) :
    ∃ u, (F.successors a)[1]? = some u ∧ F.StrictlyDominates a u := by
  obtain ⟨w₁, j, w₂, rfl, hlast⟩ := last_left (ha _ hw.path)
  obtain ⟨u, hu, hgraft⟩ := hw.graft rfl
  obtain rfl : j = 1 := hleave (a, j) (by simp) rfl
  refine ⟨u, hu, fun p hp => ?_⟩
  obtain ⟨w', hw', rfl⟩ := hp.walk
  have hmem := ha _ (hgraft w' hw').path
  rw [List.map_append] at hmem
  exact (List.mem_append.mp hmem).resolve_right hlast

/-- What is reported is available exactly if no `invoke` dominates its own
unwind destination. -/
theorem available_iff (hF : F.WellFormed) (hT : T.Describes F) :
    Available F (run T F globals) ↔ Unwinds F := by
  constructor
  · intro h k hk hop hty u hu hdom
    obtain ⟨p, hp, hnot⟩ := hk.first
    obtain ⟨w, hw, rfl⟩ := hp.walk
    have hwalk : F.Walk (w ++ [(k, 1)]) u := hw.snoc hu
    have hv : .inst (F.block k).term.id ∈ run T F globals u :=
      run_complete hF hT ⟨_, hwalk.path⟩ hdom
        (mem_definedValues.mpr ⟨((F.block k).term.id, (F.block k).term.ty), by simp [Block.defs],
          hty, rfl⟩)
    obtain ⟨q, hq, hexec⟩ := h u ⟨_, hwalk.path⟩ _ hv _ hwalk
    have hkmem := hF.mem_of_reachable hk
    have hqk : q.1 = k := by
      have hqmem : q.1 ∈ F.order :=
        hF.mem_of_reachable (hwalk.path.reachable_of_mem (List.mem_map_of_mem hq))
      refine hF.block_unique hqmem hkmem (mem_ids.mpr ?_) (mem_ids.mpr (.inr rfl))
      exact hexec.imp id And.left
    rw [hqk] at hexec
    rcases List.mem_append.mp hq with hq | hq
    · exact hnot (hqk ▸ List.mem_map_of_mem hq)
    · obtain rfl := List.mem_singleton.mp hq
      rcases hexec with ⟨i, hi, hid⟩ | ⟨-, hedge⟩
      · exact absurd hid (hF.id_ne_term hkmem hi)
      · exact absurd (hedge hop) Nat.one_ne_zero
  · intro h k hk v hv w hw
    rcases run_sound hF hT hv with hv | ⟨a, ha, hv⟩
    · exact executed_entry hv w
    obtain ⟨d, hd, hty, rfl⟩ := mem_definedValues.mp hv
    obtain ⟨w₁, j, w₂, hsplit, -⟩ := last_left (ha _ hw.path)
    have hleft : (a, j) ∈ w := by simp [hsplit]
    rcases List.mem_append.mp hd with hd | hd
    · obtain ⟨i, hi, rfl⟩ := List.mem_map.mp hd
      exact ⟨(a, j), hleft, .inl ⟨i, hi, rfl⟩⟩
    obtain rfl := List.mem_singleton.mp hd
    by_cases hop : (F.block a).term.op = .invoke
    · by_cases hnormal : (a, 0) ∈ w
      · exact ⟨(a, 0), hnormal, .inr ⟨rfl, fun _ => rfl⟩⟩
      · exfalso
        obtain ⟨u, hu, hdom⟩ := unwind_dominated hw ha fun p hp hpa => by
          obtain ⟨b, m⟩ := p
          obtain rfl : b = a := hpa
          obtain ⟨c, hc⟩ := hw.left hp
          have hlt := (List.getElem?_eq_some_iff.mp hc).1
          have hlen := length_successors_invoke hop
          have hne : m ≠ 0 := fun hm => hnormal (hm ▸ hp)
          show m = 1
          have : m < 2 := Nat.lt_of_lt_of_le hlt hlen
          omega
        exact h a (ha.reachable hk) hop hty u hu hdom
    · exact ⟨(a, j), hleft, .inr ⟨rfl, fun hinvoke => absurd hinvoke hop⟩⟩

end

/-! ### An `invoke` that throws -/

/-- `0: %1 = invoke i32 @g() to label %1 unwind label %2`. -/
def invoking : Function where
  params := []
  retTy := .void
  order := [0, 1, 2]
  block := fun k => match k with
    | 0 => ⟨[], ⟨1, .int 32, .invoke, [.block 1, .block 2, .global 0], [], {}⟩⟩
    | 1 => ⟨[], ⟨2, .void, .ret, [], [], {}⟩⟩
    | _ => ⟨[⟨3, .ptr, .landingpad true, [], [], {}⟩], ⟨4, .void, .resume, [.inst 3], [], {}⟩⟩
  nextBlock := 3
  nextInst := 5

def invokingTree : DomTree := ⟨0, fun k => if k = 0 then [1, 2] else []⟩

theorem wellFormed_invoking : invoking.WellFormed where
  nonempty := by decide
  nodup := by decide
  ids_nodup := by decide
  operands := by decide
  successors := by decide
  terminators := by decide
  debug := by decide
  phis := by decide
  incoming := by decide

theorem walk_invoking {j k : Nat} (h : (invoking.successors 0)[j]? = some k) :
    invoking.Walk [(0, j)] k :=
  Walk.snoc .start h

theorem describes_invoking : invokingTree.Describes invoking where
  root := rfl
  child := by
    have hchild : ∀ j k : Nat, (invoking.successors 0)[j]? = some k → k ≠ 0 → invoking.Reachable k ∧
        ImmediatelyDominates invoking.entry (Edge invoking.successors) 0 k := by
      intro j k hk hne
      refine ⟨⟨_, (walk_invoking hk).path⟩, fun p hp => hp.entry_mem hne, fun c hc => .inl ?_⟩
      simpa using hc _ (walk_invoking hk).path
    intro a b hb
    by_cases ha : a = 0
    · subst ha
      have hb : b ∈ [1, 2] := hb
      simp only [List.mem_cons, List.not_mem_nil, or_false] at hb
      rcases hb with rfl | rfl
      · exact hchild 0 1 rfl (by decide)
      · exact hchild 1 2 rfl (by decide)
    · have hb : b ∈ if a = 0 then [1, 2] else [] := hb
      rw [if_neg ha] at hb
      cases hb
  parent := by
    intro b hb hne
    refine ⟨0, ?_⟩
    have hmem := wellFormed_invoking.mem_of_reachable hb
    have hne : b ≠ 0 := hne
    have hmem : b ∈ [0, 1, 2] := hmem
    simpa [invokingTree, hne] using hmem
  nodup := by
    intro a
    show (if a = 0 then [1, 2] else []).Nodup
    split <;> decide

theorem available_iff_invoking : Available invoking (run invokingTree invoking []) ↔
    Unwinds invoking :=
  available_iff wellFormed_invoking describes_invoking

/-- The result of the `invoke` is reported at its landing pad. -/
theorem unavailable_reported :
    ¬ ∀ (F : Function) (T : DomTree) (globals : List Nat), F.WellFormed → T.Describes F →
      Available F (run T F globals) := by
  intro h
  have hv : .inst 1 ∈ run invokingTree invoking [] 2 := by decide
  have hwalk := walk_invoking (j := 1) (k := 2) rfl
  obtain ⟨p, hp, hexec⟩ := h invoking invokingTree [] wellFormed_invoking describes_invoking 2
    ⟨_, hwalk.path⟩ _ hv _ hwalk
  obtain rfl := List.mem_singleton.mp hp
  rcases hexec with ⟨i, hi, -⟩ | ⟨-, hedge⟩
  · cases hi
  · exact absurd (hedge rfl) (by decide)

end LlvmPasses.RIV
