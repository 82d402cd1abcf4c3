import LlvmPasses.Lib.Links
import LlvmPasses.Proofs.DeadBlocks
import LlvmPasses.Proofs.MergeAccepts
import LlvmPasses.Proofs.MergeRun

/-!
# The blocks that stay

A block may be merged into one that is itself merged away later, but never into
one that has been before. So the merges are links made one after the other: none
closes a cycle, and of the blocks that are merged together one is left.

`survivors` is about every point of the loop and the end of the pass. At every
point each erased block leads along links to a block that is not erased
(`Survives`); at the end that block is in the function, and of the blocks that
were merged together it is the only one. The general part is the library
`Lib.Links`: links made one after the other, each from a new place to one that
is not linked on, form chains. The loop gives such links, since a block that is
on the list is skipped and never taken for a target.
-/

namespace LlvmPasses.MergeBB

open Ir Links Relation

/-- The block that was erased, and the one that was retained. -/
def Merge.link (m : Merge) : Nat × Nat := (m.erased, m.retained)

/-- One block was merged into the other. -/
def MergedInto (ms : List Merge) : Nat → Nat → Prop := To (ms.map Merge.link)

/-- What the loop has made of the blocks when it has performed these merges and
the blocks on the list are to be deleted. -/
structure Survives (F : Function) (ms : List Merge) (deleteList : List Nat) : Prop where
  erased : ms.map Merge.erased = deleteList
  once : deleteList.Nodup
  entry : ∀ d ∈ deleteList, F.isEntryBlock d = false
  single : Relator.RightUnique (MergedInto ms)
  acyclic : ∀ k, ¬ TransGen (MergedInto ms) k k
  chain : ∀ k ∈ F.order, ∃! j, (j ∈ F.order ∧ j ∉ deleteList) ∧ ReflTransGen (MergedInto ms) k j
  group : ∀ k ∈ F.order, ∃! j, (j ∈ F.order ∧ j ∉ deleteList) ∧ EqvGen (MergedInto ms) k j

namespace State

variable {s s' : State} {F G : Function} {bb bb2 k : Nat} {deleteList deleteList' : List Nat}

theorem mergeTarget_not_entry (h : s.mergeTarget deleteList bb = .ok (some bb2)) :
    s.fn.isEntryBlock bb = false := by
  unfold mergeTarget at h
  split at h
  · cases h
  · next hentry => exact Bool.not_eq_true _ ▸ hentry

/-! ## The loop -/

/-- The merges so far, and those of the rest of the loop. -/
theorem mergeBlocks_links {rest : List Nat} :
    ∀ {s : State} {deleteList : List Nat} {ls : List (Nat × Nat)} {changed : Bool}, s.Linked →
      s.fn.order = F.order → Made ls → ls.map Prod.fst = deleteList →
      (∀ d ∈ deleteList, F.isEntryBlock d = false) → (∀ l ∈ ls, l.2 ∈ F.order) →
      (deleteList ++ rest).Nodup → (∀ bb ∈ rest, bb ∈ F.order) →
      ∀ {changed' : Bool} {s' : State} {deleteList' : List Nat},
        s.mergeBlocks deleteList changed rest = .ok (changed', s', deleteList') →
        let ls' := ls ++ (s.merges deleteList rest).map Merge.link
        Made ls' ∧ ls'.map Prod.fst = deleteList' ∧ (∀ d ∈ deleteList', F.isEntryBlock d = false) ∧
          (∀ l ∈ ls', l.2 ∈ F.order) ∧ s'.fn.order = F.order := by
  induction rest with
  | nil =>
      intro s deleteList ls changed _ horder hmade hfst hentry htargets _ _ changed' s' deleteList'
        hrun
      cases hrun
      simp only [merges, List.map_nil, List.append_nil]
      exact ⟨hmade, hfst, hentry, htargets, horder⟩
  | cons bb rest ih =>
      intro s deleteList ls changed hs horder hmade hfst hentry htargets hnodup hmem changed' s'
        deleteList' hrun
      obtain ⟨hbb, hrest⟩ := List.forall_mem_cons.mp hmem
      rw [merges]
      rcases mergeBlocks_cons hrun with ⟨ht, hrun⟩ | ⟨bb2, t, ht, hu, hrun⟩
      · simp only [ht]
        refine ih hs horder hmade hfst hentry htargets (hnodup.sublist ?_) hrest hrun
        exact (List.sublist_cons_self bb rest).append_left _
      · obtain ⟨hstays, hne⟩ := mergeTarget_some ht
        obtain ⟨succ, hacc⟩ := mergeTarget_accepted hs (horder ▸ hbb) ht
        obtain ⟨t', hu', hlinked, horder', -⟩ := updateBranchTargets_spec hs hne
        rw [hu] at hu'
        cases hu'
        have hnot : bb ∉ deleteList := by
          rw [List.nodup_append] at hnodup
          exact fun hin => hnodup.2.2 bb hin bb (List.mem_cons_self ..) rfl
        simp only [ht, hu, List.map_cons]
        rw [List.append_cons]
        refine ih hlinked (horder'.trans horder) ?_ ?_ ?_ ?_ ?_ hrest hrun
        · exact hmade.snoc (hfst ▸ hnot) (hfst ▸ hstays) hne
        · rw [List.map_append, hfst]
          rfl
        · intro d hd
          rcases List.mem_append.mp hd with hd | hd
          · exact hentry d hd
          · rw [List.mem_singleton.mp hd, Function.isEntryBlock, ← horder]
            exact mergeTarget_not_entry ht
        · intro l hl
          rcases List.mem_append.mp hl with hl | hl
          · exact htargets l hl
          · rw [List.mem_singleton.mp hl]
            exact horder ▸ hacc.mem2
        · rwa [List.append_assoc, List.singleton_append]

/-- Following links from a block of the function leads to blocks of the function. -/
theorem mem_of_links {ls : List (Nat × Nat)} {j : Nat} (htargets : ∀ l ∈ ls, l.2 ∈ F.order)
    (hk : k ∈ F.order) (h : ReflTransGen (To ls) k j) : j ∈ F.order := by
  induction h with
  | refl => exact hk
  | tail _ hto _ => exact htargets _ hto

theorem survives_of_made {ms : List Merge} (hmade : Made (ms.map Merge.link))
    (hfst : (ms.map Merge.link).map Prod.fst = deleteList)
    (hentry : ∀ d ∈ deleteList, F.isEntryBlock d = false)
    (htargets : ∀ l ∈ ms.map Merge.link, l.2 ∈ F.order) : Survives F ms deleteList where
  erased := by
    rw [← hfst, List.map_map]
    rfl
  once := hfst ▸ hmade.nodup
  entry := hentry
  single := hmade.rightUnique
  acyclic := hmade.acyclic
  chain := fun k hk => by
    obtain ⟨j, ⟨hend, hpath⟩, hunique⟩ := hmade.existsUnique_end k
    refine ⟨j, ⟨⟨mem_of_links htargets hk hpath, hfst ▸ hend⟩, hpath⟩, fun i hi => ?_⟩
    exact hunique i ⟨fun hin => hi.1.2 (hfst ▸ hin), hi.2⟩
  group := fun k hk => by
    obtain ⟨j, hend, hpath⟩ := hmade.exists_end k
    refine ⟨j, ⟨⟨mem_of_links htargets hk hpath, hfst ▸ hend⟩,
      EqvGen.reflTransGen_le_eqvGen _ _ _ hpath⟩, fun i hi => ?_⟩
    exact (hmade.existsUnique_linked k).unique ⟨fun hin => hi.1.2 (hfst ▸ hin), hi.2⟩
      ⟨hend, EqvGen.reflTransGen_le_eqvGen _ _ _ hpath⟩

/-- At every point of the loop, when it has gone through `visited`. -/
theorem mergeBlocks_survives (hnodup : F.order.Nodup) {visited : List Nat}
    (hvisited : visited <+: F.order) {changed : Bool}
    (h : (ofFunction F).mergeBlocks [] false visited = .ok (changed, s, deleteList)) :
    Survives F ((ofFunction F).merges [] visited) deleteList ∧ s.fn.order = F.order := by
  obtain ⟨hmade, hfst, hentry, htargets, horder⟩ := mergeBlocks_links (F := F)
    (linked_ofFunction hnodup) rfl .nil rfl nofun nofun (hnodup.sublist hvisited.sublist)
    (fun _ hbb => hvisited.subset hbb) h
  exact ⟨survives_of_made hmade hfst hentry htargets, horder⟩

end State

/-! ## The deletions -/

section

variable {F G : Function} {k : Nat}

theorem removePredecessors_order {succs : List Nat} :
    ∀ {F : Function}, succs.foldlM (fun F succ => removePredecessor F succ k) F = .ok G →
      G.order = F.order := by
  induction succs with
  | nil =>
      intro F h
      cases h
      rfl
  | cons succ succs ih =>
      intro F h
      obtain ⟨F', hF', h⟩ := bind_eq_ok h
      obtain ⟨phis, -, hset⟩ := bind_eq_ok hF'
      cases hset
      have horder := ih h
      exact horder

theorem deleteDeadBlock_order (h : deleteDeadBlock F k = .ok G) : G.order = F.order.erase k := by
  obtain ⟨F', hF', heq⟩ := bind_eq_ok h
  cases heq
  rw [← removePredecessors_order hF']

theorem mem_order_of_deletions {dead : List Nat} :
    ∀ {F : Function}, F.order.Nodup → dead.foldlM deleteDeadBlock F = .ok G →
      (k ∈ G.order ↔ k ∈ F.order ∧ k ∉ dead) := by
  induction dead with
  | nil =>
      intro F _ h
      cases h
      simp
  | cons d dead ih =>
      intro F hnodup h
      obtain ⟨F', hF', h⟩ := bind_eq_ok h
      have horder := deleteDeadBlock_order hF'
      rw [ih (horder ▸ hnodup.erase d) h, horder, hnodup.mem_erase_iff, List.mem_cons, not_or]
      exact ⟨fun ⟨⟨hne, hmem⟩, hnot⟩ => ⟨hmem, hne, hnot⟩,
        fun ⟨hmem, hne, hnot⟩ => ⟨⟨hne, hmem⟩, hnot⟩⟩

/-- However far the loop has come, the merges so far form chains that end at
blocks that stay; and when the pass is done, exactly one is left of the blocks
that were merged together. -/
theorem survivors (arrange : List Nat → List Nat) (harrange : ∀ l, (arrange l).Perm l)
    (hnodup : F.order.Nodup) :
    (∀ visited, visited <+: F.order → ∀ changed s deleteList,
      (State.ofFunction F).mergeBlocks [] false visited = .ok (changed, s, deleteList) →
      Survives F ((State.ofFunction F).merges [] visited) deleteList) ∧
    ∀ changed G, run arrange F = .ok (changed, G) → ∀ k ∈ F.order,
      ∃! j, j ∈ G.order ∧ EqvGen (MergedInto ((State.ofFunction F).merges [] F.order)) k j := by
  refine ⟨fun visited hvisited changed s deleteList h =>
    (State.mergeBlocks_survives hnodup hvisited h).1, fun changed G hrun k hk => ?_⟩
  obtain ⟨⟨c, s, deleteList⟩, hblocks, hrun⟩ := bind_eq_ok hrun
  obtain ⟨G', hdelete, heq⟩ := bind_eq_ok hrun
  cases heq
  obtain ⟨hsurvives, horder⟩ := State.mergeBlocks_survives hnodup (List.prefix_refl _) hblocks
  have hmem : ∀ j, j ∈ G.order ↔ j ∈ F.order ∧ j ∉ deleteList := fun j => by
    rw [mem_order_of_deletions (horder ▸ hnodup) hdelete, horder,
      (harrange deleteList).mem_iff]
  simp only [hmem]
  exact hsurvives.group k hk

end

theorem survivors_foo : ∃ changed G, run id foo = .ok (changed, G) ∧ ∀ k ∈ foo.order,
    ∃! j, j ∈ G.order ∧ EqvGen (MergedInto ((State.ofFunction foo).merges [] foo.order)) k j := by
  have hreturns : (match run id foo with
    | .ok _ => true
    | .error _ => false) = true := by decide
  cases hrun : run id foo with
  | error e =>
      rw [hrun] at hreturns
      cases hreturns
  | ok r =>
      exact ⟨r.1, r.2, rfl, (survivors id (fun _ => .refl _) (by decide)).2 r.1 r.2 hrun⟩

end LlvmPasses.MergeBB
