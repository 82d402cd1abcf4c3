import LlvmPasses.Proofs.RivAvailable

/-!
# RIV reports exactly the values of strict dominators

A block is given values in the round of its parent and at no other time, so what
it has when it is put on the worklist is what it keeps: the values of the entry,
and those of its strict dominators. Nothing is given to a block that is never
put there.
-/

namespace LlvmPasses.RIV

open Ir Ir.Function

variable {T : DomTree} {F : Function} {globals : List Nat} {r : Result} {v : Value}
variable {k : Nat} {popped worklist : List Nat}

/-- Between two rounds: the blocks that are or were on the worklist, and no
others, have been given values, those of the entry among them. -/
structure Filled (F : Function) (globals : List Nat) (popped worklist : List Nat) (r : Result) :
    Prop where
  entry : ∀ j ∈ popped ++ worklist, ∀ v ∈ entryValues F globals, v ∈ r j
  only : ∀ j, ∀ v ∈ r j, j ∈ popped ++ worklist

/-- An integer argument; a global's own type is a pointer type. -/
theorem mem_entryValues : v ∈ entryValues F globals ↔
    ∃ i ty, F.params[i]? = some ty ∧ ty.isIntegerTy = true ∧ v = .arg i := by
  unfold entryValues
  rw [List.mem_append]
  constructor
  · rintro (hv | hv)
    · obtain ⟨hmem, hty⟩ := List.mem_filter.mp hv
      obtain ⟨g, -, rfl⟩ := List.mem_map.mp hmem
      cases hty
    · obtain ⟨hmem, hty⟩ := List.mem_filter.mp hv
      obtain ⟨i, hi, rfl⟩ := List.mem_map.mp hmem
      have hlt := List.mem_range.mp hi
      have hget : F.params[i]? = some F.params[i] := List.getElem?_eq_getElem hlt
      refine ⟨i, F.params[i], hget, ?_, rfl⟩
      simpa only [typeOf, List.getD_eq_getElem?_getD, hget, Option.getD_some] using hty
  · rintro ⟨i, ty, hget, hty, rfl⟩
    refine .inr (List.mem_filter.mpr ⟨List.mem_map_of_mem ?_, ?_⟩)
    · exact List.mem_range.mpr (List.getElem?_eq_some_iff.mp hget).1
    · simpa only [typeOf, List.getD_eq_getElem?_getD, hget, Option.getD_some] using hty

theorem filled_start (hT : T.Describes F) : Filled F globals [] [T.root]
    (Result.insert (fun _ => []) F.entry (entryValues F globals)) where
  entry := by
    intro j hj v hv
    rw [List.nil_append, List.mem_singleton] at hj
    exact mem_insert.mpr (.inr ⟨hj.trans hT.root, hv⟩)
  only := by
    intro j v hv
    rcases mem_insert.mp hv with hv | ⟨hj, -⟩
    · cases hv
    · simp [hj, hT.root]

theorem Filled.step (h : Filled F globals popped (k :: worklist) r) :
    Filled F globals (popped ++ [k]) ((T.children k).reverse ++ worklist)
      ((T.children k).foldl (fun result child =>
        (result.insert child (definedValues F k)).insert child (r k)) r) := by
  have hk : k ∈ popped ++ k :: worklist := List.mem_append_right _ (List.mem_cons_self ..)
  have hmem : ∀ j, j ∈ popped ++ [k] ++ ((T.children k).reverse ++ worklist) ↔
      j ∈ popped ++ k :: worklist ∨ j ∈ T.children k := fun _ => mem_taken
  constructor
  · intro j hj v hv
    rw [mem_insertAll]
    rcases (hmem j).mp hj with hj | hj
    · exact .inl (h.entry j hj v hv)
    · exact .inr ⟨hj, .inr (h.entry k hk v hv)⟩
  · intro j v hv
    rw [hmem]
    exact (mem_insertAll.mp hv).imp (h.only j v) And.left

theorem run_filled (hF : F.WellFormed) (hT : T.Describes F) : ∃ popped,
    Progress T F globals popped [] (run T F globals) ∧
      Filled F globals popped [] (run T F globals) :=
  (progress_start hT).propagate_keeps hF hT (fun _ _ _ _ _ h => h.step)
    (Nat.le_add_left F.order.length _) (filled_start hT)

/-- What a reachable block gets. -/
theorem mem_run (hF : F.WellFormed) (hT : T.Describes F) (hk : F.Reachable k) :
    v ∈ run T F globals k ↔
      (∃ i ty, F.params[i]? = some ty ∧ ty.isIntegerTy = true ∧ v = .arg i) ∨
        ∃ a, F.StrictlyDominates a k ∧
          ∃ d ∈ (F.block a).defs, d.2.isIntegerTy = true ∧ v = .inst d.1 := by
  obtain ⟨popped, hprogress, hfilled⟩ := @run_filled _ _ globals hF hT
  have hmem : k ∈ popped ++ [] := List.mem_append_left _ (hprogress.all hT hk)
  constructor
  · intro hv
    rcases hprogress.sound k v hv with hv | ⟨a, ha, hv⟩
    · exact .inl (mem_entryValues.mp hv)
    · exact .inr ⟨a, ha, mem_definedValues.mp hv⟩
  · rintro (hv | ⟨a, ha, hv⟩)
    · exact hfilled.entry k hmem v (mem_entryValues.mpr hv)
    · exact hprogress.complete k hmem a ha v (mem_definedValues.mpr hv)

theorem run_unreachable (hF : F.WellFormed) (hT : T.Describes F) (hk : ¬ F.Reachable k) :
    run T F globals k = [] := by
  obtain ⟨popped, hprogress, hfilled⟩ := @run_filled _ _ globals hF hT
  refine List.eq_nil_iff_forall_not_mem.mpr fun v hv => ?_
  exact hk (hprogress.reachable k (hfilled.only k v hv))

/-- A reachable block gets the integer arguments and the integer results of its
strict dominators, an unreachable one nothing. -/
theorem run_exact (hF : F.WellFormed) (hT : T.Describes F) (globals : List Nat) :
    (∀ k, F.Reachable k → ∀ v, v ∈ run T F globals k ↔
      (∃ i ty, F.params[i]? = some ty ∧ ty.isIntegerTy = true ∧ v = .arg i) ∨
        ∃ a, F.StrictlyDominates a k ∧
          ∃ d ∈ (F.block a).defs, d.2.isIntegerTy = true ∧ v = .inst d.1) ∧
    ∀ k, ¬ F.Reachable k → run T F globals k = [] :=
  ⟨fun _ hk _ => mem_run hF hT hk, fun _ hk => run_unreachable hF hT hk⟩

theorem run_exact_invoking :
    (∀ k, invoking.Reachable k → ∀ v, v ∈ run invokingTree invoking [] k ↔
      (∃ i ty, invoking.params[i]? = some ty ∧ ty.isIntegerTy = true ∧ v = .arg i) ∨
        ∃ a, invoking.StrictlyDominates a k ∧
          ∃ d ∈ (invoking.block a).defs, d.2.isIntegerTy = true ∧ v = .inst d.1) ∧
    ∀ k, ¬ invoking.Reachable k → run invokingTree invoking [] k = [] :=
  run_exact wellFormed_invoking describes_invoking []

end LlvmPasses.RIV
