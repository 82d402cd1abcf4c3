import Mathlib.Data.List.Nodup
import Mathlib.Data.List.Perm.Basic
import Mathlib.Logic.Equiv.Basic

/-!
# Sets that are gone through by address

A small set of pointers keeps its elements in the order they came in, as long as
its buffer holds them. From then on it is a hash table, and it is gone through
in an order that the addresses of its elements decide and nothing else.
-/

namespace LlvmPasses.PointerSet

/-- The order in which a hash table with some addresses in it is gone through. -/
structure Hashing where
  order : List Nat → List Nat
  perm : ∀ addresses, (order addresses).Perm addresses
  determined : ∀ {l l' : List Nat}, l.Perm l' → order l = order l'

section

variable {α : Type} (capacity : Nat) (table : Hashing) (address : α → Nat)

/-- The element that is at an address. -/
def elementAt (l : List α) (a : Nat) : Option α := l.find? fun x => address x == a

/-- The set whose elements came in as in the list, as it is gone through. -/
def iterate (l : List α) : List α :=
  if l.length ≤ capacity then l
  else (table.order (l.map address)).filterMap (elementAt address l)

variable {capacity table address} {l : List α}

theorem iterate_small (h : l.length ≤ capacity) : iterate capacity table address l = l := if_pos h

theorem elementAt_address (hinj : ∀ x ∈ l, ∀ y ∈ l, address x = address y → x = y) {x : α}
    (hx : x ∈ l) : elementAt address l (address x) = some x := by
  cases hy : elementAt address l (address x) with
  | none =>
      have hno := List.find?_eq_none.mp hy x hx
      simp at hno
  | some y =>
      have hsame : address y = address x := by simpa using List.find?_some hy
      exact congrArg some (hinj y (List.mem_of_find?_eq_some hy) x hx hsame)

/-- Going through a set meets all its elements, each once. -/
theorem iterate_perm (hinj : ∀ x ∈ l, ∀ y ∈ l, address x = address y → x = y) :
    (iterate capacity table address l).Perm l := by
  unfold iterate
  split
  · exact .refl _
  · refine ((table.perm _).filterMap _).trans ?_
    have hself : ∀ x ∈ l, (elementAt address l ∘ address) x = some x := fun x hx =>
      elementAt_address hinj hx
    rw [List.filterMap_map, List.filterMap_congr hself, List.filterMap_some]

/-- What matters of a large set are its elements, not when they came in. -/
theorem iterate_congr {l' : List α} (hperm : l.Perm l') (hlarge : capacity < l.length)
    (hinj : ∀ x ∈ l, ∀ y ∈ l, address x = address y → x = y) :
    iterate capacity table address l = iterate capacity table address l' := by
  have hnot : ¬ l.length ≤ capacity := Nat.not_le.mpr hlarge
  have hnot' : ¬ l'.length ≤ capacity := hperm.length_eq ▸ hnot
  unfold iterate
  rw [if_neg hnot, if_neg hnot', table.determined (hperm.map address)]
  refine List.filterMap_congr fun a ha => ?_
  obtain ⟨x, hx, rfl⟩ := List.mem_map.mp ((table.perm _).mem_iff.mp ha)
  have hinj' : ∀ x ∈ l', ∀ y ∈ l', address x = address y → x = y := fun x hx y hy =>
    hinj x (hperm.mem_iff.mpr hx) y (hperm.mem_iff.mpr hy)
  rw [elementAt_address hinj (hperm.mem_iff.mpr hx), elementAt_address hinj' hx]

/-- Two elements of a large set have changed their places in memory, and so their
places among the others. -/
theorem iterate_swap [DecidableEq α] (hlarge : capacity < l.length) (hnodup : l.Nodup)
    (hinj : ∀ x ∈ l, ∀ y ∈ l, address x = address y → x = y) {u v : α} (hu : u ∈ l) (hv : v ∈ l) :
    iterate capacity table (address ∘ Equiv.swap u v) l =
      (iterate capacity table address l).map (Equiv.swap u v) := by
  have hmem : ∀ {x}, x ∈ l → Equiv.swap u v x ∈ l := by
    intro x hx
    rw [Equiv.swap_apply_def]
    split_ifs
    · exact hv
    · exact hu
    · exact hx
  have hinj' : ∀ x ∈ l, ∀ y ∈ l, (address ∘ Equiv.swap u v) x = (address ∘ Equiv.swap u v) y →
      x = y := fun x hx y hy heq => (Equiv.swap u v).injective (hinj _ (hmem hx) _ (hmem hy) heq)
  have hsame : (l.map (address ∘ Equiv.swap u v)).Perm (l.map address) := by
    rw [← List.map_map]
    refine List.Perm.map _ ((List.perm_ext_iff_of_nodup
      (hnodup.map (Equiv.swap u v).injective) hnodup).mpr fun x => ?_)
    constructor
    · intro hx
      obtain ⟨y, hy, rfl⟩ := List.mem_map.mp hx
      exact hmem hy
    · exact fun hx => List.mem_map.mpr ⟨_, hmem hx, Equiv.swap_apply_self ..⟩
  have hnot : ¬ l.length ≤ capacity := Nat.not_le.mpr hlarge
  unfold iterate
  rw [if_neg hnot, if_neg hnot, table.determined hsame, List.map_filterMap]
  refine List.filterMap_congr fun a ha => ?_
  obtain ⟨x, hx, rfl⟩ := List.mem_map.mp ((table.perm _).mem_iff.mp ha)
  have hback := elementAt_address hinj' (hmem hx)
  rw [Function.comp_apply, Equiv.swap_apply_self] at hback
  rw [hback, elementAt_address hinj hx, Option.map_some]

end

end LlvmPasses.PointerSet
