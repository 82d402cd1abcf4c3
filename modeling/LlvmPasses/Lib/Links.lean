import Mathlib.Data.List.Nodup
import Mathlib.Logic.ExistsUnique
import Mathlib.Logic.Relation

/-!
# Links made one after the other

Each link leads from an element that has none yet to another that has none yet.
So the links never close a cycle, and following them from anywhere ends at one
element, the only one without a link among all that are linked with it.
-/

namespace LlvmPasses.Links

open Relation

variable {α : Type} {ls : List (α × α)} {a b c : α}

inductive Made : List (α × α) → Prop
  | nil : Made []
  | snoc {ls : List (α × α)} {a b : α} (h : Made ls) (ha : a ∉ ls.map Prod.fst)
      (hb : b ∉ ls.map Prod.fst) (hne : a ≠ b) : Made (ls ++ [(a, b)])

/-- There is a link from one to the other. -/
def To (ls : List (α × α)) (a b : α) : Prop := (a, b) ∈ ls

/-- There is no link from here. -/
def Ends (ls : List (α × α)) (a : α) : Prop := a ∉ ls.map Prod.fst

theorem To.not_ends (h : To ls a b) : ¬ Ends ls a :=
  fun hend => hend (List.mem_map_of_mem (f := Prod.fst) h)

theorem to_snoc {l : α × α} : To (ls ++ [l]) a b ↔ To ls a b ∨ (a, b) = l := by
  unfold To
  rw [List.mem_append, List.mem_singleton]

theorem ends_snoc {l : α × α} : Ends (ls ++ [l]) a ↔ Ends ls a ∧ a ≠ l.1 := by
  unfold Ends
  rw [List.map_append, List.mem_append, not_or]
  simp

namespace Made

theorem nodup (h : Made ls) : (ls.map Prod.fst).Nodup := by
  induction h with
  | nil => exact List.nodup_nil
  | @snoc ls a b _ ha _ _ ih =>
      rw [List.map_append, List.nodup_append]
      refine ⟨ih, List.nodup_singleton _, fun x hx y hy heq => ?_⟩
      rw [heq, List.mem_singleton.mp hy] at hx
      exact ha hx

theorem rightUnique (h : Made ls) : Relator.RightUnique (To ls) := by
  induction h with
  | nil => exact fun a b c hb => nomatch hb
  | @snoc ls a b _ ha _ _ ih =>
      intro x y z hy hz
      rcases to_snoc.mp hy with hy | hy
      · rcases to_snoc.mp hz with hz | hz
        · exact ih hy hz
        · cases hz
          exact absurd ha hy.not_ends
      · cases hy
        rcases to_snoc.mp hz with hz | hz
        · exact absurd ha hz.not_ends
        · cases hz
          rfl

/-- A path of links ends somewhere. -/
theorem exists_end (h : Made ls) (a : α) : ∃ b, Ends ls b ∧ ReflTransGen (To ls) a b := by
  induction h with
  | nil => exact ⟨a, List.not_mem_nil, .refl⟩
  | @snoc ls x y _ _ hy hne ih =>
      obtain ⟨b, hend, hpath⟩ := ih
      have hpath : ReflTransGen (To (ls ++ [(x, y)])) a b :=
        hpath.lift id fun _ _ hto => to_snoc.mpr (.inl hto)
      by_cases hb : b = x
      · subst hb
        exact ⟨y, ends_snoc.mpr ⟨hy, hne.symm⟩, hpath.tail (to_snoc.mpr (.inr rfl))⟩
      · exact ⟨b, ends_snoc.mpr ⟨hend, hb⟩, hpath⟩

theorem end_unique (h : Made ls) (hb : Ends ls b) (hc : Ends ls c)
    (hab : ReflTransGen (To ls) a b) (hac : ReflTransGen (To ls) a c) : b = c := by
  have hstays : ∀ {x y}, Ends ls x → ReflTransGen (To ls) x y → x = y := by
    intro x y hx hxy
    rcases hxy.cases_head with heq | ⟨z, hz, -⟩
    · exact heq
    · exact absurd hx hz.not_ends
  rcases ReflTransGen.total_of_right_unique h.rightUnique hab hac with hbc | hcb
  · exact hstays hb hbc
  · exact (hstays hc hcb).symm

theorem acyclic (h : Made ls) (a : α) : ¬ TransGen (To ls) a a := by
  intro hcycle
  obtain ⟨b, hend, hpath⟩ := h.exists_end a
  -- whatever is on a path from the cycle is on it
  have hon : TransGen (To ls) b b := by
    clear hend
    induction hpath with
    | refl => exact hcycle
    | tail _ hto ih =>
        obtain ⟨z, hz, hback⟩ := TransGen.head'_iff.mp ih
        obtain rfl := h.rightUnique hto hz
        exact TransGen.tail' hback hto
  obtain ⟨z, hz, -⟩ := TransGen.head'_iff.mp hon
  exact hz.not_ends hend

/-- Elements that are linked have the same end. -/
theorem end_of_linked (h : Made ls) (hab : EqvGen (To ls) a b) (hc : Ends ls c) :
    ReflTransGen (To ls) a c ↔ ReflTransGen (To ls) b c := by
  induction hab with
  | rel x y hto =>
      refine ⟨fun hpath => ?_, .head hto⟩
      rcases hpath.cases_head with heq | ⟨z, hz, hrest⟩
      · exact absurd (heq ▸ hc) hto.not_ends
      · exact h.rightUnique hto hz ▸ hrest
  | refl x => exact Iff.rfl
  | symm x y _ ih => exact ih.symm
  | trans x y z _ _ ih₁ ih₂ => exact ih₁.trans ih₂

theorem existsUnique_end (h : Made ls) (a : α) :
    ∃! b, Ends ls b ∧ ReflTransGen (To ls) a b := by
  obtain ⟨b, hend, hpath⟩ := h.exists_end a
  exact ⟨b, ⟨hend, hpath⟩, fun c hc => h.end_unique hc.1 hend hc.2 hpath⟩

/-- All that are linked have one among them without a link. -/
theorem existsUnique_linked (h : Made ls) (a : α) : ∃! b, Ends ls b ∧ EqvGen (To ls) a b := by
  obtain ⟨b, hend, hpath⟩ := h.exists_end a
  refine ⟨b, ⟨hend, EqvGen.reflTransGen_le_eqvGen _ _ _ hpath⟩, fun c hc => ?_⟩
  exact h.end_unique hc.1 hend ((h.end_of_linked hc.2 hc.1).mpr .refl) hpath

end Made

end LlvmPasses.Links
