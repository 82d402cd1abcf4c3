import Mathlib.Data.List.Forall2

/-!
# Traversing a list

A partial function goes over a list, and its results are collected if there is
one everywhere. What is collected is known place by place, and two functions
that are related at every place come to related lists or to none. So facts
about one element are all that has to be proved.
-/

namespace LlvmPasses.Traverse

variable {α β γ : Type} {f : α → Option β} {g : α → Option γ} {R : β → γ → Prop}

theorem mapM_eq_some {l : List α} {r : List β} :
    l.mapM f = some r ↔ List.Forall₂ (fun a b => f a = some b) l r := by
  induction l generalizing r with
  | nil =>
      rw [List.mapM_nil, List.forall₂_nil_left_iff]
      exact ⟨fun h => (Option.some.inj h).symm, fun h => congrArg some h.symm⟩
  | cons a l ih =>
      rw [List.mapM_cons, List.forall₂_cons_left_iff]
      constructor
      · intro h
        obtain ⟨b, hb, h⟩ := Option.bind_eq_some_iff.mp h
        obtain ⟨r', hr', h⟩ := Option.bind_eq_some_iff.mp h
        exact ⟨b, r', hb, ih.mp hr', (Option.some.inj h).symm⟩
      · rintro ⟨b, r', hb, hr', rfl⟩
        rw [hb, ih.mpr hr']
        rfl

theorem exists_mapM {l : List α} (h : ∀ a ∈ l, ∃ b, f a = some b) : ∃ r, l.mapM f = some r := by
  induction l with
  | nil => exact ⟨[], rfl⟩
  | cons a l ih =>
      obtain ⟨b, hb⟩ := h a (List.mem_cons_self ..)
      obtain ⟨r, hr⟩ := ih fun a' ha' => h a' (List.mem_cons_of_mem _ ha')
      exact ⟨b :: r, by rw [List.mapM_cons, hb, hr]; rfl⟩

theorem length_mapM {l : List α} {r : List β} (h : l.mapM f = some r) : r.length = l.length :=
  (mapM_eq_some.mp h).length_eq.symm

theorem mapM_rel {l : List α} (h : ∀ a ∈ l, Option.Rel R (f a) (g a)) :
    Option.Rel (List.Forall₂ R) (l.mapM f) (l.mapM g) := by
  induction l with
  | nil => exact .some .nil
  | cons a l ih =>
      have hhead := h a (List.mem_cons_self ..)
      have htail := ih fun a' ha' => h a' (List.mem_cons_of_mem _ ha')
      rw [List.mapM_cons, List.mapM_cons]
      generalize f a = b, g a = c, l.mapM f = r, l.mapM g = s at hhead htail ⊢
      cases hhead with
      | none => exact .none
      | some hbc =>
          cases htail with
          | none => exact .none
          | some hrs => exact .some (.cons hbc hrs)

/-- Related lists are related at every place. -/
theorem rel_of_mapM {l : List α} {r : List β} {s : List γ} (hf : l.mapM f = some r)
    (hg : l.mapM g = some s) (h : List.Forall₂ R r s) {a : α} (ha : a ∈ l) :
    ∃ b c, f a = some b ∧ g a = some c ∧ R b c := by
  have hfs := mapM_eq_some.mp hf
  have hgs := mapM_eq_some.mp hg
  clear hf hg
  induction h generalizing l with
  | nil =>
      cases hfs
      cases ha
  | cons hbc _ ih =>
      cases hfs with
      | cons hb hfs =>
          cases hgs with
          | cons hc hgs =>
              rcases List.mem_cons.mp ha with rfl | ha
              · exact ⟨_, _, hb, hc, hbc⟩
              · exact ih ha hfs hgs

end LlvmPasses.Traverse
