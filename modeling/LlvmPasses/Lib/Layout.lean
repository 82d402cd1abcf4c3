import Mathlib.Algebra.Ring.Nat
import Mathlib.Data.List.Nodup
import Mathlib.Logic.Equiv.Defs

/-!
# Tables and layouts

A list with distinct keys is a table, and looking something up in it does not
depend on its order. A layout gives the keys of a list handles in a row, as many
as each needs. In another order the keys get other handles; `relocate` is the
permutation that takes those of every key to the ones it gets there.
-/

namespace LlvmPasses

/-! ## Tables -/

namespace Table

variable {α κ : Type} {key : α → κ} {l l' : List α} {x y : α} {k : κ}

theorem key_inj (h : (l.map key).Nodup) (hx : x ∈ l) (hy : y ∈ l) (heq : key x = key y) :
    x = y := List.inj_on_of_nodup_map h hx hy heq

variable [DecidableEq κ]

/-- The entry of a key. -/
def lookup (key : α → κ) (l : List α) (k : κ) : Option α := l.find? fun x => key x == k

theorem lookup_some (h : lookup key l k = some x) : x ∈ l ∧ key x = k :=
  ⟨List.mem_of_find?_eq_some h, by simpa using List.find?_some h⟩

theorem lookup_eq_none : lookup key l k = none ↔ ∀ x ∈ l, key x ≠ k := by
  simp [lookup]

theorem lookup_append (k : κ) :
    lookup key (l ++ l') k = (lookup key l k).or (lookup key l' k) := List.find?_append

/-- A table whose keys have changed along with its entries. -/
theorem lookup_map {β κ' : Type} [DecidableEq κ'] {key' : β → κ'} {f : α → β} {g : κ → κ'}
    (h : ∀ x ∈ l, key' (f x) = g (key x)) (hg : ∀ x ∈ l, g (key x) = g k → key x = k) :
    lookup key' (l.map f) (g k) = (lookup key l k).map f := by
  induction l with
  | nil => rfl
  | cons x l ih =>
      obtain ⟨hx, hl⟩ := List.forall_mem_cons.mp h
      obtain ⟨hgx, hgl⟩ := List.forall_mem_cons.mp hg
      unfold lookup at *
      rw [List.map_cons]
      by_cases hk : key x = k
      · have hk' : key' (f x) = g k := hx.trans (congrArg g hk)
        rw [List.find?_cons_of_pos (by simpa using hk'), List.find?_cons_of_pos (by simpa using hk)]
        rfl
      · have hk' : ¬ key' (f x) = g k := fun heq => hk (hgx (hx.symm.trans heq))
        rw [List.find?_cons_of_neg (by simpa using hk'), List.find?_cons_of_neg (by simpa using hk),
          ih hl hgl]

theorem lookup_eq_some (h : (l.map key).Nodup) :
    lookup key l k = some x ↔ x ∈ l ∧ key x = k := by
  refine ⟨lookup_some, ?_⟩
  rintro ⟨hx, rfl⟩
  cases hl : lookup key l (key x) with
  | none => exact absurd rfl (lookup_eq_none.mp hl x hx)
  | some y =>
      obtain ⟨hy, heq⟩ := lookup_some hl
      rw [key_inj h hy hx heq]

theorem lookup_perm (h : (l.map key).Nodup) (hperm : l.Perm l') :
    lookup key l = lookup key l' := by
  have h' : (l'.map key).Nodup := (hperm.map key).nodup_iff.mp h
  funext k
  refine Option.ext fun x => ?_
  rw [lookup_eq_some h, lookup_eq_some h', hperm.mem_iff]

end Table

/-! ## Layouts -/

namespace Layout

variable {κ : Type} {len : κ → Nat} {ks ks' : List κ} {j k : κ} {n o o' h : Nat}

def total (len : κ → Nat) (ks : List κ) : Nat := (ks.map len).sum

theorem total_cons : total len (k :: ks) = len k + total len ks := by simp [total]

theorem total_const (m : Nat) : total (fun _ => m) ks = m * ks.length := by
  induction ks with
  | nil => rfl
  | cons k ks ih => rw [total_cons, ih, List.length_cons, Nat.mul_succ, Nat.add_comm]

theorem total_perm (hperm : ks.Perm ks') : total len ks = total len ks' :=
  (hperm.map len).sum_nat

/-- The key that has a handle, and which of its handles it is. -/
def find (len : κ → Nat) : Nat → List κ → Nat → Option (κ × Nat)
  | _, [], _ => none
  | n, k :: ks, h =>
      if n ≤ h ∧ h < n + len k then some (k, h - n) else find len (n + len k) ks h

theorem find_eq_none : find len n ks h = none ↔ h < n ∨ n + total len ks ≤ h := by
  induction ks generalizing n with
  | nil => simp [find, total, Nat.lt_or_ge]
  | cons k ks ih =>
      rw [find, total_cons]
      by_cases hh : n ≤ h ∧ h < n + len k
      · rw [if_pos hh]
        simp only [reduceCtorEq, false_iff]
        omega
      · rw [if_neg hh, ih]
        omega

variable [DecidableEq κ]

/-- The first handle of a key. -/
def place (len : κ → Nat) : Nat → List κ → κ → Nat
  | n, [], _ => n
  | n, j :: ks, k => if j = k then n else place len (n + len j) ks k

theorem le_place : n ≤ place len n ks k := by
  induction ks generalizing n with
  | nil => exact Nat.le_refl n
  | cons j ks ih =>
      rw [place]
      split
      · exact Nat.le_refl n
      · exact Nat.le_trans (Nat.le_add_right n (len j)) ih

theorem place_add_le (hk : k ∈ ks) : place len n ks k + len k ≤ n + total len ks := by
  induction ks generalizing n with
  | nil => cases hk
  | cons j ks ih =>
      rw [place, total_cons]
      by_cases hj : j = k
      · rw [if_pos hj, hj]
        omega
      · rw [if_neg hj]
        have hk := ih (n := n + len j) (List.mem_of_ne_of_mem (fun heq => hj heq.symm) hk)
        omega

theorem place_append_left (hk : k ∈ ks) : place len n (ks ++ ks') k = place len n ks k := by
  induction ks generalizing n with
  | nil => cases hk
  | cons j ks ih =>
      rw [List.cons_append, place, place]
      by_cases hj : j = k
      · rw [if_pos hj, if_pos hj]
      · rw [if_neg hj, if_neg hj, ih (List.mem_of_ne_of_mem (fun heq => hj heq.symm) hk)]

theorem place_append_right (hk : k ∉ ks) :
    place len n (ks ++ ks') k = place len (n + total len ks) ks' k := by
  induction ks generalizing n with
  | nil => rfl
  | cons j ks ih =>
      have hj : ¬ j = k := fun heq => hk (heq ▸ List.mem_cons_self ..)
      rw [List.cons_append, place, if_neg hj, ih fun hmem => hk (List.mem_cons_of_mem _ hmem),
        total_cons, Nat.add_assoc]

theorem find_place (hk : k ∈ ks) (ho : o < len k) :
    find len n ks (place len n ks k + o) = some (k, o) := by
  induction ks generalizing n with
  | nil => cases hk
  | cons j ks ih =>
      rw [place, find]
      by_cases hj : j = k
      · subst hj
        rw [if_pos rfl, if_pos ⟨Nat.le_add_right n o, by omega⟩, Nat.add_sub_cancel_left]
      · have hle : n + len j ≤ place len (n + len j) ks k := le_place
        rw [if_neg hj, if_neg (by omega), ih (List.mem_of_ne_of_mem (fun heq => hj heq.symm) hk)]

/-- No two keys have a handle in common. -/
theorem place_inj (hj : j ∈ ks) (hk : k ∈ ks) (ho : o < len j) (ho' : o' < len k)
    (heq : place len n ks j + o = place len n ks k + o') : j = k ∧ o = o' := by
  have hfind := find_place (n := n) hj ho
  rw [heq, find_place hk ho', Option.some.injEq, Prod.mk.injEq] at hfind
  exact ⟨hfind.1.symm, hfind.2.symm⟩

theorem find_some (hks : ks.Nodup) (hfind : find len n ks h = some (k, o)) :
    k ∈ ks ∧ o < len k ∧ h = place len n ks k + o := by
  induction ks generalizing n with
  | nil => cases hfind
  | cons j ks ih =>
      obtain ⟨hj, hks⟩ := List.nodup_cons.mp hks
      rw [find] at hfind
      by_cases hh : n ≤ h ∧ h < n + len j
      · rw [if_pos hh, Option.some.injEq, Prod.mk.injEq] at hfind
        obtain ⟨rfl, rfl⟩ := hfind
        rw [place, if_pos rfl]
        exact ⟨List.mem_cons_self .., by omega, by omega⟩
      · rw [if_neg hh] at hfind
        obtain ⟨hk, ho, hplace⟩ := ih hks hfind
        have hne : ¬ j = k := fun heq => hj (heq ▸ hk)
        rw [place, if_neg hne]
        exact ⟨List.mem_cons_of_mem _ hk, ho, hplace⟩

/-- From the handles of a layout to those of another. -/
def move (len : κ → Nat) (n : Nat) (ks ks' : List κ) (h : Nat) : Nat :=
  match find len n ks h with
  | some (k, o) => place len n ks' k + o
  | none => h

theorem move_place (hk : k ∈ ks) (ho : o < len k) :
    move len n ks ks' (place len n ks k + o) = place len n ks' k + o := by
  simp only [move, find_place hk ho]

theorem move_of_lt (hh : h < n) : move len n ks ks' h = h := by
  simp only [move, find_eq_none.mpr (.inl hh)]

theorem move_move (hks : ks.Nodup) (hperm : ks.Perm ks') (h : Nat) :
    move len n ks' ks (move len n ks ks' h) = h := by
  cases hfind : find len n ks h with
  | none =>
      have hfind' : find len n ks' h = none := by
        rw [find_eq_none, ← total_perm hperm]
        exact find_eq_none.mp hfind
      simp only [move, hfind, hfind']
  | some p =>
      obtain ⟨k, o⟩ := p
      obtain ⟨hk, ho, rfl⟩ := find_some hks hfind
      rw [move_place hk ho, move_place (hperm.mem_iff.mp hk) ho]

/-- The handles of every key go to those it has in another order. -/
def relocate (len : κ → Nat) (n : Nat) (hks : ks.Nodup) (hperm : ks.Perm ks') :
    Equiv.Perm Nat where
  toFun := move len n ks ks'
  invFun := move len n ks' ks
  left_inv := move_move hks hperm
  right_inv := move_move (hperm.nodup_iff.mp hks) hperm.symm

end Layout

end LlvmPasses
