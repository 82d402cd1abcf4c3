/-!
# Precedence climbing

A sequence of operands with an operator between neighbours has one binary tree
over it in which precedences never fall on the way down to the left and rise on
the way down to the right: at its root stands the last of the operators that
bind least. The climb builds that tree in one pass with a look at the next
operator, and recursion where a higher precedence calls for it.

The climb is given as a relation: what it consumes, and the precedence of
whatever comes behind that. A parser that follows it is related to it step by
step, and what tree comes out is settled here.
-/

namespace LlvmPasses.Precedence

/-- Operands at the leaves, operators at the nodes. -/
inductive OpTree (α β : Type) where
  | leaf (a : α)
  | node (left : OpTree α β) (op : β) (right : OpTree α β)

variable {α β : Type} {prec : β → Int}

namespace OpTree

/-- The in-order reading is this operand, and then the links. -/
def first : OpTree α β → α
  | leaf a => a
  | node l _ _ => l.first

/-- What the in-order reading goes on with: an operator and an operand, as
often as there are nodes. -/
def links : OpTree α β → List (β × α)
  | leaf _ => []
  | node l o r => l.links ++ (o, r.first) :: r.links

/-- The operator at the root, if there is one. -/
def RootIs (P : β → Prop) : OpTree α β → Prop
  | leaf _ => True
  | node _ o _ => P o

/-- A left child's operator binds at least as strongly as its parent's, a right
child's more strongly. -/
def Ordered (prec : β → Int) : OpTree α β → Prop
  | leaf _ => True
  | node l o r =>
      l.RootIs (fun p => prec o ≤ prec p) ∧ r.RootIs (fun p => prec o < prec p) ∧
        l.Ordered prec ∧ r.Ordered prec

theorem RootIs.imp {P Q : β → Prop} {t : OpTree α β} (h : t.RootIs P) (hPQ : ∀ o, P o → Q o) :
    t.RootIs Q := by
  cases t with
  | leaf a => trivial
  | node l o r => exact hPQ o h

/-- What the root's operator is known to reach, every operator does. -/
theorem Ordered.le_of_root {t : OpTree α β} {m : Int} (h : t.Ordered prec)
    (hroot : t.RootIs fun o => m ≤ prec o) : ∀ x ∈ t.links, m ≤ prec x.1 := by
  induction t with
  | leaf a => nofun
  | node l o r ihl ihr =>
      obtain ⟨hl, hr, hol, hor⟩ := h
      have hm : m ≤ prec o := hroot
      intro x hx
      rcases List.mem_append.mp hx with hx | hx
      · exact ihl hol (hl.imp fun p hp => Int.le_trans hm hp) x hx
      · rcases List.mem_cons.mp hx with rfl | hx
        · exact hm
        · exact ihr hor (hr.imp fun p hp => Int.le_trans hm (Int.le_of_lt hp)) x hx

theorem Ordered.le_left {l r : OpTree α β} {o : β} (h : (node l o r).Ordered prec) :
    ∀ x ∈ l.links, prec o ≤ prec x.1 :=
  h.2.2.1.le_of_root h.1

theorem Ordered.lt_right {l r : OpTree α β} {o : β} (h : (node l o r).Ordered prec) :
    ∀ x ∈ r.links, prec o < prec x.1 :=
  h.2.2.2.le_of_root (m := prec o + 1) h.2.1

/-- Two roots of one sequence cannot stand at different places: the one further
to the right would bind more strongly than the other, and not. -/
theorem Ordered.not_earlier {l r l' r' : OpTree α β} {o o' : β} {mid : List (β × α)}
    (h : (node l o r).Ordered prec) (h' : (node l' o' r').Ordered prec)
    (hl : l'.links = l.links ++ (o, r.first) :: mid)
    (hr : r.links = mid ++ (o', r'.first) :: r'.links) : False := by
  have hle : prec o' ≤ prec o := h'.le_left (o, r.first) (by rw [hl]; simp)
  have hlt : prec o < prec o' := h.lt_right (o', r'.first) (by rw [hr]; simp)
  omega

/-- A sequence has one ordered tree. -/
theorem Ordered.unique {t t' : OpTree α β} (h : t.Ordered prec) (h' : t'.Ordered prec)
    (hfirst : t.first = t'.first) (hlinks : t.links = t'.links) : t = t' := by
  induction t generalizing t' with
  | leaf a =>
      cases t' with
      | leaf a' => exact congrArg leaf hfirst
      | node l' o' r' => simp [links] at hlinks
  | node l o r ihl ihr =>
      cases t' with
      | leaf a' => simp [links] at hlinks
      | node l' o' r' =>
          simp only [links] at hlinks
          rcases List.append_eq_append_iff.mp hlinks with ⟨mid, hl, hr⟩ | ⟨mid, hl, hr⟩
          · cases mid with
            | nil =>
                simp only [List.append_nil] at hl
                obtain ⟨hor, hrs⟩ := List.cons.inj hr
                obtain ⟨rfl, hrf⟩ := Prod.mk.inj hor
                rw [ihl h.2.2.1 h'.2.2.1 hfirst hl.symm, ihr h.2.2.2 h'.2.2.2 hrf hrs]
            | cons x mid =>
                obtain ⟨rfl, hrs⟩ := List.cons.inj hr
                exact (h.not_earlier h' hl hrs).elim
          · cases mid with
            | nil =>
                simp only [List.append_nil] at hl
                obtain ⟨hor, hrs⟩ := List.cons.inj hr
                obtain ⟨rfl, hrf⟩ := Prod.mk.inj hor
                rw [ihl h.2.2.1 h'.2.2.1 hfirst hl, ihr h.2.2.2 h'.2.2.2 hrf.symm hrs.symm]
            | cons x mid =>
                obtain ⟨rfl, hrs⟩ := List.cons.inj hr
                exact (h'.not_earlier h hl hrs).elim

end OpTree

/-! ## The climb -/

open OpTree

/-- The precedence of what comes next, `k` behind the links. -/
def nextPrec (prec : β → Int) (k : Int) : List (β × α) → Int
  | [] => k
  | x :: _ => prec x.1

theorem nextPrec_append (k : Int) (ls rest : List (β × α)) :
    nextPrec prec k (ls ++ rest) = nextPrec prec (nextPrec prec k rest) ls := by
  cases ls with
  | nil => rfl
  | cons x ls => rfl

/-- With `l` read, the links up to a precedence below `m` make it `t`. Behind
them comes the precedence `k`. An operator's right operand is what a climb
above its own precedence makes of the operand behind it. -/
inductive Climb (prec : β → Int) : Int → Int → OpTree α β → List (β × α) → OpTree α β → Prop
  | stop {m k : Int} {l : OpTree α β} (h : k < m) : Climb prec m k l [] l
  | step {m k : Int} {l r t : OpTree α β} {o : β} {u : α} {inner outer : List (β × α)}
      (hm : m ≤ prec o) (hr : Climb prec (prec o + 1) (nextPrec prec k outer) (leaf u) inner r)
      (ht : Climb prec m k (node l o r) outer t) :
      Climb prec m k l ((o, u) :: (inner ++ outer)) t

namespace Climb

variable {m k : Int} {l t : OpTree α β} {ls : List (β × α)}

theorem lt (h : Climb prec m k l ls t) : k < m := by
  induction h with
  | stop h => exact h
  | step hm hr ht ihr iht => exact iht

/-- Where what comes next does not reach `m`, nothing is consumed. -/
theorem of_next_lt (h : Climb prec m k l ls t) (hnext : nextPrec prec k ls < m) :
    ls = [] ∧ t = l := by
  cases h with
  | stop h => exact ⟨rfl, rfl⟩
  | step hm hr ht => exact absurd hm (Int.not_le.mpr hnext)

theorem first_eq (h : Climb prec m k l ls t) : t.first = l.first := by
  induction h with
  | stop h => rfl
  | step hm hr ht ihr iht => exact iht

theorem links_eq (h : Climb prec m k l ls t) : t.links = l.links ++ ls := by
  induction h with
  | stop h => simp
  | step hm hr ht ihr iht => simp [iht, links, ihr, hr.first_eq, first]

theorem le_root (h : Climb prec m k l ls t) (hl : l.RootIs fun o => m ≤ prec o) :
    t.RootIs fun o => m ≤ prec o := by
  induction h with
  | stop h => exact hl
  | step hm hr ht ihr iht => exact iht hm

/-- The tree read so far binds at least as strongly as what comes next: so it
can be a left operand of it. -/
theorem ordered (h : Climb prec m k l ls t) (hl : l.Ordered prec)
    (hroot : l.RootIs fun o => nextPrec prec k ls ≤ prec o) : t.Ordered prec := by
  induction h with
  | stop h => exact hl
  | @step m k l r t o u inner outer hm hr ht ihr iht =>
      have hright : r.RootIs fun p => prec o < prec p := hr.le_root trivial
      have hnext : nextPrec prec k outer ≤ prec o := Int.lt_add_one_iff.mp hr.lt
      exact iht ⟨hroot, hright, hl, ihr trivial trivial⟩ hnext

end Climb

/-- From any point the climb goes as far as some split of the links. By
induction on how many there are: the operand behind an operator takes some,
the tree that makes takes more. -/
theorem exists_climb_split (prec : β → Int) {m k : Int} (l : OpTree α β) (ls : List (β × α))
    (hk : k < m) :
    ∃ done rest t, ls = done ++ rest ∧ Climb prec m (nextPrec prec k rest) l done t := by
  match ls with
  | [] => exact ⟨[], [], l, rfl, .stop hk⟩
  | (o, u) :: ls =>
      by_cases hm : m ≤ prec o
      · obtain ⟨inner, rest, r, rfl, hr⟩ :=
          exists_climb_split prec (m := prec o + 1) (leaf u) ls (by omega : k < prec o + 1)
        have hlen : rest.length < ((o, u) :: (inner ++ rest)).length := by
          rw [List.length_cons, List.length_append]
          omega
        obtain ⟨outer, rest, t, rfl, ht⟩ := exists_climb_split prec (node l o r) rest hk
        rw [nextPrec_append] at hr
        exact ⟨(o, u) :: (inner ++ outer), rest, t, by simp, .step hm hr ht⟩
      · exact ⟨[], (o, u) :: ls, l, rfl, .stop (Int.not_le.mp hm)⟩
termination_by ls.length

/-- Where every operator binds strongly enough, the climb takes them all. -/
theorem exists_climb {m k : Int} (l : OpTree α β) {ls : List (β × α)} (hk : k < m)
    (hls : ∀ x ∈ ls, m ≤ prec x.1) : ∃ t, Climb prec m k l ls t := by
  obtain ⟨done, rest, t, rfl, ht⟩ := exists_climb_split prec l ls hk
  cases rest with
  | nil => exact ⟨t, by simpa [nextPrec] using ht⟩
  | cons x rest =>
      have hlt : prec x.1 < m := ht.lt
      have hle := hls x (by simp)
      omega

end LlvmPasses.Precedence
