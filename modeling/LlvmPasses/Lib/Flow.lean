/-!
# Paths in a flow graph

Nodes with edges between them and one entry. A path to a node is the list of
nodes left on the way to it, the entry first; a node strictly dominates
another when it is on every path to it.

`covered` is how a fact about all paths is proved without looking at one: give
each node a set of things said to have happened before it, none for the entry,
and check that along every edge what is said of the target was said of the
source or happens in it.

A walk also says which of its successors a node was left for. Paths and walks
can be cut where a node is left, and continued with any other way to the cut.
-/

namespace LlvmPasses.Flow

variable {ν α : Type} {entry : ν} {edge : ν → ν → Prop} {p : List ν} {a b c : ν}

inductive Path (entry : ν) (edge : ν → ν → Prop) : List ν → ν → Prop where
  | start : Path entry edge [] entry
  | snoc {p : List ν} {a b : ν} : Path entry edge p a → edge a b → Path entry edge (p ++ [a]) b

def Reachable (entry : ν) (edge : ν → ν → Prop) (a : ν) : Prop := ∃ p, Path entry edge p a

/-- `a` strictly dominates `b`: whatever the way to `b`, it passes `a`. -/
def StrictlyDominates (entry : ν) (edge : ν → ν → Prop) (a b : ν) : Prop :=
  ∀ p, Path entry edge p b → a ∈ p

/-- What is said of a node has happened on every path to it. -/
theorem covered {f : ν → List α} {said : ν → α → Prop} (hentry : ∀ x, ¬ said entry x)
    (hedge : ∀ a b x, edge a b → said b x → said a x ∨ x ∈ f a)
    (h : Path entry edge p a) {x : α} (hx : said a x) : x ∈ p.flatMap f := by
  induction h with
  | start => exact absurd hx (hentry x)
  | @snoc p a b _ he ih =>
      rw [List.flatMap_append]
      rcases hedge a b x he hx with ha | ha
      · exact List.mem_append_left _ (ih ha)
      · exact List.mem_append_right _ (by simpa using ha)

/-- A path to any other node has left the entry. -/
theorem Path.entry_mem (h : Path entry edge p a) (hne : a ≠ entry) : entry ∈ p := by
  induction h with
  | start => exact absurd rfl hne
  | @snoc p a b _ _ ih =>
      by_cases ha : a = entry
      · subst ha
        exact List.mem_append_right _ (List.mem_singleton_self _)
      · exact List.mem_append_left _ (ih ha)

/-! ## Cutting paths -/

/-- The part of a path up to where it first leaves a node. -/
theorem Path.upto (h : Path entry edge p b) (ha : a ∈ p) :
    ∃ p₁ p₂, p = p₁ ++ a :: p₂ ∧ Path entry edge p₁ a ∧ a ∉ p₁ := by
  induction h with
  | start => cases ha
  | @snoc p c d hp _ ih =>
      by_cases hmem : a ∈ p
      · obtain ⟨p₁, p₂, rfl, hp₁, hnot⟩ := ih hmem
        exact ⟨p₁, p₂ ++ [c], by simp, hp₁, hnot⟩
      · obtain rfl : a = c := by simpa [hmem] using ha
        exact ⟨p, [], rfl, hp, hmem⟩

/-- A node that is reachable is reached without having been left. -/
theorem Reachable.first (h : Reachable entry edge a) : ∃ p, Path entry edge p a ∧ a ∉ p := by
  obtain ⟨p, hp⟩ := h
  by_cases ha : a ∈ p
  · obtain ⟨p₁, -, -, hp₁, hnot⟩ := hp.upto ha
    exact ⟨p₁, hp₁, hnot⟩
  · exact ⟨p, hp, ha⟩

theorem Path.reachable_of_mem (h : Path entry edge p b) (ha : a ∈ p) :
    Reachable entry edge a := by
  obtain ⟨p₁, -, -, hp₁, -⟩ := h.upto ha
  exact ⟨p₁, hp₁⟩

/-! ## Dominators -/

/-- Every other strict dominator of `b` is one of `a`. -/
structure ImmediatelyDominates (entry : ν) (edge : ν → ν → Prop) (a b : ν) : Prop where
  strict : StrictlyDominates entry edge a b
  nearest : ∀ c, StrictlyDominates entry edge c b → c = a ∨ StrictlyDominates entry edge c a

theorem StrictlyDominates.trans (h : StrictlyDominates entry edge a b)
    (h' : StrictlyDominates entry edge b c) : StrictlyDominates entry edge a c := by
  intro p hp
  obtain ⟨p₁, p₂, rfl, hp₁, -⟩ := hp.upto (h' p hp)
  exact List.mem_append_left _ (h p₁ hp₁)

theorem StrictlyDominates.irrefl (ha : Reachable entry edge a) :
    ¬ StrictlyDominates entry edge a a := by
  intro h
  obtain ⟨p, hp, hnot⟩ := ha.first
  exact hnot (h p hp)

theorem StrictlyDominates.reachable (h : StrictlyDominates entry edge a b)
    (hb : Reachable entry edge b) : Reachable entry edge a := by
  obtain ⟨p, hp⟩ := hb
  exact hp.reachable_of_mem (h p hp)

theorem not_strictlyDominates_entry : ¬ StrictlyDominates entry edge a entry :=
  fun h => nomatch h [] .start

/-- A node has one immediate dominator at most. -/
theorem ImmediatelyDominates.unique (ha : ImmediatelyDominates entry edge a c)
    (hb : ImmediatelyDominates entry edge b c) (hc : Reachable entry edge c) : a = b := by
  rcases hb.nearest a ha.strict with heq | hab
  · exact heq
  rcases ha.nearest b hb.strict with heq | hba
  · exact heq.symm
  exact absurd (hab.trans hba) (StrictlyDominates.irrefl (ha.strict.reachable hc))

/-! ## Walks -/

section Walks

variable {succs : ν → List ν} {w w₁ w₂ : List (ν × Nat)} {j : Nat}

/-- A path with the index of the successor that each node was left for. -/
inductive Walk (entry : ν) (succs : ν → List ν) : List (ν × Nat) → ν → Prop where
  | start : Walk entry succs [] entry
  | snoc {w : List (ν × Nat)} {a b : ν} {j : Nat} : Walk entry succs w a →
      (succs a)[j]? = some b → Walk entry succs (w ++ [(a, j)]) b

/-- The edges of a graph given by successors. -/
def Edge (succs : ν → List ν) (a b : ν) : Prop := b ∈ succs a

theorem Walk.path (h : Walk entry succs w a) :
    Path entry (Edge succs) (w.map Prod.fst) a := by
  induction h with
  | start => exact .start
  | snoc _ hj ih =>
      rw [List.map_append]
      exact .snoc ih (List.mem_of_getElem? hj)

theorem Path.walk (h : Path entry (Edge succs) p a) :
    ∃ w, Walk entry succs w a ∧ w.map Prod.fst = p := by
  induction h with
  | start => exact ⟨[], .start, rfl⟩
  | snoc _ he ih =>
      obtain ⟨w, hw, rfl⟩ := ih
      obtain ⟨j, hj⟩ := List.mem_iff_getElem?.mp he
      exact ⟨_, hw.snoc hj, by simp⟩

/-- What comes after a node was left may come after any other way to the
successor it was left for. -/
theorem Walk.graft (h : Walk entry succs w b) (hw : w = w₁ ++ (a, j) :: w₂) :
    ∃ c, (succs a)[j]? = some c ∧ ∀ w', Walk entry succs w' c →
      Walk entry succs (w' ++ w₂) b := by
  induction h generalizing w₂ with
  | start => exact absurd hw.symm (by simp)
  | @snoc w d b k hwalk hk ih =>
      rcases List.eq_nil_or_concat w₂ with rfl | ⟨w₃, e, rfl⟩
      · have heq := List.append_inj_right' hw rfl
        cases heq
        exact ⟨b, hk, fun w' hw' => by simpa using hw'⟩
      · rw [List.concat_eq_append, ← List.cons_append, ← List.append_assoc] at hw
        obtain ⟨hinit, hlast⟩ := List.append_inj' hw rfl
        cases hlast
        obtain ⟨c, hc, hgraft⟩ := ih hinit
        refine ⟨c, hc, fun w' hw' => ?_⟩
        rw [List.concat_eq_append, ← List.append_assoc]
        exact (hgraft w' hw').snoc hk

/-- Where a walk left a node for the last time. -/
theorem last_left (ha : a ∈ w.map Prod.fst) :
    ∃ w₁ j w₂, w = w₁ ++ (a, j) :: w₂ ∧ a ∉ w₂.map Prod.fst := by
  induction w with
  | nil => cases ha
  | cons p w ih =>
      by_cases hmem : a ∈ w.map Prod.fst
      · obtain ⟨w₁, j, w₂, rfl, hnot⟩ := ih hmem
        exact ⟨p :: w₁, j, w₂, rfl, hnot⟩
      · rcases List.mem_cons.mp ha with rfl | ha
        · exact ⟨[], p.2, w, rfl, hmem⟩
        · exact absurd ha hmem

/-- A node is left for one of its successors. -/
theorem Walk.left (h : Walk entry succs w b) (ha : (a, j) ∈ w) :
    ∃ c, (succs a)[j]? = some c := by
  obtain ⟨w₁, w₂, hw⟩ := List.append_of_mem ha
  obtain ⟨c, hc, -⟩ := h.graft hw
  exact ⟨c, hc⟩

end Walks

end LlvmPasses.Flow
