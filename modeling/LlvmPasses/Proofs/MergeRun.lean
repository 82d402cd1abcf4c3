import LlvmPasses.Proofs.BranchTargets

/-!
# The merges of a run

Each merge of a run of MergeBB, with the state it started from and the state it
left. A merge redirects every predecessor of the block it erases exactly if
those that come after the first on the use list name the retained block as
well. If all merges of a run do, no terminator names a deleted block in the
end: a block that is deleted is never merged into afterwards.

`run_redirects_iff` is about every function, and both sides are about all
merges of the run. That one merge redirects every predecessor exactly if it is
covered is `updateBranchTargets_spec` read for the use list as it is at that
moment. The induction over the loop needs that the blocks on the list are named
by nobody (`NoneNames`): a merge redirects to a block that is not on the list
and is not put on it in the same round, so no terminator comes to name a
deleted block again.
-/

namespace LlvmPasses.MergeBB

open Ir

structure Merge where
  before : State
  erased : Nat
  retained : Nat
  after : State

/-- Every operand that named the erased block names the retained one, and no
other operand of a terminator has changed. -/
def Merge.Redirects (m : Merge) : Prop :=
  ∀ b ∈ m.before.fn.order, ∀ i, m.after.fn.termOperand b i =
    if m.before.fn.termOperand b i = some (.block m.erased) then some (.block m.retained)
    else m.before.fn.termOperand b i

/-- Every predecessor of the erased block but the first is one of the retained
block too. -/
def Merge.Covered (m : Merge) : Prop :=
  ∀ b ∈ m.before.predecessors m.erased,
    (m.before.predecessors m.erased).head? = some b ∨ b ∈ m.before.predecessors m.retained

instance (m : Merge) : Decidable m.Covered :=
  inferInstanceAs (Decidable (∀ b ∈ m.before.predecessors m.erased, _ ∨ _))

namespace State

/-- The merges that the loop over `rest` performs. -/
def merges (s : State) (deleteList : List Nat) : List Nat → List Merge
  | [] => []
  | bb :: rest =>
      match s.mergeTarget deleteList bb with
      | .error _ => []
      | .ok none => s.merges deleteList rest
      | .ok (some bb2) =>
          match s.updateBranchTargets bb bb2 with
          | .error _ => []
          | .ok s' => ⟨s, bb, bb2, s'⟩ :: s'.merges (deleteList ++ [bb]) rest

/-- No terminator of a block that stays names a block that does not. -/
def NoneDangles (s : State) (deleteList : List Nat) : Prop :=
  ∀ b ∈ s.fn.order, b ∉ deleteList → ∀ i k, s.fn.termOperand b i = some (.block k) →
    k ∉ deleteList

section

variable {s s' : State} {bb bb2 : Nat} {deleteList : List Nat}

/-! ## One merge -/

theorem accepts_true {phiNode : Option (Instr Op × Value)}
    (h : s.accepts deleteList bb bb2 phiNode = .ok true) : bb2 ∉ deleteList ∧ bb ≠ bb2 := by
  unfold accepts at h
  split at h
  · cases h
  · split at h
    · cases h
    · split at h
      · cases h
      · split at h
        · cases h
        · next hcond =>
            simp only [Bool.or_eq_true, List.contains_eq_mem, decide_eq_true_eq, beq_iff_eq,
              not_or] at hcond
            exact ⟨hcond.1.1, hcond.1.2⟩

theorem candidate_some {phiNode : Option (Instr Op × Value)} {preds : List Nat}
    (h : s.candidate deleteList bb phiNode preds = .ok (some bb2)) :
    bb2 ∉ deleteList ∧ bb ≠ bb2 := by
  induction preds with
  | nil => cases h
  | cons k preds ih =>
      unfold candidate at h
      cases ha : s.accepts deleteList bb k phiNode with
      | error e =>
          rw [ha] at h
          cases h
      | ok taken =>
          rw [ha] at h
          cases taken with
          | true =>
              cases h
              exact accepts_true ha
          | false => exact ih h

theorem mergeTarget_some (h : s.mergeTarget deleteList bb = .ok (some bb2)) :
    bb2 ∉ deleteList ∧ bb ≠ bb2 := by
  unfold mergeTarget at h
  split at h
  · cases h
  · split at h
    · cases h
    · split at h
      · cases h
      · split at h
        · cases h
        · next succ _ =>
            cases hp : successorPhi s.fn bb succ with
            | error e =>
                rw [hp] at h
                cases h
            | ok o =>
                rw [hp] at h
                cases o with
                | none => cases h
                | some phiNode => exact candidate_some h

/-- One round of the loop that did not fail. -/
theorem mergeBlocks_cons {changed : Bool} {rest : List Nat} {r : Bool × State × List Nat}
    (h : s.mergeBlocks deleteList changed (bb :: rest) = .ok r) :
    (s.mergeTarget deleteList bb = .ok none ∧
      s.mergeBlocks deleteList (changed || false) rest = .ok r) ∨
    ∃ bb2 s', s.mergeTarget deleteList bb = .ok (some bb2) ∧
      s.updateBranchTargets bb bb2 = .ok s' ∧
      s'.mergeBlocks (deleteList ++ [bb]) (changed || true) rest = .ok r := by
  rw [mergeBlocks, mergeDuplicatedBlock] at h
  cases ht : s.mergeTarget deleteList bb with
  | error e =>
      rw [ht] at h
      cases h
  | ok target =>
      rw [ht] at h
      cases target with
      | none => exact .inl ⟨rfl, h⟩
      | some bb2 =>
          cases hu : s.updateBranchTargets bb bb2 with
          | error e =>
              simp only [hu, bind, Except.bind] at h
              cases h
          | ok s' =>
              right
              refine ⟨bb2, s', rfl, hu, ?_⟩
              simpa [hu, bind, Except.bind, pure, Except.pure] using h

/-- A merge redirects every predecessor exactly if it is covered. -/
theorem redirects_iff_covered (hs : s.Linked) (hne : bb ≠ bb2)
    (h : s.updateBranchTargets bb bb2 = .ok s') :
    Merge.Redirects ⟨s, bb, bb2, s'⟩ ↔ Merge.Covered ⟨s, bb, bb2, s'⟩ := by
  obtain ⟨t, ht, -, -, hoperand⟩ := updateBranchTargets_spec hs hne
  rw [h] at ht
  cases ht
  unfold Merge.Redirects Merge.Covered
  simp only [hoperand]
  have hreached : ∀ b, b ∈ s.reached bb bb2 ↔
      (s.predecessors bb).head? = some b ∨ b ∈ s.predecessors bb2 := by
    intro b
    simp only [reached, List.mem_append, Option.mem_toList]
  constructor
  · intro hall b hb
    obtain ⟨horder, i, hop⟩ := (mem_predecessors hs).mp hb
    have heq := hall b horder i
    rw [if_pos hop] at heq
    refine (hreached b).mp (Decidable.by_contra fun hnot => ?_)
    rw [if_neg (fun hand => hnot hand.1), hop] at heq
    cases heq
    exact hne rfl
  · intro hcovered b horder i
    by_cases hop : s.fn.termOperand b i = some (.block bb)
    · have hb : b ∈ s.predecessors bb := (mem_predecessors hs).mpr ⟨horder, i, hop⟩
      rw [if_pos ⟨(hreached b).mpr (hcovered b hb), hop⟩, if_pos hop]
    · rw [if_neg (fun hand => hop hand.2), if_neg hop]

/-! ## All of them -/

/-- In a run, every merge redirects every predecessor exactly if every merge is
covered. -/
theorem merges_redirect_iff (rest : List Nat) :
    ∀ (s : State) (deleteList : List Nat), s.Linked →
      ((∀ m ∈ s.merges deleteList rest, m.Redirects) ↔
        ∀ m ∈ s.merges deleteList rest, m.Covered) := by
  induction rest with
  | nil => exact fun s deleteList _ => by simp [merges]
  | cons bb rest ih =>
      intro s deleteList hs
      rw [merges]
      cases ht : s.mergeTarget deleteList bb with
      | error e => simp
      | ok target =>
          cases target with
          | none => exact ih s deleteList hs
          | some bb2 =>
              have hne := (mergeTarget_some ht).2
              obtain ⟨s', hu, hlinked, -, -⟩ := updateBranchTargets_spec hs hne
              simp only [hu, List.forall_mem_cons]
              rw [redirects_iff_covered hs hne hu, ih s' _ hlinked]

/-- No terminator names a block on the list. -/
def NoneNames (s : State) (deleteList : List Nat) : Prop :=
  ∀ b ∈ s.fn.order, ∀ i, ∀ k ∈ deleteList, s.fn.termOperand b i ≠ some (.block k)

theorem NoneNames.merge (h : s.NoneNames deleteList) (horder : s'.fn.order = s.fn.order)
    (hm : Merge.Redirects ⟨s, bb, bb2, s'⟩) (hnot : bb2 ∉ deleteList) (hne : bb ≠ bb2) :
    s'.NoneNames (deleteList ++ [bb]) := by
  intro b hb i k hk hop
  rw [horder] at hb
  have heq := hm b hb i
  simp only [hop] at heq
  split at heq
  · cases heq
    rcases List.mem_append.mp hk with hk | hk
    · exact hnot hk
    · exact hne (List.mem_singleton.mp hk).symm
  · next hother =>
      rcases List.mem_append.mp hk with hk | hk
      · exact h b hb i k hk heq.symm
      · obtain rfl := List.mem_singleton.mp hk
        exact hother heq.symm

/-- What the loop returns, when all its merges redirect every predecessor. -/
theorem mergeBlocks_noneNames (rest : List Nat) :
    ∀ (s : State) (deleteList : List Nat) (changed : Bool), s.Linked →
      s.NoneNames deleteList → (∀ m ∈ s.merges deleteList rest, m.Redirects) →
      ∀ changed' s' deleteList',
        s.mergeBlocks deleteList changed rest = .ok (changed', s', deleteList') →
        s'.NoneNames deleteList' := by
  induction rest with
  | nil =>
      intro s deleteList changed _ h _ changed' s' deleteList' hrun
      cases hrun
      exact h
  | cons bb rest ih =>
      intro s deleteList changed hs h hall changed' s' deleteList' hrun
      rw [merges] at hall
      rcases mergeBlocks_cons hrun with ⟨ht, hrun⟩ | ⟨bb2, t, ht, hu, hrun⟩
      · simp only [ht] at hall
        exact ih s deleteList _ hs h hall changed' s' deleteList' hrun
      · obtain ⟨hnot, hne⟩ := mergeTarget_some ht
        obtain ⟨t', hu', hlinked, horder, -⟩ := updateBranchTargets_spec hs hne
        rw [hu] at hu'
        cases hu'
        simp only [ht, hu, List.forall_mem_cons] at hall
        exact ih t _ _ hlinked (h.merge horder hall.1 hnot hne) hall.2 changed' s' deleteList' hrun

/-- Every merge of a run redirects every predecessor of the block it erases,
and no terminator of a block that stays names a deleted one, exactly if every
merge is covered. -/
theorem run_redirects_iff (s : State) (hs : s.Linked) :
    ((∀ m ∈ s.merges [] s.fn.order, m.Redirects) ∧
      ∀ changed s' deleteList, s.mergeBlocks [] false s.fn.order = .ok (changed, s', deleteList) →
        s'.NoneDangles deleteList) ↔
      ∀ m ∈ s.merges [] s.fn.order, m.Covered := by
  rw [← merges_redirect_iff s.fn.order s [] hs]
  refine ⟨fun h => h.1, fun h => ⟨h, fun changed s' deleteList hrun => ?_⟩⟩
  have hnone : s.NoneNames [] := fun _ _ _ _ hk => nomatch hk
  have hnames := mergeBlocks_noneNames s.fn.order s [] false hs hnone h changed s' deleteList hrun
  exact fun b hb _ i k hop hk => hnames b hb i k hk hop

end

end State

/-! ### Two blocks that are alike -/

def br (id : Nat) (dest : Nat) : Instr TermOp := ⟨id, .void, .br, [.block dest], [], {}⟩

def condBr (id : Nat) (cond : Value) (ifFalse ifTrue : Nat) : Instr TermOp :=
  ⟨id, .void, .br, [cond, .block ifFalse, .block ifTrue], [], {}⟩

/-- `inputs/foo.ll`. -/
def foo : Function where
  params := [.int 32]
  retTy := .int 32
  order := [1, 3, 5, 7]
  block := fun k => match k with
    | 1 => ⟨[⟨2, .int 1, .icmp .eq, [.arg 0, .constInt 32 19], [], {}⟩], condBr 9 (.inst 2) 5 3⟩
    | 3 => ⟨[⟨4, .int 32, .binop .add, [.arg 0, .constInt 32 13], [], {}⟩], br 10 7⟩
    | 5 => ⟨[⟨6, .int 32, .binop .add, [.arg 0, .constInt 32 13], [], {}⟩], br 11 7⟩
    | _ => ⟨[⟨8, .int 32, .phi, [.inst 4, .inst 6], [3, 5], {}⟩],
        ⟨12, .void, .ret, [.inst 8], [], {}⟩⟩
  nextBlock := 8
  nextInst := 13

theorem run_redirects_iff_foo :
    (∀ m ∈ (State.ofFunction foo).merges [] foo.order, m.Redirects) ∧
      ∀ changed s' deleteList,
        (State.ofFunction foo).mergeBlocks [] false foo.order = .ok (changed, s', deleteList) →
          s'.NoneDangles deleteList :=
  (State.run_redirects_iff (.ofFunction foo) (State.linked_ofFunction (by decide))).mpr
    (by decide)

/-- Block 3 is reached from the blocks 0 and 1, and block 4, which is as empty
as it is, from block 2. -/
def twoPredecessors : Function where
  params := [.int 1]
  retTy := .void
  order := [0, 1, 2, 3, 4, 5]
  block := fun k => match k with
    | 0 => ⟨[], condBr 0 (.arg 0) 1 3⟩
    | 1 => ⟨[], condBr 1 (.arg 0) 2 3⟩
    | 2 => ⟨[], condBr 2 (.arg 0) 5 4⟩
    | 3 => ⟨[], br 3 5⟩
    | 4 => ⟨[], br 4 5⟩
    | _ => ⟨[], ⟨5, .void, .ret, [], [], {}⟩⟩
  nextBlock := 6
  nextInst := 6

/-- Only one of the two predecessors is redirected. -/
theorem predecessor_left_behind :
    ¬ ∀ s : State, s.Linked → (∀ m ∈ s.merges [] s.fn.order, m.Redirects) ∧
      ∀ changed s' deleteList, s.mergeBlocks [] false s.fn.order = .ok (changed, s', deleteList) →
        s'.NoneDangles deleteList := by
  intro h
  have hrun : (match (State.ofFunction twoPredecessors).mergeBlocks [] false
      twoPredecessors.order with
    | .ok (_, s', deleteList) => decide (3 ∈ deleteList ∧ 0 ∉ deleteList ∧ 0 ∈ s'.fn.order ∧
        s'.fn.termOperand 0 2 = some (.block 3))
    | .error _ => false) = true := by decide
  have hall := (h (.ofFunction twoPredecessors) (State.linked_ofFunction (by decide))).2
  cases hm : (State.ofFunction twoPredecessors).mergeBlocks [] false twoPredecessors.order with
  | error e =>
      rw [hm] at hrun
      cases hrun
  | ok r =>
      obtain ⟨changed, s', deleteList⟩ := r
      rw [hm] at hrun
      obtain ⟨hdeleted, hnot, horder, hop⟩ := of_decide_eq_true hrun
      exact hall changed s' deleteList hm 0 horder hnot 2 3 hop hdeleted

end LlvmPasses.MergeBB
