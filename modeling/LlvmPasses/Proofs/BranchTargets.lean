import Mathlib.Data.List.Nodup
import LlvmPasses.Pass.MergeBB

/-!
# What updateBranchTargets reaches

The walk over the predecessors of the erased block leaves its use list at the
first step: the body of the loop has moved the use it stands on to the front of
the retained block's list, and the link it then follows is that list's. So it
goes on over the terminators that name the retained block, and those are all it
comes by besides the first. A terminator that names the erased block is
redirected exactly if it is the first on the list or names the retained block
as well.

`updateBranchTargets_spec` is what the other modules use. It says that the
function returns, which terminators it came by, and that each of these has had
every operand that named the erased block set to the retained one, while
nothing else has changed. Everything that is proved about the merge starts from
this set of terminators, and the predecessors that are missing from it are what
goes wrong there.

Three loops are nested in the source, and there is one section for each.
Setting an operand moves a use from one list to another and changes no other
(`Linked.setOperand`). The inner loop redirects the operands of one terminator,
by induction on how many have been done (`Redirected`). The walk then follows
the links: once the cursor is on the retained block's list nothing behind it
moves any more, so it comes to the end of that list (`walk_along`).
-/

namespace LlvmPasses.MergeBB

open Ir

namespace State

/-- The use lists are those of the function: each operand of a terminator that
names a block is on the block's list, once. -/
structure Linked (s : State) : Prop where
  nodup : ∀ k, (s.uses k).Nodup
  mem_iff : ∀ b i k, .operand b i ∈ s.uses k ↔
    b ∈ s.fn.order ∧ s.fn.termOperand b i = some (.block k)

theorem linked_ofFunction {F : Function} (h : F.order.Nodup) : (ofFunction F).Linked where
  nodup := fun k => by
    refine List.nodup_reverse.mpr (List.nodup_flatMap.mpr ⟨fun b _ => ?_, ?_⟩)
    · exact (List.nodup_range.filter _).map fun i j heq => by
        cases heq
        rfl
    · refine h.imp fun {b c} hne u hb hc => ?_
      obtain ⟨i, -, rfl⟩ := List.mem_map.mp hb
      obtain ⟨j, -, heq⟩ := List.mem_map.mp hc
      cases heq
      exact hne rfl
  mem_iff := fun b i k => by
    show BlockUse.operand b i ∈ usesOf F k ↔ b ∈ F.order ∧ F.termOperand b i = some (.block k)
    unfold usesOf
    rw [List.mem_reverse, List.mem_flatMap]
    constructor
    · rintro ⟨c, hc, hmem⟩
      obtain ⟨j, hj, heq⟩ := List.mem_map.mp hmem
      cases heq
      exact ⟨hc, by simpa using (List.mem_filter.mp hj).2⟩
    · rintro ⟨hb, hop⟩
      have hlt : i < (F.block b).term.operands.length := (List.getElem?_eq_some_iff.mp hop).1
      refine ⟨b, hb, List.mem_map.mpr ⟨i, List.mem_filter.mpr ⟨List.mem_range.mpr hlt, ?_⟩, rfl⟩⟩
      simpa using hop

/-! ## One operand -/

section SetOperand

variable {s : State} {b i : Nat} {old new : Nat}

theorem setOperand_order (s : State) (b i : Nat) (new : Nat) :
    (s.setOperand b i new).fn.order = s.fn.order := rfl

theorem setOperand_termOperand (h : s.fn.termOperand b i = some (.block old)) (c j : Nat) :
    (s.setOperand b i new).fn.termOperand c j =
      if c = b ∧ j = i then some (.block new) else s.fn.termOperand c j := by
  have hlt : i < (s.fn.block b).term.operands.length :=
    (List.getElem?_eq_some_iff.mp h).1
  unfold setOperand Function.termOperand Function.setBlock
  simp only
  by_cases hc : c = b
  · subst hc
    by_cases hj : j = i
    · subst hj
      simp [hlt]
    · have hne : i ≠ j := fun heq => hj heq.symm
      simp [hj, hne]
  · simp [hc]

theorem setOperand_uses (h : s.fn.termOperand b i = some (.block old)) (hne : old ≠ new)
    (k : Nat) : (s.setOperand b i new).uses k =
      if k = new then .operand b i :: s.uses new
      else if k = old then (s.uses old).erase (.operand b i) else s.uses k := by
  unfold setOperand
  simp only [h, addUse, unlink]
  by_cases hk : k = new
  · subst hk
    have hne' : ¬ k = old := fun heq => hne heq.symm
    simp [hne']
  · rw [if_neg hk, if_neg hk]
    by_cases ho : k = old
    · rw [if_pos ho, if_pos ho, ho]
    · rw [if_neg ho, if_neg ho]

theorem mem_setOperand_uses (hs : s.Linked) (h : s.fn.termOperand b i = some (.block old))
    (hne : old ≠ new) (u : BlockUse) (k : Nat) :
    u ∈ (s.setOperand b i new).uses k ↔
      if u = .operand b i then k = new else u ∈ s.uses k := by
  rw [setOperand_uses h hne]
  by_cases hk : k = new
  · subst hk
    rw [if_pos rfl]
    by_cases hu : u = .operand b i
    · simp [hu]
    · simp [hu]
  · rw [if_neg hk]
    by_cases ho : k = old
    · subst ho
      rw [if_pos rfl, (hs.nodup k).mem_erase_iff]
      by_cases hu : u = .operand b i
      · simp [hu, hne]
      · simp [hu]
    · rw [if_neg ho]
      by_cases hu : u = .operand b i
      · subst hu
        rw [if_pos rfl, hs.mem_iff, h]
        constructor
        · rintro ⟨-, heq⟩
          cases heq
          exact absurd rfl ho
        · exact fun heq => absurd heq hk
      · rw [if_neg hu]

theorem Linked.setOperand (hs : s.Linked) (hb : b ∈ s.fn.order)
    (h : s.fn.termOperand b i = some (.block old)) (hne : old ≠ new) :
    (s.setOperand b i new).Linked where
  nodup := fun k => by
    rw [setOperand_uses h hne]
    split
    · refine List.nodup_cons.mpr ⟨fun hmem => ?_, hs.nodup new⟩
      have heq := ((hs.mem_iff b i new).mp hmem).2
      rw [h] at heq
      cases heq
      exact hne rfl
    · split
      · exact (hs.nodup old).erase _
      · exact hs.nodup k
  mem_iff := fun c j k => by
    rw [mem_setOperand_uses hs h hne, setOperand_termOperand h, setOperand_order]
    by_cases hu : c = b ∧ j = i
    · obtain ⟨rfl, rfl⟩ := hu
      simp [hb, eq_comm]
    · have hne' : BlockUse.operand c j ≠ .operand b i := by
        intro heq
        cases heq
        exact hu ⟨rfl, rfl⟩
      rw [if_neg hu, if_neg hne', hs.mem_iff]

theorem length_setOperand_uses (hs : s.Linked) (hb : b ∈ s.fn.order)
    (h : s.fn.termOperand b i = some (.block old)) (hne : old ≠ new) :
    ((s.setOperand b i new).uses old).length + ((s.setOperand b i new).uses new).length =
      (s.uses old).length + (s.uses new).length := by
  have hmem : .operand b i ∈ s.uses old := (hs.mem_iff b i old).mpr ⟨hb, h⟩
  have hpos := List.length_pos_of_mem hmem
  rw [setOperand_uses h hne, setOperand_uses h hne, if_neg hne, if_pos rfl, if_pos rfl,
    List.length_erase_of_mem hmem, List.length_cons]
  omega

end SetOperand

/-! ## One terminator -/

/-- The first `n` operands of `pred` have been redirected. -/
structure Redirected (bbToErase bbToRetain : Nat) (s : State) (pred : Nat) (n : Nat)
    (s' : State) : Prop where
  linked : s'.Linked
  order : s'.fn.order = s.fn.order
  operand : ∀ b j, s'.fn.termOperand b j =
    if b = pred ∧ j < n ∧ s.fn.termOperand b j = some (.block bbToErase) then
      some (.block bbToRetain)
    else s.fn.termOperand b j
  moved : ∃ us, s'.uses bbToRetain = us ++ s.uses bbToRetain ∧
    ∀ u ∈ us, ∃ j, u = .operand pred j
  length : (s'.uses bbToErase).length + (s'.uses bbToRetain).length =
    (s.uses bbToErase).length + (s.uses bbToRetain).length

section Redirect

variable {bb bb2 pred : Nat} {s s' : State} {n : Nat}

theorem Redirected.zero (hs : s.Linked) : Redirected bb bb2 s pred 0 s :=
  ⟨hs, rfl, fun b j => by simp, ⟨[], by simp, nofun⟩, rfl⟩

/-- One round of the inner loop. -/
theorem Redirected.succ (h : Redirected bb bb2 s pred n s') (hpred : pred ∈ s.fn.order)
    (hne : bb ≠ bb2) : Redirected bb bb2 s pred (n + 1)
      (if s'.fn.termOperand pred n = some (.block bb) then s'.setOperand pred n bb2 else s') := by
  have hn : s'.fn.termOperand pred n = s.fn.termOperand pred n := by
    rw [h.operand, if_neg (fun hand => Nat.lt_irrefl n hand.2.1)]
  by_cases hop : s'.fn.termOperand pred n = some (.block bb)
  · rw [if_pos hop]
    have hpred' : pred ∈ s'.fn.order := by rw [h.order]; exact hpred
    obtain ⟨us, hus, hfrom⟩ := h.moved
    refine ⟨h.linked.setOperand hpred' hop hne, h.order, fun b j => ?_,
      ⟨.operand pred n :: us, ?_, ?_⟩, ?_⟩
    · rw [setOperand_termOperand hop, h.operand]
      by_cases hbj : b = pred ∧ j = n
      · obtain ⟨rfl, rfl⟩ := hbj
        rw [hn] at hop
        simp [hop]
      · rw [if_neg hbj]
        congr 1
        refine propext ⟨fun ⟨hb, hj, heq⟩ => ⟨hb, by omega, heq⟩, fun ⟨hb, hj, heq⟩ => ?_⟩
        exact ⟨hb, Nat.lt_of_le_of_ne (Nat.le_of_lt_succ hj) (fun hjn => hbj ⟨hb, hjn⟩), heq⟩
    · rw [setOperand_uses hop hne, if_pos rfl, hus]
      rfl
    · intro u hu
      rcases List.mem_cons.mp hu with rfl | hu
      · exact ⟨n, rfl⟩
      · exact hfrom u hu
    · rw [length_setOperand_uses h.linked hpred' hop hne, h.length]
  · rw [if_neg hop]
    refine ⟨h.linked, h.order, fun b j => ?_, h.moved, h.length⟩
    rw [h.operand]
    congr 1
    refine propext ⟨fun ⟨hb, hj, heq⟩ => ⟨hb, by omega, heq⟩, fun ⟨hb, hj, heq⟩ => ?_⟩
    refine ⟨hb, Nat.lt_of_le_of_ne (Nat.le_of_lt_succ hj) (fun hjn => ?_), heq⟩
    rw [hb, hjn, ← hn] at heq
    exact hop heq

/-- The inner loop redirects every operand of the terminator. -/
theorem redirected_redirect (hs : s.Linked) (hpred : pred ∈ s.fn.order) (hne : bb ≠ bb2) :
    Redirected bb bb2 s pred (s.fn.block pred).term.operands.length
      (s.redirect bb bb2 pred) := by
  unfold redirect
  generalize (s.fn.block pred).term.operands.length = n
  induction n with
  | zero => exact .zero hs
  | succ n ih =>
      rw [List.range_succ, List.foldl_append]
      exact ih.succ hpred hne

theorem redirect_termOperand (hs : s.Linked) (hpred : pred ∈ s.fn.order) (hne : bb ≠ bb2)
    (b j : Nat) : (s.redirect bb bb2 pred).fn.termOperand b j =
      if b = pred ∧ s.fn.termOperand b j = some (.block bb) then some (.block bb2)
      else s.fn.termOperand b j := by
  rw [(redirected_redirect hs hpred hne).operand]
  congr 1
  refine propext ⟨fun ⟨hb, _, heq⟩ => ⟨hb, heq⟩, fun ⟨hb, heq⟩ => ⟨hb, ?_, heq⟩⟩
  rw [hb] at heq
  exact (List.getElem?_eq_some_iff.mp heq).1

end Redirect

/-! ## The walk -/

/-- The terminators on a list of uses, redirected one after the other. -/
def redirectAll (bbToErase bbToRetain : Nat) : List BlockUse → State → State
  | [], s => s
  | .operand pred _ :: us, s => redirectAll bbToErase bbToRetain us
      (s.redirect bbToErase bbToRetain pred)
  | .blockAddress _ _ :: us, s => redirectAll bbToErase bbToRetain us s

section Walk

variable {bb bb2 : Nat} {s : State}

theorem dropWhile_before {u : BlockUse} {pre post : List BlockUse} (h : u ∉ pre) :
    (pre ++ u :: post).dropWhile (fun w => w != u) = u :: post := by
  induction pre with
  | nil => simp
  | cons w pre ih =>
      have hw : w ≠ u := fun heq => h (heq ▸ List.mem_cons_self ..)
      have hpre : u ∉ pre := fun hmem => h (List.mem_cons_of_mem _ hmem)
      simp [hw, ih hpre]

/-- The link that is followed is that of the list the use is on now. -/
theorem behind_eq {p i : Nat} {k : Nat} {pre post : List BlockUse} (hs : s.Linked)
    (hop : s.fn.termOperand p i = some (.block k))
    (huses : s.uses k = pre ++ .operand p i :: post) : s.behind p i = post := by
  have hnodup := hs.nodup k
  rw [huses, List.nodup_append] at hnodup
  have hnot : BlockUse.operand p i ∉ pre := fun hmem =>
    hnodup.2.2 _ hmem _ (List.mem_cons_self ..) rfl
  unfold behind
  simp only [hop, huses]
  rw [dropWhile_before hnot]
  rfl

theorem mem_order_of_uses (hs : s.Linked) {p i : Nat} {k : Nat}
    (h : .operand p i ∈ s.uses k) : p ∈ s.fn.order := ((hs.mem_iff p i k).mp h).1

/-- Along the retained block's own list: nothing behind the cursor is moved, so
the walk comes by every terminator of it. -/
theorem walk_along (hne : bb ≠ bb2) (post : List BlockUse) :
    ∀ (pre : List BlockUse) (s : State) (n : Nat), s.Linked → s.uses bb2 = pre ++ post →
      post.length ≤ n → walk bb bb2 n (firstOperand post) s = .ok (redirectAll bb bb2 post s) := by
  induction post with
  | nil =>
      intro pre s n _ _ _
      cases n <;> rfl
  | cons u post ih =>
      intro pre s n hs huses hlen
      have hassoc : s.uses bb2 = (pre ++ [u]) ++ post := by simp [huses]
      rw [List.length_cons] at hlen
      cases u with
      | blockAddress k m => exact ih _ s n hs hassoc (by omega)
      | operand p i =>
          obtain ⟨n, rfl⟩ : ∃ m, n = m + 1 := ⟨n - 1, by omega⟩
          have hmem : .operand p i ∈ s.uses bb2 := by simp [huses]
          have hp := mem_order_of_uses hs hmem
          have hop := ((hs.mem_iff p i bb2).mp hmem).2
          have hr := redirected_redirect hs hp hne
          have hop' : (s.redirect bb bb2 p).fn.termOperand p i = some (.block bb2) := by
            rw [redirect_termOperand hs hp hne, hop]
            split <;> rfl
          obtain ⟨us, hus, -⟩ := hr.moved
          have huses' : (s.redirect bb bb2 p).uses bb2 = (us ++ pre) ++ .operand p i :: post := by
            rw [hus, huses, List.append_assoc]
          have hbehind := behind_eq hr.linked hop' huses'
          show walk bb bb2 n (firstOperand ((s.redirect bb bb2 p).behind p i)) _ = _
          rw [hbehind]
          refine ih (us ++ (pre ++ [.operand p i])) _ n hr.linked ?_ (by omega)
          rw [hus, hassoc, List.append_assoc, List.append_assoc, List.append_assoc]

theorem mem_terminators {us : List BlockUse} {b : Nat} :
    b ∈ terminators us ↔ ∃ i, .operand b i ∈ us := by
  unfold terminators
  rw [List.mem_filterMap]
  constructor
  · rintro ⟨u, hu, heq⟩
    cases u with
    | operand user i =>
        cases heq
        exact ⟨i, hu⟩
    | blockAddress k n => cases heq
  · rintro ⟨i, hu⟩
    exact ⟨_, hu, rfl⟩

theorem mem_predecessors (hs : s.Linked) {b k : Nat} :
    b ∈ s.predecessors k ↔ b ∈ s.fn.order ∧ ∃ i, s.fn.termOperand b i = some (.block k) := by
  rw [predecessors, mem_terminators]
  simp only [hs.mem_iff, exists_and_left]

/-- The terminators redirected are those on the list. -/
theorem redirectAll_spec (hne : bb ≠ bb2) (us : List BlockUse) :
    ∀ s : State, s.Linked → (∀ p ∈ terminators us, p ∈ s.fn.order) →
      (redirectAll bb bb2 us s).Linked ∧ (redirectAll bb bb2 us s).fn.order = s.fn.order ∧
      ∀ b j, (redirectAll bb bb2 us s).fn.termOperand b j =
        if b ∈ terminators us ∧ s.fn.termOperand b j = some (.block bb) then some (.block bb2)
        else s.fn.termOperand b j := by
  induction us with
  | nil =>
      intro s hs _
      exact ⟨hs, rfl, fun b j => by simp [redirectAll, terminators]⟩
  | cons u us ih =>
      intro s hs horder
      cases u with
      | blockAddress k m => exact ih s hs horder
      | operand p i =>
          have hcons : terminators (.operand p i :: us) = p :: terminators us := rfl
          rw [hcons] at horder ⊢
          have hp := horder p (List.mem_cons_self ..)
          have hr := redirected_redirect hs hp hne
          obtain ⟨hlinked, heq, hop⟩ := ih _ hr.linked fun q hq => by
            rw [hr.order]
            exact horder q (List.mem_cons_of_mem _ hq)
          refine ⟨hlinked, heq.trans hr.order, fun b j => ?_⟩
          rw [redirectAll, hop, redirect_termOperand hs hp hne]
          by_cases hbb : s.fn.termOperand b j = some (.block bb)
          · by_cases hb : b = p
            · subst hb
              simp [hbb, hne.symm]
            · simp [hbb, hb]
          · simp [hbb]

/-! ## updateBranchTargets -/

/-- The terminators `updateBranchTargets` comes by. -/
def reached (s : State) (bbToErase bbToRetain : Nat) : List Nat :=
  (s.predecessors bbToErase).head?.toList ++ s.predecessors bbToRetain

theorem firstOperand_none {us : List BlockUse} (h : firstOperand us = none) :
    terminators us = [] := by
  induction us with
  | nil => rfl
  | cons u us ih =>
      cases u with
      | operand user i => cases h
      | blockAddress k n => exact ih h

theorem firstOperand_some {us : List BlockUse} {p i : Nat} (h : firstOperand us = some (p, i)) :
    (terminators us).head? = some p ∧ .operand p i ∈ us := by
  induction us with
  | nil => cases h
  | cons u us ih =>
      cases u with
      | operand user j =>
          cases h
          exact ⟨rfl, List.mem_cons_self ..⟩
      | blockAddress k n => exact ⟨(ih h).1, List.mem_cons_of_mem _ (ih h).2⟩

/-- `updateBranchTargets` returns, and what it has done. -/
theorem updateBranchTargets_spec (hs : s.Linked) (hne : bb ≠ bb2) :
    ∃ s', s.updateBranchTargets bb bb2 = .ok s' ∧ s'.Linked ∧ s'.fn.order = s.fn.order ∧
      ∀ b j, s'.fn.termOperand b j =
        if b ∈ s.reached bb bb2 ∧ s.fn.termOperand b j = some (.block bb) then some (.block bb2)
        else s.fn.termOperand b j := by
  unfold updateBranchTargets reached
  cases hfirst : firstOperand (s.uses bb) with
  | none =>
      have hnil : s.predecessors bb = [] := firstOperand_none hfirst
      refine ⟨s, by simp [walk], hs, rfl, fun b j => ?_⟩
      rw [if_neg]
      rintro ⟨hb, hop⟩
      rw [hnil] at hb
      have hb : b ∈ s.predecessors bb := (mem_predecessors hs).mpr
        ⟨((mem_predecessors hs).mp hb).1, j, hop⟩
      rw [hnil] at hb
      cases hb
  | some cursor =>
      obtain ⟨p, i⟩ := cursor
      obtain ⟨hhead, hmem⟩ := firstOperand_some hfirst
      obtain ⟨hp, hop⟩ := (hs.mem_iff p i bb).mp hmem
      have hr := redirected_redirect hs hp hne
      have hop' : (s.redirect bb bb2 p).fn.termOperand p i = some (.block bb2) := by
        rw [redirect_termOperand hs hp hne, if_pos ⟨rfl, hop⟩]
      obtain ⟨us, hus, hfrom⟩ := hr.moved
      -- the use the walk stands on is among those that were moved
      have hin : .operand p i ∈ us := by
        have hnew := (hr.linked.mem_iff p i bb2).mpr ⟨hr.order ▸ hp, hop'⟩
        rw [hus] at hnew
        refine (List.mem_append.mp hnew).resolve_right fun hold => ?_
        have heq := ((hs.mem_iff p i bb2).mp hold).2
        rw [hop] at heq
        cases heq
        exact hne rfl
      obtain ⟨before, after, rfl⟩ := List.append_of_mem hin
      have huses : (s.redirect bb bb2 p).uses bb2 =
          before ++ .operand p i :: (after ++ s.uses bb2) := by
        rw [hus, List.append_assoc, List.cons_append]
      have hwalk := walk_along hne (after ++ s.uses bb2) (before ++ [.operand p i])
        (s.redirect bb bb2 p) ((s.uses bb).length + (s.uses bb2).length) hr.linked
        (by simp [huses]) (by
          have hlen := hr.length
          rw [huses] at hlen
          simp only [List.length_append, List.length_cons] at hlen ⊢
          omega)
      have hafter : ∀ b ∈ terminators after, b = p := by
        intro b hb
        obtain ⟨j, hj⟩ := mem_terminators.mp hb
        obtain ⟨j', heq⟩ := hfrom _ (List.mem_append_right _ (List.mem_cons_of_mem _ hj))
        cases heq
        rfl
      have happend : terminators (after ++ s.uses bb2) =
          terminators after ++ s.predecessors bb2 := List.filterMap_append
      obtain ⟨hlinked, horder, hoperand⟩ := redirectAll_spec hne (after ++ s.uses bb2)
        (s.redirect bb bb2 p) hr.linked fun q hq => by
          rw [hr.order]
          rw [happend] at hq
          rcases List.mem_append.mp hq with hq | hq
          · exact hafter q hq ▸ hp
          · exact ((mem_predecessors hs).mp hq).1
      refine ⟨_, ?_, hlinked, horder.trans hr.order, fun b j => ?_⟩
      · show walk bb bb2 _ (firstOperand ((s.redirect bb bb2 p).behind p i)) _ = _
        rw [behind_eq hr.linked hop' huses]
        exact hwalk
      · rw [hoperand, redirect_termOperand hs hp hne, happend]
        have hhead' : (s.predecessors bb).head? = some p := hhead
        rw [hhead']
        by_cases hbb : s.fn.termOperand b j = some (.block bb)
        · by_cases hb : b = p
          · subst hb
            simp [hbb, hne.symm]
          · have hnot : b ∉ terminators after := fun hmem => hb (hafter b hmem)
            simp [hbb, hb, hnot]
        · simp [hbb]

end Walk

end State

end LlvmPasses.MergeBB
