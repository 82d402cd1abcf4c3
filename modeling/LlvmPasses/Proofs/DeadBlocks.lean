import Mathlib.Data.List.Forall2
import Mathlib.Data.List.TakeWhile
import LlvmPasses.Ir.WellFormed
import LlvmPasses.Pass.MergeBB

/-!
# The entries that DeleteDeadBlock takes

A block that is deleted ends in an unconditional branch, and each PHI node of
the block that is next loses one entry for it. Entries for other blocks stay, in
their order, and no terminator changes. So after all deletions the entries for
the blocks that are left are those that were there before.

The assertion in `removeIncomingValue` makes deletion partial, so each level
has two lemmas: what is left if it returns (`removeIncomingValue_spec`,
`deleteDeadBlock_spec`, `Deleted.run`), and that it returns where the entries
are there (`removeIncomingValue_returns`, `deleteDeadBlock_returns`,
`Deleted.returns`). Both are needed: the merge is shown to end in an error
exactly where an entry is missing.

The blocks are deleted one after the other, and a PHI node loses its entries on
the way. `Trimmed` describes it in the middle, without the blocks done so far,
and asks that each of them had an entry to give. The induction in the last
section appends one block to those that are done.
-/

namespace LlvmPasses.MergeBB

open Ir Ir.Function

/-- No assertion has failed. -/
def Returns {α : Type} (x : Except Stop α) : Prop := ∃ a, x = .ok a

theorem Returns.pure {α : Type} (a : α) : Returns (pure a) := ⟨a, rfl⟩

theorem Returns.bind {α β : Type} {x : Except Stop α} {f : α → Except Stop β} (h : Returns x)
    (hf : ∀ a, x = .ok a → Returns (f a)) : Returns (x >>= f) := by
  obtain ⟨a, rfl⟩ := h
  exact hf a rfl

theorem bind_eq_ok {α β : Type} {x : Except Stop α} {f : α → Except Stop β} {b : β}
    (h : x >>= f = .ok b) : ∃ a, x = .ok a ∧ f a = .ok b := by
  cases x with
  | error e => cases h
  | ok a => exact ⟨a, rfl, h⟩

theorem exists_of_forall₂_right {α β : Type} {R : α → β → Prop} {l : List α} {l' : List β}
    (h : List.Forall₂ R l l') {b : β} (hb : b ∈ l') : ∃ a ∈ l, R a b := by
  induction h with
  | nil => cases hb
  | cons hab _ ih =>
      rcases List.mem_cons.mp hb with rfl | hb
      · exact ⟨_, List.mem_cons_self .., hab⟩
      · obtain ⟨a, ha, hab⟩ := ih hb
        exact ⟨a, List.mem_cons_of_mem _ ha, hab⟩

theorem forall₂_imp_mem {α β : Type} {R S : α → β → Prop} {l : List α} {l' : List β}
    (h : List.Forall₂ R l l') (hS : ∀ a b, a ∈ l → R a b → S a b) : List.Forall₂ S l l' := by
  induction h with
  | nil => exact .nil
  | cons hab _ ih =>
      exact .cons (hS _ _ (List.mem_cons_self ..) hab)
        (ih fun a b ha => hS a b (List.mem_cons_of_mem _ ha))

theorem exists_of_forall₂_left {α β : Type} {R : α → β → Prop} {l : List α} {l' : List β}
    (h : List.Forall₂ R l l') {a : α} (ha : a ∈ l) : ∃ b ∈ l', R a b := by
  obtain ⟨b, hb, hab⟩ := exists_of_forall₂_right h.flip ha
  exact ⟨b, hb, hab⟩

theorem Returns.mapM {α β : Type} {f : α → Except Stop β} {l : List α}
    (h : ∀ a ∈ l, Returns (f a)) : Returns (l.mapM f) := by
  induction l with
  | nil => exact .pure _
  | cons a l ih =>
      obtain ⟨ha, hl⟩ := List.forall_mem_cons.mp h
      rw [List.mapM_cons]
      exact ha.bind fun _ _ => (ih hl).bind fun _ _ => .pure _

theorem forall₂_of_mapM {α β : Type} {f : α → Except Stop β} {l : List α} {l' : List β}
    (h : l.mapM f = .ok l') : List.Forall₂ (fun a b => f a = .ok b) l l' := by
  induction l generalizing l' with
  | nil =>
      cases h
      exact .nil
  | cons a l ih =>
      rw [List.mapM_cons] at h
      obtain ⟨b, hb, h⟩ := bind_eq_ok h
      obtain ⟨bs, hbs, h⟩ := bind_eq_ok h
      cases h
      exact .cons hb (ih hbs)

section

variable {F F' F'' : Function} {phi phi' : Instr Op} {d t k p : Nat} {done dead : List Nat}

/-! ## One PHI node -/

theorem incoming_eq (h : phi.incoming.length = phi.operands.length) :
    phi.incoming = phi.entries.map Prod.fst :=
  (List.map_fst_zip (Nat.le_of_eq h)).symm

theorem entries_eraseIdx {ks : List Nat} {vs : List Value} {n : Nat}
    (hlen : ks.length = vs.length) (h : ks.idxOf? d = some n) :
    (ks.eraseIdx n).zip (vs.eraseIdx n) = (ks.zip vs).eraseP fun e => e.1 == d := by
  induction ks generalizing vs n with
  | nil => cases h
  | cons k ks ih =>
      cases vs with
      | nil => cases hlen
      | cons v vs =>
          rw [List.idxOf?_cons] at h
          by_cases hk : k = d
          · subst hk
            rw [if_pos (beq_self_eq_true k)] at h
            cases h
            simp
          · have hne : (k == d) = false := beq_false_of_ne hk
            simp only [hne, Bool.false_eq_true, if_false, Option.map_eq_some_iff] at h
            obtain ⟨m, hm, rfl⟩ := h
            rw [List.zip_cons_cons, List.eraseP_cons_of_neg (by simpa using hk),
              List.eraseIdx_cons_succ, List.eraseIdx_cons_succ, List.zip_cons_cons,
              ih (Nat.succ.inj hlen) hm]

/-- What the PHI node is without one entry for `d`. -/
structure Erased (d : Nat) (phi phi' : Instr Op) : Prop where
  mem : d ∈ phi.incoming
  id : phi'.id = phi.id
  op : phi'.op = phi.op
  length : phi'.incoming.length = phi'.operands.length
  entries : phi'.entries = phi.entries.eraseP fun e => e.1 == d

theorem removeIncomingValue_spec (hlen : phi.incoming.length = phi.operands.length)
    (h : removeIncomingValue d phi = .ok phi') : Erased d phi phi' := by
  unfold removeIncomingValue at h
  cases hn : phi.incoming.idxOf? d with
  | none =>
      rw [hn] at h
      cases h
  | some n =>
      rw [hn] at h
      cases h
      obtain ⟨hlt, -⟩ := List.idxOf?_eq_some_iff.mp hn
      refine ⟨?_, rfl, rfl, ?_, entries_eraseIdx hlen hn⟩
      · rw [← List.isSome_idxOf?, hn]
        rfl
      · simp only [List.length_eraseIdx, hlen ▸ hlt, if_true, hlen]

theorem removeIncomingValue_returns (h : d ∈ phi.incoming) :
    Returns (removeIncomingValue d phi) := by
  rw [← List.isSome_idxOf?] at h
  obtain ⟨n, hn⟩ := Option.isSome_iff_exists.mp h
  unfold removeIncomingValue
  rw [hn]
  exact .pure _

/-- A PHI node of the block `k` and what it is without the blocks in `done`,
which takes an entry for each of them that goes on to `k`. -/
structure Trimmed (F : Function) (k : Nat) (done : List Nat) (phi phi' : Instr Op) : Prop where
  id : phi'.id = phi.id
  op : phi'.op = phi.op
  length : phi'.incoming.length = phi'.operands.length
  kept : (phi'.entries.filter fun e => decide (e.1 ∉ done)) =
    phi.entries.filter fun e => decide (e.1 ∉ done)
  count : ∀ p, phi'.incoming.count p =
    phi.incoming.count p - if p ∈ done ∧ F.successors p = [k] then 1 else 0

theorem Trimmed.refl (h : phi.incoming.length = phi.operands.length) : Trimmed F k [] phi phi :=
  ⟨rfl, rfl, h, rfl, fun p => by simp⟩

/-- An entry for a block that is still there. -/
theorem Trimmed.mem_iff (h : Trimmed F k done phi phi') (hp : p ∉ done) :
    p ∈ phi'.incoming ↔ p ∈ phi.incoming := by
  rw [← List.count_pos_iff, h.count, if_neg (fun hand => hp hand.1), Nat.sub_zero,
    List.count_pos_iff]

theorem filter_eraseP {α : Type} {p q : α → Bool} {l : List α} (h : ∀ a, q a = true → p a = false) :
    (l.eraseP p).filter q = l.filter q := by
  induction l with
  | nil => rfl
  | cons a l ih =>
      by_cases hp : p a = true
      · have hq : q a = false := by
          rw [Bool.eq_false_iff]
          intro hq
          rw [h a hq] at hp
          cases hp
        rw [List.eraseP_cons_of_pos hp, List.filter_cons_of_neg (by simp [hq])]
      · rw [List.eraseP_cons_of_neg hp, List.filter_cons, List.filter_cons, ih]

theorem filter_done_snoc (es : List (Nat × Value)) (done : List Nat) (d : Nat) :
    (es.filter fun e => decide (e.1 ∉ done ++ [d])) =
      (es.filter fun e => decide (e.1 ∉ done)).filter fun e => decide (e.1 ≠ d) := by
  rw [List.filter_filter]
  refine List.filter_congr fun e _ => ?_
  simp [not_or, and_comm]

theorem Trimmed.weaken (h : Trimmed F k done phi phi') (hd : F.successors d ≠ [k]) :
    Trimmed F k (done ++ [d]) phi phi' where
  id := h.id
  op := h.op
  length := h.length
  kept := by rw [filter_done_snoc, h.kept, ← filter_done_snoc]
  count := fun p => by
    rw [h.count]
    by_cases hp : p = d
    · subst hp
      simp [hd]
    · simp [hp]

theorem Erased.incoming (h : Erased d phi phi')
    (hlen : phi.incoming.length = phi.operands.length) :
    phi'.incoming = phi.incoming.erase d := by
  rw [incoming_eq h.length, h.entries, incoming_eq hlen, List.erase_eq_eraseP', List.eraseP_map]
  rfl

theorem Trimmed.erase {phi'' : Instr Op} (h : Trimmed F k done phi phi') (hd : d ∉ done)
    (hk : F.successors d = [k]) (he : Erased d phi' phi'') :
    Trimmed F k (done ++ [d]) phi phi'' where
  id := he.id.trans h.id
  op := he.op.trans h.op
  length := he.length
  kept := by
    rw [he.entries, filter_eraseP, filter_done_snoc, h.kept, ← filter_done_snoc]
    intro e hout
    simp only [List.mem_append, List.mem_singleton, not_or, decide_eq_true_eq] at hout
    exact beq_false_of_ne hout.2
  count := fun p => by
    rw [he.incoming h.length, List.count_erase, h.count]
    by_cases hp : p = d
    · subst hp
      simp [hd, hk]
    · have hne : (d == p) = false := beq_false_of_ne fun heq => hp heq.symm
      simp [hp, hne]

/-! ## One block -/

theorem phis_append_body (b : Block) {phis : List (Instr Op)} (h : ∀ i ∈ phis, i.isPhi = true) :
    (phis ++ b.body).takeWhile Instr.isPhi = phis := by
  rw [List.takeWhile_append_of_pos h]
  have hnil : b.body.takeWhile Instr.isPhi = [] := by
    cases hbody : b.body with
    | nil => rfl
    | cons i is =>
        have hnot : i.isPhi = false := by
          have := List.head?_dropWhile_not Instr.isPhi b.instrs
          unfold Block.body at hbody
          rw [hbody] at this
          simpa using this
        rw [List.takeWhile_cons_of_neg (by simp [hnot])]
  rw [hnil, List.append_nil]

/-- What deleting a block that goes on to `t` only does to the function. -/
structure Dropped (d t : Nat) (F F' : Function) : Prop where
  order : F'.order = F.order.erase d
  term : ∀ k, (F'.block k).term = (F.block k).term
  other : ∀ k, k ≠ t → F'.block k = F.block k
  phis : List.Forall₂ (Erased d) (F.block t).phis (F'.block t).phis

theorem deleteDeadBlock_eq (ht : F.successors d = [t]) : deleteDeadBlock F d =
    removePredecessor F t d >>= fun F => .ok { F with order := F.order.erase d } := by
  unfold deleteDeadBlock
  rw [ht, List.foldlM_cons]
  simp only [List.foldlM_nil, bind_pure]
  rfl

theorem forall₂_erased {l l' : List (Instr Op)}
    (hlen : ∀ phi ∈ l, phi.incoming.length = phi.operands.length)
    (h : List.Forall₂ (fun phi phi' => removeIncomingValue d phi = .ok phi') l l') :
    List.Forall₂ (Erased d) l l' := by
  induction h with
  | nil => exact .nil
  | cons hab _ ih =>
      obtain ⟨hphi, hrest⟩ := List.forall_mem_cons.mp hlen
      exact .cons (removeIncomingValue_spec hphi hab) (ih hrest)

theorem deleteDeadBlock_spec (ht : F.successors d = [t])
    (hlen : ∀ phi ∈ (F.block t).phis, phi.incoming.length = phi.operands.length)
    (h : deleteDeadBlock F d = .ok F') : Dropped d t F F' := by
  rw [deleteDeadBlock_eq ht] at h
  obtain ⟨G, hG, hF'⟩ := bind_eq_ok h
  cases hF'
  obtain ⟨phis, hphis, heq⟩ := bind_eq_ok hG
  cases heq
  have herased := forall₂_erased hlen (forall₂_of_mapM hphis)
  have hisPhi : ∀ i ∈ phis, i.isPhi = true := by
    intro i hi
    obtain ⟨j, hj, he⟩ := exists_of_forall₂_right herased hi
    have hphi : j.isPhi = true := List.mem_takeWhile_imp hj
    unfold Instr.isPhi at hphi ⊢
    rw [he.op, hphi]
  have hblock : ∀ k, (F.setBlock t { F.block t with instrs := phis ++ (F.block t).body }).block k =
      if k = t then { F.block t with instrs := phis ++ (F.block t).body } else F.block k :=
    fun _ => rfl
  refine ⟨rfl, fun k => ?_, fun k hk => ?_, ?_⟩
  · show (Function.block (F.setBlock t _) k).term = _
    rw [hblock]
    split
    · next hk => rw [hk]
    · rfl
  · show Function.block (F.setBlock t _) k = _
    rw [hblock, if_neg hk]
  · show List.Forall₂ _ _ (Function.block (F.setBlock t _) t).phis
    rw [hblock, if_pos rfl]
    show List.Forall₂ _ _ ((phis ++ (F.block t).body).takeWhile Instr.isPhi)
    rw [phis_append_body _ hisPhi]
    exact herased

theorem deleteDeadBlock_returns (ht : F.successors d = [t])
    (h : ∀ phi ∈ (F.block t).phis, d ∈ phi.incoming) : Returns (deleteDeadBlock F d) := by
  rw [deleteDeadBlock_eq ht]
  refine .bind ?_ fun _ _ => ⟨_, rfl⟩
  exact .bind (.mapM fun phi hphi => removeIncomingValue_returns (h phi hphi)) fun _ _ => .pure _

/-! ## All of them -/

/-- The function without the blocks in `done`, and without entries for them. -/
structure Deleted (F : Function) (done : List Nat) (F' : Function) : Prop where
  order : F'.order = F.order.filter fun k => decide (k ∉ done)
  term : ∀ k, (F'.block k).term = (F.block k).term
  phis : ∀ k ∈ F.order, List.Forall₂ (Trimmed F k done) (F.block k).phis (F'.block k).phis

theorem forall₂_refl_of {α : Type} {R : α → α → Prop} {l : List α} (h : ∀ a ∈ l, R a a) :
    List.Forall₂ R l l := by
  induction l with
  | nil => exact .nil
  | cons a l ih =>
      obtain ⟨ha, hl⟩ := List.forall_mem_cons.mp h
      exact .cons ha (ih hl)

theorem forall₂_comp {α β γ : Type} {R : α → β → Prop} {S : β → γ → Prop} {T : α → γ → Prop}
    (hT : ∀ a b c, R a b → S b c → T a c) {l : List α} {l' : List β} {l'' : List γ}
    (h : List.Forall₂ R l l') (h' : List.Forall₂ S l' l'') : List.Forall₂ T l l'' := by
  induction h generalizing l'' with
  | nil =>
      cases h'
      exact .nil
  | cons hab _ ih =>
      cases h' with
      | cons hbc htail => exact .cons (hT _ _ _ hab hbc) (ih htail)

theorem Deleted.refl (h : ∀ k ∈ F.order, ∀ phi ∈ (F.block k).phis,
    phi.incoming.length = phi.operands.length) : Deleted F [] F where
  order := by simp
  term := fun _ => rfl
  phis := fun k hk => forall₂_refl_of fun phi hphi => .refl (h k hk phi hphi)

theorem Deleted.length (h : Deleted F done F') (hk : k ∈ F.order)
    (hphi' : phi' ∈ (F'.block k).phis) :
    phi'.incoming.length = phi'.operands.length := by
  obtain ⟨phi, -, htrimmed⟩ := exists_of_forall₂_right (h.phis k hk) hphi'
  exact htrimmed.length

theorem Deleted.step (h : Deleted F done F') (hnodup : F.order.Nodup) (hnot : d ∉ done)
    (ht : F.successors d = [t]) (hd : Dropped d t F' F'') : Deleted F (done ++ [d]) F'' where
  order := by
    rw [hd.order, h.order, (hnodup.filter _).erase_eq_filter, List.filter_filter]
    refine List.filter_congr fun k _ => ?_
    by_cases hk : k = d <;> simp [hk]
  term := fun k => (hd.term k).trans (h.term k)
  phis := fun k horder => by
    by_cases hk : k = t
    · subst hk
      exact forall₂_comp (fun _ _ _ htrimmed herased => htrimmed.erase hnot ht herased)
        (h.phis k horder) hd.phis
    · rw [hd.other k hk]
      refine (h.phis k horder).imp fun _ _ htrimmed => htrimmed.weaken fun heq => hk ?_
      rw [ht] at heq
      exact (List.head_eq_of_cons_eq heq).symm

theorem Deleted.successors (h : Deleted F done F') (k : Nat) :
    F'.successors k = F.successors k := by
  unfold Function.successors
  rw [h.term]

/-- Whatever has been deleted had the entries that were taken. -/
theorem Deleted.run (h : Deleted F done F') (hnodup : F.order.Nodup)
    (hdead : ∀ d ∈ dead, ∃ t ∈ F.order, F.successors d = [t]) (hapart : (done ++ dead).Nodup)
    (hrun : dead.foldlM deleteDeadBlock F' = .ok F'') : Deleted F (done ++ dead) F'' ∧
      ∀ d ∈ dead, ∀ t, F.successors d = [t] → ∀ phi ∈ (F.block t).phis, d ∈ phi.incoming := by
  induction dead generalizing done F' with
  | nil =>
      cases hrun
      rw [List.append_nil]
      exact ⟨h, nofun⟩
  | cons d dead ih =>
      obtain ⟨⟨t, horder, ht⟩, hrest⟩ := List.forall_mem_cons.mp hdead
      rw [List.foldlM_cons] at hrun
      obtain ⟨G, hG, hrun⟩ := bind_eq_ok hrun
      have ht' : F'.successors d = [t] := (h.successors d).trans ht
      have hdropped := deleteDeadBlock_spec ht' (fun _ => h.length horder) hG
      have hnot : d ∉ done := by
        intro hmem
        exact (List.nodup_append.mp hapart).2.2 d hmem d (List.mem_cons_self ..) rfl
      have happend : done ++ d :: dead = done ++ [d] ++ dead := by
        rw [List.append_assoc, List.singleton_append]
      rw [happend] at hapart ⊢
      obtain ⟨hall, hentries⟩ := ih (h.step hnodup hnot ht hdropped) hrest hapart hrun
      refine ⟨hall, List.forall_mem_cons.mpr ⟨fun t' ht'' phi hphi => ?_, hentries⟩⟩
      rw [ht] at ht''
      cases ht''
      obtain ⟨phi', hphi', htrimmed⟩ := exists_of_forall₂_left (h.phis t horder) hphi
      obtain ⟨phi'', -, herased⟩ := exists_of_forall₂_left hdropped.phis hphi'
      exact (htrimmed.mem_iff hnot).mp herased.mem

/-- If all entries are there, everything is deleted. -/
theorem Deleted.returns (h : Deleted F done F') (hnodup : F.order.Nodup)
    (hdead : ∀ d ∈ dead, ∃ t ∈ F.order, F.successors d = [t]) (hapart : (done ++ dead).Nodup)
    (hentries : ∀ d ∈ dead, ∀ t, F.successors d = [t] → ∀ phi ∈ (F.block t).phis,
      d ∈ phi.incoming) : Returns (dead.foldlM deleteDeadBlock F') := by
  induction dead generalizing done F' with
  | nil => exact .pure _
  | cons d dead ih =>
      obtain ⟨⟨t, horder, ht⟩, hrest⟩ := List.forall_mem_cons.mp hdead
      obtain ⟨hentry, hentries⟩ := List.forall_mem_cons.mp hentries
      have ht' : F'.successors d = [t] := (h.successors d).trans ht
      have hnot : d ∉ done := by
        intro hmem
        exact (List.nodup_append.mp hapart).2.2 d hmem d (List.mem_cons_self ..) rfl
      have happend : done ++ d :: dead = done ++ [d] ++ dead := by
        rw [List.append_assoc, List.singleton_append]
      rw [happend] at hapart
      rw [List.foldlM_cons]
      refine .bind (deleteDeadBlock_returns ht' fun phi' hphi' => ?_) fun G hG => ?_
      · obtain ⟨phi, hphi, htrimmed⟩ := exists_of_forall₂_right (h.phis t horder) hphi'
        exact (htrimmed.mem_iff hnot).mpr (hentry t ht phi hphi)
      · have hspec := deleteDeadBlock_spec ht' (fun _ => h.length horder) hG
        exact ih (h.step hnodup hnot ht hspec) hrest hapart hentries

end

end LlvmPasses.MergeBB
