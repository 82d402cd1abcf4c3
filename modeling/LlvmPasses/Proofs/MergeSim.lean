import Mathlib.Data.List.Duplicate
import Mathlib.Data.List.NodupEquivFin
import LlvmPasses.Ir.Lockstep
import LlvmPasses.Proofs.MergeFlags
import LlvmPasses.Proofs.MergeKept

/-!
# Runs before and after a merge

Where the function goes through the erased block, or through the retained one,
the function that the merge leaves goes through the retained one. The two are
compared pair by pair: debug intrinsics apart, the instructions that have run
on the one side have the results of their counterparts, and those that have not
will have. What the blocks define is read by the PHI node of the successor
only, and by its entries for them only, so elsewhere the two runs do the same.

`OneMerge.alike` is the result, for one merge into a block without PHI nodes.
`Abreast` has the two situations of the two runs. Elsewhere both are at the
same instruction, in environments that differ at most in what the two blocks
define (`Elsewhere`). In a block that is merged they have come to a pair of
counterparts, with some results of pairs related and the others still to come
(`Level`). Debug intrinsics are run by one side alone, so the simulation counts
what each has before it (`ahead`).

The relation between the results of a pair is a parameter, `A`: equality where
flags are the same, and refinement where they are not. A result that is refined
may be another value, so the run must be one in which nothing else can take the
place of what is computed (`Sound`); that is what the condition on poison
gives.
-/

namespace LlvmPasses.MergeBB

open Ir Ir.Function Transition

/-- The handles that a block defines. -/
abbrev made (F : Function) (k : Nat) : List Nat := (F.block k).defs.map Prod.fst

/-- What either of the two blocks defines. -/
abbrev own (F : Function) (bb bb2 : Nat) : List Nat := made F bb ++ made F bb2

/-- What is elsewhere has the same value in both runs. -/
theorem Apart.of_own {F : Function} {bb bb2 : Nat} {env env' : Env}
    (h : Apart (own F bb bb2) (own F bb bb2) env env') :
    Apart (made F bb) (made F bb2) env env' := fun id h₁ h₂ =>
  have hnot : id ∉ own F bb bb2 := fun hmem => (List.mem_append.mp hmem).elim h₁ h₂
  h id hnot hnot

theorem Apart.updated {X : List Nat} {env env' e e' : Env} (h : Apart X X env env')
    (hupd : Updated env env' e e') : Apart X X e e' := by
  intro id hid _
  rcases hupd id with heq | ⟨h₁, h₂⟩
  · exact heq
  · rw [h₁, h₂]
    exact h id hid hid

/-! ## Who reads what the blocks define -/

theorem two_le_count {α : Type} [DecidableEq α] {l : List α} {a : α} {n m : Nat} (hne : n ≠ m)
    (hn : l[n]? = some a) (hm : l[m]? = some a) : 2 ≤ l.count a := by
  obtain ⟨hn', rfl⟩ := List.getElem?_eq_some_iff.mp hn
  obtain ⟨hm', heq⟩ := List.getElem?_eq_some_iff.mp hm
  refine List.duplicate_iff_two_le_count.mp (List.duplicate_iff_exists_distinct_get.mpr ?_)
  rcases Nat.lt_or_gt_of_ne hne with hlt | hlt
  · exact ⟨⟨n, hn'⟩, ⟨m, hm'⟩, hlt, rfl, heq.symm⟩
  · exact ⟨⟨m, hm'⟩, ⟨n, hn'⟩, hlt, heq.symm, rfl⟩

/-- Each operand of an instruction is a use. -/
theorem count_le_users {F : Function} {k : Nat} (hk : k ∈ F.order) {i : Instr Op}
    (hi : i ∈ (F.block k).instrs) (v : Value) : i.operands.count v ≤ (F.users v).length := by
  have hsub : ((i.operands.filter fun w => w == v).map fun _ => (k, some i)).Sublist
      (F.users v) := by
    refine List.Sublist.trans ?_ (List.sublist_flatten_of_mem (List.mem_map_of_mem hk))
    refine List.Sublist.trans ?_ (List.sublist_append_left _ _)
    exact List.sublist_flatten_of_mem (List.mem_map_of_mem hi)
  have hlen := hsub.length_le
  rw [List.length_map] at hlen
  rw [List.count, List.countP_eq_length_filter]
  exact hlen

/-- Entries for two blocks are two operands. -/
theorem two_le_count_of_entries {phi : Instr Op} {p q : Nat} {v : Value} (hne : p ≠ q)
    (hp : (p, v) ∈ phi.entries) (hq : (q, v) ∈ phi.entries) : 2 ≤ phi.operands.count v := by
  obtain ⟨n, hn⟩ := List.mem_iff_getElem?.mp hp
  obtain ⟨m, hm⟩ := List.mem_iff_getElem?.mp hq
  obtain ⟨hpn, hvn⟩ := List.getElem?_zip_eq_some.mp hn
  obtain ⟨hqm, hvm⟩ := List.getElem?_zip_eq_some.mp hm
  refine two_le_count (fun heq => hne ?_) hvn hvm
  rw [heq, hqm] at hpn
  exact (Option.some.inj hpn).symm

theorem entry_of_incoming {phi : Instr Op} {p : Nat} {v : Value}
    (h : phi.getIncomingValueForBlock p = some v) : (p, v) ∈ phi.entries := by
  obtain ⟨e, he, rfl⟩ := Option.map_eq_some_iff.mp h
  have hfst : e.1 = p := by simpa using List.find?_some he
  exact hfst ▸ List.mem_of_find?_eq_some he

namespace State

section

variable {s : State} {bb bb2 succ k id : Nat}

/-- Nothing but a PHI node reads what a merged block defines, and this by its
entry for the block. -/
theorem Accepted.reader (h : s.Accepted bb bb2 succ) (hF : s.fn.WellFormed)
    (hid : id ∈ made s.fn bb) {phi : Instr Op} (hk : k ∈ s.fn.order)
    (hphi : phi ∈ (s.fn.block k).instrs) (hop : .inst id ∈ phi.operands) :
    phi.isPhi = true ∧ ∀ p, phi.getIncomingValueForBlock p = some (.inst id) → p = bb := by
  have huser : (k, some phi) ∈ s.fn.users (.inst id) := mem_users.mpr ⟨hk, hphi, hop⟩
  obtain ⟨-, phi', hsome, hisPhi, hin⟩ := h.unused hF hid huser
  cases hsome
  refine ⟨hisPhi, fun p hp => ?_⟩
  have hnames : s.fn.Names (.inst id) :=
    hF.operands k hk _ (List.mem_append_left _ (List.mem_flatMap.mpr ⟨phi, hphi, hop⟩))
  obtain ⟨i, j, hpaired, rfl⟩ := h.compared hF hnames hid
  by_contra hne
  have htwo := two_le_count_of_entries hne (entry_of_incoming hp) (entry_of_incoming hin)
  have hle := Nat.le_trans (count_le_users hk hphi _) (h.identical i j hpaired).users
  omega

/-- No terminator does. -/
theorem Accepted.not_read (h : s.Accepted bb bb2 succ) (hF : s.fn.WellFormed)
    (hid : id ∈ made s.fn bb) (hk : k ∈ s.fn.order) :
    .inst id ∉ (s.fn.block k).term.operands := by
  intro hop
  obtain ⟨-, phi, hsome, -⟩ := h.unused hF hid (mem_users_term.mpr ⟨hk, hop⟩)
  cases hsome

end

/-! ## The two runs -/

/-- What is run of instructions. -/
def real (is : List (Instr Op)) : List (Instr Op) := is.filter fun i => !i.isDbgInfoIntrinsic

/-- What is known of a merge: `G` is what it leaves, no PHI nodes are in its
blocks, and its pairs do the same up to `A`. -/
structure OneMerge {μ : Type} (W : World μ) (args : List Val) (A : Val → Val → Prop) (s : State)
    (G : Function) (bb bb2 succ : Nat) : Prop where
  wellFormed : s.fn.WellFormed
  accepted : s.Accepted bb bb2 succ
  ledOn : LedOn s.fn G bb bb2
  phis : (s.fn.block bb).phis = []
  phis2 : (s.fn.block bb2).phis = []
  refl : ∀ v, A v v
  effects : ∀ i j, Paired s.fn bb bb2 i j → ∀ env env' : Env,
    (∀ id, .inst id ∈ i.operands → env id = env' id) → ∀ mem,
    Effects A i.ty mem (effect W args env mem i) (effect W args env' mem j)

section

variable {μ : Type} {W : World μ} {args : List Val} {A : Val → Val → Prop} {s : State}
variable {F G : Function} {bb bb2 succ k id : Nat} {i j : Instr Op}
variable {is js rest rest' : List (Instr Op)}
variable {m m' n n' : Machine μ}

/-- One run is in either of the blocks, the other in the one retained, and they
have come to a pair of counterparts. -/
structure Level (W : World μ) (args : List Val) (A : Val → Val → Prop) (F : Function)
    (bb bb2 : Nat) (m m' : Machine μ) : Prop where
  block : m.block = bb ∨ m.block = bb2
  block' : m'.block = bb2
  suffix : m'.rest <:+ (F.block bb2).body
  pairs : ∃ done done', nonDbg (F.block m.block) = done ++ real m.rest ∧
    nonDbg (F.block bb2) = done' ++ real m'.rest ∧
    List.Forall₂ (fun i j => Related Eq i j m.env m'.env) done done' ∧
    List.Forall₂ (Lined W args A (own F bb bb2) (own F bb bb2)) (real m.rest) (real m'.rest)

/-- Both runs are at the same place, in another block. -/
structure Elsewhere (bb bb2 : Nat) (m m' : Machine μ) : Prop where
  ne : m.block ≠ bb ∧ m.block ≠ bb2
  block : m'.block = m.block
  rest : m'.rest = m.rest

/-- The run after the merge goes along with the run before it. -/
structure Abreast (W : World μ) (args : List Val) (A : Val → Val → Prop) (F : Function)
    (bb bb2 : Nat) (m m' : Machine μ) : Prop where
  mem : m'.mem = m.mem
  trace : m'.trace = m.trace
  apart : Apart (own F bb bb2) (own F bb bb2) m.env m'.env
  sharp : Sharp A m'.env
  place : Elsewhere bb bb2 m m' ∨ Level W args A F bb bb2 m m'

theorem real_cons (h : i.isDbgInfoIntrinsic = false) : real (i :: is) = i :: real is :=
  List.filter_cons_of_pos (by simp [h])

theorem real_cons_debug (h : i.isDbgInfoIntrinsic = true) : real (i :: is) = real is :=
  List.filter_cons_of_neg (by simp [h])

theorem nodup_nonDbg (hF : F.WellFormed) (hk : k ∈ F.order) :
    ((nonDbg (F.block k)).map Instr.id).Nodup := by
  have hall := hF.block_nodup hk
  rw [Block.defs, List.map_append, List.map_map] at hall
  refine (List.nodup_append.mp hall).1.sublist (List.Sublist.map _ ?_)
  exact List.filter_sublist.trans (List.dropWhile_sublist _)

/-! ### Pairs -/

theorem OneMerge.not_phi (h : OneMerge W args A s G bb bb2 succ) (hp : Paired s.fn bb bb2 i j) :
    i.isPhi = false ∧ j.isPhi = false := by
  refine ⟨Bool.eq_false_iff.mpr fun hi => ?_, Bool.eq_false_iff.mpr fun hj => ?_⟩
  · have hmem := mem_phis h.wellFormed h.accepted.mem hp.mem.1 hi
    rw [h.phis] at hmem
    cases hmem
  · have hmem := mem_phis h.wellFormed h.accepted.mem2 hp.symm.mem.1 hj
    rw [h.phis2] at hmem
    cases hmem

theorem OneMerge.lined (h : OneMerge W args A s G bb bb2 succ) (hp : Paired s.fn bb bb2 i j) :
    Lined W args A (own s.fn bb bb2) (own s.fn bb bb2) i j := by
  have hlined := h.accepted.lined h.wellFormed hp (h.effects i j hp)
  have hout : ∀ id, .inst id ∈ i.operands → id ∉ own s.fn bb bb2 := fun id hid hmem =>
    (List.mem_append.mp hmem).elim (hlined.outside id hid).1 (hlined.outside id hid).2
  exact ⟨hlined.ty, fun id hid => ⟨hout id hid, hout id hid⟩, List.mem_append_left _ hlined.left,
    List.mem_append_right _ hlined.right, hlined.effects⟩

/-- An instruction of the block that is retained, and itself. -/
theorem OneMerge.lined_self (h : OneMerge W args A s G bb bb2 succ)
    (hp : Paired s.fn bb bb2 i j) : Lined W args A (own s.fn bb bb2) (own s.fn bb bb2) j j where
  ty := rfl
  outside := (h.accepted.identical i j hp).operands ▸ (h.lined hp).outside
  left := (h.lined hp).right
  right := (h.lined hp).right
  effects := fun _ _ henv mem => .inl (effect_congr henv mem)

/-- At the beginning of either block. -/
theorem OneMerge.begin (h : OneMerge W args A s G bb bb2 succ) (hk : k = bb ∨ k = bb2) :
    List.Forall₂ (Lined W args A (own s.fn bb bb2) (own s.fn bb bb2)) (nonDbg (s.fn.block k))
      (nonDbg (s.fn.block bb2)) := by
  rcases hk with rfl | rfl
  · exact (h.accepted.forall₂_body h.wellFormed).mpr fun i j hp _ => h.lined hp
  · have hself := (h.accepted.forall₂_body h.wellFormed (R := fun _ j =>
      Lined W args A (own s.fn bb k) (own s.fn bb k) j j)).mpr fun i j hp _ => h.lined_self hp
    refine List.forall₂_same.mpr fun j hj => ?_
    obtain ⟨i, -, hj⟩ := exists_of_forall₂_right hself hj
    exact hj

/-! ### Instructions -/

/-- The results that are there stay, for another handle is assigned. -/
theorem related_assigned {done done' : List (Instr Op)} {env env' e e' : Env} {v : Val}
    (hnodup : ((done ++ i :: rest).map Instr.id).Nodup)
    (hnodup' : ((done' ++ j :: rest').map Instr.id).Nodup)
    (h : List.Forall₂ (fun i j => Related Eq i j env env') done done')
    (he : e = env.set i.id v) (he' : e' = env'.set j.id v) :
    List.Forall₂ (fun i j => Related Eq i j e e') (done ++ [i]) (done' ++ [j]) := by
  have hother : ∀ {l : List (Instr Op)} {k rest}, ((l ++ k :: rest).map Instr.id).Nodup →
      ∀ d ∈ l, d.id ≠ k.id := by
    intro l k rest hall d hd
    rw [List.map_append, List.nodup_append] at hall
    exact hall.2.2 _ (List.mem_map_of_mem hd) _ (List.mem_cons_self ..)
  refine List.rel_append (List.forall₂_iff_zip.mpr ⟨h.length_eq, fun {a b} hab hty => ?_⟩)
    (.cons (fun _ => ?_) .nil)
  · obtain ⟨ha, hb⟩ := List.of_mem_zip hab
    rw [he, he', Env.set_other _ v (hother hnodup a ha), Env.set_other _ v (hother hnodup' b hb)]
    exact (List.forall₂_iff_zip.mp h).2 hab hty
  · rw [he, he', Env.set_self, Env.set_self]
    exact .some rfl

/-- Two counterparts are run. -/
theorem Level.instr (hlevel : Level W args A s.fn bb bb2 m m')
    (h : OneMerge W args A s G bb bb2 succ) (habreast : Abreast W args A s.fn bb bb2 m m')
    (hrest : m.rest = i :: rest) (hi : i.isDbgInfoIntrinsic = false)
    (hrest' : m'.rest = j :: rest') (hj : j.isDbgInfoIntrinsic = false) :
    Along (fun n n' => Sharp A n.env → Abreast W args A s.fn bb bb2 n n')
      (execInstr W args m i rest) (execInstr W args m' j rest') := by
  obtain ⟨done, done', hdone, hdone', hrelated, hlined⟩ := hlevel.pairs
  rw [hrest, real_cons hi] at hdone hlined
  rw [hrest', real_cons hj] at hdone' hlined
  obtain ⟨hij, hlined⟩ := List.forall₂_cons.mp hlined
  have hblock : m.block ∈ s.fn.order := by
    rcases hlevel.block with heq | heq
    · exact heq ▸ h.accepted.mem
    · exact heq ▸ h.accepted.mem2
  have hnodup := hdone ▸ nodup_nonDbg h.wellFormed hblock
  have hnodup' := hdone' ▸ nodup_nonDbg h.wellFormed h.accepted.mem2
  have hsuffix : rest' <:+ (s.fn.block bb2).body :=
    (hrest' ▸ List.suffix_cons j rest' : rest' <:+ m'.rest).trans hlevel.suffix
  have henv : ∀ id, .inst id ∈ i.operands → m.env id = m'.env id := fun id hid =>
    habreast.apart id (hij.outside id hid).1 (hij.outside id hid).2
  have hstep : Stepped A i j rest rest' m m' (execInstr W args m i rest)
      (execInstr W args m' j rest') := execInstr_stepped h.refl hij.ty habreast.mem habreast.trace
    (hij.effects m.env m'.env henv m.mem)
  generalize execInstr W args m i rest = c at hstep ⊢
  generalize execInstr W args m' j rest' = c' at hstep ⊢
  have hdone₁ : nonDbg (s.fn.block m.block) = done ++ [i] ++ real rest := by
    rw [hdone, List.append_cons]
  have hdone₂ : nonDbg (s.fn.block bb2) = done' ++ [j] ++ real rest' := by
    rw [hdone', List.append_cons]
  cases hstep with
  | off hc => exact .off hc
  | on mem trace hassigned =>
      refine .on fun hsharp => ?_
      cases hassigned with
      | none hty =>
          refine ⟨rfl, rfl, habreast.apart, habreast.sharp, .inr ⟨hlevel.block, hlevel.block',
            hsuffix, done ++ [i], done' ++ [j], hdone₁, hdone₂, ?_, hlined⟩⟩
          exact List.rel_append hrelated (.cons (fun hne => absurd hty hne) .nil)
      | @some v v' hv =>
          have hfixed : Fixed A v := hsharp i.id v (Env.set_self _ _ _)
          obtain rfl : v' = v := hfixed v' hv
          refine ⟨rfl, rfl, habreast.apart.set hij.left hij.right v' v',
            habreast.sharp.set hfixed, .inr ⟨hlevel.block, hlevel.block', hsuffix, done ++ [i],
            done' ++ [j], hdone₁, hdone₂, ?_, hlined⟩⟩
          exact related_assigned hnodup hnodup' hrelated rfl rfl

/-- A debug intrinsic on the one side. -/
theorem Level.debug (hlevel : Level W args A F bb bb2 m m')
    (habreast : Abreast W args A F bb bb2 m m') (hrest : m.rest = i :: rest)
    (hi : i.isDbgInfoIntrinsic = true) : Abreast W args A F bb bb2 { m with rest } m' := by
  obtain ⟨done, done', hdone, hdone', hrelated, hlined⟩ := hlevel.pairs
  rw [hrest, real_cons_debug hi] at hdone hlined
  exact ⟨habreast.mem, habreast.trace, habreast.apart, habreast.sharp,
    .inr ⟨hlevel.block, hlevel.block', hlevel.suffix, done, done', hdone, hdone', hrelated, hlined⟩⟩

/-- A debug intrinsic on the other side. -/
theorem Level.debug' (hlevel : Level W args A F bb bb2 m m')
    (habreast : Abreast W args A F bb bb2 m m') (hrest' : m'.rest = j :: rest')
    (hj : j.isDbgInfoIntrinsic = true) :
    Abreast W args A F bb bb2 m { m' with rest := rest' } := by
  obtain ⟨done, done', hdone, hdone', hrelated, hlined⟩ := hlevel.pairs
  rw [hrest', real_cons_debug hj] at hdone' hlined
  have hsuffix : rest' <:+ (F.block bb2).body :=
    (hrest' ▸ List.suffix_cons j rest' : rest' <:+ m'.rest).trans hlevel.suffix
  exact ⟨habreast.mem, habreast.trace, habreast.apart, habreast.sharp,
    .inr ⟨hlevel.block, hlevel.block', hsuffix, done, done', hdone, hdone', hrelated, hlined⟩⟩

/-- An instruction of another block reads nothing that the two define. -/
theorem OneMerge.instr (h : OneMerge W args A s G bb bb2 succ)
    (habreast : Abreast W args A s.fn bb bb2 m m') (helse : Elsewhere bb bb2 m m')
    (hin : Inside s.fn m) (hrest : m.rest = i :: rest) :
    Along (fun n n' => Sharp A n.env → Abreast W args A s.fn bb bb2 n n')
      (execInstr W args m i rest) (execInstr W args m' i rest) := by
  have hi := hin.instr_mem hrest
  have hphi : i.isPhi = false :=
    h.wellFormed.phis _ hin.block i (hin.suffix.subset (hrest ▸ List.mem_cons_self ..))
  have henv : ∀ id, .inst id ∈ i.operands → m.env id = m'.env id := by
    intro id hid
    refine habreast.apart id ?_ ?_ <;> intro hmem
    all_goals
      rcases List.mem_append.mp hmem with hmem | hmem
      · have hread := (h.accepted.reader h.wellFormed hmem hin.block hi hid).1
        rw [hphi] at hread
        cases hread
      · have hread := (h.accepted.symm.reader h.wellFormed hmem hin.block hi hid).1
        rw [hphi] at hread
        cases hread
  have heffects : Effects Eq i.ty m.mem (effect W args m.env m.mem i)
      (effect W args m'.env m.mem i) := .inl (effect_congr henv m.mem)
  have hstep : Stepped Eq i i rest rest m m' (execInstr W args m i rest)
      (execInstr W args m' i rest) :=
    execInstr_stepped (fun _ => rfl) rfl habreast.mem habreast.trace heffects
  generalize execInstr W args m i rest = c at hstep ⊢
  generalize execInstr W args m' i rest = c' at hstep ⊢
  cases hstep with
  | off hc => exact .off hc
  | on mem trace hassigned =>
      refine .on fun hsharp => ?_
      have hupd := hassigned.updated
      exact ⟨rfl, rfl, habreast.apart.updated hupd, hupd.sharp habreast.sharp hsharp,
        .inl ⟨helse.ne, helse.block, rfl⟩⟩

/-! ### Terminators -/

theorem rel_eq {x y : Option Val} (h : Option.Rel Eq x y) : x = y := by
  cases h with
  | some heq => rw [heq]
  | none => rfl

theorem enter_no_phis (hphis : (F.block k).phis = []) :
    enter W F args m k = .running { m with block := k, rest := (F.block k).body } := by
  unfold enter
  rw [hphis]
  rfl

/-- Control comes to a block, or to the one retained in place of the one erased. -/
theorem OneMerge.enter (h : OneMerge W args A s G bb bb2 succ) {env env' : Env}
    (hmem : m'.mem = m.mem) (htrace : m'.trace = m.trace)
    (hapart : Apart (own s.fn bb bb2) (own s.fn bb bb2) m.env m'.env) (hsharp : Sharp A env')
    (hupd : Updated env env' m.env m'.env)
    (hphis : k ≠ bb → k ≠ bb2 → ∀ phi ∈ (s.fn.block k).phis,
      (phi.getIncomingValueForBlock m.block).bind (eval W args m.env) =
        (phi.getIncomingValueForBlock m'.block).bind (eval W args m'.env)) :
    Along (fun n n' => Sharp A n.env → Abreast W args A s.fn bb bb2 n n')
      (Ir.enter W s.fn args m k) (Ir.enter W G args m' (landing bb bb2 k)) := by
  have hbody : ∀ j, (G.block j).body = (s.fn.block j).body := fun j => by
    unfold Block.body
    rw [h.ledOn.instrs]
  have hsame : ∀ j, (G.block j).phis = (s.fn.block j).phis := fun j => by
    unfold Block.phis
    rw [h.ledOn.instrs]
  by_cases hk : k = bb ∨ k = bb2
  · have hland : landing bb bb2 k = bb2 := by
      unfold landing
      grind
    have hnone : (s.fn.block k).phis = [] := by
      rcases hk with rfl | rfl
      · exact h.phis
      · exact h.phis2
    have hnone' : (G.block bb2).phis = [] := (hsame bb2).trans h.phis2
    rw [hland, enter_no_phis hnone, enter_no_phis hnone', hbody]
    refine .on fun hn => ⟨hmem, htrace, hapart, hupd.sharp hsharp hn, .inr ⟨hk, rfl,
      List.suffix_refl _, [], [], rfl, rfl, .nil, h.begin hk⟩⟩
  · rw [not_or] at hk
    have hland : landing bb bb2 k = k := if_neg hk.1
    rw [hland]
    unfold Ir.enter
    rw [hsame, hbody]
    rcases readPhis_updated (hphis hk.1 hk.2) m.env m'.env with
      ⟨e, e', he, he', hread⟩ | ⟨he, he'⟩
    · rw [he, he']
      exact .on fun hn => ⟨hmem, htrace, hapart.updated hread, (hupd.trans hread).sharp hsharp hn,
        .inl ⟨hk, rfl, rfl⟩⟩
    · rw [he, he', htrace]
      exact .off (by simp)

/-- What another block brings to a PHI node. -/
theorem OneMerge.brings (h : OneMerge W args A s G bb bb2 succ)
    (hapart : Apart (own s.fn bb bb2) (own s.fn bb bb2) m.env m'.env) {p : Nat} (hp : p ≠ bb)
    (hp2 : p ≠ bb2) (hk : k ∈ s.fn.order) {phi : Instr Op} (hphi : phi ∈ (s.fn.block k).phis) :
    (phi.getIncomingValueForBlock p).bind (eval W args m.env) =
      (phi.getIncomingValueForBlock p).bind (eval W args m'.env) := by
  cases hin : phi.getIncomingValueForBlock p with
  | none => rfl
  | some v =>
      refine eval_congr fun id hid => ?_
      subst hid
      have hout : id ∉ own s.fn bb bb2 := by
        intro hmem
        have hop := mem_operands_of_incoming hin
        rcases List.mem_append.mp hmem with hmem | hmem
        · exact hp ((h.accepted.reader h.wellFormed hmem hk (phis_subset hphi) hop).2 p hin)
        · exact hp2 ((h.accepted.symm.reader h.wellFormed hmem hk (phis_subset hphi) hop).2 p hin)
      exact hapart id hout hout

/-- At their ends the two blocks bring the same to the PHI node of the successor. -/
theorem Level.brings (hlevel : Level W args A s.fn bb bb2 m m')
    (h : OneMerge W args A s G bb bb2 succ) (habreast : Abreast W args A s.fn bb bb2 m m')
    (hrest : m.rest = []) (hrest' : m'.rest = []) {phi : Instr Op}
    (hphi : phi ∈ (s.fn.block succ).phis) :
    (phi.getIncomingValueForBlock m.block).bind (eval W args m.env) =
      (phi.getIncomingValueForBlock m'.block).bind (eval W args m'.env) := by
  obtain ⟨done, done', hdone, hdone', hrelated, -⟩ := hlevel.pairs
  have hnil : real [] = [] := rfl
  rw [hrest, hnil, List.append_nil] at hdone
  rw [hrest', hnil, List.append_nil] at hdone'
  subst hdone
  subst hdone'
  obtain ⟨v, v2, hin, hin2⟩ : ∃ v v2, phi.getIncomingValueForBlock bb = some v ∧
      phi.getIncomingValueForBlock bb2 = some v2 := by
    rcases h.accepted.phi with hnone | ⟨phi', v, v2, hphis, hin, hin2, -⟩
    · rw [hnone] at hphi
      cases hphi
    · rw [hphis, List.mem_singleton] at hphi
      exact ⟨v, v2, hphi ▸ hin, hphi ▸ hin2⟩
  rw [hlevel.block', hin2]
  rcases hlevel.block with hblock | hblock
  · rw [hblock] at hrelated ⊢
    rw [hin]
    have hrel := h.accepted.phi_related h.wellFormed W args (A := Eq) (fun _ => rfl)
      habreast.apart.of_own hrelated hphi hin hin2 fun p hp => by
        rw [h.phis] at hp
        cases hp
    exact rel_eq hrel
  · rw [hblock] at hrelated ⊢
    rw [hin2]
    refine eval_congr fun id hid => ?_
    subst hid
    rcases h.accepted.phi_values h.wellFormed hphi hin hin2 with ⟨i, j, hp, rfl, heq⟩ | ⟨rfl, hout⟩
    · cases heq
      have hty : j.ty ≠ .void :=
        (h.accepted.identical i j hp).ty ▸ h.accepted.ty_of_phi h.wellFormed hphi hp hin
      have hself := (h.accepted.forall₂_body h.wellFormed (R := fun _ j =>
        j ∈ nonDbg (s.fn.block bb2))).mp ?_ i j hp (h.not_phi hp).1
      · exact rel_eq (List.forall₂_same.mp hrelated j hself hty)
      · exact List.forall₂_iff_zip.mpr
          ⟨(h.begin (.inl rfl)).length_eq, fun hab => (List.of_mem_zip hab).2⟩
    · exact habreast.apart.of_own id (hout id rfl).1 (hout id rfl).2

theorem eval_block_ne (W : World μ) (args : List Val) (env : Env) (k w : Nat) (x : BitVec w) :
    eval W args env (.block k) ≠ some (.int w x) := by
  show some (Val.ptr _) ≠ some (.int w x)
  simp

theorem OneMerge.term_id (h : OneMerge W args A s G bb bb2 succ) (hk : k ∈ s.fn.order) :
    (G.block k).term.id = (s.fn.block k).term.id := by
  rw [h.ledOn.term k hk]

/-- The end of another block. -/
theorem OneMerge.term (h : OneMerge W args A s G bb bb2 succ)
    (habreast : Abreast W args A s.fn bb bb2 m m') (helse : Elsewhere bb bb2 m m')
    (hin : Inside s.fn m) :
    Along (fun n n' => Sharp A n.env → Abreast W args A s.fn bb bb2 n n')
      (execTerm W s.fn args m (s.fn.block m.block).term)
      (execTerm W G args m' (G.block m'.block).term) := by
  have hk := hin.block
  have hsame : ∀ v ∈ (s.fn.block m.block).term.operands,
      eval W args m'.env v = eval W args m.env v := by
    intro v hv
    refine eval_congr fun id hid => ?_
    subst hid
    have hout : id ∉ own s.fn bb bb2 := fun hmem => (List.mem_append.mp hmem).elim
      (fun hmem => h.accepted.not_read h.wellFormed hmem hk hv)
      fun hmem => h.accepted.symm.not_read h.wellFormed hmem hk hv
    exact (habreast.apart id hout hout).symm
  unfold execTerm
  rw [helse.block, h.ledOn.transfer hk (eval_block_ne W args m'.env), habreast.mem,
    transfer_congr hsame, h.term_id hk]
  cases htransfer : W.transfer (s.fn.block m.block).term (eval W args m.env) m.mem with
  | goto j v mem events =>
      have hj : j ∈ s.fn.order := (h.wellFormed.successors _ hk j (transfer_goto htransfer)).1
      have hupd : Updated m.env m'.env
          ((v.map (m.env.set (s.fn.block m.block).term.id)).getD m.env)
          ((v.map (m'.env.set (s.fn.block m.block).term.id)).getD m'.env) := by
        cases v with
        | none => exact updated_refl _ _
        | some v => exact updated_set _ _ _ _
      have hapart := habreast.apart.updated hupd
      refine h.enter rfl (by rw [habreast.trace]) hapart habreast.sharp hupd
        fun _ _ phi hphi => ?_
      exact h.brings hapart helse.ne.1 helse.ne.2 hj hphi
  | ret v =>
      simp only [land, habreast.trace]
      exact .off (by simp)
  | unwinds mem events =>
      simp only [land, habreast.trace]
      exact .off (by simp)
  | never events =>
      simp only [land, habreast.trace]
      exact .off (by simp)
  | undefined =>
      simp only [land, habreast.trace]
      exact .off (by simp)

theorem transfer_accepted {s : State} (h : s.Accepted bb bb2 succ) (hk : k = bb ∨ k = bb2)
    (get : Value → Option Val) (mem : μ) :
    W.transfer (s.fn.block k).term get mem = .goto succ none mem [] := by
  rcases hk with rfl | rfl
  · simp only [World.transfer, h.term.1, h.term.2]
  · simp only [World.transfer, h.term2.1, h.term2.2]

/-- The ends of the two blocks. -/
theorem Level.term (hlevel : Level W args A s.fn bb bb2 m m')
    (h : OneMerge W args A s G bb bb2 succ) (habreast : Abreast W args A s.fn bb bb2 m m')
    (hrest : m.rest = []) (hrest' : m'.rest = []) :
    Along (fun n n' => Sharp A n.env → Abreast W args A s.fn bb bb2 n n')
      (execTerm W s.fn args m (s.fn.block m.block).term)
      (execTerm W G args m' (G.block m'.block).term) := by
  have htransfer := transfer_accepted (W := W) h.accepted hlevel.block (eval W args m.env) m.mem
  have htransfer' : W.transfer (G.block bb2).term (eval W args m'.env) m'.mem = _ :=
    h.ledOn.transfer h.accepted.mem2 (eval_block_ne W args m'.env)
  rw [transfer_accepted h.accepted (.inr rfl)] at htransfer'
  unfold execTerm
  rw [htransfer, hlevel.block', htransfer']
  simp only [land, Option.map_none, Option.getD_none, List.append_nil]
  refine h.enter habreast.mem habreast.trace habreast.apart habreast.sharp
    (updated_refl m.env m'.env) fun _ _ phi hphi => ?_
  have hbrings := hlevel.brings h habreast hrest hrest' hphi
  rw [hlevel.block'] at hbrings
  exact hbrings

/-! ### The simulation -/

/-- How much of its block a run has before it. -/
def ahead : Config μ → Nat
  | .running m => m.rest.length
  | _ => 0

/-- What a run before the merge meets: it stays in the function, and nothing can
take the place of what it computes. -/
def Sound (W : World μ) (args : List Val) (A : Val → Val → Prop) (F : Function) (c : Config μ) :
    Prop :=
  ∀ m, c = .running m → Inside F m ∧
    ∀ n, step W F args (.running m) = some (.running n) → Sharp A n.env

/-- The follower alone runs a debug intrinsic. -/
theorem OneMerge.debug' (h : OneMerge W args A s G bb bb2 succ)
    (habreast : Abreast W args A s.fn bb bb2 m m') (hlevel : Level W args A s.fn bb bb2 m m')
    (hrest' : m'.rest = j :: rest') (hj : j.isDbgInfoIntrinsic = true) :
    (step W G args (.running m') = none → step W s.fn args (.running m) = none) ∧
      ∀ u', step W G args (.running m') = some u' →
        (∃ u, step W s.fn args (.running m) = some u ∧
          Along (Abreast W args A s.fn bb bb2) u u') ∨
        (Along (Abreast W args A s.fn bb bb2) (.running m) u' ∧
          ahead u' < ahead (.running m')) := by
  have hmem : j ∈ (s.fn.block bb2).instrs :=
    (List.dropWhile_sublist _).subset (hlevel.suffix.subset (hrest' ▸ List.mem_cons_self ..))
  have hvoid := (h.wellFormed.debug _ h.accepted.mem2 j hmem hj).1
  rw [step_instr hrest', execInstr_debug hj hvoid]
  refine ⟨by simp, fun u' hu' => .inr ?_⟩
  cases hu'
  refine ⟨.on (hlevel.debug' habreast hrest' hj), ?_⟩
  simp [ahead, hrest']

theorem OneMerge.staggers (h : OneMerge W args A s G bb bb2 succ) :
    Staggers (step W s.fn args) (step W G args) (Sound W args A s.fn) ahead ahead
      (Along (Abreast W args A s.fn bb bb2)) (Along (Abreast W args A s.fn bb bb2)) where
  settled := fun _ _ h => h
  follow := fun c c' hR hsound => by
    cases hR with
    | off hc =>
        refine .inr ⟨fun hstop => (step_ended hc).trans hstop, fun t' ht => .inl ⟨t', ?_, ?_⟩⟩
        · exact (step_ended hc).trans ht
        · rw [ended_step hc ht]
          exact .off hc
    | @on m m' habreast =>
        obtain ⟨hin, hsharp⟩ := hsound m rfl
        -- both take a step
        have hboth : ∀ {t t'}, step W s.fn args (.running m) = some t →
            step W G args (.running m') = some t' →
            Along (fun n n' => Sharp A n.env → Abreast W args A s.fn bb bb2 n n') t t' →
            (step W G args (.running m') = none → step W s.fn args (.running m) = none) ∧
              ∀ u', step W G args (.running m') = some u' →
                (∃ u, step W s.fn args (.running m) = some u ∧
                  Along (Abreast W args A s.fn bb bb2) u u') ∨
                (Along (Abreast W args A s.fn bb bb2) (.running m) u' ∧
                  ahead u' < ahead (.running m')) := by
          intro t t' ht ht' halong
          rw [ht, ht']
          refine ⟨by simp, fun u' hu' => .inl ⟨t, rfl, ?_⟩⟩
          cases hu'
          exact halong.imp fun n n' hn hP => hP (hsharp n (hn ▸ ht))
        rcases habreast.place with helse | hlevel
        · right
          cases hrest : m.rest with
          | nil =>
              refine hboth (step_term hrest) (step_term (helse.rest.trans hrest)) ?_
              exact h.term habreast helse hin
          | cons i rest =>
              refine hboth (step_instr hrest) (step_instr (helse.rest.trans hrest)) ?_
              exact h.instr habreast helse hin hrest
        obtain ⟨-, -, -, -, -, hlined⟩ := hlevel.pairs
        cases hrest : m.rest with
        | cons i rest =>
            by_cases hi : i.isDbgInfoIntrinsic = true
            · left
              have hvoid := (h.wellFormed.debug _ hin.block i (hin.instr_mem hrest) hi).1
              refine ⟨_, (step_instr hrest).trans (congrArg some (execInstr_debug hi hvoid)),
                .on (hlevel.debug habreast hrest hi), ?_⟩
              simp [ahead, hrest]
            right
            rw [Bool.not_eq_true] at hi
            cases hrest' : m'.rest with
            | cons j rest' =>
                by_cases hj : j.isDbgInfoIntrinsic = true
                · exact h.debug' habreast hlevel hrest' hj
                rw [Bool.not_eq_true] at hj
                exact hboth (step_instr hrest) (step_instr hrest')
                  (hlevel.instr h habreast hrest hi hrest' hj)
            | nil =>
                rw [hrest, hrest', real_cons hi] at hlined
                cases hlined
        | nil =>
            right
            cases hrest' : m'.rest with
            | cons j rest' =>
                by_cases hj : j.isDbgInfoIntrinsic = true
                · exact h.debug' habreast hlevel hrest' hj
                rw [Bool.not_eq_true] at hj
                rw [hrest, hrest', real_cons hj] at hlined
                cases hlined
            | nil =>
                exact hboth (step_term hrest) (step_term hrest')
                  (hlevel.term h habreast hrest hrest')

/-! ### Whole runs -/

variable {mem : μ}

/-- Nothing that the run computes can be anything else. -/
def SharpRun (W : World μ) (args : List Val) (A : Val → Val → Prop) (F : Function) (mem : μ) :
    Prop :=
  ∀ m, Reaches (Ir.step W F args) (start F mem) (.running m) → Sharp A m.env

theorem sound_of_reaches (hF : F.WellFormed) (hsharp : SharpRun W args A F mem)
    {c : Config μ} (hc : Reaches (Ir.step W F args) (start F mem) c) : Sound W args A F c := by
  rintro m rfl
  exact ⟨inside_of_reaches hF hc, fun n hn => hsharp n (hc.trans (.single hn))⟩

theorem OneMerge.start (h : OneMerge W args A s G bb bb2 succ) (hchosen : Chosen s bb bb2) :
    Along (Abreast W args A s.fn bb bb2) (Ir.start s.fn mem) (Ir.start G mem) := by
  obtain ⟨hne, hne2⟩ := hchosen.ne_entry h.wellFormed
  have hentry : G.entry = s.fn.entry := by
    unfold Function.entry
    rw [h.ledOn.order]
  have hbody : (G.block s.fn.entry).body = (s.fn.block s.fn.entry).body := by
    unfold Block.body
    rw [h.ledOn.instrs]
  unfold Ir.start
  rw [hentry, hbody]
  exact .on ⟨rfl, rfl, fun _ _ _ => rfl, fun _ _ h => (Option.some_ne_none _ h.symm).elim,
    .inl ⟨⟨hne.symm, hne2.symm⟩, rfl, rfl⟩⟩

/-- A merge into a block without PHI nodes preserves the meaning. -/
theorem OneMerge.alike (h : OneMerge W args A s G bb bb2 succ) (hchosen : Chosen s bb bb2)
    (hsharp : SharpRun W args A s.fn mem) :
    Alike W s.fn G args mem ∧ SharpRun W args A G mem := by
  have hsound : ∀ c, Reaches (Ir.step W s.fn args) (Ir.start s.fn mem) c →
      Sound W args A s.fn c := fun c => sound_of_reaches h.wellFormed hsharp
  refine ⟨alike_of_staggers h.staggers (h.start hchosen) hsound fun m m' hm => hm.trace,
    fun m' hm' => ?_⟩
  obtain ⟨c, -, hR⟩ := h.staggers.reached (h.start hchosen) hsound hm'
  cases hR with
  | on habreast => exact habreast.sharp
  | off hc => exact absurd rfl (hc m')

end

end State

end LlvmPasses.MergeBB
