import Mathlib.Data.Set.Card
import LlvmPasses.Pass.Allocated
import LlvmPasses.Proofs.DuplicateOrder

/-!
# When DuplicateBB is reproducible

Addresses come into the pass in two ways. The order of the map of targets is
harmless. A set of reachable values that has outgrown its buffer is not: what
the generator draws is a place among the values, and which value is there is
decided by where the values are in memory. What the analysis inserted a value
after does not matter either way, so the sets are followed up to their order,
and exactly as long as they are small.

`reproducible_iff` goes both ways. If few values come to every block, the sets
are gone through in the order of insertion, which is the same in every run, and
so the choice is that of the pass without addresses (`reproducible_of_small`).
If more values come to some block than the buffer holds, two allocations are
given in which two of these values have changed places, and a draw that comes
upon the one in the first and the other in the second
(`small_of_reproducible`). The number of values is counted on the function, not
on what the analysis computes: `encard_reaches` has the analysis exact.

The analysis copies from sets while it fills others, so with addresses it may
insert in another order than without. `Follows` is kept through its loop: the
same elements in each set, and the same order wherever there are at most eight.
-/

namespace LlvmPasses

open Ir Ir.Function

variable {T : RIV.DomTree} {F : Function} {globals : List Nat} {table : PointerSet.Hashing}

namespace RIV

variable {iterate : List Value → List Value} {r r' : Result} {vs vs' worklist : List Value}
variable {k : Nat}

/-- What going through a set of values may do to it. -/
structure Iterates (iterate : List Value → List Value) : Prop where
  perm : ∀ vs, (∀ v ∈ vs, isLocal v = true) → (iterate vs).Perm vs
  small : ∀ vs, vs.length ≤ 8 → iterate vs = vs

/-- The same sets, and the same elements in the same order where they are few. -/
structure Follows (r r' : Result) : Prop where
  perm : ∀ j, (r j).Perm (r' j)
  inside : ∀ j, ∀ v ∈ r' j, isLocal v = true
  nodup : ∀ j, (r' j).Nodup
  small : ∀ j, (r' j).length ≤ 8 → r j = r' j

theorem Follows.insert (h : Follows r r') (hperm : vs.Perm vs')
    (hinside : ∀ v ∈ vs', isLocal v = true) (hnodup : vs'.Nodup)
    (hsmall : vs'.length ≤ 8 → vs = vs') : Follows (r.insert k vs) (r'.insert k vs') := by
  have hfilter : ∀ j, vs'.filter (fun v => v ∉ r j) = vs'.filter fun v => v ∉ r' j := fun j =>
    List.filter_congr fun v _ => by simp only [(h.perm j).mem_iff]
  refine ⟨fun j => ?_, fun j v hv => ?_, fun j => ?_, fun j hlen => ?_⟩
  · unfold Result.insert
    split
    · exact (h.perm j).append (hfilter j ▸ hperm.filter _)
    · exact h.perm j
  · rcases mem_insert.mp hv with hv | ⟨-, hv⟩
    · exact h.inside j v hv
    · exact hinside v hv
  · unfold Result.insert
    split
    · refine List.nodup_append.mpr ⟨h.nodup j, hnodup.filter _, ?_⟩
      rintro v hv w hw rfl
      simp [hv] at hw
    · exact h.nodup j
  · unfold Result.insert at hlen ⊢
    by_cases heq : j = k
    · rw [if_pos heq] at hlen
      have hsub : vs' ⊆ r' j ++ vs'.filter fun v => v ∉ r' j := by
        intro v hv
        by_cases hold : v ∈ r' j
        · exact List.mem_append_left _ hold
        · exact List.mem_append_right _ (List.mem_filter.mpr ⟨hv, by simpa using hold⟩)
      have hle := (List.subperm_of_subset hnodup hsub).length_le
      have hold : (r' j).length ≤ 8 := by
        rw [List.length_append] at hlen
        omega
      rw [if_pos heq, if_pos heq, hsmall (hle.trans hlen), h.small j hold]
    · rw [if_neg heq] at hlen
      rw [if_neg heq, if_neg heq, h.small j hlen]

theorem Follows.insertAll (h : Follows r r') {defs defs' : List Value} (hdefs : defs.Perm defs')
    (hinside : ∀ v ∈ defs', isLocal v = true) (hnodup : defs'.Nodup)
    (hsmall : defs'.length ≤ 8 → defs = defs') (hvs : vs.Perm vs')
    (hinside' : ∀ v ∈ vs', isLocal v = true) (hnodup' : vs'.Nodup)
    (hsmall' : vs'.length ≤ 8 → vs = vs') (children : List Nat) :
    Follows (children.foldl (fun result child => (result.insert child defs).insert child vs) r)
      (children.foldl (fun result child => (result.insert child defs').insert child vs') r') := by
  induction children generalizing r r' with
  | nil => exact h
  | cons c children ih =>
      exact ih ((h.insert hdefs hinside hnodup hsmall).insert hvs hinside' hnodup' hsmall')

theorem isLocal_definedValues : ∀ v ∈ definedValues F k, isLocal v = true := by
  intro v hv
  obtain ⟨d, -, -, rfl⟩ := mem_definedValues.mp hv
  rfl

theorem nodup_definedValues (hF : F.WellFormed) (hk : k ∈ F.order) :
    (definedValues F k).Nodup := by
  have hids : (((F.block k).defs.filter fun d => d.2.isIntegerTy).map Prod.fst).Nodup :=
    (hF.block_nodup hk).sublist (List.filter_sublist.map _)
  have hmap := hids.map (f := Value.inst) fun _ _ h => Value.inst.inj h
  rwa [List.map_map] at hmap

theorem nodup_entryValues : (entryValues F globals).Nodup := by
  have hnone : (globals.map Value.global).filter (fun g => (F.typeOf g).isIntegerTy) = [] := by
    refine List.filter_eq_nil_iff.mpr fun v hv => ?_
    obtain ⟨g, -, rfl⟩ := List.mem_map.mp hv
    exact Bool.false_ne_true
  unfold entryValues
  rw [hnone, List.nil_append]
  exact (List.nodup_range.map fun _ _ h => Value.arg.inj h).filter _

theorem follows_start : Follows (Result.insert (fun _ => []) F.entry (entryValues F globals))
    (Result.insert (fun _ => []) F.entry (entryValues F globals)) := by
  have hempty : Follows (fun _ => []) (fun _ => []) :=
    ⟨fun _ => .refl _, nofun, fun _ => .nil, fun _ _ => rfl⟩
  refine hempty.insert (.refl _) (fun v hv => ?_) nodup_entryValues fun _ => rfl
  obtain ⟨i, ty, -, -, rfl⟩ := mem_entryValues.mp hv
  rfl

theorem Follows.propagate (hF : F.WellFormed) (hT : T.Describes F) (hit : Iterates iterate)
    {n : Nat} {worklist : List Nat} (hwork : ∀ j ∈ worklist, j ∈ F.order) (h : Follows r r') :
    Follows (propagateIn iterate T F n worklist r) (RIV.propagate T F n worklist r') := by
  induction n generalizing worklist r r' with
  | zero => exact h
  | succ n ih =>
      cases worklist with
      | nil => exact h
      | cons k worklist =>
          obtain ⟨hk, hrest⟩ := List.forall_mem_cons.mp hwork
          refine ih (fun j hj => ?_) ?_
          · rcases List.mem_append.mp hj with hj | hj
            · exact hF.mem_of_reachable (hT.child k j (List.mem_reverse.mp hj)).1
            · exact hrest j hj
          · have hinside : ∀ v ∈ r k, isLocal v = true := fun v hv =>
              h.inside k v ((h.perm k).mem_iff.mp hv)
            refine h.insertAll (hit.perm _ isLocal_definedValues) isLocal_definedValues
              (nodup_definedValues hF hk) (hit.small _) ((hit.perm _ hinside).trans (h.perm k))
              (h.inside k) (h.nodup k) (fun hlen => ?_) _
            have hlen' : (r k).length ≤ 8 := (h.perm k).length_eq ▸ hlen
            rw [hit.small _ hlen', h.small k hlen]

theorem runIn_follows (hF : F.WellFormed) (hT : T.Describes F) (hit : Iterates iterate)
    (globals : List Nat) : Follows (runIn iterate T F globals) (run T F globals) := by
  refine follows_start.propagate hF hT hit fun j hj => ?_
  obtain rfl := List.mem_singleton.mp hj
  exact hT.root ▸ hF.entry_mem

/-- The value is one of those that come to a block from above. -/
def Reaches (F : Function) (k : Nat) (v : Value) : Prop :=
  (∃ i ty, F.params[i]? = some ty ∧ ty.isIntegerTy = true ∧ v = .arg i) ∨
    ∃ a, F.StrictlyDominates a k ∧
      ∃ d ∈ (F.block a).defs, d.2.isIntegerTy = true ∧ v = .inst d.1

/-- How many values come to a block. -/
theorem encard_reaches (hF : F.WellFormed) (hT : T.Describes F) (hk : F.Reachable k)
    (hnodup : (run T F globals k).Nodup) :
    {v | Reaches F k v}.encard = (run T F globals k).length := by
  have hset : {v | Reaches F k v} = ((run T F globals k).toFinset : Set Value) := by
    ext v
    rw [Set.mem_ofPred_eq, List.coe_toFinset, Set.mem_ofPred_eq, mem_run hF hT hk]
    rfl
  rw [hset, Set.encard_coe_eq_coe_finsetCard, List.toFinset_card_of_nodup hnodup]

end RIV

namespace Allocation

variable {A : Allocation} {vs : List Value}

theorem injOn (hinside : ∀ v ∈ vs, isLocal v = true) :
    ∀ u ∈ vs, ∀ v ∈ vs, A.value u = A.value v → u = v := fun u hu v hv =>
  A.value_inj u v (hinside u hu) (hinside v hv)

theorem iterates (table : PointerSet.Hashing) (A : Allocation) :
    RIV.Iterates (A.iterate table) where
  perm := fun _ hinside => PointerSet.iterate_perm (A.injOn hinside)
  small := fun _ hlen => PointerSet.iterate_small hlen

/-- The order in which the analysis has put the values does not matter. -/
theorem iterate_runIn (hF : F.WellFormed) (hT : T.Describes F) (globals : List Nat) (k : Nat) :
    A.iterate table (RIV.runIn (A.iterate table) T F globals k) =
      A.iterate table (RIV.run T F globals k) := by
  have hfollows := RIV.runIn_follows hF hT (A.iterates table) globals
  have hperm := hfollows.perm k
  by_cases hlen : (RIV.run T F globals k).length ≤ 8
  · rw [hfollows.small k hlen]
  · refine PointerSet.iterate_congr hperm ?_ (A.injOn fun v hv => ?_)
    · rw [hperm.length_eq]
      exact Nat.lt_of_not_le hlen
    · exact hfollows.inside k v (hperm.mem_iff.mp hv)

/-- Two values have changed their places. -/
def swap (A : Allocation) (u v : Value) (hu : isLocal u = true) (hv : isLocal v = true) :
    Allocation where
  value := A.value ∘ Equiv.swap u v
  block := A.block
  value_inj := by
    have hlocal : ∀ x, isLocal x = true → isLocal (Equiv.swap u v x) = true := by
      intro x hx
      rw [Equiv.swap_apply_def]
      split_ifs <;> assumption
    intro x y hx hy heq
    exact (Equiv.swap u v).injective (A.value_inj _ _ (hlocal x hx) (hlocal y hy) heq)
  block_inj := A.block_inj

/-- Instructions and arguments by turns. -/
def alternating : Allocation where
  value := fun v => match v with
    | .inst id => 2 * id
    | .arg i => 2 * i + 1
    | _ => 0
  block := id
  value_inj := by
    intro u v hu hv heq
    cases u <;> cases v <;> simp_all [isLocal] <;> omega
  block_inj := Function.injective_id

end Allocation

namespace DuplicateBB

variable {σ : Type} {gen : Generator σ} {seed : σ} {A A' : Allocation} {rivs rivs' : RIV.Result}
variable {order : List Nat} {k : Nat}

/-! ## The choice -/

theorem choose_congr (h : ∀ k ∈ order, isLandingPad (F.block k) = false → rivs k = rivs' k) :
    choose gen F rivs order seed = choose gen F rivs' order seed := by
  induction order generalizing seed with
  | nil => rfl
  | cons k order ih =>
      obtain ⟨hk, hrest⟩ := List.forall_mem_cons.mp h
      unfold choose
      cases hpad : isLandingPad (F.block k) with
      | true => exact ih hrest
      | false =>
          rw [hk hpad]
          cases rivs' k with
          | nil => exact ih hrest
          | cons v values => exact congrArg (List.cons _) (ih hrest)

/-- The draws that are made are as good as a place drawn for each block. -/
theorem choose_eq_filterMap (hnodup : order.Nodup) : ∃ dist : Nat → Nat,
    choose gen F rivs order seed = order.filterMap fun k =>
      if isLandingPad (F.block k) then none else (rivs k)[dist k]?.map fun v => (k, v) := by
  induction order generalizing seed with
  | nil => exact ⟨fun _ => 0, rfl⟩
  | cons k order ih =>
      obtain ⟨hk, hnodup⟩ := List.nodup_cons.mp hnodup
      -- the place for `k` does not matter to the blocks behind it
      have hskip : ∀ {seed : σ} {i : Nat}, ∃ dist : Nat → Nat, dist k = i ∧
          choose gen F rivs order seed = order.filterMap fun k =>
            if isLandingPad (F.block k) then none
            else (rivs k)[dist k]?.map fun v => (k, v) := by
        intro seed i
        obtain ⟨dist, hdist⟩ := @ih seed hnodup
        refine ⟨Function.update dist k i, Function.update_self .., hdist.trans ?_⟩
        refine List.filterMap_congr fun j hj => ?_
        have hne : j ≠ k := fun heq => hk (heq ▸ hj)
        rw [Function.update_of_ne hne]
      unfold choose
      cases hpad : isLandingPad (F.block k) with
      | true =>
          obtain ⟨dist, -, hdist⟩ := @hskip seed 0
          refine ⟨dist, hdist.trans (List.filterMap_cons_none ?_).symm⟩
          simp only [hpad, if_true]
      | false =>
          cases hrivs : rivs k with
          | nil =>
              obtain ⟨dist, -, hdist⟩ := @hskip seed 0
              refine ⟨dist, hdist.trans (List.filterMap_cons_none ?_).symm⟩
              simp [hpad, hrivs]
          | cons v values =>
              obtain ⟨dist, hself, hdist⟩ :=
                @hskip (gen.draw values.length seed).2 (gen.draw values.length seed).1
              refine ⟨dist, (congrArg _ hdist).trans (List.filterMap_cons_some ?_).symm⟩
              simp [hpad, hrivs, hself]

/-- A generator that draws one place wherever there is that many. -/
def drawing (p : Nat) : Generator Unit where
  draw := fun last seed => (if h : p < last + 1 then ⟨p, h⟩ else 0, seed)

theorem mem_choose {p : Nat} {v : Value} (rivs : Nat → List Value) (hk : k ∈ order)
    (hpad : isLandingPad (F.block k) = false) (hv : (rivs k)[p]? = some v) :
    (k, v) ∈ choose (drawing p) F rivs order () := by
  induction order with
  | nil => cases hk
  | cons j order ih =>
      rcases List.mem_cons.mp hk with rfl | hk
      · unfold choose
        rw [if_neg (Bool.eq_false_iff.mp hpad)]
        cases hrivs : rivs k with
        | nil => simp [hrivs] at hv
        | cons w values =>
            rw [hrivs] at hv
            obtain ⟨hlt, hget⟩ := List.getElem?_eq_some_iff.mp hv
            have hdraw : ((drawing p).draw values.length ()).1 = ⟨p, hlt⟩ := dif_pos hlt
            refine List.mem_cons.mpr (.inl ?_)
            rw [hdraw]
            exact congrArg _ hget.symm
      · unfold choose
        split
        · exact ih hk
        · split
          · exact ih hk
          · exact List.mem_cons_of_mem _ (ih hk)

theorem nodup_keys_choose (hnodup : order.Nodup) :
    ((choose gen F rivs order seed).map Prod.fst).Nodup := by
  obtain ⟨dist, hdist⟩ := @choose_eq_filterMap F σ gen seed rivs order hnodup
  rw [hdist]
  exact hnodup.sublist (keys_sublist (fun _ _ h => (entry_some h).1) order)

/-! ## Two runs -/

/-- Wherever the values and the blocks of the function are, and whatever is drawn,
the same values are checked, and the same function comes out but for handles. -/
def Reproducible (table : PointerSet.Hashing) (T : RIV.DomTree) (F : Function)
    (globals : List Nat) : Prop :=
  ∀ (σ : Type) (gen : Generator σ) (seed : σ) (A A' : Allocation),
    let r := runAt table A gen seed T F globals
    let r' := runAt table A' gen seed T F globals
    r.1 = r'.1 ∧ ∃ β ι, Renaming F r.2 r'.2 β ι

theorem targets_runAt (hF : F.WellFormed) (hT : T.Describes F) (globals : List Nat) :
    (runAt table A gen seed T F globals).1 =
      choose gen F (fun k => A.iterate table (RIV.run T F globals k)) F.order seed := by
  have hrivs : (fun k => A.iterate table (RIV.runIn (A.iterate table) T F globals k)) =
      fun k => A.iterate table (RIV.run T F globals k) :=
    funext fun k => Allocation.iterate_runIn hF hT globals k
  exact congrArg (fun rivs => choose gen F rivs F.order seed) hrivs

/-- Blocks that the addresses cannot reach through small sets are chosen alike. -/
theorem targets_small (hF : F.WellFormed) (hT : T.Describes F) (globals : List Nat)
    (hsmall : ∀ k ∈ F.order, isLandingPad (F.block k) = false →
      (RIV.run T F globals k).length ≤ 8) :
    (runAt table A gen seed T F globals).1 =
      choose gen F (RIV.run T F globals) F.order seed := by
  rw [targets_runAt hF hT]
  exact choose_congr fun k hk hpad => (A.iterates table).small _ (hsmall k hk hpad)

theorem perm_arrange (A : Allocation) (ts : List (Nat × Value)) : (A.arrange ts).Perm ts :=
  List.perm_insertionSort _ ts

/-- With small sets the pass is the one without addresses, on its targets in some
order. -/
theorem reproducible_of_small (hF : F.WellFormed) (hI : Issued F) (hT : T.Describes F)
    (globals : List Nat) (hsmall : ∀ k ∈ F.order, isLandingPad (F.block k) = false →
      (RIV.run T F globals k).length ≤ 8) : Reproducible table T F globals := by
  intro σ gen seed A A'
  have hA := @targets_small T F table σ gen seed A hF hT globals hsmall
  have hA' := @targets_small T F table σ gen seed A' hF hT globals hsmall
  refine ⟨hA.trans hA'.symm, ?_⟩
  obtain ⟨dist, hdist⟩ := @choose_eq_filterMap F σ gen seed (RIV.run T F globals) F.order hF.nodup
  have hchosen : Chosen F (choose gen F (RIV.run T F globals) F.order seed) :=
    hdist ▸ chosen_targets hF hT globals dist
  have hout : ∀ A, (runAt table A gen seed T F globals).2 =
      duplicateAll F (A.arrange (runAt table A gen seed T F globals).1) := fun _ => rfl
  rw [hout, hout, hA, hA']
  exact duplicateAll_perm hF hI (hchosen.perm (perm_arrange A _).symm)
    ((perm_arrange A _).trans (perm_arrange A' _).symm)

/-- Two values of a large set, and a draw that comes upon one or the other. -/
theorem small_of_reproducible (hF : F.WellFormed) (hT : T.Describes F)
    (h : Reproducible table T F globals) (hk : k ∈ F.order)
    (hpad : isLandingPad (F.block k) = false) : (RIV.run T F globals k).length ≤ 8 := by
  by_contra hlarge
  have hlarge : 8 < (RIV.run T F globals k).length := Nat.lt_of_not_le hlarge
  obtain ⟨u, v, rest, hl⟩ : ∃ u v rest, RIV.run T F globals k = u :: v :: rest := by
    match hl : RIV.run T F globals k, hlarge with
    | u :: v :: rest, _ => exact ⟨u, v, rest, rfl⟩
  let A := Allocation.alternating
  have hfollows := RIV.runIn_follows hF hT (A.iterates table) globals
  have hinside := hfollows.inside k
  have hu : u ∈ RIV.run T F globals k := hl ▸ List.mem_cons_self ..
  have hv : v ∈ RIV.run T F globals k := hl ▸ List.mem_cons_of_mem _ (List.mem_cons_self ..)
  have hne : u ≠ v := by
    have hnodup := hfollows.nodup k
    rw [hl, List.nodup_cons] at hnodup
    exact fun heq => hnodup.1 (heq ▸ List.mem_cons_self ..)
  let A' := A.swap u v (hinside u hu) (hinside v hv)
  have hmoved : A'.iterate table (RIV.run T F globals k) =
      (A.iterate table (RIV.run T F globals k)).map (Equiv.swap u v) :=
    PointerSet.iterate_swap hlarge (hfollows.nodup k) (A.injOn hinside) hu hv
  obtain ⟨p, hp⟩ := List.getElem?_of_mem (((A.iterates table).perm _ hinside).mem_iff.mpr hu)
  have hp' : (A'.iterate table (RIV.run T F globals k))[p]? = some v := by
    rw [hmoved, List.getElem?_map, hp, Option.map_some, Equiv.swap_apply_left]
  have hchecks := (h Unit (drawing p) () A A').1
  rw [targets_runAt hF hT, targets_runAt hF hT] at hchecks
  have hmem := mem_choose (fun k => A.iterate table (RIV.run T F globals k)) hk hpad hp
  have hmem' := mem_choose (fun k => A'.iterate table (RIV.run T F globals k)) hk hpad hp'
  rw [← hchecks] at hmem'
  exact hne (congrArg Prod.snd (Table.key_inj (nodup_keys_choose hF.nodup) hmem hmem' rfl))

/-- The pass is reproducible exactly if no more values come to a block than the
buffer of a set holds, landing pads aside. -/
theorem reproducible_iff (hF : F.WellFormed) (hI : Issued F) (hT : T.Describes F)
    (globals : List Nat) (table : PointerSet.Hashing) :
    Reproducible table T F globals ↔
      ∀ k, F.Reachable k → isLandingPad (F.block k) = false →
        {v | RIV.Reaches F k v}.encard ≤ 8 := by
  have hnodup : ∀ k, (RIV.run T F globals k).Nodup :=
    (RIV.runIn_follows hF hT (Allocation.alternating.iterates table) globals).nodup
  constructor
  · intro h k hk hpad
    rw [RIV.encard_reaches hF hT hk (hnodup k)]
    exact_mod_cast small_of_reproducible hF hT h (hF.mem_of_reachable hk) hpad
  · intro h
    refine reproducible_of_small hF hI hT globals fun k _ hpad => ?_
    by_cases hk : F.Reachable k
    · have hle := h k hk hpad
      rw [RIV.encard_reaches hF hT hk (hnodup k)] at hle
      exact_mod_cast hle
    · rw [RIV.run_unreachable hF hT hk]
      exact Nat.zero_le 8

/-! ### Nine values -/

/-- A table that is gone through by address. -/
def ascending : PointerSet.Hashing where
  order := fun addresses => addresses.insertionSort (· ≤ ·)
  perm := fun addresses => List.perm_insertionSort (· ≤ ·) addresses
  determined := fun {l l'} hperm =>
    (((List.perm_insertionSort _ l).trans hperm).trans (List.perm_insertionSort _ l').symm
      ).eq_of_pairwise' (List.pairwise_insertionSort _ l) (List.pairwise_insertionSort _ l')

/-- `define void @f(i32 %a)`: eight times `add i32 %a, %a` and `br label %1`, and
`1: ret void`. -/
def computing : Function where
  params := [.int 32]
  retTy := .void
  order := [0, 1]
  block := fun k => match k with
    | 0 => ⟨(List.range 8).map fun id => ⟨id, .int 32, .binop .add, [.arg 0, .arg 0], [], {}⟩,
        ⟨8, .void, .br, [.block 1], [], {}⟩⟩
    | _ => ⟨[], ⟨9, .void, .ret, [], [], {}⟩⟩
  nextBlock := 2
  nextInst := 10

theorem wellFormed_computing : computing.WellFormed where
  nonempty := by decide
  nodup := by decide
  ids_nodup := by decide
  operands := by decide
  successors := by decide
  terminators := by decide
  debug := by decide
  phis := by decide
  incoming := by decide

theorem issued_computing : Issued computing where
  blocks := by decide
  insts := by decide
  incoming := by decide

/-- The second block checks the first of the eight sums, or the last if they have
changed places. -/
theorem check_depends_on_addresses :
    ¬ ∀ (F : Function) (T : RIV.DomTree) (globals : List Nat) (table : PointerSet.Hashing),
      F.WellFormed → Issued F → T.Describes F → Reproducible table T F globals := by
  intro h
  have hdescribes : addingTree.Describes computing :=
    describes_addingTree wellFormed_computing rfl (.snoc .start rfl)
  have hchecks := (h computing addingTree [] ascending wellFormed_computing issued_computing
    hdescribes Unit (drawing 0) () .alternating
    (Allocation.alternating.swap (.inst 0) (.inst 7) rfl rfl)).1
  exact absurd hchecks (by decide)

theorem reproducible_iff_adding :
    Reproducible ascending addingTree adding [] ↔
      ∀ k, adding.Reachable k → isLandingPad (adding.block k) = false →
        {v | RIV.Reaches adding k v}.encard ≤ 8 :=
  reproducible_iff wellFormed_adding issued_adding describes_adding [] ascending

end DuplicateBB

end LlvmPasses
