import LlvmPasses.Ir.Lockstep
import LlvmPasses.Proofs.MBADefined
import LlvmPasses.Proofs.DuplicateDefined
import LlvmPasses.Proofs.DuplicateSupported

/-!
# Transformations one after the other

Each transformation asks of a function what the others leave, so that they can
run in any order and any number of times. DuplicateBB is run with the values
that are reachable in the function as it then is.

`transformed_alike` is an induction over the list of runs, with `Supported` and
`Behaves` as what each asks of the function and leaves. The work is in the
modules about the transformations, which show that they keep both and do the
same; here it is put together.
-/

namespace LlvmPasses

open Ir
open MergeBB (emptyWorld)

/-- What one run of a transformation makes of a function. -/
inductive Transforms : Function → Function → Prop where
  | mbaAdd (F : Function) : Transforms F (MBAAdd.run F).2
  | mbaSub (F : Function) : Transforms F (MBASub.run F).2
  | duplicateBB {F : Function} {T : RIV.DomTree} (hT : T.Describes F) (globals : List Nat)
      (dist : Nat → Nat) {arrange : List (Nat × Value) → List (Nat × Value)}
      (harrange : ∀ ts, (arrange ts).Perm ts) :
      Transforms F (DuplicateBB.run dist arrange (RIV.run T F globals) F).2

section

variable {μ : Type} {W : World μ} {F G : Function} {args : List Val} {mem : μ}

theorem Transforms.supported (h : Transforms F G) (hF : F.Supported) : G.Supported := by
  cases h with
  | mbaAdd => exact MBA.supported_substitute MBAAdd.rule_typed hF
  | mbaSub => exact MBA.supported_substitute MBASub.rule_typed hF
  | duplicateBB hT globals dist harrange =>
      have hchosen := DuplicateBB.chosen_targets hF.wellFormed hT globals dist
      exact DuplicateBB.supported_duplicateAll hF (hchosen.perm (harrange _).symm)

theorem Transforms.behaves (h : Transforms F G) (hF : F.Supported) (hb : Behaves W F args mem) :
    Behaves W G args mem ∧ Alike W F G args mem := by
  cases h with
  | mbaAdd =>
      exact MBA.behaves_substitute MBAAdd.rule_computes MBAAdd.rule_typed
        (fun _ _ _ => ⟨_, rfl⟩) hF hb
  | mbaSub =>
      exact MBA.behaves_substitute MBASub.rule_computes MBASub.rule_typed
        (fun _ _ _ => ⟨_, rfl⟩) hF hb
  | duplicateBB hT globals dist harrange =>
      exact DuplicateBB.behaves_duplicateAll hF hT globals dist (harrange _) hb

/-- However often the transformations run, and in whatever order, the function
does what it did, and they can be run on it again. -/
theorem transformed_alike (h : Relation.ReflTransGen Transforms F G) (hF : F.Supported)
    (hb : Behaves W F args mem) :
    G.Supported ∧ Behaves W G args mem ∧ Alike W F G args mem := by
  induction h with
  | refl => exact ⟨hF, hb, .refl W F args mem⟩
  | tail _ hlast ih =>
      obtain ⟨hsupported, hbehaves, halike⟩ := ih
      obtain ⟨hbehaves', halike'⟩ := hlast.behaves hsupported hbehaves
      exact ⟨hlast.supported hsupported, hbehaves', halike.trans halike'⟩

end

/-! ### A sum and a difference, duplicated and obfuscated -/

namespace DuplicateBB

theorem supported_adding : adding.Supported where
  wellFormed := wellFormed_adding
  issued := issued_adding
  wellTyped := by decide
  matched := by decide
  entry := rfl
  terminators := by decide
  targets := by
    intro k hk j hj
    rcases List.mem_cons.mp hk with rfl | hk
    · cases List.mem_singleton.mp hj
      exact List.mem_singleton_self 1
    · cases List.mem_singleton.mp hk
      cases List.mem_singleton.mp hj
  switches := by
    unfold MBA.Switches
    decide

theorem behaves_adding : Behaves emptyWorld adding [.int 8 7] () where
  values := allDefined_adding
  runs := by
    rintro trace ⟨n, hn⟩
    match n with
    | 0 | 1 | 2 | 3 | 4 => cases hn
    | n + 5 => cases hn

/-- Both blocks are split, and both copies of the sum and of the difference are
replaced. -/
theorem transformed_alike_adding :
    Alike emptyWorld adding
      (MBASub.run (MBAAdd.run
        (run (fun _ => 0) id (RIV.run addingTree adding []) adding).2).2).2 [.int 8 7] () := by
  have hduplicated : Transforms adding
      (run (fun _ => 0) id (RIV.run addingTree adding []) adding).2 :=
    .duplicateBB describes_adding [] (fun _ => 0) fun _ => .refl _
  have hall := ((Relation.ReflTransGen.single hduplicated).tail (.mbaAdd _)).tail (.mbaSub _)
  exact (transformed_alike hall supported_adding behaves_adding).2.2

end DuplicateBB

end LlvmPasses
