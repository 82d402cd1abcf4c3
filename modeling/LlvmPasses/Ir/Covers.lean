import LlvmPasses.Ir.Exec
import LlvmPasses.Lib.Traverse

/-!
# What flags decide

The flags of operations on integers and of conversions between them decide only
whether a result is poison, on vectors in each lane. One set of flags covers
another, on given values, if it makes poison of whatever the other does. Then
the result under the first is refined by the one under the second: it is the
same but for poison in it, which may have become a value. The converse holds
too, so covering is exactly what it takes. No flags at all are covered by any,
and so results under different flags never contradict each other.

Everything is proved of words first, where a result is poison or one integer
whatever the flags. A vector is a list of words that may be poison, and an
operation on vectors goes over the pairs of lanes.
-/

namespace LlvmPasses.Ir

/-! ## Values that are poison less often -/

/-- The second word may stand for the first: it is the same, or the first is
poison. -/
def RefinedWord {w : Nat} (x y : Option (BitVec w)) : Prop := x = none ∨ x = y

/-- The second value may stand for the first. -/
inductive Val.RefinedBy : Val → Val → Prop
  | refl (v : Val) : RefinedBy v v
  | poison (v : Val) : RefinedBy .poison v
  | lanes {w : Nat} {xs ys : List (Option (BitVec w))} (h : List.Forall₂ RefinedWord xs ys) :
      RefinedBy (.vec w xs) (.vec w ys)

/-- No value has to stand for poison but poison. -/
theorem Val.RefinedBy.eq_poison {v : Val} (h : v.RefinedBy .poison) : v = .poison := by
  cases h <;> rfl

/-- The value is poison, or a lane of it is. -/
def Val.hasPoison : Val → Bool
  | .poison => true
  | .vec _ lanes => lanes.contains none
  | _ => false

theorem refinedWords_eq {w : Nat} {xs ys : List (Option (BitVec w))}
    (h : List.Forall₂ RefinedWord xs ys) (hnone : none ∉ xs) : ys = xs := by
  induction h with
  | nil => rfl
  | cons hxy _ ih =>
      rw [List.mem_cons, not_or] at hnone
      rcases hxy with rfl | rfl
      · exact absurd rfl hnone.1
      · rw [ih hnone.2]

/-- Only the value itself stands for one without poison. -/
theorem Val.RefinedBy.eq_of_whole {v v' : Val} (h : v.RefinedBy v') (hv : v.hasPoison = false) :
    v' = v := by
  cases h with
  | refl => rfl
  | poison => cases hv
  | lanes hrel =>
      rw [refinedWords_eq hrel fun hmem => ?_]
      rw [Val.hasPoison, List.contains_iff_mem.mpr hmem] at hv
      cases hv

/-! ## What the flags can change -/

/-- What depends on flags in one way only: under some of them it is poison, and
under the others always the same integer. -/
inductive Flagged (w : Nat) (g : Flags → Option Val) : Prop
  | same (o : Option Val) (h : ∀ f, g f = o)
  | poison (z : BitVec w) (h : ∀ f, g f = some .poison ∨ g f = some (.int w z))

section Flagged

variable {w : Nat} {g : Flags → Option Val} {f f' : Flags}

/-- Where the first flags make as much poison, they change no more than that. -/
theorem Flagged.covered (h : Flagged w g) (hc : g f' = some .poison → g f = some .poison) :
    g f = g f' ∨ ∃ z, g f = some .poison ∧ g f' = some (.int w z) := by
  cases h with
  | same o h => exact .inl ((h f).trans (h f').symm)
  | poison z h =>
      rcases h f' with hf' | hf'
      · exact .inl ((hc hf').trans hf'.symm)
      · rcases h f with hf | hf
        · exact .inr ⟨z, hf, hf'⟩
        · exact .inl (hf.trans hf'.symm)

theorem toWord_int (z : BitVec w) : Val.toWord w (.int w z) = some (some z) := dif_pos rfl

theorem Flagged.word (h : Flagged w g) (hc : g f' = some .poison → g f = some .poison) :
    Option.Rel RefinedWord ((g f).bind (Val.toWord w)) ((g f').bind (Val.toWord w)) := by
  rcases h.covered hc with heq | ⟨z, hf, hf'⟩
  · rw [heq]
    cases (g f').bind (Val.toWord w) with
    | none => exact .none
    | some x => exact .some (.inr rfl)
  · rw [hf, hf', Option.bind_some, Option.bind_some, toWord_int]
    exact .some (.inl rfl)

/-- Whether there is a result does not depend on flags. -/
theorem Flagged.defined (h : Flagged w g) (f f' : Flags) :
    Option.Rel (fun _ _ => True) ((g f).bind (Val.toWord w)) ((g f').bind (Val.toWord w)) := by
  cases h with
  | same o h =>
      rw [h f, h f']
      cases o.bind (Val.toWord w) with
      | none => exact .none
      | some x => exact .some trivial
  | poison z h =>
      have hword : ∀ f, ∃ x, (g f).bind (Val.toWord w) = some x := by
        intro f
        rcases h f with hf | hf
        · exact ⟨none, by rw [hf]; rfl⟩
        · exact ⟨some z, by rw [hf]; exact toWord_int z⟩
      obtain ⟨x, hx⟩ := hword f
      obtain ⟨y, hy⟩ := hword f'
      rw [hx, hy]
      exact .some trivial

end Flagged

section Flags

variable {w : Nat} {op : BinOp}

theorem poisonIf_cases (c : Bool) (z : BitVec w) :
    poisonIf c (.int w z) = some .poison ∨ poisonIf c (.int w z) = some (.int w z) := by
  cases c with
  | true => exact .inl rfl
  | false => exact .inr rfl

/-- Whatever the flags, the result is poison or always the same integer. -/
theorem BinOp.applyInt_flags (op : BinOp) (x y : BitVec w) :
    (∀ f, op.applyInt f x y = none) ∨
      ∃ z, ∀ f, op.applyInt f x y = some .poison ∨ op.applyInt f x y = some (.int w z) := by
  have hpoison : ∀ (c : Flags → Bool) (z : BitVec w), ∃ z', ∀ f,
      poisonIf (c f) (.int w z) = some .poison ∨ poisonIf (c f) (.int w z) = some (.int w z') :=
    fun c z => ⟨z, fun f => poisonIf_cases (c f) z⟩
  cases op with
  | add => exact .inr (hpoison _ _)
  | sub => exact .inr (hpoison _ _)
  | mul => exact .inr (hpoison _ _)
  | shl => exact .inr (hpoison _ _)
  | lshr => exact .inr (hpoison _ _)
  | ashr => exact .inr (hpoison _ _)
  | and => exact .inr ⟨_, fun _ => .inr rfl⟩
  | or => exact .inr ⟨_, fun _ => .inr rfl⟩
  | xor => exact .inr ⟨_, fun _ => .inr rfl⟩
  | udiv =>
      by_cases hy : y = 0
      · exact .inl fun f => if_pos hy
      · simp only [BinOp.applyInt, if_neg hy]
        exact .inr (hpoison _ _)
  | sdiv =>
      by_cases hy : y = 0 ∨ x.sdivOverflow y
      · exact .inl fun f => if_pos hy
      · simp only [BinOp.applyInt, if_neg hy]
        exact .inr (hpoison _ _)
  | urem =>
      by_cases hy : y = 0
      · exact .inl fun f => if_pos hy
      · simp only [BinOp.applyInt, if_neg hy]
        exact .inr ⟨_, fun _ => .inr rfl⟩
  | srem =>
      by_cases hy : y = 0 ∨ x.sdivOverflow y
      · exact .inl fun f => if_pos hy
      · simp only [BinOp.applyInt, if_neg hy]
        exact .inr ⟨_, fun _ => .inr rfl⟩

theorem BinOp.apply_flags (op : BinOp) (w : Nat) (a b : Val) :
    Flagged w fun f => op.apply w f a b := by
  cases a with
  | int w₁ x =>
      cases b with
      | int w₂ y =>
          by_cases h : w₁ = w ∧ w₂ = w
          · simp only [BinOp.apply, dif_pos h]
            rcases op.applyInt_flags (h.1 ▸ x) (h.2 ▸ y) with hnone | ⟨z, hz⟩
            · exact .same none hnone
            · exact .poison z hz
          · simp only [BinOp.apply, dif_neg h]
            exact .same none fun _ => rfl
      | _ => exact .same _ fun _ => rfl
  | _ => cases b <;> exact .same _ fun _ => rfl

theorem CastOp.applyInt_flags (op : CastOp) (w' : Nat) (x : BitVec w) :
    Flagged w' fun f => op.applyInt f w' x := by
  cases op with
  | trunc => exact .poison (x.setWidth w') fun f => poisonIf_cases _ _
  | _ => exact .same _ fun _ => rfl

theorem CastOp.apply_flags (op : CastOp) (w' : Nat) (v : Val) :
    Flagged w' fun f => op.apply f w' v := by
  cases v with
  | int w x => exact op.applyInt_flags w' x
  | _ => exact .same _ fun _ => rfl

end Flags

/-! ### Flags that make as much poison -/

/-- What is poison under the second flags is poison under the first. -/
def BinOp.Covers {w : Nat} (op : BinOp) (f f' : Flags) (x y : BitVec w) : Prop :=
  op.applyInt f' x y = some .poison → op.applyInt f x y = some .poison

def CastOp.Covers {w : Nat} (op : CastOp) (f f' : Flags) (w' : Nat) (x : BitVec w) : Prop :=
  op.applyInt f' w' x = some .poison → op.applyInt f w' x = some .poison

/-- The first flags cover the second where the operation is run on the values: on
each pair of lanes, unless it is undefined on one of them. -/
structure Covers (f f' : Flags) (op : Op) (ty : Ty) (vals : List Val) : Prop where
  binop : ∀ b w (x y : BitVec w), op = .binop b → ty = .int w → vals = [.int w x, .int w y] →
    b.Covers f f' x y
  lanes : ∀ b n w u v xs ys, op = .binop b → ty = .vec n (.int w) → vals = [u, v] →
    u.lanes n w = some xs → v.lanes n w = some ys → b.applyVec n w f u v ≠ none →
    ∀ x y, (some x, some y) ∈ xs.zip ys → b.Covers f f' x y
  cast : ∀ c w w' (x : BitVec w), op = .cast c → ty = .int w' → vals = [.int w x] →
    c.Covers f f' w' x
  castLanes : ∀ c n w w' (xs : List (Option (BitVec w))), op = .cast c →
    ty = .vec n (.int w') → vals = [.vec w xs] → xs.length = n →
    ∀ x, some x ∈ xs → c.Covers f f' w' x

/-- Other instructions pay no attention to flags. -/
theorem covers_of_ne {f f' : Flags} {op : Op} (hb : ∀ b, op ≠ .binop b) (hc : ∀ c, op ≠ .cast c)
    (ty : Ty) (vals : List Val) : Covers f f' op ty vals where
  binop b _ _ _ hop := absurd hop (hb b)
  lanes b _ _ _ _ _ _ hop := absurd hop (hb b)
  cast c _ _ _ hop := absurd hop (hc c)
  castLanes c _ _ _ _ hop := absurd hop (hc c)

section Refined

variable {w n : Nat} {f f' : Flags}

theorem BinOp.apply_covered {op : BinOp} {u v : Val}
    (h : ∀ x y, u = .int w x → v = .int w y → op.Covers f f' x y)
    (hp : op.apply w f' u v = some .poison) : op.apply w f u v = some .poison := by
  cases u with
  | int w₁ x =>
      cases v with
      | int w₂ y =>
          by_cases hw : w₁ = w ∧ w₂ = w
          · obtain ⟨rfl, rfl⟩ := hw
            simp only [BinOp.apply, and_self, dite_true] at hp ⊢
            exact h x y rfl rfl hp
          · simp only [BinOp.apply, dif_neg hw] at hp
            cases hp
      | _ => exact hp
  | _ => cases v <;> exact hp

theorem CastOp.apply_covered {op : CastOp} {w' : Nat} {v : Val}
    (h : ∀ w (x : BitVec w), v = .int w x → op.Covers f f' w' x)
    (hp : op.apply f' w' v = some .poison) : op.apply f w' v = some .poison := by
  cases v with
  | int w x => exact h w x rfl hp
  | _ => exact hp

theorem BinOp.applyWord_refined {op : BinOp} {x y : Option (BitVec w)}
    (h : ∀ a b, x = some a → y = some b → op.Covers f f' a b) :
    Option.Rel RefinedWord (op.applyWord f x y) (op.applyWord f' x y) := by
  refine (op.apply_flags w (.word x) (.word y)).word (BinOp.apply_covered fun a b ha hb => ?_)
  cases x <;> cases y <;> cases ha <;> cases hb
  exact h _ _ rfl rfl

theorem CastOp.applyWord_refined {op : CastOp} {w' : Nat} {x : Option (BitVec w)}
    (h : ∀ a, x = some a → op.Covers f f' w' a) :
    Option.Rel RefinedWord (op.applyWord f w' x) (op.applyWord f' w' x) := by
  refine (op.apply_flags w' (.word x)).word (CastOp.apply_covered fun w a ha => ?_)
  cases x <;> cases ha
  exact h _ rfl

/-- An operation on vectors is one on the pairs of lanes. -/
theorem BinOp.applyVec_eq {op : BinOp} {u v : Val} {xs ys : List (Option (BitVec w))}
    (hx : u.lanes n w = some xs) (hy : v.lanes n w = some ys) :
    op.applyVec n w f u v =
      ((xs.zip ys).mapM fun p => op.applyWord f p.1 p.2).map (.vec w) := by
  unfold BinOp.applyVec
  rw [hx, hy]

theorem length_lanes {u : Val} {xs : List (Option (BitVec w))} (h : u.lanes n w = some xs) :
    xs.length = n := by
  unfold Val.lanes at h
  split at h
  · split at h
    · next hw =>
        obtain ⟨rfl, hlen⟩ := hw
        cases h
        exact hlen
    · cases h
  · cases h
    exact List.length_replicate
  · cases h

theorem BinOp.applyVec_cases {op : BinOp} {u v z : Val} (h : op.applyVec n w f u v = some z) :
    ∃ xs ys zs, u.lanes n w = some xs ∧ v.lanes n w = some ys ∧
      ((xs.zip ys).mapM fun p => op.applyWord f p.1 p.2) = some zs ∧ zs.length = n ∧
      z = .vec w zs := by
  unfold BinOp.applyVec at h
  split at h
  · next xs ys hx hy =>
      obtain ⟨zs, hzs, rfl⟩ := Option.map_eq_some_iff.mp h
      refine ⟨xs, ys, zs, hx, hy, hzs, ?_, rfl⟩
      rw [Traverse.length_mapM hzs, List.length_zip, length_lanes hx, length_lanes hy, Nat.min_self]
  · cases h

theorem rel_vec {xs ys : Option (List (Option (BitVec w)))}
    (h : Option.Rel (List.Forall₂ RefinedWord) xs ys) :
    Option.Rel Val.RefinedBy (xs.map (.vec w)) (ys.map (.vec w)) := by
  cases h with
  | none => exact .none
  | some h => exact .some (.lanes h)

theorem BinOp.applyVec_refined {op : BinOp} {u v : Val}
    (h : ∀ xs ys, u.lanes n w = some xs → v.lanes n w = some ys → op.applyVec n w f u v ≠ none →
      ∀ x y, (some x, some y) ∈ xs.zip ys → op.Covers f f' x y) :
    Option.Rel Val.RefinedBy (op.applyVec n w f u v) (op.applyVec n w f' u v) := by
  cases hx : u.lanes n w with
  | none =>
      simp only [BinOp.applyVec, hx]
      exact .none
  | some xs =>
      cases hy : v.lanes n w with
      | none =>
          simp only [BinOp.applyVec, hx, hy]
          exact .none
      | some ys =>
          rw [applyVec_eq hx hy, applyVec_eq hx hy]
          by_cases hdef : op.applyVec n w f u v = none
          · -- undefined under the one, undefined under the other
            rw [applyVec_eq hx hy, Option.map_eq_none_iff] at hdef
            have hrel := Traverse.mapM_rel (l := xs.zip ys) fun p _ =>
              (op.apply_flags w (.word p.1) (.word p.2)).defined f f'
            have hdef' : ((xs.zip ys).mapM fun p => op.applyWord f' p.1 p.2) = none := by
              change Option.Rel _ ((xs.zip ys).mapM fun p => op.applyWord f p.1 p.2)
                ((xs.zip ys).mapM fun p => op.applyWord f' p.1 p.2) at hrel
              rw [hdef] at hrel
              generalize ((xs.zip ys).mapM fun p => op.applyWord f' p.1 p.2) = zs at hrel ⊢
              cases hrel
              rfl
            rw [hdef, hdef']
            exact .none
          · refine rel_vec (Traverse.mapM_rel fun p hp => op.applyWord_refined fun a b ha hb => ?_)
            exact h xs ys hx hy hdef a b (ha ▸ hb ▸ hp)

theorem CastOp.applyVec_refined {op : CastOp} {w' : Nat} {v : Val}
    (h : ∀ w (xs : List (Option (BitVec w))), v = .vec w xs → xs.length = n →
      ∀ x, some x ∈ xs → op.Covers f f' w' x) :
    Option.Rel Val.RefinedBy (op.applyVec n f w' v) (op.applyVec n f' w' v) := by
  cases v with
  | vec w xs =>
      by_cases hlen : xs.length = n
      · simp only [CastOp.applyVec, if_pos hlen]
        exact rel_vec (Traverse.mapM_rel fun x hx => op.applyWord_refined fun a ha =>
          h w xs rfl hlen a (ha ▸ hx))
      · simp only [CastOp.applyVec, if_neg hlen]
        exact .none
  | poison => exact .some (.refl _)
  | _ => exact .none

end Refined

/-! ## Effects under flags -/

/-- The two effects are the same up to the values, which are related by `A`. -/
def Effects {μ : Type} (A : Val → Val → Prop) (ty : Ty) (mem : μ) (e e' : Effect μ) : Prop :=
  e = e' ∨ ∃ v v', v.hasTy ty = true ∧ v'.hasTy ty = true ∧ A v v' ∧
    e = .done (some v) mem [] ∧ e' = .done (some v') mem []

section Effects

variable {μ : Type} {mem : μ} {w n : Nat} {ty : Ty} {f f' : Flags}

theorem effects_of_flagged {g : Flags → Option Val} (h : Flagged w g)
    (hc : g f' = some .poison → g f = some .poison) :
    Effects Val.RefinedBy (.int w) mem (computes mem (g f)) (computes mem (g f')) := by
  rcases h.covered hc with heq | ⟨z, hf, hf'⟩
  · exact .inl (congrArg (computes mem) heq)
  · refine .inr ⟨.poison, .int w z, rfl, beq_self_eq_true _, .poison _, ?_, ?_⟩
    · rw [hf]
      rfl
    · rw [hf']
      rfl

theorem effects_of_rel {a b : Option Val} (h : Option.Rel Val.RefinedBy a b)
    (ha : ∀ v, a = some v → v.hasTy ty = true) (hb : ∀ v, b = some v → v.hasTy ty = true) :
    Effects Val.RefinedBy ty mem (computes mem a) (computes mem b) := by
  cases h with
  | none => exact .inl rfl
  | some hrel => exact .inr ⟨_, _, ha _ rfl, hb _ rfl, hrel, rfl, rfl⟩

theorem BinOp.applyVec_hasTy {op : BinOp} {u v z : Val} (h : op.applyVec n w f u v = some z) :
    z.hasTy (.vec n (.int w)) = true := by
  obtain ⟨-, -, zs, -, -, -, rfl, rfl⟩ := applyVec_cases h
  exact beq_self_eq_true _

theorem CastOp.applyVec_hasTy {op : CastOp} {v z : Val} (h : op.applyVec n f w v = some z) :
    z.hasTy (.vec n (.int w)) = true := by
  unfold CastOp.applyVec at h
  split at h
  · split at h
    · next hlen =>
        obtain ⟨zs, hzs, rfl⟩ := Option.map_eq_some_iff.mp h
        have hlength : zs.length = n := (Traverse.length_mapM hzs).trans hlen
        exact beq_iff_eq.mpr (by rw [hlength])
    · cases h
  · cases h
    rfl
  · cases h

/-- Under flags that cover others there is the same effect, and a value that the
one under the others refines. -/
theorem World.apply_refined (W : World μ) {op : Op} {vals : List Val}
    (h : Covers f f' op ty vals) (mem : μ) :
    Effects Val.RefinedBy ty mem (W.apply op ty f vals mem) (W.apply op ty f' vals mem) := by
  unfold World.apply
  split
  · next b w x y =>
      refine effects_of_flagged (b.apply_flags w x y) (BinOp.apply_covered fun x y hx hy => ?_)
      exact h.binop b w x y rfl rfl (hx ▸ hy ▸ rfl)
  · next b n w u v =>
      exact effects_of_rel (BinOp.applyVec_refined fun xs ys => h.lanes b n w u v xs ys rfl rfl rfl)
        (fun _ => BinOp.applyVec_hasTy) fun _ => BinOp.applyVec_hasTy
  · exact .inl rfl
  · next c w v =>
      by_cases hc : c.isInteger = true
      · simp only [if_pos hc]
        refine effects_of_flagged (c.apply_flags w v) (CastOp.apply_covered fun w' x hx => ?_)
        exact h.cast c w' w x rfl rfl (hx ▸ rfl)
      · simp only [if_neg hc]
        exact .inl rfl
  · next c n w v =>
      by_cases hc : c.isInteger = true
      · simp only [if_pos hc]
        refine effects_of_rel (CastOp.applyVec_refined fun w' xs hxs hlen => ?_)
          (fun _ => CastOp.applyVec_hasTy) fun _ => CastOp.applyVec_hasTy
        exact h.castLanes c n w' w xs rfl rfl (hxs ▸ rfl) hlen
      · simp only [if_neg hc]
        exact .inl rfl
  all_goals exact .inl rfl

/-! ### Nothing less than covering -/

theorem toWord_eq_none {v : Val} : Val.toWord w v = some none ↔ v = .poison := by
  cases v with
  | int w' x =>
      by_cases h : w' = w
      · simp [Val.toWord, h]
      · simp [Val.toWord, h]
  | poison => exact ⟨fun _ => rfl, fun _ => rfl⟩
  | _ => exact ⟨nofun, nofun⟩

theorem BinOp.apply_words_eq (op : BinOp) (f : Flags) (x y : BitVec w) :
    op.apply w f (.int w x) (.int w y) = op.applyInt f x y := by
  simp only [BinOp.apply, and_self, dite_true]

theorem BinOp.applyWord_poison {op : BinOp} {x y : BitVec w} :
    op.applyWord f (some x) (some y) = some none ↔ op.applyInt f x y = some .poison := by
  have heq : op.applyWord f (some x) (some y) = (op.applyInt f x y).bind (Val.toWord w) :=
    congrArg (Option.bind · (Val.toWord w)) (op.apply_words_eq f x y)
  rw [heq, Option.bind_eq_some_iff]
  constructor
  · rintro ⟨v, hv, hp⟩
    rw [hv, toWord_eq_none.mp hp]
  · exact fun h => ⟨.poison, h, rfl⟩

theorem CastOp.applyWord_poison {op : CastOp} {w' : Nat} {x : BitVec w} :
    op.applyWord f w' (some x) = some none ↔ op.applyInt f w' x = some .poison := by
  show (op.applyInt f w' x).bind (Val.toWord w') = some none ↔ _
  rw [Option.bind_eq_some_iff]
  constructor
  · rintro ⟨v, hv, hp⟩
    rw [hv, toWord_eq_none.mp hp]
  · exact fun h => ⟨.poison, h, rfl⟩

/-- There is always a result of cutting a word off. -/
theorem trunc_word (f : Flags) (w' : Nat) (x : Option (BitVec w)) :
    ∃ z, CastOp.trunc.applyWord f w' x = some z := by
  cases x with
  | none => exact ⟨none, rfl⟩
  | some x =>
      show ∃ z, (poisonIf _ (.int w' _)).bind _ = some z
      generalize (f.nuw && _ || f.nsw && _) = c
      rcases poisonIf_cases c (x.setWidth w') with h | h
      · exact ⟨none, by rw [h]; rfl⟩
      · exact ⟨some _, by rw [h]; exact toWord_int _⟩

/-- A result that is poison under the second flags only is not refined. -/
theorem Flagged.covers {g : Flags → Option Val} (h : Flagged w g)
    (hrefined : ∀ v, g f = some v → ∃ v', g f' = some v' ∧ v.RefinedBy v')
    (hp : g f' = some .poison) : g f = some .poison := by
  have hdefined : g f ≠ none := by
    intro hnone
    cases h with
    | same o h => rw [h f', ← h f, hnone] at hp; cases hp
    | poison z h =>
        rcases h f with hf | hf <;> rw [hnone] at hf <;> cases hf
  obtain ⟨v, hv⟩ := Option.ne_none_iff_exists'.mp hdefined
  obtain ⟨v', hv', hrel⟩ := hrefined v hv
  rw [hp] at hv'
  cases hv'
  rw [hv, hrel.eq_poison]

theorem forall₂_refinedWord {xs ys : List (Option (BitVec w))}
    (h : (Val.vec w xs).RefinedBy (.vec w ys)) : List.Forall₂ RefinedWord xs ys := by
  cases h with
  | refl => exact List.forall₂_same.mpr fun _ _ => .inr rfl
  | lanes h => exact h

/-- Of results on vectors the lanes are refined. -/
theorem word_refined {α : Type} {l : List α} {g g' : α → Option (Option (BitVec w))} {z z' : Val}
    (h : (l.mapM g).map (Val.vec w) = some z) (h' : (l.mapM g').map (Val.vec w) = some z')
    (hrel : z.RefinedBy z') {a : α} (ha : a ∈ l) (hp : g' a = some none) : g a = some none := by
  obtain ⟨xs, hxs, rfl⟩ := Option.map_eq_some_iff.mp h
  obtain ⟨ys, hys, rfl⟩ := Option.map_eq_some_iff.mp h'
  obtain ⟨x, y, hx, hy, hxy⟩ := Traverse.rel_of_mapM hxs hys (forall₂_refinedWord hrel) ha
  rw [hp] at hy
  cases hy
  rcases hxy with rfl | rfl
  · exact hx
  · exact hx

/-- The first flags cover the second if the result under them is refined by the
one under the second. -/
theorem World.covers_of_refined (W : World μ) {op : Op} {vals : List Val} (mem : μ)
    (h : ∀ v, W.apply op ty f vals mem = .done (some v) mem [] →
      ∃ v', W.apply op ty f' vals mem = .done (some v') mem [] ∧ v.RefinedBy v') :
    Covers f f' op ty vals := by
  have hcomputes : ∀ o o' : Option Val, W.apply op ty f vals mem = computes mem o →
      W.apply op ty f' vals mem = computes mem o' →
      ∀ v, o = some v → ∃ v', o' = some v' ∧ v.RefinedBy v' := by
    intro o o' ho ho' v hv
    rw [hv] at ho
    obtain ⟨v', hv', hrel⟩ := h v ho
    rw [ho'] at hv'
    cases o' with
    | none => cases hv'
    | some v₁ =>
        cases hv'
        exact ⟨_, rfl, hrel⟩
  constructor
  · rintro b w x y rfl rfl rfl
    have hrefined := hcomputes (b.apply w f _ _) (b.apply w f' _ _) rfl rfl
    have hp := (b.apply_flags w (.int w x) (.int w y)).covers hrefined
    rwa [b.apply_words_eq, b.apply_words_eq] at hp
  · rintro b n w u v xs ys rfl rfl rfl hxs hys hdef x y hmem hp
    obtain ⟨z, hz⟩ := Option.ne_none_iff_exists'.mp hdef
    obtain ⟨z', hz', hrel⟩ :=
      hcomputes (b.applyVec n w f u v) (b.applyVec n w f' u v) rfl rfl z hz
    rw [b.applyVec_eq hxs hys] at hz hz'
    exact BinOp.applyWord_poison.mp (word_refined hz hz' hrel hmem (BinOp.applyWord_poison.mpr hp))
  · rintro c w w' x rfl rfl rfl hp
    cases c with
    | trunc =>
        exact (CastOp.trunc.apply_flags w' (.int w x)).covers
          (hcomputes (CastOp.trunc.apply f w' _) (CastOp.trunc.apply f' w' _) rfl rfl) hp
    | _ => cases hp
  · rintro c n w w' xs rfl rfl rfl hlen x hmem hp
    cases c with
    | trunc =>
        have heq : ∀ f, CastOp.trunc.applyVec n f w' (.vec w xs) =
            (xs.mapM (CastOp.trunc.applyWord f w')).map (.vec w') := fun f => if_pos hlen
        obtain ⟨zs, hzs⟩ := Traverse.exists_mapM fun x (_ : x ∈ xs) => trunc_word f w' x
        have hz := congrArg (Option.map (Val.vec w')) hzs
        obtain ⟨z', hz', hrel⟩ := hcomputes (CastOp.trunc.applyVec n f w' (.vec w xs))
          (CastOp.trunc.applyVec n f' w' (.vec w xs)) rfl rfl (.vec w' zs) ((heq f).trans hz)
        rw [heq] at hz'
        exact CastOp.applyWord_poison.mp (word_refined hz hz' hrel hmem
          (CastOp.applyWord_poison.mpr hp))
    | _ => cases hp

/-! ### Fewer flags -/

theorem poisonIf_covered {c c' : Bool} {z : BitVec w} (hc : c' = true → c = true)
    (h : poisonIf c' (.int w z) = some .poison) : poisonIf c (.int w z) = some .poison := by
  cases c' with
  | true =>
      rw [hc rfl]
      rfl
  | false => cases h

theorem BinOp.covers_of_le {op : BinOp} (hnuw : f'.nuw = true → f.nuw = true)
    (hnsw : f'.nsw = true → f.nsw = true) (hexact : f'.exact = true → f.exact = true)
    (x y : BitVec w) : op.Covers f f' x y := by
  intro h
  cases op with
  | add | sub | mul => exact poisonIf_covered (by grind) h
  | shl | lshr | ashr => exact poisonIf_covered (by grind) h
  | and | or | xor => cases h
  | udiv =>
      simp only [BinOp.applyInt] at h ⊢
      by_cases hy : y = 0
      · rw [if_pos hy] at h
        cases h
      · rw [if_neg hy] at h ⊢
        exact poisonIf_covered (by grind) h
  | sdiv =>
      simp only [BinOp.applyInt] at h ⊢
      by_cases hy : y = 0 ∨ x.sdivOverflow y
      · rw [if_pos hy] at h
        cases h
      · rw [if_neg hy] at h ⊢
        exact poisonIf_covered (by grind) h
  | urem =>
      simp only [BinOp.applyInt] at h
      split at h <;> cases h
  | srem =>
      simp only [BinOp.applyInt] at h
      split at h <;> cases h

theorem CastOp.covers_of_le {op : CastOp} {w' : Nat} (hnuw : f'.nuw = true → f.nuw = true)
    (hnsw : f'.nsw = true → f.nsw = true) (x : BitVec w) : op.Covers f f' w' x := by
  intro h
  cases op with
  | trunc => exact poisonIf_covered (by grind) h
  | _ => cases h

/-- It is enough that the second flags are among the first. -/
theorem covers_of_le (hnuw : f'.nuw = true → f.nuw = true) (hnsw : f'.nsw = true → f.nsw = true)
    (hexact : f'.exact = true → f.exact = true) (op : Op) (vals : List Val) :
    Covers f f' op ty vals where
  binop _ _ x y _ _ _ := BinOp.covers_of_le hnuw hnsw hexact x y
  lanes _ _ _ _ _ _ _ _ _ _ _ _ _ x y _ := BinOp.covers_of_le hnuw hnsw hexact x y
  cast _ _ _ x _ _ _ := CastOp.covers_of_le hnuw hnsw x
  castLanes _ _ _ _ _ _ _ _ _ x _ := CastOp.covers_of_le hnuw hnsw x

/-- Both values may go by one that stands for both. -/
def Agree (v v' : Val) : Prop := ∃ z, v.RefinedBy z ∧ v'.RefinedBy z

theorem Agree.refl (v : Val) : Agree v v := ⟨v, .refl v, .refl v⟩

/-- Under any flags the values agree: no flags at all are covered by all. -/
theorem World.apply_agree (W : World μ) (op : Op) (ty : Ty) (f f' : Flags) (vals : List Val)
    (mem : μ) : Effects Agree ty mem (W.apply op ty f vals mem) (W.apply op ty f' vals mem) := by
  have hnone : ∀ f, Covers f {} op ty vals := fun f =>
    covers_of_le (by simp) (by simp) (by simp) op vals
  rcases W.apply_refined (hnone f) mem with h | ⟨v, z, hv, hz, hvz, h, h₀⟩ <;>
    rcases W.apply_refined (hnone f') mem with h' | ⟨v', z', hv', hz', hvz', h', h₀'⟩
  · exact .inl (h.trans h'.symm)
  · exact .inr ⟨z', v', hz', hv', ⟨z', .refl z', hvz'⟩, h.trans h₀', h'⟩
  · exact .inr ⟨v, z, hv, hz, ⟨z, hvz, .refl z⟩, h, h'.trans h₀⟩
  · rw [h₀] at h₀'
    cases h₀'
    exact .inr ⟨v, v', hv, hv', ⟨z, hvz, hvz'⟩, h, h'⟩

end Effects

end LlvmPasses.Ir
