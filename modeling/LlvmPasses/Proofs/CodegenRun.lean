import LlvmPasses.Proofs.CodegenNamed
import LlvmPasses.Kaleido.Eval
import Mathlib.Data.List.Forall2

/-!
# Running what a builder emitted

A program extends a builder when every block starts with what the builder has
put there so far; the machine is at the builder's insertion point when what is
left of its block is what comes after. On a program that extends the builder
after an operation, the machine at the insertion point before it runs to the
insertion point after it. Which registers and cells that leaves alone is a
`Frame`.

The machine's cells hold a reference store under a scope: the list of the
names in scope, each with its cell, the innermost first.

The lemmas come in the order in which a proof about a construct uses them:
positions first, then one lemma for each operation that emits an instruction
(`run_load`, `run_store`, `run_condBr` and so on), and then what becomes of the
store. Each operation lemma has the same form. From a machine at the insertion
point before the operation there is a run to one at the insertion point after
it, with the result in its register and only that register changed.

Reading and writing a variable have to agree with the store of the evaluation,
in which a name may be bound several times. `Holds` says that the cells in
scope hold the values of the locals in the same order and that the cells
outside hold the outer variables; `Scoped` keeps the cells apart, so that
writing one changes one entry.
-/

namespace LlvmPasses.Kaleido

open StateError Transition

/-! ## Positions -/

structure Extends (b : Builder) (G : Program) : Prop where
  code : ∀ k, b.body.code k <+: G.code k
  names : ∀ f ∈ b.module.functions, G.nameOf f.id = some f.name

structure At (G : Program) (b : Builder) (m : Machine) : Prop where
  block : m.block = b.insert
  rest : G.code b.insert = b.body.code b.insert ++ m.rest

/-- Registers below `n`, and the arguments, are the same. -/
structure Frame (n : Nat) (m m' : Machine) : Prop where
  env : ∀ r, r < n → m'.env r = m.env r
  args : m'.args = m.args

/-- Nothing but registers from `n` on has changed. -/
structure Quiet (n : Nat) (m m' : Machine) : Prop extends Frame n m m' where
  cells : m'.cells = m.cells
  calls : m'.calls = m.calls

section Positions

variable {G : Program} {b b' : Builder} {m m' m'' : Machine} {n k : Nat} {v : Value} {i : Instr}

theorem Extends.of_grows (h : Grows b b') (he : Extends b' G) : Extends b G :=
  ⟨fun k => (h.code k).trans (he.code k), fun f hf => he.names f (h.functions.subset hf)⟩

theorem nameOf_of_mem {M : Module} {f : Function} (hf : f ∈ M.functions) :
    M.nameOf f.id = some f.name := by
  have hnd := M.ids_nodup
  unfold Module.nameOf
  generalize M.functions = fs at hf hnd
  induction fs with
  | nil => cases hf
  | cons g gs ih =>
      obtain ⟨hg, hnd⟩ := List.nodup_cons.mp hnd
      rcases List.mem_cons.mp hf with rfl | hf
      · simp
      · have hne : g.id ≠ f.id := fun heq => hg (heq ▸ List.mem_map_of_mem hf)
        simpa [hne] using ih hf hnd

theorem extends_program (b : Builder) : Extends b b.program :=
  ⟨fun _ => List.prefix_rfl, fun _ => nameOf_of_mem⟩

theorem Frame.refl (n : Nat) (m : Machine) : Frame n m m := ⟨fun _ _ => rfl, rfl⟩

theorem Frame.trans (h₁ : Frame n m m') (h₂ : Frame k m' m'') (hle : n ≤ k) : Frame n m m'' :=
  ⟨fun r hr => (h₂.env r (Nat.lt_of_lt_of_le hr hle)).trans (h₁.env r hr),
    h₂.args.trans h₁.args⟩

theorem Value.Below.value_eq (hv : v.Below n) (h : Frame n m m') : m'.value v = m.value v := by
  cases v with
  | const | bool => rfl
  | arg i => simp only [Machine.value, h.args]
  | inst r => exact h.env r hv

theorem double_eq {d : Double} (h : m.value v = some (.dbl d)) : m.double v = some d := by
  simp [Machine.double, h, RtVal.double?]

theorem bit_eq {x : Bool} (h : m.value v = some (.bit x)) : m.bit v = some x := by
  simp [Machine.bit, h, RtVal.bit?]

/-- What is next at the insertion point is what is emitted there next. -/
theorem At.next (h : At G b m) (he : Extends (b.append b.insert i) G) :
    ∃ rest, m.rest = i :: rest ∧ At G (b.append b.insert i) { m with rest } := by
  obtain ⟨tail, ht⟩ := he.code b.insert
  simp only [Builder.append, if_true, List.append_assoc] at ht
  have hrest : m.rest = i :: tail := by
    have heq := ht.trans h.rest
    exact (List.append_cancel_left heq).symm
  refine ⟨tail, hrest, h.block, ?_⟩
  simp only [Builder.append, if_true, List.append_assoc]
  exact ht.symm

theorem step_of_exec {W : World} {rest : List Instr} (hrest : m.rest = i :: rest)
    (hwait : m.waits W G i = false) (hexec : Machine.exec W G { m with rest } i = some m') :
    Machine.step W G m = some m' := by
  unfold Machine.step
  rw [hrest]
  simp only [hwait, Bool.false_eq_true, if_false]
  exact hexec

end Positions

/-! ## Branches -/

/-- The machine has just entered `dest` from the insertion point of `b`. -/
structure Entered (G : Program) (b : Builder) (dest : Nat) (m m' : Machine) : Prop where
  block : m'.block = dest
  prev : m'.prev = b.insert
  rest : m'.rest = G.code dest
  env : m'.env = m.env
  args : m'.args = m.args
  cells : m'.cells = m.cells
  calls : m'.calls = m.calls

section Branches

variable {W : World} {G : Program} {b b' : Builder} {m m' : Machine} {dest n : Nat}

theorem Entered.at_ (h : Entered G b dest m m') (hd : b'.insert = dest)
    (hempty : b'.body.code dest = []) : At G b' m' := by
  subst hd
  exact ⟨h.block, by rw [hempty, h.rest]; rfl⟩

theorem Entered.quiet (h : Entered G b dest m m') (n : Nat) : Quiet n m m' where
  env := fun r _ => congrFun h.env r
  args := h.args
  cells := h.cells
  calls := h.calls

theorem run_br (hext : Extends (b.append b.insert (.br dest)) G) (hat : At G b m) :
    ∃ m', Machine.step W G m = some m' ∧ Entered G b dest m m' := by
  obtain ⟨rest, hrest, hat'⟩ := hat.next hext
  exact ⟨_, step_of_exec hrest rfl rfl, rfl, hat'.block, rfl, rfl, rfl, rfl, rfl⟩

theorem run_condBr {cond : Value} {t : Bool} {thenBB elseBB : Nat}
    (hext : Extends (b.append b.insert (.condBr cond thenBB elseBB)) G) (hat : At G b m)
    (hc : m.value cond = some (.bit t)) :
    ∃ m', Machine.step W G m = some m' ∧
      Entered G b (if t then thenBB else elseBB) m m' := by
  obtain ⟨rest, hrest, hat'⟩ := hat.next hext
  have hc' : Machine.bit { m with rest } cond = some t := bit_eq (by cases cond <;> exact hc)
  have hexec : Machine.exec W G { m with rest } (.condBr cond thenBB elseBB) =
      some (Machine.goto { m with rest } G.code (if t then thenBB else elseBB)) := by
    simp only [Machine.exec, hc', Option.bind_eq_bind, Option.bind_some]
  exact ⟨_, step_of_exec hrest rfl hexec, rfl, hat'.block, rfl, rfl, rfl, rfl, rfl⟩

end Branches

/-! ## Operations -/

section Operations

variable {W : World} {G : Program} {b b' : Builder} {m : Machine} {v x y : Value}
variable {a c : Double}

/-- An instruction that has a result and no other effect. -/
theorem run_emitted {i : Instr} {val : RtVal}
    (hext : Extends { b.append b.insert i with nextInst := b.nextInst + 1 } G)
    (hat : At G b m) (hwait : m.waits W G i = false)
    (hexec : ∀ rest, Machine.exec W G { m with rest } i =
      some (({ m with rest } : Machine).assign b.nextInst val)) :
    ∃ m', Reaches (Machine.step W G) m m' ∧
      At G { b.append b.insert i with nextInst := b.nextInst + 1 } m' ∧
      m'.value (.inst b.nextInst) = some val ∧ Quiet b.nextInst m m' := by
  obtain ⟨rest, hrest, hat'⟩ := hat.next (i := i) { hext with }
  refine ⟨_, .single (step_of_exec hrest hwait (hexec rest)), { hat' with }, ?_, ⟨?_, ?_⟩,
    rfl, rfl⟩
  · simp [Machine.assign, Machine.value]
  · exact fun r hr => if_neg (Nat.ne_of_lt hr)
  · rfl

theorem Quiet.refl (n : Nat) (m : Machine) : Quiet n m m := { Frame.refl n m with
  cells := rfl
  calls := rfl }

theorem run_fbin {op : FBinOp} (h : createFBin W.arith op x y b = .ok v b')
    (hext : Extends b' G) (hat : At G b m) (hx : m.value x = some (.dbl a))
    (hy : m.value y = some (.dbl c)) :
    ∃ m', Reaches (Machine.step W G) m m' ∧ At G b' m' ∧
      m'.value v = some (.dbl (op.apply W.arith a c)) ∧ Quiet b.nextInst m m' := by
  unfold createFBin at h
  split at h
  · obtain ⟨rfl, rfl⟩ := pure_eq_ok h
    cases hx
    cases hy
    exact ⟨m, .refl m, hat, rfl, .refl _ m⟩
  · cases h
    refine run_emitted hext hat rfl fun rest => ?_
    have hx' : Machine.double { m with rest } x = some a := double_eq (by cases x <;> exact hx)
    have hy' : Machine.double { m with rest } y = some c := double_eq (by cases y <;> exact hy)
    simp only [Machine.exec, hx', hy', Option.bind_eq_bind, Option.bind_some]

theorem run_fcmp {pred : FCmpPred} (h : createFCmp pred x y b = .ok v b')
    (hext : Extends b' G) (hat : At G b m) (hx : m.value x = some (.dbl a))
    (hy : m.value y = some (.dbl c)) :
    ∃ m', Reaches (Machine.step W G) m m' ∧ At G b' m' ∧
      m'.value v = some (.bit (pred.apply a c)) ∧ Quiet b.nextInst m m' := by
  unfold createFCmp at h
  split at h
  · obtain ⟨rfl, rfl⟩ := pure_eq_ok h
    cases hx
    cases hy
    exact ⟨m, .refl m, hat, rfl, .refl _ m⟩
  · cases h
    refine run_emitted hext hat rfl fun rest => ?_
    have hx' : Machine.double { m with rest } x = some a := double_eq (by cases x <;> exact hx)
    have hy' : Machine.double { m with rest } y = some c := double_eq (by cases y <;> exact hy)
    simp only [Machine.exec, hx', hy', Option.bind_eq_bind, Option.bind_some]

theorem run_uitofp {t : Bool} (h : createUIToFP x b = .ok v b') (hext : Extends b' G)
    (hat : At G b m) (hx : m.value x = some (.bit t)) :
    ∃ m', Reaches (Machine.step W G) m m' ∧ At G b' m' ∧
      m'.value v = some (.dbl (boolToDouble t)) ∧ Quiet b.nextInst m m' := by
  unfold createUIToFP at h
  split at h
  · obtain ⟨rfl, rfl⟩ := pure_eq_ok h
    cases hx
    exact ⟨m, .refl m, hat, rfl, .refl _ m⟩
  · cases h
    refine run_emitted hext hat rfl fun rest => ?_
    have hx' : Machine.bit { m with rest } x = some t := bit_eq (by cases x <;> exact hx)
    simp only [Machine.exec, hx', Option.bind_eq_bind, Option.bind_some]

theorem run_load {cell : Nat} (h : createLoad cell b = .ok v b') (hext : Extends b' G)
    (hat : At G b m) (hc : m.cells cell = some a) :
    ∃ m', Reaches (Machine.step W G) m m' ∧ At G b' m' ∧ m'.value v = some (.dbl a) ∧
      Quiet b.nextInst m m' := by
  cases h
  refine run_emitted hext hat rfl fun rest => ?_
  simp only [Machine.exec, hc, Option.bind_eq_bind, Option.bind_some]

theorem run_store {cell : Nat} (hext : Extends (b.append b.insert (.store x cell)) G)
    (hat : At G b m) (hx : m.value x = some (.dbl a)) :
    ∃ m', Reaches (Machine.step W G) m m' ∧ At G (b.append b.insert (.store x cell)) m' ∧
      Frame b.nextInst m m' ∧ m'.cells = (m.setCell cell (some a)).cells ∧
      m'.calls = m.calls := by
  obtain ⟨rest, hrest, hat'⟩ := hat.next hext
  have hx' : Machine.double { m with rest } x = some a := double_eq (by cases x <;> exact hx)
  have hexec : Machine.exec W G { m with rest } (.store x cell) =
      some (Machine.setCell { m with rest } cell (some a)) := by
    simp only [Machine.exec, hx', Option.bind_eq_bind, Option.bind_some]
  exact ⟨_, .single (step_of_exec hrest rfl hexec), ⟨hat'.block, hat'.rest⟩,
    ⟨fun _ _ => rfl, rfl⟩, rfl, rfl⟩

/-- A `phi` takes the value that belongs to the block the machine came from. -/
theorem run_phi {incoming : List (Value × Nat)} {k : Nat}
    (h : createPhi incoming b = .ok v b') (hext : Extends b' G) (hat : At G b m)
    (hfind : incoming.find? (fun p => p.2 = m.prev) = some (x, k))
    (hx : m.value x = some (.dbl a)) :
    ∃ m', Reaches (Machine.step W G) m m' ∧ At G b' m' ∧ m'.value v = some (.dbl a) ∧
      Quiet b.nextInst m m' := by
  cases h
  refine run_emitted hext hat rfl fun rest => ?_
  have hx' : Machine.double { m with rest } x = some a := double_eq (by cases x <;> exact hx)
  simp only [Machine.exec, hfind, hx', Option.bind_eq_bind, Option.bind_some]

theorem Quiet.trans {m' m'' : Machine} {n : Nat} (h₁ : Quiet n m m') (h₂ : Quiet n m' m'') :
    Quiet n m m'' := { h₁.toFrame.trans h₂.toFrame (Nat.le_refl n) with
  cells := h₂.cells.trans h₁.cells
  calls := h₂.calls.trans h₁.calls }

/-- The end of an arm: its branch to the block `bm` inserts in, and the `phi`
there. -/
theorem run_arm {bm : Builder} {incoming : List (Value × Nat)} {k : Nat}
    (hext₀ : Extends (b.append b.insert (.br bm.insert)) G)
    (hempty : bm.body.code bm.insert = []) (h : createPhi incoming bm = .ok v b')
    (hext : Extends b' G) (hfind : incoming.find? (fun p => p.2 = b.insert) = some (x, k))
    (hat : At G b m) (hx : m.value x = some (.dbl a)) :
    ∃ m', Reaches (Machine.step W G) m m' ∧ At G b' m' ∧ m'.value v = some (.dbl a) ∧
      Quiet bm.nextInst m m' := by
  obtain ⟨m₁, hm₁, hent⟩ := run_br (W := W) hext₀ hat
  have hx₁ : m₁.value x = some (.dbl a) := by
    rw [← hx]
    cases x with
    | const | bool => rfl
    | arg i => simp only [Machine.value, hent.args]
    | inst r => exact congrFun hent.env r
  obtain ⟨m₂, hm₂, hat₂, hv₂, hq₂⟩ := run_phi (W := W) h hext (hent.at_ rfl hempty)
    (hent.prev ▸ hfind) hx₁
  exact ⟨m₂, (Reaches.single hm₁).trans hm₂, hat₂, hv₂, (hent.quiet _).trans hq₂⟩

theorem doubles_eq {vs : List Value} {ds : List Double}
    (h : List.Forall₂ (fun v d => m.value v = some (.dbl d)) vs ds) :
    m.doubles vs = some ds := by
  induction h with
  | nil => rfl
  | cons hd _ ih => simp [Machine.doubles, double_eq hd, ih]

end Operations

/-! ## Scopes -/

/-- What the names of a scope are bound to while code is generated: the
scope's cells, which are all different and none of them an outer variable's,
and the outer variables where the scope does not say. -/
structure Scoped (outer : String → Option Nat) (scope : List (String × Nat))
    (named : String → Option Nat) (n : Nat) : Prop where
  nodup : (scope.map Prod.snd).Nodup
  below : ∀ s ∈ scope, s.2 < n
  outer_below : ∀ x c, outer x = some c → c < n
  apart : ∀ s ∈ scope, ∀ x, outer x ≠ some s.2
  named_eq : ∀ x, named x = (scope.lookup x).or (outer x)

/-- A local and the cell its name has. -/
def CellOf (m : Machine) (l : String × Double) (s : String × Nat) : Prop :=
  l.1 = s.1 ∧ m.cells s.2 = some l.2

/-- The machine's cells hold the store. -/
structure Holds (outer : String → Option Nat) (scope : List (String × Nat)) (m : Machine)
    (st : Store) : Prop where
  locals : List.Forall₂ (CellOf m) st.locals scope
  cells : ∀ x c, outer x = some c → m.cells c = some (st.cells c)
  calls : m.calls = st.calls

section Scopes

variable {outer : String → Option Nat} {scope : List (String × Nat)}
variable {named : String → Option Nat} {n k c : Nat} {m m' : Machine} {st : Store} {x : String}

theorem Scoped.mono (h : Scoped outer scope named n) (hle : n ≤ k) :
    Scoped outer scope named k :=
  { h with
    below := fun s hs => Nat.lt_of_lt_of_le (h.below s hs) hle
    outer_below := fun x c hc => Nat.lt_of_lt_of_le (h.outer_below x c hc) hle }

/-- A new variable, in a cell of its own. -/
theorem Scoped.push (h : Scoped outer scope named n) (x : String) :
    Scoped outer ((x, n) :: scope) (fun y => if y = x then some n else named y) (n + 1) where
  nodup := by
    refine List.nodup_cons.mpr ⟨fun hmem => ?_, h.nodup⟩
    obtain ⟨s, hs, heq⟩ := List.mem_map.mp hmem
    have := h.below s hs
    omega
  below := fun s hs => by
    rcases List.mem_cons.mp hs with rfl | hs
    · exact Nat.lt_succ_self n
    · exact Nat.lt_succ_of_lt (h.below s hs)
  outer_below := fun y c hc => Nat.lt_succ_of_lt (h.outer_below y c hc)
  apart := fun s hs y hy => by
    rcases List.mem_cons.mp hs with rfl | hs
    · exact absurd (h.outer_below y n hy) (Nat.lt_irrefl n)
    · exact h.apart s hs y hy
  named_eq := fun y => by
    by_cases heq : y = x
    · simp [heq]
    · have hbeq : (y == x) = false := by simpa using heq
      simp [List.lookup_cons, heq, hbeq, h.named_eq y]

theorem Holds.of_quiet (h : Holds outer scope m st) (hcells : m'.cells = m.cells)
    (hcalls : m'.calls = m.calls) : Holds outer scope m' st :=
  { locals := h.locals.imp fun _ _ hls => ⟨hls.1, hcells ▸ hls.2⟩
    cells := hcells ▸ h.cells
    calls := hcalls.trans h.calls }

/-- A name is a local of the store exactly when the scope has a cell for it,
which then holds its value. -/
theorem Holds.lookup (h : Holds outer scope m st) (x : String) :
    (st.locals.lookup x = none ∧ scope.lookup x = none) ∨
    ∃ v c, st.locals.lookup x = some v ∧ scope.lookup x = some c ∧ m.cells c = some v := by
  obtain ⟨hl, _, _⟩ := h
  generalize st.locals = ls at hl
  induction hl with
  | nil => exact .inl ⟨rfl, rfl⟩
  | @cons l s ls ss hls _ ih =>
      obtain ⟨y, v⟩ := l
      obtain ⟨z, c⟩ := s
      obtain ⟨rfl, hc⟩ := hls
      by_cases heq : x = y
      · subst heq
        exact .inr ⟨v, c, by simp, by simp, hc⟩
      · have hbeq : (x == y) = false := by simpa using heq
        simpa [List.lookup_cons, hbeq] using ih

/-- A bound variable reads as what its cell holds. -/
theorem Holds.read (hs : Scoped outer scope named n) (h : Holds outer scope m st)
    (hn : named x = some c) : ∃ v, readVar outer x st = .ok v st ∧ m.cells c = some v := by
  rw [hs.named_eq x] at hn
  rcases h.lookup x with ⟨hl, hsc⟩ | ⟨v, c', hl, hsc, hc⟩
  · rw [hsc] at hn
    exact ⟨st.cells c, by simp [readVar, hl, show outer x = some c from hn], h.cells x c hn⟩
  · rw [hsc] at hn
    cases hn
    exact ⟨v, by simp [readVar, hl], hc⟩

theorem cells_setCell_ne {c' : Nat} {o : Option Double} (h : c' ≠ c) :
    (m.setCell c o).cells c' = m.cells c' := if_neg h

theorem cells_setCell_self {o : Option Double} : (m.setCell c o).cells c = o := if_pos rfl

/-- A cell that is not in the scope can be written. -/
theorem forall₂_setCell {ls : List (String × Double)} {ss : List (String × Nat)}
    {o : Option Double} (h : List.Forall₂ (CellOf m) ls ss) (hc : c ∉ ss.map Prod.snd) :
    List.Forall₂ (CellOf (m.setCell c o)) ls ss := by
  induction h with
  | nil => exact .nil
  | @cons l s ls ss hls _ ih =>
      obtain ⟨hne, hc⟩ := not_or.mp fun hor => hc (List.mem_cons.mpr hor)
      exact .cons ⟨hls.1, (cells_setCell_ne (Ne.symm hne)).trans hls.2⟩ (ih hc)

theorem mem_snd_of_lookup {ss : List (String × Nat)} (h : ss.lookup x = some c) :
    c ∈ ss.map Prod.snd := by
  obtain ⟨l, r, rfl, _⟩ := List.lookup_eq_some_iff.mp h
  simp

/-- Writing a name's cell updates its innermost local. -/
theorem forall₂_assoc {ls : List (String × Double)} {ss : List (String × Nat)} {v : Double}
    (h : List.Forall₂ (CellOf m) ls ss) (hnd : (ss.map Prod.snd).Nodup)
    (hc : ss.lookup x = some c) :
    List.Forall₂ (CellOf (m.setCell c (some v))) (assoc x v ls) ss := by
  induction h with
  | nil => cases hc
  | @cons l s ls ss hls hrest ih =>
      obtain ⟨y, w⟩ := l
      obtain ⟨z, c'⟩ := s
      obtain ⟨rfl, hw⟩ := hls
      obtain ⟨hc', hnd⟩ := List.nodup_cons.mp hnd
      by_cases heq : y = x
      · subst heq
        obtain rfl : c' = c := by simpa using hc
        simp only [assoc, if_true]
        exact .cons ⟨rfl, cells_setCell_self⟩ (forall₂_setCell hrest hc')
      · have hbeq : (x == y) = false := by simpa using fun h => heq h.symm
        have hc : ss.lookup x = some c := by simpa [List.lookup_cons, hbeq] using hc
        have hne : c' ≠ c := fun h => hc' (h ▸ mem_snd_of_lookup hc)
        simp only [assoc, heq, if_false]
        exact .cons ⟨rfl, (cells_setCell_ne hne).trans hw⟩ (ih hnd hc)

/-- Writing a bound variable's cell writes the variable. -/
theorem Holds.write (hs : Scoped outer scope named n) (h : Holds outer scope m st)
    (hn : named x = some c) (v : Double) :
    ∃ st', writeVar outer x v st = .ok () st' ∧
      Holds outer scope (m.setCell c (some v)) st' := by
  rw [hs.named_eq x] at hn
  rcases h.lookup x with ⟨hl, hsc⟩ | ⟨w, c', hl, hsc, hc⟩
  · rw [hsc] at hn
    have hn : outer x = some c := hn
    have hout : c ∉ scope.map Prod.snd := fun hmem => by
      obtain ⟨s, hsm, heq⟩ := List.mem_map.mp hmem
      exact hs.apart s hsm x (heq ▸ hn)
    refine ⟨{ st with cells := fun k => if k = c then v else st.cells k },
      by simp [writeVar, hl, hn], forall₂_setCell h.locals hout, fun y k hk => ?_, h.calls⟩
    by_cases heq : k = c
    · subst heq
      simpa using cells_setCell_self
    · rw [cells_setCell_ne heq, h.cells y k hk]
      simp [heq]
  · rw [hsc] at hn
    obtain rfl : c' = c := Option.some.inj hn
    refine ⟨{ st with locals := assoc x v st.locals }, by simp [writeVar, hl],
      forall₂_assoc h.locals hs.nodup hsc, fun y k hk => ?_, h.calls⟩
    have hne : k ≠ c' := fun heq => by
      obtain ⟨s, hsm, hs'⟩ := List.mem_map.mp (mem_snd_of_lookup hsc)
      exact hs.apart s hsm y (by rw [hs', ← heq]; exact hk)
    rw [cells_setCell_ne hne]
    exact h.cells y k hk

/-- A new local, in a cell that is nobody's yet. -/
theorem Holds.push (hs : Scoped outer scope named n) (h : Holds outer scope m st) (x : String)
    (v : Double) :
    Holds outer ((x, n) :: scope) (m.setCell n (some v))
      { st with locals := (x, v) :: st.locals } where
  locals := by
    have hout : n ∉ scope.map Prod.snd := fun hmem => by
      obtain ⟨s, hsm, heq⟩ := List.mem_map.mp hmem
      have := hs.below s hsm
      omega
    exact .cons ⟨rfl, cells_setCell_self⟩ (forall₂_setCell h.locals hout)
  cells := fun y c hc => by
    have hne : c ≠ n := Nat.ne_of_lt (hs.outer_below y c hc)
    rw [cells_setCell_ne hne]
    exact h.cells y c hc
  calls := h.calls

/-- Leaving the scope of the innermost names. -/
theorem Holds.drop (inner : List (String × Nat)) (h : Holds outer (inner ++ scope) m st) :
    Holds outer scope m { st with locals := st.locals.drop inner.length } :=
  { h with
    locals := by
      have hd := List.forall₂_drop inner.length h.locals
      rwa [List.drop_left] at hd }

end Scopes

end LlvmPasses.Kaleido
