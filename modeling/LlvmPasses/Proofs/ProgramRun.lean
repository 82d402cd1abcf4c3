import LlvmPasses.Proofs.Callees
import LlvmPasses.Proofs.FunctionRun
import LlvmPasses.Proofs.ProgramEval

/-!
# Running one activation

An activation sees a world that answers its calls: what the callees would
answer, each after the calls before it. In that world the code of a function
tracks its body, and the activation among the linked modules goes through the
same steps: so a function returns there what its body evaluates to.

`Compiles.returns_iff` has what the induction over calls needs of one function.
The machine of `FunctionRun` knows no other functions: it asks an oracle. The
world that replays given answers is such an oracle (`replaying`), and the
activation of the function among linked modules is compared with the machine in
this world, instruction by instruction (`Mirrors`, `Mirrors.together`). An
instruction that is no call does the same in both. A call is answered at once
by the oracle and is a step over the callee's whole run on the other side, and
where there is no answer both are stuck.
-/

namespace LlvmPasses.Kaleido

open StateError Transition Filter Activations

/-- The trace after some calls, answered by `f`. -/
def after (f : Answers) (trace cs : List Call) : Option (List Call) :=
  cs.foldlM (fun u c => (f c u).map Prod.snd) trace

/-- The world in which `f` answers the calls, the first of them after `trace`. -/
def replaying (A : Arith) (f : Answers) (trace : List Call) : World where
  arith := A
  oracle := fun cs =>
    cs.getLast?.bind fun c => (after f trace cs.dropLast).bind fun u => (f c u).map Prod.fst

/-- The callee is what the code generator makes of a definition. -/
structure Compiles (A : Arith) (f : Definition) (c : Callee) : Prop where
  params : c.params = f.params.length
  emitted : ∃ b v b', Emits A f b v b' ∧ c.code.code = (b'.returning v).body.instrs ∧
    ∀ id, (b'.returning v).body.Calls id → c.code.nameOf id = b'.module.nameOf id

def Machine.silent (m : Machine) : Machine := { m with calls := [] }

/-- The activation is where the machine is, and the world as after its calls. -/
structure Mirrors (body : Body) (names : Nat → Option String) (f : Answers) (trace : List Call)
    (m : Machine) (q : List Call × Activation) : Prop where
  code : q.2.code = ⟨body.instrs, names⟩
  machine : q.2.machine = m.silent
  trace : after f trace m.calls = some q.1
  block : m.block ∈ body.blocks
  rest : m.rest <:+ body.code m.block

section

variable {A : Arith} {f : Answers} {trace w u cs : List Call} {c : Call} {d : Double}
variable {m m' : Machine} {i : Instr} {rest : List Instr}

/-! ## Worlds that replay -/

theorem after_snoc : after f trace (cs ++ [c]) =
    (after f trace cs).bind fun u => (f c u).map Prod.snd := by
  unfold after
  rw [List.foldlM_append]
  refine congrArg _ (funext fun u => ?_)
  simp [List.foldlM]

theorem oracle_snoc : (replaying A f trace).oracle (cs ++ [c]) =
    (after f trace cs).bind fun u => (f c u).map Prod.fst := by
  simp [replaying]

theorem doubles_congr (h : ∀ v, m'.double v = m.double v) (vs : List Value) :
    m'.doubles vs = m.doubles vs := by
  induction vs with
  | nil => rfl
  | cons v vs ih => simp only [Machine.doubles, h, ih]

theorem double_silent (m : Machine) (v : Value) : m.silent.double v = m.double v := by
  cases v <;> rfl

/-- The instructions an activation runs by itself. -/
def Instr.IsPlain : Instr → Prop
  | .call _ _ _ | .ret _ => False
  | _ => True

/-- No call, and no world. -/
theorem exec_silent {W : World} {G H : Program} (hA : W.arith = A) (hi : i.IsPlain)
    (hcode : ∀ t ∈ i.successors, H.code t = G.code t) :
    Machine.exec ⟨A, fun _ => none⟩ H m.silent i = (Machine.exec W G m i).map Machine.silent := by
  subst hA
  cases i with
  | call r fn args => exact hi.elim
  | ret v => exact hi.elim
  | alloca r => rfl
  | load r cell =>
      simp only [Machine.exec]
      show (m.cells cell).bind _ = _
      cases m.cells cell <;> rfl
  | store v cell =>
      simp only [Machine.exec, double_silent]
      cases m.double v <;> rfl
  | fbin r op lhs rhs =>
      simp only [Machine.exec, double_silent]
      cases m.double lhs <;> cases m.double rhs <;> rfl
  | fcmp r pred lhs rhs =>
      simp only [Machine.exec, double_silent]
      cases m.double lhs <;> cases m.double rhs <;> rfl
  | uitofp r v =>
      simp only [Machine.exec]
      have hbit : m.silent.bit v = m.bit v := by cases v <;> rfl
      rw [hbit]
      cases m.bit v <;> rfl
  | phi r incoming =>
      simp only [Machine.exec]
      show (incoming.find? fun p => p.2 = m.prev).bind _ = _
      cases incoming.find? fun p => p.2 = m.prev with
      | none => rfl
      | some p =>
          simp only [Option.bind_eq_bind, Option.bind_some, double_silent]
          cases m.double p.1 <;> rfl
  | br dest =>
      simp only [Machine.exec, Machine.goto]
      rw [hcode dest (List.mem_singleton_self _)]
      rfl
  | condBr cond thenBB elseBB =>
      simp only [Machine.exec]
      have hbit : m.silent.bit cond = m.bit cond := by cases cond <;> rfl
      rw [hbit]
      cases m.bit cond with
      | none => rfl
      | some t =>
          simp only [Option.bind_eq_bind, Option.bind_some, Machine.goto]
          rw [hcode _ (by cases t <;> simp [Instr.successors])]
          rfl

/-- Where an instruction leads. -/
theorem exec_where {W : World} {G : Program} (h : Machine.exec W G m i = some m')
    (hi : i.IsPlain) : m'.calls = m.calls ∧
      ((m'.block = m.block ∧ m'.rest = m.rest) ∨
        ∃ t ∈ i.successors, m'.block = t ∧ m'.rest = G.code t) := by
  cases i with
  | call r fn args => exact hi.elim
  | ret v => exact hi.elim
  | br dest =>
      cases h
      exact ⟨rfl, .inr ⟨dest, List.mem_singleton_self _, rfl, rfl⟩⟩
  | condBr cond thenBB elseBB =>
      simp only [Machine.exec] at h
      obtain ⟨t, -, h⟩ := Option.bind_eq_some_iff.mp h
      cases h
      refine ⟨rfl, .inr ⟨if t then thenBB else elseBB, ?_, rfl, rfl⟩⟩
      cases t <;> simp [Instr.successors]
  | alloca r => cases h; exact ⟨rfl, .inl ⟨rfl, rfl⟩⟩
  | load r cell =>
      obtain ⟨x, -, h⟩ := Option.bind_eq_some_iff.mp h
      cases h
      exact ⟨rfl, .inl ⟨rfl, rfl⟩⟩
  | store v cell =>
      obtain ⟨x, -, h⟩ := Option.bind_eq_some_iff.mp h
      cases h
      exact ⟨rfl, .inl ⟨rfl, rfl⟩⟩
  | fbin r op lhs rhs =>
      obtain ⟨x, -, h⟩ := Option.bind_eq_some_iff.mp h
      obtain ⟨y, -, h⟩ := Option.bind_eq_some_iff.mp h
      cases h
      exact ⟨rfl, .inl ⟨rfl, rfl⟩⟩
  | fcmp r pred lhs rhs =>
      obtain ⟨x, -, h⟩ := Option.bind_eq_some_iff.mp h
      obtain ⟨y, -, h⟩ := Option.bind_eq_some_iff.mp h
      cases h
      exact ⟨rfl, .inl ⟨rfl, rfl⟩⟩
  | uitofp r v =>
      obtain ⟨x, -, h⟩ := Option.bind_eq_some_iff.mp h
      cases h
      exact ⟨rfl, .inl ⟨rfl, rfl⟩⟩
  | phi r incoming =>
      obtain ⟨p, -, h⟩ := Option.bind_eq_some_iff.mp h
      obtain ⟨x, -, h⟩ := Option.bind_eq_some_iff.mp h
      cases h
      exact ⟨rfl, .inl ⟨rfl, rfl⟩⟩

end

/-! ## Moves -/

section

variable {A : Arith} {a : Activation} {m : Machine} {i : Instr} {rest : List Instr} {d : Double}
variable {v : Value} {r fn : Nat} {args : List Value} {ds : List Double} {name : String}

theorem move_some (hi : i.IsPlain) (hrest : a.machine.rest = i :: rest)
    (h : Machine.exec ⟨A, fun _ => none⟩ a.code { a.machine with rest } i = some m) :
    a.move A = .go ⟨a.code, m⟩ := by
  unfold Activation.move
  rw [hrest]
  cases i <;> first | exact hi.elim | simp only [h]

theorem move_none (hi : i.IsPlain) (hrest : a.machine.rest = i :: rest)
    (h : Machine.exec ⟨A, fun _ => none⟩ a.code { a.machine with rest } i = none) :
    a.move A = .stuck := by
  unfold Activation.move
  rw [hrest]
  cases i <;> first | exact hi.elim | simp only [h]

theorem move_ret (hrest : a.machine.rest = .ret v :: rest) (hd : a.machine.double v = some d) :
    a.move A = .ret d := by
  unfold Activation.move
  rw [hrest]
  simp only [hd]

theorem move_poison (hrest : a.machine.rest = .ret v :: rest) (hd : a.machine.double v = none) :
    a.move A = .stuck := by
  unfold Activation.move
  rw [hrest]
  simp only [hd]

theorem move_call (hrest : a.machine.rest = .call r fn args :: rest)
    (hname : a.code.nameOf fn = some name) (hds : a.machine.doubles args = some ds) :
    a.move A = .call (name, ds) := by
  unfold Activation.move
  rw [hrest]
  simp only [hname, hds]

theorem move_stuck (hrest : a.machine.rest = .call r fn args :: rest)
    (h : a.code.nameOf fn = none ∨ a.machine.doubles args = none) : a.move A = .stuck := by
  unfold Activation.move
  rw [hrest]
  rcases h with h | h
  · simp only [h]
  · simp only [h]
    cases a.code.nameOf fn <;> rfl

end

/-! ## One activation -/

section

variable {A : Arith} {f : Answers} {trace w : List Call} {d : Double} {L : List Module}
variable {body : Body} {N names : Nat → Option String} {m m' : Machine}
variable {q q' : List Call × Activation} {O : List Call → Option Double} {v : Value}

theorem Mirrors.rest_eq (h : Mirrors body names f trace m q) : q.2.machine.rest = m.rest := by
  rw [h.machine]
  rfl

/-- What is next is in the body. -/
theorem Mirrors.mem {i : Instr} {rest : List Instr} (h : Mirrors body names f trace m q)
    (hrest : m.rest = i :: rest) : i ∈ body.code m.block :=
  h.rest.subset (hrest ▸ List.mem_cons_self ..)

/-- The next states of a machine and of the activation that mirrors it: there
are none, or the machine waits for a call that the activation is stuck at, or
the one mirrors the other again. -/
inductive Together (body : Body) (names : Nat → Option String) (f : Answers) (trace : List Call)
    (m : Machine) : Option Machine → Option (List Call × Activation) → Prop
  | halted : Together body names f trace m none none
  | waiting : Together body names f trace m (some m) none
  | on {m' : Machine} {q' : List Call × Activation} (h : Mirrors body names f trace m' q') :
      Together body names f trace m (some m') (some q')

theorem Mirrors.together_plain {i : Instr} {rest : List Instr}
    (hbody : ∀ k ∈ body.blocks, ∀ t ∈ targets (body.code k), t ∈ body.blocks ∧ t ≠ entryBlock)
    (h : Mirrors body names f trace m q) (hrest : m.rest = i :: rest) (hi : i.IsPlain) :
    Together body names f trace m (Machine.step (replaying A f trace) ⟨body.code, N⟩ m)
      ((linked A O L).advance f q) := by
  obtain ⟨w, a⟩ := q
  have htargets : ∀ t ∈ i.successors, t ∈ body.blocks ∧ t ≠ entryBlock := fun t ht =>
    hbody m.block h.block t (List.mem_flatMap.mpr ⟨i, h.mem hrest, ht⟩)
  have hexec := exec_silent (G := ⟨body.code, N⟩) (H := ⟨body.instrs, names⟩)
    (m := { m with rest }) (W := replaying A f trace) (A := A) rfl hi fun t ht =>
      if_neg (htargets t ht).2
  have hstep : Machine.step (replaying A f trace) ⟨body.code, N⟩ m =
      Machine.exec (replaying A f trace) ⟨body.code, N⟩ { m with rest } i := by
    unfold Machine.step
    rw [hrest]
    have hwaits : Machine.waits (replaying A f trace) ⟨body.code, N⟩ m i = false := by
      cases i <;> first | rfl | exact hi.elim
    simp only [hwaits, Bool.false_eq_true, if_false]
  have harest : a.machine.rest = i :: rest := h.rest_eq.trans hrest
  have hm : ({ a.machine with rest } : Machine) = Machine.silent { m with rest } := by
    have hmachine : a.machine = m.silent := h.machine
    rw [hmachine]
    rfl
  rw [← hm, ← h.code] at hexec
  rw [hstep]
  cases hm' : Machine.exec (replaying A f trace) ⟨body.code, N⟩ { m with rest } i with
  | none =>
      rw [hm'] at hexec
      rw [advance_stuck (M := linked A O L) (a := a) (move_none hi harest hexec)]
      exact .halted
  | some m' =>
      rw [hm'] at hexec
      rw [advance_go (M := linked A O L) (a := a) (move_some hi harest hexec)]
      obtain ⟨hcalls, hwhere⟩ := exec_where hm' hi
      have hinside : m'.block ∈ body.blocks ∧ m'.rest <:+ body.code m'.block := by
        rcases hwhere with ⟨hb, hr⟩ | ⟨t, ht, hb, hr⟩
        · rw [hb, hr]
          exact ⟨h.block, (List.suffix_cons i rest).trans (hrest ▸ h.rest)⟩
        · rw [hb, hr]
          exact ⟨(htargets t ht).1, List.suffix_refl _⟩
      refine .on ⟨h.code, rfl, ?_, hinside.1, hinside.2⟩
      rw [hcalls]
      exact h.trace

theorem Mirrors.together_call {r fn : Nat} {args : List Value} {rest : List Instr}
    (hnames : ∀ id, body.Calls id → names id = N id) (h : Mirrors body names f trace m q)
    (hrest : m.rest = .call r fn args :: rest) :
    Together body names f trace m (Machine.step (replaying A f trace) ⟨body.code, N⟩ m)
      ((linked A O L).advance f q) := by
  obtain ⟨w, a⟩ := q
  have harest : a.machine.rest = .call r fn args :: rest := h.rest_eq.trans hrest
  have hmachine : a.machine = m.silent := h.machine
  have hname : a.code.nameOf fn = N fn := by
    have hcode : a.code = ⟨body.instrs, names⟩ := h.code
    rw [hcode]
    exact hnames fn (Body.calls_iff.mpr ⟨m.block, _, h.mem hrest, List.mem_singleton_self fn⟩)
  have hargs : a.machine.doubles args = m.doubles args := by
    rw [hmachine]
    exact doubles_congr (double_silent m) args
  have hargs' : Machine.doubles { m with rest } args = m.doubles args :=
    doubles_congr (fun v => by cases v <;> rfl) args
  unfold Machine.step
  rw [hrest]
  simp only [Machine.waits, Machine.exec, hargs']
  cases hfn : N fn with
  | none =>
      rw [advance_stuck (M := linked A O L) (a := a)
        (move_stuck harest (.inl (hname.trans hfn)))]
      exact .halted
  | some name =>
      cases hds : m.doubles args with
      | none =>
          rw [advance_stuck (M := linked A O L) (a := a)
            (move_stuck harest (.inr (hargs.trans hds)))]
          exact .halted
      | some ds =>
          rw [advance_call (M := linked A O L) (a := a)
            (move_call harest (hname.trans hfn) (hargs.trans hds))]
          simp only [Option.bind_eq_bind, Option.bind_some, oracle_snoc, h.trace]
          cases hf : f (name, ds) w with
          | none =>
              simp only [Option.map_none, Option.isNone_none, if_true]
              exact .waiting
          | some p =>
              simp only [Option.map_some, Option.isNone_some, Bool.false_eq_true, if_false,
                Option.bind_some]
              have hresume : a.resume p.1 =
                  ⟨a.code, ({ a.machine with rest } : Machine).assign r (.dbl p.1)⟩ := by
                unfold Activation.resume
                rw [harest]
              refine .on ⟨?_, ?_, ?_, h.block, (List.suffix_cons _ rest).trans (hrest ▸ h.rest)⟩
              · exact (congrArg Activation.code hresume).trans h.code
              · refine (congrArg Activation.machine hresume).trans ?_
                rw [hmachine]
                rfl
              · show after f trace (m.calls ++ [(name, ds)]) = some p.2
                rw [after_snoc, h.trace, Option.bind_some, hf]
                rfl

theorem Mirrors.together
    (hbody : ∀ k ∈ body.blocks, ∀ t ∈ targets (body.code k), t ∈ body.blocks ∧ t ≠ entryBlock)
    (hnames : ∀ id, body.Calls id → names id = N id) (h : Mirrors body names f trace m q) :
    Together body names f trace m (Machine.step (replaying A f trace) ⟨body.code, N⟩ m)
      ((linked A O L).advance f q) := by
  cases hrest : m.rest with
  | nil =>
      have hstep : Machine.step (replaying A f trace) ⟨body.code, N⟩ m = none := by
        unfold Machine.step
        rw [hrest]
      have hmove : q.2.move A = .stuck := by
        unfold Activation.move
        rw [h.rest_eq, hrest]
      rw [hstep, advance_stuck (M := linked A O L) (a := q.2) hmove]
      exact .halted
  | cons i rest =>
      by_cases hi : i.IsPlain
      · exact h.together_plain hbody hrest hi
      · cases i with
        | call r fn args => exact h.together_call hnames hrest
        | ret v =>
            have hstep : Machine.step (replaying A f trace) ⟨body.code, N⟩ m = none := by
              unfold Machine.step
              rw [hrest]
              rfl
            have hnone : (linked A O L).advance f (q.1, q.2) = none := by
              have hqrest : q.2.machine.rest = .ret v :: rest := h.rest_eq.trans hrest
              cases hd : q.2.machine.double v with
              | none => exact advance_stuck (move_poison hqrest hd)
              | some d => exact advance_ret (move_ret hqrest hd)
            rw [hstep, hnone]
            exact .halted
        | _ => exact absurd trivial hi

theorem Mirrors.of_reaches
    (hbody : ∀ k ∈ body.blocks, ∀ t ∈ targets (body.code k), t ∈ body.blocks ∧ t ≠ entryBlock)
    (hnames : ∀ id, body.Calls id → names id = N id) (h : Mirrors body names f trace m q)
    (hrun : Reaches ((linked A O L).advance f) q q') :
    ∃ m', Reaches (Machine.step (replaying A f trace) ⟨body.code, N⟩) m m' ∧
      Mirrors body names f trace m' q' := by
  refine hrun.induction (P := fun q' => ∃ m', Reaches (Machine.step (replaying A f trace)
    ⟨body.code, N⟩) m m' ∧ Mirrors body names f trace m' q') ⟨m, .refl m, h⟩ ?_
  rintro q₁ q₂ ⟨m₁, hm₁, h₁⟩ hstep
  have ht := h₁.together (A := A) (O := O) (L := L) hbody hnames
  rw [hstep] at ht
  generalize hs : Machine.step (replaying A f trace) ⟨body.code, N⟩ m₁ = o at ht
  cases ht with
  | on h₂ => exact ⟨_, hm₁.trans (.single hs), h₂⟩

end

end LlvmPasses.Kaleido
