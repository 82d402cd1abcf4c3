import LlvmPasses.Ir.Syntax
import LlvmPasses.Lib.Transition

/-!
# Running a function

One step runs one instruction. A step over a terminator also runs the PHI nodes
of the block it goes to, all on the values from before. What has no defined
behaviour ends the run in a state of its own, and a call that never comes back
leaves the machine waiting for ever.

What is outside the function is a parameter: memory, what a call does to it,
and what the instructions compute that have no meaning of their own here, those
on floating point among them. The operations on integers and the conversions
between them have one, on vectors lane by lane, and so have the flags under which
their results are poison. Poison is a value: it spreads through these operations,
and branching on it is undefined.
-/

namespace LlvmPasses.Ir

inductive Val where
  | int (w : Nat) (x : BitVec w)
  | ptr (a : Nat)
  | poison
  /-- A vector of integers; a lane that is missing is poison. -/
  | vec (w : Nat) (lanes : List (Option (BitVec w)))
  /-- A value of a type that is no integer, no vector of integers and no pointer. -/
  | other (ty : Ty) (bits : Nat)
  deriving DecidableEq, Repr

def Val.hasTy : Val → Ty → Bool
  | .int w _, ty => ty == .int w
  | .vec w lanes, ty => ty == .vec lanes.length (.int w)
  | .other ty' _, ty => ty == ty'
  | .ptr _, ty => ty == .ptr
  | .poison, ty => ty != .void

/-- What can be told from outside while a function runs. -/
inductive Event where
  | load (a : Nat)
  | store (a : Nat) (v : Val)
  | call (callee : Nat) (args : List Val)
  deriving DecidableEq, Repr

/-- What a call comes to. -/
inductive Reply (μ : Type) where
  | returns (v : Option Val) (mem : μ)
  | unwinds (mem : μ)
  | never
  | undefined

/-- What an instruction comes to. -/
inductive Effect (μ : Type) where
  | done (v : Option Val) (mem : μ) (events : List Event)
  | unwinds (mem : μ) (events : List Event)
  | never (events : List Event)
  | undefined

/-- Memory, and what can be called. -/
structure World (μ : Type) where
  address : Nat → Nat
  blockAddress : Nat → Nat
  alloca : Ty → μ → Nat × μ
  load : Nat → Ty → μ → Option Val
  store : Nat → Val → μ → Option μ
  call : Nat → List Val → μ → Reply μ
  /-- The instructions that are given no meaning below. -/
  other : Op → Ty → List Val → μ → Effect μ

/-! ## Instructions -/

/-- The value, or poison where the flags say so. -/
def poisonIf (c : Bool) (v : Val) : Option Val := some (if c then .poison else v)

/-- An integer operation on two values that are no poison. -/
def BinOp.applyInt {w : Nat} (op : BinOp) (f : Flags) (x y : BitVec w) : Option Val :=
  let tooFar := decide (w ≤ y.toNat)
  match op with
  | .add => poisonIf ((f.nuw && x.uaddOverflow y) || (f.nsw && x.saddOverflow y)) (.int w (x + y))
  | .sub => poisonIf ((f.nuw && x.usubOverflow y) || (f.nsw && x.ssubOverflow y)) (.int w (x - y))
  | .mul => poisonIf ((f.nuw && x.umulOverflow y) || (f.nsw && x.smulOverflow y)) (.int w (x * y))
  | .udiv => if y = 0 then none else poisonIf (f.exact && x.umod y != 0) (.int w (x.udiv y))
  | .sdiv =>
      if y = 0 ∨ x.sdivOverflow y then none
      else poisonIf (f.exact && x.srem y != 0) (.int w (x.sdiv y))
  | .urem => if y = 0 then none else some (.int w (x.umod y))
  | .srem => if y = 0 ∨ x.sdivOverflow y then none else some (.int w (x.srem y))
  | .shl => poisonIf (tooFar || (f.nuw && (x <<< y.toNat) >>> y.toNat != x) ||
      (f.nsw && (x <<< y.toNat).sshiftRight y.toNat != x)) (.int w (x <<< y.toNat))
  | .lshr => poisonIf (tooFar || (f.exact && (x >>> y.toNat) <<< y.toNat != x))
      (.int w (x >>> y.toNat))
  | .ashr => poisonIf (tooFar || (f.exact && (x.sshiftRight y.toNat) <<< y.toNat != x))
      (.int w (x.sshiftRight y.toNat))
  | .and => some (.int w (x &&& y))
  | .or => some (.int w (x ||| y))
  | .xor => some (.int w (x ^^^ y))

def BinOp.isDivision : BinOp → Bool
  | .udiv | .sdiv | .urem | .srem => true
  | _ => false

/-- Dividing poison by this is undefined: it may be zero, or overflow. -/
def BinOp.badDivisor {w : Nat} (op : BinOp) (y : BitVec w) : Bool :=
  match op with
  | .udiv | .urem => y = 0
  | .sdiv | .srem => y = 0 ∨ y = BitVec.allOnes w
  | _ => false

def BinOp.apply (op : BinOp) (w : Nat) (f : Flags) : Val → Val → Option Val
  | .int w₁ x, .int w₂ y =>
      if h : w₁ = w ∧ w₂ = w then op.applyInt f (h.1 ▸ x) (h.2 ▸ y) else none
  | .poison, .int w' y => if w' ≠ w ∨ op.badDivisor y then none else some .poison
  | .int w' _, .poison => if w' ≠ w ∨ op.isDivision then none else some .poison
  | .poison, .poison => if op.isDivision then none else some .poison
  | _, _ => none

/-! ### Lanes -/

/-- A lane as a value. -/
def Val.word {w : Nat} : Option (BitVec w) → Val
  | some x => .int w x
  | none => .poison

/-- A value of the width as a lane. -/
def Val.toWord (w : Nat) : Val → Option (Option (BitVec w))
  | .int w' x => if h : w' = w then some (some (h ▸ x)) else none
  | .poison => some none
  | _ => none

/-- The lanes of a vector of `n` integers; all are poison if it is. -/
def Val.lanes (n w : Nat) : Val → Option (List (Option (BitVec w)))
  | .vec w' xs => if h : w' = w ∧ xs.length = n then some (h.1 ▸ xs) else none
  | .poison => some (List.replicate n none)
  | _ => none

def BinOp.applyWord {w : Nat} (op : BinOp) (f : Flags) (x y : Option (BitVec w)) :
    Option (Option (BitVec w)) :=
  (op.apply w f (.word x) (.word y)).bind (Val.toWord w)

/-- On two vectors; it is undefined if it is on one pair of lanes. -/
def BinOp.applyVec (op : BinOp) (n w : Nat) (f : Flags) (u v : Val) : Option Val :=
  match u.lanes n w, v.lanes n w with
  | some xs, some ys => ((xs.zip ys).mapM fun p => op.applyWord f p.1 p.2).map (.vec w)
  | _, _ => none

/-! ### Comparisons and conversions -/

def ICmpPred.applyInt {w : Nat} (p : ICmpPred) (x y : BitVec w) : Bool :=
  match p with
  | .eq => x == y
  | .ne => x != y
  | .ugt => y.ult x
  | .uge => y.ule x
  | .ult => x.ult y
  | .ule => x.ule y
  | .sgt => y.slt x
  | .sge => y.sle x
  | .slt => x.slt y
  | .sle => x.sle y

def Val.bool (b : Bool) : Val := .int 1 (BitVec.ofBool b)

/-- Pointers compare as 64-bit integers. -/
def ICmpPred.apply (p : ICmpPred) : Val → Val → Option Val
  | .int w x, .int w' y => if h : w' = w then some (.bool (p.applyInt x (h ▸ y))) else none
  | .ptr a, .ptr b => some (.bool (p.applyInt (BitVec.ofNat 64 a) (BitVec.ofNat 64 b)))
  | .poison, _ | _, .poison => some .poison
  | _, _ => none

/-- The conversions between integers; the others are not given a meaning here. -/
def CastOp.applyInt {w : Nat} (op : CastOp) (f : Flags) (w' : Nat) (x : BitVec w) : Option Val :=
  match op with
  | .trunc => poisonIf ((f.nuw && (x.setWidth w').setWidth w != x) ||
      (f.nsw && (x.setWidth w').signExtend w != x)) (.int w' (x.setWidth w'))
  | .zext => some (.int w' (x.setWidth w'))
  | .sext => some (.int w' (x.signExtend w'))
  | _ => none

def CastOp.apply (op : CastOp) (f : Flags) (w' : Nat) : Val → Option Val
  | .int _ x => op.applyInt f w' x
  | .poison => some .poison
  | _ => none

def CastOp.applyWord {w : Nat} (op : CastOp) (f : Flags) (w' : Nat) (x : Option (BitVec w)) :
    Option (Option (BitVec w')) :=
  (op.apply f w' (.word x)).bind (Val.toWord w')

def CastOp.applyVec (op : CastOp) (n : Nat) (f : Flags) (w' : Nat) : Val → Option Val
  | .vec _ xs => if xs.length = n then (xs.mapM (op.applyWord f w')).map (.vec w') else none
  | .poison => some .poison
  | _ => none

def CastOp.isInteger : CastOp → Bool
  | .trunc | .zext | .sext => true
  | _ => false

/-! ## Effects -/

section

variable {μ : Type} (W : World μ)

/-- An instruction that only computes. -/
def computes (m : μ) : Option Val → Effect μ
  | some v => .done (some v) m []
  | none => .undefined

/-- A call's arguments and its callee, which comes last. -/
def World.applyCall (vals : List Val) (m : μ) : Effect μ :=
  match vals.getLast? with
  | some (.ptr callee) =>
      let event := Event.call callee vals.dropLast
      match W.call callee vals.dropLast m with
      | .returns v m => .done v m [event]
      | .unwinds m => .unwinds m [event]
      | .never => .never [event]
      | .undefined => .undefined
  | _ => .undefined

/-- An instruction on the values of its operands. -/
def World.apply (op : Op) (ty : Ty) (f : Flags) (vals : List Val) (m : μ) : Effect μ :=
  match op, ty, vals with
  | .binop op, .int w, [x, y] => computes m (op.apply w f x y)
  | .binop op, .vec n (.int w), [x, y] => computes m (op.applyVec n w f x y)
  | .icmp p, .int _, [x, y] => computes m (p.apply x y)
  | .cast op, .int w, [x] =>
      if op.isInteger then computes m (op.apply f w x) else W.other (.cast op) ty [x] m
  | .cast op, .vec n (.int w), [x] =>
      if op.isInteger then computes m (op.applyVec n f w x) else W.other (.cast op) ty [x] m
  | .select, _, [.int _ c, x, y] => computes m (some (if c.toNat = 0 then y else x))
  | .select, _, [.poison, _, _] => computes m (some .poison)
  | .alloca allocated _, _, _ =>
      let (a, m) := W.alloca allocated m
      .done (some (.ptr a)) m []
  | .load isVolatile _, _, [.ptr a] =>
      match W.load a ty m with
      | some v => .done (some v) m (if isVolatile then [.load a] else [])
      | none => .undefined
  | .store _ _, _, [v, .ptr a] =>
      match W.store a v m with
      | some m => .done none m [.store a v]
      | none => .undefined
  | .load _ _, _, _ | .store _ _, _, _ | .phi, _, _ => .undefined
  | .call _, _, vals => W.applyCall vals m
  | op, _, vals => W.other op ty vals m

/-! ## Terminators -/

/-- What a terminator comes to: the edge it takes, or how the function is left. -/
inductive Transfer (μ : Type) where
  | goto (k : Nat) (v : Option Val) (mem : μ) (events : List Event)
  | ret (v : Option Val)
  | unwinds (mem : μ) (events : List Event)
  | never (events : List Event)
  | undefined

/-- The block a switch goes to on `x`, given its cases. -/
def caseTarget (x : Nat) : List Value → Option Nat
  | .constInt _ c :: .block k :: cases => if c.toNat = x then some k else caseTarget x cases
  | _ => none

/-- The values of operands. -/
def evalAll (eval : Value → Option Val) : List Value → Option (List Val)
  | [] => some []
  | v :: vs =>
      match eval v, evalAll eval vs with
      | some x, some xs => some (x :: xs)
      | _, _ => none

/-- An `invoke` of a callee with arguments: its two destinations come between them. -/
def World.applyInvoke (vals : List Val) (normal unwind : Nat) (m : μ) : Transfer μ :=
  match W.applyCall vals m with
  | .done v m events => .goto normal v m events
  | .unwinds m events => .goto unwind none m events
  | .never events => .never events
  | .undefined => .undefined

/-- The arguments and the callee of an `invoke`, without its destinations. -/
def callOperands (operands : List Value) : List Value :=
  let n := operands.length
  operands.take (n - 3) ++ operands.drop (n - 1)

def World.transfer (t : Instr TermOp) (eval : Value → Option Val) (m : μ) : Transfer μ :=
  match t.op, t.operands with
  | .br, [.block k] => .goto k none m []
  | .br, [c, .block ifFalse, .block ifTrue] =>
      match eval c with
      | some (.int _ b) => .goto (if b.toNat = 0 then ifFalse else ifTrue) none m []
      | _ => .undefined
  | .switch, c :: .block default :: cases =>
      match eval c with
      | some (.int _ x) => .goto ((caseTarget x.toNat cases).getD default) none m []
      | _ => .undefined
  | .indirectbr, address :: _ =>
      match eval address with
      | some (.ptr a) =>
          match t.successors.find? fun k => W.blockAddress k == a with
          | some k => .goto k none m []
          | none => .undefined
      | _ => .undefined
  | .ret, [] => .ret none
  | .ret, [v] =>
      match eval v with
      | some x => .ret (some x)
      | none => .undefined
  | .invoke, operands =>
      match t.successors, evalAll eval (callOperands operands) with
      | [normal, unwind], some vals => W.applyInvoke vals normal unwind m
      | _, _ => .undefined
  | .resume, _ => .unwinds m []
  | _, _ => .undefined

end

/-! ## The machine -/

abbrev Env := Nat → Option Val

def Env.set (env : Env) (id : Nat) (v : Val) : Env := fun j => if j = id then some v else env j

theorem Env.set_self (env : Env) (id : Nat) (v : Val) : (env.set id v) id = some v := if_pos rfl

theorem Env.set_other (env : Env) {id id' : Nat} (v : Val) (h : id' ≠ id) :
    (env.set id v) id' = env id' := if_neg h

/-- The result of an instruction of a type; one of type `void` has none. -/
def Env.assign (env : Env) (id : Nat) (ty : Ty) : Option Val → Option Env
  | none => if ty = .void then some env else none
  | some v => if v.hasTy ty then some (env.set id v) else none

structure Machine (μ : Type) where
  block : Nat
  /-- What is left of the block, the terminator not counted. -/
  rest : List (Instr Op)
  env : Env
  mem : μ
  trace : List Event

inductive Config (μ : Type) where
  | running (m : Machine μ)
  | returned (v : Option Val) (mem : μ) (trace : List Event)
  | unwound (mem : μ) (trace : List Event)
  | waiting (trace : List Event)
  | undefined (trace : List Event)

def Config.trace {μ : Type} : Config μ → List Event
  | .running m => m.trace
  | .returned _ _ trace => trace
  | .unwound _ trace => trace
  | .waiting trace => trace
  | .undefined trace => trace

/-- The PHI nodes of a block that control reaches from `prev`. -/
def readPhis (eval : Value → Option Val) (prev : Nat) : List (Instr Op) → Env → Option Env
  | [], env => some env
  | phi :: phis, env =>
      match (phi.getIncomingValueForBlock prev).bind eval with
      | some v => if v.hasTy phi.ty then readPhis eval prev phis (env.set phi.id v) else none
      | none => none

section

variable {μ : Type} (W : World μ) (F : Function) (args : List Val)

def eval (env : Env) : Value → Option Val
  | .inst id => env id
  | .arg i => args[i]?
  | .constInt w x => some (.int w x)
  | .constFP ty bits => some (.other ty bits)
  | .constVec w lanes => some (.vec w lanes)
  | .global g => some (.ptr (W.address g))
  | .block k => some (.ptr (W.blockAddress k))
  | .null => some (.ptr 0)
  | .poison _ => some .poison

/-- Control reaches `k` from the machine's block. -/
def enter (m : Machine μ) (k : Nat) : Config μ :=
  match readPhis (eval W args m.env) m.block (F.block k).phis m.env with
  | some env => .running { m with block := k, rest := (F.block k).body, env := env }
  | none => .undefined m.trace

/-- What an instruction comes to. A debug intrinsic does nothing. -/
def effect (env : Env) (mem : μ) (i : Instr Op) : Effect μ :=
  if i.isDbgInfoIntrinsic then
    .done none mem []
  else
    match evalAll (eval W args env) i.operands with
    | none => .undefined
    | some vals => W.apply i.op i.ty i.flags vals mem

/-- The next instruction of the machine's block. -/
def execInstr (m : Machine μ) (i : Instr Op) (rest : List (Instr Op)) : Config μ :=
  match effect W args m.env m.mem i with
  | .done v mem events =>
      match m.env.assign i.id i.ty v with
      | some env => .running { m with rest, env, mem, trace := m.trace ++ events }
      | none => .undefined m.trace
  | .unwinds mem events => .unwound mem (m.trace ++ events)
  | .never events => .waiting (m.trace ++ events)
  | .undefined => .undefined m.trace

/-- Instructions one after the other, up to the first that is not followed by
the next. -/
def execAll : List (Instr Op) → Machine μ → Config μ
  | [], m => .running { m with rest := [] }
  | i :: is, m =>
      match execInstr W args m i [] with
      | .running m => execAll is m
      | c => c

/-- The machine's block has come to its end. -/
def execTerm (m : Machine μ) (t : Instr TermOp) : Config μ :=
  match W.transfer t (eval W args m.env) m.mem with
  | .goto k v mem events =>
      let env := (v.map (m.env.set t.id)).getD m.env
      enter W F args { m with env, mem, trace := m.trace ++ events } k
  | .ret v => .returned v m.mem m.trace
  | .unwinds mem events => .unwound mem (m.trace ++ events)
  | .never events => .waiting (m.trace ++ events)
  | .undefined => .undefined m.trace

def step : Config μ → Option (Config μ)
  | .running m =>
      match m.rest with
      | i :: rest => some (execInstr W args m i rest)
      | [] => some (execTerm W F args m (F.block m.block).term)
  | .waiting trace => some (.waiting trace)
  | .returned _ _ _ | .unwound _ _ | .undefined _ => none

/-- At the entry of the function; the entry block has no PHI nodes. -/
def start (m : μ) : Config μ :=
  .running ⟨F.entry, (F.block F.entry).body, fun _ => none, m, []⟩

end

end LlvmPasses.Ir
