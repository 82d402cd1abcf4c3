import LlvmPasses.Ir.Exec
import LlvmPasses.Ir.Module

/-!
# Running a module

Every call of one of the module's functions has a frame on the stack. Between
frames stands code from outside: it was there first, it is called through
addresses that belong to no function with a body, and it calls functions of the
module as it likes. What it does are moves, and so a run is told by the list of
its moves. A frame stays at a call until the call has come to its end.
-/

namespace LlvmPasses.Ir

/-- A call in progress of one of the module's functions. -/
structure Frame where
  func : Func
  args : List Val
  block : Nat
  /-- What is left of the block, the terminator not counted. -/
  rest : List (Instr Op)
  env : Env

inductive Activation where
  | inside (fr : Frame)
  | outside

/-- What can be told of a run: functions go by their handles. -/
inductive Observed where
  | does (fn : Nat) (e : Event)
  | enters (fn : Nat) (args : List Val)
  | leaves (fn : Nat) (v : Option Val)
  | unwinds (fn : Nat)
  deriving DecidableEq, Repr

/-- The function that is seen to do something. -/
def Observed.fn : Observed → Nat
  | .does fn _ | .enters fn _ | .leaves fn _ | .unwinds fn => fn

structure Process (μ : Type) where
  stack : List Activation
  mem : μ
  trace : List Observed

inductive Outcome (μ : Type) where
  | running (P : Process μ)
  | waiting (P : Process μ)
  | undefined

structure Program (μ : Type) where
  world : World μ
  module : Module
  /-- What can be called outside of the module. -/
  external : Nat → Bool

/-- What can happen next: the function on top of the stack takes a step, or the
code from outside on top of it does something. -/
inductive Move (μ : Type) where
  | silent
  | acts (change : μ → μ)
  | calls (a : Nat) (args : List Val)
  | returns (v : Option Val)
  | unwinds

/-- How a call came to its end. -/
inductive Ended where
  | returned (v : Option Val)
  | unwound

namespace Frame

/-- At the entry of a function. -/
def start (f : Func) (args : List Val) : Frame :=
  ⟨f, args, f.fn.entry, (f.fn.block f.fn.entry).body, fun _ => none⟩

def term (fr : Frame) : Instr TermOp := (fr.func.fn.block fr.block).term

/-- The result of a terminator that has one. -/
def setTerm (fr : Frame) (v : Option Val) : Frame :=
  { fr with env := (v.map (fr.env.set fr.term.id)).getD fr.env }

/-- Control reaches `k` from the frame's block. -/
def goto {μ : Type} (W : World μ) (fr : Frame) (k : Nat) : Option Frame :=
  (readPhis (eval W fr.args fr.env) fr.block (fr.func.fn.block k).phis fr.env).map fun env =>
    { fr with block := k, rest := (fr.func.fn.block k).body, env }

/-- The type of the call that the frame is at. -/
def awaited (fr : Frame) : Ty :=
  match fr.rest with
  | i :: _ => i.ty
  | [] => fr.term.ty

/-- The instruction that the frame is at has a result, or none. -/
def assign (fr : Frame) (i : Instr Op) (rest : List (Instr Op)) (v : Option Val) :
    Option Frame :=
  (fr.env.assign i.id i.ty v).map fun env => { fr with rest, env }

end Frame

/-- A result of a type; of type `void` there is none. -/
def resultHasTy (ty : Ty) : Option Val → Bool
  | none => ty == .void
  | some v => v.hasTy ty

/-- Where a frame goes on. -/
def Outcome.of {μ : Type} (stack : List Activation) (mem : μ) (trace : List Observed) :
    Option Frame → Outcome μ
  | some fr => .running ⟨.inside fr :: stack, mem, trace⟩
  | none => .undefined

section

variable {μ : Type} (W : World μ)

/-- The call that the stack is at has come to its end. -/
def resume (mem : μ) : Ended → List Activation → List Observed → Outcome μ
  | _, [], trace => .running ⟨[], mem, trace⟩
  | _, .outside :: stack, trace => .running ⟨.outside :: stack, mem, trace⟩
  | .returned v, .inside fr :: stack, trace =>
      match fr.rest with
      | i :: rest => .of stack mem trace (fr.assign i rest v)
      | [] =>
          match fr.term.successors with
          | [normal, _] => .of stack mem trace ((fr.setTerm v).goto W normal)
          | _ => .undefined
  | .unwound, .inside fr :: stack, trace =>
      match fr.rest with
      | _ :: _ => resume mem .unwound stack (trace ++ [.unwinds fr.func.id])
      | [] =>
          match fr.term.successors with
          | [_, unwind] => .of stack mem trace (fr.goto W unwind)
          | _ => .undefined

end

namespace Program

variable {μ : Type} (p : Program μ)

/-- The function with a body at an address. -/
def callee (a : Nat) : Option Func := p.module.defined.find? fun f => p.world.address f.id == a

/-- The frame calls what its last operand points to. -/
def call (fr : Frame) (vals : List Val) (stack : List Activation) (mem : μ)
    (trace : List Observed) : Outcome μ :=
  match vals.getLast? with
  | some (.ptr a) =>
      let trace := trace ++ [.does fr.func.id (.call a vals.dropLast)]
      match p.callee a with
      | some f => .running ⟨.inside (.start f vals.dropLast) :: .inside fr :: stack, mem,
          trace ++ [.enters f.id vals.dropLast]⟩
      | none =>
          if p.external a then .running ⟨.outside :: .inside fr :: stack, mem, trace⟩
          else .undefined
  | _ => .undefined

/-- The next instruction of a frame. -/
def instr (fr : Frame) (i : Instr Op) (rest : List (Instr Op)) (stack : List Activation) (mem : μ)
    (trace : List Observed) : Outcome μ :=
  if i.op = .call false then
    match evalAll (eval p.world fr.args fr.env) i.operands with
    | some vals => p.call fr vals stack mem trace
    | none => .undefined
  else
    match effect p.world fr.args fr.env mem i with
    | .done v mem events =>
        .of stack mem (trace ++ events.map (.does fr.func.id)) (fr.assign i rest v)
    | .unwinds mem events =>
        resume p.world mem .unwound stack
          (trace ++ events.map (.does fr.func.id) ++ [.unwinds fr.func.id])
    | .never events =>
        .waiting ⟨.inside fr :: stack, mem, trace ++ events.map (.does fr.func.id)⟩
    | .undefined => .undefined

/-- The end of a frame's block. -/
def terminator (fr : Frame) (stack : List Activation) (mem : μ) (trace : List Observed) :
    Outcome μ :=
  if fr.term.op = .invoke then
    match evalAll (eval p.world fr.args fr.env) (callOperands fr.term.operands) with
    | some vals => p.call fr vals stack mem trace
    | none => .undefined
  else
    match p.world.transfer fr.term (eval p.world fr.args fr.env) mem with
    | .goto k v mem events =>
        .of stack mem (trace ++ events.map (.does fr.func.id)) ((fr.setTerm v).goto p.world k)
    | .ret v =>
        resume p.world mem (.returned v) stack (trace ++ [.leaves fr.func.id v])
    | .unwinds mem events =>
        resume p.world mem .unwound stack
          (trace ++ events.map (.does fr.func.id) ++ [.unwinds fr.func.id])
    | .never events =>
        .waiting ⟨.inside fr :: stack, mem, trace ++ events.map (.does fr.func.id)⟩
    | .undefined => .undefined

/-- A step of the function on top of the stack. -/
def inside (fr : Frame) (stack : List Activation) (mem : μ) (trace : List Observed) : Outcome μ :=
  match fr.rest with
  | i :: rest => p.instr fr i rest stack mem trace
  | [] => p.terminator fr stack mem trace

/-- A move of the code from outside on top of the stack. It returns what the
call wants, and the code that was there first does not return. -/
def outside (stack : List Activation) (mem : μ) (trace : List Observed) :
    Move μ → Option (Outcome μ)
  | .silent => none
  | .acts change => some (.running ⟨.outside :: stack, change mem, trace⟩)
  | .calls a args =>
      (p.callee a).map fun f =>
        .running ⟨.inside (.start f args) :: .outside :: stack, mem, trace ++ [.enters f.id args]⟩
  | .returns v =>
      match stack with
      | .inside fr :: _ =>
          if resultHasTy fr.awaited v then some (resume p.world mem (.returned v) stack trace)
          else none
      | _ => none
  | .unwinds =>
      match stack with
      | .inside _ :: _ => some (resume p.world mem .unwound stack trace)
      | _ => none

/-- One move, if it can be made. -/
def step (move : Move μ) : Outcome μ → Option (Outcome μ)
  | .running ⟨.inside fr :: stack, mem, trace⟩ =>
      match move with
      | .silent => some (p.inside fr stack mem trace)
      | _ => none
  | .running ⟨.outside :: stack, mem, trace⟩ => p.outside stack mem trace move
  | .running ⟨[], _, _⟩ | .waiting _ | .undefined => none

end Program

/-- Before anything of the module runs. -/
def Outcome.start {μ : Type} (mem : μ) : Outcome μ := .running ⟨[.outside], mem, []⟩

end LlvmPasses.Ir
