import LlvmPasses.Kaleido.Codegen
import LlvmPasses.Kaleido.Parser
import LlvmPasses.Lib.Transition

/-!
# The driver

`Driver::mainLoop` and its handlers, one round of the loop at a time. A
session is what survives a round: the tokens still to come, the code
generator's globals, and what the JIT holds when there is one.

The JIT itself is a parameter: whether a module can be added to what it holds,
and whether looking up and running `__anon_expr` returns. Where it does not,
`ExitOnErr` ends the process and there is no next round. Where it does, the
symbols that `DynamicLibrarySearchGenerator` has found in the process for what
was undefined have been added to the JIT as well, and they stay there when the
module of the expression is removed.
-/

namespace LlvmPasses.Kaleido

/-- `MainJD`: the modules added to it, and the symbols the process was found to
have. -/
structure JITDylib where
  modules : List Module
  resolved : List String

def JITDylib.empty : JITDylib := ⟨[], []⟩

def JITDylib.add (d : JITDylib) (m : Module) : JITDylib := { d with modules := d.modules ++ [m] }

def JITDylib.resolve (d : JITDylib) (found : List String) : JITDylib :=
  { d with resolved := d.resolved ++ found }

structure Jit where
  /-- `addModule` succeeds. -/
  addModule : JITDylib → Module → Bool
  /-- The symbols found in the process on the way, if `lookup("__anon_expr")`
  succeeds and the function returns. -/
  evaluate : JITDylib → Option (List String)

structure Session where
  tokens : List Lexeme
  builder : Builder
  /-- None under `--compile`. -/
  jit : Option JITDylib
  /-- The prototypes of the definitions accepted so far. Nothing reads them. -/
  definitions : List Prototype

/-- How the loop ends: by returning, by the process ending under it, or with
no defined behaviour. -/
inductive Stopped where
  | returned
  | exited
  | misread
  deriving DecidableEq, Repr

/-- The table `main` hands the parser. -/
def initialPrecedence : Char → Int
  | '=' => 2
  | '<' => 10
  | '+' => 20
  | '-' => 20
  | '*' => 40
  | _ => 0

/-- The driver at the start of `mainLoop`, the first token read. -/
def Session.start (strtod : String → Double) (useJIT : Bool) (input : List UInt8) : Session where
  tokens := (Lexer.init input).tokens strtod
  builder := .initial initialPrecedence
  jit := if useJIT then some .empty else none
  definitions := []

/-- `initializeModuleAndManagers`. -/
def initializeModuleAndManagers (b : Builder) : Builder := { b with module := .empty }

/-- A `ParserException` is reported, and one token skipped. -/
def Session.skip (s : Session) (left : List Lexeme) : Session := { s with tokens := left.tail }

/-- `Driver::handleDefinition`. -/
def handleDefinition (A : Arith) (E : Jit) (s : Session) : Except Stopped Session :=
  match parseDefinition s.builder.binopPrecedence s.tokens with
  | .error _ left => .ok (s.skip left)
  | .ok ast left =>
      match ast.codegen A s.builder with
      | .error .misread _ => .error .misread
      | .error (.exception _) b => .ok { s with tokens := left, builder := b }
      | .ok _ b =>
          let s := { s with
            tokens := left
            builder := b
            definitions := s.definitions ++ [ast.prototype] }
          match s.jit with
          | none => .ok s
          | some d =>
              if E.addModule d b.module then
                .ok { s with
                  builder := initializeModuleAndManagers b
                  jit := some (d.add b.module) }
              else
                .error .exited

/-- `Driver::handleExtern`. -/
def handleExtern (s : Session) : Except Stopped Session :=
  match parseExtern s.tokens with
  | .error _ left => .ok (s.skip left)
  | .ok ast left =>
      match ast.codegen s.builder with
      | .error .misread _ => .error .misread
      | .error (.exception _) b => .ok { s with tokens := left, builder := b }
      | .ok _ b => .ok { s with
          tokens := left
          builder := { b with protos := b.protos.insert ast } }

/-- `Driver::handleTopLevelExpression`. The module added for the expression is
removed again once it has run. -/
def handleTopLevelExpression (A : Arith) (E : Jit) (s : Session) : Except Stopped Session :=
  match parseTopLevelExpr s.builder.binopPrecedence s.tokens with
  | .error _ left => .ok (s.skip left)
  | .ok ast left =>
      match ast.codegen A s.builder with
      | .error .misread _ => .error .misread
      | .error (.exception _) b => .ok { s with tokens := left, builder := b }
      | .ok _ b =>
          let s := { s with tokens := left, builder := b }
          match s.jit with
          | none => .ok s
          | some d =>
              if E.addModule d b.module then
                match E.evaluate (d.add b.module) with
                | none => .error .exited
                | some found =>
                    .ok { s with
                      builder := initializeModuleAndManagers b
                      jit := some (d.resolve found) }
              else
                .error .exited

/-- One round of `Driver::mainLoop`. -/
def round (A : Arith) (E : Jit) (s : Session) : Except Stopped Session :=
  match current s.tokens with
  | .eof => .error .returned
  | .def_ => handleDefinition A E s
  | .extern_ => handleExtern s
  | t =>
      if t = .chr ';' then
        .ok { s with tokens := s.tokens.tail }
      else
        handleTopLevelExpression A E s

/-- `Driver::mainLoop` on a bound for the number of rounds. -/
def mainLoop (A : Arith) (E : Jit) : Nat → Session → Option Stopped
  | 0, _ => none
  | n + 1, s =>
      match round A E s with
      | .error r => some r
      | .ok s => mainLoop A E n s

/-- The session after a round that had a next one. -/
def next (A : Arith) (E : Jit) (s : Session) : Option Session :=
  match round A E s with
  | .error _ => none
  | .ok s => some s

/-- The sessions a driver comes to on an input, in either mode. -/
def Reachable (A : Arith) (E : Jit) (s : Session) : Prop :=
  ∃ strtod useJIT input, Transition.Reaches (next A E) (.start strtod useJIT input) s

/-- The item at hand is a definition or a top-level expression, and parses. -/
inductive Session.Reads (s : Session) : FunctionAST → List Lexeme → Prop
  | definition {f : FunctionAST} {left : List Lexeme} (htok : current s.tokens = .def_)
      (hparse : parseDefinition s.builder.binopPrecedence s.tokens = .ok f left) :
      Session.Reads s f left
  | topLevel {f : FunctionAST} {left : List Lexeme}
      (htok : current s.tokens ∉ [.eof, .def_, .extern_, .chr ';'])
      (hparse : parseTopLevelExpr s.builder.binopPrecedence s.tokens = .ok f left) :
      Session.Reads s f left

end LlvmPasses.Kaleido
