import LlvmPasses.Lib.TokenParser
import LlvmPasses.Kaleido.Ast
import LlvmPasses.Kaleido.Lexer

/-!
# The parser

`parser.cpp`'s recursive descent. The state is the tokens still to come, the
current one first: `getNextToken` drops it, and past the end of the list the
current token is `Eof` for good, as it is for a lexer at the end of its input.

Each parse function has the source's name, takes the precedence table the
`Parser` object holds, and spends one unit of fuel per call; `fuelFor` is the
budget the entry points start from, and `Proofs/ParserTotal.lean` shows that
it is never the reason a parse stops. `binopPrecedence_[c]` inserts a zero
when it finds nothing, so the table is a total function, zero where nothing
was set.
-/

namespace LlvmPasses.Kaleido

open TokenParser

abbrev ParseM (α : Type) := TokenParser Lexeme α

/-- `currentToken_`. -/
def current (s : List Lexeme) : Token :=
  match s with
  | [] => .eof
  | x :: _ => x.tok

def isAscii (c : Char) : Bool := c.toNat < 128

/-- The cast of `currentToken_` to `char`. The enumerators are negative and
never cast: their precedence is -1, and no caller asks for one that low. -/
def Token.toChar : Token → Char
  | .chr c => c
  | _ => '\x00'

def peek : ParseM Token := fun s => .ok (current s) s

def getNextToken : ParseM Unit := fun s => .ok () s.tail

/-- `lexer_.getIdentifier()`, the register as the current token left it. -/
def getIdentifier : ParseM String := fun s => .ok (s.head?.elim "" Lexeme.identifier) s

/-- `lexer_.getNumber()`. -/
def getNumber : ParseM Double := fun s => .ok (s.head?.elim Double.zero Lexeme.number) s

def fail {α : Type} (what : String) : ParseM α := throw (.exception what)

/-- Throw unless the current token is `t`. -/
def check (t : Token) (what : String) : ParseM Unit := do
  if (← peek) = t then pure () else fail what

/-- The check followed by the `getNextToken` that consumes the token. -/
def expect (t : Token) (what : String) : ParseM Unit := do
  check t what
  getNextToken

/-- `Parser::getTokPrecedence`. -/
def getTokPrecedence (prec : Char → Int) : Token → Int
  | .chr c => if isAscii c then (if prec c ≤ 0 then -1 else prec c) else -1
  | _ => -1

/-- What `parseUnary` takes for a unary operator. -/
def isUnaryChar (c : Char) : Bool := isAscii c && c != '(' && c != ','

def parseNumberExpr : ParseM Expr := do
  let result := Expr.number (← getNumber)
  getNextToken
  pure result

mutual

def parseParenExpr (prec : Char → Int) : Nat → ParseM Expr
  | 0 => throw .outOfFuel
  | n + 1 => do
      getNextToken
      let v ← parseExpression prec n
      expect (.chr ')') "Expected ')'"
      pure v

def parseIdentifierExpr (prec : Char → Int) : Nat → ParseM Expr
  | 0 => throw .outOfFuel
  | n + 1 => do
      let ident ← getIdentifier
      getNextToken
      if (← peek) ≠ .chr '(' then
        pure (.variable ident)
      else
        getNextToken
        let closing ← peek
        let args ← (if closing = .chr ')' then pure [] else parseArgs prec n)
        getNextToken
        pure (.call ident args)

/-- The argument loop: leaves the closing parenthesis current. -/
def parseArgs (prec : Char → Int) : Nat → ParseM (List Expr)
  | 0 => throw .outOfFuel
  | n + 1 => do
      let arg ← parseExpression prec n
      if (← peek) = .chr ')' then
        pure [arg]
      else
        expect (.chr ',') "Expected ')' or ',' in argument list"
        let args ← parseArgs prec n
        pure (arg :: args)

def parseIfExpr (prec : Char → Int) : Nat → ParseM Expr
  | 0 => throw .outOfFuel
  | n + 1 => do
      getNextToken
      let cond ← parseExpression prec n
      expect .then_ "Expected then"
      let thn ← parseExpression prec n
      expect .else_ "Expected else"
      let els ← parseExpression prec n
      pure (.ifElse cond thn els)

def parseForExpr (prec : Char → Int) : Nat → ParseM Expr
  | 0 => throw .outOfFuel
  | n + 1 => do
      getNextToken
      check .identifier "Expected identifier after for"
      let idName ← getIdentifier
      getNextToken
      expect (.chr '=') "Expected '=' after for"
      let start ← parseExpression prec n
      expect (.chr ',') "Expected ',' after for start value"
      let fin ← parseExpression prec n
      let step ← parseOptional prec n (.chr ',')
      expect .in_ "Expected 'in' after for"
      let body ← parseExpression prec n
      pure (.forIn idName start fin step body)

/-- An expression introduced by `t`, if `t` is the current token: the step of
a `for`, the initialiser of a `var`. -/
def parseOptional (prec : Char → Int) : Nat → Token → ParseM (Option Expr)
  | 0, _ => throw .outOfFuel
  | n + 1, t => do
      if (← peek) = t then
        getNextToken
        let e ← parseExpression prec n
        pure (some e)
      else
        pure none

def parseVarExpr (prec : Char → Int) : Nat → ParseM Expr
  | 0 => throw .outOfFuel
  | n + 1 => do
      getNextToken
      check .identifier "Expected identifier after the var"
      let varNames ← parseVarNames prec n
      expect .in_ "Expected 'in' keyword after 'var'"
      let body ← parseExpression prec n
      pure (.varIn varNames body)

/-- The name loop of `parseVarExpr`, entered with an identifier current. -/
def parseVarNames (prec : Char → Int) : Nat → ParseM (List (String × Option Expr))
  | 0 => throw .outOfFuel
  | n + 1 => do
      let name ← getIdentifier
      getNextToken
      let init ← parseOptional prec n (.chr '=')
      if (← peek) ≠ .chr ',' then
        pure [(name, init)]
      else
        getNextToken
        check .identifier "Expected identifier list after var"
        let rest ← parseVarNames prec n
        pure ((name, init) :: rest)

def parsePrimary (prec : Char → Int) : Nat → ParseM Expr
  | 0 => throw .outOfFuel
  | n + 1 => do
      match ← peek with
      | .number => parseNumberExpr
      | .identifier => parseIdentifierExpr prec n
      | .chr '(' => parseParenExpr prec n
      | .if_ => parseIfExpr prec n
      | .for_ => parseForExpr prec n
      | .var => parseVarExpr prec n
      | _ => fail "Unknown token when expecting an expression"

def parseExpression (prec : Char → Int) : Nat → ParseM Expr
  | 0 => throw .outOfFuel
  | n + 1 => do
      let lhs ← parseUnary prec n
      parseBinOpRHS prec n 0 lhs

def parseUnary (prec : Char → Int) : Nat → ParseM Expr
  | 0 => throw .outOfFuel
  | n + 1 => do
      match ← peek with
      | .chr c =>
          if isUnaryChar c then
            getNextToken
            let operand ← parseUnary prec n
            pure (.unary c operand)
          else
            parsePrimary prec n
      | _ => parsePrimary prec n

/-- One round of the loop, then the loop again. -/
def parseBinOpRHS (prec : Char → Int) : Nat → Int → Expr → ParseM Expr
  | 0, _, _ => throw .outOfFuel
  | n + 1, minPrec, lhs => do
      let tokPrec := getTokPrecedence prec (← peek)
      if tokPrec < minPrec then
        pure lhs
      else
        let binOp := (← peek).toChar
        getNextToken
        let rhs ← parseUnary prec n
        let nextPrec := getTokPrecedence prec (← peek)
        let rhs ← (if tokPrec < nextPrec then parseBinOpRHS prec n (tokPrec + 1) rhs
          else pure rhs)
        parseBinOpRHS prec n minPrec (.binary binOp lhs rhs)

end

/-! ## Prototypes and items -/

/-- `ParsePrototypeType`, and the number of operands each kind takes. -/
inductive PrototypeKind where
  | identifier
  | unary
  | binary
  deriving DecidableEq

def PrototypeKind.operands : PrototypeKind → Nat
  | .identifier => 0
  | .unary => 1
  | .binary => 2

/-- The operator character of an operator prototype. -/
def parseOperatorChar (what : String) : ParseM Char := do
  match ← peek with
  | .chr c =>
      if isAscii c then
        getNextToken
        pure c
      else
        fail what
  | _ => fail what

/-- The optional precedence of a binary operator, 30 when it is left out. -/
def parsePrecedence : ParseM Nat := do
  if (← peek) = .number then
    let value ← getNumber
    if value.lt Double.one || Double.hundred.lt value then
      fail "Invalid precedence: must be 1..100"
    else
      getNextToken
      pure value.truncate
  else
    pure 30

/-- The head of a prototype: name, kind and precedence. -/
def parsePrototypeHead : ParseM (String × PrototypeKind × Nat) := do
  match ← peek with
  | .identifier =>
      let fnName ← getIdentifier
      getNextToken
      pure (fnName, .identifier, 30)
  | .unary =>
      getNextToken
      let c ← parseOperatorChar "Expected unary operator"
      pure ("unary".push c, .unary, 30)
  | .binary =>
      getNextToken
      let c ← parseOperatorChar "Expected binary operator"
      let binaryPrecedence ← parsePrecedence
      pure ("binary".push c, .binary, binaryPrecedence)
  | _ => fail "Expected function name in prototype"

/-- The parameter loop: its condition advances the lexer, so it is entered
with the opening parenthesis or a comma current. -/
def parseArgNames : Nat → ParseM (List String)
  | 0 => throw .outOfFuel
  | n + 1 => do
      getNextToken
      if (← peek) = .identifier then
        let name ← getIdentifier
        getNextToken
        if (← peek) = .chr ')' then
          pure [name]
        else
          check (.chr ',') "Expected ')' or ',' in argument list"
          let names ← parseArgNames n
          pure (name :: names)
      else
        pure []

def parsePrototypeOn (n : Nat) : ParseM Prototype := do
  let (fnName, kind, binaryPrecedence) ← parsePrototypeHead
  check (.chr '(') "Expected '(' in prototype"
  let argNames ← parseArgNames n
  expect (.chr ')') "Expected ')' in prototype"
  if kind ≠ .identifier ∧ argNames.length ≠ kind.operands then
    fail "Invalid number of operands for operator"
  else
    pure { name := fnName, args := argNames, isOperator := kind ≠ .identifier,
           precedence := binaryPrecedence }

def parseDefinitionOn (prec : Char → Int) (n : Nat) : ParseM FunctionAST := do
  getNextToken
  let proto ← parsePrototypeOn n
  let expr ← parseExpression prec n
  pure { prototype := proto, body := expr }

def parseTopLevelExprOn (prec : Char → Int) (n : Nat) : ParseM FunctionAST := do
  let expr ← parseExpression prec n
  pure { prototype := { name := "__anon_expr", args := [] }, body := expr }

def parseExternOn (n : Nat) : ParseM Prototype := do
  getNextToken
  parsePrototypeOn n

/-- A budget that covers every parse of `s`: eight units for each token, and
eight where the tokens have run out. -/
def fuelFor (s : List Lexeme) : Nat := 8 * s.length + 8

/-- Run a fuelled parser on the budget its own input calls for. -/
def onFuel {α : Type} (p : Nat → ParseM α) : ParseM α := fun s => p (fuelFor s) s

def parsePrototype : ParseM Prototype := onFuel parsePrototypeOn

def parseDefinition (prec : Char → Int) : ParseM FunctionAST :=
  onFuel (parseDefinitionOn prec)

def parseTopLevelExpr (prec : Char → Int) : ParseM FunctionAST :=
  onFuel (parseTopLevelExprOn prec)

def parseExtern : ParseM Prototype := onFuel parseExternOn

end LlvmPasses.Kaleido
