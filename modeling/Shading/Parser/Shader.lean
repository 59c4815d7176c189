import Shading.Parser.Expression
import Shading.Token.Scan

/-!
# Parsing statements and declarations

A shader is a sequence of global variables and functions. A function
body is a list of statements in braces; statements nest only through
such lists, and reading one starts with its brace, so the number of
tokens bounds the depth.
-/

namespace Shading.Parser

/-! ## Statements -/

/-- Reads the name of a type and an identifier. -/
def typedName : Parser (Ty × Token) := do
  match (← peek?).bind (fun t => t.kind.ty?) with
  | none => failHere .expectedTypeName
  | some ty =>
    skip
    let name ← expect .identifier .expectedIdentifier
    return (ty, name)

/-- Reads an expression of type `bool`. -/
def boolExpression : Parser Expr := do
  let start ← peek?
  let e ← expression
  if e.ty = .bool then return e
  else
    match start with
    | some t => failAt t.position (.condition e.ty)
    | none => failHere (.condition e.ty)

/-- Reads a condition in parentheses. -/
def condition : Parser Expr := do
  let _ ← expect .roundLeft (.expected "(")
  let e ← boolExpression
  let _ ← expect .roundRight (.expected ")")
  return e

/-- Reads the declaration of a local. The local is declared behind its
first value, which therefore cannot name it. -/
def localVariable : Parser Statement := do
  let (ty, name) ← typedName
  if ty = .void then failAt name.position .voidVariable
  else
    let initialiser ←
      match ← peek? with
      | some t =>
        if t.kind = .assign then do
          skip
          let value ← expression
          if ty.assignable value.ty then pure (some value)
          else failAt t.position (.initialiser ty value.ty)
        else pure none
      | none => pure none
    let _ ← expect .semicolon .missingSemicolon
    let symbol ← declare name .local .variable ty
    match ← currentFunction with
    | some f => modifyFunctions (fun t => t.addLocal f symbol)
    | none => pure ()
    return .localVariable symbol initialiser

/-- Reads a return statement behind its keyword. -/
def returnOf (keyword : Token) : Parser Statement := do
  let expected := ((← currentFunction).map (← declarations).returnTy).getD .void
  if ← accept .semicolon then
    if expected = .void then return .ret none
    else failAt keyword.position (.missingReturnValue expected)
  else
    let value ← expression
    if expected != .void && expected.assignable value.ty then
      let _ ← expect .semicolon .missingSemicolon
      return .ret (some value)
    else failAt keyword.position (.returned value.ty expected)

/-- Reads the rest of a choice behind its keyword, with at most as many
further choices chained to it as `budget` says. -/
def choiceOf (block : Parser (List Statement)) : (budget : Nat) → Parser IfStatement
  | 0 => failHere .expectedListStart
  | budget + 1 => do
    let c ← condition
    let body ← block
    if ← accept .elseWord then
      if ← accept .ifWord then return .mk c body (.chain (← choiceOf block budget))
      else return .mk c body (.block (← block))
    else return .mk c body .none

/-- Reads the rest of a `for` loop behind its keyword. -/
def forOf (block : Parser (List Statement)) : Parser Statement := do
  let _ ← expect .roundLeft (.expected "(")
  let first ← expression
  let _ ← expect .semicolon .missingSemicolon
  let c ← boolExpression
  let _ ← expect .semicolon .missingSemicolon
  let step ← expression
  let _ ← expect .roundRight (.expected ")")
  return .forLoop first c step (← block)

/-- Reads an expression and its semicolon. -/
def expressionStatement : Parser Statement := do
  let e ← expression
  let _ ← expect .semicolon .missingSemicolon
  return .expression e

/-- Reads a statement; `block` reads a list of statements in braces. -/
def statement (block : Parser (List Statement)) : Parser Statement := do
  match ← peek? with
  | none => expressionStatement
  | some t =>
    if t.kind.isType then localVariable
    else
      match t.kind with
      | .ifWord => do
        skip
        let budget ← remaining
        return .branch (← choiceOf block (budget + 1))
      | .whileWord => do
        skip
        let c ← condition
        return .whileLoop c (← block)
      | .forWord => do
        skip
        forOf block
      | .returnWord => do
        skip
        returnOf t
      | _ => expressionStatement

/-- Reads statements up to the brace that closes their list. A semicolon
alone is an empty statement and is passed over. -/
def statementsUntilBrace (block : Parser (List Statement)) :
    (budget : Nat) → Parser (List Statement)
  | 0 => failHere .expectedListEnd
  | budget + 1 => do
    match ← peek? with
    | none => failHere .expectedListEnd
    | some t =>
      if t.kind = .curlyRight then
        skip
        return []
      else if t.kind = .semicolon then
        skip
        statementsUntilBrace block budget
      else
        let s ← statement block
        return s :: (← statementsUntilBrace block budget)

/-- Reads a list of statements in braces, nested at most as deep as
`budget` says. -/
def blockWithin : (budget : Nat) → Parser (List Statement)
  | 0 => failHere .expectedListStart
  | budget + 1 => do
    let _ ← expect .curlyLeft .expectedListStart
    let count ← remaining
    statementsUntilBrace (blockWithin budget) (count + 1)

/-- **Reads a list of statements in braces.** -/
def block : Parser (List Statement) := do
  let budget ← remaining
  blockWithin (budget + 1)

/-! ## Declarations -/

/-- Reads the words in front of a declaration. -/
def decoratorsFrom : (budget : Nat) → Decorators → Parser Decorators
  | 0, d => return d
  | budget + 1, d => do
    match ← peek? with
    | none => return d
    | some t =>
      match t.kind with
      | .exportMark => do
        skip
        decoratorsFrom budget { d with isExported := true }
      | .uniformMark => do
        skip
        decoratorsFrom budget { d with uniform := true }
      | .interpolatedMark => do
        skip
        decoratorsFrom budget { d with interpolated := true }
      | _ => return d

/-- Reads the rest of a global variable behind its name. -/
def globalOf (decorators : Decorators) (ty : Ty) (name : Token) : Parser Item := do
  let _ ← expect .semicolon .missingSemicolon
  if ty = .void then failAt name.position .voidVariable
  else return .global (← declare name .global .variable ty) decorators

/-- Reads parameters with commas between them. -/
def parametersOf (f : FunctionId) : (budget : Nat) → Parser Unit
  | 0 => failHere .expectedTypeName
  | budget + 1 => do
    let (ty, name) ← typedName
    if ty = .void then failAt name.position .voidVariable
    else
      let symbol ← declare name .local .variable ty
      modifyFunctions (fun t => t.addParameter f symbol)
      if ← accept .comma then parametersOf f budget else return ()

/-- Declares the function that a token names. -/
def declareFunction (decorators : Decorators) (returnTy : Ty) (name : Token) :
    Parser FunctionId := do
  let symbol ← declare name .global .function .function
  match (← declarations).functions.add? name.lexeme symbol returnTy decorators.isExported with
  | none => failAt name.position (.redefined name.lexeme)
  | some (id, functions) =>
    modifyFunctions (fun _ => functions)
    return id

/-- Reads the rest of a function behind its name. -/
def functionOf (decorators : Decorators) (returnTy : Ty) (name : Token) : Parser Item := do
  if decorators.uniform then failAt name.position (.decoratedFunction "uniform")
  else if decorators.interpolated then failAt name.position (.decoratedFunction "interpolated")
  else
    let id ← declareFunction decorators returnTy name
    modify fun s => { s with function := some id }
    let _ ← expect .roundLeft (.expected "(")
    if !(← sees .roundRight) then
      let budget ← remaining
      parametersOf id (budget + 1)
    let _ ← expect .roundRight (.expected ")")
    let body ← block
    modify fun s => { s with function := none }
    return .function id name.lexeme decorators body

/-- Reads a declaration. -/
def item : Parser Item := do
  let budget ← remaining
  let decorators ← decoratorsFrom budget {}
  match (← peek?).bind (fun t => t.kind.ty?) with
  | none =>
    failHere (if decorators.isEmpty then .expectedDeclaration else .expectedTypeName)
  | some ty =>
    skip
    let name ← expect .identifier .expectedIdentifier
    if ← sees .roundLeft then functionOf decorators ty name
    else globalOf decorators ty name

/-- Reads declarations to the end of the tokens. -/
def itemsWithin : (budget : Nat) → Parser (List Item)
  | 0 => return []
  | budget + 1 => do
    match ← peek? with
    | none => return []
    | some _ =>
      let i ← item
      return i :: (← itemsWithin budget)

/-- Reads declarations to the end of the tokens, each of which takes at
least one. -/
def items : Parser (List Item) := do
  let budget ← remaining
  itemsWithin budget

end Shading.Parser

namespace Shading

/-- The state of a parser at the start of some tokens, with the names of
a stage declared. -/
def ParserState.start (stage : Stage) (source : String) (tokens : List Token) :
    Except Error ParserState := do
  let declarations ← Declarations.addStage {} stage
  return { source := source.toList, rest := tokens, declarations }

namespace Shader

/-- **The shader that tokens write** for a stage. The source serves for
excerpts alone. -/
def ofTokens (stage : Stage) (source : String) (tokens : List Token) : Except Error Shader := do
  let start ← ParserState.start stage source tokens
  let (items, s) ← Parser.items start
  return ⟨items, s.declarations⟩

/-- **The shader that a source text writes** for a stage. -/
def parse (stage : Stage) (source : String) : Except Error Shader := do
  ofTokens stage source (← tokenize source)

end Shader

/-- The expression at the start of a source text, read outside of any
function. -/
def Expr.parse (stage : Stage) (source : String) : Except Error Expr := do
  let start ← ParserState.start stage source (← tokenize source)
  let (e, _) ← Parser.expression start
  return e

end Shading
