import Shading.Stage
import Shading.Token
import Shading.Tree

/-!
# Parsing: state and tokens

A parser reads tokens and declares names as it goes, so that a name has
to be declared before it is used. It carries the source text for the
excerpts of its complaints.
-/

namespace Shading

/-- **What a parser has before it**: the tokens still to be read and the
names declared so far. -/
structure ParserState where
  /-- The source text, which only excerpts show. -/
  source : List Char
  /-- The tokens still to be read. -/
  rest : List Token
  declarations : Declarations
  /-- The function whose definition is being read. -/
  function : Option FunctionId := none

/-- **A parser**, which reads some tokens or fails. -/
abbrev Parser (α : Type) := StateT ParserState (Except Error) α

namespace Parser

/-! ## Failing -/

/-- Complains about a position. -/
def failAt {α : Type} (p : Position) (cause : Complaint) : Parser α :=
  fun s => .error (.ofComplaint s.source p cause)

/-- Complains about the next token, or about the end of the tokens. -/
def failHere {α : Type} (cause : Complaint) : Parser α := fun s =>
  match s.rest with
  | [] => .error (.unexpectedEnd cause)
  | t :: _ => .error (.ofComplaint s.source t.position cause)

/-! ## Tokens -/

/-- The next token. -/
def peek? : Parser (Option Token) := fun s => .ok (s.rest.head?, s)

/-- Passes over the next token. -/
def skip : Parser Unit := fun s => .ok ((), { s with rest := s.rest.tail })

/-- Whether the next token is of a kind. -/
def sees (kind : TokenKind) : Parser Bool := do
  return (← peek?).any (fun t => t.kind == kind)

/-- Passes over the next token if it is of a kind, and says whether it
was. -/
def accept (kind : TokenKind) : Parser Bool := do
  if ← sees kind then
    skip
    return true
  else return false

/-- Reads a token of a kind, and complains if another one stands
here. -/
def expect (kind : TokenKind) (cause : Complaint) : Parser Token := do
  match ← peek? with
  | some t =>
    if t.kind = kind then
      skip
      return t
    else failHere cause
  | none => failHere cause

/-- The number of tokens still to be read, which bounds every
repetition. -/
def remaining : Parser Nat := fun s => .ok (s.rest.length, s)

/-! ## Declarations -/

/-- The names declared so far. -/
def declarations : Parser Declarations := fun s => .ok (s.declarations, s)

/-- The function whose definition is being read. -/
def currentFunction : Parser (Option FunctionId) := fun s => .ok (s.function, s)

/-- Declares the variable or function that a token names. A name that is
visible already is refused. -/
def declare (name : Token) (scope : SymbolScope) (kind : SymbolKind) (ty : Ty) :
    Parser SymbolId := do
  let owner ← match scope with
    | .global => pure none
    | .local => currentFunction
  let symbols := (← declarations).symbols
  match symbols.find? name.lexeme owner with
  | some existing =>
    if (symbols.get? existing).any Symbol.intrinsic then
      failAt name.position (.shadowsIntrinsic name.lexeme)
    else failAt name.position (.redefined name.lexeme)
  | none =>
    match symbols.add? name.lexeme scope kind ty owner (some name.position) with
    | none => failAt name.position (.redefined name.lexeme)
    | some (id, symbols) =>
      modify fun s => { s with declarations := { s.declarations with symbols } }
      return id

/-- Changes the table of functions. -/
def modifyFunctions (f : FunctionTable → FunctionTable) : Parser Unit :=
  modify fun s =>
    { s with declarations := { s.declarations with functions := f s.declarations.functions } }

end Parser

end Shading
