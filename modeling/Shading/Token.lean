import Shading.Position
import Shading.Ty

/-!
# Tokens

A token is a piece of source text with its kind and the position of its
first character.
-/

namespace Shading

/-- **The kinds of token.** -/
inductive TokenKind where
  -- types
  | void
  | int
  | float
  | bool
  | vec3
  | vec4
  | mat3x3
  | mat4x4
  -- decorators
  | exportMark
  | uniformMark
  | interpolatedMark
  -- control
  | ifWord
  | elseWord
  | whileWord
  | forWord
  | returnWord
  -- operators
  | assign
  | addAssign
  | subtractAssign
  | multiplyAssign
  | divideAssign
  | add
  | subtract
  | multiply
  | divide
  | equals
  | notEquals
  | less
  | lessEquals
  | greater
  | greaterEquals
  | logicalNot
  | logicalAnd
  | logicalOr
  -- punctuation
  | squareLeft
  | squareRight
  | roundLeft
  | roundRight
  | curlyLeft
  | curlyRight
  | comma
  | semicolon
  -- literals and names
  | boolLiteral
  | floatLiteral
  | intLiteral
  | identifier
deriving DecidableEq

namespace TokenKind

/-- Every kind of token. -/
def all : List TokenKind :=
  [void, int, float, bool, vec3, vec4, mat3x3, mat4x4,
    exportMark, uniformMark, interpolatedMark,
    ifWord, elseWord, whileWord, forWord, returnWord,
    assign, addAssign, subtractAssign, multiplyAssign, divideAssign,
    add, subtract, multiply, divide,
    equals, notEquals, less, lessEquals, greater, greaterEquals,
    logicalNot, logicalAnd, logicalOr,
    squareLeft, squareRight, roundLeft, roundRight, curlyLeft, curlyRight,
    comma, semicolon,
    boolLiteral, floatLiteral, intLiteral, identifier]

/-- The name a message calls the kind by. -/
def name : TokenKind → String
  | void => "Void"
  | int => "Int"
  | float => "Float"
  | bool => "Bool"
  | vec3 => "Vec3"
  | vec4 => "Vec4"
  | mat3x3 => "Mat3x3"
  | mat4x4 => "Mat4x4"
  | exportMark => "Export"
  | uniformMark => "Uniform"
  | interpolatedMark => "Interpolated"
  | ifWord => "If"
  | elseWord => "Else"
  | whileWord => "While"
  | forWord => "For"
  | returnWord => "Return"
  | assign => "Assign"
  | addAssign => "AddAssign"
  | subtractAssign => "SubtractAssign"
  | multiplyAssign => "MultiplyAssign"
  | divideAssign => "DivideAssign"
  | add => "Add"
  | subtract => "Subtract"
  | multiply => "Multiply"
  | divide => "Divide"
  | equals => "Equals"
  | notEquals => "NotEquals"
  | less => "Less"
  | lessEquals => "LessEquals"
  | greater => "Greater"
  | greaterEquals => "GreaterEquals"
  | logicalNot => "LogicalNot"
  | logicalAnd => "LogicalAnd"
  | logicalOr => "LogicalOr"
  | squareLeft => "SquareBracketLeft"
  | squareRight => "SquareBracketRight"
  | roundLeft => "RoundBracketLeft"
  | roundRight => "RoundBracketRight"
  | curlyLeft => "CurlyBracketLeft"
  | curlyRight => "CurlyBracketRight"
  | comma => "Comma"
  | semicolon => "Semicolon"
  | boolLiteral => "BoolLiteral"
  | floatLiteral => "FloatLiteral"
  | intLiteral => "IntLiteral"
  | identifier => "Identifier"

/-- The kind with a given name. -/
def ofName? (s : String) : Option TokenKind :=
  all.find? (fun k => k.name == s)

/-- The type that a type keyword names. -/
def ty? : TokenKind → Option Ty
  | void => some .void
  | int => some .int
  | float => some .float
  | bool => some .bool
  | vec3 => some .vec3
  | vec4 => some .vec4
  | mat3x3 => some .mat3x3
  | mat4x4 => some .mat4x4
  | _ => none

/-- A keyword that names a type. -/
def isType (k : TokenKind) : Bool := k.ty?.isSome

/-- A literal value. -/
def isLiteral : TokenKind → Bool
  | boolLiteral | floatLiteral | intLiteral => true
  | _ => false

/-- A word that decorates a declaration. -/
def isDecorator : TokenKind → Bool
  | exportMark | uniformMark | interpolatedMark => true
  | _ => false

end TokenKind

/-- **A token.** -/
structure Token where
  kind : TokenKind
  /-- The source text the token was read from. -/
  lexeme : String
  /-- The position of the first character. -/
  position : Position
deriving DecidableEq

end Shading
