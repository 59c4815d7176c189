import Shading.Location
import Shading.Operator
import Shading.Token
import Shading.Text.Excerpt

/-!
# What can go wrong

An error is a cause. Each family of causes has one function that words
it, and `Error.message` puts the wording behind the words that
introduce the family.
-/

namespace Shading

/-! ## Causes -/

/-- **Why no token could be read.** -/
inductive LexFault where
  /-- No definition matches. -/
  | unmatched
  /-- A pattern matched without taking a character. -/
  | stalled (kind : TokenKind)
deriving DecidableEq

/-- **Why a token was refused by the grammar or the type rules.** -/
inductive Complaint where
  | expectedDeclaration
  | expectedTypeName
  | expectedIdentifier
  | missingSemicolon
  /-- A bracket, comma or the like that has to stand here. -/
  | expected (token : String)
  | expectedListStart
  | expectedListEnd
  | expectedExpression
  | voidVariable
  | decoratedFunction (decorator : String)
  | redefined (name : String)
  | shadowsIntrinsic (name : String)
  | undefined (name : String)
  | initialiser (slot value : Ty)
  | missingReturnValue (expected : Ty)
  | returned (value expected : Ty)
  | condition (given : Ty)
  | constantTarget
  | assigned (slot value : Ty)
  | compared (lhs rhs : Ty)
  | combined (op : BinaryOp) (lhs rhs : Ty)
  | negated
  | inverted
  | subscripted (base : Ty)
  | subscriptNotIntegral
  | notFunction (name : String)
  | calleeNotName
  | argumentCount (name : String) (expected given : Nat)
  | argument (number : Nat) (name : String) (expected given : Ty)
  | integerRange
  | floatForm
deriving DecidableEq

/-- **Why storage or a distance could not be laid out.** -/
inductive LayoutFault where
  /-- The type has no size. -/
  | noStorage (ty : Ty)
  /-- Every register of the class is leased or in use by an operand. -/
  | noRegister (cls : RegisterClass)
  /-- A jump to a byte displacement is too far. -/
  | shortJump (distance : Int)
  /-- A jump to a 32-bit displacement is too far. -/
  | longJump (distance : Int)
  /-- A reference to the global region is too far. -/
  | relocation (distance : Int)
  /-- A call of the trampoline is too far. -/
  | trampolineCall (distance : Int)
  /-- The local region starts too far on. -/
  | localRegion (offset : Nat)
  /-- The trampoline came out longer or shorter than foreseen. -/
  | trampolineSize (given reserved : Nat)
  /-- A global is neither in memory nor staged in memory. -/
  | globalPlacement (name : String) (location : Location)
deriving DecidableEq

/-- **Why a typed tree has no code.** -/
inductive TreeFault where
  | whileLoop
  | forLoop
  | relationalValue (op : RelationalOp)
  | noStorage (name : String)
  | subscripted (base : Ty)
  | subscriptedAt (location : Location)
  | notLane
  | undefinedOperation (op : BinaryOp) (lhs rhs : Ty)
  | notRegister (location : Location)
  | noOperand (location : Location)
  | duplicateIntrinsic (name : String)
  | duplicateParameter (name : String)
deriving DecidableEq

/-- **What the language has and the generator does not.** -/
inductive Feature where
  | vectorComparison
  | functionCall
  | intrinsic (name : String)
deriving DecidableEq

/-- **Which access left a memory block.** -/
inductive BlockFault where
  | write (bytes offset : Nat)
  | read (bytes offset : Nat)
  | entry (offset : Nat)
deriving DecidableEq

/-- **What the host offered for a global** of another type. -/
inductive HostOffer where
  /-- A value, by the name of its host type. -/
  | value (typeName : String)
  /-- So many bytes. -/
  | bytes (count : Nat)
deriving DecidableEq

/-- **An error.** -/
inductive Error where
  /-- No token could be read at a position. -/
  | lex (fault : LexFault) (position : Position)
  /-- A token was refused; the excerpt shows it in its source. -/
  | complaint (cause : Complaint) (position : Position) (excerpt : String)
  /-- The tokens ended where something was still to come. -/
  | unexpectedEnd (cause : Complaint)
  | layout (fault : LayoutFault)
  | malformedTree (fault : TreeFault)
  | unsupported (feature : Feature)
  /-- No exported function is called `main`. -/
  | missingEntryPoint
  | unknownGlobal (name : String)
  | globalTypeMismatch (name : String) (expected : Ty) (offer : HostOffer)
  /-- The global lives in a register and has no readable bytes. -/
  | registerResident (name : String)
  | outsideBlock (fault : BlockFault)
  /-- A token pattern is not well formed. -/
  | tokenPattern (pattern : String)
  /-- An options document is not well formed. -/
  | configuration
deriving DecidableEq

/-! ## Wording -/

/-- The words for a token that could not be read at a position. -/
def LexFault.message (p : Position) : LexFault → String
  | unmatched =>
    "Unable to match token at line " ++ Text.ofNat p.line ++ ", column " ++ Text.ofNat p.column
  | stalled kind =>
    "Token definition " ++ kind.name ++ " did not advance stream at line " ++ Text.ofNat p.line
      ++ ", column " ++ Text.ofNat p.column

/-- What an arithmetic operator does, in a message, and the word between
its operands. -/
def BinaryOp.verb : BinaryOp → String × String
  | add => ("add", "and")
  | subtract => ("subtract", "and")
  | multiply => ("multiply", "by")
  | divide => ("divide", "by")

/-- Words between two types in quotes. -/
def quotedPair (lhs : Ty) (between : String) (rhs : Ty) : String :=
  "'" ++ lhs.name ++ "' " ++ between ++ " '" ++ rhs.name ++ "'"

/-- The words for a refused token. -/
def Complaint.message : Complaint → String
  | expectedDeclaration => "Expecting variable or function declaration"
  | expectedTypeName => "Expecting type name"
  | expectedIdentifier => "Expecting identifier"
  | missingSemicolon => "Missing semicolon"
  | expected token => "Expecting '" ++ token ++ "'"
  | expectedListStart => "Expecting start of statement list '\x7b'"
  | expectedListEnd => "Expecting end of statement list '\x7d'"
  | expectedExpression => "Expected expression"
  | voidVariable => "Variables cannot have a type of 'void'"
  | decoratedFunction decorator => "'" ++ decorator ++ "' cannot be applied to functions"
  | redefined name => "Multiple definitions of symbol '" ++ name ++ "'"
  | shadowsIntrinsic name => "Symbol '" ++ name ++ "' shadows intrinsic"
  | undefined name => "Undefined symbol '" ++ name ++ "'"
  | initialiser slot value => "Cannot initialise " ++ quotedPair slot "with" value
  | missingReturnValue ty => "Expecting return value of type '" ++ ty.name ++ "'"
  | returned value ty =>
    "Cannot return '" ++ value.name ++ "' from a '" ++ ty.name ++ "' function"
  | condition given => "Condition must be 'bool', not '" ++ given.name ++ "'"
  | constantTarget => "Assignment to constant expression"
  | assigned slot value => "Incompatible types for assignment " ++ quotedPair slot "and" value
  | compared lhs rhs => "Cannot compare " ++ quotedPair lhs "and" rhs
  | combined op lhs rhs => "Cannot " ++ op.verb.1 ++ " " ++ quotedPair lhs op.verb.2 rhs
  | negated => "Unary '-' applied to invalid expression"
  | inverted => "Unary '!' applied to non-boolean expression"
  | subscripted base => "Type '" ++ base.name ++ "' cannot be subscripted"
  | subscriptNotIntegral => "Subscript is not integral"
  | notFunction name => "'" ++ name ++ "' is not a function"
  | calleeNotName => "Expression is not a function"
  | argumentCount name wanted given =>
    "Function '" ++ name ++ "' expects " ++ Text.ofNat wanted ++ " arguments but got "
      ++ Text.ofNat given
  | argument number name wanted given =>
    "Incompatible argument " ++ Text.ofNat number ++ " for '" ++ name ++ "': "
      ++ quotedPair wanted "and" given
  | integerRange => "Integer literal out of range"
  | floatForm => "Invalid float literal"

/-- The words for storage or a distance that could not be laid out. -/
def LayoutFault.message : LayoutFault → String
  | noStorage ty => "type '" ++ ty.name ++ "' has no storage"
  | noRegister cls => "no " ++ cls.name ++ " register can be borrowed"
  | shortJump distance => "short jump distance " ++ Text.ofInt distance ++ " out of range"
  | longJump distance => "jump distance " ++ Text.ofInt distance ++ " out of range"
  | relocation distance => "relocation distance " ++ Text.ofInt distance ++ " out of range"
  | trampolineCall distance =>
    "trampoline call distance " ++ Text.ofInt distance ++ " out of range"
  | localRegion offset => "local region offset " ++ Text.ofNat offset ++ " out of range"
  | trampolineSize given reserved =>
    "trampoline is " ++ Text.ofNat given ++ " bytes, " ++ Text.ofNat reserved ++ " were reserved"
  | globalPlacement name location => "global '" ++ name ++ "' placed at " ++ location.text

/-- The words for a tree without code. -/
def TreeFault.message : TreeFault → String
  | whileLoop => "'while' has no lowering"
  | forLoop => "'for' has no lowering"
  | relationalValue op => "relational operator '" ++ op.text ++ "' outside an if condition"
  | noStorage name => "'" ++ name ++ "' has no storage"
  | subscripted base => "'" ++ base.name ++ "' cannot be subscripted"
  | subscriptedAt location => "cannot subscript value at " ++ location.text
  | notLane => "expected a register lane"
  | undefinedOperation op lhs rhs =>
    "'" ++ op.text ++ "' is not defined between " ++ quotedPair lhs "and" rhs
  | notRegister location => location.text ++ " is not a register"
  | noOperand location => location.text ++ " has no operand encoding"
  | duplicateIntrinsic name => "duplicate intrinsic '" ++ name ++ "'"
  | duplicateParameter name => "duplicate parameter '" ++ name ++ "'"

/-- The words for a feature without code. -/
def Feature.message : Feature → String
  | vectorComparison => "vector comparison"
  | functionCall => "function call"
  | intrinsic name => "intrinsic '" ++ name ++ "'"

/-- The words for an access outside a memory block. -/
def BlockFault.message : BlockFault → String
  | write bytes offset =>
    "write of " ++ Text.ofNat bytes ++ " bytes at " ++ Text.ofNat offset ++ " is outside the block"
  | read bytes offset =>
    "read of " ++ Text.ofNat bytes ++ " bytes at " ++ Text.ofNat offset ++ " is outside the block"
  | entry offset => "entry offset " ++ Text.ofNat offset ++ " is outside the block"

/-- The words for what the host offered. -/
def HostOffer.message : HostOffer → String
  | value typeName => typeName
  | bytes count => Text.ofNat count ++ " bytes"

namespace Error

/-- **The text of an error.** -/
def message : Error → String
  | lex fault position => fault.message position
  | complaint cause _ _ => cause.message
  | unexpectedEnd cause => cause.message ++ " at end of input"
  | layout fault => "Layout error: " ++ fault.message
  | malformedTree fault => "Malformed syntax tree: " ++ fault.message
  | unsupported feature => feature.message ++ " not implemented"
  | missingEntryPoint => "shader has no main() export"
  | unknownGlobal name => "Unknown global: " ++ name
  | globalTypeMismatch name expected offer =>
    "Type mismatch for global '" ++ name ++ "': expected " ++ expected.name ++ ", got "
      ++ offer.message
  | registerResident name => "Global '" ++ name ++ "' is register resident and cannot be read"
  | outsideBlock fault => "Executable memory error: " ++ fault.message
  | tokenPattern pattern => "Invalid token pattern '" ++ pattern ++ "'"
  | configuration => "Configuration error"

/-- Whether the error was found while parsing or checking types. -/
def isSyntax : Error → Bool
  | complaint _ _ _ | unexpectedEnd _ => true
  | _ => false

/-- Where the error is, for an error that a place in the source
caused. -/
def position? : Error → Option Position
  | lex _ p | complaint _ p _ => some p
  | _ => none

/-- What to show of the source for an error found while parsing. -/
def excerpt? : Error → Option String
  | complaint _ _ excerpt => some excerpt
  | unexpectedEnd cause => some (cause.message ++ " at end of input\n")
  | _ => none

/-- The error of a complaint about a place in a source text. -/
def ofComplaint (source : List Char) (p : Position) (cause : Complaint) : Error :=
  complaint cause p (String.ofList (Text.excerpt source p cause.message.toList))

end Error

end Shading
