import Shading.Binary32
import Shading.Operator
import Shading.Symbol

/-!
# Syntax trees

The tree of a shader carries the type of every expression and names
symbols and functions by their numbers, so that it can be read only
together with the tables of its declarations.
-/

namespace Shading

/-- **A literal value.** -/
inductive Literal where
  | int (value : Int)
  /-- A float, by its pattern. -/
  | float (bits : Word)
  | bool (value : Bool)
deriving DecidableEq

/-- The type of a literal. -/
def Literal.ty : Literal → Ty
  | int _ => .int
  | float _ => .float
  | bool _ => .bool

/-- **A typed expression.** Each form carries its type and the position
it is reported at. -/
inductive Expr where
  | literal (value : Literal) (ty : Ty) (position : Position)
  | name (symbol : SymbolId) (ty : Ty) (position : Position)
  | binary (op : BinaryOp) (lhs rhs : Expr) (ty : Ty) (position : Position)
  /-- An assignment, combined with an operator or plain. -/
  | assign (op : Option BinaryOp) (target value : Expr) (ty : Ty) (position : Position)
  | relational (op : RelationalOp) (lhs rhs : Expr) (ty : Ty) (position : Position)
  | negate (operand : Expr) (ty : Ty) (position : Position)
  | not (operand : Expr) (ty : Ty) (position : Position)
  | subscript (base index : Expr) (ty : Ty) (position : Position)
  | call (function : FunctionId) (callee : String) (args : List Expr) (ty : Ty)
      (position : Position)

namespace Expr

/-- The type of an expression. -/
def ty : Expr → Ty
  | literal _ ty _ | name _ ty _ | binary _ _ _ ty _ | assign _ _ _ ty _
  | relational _ _ _ ty _ | negate _ ty _ | not _ ty _ | subscript _ _ ty _
  | call _ _ _ ty _ => ty

/-- The position an expression is reported at. -/
def position : Expr → Position
  | literal _ _ p | name _ _ p | binary _ _ _ _ p | assign _ _ _ _ p
  | relational _ _ _ _ p | negate _ _ p | not _ _ p | subscript _ _ _ p
  | call _ _ _ _ p => p

mutual

/-- Whether an expression names no variable. -/
def isConstant : Expr → Bool
  | literal _ _ _ => true
  | name _ _ _ => false
  | binary _ lhs rhs _ _ | relational _ lhs rhs _ _ => lhs.isConstant && rhs.isConstant
  | assign _ target value _ _ => target.isConstant && value.isConstant
  | negate operand _ _ | not operand _ _ => operand.isConstant
  | subscript base index _ _ => base.isConstant && index.isConstant
  | call _ _ args _ _ => areConstant args

/-- Whether none of some expressions names a variable. -/
def areConstant : List Expr → Bool
  | [] => true
  | e :: es => e.isConstant && areConstant es

end

end Expr

mutual

/-- **A statement.** -/
inductive Statement where
  /-- Declares a local, with a first value or without. -/
  | localVariable (symbol : SymbolId) (initialiser : Option Expr)
  | expression (e : Expr)
  | branch (s : IfStatement)
  | whileLoop (condition : Expr) (body : List Statement)
  | forLoop (first condition step : Expr) (body : List Statement)
  | ret (value : Option Expr)

/-- A choice with what it does otherwise. -/
inductive IfStatement where
  | mk (condition : Expr) (body : List Statement) (otherwise : ElseBranch)

/-- What stands behind the body of a choice. -/
inductive ElseBranch where
  | none
  | chain (s : IfStatement)
  | block (body : List Statement)

end

/-- **The words in front of a declaration.** -/
structure Decorators where
  isExported : Bool := false
  uniform : Bool := false
  interpolated : Bool := false
deriving DecidableEq

/-- Whether there is no such word. -/
def Decorators.isEmpty (d : Decorators) : Bool := !d.isExported && !d.uniform && !d.interpolated

/-- **A declaration at the top of a shader.** -/
inductive Item where
  | global (symbol : SymbolId) (decorators : Decorators)
  | function (id : FunctionId) (name : String) (decorators : Decorators) (body : List Statement)

/-- **A shader**, parsed and checked: its declarations and the tables of
all names, those of its stage first. -/
structure Shader where
  items : List Item
  declarations : Declarations

end Shading
