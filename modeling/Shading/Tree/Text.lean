import Shading.Text.Number
import Shading.Tree

/-!
# Written form of trees

Every node is written with all that it carries, so that the text of a
tree determines it: an expression is a parenthesised form with its type
and position, and symbols and functions are written by their numbers.
-/

namespace Shading

/-- Texts with a blank between each two. -/
def joinBlank : List String → String
  | [] => ""
  | [s] => s
  | s :: ss => s ++ " " ++ joinBlank ss

/-- A symbol by its number. -/
def symbolText (id : SymbolId) : String := "s" ++ Text.ofNat id

/-- A function by its number. -/
def functionText (id : FunctionId) : String := "f" ++ Text.ofNat id

/-- A float by the digits of its pattern. Patterns that are not numbers
are not told apart. -/
def floatText (w : Word) : String :=
  if Binary32.isNaN w then "nan" else String.ofList (Text.hexDigits 8 w.toNat)

/-- The written form of a literal. -/
def Literal.text : Literal → String
  | int value => "int " ++ Text.ofInt value
  | float bits => "float " ++ floatText bits
  | bool value => "bool " ++ if value then "true" else "false"

namespace Expr

/-- A form with its type and position. -/
def formText (form : String) (ty : Ty) (p : Position) : String :=
  "(" ++ form ++ "):" ++ ty.name ++ "@" ++ Text.ofNat p.line ++ ":" ++ Text.ofNat p.column

mutual

/-- **The written form of an expression.** -/
def text : Expr → String
  | literal value ty p => formText value.text ty p
  | name symbol ty p => formText ("name " ++ symbolText symbol) ty p
  | binary op lhs rhs ty p =>
    formText ("binary " ++ op.text ++ " " ++ lhs.text ++ " " ++ rhs.text) ty p
  | assign op target value ty p =>
    let mark := ((op.map BinaryOp.text).getD "") ++ "="
    formText ("assign " ++ mark ++ " " ++ target.text ++ " " ++ value.text) ty p
  | relational op lhs rhs ty p =>
    formText ("rel " ++ op.text ++ " " ++ lhs.text ++ " " ++ rhs.text) ty p
  | negate operand ty p => formText ("neg " ++ operand.text) ty p
  | not operand ty p => formText ("not " ++ operand.text) ty p
  | subscript base index ty p => formText ("index " ++ base.text ++ " " ++ index.text) ty p
  | call function callee args ty p =>
    formText (joinBlank (("call " ++ functionText function ++ " " ++ callee) :: texts args)) ty p

/-- The written forms of some expressions. -/
def texts : List Expr → List String
  | [] => []
  | e :: es => e.text :: texts es

end

end Expr

mutual

/-- **The written form of a statement.** -/
def Statement.text : Statement → String
  | .localVariable symbol none => "(local " ++ symbolText symbol ++ ")"
  | .localVariable symbol (some e) => "(local " ++ symbolText symbol ++ " " ++ e.text ++ ")"
  | .expression e => "(expr " ++ e.text ++ ")"
  | .branch s => IfStatement.text s
  | .whileLoop condition body =>
    "(while " ++ condition.text ++ " [" ++ joinBlank (Statement.texts body) ++ "])"
  | .forLoop first condition step body =>
    "(for " ++ first.text ++ " " ++ condition.text ++ " " ++ step.text ++ " ["
      ++ joinBlank (Statement.texts body) ++ "])"
  | .ret none => "(return)"
  | .ret (some e) => "(return " ++ e.text ++ ")"

/-- The written form of a choice. -/
def IfStatement.text : IfStatement → String
  | .mk condition body otherwise =>
    "(if " ++ condition.text ++ " [" ++ joinBlank (Statement.texts body) ++ "]"
      ++ ElseBranch.text otherwise ++ ")"

/-- The written form of what stands behind the body of a choice. -/
def ElseBranch.text : ElseBranch → String
  | .none => ""
  | .chain s => " elseif " ++ IfStatement.text s
  | .block body => " else [" ++ joinBlank (Statement.texts body) ++ "]"

/-- The written forms of some statements. -/
def Statement.texts : List Statement → List String
  | [] => []
  | s :: ss => Statement.text s :: Statement.texts ss

end

/-- The words in front of a declaration, each behind a blank. -/
def Decorators.text (d : Decorators) : String :=
  (if d.isExported then " export" else "") ++ (if d.uniform then " uniform" else "")
    ++ (if d.interpolated then " interpolated" else "")

/-- **The written form of a declaration.** -/
def Item.text : Item → String
  | global symbol decorators => "(global " ++ symbolText symbol ++ decorators.text ++ ")"
  | function id name decorators body =>
    "(function " ++ functionText id ++ " " ++ name ++ decorators.text ++ " ["
      ++ joinBlank (Statement.texts body) ++ "])"

end Shading
