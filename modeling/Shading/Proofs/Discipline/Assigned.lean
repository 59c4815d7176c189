import Shading.Tree

/-!
# The variables that code assigns

An assignment changes the variable at the root of its target, through
subscripts and through targets that are assignments themselves. A target
without a variable at its root is a temporary.
-/

namespace Shading

/-- **The variable at the root of an expression**, whose storage its place
is in. -/
def Expr.root? : Expr → Option SymbolId
  | name id _ _ => some id
  | assign _ target _ _ _ => target.root?
  | subscript base _ _ _ => base.root?
  | _ => none

/-- Whether an expression is a literal. -/
def Expr.isLiteral : Expr → Bool
  | literal _ _ _ => true
  | _ => false

theorem Expr.isLiteral_of_changeable {e : Expr} (h : e.isConstant = false) : e.isLiteral = false := by
  cases e with
  | literal => cases h
  | _ => rfl

mutual

/-- **The variables that an expression assigns.** -/
def Expr.assigned : Expr → List SymbolId
  | literal _ _ _ | name _ _ _ => []
  | binary _ lhs rhs _ _ | relational _ lhs rhs _ _ => lhs.assigned ++ rhs.assigned
  | assign _ target value _ _ => target.root?.toList ++ target.assigned ++ value.assigned
  | negate operand _ _ | not operand _ _ => operand.assigned
  | subscript base index _ _ => base.assigned ++ index.assigned
  | call _ _ args _ _ => allAssigned args

/-- The variables that some expressions assign. -/
def Expr.allAssigned : List Expr → List SymbolId
  | [] => []
  | e :: es => e.assigned ++ allAssigned es

end

mutual

/-- **The variables that a statement assigns or initialises.** -/
def Statement.assigned : Statement → List SymbolId
  | .localVariable id e => (e.map fun e => id :: e.assigned).getD []
  | .expression e => e.assigned
  | .branch s => s.assigned
  | .whileLoop c body => c.assigned ++ Statement.allAssigned body
  | .forLoop first c step body =>
    first.assigned ++ c.assigned ++ step.assigned ++ Statement.allAssigned body
  | .ret e => (e.map Expr.assigned).getD []

def IfStatement.assigned : IfStatement → List SymbolId
  | .mk c body otherwise => c.assigned ++ Statement.allAssigned body ++ otherwise.assigned

def ElseBranch.assigned : ElseBranch → List SymbolId
  | .none => []
  | .chain s => s.assigned
  | .block body => Statement.allAssigned body

/-- The variables that some statements assign or initialise. -/
def Statement.allAssigned : List Statement → List SymbolId
  | [] => []
  | s :: ss => s.assigned ++ Statement.allAssigned ss

end

end Shading
