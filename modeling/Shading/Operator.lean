/-!
# Operators

The arithmetic and the relational operators, with their spellings.
-/

namespace Shading

/-- **An arithmetic operator.** -/
inductive BinaryOp where
  | add
  | subtract
  | multiply
  | divide
deriving DecidableEq

/-- The spelling of an arithmetic operator. -/
def BinaryOp.text : BinaryOp → String
  | add => "+"
  | subtract => "-"
  | multiply => "*"
  | divide => "/"

/-- **A relational operator.** -/
inductive RelationalOp where
  | equals
  | notEquals
  | less
  | lessEquals
  | greater
  | greaterEquals
deriving DecidableEq

/-- The spelling of a relational operator. -/
def RelationalOp.text : RelationalOp → String
  | equals => "=="
  | notEquals => "!="
  | less => "<"
  | lessEquals => "<="
  | greater => ">"
  | greaterEquals => ">="

end Shading
