import Shading.Binary32.Decimal
import Shading.Parser
import Shading.Ty.Rules

/-!
# Parsing expressions

One parser stands for each level of precedence, from assignment, which
binds weakest, down to atoms:

| level            | operators                    | grouping         |
|------------------|------------------------------|------------------|
| `assignment`     | `=` `+=` `-=` `*=` `/=`      | to the right     |
| `relation`       | `==` `!=` `<` `<=` `>` `>=`  | none             |
| `sum`            | `+` `-`                      | to the left      |
| `product`        | `*` `/`                      | to the left      |
| `unary`          | `-` `!`                      | in front         |
| `suffixed`       | subscripts and calls         | behind           |
| `atom`           | literals, names, parentheses |                  |

The levels take the parser for a nested expression as an argument. Every
nesting reads a token first, so the number of tokens bounds the depth,
and `expression` is defined by recursion on such a bound.

Operands are checked as soon as they are joined, and the position of a
joined expression is that of its operator.
-/

namespace Shading.Parser

/-! ## Operators of tokens -/

/-- The operation of an assignment token; a plain assignment has
none. -/
def assignmentOp? : TokenKind → Option (Option BinaryOp)
  | .assign => some none
  | .addAssign => some (some .add)
  | .subtractAssign => some (some .subtract)
  | .multiplyAssign => some (some .multiply)
  | .divideAssign => some (some .divide)
  | _ => none

/-- The relational operator of a token. -/
def relationalOp? : TokenKind → Option RelationalOp
  | .equals => some .equals
  | .notEquals => some .notEquals
  | .less => some .less
  | .lessEquals => some .lessEquals
  | .greater => some .greater
  | .greaterEquals => some .greaterEquals
  | _ => none

/-- The additive operator of a token. -/
def sumOp? : TokenKind → Option BinaryOp
  | .add => some .add
  | .subtract => some .subtract
  | _ => none

/-- The multiplicative operator of a token. -/
def productOp? : TokenKind → Option BinaryOp
  | .multiply => some .multiply
  | .divide => some .divide
  | _ => none

/-- Whether the operands of an arithmetic operator go together. -/
def joins : BinaryOp → Ty → Ty → Bool
  | .add, l, r | .subtract, l, r => l.addable r
  | .multiply, l, r => l.multipliable r
  | .divide, l, r => l.scalarPair r

/-- Whether the operands of a relational operator go together. -/
def compares : RelationalOp → Ty → Ty → Bool
  | .equals, l, r | .notEquals, l, r => l.comparable r
  | _, l, r => l.scalarPair r

/-- Whether a value may be assigned to a slot, after it is combined with
what the slot holds if the assignment has an operator. -/
def assigns (op : Option BinaryOp) (slot value : Ty) : Bool :=
  match op with
  | none => slot.assignable value
  | some op => joins op slot value && slot.assignable (slot.arith value)

/-- Reads the next token if the function has a value for its kind. -/
def takeOp? {α : Type} (op? : TokenKind → Option α) : Parser (Option (α × Token)) := do
  match ← peek? with
  | none => return none
  | some t =>
    match op? t.kind with
    | none => return none
    | some a =>
      skip
      return some (a, t)

/-! ## Atoms -/

/-- The value of a literal token, or the complaint about it. -/
def literal? (t : Token) : Except Complaint (Option Literal) :=
  match t.kind with
  | .intLiteral =>
    match readWordInt? t.lexeme with
    | some i => .ok (some (.int i))
    | none => .error .integerRange
  | .floatLiteral =>
    match Binary32.ofDecimal? t.lexeme with
    | some w => .ok (some (.float w))
    | none => .error .floatForm
  | .boolLiteral => .ok (some (.bool (t.lexeme == "true")))
  | _ => .ok none

/-- The expression that a name stands for. -/
def nameExpr (t : Token) : Parser Expr := do
  let d ← declarations
  match d.symbols.find? t.lexeme (← currentFunction) with
  | some id => return .name id (d.symbolTy id) t.position
  | none => failAt t.position (.undefined t.lexeme)

/-- Reads a literal, a name or an expression in parentheses. -/
def atom (nested : Parser Expr) : Parser Expr := do
  match ← peek? with
  | none => failHere .expectedExpression
  | some t =>
    skip
    match literal? t with
    | .error cause => failAt t.position cause
    | .ok (some value) => return .literal value value.ty t.position
    | .ok none =>
      if t.kind = .identifier then nameExpr t
      else if t.kind = .roundLeft then
        let e ← nested
        let _ ← expect .roundRight (.expected ")")
        return e
      else failAt t.position .expectedExpression

/-! ## Subscripts and calls -/

/-- Reads the rest of a subscript behind its bracket. -/
def subscriptOf (nested : Parser Expr) (base : Expr) (bracket : Token) : Parser Expr := do
  let index ← nested
  let _ ← expect .squareRight (.expected "]")
  match base.ty.element? with
  | none => failAt bracket.position (.subscripted base.ty)
  | some element =>
    if index.ty = .int then return .subscript base index element bracket.position
    else failAt bracket.position .subscriptNotIntegral

/-- Reads arguments with commas between them. -/
def argumentList (nested : Parser Expr) : (budget : Nat) → Parser (List Expr)
  | 0 => failHere .expectedExpression
  | budget + 1 => do
    let e ← nested
    if ← accept .comma then return e :: (← argumentList nested budget)
    else return [e]

/-- The function that an expression calls, with its name. -/
def calleeOf (callee : Expr) (paren : Token) : Parser (FunctionId × String) := do
  match callee with
  | .name symbol _ _ =>
    let d ← declarations
    let name := d.symbolName symbol
    match d.functions.find? name with
    | some id => return (id, name)
    | none => failAt paren.position (.notFunction name)
  | _ => failAt paren.position .calleeNotName

/-- The first argument that its parameter does not take: its number from
one on and the two types. -/
def firstMismatch? (number : Nat) : List Ty → List Ty → Option (Nat × Ty × Ty)
  | p :: ps, a :: as =>
    if p.assignable a then firstMismatch? (number + 1) ps as else some (number, p, a)
  | _, _ => none

/-- Reads the rest of a call behind its parenthesis. -/
def callOf (nested : Parser Expr) (callee : Expr) (paren : Token) : Parser Expr := do
  let (id, name) ← calleeOf callee paren
  let args ←
    if ← sees .roundRight then pure []
    else do
      let budget ← remaining
      argumentList nested (budget + 1)
  let _ ← expect .roundRight (.expected ")")
  let d ← declarations
  let parameters := (d.parameters id).map d.symbolTy
  if args.length ≠ parameters.length then
    failAt paren.position (.argumentCount name parameters.length args.length)
  else
    match firstMismatch? 1 parameters (args.map Expr.ty) with
    | some (number, expected, given) =>
      failAt paren.position (.argument number name expected given)
    | none => return .call id name args (d.returnTy id) callee.position

/-- Reads subscripts and calls behind an expression. -/
def suffixes (nested : Parser Expr) : (budget : Nat) → Expr → Parser Expr
  | 0, _ => failHere .expectedExpression
  | budget + 1, e => do
    match ← peek? with
    | none => return e
    | some t =>
      if t.kind = .squareLeft then
        skip
        suffixes nested budget (← subscriptOf nested e t)
      else if t.kind = .roundLeft then
        skip
        suffixes nested budget (← callOf nested e t)
      else return e

/-- Reads an atom with its subscripts and calls. -/
def suffixed (nested : Parser Expr) : Parser Expr := do
  let e ← atom nested
  let budget ← remaining
  suffixes nested (budget + 1) e

/-! ## Operators -/

/-- Reads an expression with the operators in front of it. -/
def unary (nested : Parser Expr) : (budget : Nat) → Parser Expr
  | 0 => failHere .expectedExpression
  | budget + 1 => do
    match ← peek? with
    | none => suffixed nested
    | some t =>
      if t.kind = .subtract then
        skip
        let operand ← unary nested budget
        if operand.ty.isScalar || operand.ty.isVector then
          return .negate operand operand.ty t.position
        else failAt t.position .negated
      else if t.kind = .logicalNot then
        skip
        let operand ← unary nested budget
        if operand.ty = .bool then return .not operand .bool t.position
        else failAt t.position .inverted
      else suffixed nested

/-- Reads the operands that operators of one level join to an
expression, from left to right. -/
def joined (op? : TokenKind → Option BinaryOp) (operand : Parser Expr) :
    (budget : Nat) → Expr → Parser Expr
  | 0, _ => failHere .expectedExpression
  | budget + 1, lhs => do
    match ← takeOp? op? with
    | none => return lhs
    | some (op, t) =>
      let rhs ← operand
      if joins op lhs.ty rhs.ty then
        joined op? operand budget (.binary op lhs rhs (lhs.ty.arith rhs.ty) t.position)
      else failAt t.position (.combined op lhs.ty rhs.ty)

/-- Reads an operand with the operators in front of it. -/
def factor (nested : Parser Expr) : Parser Expr := do
  let budget ← remaining
  unary nested (budget + 1)

/-- Reads factors joined by multiplicative operators. -/
def product (nested : Parser Expr) : Parser Expr := do
  let lhs ← factor nested
  let budget ← remaining
  joined productOp? (factor nested) (budget + 1) lhs

/-- Reads products joined by additive operators. -/
def sum (nested : Parser Expr) : Parser Expr := do
  let lhs ← product nested
  let budget ← remaining
  joined sumOp? (product nested) (budget + 1) lhs

/-- Reads a sum, or two sums that are compared. -/
def relation (nested : Parser Expr) : Parser Expr := do
  let lhs ← sum nested
  match ← takeOp? relationalOp? with
  | none => return lhs
  | some (op, t) =>
    let rhs ← sum nested
    if compares op lhs.ty rhs.ty then return .relational op lhs rhs .bool t.position
    else failAt t.position (.compared lhs.ty rhs.ty)

/-- Reads a relation, or an assignment to one. -/
def assignment (nested : Parser Expr) : Parser Expr := do
  let target ← relation nested
  match ← takeOp? assignmentOp? with
  | none => return target
  | some (op, t) =>
    let value ← nested
    if target.isConstant then failAt t.position .constantTarget
    else if assigns op target.ty value.ty then
      return .assign op target value target.ty t.position
    else failAt t.position (.assigned target.ty value.ty)

/-- Reads an expression nested at most as deep as `budget` says. -/
def expressionWithin : (budget : Nat) → Parser Expr
  | 0 => failHere .expectedExpression
  | budget + 1 => assignment (expressionWithin budget)

/-- **Reads an expression.** -/
def expression : Parser Expr := do
  let budget ← remaining
  expressionWithin (budget + 1)

end Shading.Parser
