import Shading.Lowering.Expression

/-!
# The forms that lowering takes

The parser accepts more than lowering takes: loops, calls of user
functions, comparisons that are operands, comparisons of vectors or of
calls without a value, and names of functions as values are refused when
code is generated (`Form`). `plain` says of expressions and statements that
they are built without these, and `forms` lists those that they contain.

A plain program can still run out of general registers. An element whose
index is computed keeps a register for its address until the operation
that consumes the element is done, so the operands to the right of it
have one register less. `holds` says whether an expression leaves such an
address behind, and `fits n` that an expression can be lowered while `n`
addresses are held: with two or more of them, no further address and no
integer is computed.
-/

namespace Shading

namespace Expr

mutual

/-- **An expression without comparisons, user calls and names of
functions.** -/
def plain (d : Declarations) : Expr → Bool
  | literal _ _ _ => true
  | name id _ _ => (d.symbols.get? id).any (fun s => s.kind == .variable)
  | binary _ lhs rhs _ _ => lhs.plain d && rhs.plain d
  | assign _ target value _ _ => target.plain d && value.plain d
  | relational _ _ _ _ _ => false
  | negate operand _ _ | not operand _ _ => operand.plain d
  | subscript base index _ _ => base.plain d && index.plain d
  | call f _ args _ _ => (d.functions.get? f).any Function.intrinsic && allPlain d args

/-- Whether each of some expressions is plain. -/
def allPlain (d : Declarations) : List Expr → Bool
  | [] => true
  | e :: es => e.plain d && allPlain d es

end

/-- **A condition that lowering takes**: a comparison of scalars or truth
values, or a plain expression. -/
def plainCondition (d : Declarations) : Expr → Bool
  | relational _ lhs rhs _ _ =>
    lhs.plain d && rhs.plain d && (lhs.ty.isScalar || lhs.ty == .bool)
      && (rhs.ty.isScalar || rhs.ty == .bool)
  | e => e.plain d

/-- Whether an expression is a call without a value. -/
def isVoidCall : Expr → Bool
  | call _ _ _ ty _ => ty == .void
  | _ => false

end Expr

/-! ## What lowering refuses -/

/-- **A form that the parser accepts and lowering refuses.** -/
inductive Form where
  | whileLoop
  | forLoop
  /-- A comparison that is not the condition of a choice. -/
  | comparison (op : RelationalOp)
  /-- The name of a function that is evaluated as a value. -/
  | functionName (name : String)
  /-- A condition that compares two calls without a value. -/
  | voidComparison
  /-- A condition that compares two vectors or matrices. -/
  | vectorComparison
  /-- A call of a function of the shader. -/
  | userCall
deriving DecidableEq

/-- **The error that a form is refused with.** -/
def Form.refusal : Form → Error
  | whileLoop => .malformedTree .whileLoop
  | forLoop => .malformedTree .forLoop
  | comparison op => .malformedTree (.relationalValue op)
  | functionName name => .malformedTree (.noStorage name)
  | voidComparison => .malformedTree (.noOperand .none)
  | vectorComparison => .unsupported .vectorComparison
  | userCall => .unsupported .functionCall

namespace Expr

mutual

/-- **The refused forms in an expression** that is evaluated. -/
def forms (d : Declarations) : Expr → List Form
  | literal _ _ _ => []
  | name id _ _ =>
    match d.symbols.get? id with
    | some s => if s.kind = .function then [.functionName s.name] else []
    | none => []
  | binary _ lhs rhs _ _ => lhs.forms d ++ rhs.forms d
  | assign _ target value _ _ => target.forms d ++ value.forms d
  | relational op lhs rhs _ _ => .comparison op :: (lhs.forms d ++ rhs.forms d)
  | negate operand _ _ | not operand _ _ => operand.forms d
  | subscript base index _ _ => base.forms d ++ index.forms d
  | call f _ args _ _ =>
    (if (d.functions.get? f).any Function.intrinsic then [] else [.userCall]) ++ allForms d args

/-- The refused forms in some expressions. -/
def allForms (d : Declarations) : List Expr → List Form
  | [] => []
  | e :: es => e.forms d ++ allForms d es

end

/-- **The refused forms in the condition of a choice**, which may be a
comparison. -/
def conditionForms (d : Declarations) : Expr → List Form
  | relational _ lhs rhs _ _ =>
    (if lhs.ty.isVector && rhs.ty.isVector then [.vectorComparison] else [])
      ++ (if lhs.isVoidCall && rhs.isVoidCall then [.voidComparison] else [])
      ++ (lhs.forms d ++ rhs.forms d)
  | e => e.forms d

/-! ## Addresses that are held -/

/-- Whether the place of an expression is behind an address in a
register. -/
def holds : Expr → Bool
  | subscript base index _ _ => base.holds || (Lower.literalIndex? base.ty index).isNone
  | assign _ target _ _ _ => target.holds
  | _ => false

/-- How many registers the place of an expression keeps. -/
def held (e : Expr) : Nat := if e.holds then 1 else 0

/-- Whether an operation computes in a general register. -/
def computesInteger (op : BinaryOp) (ty : Ty) : Bool := op != .divide && ty == .int

mutual

/-- **Whether an expression can be lowered while so many addresses are
held.** -/
def fits (n : Nat) : Expr → Bool
  | literal _ _ _ | name _ _ _ => true
  | binary op lhs rhs ty _ =>
    lhs.fits n && rhs.fits (n + lhs.held) && (!computesInteger op ty || n ≤ 1)
  | assign _ target value _ _ =>
    target.fits n && value.fits (n + target.held) && (!target.ty.isIntegral || n ≤ 1)
  | relational _ lhs rhs _ _ => lhs.fits n && rhs.fits (n + lhs.held)
  | negate operand ty _ | not operand ty _ => operand.fits n && (!ty.isIntegral || n ≤ 1)
  | subscript base index _ _ =>
    base.fits n &&
      ((Lower.literalIndex? base.ty index).isSome || (index.fits (n + base.held) && n ≤ 1))
  | call _ _ args _ _ => allFit n args

/-- Whether expressions can be lowered from left to right. -/
def allFit (n : Nat) : List Expr → Bool
  | [] => true
  | e :: es => e.fits n && allFit (n + e.held) es

end

end Expr

/-! ## Statements -/

mutual

/-- **A statement without loops whose expressions are plain.** -/
def Statement.plain (d : Declarations) : Statement → Bool
  | .localVariable _ e => e.all (Expr.plain d)
  | .expression e => e.plain d
  | .branch s => s.plain d
  | .whileLoop _ _ | .forLoop _ _ _ _ => false
  | .ret e => e.all (Expr.plain d)

def IfStatement.plain (d : Declarations) : IfStatement → Bool
  | .mk c body otherwise => c.plainCondition d && Statement.allPlain d body && otherwise.plain d

def ElseBranch.plain (d : Declarations) : ElseBranch → Bool
  | .none => true
  | .chain s => s.plain d
  | .block body => Statement.allPlain d body

def Statement.allPlain (d : Declarations) : List Statement → Bool
  | [] => true
  | s :: ss => s.plain d && Statement.allPlain d ss

end

mutual

/-- **The refused forms in a statement.** -/
def Statement.forms (d : Declarations) : Statement → List Form
  | .localVariable _ none | .ret none => []
  | .localVariable _ (some e) | .expression e | .ret (some e) => e.forms d
  | .branch s => s.forms d
  | .whileLoop c body => .whileLoop :: (c.forms d ++ Statement.allForms d body)
  | .forLoop first c step body =>
    .forLoop :: (first.forms d ++ c.forms d ++ step.forms d ++ Statement.allForms d body)

/-- The refused forms in a choice. -/
def IfStatement.forms (d : Declarations) : IfStatement → List Form
  | .mk c body otherwise => c.conditionForms d ++ Statement.allForms d body ++ otherwise.forms d

/-- The refused forms behind the body of a choice. -/
def ElseBranch.forms (d : Declarations) : ElseBranch → List Form
  | .none => []
  | .chain s => s.forms d
  | .block body => Statement.allForms d body

/-- The refused forms in some statements. -/
def Statement.allForms (d : Declarations) : List Statement → List Form
  | [] => []
  | s :: ss => s.forms d ++ Statement.allForms d ss

end

mutual

/-- **Whether each expression of a statement can be lowered** from the
start, when no address is held. -/
def Statement.fits : Statement → Bool
  | .localVariable _ e => e.all (Expr.fits 0)
  | .expression e => e.fits 0
  | .branch s => s.fits
  | .whileLoop _ _ | .forLoop _ _ _ _ => true
  | .ret e => e.all (Expr.fits 0)

def IfStatement.fits : IfStatement → Bool
  | .mk c body otherwise => c.fits 0 && Statement.allFit body && otherwise.fits

def ElseBranch.fits : ElseBranch → Bool
  | .none => true
  | .chain s => s.fits
  | .block body => Statement.allFit body

def Statement.allFit : List Statement → Bool
  | [] => true
  | s :: ss => s.fits && Statement.allFit ss

end

namespace Shader

/-- **Whether every function of a shader is plain.** -/
def plain (s : Shader) : Bool :=
  s.items.all fun
    | .global _ _ => true
    | .function _ _ _ body => Statement.allPlain s.declarations body

/-- **The refused forms in the bodies of a shader's functions.** -/
def forms (s : Shader) : List Form :=
  s.items.flatMap fun
    | .global _ _ => []
    | .function _ _ _ body => Statement.allForms s.declarations body

/-- Whether every function of a shader has registers enough. -/
def fits (s : Shader) : Bool :=
  s.items.all fun
    | .global _ _ => true
    | .function _ _ _ body => Statement.allFit body

end Shader

/-! ## Plain programs contain no refused forms -/

section Plain

variable {d : Declarations}

namespace Expr

theorem ty_of_isVoidCall {e : Expr} (h : e.isVoidCall = true) : e.ty = .void := by
  cases e <;> simp_all [isVoidCall, ty]

mutual

theorem forms_of_plain : (e : Expr) → e.plain d = true → e.forms d = []
  | .literal _ _ _, _ => by simp only [forms]
  | .name id _ _, h => by
    simp only [plain, Option.any_eq_true, beq_iff_eq] at h
    obtain ⟨s, found, kind⟩ := h
    simp [forms, found, kind]
  | .binary _ l r _ _, h => by
    simp only [plain, Bool.and_eq_true] at h
    simp only [forms, forms_of_plain l h.1, forms_of_plain r h.2, List.append_nil]
  | .assign _ t v _ _, h => by
    simp only [plain, Bool.and_eq_true] at h
    simp only [forms, forms_of_plain t h.1, forms_of_plain v h.2, List.append_nil]
  | .relational _ _ _ _ _, h => by
    simp only [plain] at h
    cases h
  | .negate e _ _, h | .not e _ _, h => by
    simp only [plain] at h
    simp only [forms, forms_of_plain e h]
  | .subscript b i _ _, h => by
    simp only [plain, Bool.and_eq_true] at h
    simp only [forms, forms_of_plain b h.1, forms_of_plain i h.2, List.append_nil]
  | .call f _ args _ _, h => by
    simp only [plain, Bool.and_eq_true] at h
    simp only [forms, h.1, if_true, forms_of_allPlain args h.2, List.append_nil]

theorem forms_of_allPlain : (es : List Expr) → allPlain d es = true → allForms d es = []
  | [], _ => by simp only [allForms]
  | e :: es, h => by
    simp only [allPlain, Bool.and_eq_true] at h
    simp only [allForms, forms_of_plain e h.1, forms_of_allPlain es h.2, List.append_nil]

end

theorem conditionForms_of_plain (e : Expr) (h : e.plainCondition d = true) :
    e.conditionForms d = [] := by
  cases e with
  | relational op l r ty p =>
    simp only [plainCondition, Bool.and_eq_true, Bool.or_eq_true, beq_iff_eq] at h
    obtain ⟨⟨⟨plainL, plainR⟩, scalar⟩, -⟩ := h
    have vector : l.ty.isVector = false ∧ l.ty ≠ .void := by
      revert scalar
      generalize l.ty = t
      cases t <;> decide
    have call : l.isVoidCall = false := by
      cases call : l.isVoidCall with
      | false => rfl
      | true => exact absurd (ty_of_isVoidCall call) vector.2
    simp [conditionForms, vector.1, call, forms_of_plain l plainL, forms_of_plain r plainR]
  | _ => exact forms_of_plain _ h

end Expr

mutual

theorem Statement.forms_of_plain : (s : Statement) → s.plain d = true → s.forms d = []
  | .localVariable _ none, _ | .ret none, _ => by simp only [Statement.forms]
  | .localVariable _ (some e), h | .ret (some e), h => by
    simp only [Statement.plain, Option.all_some] at h
    simp only [Statement.forms, e.forms_of_plain h]
  | .expression e, h => by
    simp only [Statement.plain] at h
    simp only [Statement.forms, e.forms_of_plain h]
  | .branch c, h => by
    simp only [Statement.plain] at h
    simp only [Statement.forms, IfStatement.forms_of_plain c h]
  | .whileLoop _ _, h | .forLoop _ _ _ _, h => by
    simp only [Statement.plain] at h
    cases h

theorem IfStatement.forms_of_plain : (s : IfStatement) → s.plain d = true → s.forms d = []
  | .mk c body otherwise, h => by
    simp only [IfStatement.plain, Bool.and_eq_true] at h
    simp only [IfStatement.forms, c.conditionForms_of_plain h.1.1,
      Statement.allForms_of_plain body h.1.2, ElseBranch.forms_of_plain otherwise h.2,
      List.append_nil]

theorem ElseBranch.forms_of_plain : (s : ElseBranch) → s.plain d = true → s.forms d = []
  | .none, _ => by simp only [ElseBranch.forms]
  | .chain c, h => by
    simp only [ElseBranch.plain] at h
    simp only [ElseBranch.forms, IfStatement.forms_of_plain c h]
  | .block body, h => by
    simp only [ElseBranch.plain] at h
    simp only [ElseBranch.forms, Statement.allForms_of_plain body h]

theorem Statement.allForms_of_plain : (ss : List Statement) → Statement.allPlain d ss = true →
    Statement.allForms d ss = []
  | [], _ => by simp only [Statement.allForms]
  | s :: ss, h => by
    simp only [Statement.allPlain, Bool.and_eq_true] at h
    simp only [Statement.allForms, Statement.forms_of_plain s h.1,
      Statement.allForms_of_plain ss h.2, List.append_nil]

end

theorem Shader.forms_of_plain {s : Shader} (h : s.plain = true) : s.forms = [] := by
  rw [plain, List.all_eq_true] at h
  refine List.flatMap_eq_nil_iff.2 fun i hi => ?_
  cases i with
  | global => rfl
  | function => exact Statement.allForms_of_plain _ (h _ hi)

end Plain

end Shading
