import Shading.Proofs.Grammar.Steps

/-!
# The grammar of expressions

Which tokens write an expression is a matter of the levels of precedence
alone: an operand stands one level closer than its operator or, on the
side to which operators of the level group, on the same one. `Derives`
says so without a word about how tokens are read, together with what the
tables have to say about names, calls and types. The positions in an
expression are those of the tokens that it is reported at.

What the parsers of expressions read is always derived
(`derives_of_expression`).
-/

namespace Shading

/-- **The levels of precedence**, from the one that binds weakest. -/
inductive Level where
  | assignment
  | relation
  | sum
  | product
  | unary
  | suffixed
deriving DecidableEq

namespace Level

/-- The level that binds closer. -/
def next : Level → Level
  | assignment => relation
  | relation => sum
  | sum => product
  | product => unary
  | unary | suffixed => suffixed

/-- The operators that are joined on a level, from left to right. -/
def joinOp? : Level → TokenKind → Option BinaryOp
  | sum => Parser.sumOp?
  | product => Parser.productOp?
  | _ => fun _ => none

end Level

/-- Some texts with commas between them. -/
inductive Commas : List (List Token) → List Token → Prop where
  | nil : Commas [] []
  | one (ts : List Token) : Commas [ts] ts
  | cons {ts us : List Token} {more : List (List Token)} {comma : Token}
      (kind : comma.kind = .comma) (rest : Commas more us) (some : more ≠ []) :
      Commas (ts :: more) (ts ++ comma :: us)

/-- What stands between commas stands in the whole. -/
theorem Commas.subset {texts : List (List Token)} {us : List Token} (h : Commas texts us) :
    ∀ ts ∈ texts, ts ⊆ us := by
  induction h with
  | nil => simp
  | one ts => simp
  | cons _ _ _ ih =>
    refine List.forall_mem_cons.2 ⟨List.subset_append_left _ _, fun ts hts t ht => ?_⟩
    exact List.mem_append_right _ (List.mem_cons_of_mem _ (ih ts hts ht))

/-- **The tokens of an expression** at a level of precedence, in a
function and relative to tables. -/
inductive Derives (d : Declarations) (f : Option FunctionId) : Level → Expr → List Token → Prop where
  | literal {t : Token} {v : Literal} (spelled : Parser.literal? t = .ok (some v)) :
      Derives d f .suffixed (.literal v v.ty t.position) [t]
  | name {t : Token} {id : SymbolId} (kind : t.kind = .identifier)
      (found : d.symbols.find? t.lexeme f = some id) :
      Derives d f .suffixed (.name id (d.symbolTy id) t.position) [t]
  | group {left right : Token} {e : Expr} {ts : List Token} (opens : left.kind = .roundLeft)
      (closes : right.kind = .roundRight) (inner : Derives d f .assignment e ts) :
      Derives d f .suffixed e (left :: ts ++ [right])
  | subscript {left right : Token} {b i : Expr} {ts us : List Token} {t : Ty}
      (opens : left.kind = .squareLeft) (closes : right.kind = .squareRight)
      (base : Derives d f .suffixed b ts) (index : Derives d f .assignment i us)
      (element : b.ty.element? = some t) (integral : i.ty = .int) :
      Derives d f .suffixed (.subscript b i t left.position) (ts ++ left :: us ++ [right])
  | call {left right : Token} {symbol : SymbolId} {ty : Ty} {p : Position} {id : FunctionId}
      {args : List (Expr × List Token)} {ts us : List Token} (opens : left.kind = .roundLeft)
      (closes : right.kind = .roundRight) (callee : Derives d f .suffixed (.name symbol ty p) ts)
      (found : d.functions.find? (d.symbolName symbol) = some id)
      (derived : ∀ a ∈ args, Derives d f .assignment a.1 a.2)
      (listed : Commas (args.map Prod.snd) us) (count : args.length = (d.parameters id).length)
      (fits : Parser.firstMismatch? 1 ((d.parameters id).map d.symbolTy)
        ((args.map Prod.fst).map Expr.ty) = none) :
      Derives d f .suffixed (.call id (d.symbolName symbol) (args.map Prod.fst) (d.returnTy id) p)
        (ts ++ left :: us ++ [right])
  | negate {t : Token} {e : Expr} {ts : List Token} (kind : t.kind = .subtract)
      (operand : Derives d f .unary e ts) (numeric : e.ty.isScalar = true ∨ e.ty.isVector = true) :
      Derives d f .unary (.negate e e.ty t.position) (t :: ts)
  | not {t : Token} {e : Expr} {ts : List Token} (kind : t.kind = .logicalNot)
      (operand : Derives d f .unary e ts) (truth : e.ty = .bool) :
      Derives d f .unary (.not e .bool t.position) (t :: ts)
  | binary {l : Level} {t : Token} {op : BinaryOp} {a b : Expr} {ts us : List Token}
      (kind : l.joinOp? t.kind = some op) (lhs : Derives d f l a ts) (rhs : Derives d f l.next b us)
      (joins : Parser.joins op a.ty b.ty = true) :
      Derives d f l (.binary op a b (a.ty.arith b.ty) t.position) (ts ++ t :: us)
  | relational {t : Token} {op : RelationalOp} {a b : Expr} {ts us : List Token}
      (kind : Parser.relationalOp? t.kind = some op) (lhs : Derives d f .sum a ts)
      (rhs : Derives d f .sum b us) (compares : Parser.compares op a.ty b.ty = true) :
      Derives d f .relation (.relational op a b .bool t.position) (ts ++ t :: us)
  | assign {t : Token} {op : Option BinaryOp} {a b : Expr} {ts us : List Token}
      (kind : Parser.assignmentOp? t.kind = some op) (target : Derives d f .relation a ts)
      (value : Derives d f .assignment b us) (changeable : a.isConstant = false)
      (assigns : Parser.assigns op a.ty b.ty = true) :
      Derives d f .assignment (.assign op a b a.ty t.position) (ts ++ t :: us)
  /-- What binds closer stands where something weaker may. -/
  | lift {l : Level} {e : Expr} {ts : List Token} (closer : Derives d f l.next e ts) :
      Derives d f l e ts

namespace Parser

/-- **A parser that reads what is derived**: it takes the tokens of its
result from the state, and nothing else changes. -/
def Derived (l : Level) (p : Parser Expr) : Prop :=
  ∀ s₀ e s, p s₀ = .ok (e, s) → ∃ ts, s₀ = s.before ts ∧ Derives s.declarations s.function l e ts

variable {nested : Parser Expr}

/-- A parser of one level reads for a weaker one too. -/
theorem Derived.lift {l : Level} {p : Parser Expr} (h : Derived l.next p) : Derived l p := by
  intro s₀ e s run
  obtain ⟨ts, here, derived⟩ := h s₀ e s run
  exact ⟨ts, here, .lift derived⟩

theorem derived_atom (hn : Derived .assignment nested) : Derived .suffixed (atom nested) := by
  intro s₀ e s run
  rcases atom_eq_ok.1 run with ⟨t, v, spelled, rfl, rfl⟩ | ⟨t, id, kind, found, rfl, rfl⟩ |
    ⟨left, right, s₁, opens, closes, rfl, inner⟩
  · exact ⟨[t], rfl, .literal spelled⟩
  · exact ⟨[t], rfl, .name kind found⟩
  · obtain ⟨ts, rfl, derived⟩ := hn _ _ _ inner
    exact ⟨left :: ts ++ [right], by simp, .group opens closes derived⟩

/-- Arguments are read up to the one without a comma behind it. -/
theorem derives_of_argumentList (hn : Derived .assignment nested) {budget : Nat}
    {s₀ s : ParserState} {es : List Expr} (run : argumentList nested budget s₀ = .ok (es, s)) :
    ∃ (args : List (Expr × List Token)) (ts : List Token), args ≠ [] ∧ args.map Prod.fst = es ∧
      s₀ = s.before ts ∧ Commas (args.map Prod.snd) ts ∧
      ∀ a ∈ args, Derives s.declarations s.function .assignment a.1 a.2 := by
  induction budget generalizing s₀ es with
  | zero => exact absurd run failHere_ne_ok
  | succ budget ih =>
    obtain ⟨e, s₁, read, ⟨rfl, rfl, -⟩ | ⟨t, s₂, more, kind, rfl, further, rfl⟩⟩ :=
      argumentList_eq_ok.1 run
    · obtain ⟨ts, rfl, derived⟩ := hn _ _ _ read
      exact ⟨[(e, ts)], ts, by simp, rfl, rfl, .one ts, by simpa using derived⟩
    · obtain ⟨args, us, some, rfl, rfl, listed, all⟩ := ih further
      obtain ⟨ts, rfl, derived⟩ := hn _ _ _ read
      refine ⟨(e, ts) :: args, ts ++ t :: us, by simp, rfl, by simp,
        .cons kind listed (by simpa using some), List.forall_mem_cons.2 ⟨derived, all⟩⟩

/-- What is read behind an expression belongs to one that starts with
it. -/
theorem derives_of_suffixes (hn : Derived .assignment nested) {budget : Nat} {e₀ e : Expr}
    {s₀ s : ParserState} {ts : List Token}
    (start : Derives s₀.declarations s₀.function .suffixed e₀ ts)
    (run : suffixes nested budget e₀ s₀ = .ok (e, s)) :
    ∃ us, s₀ = s.before us ∧ Derives s.declarations s.function .suffixed e (ts ++ us) := by
  induction budget generalizing e₀ s₀ ts with
  | zero => exact absurd run failHere_ne_ok
  | succ budget ih =>
    rcases suffixes_eq_ok.1 run with ⟨rfl, rfl, -⟩ | ⟨left, s₁, s₂, e₁, opens, rfl, read, further⟩ |
      ⟨left, s₁, s₂, e₁, opens, rfl, read, further⟩
    · exact ⟨[], rfl, by simpa using start⟩
    · obtain ⟨i, t, right, closes, inner, element, integral, rfl⟩ := subscriptOf_eq_ok.1 read
      obtain ⟨us, rfl, derived⟩ := hn _ _ _ inner
      have more : Derives s₂.declarations s₂.function .suffixed _ _ :=
        .subscript opens closes start derived element integral
      obtain ⟨vs, rfl, whole⟩ := ih more further
      exact ⟨left :: us ++ [right] ++ vs, by simp, by simpa using whole⟩
    · obtain ⟨symbol, ty, p, id, args, right, rfl, found, closes, list, count, fits, rfl⟩ :=
        callOf_eq_ok.1 read
      obtain ⟨args, us, rfl, rfl, listed, all⟩ : ∃ (parts : List (Expr × List Token)) (us : List Token),
          parts.map Prod.fst = args ∧ s₁ = (s₂.before [right]).before us ∧
          Commas (parts.map Prod.snd) us ∧
          ∀ a ∈ parts, Derives s₂.declarations s₂.function .assignment a.1 a.2 := by
        rcases list with ⟨rfl, rfl⟩ | ⟨-, list⟩
        · exact ⟨[], [], rfl, rfl, .nil, by simp⟩
        · obtain ⟨parts, us, -, same, here, listed, all⟩ := derives_of_argumentList hn list
          exact ⟨parts, us, same, here, listed, all⟩
      have more : Derives s₂.declarations s₂.function .suffixed _ _ :=
        .call opens closes start found all listed (by simpa using count) fits
      obtain ⟨vs, rfl, whole⟩ := ih more further
      exact ⟨left :: us ++ [right] ++ vs, by simp, by simpa using whole⟩

theorem derived_suffixed (hn : Derived .assignment nested) : Derived .suffixed (suffixed nested) := by
  intro s₀ e s run
  obtain ⟨e₀, s₁, read, further⟩ := bind_eq_ok.1 run
  obtain ⟨ts, rfl, start⟩ := derived_atom hn _ _ _ read
  obtain ⟨us, rfl, derived⟩ := derives_of_suffixes hn start further
  exact ⟨ts ++ us, by simp, derived⟩

theorem derived_unary (hn : Derived .assignment nested) (budget : Nat) :
    Derived .unary (unary nested budget) := by
  induction budget with
  | zero => exact fun _ _ _ run => absurd run failHere_ne_ok
  | succ budget ih =>
    intro s₀ e s run
    rcases unary_eq_ok.1 run with ⟨-, read⟩ | ⟨t, s₁, x, kind, rfl, read, numeric, rfl⟩ |
      ⟨t, s₁, x, kind, rfl, read, truth, rfl⟩
    · exact (derived_suffixed hn).lift (l := .unary) _ _ _ read
    · obtain ⟨ts, rfl, derived⟩ := ih _ _ _ read
      exact ⟨t :: ts, by simp, .negate kind derived numeric⟩
    · obtain ⟨ts, rfl, derived⟩ := ih _ _ _ read
      exact ⟨t :: ts, by simp, .not kind derived truth⟩

theorem derived_factor (hn : Derived .assignment nested) : Derived .unary (factor nested) :=
  fun s₀ => derived_unary hn (s₀.rest.length + 1) s₀

/-- Operands that are joined to an expression belong to one that starts
with it. -/
theorem derives_of_joined {l : Level} {operand : Parser Expr} (ho : Derived l.next operand)
    {budget : Nat} {e₀ e : Expr} {s₀ s : ParserState} {ts : List Token}
    (start : Derives s₀.declarations s₀.function l e₀ ts)
    (run : joined l.joinOp? operand budget e₀ s₀ = .ok (e, s)) :
    ∃ us, s₀ = s.before us ∧ Derives s.declarations s.function l e (ts ++ us) := by
  induction budget generalizing e₀ s₀ ts with
  | zero => exact absurd run failHere_ne_ok
  | succ budget ih =>
    rcases joined_eq_ok.1 run with ⟨rfl, rfl, -⟩ | ⟨op, t, s₁, s₂, rhs, kind, rfl, read, fits, further⟩
    · exact ⟨[], rfl, by simpa using start⟩
    · obtain ⟨us, rfl, derived⟩ := ho _ _ _ read
      have more : Derives s₂.declarations s₂.function l _ _ := .binary kind start derived fits
      obtain ⟨vs, rfl, whole⟩ := ih more further
      exact ⟨t :: us ++ vs, by simp, by simpa using whole⟩

theorem derived_product (hn : Derived .assignment nested) : Derived .product (product nested) := by
  intro s₀ e s run
  obtain ⟨e₀, s₁, read, further⟩ := bind_eq_ok.1 run
  obtain ⟨ts, rfl, start⟩ := derived_factor hn _ _ _ read
  obtain ⟨us, rfl, derived⟩ := derives_of_joined (l := .product) (derived_factor hn) (.lift start) further
  exact ⟨ts ++ us, by simp, derived⟩

theorem derived_sum (hn : Derived .assignment nested) : Derived .sum (sum nested) := by
  intro s₀ e s run
  obtain ⟨e₀, s₁, read, further⟩ := bind_eq_ok.1 run
  obtain ⟨ts, rfl, start⟩ := derived_product hn _ _ _ read
  obtain ⟨us, rfl, derived⟩ := derives_of_joined (l := .sum) (derived_product hn) (.lift start) further
  exact ⟨ts ++ us, by simp, derived⟩

theorem derived_relation (hn : Derived .assignment nested) : Derived .relation (relation nested) := by
  intro s₀ e s run
  obtain ⟨lhs, s₁, read, ⟨rfl, rfl, -⟩ | ⟨op, t, s₂, rhs, kind, rfl, further, fits, rfl⟩⟩ :=
    relation_eq_ok.1 run
  · exact (derived_sum hn).lift (l := .relation) _ _ _ read
  · obtain ⟨us, rfl, right⟩ := derived_sum hn _ _ _ further
    obtain ⟨ts, rfl, left⟩ := derived_sum hn _ _ _ read
    exact ⟨ts ++ t :: us, by simp, .relational kind left right fits⟩

theorem derived_assignment (hn : Derived .assignment nested) :
    Derived .assignment (assignment nested) := by
  intro s₀ e s run
  obtain ⟨target, s₁, read, ⟨rfl, rfl, -⟩ | ⟨op, t, s₂, value, kind, rfl, further, changeable, fits, rfl⟩⟩ :=
    assignment_eq_ok.1 run
  · exact (derived_relation hn).lift (l := .assignment) _ _ _ read
  · obtain ⟨us, rfl, right⟩ := hn _ _ _ further
    obtain ⟨ts, rfl, left⟩ := derived_relation hn _ _ _ read
    exact ⟨ts ++ t :: us, by simp, .assign kind left right changeable fits⟩

theorem derived_expressionWithin (budget : Nat) : Derived .assignment (expressionWithin budget) := by
  induction budget with
  | zero => exact fun _ _ _ run => absurd run failHere_ne_ok
  | succ budget ih => exact derived_assignment ih

/-- **What the parser of expressions reads is derived.** -/
theorem derived_expression : Derived .assignment expression :=
  fun s₀ => derived_expressionWithin (s₀.rest.length + 1) s₀

end Parser

end Shading
