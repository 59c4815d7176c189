import Shading.Proofs.Grammar.Derivation

/-!
# What is derived is read

A derivation does not say where an expression ends, the next token does:
an operand is read as long as an operator of its level or of a closer one
follows. `Closes` says of a level that the next token is no such thing.

On the levels that are read by a loop, the loop starts with the operand
that stands leftmost, and an expression that is derived from the right is
what the loop has at hand when it comes to its end. What is carried
through the derivation is therefore what the loop still does behind the
expression (`Complete`). Every constructor of a derivation is one lemma
about it.
-/

namespace Shading

open Shading.Parser

/-! ## Where an expression ends -/

/-- Whether a token goes on with an expression of a level. -/
def Level.goesOn (l : Level) (k : TokenKind) : Bool :=
  k == .squareLeft || k == .roundLeft ||
    match l with
    | unary | suffixed => false
    | product => (productOp? k).isSome
    | sum => (sumOp? k).isSome || (productOp? k).isSome
    | relation => (relationalOp? k).isSome || (sumOp? k).isSome || (productOp? k).isSome
    | assignment => (assignmentOp? k).isSome || (relationalOp? k).isSome || (sumOp? k).isSome ||
      (productOp? k).isSome

/-- **An expression of a level ends here**: what follows does not go on
with it. -/
def Closes (l : Level) (rest : List Token) : Prop := ∀ t ∈ rest.head?, l.goesOn t.kind = false

section Closes

variable {l : Level} {t : Token} {rest : List Token}

theorem closes_cons : Closes l (t :: rest) ↔ l.goesOn t.kind = false := by
  simp [Closes]

/-- What ends an expression ends one that binds closer. -/
theorem Closes.next (h : Closes l rest) : Closes l.next rest := by
  intro t ht
  have := h t ht
  cases l <;> simp_all [Level.next, Level.goesOn]

/-- The operator of a level ends an expression of the next one. -/
theorem closes_joinOp {op : BinaryOp} (h : l.joinOp? t.kind = some op) (rest : List Token) :
    Closes l.next (t :: rest) := by
  rw [closes_cons]
  cases l
  case sum => revert h; cases t.kind <;> simp [Level.joinOp?, Level.next, Level.goesOn, sumOp?, productOp?]
  case product => revert h; cases t.kind <;> simp [Level.joinOp?, Level.next, Level.goesOn, productOp?]
  all_goals cases h

theorem closes_relationalOp {op : RelationalOp} (h : relationalOp? t.kind = some op)
    (rest : List Token) : Closes .sum (t :: rest) := by
  rw [closes_cons]
  revert h
  cases t.kind <;> simp [Level.goesOn, relationalOp?, sumOp?, productOp?]

theorem closes_assignmentOp {op : Option BinaryOp} (h : assignmentOp? t.kind = some op)
    (rest : List Token) : Closes .relation (t :: rest) := by
  rw [closes_cons]
  revert h
  cases t.kind <;> simp [Level.goesOn, assignmentOp?, relationalOp?, sumOp?, productOp?]

/-- What separates expressions ends them. -/
theorem closes_of_separator (kind : t.kind = .comma ∨ t.kind = .roundRight ∨ t.kind = .squareRight)
    (rest : List Token) : Closes l (t :: rest) := by
  rw [closes_cons]
  rcases kind with kind | kind | kind <;> rw [kind] <;> cases l <;> rfl

end Closes

/-! ## How a level is read -/

/-- The parser of a level. -/
def Level.parser : Level → Parser Expr → Parser Expr
  | assignment => Parser.assignment
  | relation => Parser.relation
  | sum => Parser.sum
  | product => Parser.product
  | unary => Parser.factor
  | suffixed => Parser.suffixed

/-- **What reading an expression comes to**, where nested expressions are
at most `n` deep and `s` is the state behind the expression. On a level
with a loop, it is what the loop comes to that has the expression at
hand. -/
def Level.Comes (l : Level) (n : Nat) (e : Expr) (ts : List Token) (s : ParserState) : Prop :=
  let nested := expressionWithin n
  match l with
  | sum => Closes .product s.rest → ∀ r,
    (∀ b, s.rest.length < b → joined sumOp? (Parser.product nested) b e s = .ok r) →
      Parser.sum nested (s.before ts) = .ok r
  | product => Closes .unary s.rest → ∀ r,
    (∀ b, s.rest.length < b → joined productOp? (factor nested) b e s = .ok r) →
      Parser.product nested (s.before ts) = .ok r
  | suffixed => ∀ r, (∀ b, s.rest.length < b → suffixes nested b e s = .ok r) →
      Parser.suffixed nested (s.before ts) = .ok r
  | unary => Closes .unary s.rest → ∀ b, (ts ++ s.rest).length < b →
      Parser.unary nested b (s.before ts) = .ok (e, s)
  | relation => Closes .relation s.rest → Parser.relation nested (s.before ts) = .ok (e, s)
  | assignment => Closes .assignment s.rest → Parser.assignment nested (s.before ts) = .ok (e, s)

/-- **An expression is read from its tokens**, whatever comes behind
them. -/
def Complete (d : Declarations) (f : Option FunctionId) (l : Level) (e : Expr) (ts : List Token) :
    Prop :=
  ∀ n (s : ParserState), s.declarations = d → s.function = f → ts.length ≤ n → l.Comes n e ts s

variable {d : Declarations} {f : Option FunctionId} {l : Level} {e : Expr} {ts us : List Token}
  {n : Nat} {s : ParserState} {t left right : Token}

/-- Where an expression ends, it is what its level reads. -/
theorem Level.Comes.run (h : l.Comes n e ts s) (closes : Closes l s.rest) :
    l.parser (expressionWithin n) (s.before ts) = .ok (e, s) := by
  have stop {op? : TokenKind → Option BinaryOp} {operand : Parser Expr}
      (none : ∀ t ∈ s.rest.head?, op? t.kind = none) (b : Nat) (enough : s.rest.length < b) :
      joined op? operand b e s = .ok (e, s) := by
    obtain ⟨b, rfl⟩ := Nat.exists_eq_add_of_lt enough
    exact joined_eq_ok.2 (.inl ⟨rfl, rfl, none⟩)
  cases l with
  | assignment => exact h closes
  | relation => exact h closes
  | sum =>
    refine h closes.next _ (stop fun t ht => ?_)
    have := closes t ht
    simp_all [Level.goesOn]
  | product =>
    refine h closes.next _ (stop fun t ht => ?_)
    have := closes t ht
    simp_all [Level.goesOn]
  | unary => exact h closes _ (Nat.lt_succ_self _)
  | suffixed =>
    refine h _ fun b enough => ?_
    obtain ⟨b, rfl⟩ := Nat.exists_eq_add_of_lt enough
    refine suffixes_eq_ok.2 (.inl ⟨rfl, rfl, fun t ht => ?_⟩)
    have := closes t ht
    simp_all [Level.goesOn]

namespace Complete

/-- An expression in brackets, an argument or a value is read. -/
theorem nested (h : Complete d f .assignment e ts) (hd : s.declarations = d) (hf : s.function = f)
    (deep : ts.length < n) (closes : Closes .assignment s.rest) :
    expressionWithin n (s.before ts) = .ok (e, s) := by
  obtain ⟨n, rfl⟩ := Nat.exists_eq_add_of_lt deep
  exact (h (ts.length + n) s hd hf (Nat.le_add_right _ _)).run closes

/-- An atom is what the loop over subscripts and calls starts with. -/
theorem of_atom (h : ∀ n (s : ParserState), s.declarations = d → s.function = f → ts.length ≤ n →
    atom (expressionWithin n) (s.before ts) = .ok (e, s)) : Complete d f .suffixed e ts := by
  intro n s hd hf deep r more
  rw [Parser.suffixed, run_bind (h n s hd hf deep)]
  exact more _ (Nat.lt_succ_self _)

theorem literal {v : Literal} (spelled : literal? t = .ok (some v)) :
    Complete d f .suffixed (.literal v v.ty t.position) [t] :=
  of_atom fun _ _ _ _ _ => atom_eq_ok.2 (.inl ⟨t, v, spelled, rfl, rfl⟩)

theorem name {id : SymbolId} (kind : t.kind = .identifier)
    (found : d.symbols.find? t.lexeme f = some id) :
    Complete d f .suffixed (.name id (d.symbolTy id) t.position) [t] := by
  refine of_atom fun n s hd hf _ => ?_
  subst hd hf
  exact atom_eq_ok.2 (.inr (.inl ⟨t, id, kind, found, rfl, rfl⟩))

theorem group (opens : left.kind = .roundLeft) (closes : right.kind = .roundRight)
    (inner : Complete d f .assignment e ts) :
    Complete d f .suffixed e (left :: ts ++ [right]) := by
  refine of_atom fun n s hd hf deep => ?_
  refine atom_eq_ok.2 (.inr (.inr ⟨left, right, s.before (ts ++ [right]), opens, closes, by simp, ?_⟩))
  rw [← ParserState.before_before]
  refine inner.nested hd hf (by simp at deep; omega) ?_
  exact closes_of_separator (.inr (.inl closes)) _

theorem subscript {b i : Expr} {element : Ty} (opens : left.kind = .squareLeft)
    (closes : right.kind = .squareRight) (base : Complete d f .suffixed b ts)
    (index : Complete d f .assignment i us) (known : b.ty.element? = some element)
    (integral : i.ty = .int) :
    Complete d f .suffixed (.subscript b i element left.position) (ts ++ left :: us ++ [right]) := by
  intro n s hd hf deep r more
  simp only [List.length_append, List.length_cons, List.length_nil] at deep
  rw [List.append_assoc, List.cons_append, ← ParserState.before_before]
  refine base n (s.before (left :: (us ++ [right]))) hd hf (by omega) r fun k enough => ?_
  obtain ⟨k, rfl⟩ := Nat.exists_eq_add_one_of_ne_zero (Nat.ne_zero_of_lt enough)
  have inner : expressionWithin n (s.before (us ++ [right])) = .ok (i, s.before [right]) := by
    rw [← ParserState.before_before]
    exact index.nested hd hf (by omega) (closes_of_separator (.inr (.inr closes)) _)
  obtain ⟨e', s'⟩ := r
  refine suffixes_eq_ok.2 (.inr (.inl ⟨left, s.before (us ++ [right]), s, _, opens, by simp,
    subscriptOf_eq_ok.2 ⟨i, element, right, closes, inner, known, integral, rfl⟩, more k ?_⟩))
  simp at enough
  omega

/-- Arguments are read up to what ends the last one. -/
theorem arguments {args : List (Expr × List Token)} (some : args ≠ [])
    (complete : ∀ a ∈ args, Complete d f .assignment a.1 a.2) (listed : Commas (args.map Prod.snd) us)
    (hd : s.declarations = d) (hf : s.function = f) (deep : us.length < n)
    (closes : Closes .assignment s.rest) (last : ∀ t ∈ s.rest.head?, t.kind ≠ .comma) {k : Nat}
    (enough : (us ++ s.rest).length < k) :
    argumentList (expressionWithin n) k (s.before us) = .ok (args.map Prod.fst, s) := by
  induction args generalizing us k with
  | nil => exact absurd rfl some
  | cons a args ih =>
    obtain ⟨k, rfl⟩ := Nat.exists_eq_add_one_of_ne_zero (Nat.ne_zero_of_lt enough)
    obtain ⟨first, complete⟩ := List.forall_mem_cons.1 complete
    generalize texts : (a :: args).map Prod.snd = parts at listed
    cases listed with
    | nil => cases texts
    | one ts =>
      obtain ⟨rfl, rfl⟩ : a.2 = us ∧ args = [] := by simpa using texts
      exact argumentList_eq_ok.2 ⟨a.1, s, first.nested hd hf deep closes, .inl ⟨rfl, rfl, last⟩⟩
    | @cons ts us more comma kind rest some =>
      obtain ⟨rfl, rfl⟩ : a.2 = ts ∧ args.map Prod.snd = more := by simpa using texts
      simp only [List.length_append, List.length_cons] at deep enough
      rw [← ParserState.before_before]
      refine argumentList_eq_ok.2 ⟨a.1, s.before (comma :: us), first.nested hd hf (by omega)
        (closes_of_separator (.inl kind) _), .inr ⟨comma, s.before us, args.map Prod.fst, kind,
        by simp, ?_, rfl⟩⟩
      exact ih (by simpa using some) complete rest (by omega) (by simp; omega)

theorem call {symbol : SymbolId} {ty : Ty} {p : Position} {id : FunctionId}
    {args : List (Expr × List Token)} (opens : left.kind = .roundLeft)
    (closes : right.kind = .roundRight) (callee : Complete d f .suffixed (.name symbol ty p) ts)
    (found : d.functions.find? (d.symbolName symbol) = some id)
    (complete : ∀ a ∈ args, Complete d f .assignment a.1 a.2)
    (listed : Commas (args.map Prod.snd) us)
    (start : args ≠ [] → ∃ t more, us = t :: more ∧ t.kind ≠ .roundRight)
    (count : args.length = (d.parameters id).length)
    (fits : firstMismatch? 1 ((d.parameters id).map d.symbolTy) ((args.map Prod.fst).map Expr.ty) =
      none) :
    Complete d f .suffixed (.call id (d.symbolName symbol) (args.map Prod.fst) (d.returnTy id) p)
      (ts ++ left :: us ++ [right]) := by
  intro n s hd hf deep r more
  subst hd hf
  simp only [List.length_append, List.length_cons, List.length_nil] at deep
  rw [List.append_assoc, List.cons_append, ← ParserState.before_before]
  refine callee n (s.before (left :: (us ++ [right]))) rfl rfl (by omega) r fun k enough => ?_
  obtain ⟨k, rfl⟩ := Nat.exists_eq_add_one_of_ne_zero (Nat.ne_zero_of_lt enough)
  have list : (args.map Prod.fst = [] ∧ s.before (us ++ [right]) = s.before [right]) ∨
      ((∀ t ∈ (s.before (us ++ [right])).rest.head?, t.kind ≠ .roundRight) ∧
        argumentList (expressionWithin n) ((s.before (us ++ [right])).rest.length + 1)
          (s.before (us ++ [right])) = .ok (args.map Prod.fst, s.before [right])) := by
    cases args with
    | nil =>
      cases listed
      exact .inl ⟨rfl, rfl⟩
    | cons a args =>
      refine .inr ⟨?_, ?_⟩
      · obtain ⟨t, us, rfl, other⟩ := start (List.cons_ne_nil _ _)
        rintro _ ⟨⟩
        exact other
      · rw [← ParserState.before_before]
        refine arguments (s := s.before [right]) (List.cons_ne_nil _ _) complete listed rfl rfl
          (show us.length < n by omega)
          (closes_of_separator (.inr (.inl closes)) _) ?_ (Nat.lt_succ_self _)
        rintro _ ⟨⟩
        simp [closes]
  obtain ⟨e', s'⟩ := r
  refine suffixes_eq_ok.2 (.inr (.inr ⟨left, s.before (us ++ [right]), s, _, opens, by simp,
    callOf_eq_ok.2 ⟨symbol, ty, p, id, args.map Prod.fst, right, rfl, found, closes, list,
      by simpa using count, fits, rfl⟩, more k ?_⟩))
  simp at enough
  omega

theorem negate (kind : t.kind = .subtract) (operand : Complete d f .unary e ts)
    (numeric : e.ty.isScalar = true ∨ e.ty.isVector = true) :
    Complete d f .unary (.negate e e.ty t.position) (t :: ts) := by
  intro n s hd hf deep closes k enough
  obtain ⟨k, rfl⟩ := Nat.exists_eq_add_one_of_ne_zero (Nat.ne_zero_of_lt enough)
  simp only [List.length_cons, List.cons_append] at deep enough
  have read := operand n s hd hf (by omega) closes k (by omega)
  exact unary_eq_ok.2 (.inr (.inl ⟨t, s.before ts, e, kind, by simp, read, numeric, rfl⟩))

theorem not (kind : t.kind = .logicalNot) (operand : Complete d f .unary e ts)
    (truth : e.ty = .bool) : Complete d f .unary (.not e .bool t.position) (t :: ts) := by
  intro n s hd hf deep closes k enough
  obtain ⟨k, rfl⟩ := Nat.exists_eq_add_one_of_ne_zero (Nat.ne_zero_of_lt enough)
  simp only [List.length_cons, List.cons_append] at deep enough
  have read := operand n s hd hf (by omega) closes k (by omega)
  exact unary_eq_ok.2 (.inr (.inr ⟨t, s.before ts, e, kind, by simp, read, truth, rfl⟩))

/-- One turn of the loop over the operators of a level. -/
theorem joined_step {op? : TokenKind → Option BinaryOp} {operand : Parser Expr} {op : BinaryOp}
    {a b : Expr} {r : Expr × ParserState} (kind : op? t.kind = some op)
    (read : operand (s.before us) = .ok (b, s)) (joins : joins op a.ty b.ty = true)
    (more : ∀ k, s.rest.length < k →
      joined op? operand k (.binary op a b (a.ty.arith b.ty) t.position) s = .ok r)
    (k : Nat) (enough : (s.before (t :: us)).rest.length < k) :
    joined op? operand k a (s.before (t :: us)) = .ok r := by
  obtain ⟨k, rfl⟩ := Nat.exists_eq_add_one_of_ne_zero (Nat.ne_zero_of_lt enough)
  obtain ⟨e', s'⟩ := r
  refine joined_eq_ok.2 (.inr ⟨op, t, s.before us, s, b, kind, by simp, read, joins, more k ?_⟩)
  simp at enough
  omega

theorem binary {op : BinaryOp} {a b : Expr} (kind : l.joinOp? t.kind = some op)
    (lhs : Complete d f l a ts) (rhs : Complete d f l.next b us)
    (joins : joins op a.ty b.ty = true) :
    Complete d f l (.binary op a b (a.ty.arith b.ty) t.position) (ts ++ t :: us) := by
  intro n s hd hf deep
  simp only [List.length_append, List.length_cons] at deep
  have first := lhs n (s.before (t :: us)) hd hf (by omega)
  have second := rhs n s hd hf (by omega)
  have between := closes_joinOp kind (us ++ s.rest)
  cases l with
  | sum =>
    intro closes r more
    rw [← ParserState.before_before]
    exact first between r (joined_step kind (second.run closes) joins more)
  | product =>
    intro closes r more
    rw [← ParserState.before_before]
    exact first between r (joined_step kind (second.run closes) joins more)
  | assignment | relation | unary | suffixed => cases kind

theorem relational {op : RelationalOp} {a b : Expr} (kind : relationalOp? t.kind = some op)
    (lhs : Complete d f .sum a ts) (rhs : Complete d f .sum b us)
    (compares : compares op a.ty b.ty = true) :
    Complete d f .relation (.relational op a b .bool t.position) (ts ++ t :: us) := by
  intro n s hd hf deep closes
  simp only [List.length_append, List.length_cons] at deep
  rw [← ParserState.before_before]
  have first := (lhs n (s.before (t :: us)) hd hf (by omega)).run (closes_relationalOp kind _)
  have second := (rhs n s hd hf (by omega)).run closes.next
  exact relation_eq_ok.2 ⟨a, _, first, .inr ⟨op, t, s.before us, b, kind, by simp, second, compares,
    rfl⟩⟩

theorem assign {op : Option BinaryOp} {a b : Expr} (kind : assignmentOp? t.kind = some op)
    (target : Complete d f .relation a ts) (value : Complete d f .assignment b us)
    (changeable : a.isConstant = false) (assigns : assigns op a.ty b.ty = true) :
    Complete d f .assignment (.assign op a b a.ty t.position) (ts ++ t :: us) := by
  intro n s hd hf deep closes
  simp only [List.length_append, List.length_cons] at deep
  rw [← ParserState.before_before]
  have first := (target n (s.before (t :: us)) hd hf (by omega)).run (closes_assignmentOp kind _)
  have second := value.nested hd hf (show us.length < n by omega) closes
  exact assignment_eq_ok.2 ⟨a, _, first, .inr ⟨op, t, s.before us, b, kind, by simp, second,
    changeable, assigns, rfl⟩⟩

/-- What binds closer is read on a weaker level too, where it does not
start with an operator. -/
theorem lift (closer : Complete d f l.next e ts)
    (start : l = .unary → ∃ t more, ts = t :: more ∧ t.kind ≠ .subtract ∧ t.kind ≠ .logicalNot) :
    Complete d f l e ts := by
  intro n s hd hf deep
  have run := (closer n s hd hf deep).run
  cases l with
  | suffixed => exact closer n s hd hf deep
  | unary =>
    intro closes k enough
    obtain ⟨k, rfl⟩ := Nat.exists_eq_add_one_of_ne_zero (Nat.ne_zero_of_lt enough)
    obtain ⟨t, ts, rfl, other⟩ := start rfl
    refine unary_eq_ok.2 (.inl ⟨?_, run closes⟩)
    rintro _ ⟨⟩
    exact other
  | product =>
    intro closes r more
    have first : factor (expressionWithin n) (s.before ts) = .ok (e, s) := run closes
    rw [Parser.product, run_bind first]
    exact more _ (Nat.lt_succ_self _)
  | sum =>
    intro closes r more
    have first : Parser.product (expressionWithin n) (s.before ts) = .ok (e, s) := run closes
    rw [Parser.sum, run_bind first]
    exact more _ (Nat.lt_succ_self _)
  | relation =>
    intro closes
    refine relation_eq_ok.2 ⟨e, s, run closes.next, .inl ⟨rfl, rfl, fun t ht => ?_⟩⟩
    have := closes t ht
    simp_all [Level.goesOn]
  | assignment =>
    intro closes
    refine assignment_eq_ok.2 ⟨e, s, run closes.next, .inl ⟨rfl, rfl, fun t ht => ?_⟩⟩
    have := closes t ht
    simp_all [Level.goesOn]

end Complete

/-- **How an expression starts**: with no closing parenthesis, and on the
closest level with no operator. -/
theorem Derives.starts (h : Derives d f l e ts) : ∃ t more, ts = t :: more ∧ t.kind ≠ .roundRight ∧
    (l = .suffixed → t.kind ≠ .subtract ∧ t.kind ≠ .logicalNot) := by
  induction h with
  | @literal t v spelled =>
    refine ⟨t, [], rfl, ?_⟩
    revert spelled
    cases kind : t.kind <;> simp [literal?, kind]
  | name kind found => exact ⟨_, [], rfl, by simp [kind], by simp [kind]⟩
  | group opens closes inner ih => exact ⟨_, _, rfl, by simp [opens], by simp [opens]⟩
  | subscript opens closes base index element integral ihb ihi =>
    obtain ⟨t, more, rfl, start⟩ := ihb
    exact ⟨t, _, rfl, start⟩
  | call opens closes callee found derived listed count fits ihc ih =>
    obtain ⟨t, more, rfl, start⟩ := ihc
    exact ⟨t, _, rfl, start⟩
  | negate kind => exact ⟨_, _, rfl, by simp [kind], by simp⟩
  | not kind => exact ⟨_, _, rfl, by simp [kind], by simp⟩
  | binary kind lhs rhs joins ihl ihr =>
    obtain ⟨t, more, rfl, start⟩ := ihl
    exact ⟨t, _, rfl, start⟩
  | relational kind lhs rhs compares ihl ihr =>
    obtain ⟨t, more, rfl, start, -⟩ := ihl
    exact ⟨t, _, rfl, start, by simp⟩
  | assign kind target value changeable assigns iht ihv =>
    obtain ⟨t, more, rfl, start, -⟩ := iht
    exact ⟨t, _, rfl, start, by simp⟩
  | @lift l e ts closer ih =>
    obtain ⟨t, more, rfl, start, prefixed⟩ := ih
    refine ⟨t, more, rfl, start, ?_⟩
    rintro rfl
    exact prefixed rfl

/-- **What is derived is read**, whatever its level. -/
theorem Derives.complete (h : Derives d f l e ts) : Complete d f l e ts := by
  induction h with
  | literal spelled => exact .literal spelled
  | name kind found => exact .name kind found
  | group opens closes inner ih => exact .group opens closes ih
  | subscript opens closes base index element integral ihb ihi =>
    exact .subscript opens closes ihb ihi element integral
  | @call _ _ _ _ _ _ args _ us opens closes callee found derived listed count fits ihc ih =>
    refine .call opens closes ihc found ih listed (fun some => ?_) count fits
    cases args with
    | nil => exact absurd rfl some
    | cons a args =>
      obtain ⟨t, more, first, other, -⟩ := (derived a List.mem_cons_self).starts
      simp only [List.map_cons, first] at listed
      generalize args.map Prod.snd = rest at listed
      cases listed with
      | one => exact ⟨t, more, rfl, other⟩
      | cons => exact ⟨t, _, rfl, other⟩
  | negate kind operand numeric ih => exact .negate kind ih numeric
  | not kind operand truth ih => exact .not kind ih truth
  | binary kind lhs rhs joins ihl ihr => exact .binary kind ihl ihr joins
  | relational kind lhs rhs compares ihl ihr => exact .relational kind ihl ihr compares
  | assign kind target value changeable assigns iht ihv =>
    exact .assign kind iht ihv changeable assigns
  | @lift l e ts closer ih =>
    refine .lift ih ?_
    rintro rfl
    obtain ⟨t, more, rfl, -, start⟩ := closer.starts
    exact ⟨t, more, rfl, start rfl⟩

/-- **An expression is read from the tokens that are derived for it**, up
to where it ends. -/
theorem Parser.expression_of_derives {s : ParserState}
    (h : Derives s.declarations s.function .assignment e ts) (closes : Closes .assignment s.rest) :
    expression (s.before ts) = .ok (e, s) := by
  refine h.complete.nested (n := (ts ++ s.rest).length + 1) rfl rfl ?_ closes
  rw [List.length_append]
  omega

end Shading
