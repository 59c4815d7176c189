import Shading.Parser.Expression
import Shading.Proofs.Outcome

/-!
# What the parsers of expressions do

A parser of expressions takes tokens from the front of those that are
still to be read, and changes nothing else. A state in front of some
tokens is therefore written in terms of the state behind them
(`ParserState.before`), and each parser gets one statement that says when
it gives a result, from which state and by which steps. Nested
expressions are read by any parser at all here.
-/

namespace Shading

/-- **The state in front of some tokens**, given the state behind them. -/
def ParserState.before (s : ParserState) (ts : List Token) : ParserState :=
  { s with rest := ts ++ s.rest }

namespace ParserState

variable {s s₀ s₁ : ParserState} {t u : Token} {ts us : List Token}

@[simp] theorem before_nil : s.before [] = s := rfl

@[simp] theorem before_before : (s.before us).before ts = s.before (ts ++ us) := by
  simp [before]

@[simp] theorem before_rest : (s.before ts).rest = ts ++ s.rest := rfl

@[simp] theorem before_declarations : (s.before ts).declarations = s.declarations := rfl

@[simp] theorem before_function : (s.before ts).function = s.function := rfl

/-- A state is at the end of the tokens or in front of one. -/
theorem empty_or_before (s₀ : ParserState) :
    s₀.rest = [] ∨ ∃ (t : Token) (s : ParserState), s₀ = s.before [t] := by
  obtain ⟨source, rest, d, f⟩ := s₀
  cases rest with
  | nil => exact .inl rfl
  | cons t rest => exact .inr ⟨t, ⟨source, rest, d, f⟩, rfl⟩

/-- The state behind some tokens is determined by them. -/
theorem before_cancel (h : s.before ts = s₁.before ts) : s = s₁ := by
  obtain ⟨source, rest, d, f⟩ := s
  obtain ⟨source', rest', d', f'⟩ := s₁
  simpa [before] using h

/-- A state is in front of one token in one way. -/
theorem before_inj : s.before [t] = s₁.before [u] ↔ t = u ∧ s = s₁ := by
  constructor
  · intro h
    obtain rfl : t = u := List.head_eq_of_cons_eq (congrArg rest h)
    exact ⟨rfl, before_cancel h⟩
  · rintro ⟨rfl, rfl⟩
    rfl

theorem ne_before_of_empty (h : s₀.rest = []) : s₀ ≠ s.before (t :: ts) := by
  rintro rfl
  cases h

end ParserState

namespace Parser

open ParserState

variable {α β : Type} {s s₀ s₁ : ParserState} {t : Token} {a : α} {b : β}

/-! ## Single steps -/

/-- What follows a step that gives a value. -/
theorem run_bind {p : Parser α} (h : p s₀ = .ok (a, s)) (k : α → Parser β) :
    (p >>= k) s₀ = k a s := by
  change (StateT.bind p k) s₀ = _
  simp only [StateT.bind, h, Bind.bind, Except.bind]

@[simp] theorem failAt_ne_ok {p : Position} {c : Complaint} :
    (failAt p c : Parser α) s₀ ≠ .ok (a, s) := by
  intro h
  cases h

@[simp] theorem failHere_ne_ok {c : Complaint} : (failHere c : Parser α) s₀ ≠ .ok (a, s) := by
  intro h
  unfold failHere at h
  split at h <;> cases h

/-- What looks at the next token either stands at the end of the tokens or
in front of one. -/
theorem peek_bind_eq_ok {k : Option Token → Parser β} : (peek? >>= k) s₀ = .ok (b, s) ↔
    (s₀.rest = [] ∧ k none s₀ = .ok (b, s)) ∨
      ∃ (t : Token) (s₁ : ParserState), s₀ = s₁.before [t] ∧ k (some t) (s₁.before [t]) = .ok (b, s) := by
  change k s₀.rest.head? s₀ = _ ↔ _
  rcases empty_or_before s₀ with empty | ⟨t, s₁, rfl⟩
  · simp [empty, ne_before_of_empty]
  · simp only [before_rest, List.singleton_append, List.head?_cons, reduceCtorEq, false_and, false_or]
    constructor
    · intro h
      exact ⟨t, s₁, rfl, h⟩
    · rintro ⟨u, s₂, here, h⟩
      obtain ⟨rfl, rfl⟩ := before_inj.1 here
      exact h

/-- Passing over the next token. -/
@[simp] theorem skip_bind (k : Unit → Parser β) : (skip >>= k) (s.before [t]) = k () s := rfl

@[simp] theorem remaining_bind (k : Nat → Parser β) : (remaining >>= k) s = k s.rest.length s := rfl

@[simp] theorem declarations_bind (k : Declarations → Parser β) :
    (declarations >>= k) s = k s.declarations s := rfl

@[simp] theorem currentFunction_bind (k : Option FunctionId → Parser β) :
    (currentFunction >>= k) s = k s.function s := rfl

/-- A token of a kind is read where it is the next one. -/
theorem expect_eq_ok {k : TokenKind} {c : Complaint} :
    expect k c s₀ = .ok (t, s) ↔ t.kind = k ∧ s₀ = s.before [t] := by
  rw [expect, peek_bind_eq_ok]
  constructor
  · rintro (⟨-, h⟩ | ⟨u, s₁, rfl, h⟩)
    · exact absurd h failHere_ne_ok
    · dsimp only at h
      split at h
      · next kind =>
        cases h
        exact ⟨kind, rfl⟩
      · exact absurd h failHere_ne_ok
  · rintro ⟨rfl, rfl⟩
    refine .inr ⟨t, s, rfl, ?_⟩
    simp only [if_true]
    rfl

theorem sees_eq_ok {k : TokenKind} {b : Bool} :
    sees k s₀ = .ok (b, s) ↔ s₀ = s ∧ b = s.rest.head?.any (fun t => t.kind == k) := by
  change Except.ok (_, s₀) = Except.ok (b, s) ↔ _
  grind

/-- A token of a kind is passed over if it is the next one. -/
theorem accept_eq_ok {k : TokenKind} {b : Bool} : accept k s₀ = .ok (b, s) ↔
    (b = true ∧ ∃ t : Token, t.kind = k ∧ s₀ = s.before [t]) ∨
      (b = false ∧ s₀ = s ∧ ∀ t ∈ s.rest.head?, t.kind ≠ k) := by
  have look : sees k s₀ = .ok (s₀.rest.head?.any (fun t => t.kind == k), s₀) := rfl
  rw [accept, run_bind look]
  rcases empty_or_before s₀ with empty | ⟨t, s₁, rfl⟩
  · simp only [empty, List.head?_nil, Option.any_none, Bool.false_eq_true, if_false, pure_eq_ok]
    constructor
    · rintro ⟨rfl, rfl⟩
      exact .inr ⟨rfl, rfl, by simp [empty]⟩
    · rintro (⟨-, t, -, here⟩ | ⟨rfl, rfl, -⟩)
      · exact absurd here (ne_before_of_empty empty)
      · exact ⟨rfl, rfl⟩
  · by_cases kind : t.kind = k
    · simp only [before_rest, List.singleton_append, List.head?_cons, Option.any_some, kind,
        beq_self_eq_true, if_true, skip_bind, pure_eq_ok]
      constructor
      · rintro ⟨rfl, rfl⟩
        exact .inl ⟨rfl, t, kind, rfl⟩
      · rintro (⟨rfl, u, -, here⟩ | ⟨-, rfl, other⟩)
        · exact ⟨rfl, (before_inj.1 here).2⟩
        · exact absurd kind (other t rfl)
    · simp only [before_rest, List.singleton_append, List.head?_cons, Option.any_some,
        beq_eq_false_iff_ne.2 kind, Bool.false_eq_true, if_false, pure_eq_ok]
      constructor
      · rintro ⟨rfl, rfl⟩
        refine .inr ⟨rfl, rfl, ?_⟩
        rintro _ ⟨⟩
        exact kind
      · rintro (⟨-, u, other, here⟩ | ⟨rfl, rfl, -⟩)
        · exact absurd ((before_inj.1 here).1 ▸ other) kind
        · exact ⟨rfl, rfl⟩

/-- **An operator is read** where it is the next token. -/
theorem takeOp_eq_ok {op? : TokenKind → Option α} {r : Option (α × Token)} :
    takeOp? op? s₀ = .ok (r, s) ↔
      (r = none ∧ s₀ = s ∧ ∀ t ∈ s.rest.head?, op? t.kind = none) ∨
        ∃ a t, r = some (a, t) ∧ op? t.kind = some a ∧ s₀ = s.before [t] := by
  rw [takeOp?, peek_bind_eq_ok]
  constructor
  · rintro (⟨empty, h⟩ | ⟨t, s₁, rfl, h⟩)
    · cases h
      exact .inl ⟨rfl, rfl, by simp [empty]⟩
    · dsimp only at h
      cases op : op? t.kind with
      | none =>
        rw [op] at h
        cases h
        refine .inl ⟨rfl, rfl, ?_⟩
        rintro _ ⟨⟩
        exact op
      | some a =>
        rw [op] at h
        cases h
        exact .inr ⟨a, t, rfl, op, rfl⟩
  · rintro (⟨rfl, rfl, none⟩ | ⟨a, t, rfl, op, rfl⟩)
    · rcases empty_or_before s₀ with empty | ⟨t, s₁, rfl⟩
      · exact .inl ⟨empty, rfl⟩
      · refine .inr ⟨t, s₁, rfl, ?_⟩
        simp only [none t rfl]
        rfl
    · refine .inr ⟨t, s, rfl, ?_⟩
      simp only [op]
      rfl

/-! ## Atoms and suffixes -/

variable {nested : Parser Expr} {e e₀ : Expr}

theorem literal?_of_identifier (h : t.kind = .identifier) : literal? t = .ok none := by
  simp [literal?, h]

theorem literal?_of_roundLeft (h : t.kind = .roundLeft) : literal? t = .ok none := by
  simp [literal?, h]

/-- **What an atom is**: a literal, a name that is found, or an expression
in parentheses. -/
theorem atom_eq_ok : atom nested s₀ = .ok (e, s) ↔
    (∃ t v, literal? t = .ok (some v) ∧ s₀ = s.before [t] ∧ e = .literal v v.ty t.position) ∨
    (∃ t id, t.kind = .identifier ∧ s.declarations.symbols.find? t.lexeme s.function = some id ∧
      s₀ = s.before [t] ∧ e = .name id (s.declarations.symbolTy id) t.position) ∨
    ∃ (left right : Token) (s₁ : ParserState), left.kind = .roundLeft ∧ right.kind = .roundRight ∧
      s₀ = s₁.before [left] ∧ nested s₁ = .ok (e, s.before [right]) := by
  rw [atom, peek_bind_eq_ok]
  constructor
  · rintro (⟨-, h⟩ | ⟨t, s₁, rfl, h⟩)
    · exact absurd h failHere_ne_ok
    · simp only [skip_bind] at h
      rcases spelled : literal? t with cause | (_ | v)
      · rw [spelled] at h
        exact absurd h failAt_ne_ok
      · simp only [spelled] at h
        split at h
        · next kind =>
          simp only [nameExpr, declarations_bind, currentFunction_bind] at h
          cases found : s₁.declarations.symbols.find? t.lexeme s₁.function with
          | some id =>
            rw [found] at h
            cases h
            exact .inr (.inl ⟨t, id, kind, found, rfl, rfl⟩)
          | none =>
            rw [found] at h
            exact absurd h failAt_ne_ok
        · split at h
          · next kind =>
            obtain ⟨e', s₂, inner, h₂⟩ := bind_eq_ok.1 h
            obtain ⟨right, s₃, closing, h₃⟩ := bind_eq_ok.1 h₂
            obtain ⟨closes, rfl⟩ := expect_eq_ok.1 closing
            cases h₃
            exact .inr (.inr ⟨t, right, s₁, kind, closes, rfl, inner⟩)
          · exact absurd h failAt_ne_ok
      · rw [spelled] at h
        cases h
        exact .inl ⟨t, v, spelled, rfl, rfl⟩
  · rintro (⟨t, v, spelled, rfl, rfl⟩ | ⟨t, id, kind, found, rfl, rfl⟩ |
      ⟨left, right, s₁, opens, closes, rfl, inner⟩)
    · refine .inr ⟨t, s, rfl, ?_⟩
      simp only [skip_bind, spelled]
      rfl
    · refine .inr ⟨t, s, rfl, ?_⟩
      simp only [skip_bind, literal?_of_identifier kind, kind, if_true, nameExpr, declarations_bind,
        currentFunction_bind, found]
      rfl
    · refine .inr ⟨left, s₁, rfl, ?_⟩
      simp only [skip_bind, literal?_of_roundLeft opens, opens, if_true]
      rw [if_neg (by decide), run_bind inner, run_bind (expect_eq_ok.2 ⟨closes, rfl⟩)]
      rfl

/-- A subscript is an integer in brackets behind what has elements. -/
theorem subscriptOf_eq_ok {base : Expr} {bracket : Token} :
    subscriptOf nested base bracket s₀ = .ok (e, s) ↔
      ∃ (index : Expr) (element : Ty) (right : Token), right.kind = .squareRight ∧
        nested s₀ = .ok (index, s.before [right]) ∧ base.ty.element? = some element ∧
        index.ty = .int ∧ e = .subscript base index element bracket.position := by
  rw [subscriptOf, bind_eq_ok]
  constructor
  · rintro ⟨index, s₁, inner, h⟩
    obtain ⟨right, s₂, closing, h₁⟩ := bind_eq_ok.1 h
    obtain ⟨closes, rfl⟩ := expect_eq_ok.1 closing
    cases known : base.ty.element? with
    | none =>
      rw [known] at h₁
      exact absurd h₁ failAt_ne_ok
    | some element =>
      simp only [known] at h₁
      split at h₁
      · next integral =>
        cases h₁
        exact ⟨index, element, right, closes, inner, rfl, integral, rfl⟩
      · exact absurd h₁ failAt_ne_ok
  · rintro ⟨index, element, right, closes, inner, known, integral, rfl⟩
    refine ⟨index, _, inner, ?_⟩
    rw [run_bind (expect_eq_ok.2 ⟨closes, rfl⟩)]
    simp only [known, integral, if_true]
    rfl

/-- Arguments go on behind a comma. -/
theorem argumentList_eq_ok {budget : Nat} {es : List Expr} :
    argumentList nested (budget + 1) s₀ = .ok (es, s) ↔
      ∃ (e : Expr) (s₁ : ParserState), nested s₀ = .ok (e, s₁) ∧
        ((es = [e] ∧ s₁ = s ∧ ∀ t ∈ s.rest.head?, t.kind ≠ .comma) ∨
          ∃ (t : Token) (s₂ : ParserState) (more : List Expr), t.kind = .comma ∧
            s₁ = s₂.before [t] ∧ argumentList nested budget s₂ = .ok (more, s) ∧ es = e :: more) := by
  rw [argumentList, bind_eq_ok]
  refine exists_congr fun e => exists_congr fun s₁ => and_congr_right fun _ => ?_
  constructor
  · intro h
    obtain ⟨b, s₂, comma, h₁⟩ := bind_eq_ok.1 h
    rcases accept_eq_ok.1 comma with ⟨rfl, t, kind, rfl⟩ | ⟨rfl, rfl, other⟩
    · rw [if_pos rfl] at h₁
      obtain ⟨more, s₃, read, h₂⟩ := bind_eq_ok.1 h₁
      cases h₂
      exact .inr ⟨t, s₂, more, kind, rfl, read, rfl⟩
    · cases h₁
      exact .inl ⟨rfl, rfl, other⟩
  · rintro (⟨rfl, rfl, other⟩ | ⟨t, s₂, more, kind, rfl, read, rfl⟩)
    · rw [run_bind (accept_eq_ok.2 (.inr ⟨rfl, rfl, other⟩))]
      rfl
    · rw [run_bind (accept_eq_ok.2 (.inl ⟨rfl, t, kind, rfl⟩)), if_pos rfl, run_bind read]
      rfl

/-- The parenthesis behind an expression calls the function that its name
is found for. -/
theorem calleeOf_eq_ok {callee : Expr} {paren : Token} {r : FunctionId × String} :
    calleeOf callee paren s₀ = .ok (r, s) ↔ s₀ = s ∧ ∃ symbol ty p,
      callee = .name symbol ty p ∧ r.2 = s.declarations.symbolName symbol ∧
        s.declarations.functions.find? r.2 = some r.1 := by
  constructor
  · intro h
    cases callee
    case name symbol ty p =>
      simp only [calleeOf, declarations_bind] at h
      cases found : s₀.declarations.functions.find? (s₀.declarations.symbolName symbol) with
      | some id =>
        rw [found] at h
        cases h
        exact ⟨rfl, symbol, ty, p, rfl, rfl, found⟩
      | none =>
        rw [found] at h
        exact absurd h failAt_ne_ok
    all_goals exact absurd h failAt_ne_ok
  · rintro ⟨rfl, symbol, ty, p, rfl, name, found⟩
    obtain ⟨id, name'⟩ := r
    dsimp only at name found
    subst name
    simp only [calleeOf, declarations_bind, found]
    rfl

/-- The end of a call behind its arguments. -/
theorem argumentsOf_eq_ok {id : FunctionId} {name : String} {args : List Expr} {p : Position} :
    (do
      let _ ← expect .roundRight (.expected ")")
      let d ← declarations
      let parameters := (d.parameters id).map d.symbolTy
      if args.length ≠ parameters.length then
        failAt t.position (.argumentCount name parameters.length args.length)
      else
        match firstMismatch? 1 parameters (args.map Expr.ty) with
        | some (number, expected, given) =>
          failAt t.position (.argument number name expected given)
        | none => return .call id name args (d.returnTy id) p : Parser Expr) s₀ = .ok (e, s) ↔
      ∃ right : Token, right.kind = .roundRight ∧ s₀ = s.before [right] ∧
        args.length = (s.declarations.parameters id).length ∧
        firstMismatch? 1 ((s.declarations.parameters id).map s.declarations.symbolTy)
          (args.map Expr.ty) = none ∧
        e = .call id name args (s.declarations.returnTy id) p := by
  rw [bind_eq_ok]
  constructor
  · rintro ⟨right, s₁, closing, h⟩
    obtain ⟨closes, rfl⟩ := expect_eq_ok.1 closing
    simp only [declarations_bind, List.length_map] at h
    split at h
    · exact absurd h failAt_ne_ok
    · next count =>
      rcases fits : firstMismatch? 1 ((s₁.declarations.parameters id).map s₁.declarations.symbolTy)
        (args.map Expr.ty) with _ | ⟨number, expected, given⟩
      · rw [fits] at h
        cases h
        exact ⟨right, closes, rfl, Decidable.not_not.1 count, fits, rfl⟩
      · rw [fits] at h
        exact absurd h failAt_ne_ok
  · rintro ⟨right, closes, rfl, count, fits, rfl⟩
    refine ⟨right, s, expect_eq_ok.2 ⟨closes, rfl⟩, ?_⟩
    simp only [declarations_bind, List.length_map, count, ne_eq, not_true_eq_false, if_false, fits]
    rfl

/-- **What a call is**: arguments in parentheses behind a name, as many as
the function has parameters and each of a type that its parameter
takes. -/
theorem callOf_eq_ok {callee : Expr} {paren : Token} : callOf nested callee paren s₀ = .ok (e, s) ↔
    ∃ symbol ty p id args, ∃ right : Token, callee = .name symbol ty p ∧
      s₀.declarations.functions.find? (s₀.declarations.symbolName symbol) = some id ∧
      right.kind = .roundRight ∧
      ((args = [] ∧ s₀ = s.before [right]) ∨
        ((∀ t ∈ s₀.rest.head?, t.kind ≠ .roundRight) ∧
          argumentList nested (s₀.rest.length + 1) s₀ = .ok (args, s.before [right]))) ∧
      args.length = (s.declarations.parameters id).length ∧
      firstMismatch? 1 ((s.declarations.parameters id).map s.declarations.symbolTy)
        (args.map Expr.ty) = none ∧
      e = .call id (s₀.declarations.symbolName symbol) args (s.declarations.returnTy id) p := by
  have look : sees .roundRight s₀ = .ok (s₀.rest.head?.any (fun t => t.kind == .roundRight), s₀) :=
    rfl
  rw [callOf, bind_eq_ok]
  constructor
  · rintro ⟨⟨id, name⟩, s₁, called, h⟩
    obtain ⟨rfl, symbol, ty, p, rfl, rfl, known⟩ := calleeOf_eq_ok.1 called
    refine ⟨symbol, ty, p, id, ?_⟩
    simp only [run_bind look] at h
    split at h
    · next empty =>
      obtain ⟨right, closes, here, count, fits, rfl⟩ := argumentsOf_eq_ok.1 h
      exact ⟨[], right, rfl, known, closes, .inl ⟨rfl, here⟩, count, fits, rfl⟩
    · next more =>
      simp only [remaining_bind] at h
      obtain ⟨args, s₂, list, h₁⟩ := bind_eq_ok.1 h
      obtain ⟨right, closes, rfl, count, fits, rfl⟩ := argumentsOf_eq_ok.1 h₁
      refine ⟨args, right, rfl, known, closes, .inr ⟨fun t ht kind => more ?_, list⟩, count, fits, rfl⟩
      simp [Option.mem_def.1 ht, kind]
  · rintro ⟨symbol, ty, p, id, args, right, rfl, known, closes, list, count, fits, rfl⟩
    refine ⟨(id, s₀.declarations.symbolName symbol), s₀,
      calleeOf_eq_ok.2 ⟨rfl, symbol, ty, p, rfl, rfl, known⟩, ?_⟩
    simp only [run_bind look]
    rcases list with ⟨rfl, rfl⟩ | ⟨other, list⟩
    · rw [if_pos (by simp [closes])]
      exact argumentsOf_eq_ok.2 ⟨right, closes, rfl, count, fits, rfl⟩
    · rw [if_neg, remaining_bind, run_bind list]
      · exact argumentsOf_eq_ok.2 ⟨right, closes, rfl, count, fits, rfl⟩
      · intro sees
        obtain ⟨t, ht, kind⟩ := Option.any_eq_true _ _ |>.1 sees
        exact other t ht (by simpa using kind)

/-- Behind an expression stand subscripts and calls, or neither. -/
theorem suffixes_eq_ok {budget : Nat} : suffixes nested (budget + 1) e₀ s₀ = .ok (e, s) ↔
    (e = e₀ ∧ s₀ = s ∧ ∀ t ∈ s.rest.head?, t.kind ≠ .squareLeft ∧ t.kind ≠ .roundLeft) ∨
    (∃ (t : Token) (s₁ s₂ : ParserState) (e₁ : Expr), t.kind = .squareLeft ∧ s₀ = s₁.before [t] ∧
      subscriptOf nested e₀ t s₁ = .ok (e₁, s₂) ∧ suffixes nested budget e₁ s₂ = .ok (e, s)) ∨
    ∃ (t : Token) (s₁ s₂ : ParserState) (e₁ : Expr), t.kind = .roundLeft ∧ s₀ = s₁.before [t] ∧
      callOf nested e₀ t s₁ = .ok (e₁, s₂) ∧ suffixes nested budget e₁ s₂ = .ok (e, s) := by
  rw [suffixes, peek_bind_eq_ok]
  constructor
  · rintro (⟨empty, h⟩ | ⟨t, s₁, rfl, h⟩)
    · cases h
      exact .inl ⟨rfl, rfl, by simp [empty]⟩
    · dsimp only at h
      split at h
      · next kind =>
        obtain ⟨e₁, s₂, read, h₁⟩ := bind_eq_ok.1 (skip_bind _ ▸ h)
        exact .inr (.inl ⟨t, s₁, s₂, e₁, kind, rfl, read, h₁⟩)
      · next square =>
        split at h
        · next kind =>
          obtain ⟨e₁, s₂, read, h₁⟩ := bind_eq_ok.1 (skip_bind _ ▸ h)
          exact .inr (.inr ⟨t, s₁, s₂, e₁, kind, rfl, read, h₁⟩)
        · next round =>
          cases h
          refine .inl ⟨rfl, rfl, ?_⟩
          rintro _ ⟨⟩
          exact ⟨square, round⟩
  · rintro (⟨rfl, rfl, other⟩ | ⟨t, s₁, s₂, e₁, kind, rfl, read, h⟩ |
      ⟨t, s₁, s₂, e₁, kind, rfl, read, h⟩)
    · rcases empty_or_before s₀ with empty | ⟨t, s₁, rfl⟩
      · exact .inl ⟨empty, rfl⟩
      · obtain ⟨square, round⟩ := other t rfl
        refine .inr ⟨t, s₁, rfl, ?_⟩
        simp only [square, round, if_false]
        rfl
    · refine .inr ⟨t, s₁, rfl, ?_⟩
      simp only [kind, if_true, skip_bind]
      exact bind_eq_ok.2 ⟨e₁, s₂, read, h⟩
    · refine .inr ⟨t, s₁, rfl, ?_⟩
      simp only [kind, reduceCtorEq, if_true, if_false, skip_bind]
      exact bind_eq_ok.2 ⟨e₁, s₂, read, h⟩

/-! ## Operators -/

/-- In front of an expression stand operators, or none. -/
theorem unary_eq_ok {budget : Nat} : unary nested (budget + 1) s₀ = .ok (e, s) ↔
    ((∀ t ∈ s₀.rest.head?, t.kind ≠ .subtract ∧ t.kind ≠ .logicalNot) ∧
      suffixed nested s₀ = .ok (e, s)) ∨
    (∃ (t : Token) (s₁ : ParserState) (x : Expr), t.kind = .subtract ∧ s₀ = s₁.before [t] ∧
      unary nested budget s₁ = .ok (x, s) ∧ (x.ty.isScalar = true ∨ x.ty.isVector = true) ∧
      e = .negate x x.ty t.position) ∨
    ∃ (t : Token) (s₁ : ParserState) (x : Expr), t.kind = .logicalNot ∧ s₀ = s₁.before [t] ∧
      unary nested budget s₁ = .ok (x, s) ∧ x.ty = .bool ∧ e = .not x .bool t.position := by
  rw [unary, peek_bind_eq_ok]
  constructor
  -- The function looks at the first token only: at the end of the input it goes on with
  -- the postfix form, and so it does at any token that is no sign.
  · rintro (⟨empty, h⟩ | ⟨t, s₁, rfl, h⟩)
    · exact .inl ⟨by simp [empty], h⟩
    · dsimp only at h
      split at h
      · next kind =>
        obtain ⟨x, s₂, read, h₁⟩ := bind_eq_ok.1 (skip_bind _ ▸ h)
        split at h₁
        · next numeric =>
          cases h₁
          exact .inr (.inl ⟨t, s₁, x, kind, rfl, read, by simpa using numeric, rfl⟩)
        · exact absurd h₁ failAt_ne_ok
      · next minus =>
        split at h
        · next kind =>
          obtain ⟨x, s₂, read, h₁⟩ := bind_eq_ok.1 (skip_bind _ ▸ h)
          split at h₁
          · next truth =>
            cases h₁
            exact .inr (.inr ⟨t, s₁, x, kind, rfl, read, truth, rfl⟩)
          · exact absurd h₁ failAt_ne_ok
        · next not =>
          refine .inl ⟨?_, h⟩
          rintro _ ⟨⟩
          exact ⟨minus, not⟩
  · rintro (⟨other, h⟩ | ⟨t, s₁, x, kind, rfl, read, numeric, rfl⟩ |
      ⟨t, s₁, x, kind, rfl, read, truth, rfl⟩)
    · rcases empty_or_before s₀ with empty | ⟨t, s₁, rfl⟩
      · exact .inl ⟨empty, h⟩
      · obtain ⟨minus, not⟩ := other t rfl
        refine .inr ⟨t, s₁, rfl, ?_⟩
        simp only [minus, not, if_false]
        exact h
    · refine .inr ⟨t, s₁, rfl, ?_⟩
      simp only [kind, if_true, skip_bind]
      refine bind_eq_ok.2 ⟨x, s, read, ?_⟩
      rw [if_pos (by simpa using numeric)]
      rfl
    · refine .inr ⟨t, s₁, rfl, ?_⟩
      simp only [kind, reduceCtorEq, if_true, if_false, skip_bind]
      refine bind_eq_ok.2 ⟨x, s, read, ?_⟩
      rw [if_pos truth]
      rfl

/-- Operands of one level are joined as long as there is an operator. -/
theorem joined_eq_ok {op? : TokenKind → Option BinaryOp} {operand : Parser Expr} {budget : Nat} :
    joined op? operand (budget + 1) e₀ s₀ = .ok (e, s) ↔
      (e = e₀ ∧ s₀ = s ∧ ∀ t ∈ s.rest.head?, op? t.kind = none) ∨
      ∃ op, ∃ (t : Token) (s₁ s₂ : ParserState) (rhs : Expr), op? t.kind = some op ∧
        s₀ = s₁.before [t] ∧ operand s₁ = .ok (rhs, s₂) ∧ joins op e₀.ty rhs.ty = true ∧
        joined op? operand budget (.binary op e₀ rhs (e₀.ty.arith rhs.ty) t.position) s₂ =
          .ok (e, s) := by
  rw [joined, bind_eq_ok]
  constructor
  · rintro ⟨r, s₁, taken, h⟩
    rcases takeOp_eq_ok.1 taken with ⟨rfl, rfl, none⟩ | ⟨op, t, rfl, known, rfl⟩
    · cases h
      exact .inl ⟨rfl, rfl, none⟩
    · obtain ⟨rhs, s₂, read, h₁⟩ := bind_eq_ok.1 h
      split at h₁
      · next fits => exact .inr ⟨op, t, s₁, s₂, rhs, known, rfl, read, fits, h₁⟩
      · exact absurd h₁ failAt_ne_ok
  · rintro (⟨rfl, rfl, none⟩ | ⟨op, t, s₁, s₂, rhs, known, rfl, read, fits, h⟩)
    · exact ⟨_, s₀, takeOp_eq_ok.2 (.inl ⟨rfl, rfl, none⟩), rfl⟩
    · refine ⟨_, s₁, takeOp_eq_ok.2 (.inr ⟨op, t, rfl, known, rfl⟩), ?_⟩
      refine bind_eq_ok.2 ⟨rhs, s₂, read, ?_⟩
      rw [if_pos fits]
      exact h

/-- A comparison has one operator at most. -/
theorem relation_eq_ok : relation nested s₀ = .ok (e, s) ↔
    ∃ (lhs : Expr) (s₁ : ParserState), sum nested s₀ = .ok (lhs, s₁) ∧
      ((e = lhs ∧ s₁ = s ∧ ∀ t ∈ s.rest.head?, relationalOp? t.kind = none) ∨
        ∃ op, ∃ (t : Token) (s₂ : ParserState) (rhs : Expr), relationalOp? t.kind = some op ∧
          s₁ = s₂.before [t] ∧ sum nested s₂ = .ok (rhs, s) ∧ compares op lhs.ty rhs.ty = true ∧
          e = .relational op lhs rhs .bool t.position) := by
  rw [relation, bind_eq_ok]
  refine exists_congr fun lhs => exists_congr fun s₁ => and_congr_right fun _ => ?_
  rw [bind_eq_ok]
  constructor
  · rintro ⟨r, s₂, taken, h⟩
    rcases takeOp_eq_ok.1 taken with ⟨rfl, rfl, none⟩ | ⟨op, t, rfl, known, rfl⟩
    · cases h
      exact .inl ⟨rfl, rfl, none⟩
    · obtain ⟨rhs, s₃, read, h₁⟩ := bind_eq_ok.1 h
      split at h₁
      · next fits =>
        cases h₁
        exact .inr ⟨op, t, s₂, rhs, known, rfl, read, fits, rfl⟩
      · exact absurd h₁ failAt_ne_ok
  · rintro (⟨rfl, rfl, none⟩ | ⟨op, t, s₂, rhs, known, rfl, read, fits, rfl⟩)
    · exact ⟨_, s₁, takeOp_eq_ok.2 (.inl ⟨rfl, rfl, none⟩), rfl⟩
    · refine ⟨_, s₂, takeOp_eq_ok.2 (.inr ⟨op, t, rfl, known, rfl⟩), ?_⟩
      refine bind_eq_ok.2 ⟨rhs, s, read, ?_⟩
      rw [if_pos fits]
      rfl

/-- An assignment has a whole expression for its value. -/
theorem assignment_eq_ok : assignment nested s₀ = .ok (e, s) ↔
    ∃ (target : Expr) (s₁ : ParserState), relation nested s₀ = .ok (target, s₁) ∧
      ((e = target ∧ s₁ = s ∧ ∀ t ∈ s.rest.head?, assignmentOp? t.kind = none) ∨
        ∃ op, ∃ (t : Token) (s₂ : ParserState) (value : Expr), assignmentOp? t.kind = some op ∧
          s₁ = s₂.before [t] ∧ nested s₂ = .ok (value, s) ∧ target.isConstant = false ∧
          assigns op target.ty value.ty = true ∧
          e = .assign op target value target.ty t.position) := by
  rw [assignment, bind_eq_ok]
  refine exists_congr fun target => exists_congr fun s₁ => and_congr_right fun _ => ?_
  rw [bind_eq_ok]
  constructor
  · rintro ⟨r, s₂, taken, h⟩
    rcases takeOp_eq_ok.1 taken with ⟨rfl, rfl, none⟩ | ⟨op, t, rfl, known, rfl⟩
    · cases h
      exact .inl ⟨rfl, rfl, none⟩
    · obtain ⟨value, s₃, read, h₁⟩ := bind_eq_ok.1 h
      split at h₁
      · exact absurd h₁ failAt_ne_ok
      · next changeable =>
        split at h₁
        · next fits =>
          cases h₁
          exact .inr ⟨op, t, s₂, value, known, rfl, read, by simpa using changeable, fits, rfl⟩
        · exact absurd h₁ failAt_ne_ok
  · rintro (⟨rfl, rfl, none⟩ | ⟨op, t, s₂, value, known, rfl, read, changeable, fits, rfl⟩)
    · exact ⟨_, s₁, takeOp_eq_ok.2 (.inl ⟨rfl, rfl, none⟩), rfl⟩
    · refine ⟨_, s₂, takeOp_eq_ok.2 (.inr ⟨op, t, rfl, known, rfl⟩), ?_⟩
      refine bind_eq_ok.2 ⟨value, s, read, ?_⟩
      rw [if_neg (by simp [changeable]), if_pos fits]
      rfl

end Parser

end Shading
