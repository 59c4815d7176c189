import Shading.Proofs.Outcome
import Shading.Proofs.Typing.Declaration

/-!
# The grammar of shaders

Statements and items declare names as they are read, so a phrase of a
shader stands between two states of the tables: those it is read with and
those it leaves (`Builds`, `BuildsItem`). Each expression in it is derived
with the tables of its place, which is how a local is not seen by its own
first value, and a function is seen by its own body.

What the parsers of statements and items read is built in this way
(`builds_of_ofTokens`), so whatever holds of accepted shaders follows by
induction on how they are built. `tokens` are those of the shader, and no
derivation has others.
-/

namespace Shading

/-! ## Declaring -/

/-- The symbol that an identifier declares. -/
def Symbol.declared (name : Token) (scope : SymbolScope) (kind : SymbolKind) (ty : Ty)
    (owner : Option FunctionId) : Symbol :=
  { name := name.lexeme, scope := scope, kind := kind, ty := ty, owner := owner,
    declaredAt := some name.position }

namespace Declarations

variable (d : Declarations) (name : Token) (ty : Ty) (f : FunctionId)

/-- The tables with one more global. -/
def withGlobal (kind : SymbolKind) : Declarations :=
  d.withSymbol (.declared name .global kind ty none)

/-- The tables in which a function has one more parameter. -/
def withParameter : Declarations :=
  (d.withSymbol (.declared name .local .variable ty (some f))).modifyFunction f fun g =>
    { g with parameters := g.parameters ++ [d.next] }

/-- The tables in which a function has one more local. -/
def withLocal : Declarations :=
  (d.withSymbol (.declared name .local .variable ty (some f))).modifyFunction f fun g =>
    { g with locals := g.locals ++ [d.next] }

/-- The tables with one more function, which has neither parameters nor
locals yet. -/
def withHeader (decorators : Decorators) : Declarations :=
  (d.withGlobal name .function .function).withFunction
    { name := name.lexeme, symbol := d.next, returnTy := ty, isExported := decorators.isExported }

end Declarations

/-! ## Bodies -/

/-- A phrase of a function's body. -/
inductive Phrase where
  | statement (s : Statement)
  | choice (s : IfStatement)
  | block (body : List Statement)

section Builds

variable (tokens : List Token)

/-- An expression that is derived from some of the tokens. -/
def Occurs (d : Declarations) (f : Option FunctionId) (e : Expr) : Prop :=
  ∃ ts, ts ⊆ tokens ∧ Derives d f .assignment e ts

/-- **How a phrase of a function's body is built**, from the tables in
front of it to those behind it. -/
inductive Builds (f : FunctionId) : Declarations → Phrase → Declarations → Prop where
  | localVariable {d : Declarations} {name : Token} {ty : Ty} (storage : ty.size ≠ 0)
      (fresh : d.symbols.find? name.lexeme (some f) = none) :
      Builds f d (.statement (.localVariable d.next none)) (d.withLocal name ty f)
  | initialised {d : Declarations} {name : Token} {ty : Ty} {e : Expr} (storage : ty.size ≠ 0)
      (value : Occurs tokens d (some f) e) (fits : ty.assignable e.ty = true)
      (fresh : d.symbols.find? name.lexeme (some f) = none) :
      Builds f d (.statement (.localVariable d.next (some e))) (d.withLocal name ty f)
  | expression {d : Declarations} {e : Expr} (occurs : Occurs tokens d (some f) e) :
      Builds f d (.statement (.expression e)) d
  | branch {d d' : Declarations} {c : IfStatement} (choice : Builds f d (.choice c) d') :
      Builds f d (.statement (.branch c)) d'
  | whileLoop {d d' : Declarations} {c : Expr} {body : List Statement}
      (condition : Occurs tokens d (some f) c) (truth : c.ty = .bool)
      (block : Builds f d (.block body) d') : Builds f d (.statement (.whileLoop c body)) d'
  | forLoop {d d' : Declarations} {first c step : Expr} {body : List Statement}
      (start : Occurs tokens d (some f) first) (condition : Occurs tokens d (some f) c)
      (truth : c.ty = .bool) (turn : Occurs tokens d (some f) step)
      (block : Builds f d (.block body) d') :
      Builds f d (.statement (.forLoop first c step body)) d'
  | leave {d : Declarations} (void : d.returnTy f = .void) :
      Builds f d (.statement (.ret none)) d
  | ret {d : Declarations} {e : Expr} (value : Occurs tokens d (some f) e)
      (notVoid : d.returnTy f ≠ .void) (fits : (d.returnTy f).assignable e.ty = true) :
      Builds f d (.statement (.ret (some e))) d
  | alone {d d' : Declarations} {c : Expr} {body : List Statement}
      (condition : Occurs tokens d (some f) c) (truth : c.ty = .bool)
      (block : Builds f d (.block body) d') : Builds f d (.choice (.mk c body .none)) d'
  | otherwise {d d' d'' : Declarations} {c : Expr} {body other : List Statement}
      (condition : Occurs tokens d (some f) c) (truth : c.ty = .bool)
      (block : Builds f d (.block body) d') (rest : Builds f d' (.block other) d'') :
      Builds f d (.choice (.mk c body (.block other))) d''
  | chain {d d' d'' : Declarations} {c : Expr} {body : List Statement} {other : IfStatement}
      (condition : Occurs tokens d (some f) c) (truth : c.ty = .bool)
      (block : Builds f d (.block body) d') (rest : Builds f d' (.choice other) d'') :
      Builds f d (.choice (.mk c body (.chain other))) d''
  | nil {d : Declarations} : Builds f d (.block []) d
  | cons {d d' d'' : Declarations} {s : Statement} {body : List Statement}
      (first : Builds f d (.statement s) d') (rest : Builds f d' (.block body) d'') :
      Builds f d (.block (s :: body)) d''

/-! ## Items -/

/-- **How the parameters of a function are built.** -/
inductive BuildsParameters (f : FunctionId) :
    Declarations → List SymbolId → Declarations → Prop where
  | nil {d : Declarations} : BuildsParameters f d [] d
  | cons {d d' : Declarations} {name : Token} {ty : Ty} {more : List SymbolId} (storage : ty.size ≠ 0)
      (fresh : d.symbols.find? name.lexeme (some f) = none)
      (rest : BuildsParameters f (d.withParameter name ty f) more d') :
      BuildsParameters f d (d.next :: more) d'

/-- **How an item is built**, from the tables in front of it to those
behind it. -/
inductive BuildsItem : Declarations → Item → Declarations → Prop where
  | global {d : Declarations} {name : Token} {ty : Ty} {decorators : Decorators}
      (storage : ty.size ≠ 0) (fresh : d.symbols.find? name.lexeme none = none) :
      BuildsItem d (.global d.next decorators) (d.withGlobal name ty .variable)
  | function {d d' d'' : Declarations} {name : Token} {ty : Ty} {decorators : Decorators}
      {parameters : List SymbolId} {body : List Statement}
      (fresh : d.symbols.find? name.lexeme none = none)
      (free : d.functions.find? name.lexeme = none)
      (header : BuildsParameters d.functions.size (d.withHeader name ty decorators) parameters d')
      (block : Builds tokens d.functions.size d' (.block body) d'') :
      BuildsItem d (.function d.functions.size name.lexeme decorators body) d''

/-- How the items of a shader are built, one after the other. -/
inductive BuildsItems : Declarations → List Item → Declarations → Prop where
  | nil {d : Declarations} : BuildsItems d [] d
  | cons {d d' d'' : Declarations} {i : Item} {items : List Item} (first : BuildsItem tokens d i d')
      (rest : BuildsItems d' items d'') : BuildsItems d (i :: items) d''

end Builds

namespace Parser

/-! ## Parsers and tables -/

variable {α β : Type} {tokens : List Token} {o : Option FunctionId} {f : FunctionId}
  {d : Declarations}

/-- **What a parser gives** in a function, with tables in front of it:
a result and tables behind it of which `Q` holds. It reads none but the
tokens of the shader. -/
def Forms (tokens : List Token) (o : Option FunctionId) (d : Declarations) (p : Parser α)
    (Q : α → Declarations → Prop) : Prop :=
  ∀ s a s', s.declarations = d → s.function = o → s.rest ⊆ tokens → p s = .ok (a, s') →
    s'.function = o ∧ s'.rest ⊆ tokens ∧ Q a s'.declarations

/-- **A parser that leaves the tables alone.** -/
def Reads (tokens : List Token) (o : Option FunctionId) (d : Declarations) (p : Parser α)
    (Q : α → Prop) : Prop :=
  Forms tokens o d p fun a d' => d' = d ∧ Q a

section Sequences

variable {p : Parser α} {k : α → Parser β} {Q : α → Declarations → Prop}
  {R : β → Declarations → Prop} {P : α → Prop}

theorem Forms.pure {a : α} (h : Q a d) : Forms tokens o d (Pure.pure a) Q := by
  rintro s b s' rfl hf ht ⟨⟩
  exact ⟨hf, ht, h⟩

theorem Reads.pure {a : α} (h : P a) : Reads tokens o d (Pure.pure a) P := Forms.pure ⟨rfl, h⟩

theorem Forms.bind (hp : Forms tokens o d p Q)
    (hk : ∀ a d', Q a d' → Forms tokens o d' (k a) R) : Forms tokens o d (p >>= k) R := by
  intro s b s' hd hf ht run
  obtain ⟨a, s₁, first, second⟩ := bind_eq_ok.1 run
  obtain ⟨hf₁, ht₁, ha⟩ := hp s a s₁ hd hf ht first
  exact hk a _ ha s₁ b s' rfl hf₁ ht₁ second

theorem Reads.bind (hp : Reads tokens o d p P) (hk : ∀ a, P a → Forms tokens o d (k a) R) :
    Forms tokens o d (p >>= k) R := by
  refine Forms.bind hp ?_
  rintro a d' ⟨rfl, ha⟩
  exact hk a ha

theorem forms_failAt (p : Position) (c : Complaint) : Forms tokens o d (failAt p c) Q :=
  fun _ _ _ _ _ _ run => absurd run failAt_ne_ok

theorem forms_failHere (c : Complaint) : Forms tokens o d (failHere c) Q :=
  fun _ _ _ _ _ _ run => absurd run failHere_ne_ok

end Sequences

/-! ## Tokens -/

section Tokens

/-- A parser that only takes tokens from the state. -/
theorem reads_of_before {p : Parser α} {P : α → Prop}
    (h : ∀ s₀ a s, p s₀ = .ok (a, s) → s₀.rest ⊆ tokens → ∃ ts, s₀ = s.before ts ∧
      (s.declarations = d → s.function = o → ts ⊆ tokens → P a)) : Reads tokens o d p P := by
  intro s₀ a s hd hf ht run
  obtain ⟨ts, rfl, ha⟩ := h s₀ a s run ht
  obtain ⟨own, rest⟩ := List.append_subset.1 ht
  exact ⟨hf, rest, hd, ha hd hf own⟩

theorem reads_peek : Reads tokens o d peek? fun r => ∀ t, r = some t → t ∈ tokens := by
  rintro s a s' hd hf ht ⟨⟩
  exact ⟨hf, ht, hd, fun t seen => ht (List.mem_of_mem_head? seen)⟩

theorem reads_skip : Reads tokens o d skip fun _ => True := by
  rintro s a s' hd hf ht ⟨⟩
  exact ⟨hf, fun t h => ht (List.mem_of_mem_tail h), hd, trivial⟩

theorem reads_remaining : Reads tokens o d remaining fun _ => True := by
  rintro s a s' hd hf ht ⟨⟩
  exact ⟨hf, ht, hd, trivial⟩

theorem reads_declarations : Reads tokens o d declarations fun r => r = d := by
  rintro s a s' hd hf ht ⟨⟩
  exact ⟨hf, ht, hd, hd⟩

theorem reads_currentFunction : Reads tokens o d currentFunction fun r => r = o := by
  rintro s a s' hd hf ht ⟨⟩
  exact ⟨hf, ht, hd, hf⟩

theorem reads_sees (k : TokenKind) : Reads tokens o d (sees k) fun _ => True := by
  refine reads_of_before fun s₀ b s run _ => ?_
  obtain ⟨rfl, -⟩ := sees_eq_ok.1 run
  exact ⟨[], rfl, fun _ _ _ => trivial⟩

theorem reads_accept (k : TokenKind) : Reads tokens o d (accept k) fun _ => True := by
  refine reads_of_before fun s₀ b s run _ => ?_
  rcases accept_eq_ok.1 run with ⟨-, t, -, rfl⟩ | ⟨-, rfl, -⟩
  · exact ⟨[t], rfl, fun _ _ _ => trivial⟩
  · exact ⟨[], rfl, fun _ _ _ => trivial⟩

theorem reads_expect (k : TokenKind) (c : Complaint) :
    Reads tokens o d (expect k c) fun t => t.kind = k := by
  refine reads_of_before fun s₀ t s run _ => ?_
  obtain ⟨kind, rfl⟩ := expect_eq_ok.1 run
  exact ⟨[t], rfl, fun _ _ _ => kind⟩

/-- **An expression that is read occurs** in the tokens. -/
theorem reads_expression : Reads tokens o d expression (Occurs tokens d o) := by
  refine reads_of_before fun s₀ e s run _ => ?_
  obtain ⟨ts, rfl, derived⟩ := derived_expression s₀ e s run
  refine ⟨ts, rfl, ?_⟩
  rintro rfl rfl own
  exact ⟨ts, own, derived⟩

/-- A type that is named has storage, unless it is `void`. -/
theorem storage_of_ty? {k : TokenKind} {ty : Ty} (h : k.ty? = some ty) (notVoid : ty ≠ .void) :
    ty.size ≠ 0 := by
  unfold TokenKind.ty? at h
  split at h <;> cases h <;> first | exact absurd rfl notVoid | simp [Ty.size]

theorem reads_typedName : Reads tokens o d typedName fun r => r.1 ≠ .void → r.1.size ≠ 0 := by
  refine reads_peek.bind fun t _ => ?_
  cases known : t.bind fun t => t.kind.ty? with
  | none => exact forms_failHere _
  | some ty =>
    obtain ⟨t, rfl, named⟩ := Option.bind_eq_some_iff.1 known
    exact reads_skip.bind fun _ _ => (reads_expect _ _).bind fun _ _ =>
      Reads.pure (storage_of_ty? named)

theorem reads_boolExpression :
    Reads tokens o d boolExpression fun e => Occurs tokens d o e ∧ e.ty = .bool := by
  refine reads_peek.bind fun t _ => reads_expression.bind fun e he => ?_
  split
  · next truth => exact Reads.pure ⟨he, truth⟩
  · cases t
    · exact forms_failHere _
    · exact forms_failAt _ _

theorem reads_condition :
    Reads tokens o d condition fun e => Occurs tokens d o e ∧ e.ty = .bool :=
  (reads_expect _ _).bind fun _ _ => reads_boolExpression.bind fun _ he =>
    (reads_expect _ _).bind fun _ _ => Reads.pure he

end Tokens

/-! ## Declaring -/

/-- **What declaring a name does**: the tables get one more symbol, under
a name for which its owner, the function at hand if it is a local, found
none. -/
theorem declare_eq_ok {name : Token} {scope : SymbolScope} {kind : SymbolKind} {ty : Ty}
    {owner : Option FunctionId} {s₀ s : ParserState} {id : SymbolId}
    (own : owner = if scope = .local then s₀.function else none)
    (h : declare name scope kind ty s₀ = .ok (id, s)) :
    s₀.declarations.symbols.find? name.lexeme owner = none ∧ id = s₀.declarations.next ∧
      s = { s₀ with
        declarations := s₀.declarations.withSymbol (.declared name scope kind ty owner) } := by
  subst own
  cases scope <;>
  · obtain ⟨owner, _, owned, h⟩ := bind_eq_ok.1 h
    cases owned
    obtain ⟨_, _, tables, h⟩ := bind_eq_ok.1 h
    cases tables
    simp only [reduceCtorEq, if_true, if_false]
    cases find : s₀.declarations.symbols.find? name.lexeme _ with
    | some existing =>
      rw [find] at h
      dsimp only at h
      split at h <;> exact absurd h failAt_ne_ok
    | none =>
      rw [find, SymbolTable.add?, if_neg (by rw [find]; simp)] at h
      cases h
      exact ⟨rfl, rfl, rfl⟩

theorem forms_declareGlobal (name : Token) (kind : SymbolKind) (ty : Ty) :
    Forms tokens o d (declare name .global kind ty) fun id d' =>
      d.symbols.find? name.lexeme none = none ∧ id = d.next ∧ d' = d.withGlobal name ty kind := by
  rintro s₀ id s rfl hf ht run
  obtain ⟨fresh, rfl, rfl⟩ := declare_eq_ok rfl run
  exact ⟨hf, ht, fresh, rfl, rfl⟩

theorem forms_declareLocal (name : Token) (ty : Ty) :
    Forms tokens (some f) d (declare name .local .variable ty) fun id d' =>
      d.symbols.find? name.lexeme (some f) = none ∧ id = d.next ∧
        d' = d.withSymbol (.declared name .local .variable ty (some f)) := by
  rintro s₀ id s rfl hf ht run
  obtain ⟨fresh, rfl, rfl⟩ := declare_eq_ok hf.symm run
  exact ⟨hf, ht, fresh, rfl, rfl⟩

theorem forms_modifyFunctions (change : FunctionTable → FunctionTable) :
    Forms tokens o d (modifyFunctions change) fun _ d' =>
      d' = { d with functions := change d.functions } := by
  rintro s₀ _ s rfl hf ht ⟨⟩
  exact ⟨hf, ht, rfl⟩

/-! ## Statements -/

/-- A parser that builds a phrase of a function's body. -/
abbrev BuildsAs (tokens : List Token) (f : FunctionId) (d : Declarations) (p : Parser α)
    (phrase : α → Phrase) : Prop :=
  Forms tokens (some f) d p fun a d' => Builds tokens f d (phrase a) d'

/-- Declaring a local behind its first value; `lists` adds it to the
function at hand. -/
theorem builds_declaredLocal (name : Token) {ty : Ty} (storage : ty.size ≠ 0)
    (initialiser : Option Expr) {lists : SymbolId → Option FunctionId → Parser Statement}
    (own : ∀ id, lists id (some f) = (do
      modifyFunctions fun t => t.addLocal f id
      return .localVariable id initialiser))
    (value : ∀ e, initialiser = some e → Occurs tokens d (some f) e ∧ ty.assignable e.ty = true) :
    BuildsAs tokens f d (do
      let _ ← expect .semicolon .missingSemicolon
      let symbol ← declare name .local .variable ty
      lists symbol (← currentFunction)) .statement := by
  refine (reads_expect _ _).bind fun _ _ => (forms_declareLocal name ty).bind ?_
  rintro id d' ⟨fresh, rfl, rfl⟩
  refine reads_currentFunction.bind ?_
  rintro _ rfl
  rw [own]
  refine (forms_modifyFunctions _).bind ?_
  rintro _ d' rfl
  refine .pure ?_
  cases initialiser with
  | none => exact .localVariable storage fresh
  | some e => exact .initialised storage (value e rfl).1 (value e rfl).2 fresh

theorem builds_localVariable : BuildsAs tokens f d localVariable .statement := by
  refine reads_typedName.bind fun r storage => ?_
  obtain ⟨ty, name⟩ := r
  dsimp only at storage ⊢
  split
  · exact forms_failAt _ _
  · next notVoid =>
    have storage := storage notVoid
    refine reads_peek.bind fun t _ => ?_
    cases t with
    | none =>
      refine (Reads.pure (P := (· = none)) rfl).bind ?_
      rintro _ rfl
      refine builds_declaredLocal name storage none (fun _ => ?_) (by simp)
      rfl
    | some t =>
      dsimp only
      split
      · refine reads_skip.bind fun _ _ => reads_expression.bind fun e he => ?_
        split
        · next fits =>
          refine (Reads.pure (P := (· = some e)) rfl).bind ?_
          rintro _ rfl
          refine builds_declaredLocal name storage (some e) (fun _ => ?_) ?_
          · rfl
          · rintro _ ⟨⟩
            exact ⟨he, fits⟩
        · exact Forms.bind (Q := fun _ _ => False) (forms_failAt _ _) fun _ _ h => h.elim
      · refine (Reads.pure (P := (· = none)) rfl).bind ?_
        rintro _ rfl
        refine builds_declaredLocal name storage none (fun _ => ?_) (by simp)
        rfl

theorem builds_returnOf (keyword : Token) : BuildsAs tokens f d (returnOf keyword) .statement := by
  refine reads_currentFunction.bind ?_
  rintro _ rfl
  refine reads_declarations.bind ?_
  rintro _ rfl
  refine (reads_accept _).bind fun b _ => ?_
  cases b
  · refine reads_expression.bind fun e he => ?_
    split
    · next fits =>
      obtain ⟨notVoid, fits⟩ := Bool.and_eq_true_iff.1 fits
      exact (reads_expect _ _).bind fun _ _ => .pure (.ret he (by simpa using notVoid) fits)
    · exact forms_failAt _ _
  · rw [if_pos rfl]
    split
    · next void => exact .pure (.leave void)
    · exact forms_failAt _ _

section Nesting

variable {block : Parser (List Statement)}

theorem builds_choiceOf (hb : ∀ d, BuildsAs tokens f d block .block) (budget : Nat) :
    BuildsAs tokens f d (choiceOf block budget) .choice := by
  induction budget generalizing d with
  | zero => exact forms_failHere _
  | succ n ih =>
    refine reads_condition.bind ?_
    rintro c ⟨hc, truth⟩
    refine (hb d).bind fun body d' hbody => (reads_accept _).bind fun b _ => ?_
    cases b
    · exact .pure (.alone hc truth hbody)
    · refine (reads_accept _).bind fun b _ => ?_
      cases b
      · exact (hb d').bind fun other d'' hother => .pure (.otherwise hc truth hbody hother)
      · exact ih.bind fun other d'' hother => .pure (.chain hc truth hbody hother)

theorem builds_forOf (hb : ∀ d, BuildsAs tokens f d block .block) :
    BuildsAs tokens f d (forOf block) .statement := by
  refine (reads_expect _ _).bind fun _ _ => reads_expression.bind fun first hfirst =>
    (reads_expect _ _).bind fun _ _ => reads_boolExpression.bind ?_
  rintro c ⟨hc, truth⟩
  exact (reads_expect _ _).bind fun _ _ => reads_expression.bind fun step hstep =>
    (reads_expect _ _).bind fun _ _ => (hb d).bind fun body d' hbody =>
    .pure (.forLoop hfirst hc truth hstep hbody)

theorem builds_expressionStatement : BuildsAs tokens f d expressionStatement .statement :=
  reads_expression.bind fun _ he => (reads_expect _ _).bind fun _ _ => .pure (.expression he)

theorem builds_statement (hb : ∀ d, BuildsAs tokens f d block .block) :
    BuildsAs tokens f d (statement block) .statement := by
  refine reads_peek.bind fun t _ => ?_
  cases t with
  | none => exact builds_expressionStatement
  | some t =>
    dsimp only
    split
    · exact builds_localVariable
    · split
      · exact reads_skip.bind fun _ _ => reads_remaining.bind fun n _ =>
          (builds_choiceOf hb _).bind fun c d' hc => .pure (.branch hc)
      · refine reads_skip.bind fun _ _ => reads_condition.bind ?_
        rintro c ⟨hc, truth⟩
        exact (hb d).bind fun body d' hbody => .pure (.whileLoop hc truth hbody)
      · exact reads_skip.bind fun _ _ => builds_forOf hb
      · exact reads_skip.bind fun _ _ => builds_returnOf t
      · exact builds_expressionStatement

theorem builds_statementsUntilBrace (hb : ∀ d, BuildsAs tokens f d block .block) (budget : Nat) :
    BuildsAs tokens f d (statementsUntilBrace block budget) .block := by
  induction budget generalizing d with
  | zero => exact forms_failHere _
  | succ n ih =>
    refine reads_peek.bind fun t _ => ?_
    cases t with
    | none => exact forms_failHere _
    | some t =>
      dsimp only
      split
      · exact reads_skip.bind fun _ _ => .pure .nil
      · split
        · exact reads_skip.bind fun _ _ => ih
        · exact (builds_statement hb).bind fun s d' hs => ih.bind fun ss d'' hss =>
            .pure (.cons hs hss)

theorem builds_blockWithin (budget : Nat) :
    BuildsAs tokens f d (blockWithin budget) .block := by
  induction budget generalizing d with
  | zero => exact forms_failHere _
  | succ n ih =>
    exact (reads_expect _ _).bind fun _ _ => reads_remaining.bind fun n _ =>
      builds_statementsUntilBrace (fun _ => ih) _

end Nesting

/-- **What is read as the body of a function** is built from it. -/
theorem builds_block : BuildsAs tokens f d Parser.block .block :=
  reads_remaining.bind fun _ _ => builds_blockWithin _

/-! ## Items -/

theorem reads_decoratorsFrom (budget : Nat) (w : Decorators) :
    Reads tokens o d (decoratorsFrom budget w) fun _ => True := by
  induction budget generalizing w with
  | zero => exact Reads.pure trivial
  | succ n ih =>
    refine reads_peek.bind fun t _ => ?_
    cases t with
    | none => exact Reads.pure trivial
    | some t =>
      dsimp only
      split
      · exact reads_skip.bind fun _ _ => ih _
      · exact reads_skip.bind fun _ _ => ih _
      · exact reads_skip.bind fun _ _ => ih _
      · exact Reads.pure trivial

theorem builds_globalOf (w : Decorators) (name : Token) {ty : Ty}
    (storage : ty ≠ .void → ty.size ≠ 0) :
    Forms tokens none d (globalOf w ty name) (BuildsItem tokens d) := by
  refine (reads_expect _ _).bind fun _ _ => ?_
  split
  · exact forms_failAt _ _
  · next notVoid =>
    refine (forms_declareGlobal name .variable ty).bind ?_
    rintro id d' ⟨fresh, rfl, rfl⟩
    exact .pure (.global (storage notVoid) fresh)

theorem builds_parametersOf (budget : Nat) :
    Forms tokens (some f) d (parametersOf f budget) fun _ d' =>
      ∃ parameters, BuildsParameters f d parameters d' := by
  induction budget generalizing d with
  | zero => exact forms_failHere _
  | succ n ih =>
    refine reads_typedName.bind fun r storage => ?_
    obtain ⟨ty, name⟩ := r
    dsimp only at storage ⊢
    split
    · exact forms_failAt _ _
    · next notVoid =>
      have storage := storage notVoid
      refine (forms_declareLocal name ty).bind ?_
      rintro id d' ⟨fresh, rfl, rfl⟩
      refine (forms_modifyFunctions _).bind ?_
      rintro _ d' rfl
      refine (reads_accept _).bind fun more _ => ?_
      cases more
      · exact .pure ⟨[d.next], .cons storage fresh .nil⟩
      · intro s a s' hd hf ht run
        obtain ⟨hf', ht', parameters, built⟩ := ih s a s' hd hf ht run
        exact ⟨hf', ht', d.next :: parameters, .cons storage fresh built⟩

/-- Declaring a function adds its header to the tables. -/
theorem forms_declareFunction (w : Decorators) (ty : Ty) (name : Token) :
    Forms tokens o d (declareFunction w ty name) fun id d' =>
      d.symbols.find? name.lexeme none = none ∧ d.functions.find? name.lexeme = none ∧
        id = d.functions.size ∧ d' = d.withHeader name ty w := by
  refine (forms_declareGlobal name .function .function).bind ?_
  rintro symbol d' ⟨fresh, rfl, rfl⟩
  refine reads_declarations.bind ?_
  rintro _ rfl
  cases free : d.functions.find? name.lexeme with
  | some taken =>
    have refused : FunctionTable.add? (d.withGlobal name .function .function).functions name.lexeme
        d.next ty w.isExported = none := if_pos (by
      change (d.functions.find? name.lexeme).isSome = true
      rw [free]
      rfl)
    rw [refused]
    exact forms_failAt _ _
  | none =>
    have added : FunctionTable.add? (d.withGlobal name .function .function).functions name.lexeme
        d.next ty w.isExported = some (d.functions.size, (d.withHeader name ty w).functions) :=
      if_neg (by
        change ¬(d.functions.find? name.lexeme).isSome = true
        rw [free]
        simp)
    rw [added]
    refine (forms_modifyFunctions _).bind ?_
    rintro _ d' rfl
    exact .pure ⟨fresh, rfl, rfl, rfl⟩

theorem builds_functionOf (w : Decorators) (ty : Ty) (name : Token) :
    Forms tokens none d (functionOf w ty name) (BuildsItem tokens d) := by
  unfold functionOf
  split
  · exact forms_failAt _ _
  · split
    · exact forms_failAt _ _
    · refine (forms_declareFunction w ty name).bind ?_
      rintro id d₁ ⟨fresh, free, rfl, rfl⟩
      -- the function at hand changes, and changes back
      intro s₀ a s hd hf ht run
      obtain ⟨_, s₁, entered, run⟩ := bind_eq_ok.1 run
      cases entered
      obtain ⟨_, s₂, opened, run⟩ := bind_eq_ok.1 run
      obtain ⟨hf₂, ht₂, hd₂, -⟩ :=
        reads_expect _ _ { s₀ with function := some d.functions.size } _ _ hd rfl ht opened
      obtain ⟨empty, s₃, seen, run⟩ := bind_eq_ok.1 run
      obtain ⟨hf₃, ht₃, hd₃, -⟩ := reads_sees _ _ _ _ hd₂ hf₂ ht₂ seen
      obtain ⟨s₄, hf₄, ht₄, ⟨parameters, header⟩, run⟩ : ∃ s₄ : ParserState,
          s₄.function = some d.functions.size ∧ s₄.rest ⊆ tokens ∧
          (∃ parameters, BuildsParameters d.functions.size (d.withHeader name ty w) parameters
            s₄.declarations) ∧ (do
          let _ ← expect .roundRight (.expected ")")
          let body ← Parser.block
          modify fun s => { s with function := none }
          return Item.function d.functions.size name.lexeme w body : Parser Item) s₄ = .ok (a, s) := by
        cases empty
        · obtain ⟨n, s₄, counted, run⟩ := bind_eq_ok.1 run
          cases counted
          obtain ⟨_, s₅, read, run⟩ := bind_eq_ok.1 run
          obtain ⟨hf₅, ht₅, header⟩ := builds_parametersOf _ _ _ _ hd₃ hf₃ ht₃ read
          exact ⟨s₅, hf₅, ht₅, header, run⟩
        · exact ⟨s₃, hf₃, ht₃, ⟨[], hd₃ ▸ .nil⟩, run⟩
      obtain ⟨_, s₅, closed, run⟩ := bind_eq_ok.1 run
      obtain ⟨hf₅, ht₅, hd₅, -⟩ := reads_expect _ _ _ _ _ rfl hf₄ ht₄ closed
      obtain ⟨body, s₆, read, run⟩ := bind_eq_ok.1 run
      obtain ⟨-, ht₆, built⟩ := builds_block _ _ _ hd₅ hf₅ ht₅ read
      cases run
      exact ⟨rfl, ht₆, .function fresh free header built⟩

theorem builds_item : Forms tokens none d item (BuildsItem tokens d) := by
  refine reads_remaining.bind fun _ _ => (reads_decoratorsFrom _ _).bind fun w _ =>
    reads_peek.bind fun t _ => ?_
  cases known : t.bind fun t => t.kind.ty? with
  | none => exact forms_failHere _
  | some ty =>
    obtain ⟨t, rfl, named⟩ := Option.bind_eq_some_iff.1 known
    refine reads_skip.bind fun _ _ => (reads_expect _ _).bind fun name _ =>
      (reads_sees _).bind fun b _ => ?_
    cases b
    · exact builds_globalOf w name (storage_of_ty? named)
    · exact builds_functionOf w ty name

theorem builds_itemsWithin (budget : Nat) :
    Forms tokens none d (itemsWithin budget) (BuildsItems tokens d) := by
  induction budget generalizing d with
  | zero => exact .pure .nil
  | succ n ih =>
    refine reads_peek.bind fun t _ => ?_
    cases t with
    | none => exact .pure .nil
    | some t =>
      exact builds_item.bind fun i d' first => ih.bind fun is d'' rest => .pure (.cons first rest)

end Parser

/-! ## Shaders -/

/-- What starts reading knows what the stage declares, and no function at
hand. -/
theorem ParserState.start_eq_ok {stage : Stage} {source : String} {tokens : List Token}
    {s : ParserState} (h : ParserState.start stage source tokens = .ok s) :
    Declarations.addStage {} stage = .ok s.declarations ∧ s.function = none ∧ s.rest = tokens := by
  simp only [ParserState.start, Bind.bind, Except.bind, Pure.pure, Except.pure] at h
  split at h
  · cases h
  · next d declared =>
    cases h
    exact ⟨declared, rfl, rfl⟩

/-- **An accepted shader is built** from the tables of its stage. -/
theorem Shader.builds_of_ofTokens {stage : Stage} {source : String} {tokens : List Token}
    {s : Shader} (h : Shader.ofTokens stage source tokens = .ok s) :
    ∃ d, Declarations.addStage {} stage = .ok d ∧ BuildsItems tokens d s.items s.declarations := by
  simp only [Shader.ofTokens, Bind.bind, Except.bind, Pure.pure, Except.pure] at h
  split at h
  · cases h
  · next start started =>
    obtain ⟨declared, outside, all⟩ := ParserState.start_eq_ok started
    split at h
    · cases h
    · next v read =>
      obtain ⟨items, s'⟩ := v
      cases h
      obtain ⟨n, s₁, counted, read⟩ := bind_eq_ok.1 read
      cases counted
      obtain ⟨-, -, built⟩ := Parser.builds_itemsWithin _ _ _ _ rfl outside
        (fun t ht => all ▸ ht) read
      exact ⟨_, declared, built⟩

end Shading
