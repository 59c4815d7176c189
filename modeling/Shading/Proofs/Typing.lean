import Mathlib.Data.List.Forall2
import Shading.Parser.Shader
import Shading.Proofs.Typing.Rules

/-!
# Well-typed trees

A tree is read together with the tables of its declarations. Relative to
such tables, and to the function in whose body it stands, an expression
is *typed* when the type that each of its nodes carries follows by the
rules from the types below it, when every name is visible, and when every
call fits the function it calls. Statements, choices and items are typed
when their expressions are, when their conditions are truth values, and
when what they declare and return fits.

The tables of a program only grow while it is read
(`Declarations.Extends`), and typing is kept when they do
(`Expr.Typed.extend`). `Declarations.Sound` says of the tables
themselves what a layout of the program needs: every variable has a type
with storage, a global is found by its name, and a local belongs to
exactly one function, which lists it once.
-/

namespace Shading

/-! ## Tables -/

/-- Whether a function sees a symbol: globals are seen everywhere, and a
local by its owner. -/
def Symbol.VisibleIn (s : Symbol) (f : Option FunctionId) : Prop :=
  s.scope = .global ∨ (s.scope = .local ∧ s.owner = f ∧ f.isSome)

/-- The parameters and the locals of a function, in the order they are
placed. -/
def Function.variables (f : Function) : List SymbolId := f.parameters ++ f.locals

namespace Declarations

/-- **One table holds another**: its symbols keep their numbers, and its
functions keep what a call consults. -/
structure Extends (d d' : Declarations) : Prop where
  symbol : ∀ id s, d.symbols.get? id = some s → d'.symbols.get? id = some s
  function : ∀ id f, d.functions.get? id = some f → ∃ f', d'.functions.get? id = some f' ∧
    f'.name = f.name ∧ f'.returnTy = f.returnTy ∧ f'.parameters = f.parameters ∧
    f'.isExported = f.isExported ∧ f'.intrinsic = f.intrinsic

theorem Extends.refl (d : Declarations) : d.Extends d :=
  ⟨fun _ _ h => h, fun _ f h => ⟨f, h, rfl, rfl, rfl, rfl, rfl⟩⟩

theorem Extends.trans {a b c : Declarations} (hab : a.Extends b) (hbc : b.Extends c) :
    a.Extends c := by
  refine ⟨fun id s h => hbc.symbol id s (hab.symbol id s h), fun id f h => ?_⟩
  obtain ⟨g, hg, n1, r1, p1, e1, i1⟩ := hab.function id f h
  obtain ⟨k, hk, n2, r2, p2, e2, i2⟩ := hbc.function id g hg
  exact ⟨k, hk, n2.trans n1, r2.trans r1, p2.trans p1, e2.trans e1, i2.trans i1⟩

/-- A function that is known stays so. -/
theorem Extends.known {d d' : Declarations} (h : d.Extends d') {f : FunctionId}
    (known : ∃ g, d.functions.get? f = some g) : ∃ g, d'.functions.get? f = some g := by
  obtain ⟨g, known⟩ := known
  obtain ⟨g', known', -⟩ := h.function f g known
  exact ⟨g', known'⟩

/-- A variable that a function lists: a local of its own, of a type with
storage. -/
def IsVariableOf (d : Declarations) (f : FunctionId) (id : SymbolId) : Prop :=
  ∃ s, d.symbols.get? id = some s ∧ s.kind = .variable ∧ s.scope = .local ∧
    s.owner = some f ∧ s.ty.size ≠ 0

/-- **Tables in good order.** -/
structure Sound (d : Declarations) : Prop where
  /-- What a function lists are variables of its own. -/
  listed : ∀ id f, d.functions.get? id = some f → ∀ v ∈ f.variables, d.IsVariableOf id v
  /-- A function lists none of its variables twice. -/
  nodup : ∀ id f, d.functions.get? id = some f → f.variables.Nodup
  /-- Every local is listed by its owner. -/
  owned : ∀ id s, d.symbols.get? id = some s → s.scope = .local →
    ∃ f g, s.owner = some f ∧ d.functions.get? f = some g ∧ id ∈ g.variables
  /-- A global variable has storage. -/
  storable : ∀ id s, d.symbols.get? id = some s → s.kind = .variable → s.ty.size ≠ 0
  /-- A global is found by its name. -/
  named : ∀ id s, d.symbols.get? id = some s → s.scope = .global →
    d.symbols.find? s.name none = some id
  /-- A function of the stage is one of those every stage has. -/
  intrinsic : ∀ id f, d.functions.get? id = some f → f.intrinsic = true →
    ⟨f.name, f.returnTy, f.parameters.map d.symbolTy⟩ ∈ stageFunctions
  /-- No place has been given out yet. -/
  unplaced : ∀ id s, d.symbols.get? id = some s → s.location = .none

theorem symbolTy_of_get? {d : Declarations} {id : SymbolId} {s : Symbol}
    (h : d.symbols.get? id = some s) : d.symbolTy id = s.ty := by
  simp [symbolTy, h]

/-- The types of a function's parameters are kept by larger tables. -/
theorem Extends.parameterTypes {d d' : Declarations} (h : d.Extends d') (hd : d.Sound)
    {id : FunctionId} {f : Function} (hf : d.functions.get? id = some f) :
    f.parameters.map d'.symbolTy = f.parameters.map d.symbolTy := by
  refine List.map_congr_left fun p hp => ?_
  obtain ⟨s, hs, -⟩ := hd.listed id f hf p (List.mem_append_left _ hp)
  rw [symbolTy_of_get? hs, symbolTy_of_get? (h.symbol p s hs)]

end Declarations

/-! ## Expressions -/

/-- **An expression is typed** relative to tables and to the function in
whose body it stands. -/
inductive Expr.Typed (d : Declarations) (f : Option FunctionId) : Expr → Prop where
  | literal (v : Literal) (p : Position) : Typed d f (.literal v v.ty p)
  | name {id : SymbolId} {s : Symbol} (p : Position) (found : d.symbols.get? id = some s)
      (visible : s.VisibleIn f) : Typed d f (.name id s.ty p)
  | binary {op : BinaryOp} {l r : Expr} {t : Ty} (p : Position) (lhs : Typed d f l)
      (rhs : Typed d f r) (yields : op.Yields l.ty r.ty t) : Typed d f (.binary op l r t p)
  | assign {op : Option BinaryOp} {t v : Expr} (p : Position) (target : Typed d f t)
      (value : Typed d f v) (changeable : t.isConstant = false) (takes : t.ty.Takes op v.ty) :
      Typed d f (.assign op t v t.ty p)
  | relational {op : RelationalOp} {l r : Expr} (p : Position) (lhs : Typed d f l)
      (rhs : Typed d f r) (compares : op.Compares l.ty r.ty) :
      Typed d f (.relational op l r .bool p)
  | negate {e : Expr} (p : Position) (operand : Typed d f e)
      (numeric : e.ty.isScalar = true ∨ e.ty.isVector = true) : Typed d f (.negate e e.ty p)
  | not {e : Expr} (p : Position) (operand : Typed d f e) (truth : e.ty = .bool) :
      Typed d f (.not e .bool p)
  | subscript {b i : Expr} {t : Ty} (p : Position) (base : Typed d f b) (index : Typed d f i)
      (element : b.ty.element? = some t) (integral : i.ty = .int) :
      Typed d f (.subscript b i t p)
  | call {id : FunctionId} {g : Function} {args : List Expr} (p : Position)
      (found : d.functions.get? id = some g) (typed : ∀ a ∈ args, Typed d f a)
      (fits : List.Forall₂ Ty.Stores (g.parameters.map d.symbolTy) (args.map Expr.ty)) :
      Typed d f (.call id g.name args g.returnTy p)

/-- Arguments that parameters store have values. -/
theorem Expr.valued_of_stores {ts : List Ty} {es : List Expr}
    (h : List.Forall₂ Ty.Stores ts (es.map Expr.ty)) : ∀ e ∈ es, e.ty ≠ .void := by
  intro e he
  obtain ⟨i, hi, rfl⟩ := List.getElem_of_mem he
  have stores := (List.forall₂_iff_get.1 h).2 i (by rw [h.length_eq]; simpa using hi) (by simpa using hi)
  simpa using stores.notVoid.2

/-- **Typing is kept** when the tables grow. -/
theorem Expr.Typed.extend {d d' : Declarations} {f : Option FunctionId} {e : Expr}
    (hd : d.Sound) (h : d.Extends d') (he : e.Typed d f) : e.Typed d' f := by
  induction he with
  | literal v p => exact .literal v p
  | name p found visible => exact .name p (h.symbol _ _ found) visible
  | binary p _ _ yields ihl ihr => exact .binary p ihl ihr yields
  | assign p _ _ changeable takes iht ihv => exact .assign p iht ihv changeable takes
  | relational p _ _ compares ihl ihr => exact .relational p ihl ihr compares
  | negate p _ numeric ih => exact .negate p ih numeric
  | not p _ truth ih => exact .not p ih truth
  | subscript p _ _ element integral ihb ihi => exact .subscript p ihb ihi element integral
  | call p found _ fits ih =>
    rename_i g args _
    obtain ⟨g', found', name, ret, params, -⟩ := h.function _ _ found
    rw [← name, ← ret]
    refine .call p found' ih ?_
    rw [params, h.parameterTypes hd found]
    exact fits

/-! ## Statements -/

mutual

/-- **A statement is typed** in the body of a function. -/
def Statement.Typed (d : Declarations) (f : FunctionId) : Statement → Prop
  | .localVariable v none => d.IsVariableOf f v
  | .localVariable v (some e) =>
    d.IsVariableOf f v ∧ e.Typed d f ∧ (d.symbolTy v).Stores e.ty
  | .expression e => e.Typed d f
  | .branch s => s.Typed d f
  | .whileLoop c body => c.Typed d f ∧ c.ty = .bool ∧ Statement.AllTyped d f body
  | .forLoop first c step body =>
    first.Typed d f ∧ c.Typed d f ∧ c.ty = .bool ∧ step.Typed d f ∧ Statement.AllTyped d f body
  | .ret none => ∃ g, d.functions.get? f = some g ∧ g.returnTy = .void
  | .ret (some e) =>
    e.Typed d f ∧ ∃ g, d.functions.get? f = some g ∧ g.returnTy ≠ .void ∧ g.returnTy.Stores e.ty

/-- A choice is typed when its condition is a truth value and its
branches are typed. -/
def IfStatement.Typed (d : Declarations) (f : FunctionId) : IfStatement → Prop
  | .mk c body otherwise =>
    c.Typed d f ∧ c.ty = .bool ∧ Statement.AllTyped d f body ∧ otherwise.Typed d f

/-- What stands behind the body of a choice is typed. -/
def ElseBranch.Typed (d : Declarations) (f : FunctionId) : ElseBranch → Prop
  | .none => True
  | .chain s => s.Typed d f
  | .block body => Statement.AllTyped d f body

/-- Every one of some statements is typed. -/
def Statement.AllTyped (d : Declarations) (f : FunctionId) : List Statement → Prop
  | [] => True
  | s :: ss => s.Typed d f ∧ Statement.AllTyped d f ss

end

theorem Declarations.Extends.isVariableOf {d d' : Declarations} {f : FunctionId} {v : SymbolId}
    (h : d.Extends d') (hv : d.IsVariableOf f v) : d'.IsVariableOf f v := by
  obtain ⟨s, hs, rest⟩ := hv
  exact ⟨s, h.symbol v s hs, rest⟩

mutual

theorem Statement.Typed.extend {d d' : Declarations} {f : FunctionId} (hd : d.Sound)
    (h : d.Extends d') : (s : Statement) → s.Typed d f → s.Typed d' f
  | .localVariable v none, hs => by
    simp only [Statement.Typed] at hs ⊢
    exact h.isVariableOf hs
  | .localVariable v (some e), hs => by
    simp only [Statement.Typed] at hs ⊢
    obtain ⟨hv, he, ha⟩ := hs
    obtain ⟨s, found, -⟩ := id hv
    rw [Declarations.symbolTy_of_get? found] at ha
    rw [Declarations.symbolTy_of_get? (h.symbol _ _ found)]
    exact ⟨h.isVariableOf hv, he.extend hd h, ha⟩
  | .expression e, hs => by
    simp only [Statement.Typed] at hs ⊢
    exact hs.extend hd h
  | .branch s, hs => by
    simp only [Statement.Typed] at hs ⊢
    exact IfStatement.Typed.extend hd h s hs
  | .whileLoop c body, hs => by
    simp only [Statement.Typed] at hs ⊢
    obtain ⟨hc, truth, hbody⟩ := hs
    exact ⟨hc.extend hd h, truth, Statement.AllTyped.extend hd h body hbody⟩
  | .forLoop first c step body, hs => by
    simp only [Statement.Typed] at hs ⊢
    obtain ⟨hfirst, hc, truth, hstep, hbody⟩ := hs
    exact ⟨hfirst.extend hd h, hc.extend hd h, truth, hstep.extend hd h,
      Statement.AllTyped.extend hd h body hbody⟩
  | .ret none, hs => by
    simp only [Statement.Typed] at hs ⊢
    obtain ⟨g, known, void⟩ := hs
    obtain ⟨g', known', -, ret, -⟩ := h.function _ g known
    exact ⟨g', known', ret.trans void⟩
  | .ret (some e), hs => by
    simp only [Statement.Typed] at hs ⊢
    obtain ⟨he, g, known, notVoid, stores⟩ := hs
    obtain ⟨g', known', -, ret, -⟩ := h.function _ g known
    exact ⟨he.extend hd h, g', known', ret ▸ notVoid, ret ▸ stores⟩

theorem IfStatement.Typed.extend {d d' : Declarations} {f : FunctionId} (hd : d.Sound)
    (h : d.Extends d') : (s : IfStatement) → s.Typed d f → s.Typed d' f
  | .mk c body otherwise, hs => by
    simp only [IfStatement.Typed] at hs ⊢
    exact ⟨hs.1.extend hd h, hs.2.1, Statement.AllTyped.extend hd h body hs.2.2.1,
      ElseBranch.Typed.extend hd h otherwise hs.2.2.2⟩

theorem ElseBranch.Typed.extend {d d' : Declarations} {f : FunctionId} (hd : d.Sound)
    (h : d.Extends d') : (b : ElseBranch) → b.Typed d f → b.Typed d' f
  | .none, _ => by simp only [ElseBranch.Typed]
  | .chain s, hs => by
    simp only [ElseBranch.Typed] at hs ⊢
    exact IfStatement.Typed.extend hd h s hs
  | .block body, hs => by
    simp only [ElseBranch.Typed] at hs ⊢
    exact Statement.AllTyped.extend hd h body hs

theorem Statement.AllTyped.extend {d d' : Declarations} {f : FunctionId} (hd : d.Sound)
    (h : d.Extends d') : (ss : List Statement) → Statement.AllTyped d f ss →
      Statement.AllTyped d' f ss
  | [], _ => by simp only [Statement.AllTyped]
  | s :: ss, hs => by
    simp only [Statement.AllTyped] at hs ⊢
    exact ⟨Statement.Typed.extend hd h s hs.1, Statement.AllTyped.extend hd h ss hs.2⟩

end

/-! ## Shaders -/

/-- An item is typed when the variable it declares has storage, or the
body of a function is typed in the function of its number. -/
def Item.Typed (d : Declarations) : Item → Prop
  | .global id _ => ∃ s, d.symbols.get? id = some s ∧ s.kind = .variable ∧ s.scope = .global ∧
    s.ty.size ≠ 0
  | .function id name _ body =>
    (∃ g, d.functions.get? id = some g ∧ g.name = name) ∧ Statement.AllTyped d id body

theorem Item.Typed.extend {d d' : Declarations} (hd : d.Sound) (h : d.Extends d') {i : Item}
    (hi : i.Typed d) : i.Typed d' := by
  cases i with
  | global id w =>
    obtain ⟨s, known, rest⟩ := hi
    exact ⟨s, h.symbol id s known, rest⟩
  | function id name w body =>
    obtain ⟨⟨g, known, hname⟩, typed⟩ := hi
    obtain ⟨g', known', hname', -⟩ := h.function id g known
    exact ⟨⟨g', known', hname'.trans hname⟩, Statement.AllTyped.extend hd h body typed⟩

/-- **A shader is typed**: its tables are in good order and each of its
items is typed relative to them. -/
structure Shader.Typed (s : Shader) : Prop where
  sound : s.declarations.Sound
  items : ∀ i ∈ s.items, i.Typed s.declarations

end Shading
