import Shading.Proofs.Names.Tables
import Shading.Proofs.Token.Scanning

/-!
# Names denote what is declared before them

A tree names symbols and functions by their numbers. Whether a number is
the right one is told by the name that stands in the source and by what
was declared before it, so a tree is walked in the order of its source
with the symbols that are declared so far: a local joins them behind its
first value, and a function joins them in front of its parameters and its
body (`Shader.Resolved`).

Every shader that is accepted is resolved (`Shader.resolved_of_parse`). At
each place the symbols declared so far are those of the tables that the
parser consults there, and the numbers below the next one, so that what
holds by the tables of a place holds by those of the whole shader
(`Expr.Resolved.later`). A call is the one form that the parser looks up
by a text, in the table of functions: it finds the function of the symbol
that the callee denotes, as a local of that name would have to be declared
in front of the function.
-/

namespace Shading

/-! ## Resolved trees -/

/-- **What a name denotes** in a function, of the symbols declared before:
the function's own variable of that name, or the global if there is no such
variable. -/
def Declarations.Denotes (d : Declarations) (f : FunctionId) (before : List SymbolId)
    (name : String) (v : SymbolId) : Prop :=
  v ∈ before ∧ (d.symbols.IsLocal f name v ∨
    (d.symbols.IsGlobal name v ∧ ∀ u ∈ before, ¬d.symbols.IsLocal f name u))

/-- An identifier stands at a position. -/
def Identifies (tokens : List Token) (p : Position) (name : String) : Prop :=
  ∃ t ∈ tokens, t.kind = .identifier ∧ t.position = p ∧ t.lexeme = name

section Resolved

variable (tokens : List Token) (d : Declarations) (f : FunctionId)

/-- **The names in an expression are resolved**: a name to the symbol that
it denotes, and a call to the function whose symbol its callee denotes. -/
inductive Expr.Resolved (before : List SymbolId) : Expr → Prop where
  | literal (v : Literal) (ty : Ty) (p : Position) : Resolved before (.literal v ty p)
  | name {id : SymbolId} {name : String} (ty : Ty) {p : Position}
      (spelled : Identifies tokens p name) (denotes : d.Denotes f before name id) :
      Resolved before (.name id ty p)
  | binary {l r : Expr} (op : BinaryOp) (ty : Ty) (p : Position) (lhs : Resolved before l)
      (rhs : Resolved before r) : Resolved before (.binary op l r ty p)
  | assign {t v : Expr} (op : Option BinaryOp) (ty : Ty) (p : Position)
      (target : Resolved before t) (value : Resolved before v) :
      Resolved before (.assign op t v ty p)
  | relational {l r : Expr} (op : RelationalOp) (ty : Ty) (p : Position) (lhs : Resolved before l)
      (rhs : Resolved before r) : Resolved before (.relational op l r ty p)
  | negate {e : Expr} (ty : Ty) (p : Position) (operand : Resolved before e) :
      Resolved before (.negate e ty p)
  | not {e : Expr} (ty : Ty) (p : Position) (operand : Resolved before e) :
      Resolved before (.not e ty p)
  | subscript {b i : Expr} (ty : Ty) (p : Position) (base : Resolved before b)
      (index : Resolved before i) : Resolved before (.subscript b i ty p)
  | call {id : FunctionId} {g : Function} {args : List Expr} (ty : Ty) {p : Position}
      (spelled : Identifies tokens p g.name) (found : d.functions.get? id = some g)
      (denotes : d.Denotes f before g.name g.symbol) (all : ∀ a ∈ args, Resolved before a) :
      Resolved before (.call id g.name args ty p)

mutual

/-- The locals that a statement declares, in the order of the source. -/
def Statement.declared : Statement → List SymbolId
  | .localVariable v _ => [v]
  | .expression _ | .ret _ => []
  | .branch c => c.declared
  | .whileLoop _ body | .forLoop _ _ _ body => Statement.allDeclared body

/-- The locals that a choice declares. -/
def IfStatement.declared : IfStatement → List SymbolId
  | .mk _ body otherwise => Statement.allDeclared body ++ otherwise.declared

/-- The locals that are declared behind the body of a choice. -/
def ElseBranch.declared : ElseBranch → List SymbolId
  | .none => []
  | .chain c => c.declared
  | .block body => Statement.allDeclared body

/-- The locals that some statements declare. -/
def Statement.allDeclared : List Statement → List SymbolId
  | [] => []
  | s :: ss => s.declared ++ Statement.allDeclared ss

end

mutual

/-- **The names in a statement are resolved**, with some symbols declared
before it. -/
def Statement.Resolved : List SymbolId → Statement → Prop
  | _, .localVariable _ none => True
  | before, .localVariable _ (some e) => e.Resolved tokens d f before
  | before, .expression e => e.Resolved tokens d f before
  | before, .branch c => c.Resolved before
  | before, .whileLoop c body => c.Resolved tokens d f before ∧ Statement.AllResolved before body
  | before, .forLoop first c step body =>
    first.Resolved tokens d f before ∧ c.Resolved tokens d f before ∧
      step.Resolved tokens d f before ∧ Statement.AllResolved before body
  | _, .ret none => True
  | before, .ret (some e) => e.Resolved tokens d f before

/-- The names in a choice are resolved. -/
def IfStatement.Resolved : List SymbolId → IfStatement → Prop
  | before, .mk c body otherwise =>
    c.Resolved tokens d f before ∧ Statement.AllResolved before body ∧
      otherwise.Resolved (before ++ Statement.allDeclared body)

/-- The names behind the body of a choice are resolved. -/
def ElseBranch.Resolved : List SymbolId → ElseBranch → Prop
  | _, .none => True
  | before, .chain c => c.Resolved before
  | before, .block body => Statement.AllResolved before body

/-- The names in some statements are resolved, each with the locals of
those before it. -/
def Statement.AllResolved : List SymbolId → List Statement → Prop
  | _, [] => True
  | before, s :: ss => s.Resolved before ∧ Statement.AllResolved (before ++ s.declared) ss

end

end Resolved

/-- The symbols that an item declares, in the order of the source: a
function is declared in front of its parameters and its locals. -/
def Item.declared (d : Declarations) : Item → List SymbolId
  | .global v _ => [v]
  | .function f _ _ body =>
    ((d.functions.get? f).map fun g => g.symbol :: g.parameters).getD [] ++ Statement.allDeclared body

/-- **The names in an item are resolved.** The locals that its function
lists are those that its body declares. -/
def Item.Resolved (tokens : List Token) (d : Declarations) (before : List SymbolId) : Item → Prop
  | .global _ _ => True
  | .function f name _ body => ∃ g, d.functions.get? f = some g ∧ g.name = name ∧
    g.locals = Statement.allDeclared body ∧
    Statement.AllResolved tokens d f (before ++ g.symbol :: g.parameters) body

/-- The names in some items are resolved, each with the symbols of those
before it. -/
def Item.AllResolved (tokens : List Token) (d : Declarations) : List SymbolId → List Item → Prop
  | _, [] => True
  | before, i :: items =>
    i.Resolved tokens d before ∧ Item.AllResolved tokens d (before ++ i.declared d) items

/-- **Each name of a shader denotes one visible declaration.** -/
structure Shader.Resolved (stage : Stage) (tokens : List Token) (s : Shader) : Prop where
  /-- A position is that of one token. -/
  positions : tokens.Pairwise fun t u => t.position.Before u.position
  /-- No two globals share a name. -/
  globals : ∀ name v w, s.declarations.symbols.IsGlobal name v →
    s.declarations.symbols.IsGlobal name w → v = w
  /-- No two parameters or locals of one function share a name. -/
  locals : ∀ f name v w, s.declarations.symbols.IsLocal f name v →
    s.declarations.symbols.IsLocal f name w → v = w
  /-- A parameter or local with the name of a global stands before it, and
  the global is none of the stage. -/
  shadowed : ∀ f name v w, s.declarations.symbols.IsLocal f name v →
    s.declarations.symbols.IsGlobal name w →
      v < w ∧ ∀ t, s.declarations.symbols.get? w = some t → t.intrinsic = false
  /-- A function lists the locals that it owns, in the order of their
  declaration. -/
  listed : ∀ f g, s.declarations.functions.get? f = some g →
    g.parameters ++ g.locals = s.declarations.symbols.localsOf f
  /-- The symbols are those of the stage and those that the items declare,
  in the order of the source, in which the names are resolved. -/
  names : ∃ d, Declarations.addStage {} stage = .ok d ∧
    d.symbols.symbols <+: s.declarations.symbols.symbols ∧
    List.range d.next ++ s.items.flatMap (Item.declared s.declarations) =
      List.range s.declarations.next ∧
    Item.AllResolved tokens s.declarations (List.range d.next) s.items

/-! ## Expressions -/

variable {tokens : List Token} {d d' D : Declarations} {f : FunctionId}

namespace Declarations

theorem Denotes.named {before : List SymbolId} {name : String} {v : SymbolId}
    (h : d.Denotes f before name v) : d.symbolName v = name := by
  rcases h.2 with ⟨s, found, -, -, named⟩ | ⟨⟨s, found, -, named⟩, -⟩ <;>
    simp [symbolName, found, named]

/-- What is found for a name is what it denotes. -/
theorem denotes_of_find? {name : String} {v : SymbolId}
    (h : d.symbols.find? name (some f) = some v) : d.Denotes f (List.range d.next) name v := by
  rcases SymbolTable.find?_eq_some h with ⟨g, ⟨⟩, own⟩ | ⟨global, none⟩
  · exact ⟨List.mem_range.2 (lt_of_isLocal own), .inl own⟩
  · exact ⟨List.mem_range.2 (lt_of_isGlobal global), .inr ⟨global, fun u _ => none f rfl u⟩⟩

/-- **A callee denotes the symbol of the function** that has its name. -/
theorem Denotes.callee (named : d.Named) (hand : AtHand f d) {name : String} {v : SymbolId}
    (h : d.Denotes f (List.range d.next) name v) {id : FunctionId} {g : Function}
    (known : d.functions.get? id = some g) (same : g.name = name) : g.symbol = v := by
  have global := named.callable id g known
  rw [same] at global
  rcases h.2 with own | ⟨found, -⟩
  · -- a local of this name stands behind the function, which it would have to precede
    exact absurd (named.shadowed own global).1 (Nat.lt_asymm (hand.behind _ _ _ global _ own))
  · exact named.global_unique global found

theorem Denotes.later (h : d.Precedes D) {name : String} {v : SymbolId}
    (hv : d.Denotes f (List.range d.next) name v) : D.Denotes f (List.range d.next) name v := by
  obtain ⟨old, denotes⟩ := hv
  refine ⟨old, ?_⟩
  rw [h.isLocal_iff (List.mem_range.1 old), h.isGlobal_iff (List.mem_range.1 old)]
  refine denotes.imp_right (And.imp_right fun none u hu => ?_)
  rw [h.isLocal_iff (List.mem_range.1 hu)]
  exact none u hu

end Declarations

/-- **What is derived is resolved** by the tables of its place. -/
theorem Derives.resolved {l : Level} {e : Expr} {ts : List Token} (h : Derives d (some f) l e ts)
    (named : d.Named) (hand : Declarations.AtHand f d) (own : ts ⊆ tokens) :
    e.Resolved tokens d f (List.range d.next) := by
  induction h with
  | literal _ => exact .literal _ _ _
  | name kind found =>
    exact .name _ ⟨_, own List.mem_cons_self, kind, rfl, rfl⟩ (Declarations.denotes_of_find? found)
  | group _ _ _ ih =>
    exact ih fun t ht => own (List.mem_append_left _ (List.mem_cons_of_mem _ ht))
  | subscript _ _ _ _ _ _ ihb ihi =>
    exact .subscript _ _ (ihb fun t ht => own (by simp [ht])) (ihi fun t ht => own (by simp [ht]))
  | @call _ right symbol _ _ _ args ts us _ _ _ found _ listed _ _ ihc iha =>
    have callee := ihc fun t ht => own (by simp [ht])
    obtain ⟨g, known, same⟩ := Declarations.function_of_find? found
    cases callee with
    | name _ spelled denotes =>
      have text := denotes.named
      obtain rfl := denotes.callee named hand known (same.trans text)
      rw [← same] at text ⊢
      subst text
      refine .call _ spelled known denotes ?_
      intro e he
      obtain ⟨a, ha, rfl⟩ := List.mem_map.1 he
      refine iha a ha fun t ht => own ?_
      have inside := listed.subset _ (List.mem_map_of_mem ha) ht
      simp [inside]
  | negate _ _ _ ih => exact .negate _ _ (ih fun t ht => own (by simp [ht]))
  | not _ _ _ ih => exact .not _ _ (ih fun t ht => own (by simp [ht]))
  | binary _ _ _ _ ihl ihr =>
    exact .binary _ _ _ (ihl fun t ht => own (by simp [ht])) (ihr fun t ht => own (by simp [ht]))
  | relational _ _ _ _ ihl ihr =>
    exact .relational _ _ _ (ihl fun t ht => own (by simp [ht])) (ihr fun t ht => own (by simp [ht]))
  | assign _ _ _ _ _ iht ihv =>
    exact .assign _ _ _ (iht fun t ht => own (by simp [ht])) (ihv fun t ht => own (by simp [ht]))
  | lift _ ih => exact ih own

/-- **What is resolved stays so** in tables that grow. -/
theorem Expr.Resolved.later (h : d.Precedes D) {e : Expr}
    (he : e.Resolved tokens d f (List.range d.next)) : e.Resolved tokens D f (List.range d.next) := by
  induction he with
  | literal v ty p => exact .literal v ty p
  | name ty spelled denotes => exact .name ty spelled (denotes.later h)
  | binary op ty p _ _ ihl ihr => exact .binary op ty p ihl ihr
  | assign op ty p _ _ iht ihv => exact .assign op ty p iht ihv
  | relational op ty p _ _ ihl ihr => exact .relational op ty p ihl ihr
  | negate ty p _ ih => exact .negate ty p ih
  | not ty p _ ih => exact .not ty p ih
  | subscript ty p _ _ ihb ihi => exact .subscript ty p ihb ihi
  | call ty spelled found denotes _ ih =>
    obtain ⟨g', found', name, symbol⟩ := h.function _ _ found
    rw [← name, ← symbol] at denotes
    rw [← name] at spelled ⊢
    exact .call ty spelled found' (denotes.later h) ih

theorem Occurs.resolved (named : d.Named) (hand : Declarations.AtHand f d) (h : d.Precedes D)
    {e : Expr} (occurs : Occurs tokens d (some f) e) : e.Resolved tokens D f (List.range d.next) := by
  obtain ⟨ts, own, derived⟩ := occurs
  exact (derived.resolved named hand own).later h

/-! ## Bodies -/

/-- The locals that a phrase declares. -/
def Phrase.declared : Phrase → List SymbolId
  | .statement s => s.declared
  | .choice c => c.declared
  | .block body => Statement.allDeclared body

/-- The names in a phrase are resolved. -/
def Phrase.Resolved (tokens : List Token) (d : Declarations) (f : FunctionId)
    (before : List SymbolId) : Phrase → Prop
  | .statement s => s.Resolved tokens d f before
  | .choice c => c.Resolved tokens d f before
  | .block body => Statement.AllResolved tokens d f before body

/-- **Within a function the tables get the locals** that are declared, in
the order of the source. -/
theorem Builds.adds {p : Phrase} (built : Builds tokens f d p d') :
    Declarations.Adds f p.declared d d' := by
  induction built with
  | localVariable | initialised =>
    simpa only [Phrase.declared, Statement.declared] using Declarations.adds_withLocal
  | expression | leave | ret =>
    simpa only [Phrase.declared, Statement.declared] using Declarations.Adds.refl f _
  | branch _ ih | whileLoop _ _ _ ih | forLoop _ _ _ _ _ ih =>
    simpa only [Phrase.declared, Statement.declared] using ih
  | alone _ _ _ ih =>
    simpa only [Phrase.declared, IfStatement.declared, ElseBranch.declared, List.append_nil] using ih
  | otherwise _ _ _ _ ihb iho =>
    simpa only [Phrase.declared, IfStatement.declared, ElseBranch.declared] using ihb.trans iho
  | chain _ _ _ _ ihb iho =>
    simpa only [Phrase.declared, IfStatement.declared, ElseBranch.declared] using ihb.trans iho
  | nil => simpa only [Phrase.declared, Statement.allDeclared] using Declarations.Adds.refl f _
  | cons _ _ ihs ihb =>
    simpa only [Phrase.declared, Statement.allDeclared] using ihs.trans ihb

/-- **Names keep one meaning** while a body is read. -/
theorem Builds.named {p : Phrase} (built : Builds tokens f d p d') (named : d.Named)
    (hand : Declarations.AtHand f d) : d'.Named ∧ Declarations.AtHand f d' := by
  induction built with
  | localVariable _ fresh | initialised _ _ _ fresh =>
    obtain ⟨g, known⟩ := hand.known
    exact ⟨named.withLocal known fresh, hand.withVariable _⟩
  | expression | leave | ret | nil => exact ⟨named, hand⟩
  | branch _ ih | whileLoop _ _ _ ih | forLoop _ _ _ _ _ ih | alone _ _ _ ih => exact ih named hand
  | otherwise _ _ _ _ ih ih' | chain _ _ _ _ ih ih' | cons _ _ ih ih' =>
    obtain ⟨named', hand'⟩ := ih named hand
    exact ih' named' hand'

/-- **The names in what is built are resolved**, by all tables that grow
from those behind it. -/
theorem Builds.resolved {p : Phrase} (built : Builds tokens f d p d') (named : d.Named)
    (hand : Declarations.AtHand f d) (h : d'.Precedes D) :
    p.Resolved tokens D f (List.range d.next) := by
  -- What a later part declares is not yet at hand in an earlier one, and the
  -- declarations at the end have them all.
  induction built with
  | localVariable => simp only [Phrase.Resolved, Statement.Resolved]
  | initialised _ value _ _ =>
    simp only [Phrase.Resolved, Statement.Resolved]
    exact value.resolved named hand (Declarations.adds_withLocal.precedes.trans h)
  | expression occurs =>
    simpa only [Phrase.Resolved, Statement.Resolved] using occurs.resolved named hand h
  | branch _ ih =>
    simpa only [Phrase.Resolved, Statement.Resolved] using ih named hand h
  | whileLoop condition _ block ih =>
    simp only [Phrase.Resolved, Statement.Resolved]
    exact ⟨condition.resolved named hand (block.adds.precedes.trans h), ih named hand h⟩
  | forLoop start condition _ turn block ih =>
    have all := block.adds.precedes.trans h
    simp only [Phrase.Resolved, Statement.Resolved]
    exact ⟨start.resolved named hand all, condition.resolved named hand all,
      turn.resolved named hand all, ih named hand h⟩
  | leave => simp only [Phrase.Resolved, Statement.Resolved]
  | ret value _ _ =>
    simpa only [Phrase.Resolved, Statement.Resolved] using value.resolved named hand h
  | alone condition _ block ih =>
    simp only [Phrase.Resolved, IfStatement.Resolved, ElseBranch.Resolved, and_true]
    exact ⟨condition.resolved named hand (block.adds.precedes.trans h), ih named hand h⟩
  | otherwise condition _ block rest ihb iho | chain condition _ block rest ihb iho =>
    obtain ⟨named', hand'⟩ := block.named named hand
    have rest := rest.adds.precedes.trans h
    simp only [Phrase.Resolved, IfStatement.Resolved, ElseBranch.Resolved]
    refine ⟨condition.resolved named hand (block.adds.precedes.trans rest), ihb named hand rest, ?_⟩
    have behind := iho named' hand' h
    rw [← block.adds.numbers] at behind
    exact behind
  | nil => simp only [Phrase.Resolved, Statement.AllResolved]
  | cons first rest ihs ihb =>
    obtain ⟨named', hand'⟩ := first.named named hand
    simp only [Phrase.Resolved, Statement.AllResolved]
    refine ⟨ihs named hand (rest.adds.precedes.trans h), ?_⟩
    have behind := ihb named' hand' h
    rw [← first.adds.numbers] at behind
    exact behind

/-! ## Items -/

/-- What reading the parameters of a function does to the tables. -/
theorem BuildsParameters.adds {ps : List SymbolId} (built : BuildsParameters f d ps d') :
    d.symbols.symbols <+: d'.symbols.symbols ∧ List.range d.next ++ ps = List.range d'.next ∧
      d'.functions.functions =
        d.functions.functions.modify f fun g => { g with parameters := g.parameters ++ ps } := by
  induction built with
  | @nil d =>
    refine ⟨List.prefix_rfl, List.append_nil _, ?_⟩
    simp only [List.append_nil]
    exact (List.modify_id f d.functions.functions).symm
  | @cons d d' name ty more _ _ _ ih =>
    obtain ⟨symbols, numbers, functions⟩ := ih
    refine ⟨(List.prefix_append _ _).trans symbols, ?_, ?_⟩
    · rw [← numbers, show (d.withParameter name ty f).next = d.next + 1 from List.length_append,
        List.range_succ, List.append_assoc]
      rfl
    · rw [functions]
      refine (List.modify_modify_eq ..).trans ?_
      congr 1
      funext g
      simp

/-- **Names keep one meaning** while parameters are read, as their function
has no locals. -/
theorem BuildsParameters.named {ps : List SymbolId} (built : BuildsParameters f d ps d')
    (named : d.Named) (hand : Declarations.AtHand f d)
    (bare : ∀ g, d.functions.get? f = some g → g.locals = []) :
    d'.Named ∧ Declarations.AtHand f d' := by
  induction built with
  | nil => exact ⟨named, hand⟩
  | @cons d _ name ty _ _ fresh _ ih =>
    obtain ⟨g, known⟩ := hand.known
    refine ih (named.withParameter known (bare g known) fresh) (hand.withVariable _) ?_
    intro g' known'
    have listed := (Declarations.getFunction?_modifyFunction f f _).symm.trans known'
    rw [if_pos rfl] at listed
    change (d.functions.get? f).map _ = _ at listed
    rw [known] at listed
    cases listed
    exact bare g known

/-- The last element of a list is changed. -/
theorem modify_length {α : Type} (xs : List α) (x : α) (change : α → α) :
    (xs ++ [x]).modify xs.length change = xs ++ [change x] := by
  induction xs with
  | nil => rfl
  | cons y ys ih => simpa using ih

section Function

variable {d₁ : Declarations} {name : Token} {ty : Ty} {decorators : Decorators}
  {ps : List SymbolId} {body : List Statement}

/-- A function that is built stands behind those before it, with its
parameters and the locals of its body. -/
theorem functions_of_built
    (header : BuildsParameters d.functions.size (d.withHeader name ty decorators) ps d₁)
    (block : Builds tokens d.functions.size d₁ (.block body) d') :
    ∃ g, d'.functions.functions = d.functions.functions ++ [g] ∧ g.name = name.lexeme ∧
      g.symbol = d.next ∧ g.parameters = ps ∧ g.locals = Statement.allDeclared body := by
  have functions := block.adds.functions
  rw [header.adds.2.2] at functions
  exact ⟨_, functions.trans ((congrArg _ (modify_length _ _ _)).trans (modify_length _ _ _)), rfl,
    rfl, rfl, rfl⟩

/-- It is found by all tables that grow. -/
theorem get?_of_built
    (header : BuildsParameters d.functions.size (d.withHeader name ty decorators) ps d₁)
    (block : Builds tokens d.functions.size d₁ (.block body) d')
    (grown : d'.functions.functions <+: D.functions.functions) :
    ∃ g, D.functions.get? d.functions.size = some g ∧ g.name = name.lexeme ∧ g.symbol = d.next ∧
      g.parameters = ps ∧ g.locals = Statement.allDeclared body := by
  obtain ⟨g, functions, described⟩ := functions_of_built header block
  obtain ⟨more, whole⟩ := grown
  refine ⟨g, ?_, described⟩
  rw [FunctionTable.get?, ← whole, functions, List.append_assoc]
  refine (List.getElem?_append_right (Nat.le_refl d.functions.functions.length)).trans ?_
  rw [Nat.sub_self]
  rfl

/-- The symbols in front of a body are those in front of its function, the
function and its parameters. -/
theorem BuildsParameters.numbers_header
    (header : BuildsParameters f (d.withHeader name ty decorators) ps d₁) :
    List.range d.next ++ d.next :: ps = List.range d₁.next := by
  obtain ⟨-, numbers, -⟩ := header.adds
  rw [← numbers, show (d.withHeader name ty decorators).next = d.next + 1 from List.length_append,
    List.range_succ, List.append_assoc]
  rfl

/-- Names have one meaning in front of a body. -/
theorem BuildsParameters.named_header (named : d.Named)
    (fresh : d.symbols.find? name.lexeme none = none)
    (header : BuildsParameters d.functions.size (d.withHeader name ty decorators) ps d₁) :
    d₁.Named ∧ Declarations.AtHand d.functions.size d₁ := by
  refine header.named (named.withHeader fresh) named.atHand_withHeader fun g known => ?_
  rw [Declarations.withHeader, Declarations.getFunction?_withFunction] at known
  cases (if_pos rfl).symm.trans known
  rfl

end Function

/-- **What an item adds to the tables**: at most one function, and the
symbols that it declares, in the order of the source. -/
theorem BuildsItem.adds {i : Item} (built : BuildsItem tokens d i d') :
    d.symbols.symbols <+: d'.symbols.symbols ∧ d.functions.functions <+: d'.functions.functions ∧
      ∀ D : Declarations, d'.functions.functions <+: D.functions.functions →
        List.range d.next ++ i.declared D = List.range d'.next := by
  cases built with
  | @global name ty _ _ _ =>
    refine ⟨List.prefix_append _ _, List.prefix_rfl, fun D _ => ?_⟩
    rw [show (d.withGlobal name ty .variable).next = d.next + 1 from List.length_append,
      List.range_succ]
    rfl
  | function _ _ header block =>
    obtain ⟨symbols, -, -⟩ := header.adds
    obtain ⟨g, functions, -⟩ := functions_of_built header block
    refine ⟨(List.prefix_append _ _).trans (symbols.trans block.adds.symbols),
      functions ▸ List.prefix_append _ _, fun D grown => ?_⟩
    obtain ⟨g, known, -, symbol, parameters, -⟩ := get?_of_built header block grown
    rw [Item.declared, known, Option.map_some, Option.getD_some, symbol, parameters,
      ← List.append_assoc, header.numbers_header]
    exact block.adds.numbers

theorem BuildsItem.named {i : Item} (built : BuildsItem tokens d i d') (named : d.Named) :
    d'.Named := by
  cases built with
  | global _ fresh => exact named.withGlobal fresh
  | function fresh _ header block =>
    obtain ⟨named', hand'⟩ := header.named_header named fresh
    exact (block.named named' hand').1

/-- **The names in an item are resolved**, by all tables that grow from
those behind it. -/
theorem BuildsItem.resolved {i : Item} (built : BuildsItem tokens d i d') (named : d.Named)
    (symbols : d'.symbols.symbols <+: D.symbols.symbols)
    (functions : d'.functions.functions <+: D.functions.functions) :
    i.Resolved tokens D (List.range d.next) := by
  cases built with
  | global => trivial
  | function fresh _ header block =>
    obtain ⟨g, known, name, symbol, parameters, locals'⟩ := get?_of_built header block functions
    refine ⟨g, known, name, locals', ?_⟩
    rw [symbol, parameters, header.numbers_header]
    obtain ⟨named', hand'⟩ := header.named_header named fresh
    exact block.resolved named' hand' (.of_grown symbols functions)

/-- **The names in all items are resolved**, by the tables behind them. -/
theorem BuildsItems.resolved {items : List Item} (built : BuildsItems tokens d items d')
    (named : d.Named) : d'.Named ∧ d.symbols.symbols <+: d'.symbols.symbols ∧
      d.functions.functions <+: d'.functions.functions ∧
      List.range d.next ++ items.flatMap (Item.declared d') = List.range d'.next ∧
      Item.AllResolved tokens d' (List.range d.next) items := by
  induction built with
  | nil => exact ⟨named, List.prefix_rfl, List.prefix_rfl, by simp, trivial⟩
  | cons first rest ih =>
    obtain ⟨symbols, functions, numbers⟩ := first.adds
    obtain ⟨named', symbols', functions', numbers', resolved'⟩ := ih (first.named named)
    have numbers := numbers _ functions'
    refine ⟨named', symbols.trans symbols', functions.trans functions', ?_,
      first.resolved named symbols' functions', ?_⟩
    · rw [List.flatMap_cons, ← List.append_assoc, numbers, numbers']
    · rw [numbers]
      exact resolved'

/-! ## Shaders -/

/-- **Every shader that is accepted is resolved**: each name in it denotes
the one declaration of that name that its place sees. -/
theorem Shader.resolved_of_parse {stage : Stage} {source : String} {s : Shader}
    (h : Shader.parse stage source = .ok s) :
    ∃ tokens, tokenize source = .ok tokens ∧ s.Resolved stage tokens := by
  simp only [Shader.parse, Bind.bind, Except.bind] at h
  split at h
  · cases h
  · next tokens scanned =>
    obtain ⟨d, declared, built⟩ := Shader.builds_of_ofTokens h
    obtain ⟨named, symbols, -, numbers, resolved⟩ :=
      built.resolved (Declarations.named_addStage declared)
    exact ⟨tokens, scanned, ascending_of_tokenize scanned, fun _ _ _ => named.global_unique, fun _ _ _ _ => named.local_unique,
      fun _ _ _ _ => named.shadowed, named.listed, d, declared, symbols, numbers, resolved⟩

/-- A shader with one name for several variables. -/
def Shader.scopedSource : String :=
  "float a; float f(float x) \x7b float y = x; if (y < a) \x7b float z = y; \x7d return f(y); \x7d "
    ++ "float y; void main() \x7b float x = f(y); y = x; \x7d"

set_option maxRecDepth 100000 in
theorem Shader.resolved_scopedSource : ∃ s tokens, Shader.parse .vertex scopedSource = .ok s ∧
    s.items.length = 4 ∧ tokenize scopedSource = .ok tokens ∧ s.Resolved .vertex tokens := by
  have read : (Shader.parse .vertex scopedSource).toOption.any
      (fun s => s.items.length == 4) = true := by decide +kernel
  obtain ⟨s, parsed, four⟩ := exists_ok_of_any read
  obtain ⟨tokens, scanned, resolved⟩ := Shader.resolved_of_parse parsed
  exact ⟨s, tokens, parsed, by simpa using four, scanned, resolved⟩

end Shading
