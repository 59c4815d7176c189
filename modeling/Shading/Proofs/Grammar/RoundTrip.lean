import Shading.Proofs.Grammar.Printing

/-!
# Expressions parse back

From what is written for a typed expression one is derived that differs
from it in positions alone, as long as the names in it denote what they
are printed for (`Expr.Visible`). What is derived is read, and what is
read is derived. So an expression parses back from its printed form, and
what is read was written for its result (`Parser.expression_print`).

Every expression has tokens that spell it if its literals have any
(`Expr.Spellable`): an integer is written without a sign, and a float has
to be the value of some decimal text.
-/

namespace Shading

open Shading.Parser

namespace Expr

section

variable (d : Declarations) (f : Option FunctionId)

mutual

/-- **The names in an expression denote what they are printed for**: every
symbol is found by its name, and so is every function that is called. -/
def Visible : Expr → Prop
  | literal _ _ _ => True
  | name id _ _ => d.symbols.find? (d.symbolName id) f = some id
  | binary _ lhs rhs _ _ | relational _ lhs rhs _ _ => lhs.Visible ∧ rhs.Visible
  | assign _ target value _ _ => target.Visible ∧ value.Visible
  | negate operand _ _ | not operand _ _ => operand.Visible
  | subscript base index _ _ => base.Visible ∧ index.Visible
  | call id callee args _ _ =>
    (∃ symbol, d.symbols.find? callee f = some symbol) ∧ d.functions.find? callee = some id ∧
      AllVisible args

/-- The names in each of some expressions denote what they are printed
for. -/
def AllVisible : List Expr → Prop
  | [] => True
  | e :: es => e.Visible ∧ AllVisible es

end

end

mutual

/-- **The literals of an expression have a spelling.** -/
def Spellable : Expr → Prop
  | literal (.int i) _ _ => 0 ≤ i ∧ i < 2 ^ 31
  | literal (.float bits) _ _ => ∃ lexeme, Binary32.ofDecimal? lexeme = some bits
  | literal (.bool _) _ _ | name _ _ _ => True
  | binary _ lhs rhs _ _ | relational _ lhs rhs _ _ => lhs.Spellable ∧ rhs.Spellable
  | assign _ target value _ _ => target.Spellable ∧ value.Spellable
  | negate operand _ _ | not operand _ _ => operand.Spellable
  | subscript base index _ _ => base.Spellable ∧ index.Spellable
  | call _ _ args _ _ => AllSpellable args

/-- The literals of each of some expressions have a spelling. -/
def AllSpellable : List Expr → Prop
  | [] => True
  | e :: es => e.Spellable ∧ AllSpellable es

end

mutual

/-- **An expression without its positions.** -/
def unplaced : Expr → Expr
  | literal v ty _ => literal v ty .start
  | name id ty _ => name id ty .start
  | binary op lhs rhs ty _ => binary op lhs.unplaced rhs.unplaced ty .start
  | assign op target value ty _ => assign op target.unplaced value.unplaced ty .start
  | relational op lhs rhs ty _ => relational op lhs.unplaced rhs.unplaced ty .start
  | negate operand ty _ => negate operand.unplaced ty .start
  | not operand ty _ => not operand.unplaced ty .start
  | subscript base index ty _ => subscript base.unplaced index.unplaced ty .start
  | call id callee args ty _ => call id callee (allUnplaced args) ty .start

/-- Some expressions without their positions. -/
def allUnplaced : List Expr → List Expr
  | [] => []
  | e :: es => e.unplaced :: allUnplaced es

end

theorem allUnplaced_eq_map (es : List Expr) : allUnplaced es = es.map unplaced := by
  induction es with
  | nil => rfl
  | cons e es ih => rw [allUnplaced, ih, List.map_cons]

@[simp] theorem ty_unplaced (e : Expr) : e.unplaced.ty = e.ty := by
  cases e <;> rfl

mutual

theorem isConstant_unplaced : (e : Expr) → e.unplaced.isConstant = e.isConstant
  | literal _ _ _ | name _ _ _ => rfl
  | binary _ lhs rhs _ _ | relational _ lhs rhs _ _ => by
    simp only [unplaced, isConstant, isConstant_unplaced lhs, isConstant_unplaced rhs]
  | assign _ target value _ _ => by
    simp only [unplaced, isConstant, isConstant_unplaced target, isConstant_unplaced value]
  | negate operand _ _ | not operand _ _ => by
    simp only [unplaced, isConstant, isConstant_unplaced operand]
  | subscript base index _ _ => by
    simp only [unplaced, isConstant, isConstant_unplaced base, isConstant_unplaced index]
  | call _ _ args _ _ => by simp only [unplaced, isConstant, areConstant_unplaced args]

theorem areConstant_unplaced : (es : List Expr) → areConstant (allUnplaced es) = areConstant es
  | [] => rfl
  | e :: es => by
    simp only [allUnplaced, areConstant, isConstant_unplaced e, areConstant_unplaced es]

end

theorem ty_of_unplaced {e e' : Expr} (h : e'.unplaced = e.unplaced) : e'.ty = e.ty := by
  rw [← ty_unplaced, h, ty_unplaced]

theorem isConstant_of_unplaced {e e' : Expr} (h : e'.unplaced = e.unplaced) :
    e'.isConstant = e.isConstant := by
  rw [← isConstant_unplaced, h, isConstant_unplaced]

theorem visible_of_allVisible {d : Declarations} {f : Option FunctionId} {es : List Expr}
    (h : AllVisible d f es) : ∀ e ∈ es, e.Visible d f := by
  induction es with
  | nil => simp
  | cons e es ih => exact List.forall_mem_cons.2 ⟨h.1, ih h.2⟩

end Expr

/-! ## From what is written -/

section Derivations

variable {d : Declarations} {f : Option FunctionId} {l : Level} {e : Expr} {ts : List Token}
  {xs : List Terminal} {k : Nat}

/-- **An expression but for its positions** is derived from tokens. -/
def DerivesUnplaced (d : Declarations) (f : Option FunctionId) (l : Level) (e : Expr)
    (ts : List Token) : Prop :=
  ∃ e', Derives d f l e' ts ∧ e'.unplaced = e.unplaced

/-- What is derived without parentheses is derived with as many as a place
asks for. -/
theorem DerivesUnplaced.nest (bare : ∀ ts, Spells ts xs → DerivesUnplaced d f e.level e ts)
    (enough : needs l e ≤ k) (spells : Spells ts (nest k xs)) : DerivesUnplaced d f l e ts := by
  induction k generalizing l ts with
  | zero =>
    obtain ⟨e', derived, same⟩ := bare ts spells
    exact ⟨e', derived.weaken (needs_eq_zero.1 (Nat.le_zero.1 enough)), same⟩
  | succ k ih =>
    obtain ⟨left, us, right, rfl, opens, closes, spells⟩ := spells_nest_iff.1 spells
    obtain ⟨e', derived, same⟩ := ih (l := .assignment) (by simp [needs, Level.rank]) spells
    exact ⟨e', (Derives.group opens closes derived).weaken l.rank_le_suffixed, same⟩

/-- Arguments that are derived one by one are so together. -/
theorem derivesUnplaced_arguments {args : List (Expr × Nat × List Terminal)} {parts : List (List Token)}
    (bare : ∀ a ∈ args, ∀ ts, Spells ts a.2.2 → DerivesUnplaced d f a.1.level a.1 ts)
    (spells : List.Forall₂ Spells parts (args.map fun a => Shading.nest a.2.1 a.2.2)) :
    ∃ args' : List (Expr × List Token), args'.map Prod.snd = parts ∧
      (∀ a ∈ args', Derives d f .assignment a.1 a.2) ∧
      args'.map (fun a => a.1.unplaced) = args.map (fun a => a.1.unplaced) := by
  induction args generalizing parts with
  | nil =>
    cases spells
    exact ⟨[], rfl, by simp, rfl⟩
  | cons a args ih =>
    cases spells with
    | @cons ts _ parts _ first rest =>
      obtain ⟨own, bare⟩ := List.forall_mem_cons.1 bare
      obtain ⟨e', derived, same⟩ :=
        DerivesUnplaced.nest (l := .assignment) own (by simp [needs, Level.rank]) first
      obtain ⟨args', parts', all, sames⟩ := ih bare rest
      exact ⟨(e', ts) :: args', by simp [parts'], List.forall_mem_cons.2 ⟨derived, all⟩,
        by simp [same, sames]⟩

/-- A name is derived from itself in parentheses. -/
theorem derives_callee {name : String} {symbol : SymbolId} (seen : d.symbols.find? name f = some symbol)
    (spells : Spells ts (Shading.nest k [.name name])) :
    ∃ p, Derives d f .suffixed (.name symbol (d.symbolTy symbol) p) ts := by
  induction k generalizing ts with
  | zero =>
    obtain ⟨t, rfl, kind, rfl⟩ := spells_singleton_iff.1 spells
    exact ⟨_, .name kind seen⟩
  | succ k ih =>
    obtain ⟨left, us, right, rfl, opens, closes, spells⟩ := spells_nest_iff.1 spells
    obtain ⟨p, derived⟩ := ih spells
    exact ⟨p, .group opens closes (derived.weaken (Nat.zero_le _))⟩

/-- A call is derived from its name and arguments that are so but for
their positions. -/
theorem derivesUnplaced_call {left right : Token} {symbol : SymbolId} {ty : Ty} {id : FunctionId}
    {g : Function} {args' : List (Expr × List Token)} {args : List Expr} {us : List Token} {p q : Position}
    (opens : left.kind = .roundLeft) (closes : right.kind = .roundRight)
    (callee : Derives d f .suffixed (.name symbol ty q) ts)
    (known : d.functions.find? (d.symbolName symbol) = some id) (found : d.functions.get? id = some g)
    (all : ∀ a ∈ args', Derives d f .assignment a.1 a.2) (listed : Commas (args'.map Prod.snd) us)
    (sames : (args'.map Prod.fst).map Expr.unplaced = args.map Expr.unplaced)
    (fits : List.Forall₂ Ty.Stores (g.parameters.map d.symbolTy) (args.map Expr.ty)) :
    DerivesUnplaced d f .suffixed (.call id (d.symbolName symbol) args g.returnTy p)
      (ts ++ left :: us ++ [right]) := by
  have types : (args'.map Prod.fst).map Expr.ty = args.map Expr.ty := by
    simpa [Function.comp_def] using congrArg (List.map Expr.ty) sames
  have params : d.parameters id = g.parameters := by simp [Declarations.parameters, found]
  have ret : d.returnTy id = g.returnTy := by simp [Declarations.returnTy, found]
  have count : args'.length = (d.parameters id).length := by
    have := fits.length_eq
    rw [← types] at this
    simpa [params] using this.symm
  refine ⟨_, .call opens closes callee known all listed count ?_, ?_⟩
  · rw [types, params]
    exact (firstMismatch?_eq_none fits.length_eq.symm).2 fits
  · rw [Expr.unplaced, Expr.unplaced, Expr.allUnplaced_eq_map, Expr.allUnplaced_eq_map, sames, ret]

/-- **From what is written for a typed expression it is derived**, but for
its positions. -/
theorem Expr.Written.derives (h : e.Written d xs) (typed : e.Typed d f) (visible : e.Visible d f) :
    ∀ ts, Spells ts xs → DerivesUnplaced d f e.level e ts := by
  -- The induction is on how the expression is written, not on the expression: only
  -- there do the levels stand that its parts may have without parentheses.
  induction h with
  | literal v ty p =>
    intro ts spells
    obtain ⟨t, rfl, spelled⟩ := spells_singleton_iff.1 spells
    cases typed
    exact ⟨_, .literal spelled, rfl⟩
  | name id ty p =>
    intro ts spells
    obtain ⟨t, rfl, kind, lexeme⟩ := spells_singleton_iff.1 spells
    cases typed with
    | name p found seen =>
      have denoted : d.symbols.find? (d.symbolName id) f = some id := visible
      refine ⟨_, .name kind (lexeme ▸ denoted), ?_⟩
      simp [unplaced, Declarations.symbolTy_of_get? found]
  | @binary op lhs rhs xs ys j k ty p left right enough enough' ihl ihr =>
    intro ts spells
    obtain ⟨us, t, vs, rfl, mark, first, second⟩ := spells_between_iff.1 spells
    cases typed with
    | binary _ tl tr yields =>
      obtain ⟨a, da, ea⟩ := DerivesUnplaced.nest (ihl tl visible.1) enough first
      obtain ⟨b, db, eb⟩ := DerivesUnplaced.nest (ihr tr visible.2) enough' second
      obtain ⟨joins, rfl⟩ := yields.joins
      rw [← ty_of_unplaced ea, ← ty_of_unplaced eb] at joins
      refine ⟨_, .binary (joinOp?_eq_some.2 ⟨rfl, mark.symm⟩) da db joins, ?_⟩
      simp [unplaced, ea, eb, ty_of_unplaced ea, ty_of_unplaced eb]
  -- On the left of an assignment stands a part of a tighter level; the value behind it
  -- is another assignment and needs no parentheses.
  | @assign op target value xs ys j k ty p left right enough iht ihv =>
    intro ts spells
    obtain ⟨us, t, vs, rfl, mark, first, second⟩ := spells_between_iff.1 spells
    cases typed with
    | assign _ tt tv changeable takes =>
      obtain ⟨a, da, ea⟩ := DerivesUnplaced.nest (iht tt visible.1) enough first
      obtain ⟨b, db, eb⟩ := DerivesUnplaced.nest (l := .assignment) (ihv tv visible.2)
        (by simp [needs, Level.rank]) second
      have assigns := Ty.takes_iff.1 takes
      rw [← ty_of_unplaced ea, ← ty_of_unplaced eb] at assigns
      rw [← isConstant_of_unplaced ea] at changeable
      refine ⟨_, .assign (assignmentOp?_eq_some.2 mark.symm) da db changeable assigns, ?_⟩
      simp [unplaced, ea, eb, ty_of_unplaced ea]
  | @relational op lhs rhs xs ys j k ty p left right enough enough' ihl ihr =>
    intro ts spells
    obtain ⟨us, t, vs, rfl, mark, first, second⟩ := spells_between_iff.1 spells
    cases typed with
    | relational _ tl tr compares =>
      obtain ⟨a, da, ea⟩ := DerivesUnplaced.nest (ihl tl visible.1) enough first
      obtain ⟨b, db, eb⟩ := DerivesUnplaced.nest (ihr tr visible.2) enough' second
      have compares := RelationalOp.compares_iff.1 compares
      rw [← ty_of_unplaced ea, ← ty_of_unplaced eb] at compares
      refine ⟨_, .relational (relationalOp?_eq_some.2 mark.symm) da db compares, ?_⟩
      simp [unplaced, ea, eb]
  | @negate e xs k ty p operand enough ih =>
    intro ts spells
    obtain ⟨t, us, rfl, mark, rest⟩ := spells_cons_iff.1 spells
    cases typed with
    | negate _ te numeric =>
      obtain ⟨a, da, ea⟩ := DerivesUnplaced.nest (ih te visible) enough rest
      rw [← ty_of_unplaced ea] at numeric
      refine ⟨_, .negate mark da numeric, ?_⟩
      simp [unplaced, ea, ty_of_unplaced ea]
  | @not e xs k ty p operand enough ih =>
    intro ts spells
    obtain ⟨t, us, rfl, mark, rest⟩ := spells_cons_iff.1 spells
    cases typed with
    | not _ te truth =>
      obtain ⟨a, da, ea⟩ := DerivesUnplaced.nest (ih te visible) enough rest
      rw [← ty_of_unplaced ea] at truth
      refine ⟨_, .not mark da truth, ?_⟩
      simp [unplaced, ea]
  | @subscript base index xs ys j k ty p left right enough ihb ihi =>
    intro ts spells
    obtain ⟨us, l, vs, r, rfl, opens, closes, first, second⟩ := spells_closed_iff.1 spells
    cases typed with
    | subscript _ tb ti element integral =>
      obtain ⟨a, da, ea⟩ := DerivesUnplaced.nest (ihb tb visible.1) enough first
      obtain ⟨b, db, eb⟩ := DerivesUnplaced.nest (l := .assignment) (ihi ti visible.2)
        (by simp [needs, Level.rank]) second
      rw [← ty_of_unplaced ea] at element
      rw [← ty_of_unplaced eb] at integral
      refine ⟨_, .subscript opens closes da db element integral, ?_⟩
      simp [unplaced, ea, eb]
  -- The arguments are derived each with its own induction hypothesis, so the commas are
  -- taken apart first.
  | @call id callee args j ty p written ih =>
    intro ts spells
    obtain ⟨us, l, vs, r, rfl, opens, closes, first, second⟩ := spells_closed_iff.1 spells
    obtain ⟨parts, listed, spelled⟩ := spells_commas_iff.1 second
    obtain ⟨⟨symbol, seen⟩, known, visible⟩ := visible
    obtain ⟨q, derived⟩ := derives_callee seen first
    cases typed with
    | call _ found typed fits =>
      have typed (a) (ha : a ∈ args) : a.1.Typed d f := typed a.1 (List.mem_map_of_mem ha)
      have visible (a) (ha : a ∈ args) : a.1.Visible d f :=
        visible_of_allVisible visible a.1 (List.mem_map_of_mem ha)
      obtain ⟨args', rfl, all, sames⟩ := derivesUnplaced_arguments
        (fun a ha => ih a ha (typed a ha) (visible a ha)) spelled
      rw [← Declarations.symbolName_of_find? seen] at known ⊢
      refine derivesUnplaced_call opens closes derived known found all listed ?_ fits
      simpa only [List.map_map, Function.comp_def] using sames

/-! ## Spellings -/

/-- A terminal that some token spells. -/
def Terminal.Spelled (x : Terminal) : Prop := ∃ t : Token, t.Spells x

theorem spelled_mark (kind : TokenKind) : (Terminal.mark kind).Spelled := ⟨⟨kind, "", .start⟩, rfl⟩

/-- Digits have no sign in front. -/
theorem splitSign_digits {cs : List Char} (h : ∀ c ∈ cs, c.isDigit = true) :
    splitSign cs = (false, cs) := by
  unfold splitSign
  split
  · exact absurd (h '-' List.mem_cons_self) (by decide)
  · exact absurd (h '+' List.mem_cons_self) (by decide)
  · rfl

/-- A number without a sign is read from its decimal digits. -/
theorem readWordInt?_ofNat {n : Nat} (h : n < 2 ^ 31) : readWordInt? (Text.ofNat n) = some (n : Int) := by
  have digits (c : Char) (hc : c ∈ Nat.toDigits 10 n) : c.isDigit = true :=
    Nat.isDigit_of_mem_toDigits (by decide) (by decide) hc
  have value : digitsValue (Nat.toDigits 10 n) = n :=
    Nat.ofDigitChars_toDigits (by decide) (by decide)
  have nonempty : (Nat.toDigits 10 n).isEmpty = false := by
    cases none : Nat.toDigits 10 n with
    | nil => exact absurd none Nat.toDigits_ne_nil
    | cons => rfl
  have all : (Nat.toDigits 10 n).all Char.isDigit = true := List.all_eq_true.2 digits
  simp only [readWordInt?, readInt?, Text.ofNat, Text.decimal, String.toList_ofList,
    splitSign_digits digits, nonempty, all, value, Bool.not_true, Bool.or_false, Bool.false_eq_true,
    if_false]
  simp only [Option.filter, Bool.and_eq_true, decide_eq_true_eq, ite_eq_left_iff, reduceCtorEq,
    imp_false, Decidable.not_not]
  omega

theorem spelled_literal {v : Literal} {ty : Ty} {p : Position} (h : (Expr.literal v ty p).Spellable) :
    (Terminal.literal v).Spelled := by
  cases v with
  | int i =>
    obtain ⟨low, high⟩ : 0 ≤ i ∧ i < 2 ^ 31 := h
    obtain ⟨n, rfl⟩ := Int.eq_ofNat_of_zero_le low
    refine ⟨⟨.intLiteral, Text.ofNat n, .start⟩, ?_⟩
    simp [Token.Spells, literal?, readWordInt?_ofNat (show n < 2 ^ 31 by omega)]
  | float bits =>
    obtain ⟨lexeme, read⟩ : ∃ lexeme, Binary32.ofDecimal? lexeme = some bits := h
    exact ⟨⟨.floatLiteral, lexeme, .start⟩, by simp [Token.Spells, literal?, read]⟩
  | bool b =>
    cases b with
    | true => exact ⟨⟨.boolLiteral, "true", .start⟩, rfl⟩
    | false => exact ⟨⟨.boolLiteral, "false", .start⟩, rfl⟩

theorem spelled_nest {xs : List Terminal} (h : ∀ x ∈ xs, x.Spelled) (k : Nat) :
    ∀ x ∈ Shading.nest k xs, x.Spelled := by
  induction k with
  | zero => exact h
  | succ k ih =>
    intro x hx
    simp only [Shading.nest, List.cons_append, List.mem_cons, List.mem_append, List.not_mem_nil,
      or_false] at hx
    rcases hx with rfl | hx | rfl
    · exact spelled_mark _
    · exact ih x hx
    · exact spelled_mark _

theorem spelled_commas {texts : List (List Terminal)} (h : ∀ xs ∈ texts, ∀ x ∈ xs, x.Spelled) :
    ∀ x ∈ commas texts, x.Spelled := by
  induction texts with
  | nil => simp [commas]
  | cons xs texts ih =>
    obtain ⟨first, rest⟩ := List.forall_mem_cons.1 h
    cases texts with
    | nil => exact first
    | cons ys texts =>
      intro x hx
      simp only [commas, List.mem_append, List.mem_cons] at hx
      rcases hx with hx | rfl | hx
      · exact first x hx
      · exact spelled_mark _
      · exact ih rest x hx

namespace Expr

/-- An operator between two operands is spelled if they are. -/
theorem spelled_between {xs ys : List Terminal} {kind : TokenKind} {j k : Nat}
    (left : ∀ x ∈ xs, x.Spelled) (right : ∀ x ∈ ys, x.Spelled) :
    ∀ x ∈ Shading.nest j xs ++ .mark kind :: Shading.nest k ys, x.Spelled := by
  intro x hx
  rcases List.mem_append.1 hx with hx | hx
  · exact spelled_nest left j x hx
  · rcases List.mem_cons.1 hx with rfl | hx
    · exact spelled_mark _
    · exact spelled_nest right k x hx

variable (d)

mutual

/-- What is printed is spelled if the literals are. -/
theorem spelled_print : (e : Expr) → e.Spellable → ∀ x ∈ e.print d, x.Spelled
  | literal v ty p, h => by
    simpa [print] using spelled_literal h
  | name id _ _, _ => by
    simpa [print] using ⟨⟨.identifier, d.symbolName id, .start⟩, rfl, rfl⟩
  | binary _ lhs rhs _ _, h => spelled_between (spelled_print lhs h.1) (spelled_print rhs h.2)
  | assign _ target value _ _, h =>
    spelled_between (k := 0) (spelled_print target h.1) (spelled_print value h.2)
  | relational _ lhs rhs _ _, h => spelled_between (spelled_print lhs h.1) (spelled_print rhs h.2)
  | negate operand _ _, h =>
    List.forall_mem_cons.2 ⟨spelled_mark _, spelled_nest (spelled_print operand h) _⟩
  | not operand _ _, h =>
    List.forall_mem_cons.2 ⟨spelled_mark _, spelled_nest (spelled_print operand h) _⟩
  | subscript base index _ _, h =>
    List.forall_mem_append.2 ⟨spelled_between (k := 0) (spelled_print base h.1) (spelled_print index h.2),
      by simpa using spelled_mark _⟩
  | call _ callee args _ _, h => by
    have inner := spelled_commas (spelled_printAll args h)
    intro x hx
    simp only [print, List.cons_append, List.mem_cons, List.mem_append, List.not_mem_nil,
      or_false] at hx
    rcases hx with rfl | rfl | hx | rfl
    · exact ⟨⟨.identifier, callee, .start⟩, rfl, rfl⟩
    · exact spelled_mark _
    · exact inner x hx
    · exact spelled_mark _

theorem spelled_printAll : (es : List Expr) → AllSpellable es →
    ∀ xs ∈ printAll d es, ∀ x ∈ xs, x.Spelled
  | [], _ => by simp [printAll]
  | e :: es, h => List.forall_mem_cons.2 ⟨spelled_print e h.1, spelled_printAll es h.2⟩

end

end Expr

/-- Terminals that are spelled one by one are so together. -/
theorem exists_spells {xs : List Terminal} (h : ∀ x ∈ xs, x.Spelled) : ∃ ts, Spells ts xs := by
  induction xs with
  | nil => exact ⟨[], .nil⟩
  | cons x xs ih =>
    obtain ⟨⟨t, first⟩, rest⟩ := List.forall_mem_cons.1 h
    obtain ⟨ts, spells⟩ := ih rest
    exact ⟨t :: ts, .cons first spells⟩

/-- **Expressions parse back.** From every state, the tokens of a printed
expression are read as the expression, but for positions, up to where it
ends; and there are such tokens. What is read was written for its result:
the tokens are those of the printed expression with more parentheses. -/
theorem Parser.expression_print (s : ParserState) :
    (∀ e : Expr, e.Typed s.declarations s.function → e.Visible s.declarations s.function →
      e.Spellable → Closes .assignment s.rest →
      (∃ ts, Spells ts (e.print s.declarations)) ∧
        ∀ ts, Spells ts (e.print s.declarations) →
          ∃ e', expression (s.before ts) = .ok (e', s) ∧ e'.unplaced = e.unplaced) ∧
    ∀ s₀ e, expression s₀ = .ok (e, s) →
      ∃ k xs ts, e.Written s.declarations xs ∧ Spells ts (Shading.nest k xs) ∧ s₀ = s.before ts := by
  refine ⟨fun e typed visible spellable closes => ⟨?_, fun ts spells => ?_⟩, fun s₀ e run => ?_⟩
  · exact exists_spells (e.spelled_print s.declarations spellable)
  · obtain ⟨e', derived, same⟩ := (e.written_print s.declarations).derives typed visible ts spells
    have whole : Derives s.declarations s.function .assignment e' ts :=
      derived.weaken (Nat.zero_le _)
    exact ⟨e', expression_of_derives whole closes, same⟩
  · obtain ⟨ts, here, derived⟩ := derived_expression s₀ e s run
    obtain ⟨k, xs, written, -, spells⟩ := derived.written
    exact ⟨k, xs, ts, written, spells, here⟩

end Derivations

/-- A product with a sum for its second factor is read from what is printed
for it, and then the tokens are again what is written for the result. -/
theorem Parser.expression_print_product :
    let s : ParserState := ⟨[], [], {}, none⟩
    let mark (kind : TokenKind) (column : Nat) : Token := ⟨kind, "", ⟨1, column⟩⟩
    let number (column : Nat) : Token := ⟨.intLiteral, "7", ⟨1, column⟩⟩
    let ts := [number 1, mark .multiply 3, mark .roundLeft 5, number 6, mark .add 8, number 10,
      mark .roundRight 11]
    let seven : Expr := .literal (.int 7) .int .start
    let e : Expr := .binary .multiply seven (.binary .add seven seven .int .start) .int .start
    ∃ e', expression (s.before ts) = .ok (e', s) ∧ e'.unplaced = e ∧
      ∃ k xs us, e'.Written s.declarations xs ∧ Spells us (Shading.nest k xs) ∧
        s.before ts = s.before us := by
  intro s mark number ts seven e
  have typed : e.Typed s.declarations s.function := by
    have seven : seven.Typed s.declarations s.function := .literal _ _
    exact .binary _ seven (.binary _ seven seven (.integers _)) (.integers _)
  have spellable : seven.Spellable := ⟨by decide, by decide⟩
  have read : readWordInt? "7" = some 7 := by decide +kernel
  have seven (column : Nat) : (number column).Spells (.literal (.int 7)) := by
    simp [Token.Spells, literal?, number, read]
  have spells : Spells ts (e.print s.declarations) :=
    .cons (seven 1) <| .cons rfl <| .cons rfl <| .cons (seven 6) <| .cons rfl <| .cons (seven 10) <|
      .cons rfl .nil
  obtain ⟨forward, backward⟩ := expression_print s
  obtain ⟨e', run, same⟩ := (forward e typed ⟨trivial, trivial, trivial⟩
    ⟨spellable, spellable, spellable⟩ (by simp [Closes, s])).2 ts spells
  exact ⟨e', run, same, backward _ _ run⟩

end Shading
