import Shading.Proofs.Grammar.Completeness
import Shading.Proofs.Typing.Expression

/-!
# Printing expressions

An expression is printed as terminals: literals by their values, names by
their texts, and everything else by the kind of its token. Parentheses
stand around an operand only where its level of precedence is weaker than
what its place asks for (`needs`). The texts that stand for an expression
are those with any number of parentheses more (`Expr.Written`).

What is derived for an expression is written for it (`Derives.written`).
-/

namespace Shading

open Shading.Parser

/-! ## Terminals -/

/-- **What stands in a printed expression** for a token. -/
inductive Terminal where
  | literal (value : Literal)
  | name (text : String)
  | mark (kind : TokenKind)

/-- **A token spells a terminal.** -/
def Token.Spells (t : Token) : Terminal → Prop
  | .literal v => literal? t = .ok (some v)
  | .name text => t.kind = .identifier ∧ t.lexeme = text
  | .mark kind => t.kind = kind

/-- Tokens spell terminals one by one. -/
abbrev Spells : List Token → List Terminal → Prop := List.Forall₂ Token.Spells

/-- Terminals in a number of parentheses. -/
def nest : Nat → List Terminal → List Terminal
  | 0, xs => xs
  | k + 1, xs => .mark .roundLeft :: nest k xs ++ [.mark .roundRight]

/-- Texts with commas between them. -/
def commas : List (List Terminal) → List Terminal
  | [] => []
  | [xs] => xs
  | xs :: more => xs ++ .mark .comma :: commas more

/-- The mark of an arithmetic operator. -/
def BinaryOp.mark : BinaryOp → TokenKind
  | add => .add
  | subtract => .subtract
  | multiply => .multiply
  | divide => .divide

/-- The mark of an assignment, combined with an operator or plain. -/
def assignmentMark : Option BinaryOp → TokenKind
  | none => .assign
  | some .add => .addAssign
  | some .subtract => .subtractAssign
  | some .multiply => .multiplyAssign
  | some .divide => .divideAssign

/-- The mark of a relational operator. -/
def RelationalOp.mark : RelationalOp → TokenKind
  | equals => .equals
  | notEquals => .notEquals
  | less => .less
  | lessEquals => .lessEquals
  | greater => .greater
  | greaterEquals => .greaterEquals

/-! ## Levels -/

/-- How close a level binds. -/
def Level.rank : Level → Nat
  | assignment => 0
  | relation => 1
  | sum => 2
  | product => 3
  | unary => 4
  | suffixed => 5

/-- The level of an arithmetic operator. -/
def BinaryOp.level : BinaryOp → Level
  | add | subtract => .sum
  | multiply | divide => .product

/-- The level of an expression, which is that of its operator. -/
def Expr.level : Expr → Level
  | literal _ _ _ | name _ _ _ | subscript _ _ _ _ | call _ _ _ _ _ => .suffixed
  | negate _ _ _ | not _ _ _ => .unary
  | binary op _ _ _ _ => op.level
  | relational _ _ _ _ _ => .relation
  | assign _ _ _ _ _ => .assignment

/-- **How many parentheses an expression needs** at a place of some
level. -/
def needs (l : Level) (e : Expr) : Nat := if l.rank ≤ e.level.rank then 0 else 1

/-! ## Printing -/

namespace Expr

variable (d : Declarations)

mutual

/-- **An expression as terminals**, with the parentheses it needs. -/
def print : Expr → List Terminal
  | literal v _ _ => [.literal v]
  | name id _ _ => [.name (d.symbolName id)]
  | binary op lhs rhs _ _ =>
    nest (needs op.level lhs) lhs.print ++ .mark op.mark ::
      nest (needs op.level.next rhs) rhs.print
  | assign op target value _ _ =>
    nest (needs .relation target) target.print ++ .mark (assignmentMark op) :: value.print
  | relational op lhs rhs _ _ =>
    nest (needs .sum lhs) lhs.print ++ .mark op.mark :: nest (needs .sum rhs) rhs.print
  | negate operand _ _ => .mark .subtract :: nest (needs .unary operand) operand.print
  | not operand _ _ => .mark .logicalNot :: nest (needs .unary operand) operand.print
  | subscript base index _ _ =>
    nest (needs .suffixed base) base.print ++ .mark .squareLeft :: index.print ++
      [.mark .squareRight]
  | call _ callee args _ _ =>
    .name callee :: .mark .roundLeft :: commas (printAll args) ++ [.mark .roundRight]

/-- Each of some expressions as terminals. -/
def printAll : List Expr → List (List Terminal)
  | [] => []
  | e :: es => e.print :: printAll es

end

/-- **The texts that stand for an expression**, without parentheses around
the whole of it: those inside are at least the ones that are needed. -/
inductive Written : Expr → List Terminal → Prop where
  | literal (v : Literal) (ty : Ty) (p : Position) : Written (.literal v ty p) [.literal v]
  | name (id : SymbolId) (ty : Ty) (p : Position) : Written (.name id ty p) [.name (d.symbolName id)]
  | binary {op : BinaryOp} {lhs rhs : Expr} {xs ys : List Terminal} {j k : Nat} (ty : Ty)
      (p : Position) (left : Written lhs xs) (right : Written rhs ys)
      (enough : needs op.level lhs ≤ j) (enough' : needs op.level.next rhs ≤ k) :
      Written (.binary op lhs rhs ty p) (nest j xs ++ .mark op.mark :: nest k ys)
  | assign {op : Option BinaryOp} {target value : Expr} {xs ys : List Terminal} {j k : Nat} (ty : Ty)
      (p : Position) (left : Written target xs) (right : Written value ys)
      (enough : needs .relation target ≤ j) :
      Written (.assign op target value ty p) (nest j xs ++ .mark (assignmentMark op) :: nest k ys)
  | relational {op : RelationalOp} {lhs rhs : Expr} {xs ys : List Terminal} {j k : Nat} (ty : Ty)
      (p : Position) (left : Written lhs xs) (right : Written rhs ys)
      (enough : needs .sum lhs ≤ j) (enough' : needs .sum rhs ≤ k) :
      Written (.relational op lhs rhs ty p) (nest j xs ++ .mark op.mark :: nest k ys)
  | negate {e : Expr} {xs : List Terminal} {k : Nat} (ty : Ty) (p : Position)
      (operand : Written e xs) (enough : needs .unary e ≤ k) :
      Written (.negate e ty p) (.mark .subtract :: nest k xs)
  | not {e : Expr} {xs : List Terminal} {k : Nat} (ty : Ty) (p : Position)
      (operand : Written e xs) (enough : needs .unary e ≤ k) :
      Written (.not e ty p) (.mark .logicalNot :: nest k xs)
  | subscript {base index : Expr} {xs ys : List Terminal} {j k : Nat} (ty : Ty) (p : Position)
      (left : Written base xs) (right : Written index ys) (enough : needs .suffixed base ≤ j) :
      Written (.subscript base index ty p)
        (nest j xs ++ .mark .squareLeft :: nest k ys ++ [.mark .squareRight])
  | call {id : FunctionId} {callee : String} {args : List (Expr × Nat × List Terminal)} (j : Nat)
      (ty : Ty) (p : Position) (written : ∀ a ∈ args, Written a.1 a.2.2) :
      Written (.call id callee (args.map Prod.fst) ty p)
        (nest j [.name callee] ++
          .mark .roundLeft :: commas (args.map fun a => nest a.2.1 a.2.2) ++ [.mark .roundRight])

theorem printAll_eq_map (es : List Expr) : printAll d es = es.map (print d) := by
  induction es with
  | nil => rfl
  | cons e es ih => rw [printAll, ih, List.map_cons]

/-- Arguments as they are printed, without parentheses. -/
theorem written_call {id : FunctionId} {callee : String} {args : List Expr} (ty : Ty) (p : Position)
    (written : ∀ e ∈ args, Written d e (e.print d)) :
    Written d (.call id callee args ty p) (print d (.call id callee args ty p)) := by
  have whole : Written d (.call id callee ((args.map fun e => (e, 0, e.print d)).map Prod.fst) ty p) _ :=
    .call 0 ty p (by simpa using written)
  simpa [print, printAll_eq_map, nest, Function.comp_def] using whole

mutual

/-- What is printed for an expression stands for it. -/
theorem written_print : (e : Expr) → Written d e (e.print d)
  | literal v ty p => .literal v ty p
  | name id ty p => .name id ty p
  | binary _ lhs rhs ty p =>
    .binary ty p (written_print lhs) (written_print rhs) (Nat.le_refl _) (Nat.le_refl _)
  | assign _ target value ty p =>
    .assign (k := 0) ty p (written_print target) (written_print value) (Nat.le_refl _)
  | relational _ lhs rhs ty p =>
    .relational ty p (written_print lhs) (written_print rhs) (Nat.le_refl _) (Nat.le_refl _)
  | negate e ty p => .negate ty p (written_print e) (Nat.le_refl _)
  | not e ty p => .not ty p (written_print e) (Nat.le_refl _)
  | subscript base index ty p =>
    .subscript (k := 0) ty p (written_print base) (written_print index) (Nat.le_refl _)
  | call _ _ args ty p => written_call d ty p (written_printAll args)

theorem written_printAll : (es : List Expr) → ∀ e ∈ es, Written d e (e.print d)
  | [], _, h => (List.not_mem_nil h).elim
  | e :: es, _, h => by
    cases h with
    | head => exact written_print e
    | tail _ h => exact written_printAll es _ h

end

end Expr

/-! ## Spelling -/

section Spells

variable {ts us : List Token} {xs ys : List Terminal} {x : Terminal}

theorem spells_append_iff : Spells ts (xs ++ ys) ↔
    ∃ us vs, ts = us ++ vs ∧ Spells us xs ∧ Spells vs ys := by
  constructor
  · intro h
    exact ⟨_, _, (List.take_append_drop xs.length ts).symm, List.forall₂_take_append _ _ _ h,
      List.forall₂_drop_append _ _ _ h⟩
  · rintro ⟨us, vs, rfl, first, second⟩
    exact List.rel_append first second

theorem spells_cons_iff : Spells ts (x :: xs) ↔ ∃ t us, ts = t :: us ∧ t.Spells x ∧ Spells us xs := by
  refine List.forall₂_cons_right_iff.trans ?_
  grind

theorem spells_singleton_iff : Spells ts [x] ↔ ∃ t, ts = [t] ∧ t.Spells x := by
  rw [spells_cons_iff]
  constructor
  · rintro ⟨t, us, rfl, spells, rest⟩
    cases rest
    exact ⟨t, rfl, spells⟩
  · rintro ⟨t, rfl, spells⟩
    exact ⟨t, [], rfl, spells, .nil⟩

/-- Texts with commas between them are spelled text by text. -/
theorem spells_commas_iff {texts : List (List Terminal)} : Spells ts (commas texts) ↔
    ∃ parts, Commas parts ts ∧ List.Forall₂ Spells parts texts := by
  induction texts generalizing ts with
  | nil =>
    constructor
    · intro h
      cases h
      exact ⟨[], .nil, .nil⟩
    · rintro ⟨_, listed, ⟨⟩⟩
      cases listed
      exact .nil
  | cons xs texts ih =>
    cases texts with
    | nil =>
      constructor
      · intro h
        exact ⟨[ts], .one ts, .cons h .nil⟩
      · rintro ⟨_, listed, _ | ⟨first, ⟨⟩⟩⟩
        cases listed with
        | one => exact first
        | cons _ _ some => exact absurd rfl some
    | cons ys texts =>
      rw [commas, spells_append_iff]
      · simp only [spells_cons_iff, ih]
        constructor
        · rintro ⟨us, _, rfl, first, comma, vs, rfl, kind, parts, listed, spells⟩
          refine ⟨us :: parts, .cons kind listed ?_, .cons first spells⟩
          rintro rfl
          cases spells
        · rintro ⟨_, listed, _ | ⟨first, spells⟩⟩
          cases listed with
          | one => cases spells
          | cons kind listed some =>
            exact ⟨_, _, rfl, first, _, _, rfl, kind, _, listed, spells⟩
      · simp

theorem spells_nest_iff {k : Nat} : Spells ts (nest (k + 1) xs) ↔ ∃ (left : Token) (us : List Token)
    (right : Token), ts = left :: us ++ [right] ∧ left.kind = .roundLeft ∧ right.kind = .roundRight ∧
      Spells us (nest k xs) := by
  rw [nest, spells_append_iff]
  constructor
  · rintro ⟨_, _, rfl, front, back⟩
    obtain ⟨left, us, rfl, opens, spells⟩ := spells_cons_iff.1 front
    obtain ⟨right, rfl, closes⟩ := spells_singleton_iff.1 back
    exact ⟨left, us, right, rfl, opens, closes, spells⟩
  · rintro ⟨left, us, right, rfl, opens, closes, spells⟩
    exact ⟨left :: us, [right], rfl, spells_cons_iff.2 ⟨left, us, rfl, opens, spells⟩,
      spells_singleton_iff.2 ⟨right, rfl, closes⟩⟩

/-- What is spelled with a mark between two texts. -/
theorem spells_between_iff : Spells ts (xs ++ x :: ys) ↔
    ∃ us t vs, ts = us ++ t :: vs ∧ t.Spells x ∧ Spells us xs ∧ Spells vs ys := by
  rw [spells_append_iff]
  constructor
  · rintro ⟨us, _, rfl, first, rest⟩
    obtain ⟨t, vs, rfl, mark, second⟩ := spells_cons_iff.1 rest
    exact ⟨us, t, vs, rfl, mark, first, second⟩
  · rintro ⟨us, t, vs, rfl, mark, first, second⟩
    exact ⟨us, t :: vs, rfl, first, spells_cons_iff.2 ⟨t, vs, rfl, mark, second⟩⟩

/-- What is spelled behind one text and in front of a closing mark. -/
theorem spells_closed_iff {x y : Terminal} : Spells ts (xs ++ x :: ys ++ [y]) ↔
    ∃ us left vs right, ts = us ++ left :: vs ++ [right] ∧ left.Spells x ∧ right.Spells y ∧
      Spells us xs ∧ Spells vs ys := by
  rw [spells_append_iff]
  constructor
  · rintro ⟨_, _, rfl, front, back⟩
    obtain ⟨right, rfl, closes⟩ := spells_singleton_iff.1 back
    obtain ⟨us, left, vs, rfl, opens, first, second⟩ := spells_between_iff.1 front
    exact ⟨us, left, vs, right, rfl, opens, closes, first, second⟩
  · rintro ⟨us, left, vs, right, rfl, opens, closes, first, second⟩
    exact ⟨us ++ left :: vs, [right], rfl,
      spells_between_iff.2 ⟨us, left, vs, rfl, opens, first, second⟩,
      spells_singleton_iff.2 ⟨right, rfl, closes⟩⟩

/-- More parentheses are spelled around what is spelled. -/
theorem spells_group {k : Nat} {left right : Token} (opens : left.kind = .roundLeft)
    (closes : right.kind = .roundRight) (h : Spells ts (nest k xs)) :
    Spells (left :: ts ++ [right]) (nest (k + 1) xs) :=
  spells_nest_iff.2 ⟨left, ts, right, rfl, opens, closes, h⟩

end Spells

/-! ## Marks and levels -/

theorem joinOp?_eq_some {l : Level} {k : TokenKind} {op : BinaryOp} :
    l.joinOp? k = some op ↔ op.level = l ∧ op.mark = k := by
  constructor
  · intro h
    cases l
    case sum => revert h; cases k <;> rintro ⟨⟩ <;> exact ⟨rfl, rfl⟩
    case product => revert h; cases k <;> rintro ⟨⟩ <;> exact ⟨rfl, rfl⟩
    all_goals cases h
  · rintro ⟨rfl, rfl⟩
    cases op <;> rfl

theorem relationalOp?_eq_some {k : TokenKind} {op : RelationalOp} :
    relationalOp? k = some op ↔ op.mark = k := by
  constructor
  · cases k <;> rintro ⟨⟩ <;> rfl
  · rintro rfl
    cases op <;> rfl

theorem assignmentOp?_eq_some {k : TokenKind} {op : Option BinaryOp} :
    assignmentOp? k = some op ↔ assignmentMark op = k := by
  constructor
  · cases k <;> rintro ⟨⟩ <;> rfl
  · rintro rfl
    rcases op with _ | op
    · rfl
    · cases op <;> rfl

section Levels

variable {l m : Level} {e : Expr}

theorem needs_le_one (l : Level) (e : Expr) : needs l e ≤ 1 := by
  unfold needs
  split <;> decide

theorem needs_eq_zero : needs l e = 0 ↔ l.rank ≤ e.level.rank := by
  simp [needs]

theorem Level.rank_le_next (l : Level) : l.rank ≤ l.next.rank := by cases l <;> decide

/-- A weaker place asks for no more parentheses. -/
theorem needs_le_next (l : Level) (e : Expr) : needs l e ≤ needs l.next e := by
  have := l.rank_le_next
  unfold needs
  split <;> split <;> omega

theorem Level.rank_le_suffixed (l : Level) : l.rank ≤ suffixed.rank := by cases l <;> decide

theorem Level.eq_or_next_le (h : l.rank ≤ m.rank) : l = m ∨ l.rank < l.next.rank ∧ l.next.rank ≤ m.rank := by
  revert h
  cases l <;> cases m <;> decide

end Levels

section Derivations

variable {d : Declarations} {f : Option FunctionId} {l : Level} {e : Expr} {ts : List Token}

/-- What binds closer stands at every weaker place. -/
theorem Derives.weaken {l m : Level} (h : Derives d f m e ts) (le : l.rank ≤ m.rank) : Derives d f l e ts := by
  rcases Level.eq_or_next_le le with rfl | ⟨lt, le⟩
  · exact h
  · exact .lift (h.weaken le)
termination_by m.rank - l.rank

/-! ## What is derived is written -/

/-- Arguments that are written one by one are so together. -/
theorem written_arguments {args : List (Expr × List Token)}
    (written : ∀ a ∈ args, ∃ k xs, a.1.Written d xs ∧ needs .assignment a.1 ≤ k ∧
      Spells a.2 (nest k xs)) :
    ∃ parts : List (Expr × Nat × List Terminal), parts.map Prod.fst = args.map Prod.fst ∧
      (∀ a ∈ parts, a.1.Written d a.2.2) ∧
      List.Forall₂ Spells (args.map Prod.snd) (parts.map fun a => nest a.2.1 a.2.2) := by
  induction args with
  | nil => exact ⟨[], rfl, by simp, .nil⟩
  | cons a args ih =>
    obtain ⟨first, written⟩ := List.forall_mem_cons.1 written
    obtain ⟨k, xs, wr, -, spells⟩ := first
    obtain ⟨parts, same, all, spelled⟩ := ih written
    exact ⟨(a.1, k, xs) :: parts, by simp [same], List.forall_mem_cons.2 ⟨wr, all⟩,
      .cons spells spelled⟩

/-- **What is derived for an expression is written for it.** -/
theorem Derives.written (h : Derives d f l e ts) :
    ∃ k xs, e.Written d xs ∧ needs l e ≤ k ∧ Spells ts (nest k xs) := by
  -- A group is the one case that adds parentheses: the expression in it is spelled with
  -- one pair more, which is why the number of pairs is left open.
  induction h with
  | @literal t v spelled =>
    exact ⟨0, _, .literal v _ _, by simp [needs, Expr.level], spells_singleton_iff.2 ⟨t, rfl, spelled⟩⟩
  | @name t id kind found =>
    exact ⟨0, _, .name id _ _, by simp [needs, Expr.level],
      spells_singleton_iff.2 ⟨t, rfl, kind, (Declarations.symbolName_of_find? found).symm⟩⟩
  | @group left right e ts opens closes inner ih =>
    obtain ⟨k, xs, wr, enough, spells⟩ := ih
    exact ⟨k + 1, xs, wr, Nat.le_trans (needs_le_one _ _) (Nat.le_add_left _ _),
      spells_group opens closes spells⟩
  | @subscript left right b i ts us t opens closes base index element integral ihb ihi =>
    obtain ⟨j, xs, wb, enough, sb⟩ := ihb
    obtain ⟨k, ys, wi, -, si⟩ := ihi
    refine ⟨0, _, .subscript (k := k) _ _ wb wi enough, by simp [needs, Expr.level], ?_⟩
    exact spells_closed_iff.2 ⟨ts, left, us, right, rfl, opens, closes, sb, si⟩
  | @call left right symbol ty p id args ts us opens closes callee found derived listed count fits ihc ih =>
    obtain ⟨j, xs, wc, -, sc⟩ := ihc
    obtain ⟨parts, same, all, spelled⟩ := written_arguments ih
    rw [← same]
    refine ⟨0, _, .call j _ _ all, by simp [needs, Expr.level], ?_⟩
    cases wc
    exact spells_closed_iff.2 ⟨ts, left, us, right, rfl, opens, closes, sc,
      spells_commas_iff.2 ⟨_, listed, spelled⟩⟩
  | @negate t e ts kind operand numeric ih =>
    obtain ⟨k, xs, wr, enough, spells⟩ := ih
    exact ⟨0, _, .negate _ _ wr enough, by simp [needs, Expr.level],
      spells_cons_iff.2 ⟨t, ts, rfl, kind, spells⟩⟩
  | @not t e ts kind operand truth ih =>
    obtain ⟨k, xs, wr, enough, spells⟩ := ih
    exact ⟨0, _, .not _ _ wr enough, by simp [needs, Expr.level],
      spells_cons_iff.2 ⟨t, ts, rfl, kind, spells⟩⟩
  | @binary l t op a b ts us kind lhs rhs joins ihl ihr =>
    obtain ⟨rfl, mark⟩ := joinOp?_eq_some.1 kind
    obtain ⟨j, xs, wl, enough, sl⟩ := ihl
    obtain ⟨k, ys, wr, enough', sr⟩ := ihr
    refine ⟨0, _, .binary _ _ wl wr enough enough', by simp [needs, Expr.level], ?_⟩
    exact spells_between_iff.2 ⟨ts, t, us, rfl, mark.symm, sl, sr⟩
  | @relational t op a b ts us kind lhs rhs compares ihl ihr =>
    obtain ⟨j, xs, wl, enough, sl⟩ := ihl
    obtain ⟨k, ys, wr, enough', sr⟩ := ihr
    refine ⟨0, _, .relational _ _ wl wr enough enough', by simp [needs, Expr.level], ?_⟩
    exact spells_between_iff.2 ⟨ts, t, us, rfl, (relationalOp?_eq_some.1 kind).symm, sl, sr⟩
  | @assign t op a b ts us kind target value changeable assigns iht ihv =>
    obtain ⟨j, xs, wt, enough, st⟩ := iht
    obtain ⟨k, ys, wv, -, sv⟩ := ihv
    refine ⟨0, _, .assign (k := k) _ _ wt wv enough, by simp [needs, Expr.level], ?_⟩
    exact spells_between_iff.2 ⟨ts, t, us, rfl, (assignmentOp?_eq_some.1 kind).symm, st, sv⟩
  | @lift l e ts closer ih =>
    obtain ⟨k, xs, wr, enough, spells⟩ := ih
    exact ⟨k, xs, wr, Nat.le_trans (needs_le_next l e) enough, spells⟩

end Derivations

end Shading
