import Mathlib.Data.List.Forall2
import Shading.Parser.Expression

/-!
# The typing rules

The rules of the language for operands, comparisons and stored values,
as a reader of the language states them. The parser decides them by the
classes of the two types; each of its checks admits exactly what a rule
admits, and the type it names is the one of the rule:

| rule                    | speaks of                              | decided by             |
|-------------------------|----------------------------------------|------------------------|
| `BinaryOp.Yields`       | an operation and its result            | `joins`, with `arith`  |
| `RelationalOp.Compares` | a comparison                           | `compares`             |
| `Ty.Stores`             | a slot and a value put into it         | `assignable`           |
| `Ty.Takes`              | an assignment, combined or plain       | `assigns`              |
-/

namespace Shading

/-! ## Operations -/

/-- **An operation on values of two types yields one of a third.**
Numbers go with numbers. Beyond that a vector or a matrix is added to and
subtracted from one of its own type, a vector is scaled by a number
behind it, and a matrix is multiplied by another one or by one of its
rows. -/
inductive BinaryOp.Yields : BinaryOp → Ty → Ty → Ty → Prop where
  /-- Integers give an integer. -/
  | integers (op : BinaryOp) : Yields op .int .int .int
  /-- Numbers of which one is a float give a float. -/
  | floats (op : BinaryOp) {l r : Ty} (lhs : l.isScalar = true) (rhs : r.isScalar = true)
      (float : l = .float ∨ r = .float) : Yields op l r .float
  | sum {t : Ty} (vector : t.isVector = true) : Yields .add t t t
  | difference {t : Ty} (vector : t.isVector = true) : Yields .subtract t t t
  | scaled {t r : Ty} (lanes : t.element? = some .float) (number : r.isScalar = true) :
      Yields .multiply t r t
  | composed {t : Ty} (matrix : t.isMatrix = true) : Yields .multiply t t t
  | applied {t row : Ty} (matrix : t.isMatrix = true) (element : t.element? = some row) :
      Yields .multiply t row row

/-- What goes together by addition is two numbers or two of one vector
type. -/
theorem Ty.addable_iff {l r : Ty} :
    l.addable r = true ↔ (l.isVector = true ∧ l = r) ∨ (l.isScalar = true ∧ r.isScalar = true) := by
  cases l <;> cases r <;> decide

/-- An operation on a vector type with itself has the type. -/
theorem Ty.arith_self {t : Ty} (vector : t.isVector = true) : t.arith t = t := by
  cases t <;> cases vector <;> decide

namespace BinaryOp

variable {op : BinaryOp} {l r t : Ty}

/-- Numbers yield the type that the parser gives their operation. -/
theorem Yields.numbers (op : BinaryOp) (lhs : l.isScalar = true) (rhs : r.isScalar = true) :
    op.Yields l r (l.arith r) := by
  cases l <;> cases lhs <;> cases r <;> cases rhs <;> first
    | exact .integers op
    | exact .floats op rfl rfl (by decide)

/-- What the parser joins yields the type that it names. -/
theorem Yields.of_joins (h : Parser.joins op l r = true) : op.Yields l r (l.arith r) := by
  cases op with
  | add =>
    rcases Ty.addable_iff.1 h with ⟨vector, rfl⟩ | ⟨lhs, rhs⟩
    · exact (Ty.arith_self vector).symm ▸ .sum vector
    · exact .numbers _ lhs rhs
  | subtract =>
    rcases Ty.addable_iff.1 h with ⟨vector, rfl⟩ | ⟨lhs, rhs⟩
    · exact (Ty.arith_self vector).symm ▸ .difference vector
    · exact .numbers _ lhs rhs
  | divide =>
    obtain ⟨lhs, rhs⟩ := Bool.and_eq_true_iff.1 h
    exact .numbers _ lhs rhs
  | multiply =>
    -- only numbers, and vectors on the left, are multiplied at all
    cases l <;> cases r <;> first
      | exact absurd h (by decide)
      | exact .numbers _ rfl rfl
      | exact .scaled rfl rfl
      | exact .composed rfl
      | exact .applied rfl rfl

/-- What yields a type by the rules is joined by the parser, which names
the type. -/
theorem Yields.joins (h : op.Yields l r t) : Parser.joins op l r = true ∧ l.arith r = t := by
  cases h with
  | integers op => cases op <;> decide
  | floats op lhs rhs float =>
    rcases float with rfl | rfl
    · cases r <;> cases rhs <;> cases op <;> decide
    · cases l <;> cases lhs <;> cases op <;> decide
  | sum vector => cases l <;> cases vector <;> decide
  | difference vector => cases l <;> cases vector <;> decide
  | scaled lanes number => cases l <;> cases lanes <;> cases r <;> cases number <;> decide
  | composed matrix => cases l <;> cases matrix <;> decide
  | applied matrix element => cases l <;> cases matrix <;> cases element <;> decide

/-- **The parser joins what the rules join**, and the type it names is
the one they yield. -/
theorem yields_iff : op.Yields l r t ↔ Parser.joins op l r = true ∧ l.arith r = t :=
  ⟨Yields.joins, fun ⟨h, type⟩ => type ▸ .of_joins h⟩

instance : Decidable (op.Yields l r t) := decidable_of_iff _ yields_iff.symm

/-- The operands of an operation have values. -/
theorem Yields.valued (h : op.Yields l r t) : l ≠ .void ∧ r ≠ .void := by
  obtain ⟨joins, -⟩ := h.joins
  revert joins
  cases op <;> cases l <;> cases r <;> decide

/-- The operands of an operation determine the type of its result. -/
theorem Yields.unique {t' : Ty} (h : op.Yields l r t) (h' : op.Yields l r t') : t = t' :=
  h.joins.2.symm.trans h'.joins.2

end BinaryOp

/-! ## Stored values -/

/-- **A slot stores a value**: one of its own type, if the type has
storage at all, and a number stores any number. -/
inductive Ty.Stores : Ty → Ty → Prop where
  | same {t : Ty} (storage : t.size ≠ 0) : Stores t t
  /-- Numbers are converted as they are stored. -/
  | converted {slot value : Ty} (into : slot.isScalar = true) (number : value.isScalar = true) :
      Stores slot value

/-- **The parser assigns what the rules let a slot store.** -/
theorem Ty.stores_iff {slot value : Ty} : slot.Stores value ↔ slot.assignable value = true := by
  constructor
  · intro h
    cases h with
    | same storage => cases slot <;> first | rfl | exact absurd rfl storage
    | converted into number => cases slot <;> cases into <;> cases value <;> cases number <;> rfl
  · intro h
    cases slot <;> cases value <;> first
      | exact absurd h (by decide)
      | exact .same (by decide)
      | exact .converted rfl rfl

/-- There is nothing to store in a slot that is `void`, and no value of
the type. -/
theorem Ty.Stores.notVoid {slot value : Ty} (h : slot.Stores value) : slot ≠ .void ∧ value ≠ .void := by
  have some {t : Ty} (h : t.size ≠ 0) : t ≠ .void := by
    rintro rfl
    exact h rfl
  have numeric {t : Ty} (h : t.isScalar = true) : t ≠ .void := by
    rintro rfl
    cases h
  cases h with
  | same storage => exact ⟨some storage, some storage⟩
  | converted into number => exact ⟨numeric into, numeric number⟩

instance {slot value : Ty} : Decidable (slot.Stores value) := decidable_of_iff _ Ty.stores_iff.symm

namespace Ty.Stores

variable {t : Ty}

theorem vec4_eq (stores : Ty.vec4.Stores t) : t = .vec4 := by
  cases stores with
  | same => rfl
  | converted into => cases into

theorem isScalar (stores : Ty.float.Stores t) : t.isScalar = true := by
  cases stores with
  | same => rfl
  | converted _ number => exact number

/-- Arguments that parameters store are as many. -/
theorem one {p : Ty} {α : Type} {g : α → Ty} {args : List α} (fits : List.Forall₂ Ty.Stores [p] (args.map g)) :
    ∃ u, args = [u] ∧ p.Stores (g u) := by
  obtain _ | ⟨u, _ | ⟨v, rest⟩⟩ := args <;> simp at fits
  exact ⟨u, rfl, fits⟩

theorem two {p q : Ty} {α : Type} {g : α → Ty} {args : List α} (fits : List.Forall₂ Ty.Stores [p, q] (args.map g)) :
    ∃ u v, args = [u, v] ∧ p.Stores (g u) ∧ q.Stores (g v) := by
  rcases args with _ | ⟨u, _ | ⟨v, _ | ⟨w, rest⟩⟩⟩ <;> simp at fits
  exact ⟨u, v, rfl, fits⟩

theorem three {p q r : Ty} {α : Type} {g : α → Ty} {args : List α} (fits : List.Forall₂ Ty.Stores [p, q, r] (args.map g)) :
    ∃ u v w, args = [u, v, w] ∧ p.Stores (g u) ∧ q.Stores (g v) ∧ r.Stores (g w) := by
  rcases args with _ | ⟨u, _ | ⟨v, _ | ⟨w, _ | ⟨x, rest⟩⟩⟩⟩ <;> simp at fits
  exact ⟨u, v, w, rfl, fits⟩

end Ty.Stores

/-- **A target takes a value.** A combined assignment stores what the
operation yields, so it is that type, and not the type of the value,
which the target has to store. -/
inductive Ty.Takes : Ty → Option BinaryOp → Ty → Prop where
  | plain {target value : Ty} (stores : target.Stores value) : Takes target none value
  | combined {op : BinaryOp} {target value result : Ty} (yields : op.Yields target value result)
      (stores : target.Stores result) : Takes target (some op) value

/-- **The parser assigns what the rules let a target take.** -/
theorem Ty.takes_iff {op : Option BinaryOp} {target value : Ty} :
    target.Takes op value ↔ Parser.assigns op target value = true := by
  constructor
  · intro h
    cases h with
    | plain stores => exact Ty.stores_iff.1 stores
    | combined yields stores =>
      obtain ⟨joins, rfl⟩ := yields.joins
      exact Bool.and_eq_true_iff.2 ⟨joins, Ty.stores_iff.1 stores⟩
  · intro h
    cases op with
    | none => exact .plain (Ty.stores_iff.2 h)
    | some op =>
      obtain ⟨joins, stores⟩ := Bool.and_eq_true_iff.1 h
      exact .combined (.of_joins joins) (Ty.stores_iff.2 stores)

/-- A target that takes a value is not `void`. -/
theorem Ty.Takes.notVoid {op : Option BinaryOp} {target value : Ty} (h : target.Takes op value) :
    target ≠ .void := by
  cases h with
  | plain stores => exact stores.notVoid.1
  | combined _ stores => exact stores.notVoid.1

/-! ## Comparisons -/

/-- **A comparison of values of two types**: numbers compare with
numbers in every way, and whether two values are equal may be asked of
any one type. -/
inductive RelationalOp.Compares : RelationalOp → Ty → Ty → Prop where
  | numbers (op : RelationalOp) {l r : Ty} (lhs : l.isScalar = true) (rhs : r.isScalar = true) :
      Compares op l r
  | equality {t : Ty} : Compares .equals t t
  | inequality {t : Ty} : Compares .notEquals t t

/-- **The parser compares what the rules compare.** -/
theorem RelationalOp.compares_iff {op : RelationalOp} {l r : Ty} :
    op.Compares l r ↔ Parser.compares op l r = true := by
  have either : l.comparable r = true ↔ (l.isScalar = true ∧ r.isScalar = true) ∨ l = r := by
    simp [Ty.comparable]
  constructor
  · intro h
    cases h with
    | numbers op lhs rhs =>
      have pair : l.scalarPair r = true := Bool.and_eq_true_iff.2 ⟨lhs, rhs⟩
      have alike : l.comparable r = true := either.2 (.inl ⟨lhs, rhs⟩)
      cases op <;> assumption
    | equality => exact either.2 (.inr rfl)
    | inequality => exact either.2 (.inr rfl)
  · intro h
    cases op with
    | equals =>
      rcases either.1 h with ⟨lhs, rhs⟩ | rfl
      · exact .numbers _ lhs rhs
      · exact .equality
    | notEquals =>
      rcases either.1 h with ⟨lhs, rhs⟩ | rfl
      · exact .numbers _ lhs rhs
      · exact .inequality
    | less | lessEquals | greater | greaterEquals =>
      obtain ⟨lhs, rhs⟩ := Bool.and_eq_true_iff.1 h
      exact .numbers _ lhs rhs

end Shading
