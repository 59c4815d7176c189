import Shading.Proofs.Grammar.Derivation
import Shading.Proofs.Typing

/-!
# Derived expressions are typed

What the tables find for a name is a symbol that has the name: a local of
the function, or a global where the function has no such local. So a
derived expression refers to what its function sees, and the checks that
a derivation makes on types are the rules of the language.
-/

namespace Shading

/-! ## Names -/

namespace SymbolTable

variable {t : SymbolTable} {name : String} {owner : Option FunctionId}

/-- A symbol is the local of a function, with a name. -/
def IsLocal (t : SymbolTable) (f : FunctionId) (name : String) (id : SymbolId) : Prop :=
  ∃ s, t.get? id = some s ∧ s.scope = .local ∧ s.owner = some f ∧ s.name = name

/-- A symbol is the global with a name. -/
def IsGlobal (t : SymbolTable) (name : String) (id : SymbolId) : Prop :=
  ∃ s, t.get? id = some s ∧ s.scope = .global ∧ s.name = name

theorem findIdx?_isLocalNamed {f : FunctionId} {id : SymbolId}
    (h : t.symbols.findIdx? (isLocalNamed f name) = some id) : t.IsLocal f name id := by
  obtain ⟨hi, hp, -⟩ := List.findIdx?_eq_some_iff_getElem.1 h
  simp only [isLocalNamed, Bool.and_eq_true, beq_iff_eq] at hp
  exact ⟨_, List.getElem?_eq_getElem hi, hp.1.1, hp.1.2, hp.2⟩

theorem not_isLocal_of_findIdx? {f : FunctionId}
    (h : t.symbols.findIdx? (isLocalNamed f name) = none) (id : SymbolId) : ¬t.IsLocal f name id := by
  rintro ⟨s, found, scope, owner, named⟩
  have none := List.findIdx?_eq_none_iff.1 h s (List.mem_of_getElem? found)
  simp [isLocalNamed, scope, owner, named] at none

/-- **What is found for a name** is a local of the function, or a global
where the function has no such local. -/
theorem find?_eq_some {id : SymbolId} (h : t.find? name owner = some id) :
    (∃ f, owner = some f ∧ t.IsLocal f name id) ∨
      (t.IsGlobal name id ∧ ∀ f, owner = some f → ∀ v, ¬t.IsLocal f name v) := by
  rw [find?, Option.or_eq_some_iff] at h
  rcases h with h | ⟨none, h⟩
  · obtain ⟨f, rfl, h⟩ := Option.bind_eq_some_iff.1 h
    exact .inl ⟨f, rfl, findIdx?_isLocalNamed h⟩
  · refine .inr ⟨?_, ?_⟩
    · obtain ⟨hi, hp, -⟩ := List.findIdx?_eq_some_iff_getElem.1 h
      simp only [isGlobalNamed, Bool.and_eq_true, beq_iff_eq] at hp
      exact ⟨_, List.getElem?_eq_getElem hi, hp.1, hp.2⟩
    · rintro f rfl
      exact not_isLocal_of_findIdx? none

/-- A name for which nothing is found is new to its owner. -/
theorem find?_eq_none (h : t.find? name owner = none) (v : SymbolId) :
    ¬t.IsGlobal name v ∧ ∀ f, owner = some f → ¬t.IsLocal f name v := by
  obtain ⟨none, h⟩ := Option.or_eq_none_iff.1 h
  constructor
  · rintro ⟨s, found, scope, named⟩
    have none := List.findIdx?_eq_none_iff.1 h s (List.mem_of_getElem? found)
    simp [isGlobalNamed, scope, named] at none
  · rintro f rfl
    exact not_isLocal_of_findIdx? none v

end SymbolTable

namespace Declarations

variable {d : Declarations} {name : String} {f : Option FunctionId} {id : SymbolId}

/-- **A name that is found** denotes a symbol of that name that the
function sees. -/
theorem visible_of_find? (h : d.symbols.find? name f = some id) :
    ∃ s, d.symbols.get? id = some s ∧ s.VisibleIn f ∧ s.name = name := by
  rcases SymbolTable.find?_eq_some h with ⟨g, rfl, s, found, scope, owner, named⟩ |
    ⟨⟨s, found, scope, named⟩, -⟩
  · exact ⟨s, found, .inr ⟨scope, owner, rfl⟩, named⟩
  · exact ⟨s, found, .inl scope, named⟩

theorem symbolName_of_find? (h : d.symbols.find? name f = some id) : d.symbolName id = name := by
  obtain ⟨s, found, -, named⟩ := visible_of_find? h
  simp [symbolName, found, named]

/-- A function that is found has the name. -/
theorem function_of_find? {id : FunctionId} (h : d.functions.find? name = some id) :
    ∃ g, d.functions.get? id = some g ∧ g.name = name := by
  obtain ⟨hi, hp, -⟩ := List.findIdx?_eq_some_iff_getElem.1 h
  exact ⟨_, List.getElem?_eq_getElem hi, by simpa using hp⟩

end Declarations

/-! ## Types -/

/-- Parameters have no mismatch with the arguments that they store. -/
theorem Parser.firstMismatch?_eq_none {number : Nat} {ps as : List Ty} (length : as.length = ps.length) :
    firstMismatch? number ps as = none ↔ List.Forall₂ Ty.Stores ps as := by
  induction ps generalizing number as with
  | nil =>
    obtain rfl : as = [] := List.length_eq_zero_iff.1 length
    exact iff_of_true rfl .nil
  | cons p ps ih =>
    cases as with
    | nil => simp at length
    | cons a as =>
      rw [firstMismatch?, List.forall₂_cons, Ty.stores_iff]
      cases fits : p.assignable a with
      | true => simpa using ih (by simpa using length)
      | false => simp

/-- **What is derived is typed.** -/
theorem Derives.typed {d : Declarations} {f : Option FunctionId} {l : Level} {e : Expr}
    {ts : List Token} (h : Derives d f l e ts) : e.Typed d f := by
  induction h with
  | literal spelled => exact .literal _ _
  | name kind found =>
    obtain ⟨s, known, visible, -⟩ := Declarations.visible_of_find? found
    rw [Declarations.symbolTy_of_get? known]
    exact .name _ known visible
  | group _ _ _ ih => exact ih
  | subscript _ _ _ _ element integral ihb ihi => exact .subscript _ ihb ihi element integral
  | @call _ _ _ _ _ id _ _ _ _ _ _ found _ _ count fits _ ih =>
    obtain ⟨g, known, name⟩ := Declarations.function_of_find? found
    have params : d.parameters id = g.parameters := by simp [Declarations.parameters, known]
    have ret : d.returnTy id = g.returnTy := by simp [Declarations.returnTy, known]
    rw [← name, ret]
    refine .call _ known ?_ ?_
    · intro e he
      obtain ⟨a, ha, rfl⟩ := List.mem_map.1 he
      exact ih a ha
    · rw [params] at count fits
      exact (Parser.firstMismatch?_eq_none (by simpa using count)).1 fits
  | negate _ _ numeric ih => exact .negate _ ih numeric
  | not _ _ truth ih => exact .not _ ih truth
  | binary _ _ _ joins ihl ihr => exact .binary _ ihl ihr (.of_joins joins)
  | relational _ _ _ compares ihl ihr =>
    exact .relational _ ihl ihr (RelationalOp.compares_iff.2 compares)
  | assign _ _ _ changeable assigns iht ihv =>
    exact .assign _ iht ihv changeable (Ty.takes_iff.2 assigns)
  | lift _ ih => exact ih

end Shading
