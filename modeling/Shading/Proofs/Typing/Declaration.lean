import Shading.Proofs.Typing.Expression

/-!
# Declaring names keeps the tables in good order

Each way in which the parser changes the tables is one lemma here: a
global is declared, a function is declared, and a function gets a
variable of its own. The tables stay `Sound`, and they still hold the
tables they grew from.
-/

namespace Shading

namespace Declarations

/-- A list with one more element at its end. -/
theorem getElem?_concat {α : Type} (xs : List α) (x : α) (i : Nat) :
    (xs ++ [x])[i]? = if i = xs.length then some x else xs[i]? := by
  rcases Nat.lt_trichotomy i xs.length with h | h | h
  · rw [List.getElem?_append_left h, if_neg (Nat.ne_of_lt h)]
  · subst h
    simp
  · rw [if_neg (Nat.ne_of_gt h), List.getElem?_eq_none (Nat.le_of_lt h)]
    exact List.getElem?_eq_none (by simp; omega)

/-- The tables with one more symbol. -/
def withSymbol (d : Declarations) (s : Symbol) : Declarations :=
  { d with symbols := ⟨d.symbols.symbols ++ [s]⟩ }

/-- The number of the next symbol. -/
abbrev next (d : Declarations) : SymbolId := d.symbols.size

variable {d d₀ : Declarations}

theorem get?_withSymbol (s : Symbol) (id : SymbolId) :
    (d.withSymbol s).symbols.get? id =
      if id = d.next then some s else d.symbols.get? id :=
  getElem?_concat _ _ _

/-- The next number is that of no symbol yet. -/
theorem lt_next {id : SymbolId} {s : Symbol} (h : d.symbols.get? id = some s) : id < d.next := by
  obtain ⟨hlt, -⟩ := List.getElem?_eq_some_iff.1 h
  exact hlt

theorem get?_withSymbol_of_some (s : Symbol) {id : SymbolId} {t : Symbol}
    (h : d.symbols.get? id = some t) : (d.withSymbol s).symbols.get? id = some t := by
  rw [get?_withSymbol, if_neg (Nat.ne_of_lt (lt_next h)), h]

theorem extends_withSymbol (d : Declarations) (s : Symbol) : d.Extends (d.withSymbol s) :=
  ⟨fun _ _ h => get?_withSymbol_of_some s h, fun _ f h => ⟨f, h, rfl, rfl, rfl, rfl, rfl⟩⟩

/-- A global that is found by its name is found when there is one more
symbol. -/
theorem find?_withSymbol_of_some (s : Symbol) {name : String} {id : SymbolId}
    (h : d.symbols.find? name none = some id) :
    (d.withSymbol s).symbols.find? name none = some id := by
  simp only [SymbolTable.find?, Option.bind_none, Option.none_or] at h ⊢
  exact List.findIdx?_append.trans (by rw [h]; rfl)

/-- A new global is found by its name, if no global was. -/
theorem find?_withSymbol_of_none {s : Symbol} (scope : s.scope = .global)
    (fresh : d.symbols.find? s.name none = none) :
    (d.withSymbol s).symbols.find? s.name none = some d.next := by
  simp only [SymbolTable.find?, Option.bind_none, Option.none_or] at fresh ⊢
  refine List.findIdx?_append.trans ?_
  rw [fresh]
  simp [List.findIdx?_cons, SymbolTable.isGlobalNamed, scope, SymbolTable.size]

/-- **Declaring a global**, a variable with storage or a function, under
a name that no global has keeps the tables in good order. -/
theorem Sound.withGlobal (hd : d.Sound) {s : Symbol} (scope : s.scope = .global)
    (fresh : d.symbols.find? s.name none = none) (storage : s.kind = .variable → s.ty.size ≠ 0) (place : s.location = .none) :
    (d.withSymbol s).Sound where
  listed id f hf v hv := (extends_withSymbol d s).isVariableOf (hd.listed id f hf v hv)
  nodup := hd.nodup
  owned id t ht local' := by
    rw [get?_withSymbol] at ht
    split at ht
    · cases ht
      rw [scope] at local'
      cases local'
    · exact hd.owned id t ht local'
  storable id t ht kind := by
    rw [get?_withSymbol] at ht
    split at ht
    · cases ht
      exact storage kind
    · exact hd.storable id t ht kind
  named id t ht global := by
    rw [get?_withSymbol] at ht
    split at ht
    · next here =>
      cases ht
      rw [here]
      exact find?_withSymbol_of_none scope fresh
    · exact find?_withSymbol_of_some s (hd.named id t ht global)
  intrinsic id f hf hi := by
    rw [(extends_withSymbol d s).parameterTypes hd hf]
    exact hd.intrinsic id f hf hi
  unplaced id t ht := by
    rw [get?_withSymbol] at ht
    split at ht
    · cases ht
      exact place
    · exact hd.unplaced id t ht

/-! ## Functions -/

/-- The tables with one more function. -/
def withFunction (d : Declarations) (f : Function) : Declarations :=
  { d with functions := ⟨d.functions.functions ++ [f]⟩ }

theorem getFunction?_withFunction (g : Function) (id : FunctionId) :
    (d.withFunction g).functions.get? id =
      if id = d.functions.size then some g else d.functions.get? id :=
  getElem?_concat _ _ _

theorem lt_functions {id : FunctionId} {f : Function} (h : d.functions.get? id = some f) :
    id < d.functions.size := by
  obtain ⟨hlt, -⟩ := List.getElem?_eq_some_iff.1 h
  exact hlt

theorem extends_withFunction (d : Declarations) (g : Function) : d.Extends (d.withFunction g) :=
  ⟨fun _ _ h => h, fun id f h => ⟨f, by
    rw [getFunction?_withFunction, if_neg (Nat.ne_of_lt (lt_functions h)), h],
    rfl, rfl, rfl, rfl, rfl⟩⟩

/-- **Declaring a function** without variables keeps the tables in good
order. One of the stage is among those every stage has once it has its
parameters, so it has to have none yet. -/
theorem Sound.withFunction (hd : d.Sound) {g : Function} (bare : g.variables = [])
    (user : g.intrinsic = false) : (d.withFunction g).Sound where
  listed id f hf v hv := by
    rw [getFunction?_withFunction] at hf
    split at hf
    · cases hf
      rw [bare] at hv
      cases hv
    · exact hd.listed id f hf v hv
  nodup id f hf := by
    rw [getFunction?_withFunction] at hf
    split at hf
    · cases hf
      rw [bare]
      exact List.nodup_nil
    · exact hd.nodup id f hf
  owned id s hs scope := by
    obtain ⟨f, g', owner, hf, mem⟩ := hd.owned id s hs scope
    obtain ⟨g'', hg, -⟩ := (extends_withFunction d g).function f g' hf
    refine ⟨f, g', owner, ?_, mem⟩
    rw [getFunction?_withFunction, if_neg (Nat.ne_of_lt (lt_functions hf)), hf]
  storable := hd.storable
  named := hd.named
  intrinsic id f hf hi := by
    rw [getFunction?_withFunction] at hf
    split at hf
    · cases hf
      rw [user] at hi
      cases hi
    · exact hd.intrinsic id f hf hi
  unplaced := hd.unplaced

/-- The tables after a change to one function. -/
def modifyFunction (d : Declarations) (id : FunctionId) (change : Function → Function) :
    Declarations :=
  { d with functions := ⟨d.functions.functions.modify id change⟩ }

theorem getFunction?_modifyFunction (f id : FunctionId) (change : Function → Function) :
    (d.modifyFunction f change).functions.get? id =
      (d.functions.get? id).map (if f = id then change else (fun g => g)) := by
  simp only [modifyFunction, FunctionTable.get?, List.getElem?_modify]
  split <;> simp

/-- **A function gets one more variable.** The symbol is declared and
the function lists it. -/
theorem Sound.withVariable (hd : d.Sound) {f : FunctionId} {g : Function} {s : Symbol}
    (change : Function → Function) (hf : d.functions.get? f = some g)
    (kind : s.kind = .variable) (scope : s.scope = .local) (owner : s.owner = some f)
    (storage : s.ty.size ≠ 0) (place : s.location = .none)
    (lists : (change g).variables.Perm (d.next :: g.variables))
    (signature : g.intrinsic = true → change g = { g with locals := (change g).locals })
    (user : g.intrinsic = false → (change g).intrinsic = false) :
    ((d.withSymbol s).modifyFunction f change).Sound := by
  have symbols : ((d.withSymbol s).modifyFunction f change).symbols = (d.withSymbol s).symbols := rfl
  have lookup (id : FunctionId) : ((d.withSymbol s).modifyFunction f change).functions.get? id =
      (d.functions.get? id).map (if f = id then change else (fun g => g)) :=
    getFunction?_modifyFunction f id change
  -- What was listed stays so, and the new symbol is listed by its owner; each field is
  -- told by whether it asks about the one or the other.
  have old {id : FunctionId} {v : SymbolId} (hv : d.IsVariableOf id v) :
      ((d.withSymbol s).modifyFunction f change).IsVariableOf id v := by
    obtain ⟨t, ht, rest⟩ := hv
    exact ⟨t, get?_withSymbol_of_some s ht, rest⟩
  have new : ((d.withSymbol s).modifyFunction f change).IsVariableOf f d.next := by
    refine ⟨s, ?_, kind, scope, owner, storage⟩
    rw [symbols, get?_withSymbol, if_pos rfl]
  refine ⟨fun id k hk v hv => ?_, fun id k hk => ?_, fun id t ht hl => ?_, fun id t ht hk => ?_,
    fun id t ht global => ?_, fun id k hk hi => ?_, fun id t ht => ?_⟩
  · rw [lookup, Option.map_eq_some_iff] at hk
    obtain ⟨k₀, hk₀, rfl⟩ := hk
    by_cases same : f = id
    · subst same
      cases hf.symm.trans hk₀
      simp only [if_true] at hv
      rcases List.mem_cons.1 (lists.mem_iff.1 hv) with rfl | hv
      · exact new
      · exact old (hd.listed _ _ hf v hv)
    · simp only [same, if_false] at hv
      exact old (hd.listed id k₀ hk₀ v hv)
  · rw [lookup, Option.map_eq_some_iff] at hk
    obtain ⟨k₀, hk₀, rfl⟩ := hk
    by_cases same : f = id
    · subst same
      cases hf.symm.trans hk₀
      simp only [if_true]
      refine lists.nodup_iff.2 (List.nodup_cons.2 ⟨fun mem => ?_, hd.nodup _ _ hf⟩)
      -- The new symbol has the next number, so no list has held it before.
      obtain ⟨t, ht, -⟩ := hd.listed _ _ hf _ mem
      exact Nat.lt_irrefl _ (lt_next ht)
    · simp only [same, if_false]
      exact hd.nodup id k₀ hk₀
  · rw [symbols, get?_withSymbol] at ht
    split at ht
    · next here =>
      cases ht
      refine ⟨f, change g, owner, by rw [lookup, hf]; simp, ?_⟩
      rw [here]
      exact lists.mem_iff.2 List.mem_cons_self
    · obtain ⟨k, k₀, ho, hk₀, mem⟩ := hd.owned id t ht hl
      by_cases same : f = k
      · subst same
        cases hf.symm.trans hk₀
        exact ⟨f, change g, ho, by rw [lookup, hf]; simp,
          lists.mem_iff.2 (List.mem_cons_of_mem _ mem)⟩
      · exact ⟨k, k₀, ho, by rw [lookup, hk₀]; simp [same], mem⟩
  · rw [symbols, get?_withSymbol] at ht
    split at ht
    · cases ht
      exact storage
    · exact hd.storable id t ht hk
  · rw [symbols, get?_withSymbol] at ht
    split at ht
    · cases ht
      rw [scope] at global
      cases global
    · exact find?_withSymbol_of_some s (hd.named id t ht global)
  · rw [lookup, Option.map_eq_some_iff] at hk
    obtain ⟨k₀, hk₀, rfl⟩ := hk
    have types : k₀.parameters.map ((d.withSymbol s).modifyFunction f change).symbolTy =
        k₀.parameters.map d.symbolTy :=
      (extends_withSymbol d s).parameterTypes hd hk₀
    -- A function of the stage keeps its signature: the change lists one local more at
    -- most.
    by_cases same : f = id
    · subst same
      cases hf.symm.trans hk₀
      simp only [if_true] at hi ⊢
      cases hg : g.intrinsic with
      | false =>
        rw [user hg] at hi
        cases hi
      | true =>
        rw [signature hg]
        dsimp only
        rw [types]
        exact hd.intrinsic _ _ hf hg
    · simp only [same, if_false] at hi ⊢
      rw [types]
      exact hd.intrinsic id k₀ hk₀ hi
  · rw [symbols, get?_withSymbol] at ht
    split at ht
    · cases ht
      exact place
    · exact hd.unplaced id t ht

/-- Tables that know nothing of a function are held by those that change
it. -/
theorem Extends.modifyFunction (h : d₀.Extends d) {f : FunctionId}
    (new : d₀.functions.get? f = none) (change : Function → Function) :
    d₀.Extends (d.modifyFunction f change) := by
  refine ⟨h.symbol, fun id g hg => ?_⟩
  have other : f ≠ id := by
    rintro rfl
    rw [new] at hg
    cases hg
  obtain ⟨g', hg', rest⟩ := h.function id g hg
  exact ⟨g', by rw [getFunction?_modifyFunction, hg']; simp [other], rest⟩

/-- Changing nothing that a call consults leaves larger tables. -/
theorem extends_modifyFunction (d : Declarations) (f : FunctionId) (change : Function → Function)
    (same : ∀ g, change g = { g with locals := (change g).locals }) :
    d.Extends (d.modifyFunction f change) := by
  refine ⟨fun _ _ h => h, fun id g hg => ?_⟩
  by_cases here : f = id
  · refine ⟨change g, by rw [getFunction?_modifyFunction, hg]; simp [here], ?_⟩
    rw [same g]
    exact ⟨rfl, rfl, rfl, rfl, rfl⟩
  · exact ⟨g, by rw [getFunction?_modifyFunction, hg]; simp [here], rfl, rfl, rfl, rfl, rfl⟩

end Declarations

end Shading
