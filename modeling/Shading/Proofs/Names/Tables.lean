import Shading.Proofs.Grammar.Shader

/-!
# Names in the tables of declarations

One flat table holds the globals and the locals of all functions, and two
of its symbols may well have the same name: locals of two functions, or a
local and a global that is declared behind it. Which symbols may stand
behind which is said of two symbols (`Symbol.Admits`), and every way to
declare a name keeps it so (`Named.withGlobal`, `Named.withHeader`,
`Named.withVariable`): what is looked up before a name is declared is all
that it could be taken for.

Tables grow in two ways. Those behind a part of a program still hold those
in front of it (`Declarations.Precedes`), and within one function they get
its locals and nothing else (`Declarations.Adds`).
-/

namespace Shading

/-- **A later symbol may have the name of an earlier one** only if the
earlier one is a local, and the later one a local of another owner or a
global of the shader. -/
def Symbol.Admits (earlier later : Symbol) : Prop :=
  earlier.name = later.name → earlier.scope = .local ∧ later.intrinsic = false ∧
    (later.scope = .local → later.owner ≠ earlier.owner)

instance (s t : Symbol) : Decidable (s.Admits t) := inferInstanceAs (Decidable (_ → _))

/-- The locals of a function, its parameters among them, in the order of
their declaration. -/
def SymbolTable.localsOf (t : SymbolTable) (f : FunctionId) : List SymbolId :=
  (List.range t.size).filter fun id => (t.get? id).any fun s => s.scope == .local && s.owner == some f

namespace SymbolTable

variable {t : SymbolTable} {name : Token} {kind : SymbolKind} {ty : Ty} {f : FunctionId}

/-- A global that finds no other of its name may be declared. -/
theorem admits_global (fresh : t.find? name.lexeme none = none) :
    ∀ s ∈ t.symbols, s.Admits (.declared name .global kind ty none) := by
  intro s hs same
  obtain ⟨v, found⟩ := List.mem_iff_getElem?.1 hs
  obtain ⟨notGlobal, -⟩ := find?_eq_none fresh v
  cases scope : s.scope with
  | global => exact absurd ⟨s, found, scope, same⟩ notGlobal
  | «local» => exact ⟨rfl, rfl, by rintro ⟨⟩⟩

/-- A local that finds nothing of its name may be declared. -/
theorem admits_local (fresh : t.find? name.lexeme (some f) = none) :
    ∀ s ∈ t.symbols, s.Admits (.declared name .local kind ty (some f)) := by
  intro s hs same
  obtain ⟨v, found⟩ := List.mem_iff_getElem?.1 hs
  obtain ⟨notGlobal, notLocal⟩ := find?_eq_none fresh v
  cases scope : s.scope with
  | global => exact absurd ⟨s, found, scope, same⟩ notGlobal
  | «local» => exact ⟨rfl, rfl, fun _ own => notLocal f rfl ⟨s, found, scope, own.symm, same⟩⟩

end SymbolTable

namespace Declarations

/-- **Tables in which a name has one meaning** wherever it is seen. -/
structure Named (d : Declarations) : Prop where
  /-- Later symbols are told apart from earlier ones. -/
  apart : d.symbols.symbols.Pairwise Symbol.Admits
  /-- A function's symbol is the global of its name. -/
  callable : ∀ id g, d.functions.get? id = some g → d.symbols.IsGlobal g.name g.symbol
  /-- A function lists its variables, in the order of their declaration. -/
  listed : ∀ id g, d.functions.get? id = some g → g.variables = d.symbols.localsOf id
  /-- A local has an owner. -/
  owned : ∀ s ∈ d.symbols.symbols, s.scope = .local → ∃ f, s.owner = some f ∧ f < d.functions.size

variable {d d' D : Declarations} {name : Token} {ty : Ty} {f : FunctionId}

/-! ## Lookups -/

theorem Named.admits (h : d.Named) {v w : SymbolId} {s t : Symbol} (hs : d.symbols.get? v = some s)
    (ht : d.symbols.get? w = some t) (before : v < w) : s.Admits t := by
  obtain ⟨hv, rfl⟩ := List.getElem?_eq_some_iff.1 hs
  obtain ⟨hw, rfl⟩ := List.getElem?_eq_some_iff.1 ht
  exact List.pairwise_iff_getElem.1 h.apart v w hv hw before

/-- **No two globals share a name.** -/
theorem Named.global_unique (h : d.Named) {name : String} {v w : SymbolId}
    (hv : d.symbols.IsGlobal name v) (hw : d.symbols.IsGlobal name w) : v = w := by
  obtain ⟨s, hs, scope, named⟩ := hv
  obtain ⟨t, ht, scope', named'⟩ := hw
  rcases Nat.lt_trichotomy v w with lt | same | lt
  · exact absurd (h.admits hs ht lt (named.trans named'.symm)).1 (by simp [scope])
  · exact same
  · exact absurd (h.admits ht hs lt (named'.trans named.symm)).1 (by simp [scope'])

/-- **No two variables of one function share a name.** -/
theorem Named.local_unique (h : d.Named) {name : String} {v w : SymbolId}
    (hv : d.symbols.IsLocal f name v) (hw : d.symbols.IsLocal f name w) : v = w := by
  obtain ⟨s, hs, scope, owner, named⟩ := hv
  obtain ⟨t, ht, scope', owner', named'⟩ := hw
  rcases Nat.lt_trichotomy v w with lt | same | lt
  · exact absurd (owner'.trans owner.symm)
      ((h.admits hs ht lt (named.trans named'.symm)).2.2 scope')
  · exact same
  · exact absurd (owner.trans owner'.symm)
      ((h.admits ht hs lt (named'.trans named.symm)).2.2 scope)

/-- **A local has a global's name** only if the shader declares the global,
behind the local. -/
theorem Named.shadowed (h : d.Named) {name : String} {v w : SymbolId}
    (hv : d.symbols.IsLocal f name v) (hw : d.symbols.IsGlobal name w) :
    v < w ∧ ∀ s, d.symbols.get? w = some s → s.intrinsic = false := by
  obtain ⟨s, hs, scope, -, named⟩ := hv
  obtain ⟨t, ht, scope', named'⟩ := hw
  have before : v < w := by
    rcases Nat.lt_trichotomy v w with lt | rfl | lt
    · exact lt
    · cases hs.symm.trans ht
      simp [scope] at scope'
    · exact absurd (h.admits ht hs lt (named'.trans named.symm)).1 (by simp [scope'])
  refine ⟨before, fun s' hs' => ?_⟩
  cases ht.symm.trans hs'
  exact (h.admits hs ht before (named.trans named'.symm)).2.1

/-! ## Tables that grow -/

/-- **Tables hold earlier ones**: all their symbols, and their functions
with their names. -/
structure Precedes (d D : Declarations) : Prop where
  symbols : d.symbols.symbols <+: D.symbols.symbols
  function : ∀ id g, d.functions.get? id = some g →
    ∃ g', D.functions.get? id = some g' ∧ g'.name = g.name ∧ g'.symbol = g.symbol

theorem Precedes.trans (h : d.Precedes d') (h' : d'.Precedes D) : d.Precedes D := by
  refine ⟨h.symbols.trans h'.symbols, fun id g hg => ?_⟩
  obtain ⟨g₁, hg₁, name₁, symbol₁⟩ := h.function id g hg
  obtain ⟨g₂, hg₂, name₂, symbol₂⟩ := h'.function id g₁ hg₁
  exact ⟨g₂, hg₂, name₂.trans name₁, symbol₂.trans symbol₁⟩

/-- Tables with more behind them hold the earlier ones. -/
theorem Precedes.of_grown (symbols : d.symbols.symbols <+: D.symbols.symbols)
    (functions : d.functions.functions <+: D.functions.functions) : d.Precedes D := by
  refine ⟨symbols, fun id g hg => ⟨g, ?_, rfl, rfl⟩⟩
  obtain ⟨more, whole⟩ := functions
  rw [FunctionTable.get?, ← whole, List.getElem?_append_left (lt_functions hg)]
  exact hg

theorem Precedes.get?_eq (h : d.Precedes D) {v : SymbolId} (old : v < d.next) :
    D.symbols.get? v = d.symbols.get? v := by
  obtain ⟨more, whole⟩ := h.symbols
  rw [SymbolTable.get?, ← whole]
  exact List.getElem?_append_left old

theorem Precedes.isLocal_iff (h : d.Precedes D) {w : String} {v : SymbolId} (old : v < d.next) :
    D.symbols.IsLocal f w v ↔ d.symbols.IsLocal f w v := by
  simp only [SymbolTable.IsLocal, h.get?_eq old]

theorem Precedes.isGlobal_iff (h : d.Precedes D) {w : String} {v : SymbolId} (old : v < d.next) :
    D.symbols.IsGlobal w v ↔ d.symbols.IsGlobal w v := by
  simp only [SymbolTable.IsGlobal, h.get?_eq old]

theorem lt_of_isGlobal {w : String} {v : SymbolId} (h : d.symbols.IsGlobal w v) : v < d.next := by
  obtain ⟨s, found, -⟩ := h
  exact lt_next found

theorem lt_of_isLocal {w : String} {v : SymbolId} (h : d.symbols.IsLocal f w v) : v < d.next := by
  obtain ⟨s, found, -⟩ := h
  exact lt_next found

theorem precedes_withSymbol (d : Declarations) (s : Symbol) : d.Precedes (d.withSymbol s) :=
  ⟨List.prefix_append _ _, fun _ g hg => ⟨g, hg, rfl, rfl⟩⟩

/-- Within a function, tables get its locals. -/
structure Adds (f : FunctionId) (ds : List SymbolId) (d d' : Declarations) : Prop where
  symbols : d.symbols.symbols <+: d'.symbols.symbols
  numbers : List.range d.next ++ ds = List.range d'.next
  functions : d'.functions.functions =
    d.functions.functions.modify f fun g => { g with locals := g.locals ++ ds }

theorem Adds.refl (f : FunctionId) (d : Declarations) : Adds f [] d d where
  symbols := List.prefix_rfl
  numbers := List.append_nil _
  functions := by
    simp only [List.append_nil]
    exact (List.modify_id f d.functions.functions).symm

theorem Adds.trans {ds ds' : List SymbolId} (h : Adds f ds d d') (h' : Adds f ds' d' D) :
    Adds f (ds ++ ds') d D where
  symbols := h.symbols.trans h'.symbols
  numbers := by rw [← List.append_assoc, h.numbers, h'.numbers]
  functions := by
    rw [h'.functions, h.functions, List.modify_modify_eq]
    congr 1
    funext g
    simp

theorem Adds.get?_eq {ds : List SymbolId} (h : Adds f ds d d') (id : FunctionId) :
    d'.functions.get? id = (d.functions.get? id).map
      (if f = id then fun g => { g with locals := g.locals ++ ds } else fun g => g) := by
  rw [FunctionTable.get?, h.functions]
  exact getFunction?_modifyFunction f id _

theorem Adds.precedes {ds : List SymbolId} (h : Adds f ds d d') : d.Precedes d' := by
  refine ⟨h.symbols, fun id g hg => ?_⟩
  rw [h.get?_eq, hg]
  split
  · exact ⟨_, rfl, rfl, rfl⟩
  · exact ⟨g, rfl, rfl, rfl⟩

theorem adds_withLocal : Adds f [d.next] d (d.withLocal name ty f) where
  symbols := List.prefix_append _ _
  numbers := by
    rw [show (d.withLocal name ty f).next = d.next + 1 from List.length_append, List.range_succ]
  functions := rfl

/-! ## Declaring -/

theorem localsOf_withSymbol (s : Symbol) :
    (d.withSymbol s).symbols.localsOf f =
      d.symbols.localsOf f ++ if s.scope = .local ∧ s.owner = some f then [d.next] else [] := by
  have size : (d.withSymbol s).symbols.size = d.next + 1 := List.length_append
  rw [SymbolTable.localsOf, size, List.range_succ, List.filter_append]
  congr 1
  · refine List.filter_congr fun v hv => ?_
    rw [get?_withSymbol, if_neg (Nat.ne_of_lt (List.mem_range.1 hv))]
  · simp [List.filter_cons, get?_withSymbol]

/-- Symbols stay apart if the earlier ones admit one more. -/
theorem pairwise_withSymbol {s : Symbol} (h : d.symbols.symbols.Pairwise Symbol.Admits)
    (admits : ∀ r ∈ d.symbols.symbols, r.Admits s) :
    (d.withSymbol s).symbols.symbols.Pairwise Symbol.Admits :=
  List.pairwise_append.2 ⟨h, List.pairwise_singleton _ _, by simpa using admits⟩

theorem isGlobal_withSymbol (s : Symbol) {w : String} {v : SymbolId}
    (h : d.symbols.IsGlobal w v) : (d.withSymbol s).symbols.IsGlobal w v :=
  ((precedes_withSymbol d s).isGlobal_iff (lt_of_isGlobal h)).2 h

theorem Named.withGlobal (h : d.Named) {kind : SymbolKind}
    (fresh : d.symbols.find? name.lexeme none = none) : (d.withGlobal name ty kind).Named where
  apart := pairwise_withSymbol h.apart (SymbolTable.admits_global fresh)
  callable id g hg := isGlobal_withSymbol _ (h.callable id g hg)
  listed id g hg := by
    rw [Declarations.withGlobal, localsOf_withSymbol, if_neg (by simp [Symbol.declared]),
      List.append_nil]
    exact h.listed id g hg
  owned s hs scope := by
    rcases List.mem_append.1 hs with hs | hs
    · exact h.owned s hs scope
    · obtain rfl := List.mem_singleton.1 hs
      cases scope

/-- A function that is declared has no locals yet. -/
theorem Named.localsOf_size (h : d.Named) : d.symbols.localsOf d.functions.size = [] := by
  refine List.filter_eq_nil_iff.2 fun v _ => ?_
  simp only [Option.any_eq_true, Bool.and_eq_true, beq_iff_eq]
  rintro ⟨s, found, scope, owner⟩
  obtain ⟨f, owner', lt⟩ := h.owned s (List.mem_of_getElem? found) scope
  cases owner.symm.trans owner'
  exact Nat.lt_irrefl _ lt

theorem Named.withHeader (h : d.Named) {decorators : Decorators}
    (fresh : d.symbols.find? name.lexeme none = none) : (d.withHeader name ty decorators).Named := by
  have base : (d.withGlobal name .function .function).Named := h.withGlobal fresh
  refine ⟨base.apart, fun id g hg => ?_, fun id g hg => ?_, fun s hs scope => ?_⟩
  · rw [Declarations.withHeader, getFunction?_withFunction] at hg
    split at hg
    · cases hg
      exact ⟨_, (get?_withSymbol _ _).trans (if_pos rfl), rfl, rfl⟩
    · exact base.callable id g hg
  · rw [Declarations.withHeader, getFunction?_withFunction] at hg
    split at hg
    · next here =>
      cases hg
      rw [here]
      exact base.localsOf_size.symm
    · exact base.listed id g hg
  · obtain ⟨f, owner, lt⟩ := base.owned s hs scope
    refine ⟨f, owner, Nat.lt_of_lt_of_le lt ?_⟩
    simp [Declarations.withHeader, Declarations.withFunction, FunctionTable.size]

/-- **A function gets one more variable** of a name that it finds nothing
for. -/
theorem Named.withVariable (h : d.Named) {g : Function} (known : d.functions.get? f = some g)
    (fresh : d.symbols.find? name.lexeme (some f) = none) (change : Function → Function)
    (lists : (change g).variables = g.variables ++ [d.next]) (named : (change g).name = g.name)
    (symbol : (change g).symbol = g.symbol) :
    ((d.withSymbol (.declared name .local .variable ty (some f))).modifyFunction f change).Named := by
  refine ⟨pairwise_withSymbol h.apart (SymbolTable.admits_local fresh), fun id k hk => ?_,
    fun id k hk => ?_, fun s hs scope => ?_⟩
  · rw [getFunction?_modifyFunction, Option.map_eq_some_iff] at hk
    obtain ⟨k₀, hk₀, rfl⟩ := hk
    have callable := isGlobal_withSymbol (.declared name .local .variable ty (some f))
      (h.callable id k₀ hk₀)
    split
    · next same =>
      subst same
      cases known.symm.trans hk₀
      rw [named, symbol]
      exact callable
    · exact callable
  · rw [getFunction?_modifyFunction, Option.map_eq_some_iff] at hk
    obtain ⟨k₀, hk₀, rfl⟩ := hk
    change _ = (d.withSymbol _).symbols.localsOf id
    rw [localsOf_withSymbol]
    split
    · next same =>
      subst same
      cases known.symm.trans hk₀
      rw [lists, h.listed f g known, if_pos ⟨rfl, rfl⟩]
    · next other =>
      rw [if_neg (by simpa [Symbol.declared] using other), List.append_nil]
      exact h.listed id k₀ hk₀
  · have size : ((d.withSymbol (.declared name .local .variable ty (some f))).modifyFunction f
        change).functions.size = d.functions.size := List.length_modify ..
    rw [size]
    rcases List.mem_append.1 hs with hs | hs
    · exact h.owned s hs scope
    · obtain rfl := List.mem_singleton.1 hs
      exact ⟨f, rfl, lt_functions known⟩

theorem Named.withLocal (h : d.Named) {g : Function} (known : d.functions.get? f = some g)
    (fresh : d.symbols.find? name.lexeme (some f) = none) : (d.withLocal name ty f).Named :=
  h.withVariable known fresh _ (by simp [Function.variables]) rfl rfl

theorem Named.withParameter (h : d.Named) {g : Function} (known : d.functions.get? f = some g)
    (bare : g.locals = []) (fresh : d.symbols.find? name.lexeme (some f) = none) :
    (d.withParameter name ty f).Named :=
  h.withVariable known fresh _ (by simp [Function.variables, bare]) rfl rfl

/-! ## The function at hand -/

/-- **The function whose definition is read**: it is in the tables, and all
globals were declared before its own variables. -/
structure AtHand (f : FunctionId) (d : Declarations) : Prop where
  known : ∃ g, d.functions.get? f = some g
  behind : ∀ w v name, d.symbols.IsGlobal w v → ∀ u, d.symbols.IsLocal f name u → v < u

theorem AtHand.withVariable (h : AtHand f d) (change : Function → Function) :
    AtHand f ((d.withSymbol (.declared name .local .variable ty (some f))).modifyFunction f change) := by
  obtain ⟨⟨g, known⟩, behind⟩ := h
  refine ⟨⟨change g, ?_⟩, ?_⟩
  · rw [getFunction?_modifyFunction]
    change (d.functions.get? f).map _ = _
    simp [known]
  · rintro w v name' ⟨s, hs, scope, hw⟩ u ⟨t, ht, scope', owner, hname⟩
    change (d.withSymbol _).symbols.get? _ = _ at hs
    change (d.withSymbol _).symbols.get? _ = _ at ht
    rw [get?_withSymbol] at hs ht
    split at hs
    · cases hs
      cases scope
    · split at ht
      · next here => exact here ▸ lt_next hs
      · exact behind w v name' ⟨s, hs, scope, hw⟩ u ⟨t, ht, scope', owner, hname⟩

theorem Named.atHand_withHeader (h : d.Named) {decorators : Decorators} :
    AtHand d.functions.size (d.withHeader name ty decorators) := by
  refine ⟨⟨_, (getFunction?_withFunction _ _).trans (if_pos rfl)⟩, ?_⟩
  rintro w v name' - u ⟨t, ht, scope, owner, -⟩
  change (d.withSymbol _).symbols.get? _ = _ at ht
  rw [get?_withSymbol] at ht
  split at ht
  · cases ht
    cases scope
  · obtain ⟨f, owner', lt⟩ := h.owned t (List.mem_of_getElem? ht) scope
    cases owner.symm.trans owner'
    exact absurd lt (Nat.lt_irrefl _)

/-! ## The tables of a stage -/

/-- Whether every name has one meaning, by going through the tables. -/
def isNamed (d : Declarations) : Bool :=
  decide (d.symbols.symbols.Pairwise Symbol.Admits)
  && d.functions.functions.zipIdx.all (fun (g, id) =>
    (d.symbols.get? g.symbol).any (fun s => s.scope == .global && s.name == g.name)
    && g.variables == d.symbols.localsOf id)
  && d.symbols.symbols.all fun s =>
    s.scope == .global || s.owner.any fun f => decide (f < d.functions.size)

theorem named_of_isNamed (h : d.isNamed = true) : d.Named := by
  simp only [isNamed, Bool.and_eq_true, decide_eq_true_eq, List.all_eq_true, Bool.or_eq_true,
    Option.any_eq_true, beq_iff_eq] at h
  obtain ⟨⟨apart, functions⟩, symbols⟩ := h
  refine ⟨apart, fun id g hg => ?_, fun id g hg => ?_, fun s hs scope => ?_⟩
  · obtain ⟨⟨s, found, scope, same⟩, -⟩ := functions (g, id) (List.mk_mem_zipIdx_iff_getElem?.2 hg)
    exact ⟨s, found, scope, same⟩
  · exact (functions (g, id) (List.mk_mem_zipIdx_iff_getElem?.2 hg)).2
  · rcases symbols s hs with scope' | ⟨f, owner, lt⟩
    · simp [scope] at scope'
    · exact ⟨f, owner, lt⟩

theorem named_addStage {stage : Stage} (h : Declarations.addStage {} stage = .ok d) : d.Named := by
  have check : (Declarations.addStage {} stage).toOption.any isNamed = true := by
    cases stage <;> decide +kernel
  rw [h] at check
  exact named_of_isNamed check

end Declarations

end Shading
