import Shading.Proofs.Grammar.Shader

/-!
# The parser builds typed shaders

Statements declare locals as they are read, so the tables grow, and what
has been read so far stays typed (`Builds.typed`). A function is
declared before its parameters and its body are read
(`Declarations.Header`). The main statement is `Shader.typed_of_parse`:
**every shader that is accepted is typed**, and it is so whatever tokens
the shader is read from (`Shader.typed_of_ofTokens`). No variable in its
tables is then `void` (`Declarations.Sound.valued`).
-/

namespace Shading

/-! ## Declaring -/

namespace Declarations

variable {d d₀ : Declarations} {name : Token} {ty : Ty} {f : FunctionId} {g : Function}

theorem extends_withLocal : d.Extends (d.withLocal name ty f) :=
  (extends_withSymbol d _).trans (extends_modifyFunction _ f _ fun _ => rfl)

/-- A local is a variable of its function. -/
theorem isVariableOf_withLocal (storage : ty.size ≠ 0) :
    (d.withLocal name ty f).IsVariableOf f d.next :=
  ⟨.declared name .local .variable ty (some f), (get?_withSymbol _ _).trans (if_pos rfl), rfl, rfl,
    rfl, storage⟩

theorem symbolTy_withLocal : (d.withLocal name ty f).symbolTy d.next = ty :=
  symbolTy_of_get? ((get?_withSymbol _ _).trans (if_pos rfl))

theorem Sound.withLocal (hd : d.Sound) (known : d.functions.get? f = some g)
    (storage : ty.size ≠ 0) : (d.withLocal name ty f).Sound := by
  have lists : Function.variables { g with locals := g.locals ++ [d.next] } =
      g.variables ++ [d.next] := by simp [Function.variables]
  exact hd.withVariable (s := .declared name .local .variable ty (some f))
    (fun g => { g with locals := g.locals ++ [d.next] }) known rfl rfl rfl storage rfl
    (lists ▸ List.perm_append_comm) (fun _ => rfl) (fun user => user)

/-- **The header of a function**, while its parameters are read: tables in
good order that hold earlier ones, which do not know the function. -/
structure Header (d₀ : Declarations) (f : FunctionId) (name : String) (d : Declarations) :
    Prop where
  sound : d.Sound
  holds : d₀.Extends d
  new : d₀.functions.get? f = none
  declared : ∃ g, d.functions.get? f = some g ∧ g.name = name ∧ g.intrinsic = false ∧ g.locals = []

/-- Declaring a function opens its header. -/
theorem Sound.withHeader (hd : d.Sound) {decorators : Decorators}
    (fresh : d.symbols.find? name.lexeme none = none) :
    Header d d.functions.size name.lexeme (d.withHeader name ty decorators) where
  sound := (hd.withGlobal (s := .declared name .global .function .function none) rfl fresh
    (by rintro ⟨⟩) rfl).withFunction rfl rfl
  holds := (extends_withSymbol d _).trans (extends_withFunction _ _)
  new := List.getElem?_eq_none (Nat.le_refl _)
  declared := ⟨_, (getFunction?_withFunction _ _).trans (if_pos rfl), rfl, rfl, rfl⟩

/-- One more parameter. -/
theorem Header.withParameter {fname : String} (h : Header d₀ f fname d) (storage : ty.size ≠ 0) :
    Header d₀ f fname (d.withParameter name ty f) := by
  obtain ⟨sound, holds, new, g, known, hname, user, none⟩ := h
  have lists : Function.variables { g with parameters := g.parameters ++ [d.next] } =
      g.variables ++ [d.next] := by simp [Function.variables, none]
  refine ⟨?_, (holds.trans (extends_withSymbol _ _)).modifyFunction new _, new,
    { g with parameters := g.parameters ++ [d.next] }, ?_, hname, user, none⟩
  · exact sound.withVariable (s := .declared name .local .variable ty (some f))
      (fun g => { g with parameters := g.parameters ++ [d.next] }) known rfl rfl rfl storage rfl
      (lists ▸ List.perm_append_comm) (fun stage => by rw [user] at stage; cases stage) (fun u => u)
  · refine (getFunction?_modifyFunction f f _).trans ?_
    rw [if_pos rfl]
    change (d.functions.get? f).map _ = _
    rw [known]
    rfl

end Declarations

/-! ## Bodies -/

variable {tokens : List Token} {d d' : Declarations} {f : FunctionId}

theorem Occurs.typed {o : Option FunctionId} {e : Expr} (h : Occurs tokens d o e) : e.Typed d o := by
  obtain ⟨ts, -, derived⟩ := h
  exact derived.typed

/-- A phrase of a body is typed. -/
def Phrase.Typed (d : Declarations) (f : FunctionId) : Phrase → Prop
  | .statement s => s.Typed d f
  | .choice c => c.Typed d f
  | .block body => Statement.AllTyped d f body

theorem Phrase.Typed.extend {p : Phrase} (sound : d.Sound) (h : d.Extends d') (hp : p.Typed d f) :
    p.Typed d' f := by
  cases p with
  | statement s => exact Statement.Typed.extend sound h s hp
  | choice c => exact IfStatement.Typed.extend sound h c hp
  | block body => exact Statement.AllTyped.extend sound h body hp

/-- **What is built is typed**, by the tables behind it. -/
theorem Builds.typed {p : Phrase} (built : Builds tokens f d p d') (sound : d.Sound)
    (known : ∃ g, d.functions.get? f = some g) : d'.Sound ∧ d.Extends d' ∧ p.Typed d' f := by
  -- The induction is on how the parser builds the phrase: the tables grow on the way,
  -- and what was typed before is typed in the larger ones.
  induction built with
  | localVariable storage fresh =>
    obtain ⟨g, known⟩ := known
    refine ⟨sound.withLocal known storage, Declarations.extends_withLocal, ?_⟩
    simp only [Phrase.Typed, Statement.Typed]
    exact Declarations.isVariableOf_withLocal storage
  | initialised storage value fits fresh =>
    obtain ⟨g, known⟩ := known
    refine ⟨sound.withLocal known storage, Declarations.extends_withLocal, ?_⟩
    simp only [Phrase.Typed, Statement.Typed]
    refine ⟨Declarations.isVariableOf_withLocal storage,
      value.typed.extend sound Declarations.extends_withLocal, ?_⟩
    rw [Declarations.symbolTy_withLocal]
    exact Ty.stores_iff.2 fits
  | expression occurs =>
    exact ⟨sound, .refl _, by simpa only [Phrase.Typed, Statement.Typed] using occurs.typed⟩
  | branch _ ih =>
    obtain ⟨sound', ext, typed⟩ := ih sound known
    exact ⟨sound', ext, by simpa only [Phrase.Typed, Statement.Typed] using typed⟩
  | whileLoop condition truth _ ih =>
    obtain ⟨sound', ext, typed⟩ := ih sound known
    refine ⟨sound', ext, ?_⟩
    simp only [Phrase.Typed, Statement.Typed]
    exact ⟨condition.typed.extend sound ext, truth, typed⟩
  | forLoop start condition truth turn _ ih =>
    obtain ⟨sound', ext, typed⟩ := ih sound known
    refine ⟨sound', ext, ?_⟩
    simp only [Phrase.Typed, Statement.Typed]
    exact ⟨start.typed.extend sound ext, condition.typed.extend sound ext, truth,
      turn.typed.extend sound ext, typed⟩
  | leave void =>
    obtain ⟨g, known⟩ := known
    refine ⟨sound, .refl _, ?_⟩
    simp only [Phrase.Typed, Statement.Typed]
    exact ⟨g, known, by simpa [Declarations.returnTy, known] using void⟩
  | ret value notVoid fits =>
    obtain ⟨g, known⟩ := known
    refine ⟨sound, .refl _, ?_⟩
    simp only [Declarations.returnTy, known, Option.map_some, Option.getD_some] at notVoid fits
    simp only [Phrase.Typed, Statement.Typed]
    exact ⟨value.typed, g, known, notVoid, Ty.stores_iff.2 fits⟩
  | alone condition truth _ ih =>
    obtain ⟨sound', ext, typed⟩ := ih sound known
    refine ⟨sound', ext, ?_⟩
    simp only [Phrase.Typed, IfStatement.Typed, ElseBranch.Typed, and_true]
    exact ⟨condition.typed.extend sound ext, truth, typed⟩
  | otherwise condition truth _ _ ihb iho =>
    obtain ⟨sound', ext, typed⟩ := ihb sound known
    obtain ⟨sound'', ext', typed'⟩ := iho sound' (ext.known known)
    refine ⟨sound'', ext.trans ext', ?_⟩
    simp only [Phrase.Typed, IfStatement.Typed, ElseBranch.Typed]
    exact ⟨condition.typed.extend sound (ext.trans ext'), truth, typed.extend sound' ext', typed'⟩
  | chain condition truth _ _ ihb iho =>
    obtain ⟨sound', ext, typed⟩ := ihb sound known
    obtain ⟨sound'', ext', typed'⟩ := iho sound' (ext.known known)
    refine ⟨sound'', ext.trans ext', ?_⟩
    simp only [Phrase.Typed, IfStatement.Typed, ElseBranch.Typed]
    exact ⟨condition.typed.extend sound (ext.trans ext'), truth, typed.extend sound' ext', typed'⟩
  | nil => exact ⟨sound, .refl _, by simp only [Phrase.Typed, Statement.AllTyped]⟩
  | cons _ _ ihs ihb =>
    obtain ⟨sound', ext, typed⟩ := ihs sound known
    obtain ⟨sound'', ext', typed'⟩ := ihb sound' (ext.known known)
    refine ⟨sound'', ext.trans ext', ?_⟩
    simp only [Phrase.Typed, Statement.AllTyped]
    exact ⟨typed.extend sound' ext', typed'⟩

/-! ## Items -/

theorem BuildsParameters.header {d₀ : Declarations} {name : String} {parameters : List SymbolId}
    (built : BuildsParameters f d parameters d') (h : Declarations.Header d₀ f name d) :
    Declarations.Header d₀ f name d' := by
  induction built with
  | nil => exact h
  | cons storage _ _ ih => exact ih (h.withParameter storage)

/-- **An item that is built is typed.** -/
theorem BuildsItem.typed {i : Item} (built : BuildsItem tokens d i d') (sound : d.Sound) :
    d'.Sound ∧ d.Extends d' ∧ i.Typed d' := by
  cases built with
  | @global name ty _ storage fresh =>
    refine ⟨sound.withGlobal (s := .declared name .global .variable ty none) rfl fresh
      (fun _ => storage) rfl, Declarations.extends_withSymbol d _, ?_⟩
    exact ⟨_, (Declarations.get?_withSymbol _ _).trans (if_pos rfl), rfl, rfl, storage⟩
  | function fresh _ header block =>
    obtain ⟨sound', holds, -, g, known, hname, -⟩ := header.header (sound.withHeader fresh)
    obtain ⟨sound'', ext, typed⟩ := block.typed sound' ⟨g, known⟩
    obtain ⟨g', known', hname', -⟩ := ext.function _ g known
    exact ⟨sound'', holds.trans ext, ⟨g', known', hname'.trans hname⟩, typed⟩

theorem BuildsItems.typed {items : List Item} (built : BuildsItems tokens d items d')
    (sound : d.Sound) : d'.Sound ∧ d.Extends d' ∧ ∀ i ∈ items, i.Typed d' := by
  induction built with
  | nil => exact ⟨sound, .refl _, by simp⟩
  | cons first _ ih =>
    obtain ⟨sound', ext, typed⟩ := first.typed sound
    obtain ⟨sound'', ext', typed'⟩ := ih sound'
    exact ⟨sound'', ext.trans ext', List.forall_mem_cons.2 ⟨typed.extend sound' ext', typed'⟩⟩

/-! ## The tables of a stage -/

/-- Whether tables are in good order, by going through them. -/
def Declarations.isSound (d : Declarations) : Bool :=
  d.functions.functions.zipIdx.all (fun (g, id) =>
    g.variables.all (fun v => (d.symbols.get? v).any fun s =>
      s.kind == .variable && s.scope == .local && s.owner == some id && s.ty.size != 0)
    && decide g.variables.Nodup
    && (!g.intrinsic ||
      decide (⟨g.name, g.returnTy, g.parameters.map d.symbolTy⟩ ∈ stageFunctions)))
  && d.symbols.symbols.zipIdx.all (fun (s, id) =>
    (s.scope == .global || s.owner.any fun f =>
      (d.functions.get? f).any fun g => decide (id ∈ g.variables))
    && (s.kind == .function || s.ty.size != 0)
    && (s.scope == .local || d.symbols.find? s.name none == some id) && s.location == .none)

theorem Declarations.sound_of_isSound {d : Declarations} (h : d.isSound = true) : d.Sound := by
  rw [isSound, Bool.and_eq_true, List.all_eq_true, List.all_eq_true] at h
  obtain ⟨functions, symbols⟩ := h
  have function {id : FunctionId} {g : Function} (hg : d.functions.get? id = some g) :=
    functions (g, id) (List.mk_mem_zipIdx_iff_getElem?.2 hg)
  have symbol {id : SymbolId} {s : Symbol} (hs : d.symbols.get? id = some s) :=
    symbols (s, id) (List.mk_mem_zipIdx_iff_getElem?.2 hs)
  simp only [Bool.and_eq_true, Bool.or_eq_true, List.all_eq_true, decide_eq_true_eq,
    Option.any_eq_true, beq_iff_eq, bne_iff_ne, Bool.not_eq_true'] at function symbol
  refine ⟨fun id g hg v hv => ?_, fun id g hg => (function hg).1.2, fun id s hs hl => ?_,
    fun id s hs hk => ?_, fun id s hs hg => ?_, fun id g hg hi => ?_, fun id s hs => (symbol hs).2⟩
  · obtain ⟨s, hs, ⟨⟨kind, scope⟩, owner⟩, storage⟩ := (function hg).1.1 v hv
    exact ⟨s, hs, kind, scope, owner, storage⟩
  · rcases (symbol hs).1.1.1 with global | ⟨f, owner, g, hg, mem⟩
    · rw [hl] at global
      cases global
    · exact ⟨f, g, owner, hg, mem⟩
  · rcases (symbol hs).1.1.2 with kind | storage
    · rw [hk] at kind
      cases kind
    · exact storage
  · rcases (symbol hs).1.2 with scope | found
    · rw [hg] at scope
      cases scope
    · exact found
  · rcases (function hg).2 with user | listed
    · rw [hi] at user
      cases user
    · exact listed

/-- What a stage declares is in good order. -/
theorem Declarations.sound_addStage {stage : Stage} {d : Declarations}
    (h : Declarations.addStage {} stage = .ok d) : d.Sound := by
  have check : (Declarations.addStage {} stage).toOption.any isSound = true := by
    cases stage <;> decide +kernel
  rw [h] at check
  exact sound_of_isSound check

/-- **Whatever tokens are accepted, the shader they write is typed.** -/
theorem Shader.typed_of_ofTokens {stage : Stage} {source : String} {tokens : List Token}
    {s : Shader} (h : Shader.ofTokens stage source tokens = .ok s) : s.Typed := by
  obtain ⟨d, declared, built⟩ := Shader.builds_of_ofTokens h
  obtain ⟨sound, -, typed⟩ := built.typed (Declarations.sound_addStage declared)
  exact ⟨sound, typed⟩

/-- **Every shader that is accepted is typed.** -/
theorem Shader.typed_of_parse {stage : Stage} {source : String} {s : Shader}
    (h : Shader.parse stage source = .ok s) : s.Typed := by
  simp only [Shader.parse, Bind.bind, Except.bind] at h
  split at h
  · cases h
  · exact typed_of_ofTokens h

/-- **An expression that is accepted by itself is typed** in the tables of
its stage, outside of any function. -/
theorem Expr.typed_of_parse {stage : Stage} {source : String} {e : Expr}
    (h : Expr.parse stage source = .ok e) :
    ∃ d, Declarations.addStage {} stage = .ok d ∧ e.Typed d none := by
  simp only [Expr.parse, Bind.bind, Except.bind, Pure.pure, Except.pure] at h
  split at h
  · cases h
  · split at h
    · cases h
    · next start started =>
      obtain ⟨declared, outside, -⟩ := ParserState.start_eq_ok started
      split at h
      · cases h
      · next v read =>
        obtain ⟨e, s⟩ := v
        cases h
        obtain ⟨ts, here, derived⟩ := Parser.derived_expression _ _ _ read
        rw [here] at declared outside
        exact ⟨_, declared, outside ▸ derived.typed⟩

/-! ## Variables -/

/-- **No variable is `void`**: neither one that has a symbol, global or
local, nor one that a function lists among its parameters and locals. -/
structure Declarations.Valued (d : Declarations) : Prop where
  symbols : ∀ id s, d.symbols.get? id = some s → s.kind = .variable → s.ty ≠ .void
  listed : ∀ id f, d.functions.get? id = some f → ∀ v ∈ f.variables, d.symbolTy v ≠ .void

theorem Declarations.Sound.valued {d : Declarations} (h : d.Sound) : d.Valued where
  symbols id s hs kind void := h.storable id s hs kind (by rw [void]; rfl)
  listed id f hf v hv void := by
    obtain ⟨s, hs, -, -, -, storage⟩ := h.listed id f hf v hv
    rw [symbolTy_of_get? hs] at void
    exact storage (by rw [void]; rfl)

/-- **What is accepted is well typed**, from tokens as from a source text:
the types of its tree are those of the rules, and none of its variables
is `void`. -/
theorem Shader.typed_of_accepted {stage : Stage} {source : String} {tokens : List Token}
    {s : Shader} (h : Shader.ofTokens stage source tokens = .ok s ∨
      Shader.parse stage source = .ok s) : s.Typed ∧ s.declarations.Valued := by
  have typed : s.Typed := h.elim typed_of_ofTokens typed_of_parse
  exact ⟨typed, typed.sound.valued⟩

/-- A shader in which most of the rules are put to use. -/
def Shader.checkedSource : String :=
  "int i; float f(float x) \x7b x *= g_normal[i]; return -x; \x7d "
    ++ "void g() \x7b if (!(i == 2.5)) \x7b i = f(i); \x7d return; \x7d"

set_option maxRecDepth 100000 in
theorem Shader.typed_checkedSource : ∃ s, Shader.parse .vertex checkedSource = .ok s ∧
    s.items.length = 3 ∧ s.Typed ∧ s.declarations.Valued := by
  have read : (Shader.parse .vertex checkedSource).toOption.any
      (fun s => s.items.length == 3) = true := by decide +kernel
  obtain ⟨s, parsed, three⟩ := exists_ok_of_any read
  have accepted : Shader.ofTokens .vertex checkedSource [] = .ok s ∨
      Shader.parse .vertex checkedSource = .ok s := .inr parsed
  exact ⟨s, parsed, by simpa using three, Shader.typed_of_accepted accepted⟩

end Shading
