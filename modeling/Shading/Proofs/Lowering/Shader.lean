import Shading.Proofs.Lowering.Function
import Shading.Proofs.Typing.Shader

/-!
# Shaders compile

Lowering checks what parsing has checked already: every malformed tree it
refuses is one that no source text reads as. What is left are the forms
that lowering refuses (`Form`), jumps over more code than their distance can
count, and general registers, of which an expression can ask for more than
there are (`Program.cause_of_error`). So a plain shader compiles, and of a
shader that is refused as malformed or as unsupported some function contains
the form that is to blame.
-/

namespace Shading

open LoweringState

namespace Lower

variable {d : Declarations} {placed : SymbolId → Prop} {s t : LoweringState} {E : Error → Prop}

/-! ## Globals -/

/-- Taking storage while no scope is open. -/
theorem leads_unscoped (ok : s.Ok) (unscoped : s.scopes = []) {l : Layout} {rs : List Location}
    (leads : s.layout.Leads l rs []) : s.Leads { s with layout := l } rs [] := by
  have h := Leads.ofLayout ok leads s.transcript
  have none : addRegisters rs s.scopes = s.scopes := by
    rw [unscoped]
    rfl
  rwa [none] at h

/-- A global is placed in the region of globals. -/
theorem placeGlobally_ends (ok : s.Ok) (unscoped : s.scopes = []) {ty : Ty}
    (storage : ty.size ≠ 0) {α : Type} (inMemory : Prop) [Decidable inMemory]
    {rest : Location × Layout → Lower α} {Q : α → LoweringState → Prop}
    (next : ∀ l layout rs, (∀ offset, l ≠ .localMemory offset) → Places s { s with layout } ty l →
      s.Leads { s with layout } rs [] → Ends (rest (l, layout)) s Q E) :
    Ends (if inMemory then do
        let x ← s.layout.placeInMemory ty .global
        rest x
      else do
        let x ← s.layout.place ty .global
        rest x : Lower α) s Q E := by
  have memory (offset : Nat) (l : Layout) (above : s.layout.topOf .global ≤ offset)
      (stop : offset + ty.size = l.topOf .global)
      (aligned : offset % BumpAllocator.alignmentOf ty.size = 0) (leads : s.layout.Leads l [] []) :
      Ends (rest (.globalMemory offset, l)) s Q E := by
    refine next _ _ [] (by rintro _ ⟨⟩) ⟨⟨storage, aligned⟩, above, Nat.le_of_eq stop, fun x slots => ?_⟩
      (leads_unscoped ok unscoped leads)
    obtain ⟨y, eq, -, below, -⟩ := ok.division _ slots
    simp only [DivisionSlots.at, DivisionSlots.mk.injEq, Location.globalMemory.injEq] at eq
    rw [eq.1]
    exact .inr (Nat.le_trans below above)
  split
  · obtain ⟨offset, l, placed, above, stop, aligned, leads⟩ :=
      Layout.placeInMemory_eq ok.layout storage .global
    rw [placed]
    exact memory offset l above stop aligned leads
  · rcases Layout.place_eq ok.layout storage .global with
      ⟨c, id, l, placed, ofTy, free, leads⟩ | ⟨offset, l, placed, above, stop, aligned, leads⟩
    · have pool := ok.layout.pooled c id free
      have notFree := ((leads.free c id).1.mt fun h => h.2 (by simp))
      rw [placed]
      refine next _ l _ (by cases c <;> rintro _ ⟨⟩) ?_ (leads_unscoped ok unscoped leads)
      cases c <;> exact ⟨⟨ofTy, pool⟩, free, notFree⟩
    · rw [placed]
      exact memory offset l above stop aligned leads

/-- Storage that is kept is kept further on. -/
theorem Places.later {u : LoweringState} {ty : Ty} {l : Location} {rs : List Location}
    (h : Places s t ty l) (leads : t.Leads u rs []) : Places s u ty l :=
  ⟨h.fits, h.fresh, leads.keeps h.keeps⟩

/-- **A global moves in**, with a staging slot beside a register. -/
theorem placeGlobal_ends (ok : s.Ok) (unscoped : s.scopes = []) (houses : s.Houses d placed)
    {id : SymbolId} {v : Symbol} (found : d.symbols.get? id = some v) (new : ¬ placed id)
    (storage : v.ty.size ≠ 0) (l : Location) :
    Ends (placeGlobal id { v with location := l }) s (fun _ t => t.scopes = [] ∧
      ∃ rs, Rehouses d placed (fun x => placed x ∨ x = id) s t rs) E := by
  unfold placeGlobal
  refine .bindGet ?_
  dsimp only
  refine placeGlobally_ends ok unscoped storage _ fun out layout rs _ places leads => ?_
  refine .bind (.modify rfl : Ends (modify _) _ (fun _ t => t = { s with layout }) E) ?_
  rintro _ _ rfl
  have moved {u : LoweringState} {staging : Option Location} (h : s.Leads u rs [])
      (places : Places s u v.ty out) (same : u.scopes = []) : Ends (do
        setLocation id out
        return { name := v.name, ty := v.ty, location := out, staging, intrinsic := v.intrinsic } :
          Lower GlobalSlot) u (fun _ t => t.scopes = [] ∧
            ∃ rs, Rehouses d placed (fun x => placed x ∨ x = id) s t rs) E :=
    .intro rfl ⟨same, rs, houses.settle h found new places⟩
  split
  · refine .bind (allocateGlobal_ends leads.ok (.inr (Nat.le_refl 16))) ?_
    rintro _ _ ⟨offset, l', rfl, rfl, -, -, -, more, -⟩
    have h := leads_unscoped leads.ok unscoped more
    exact moved (leads.step h) (places.later h) unscoped
  · exact moved leads places unscoped

/-- A symbol that is a variable. -/
def IsVariable (d : Declarations) (id : SymbolId) : Prop :=
  ∃ v, d.symbols.get? id = some v ∧ v.kind = .variable

/-- **The globals move in** one after the other. -/
theorem placeGlobals_ends (sound : d.Sound) :
    ∀ (ids : List SymbolId) (s : LoweringState) (placed : SymbolId → Prop), s.Ok →
      s.scopes = [] → s.Houses d placed →
      (∀ id ∈ ids, ¬ placed id ∧ ∃ v, d.symbols.get? id = some v) → ids.Nodup →
      Ends (placeGlobals ids) s (fun _ t => t.scopes = [] ∧
        ∃ rs, Rehouses d placed (fun x => placed x ∨ (x ∈ ids ∧ IsVariable d x)) s t rs) E
  | [], s, placed, ok, unscoped, houses, _, _ =>
    .pure ⟨unscoped, [], { Rehouses.refl ok houses with
      houses := houses.mono (by simp)
      more := fun _ h => .inl h }⟩
  | id :: ids, s, placed, ok, unscoped, houses, new, nodup => by
    obtain ⟨notLater, nodup⟩ := List.nodup_cons.1 nodup
    have newLater : ∀ x ∈ ids, ¬ placed x ∧ ∃ v, d.symbols.get? x = some v :=
      fun x hx => new x (List.mem_cons_of_mem id hx)
    -- A name in the list that is no variable takes no place, and the homes remain those
    -- of the names before it.
    obtain ⟨newHere, v, found⟩ := new id List.mem_cons_self
    have skipped (none : ¬ IsVariable d id) : Ends (placeGlobals ids) s (fun _ t => t.scopes = [] ∧
        ∃ rs, Rehouses d placed (fun x => placed x ∨ (x ∈ id :: ids ∧ IsVariable d x)) s t rs) E := by
      refine (placeGlobals_ends sound ids s placed ok unscoped houses newLater nodup).mono ?_
        fun _ h => h
      rintro _ t ⟨same, rs, h⟩
      refine ⟨same, rs, { h with
        houses := h.houses.mono fun x hx => hx.imp_right fun ⟨mem, isVariable⟩ => ?_
        more := fun _ h => .inl h }⟩
      rcases List.mem_cons.1 mem with rfl | mem
      · exact absurd isVariable none
      · exact ⟨mem, isVariable⟩
    unfold placeGlobals
    refine .bindGet ?_
    obtain ⟨l, known⟩ := houses.symbols id v found
    rw [known]
    dsimp only
    split
    · refine .bind (placeGlobal_ends ok unscoped houses found newHere
        (sound.storable id v found (by assumption)) l) ?_
      rintro slot t ⟨unscoped, rs, h⟩
      refine .bind (placeGlobals_ends sound ids t _ h.leads.ok unscoped h.houses
        (fun x hx => ⟨?_, (newLater x hx).2⟩) nodup) ?_
      · rintro (old | rfl)
        · exact (newLater x hx).1 old
        · exact notLater hx
      rintro slots u ⟨unscoped, rs', h'⟩
      refine .pure ⟨unscoped, rs ++ rs', { h.trans h' with
        houses := h'.houses.mono fun x hx => ?_
        more := fun _ h => .inl h }⟩
      rcases hx with old | ⟨mem, isVariable⟩
      · exact .inl (.inl old)
      · rcases List.mem_cons.1 mem with rfl | mem
        · exact .inl (.inr rfl)
        · exact .inr ⟨mem, isVariable⟩
    · next kind =>
      refine skipped fun ⟨w, found', isVariable⟩ => kind ?_
      rw [found] at found'
      cases found'
      exact isVariable

/-! ## Shaders -/

/-- **The functions of a shader are lowered.** -/
theorem functions_ends (sound : d.Sound)
    (far : ∀ distance : Int, 2 ^ 31 ≤ distance → E (.layout (.longJump distance))) :
    ∀ (items : List Item) (s : LoweringState), s.Settled d none → (∀ i ∈ items, i.Typed d) →
      (∀ id name w body, .function id name w body ∈ items →
        (∀ form ∈ Statement.allForms d body, E form.refusal) ∧
        (Statement.allFit body = true ∨ E (.layout (.noRegister .general)))) →
      Ends (functions items) s (fun _ t => t.Settled d none) E
  | [], s, settled, _, _ => .pure settled
  | .global _ _ :: items, s, settled, typed, bodies => by
    unfold functions
    exact functions_ends sound far items s settled
      (fun i hi => typed i (List.mem_cons_of_mem _ hi))
      fun id name w body hi => bodies id name w body (List.mem_cons_of_mem _ hi)
  | .function id name w body :: items, s, settled, typed, bodies => by
    obtain ⟨⟨g, known, -⟩, typedBody⟩ := typed _ List.mem_cons_self
    obtain ⟨refused, fits⟩ := bodies id name w body List.mem_cons_self
    unfold functions
    refine .bind (function_ends sound known far settled typedBody refused fits)
      fun call t settled => ?_
    refine .bindGet ?_
    refine .bind (functions_ends sound far items t settled
      (fun i hi => typed i (List.mem_cons_of_mem _ hi))
      fun id name w body hi => bodies id name w body (List.mem_cons_of_mem _ hi))
      fun _ u settled => ?_
    exact .pure settled

/-- The state in which a lowering starts is in good order. -/
theorem ok_start (o : Options) (s : Shader) : (LoweringState.start o s).Ok where
  layout := Layout.ok_empty
  assembly := Assembly.sound_nil _
  agrees := ConstantPool.agrees_empty
  ascending := .nil
  pooled := by simp [LoweringState.start]
  division := by simp [LoweringState.start]

theorem mem_globals {t : SymbolTable} {id : SymbolId} :
    id ∈ t.globals ↔ ∃ v, t.get? id = some v ∧ v.scope = .global := by
  simp only [SymbolTable.globals, List.mem_filter, List.mem_range, Option.any_eq_true, beq_iff_eq,
    and_iff_right_iff_imp, SymbolTable.size, SymbolTable.get?]
  rintro ⟨v, found, -⟩
  exact (List.getElem?_eq_some_iff.1 found).1

/-- **A typed shader is lowered**, if the refusal of its forms is put up
with. -/
theorem program_ends (o : Options) {s : Shader} (typed : s.Typed)
    (refused : ∀ form ∈ s.forms, E form.refusal)
    (fits : s.fits = true ∨ E (.layout (.noRegister .general)))
    (far : ∀ distance : Int, 2 ^ 31 ≤ distance → E (.layout (.longJump distance))) :
    Ends (program s.items) (.start o s) (fun _ _ => True) E := by
  have houses : (LoweringState.start o s).Houses s.declarations fun _ => False :=
    ⟨rfl, fun id v found => ⟨v.location, found⟩, fun _ _ h => h.elim, fun _ _ _ _ _ h => h.elim⟩
  have bodies (id : FunctionId) (name : String) (w : Decorators) (body : List Statement)
      (mem : .function id name w body ∈ s.items) :
      (∀ form ∈ Statement.allForms s.declarations body, E form.refusal) ∧
        (Statement.allFit body = true ∨ E (.layout (.noRegister .general))) := by
    rw [Shader.fits, List.all_eq_true] at fits
    exact ⟨fun form contained => refused form (List.mem_flatMap.2 ⟨_, mem, contained⟩),
      fits.imp_left fun h => h _ mem⟩
  unfold program
  refine .bindGet ?_
  refine .bind (placeGlobals_ends typed.sound s.declarations.symbols.globals _ _ (ok_start o s) rfl
    houses (fun id hid => ⟨fun h => h, ?_⟩) (List.nodup_range.filter _)) ?_
  · obtain ⟨v, found, -⟩ := mem_globals.1 hid
    exact ⟨v, found⟩
  rintro slots t ⟨-, rs, h⟩
  have settled : t.Settled s.declarations none := by
    refine settled_of_leads h.leads (by intro id; simp [LoweringState.start])
      (Nat.le_refl 0) (h.houses.mono ?_)
    rintro id ⟨v, found, kind, visible⟩
    refine .inr ⟨mem_globals.2 ⟨v, found, ?_⟩, v, found, kind⟩
    rcases visible with scope | ⟨-, -, some⟩
    · exact scope
    · cases some
  refine .bind (functions_ends typed.sound far s.items t settled typed.items bodies)
    fun fs u _ => ?_
  exact .intro rfl trivial

end Lower

namespace Program

/-- **Why a source text that is accepted does not compile**: a jump over
two gigabytes of code, the lack of a general register where some expression
does not fit, or a form that is refused. -/
theorem cause_of_error (o : Options) {source : String} {s : Shader}
    (parsed : Shader.parse o.stage source = .ok s) {e : Error} (run : compile o source = .error e) :
    (∃ distance : Int, 2 ^ 31 ≤ distance ∧ e = .layout (.longJump distance)) ∨
      (s.fits = false ∧ e = .layout (.noRegister .general)) ∨ ∃ form ∈ s.forms, e = form.refusal := by
  have ends := Lower.program_ends o (Shader.typed_of_parse parsed)
    (E := fun e => (∃ distance : Int, 2 ^ 31 ≤ distance ∧ e = .layout (.longJump distance)) ∨
      (s.fits = false ∧ e = .layout (.noRegister .general)) ∨ ∃ form ∈ s.forms, e = form.refusal)
    (fun form contained => .inr (.inr ⟨form, contained, rfl⟩))
    (by cases s.fits <;> simp) (fun distance far => .inl ⟨distance, far, rfl⟩)
  have compiled : compile o source = ofShader o s := by
    simp [compile, parsed, bind, Except.bind]
  rw [compiled, ofShader] at run
  unfold Ends at ends
  cases lowered : Lower.program s.items (.start o s) with
  | ok result =>
    rw [lowered] at run
    cases run
  | error e' =>
    rw [lowered] at run ends
    cases run
    exact ends

/-- **A plain source text compiles.** The only errors are a jump over two
gigabytes of code and, where some expression does not fit, the lack of a
general register. -/
theorem compile_of_plain (o : Options) {source : String} {s : Shader}
    (parsed : Shader.parse o.stage source = .ok s) (plain : s.plain = true) :
    (∃ p, compile o source = .ok p) ∨
      (∃ distance : Int, 2 ^ 31 ≤ distance ∧
        compile o source = .error (.layout (.longJump distance))) ∨
      (s.fits = false ∧ compile o source = .error (.layout (.noRegister .general))) := by
  cases run : compile o source with
  | ok p => exact .inl ⟨p, rfl⟩
  | error e =>
    rcases cause_of_error o parsed run with ⟨distance, far, rfl⟩ | ⟨unfit, rfl⟩ | ⟨form, contained, -⟩
    · exact .inr (.inl ⟨distance, far, rfl⟩)
    · exact .inr (.inr ⟨unfit, rfl⟩)
    · rw [Shader.forms_of_plain plain] at contained
      cases contained

/-- A choice between a dynamic element and a call. -/
def choiceSource : String :=
  "float f; int i; export void main() \x7b if (i < 3) \x7b f = g_normal[i] * 2; \x7d "
    ++ "else \x7b f = max(f, 1.0); \x7d \x7d"

/-- A sum of four dynamic elements that associates to the right. -/
def fourElementsSource : String :=
  "float f; int i; export void main() \x7b f = g_normal[i] + (g_normal[i] + (g_normal[i] + "
    ++ "g_normal[i])); \x7d"

set_option maxRecDepth 100000 in
theorem plain_choiceSource :
    (Shader.parse .vertex choiceSource).toOption.any Shader.plain = true := by decide +kernel

theorem compile_choiceSource : ∃ s, Shader.parse .vertex choiceSource = .ok s ∧ s.plain = true ∧
    ((∃ p, compile {} choiceSource = .ok p) ∨
      (∃ distance : Int, 2 ^ 31 ≤ distance ∧
        compile {} choiceSource = .error (.layout (.longJump distance))) ∨
      (s.fits = false ∧ compile {} choiceSource = .error (.layout (.noRegister .general)))) := by
  have h := plain_choiceSource
  cases parsed : Shader.parse .vertex choiceSource with
  | error e =>
    rw [parsed] at h
    cases h
  | ok s =>
    rw [parsed] at h
    have plain : s.plain = true := by simpa [Except.toOption] using h
    exact ⟨s, rfl, plain, compile_of_plain {} parsed plain⟩

/-- The error that a compilation ends with. -/
def errorOf (o : Options) (source : String) : Option Error :=
  match compile o source with
  | .ok _ => none
  | .error e => some e

set_option maxRecDepth 100000 in
/-- **Four addresses are one too many**: three registers hold the elements
on the left, and the fourth the index of the last one. -/
theorem compile_fourElementsSource :
    (Shader.parse .vertex fourElementsSource).toOption.any Shader.plain = true ∧
      errorOf {} fourElementsSource = some (.layout (.noRegister .general)) := by
  decide +kernel

/-- **Parsing and lowering agree on the tree.** A tree is malformed only by
a form that some function contains, and unsupported only by a call of a
function of the shader or by a comparison of vectors or matrices. No lane,
address or place that no instruction encodes is ever at fault, but for the
missing place of a call without a value that is compared, and every
function of the stage is supported. -/
theorem form_of_refusal (o : Options) {source : String} {s : Shader}
    (parsed : Shader.parse o.stage source = .ok s) :
    (∀ fault, compile o source = .error (.malformedTree fault) →
      (.whileLoop ∈ s.forms ∧ fault = .whileLoop) ∨ (.forLoop ∈ s.forms ∧ fault = .forLoop) ∨
      (∃ op, .comparison op ∈ s.forms ∧ fault = .relationalValue op) ∨
      (∃ name, .functionName name ∈ s.forms ∧ fault = .noStorage name) ∨
      (.voidComparison ∈ s.forms ∧ fault = .noOperand .none)) ∧
    ∀ feature, compile o source = .error (.unsupported feature) →
      (.userCall ∈ s.forms ∧ feature = .functionCall) ∨
      (.vectorComparison ∈ s.forms ∧ feature = .vectorComparison) := by
  constructor
  · intro fault run
    rcases cause_of_error o parsed run with ⟨distance, -, same⟩ | ⟨-, same⟩ | ⟨form, contained, same⟩
    · cases same
    · cases same
    · cases form with
      | whileLoop =>
        cases same
        exact .inl ⟨contained, rfl⟩
      | forLoop =>
        cases same
        exact .inr (.inl ⟨contained, rfl⟩)
      | comparison op =>
        cases same
        exact .inr (.inr (.inl ⟨op, contained, rfl⟩))
      | functionName name =>
        cases same
        exact .inr (.inr (.inr (.inl ⟨name, contained, rfl⟩)))
      | voidComparison =>
        cases same
        exact .inr (.inr (.inr (.inr ⟨contained, rfl⟩)))
      | vectorComparison | userCall => cases same
  · intro feature run
    rcases cause_of_error o parsed run with ⟨distance, -, same⟩ | ⟨-, same⟩ | ⟨form, contained, same⟩
    · cases same
    · cases same
    · cases form with
      | userCall =>
        cases same
        exact .inl ⟨contained, rfl⟩
      | vectorComparison =>
        cases same
        exact .inr ⟨contained, rfl⟩
      | _ => cases same

theorem eq_error_of_errorOf {o : Options} {source : String} {e : Error}
    (h : errorOf o source = some e) : compile o source = .error e := by
  unfold errorOf at h
  split at h
  · cases h
  · next run =>
    cases h
    exact run

/-- A choice by a comparison. -/
def comparisonSource (lhs rhs : String) : String :=
  "export void main() \x7b if (" ++ lhs ++ " == " ++ rhs ++ ") \x7b g_world_normal = g_normal; "
    ++ "\x7d \x7d"

theorem exists_parsed {stage : Stage} {source : String}
    (h : (Shader.parse stage source).toOption.isSome = true) :
    ∃ s, Shader.parse stage source = .ok s := by
  cases parsed : Shader.parse stage source with
  | error e =>
    rw [parsed] at h
    cases h
  | ok s => exact ⟨s, rfl⟩

set_option maxRecDepth 100000 in
/-- Two comparisons that parse, are refused, and are there to be blamed. -/
theorem form_of_refusal_comparisons :
    (∃ s, Shader.parse .vertex (comparisonSource "nop(1)" "nop(2)") = .ok s ∧
      compile {} (comparisonSource "nop(1)" "nop(2)") = .error (.malformedTree (.noOperand .none)) ∧
      .voidComparison ∈ s.forms) ∧
    ∃ s, Shader.parse .vertex (comparisonSource "g_position" "g_normal") = .ok s ∧
      compile {} (comparisonSource "g_position" "g_normal") = .error (.unsupported .vectorComparison) ∧
      .vectorComparison ∈ s.forms := by
  constructor
  · obtain ⟨s, parsed⟩ : ∃ s, Shader.parse .vertex (comparisonSource "nop(1)" "nop(2)") = .ok s :=
      exists_parsed (by decide +kernel)
    have refused : compile {} (comparisonSource "nop(1)" "nop(2)") =
        .error (.malformedTree (.noOperand .none)) := eq_error_of_errorOf (by decide +kernel)
    exact ⟨s, parsed, refused, by simpa using (form_of_refusal {} parsed).1 _ refused⟩
  · obtain ⟨s, parsed⟩ : ∃ s,
        Shader.parse .vertex (comparisonSource "g_position" "g_normal") = .ok s :=
      exists_parsed (by decide +kernel)
    have refused : compile {} (comparisonSource "g_position" "g_normal") =
        .error (.unsupported .vectorComparison) := eq_error_of_errorOf (by decide +kernel)
    exact ⟨s, parsed, refused, by simpa using (form_of_refusal {} parsed).2 _ refused⟩

end Program

end Shading
