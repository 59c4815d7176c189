import Shading.Program
import Shading.Proofs.Lowering.Statement

/-!
# Functions are lowered

Lowering gives places to the globals of a shader first, and to the
variables of a function when it comes to that function. Each of these is
a course that starts from the tables with the new places already in them
(`Rehouses`), and what had a place before keeps it. When a function is
done its registers are free again and only the globals are at home, so
the next function starts as the one before it did.
-/

namespace Shading

open LoweringState

variable {d : Declarations} {placed placed' placed'' : SymbolId → Prop}
  {s t u : LoweringState} {rs rs' : List Location}

/-! ## New homes -/

/-- A course does not depend on the places of variables. -/
theorem LoweringState.Leads.relabel {held : List Lease} (h : s.Leads t rs held) (d : Declarations) :
    Leads { s with declarations := d } { t with declarations := d } rs held where
  ok := ⟨h.ok.layout, h.ok.assembly, h.ok.agrees, h.ok.ascending, h.ok.pooled, h.ok.division⟩
  stage := h.stage
  placement := h.placement
  declarations := rfl
  function := h.function
  assembly := h.assembly
  layout := h.layout
  scopes := h.scopes
  constants := h.constants
  division := h.division

theorem LoweringState.Houses.mono (h : s.Houses d placed) (sub : ∀ id, placed' id → placed id) :
    s.Houses d placed' :=
  ⟨h.functions, h.symbols, fun id v hid => h.homes id v (sub id hid),
    fun id id' v v' other hid hid' => h.apart id id' v v' other (sub id hid) (sub id' hid')⟩

/-- **Some variables are given homes** on the way from one state to
another. -/
structure LoweringState.Rehouses (d : Declarations) (placed placed' : SymbolId → Prop)
    (s t : LoweringState) (rs : List Location) : Prop where
  leads : Leads { s with declarations := t.declarations } t rs []
  /-- What had a home keeps it. -/
  same : ∀ id, placed id → t.declarations.symbols.get? id = s.declarations.symbols.get? id
  houses : t.Houses d placed'
  more : ∀ id, placed id → placed' id

namespace LoweringState.Rehouses

theorem refl (ok : s.Ok) (houses : s.Houses d placed) : Rehouses d placed placed s s [] :=
  ⟨.refl ok, fun _ _ => rfl, houses, fun _ h => h⟩

theorem trans (h : Rehouses d placed placed' s t rs) (h' : Rehouses d placed' placed'' t u rs') :
    Rehouses d placed placed'' s u (rs ++ rs') where
  leads := by simpa using (h.leads.relabel u.declarations).trans h'.leads
  same := fun id hid => (h'.same id (h.more id hid)).trans (h.same id hid)
  houses := h'.houses
  more := fun id hid => h'.more id (h.more id hid)

/-- The start of the course, with the new places in its tables. -/
theorem start (h : Rehouses d placed placed' s t rs) (houses : s.Houses d placed) :
    Houses { s with declarations := t.declarations } d placed where
  functions := h.houses.functions
  symbols := h.houses.symbols
  homes := fun id v hid hv => houses.homes id v hid ((h.same id hid).symm.trans hv)
  apart := fun id id' v v' other hid hid' hv hv' => houses.apart id id' v v' other hid hid'
    ((h.same id hid).symm.trans hv) ((h.same id' hid').symm.trans hv')

end LoweringState.Rehouses

theorem SymbolTable.get?_place (t : SymbolTable) (id id' : SymbolId) (l : Location) :
    (t.place id l).get? id' =
      if id = id' then (t.get? id').map fun v => { v with location := l } else t.get? id' := by
  simp only [place, get?, List.getElem?_modify]
  split <;> simp

/-- Tables in which a symbol has a new place. -/
def Declarations.settle (d : Declarations) (id : SymbolId) (l : Location) : Declarations :=
  { d with symbols := d.symbols.place id l }

/-- A new place is a home. -/
theorem LoweringState.Fresh.isHome {l : Location} (h : s.Fresh l) : l.IsHome := by
  cases l <;> trivial

/-- **A variable moves into a new place.** -/
theorem LoweringState.Houses.settle {id : SymbolId} {v : Symbol} {l : Location}
    (houses : s.Houses d placed) (leads : s.Leads t rs []) (found : d.symbols.get? id = some v)
    (new : ¬ placed id) (places : Lower.Places s t v.ty l) :
    Rehouses d placed (fun x => placed x ∨ x = id) s
      { t with declarations := t.declarations.settle id l } rs := by
  have lookup (x : SymbolId) : (t.declarations.settle id l).symbols.get? x =
      if id = x then (t.declarations.symbols.get? x).map fun v => { v with location := l }
      else t.declarations.symbols.get? x := SymbolTable.get?_place _ _ _ _
  have later := houses.leads leads
  obtain ⟨l₀, known⟩ := later.symbols id v found
  have mine : (t.declarations.settle id l).symbols.get? id = some { v with location := l } := by
    rw [lookup, if_pos rfl, known]
    rfl
  have other {x : SymbolId} (ne : x ≠ id) : (t.declarations.settle id l).symbols.get? x =
      t.declarations.symbols.get? x := by rw [lookup, if_neg ne.symm]
  -- The new home is fresh, and every older one was kept when it was given out.
  have elsewhere {x : SymbolId} {w : Symbol} (hx : placed x)
      (hw : (t.declarations.settle id l).symbols.get? x = some w) :
      w.location.Apart w.ty.size v.ty.size l := by
    have ne : x ≠ id := fun same => new (same ▸ hx)
    rw [other ne, leads.declarations] at hw
    exact apart_of_fresh (houses.homes x w hx hw).2.2 places.fresh
  refine
    { leads := leads.relabel _
      same := fun x hx => ?_
      houses :=
        { functions := later.functions
          symbols := fun x w hw => ?_
          homes := fun x w hx hw => ?_
          apart := fun x y w w' ne hx hy hw hw' => ?_ }
      more := fun x hx => .inl hx }
  · rw [other fun same => new (same ▸ hx), leads.declarations]
  · by_cases here : x = id
    · subst here
      rw [found] at hw
      cases hw
      exact ⟨l, mine⟩
    · obtain ⟨k, hk⟩ := later.symbols x w hw
      exact ⟨k, (other here).trans hk⟩
  · by_cases here : x = id
    · subst here
      rw [mine] at hw
      cases hw
      exact ⟨places.fresh.isHome, places.fits, places.keeps⟩
    · exact later.homes x w (hx.resolve_right here) ((other here).symm.trans hw)
  · by_cases hereX : x = id <;> by_cases hereY : y = id
    · exact absurd (hereX.trans hereY.symm) ne
    · subst hereX
      rw [mine] at hw
      cases hw
      exact (elsewhere (hy.resolve_right hereY) hw').symm
    · subst hereY
      rw [mine] at hw'
      cases hw'
      exact elsewhere (hx.resolve_right hereX) hw
    · exact later.apart x y w w' ne (hx.resolve_right hereX) (hy.resolve_right hereY)
        ((other hereX).symm.trans hw) ((other hereY).symm.trans hw')

namespace Lower

variable {E : Error → Prop} {g : FunctionId}

/-! ## Parameters and locals -/

/-- **An action gives a variable of a function a home**, whatever has a
home before. -/
def Homes (d : Declarations) (g : FunctionId) (E : Error → Prop) (action : SymbolId → Lower Unit)
    (id : SymbolId) : Prop :=
  ∀ (s : LoweringState) (placed : SymbolId → Prop), s.Ok → s.Houses d placed → ¬ placed id →
    d.IsVariableOf g id → Ends (action id) s
      (fun _ t => ∃ rs, Rehouses d placed (fun x => placed x ∨ x = id) s t rs) E

/-- The type of a variable is the same in the tables of the parser. -/
theorem symbolTy_eq (houses : s.Houses d placed) {id : SymbolId} {v : Symbol}
    (found : d.symbols.get? id = some v) : s.declarations.symbolTy id = v.ty := by
  obtain ⟨l, known⟩ := houses.symbols id v found
  exact (Declarations.symbolTy_of_get? known).trans rfl

theorem placeParameter_homes (id : SymbolId) : Homes d g E placeParameter id := by
  intro s placed ok houses new isVariable
  obtain ⟨v, found, -, -, -, storage⟩ := isVariable
  rw [placeParameter_def]
  refine .bindGet ?_
  rw [symbolTy_eq houses found]
  refine .bind (place_ends (.refl ok) storage) ?_
  rintro l t ⟨h, places⟩
  exact .intro rfl ⟨_, houses.settle h found new places⟩

theorem placeLocal_homes (id : SymbolId) : Homes d g E placeLocal id := by
  intro s placed ok houses new isVariable
  obtain ⟨v, found, -, -, -, storage⟩ := isVariable
  rw [placeLocal_def]
  refine .bindGet ?_
  rw [symbolTy_eq houses found]
  have settled {l : Location} {t : LoweringState} {rs : List Location} (h : s.Leads t rs [])
      (places : Places s t v.ty l) : Ends (setLocation id l) t
        (fun _ u => ∃ rs, Rehouses d placed (fun x => placed x ∨ x = id) s u rs) E :=
    .intro rfl ⟨rs, houses.settle h found new places⟩
  cases s.placement with
  | memoryFirst =>
    refine .bind (placeInMemory_ends (.refl ok) storage) ?_
    rintro l t ⟨h, places, -⟩
    exact settled h places
  | registerFirst =>
    refine .bind (place_ends (.refl ok) storage) ?_
    rintro l t ⟨h, places⟩
    exact settled h places

/-- Variables are given homes one after the other. -/
theorem forM_homes {action : SymbolId → Lower Unit} (homes : ∀ id, Homes d g E action id) :
    ∀ (ids : List SymbolId) (s : LoweringState) (placed : SymbolId → Prop), s.Ok →
      s.Houses d placed → (∀ id ∈ ids, ¬ placed id ∧ d.IsVariableOf g id) → ids.Nodup →
      Ends (ids.forM action) s
        (fun _ t => ∃ rs, Rehouses d placed (fun x => placed x ∨ x ∈ ids) s t rs) E
  | [], s, placed, ok, houses, _, _ =>
    .pure ⟨[], { Rehouses.refl ok houses with
      houses := houses.mono (by simp)
      more := fun _ h => .inl h }⟩
  | id :: ids, s, placed, ok, houses, vars, nodup => by
    obtain ⟨new, isVariable⟩ := vars id List.mem_cons_self
    obtain ⟨notLater, nodup⟩ := List.nodup_cons.1 nodup
    refine .bind (homes id s placed ok houses new isVariable) ?_
    rintro _ t ⟨rs, h⟩
    have later : ∀ x ∈ ids, ¬ (placed x ∨ x = id) ∧ d.IsVariableOf g x := fun x hx => by
      obtain ⟨newX, isVariableX⟩ := vars x (List.mem_cons_of_mem id hx)
      refine ⟨?_, isVariableX⟩
      rintro (old | rfl)
      · exact newX old
      · exact notLater hx
    refine (forM_homes homes ids t _ h.leads.ok h.houses later nodup).mono ?_ fun _ h => h
    rintro _ u ⟨rs', h'⟩
    exact ⟨rs ++ rs', { h.trans h' with
      houses := h'.houses.mono fun x hx => by simpa [or_assoc] using hx
      more := fun x hx => .inl hx }⟩

/-! ## Functions -/

/-- The state in which the code of a function starts. -/
def entered (s : LoweringState) (id : FunctionId) : LoweringState :=
  { s with assembly := { keepListing := s.assembly.keepListing }, function := some id,
           transcript := [] }

theorem ok_entered (ok : s.Ok) (id : FunctionId) : (entered s id).Ok :=
  ⟨ok.layout, Assembly.sound_nil _, ok.agrees, ok.ascending, ok.pooled, ok.division⟩

theorem houses_entered (h : s.Houses d placed) (id : FunctionId) :
    (opened (entered s id)).Houses d placed :=
  ⟨h.functions, h.symbols, h.homes, h.apart⟩

/-- What a function sees are the globals and its own variables. -/
theorem sees_iff (sound : d.Sound) {f : Function} (known : d.functions.get? g = some f)
    {id : SymbolId} (sees : d.Sees (some g) id) : d.Sees none id ∨ id ∈ f.variables := by
  obtain ⟨v, found, kind, visible⟩ := sees
  rcases visible with scope | ⟨scope, owner, -⟩
  · exact .inl ⟨v, found, kind, .inl scope⟩
  · obtain ⟨g', f', owner', known', listed⟩ := sound.owned id v found scope
    rw [owner] at owner'
    cases owner'
    rw [known] at known'
    cases known'
    exact .inr listed

/-- The variables of a function are no globals. -/
theorem not_sees (sound : d.Sound) {f : Function} (known : d.functions.get? g = some f)
    {id : SymbolId} (listed : id ∈ f.variables) : ¬ d.Sees none id := by
  rintro ⟨v, found, -, visible⟩
  obtain ⟨w, found', -, scope, -⟩ := sound.listed g f known id listed
  rw [found] at found'
  cases found'
  rcases visible with isGlobal | ⟨-, -, some⟩
  · rw [isGlobal] at scope
    cases scope
  · cases some

/-- **The variables of a function move in**, parameters first. -/
theorem variables_ends (sound : d.Sound) {f : Function} (known : d.functions.get? g = some f)
    (settled : s.Settled d none) {α : Type} {rest : Lower α} {Q : α → LoweringState → Prop}
    (next : ∀ t rs, Rehouses d (d.Sees none) (d.Sees (some g)) (opened (entered s g)) t rs →
      Ends rest t Q E) : Ends (do
      f.parameters.forM placeParameter
      f.locals.forM placeLocal
      rest) (opened (entered s g)) Q E := by
  have houses := houses_entered settled.houses g
  have nodup := List.nodup_append.1 (sound.nodup g f known)
  have listed := sound.listed g f known
  refine .bind (forM_homes (g := g) placeParameter_homes f.parameters _ _
    (ok_opened (ok_entered settled.ok g)) houses (fun id hid => ?_) nodup.1) ?_
  · have mine : id ∈ f.variables := List.mem_append_left _ hid
    exact ⟨not_sees sound known mine, listed id mine⟩
  rintro _ t ⟨rs, h⟩
  refine .bind (forM_homes (g := g) placeLocal_homes f.locals t _ h.leads.ok h.houses
    (fun id hid => ?_) nodup.2.1) ?_
  · have mine : id ∈ f.variables := List.mem_append_right _ hid
    refine ⟨?_, listed id mine⟩
    rintro (old | parameter)
    · exact not_sees sound known mine old
    · exact nodup.2.2 id parameter id hid rfl
  rintro _ u ⟨rs', h'⟩
  have all := h.trans h'
  refine next u (rs ++ rs') { all with
    houses := h'.houses.mono fun id hid => ?_
    more := fun id ⟨v, found, kind, visible⟩ => ?_ }
  · rcases sees_iff sound known hid with old | mine
    · exact .inl (.inl old)
    · rcases List.mem_append.1 mine with parameter | own
      · exact .inl (.inr parameter)
      · exact .inr own
  · rcases visible with scope | ⟨-, -, some⟩
    · exact ⟨v, found, kind, .inl scope⟩
    · cases some

/-- **A typed function is lowered**, and the next one can be. -/
theorem function_ends (sound : d.Sound) {f : Function} (known : d.functions.get? g = some f)
    {body : List Statement}
    (far : ∀ distance : Int, 2 ^ 31 ≤ distance → E (.layout (.longJump distance)))
    (settled : s.Settled d none) (typed : Statement.AllTyped d g body)
    (refused : ∀ form ∈ Statement.allForms d body, E form.refusal)
    (fits : Statement.allFit body = true ∨ E (.layout (.noRegister .general))) :
    Ends (function g body) s (fun _ t => t.Settled d none) E := by
  rw [function_eq]
  refine .bind (.modify rfl : Ends (modify _) _ (fun _ t => t = entered s g) E) ?_
  rintro _ _ rfl
  refine .bindGet ?_
  have lists : (entered s g).declarations.functions.get? g = some f := by
    rw [← known]
    exact congrArg (FunctionTable.get? · g) settled.houses.functions
  rw [lists]
  -- the tables have gained the places of the locals, and house the globals as before
  refine .bind (Q := fun _ t => ∃ d' : Declarations,
    ({ entered s g with declarations := d' } : LoweringState).Leads t [] [] ∧
      Houses { entered s g with declarations := d' } d (d.Sees none)) ?_ ?_
  · unfold inScope withScope
    refine .bind (.intro (enterScope_eq (entered s g)) ⟨rfl, rfl⟩ : Ends enterScope _
      (fun id t => id = s.scopes.length ∧ t = opened (entered s g)) E) ?_
    rintro _ _ ⟨rfl, rfl⟩
    refine .bind (Q := fun _ t => ∃ rs, ∃ d' : Declarations,
      (opened { entered s g with declarations := d' }).Leads t rs [] ∧
        Houses { entered s g with declarations := d' } d (d.Sees none)) ?_ ?_
    · refine variables_ends sound known settled fun t rs h => ?_
      have poised : t.Settled d (some g) :=
        settled_of_leads h.leads settled.quiet settled.free h.houses
      refine .bindGet ?_
      have called : t.assembly.Leads (t.assembly.call "trampoline").2 :=
        Assembly.leads_write poised.ok.assembly ⟨rfl, rfl⟩
      refine .bind (.modify (.ofAssembly poised.ok called t.transcript) :
        Ends (modify _) t (fun _ u => t.Leads u [] []) E) fun _ t₁ h₁ => ?_
      refine .bind (statements_steady sound far body t₁ (settled_leads poised h₁) typed refused fits)
        fun _ t₂ h₂ => ?_
      refine .bind (write_ends (.refl h₂.ok) ⟨rfl, rfl⟩) fun _ t₃ h₃ => ?_
      have there := (h.leads.step h₁).step (h₂.step h₃)
      obtain ⟨functions, symbols, homes, apart⟩ := h.start (houses_entered settled.houses g)
      exact .pure ⟨rs, t.declarations, there, functions, symbols, homes, apart⟩
    rintro call t ⟨rs, d', h, houses⟩
    have ok := ((Leads.refl (ok_entered settled.ok g)).relabel d').ok
    have close := leads_close (E := E) ok h
    refine .bind close ?_
    rintro _ u ⟨h', -⟩
    exact .pure ⟨d', h', houses⟩
  rintro call t ⟨d', h, houses⟩
  refine .bind (.modify rfl : Ends (modify _) _
    (fun _ u => u = { t with function := none }) E) ?_
  rintro _ _ rfl
  have after : t.Settled d none :=
    settled_of_leads h settled.quiet settled.free (houses.leads h)
  obtain ⟨⟨ok, quiet, houses⟩, free⟩ := after
  exact .pure ⟨⟨⟨ok.layout, ok.assembly, ok.agrees, ok.ascending, ok.pooled, ok.division⟩, quiet,
    ⟨houses.functions, houses.symbols, houses.homes, houses.apart⟩⟩, free⟩

end Lower

end Shading
