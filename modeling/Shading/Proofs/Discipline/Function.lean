import Shading.Proofs.Discipline.Statement
import Shading.Proofs.Lowering.Function

/-!
# Functions along a course

The variables of a function move in before there is code
(`LoweringState.Moving`). When the last of them has a home, the state is one
to lower statements from, whatever the regime, and the body is a course
that ends with the return of the function. A function leaves the state in
which it found it, apart from code, constants and division slots
(`LoweringState.Standing`).
-/

namespace Shading

open LoweringState Regime

/-- The slots of what has been placed in memory. -/
def slotsOf (hs : List Holding) : List Slot := hs.filterMap fun p => p.2.slot? p.1.size

theorem mem_slotsOf {hs : List Holding} {slot : Slot} :
    slot ∈ slotsOf hs ↔ ∃ p ∈ hs, p.2.slot? p.1.size = some slot := List.mem_filterMap

/-- Tables differ from those of the parser only by the places that
variables were given. -/
def LoweringState.Relabels (s : LoweringState) (d : Declarations) : Prop :=
  ∀ id v, s.declarations.symbols.get? id = some v →
    ∃ w, d.symbols.get? id = some w ∧ v = { w with location := v.location }

/-- **The variables of a function are moving in**: those of `placed` have
homes, the globals in advance and the others in the scope of the function,
and no code has been written. -/
structure LoweringState.Moving (globals staging : List Holding) (d : Declarations) (s : LoweringState)
    (placed : SymbolId → Prop) (o : OpenScope) : Prop where
  ok : s.Ok
  houses : s.Houses d placed
  relabels : s.Relabels d
  entries : s.assembly.entries = []
  quiet : ∀ e ∈ s.transcript, (∃ n scope, e = .opened n scope) ∨ ∃ n, ∃ p : Holding, e = .placed n p.1 p.2
  frames : Transcript.frames s.transcript = [slotsOf o.placed]
  temporaries : ∀ p ∈ o.placed, Lower.Temporary p.2
  leases : o.leases = []
  homed : ∀ id v, placed id → s.declarations.symbols.get? id = some v →
    (v.ty, v.location) ∈ o.placed ∨ (v.ty, v.location) ∈ globals
  tidy : s.Tidy (globals ++ staging) [] [o]

/-- **The conditions on a regime** in which the code of a function is
run. -/
structure Regime.Suits (R : Regime) (globals : List Holding) (body : List Statement) : Prop where
  sound : R.Sound
  identical : R.Identical
  globals : R.globals = slotsOf globals
  assigned : ∀ id ∈ Statement.allAssigned body, R.assigned id

namespace LoweringState.Moving

variable {globals staging : List Holding} {d : Declarations} {s t : LoweringState}
  {placed : SymbolId → Prop} {o : OpenScope} {R : Regime}

theorem noEmission (h : s.Moving globals staging d placed o) {es : List LoweringEvent}
    {i : Instruction Nat} {l : Layout} (suffix : (.emitted i l :: es) <:+ s.transcript) : False := by
  rcases h.quiet _ (suffix.subset List.mem_cons_self) with ⟨_, _, eq⟩ | ⟨_, _, eq⟩ <;> cases eq

/-- Transcripts without leases and emissions. -/
theorem views (es : List LoweringEvent)
    (quiet : ∀ e ∈ es, (∃ n scope, e = .opened n scope) ∨ ∃ n, ∃ p : Holding, e = .placed n p.1 p.2)
    (slots : List Slot) : Transcript.emitted es = [] ∧ Transcript.spills es = [] ∧
      ∀ r, Transcript.origin? slots es r = none := by
  induction es with
  | nil => exact ⟨rfl, rfl, fun _ => rfl⟩
  | cons e es ih =>
    obtain ⟨emitted, spills, origin⟩ := ih fun e he => quiet e (List.mem_cons_of_mem _ he)
    rcases quiet e List.mem_cons_self with ⟨n, scope, rfl⟩ | ⟨n, p, rfl⟩
    · exact ⟨emitted, spills, origin⟩
    · exact ⟨emitted, spills, origin⟩

/-- **A variable moves in.** -/
theorem settle {id : SymbolId} {v : Symbol} {out : Location} (h : s.Moving globals staging d placed o)
    (leads : s.Leads t out.own []) (places : Lower.Places s t v.ty out)
    (temporary : Lower.Temporary out) (assembly : t.assembly = s.assembly)
    (transcript : t.transcript = .placed (s.scopes.length - 1) v.ty out :: s.transcript)
    (found : d.symbols.get? id = some v) (new : ¬ placed id) :
    LoweringState.Moving globals staging d { t with declarations := t.declarations.settle id out }
      (fun x => placed x ∨ x = id) { o with placed := (v.ty, out) :: o.placed } := by
  -- Only the symbol that is placed changes in the tables, so what is asked of a symbol
  -- is told by whether it is this one.
  have rehouses := h.houses.settle leads found new places
  have lookup (x : SymbolId) : (t.declarations.settle id out).symbols.get? x =
      if id = x then (s.declarations.symbols.get? x).map fun v => { v with location := out }
      else s.declarations.symbols.get? x := by
    rw [← leads.declarations]
    exact SymbolTable.get?_place _ _ _ _
  have relabels (x : SymbolId) (w : Symbol) (hw : (t.declarations.settle id out).symbols.get? x = some w) :
      ∃ w', s.declarations.symbols.get? x = some w' ∧
        (id = x ∧ w = { w' with location := out } ∨ id ≠ x ∧ w = w') := by
    rw [lookup] at hw
    split at hw
    · next same =>
      obtain ⟨w', known, rfl⟩ := Option.map_eq_some_iff.1 hw
      exact ⟨w', known, .inl ⟨same, rfl⟩⟩
    · next other => exact ⟨w, hw, .inr ⟨other, rfl⟩⟩
  refine
    { ok := rehouses.leads.ok
      houses := rehouses.houses
      relabels := fun x w hw => ?_
      entries := ?_
      quiet := fun e he => ?_
      frames := ?_
      temporaries := fun p hp => ?_
      leases := h.leases
      homed := fun x w hx hw => ?_
      tidy := (h.tidy.place h.ok leads places.fresh places.keeps transcript).congr rfl rfl rfl rfl }
  · obtain ⟨w', known, ⟨-, rfl⟩ | ⟨-, rfl⟩⟩ := relabels x w hw <;>
      obtain ⟨w₀, found, eq⟩ := h.relabels x _ known
    · exact ⟨w₀, found, by rw [eq]⟩
    · exact ⟨w₀, found, eq⟩
  · change t.assembly.entries = []
    rw [assembly, h.entries]
  · change e ∈ t.transcript at he
    rw [transcript] at he
    rcases List.mem_cons.1 he with rfl | he
    -- The event that is new is the placing of this variable; no instruction has been
    -- emitted.
    · exact .inr ⟨_, (v.ty, out), rfl⟩
    · exact h.quiet e he
  · change Transcript.frames t.transcript = _
    rw [transcript, Transcript.frames_placed (by rw [h.frames, h.tidy.given]; rfl), h.frames]
    cases slot : out.slot? v.ty.size <;> simp [slotsOf, slot, Transcript.addSlots]
  · rcases List.mem_cons.1 hp with rfl | hp
    · exact temporary
    · exact h.temporaries p hp
  · obtain ⟨w', known, ⟨here, rfl⟩ | ⟨other, rfl⟩⟩ := relabels x w hw
    · subst here
      obtain ⟨w₀, found', eq⟩ := h.relabels id w' known
      rw [found] at found'
      cases found'
      rw [eq]
      exact .inl List.mem_cons_self
    · exact (h.homed x w (hx.resolve_right (Ne.symm other)) known).imp_left (List.mem_cons_of_mem _)

/-- **The state is tidy** with the variables that have moved in. -/
theorem tidyWith (h : s.Moving globals staging d placed o) {vars : List Holding}
    (homed : ∀ p ∈ vars, p ∈ o.placed ∨ p ∈ globals) : s.Tidy (globals ++ staging) vars [o] :=
  { h.tidy with
    separate := { h.tidy.separate with
      present := fun p hp => by
        rcases homed p hp with mine | isGlobal
        · simp [holdings, mine]
        · simp [holdings, isGlobal] }
    emissions := fun _ _ _ suffix => (h.noEmission suffix).elim }

/-- Slots of the scope of the function. -/
theorem live (h : s.Moving globals staging d placed o) {slot : Slot} (hs : slot ∈ slotsOf o.placed) :
    slot.region = .local ∧ slot.stop ≤ s.localTop := by
  obtain ⟨p, hp, place⟩ := mem_slotsOf.1 hs
  have kept := h.tidy.kept p (by simp [holdings, hp])
  rcases h.temporaries p hp with ⟨c, id, eq⟩ | ⟨offset, eq⟩ <;> rw [eq] at place kept
  · cases c <;> cases place
  · cases place
    exact ⟨rfl, kept⟩

theorem slots_apart {hs : List Holding} (apart : hs.Pairwise Holding.Apart) :
    (slotsOf hs).Pairwise Slot.Apart := by
  refine apart.filterMap _ fun p q apart slot hp slot' hq region => ?_
  obtain ⟨ty, l⟩ := p
  obtain ⟨ty', l'⟩ := q
  cases l <;> cases hp <;> cases l' <;> cases hq <;> first | exact apart | cases region

/-- **When all variables have moved in**, the state keeps the rules of every
regime. -/
theorem fine (h : s.Moving globals staging d placed o) {body : List Statement}
    (suits : R.Suits globals body)
    (all : ∀ id, d.Sees s.function id → placed id) : R.Fine s := by
  obtain ⟨emitted, spills, origin⟩ := views s.transcript h.quiet R.globals
  -- No instruction has been emitted yet, so the only pairs of machines are those that a
  -- call starts with.
  have code : R.code s = [] := by
    rw [Regime.code, h.entries]
    rfl
  have reaches {pair : Pair} (at_ : R.Reaches s pair) : ∃ a b, R.start a b ∧ pair = .running a b := by
    obtain ⟨a, b, start, run⟩ := at_
    rw [code] at run
    exact ⟨a, b, start, run.symm⟩
  have visible (x : Symbol) (w : Symbol) (eq : x = { w with location := x.location }) :
      x.kind = w.kind ∧ (x.VisibleIn s.function ↔ w.VisibleIn s.function) := by
    rw [eq]
    exact ⟨rfl, Iff.rfl⟩
  exact
    { regime := suits.sound
      ok := h.ok
      entries := ⟨[], .inl h.entries, by simp⟩
      instructions := by rw [h.entries, emitted]; rfl
      allowed := fun es i l suffix => (h.noEmission suffix).elim
      apart := by
        rw [Transcript.live, h.frames, List.flatten_singleton]
        refine slots_apart ?_
        have apart := h.tidy.separate.apart
        simp only [holdings, List.flatMap_cons, List.flatMap_nil, List.append_nil] at apart
        exact (List.pairwise_append.1 apart).1
      live := fun slot hs => by
        rw [Transcript.live, h.frames, List.flatten_singleton] at hs
        exact h.live hs
      housed := fun id v slot known isVariable seen place => by
        obtain ⟨w, found, eq⟩ := h.relabels id v known
        obtain ⟨kind, same⟩ := visible v w eq
        have mine := all id ⟨w, found, kind ▸ isVariable, same.1 seen⟩
        rcases h.homed id v mine known with own | isGlobal
        · refine .inl ?_
          rw [Transcript.live, h.frames, List.flatten_singleton]
          exact mem_slotsOf.2 ⟨_, own, place⟩
        · exact .inr (suits.globals ▸ mem_slotsOf.2 ⟨_, isGlobal, place⟩)
      spills := by simp [spills]
      globals := fun slot hs => by
        have bound := (suits.sound.global slot hs).1
        rw [suits.globals] at hs
        obtain ⟨p, hp, place⟩ := mem_slotsOf.1 hs
        have kept := h.tidy.kept p (by simp [holdings, hp])
        obtain ⟨ty, l⟩ := p
        cases l <;> cases place
        · exact kept.1
        · cases bound
      containers := fun r slot found => by
        rw [origin r] at found
        cases found
      admitted := fun _ at_ => by
        obtain ⟨a, b, -, eq⟩ := reaches at_
        cases eq
      grounded := fun _ a b progress => by
        rcases progress with at_ | ⟨l, at_⟩
        · obtain ⟨a, b, start, eq⟩ := reaches at_
          cases eq
          obtain ⟨ha, hb⟩ := suits.sound.grounds a b start
          exact ⟨ha, hb, fun contained => contained.constants a b start⟩
        · obtain ⟨_, _, -, eq⟩ := reaches at_
          cases eq
      returned := fun _ a b at_ => by
        obtain ⟨_, _, -, eq⟩ := reaches at_
        cases eq }

/-- **Statements can be lowered** when all variables have moved in. -/
theorem footing (h : s.Moving globals staging d placed o) {body : List Statement}
    (suits : R.Suits globals body) {f : Option FunctionId} (function : s.function = f)
    (all : ∀ id, d.Sees f id ↔ placed id) : R.Footing (fun _ => False) d f s where
  ready := ⟨h.fine suits fun id seen => (all id).1 (function ▸ seen), fun _ none => none.elim, by
    rw [h.frames, h.tidy.given]
    rfl⟩
  houses := h.houses.mono fun id => (all id).1
  function := function
  globals := fun covers slot hs k inside => by
    rw [suits.globals] at hs
    obtain ⟨p, hp, place⟩ := mem_slotsOf.1 hs
    have kept := h.tidy.kept p (by simp [holdings, hp])
    have bound := (suits.sound.global slot (suits.globals ▸ hs)).1
    obtain ⟨ty, l⟩ := p
    cases l <;> cases place
    · obtain ⟨low, high⟩ := inside
      simp only [offsetOf] at low high
      refine ⟨fun x hx => ?_, .inl (Nat.lt_of_lt_of_le high kept.1)⟩
      rcases kept.2 x hx with below | above
      · exact .inl (Nat.lt_of_lt_of_le high below)
      · exact .inr (Nat.le_trans above low)
    · cases bound
  within := by
    rw [h.frames]
    exact List.cons_ne_nil _ _
  identical := suits.identical

end LoweringState.Moving

namespace Lower

variable {globals staging : List Holding} {d : Declarations} {s t : LoweringState}
  {placed : SymbolId → Prop} {o : OpenScope} {R : Regime} {g : FunctionId}

/-! ## Parameters and locals -/

/-- **An action lets a variable move in.** -/
def MovesIn (globals staging : List Holding) (d : Declarations) (action : SymbolId → Lower Unit)
    (id : SymbolId) : Prop :=
  ∀ (s : LoweringState) (placed : SymbolId → Prop) (o : OpenScope),
    s.Moving globals staging d placed o → ¬ placed id →
    (∃ v, d.symbols.get? id = some v) → Results (action id) s fun _ t =>
      ∃ rs o', Rehouses d placed (fun x => placed x ∨ x = id) s t rs ∧
        t.Moving globals staging d (fun x => placed x ∨ x = id) o'

/-- A new place is given to a variable. -/
theorem setLocation_moves {id : SymbolId} {v : Symbol} {out : Location}
    (moving : s.Moving globals staging d placed o) (found : d.symbols.get? id = some v)
    (new : ¬ placed id) (leads : s.Leads t out.own []) (places : Places s t v.ty out)
    (temporary : Temporary out) (assembly : t.assembly = s.assembly)
    (transcript : t.transcript = .placed (s.scopes.length - 1) v.ty out :: s.transcript) :
    Results (setLocation id out) t fun _ u =>
      ∃ rs o', Rehouses d placed (fun x => placed x ∨ x = id) s u rs ∧
        u.Moving globals staging d (fun x => placed x ∨ x = id) o' :=
  .intro rfl ⟨out.own, _, moving.houses.settle leads found new places,
    moving.settle leads places temporary assembly transcript found new⟩

/-- A variable is placed where there is room. -/
theorem place_moves {id : SymbolId} {v : Symbol} (moving : s.Moving globals staging d placed o)
    (found : d.symbols.get? id = some v) (new : ¬ placed id) :
    Results (do setLocation id (← place v.ty)) s fun _ u =>
      ∃ rs o', Rehouses d placed (fun x => placed x ∨ x = id) s u rs ∧
        u.Moving globals staging d (fun x => placed x ∨ x = id) o' := by
  intro _ u run
  obtain ⟨out, t, placing, rest⟩ := bind_eq_ok.1 run
  obtain ⟨storage, temporary, assembly, transcript⟩ := place_rests moving.ok v.ty out t placing
  obtain ⟨leads, places⟩ :=
    (place_ends (E := fun _ => True) (.refl moving.ok) storage).of_ok placing
  exact setLocation_moves moving found new leads places temporary assembly transcript _ u rest

/-- A variable is placed in memory. -/
theorem placeInMemory_moves {id : SymbolId} {v : Symbol} (moving : s.Moving globals staging d placed o)
    (found : d.symbols.get? id = some v) (new : ¬ placed id) :
    Results (do setLocation id (← placeInMemory v.ty)) s fun _ u =>
      ∃ rs o', Rehouses d placed (fun x => placed x ∨ x = id) s u rs ∧
        u.Moving globals staging d (fun x => placed x ∨ x = id) o' := by
  intro _ u run
  obtain ⟨out, t, placing, rest⟩ := bind_eq_ok.1 run
  obtain ⟨storage, assembly, transcript⟩ := placeInMemory_rests v.ty out t placing
  obtain ⟨leads, places, offset, rfl⟩ :=
    (placeInMemory_ends (E := fun _ => True) (.refl moving.ok) storage).of_ok placing
  exact setLocation_moves moving found new leads places (.inr ⟨offset, rfl⟩) assembly transcript _ u rest

theorem placeParameter_moves (id : SymbolId) : MovesIn globals staging d placeParameter id := by
  intro s placed o moving new ⟨v, found⟩
  rw [placeParameter_def]
  refine .bindGet ?_
  rw [symbolTy_eq moving.houses found]
  exact place_moves moving found new

theorem placeLocal_moves (id : SymbolId) : MovesIn globals staging d placeLocal id := by
  intro s placed o moving new ⟨v, found⟩
  rw [placeLocal_def]
  refine .bindGet ?_
  rw [symbolTy_eq moving.houses found]
  cases s.placement with
  | memoryFirst => exact placeInMemory_moves moving found new
  | registerFirst => exact place_moves moving found new

/-- **Variables move in** one after the other. -/
theorem forM_moves {action : SymbolId → Lower Unit} (moves : ∀ id, MovesIn globals staging d action id) :
    ∀ (ids : List SymbolId) (s : LoweringState) (placed : SymbolId → Prop) (o : OpenScope),
      s.Moving globals staging d placed o →
      (∀ id ∈ ids, ¬ placed id ∧ ∃ v, d.symbols.get? id = some v) → ids.Nodup →
      Results (ids.forM action) s fun _ t => ∃ rs o', Rehouses d placed (fun x => placed x ∨ x ∈ ids) s t rs ∧
        t.Moving globals staging d (fun x => placed x ∨ x ∈ ids) o'
  | [], s, placed, o, moving, _, _ => by
    have same : (fun x => placed x ∨ x ∈ ([] : List SymbolId)) = placed := by
      funext x
      simp
    rw [same]
    exact .pure ⟨[], o, .refl moving.ok moving.houses, moving⟩
  | id :: ids, s, placed, o, moving, vars, nodup => by
    obtain ⟨new, known⟩ := vars id List.mem_cons_self
    obtain ⟨notLater, nodup⟩ := List.nodup_cons.1 nodup
    have same : (fun x => placed x ∨ x ∈ id :: ids) = fun x => (placed x ∨ x = id) ∨ x ∈ ids := by
      funext x
      simp [or_assoc]
    refine (moves id s placed o moving new known).bind ?_
    rintro _ t ⟨rs, o', rehouses, moving⟩
    refine (forM_moves moves ids t _ o' moving (fun x hx => ⟨?_, (vars x (List.mem_cons_of_mem _ hx)).2⟩)
      nodup).mono ?_
    · rintro (old | rfl)
      · exact (vars x (List.mem_cons_of_mem _ hx)).1 old
      · exact notLater hx
    rintro _ u ⟨rs', o'', rehouses', moving⟩
    rw [same]
    exact ⟨rs ++ rs', o'', rehouses.trans rehouses', moving⟩

/-! ## Functions -/

/-- **A state between two functions**: the globals are at home, in registers
and slots that nothing else is in, and nothing is under way. -/
structure Standing (globals staging : List Holding) (d : Declarations) (s : LoweringState) : Prop where
  settled : s.Settled d none
  relabels : s.Relabels d
  scopes : s.scopes = []
  homed : ∀ id v, d.Sees none id → s.declarations.symbols.get? id = some v → (v.ty, v.location) ∈ globals
  apart : (globals ++ staging).Pairwise Holding.Apart
  kept : ∀ p ∈ globals ++ staging, s.Keeps p.1.size p.2 ∧ p.2.IsHome
  global : ∀ slot ∈ slotsOf (globals ++ staging), slot.region = .global

/-- A state between two functions in which a function is entered. -/
theorem Standing.moving (h : Standing globals staging d s) (g : FunctionId) :
    (opened (entered s g)).Moving globals staging d (d.Sees none) ⟨s.localTop, [], []⟩ := by
  have quiet : s.layout.leased = [] := List.length_eq_zero_iff.1 (Nat.le_zero.1 h.settled.free)
  have kept : ∀ p ∈ globals ++ staging, (entered s g).Keeps p.1.size p.2 := fun p hp => by
    have kept := (h.kept p hp).1
    revert kept
    cases p.2 <;> exact id
  have tidy : (entered s g).Tidy (globals ++ staging) [] [] :=
    { scopes := rfl
      given := h.scopes
      separate := ⟨nofun, h.apart, .nil, nofun⟩
      kept := kept
      homes := fun p hp => (h.kept p hp).2
      leased := by
        change s.layout.leased.Perm []
        rw [quiet]
      saves := .nil
      settled := nofun
      saved := nofun
      spills := nofun
      emissions := fun es i l suffix => by cases List.suffix_nil.1 suffix }
  exact
    { ok := ok_opened (ok_entered h.settled.ok g)
      houses := houses_entered h.settled.houses g
      relabels := h.relabels
      entries := rfl
      quiet := fun e he => .inl ⟨_, _, List.mem_singleton.1 he⟩
      frames := rfl
      temporaries := nofun
      leases := rfl
      homed := fun id v seen known => .inr (h.homed id v seen known)
      tidy := tidy.opened }

/-- The steps in which the variables of a function move in. -/
def moveIn (f : Function) : Lower Unit := do
  f.parameters.forM placeParameter
  f.locals.forM placeLocal

/-- **The variables of a function move in**, parameters first. -/
theorem moveIn_results (sound : d.Sound) {f : Function} (known : d.functions.get? g = some f)
    (standing : Standing globals staging d s) :
    Results (moveIn f) (opened (entered s g)) fun _ t => ∃ rs o,
      Rehouses d (d.Sees none) (d.Sees (some g)) (opened (entered s g)) t rs ∧
        t.Moving globals staging d (d.Sees (some g)) o := by
  have nodup := List.nodup_append.1 (sound.nodup g f known)
  have listed (id : SymbolId) (mine : id ∈ f.variables) : ∃ v, d.symbols.get? id = some v := by
    obtain ⟨v, found, -⟩ := sound.listed g f known id mine
    exact ⟨v, found⟩
  refine (forM_moves placeParameter_moves f.parameters _ _ _ (standing.moving g) (fun id hid => ?_)
    nodup.1).bind ?_
  · have mine : id ∈ f.variables := List.mem_append_left _ hid
    exact ⟨not_sees sound known mine, listed id mine⟩
  rintro _ t ⟨rs, o, rehouses, moving⟩
  refine (forM_moves placeLocal_moves f.locals t _ o moving (fun id hid => ?_) nodup.2.1).mono ?_
  · have mine : id ∈ f.variables := List.mem_append_right _ hid
    refine ⟨?_, listed id mine⟩
    rintro (old | parameter)
    · exact not_sees sound known mine old
    · exact nodup.2.2 id parameter id hid rfl
  rintro _ u ⟨rs', o', rehouses', moving⟩
  have same : (fun x => (d.Sees none x ∨ x ∈ f.parameters) ∨ x ∈ f.locals) = d.Sees (some g) := by
    funext id
    refine propext ⟨fun h => ?_, fun h => ?_⟩
    · have own (mine : id ∈ f.variables) : d.Sees (some g) id := by
        obtain ⟨v, found, kind, scope, owner, -⟩ := sound.listed g f known id mine
        exact ⟨v, found, kind, .inr ⟨scope, owner, rfl⟩⟩
      rcases h with (isGlobal | parameter) | own'
      · obtain ⟨v, found, kind, visible⟩ := isGlobal
        rcases visible with scope | ⟨-, -, some⟩
        · exact ⟨v, found, kind, .inl scope⟩
        · cases some
      · exact own (List.mem_append_left _ parameter)
      · exact own (List.mem_append_right _ own')
    · rcases sees_iff sound known h with isGlobal | mine
      · exact .inl (.inl isGlobal)
      · rcases List.mem_append.1 mine with parameter | own'
        · exact .inl (.inr parameter)
        · exact .inr own'
  have all := rehouses.trans rehouses'
  rw [same] at all moving
  exact ⟨rs ++ rs', o', all, moving⟩

/-- **The steps of a function**: its variables move in, the trampoline is
called, the statements are lowered, and a return ends the code. -/
structure Runs (s : LoweringState) (g : FunctionId) (f : Function) (body : List Statement) (u w t : LoweringState) :
    Prop where
  moveIn : moveIn f (opened (entered s g)) = .ok ((), u)
  body : statements body (passed u (.call "trampoline") u.assembly.labels) = .ok ((), w)
  close : ∃ x, leaveScope s.scopes.length (passed w .ret w.assembly.labels) = .ok ((), x) ∧ t = { x with function := none }

theorem runs_of_function {f : Function} {body : List Statement} {call : Nat}
    (known : s.declarations.functions.get? g = some f) (run : function g body s = .ok (call, t)) :
    ∃ u w, Runs s g f body u w t ∧ call = u.assembly.size + 1 := by
  rw [function_eq] at run
  obtain ⟨_, s₁, modified, run⟩ := bind_eq_ok.1 run
  obtain rfl : entered s g = s₁ := modify_eq_ok.1 modified
  obtain ⟨_, s₂, got, run⟩ := bind_eq_ok.1 run
  obtain ⟨rfl, rfl⟩ := get_eq_ok.1 got
  have known : (entered s g).declarations.functions.get? g = some f := known
  simp only [known, Option.map_some, Option.getD_some] at run
  obtain ⟨_, x, within, run⟩ := bind_eq_ok.1 run
  unfold inScope withScope at within
  obtain ⟨id, s₃, open_, within⟩ := bind_eq_ok.1 within
  obtain ⟨rfl, rfl⟩ := Prod.mk.inj (Except.ok.inj ((enterScope_eq (entered s g)).symm.trans open_))
  obtain ⟨_, v, inner, within⟩ := bind_eq_ok.1 within
  obtain ⟨_, x', close, within⟩ := bind_eq_ok.1 within
  obtain ⟨rfl, rfl⟩ := pure_eq_ok.1 within
  obtain ⟨_, u₁, parameters, inner⟩ := bind_eq_ok.1 inner
  obtain ⟨_, u, locals, rest⟩ := bind_eq_ok.1 inner
  obtain ⟨_, u', got, called⟩ := bind_eq_ok.1 rest
  obtain ⟨rfl, rfl⟩ := get_eq_ok.1 got
  obtain ⟨_, u₂, modified, coded⟩ := bind_eq_ok.1 called
  obtain rfl := modify_eq_ok.1 modified
  obtain ⟨_, w, body, ended⟩ := bind_eq_ok.1 coded
  obtain ⟨_, w', ret, ended⟩ := bind_eq_ok.1 ended
  obtain ⟨rfl, rfl⟩ := pure_eq_ok.1 ended
  have ret : (⟨(), passed w .ret w.assembly.labels⟩ : Unit × LoweringState) = ⟨(), w'⟩ :=
    Except.ok.inj ret
  obtain rfl := (Prod.mk.inj ret).2
  obtain ⟨_, t', modified, run⟩ := bind_eq_ok.1 run
  obtain rfl := modify_eq_ok.1 modified
  obtain ⟨rfl, rfl⟩ := pure_eq_ok.1 run
  exact ⟨_, w, ⟨bind_eq_ok.2 ⟨_, u₁, parameters, locals⟩, body, x', close, rfl⟩, rfl⟩

/-- A regime for nothing in particular. -/
def idle (globals : List Holding) (s : LoweringState) : Regime where
  rsqrt := id
  base := 0
  size := 0
  globalSize := s.globalTop
  localOffset := 16 * s.globalTop
  localSize := 0
  globals := slotsOf globals
  constants := []
  assigned := fun _ => True
  start := fun _ _ => False
  permits := fun _ _ _ => true

theorem idle_suits (standing : Standing globals staging d s) (body : List Statement) :
    (idle globals s).Suits globals body where
  sound :=
    { aligned := rfl
      localAligned := Nat.mul_mod_right 16 _
      behind := Nat.le_mul_of_pos_left _ (by decide)
      global := fun slot hs => by
        obtain ⟨p, hp, place⟩ := mem_slotsOf.1 hs
        have region := standing.global slot (mem_slotsOf.2 ⟨p, List.mem_append_left _ hp, place⟩)
        have kept := (standing.kept p (List.mem_append_left _ hp)).1
        obtain ⟨ty, l⟩ := p
        cases l <;> cases place
        · exact ⟨rfl, kept.1⟩
        · cases region
      apart := Moving.slots_apart (List.pairwise_append.1 standing.apart).1
      pooled := nofun
      grounds := nofun
      kind := .inl nofun }
  identical := nofun
  globals := rfl
  assigned := fun _ _ => trivial

/-- **The code of a function is complete**: it keeps the rules of a regime,
and each of its jumps has a mark. -/
structure Complete (R : Regime) (v : LoweringState) : Prop where
  fine : R.Fine v
  bound : ∀ l, (∃ e ∈ v.assembly.entries, e.jump? = some l) → ∃ e ∈ v.assembly.entries, e.mark? = some l

/-- **What a function comes to**: the state `v` at the end of its code, and
the state `t` behind it. -/
structure Coded (globals staging : List Holding) (d : Declarations) (g : FunctionId)
    (body : List Statement) (s v t : LoweringState) : Prop where
  complete : ∀ R : Regime, R.Suits globals body → Complete R v
  entries : ∃ es, v.assembly.entries = .call "trampoline" :: es ++ [.ret]
  function : v.function = some g
  houses : v.Houses d (d.Sees (some g))
  relabels : v.Relabels d
  tidy : ∃ vars o, v.Tidy (globals ++ staging) vars [o] ∧ o.leases = [] ∧
    (∀ id w, d.Sees (some g) id → v.declarations.symbols.get? id = some w → (w.ty, w.location) ∈ vars) ∧
    (∀ p ∈ vars, p ∈ o.placed ∨ p ∈ globals) ∧
    t.transcript = .closed 0 o.scope :: v.transcript
  assembly : t.assembly = v.assembly
  constants : t.constants = v.constants
  division : t.divisionSlots = v.divisionSlots
  declarations : t.declarations = v.declarations
  global : t.layout.globalRegion = v.layout.globalRegion
  localHigh : t.layout.localSize = v.layout.localSize
  localTop : t.localTop = s.localTop
  /-- The course of the function, from tables with the new places. -/
  leads : ∃ x, Leads { entered s g with declarations := t.declarations } x [] [] ∧
    t = { x with function := none }

/-- **The body of a function is a course** that ends with a return, under any
regime that suits. -/
theorem course_of_body (sound : d.Sound) {body : List Statement} (typed : Statement.AllTyped d g body) {o : OpenScope}
    {u w : LoweringState} (moving : u.Moving globals staging d (d.Sees (some g)) o) (function : u.function = some g)
    (run : statements body (passed u (.call "trampoline") u.assembly.labels) = .ok ((), w)) (R : Regime)
    (suits : R.Suits globals body) :
    R.Course (fun _ => False) (passed u (.call "trampoline") u.assembly.labels) w [] [] ∧
      R.Course (fun _ => False) u (passed w .ret w.assembly.labels) [] [] := by
  have footing := moving.footing suits function fun _ => Iff.rfl
  have called := course_call footing.ready moving.entries
  have footing := footing.course called.toPath
  have lowered := statements_results sound body _ footing typed suits.assigned _ w run
  have returned := emitReturn_results (lowered.ready footing.ready) (fun covers a b reaches _ _ k _ =>
    suits.identical.known (.byte k) covers a b reaches) _ _ (rfl : emitReturn w = .ok ((), _))
  exact ⟨lowered.toCourse, (called.step lowered.toCourse).step returned.1⟩

/-- A course that starts without code ends with code whose jumps are bound. -/
theorem complete_of_course {R : Regime} {u v : LoweringState} (course : R.Course (fun _ => False) u v [] [])
    (empty : u.assembly.entries = []) : Complete R v where
  fine := course.fine
  bound := fun l jump => by
    obtain ⟨new, eq, young⟩ := course.leads.assembly.entries
    obtain ⟨e, he, hl⟩ := jump
    refine course.bound l (young e ?_ l (.inl hl)) ⟨e, he, hl⟩
    rwa [eq, empty, List.nil_append] at he

/-- **The next function can be lowered** behind a function that has given back
what it took: the globals are at home as before. -/
theorem Standing.after (standing : Standing globals staging d s) {u x : LoweringState} {rs : List Location}
    (rehouses : Rehouses d (d.Sees none) (d.Sees (some g)) (opened (entered s g)) u rs) (relabels : u.Relabels d)
    (leads : Leads { entered s g with declarations := u.declarations } x [] [])
    (declarations : x.declarations = u.declarations) (scopes : x.scopes = s.scopes) :
    Standing globals staging d { x with function := none } := by
  obtain ⟨functions, symbols, homes, apart⟩ := rehouses.start (houses_entered standing.settled.houses g)
  have start : LoweringState.Houses { entered s g with declarations := u.declarations } d (d.Sees none) :=
    ⟨functions, symbols, homes, apart⟩
  have settled : LoweringState.Settled x d none :=
    settled_of_leads leads standing.settled.quiet standing.settled.free (start.leads leads)
  obtain ⟨⟨ok, quiet, houses⟩, free⟩ := settled
  exact
    { settled := ⟨⟨⟨ok.layout, ok.assembly, ok.agrees, ok.ascending, ok.pooled, ok.division⟩, quiet,
        ⟨houses.functions, houses.symbols, houses.homes, houses.apart⟩⟩, free⟩
      relabels := fun id v known => relabels id v (declarations ▸ known)
      scopes := scopes.trans standing.scopes
      homed := fun id v seen known => by
        have known : x.declarations.symbols.get? id = some v := known
        rw [declarations, rehouses.same id seen] at known
        exact standing.homed id v seen known
      apart := standing.apart
      kept := fun p hp => by
        obtain ⟨kept, home⟩ := standing.kept p hp
        have kept : LoweringState.Keeps { entered s g with declarations := u.declarations } p.1.size p.2 := by
          revert kept
          cases p.2 <;> exact id
        refine ⟨?_, home⟩
        have later := leads.keeps kept
        revert later
        cases p.2 <;> exact id
      global := standing.global }

/-- **A function is lowered**, if it is lowered at all, and the next one can
be. -/
theorem function_coded (sound : d.Sound) {f : Function} (known : d.functions.get? g = some f)
    {body : List Statement} (typed : Statement.AllTyped d g body)
    (standing : Standing globals staging d s) {u w : LoweringState} (runs : Runs s g f body u w t) :
    u.assembly.entries = [] ∧ Standing globals staging d t ∧
      Coded globals staging d g body s (passed w .ret w.assembly.labels) t := by
  obtain ⟨rs, o, rehouses, moving⟩ := moveIn_results sound known standing _ u runs.moveIn
  have function : u.function = some g := rehouses.leads.function
  obtain ⟨x, close, rfl⟩ := runs.close
  have course := course_of_body sound typed moving function runs.body
  obtain ⟨lowered, idles⟩ := course _ (idle_suits standing body)
  have inner : (opened { entered s g with declarations := u.declarations }).Leads
      (passed w .ret w.assembly.labels) rs [] := rehouses.leads.step idles.leads
  have ok : LoweringState.Ok { entered s g with declarations := u.declarations } :=
    ((Leads.refl (ok_entered standing.settled.ok g)).relabel _).ok
  have declarations : w.declarations = u.declarations := idles.leads.declarations
  have left := leave_eq inner
  have leads := ((leads_close (E := fun _ => True) ok inner).of_ok left).1
  obtain rfl := (Prod.mk.inj (Except.ok.inj (left.symm.trans close))).2
  have regions := Layout.foldl_giveBack_unchanged w.layout rs
  refine ⟨moving.entries, standing.after rehouses moving.relabels leads declarations rfl, ?_⟩
  obtain ⟨es, eq, -⟩ := lowered.leads.assembly.entries
  -- What the function placed is in the one scope that it opened, which is closed behind it.
  obtain ⟨o', grows, tidy⟩ := idles.tidy _ (o.placed ++ globals) o []
    (moving.tidyWith fun p hp => List.mem_append.1 hp)
  have scopes : w.scopes = ⟨s.layout.localRegion.top, rs⟩ :: s.scopes := inner.scopes
  have given : w.scopes = [o'.scope] := tidy.given
  rw [given] at scopes
  exact
    { complete := fun R suits => complete_of_course (course R suits).2 moving.entries
      entries := ⟨es, by
        change w.assembly.entries ++ [CodeEntry.ret] = _
        rw [eq]
        change (u.assembly.entries ++ [CodeEntry.call "trampoline"] ++ es) ++ [CodeEntry.ret] = _
        rw [moving.entries]
        rfl⟩
      function := idles.leads.function.trans function
      houses := moving.houses.leads idles.leads
      relabels := fun id v known => moving.relabels id v (declarations ▸ known)
      tidy := ⟨o.placed ++ globals, o', tidy, List.perm_nil.1 (by simpa [moving.leases] using grows.leases),
        fun id v seen known => List.mem_append.2 (moving.homed id v seen (declarations ▸ known)),
        fun p hp => (List.mem_append.1 hp).imp_left fun mine => grows.placed.subset mine, by
          rw [(List.cons.inj scopes).1, closed]
          exact congrArg (LoweringEvent.closed · _ :: _) (congrArg List.length standing.scopes)⟩
      assembly := rfl
      constants := rfl
      division := rfl
      declarations := rfl
      global := regions.2.2
      localHigh := by
        change (rs.foldl Layout.giveBack w.layout).localRegion.highWater = w.layout.localRegion.highWater
        rw [regions.2.1]
      localTop := rfl
      leads := ⟨_, by
        have : w.declarations = u.declarations := declarations
        change Leads { entered s g with declarations := w.declarations } _ [] []
        rw [this]
        exact leads, rfl⟩ }

end Lower

end Shading
