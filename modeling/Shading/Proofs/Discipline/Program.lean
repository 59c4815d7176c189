import Shading.Object
import Shading.Proofs.Discipline.Function
import Shading.Proofs.Lowering.Shader

/-!
# Programs along a course

The globals of a shader move in before there is any code
(`LoweringState.Hosts`): each is in global memory, or in a register that
has a staging slot there. Then the functions are lowered one after the
other. The state at the end of a function's code *precedes* that at the
end of the program (`LoweringState.Precedes`): constants that are added
later lie further on, and slots that are handed out stay handed out. So
the regime of the whole program covers the code of each function.
-/

namespace Shading

open LoweringState

/-! ## Globals -/

namespace GlobalSlot

/-- What is placed for the value of a global. -/
def home (g : GlobalSlot) : Holding := (g.ty, g.location)

/-- A global without its place: its name, its type, and whether the stage
declares it. -/
def description (g : GlobalSlot) : String × Ty × Bool := (g.name, g.ty, g.intrinsic)

/-- What is placed for a global in a register to be loaded from. -/
def stage? (g : GlobalSlot) : Option Holding := g.staging.map fun l => (.vec4, l)

/-- **A global has a place**: one in global memory, or a register with a
staging slot. -/
inductive Placed (g : GlobalSlot) : Prop where
  | memory (offset : Nat) (home : g.location = .globalMemory offset) (staging : g.staging = none)
  | register (c : RegisterClass) (id offset : Nat) (pool : id ∈ c.pool) (ofTy : RegisterClass.ofTy? g.ty = some c)
      (home : g.location = c.location id) (staging : g.staging = some (.globalMemory offset))
      (aligned : offset % 16 = 0)

end GlobalSlot

/-- A symbol without its place. -/
def Symbol.description (v : Symbol) : String × Ty × Bool := (v.name, v.ty, v.intrinsic)

/-- The variables among some symbols. -/
def Declarations.variablesAmong (d : Declarations) (ids : List SymbolId) : List Symbol :=
  (ids.filterMap d.symbols.get?).filter fun v => v.kind = .variable

/-- **The global variables of a shader**, in the order of their declaration,
with those of its stage. -/
def Declarations.globalVariables (d : Declarations) : List Symbol := d.variablesAmong d.symbols.globals

/-- The places of the values of some globals. -/
def homesOf (gs : List GlobalSlot) : List Holding := gs.map GlobalSlot.home

/-- The places that some globals are loaded from. -/
def stagesOf (gs : List GlobalSlot) : List Holding := gs.filterMap GlobalSlot.stage?

theorem Holding.Apart.symm {p q : Holding} (h : p.Apart q) : q.Apart p := Location.Apart.symm h

/-- Another global comes with its home and its staging slot. -/
theorem perm_places_concat (gs : List GlobalSlot) (g : GlobalSlot) :
    (homesOf (gs ++ [g]) ++ stagesOf (gs ++ [g])).Perm
      (g.home :: (g.stage?.toList ++ (homesOf gs ++ stagesOf gs))) := by
  have stages : stagesOf (gs ++ [g]) = stagesOf gs ++ g.stage?.toList := by
    cases h : g.stage? <;> simp [stagesOf, h]
  rw [stages, homesOf, List.map_append, List.map_singleton, List.append_assoc, List.singleton_append]
  refine List.perm_middle.trans (.cons _ ?_)
  rw [← List.append_assoc]
  exact List.perm_append_comm

/-- **Some globals have moved in**, and nothing else has happened. -/
structure LoweringState.Hosts (gs : List GlobalSlot) (d : Declarations) (s : LoweringState)
    (placed : SymbolId → Prop) : Prop where
  ok : s.Ok
  houses : s.Houses d placed
  relabels : s.Relabels d
  scopes : s.scopes = []
  leased : s.layout.leased = []
  constants : s.constants.slots = []
  division : s.divisionSlots = none
  each : ∀ g ∈ gs, g.Placed ∧ g.location.Fits g.ty
  homed : ∀ id v, placed id → s.declarations.symbols.get? id = some v → (v.ty, v.location) ∈ homesOf gs
  apart : (homesOf gs ++ stagesOf gs).Pairwise Holding.Apart
  kept : ∀ p ∈ homesOf gs ++ stagesOf gs, s.Keeps p.1.size p.2 ∧ p.2.IsHome

namespace LoweringState.Hosts

variable {gs : List GlobalSlot} {d : Declarations} {s t : LoweringState} {placed : SymbolId → Prop}

theorem mono (h : s.Hosts gs d placed) {placed' : SymbolId → Prop} (sub : ∀ id, placed' id → placed id) :
    s.Hosts gs d placed' :=
  { h with houses := h.houses.mono sub, homed := fun id v hid => h.homed id v (sub id hid) }

/-- **A global moves in**, with its staging slot. -/
theorem settle (h : s.Hosts gs d placed) {g : GlobalSlot} {id : SymbolId} {v : Symbol} {rs : List Location}
    (leads : s.Leads t rs []) (found : d.symbols.get? id = some v) (new : ¬ placed id) (ty : g.ty = v.ty)
    (places : Lower.Places s t v.ty g.location) (own : g.Placed)
    (stage : ∀ p, g.stage? = some p → s.Fresh p.2 ∧ t.Keeps p.1.size p.2) (constants : t.constants = s.constants)
    (division : t.divisionSlots = s.divisionSlots) (scopes : t.scopes = s.scopes) :
    Hosts (gs ++ [g]) d { t with declarations := t.declarations.settle id g.location }
      (fun x => placed x ∨ x = id) := by
  -- Only the symbol that is placed changes in the tables, so what is asked of a symbol
  -- is told by whether it is this one.
  have rehouses := h.houses.settle leads found new places
  have lookup (x : SymbolId) : (t.declarations.settle id g.location).symbols.get? x =
      if id = x then (s.declarations.symbols.get? x).map fun v => { v with location := g.location }
      else s.declarations.symbols.get? x := by
    rw [← leads.declarations]
    exact SymbolTable.get?_place _ _ _ _
  have relabels (x : SymbolId) (w : Symbol) (hw : (t.declarations.settle id g.location).symbols.get? x = some w) :
      ∃ w', s.declarations.symbols.get? x = some w' ∧
        (id = x ∧ w = { w' with location := g.location } ∨ id ≠ x ∧ w = w') := by
    rw [lookup] at hw
    split at hw
    · next same =>
      obtain ⟨w', known, rfl⟩ := Option.map_eq_some_iff.1 hw
      exact ⟨w', known, .inl ⟨same, rfl⟩⟩
    · next other => exact ⟨w, hw, .inr ⟨other, rfl⟩⟩
  -- A global in a register has its staging in memory, so the new home and its staging
  -- are apart by their kinds.
  have staged (p : Holding) (hp : g.stage? = some p) : ∃ offset, p = (.vec4, .globalMemory offset) := by
    obtain ⟨l, staging, rfl⟩ := Option.map_eq_some_iff.1 hp
    cases own with
    | memory _ _ none =>
      rw [none] at staging
      cases staging
    | register _ _ offset _ _ _ some =>
      rw [some] at staging
      cases staging
      exact ⟨offset, rfl⟩
  have mem (p : Holding) : p ∈ homesOf (gs ++ [g]) ++ stagesOf (gs ++ [g]) ↔
      p = g.home ∨ g.stage? = some p ∨ p ∈ homesOf gs ++ stagesOf gs := by
    rw [(perm_places_concat gs g).mem_iff, List.mem_cons, List.mem_append, Option.mem_toList]
  have none : t.layout.leased = [] := by
    have same : t.layout.leased.Perm s.layout.leased := by simpa using leads.layout.leased
    exact List.perm_nil.1 (h.leased ▸ same)
  refine
    { ok := rehouses.leads.ok
      houses := rehouses.houses
      relabels := fun x w hw => ?_
      scopes := scopes.trans h.scopes
      leased := none
      constants := (congrArg ConstantPool.slots constants).trans h.constants
      division := division.trans h.division
      each := fun g' hg' => ?_
      homed := fun x w hx hw => ?_
      apart := ?_
      kept := fun p hp => ?_ }
  · obtain ⟨w', known, ⟨-, rfl⟩ | ⟨-, rfl⟩⟩ := relabels x w hw <;>
      obtain ⟨w₀, found, eq⟩ := h.relabels x _ known
    · exact ⟨w₀, found, by rw [eq]⟩
    · exact ⟨w₀, found, eq⟩
  · rcases List.mem_append.1 hg' with old | new
    · exact h.each g' old
    · rw [List.mem_singleton.1 new]
      exact ⟨own, ty ▸ places.fits⟩
  · obtain ⟨w', known, ⟨here, rfl⟩ | ⟨other, rfl⟩⟩ := relabels x w hw
    · subst here
      obtain ⟨w₀, found', eq⟩ := h.relabels id w' known
      rw [found] at found'
      cases found'
      rw [eq]
      exact List.mem_map.2 ⟨g, by simp, by rw [GlobalSlot.home, ty]⟩
    · have old := h.homed x w (hx.resolve_right (Ne.symm other)) known
      rw [homesOf, List.map_append]
      exact List.mem_append_left _ old
  -- All that was placed before was kept, and what is new is apart from what is kept.
  · refine ((perm_places_concat gs g).pairwise_iff Holding.Apart.symm).2 ?_
    refine List.pairwise_cons.2 ⟨fun p hp => ?_, List.pairwise_append.2 ⟨?_, h.apart, fun p hp q hq => ?_⟩⟩
    · rcases List.mem_append.1 hp with stage | old
      · obtain ⟨offset, rfl⟩ := staged p (Option.mem_toList.1 stage)
        cases own with
        | memory _ _ none =>
          rw [GlobalSlot.stage?, none] at stage
          cases stage
        | register c _ _ _ _ home _ =>
          rw [Holding.Apart, GlobalSlot.home, home]
          cases c <;> trivial
      · exact (apart_of_fresh (h.kept p old).1 places.fresh).symm
    · cases g.stage? <;> simp
    · exact (apart_of_fresh (h.kept q hq).1 (stage p (Option.mem_toList.1 hp)).1).symm
  · change t.Keeps p.1.size p.2 ∧ p.2.IsHome
    rcases (mem p).1 hp with rfl | new | old
    · refine ⟨?_, places.fresh.isHome⟩
      rw [GlobalSlot.home, ty]
      exact places.keeps
    · exact ⟨(stage p new).2, (stage p new).1.isHome⟩
    · exact (h.kept p old).imp_left leads.keeps

end LoweringState.Hosts

namespace Lower

variable {gs : List GlobalSlot} {d : Declarations} {placed : SymbolId → Prop} {s t : LoweringState}

/-- **A global moves in**, if there is room. -/
theorem placeGlobal_hosts (h : s.Hosts gs d placed) {id : SymbolId} {v : Symbol}
    (found : d.symbols.get? id = some v) (new : ¬ placed id) (storage : v.ty.size ≠ 0) (l : Location) :
    Results (placeGlobal id { v with location := l }) s fun g t =>
      t.Hosts (gs ++ [g]) d (fun x => placed x ∨ x = id) ∧ g.description = v.description := by
  refine .ofEnds (E := fun _ => True) ?_
  unfold placeGlobal
  refine .bindGet ?_
  dsimp only
  refine placeGlobally_ends h.ok h.scopes storage _ fun out layout rs notLocal places leads => ?_
  refine .bind (.modify rfl : Ends (modify _) _ (fun _ t => t = { s with layout }) _) ?_
  rintro _ _ rfl
  have fresh := places.fresh
  split
  · next register =>
    refine .bind (allocateGlobal_ends leads.ok (.inr (Nat.le_refl 16))) ?_
    rintro _ _ ⟨offset, l', rfl, rfl, above, stop, aligned, more, -⟩
    have later := leads_unscoped leads.ok h.scopes more
    refine .intro rfl ⟨h.settle (g := ⟨v.name, v.ty, out, some (.globalMemory offset), v.intrinsic⟩)
      (leads.step later) found new rfl (places.later later) ?_ ?_ rfl rfl rfl, rfl⟩
    · have fits := places.fits
      have named (c : RegisterClass) (id : Nat) (eq : out = c.location id) (pool : id ∈ c.pool)
          (ofTy : RegisterClass.ofTy? v.ty = some c) :
          GlobalSlot.Placed ⟨v.name, v.ty, out, some (.globalMemory offset), v.intrinsic⟩ :=
        .register c id offset pool ofTy eq rfl aligned
      cases out with
      | register id => exact named .general id rfl fits.2 fits.1
      | simdRegister id => exact named .simd id rfl fits.2 fits.1
      | _ => cases register
    · rintro p ⟨⟩
      refine ⟨Nat.le_trans leads.globalTop_le above, Nat.le_of_eq stop, fun x slots => ?_⟩
      have none := h.division
      rw [show s.divisionSlots = _ from slots] at none
      cases none
  · next memory =>
    refine .intro rfl ⟨h.settle (g := ⟨v.name, v.ty, out, none, v.intrinsic⟩)
      leads found new rfl places ?_ nofun rfl rfl rfl, rfl⟩
    cases out with
    | globalMemory offset => exact .memory offset rfl rfl
    | localMemory offset => exact absurd rfl (notLocal offset)
    | register id => exact absurd rfl memory
    | simdRegister id => exact absurd rfl memory
    | none => exact fresh.elim
    | indirectRegister id => exact fresh.elim
    | registerLane id shift => exact fresh.elim

/-- **The globals move in** one after the other. -/
theorem placeGlobals_hosts (sound : d.Sound) :
    ∀ (ids : List SymbolId) (s : LoweringState) (gs : List GlobalSlot) (placed : SymbolId → Prop),
      s.Hosts gs d placed → (∀ id ∈ ids, ¬ placed id ∧ ∃ v, d.symbols.get? id = some v) → ids.Nodup →
      Results (placeGlobals ids) s fun slots t =>
        t.Hosts (gs ++ slots) d (fun x => placed x ∨ (x ∈ ids ∧ IsVariable d x)) ∧
          slots.map GlobalSlot.description = (d.variablesAmong ids).map Symbol.description
  | [], s, gs, placed, h, _, _ => by
    refine .pure ⟨?_, rfl⟩
    rw [List.append_nil]
    exact h.mono (by simp)
  | id :: ids, s, gs, placed, h, new, nodup => by
    obtain ⟨notLater, nodup⟩ := List.nodup_cons.1 nodup
    have newLater : ∀ x ∈ ids, ¬ placed x ∧ ∃ v, d.symbols.get? x = some v :=
      fun x hx => new x (List.mem_cons_of_mem id hx)
    obtain ⟨newHere, v, found⟩ := new id List.mem_cons_self
    unfold placeGlobals
    refine .bindGet ?_
    obtain ⟨l, known⟩ := h.houses.symbols id v found
    -- The slots come in the order of the names, with the functions among them left out.
    have first : d.variablesAmong (id :: ids) =
        [v].filter (fun v => v.kind = .variable) ++ d.variablesAmong ids := by
      rw [Declarations.variablesAmong, List.filterMap_cons_some found, ← List.singleton_append, List.filter_append]
      rfl
    rw [known, first]
    dsimp only
    split
    · next kind =>
      refine (placeGlobal_hosts h found newHere (sound.storable id v found kind) l).bind ?_
      rintro slot t ⟨moved, described⟩
      refine (placeGlobals_hosts sound ids t _ _ moved (fun x hx => ⟨?_, (newLater x hx).2⟩) nodup).bind ?_
      · rintro (old | rfl)
        · exact (newLater x hx).1 old
        · exact notLater hx
      rintro slots u ⟨moved, described'⟩
      refine .pure ⟨?_, by simp [described, described', kind]⟩
      rw [List.append_cons]
      refine moved.mono fun x hx => ?_
      rcases hx with old | ⟨mem, isVariable⟩
      · exact .inl (.inl old)
      · rcases List.mem_cons.1 mem with rfl | mem
        · exact .inl (.inr rfl)
        · exact .inr ⟨mem, isVariable⟩
    · next kind =>
      have none : [v].filter (fun v => v.kind = .variable) = [] := by simp [kind]
      rw [none, List.nil_append]
      refine (placeGlobals_hosts sound ids s gs placed h newLater nodup).mono ?_
      rintro slots t ⟨moved, described⟩
      refine ⟨moved.mono fun x hx => hx.imp_right ?_, described⟩
      rintro ⟨mem, isVariable⟩
      rcases List.mem_cons.1 mem with rfl | mem
      · obtain ⟨w, found', isVariable⟩ := isVariable
        rw [found] at found'
        cases found'
        exact absurd isVariable kind
      · exact ⟨mem, isVariable⟩

end Lower

/-! ## Functions -/

/-- **A state precedes another one**: what is handed out later lies further
on. -/
structure LoweringState.Precedes (s t : LoweringState) : Prop where
  constants : ∃ added, t.constants.slots = s.constants.slots ++ added ∧ ∀ c ∈ added, s.globalTop ≤ c.2
  division : t.divisionSlots = s.divisionSlots ∨
    (s.divisionSlots = none ∧ ∃ x, t.divisionSlots = some (.at x) ∧ s.globalTop ≤ x)
  globalTop : s.globalTop ≤ t.globalTop
  globalSize : s.layout.globalSize ≤ t.layout.globalSize
  localSize : s.layout.localSize ≤ t.layout.localSize

namespace LoweringState.Precedes

variable {s t u : LoweringState}

theorem refl (s : LoweringState) : s.Precedes s :=
  ⟨⟨[], by simp, by simp⟩, .inl rfl, Nat.le_refl _, Nat.le_refl _, Nat.le_refl _⟩

theorem trans (h : s.Precedes t) (h' : t.Precedes u) : s.Precedes u where
  constants := by
    obtain ⟨added, eq, above⟩ := h.constants
    obtain ⟨added', eq', above'⟩ := h'.constants
    refine ⟨added ++ added', by rw [eq', eq, List.append_assoc], fun c hc => ?_⟩
    rcases List.mem_append.1 hc with hc | hc
    · exact above c hc
    · exact Nat.le_trans h.globalTop (above' c hc)
  division := by
    rcases h.division with same | ⟨none, x, new, above⟩
    · rcases h'.division with same' | ⟨none, x, new, above⟩
      · exact .inl (same'.trans same)
      · exact .inr ⟨same ▸ none, x, new, Nat.le_trans h.globalTop above⟩
    · rcases h'.division with same' | ⟨none', -⟩
      · exact .inr ⟨none, x, same'.trans new, above⟩
      · rw [new] at none'
        cases none'
  globalTop := Nat.le_trans h.globalTop h'.globalTop
  globalSize := Nat.le_trans h.globalSize h'.globalSize
  localSize := Nat.le_trans h.localSize h'.localSize

end LoweringState.Precedes

/-- **The code of a function was lowered** from a state `s` that stood
between two functions. Its code ends in the state `v`, and the function in
the state `t`. -/
structure CompiledFunction.Written (f : CompiledFunction) (globals staging : List Holding) (d : Declarations)
    (g : FunctionId) (body : List Statement) (s v t : LoweringState) : Prop where
  coded : Lower.Coded globals staging d g body s v t
  runs : ∃ h u w, d.functions.get? g = some h ∧ Lower.Runs s g h body u w t
  typed : Statement.AllTyped d g body
  standing : Lower.Standing globals staging d s
  next : Lower.Standing globals staging d t
  assembly : f.assembly = v.assembly
  call : f.trampolineCall = 1
  transcript : f.transcript = t.transcript.reverse

namespace Lower

variable {globals staging : List Holding} {d : Declarations} {s t v : LoweringState} {g : FunctionId}
  {body : List Statement}

theorem Coded.precedes (h : Coded globals staging d g body s v t) : v.Precedes t where
  constants := ⟨[], by rw [h.constants]; simp, by simp⟩
  division := .inl h.division
  globalTop := Nat.le_of_eq (congrArg BumpAllocator.top h.global).symm
  globalSize := Nat.le_of_eq (congrArg BumpAllocator.highWater h.global).symm
  localSize := Nat.le_of_eq h.localHigh.symm

theorem Coded.precedes_start (h : Coded globals staging d g body s v t) : s.Precedes t := by
  obtain ⟨x, leads, rfl⟩ := h.leads
  exact ⟨leads.constants, leads.division, leads.globalTop_le, leads.layout.globalHigh, leads.layout.localHigh⟩

/-- **A function is written** from the state in which it is lowered. -/
theorem written_of_function (sound : d.Sound) {h : Function} (known : d.functions.get? g = some h)
    (typed : Statement.AllTyped d g body) (standing : Standing globals staging d s) {call : Nat}
    (run : function g body s = .ok (call, t)) {f : CompiledFunction} (assembly : f.assembly = t.assembly)
    (start : f.trampolineCall = call) (transcript : f.transcript = t.transcript.reverse) :
    ∃ v, f.Written globals staging d g body s v t := by
  obtain ⟨u, w, runs, rfl⟩ := runs_of_function (by rw [standing.settled.houses.functions]; exact known) run
  obtain ⟨empty, next, coded⟩ := function_coded sound known typed standing runs
  exact ⟨_, coded, ⟨h, u, w, known, runs⟩, typed, standing, next, assembly.trans coded.assembly,
    by simp [start, Assembly.size, empty, Assembly.sizeOf], transcript⟩

/-- **The functions are lowered** one after the other. -/
theorem functions_written (sound : d.Sound) :
    ∀ (items : List Item) (s : LoweringState), Standing globals staging d s → (∀ i ∈ items, i.Typed d) →
      Results (functions items) s fun fs u => Standing globals staging d u ∧ s.Precedes u ∧
        ∀ f ∈ fs, ∃ g w body s v t, .function g f.name w body ∈ items ∧
          f.isExported = (d.functions.get? g).any Function.isExported ∧
          f.Written globals staging d g body s v t ∧ t.Precedes u
  | [], s, standing, _ => .pure ⟨standing, .refl s, by rintro _ ⟨⟩⟩
  | .global _ _ :: items, s, standing, typed => by
    unfold functions
    refine (functions_written sound items s standing fun i hi => typed i (List.mem_cons_of_mem _ hi)).mono ?_
    rintro fs u ⟨standing, precedes, each⟩
    refine ⟨standing, precedes, fun f hf => ?_⟩
    obtain ⟨g, w, body, s', v, t, mem, rest⟩ := each f hf
    exact ⟨g, w, body, s', v, t, List.mem_cons_of_mem _ mem, rest⟩
  | .function id name w body :: items, s, standing, typed => by
    obtain ⟨⟨g, known, -⟩, typedBody⟩ := typed _ List.mem_cons_self
    unfold functions
    intro fs u run
    obtain ⟨call, t, lowered, afterwards⟩ := bind_eq_ok.1 run
    obtain ⟨t₁, t₂, got, collect⟩ := bind_eq_ok.1 afterwards
    obtain ⟨same₁, same₂⟩ := get_eq_ok.1 got
    subst t₁ t₂
    obtain ⟨later, u', rest, done⟩ := bind_eq_ok.1 collect
    obtain ⟨rfl, rfl⟩ := pure_eq_ok.1 done
    obtain ⟨v, written⟩ := written_of_function sound known typedBody standing lowered (f :=
      ⟨name, (t.declarations.functions.get? id).any Function.isExported, t.assembly, call, t.transcript.reverse⟩) rfl rfl rfl
    obtain ⟨standing'', precedes, each⟩ := functions_written sound items t written.next
      (fun i hi => typed i (List.mem_cons_of_mem _ hi)) _ _ rest
    refine ⟨standing'', written.coded.precedes_start.trans precedes, fun f hf => ?_⟩
    rcases List.mem_cons.1 hf with rfl | hf
    · refine ⟨id, w, body, s, v, t, List.mem_cons_self, ?_, written, precedes⟩
      rw [written.next.settled.houses.functions]
    · obtain ⟨g, w, body, s', v, t, mem, rest⟩ := each f hf
      exact ⟨g, w, body, s', v, t, List.mem_cons_of_mem _ mem, rest⟩

/-- The state from which the functions are lowered. -/
theorem Standing.ofHosts {gs : List GlobalSlot} (h : s.Hosts gs d (d.Sees none)) :
    Standing (homesOf gs) (stagesOf gs) d s where
  settled := ⟨⟨h.ok, fun id => by simp [h.leased], h.houses⟩, by simp [h.leased]⟩
  relabels := h.relabels
  scopes := h.scopes
  homed := h.homed
  apart := h.apart
  kept := h.kept
  global := fun slot hs => by
    obtain ⟨p, hp, place⟩ := mem_slotsOf.1 hs
    rcases List.mem_append.1 hp with home | stage
    · obtain ⟨g, hg, rfl⟩ := List.mem_map.1 home
      cases (h.each g hg).1 with
      | memory offset eq _ =>
        rw [GlobalSlot.home, eq] at place
        cases place
        rfl
      | register c id _ _ _ eq _ _ =>
        rw [GlobalSlot.home, eq] at place
        cases c <;> cases place
    · obtain ⟨g, hg, staged⟩ := List.mem_filterMap.1 stage
      obtain ⟨l, staging, rfl⟩ := Option.map_eq_some_iff.1 staged
      cases (h.each g hg).1 with
      | memory _ _ none =>
        rw [none] at staging
        cases staging
      | register _ _ offset _ _ _ some _ =>
        rw [some] at staging
        cases staging
        cases place
        rfl

end Lower

/-! ## Programs -/

/-- **What a program was lowered to**: the state `u` at the end of its
functions. -/
structure Program.Lowered (p : Program) (s : Shader) (u : LoweringState) : Prop where
  typed : s.Typed
  each : ∀ g ∈ p.globals, g.Placed ∧ g.location.Fits g.ty
  described : p.globals.map GlobalSlot.description = s.declarations.globalVariables.map Symbol.description
  standing : Lower.Standing (homesOf p.globals) (stagesOf p.globals) s.declarations u
  constants : p.constants = u.constants
  globalSize : p.globalSize = u.layout.globalSize
  localSize : p.localSize = u.layout.localSize
  /-- Constants lie behind the globals and their staging slots. -/
  behind : ∀ slot ∈ slotsOf (homesOf p.globals ++ stagesOf p.globals), ∀ c ∈ p.constants.slots, slot.stop ≤ c.2
  functions : ∀ f ∈ p.functions, ∃ g w body s' v t, .function g f.name w body ∈ s.items ∧
    f.isExported = (s.declarations.functions.get? g).any Function.isExported ∧
    f.Written (homesOf p.globals) (stagesOf p.globals) s.declarations g body s' v t ∧ t.Precedes u

namespace Program

/-- The lowering behind a program. -/
theorem program_of_ofShader {o : Options} {s : Shader} {p : Program} (run : ofShader o s = .ok p) :
    ∃ u, Lower.program s.items (.start o s) = .ok (p, u) := by
  cases lowered : Lower.program s.items (.start o s) with
  | error e =>
    rw [ofShader, lowered] at run
    cases run
  | ok result =>
    obtain ⟨q, u⟩ := result
    rw [ofShader, lowered] at run
    exact ⟨u, by rw [Except.ok.inj run]⟩

/-- **The globals of a shader move in.** -/
theorem globals_hosts (o : Options) {s : Shader} (typed : s.Typed) :
    Results (Lower.placeGlobals s.declarations.symbols.globals) (.start o s) fun gs t =>
      t.Hosts gs s.declarations (s.declarations.Sees none) ∧
        gs.map GlobalSlot.description = s.declarations.globalVariables.map Symbol.description := by
  have start : (LoweringState.start o s).Hosts [] s.declarations fun _ => False :=
    { ok := Lower.ok_start o s
      houses := ⟨rfl, fun id v found => ⟨v.location, found⟩, fun _ _ h => h.elim, fun _ _ _ _ _ h => h.elim⟩
      relabels := fun id v found => ⟨v, found, rfl⟩
      scopes := rfl
      leased := rfl
      constants := rfl
      division := rfl
      each := fun _ hg => nomatch hg
      homed := fun _ _ h => h.elim
      apart := .nil
      kept := fun _ hp => nomatch hp }
  have fresh (id : SymbolId) (hid : id ∈ s.declarations.symbols.globals) :
      ¬ False ∧ ∃ v, s.declarations.symbols.get? id = some v := by
    obtain ⟨v, found, -⟩ := Lower.mem_globals.1 hid
    exact ⟨nofun, v, found⟩
  refine (Lower.placeGlobals_hosts typed.sound _ _ [] _ start fresh (List.nodup_range.filter _)).mono ?_
  rintro gs t ⟨moved, described⟩
  rw [List.nil_append] at moved
  refine ⟨moved.mono fun id => ?_, described⟩
  rintro ⟨v, found, kind, visible⟩
  refine .inr ⟨Lower.mem_globals.2 ⟨v, found, ?_⟩, v, found, kind⟩
  rcases visible with scope | ⟨-, -, some⟩
  · exact scope
  · cases some

/-- **A program that is lowered at all** is lowered by the rules. -/
theorem lowered_of_program (o : Options) {s : Shader} (typed : s.Typed) {p : Program} {u : LoweringState}
    (lowered : Lower.program s.items (.start o s) = .ok (p, u)) : p.Lowered s u := by
  unfold Lower.program at lowered
  obtain ⟨_, _, got, lowered⟩ := bind_eq_ok.1 lowered
  obtain ⟨rfl, rfl⟩ := get_eq_ok.1 got
  obtain ⟨gs, t, placed, lowered⟩ := bind_eq_ok.1 lowered
  obtain ⟨fs, u', functions, lowered⟩ := bind_eq_ok.1 lowered
  obtain ⟨_, _, got, lowered⟩ := bind_eq_ok.1 lowered
  obtain ⟨rfl, rfl⟩ := get_eq_ok.1 got
  obtain ⟨rfl, rfl⟩ := pure_eq_ok.1 lowered
  obtain ⟨hosts, described⟩ := globals_hosts o typed _ _ placed
  obtain ⟨standing, precedes, each⟩ := Lower.functions_written typed.sound s.items t (.ofHosts hosts)
    typed.items _ _ functions
  refine ⟨typed, hosts.each, described, standing, rfl, rfl, rfl, fun slot hs c hc => ?_, each⟩
  obtain ⟨added, eq, above⟩ := precedes.constants
  rw [hosts.constants, List.nil_append] at eq
  refine Nat.le_trans ?_ (above c (eq ▸ hc))
  obtain ⟨q, hq, place⟩ := mem_slotsOf.1 hs
  have kept := (hosts.kept q hq).1
  have region := (Lower.Standing.ofHosts hosts).global slot hs
  obtain ⟨ty, l⟩ := q
  cases l <;> cases place
  · exact kept.1
  · cases region

/-- A source text that compiles reads as a shader. -/
theorem shader_of_compile {o : Options} {source : String} {p : Program} (run : compile o source = .ok p) :
    ∃ s, Shader.parse o.stage source = .ok s ∧ ofShader o s = .ok p := by
  cases parsed : Shader.parse o.stage source with
  | error e => simp [compile, parsed, bind, Except.bind] at run
  | ok s => exact ⟨s, rfl, by simpa [compile, parsed, bind, Except.bind] using run⟩

/-- **A source text that compiles** is lowered by the rules. -/
theorem lowered_of_compile {o : Options} {source : String} {p : Program} (run : compile o source = .ok p) :
    ∃ s u, Shader.parse o.stage source = .ok s ∧ p.Lowered s u := by
  obtain ⟨s, parsed, run⟩ := shader_of_compile run
  obtain ⟨u, lowered⟩ := program_of_ofShader run
  exact ⟨s, u, parsed, lowered_of_program o (Shader.typed_of_parse parsed) lowered⟩

/-- A choice between a dynamic element and a division, with globals that
live in registers. -/
def sampleSource : String :=
  "float f; int i; export void main() \x7b if (i < 3) \x7b f = g_normal[i] * 2; \x7d "
    ++ "else \x7b i = i / 2; \x7d \x7d"

def sampleOptions : Options := { placement := .registerFirst }

set_option maxRecDepth 100000 in
theorem compiles_sampleSource : ∃ p, compile sampleOptions sampleSource = .ok p ∧
    p.functions.any (fun f => f.isExported && f.name == entryPoint) = true ∧
    (p.objectLayout 256).localOffset + (p.objectLayout 256).localSize < 2 ^ 31 := by
  have small : (compile sampleOptions sampleSource).toOption.any (fun p =>
      p.functions.any (fun f => f.isExported && f.name == entryPoint) &&
        decide ((p.objectLayout 256).localOffset + (p.objectLayout 256).localSize < 2 ^ 31)) = true := by
    decide +kernel
  cases compiled : compile sampleOptions sampleSource with
  | error e =>
    rw [compiled] at small
    cases small
  | ok p =>
    rw [compiled] at small
    exact ⟨p, rfl, by simpa [Except.toOption] using small⟩

end Program

end Shading
