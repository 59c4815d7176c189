import Shading.Proofs.Frames.Calls
import Shading.Proofs.Frames.Subscripts

/-!
# Variables that reside in memory

Where memory comes first, globals and locals take no registers. A function
without parameters then lowers each of its statements with all registers free
and all of its variables in memory.
-/

namespace Shading

open LoweringState

/-- **No register has been given out.** -/
def LoweringState.AllFree (s : LoweringState) : Prop := ∀ c, s.layout.free c = RegisterClass.pool c

/-- Variables that occupy no register. -/
def LoweringState.KeepsInMemory (s : LoweringState) (placed : SymbolId → Prop) : Prop :=
  ∀ id v, placed id → s.declarations.symbols.get? id = some v → v.location.isRegister = false

/-- Memory comes first, and no register has been given out. -/
structure LoweringState.Unregistered (s : LoweringState) : Prop where
  first : s.placement = .memoryFirst
  free : s.AllFree

theorem Layout.allocate_free (l : Layout) (r : Region) (n : Nat) (c : RegisterClass) :
    (l.allocate r n).2.free c = l.free c ∧ (l.allocate r n).1.isRegister = false := by
  cases r <;> cases c <;> exact ⟨rfl, rfl⟩

/-- A slot in memory takes no register. -/
theorem Layout.placeInMemory_free {l l' : Layout} {ty : Ty} {r : Region} {out : Location}
    (placed : l.placeInMemory ty r = .ok (out, l')) : (∀ c, l'.free c = l.free c) ∧ out.isRegister = false := by
  unfold placeInMemory at placed
  split at placed
  · cases placed
  · have free (c : RegisterClass) := l.allocate_free r ty.size c
    rw [Except.ok.inj placed] at free
    exact ⟨fun c => (free c).1, (free .general).2⟩

namespace Lower

variable {d : Declarations} {g : FunctionId} {globals staging : List Holding} {body : List Statement}
  {s t u v w : LoweringState}

/-! ## Globals -/

/-- **A slot is taken** in memory. -/
theorem placed_unregistered (l : Layout) (ty : Ty) (r : Region) (s : LoweringState) :
    Results (liftM (l.placeInMemory ty r) : Lower (Location × Layout)) s fun x t =>
      t = s ∧ (∀ c, x.2.free c = l.free c) ∧ x.1.isRegister = false := by
  cases placed : l.placeInMemory ty r with
  | error e => rintro _ _ ⟨⟩
  | ok x => exact .intro rfl ⟨rfl, Layout.placeInMemory_free placed⟩

/-- **A global that is placed** takes no register. -/
theorem placeGlobal_unregistered (h : s.Unregistered) (id : SymbolId) (v : Symbol) :
    Results (placeGlobal id v) s fun slot t => t.Unregistered ∧ slot.location.isRegister = false := by
  unfold placeGlobal
  refine .bindGet ?_
  rw [if_pos (.inl h.first)]
  refine (placed_unregistered _ _ _ s).bind ?_
  rintro ⟨l, layout⟩ s' ⟨same, free, memory⟩
  rw [same]
  dsimp only at free memory ⊢
  refine .bind (.modify rfl : Results (modify _) _ fun _ t => t = { s with layout }) ?_
  rintro _ _ rfl
  rw [memory]
  exact .intro rfl ⟨⟨h.first, fun c => (free c).trans (h.free c)⟩, memory⟩

theorem placeGlobals_unregistered : ∀ (ids : List SymbolId) (s : LoweringState), s.Unregistered →
    Results (placeGlobals ids) s fun slots t => t.Unregistered ∧ ∀ slot ∈ slots, slot.location.isRegister = false
  | [], s, h => .pure ⟨h, by rintro _ ⟨⟩⟩
  | id :: ids, s, h => by
    unfold placeGlobals
    refine .bindGet ?_
    split
    · split
      · refine (placeGlobal_unregistered h id _).bind ?_
        rintro slot t ⟨h', memory⟩
        refine (placeGlobals_unregistered ids t h').bind ?_
        rintro slots u ⟨h'', others⟩
        exact .pure ⟨h'', List.forall_mem_cons.2 ⟨memory, others⟩⟩
      · exact placeGlobals_unregistered ids s h
    · exact placeGlobals_unregistered ids s h

/-! ## Locals -/

/-- **A local that is placed** takes no register. -/
theorem placeLocal_unregistered (h : s.Unregistered) {placed : SymbolId → Prop} (keeps : s.KeepsInMemory placed)
    (id : SymbolId) :
    Results (placeLocal id) s fun _ t => t.Unregistered ∧ t.KeepsInMemory fun x => placed x ∨ x = id := by
  rw [placeLocal_def]
  refine .bindGet ?_
  rw [h.first]
  dsimp only
  rw [Lower.placeInMemory_def]
  refine .bind (Q := fun l t => t.Unregistered ∧ t.declarations = s.declarations ∧ l.isRegister = false) ?_ ?_
  · refine .bindGet ((placed_unregistered _ _ _ s).bind ?_)
    rintro ⟨l, layout⟩ s' ⟨same, free, memory⟩
    rw [same]
    exact .intro rfl ⟨⟨h.first, fun c => (free c).trans (h.free c)⟩, rfl, memory⟩
  · rintro l t ⟨⟨first, free⟩, same, memory⟩
    refine .modify ⟨⟨first, free⟩, fun x v seen known => ?_⟩
    have known : (t.declarations.symbols.place id l).get? x = some v := known
    rw [SymbolTable.get?_place, same] at known
    split at known
    · obtain ⟨v', -, rfl⟩ := Option.map_eq_some_iff.1 known
      exact memory
    · next other =>
      rcases seen with seen | rfl
      · exact keeps x v seen known
      · exact absurd rfl other

/-- The locals of a function take no registers. -/
theorem placeLocals_unregistered : ∀ (ids : List SymbolId) (s : LoweringState) (placed : SymbolId → Prop),
    s.Unregistered → s.KeepsInMemory placed →
    Results (ids.forM placeLocal) s fun _ t => t.Unregistered ∧ t.KeepsInMemory fun x => placed x ∨ x ∈ ids
  | [], s, placed, h, keeps => .pure ⟨h, fun x v seen known => keeps x v (by simpa using seen) known⟩
  | id :: ids, s, placed, h, keeps => by
    change Results (placeLocal id >>= fun _ => ids.forM placeLocal) s _
    refine (placeLocal_unregistered h keeps id).bind ?_
    rintro _ t ⟨h', keeps'⟩
    refine (placeLocals_unregistered ids t _ h' keeps').mono ?_
    rintro _ u ⟨h'', keeps''⟩
    refine ⟨h'', fun x v seen known => keeps'' x v ?_ known⟩
    rcases seen with seen | seen
    · exact .inl (.inl seen)
    · exact (List.mem_cons.1 seen).elim (fun same => .inl (.inr same)) .inr

/-! ## Functions -/

/-- **The functions start without registers given out.** -/
theorem functions_unregistered (sound : d.Sound) :
    ∀ (items : List Item) (s : LoweringState), Standing globals staging d s → s.Unregistered →
      (∀ i ∈ items, i.Typed d) →
      Results (functions items) s fun fs _ => ∀ f ∈ fs, ∃ g h c body s u w t, .function g f.name c body ∈ items ∧
        d.functions.get? g = some h ∧ Statement.AllTyped d g body ∧ Runs s g h body u w t ∧
        f.assembly = t.assembly ∧ Standing globals staging d s ∧ s.Unregistered
  | [], s, standing, unregistered, _ => .pure (by rintro _ ⟨⟩)
  | .global _ _ :: items, s, standing, unregistered, typed => by
    unfold functions
    refine (functions_unregistered sound items s standing unregistered
      fun i hi => typed i (List.mem_cons_of_mem _ hi)).mono fun fs u each f hf => ?_
    obtain ⟨g, h, c, body, s', u', w', t', mem, rest⟩ := each f hf
    exact ⟨g, h, c, body, s', u', w', t', List.mem_cons_of_mem _ mem, rest⟩
  | .function id name c body :: items, s, standing, unregistered, typed => by
    obtain ⟨⟨h, known, -⟩, typedBody⟩ := typed _ List.mem_cons_self
    unfold functions
    intro fs u run
    obtain ⟨call, t, lowered, afterwards⟩ := bind_eq_ok.1 run
    obtain ⟨t₁, t₂, got, collect⟩ := bind_eq_ok.1 afterwards
    obtain ⟨same₁, same₂⟩ := get_eq_ok.1 got
    subst t₁ t₂
    obtain ⟨later, u', rest, done⟩ := bind_eq_ok.1 collect
    obtain ⟨rfl, rfl⟩ := pure_eq_ok.1 done
    obtain ⟨v₀, w', runs, rfl⟩ := runs_of_function (by rw [standing.settled.houses.functions]; exact known) lowered
    obtain ⟨-, standing', coded⟩ := function_coded sound known typedBody standing runs
    have disciplined := coded.disciplined sound known typedBody standing runs
    have unregistered' : t.Unregistered := by
      refine ⟨?_, fun c => (disciplined.function.free c).trans (unregistered.free c)⟩
      obtain ⟨x, leads, rfl⟩ := coded.leads
      exact leads.placement.trans unregistered.first
    have each := functions_unregistered sound items t standing' unregistered'
      (fun i hi => typed i (List.mem_cons_of_mem _ hi)) _ _ rest
    intro f hf
    rcases List.mem_cons.1 hf with rfl | hf
    · exact ⟨id, h, c, body, s, v₀, w', t, List.mem_cons_self, known, typedBody, runs, rfl, standing, unregistered⟩
    · obtain ⟨g, h', c', body', s', u', w', t', mem, rest⟩ := each f hf
      exact ⟨g, h', c', body', s', u', w', t', List.mem_cons_of_mem _ mem, rest⟩

/-- **The variables of a function without parameters** take no registers. -/
theorem moveIn_unregistered (sound : d.Sound) {h : Function} (known : d.functions.get? g = some h)
    (standing : Standing globals staging d s) (unregistered : s.Unregistered)
    (memory : ∀ p ∈ globals, p.2.isRegister = false) (none : h.parameters = []) :
    Results (moveIn h) (opened (entered s g)) fun _ u => u.Unregistered ∧ u.KeepsInMemory (d.Sees (some g)) := by
  have start : (opened (entered s g)).KeepsInMemory (d.Sees .none) := fun id v seen found =>
    memory _ (standing.homed id v seen found)
  have begin : (opened (entered s g)).Unregistered := ⟨unregistered.first, unregistered.free⟩
  unfold moveIn
  rw [none]
  refine .bind (Q := fun _ t => t = opened (entered s g)) (.pure rfl) ?_
  rintro _ t same
  rw [same]
  refine (placeLocals_unregistered h.locals _ _ begin start).mono ?_
  rintro _ u ⟨done, keeps⟩
  refine ⟨done, fun id v seen found => keeps id v ?_ found⟩
  refine (sees_iff sound known seen).imp_right fun mine => ?_
  rwa [Function.variables, none, List.nil_append] at mine

mutual

/-- A statement that a lowering comes by is typed, and it is lowered. -/
theorem Visits.typed {ss : List Statement} {st : Statement} {x y z : LoweringState} (visits : Visits st y z ss x)
    (typed : Statement.AllTyped d g ss) : st.Typed d g ∧ statement st y = .ok ((), z) := by
  cases visits with
  | here run =>
    simp only [Statement.AllTyped] at typed
    exact ⟨typed.1, run⟩
  | later run rest =>
    simp only [Statement.AllTyped] at typed
    exact Visits.typed rest typed.2
  | inner choice =>
    simp only [Statement.AllTyped, Statement.Typed] at typed
    exact VisitsChoice.typed choice typed.1

theorem VisitsChoice.typed {c : IfStatement} {st : Statement} {x y z : LoweringState} (visits : VisitsChoice st y z c x)
    (typed : c.Typed d g) : st.Typed d g ∧ statement st y = .ok ((), z) := by
  cases visits with
  | body condition inner =>
    simp only [IfStatement.Typed] at typed
    exact Visits.typed inner typed.2.2.1
  | chain condition passed jump bind inner =>
    simp only [IfStatement.Typed, ElseBranch.Typed] at typed
    exact VisitsChoice.typed inner typed.2.2.2
  | block condition passed jump bind inner =>
    simp only [IfStatement.Typed, ElseBranch.Typed] at typed
    exact Visits.typed inner typed.2.2.2

end

/-- **Every statement of a function without parameters** is lowered with its
variables in memory, and with all registers free. -/
theorem Visits.resides (sound : d.Sound) {h : Function} (known : d.functions.get? g = some h)
    (standing : Standing globals staging d s) (unregistered : s.Unregistered)
    (memory : ∀ p ∈ globals, p.2.isRegister = false) (none : h.parameters = [])
    (runs : Runs s g h body u w t) (typed : Statement.AllTyped d g body) {st : Statement} {y z : LoweringState}
    (visits : Visits st y z body (bodyStart u)) : y.Resides d (some g) := by
  obtain ⟨footing, -⟩ := runs.footing sound known standing (idle_suits standing body)
  obtain ⟨there, path, -⟩ := visits.footing sound footing typed fun _ _ => trivial
  obtain ⟨⟨-, free⟩, keeps⟩ := moveIn_unregistered sound known standing unregistered memory none _ u runs.moveIn
  have leads := path.leads
  have pools (c : RegisterClass) : y.layout.free c = c.pool := by
    have same : y.layout.free c = (u.layout.free c).filter fun id => decide (c.location id ≠ .none) :=
      leads.layout.free_eq_filter footing.ready.fine.ok.layout (fun c id _ => by
      cases c <;> simp [RegisterClass.location]) c
    rw [same, List.filter_eq_self.2 fun id _ => by cases c <;> rfl]
    exact free c
  refine ⟨there.ready.fine.ok, pools .general, pools .simd, there.houses, fun id v seen found => ?_⟩
  obtain ⟨home, fits, kept⟩ := there.houses.homes id v seen found
  have top := there.ready.fine.ok.layout
  have found' : u.declarations.symbols.get? id = some v := by
    rwa [leads.declarations] at found
  have outside := keeps id v seen found'
  cases place : v.location with
  | globalMemory o =>
    rw [place] at kept
    exact kept.1
  | localMemory o =>
    rw [place] at kept
    exact Nat.le_trans kept top.localTop
  | register | simdRegister =>
    rw [place] at outside
    cases outside
  | none | registerLane | indirectRegister =>
    rw [place] at home
    exact home.elim

end Lower

/-! ## Programs -/

/-- **The statements of a function access elements at their addresses**, for all
values of the indices: those that read an element into a variable, and those
that write one from a variable. -/
structure Lower.AccessesElements (body : List Statement) (s : LoweringState) : Prop where
  reads : ∀ y z x xt p e c ct ty q, e.IsElement c ct →
    Visits (.expression (.assign none (.name x xt p) e ty q)) y z body s →
    ∃ code, z.assembly.entries = y.assembly.entries ++ code ∧ ReadsElement y (y.placeOf x) e code
  writes : ∀ y z x xt p e c ct ty q, e.IsElement c ct →
    Visits (.expression (.assign none e (.name x xt p) ty q)) y z body s →
    ∃ code, z.assembly.entries = y.assembly.entries ++ code ∧ WritesElement y (y.placeOf x) e code

/-- **Every element is accessed at its address.** Where memory comes first, the
statements of a function without parameters do so. -/
theorem Program.accesses_elements {o : Options} {source : String} {p : Program} (first : o.placement = .memoryFirst)
    (run : compile o source = .ok p) {f : CompiledFunction} (hf : f ∈ p.functions) :
    ∃ shader g h c body s u w t, Shader.parse o.stage source = .ok shader ∧
      .function g f.name c body ∈ shader.items ∧ shader.declarations.functions.get? g = some h ∧
      Lower.Runs s g h body u w t ∧ f.assembly = t.assembly ∧
      (h.parameters = [] → Lower.AccessesElements body (Lower.bodyStart u)) := by
  obtain ⟨shader, parsed, run⟩ := shader_of_compile run
  have typed := Shader.typed_of_parse parsed
  obtain ⟨last, lowered⟩ := program_of_ofShader run
  unfold Lower.program at lowered
  obtain ⟨_, _, got, lowered⟩ := bind_eq_ok.1 lowered
  obtain ⟨rfl, rfl⟩ := get_eq_ok.1 got
  obtain ⟨gs, t, placed, lowered⟩ := bind_eq_ok.1 lowered
  obtain ⟨fs, u', functions, lowered⟩ := bind_eq_ok.1 lowered
  obtain ⟨_, _, got, lowered⟩ := bind_eq_ok.1 lowered
  obtain ⟨rfl, rfl⟩ := get_eq_ok.1 got
  obtain ⟨rfl, rfl⟩ := pure_eq_ok.1 lowered
  obtain ⟨hosts, -⟩ := globals_hosts o typed _ _ placed
  have begin : (LoweringState.start o shader).Unregistered := ⟨first, fun c => by cases c <;> rfl⟩
  obtain ⟨unregistered, memory⟩ := Lower.placeGlobals_unregistered _ _ begin _ _ placed
  have homes : ∀ q ∈ homesOf gs, q.2.isRegister = false := by
    rintro q hq
    obtain ⟨slot, hs, rfl⟩ := List.mem_map.1 hq
    exact memory slot hs
  obtain ⟨g, h, c, body, s, u, w, t', item, known, typedBody, runs, assembly, standing, unregistered'⟩ :=
    Lower.functions_unregistered typed.sound shader.items t (.ofHosts hosts) unregistered typed.items _ _ functions f hf
  refine ⟨shader, g, h, c, body, s, u, w, t', parsed, item, known, runs, assembly, fun plain => ⟨?_, ?_⟩⟩
  · intro y z x xt p e a ct ty q element visits
    have resides := visits.resides typed.sound known standing unregistered' homes plain runs typedBody
    obtain ⟨typedSt, runs'⟩ := visits.typed typedBody
    have typedE : (Expr.assign none (.name x xt p) e ty q).Typed shader.declarations (some g) := typedSt
    cases id typedE with
    | assign => exact Lower.assign_reads resides element typedE _ z runs'
  · intro y z x xt p e a ct ty q element visits
    have resides := visits.resides typed.sound known standing unregistered' homes plain runs typedBody
    obtain ⟨typedSt, runs'⟩ := visits.typed typedBody
    have typedE : (Expr.assign none e (.name x xt p) ty q).Typed shader.declarations (some g) := typedSt
    cases id typedE with
    | assign => exact Lower.assign_writes resides element typedE _ z runs'

/-! A function that reads an element of a global. -/

/-- A statement that reads an element with a variable as its index. -/
def Statement.readsElement : Statement → Bool
  | .expression (.assign none (.name _ _ _) (.subscript (.name _ _ _) (.name _ .int _) _ _) _ _) => true
  | _ => false

theorem Statement.exists_of_readsElement {st : Statement} (h : st.readsElement = true) : ∃ x xt p e c ct ty q,
    st = .expression (.assign none (.name x xt p) e ty q) ∧ Expr.IsElement c ct e := by
  unfold readsElement at h
  split at h
  · exact ⟨_, _, _, _, _, _, _, _, rfl, .one _ (.name _ _) _ _⟩
  · cases h

/-- A function without parameters that reads an element first, or no
function. -/
def Item.readsFirst (d : Declarations) : Item → Bool
  | .function g _ _ (st :: _) => st.readsElement && (d.functions.get? g).all fun h => h.parameters.isEmpty
  | .function _ _ _ [] => false
  | .global _ _ => true

def elementSource : String := "int i; float f; vec4 v; export void main() \x7b f = v[i]; \x7d"

def elementOptions : Options := { placement := .memoryFirst }

set_option maxRecDepth 100000 in
theorem compiles_elementSource : ∃ p s f, Program.compile elementOptions elementSource = .ok p ∧
    Shader.parse elementOptions.stage elementSource = .ok s ∧ f ∈ p.functions ∧
    ∀ i ∈ s.items, i.readsFirst s.declarations = true := by
  have shape : (Shader.parse elementOptions.stage elementSource).toOption.any (fun s =>
      s.items.all fun i => i.readsFirst s.declarations) = true := by
    decide +kernel
  have compiles : (Program.compile elementOptions elementSource).toOption.any (fun p =>
      !p.functions.isEmpty) = true := by
    decide +kernel
  obtain ⟨s, parsed, shape⟩ := exists_ok_of_any shape
  obtain ⟨p, compiled, some⟩ := exists_ok_of_any compiles
  obtain ⟨f, hf⟩ := List.exists_mem_of_ne_nil p.functions (by simpa using some)
  exact ⟨p, s, f, compiled, parsed, hf, List.all_eq_true.1 shape⟩

theorem Program.accesses_elements_elementSource : ∃ p f, ∃ y z : LoweringState, ∃ x e c ct code,
    compile elementOptions elementSource = .ok p ∧ f ∈ p.functions ∧ Expr.IsElement c ct e ∧
    z.assembly.entries = y.assembly.entries ++ code ∧ Lower.ReadsElement y x e code := by
  obtain ⟨p, s', f, compiled, parsed', hf, shape⟩ := compiles_elementSource
  obtain ⟨shader, g, h, c, body, s, u, w, t, parsed, item, known, runs, -, accesses⟩ :=
    accesses_elements (o := elementOptions) rfl compiled hf
  rw [parsed'] at parsed
  cases parsed
  have shape := shape _ item
  cases body with
  | nil => cases shape
  | cons st ss =>
    simp only [Item.readsFirst, known, Option.all_some, Bool.and_eq_true, List.isEmpty_iff] at shape
    obtain ⟨x, xt, q, e, a, ct, ty, q', rfl, element⟩ := Statement.exists_of_readsElement shape.1
    have body := runs.body
    unfold Lower.statements at body
    obtain ⟨_, z, run, -⟩ := bind_eq_ok.1 body
    obtain ⟨code, entries, reads⟩ := (accesses shape.2).reads _ z x xt q e a ct ty q' element (.here run)
    exact ⟨p, f, _, z, _, e, a, ct, code, compiled, hf, element, entries, reads⟩

end Shading
