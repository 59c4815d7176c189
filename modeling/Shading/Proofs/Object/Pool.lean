import Shading.Proofs.Lowering.Evaluation
import Shading.Proofs.Lowering.LiteralOrder
import Shading.Proofs.Object.Sealed

/-!
# The constants of a program

Constants join the pool while the functions of a program are lowered, one
after the other. What has joined it is found from then on, so it has each
constant once, in the order of first use: that of the literals, that of the
masks in the code, and between the two that of evaluation. `Program.Pools`
says what comes of this for a whole program: the tables of the pool agree, the
slots of constants lie apart from each other and from all else in global
memory, each literal is read where its bits are, and each instruction that reads
a mask reads the one it calls for.
-/

namespace Shading

/-! ## Pools -/

namespace ConstantPool

/-- **The data of a pool**: each offset with the bytes there. -/
def data (pool : ConstantPool) : List (Nat × List UInt8) := pool.slots.map fun c => (c.2, c.1.bytes)

/-- The slots of a pool in global memory. -/
def places (pool : ConstantPool) : List Slot := pool.slots.map fun c => ⟨.global, c.2, c.1.size⟩

variable {pool : ConstantPool}

/-- **Floats are apart in their bits** where constants are pooled once. -/
theorem nodup_floats (nodup : pool.keys.Nodup) : (pool.floatConstants.map Prod.fst).Nodup := by
  rw [floatConstants_eq]
  refine nodup.filterMap fun c d bits hc hd => ?_
  cases c <;> cases hc
  cases d <;> cases hd
  rfl

theorem nodup_vectors (nodup : pool.keys.Nodup) : (pool.vectorConstants.map Prod.fst).Nodup := by
  rw [vectorConstants_eq]
  refine nodup.filterMap fun c d lanes hc hd => ?_
  cases c <;> cases hc
  cases d <;> cases hd
  rfl

/-- Constants that lie behind each other have offsets of their own. -/
theorem nodup_offsets (ascending : pool.slots.Pairwise fun a b => a.2 + a.1.size ≤ b.2) :
    (pool.slots.map Prod.snd).Nodup := by
  refine List.pairwise_map.2 (ascending.imp fun {a b} below same => ?_)
  have : 0 < a.1.size := by cases a.1 <;> exact Nat.succ_pos _
  omega

/-- **A listing names the constant at its offset.** -/
theorem Agrees.name?_eq (agrees : pool.Agrees) (ascending : pool.slots.Pairwise fun a b => a.2 + a.1.size ≤ b.2)
    {c : Constant} {offset : Nat} (pooled : (c, offset) ∈ pool.slots) : pool.name? offset = some c.text := by
  have there : (offset, c.text) ∈ pool.names := by
    rw [agrees.names, List.mem_reverse]
    exact List.mem_map.2 ⟨_, pooled, rfl⟩
  cases found : pool.name? offset with
  | none => exact absurd there (notMem_of_lookup found _)
  | some text =>
    have mem := mem_of_lookup found
    rw [agrees.names, List.mem_reverse] at mem
    obtain ⟨⟨c', o⟩, pooled', eq⟩ := List.mem_map.1 mem
    obtain ⟨rfl, rfl⟩ := Prod.mk.inj eq
    have same := List.inj_on_of_nodup_map (nodup_offsets ascending) pooled pooled' rfl
    cases same
    rfl

/-- Constants that lie behind each other lie apart. -/
theorem apart_of_ascending (ascending : pool.slots.Pairwise fun a b => a.2 + a.1.size ≤ b.2) :
    pool.places.Pairwise Slot.Apart :=
  List.pairwise_map.2 (ascending.imp fun above _ => .inl above)

/-- **The bytes of a constant stand once** among the data, at its offset. -/
theorem data_filter (ascending : pool.slots.Pairwise fun a b => a.2 + a.1.size ≤ b.2) {c : Constant} {offset : Nat}
    (pooled : (c, offset) ∈ pool.slots) : pool.data.filter (fun x => x.1 = offset) = [(offset, c.bytes)] := by
  obtain ⟨front, back, eq⟩ := List.append_of_mem pooled
  rw [eq] at ascending
  obtain ⟨-, behind, before⟩ := List.pairwise_append.1 ascending
  have room (c : Constant) : 0 < c.size := by cases c <;> exact Nat.succ_pos _
  have none : ∀ x ∈ front ++ back, x.2 ≠ offset := by
    intro x hx
    rcases List.mem_append.1 hx with hx | hx
    · have : x.2 + x.1.size ≤ offset := before x hx _ List.mem_cons_self
      have := room x.1
      omega
    · have : offset + c.size ≤ x.2 := (List.pairwise_cons.1 behind).1 x hx
      have := room c
      omega
  rw [data, eq, List.map_append, List.map_cons, List.filter_append, List.filter_cons_of_pos (by simp)]
  rw [List.filter_eq_nil_iff.2, List.filter_eq_nil_iff.2, List.nil_append]
  · rintro x hx same
    obtain ⟨y, hy, rfl⟩ := List.mem_map.1 hx
    exact none y (List.mem_append_right _ hy) (by simpa using same)
  · rintro x hx same
    obtain ⟨y, hy, rfl⟩ := List.mem_map.1 hx
    exact none y (List.mem_append_left _ hy) (by simpa using same)

end ConstantPool

/-! ## The masks of a program -/

/-- **The masks that a function reads**, in order. -/
def CompiledFunction.masks (f : CompiledFunction) : List Lanes := masksRead none f.assembly.entries

/-- **The vectors of the pool are some masks**, in the order of their first
use. -/
structure LoweringState.HasMasks (s : LoweringState) (w : List Lanes) : Prop where
  agrees : s.constants.Agrees
  masks : s.constants.vectorConstants.map Prod.fst = w.eraseDups

namespace Lower

variable {globals staging : List Holding} {d : Declarations} {g : FunctionId} {h : Function} {body : List Statement}
  {s x w t u y : LoweringState} {earlier : List Lanes}

/-- The pool stays as it is when the variables of a function move in. -/
theorem moveIn_constants (f : Function) : Results (moveIn f) s fun _ t => t.constants = s.constants := by
  have plain := plain_constants
  have settle (id : SymbolId) (l : Location) : Respects (fun s t => t.constants = s.constants) (Lower.setLocation id l) :=
    fun _ => .modify rfl
  have parameter (id : SymbolId) : Respects (fun s t => t.constants = s.constants) (placeParameter id) := by
    rw [placeParameter_def]
    exact plain.ofGet fun _ => plain.step (plain.place _) fun _ => settle _ _
  have own (id : SymbolId) : Respects (fun s t => t.constants = s.constants) (placeLocal id) := by
    rw [placeLocal_def]
    refine plain.ofGet fun s => ?_
    cases s.placement with
    | memoryFirst => exact plain.step (plain.placeInMemory _) fun _ => settle _ _
    | registerFirst => exact plain.step (plain.place _) fun _ => settle _ _
  exact plain.step (plain.forM parameter _) (fun _ => plain.forM own _) s

/-- The statements of a function are lowered behind the masks of the functions
in front of it. -/
theorem Runs.poolsMasks_start (runs : Runs s g h body x w t) (empty : x.assembly.entries = []) (has : s.HasMasks earlier) :
    (bodyStart x).PoolsMasks earlier := by
  have same : x.constants = s.constants := moveIn_constants (s := opened (entered s g)) h _ _ runs.moveIn
  have start : x.PoolsMasks earlier := by
    refine ⟨same ▸ has.agrees, ?_, ?_⟩
    · rw [same, has.masks, empty]
      simp [masksRead]
    · rintro before i text after eq -
      rw [empty] at eq
      simp at eq
  exact (closed_poolsMasks earlier).entry x (e := .call "trampoline") x.assembly.labels (by rintro _ ⟨⟩) start

/-- **The masks of a function follow those in front of it.** -/
theorem Runs.poolsMasks (runs : Runs s g h body x w t) (empty : x.assembly.entries = []) (has : s.HasMasks earlier) :
    t.PoolsMasks earlier := by
  obtain ⟨y, close, rfl⟩ := runs.close
  have closed := closed_poolsMasks earlier
  have lowered := closed.statements body _ _ _ runs.body (runs.poolsMasks_start empty has)
  have returned := closed.entry w (e := .ret) w.assembly.labels (by rintro _ ⟨⟩) lowered
  have ended : y.PoolsMasks earlier := closed.leaveScope _ _ _ y close returned
  exact ended.congr rfl ⟨rfl, fun _ places => places⟩

/-- The variables of a function stay where they are while its body is lowered. -/
theorem Runs.declarations (runs : Runs s g h body x w t) : t.declarations = (bodyStart x).declarations := by
  obtain ⟨y, close, rfl⟩ := runs.close
  have quiet := closed_readsFloats {}
  have lowered := (quiet.statements body _ _ _ runs.body).declarations
  exact (quiet.leaveScope _ _ _ y close).declarations.trans lowered

/-- **The code of a function loads its literals** from a pool that has what is
found in the end. -/
theorem Runs.reads {P : ConstantPool} (runs : Runs s g h body x w t) (empty : x.assembly.entries = [])
    (housed : Housed P d (bodyStart x).declarations g) (typed : Statement.AllTyped d g body) (within : Within P t) :
    ∃ os, PlacesIn P (Statement.allReadFloats body) os ∧ os.Sublist (globalReads t.assembly.entries) := by
  obtain ⟨y, close, rfl⟩ := runs.close
  have quiet := closed_readsFloats P
  have ended : ReadsFloats P [] w y := quiet.trans (quiet.entry w (e := .ret) _ nofun) (quiet.leaveScope _ _ _ y close)
  have reads := (statements_reading housed body typed _ rfl _ _ runs.body).chain ended
  rw [List.append_nil] at reads
  obtain ⟨os, places, new, eq, sub⟩ := reads.reads within
  refine ⟨os, places, ?_⟩
  have start : globalReads (bodyStart x).assembly.entries = [] := by
    rw [show (bodyStart x).assembly.entries = x.assembly.entries ++ [.call "trampoline"] from rfl, empty]
    rfl
  rw [start, List.nil_append] at eq
  exact eq ▸ sub

/-- The pool grows in the course of a function. -/
theorem Runs.grows (runs : Runs s g h body x w t) : Grows w t := by
  obtain ⟨y, close, rfl⟩ := runs.close
  have ended : Grows (Regime.passed w .ret w.assembly.labels) y := closed_grows.leaveScope _ _ _ y close
  exact ended

/-- **Functions that are lowered** may be taken apart at each of them. -/
theorem functions_split {f : CompiledFunction} {back : List CompiledFunction} {u : LoweringState} :
    ∀ (items : List Item) (front : List CompiledFunction) (s : LoweringState),
    functions items s = .ok (front ++ f :: back, u) → ∃ items₁ items₂ g exported body v t,
      items = items₁ ++ .function g f.name exported body :: items₂ ∧ functions items₁ s = .ok (front, v) ∧
      function g body v = .ok (f.trampolineCall, t) ∧ f.assembly = t.assembly ∧
      f.transcript = t.transcript.reverse ∧ functions items₂ t = .ok (back, u)
  | [], front, s, run => by
    obtain ⟨none, -⟩ := pure_eq_ok.1 run
    simp at none
  | .global id x :: items, front, s, run => by
    unfold functions at run
    obtain ⟨items₁, items₂, g, exported, body, v, t, rfl, before, rest⟩ := functions_split items front s run
    exact ⟨.global id x :: items₁, items₂, g, exported, body, v, t, rfl, before, rest⟩
  | .function id name exported body :: items, front, s, run => by
    unfold functions at run
    obtain ⟨call, t, lowered, run⟩ := bind_eq_ok.1 run
    obtain ⟨t₁, t₂, got, run⟩ := bind_eq_ok.1 run
    obtain ⟨same₁, same₂⟩ := get_eq_ok.1 got
    subst t₁ t₂
    obtain ⟨later, u', rest, run⟩ := bind_eq_ok.1 run
    obtain ⟨list, rfl⟩ := pure_eq_ok.1 run
    cases front with
    | nil =>
      obtain ⟨rfl, rfl⟩ := List.cons.inj list
      exact ⟨[], items, id, exported, body, s, t, rfl, rfl, lowered, rfl, rfl, rest⟩
    | cons f' front =>
      obtain ⟨rfl, rfl⟩ := List.cons.inj list
      obtain ⟨items₁, items₂, g, exported', body', v, t', rfl, before, behind⟩ := functions_split items front t rest
      refine ⟨.function id name exported body :: items₁, items₂, g, exported', body', v, t', rfl, ?_, behind⟩
      unfold functions
      exact bind_eq_ok.2 ⟨call, t, lowered, bind_eq_ok.2 ⟨t, t, rfl, bind_eq_ok.2 ⟨front, v, before, rfl⟩⟩⟩

/-- **The masks of functions** that are lowered one after the other. -/
theorem functions_masks (sound : d.Sound) : ∀ (items : List Item) (s : LoweringState) (earlier : List Lanes),
    Standing globals staging d s → (∀ i ∈ items, i.Typed d) → s.HasMasks earlier →
      Results (functions items) s fun fs u => u.HasMasks (earlier ++ fs.flatMap CompiledFunction.masks)
  | [], s, earlier, _, _, has => .pure (by rwa [List.flatMap_nil, List.append_nil])
  | .global _ _ :: items, s, earlier, standing, typed, has => by
    unfold functions
    exact functions_masks sound items s earlier standing (fun i hi => typed i (List.mem_cons_of_mem _ hi)) has
  | .function id name exported body :: items, s, earlier, standing, typed, has => by
    obtain ⟨⟨h, known, -⟩, typedBody⟩ := typed _ List.mem_cons_self
    unfold functions
    intro fs u run
    obtain ⟨call, t, lowered, run⟩ := bind_eq_ok.1 run
    obtain ⟨t₁, t₂, got, run⟩ := bind_eq_ok.1 run
    obtain ⟨same₁, same₂⟩ := get_eq_ok.1 got
    subst t₁ t₂
    obtain ⟨later, u', rest, run⟩ := bind_eq_ok.1 run
    obtain ⟨rfl, rfl⟩ := pure_eq_ok.1 run
    obtain ⟨x, w, runs, -⟩ := runs_of_function (by rw [standing.settled.houses.functions]; exact known) lowered
    obtain ⟨empty, next, -⟩ := function_coded sound known typedBody standing runs
    obtain ⟨agrees, masks, -⟩ := runs.poolsMasks empty has
    have tail := functions_masks sound items t _ next (fun i hi => typed i (List.mem_cons_of_mem _ hi))
      ⟨agrees, masks⟩ _ _ rest
    exact List.append_assoc earlier _ _ ▸ tail

end Lower

/-! ## Programs -/

/-- **A function keeps to the pool of its program**, behind functions that read
the masks `earlier`. Its body is lowered from the state `x` on, and its code
ends in a state with the tables `d` of symbols. -/
structure CompiledFunction.KeepsToPool (f : CompiledFunction) (pool : ConstantPool) (earlier : List Lanes)
    (g : FunctionId) (body : List Statement) (x : LoweringState) (d : Declarations) : Prop where
  /-- Its variables lie apart from constants. -/
  homes : ∀ id v slot, d.symbols.get? id = some v → v.kind = .variable → v.VisibleIn (some g) →
    v.location.slot? v.ty.size = some slot → ∀ c ∈ pool.places, c.Apart slot
  /-- The slots that it saves registers in lie apart from constants. -/
  spills : ∀ slot ∈ Transcript.spills f.transcript.reverse, ∀ c ∈ pool.places, c.Apart slot
  masks : MasksIn pool f.assembly.entries
  /-- **A literal is where its bits are.** It joins the pool behind all others,
  or has done so before. -/
  literals : ∀ asTarget bits ty position y,
    Lower.Evaluates body x (asTarget, .literal (.float bits) ty position) y → ∃ offset z,
      Lower.expression asTarget (.literal (.float bits) ty position) y =
        .ok ({ location := .globalMemory offset, ty := .float }, z) ∧
      (.float bits, offset) ∈ pool.slots ∧ z.constants.slots <+: pool.slots ∧
      (z = y ∧ (.float bits, offset) ∈ y.constants.slots ∨
        .float bits ∉ y.constants.keys ∧ z.constants.slots = y.constants.slots ++ [(.float bits, offset)])
  /-- **Masks join the pool where they are first read**: at each literal, it has
  those that the code has read up to there. -/
  between : ∀ e y, Lower.Evaluates body x e y →
    y.constants.vectorConstants.map Prod.fst = (earlier ++ masksRead none y.assembly.entries).eraseDups
  /-- **Literals are read where their bits are**: in the order in which operations
  take them, each by an instruction of its own that loads from its slot. -/
  reads : ∃ os, Lower.PlacesIn pool (Statement.allReadFloats body) os ∧ os.Sublist (globalReads f.assembly.entries)

/-- **The pool of a program**, whose lowering ends in the state `u`, is a map
from bits to slots of their own. -/
structure Program.Pools (p : Program) (s : Shader) (u : LoweringState) : Prop where
  floats : (p.constants.floatConstants.map Prod.fst).Nodup
  vectors : (p.constants.vectorConstants.map Prod.fst).Nodup
  /-- The maps find what the list of constants has, and nothing else. -/
  found : ∀ c offset, p.constants.offset? c = some offset ↔ (c, offset) ∈ p.constants.slots
  named : ∀ c offset, (c, offset) ∈ p.constants.slots → p.constants.name? offset = some c.text
  apart : p.constants.places.Pairwise Slot.Apart
  /-- Global variables and staging slots lie apart from constants. -/
  globals : ∀ slot ∈ slotsOf (homesOf p.globals ++ stagesOf p.globals), ∀ c ∈ p.constants.places, c.Apart slot
  division : ∀ slots location slot, u.divisionSlots = some slots →
    (location = slots.eax ∨ location = slots.edx ∨ location = slots.divisor) → location.slot? 4 = some slot →
      ∀ c ∈ p.constants.places, c.Apart slot
  /-- Each constant is pooled once, and its bytes are the data at its slot. -/
  distinct : p.constants.keys.Nodup
  data : ∀ c offset, (c, offset) ∈ p.constants.slots →
    p.constants.data.filter (fun x => x.1 = offset) = [(offset, c.bytes)]
  /-- **The floats are the literals** in the order in which they are evaluated,
  and the masks those that the code reads. -/
  literals : p.constants.floatConstants.map Prod.fst = (s.items.flatMap Item.floats).eraseDups
  masks : p.constants.vectorConstants.map Prod.fst = (p.functions.flatMap CompiledFunction.masks).eraseDups
  functions : ∀ front f back, p.functions = front ++ f :: back → ∃ g h exported body x w v t,
    .function g f.name exported body ∈ s.items ∧ Lower.Runs v g h body x w t ∧
    v.constants.slots <+: t.constants.slots ∧ t.constants.slots <+: p.constants.slots ∧
    f.KeepsToPool p.constants (front.flatMap CompiledFunction.masks) g body (Lower.bodyStart x) t.declarations

variable {p : Program} {s : Shader} {u : LoweringState}

/-- What may be written in the global region lies apart from constants. -/
theorem Program.Lowered.apart_of_uses (lowered : p.Lowered s u) {f : CompiledFunction} {g : FunctionId}
    {body : List Statement} {s' v t : LoweringState}
    (written : f.Written (homesOf p.globals) (stagesOf p.globals) s.declarations g body s' v t) (precedes : t.Precedes u)
    {use : SlotUse} {slot : Slot} (uses : v.Uses use slot) (writable : use.Writable fun _ => True) :
    ∀ c ∈ p.constants.places, c.Apart slot := by
  intro c hc region
  obtain ⟨x, hx, rfl⟩ := List.mem_map.1 hc
  obtain ⟨fine, -⟩ := written.coded.complete _ (lowered.regime_suits 0 body (fun _ => True) fun _ _ => trivial)
  exact fine.apart_of_writable (lowered.constants_later (written.coded.precedes.trans precedes)) uses writable
    region.symm hx

/-- **A literal is looked up or joins the pool.** -/
theorem Lower.literal_float {b : Bool} {bits : Word} {ty : Ty} {position : Position} {v : Value} {y z : LoweringState}
    (agrees : y.constants.Agrees) (run : Lower.expression b (.literal (.float bits) ty position) y = .ok (v, z)) :
    ∃ offset, v = { location := .globalMemory offset, ty := .float } ∧ (.float bits, offset) ∈ z.constants.slots ∧
      (z = y ∧ (.float bits, offset) ∈ y.constants.slots ∨
        .float bits ∉ y.constants.keys ∧ z.constants.slots = y.constants.slots ++ [(.float bits, offset)]) := by
  rw [Lower.expression_literal, Lower.literal_ofFloat] at run
  obtain ⟨l, t, pooled, run⟩ := bind_eq_ok.1 run
  obtain ⟨rfl, rfl⟩ := pure_eq_ok.1 run
  obtain ⟨offset, rfl, -, ⟨known, rfl⟩ | ⟨absent, layout, rfl⟩⟩ := Lower.constant_eq_ok pooled
  · exact ⟨offset, rfl, agrees.mem known, .inl ⟨rfl, agrees.mem known⟩⟩
  · have joined := ConstantPool.slots_add y.constants (.float bits) offset
    exact ⟨offset, rfl, by simp, .inr ⟨agrees.notMem absent, joined⟩⟩

/-- A constant is not in a home that its slot is apart from. -/
theorem Lower.housed_of_apart {P : ConstantPool} {d D : Declarations} {f : Option FunctionId}
    (symbols : ∀ id v, d.symbols.get? id = some v → ∃ l, D.symbols.get? id = some { v with location := l })
    (homes : ∀ id v slot, D.symbols.get? id = some v → v.kind = .variable → v.VisibleIn f →
      v.location.slot? v.ty.size = some slot → ∀ c ∈ P.places, c.Apart slot) : Lower.Housed P d D f where
  symbols := symbols
  apart := by
    rintro x n bits ⟨id, v, o, known, kind, visible, place, low, high⟩ some pooled
    have apart := homes id v ⟨.global, o, v.ty.size⟩ known kind visible (by rw [place]; rfl) _
      (List.mem_map.2 ⟨_, pooled, rfl⟩) rfl
    simp only [Slot.stop, Constant.size] at apart
    omega

/-- **A function keeps to the pool** of the program that it is a part of. -/
theorem Program.Lowered.keepsToPool (lowered : p.Lowered s u) {f : CompiledFunction} {g : FunctionId} {h : Function}
    {body : List Statement} {s' v t x w : LoweringState} {earlier : List Lanes}
    (written : f.Written (homesOf p.globals) (stagesOf p.globals) s.declarations g body s' v t) (precedes : t.Precedes u)
    (known : s.declarations.functions.get? g = some h) (runs : Lower.Runs s' g h body x w t)
    (has : s'.HasMasks earlier) : f.KeepsToPool p.constants earlier g body (Lower.bodyStart x) t.declarations := by
  obtain ⟨empty, -, -⟩ := Lower.function_coded lowered.typed.sound known written.typed written.standing runs
  obtain ⟨vars, o, -, -, -, -, transcript⟩ := written.coded.tidy
  have grown : t.constants.slots <+: p.constants.slots := by
    obtain ⟨added, eq, -⟩ := precedes.constants
    rw [lowered.constants, eq]
    exact List.prefix_append _ _
  have start := runs.poolsMasks_start empty has
  -- An occurrence that is evaluated sees the pool of its own state, of which the one of
  -- the object is an extension.
  have reached {e : Bool × Expr} {y : LoweringState} (evaluates : Lower.Evaluates body (Lower.bodyStart x) e y) :
      y.PoolsMasks earlier := by
    obtain ⟨-, -, -, before, -⟩ := evaluates.between (Lower.closed_poolsMasks earlier) runs.body
    exact before start
  have homes (id : SymbolId) (v : Symbol) (slot : Slot) (found : t.declarations.symbols.get? id = some v)
      (kind : v.kind = .variable) (visible : v.VisibleIn (some g)) (place : v.location.slot? v.ty.size = some slot) :
      ∀ c ∈ p.constants.places, c.Apart slot := by
    rw [written.coded.declarations] at found
    exact lowered.apart_of_uses written precedes (.symbol found kind (written.coded.function ▸ visible) place) trivial
  have ended := runs.poolsMasks empty has
  refine
    { homes
      spills := fun slot saved => ?_
      masks := ?_
      literals := fun b bits ty position y evaluates => ?_
      between := fun _ _ evaluates => (reached evaluates).masks
      reads := ?_ }
  · rw [written.transcript, List.reverse_reverse, transcript] at saved
    exact lowered.apart_of_uses written precedes (.spill saved) trivial
  · rw [written.assembly, ← written.coded.assembly]
    exact ended.places.mono fun c hc => grown.subset hc
  · obtain ⟨value, z, run, -, rest⟩ := evaluates.between Lower.closed_grows runs.body
    obtain ⟨offset, rfl, pooled, first⟩ := Lower.literal_float (reached evaluates).agrees run
    have later : z.constants.slots <+: p.constants.slots := (rest.trans runs.grows).trans grown
    exact ⟨offset, z, run, later.subset pooled, later, first⟩
  · rw [written.assembly, ← written.coded.assembly]
    obtain ⟨footing, -⟩ := runs.footing lowered.typed.sound known written.standing (Lower.idle_suits written.standing body)
    rw [runs.declarations] at homes
    exact runs.reads empty (Lower.housed_of_apart footing.houses.symbols homes) written.typed
      fun c offset found => grown.subset (ended.agrees.mem found)

/-- Nothing is pooled until the functions are lowered. -/
theorem Program.functions_of_program {o : Options} {s : Shader} (typed : s.Typed) {p : Program} {u : LoweringState}
    (run : Lower.program s.items (.start o s) = .ok (p, u)) : ∃ t, Lower.functions s.items t = .ok (p.functions, u) ∧
      Lower.Standing (homesOf p.globals) (stagesOf p.globals) s.declarations t ∧ t.HasMasks [] := by
  unfold Lower.program at run
  obtain ⟨_, _, got, run⟩ := bind_eq_ok.1 run
  obtain ⟨rfl, rfl⟩ := get_eq_ok.1 got
  obtain ⟨gs, t, placed, run⟩ := bind_eq_ok.1 run
  obtain ⟨fs, u', functions, run⟩ := bind_eq_ok.1 run
  obtain ⟨_, _, got, run⟩ := bind_eq_ok.1 run
  obtain ⟨rfl, rfl⟩ := get_eq_ok.1 got
  obtain ⟨rfl, rfl⟩ := pure_eq_ok.1 run
  obtain ⟨hosts, -⟩ := globals_hosts o typed _ _ placed
  refine ⟨t, functions, .ofHosts hosts, hosts.ok.agrees, ?_⟩
  simp [ConstantPool.vectorConstants, hosts.constants]

/-- **Each function of a program keeps to the pool**, behind the masks of the
functions in front of it. -/
theorem Program.Lowered.functions_keepToPool (lowered : p.Lowered s u) {t₀ : LoweringState}
    (run : Lower.functions s.items t₀ = .ok (p.functions, u))
    (standing : Lower.Standing (homesOf p.globals) (stagesOf p.globals) s.declarations t₀) (has : t₀.HasMasks [])
    {front back : List CompiledFunction} {f : CompiledFunction} (split : p.functions = front ++ f :: back) :
    ∃ g h exported body x w v t, .function g f.name exported body ∈ s.items ∧ Lower.Runs v g h body x w t ∧
      v.constants.slots <+: t.constants.slots ∧ t.constants.slots <+: p.constants.slots ∧
      f.KeepsToPool p.constants (front.flatMap CompiledFunction.masks) g body (Lower.bodyStart x) t.declarations := by
  rw [split] at run
  obtain ⟨items₁, items₂, g, exported, body, v, t, items, before, written, assembly, transcript, rest⟩ :=
    Lower.functions_split _ _ _ run
  have typed := lowered.typed.items
  rw [items] at typed
  have sound := lowered.typed.sound
  have first (i : Item) (hi : i ∈ items₁) : i.Typed s.declarations := typed i (List.mem_append_left _ hi)
  have last (i : Item) (hi : i ∈ items₂) : i.Typed s.declarations :=
    typed i (List.mem_append_right _ (List.mem_cons_of_mem _ hi))
  obtain ⟨⟨h, known, -⟩, typedBody⟩ := typed _ (List.mem_append_right _ List.mem_cons_self)
  obtain ⟨here, -, -⟩ := Lower.functions_written sound items₁ t₀ standing first _ _ before
  have masks := Lower.functions_masks sound items₁ t₀ [] standing first has _ _ before
  obtain ⟨v', written⟩ := Lower.written_of_function sound known typedBody here written assembly rfl transcript
  obtain ⟨-, precedes, -⟩ := Lower.functions_written sound items₂ t written.next last _ _ rest
  obtain ⟨h, x, w, known, runs⟩ := written.runs
  obtain ⟨added, start, -⟩ := written.coded.precedes_start.constants
  obtain ⟨added', stop, -⟩ := precedes.constants
  refine ⟨g, h, exported, body, x, w, v, t, by simp [items], runs, start ▸ List.prefix_append _ _, ?_,
    lowered.keepsToPool written precedes known runs masks⟩
  rw [lowered.constants, stop]
  exact List.prefix_append _ _

/-- **The constants of a program that compiles** are pooled by their bits. -/
theorem Program.pools_of_compile {o : Options} {source : String} (run : compile o source = .ok p) :
    ∃ s u, Shader.parse o.stage source = .ok s ∧ Lower.program s.items (.start o s) = .ok (p, u) ∧ p.Pools s u := by
  obtain ⟨shader, parsed, lowering⟩ := shader_of_compile run
  obtain ⟨u, program⟩ := program_of_ofShader lowering
  have typed := Shader.typed_of_parse parsed
  have lowered := lowered_of_program o typed program
  have ok := lowered.standing.settled.ok
  have same := lowered.constants
  have ascending : p.constants.slots.Pairwise fun a b => a.2 + a.1.size ≤ b.2 := same ▸ ok.ascending
  have agrees : p.constants.Agrees := same ▸ ok.agrees
  have start : (LoweringState.start o shader).PoolsFloats [] := ⟨ConstantPool.agrees_empty, List.nodup_nil, rfl⟩
  obtain ⟨-, distinct, literals⟩ := Lower.followsOver_poolsFloats.program shader.items _ _ _ program [] start
  rw [← same] at distinct literals
  obtain ⟨t, functions, standing, has⟩ := functions_of_program typed program
  obtain ⟨-, masks⟩ := Lower.functions_masks typed.sound shader.items t [] standing typed.items has _ _ functions
  rw [← same] at masks
  refine ⟨shader, u, parsed, program,
    { floats := ConstantPool.nodup_floats distinct
      vectors := ConstantPool.nodup_vectors distinct
      found := fun c offset => ⟨agrees.mem, agrees.offset?_eq distinct⟩
      named := fun c offset => agrees.name?_eq ascending
      apart := ConstantPool.apart_of_ascending ascending
      globals := fun slot hs c hc => ?_
      division := fun slots location slot known one place c hc => ?_
      distinct
      data := fun c offset pooled => ConstantPool.data_filter ascending pooled
      literals
      masks
      functions := fun _ _ _ => lowered.functions_keepToPool functions standing has }⟩
  · obtain ⟨x, hx, rfl⟩ := List.mem_map.1 hc
    exact fun _ => .inr (lowered.behind slot hs x hx)
  · obtain ⟨x, hx, rfl⟩ := List.mem_map.1 hc
    obtain ⟨y, rfl, -, -, apart⟩ := ok.division _ known
    have here := DivisionSlots.within_at one place
    rcases apart x (same ▸ hx) with below | above
    · exact fun _ => .inl (Nat.le_trans below here.2)
    · exact fun _ => .inr (Nat.le_trans here.1 above)

namespace Program

/-- A literal that is read twice, and a sign that is inverted. -/
def pooledSource : String := "float a; float b; export void main() \x7b a = 0.75; b = 0.75 - -a; \x7d"

set_option maxRecDepth 100000 in
theorem compiles_pooledSource : ∃ p, compile sampleOptions pooledSource = .ok p ∧
    p.constants.keys = [.float 0x3f400000, .vector signMask] := by
  have keys : (compile sampleOptions pooledSource).toOption.any
      (fun p => decide (p.constants.keys = [.float 0x3f400000, .vector signMask])) = true := by
    decide +kernel
  obtain ⟨p, compiled, keys⟩ := exists_ok_of_any keys
  exact ⟨p, compiled, of_decide_eq_true keys⟩

theorem pools_pooledSource : ∃ p s u, compile sampleOptions pooledSource = .ok p ∧ p.Pools s u ∧
    p.constants.keys = [.float 0x3f400000, .vector signMask] := by
  obtain ⟨p, compiled, keys⟩ := compiles_pooledSource
  obtain ⟨s, u, -, -, pools⟩ := pools_of_compile compiled
  exact ⟨p, s, u, compiled, pools, keys⟩

end Program

end Shading
