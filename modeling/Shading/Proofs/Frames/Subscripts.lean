import Shading.Proofs.Discipline.Allocation
import Shading.Proofs.Frames.Elements
import Shading.Proofs.Frames.Lanes
import Shading.Proofs.Lowering.Evaluation

/-!
# Elements are accessed at their addresses

With all variables in memory, a statement that moves an element to or from a
variable computes the address of the element and accesses it there, whatever
the values of the indices.
-/

namespace Shading

open LoweringState

/-! ## Elements -/

/-- **An element of a variable** of some type: of an indexed vector or matrix,
or of an indexed row of a matrix. -/
inductive Expr.IsElement (c : SymbolId) (t : Ty) : Expr → Prop
  | one (p : Position) {i : Expr} (index : i.IsIndex) (e : Ty) (q : Position) :
      IsElement c t (.subscript (.name c t p) i e q)
  | two (p : Position) {i j : Expr} (row : i.IsIndex) (r : Ty) (q : Position) (column : j.IsIndex) (e : Ty)
      (q' : Position) : IsElement c t (.subscript (.subscript (.name c t p) i r q) j e q')

/-- The bytes from one element to the next: rows have sixteen, and lanes
four. -/
def Ty.step (t : Ty) : Nat := if t.isMatrix then 16 else 4

theorem Ty.stride_eq {t e : Ty} (has : t.element? = some e) : t.stride = t.step := by
  cases t <;> first | rfl | cases has

/-- Elements are smaller than what they are elements of, and they are floats or
rows. -/
theorem Ty.smaller_of_element {t e : Ty} (has : t.element? = some e) :
    e.size < t.size ∧ 0 < e.size ∧ e ≠ .int ∧ e ≠ .bool ∧ e.isMatrix = false := by
  cases t <;> cases has <;> decide

/-- **The address of an element** on a machine, modulo the number of
addresses: that of the variable and so many steps. -/
def LoweringState.elementAddress (s : LoweringState) (L : Nat) (m : Machine) : Expr → UInt64
  | .name id _ _ => m.pointer L (s.placeOf id)
  | .subscript base index _ _ =>
    s.elementAddress L m base + .ofInt (Binary32.intOfWord (s.indexWord L m index) * base.ty.step)
  | _ => 0

theorem Machine.ofInt_toNat (a : UInt64) : UInt64.ofInt a.toNat = a := by
  have small := a.toNat_lt
  have same : (a.toNat : Int) % 2 ^ 64 = a.toNat := Int.emod_eq_of_lt (by omega) (by omega)
  change UInt64.ofNat ((a.toNat : Int) % 2 ^ 64).toNat = a
  rw [same, Int.toNat_natCast, UInt64.ofNat_toNat]

/-- Variables of different types have places apart from each other. -/
theorem LoweringState.Resides.apart {s : LoweringState} {d : Declarations} {f : Option FunctionId} (resides : s.Resides d f)
    {x c : SymbolId} {xt t : Ty} {p q : Position} (sees : d.Sees f x) (sees' : d.Sees f c)
    (typed : (Expr.name x xt p).Typed d f) (typed' : (Expr.name c t q).Typed d f) (other : xt ≠ t) :
    (s.placeOf x).Apart xt.size t.size (s.placeOf c) := by
  cases typed with
  | name p found visible =>
    cases typed' with
    | name q found' visible' =>
      obtain ⟨l, known⟩ := resides.houses.symbols x _ found
      obtain ⟨l', known'⟩ := resides.houses.symbols c _ found'
      have distinct : x ≠ c := by
        rintro rfl
        rw [found] at found'
        cases found'
        exact other rfl
      have apart := resides.houses.apart x c _ _ distinct sees sees' known known'
      rwa [placeOf, placeOf, known, known']

namespace Lower

variable {s₁ s t : LoweringState} {F G : Nat → Machine → Machine → Prop} {d : Declarations} {f : Option FunctionId}

/-- A value at an address that can be written in another way. -/
theorem Points.congr {home : Holding} {v : Value} {ty : Ty} {room : Nat} {A B : Nat → Machine → Int} (h : Points s₁ s home v ty room A)
    (same : ∀ L m, UInt64.ofInt (A L m) = .ofInt (B L m)) : Points s₁ s home v ty room B :=
  ⟨h.loads.mono fun L m₀ _ holds => holds.trans (same L m₀), h.typed, h.writeBack, h.place⟩

/-- **A variable stands at its address.** -/
theorem name_points (resides : s₁.Resides d f) (start : s₁.Loads s fun _ _ _ => True) {room : Nat}
    (free : room + 2 ≤ s.layout.freeGeneral.length) {id : SymbolId} {ty : Ty} {p : Position}
    (typed : (Expr.name id ty p).Typed d f) (asTarget : Bool) :
    Results (expression asTarget (.name id ty p)) s fun v t =>
      d.Sees f id ∧ v.lease = none ∧
        Points s₁ t (ty, s₁.placeOf id) v ty room fun L m₀ => (s₁.elementAddress L m₀ (.name id ty p)).toNat := by
  rw [expression_name]
  refine (variableValue_resides resides start.declarations typed).mono ?_
  rintro _ _ ⟨rfl, rfl, backs, sees⟩
  have inside : (s₁.placeOf id).Inside ty.size (ty, s₁.placeOf id) :=
    ⟨0, by cases s₁.placeOf id <;> rfl, Nat.le_of_eq (Nat.zero_add _)⟩
  refine ⟨sees, rfl, ?_, rfl, rfl, .inl ⟨backs, rfl, inside, free⟩⟩
  refine ⟨start.entries, start.declarations, start.nodup, start.pool, start.simd, fun rsqrt L m₀ suits => ?_⟩
  obtain ⟨m, run, leaves, -⟩ := start.run rsqrt L m₀ suits
  refine ⟨m, run, leaves, ?_⟩
  rw [Machine.ofInt_toNat, elementAddress]
  cases place : s₁.placeOf id <;> rw [place] at backs <;> first | cases backs | rw [Machine.pointer, Machine.pointer, leaves.base]

/-- **An element of a container.** -/
theorem subscript_points {home : Holding} (resides : s₁.Resides d f) {base index : Expr} {e : Ty} {q : Position} {room room' : Nat} {S : Prop}
    (positive : 0 < room) (fewer : room' ≤ room) {asTarget : Bool} (isIndex : index.IsIndex) (typed : (Expr.subscript base index e q).Typed d f)
    (container : Results (expression asTarget base) s fun v t =>
      S ∧ (v.lease ≠ none → 2 ≤ room ∧ room' < room) ∧
        Points s₁ t home v base.ty room fun L m₀ => (s₁.elementAddress L m₀ base).toNat) :
    Results (expression asTarget (.subscript base index e q)) s fun v t =>
      S ∧ Points s₁ t home v e room' fun L m₀ => (s₁.elementAddress L m₀ (.subscript base index e q)).toNat := by
  cases typed with
  | subscript q typedBase typedIndex element integral =>
    rw [expression_subscript]
    refine container.bind ?_
    rintro v t ⟨holds, leads, points⟩
    refine (subscriptValue_points resides points positive fewer leads element isIndex typedIndex asTarget).bind fun v' t' points' => ?_
    have moved := points'.congr (B := fun L m₀ => (s₁.elementAddress L m₀ (.subscript base index e q)).toNat)
      fun L m₀ => by
        rw [Machine.ofInt_toNat, elementAddress, UInt64.ofInt_add, Machine.ofInt_toNat, Ty.stride_eq element]
    split
    · exact .pure ⟨holds, moved⟩
    · rw [materialize_whole]
      · exact .pure ⟨holds, moved⟩
      · rintro simd shift eq
        rcases points'.place with ⟨backs, -⟩ | ⟨b, location, -⟩
        · rw [eq] at backs
          cases backs
        · rw [location] at eq
          cases eq

/-- **The storage of an element** is that of its variable, or where a register
leads. -/
theorem element_points (resides : s₁.Resides d f) (start : s₁.Loads s fun _ _ _ => True)
    (free : 4 ≤ s.layout.freeGeneral.length) {e : Expr} {c : SymbolId} {t : Ty} (element : e.IsElement c t)
    (typed : e.Typed d f) (asTarget : Bool) :
    Results (expression asTarget e) s fun v u =>
      d.Sees f c ∧ Points s₁ u (t, s₁.placeOf c) v e.ty 1 fun L m₀ => (s₁.elementAddress L m₀ e).toNat := by
  cases element with
  | one p index e q =>
    cases id typed with
    | subscript q typedBase typedIndex has integral =>
      exact subscript_points resides Nat.two_pos (by decide) index typed
        ((name_points resides start free typedBase asTarget).mono fun _ _ h => ⟨h.1, fun some => absurd h.2.1 some, h.2.2⟩)
  | two p row r q column e q' =>
    cases id typed with
    | subscript q typedBase typedIndex has integral =>
      cases id typedBase with
      | subscript q typedBase' typedIndex' has' integral' =>
        refine subscript_points resides Nat.two_pos (Nat.le_succ 1) column typed
          ((subscript_points resides Nat.two_pos (Nat.le_refl 2) row typedBase
            ((name_points resides start free typedBase' asTarget).mono
              fun _ _ h => ⟨h.1, fun some => absurd h.2.1 some, h.2.2⟩)).mono fun _ _ h => ⟨h.1, fun _ => ⟨?_, ?_⟩, h.2⟩)
        · exact Nat.le_refl 2
        · exact Nat.one_lt_two

/-! ## Moves through a register -/

/-- A free register is leased without code. -/
theorem acquire_free {c : RegisterClass} {avoid : List Location}
    (free : ∃ id ∈ s.layout.free c, id ∉ registersOf c avoid) :
    Results (acquire c avoid) s fun x t => (∃ id, x = ⟨c.location id, none⟩) ∧ t.assembly = s.assembly := by
  obtain ⟨id, mem, clear⟩ := free
  unfold acquire
  refine .bindGet ?_
  rcases s.layout.lease_outcome c avoid with ⟨j, -, -, grant⟩ | ⟨taken, -⟩
  · rw [grant]
    exact .intro rfl ⟨⟨j, rfl⟩, rfl⟩
  · exact absurd (taken id mem) clear

theorem release_free (c : RegisterClass) (id : Nat) :
    Results (release ⟨c.location id, none⟩) s fun _ t => t.assembly = s.assembly := .intro rfl rfl

/-- **A value is moved through a register**: it is loaded from one place in
memory, and stored in another. -/
structure Hops (s t : LoweringState) (dst src : Location) (ty ty' : Ty) (load store : Instruction Nat) : Prop where
  code : ∃ text text', t.assembly.entries =
    s.assembly.entries ++ [.instruction load text, .instruction store text']
  register : store.reg = load.reg
  source : load.rm = src.operand ∧ load.opcode.writesOperand = false ∧ load.opcode.reach = ty'.size
  target : store.rm = dst.operand ∧ store.opcode.writesOperand = true ∧ store.opcode.reach = ty.size

/-- What is loaded to be stored in a place that holds no integer is a float, or
several. -/
def LoadsFloats (ty' : Ty) (src : Location) (load : Instruction Nat) : Prop :=
  ∀ (rsqrt : Word → Word) (L : Nat) (m : Machine), m.Grounded L → m.Has L ty'.size src →
    ∃ v, m.perform rsqrt load = .ok (m.setSimd load.reg v)

section

variable {dst src : Location} {ty ty' : Ty} {o o' : Opcode} {c : RegisterClass} {avoid : List Location}

theorem hop (free : ∃ id ∈ s.layout.free c, id ∉ registersOf c avoid) (toMemory : operandOf dst = .ok dst.operand)
    (ofMemory : operandOf src = .ok src.operand) (reads : o.writesOperand = false ∧ o.reach = ty'.size)
    (writes : o'.writesOperand = true ∧ o'.reach = ty.size) :
    Results (do
      let scratch ← acquire c avoid
      emit o scratch.location src
      emitStore o' dst scratch.location
      release scratch) s fun _ t => ∃ id, Hops s t dst src ty ty' ⟨o, id, src.operand, []⟩ ⟨o', id, dst.operand, []⟩ := by
  refine (acquire_free free).bind ?_
  rintro _ t ⟨⟨id, rfl⟩, same⟩
  obtain ⟨text, run⟩ := emit_eq (s := t) o (Regime.registerField_location c id) ofMemory []
  refine .bind (.intro run rfl : Results _ _ fun _ u => u = wrote t ⟨o, id, src.operand, []⟩ text) ?_
  rintro _ _ rfl
  obtain ⟨text', run'⟩ := emitStore_eq (s := wrote t ⟨o, id, src.operand, []⟩ text) o' toMemory
    (Regime.registerField_location c id)
  refine .bind (.intro run' rfl : Results _ _ fun _ u =>
    u = wrote (wrote t ⟨o, id, src.operand, []⟩ text) ⟨o', id, dst.operand, []⟩ text') ?_
  rintro _ _ rfl
  refine (release_free c id).mono fun _ u last => ⟨id, ⟨text, text', ?_⟩, rfl, ⟨rfl, reads⟩, ⟨rfl, writes⟩⟩
  rw [last, ← same]
  exact List.append_assoc t.assembly.entries [_] [_]

/-- A value is loaded into a leased accumulator, and stored from there. -/
theorem hop_accumulator (free : ∃ id ∈ s.layout.free c, id ∉ registersOf c avoid) (memory : dst.isRegister = false)
    (toMemory : operandOf dst = .ok dst.operand) (ofMemory : operandOf src = .ok src.operand) {w : Width}
    (reads : o.writesOperand = false ∧ o.reach = ty'.size)
    (writes : w.store.writesOperand = true ∧ w.store.reach = ty.size) :
    Results (do
      let (acc, lease) ← accumulator dst c avoid
      emit o acc src
      settle dst acc lease w) s fun _ t =>
        ∃ id, Hops s t dst src ty ty' ⟨o, id, src.operand, []⟩ ⟨w.store, id, dst.operand, []⟩ := by
  have lease : Results (accumulator dst c avoid) s fun x t =>
      (∃ id, x = (c.location id, some ⟨c.location id, none⟩)) ∧ t.assembly = s.assembly := by
    unfold accumulator
    rw [memory]
    refine (acquire_free free).bind ?_
    rintro _ t ⟨⟨id, rfl⟩, same⟩
    exact .pure ⟨⟨id, rfl⟩, same⟩
  refine lease.bind ?_
  rintro _ t ⟨⟨id, rfl⟩, same⟩
  dsimp only
  obtain ⟨text, run⟩ := emit_eq (s := t) o (Regime.registerField_location c id) ofMemory []
  refine .bind (.intro run rfl : Results _ _ fun _ u => u = wrote t ⟨o, id, src.operand, []⟩ text) ?_
  rintro _ _ rfl
  obtain ⟨text', run'⟩ := emitStore_eq (s := wrote t ⟨o, id, src.operand, []⟩ text) w.store toMemory
    (Regime.registerField_location c id)
  have register : (c.location id).isRegister = true := by cases c <;> rfl
  have other : dst ≠ c.location id := by
    rintro rfl
    rw [register] at memory
    cases memory
  unfold settle transfer
  dsimp only
  rw [if_neg other, memory, register]
  refine .bind (.intro run' rfl : Results _ _ fun _ u =>
    u = wrote (wrote t ⟨o, id, src.operand, []⟩ text) ⟨w.store, id, dst.operand, []⟩ text') ?_
  rintro _ _ rfl
  refine (release_free c id).mono fun _ u last => ⟨id, ⟨text, text', ?_⟩, rfl, ⟨rfl, reads⟩, ⟨rfl, writes⟩⟩
  rw [last, ← same]
  exact List.append_assoc t.assembly.entries [_] [_]

end

/-- **A value is stored** through a register, if it is no matrix. -/
theorem storeWhole_hops {dst : Location} {ty : Ty} {v : Value} (stores : ty.Stores v.ty) (flat : ty.isMatrix = false)
    (into : dst.isInMemory = true) (of : v.location.isInMemory = true) (apart : dst ≠ v.location)
    (free : ∀ c, ∃ id ∈ s.layout.free c, id ∉ registersOf c [dst, v.location]) :
    Results (storeWhole dst ty v) s fun _ t => ∃ load store, Hops s t dst v.location ty v.ty load store ∧
      (ty ≠ .int → ty ≠ .bool → LoadsFloats v.ty v.location load) := by
  obtain ⟨src, ty', lease, back⟩ := v
  dsimp only at *
  have memory : dst.isRegister = false := by cases dst <;> first | rfl | cases into
  have memory' : src.isRegister = false := by cases src <;> first | rfl | cases of
  have toMemory : operandOf dst = .ok dst.operand := by cases dst <;> first | rfl | cases into
  have ofMemory : operandOf src = .ok src.operand := by cases src <;> first | rfl | cases of
  have integral : ∀ id, src ≠ .simdRegister id := by rintro _ rfl; cases of
  have float : ∀ id, src ≠ .register id := by rintro _ rfl; cases of
  have single {id : Nat} : LoadsFloats .float src ⟨.movssLoad, id, src.operand, []⟩ := fun rsqrt L m ground has => by
    obtain ⟨w, run, -⟩ := Machine.perform_loadFloat _ has ground float id
    exact ⟨w, run⟩
  have packed {t : Ty} {id : Nat} (wide : t.size = 16) : LoadsFloats t src ⟨.movupsLoad, id, src.operand, []⟩ :=
    fun rsqrt L m ground has => ⟨_, Machine.perform_loadPacked (wide ▸ has) ground float id⟩
  have converted {id : Nat} : LoadsFloats .int src ⟨.cvtsi2ss, id, src.operand, []⟩ := fun rsqrt L m ground has =>
    ⟨_, Machine.perform_convert has ground integral id⟩
  -- Values of one type are transferred as they are.
  have same (w : Width) (wide : w.load.reach = ty.size ∧ w.store.reach = ty.size)
      (plain : w.load.writesOperand = false ∧ w.store.writesOperand = true) :
      Results (transfer w dst src) s fun _ t => ∃ id, Hops s t dst src ty ty ⟨w.load, id, src.operand, []⟩
        ⟨w.store, id, dst.operand, []⟩ := by
    unfold transfer
    rw [if_neg apart, memory, memory']
    exact hop (free _) toMemory ofMemory ⟨plain.1, wide.1⟩ ⟨plain.2, wide.2⟩
  have words (same' : ty' = ty) (w : Width) (wide : w.load.reach = ty.size ∧ w.store.reach = ty.size)
      (plain : w.load.writesOperand = false ∧ w.store.writesOperand = true)
      (floats : ∀ id, ty ≠ .int → ty ≠ .bool → LoadsFloats ty src ⟨w.load, id, src.operand, []⟩) :
      Results (transfer w dst src) s fun _ t => ∃ load store, Hops s t dst src ty ty' load store ∧
        (ty ≠ .int → ty ≠ .bool → LoadsFloats ty' src load) := by
    subst same'
    refine (same w wide plain).mono ?_
    rintro _ t ⟨id, hops⟩
    exact ⟨_, _, hops, floats id⟩
  cases stores with
  | same storage =>
    cases ty with
    | void | function => exact absurd rfl storage
    | mat3x3 | mat4x4 => cases flat
    | bool => exact words rfl .dword ⟨rfl, rfl⟩ ⟨rfl, rfl⟩ fun _ _ other => absurd rfl other
    | int => exact words rfl .dword ⟨rfl, rfl⟩ ⟨rfl, rfl⟩ fun _ other => absurd rfl other
    | float => exact words rfl .single ⟨rfl, rfl⟩ ⟨rfl, rfl⟩ fun _ _ _ => single
    | vec3 | vec4 => exact words rfl .packed ⟨rfl, rfl⟩ ⟨rfl, rfl⟩ fun _ _ _ => packed rfl
  | converted scalar scalar' =>
    cases ty <;> cases scalar <;> cases ty' <;> cases scalar'
    · exact words rfl .dword ⟨rfl, rfl⟩ ⟨rfl, rfl⟩ fun _ other => absurd rfl other
    · refine (hop_accumulator (w := .dword) (free .general) memory toMemory ofMemory
        (⟨rfl, rfl⟩ : Opcode.cvttss2si.writesOperand = false ∧ Opcode.cvttss2si.reach = Ty.float.size)
        (⟨rfl, rfl⟩ : Opcode.movStore.writesOperand = true ∧ Opcode.movStore.reach = Ty.int.size)).mono ?_
      rintro _ t ⟨id, hops⟩
      exact ⟨_, _, hops, fun other => absurd rfl other⟩
    · refine (hop_accumulator (w := .single) (free .simd) memory toMemory ofMemory
        (⟨rfl, rfl⟩ : Opcode.cvtsi2ss.writesOperand = false ∧ Opcode.cvtsi2ss.reach = Ty.int.size)
        (⟨rfl, rfl⟩ : Opcode.movssStore.writesOperand = true ∧ Opcode.movssStore.reach = Ty.float.size)).mono ?_
      rintro _ t ⟨id, hops⟩
      exact ⟨_, _, hops, fun _ _ => converted⟩
    · exact words rfl .single ⟨rfl, rfl⟩ ⟨rfl, rfl⟩ fun _ _ _ => single

/-! ## Accesses -/

/-- **An instruction accesses an element** behind some code, with the width of
the element: on every machine, its operand stands at the address of the
element, and so does an address register that it goes through. -/
structure AccessesAt (s₁ : LoweringState) (before : List CodeEntry) (i : Instruction Nat) (e : Expr) : Prop where
  width : i.opcode.reach = e.ty.size
  address : ∀ rsqrt L m₀, s₁.Suits L m₀ → ∃ m, Machine.Track.run rsqrt (.running m₀) before = .running m ∧
    m.operandAddress? i = some (s₁.elementAddress L m₀ e).toNat ∧
    ∀ id, i.rm = .indirect id → m.general64 id = s₁.elementAddress L m₀ e

/-- **Code reads an element** into a place: behind the code for its address, it
is loaded into a register, and stored. -/
def ReadsElement (s₁ : LoweringState) (x : Location) (e : Expr) (code : List CodeEntry) : Prop :=
  ∃ before load store text text', code = before ++ [.instruction load text, .instruction store text'] ∧
    store.reg = load.reg ∧ store.rm = x.operand ∧ load.opcode.writesOperand = false ∧
    store.opcode.writesOperand = true ∧ AccessesAt s₁ before load e

/-- **Code writes an element** from a place: behind the code for its address, a
register is loaded from the place, and stored. -/
def WritesElement (s₁ : LoweringState) (x : Location) (e : Expr) (code : List CodeEntry) : Prop :=
  ∃ before load store text text', code = before ++ [.instruction load text, .instruction store text'] ∧
    store.reg = load.reg ∧ load.rm = x.operand ∧ load.opcode.writesOperand = false ∧
    store.opcode.writesOperand = true ∧ AccessesAt s₁ (before ++ [.instruction load text]) store e

theorem inScope_assembly {α : Type} {action : Lower α} {P : α → Assembly → Prop}
    (h : Results action (opened s) fun a t => P a t.assembly) :
    Results (inScope action) s fun a t => P a t.assembly := by
  intro a t run
  obtain ⟨u, inner, close⟩ := exists_of_inScope run
  have closes : Results (leaveScope s.scopes.length) u fun _ t => t.assembly = u.assembly := by
    unfold leaveScope
    refine .bindGet ?_
    split
    · exact .pure rfl
    · exact .intro rfl rfl
  exact closes _ t close ▸ h a u inner

/-- A value that is given up leaves the code as it is. -/
theorem finish_assembly {v : Value} (lease : v.lease = none ∨ ∃ b, v.lease = some ⟨.register b, none⟩) :
    Results (finish v) s fun _ t => t.assembly = s.assembly := by
  unfold finish
  rcases lease with none | ⟨b, some⟩
  · rw [none]
    exact .pure rfl
  · rw [some]
    exact release_free .general b

/-- An element of a variable is smaller than the variable. -/
theorem element_smaller {e : Expr} {c : SymbolId} {t : Ty} (element : e.IsElement c t) (typed : e.Typed d f) :
    e.ty.size < t.size ∧ 0 < e.ty.size ∧ e.ty ≠ .int ∧ e.ty ≠ .bool ∧ e.ty.isMatrix = false := by
  cases element with
  | one p index e q =>
    cases id typed with
    | subscript q typedBase typedIndex has integral => exact Ty.smaller_of_element has
  | two p row r q column e q' =>
    cases id typed with
    | subscript q typedBase typedIndex has integral =>
      cases id typedBase with
      | subscript q typedBase' typedIndex' has' integral' =>
        obtain ⟨less, flat⟩ := Ty.smaller_of_element has
        exact ⟨Nat.lt_trans less (Ty.smaller_of_element has').1, flat⟩

theorem size_of_stores {a b : Ty} (h : a.Stores b) : a.size = b.size := by
  cases h with
  | same => rfl
  | converted scalar scalar' => cases a <;> cases scalar <;> cases b <;> cases scalar' <;> rfl

theorem store_memory {l : Location} (memory : l.isInMemory = true) (ty : Ty) (v : Value) :
    store l ty v = storeWhole l ty v := by
  cases l <;> first | rfl | cases memory

section

variable {home : Holding} {v : Value} {ty : Ty} {room : Nat} {A : Nat → Machine → Int} {x : Location} {n : Nat}

theorem Points.isInMemory (points : Points s₁ s home v ty room A) : v.location.isInMemory = true := by
  rcases points.place with ⟨backs, -⟩ | ⟨b, location, -⟩
  · exact backs.isInMemory
  · rw [location]
    rfl

theorem Points.lease (points : Points s₁ s home v ty room A) :
    v.lease = none ∨ ∃ b, v.lease = some ⟨.register b, none⟩ := by
  rcases points.place with ⟨-, none, -⟩ | ⟨b, -, some, -⟩
  · exact .inl none
  · exact .inr ⟨b, some⟩

/-- Registers are free that neither a variable in memory nor an element
occupies. -/
theorem Points.vacant (points : Points s₁ s home v ty (room + 1) A) (backs : s₁.Backs n x) {avoid : List Location}
    (only : ∀ l ∈ avoid, l = x ∨ l = v.location) (c : RegisterClass) :
    ∃ id ∈ s.layout.free c, id ∉ registersOf c avoid := by
  have clear (id : Nat) (free : id ∈ s.layout.free c) : id ∉ registersOf c avoid := by
    intro mem
    obtain ⟨l, hl, eq⟩ := mem_registersOf.1 mem
    rcases only l hl with rfl | rfl
    · rw [backs.registerOf?] at eq
      cases eq
    · rcases points.place with ⟨backs, -⟩ | ⟨b, location, -, -, notFree, -⟩
      · rw [backs.registerOf?] at eq
        cases eq
      · rw [location] at eq
        cases eq
        exact notFree free
  cases c with
  | general =>
    have free : 0 < s.layout.freeGeneral.length := by
      rcases points.place with ⟨-, -, -, free⟩ | ⟨_, -, -, -, -, free⟩ <;> omega
    obtain ⟨id, ids, same⟩ := List.exists_cons_of_length_pos free
    have mem : id ∈ s.layout.freeGeneral := same ▸ List.mem_cons_self
    exact ⟨id, mem, clear id mem⟩
  | simd =>
    have mem : 0 ∈ s.layout.free .simd := by
      change 0 ∈ s.layout.freeSimd
      rw [points.loads.simd]
      decide
    exact ⟨0, mem, clear 0 mem⟩

/-- An element of a variable does not stand where another variable does. -/
theorem Points.apart (points : Points s₁ s home v ty room A) (backs : s₁.Backs n x) (sized : 0 < n) (sized' : 0 < ty.size)
    (apart : x.Apart n home.1.size home.2) : x ≠ v.location := by
  rintro rfl
  rcases points.place with ⟨-, -, ⟨k, place, inside⟩, -⟩ | ⟨b, location, -⟩
  · rw [place] at backs apart
    cases eq : home.2 <;> rw [eq] at backs apart <;> first
      | cases backs
      | (simp only [Location.offsetBy, Location.Apart] at apart; omega)
  · rw [location] at backs
    cases backs

/-- **An operand that stands where an element does** stands at its address. -/
theorem Points.operand {e : Expr}
    (points : Points s₁ s home v ty room fun L m₀ => (s₁.elementAddress L m₀ e).toNat) (sized : 0 < ty.size) {L : Nat}
    {m m₀ : Machine} (suits : s₁.Suits L m₀) (ground : m.Grounded L)
    (holds : m.pointer L v.location = .ofInt ((s₁.elementAddress L m₀ e).toNat : Int)) {i : Instruction Nat}
    (rm : i.rm = v.location.operand) : m.operandAddress? i = some (s₁.elementAddress L m₀ e).toNat ∧
      ∀ id, i.rm = .indirect id → m.general64 id = s₁.elementAddress L m₀ e := by
  rw [Machine.ofInt_toNat] at holds
  have memory := points.isInMemory
  refine ⟨?_, fun id indirect => ?_⟩
  · rw [← holds]
    refine ground.operandAddress?_pointer ?_ memory fun o eq => ?_
    · rw [rm]
      cases eq : v.location <;> rw [eq] at memory <;> first | rfl | cases memory
    · rcases points.place with ⟨backs, -⟩ | ⟨b, location, -⟩
      · exact suits.near backs sized o eq
      · rw [location] at eq
        cases eq
  · rw [rm] at indirect
    cases eq : v.location <;> rw [eq] at indirect holds <;> cases indirect
    exact holds

end

/-! ## Statements -/

/-- No code has been written. -/
theorem Loads.start (resides : s₁.Resides d f) : s₁.Loads s₁ fun _ _ _ => True where
  entries := ⟨[], (List.append_nil _).symm⟩
  declarations := rfl
  nodup := by rw [resides.general]; decide
  pool := by rw [resides.general]; exact fun _ h => h
  simd := resides.simd
  run := fun rsqrt L m₀ suits => ⟨m₀, by rw [codeSince_self]; rfl, .refl m₀ _ _, trivial⟩

section

variable {x c : SymbolId} {xt t : Ty} {p q : Position} {e : Expr}

/-- The code behind the code of an address. -/
theorem Hops.entries {home : Holding} {v : Value} {ty ty' ty'' : Ty} {room : Nat} {A : Nat → Machine → Int}
    {u w : LoweringState} {dst src : Location} {load store : Instruction Nat} (points : Points s₁ u home v ty room A)
    (hops : Hops u w dst src ty' ty'' load store) : ∃ text text', w.assembly.entries =
      s₁.assembly.entries ++ (u.codeSince s₁ ++ [.instruction load text, .instruction store text']) := by
  obtain ⟨text, text', code⟩ := hops.code
  obtain ⟨es, entries⟩ := points.loads.entries
  exact ⟨text, text', by rw [code, codeSince_of_append entries, entries, List.append_assoc]⟩

/-- **An element is read** behind the code of its address. -/
theorem Points.reads {home : Holding} {v : Value} {xt : Ty} {room : Nat} {e : Expr} {u w : LoweringState} {x : Location}
    {load store : Instruction Nat}
    (points : Points s₁ u home v e.ty room fun L m₀ => (s₁.elementAddress L m₀ e).toNat) (sized : 0 < e.ty.size)
    (hops : Hops u w x v.location xt e.ty load store) :
    ∃ code, w.assembly.entries = s₁.assembly.entries ++ code ∧ ReadsElement s₁ x e code := by
  obtain ⟨text, text', entries⟩ := hops.entries points
  refine ⟨_, entries, _, load, store, text, text', rfl, hops.register, hops.target.1, hops.source.2.1, hops.target.2.1,
    hops.source.2.2, fun rsqrt L m₀ suits => ?_⟩
  obtain ⟨m, run, leaves, holds⟩ := points.loads.run rsqrt L m₀ suits
  exact ⟨m, run, points.operand sized suits (leaves.grounded suits.grounded (by decide)) holds hops.source.1⟩

/-- **An element is written** behind the code of its address. -/
theorem Points.writes {home : Holding} {v : Value} {xt : Ty} {room : Nat} {e : Expr} {u w : LoweringState} {x : Location}
    {load store : Instruction Nat}
    (points : Points s₁ u home v e.ty room fun L m₀ => (s₁.elementAddress L m₀ e).toNat) (sized : 0 < e.ty.size)
    (backs : s₁.Backs xt.size x) (sized' : 0 < xt.size) (ok : s₁.Ok) (hops : Hops u w v.location x e.ty xt load store)
    (floats : LoadsFloats xt x load) :
    ∃ code, w.assembly.entries = s₁.assembly.entries ++ code ∧ WritesElement s₁ x e code := by
  obtain ⟨text, text', entries⟩ := hops.entries points
  refine ⟨_, entries, _, load, store, text, text', rfl, hops.register, hops.source.1, hops.source.2.1, hops.target.2.1,
    hops.target.2.2, fun rsqrt L m₀ suits => ?_⟩
  obtain ⟨m, run, leaves, holds⟩ := points.loads.run rsqrt L m₀ suits
  have ground := leaves.grounded suits.grounded (by decide)
  have has : m.Has L xt.size x :=
    ⟨.inr backs.isInMemory, suits.near backs sized', fun _ => suits.spans ok backs leaves.size⟩
  obtain ⟨lanes, loaded⟩ := floats rsqrt L m ground has
  refine ⟨m.setSimd load.reg lanes, ?_, points.operand sized suits (m := m.setSimd load.reg lanes) ?_ holds hops.target.1⟩
  · rw [Machine.Track.run_append, run, Machine.Track.run_instruction, loaded]
  · exact ⟨ground.localBase, ground.whole⟩

theorem flat_of_stores {a b : Ty} (h : a.Stores b) : a.isMatrix = b.isMatrix := by
  cases h with
  | same => rfl
  | converted scalar scalar' => cases a <;> cases scalar <;> cases b <;> cases scalar' <;> rfl

/-- The variable that an element is of. -/
theorem container_typed {e : Expr} {c : SymbolId} {t : Ty} (element : e.IsElement c t) (typed : e.Typed d f) :
    ∃ p, (Expr.name c t p).Typed d f := by
  cases element with
  | one p =>
    cases id typed with
    | subscript q typedBase => exact ⟨p, typedBase⟩
  | two p =>
    cases id typed with
    | subscript q typedBase =>
      cases id typedBase with
      | subscript q typedBase' => exact ⟨p, typedBase'⟩

/-- **A variable receives an element.** -/
theorem assign_reads (resides : s₁.Resides d f) (element : e.IsElement c t) 
    (typed : (Expr.assign none (.name x xt p) e xt q).Typed d f) :
    Results (statement (.expression (.assign none (.name x xt p) e xt q))) s₁ fun _ u =>
      ∃ code, u.assembly.entries = s₁.assembly.entries ++ code ∧ ReadsElement s₁ (s₁.placeOf x) e code := by
  cases id typed with
  | assign q typedX typedE changeable takes =>
    obtain ⟨stores⟩ := takes
    obtain ⟨smaller, sized, -, -, flat⟩ := element_smaller element typedE
    obtain ⟨p', typedC⟩ := container_typed element typedE
    have size : xt.size = e.ty.size := size_of_stores stores
    have sized' : 0 < xt.size := size ▸ sized
    have flat' : xt.isMatrix = false := (flat_of_stores stores).trans flat
    have other : xt ≠ t := by
      rintro rfl
      omega
    rw [statement, effect_eq]
    refine inScope_assembly (P := fun _ a => ∃ code, a.entries = s₁.assembly.entries ++ code ∧
      ReadsElement s₁ (s₁.placeOf x) e code) ?_
    have begin : s₁.Loads (opened s₁) fun _ _ _ => True :=
      (Loads.start resides).rest rfl rfl (Loads.start resides).nodup (Loads.start resides).pool rfl
    have all : 4 ≤ s₁.layout.freeGeneral.length := by
      rw [resides.general]
      decide
    -- Behind the assignment the element is given up, and no register is loaded again.
    have assigns : Results (assignValue none xt e.ty (expression true (.name x xt p)) (expression false e)) (opened s₁)
        fun v u => (v.location.isInMemory = true ∧ v.lease = none) ∧ ∃ code,
          u.assembly.entries = s₁.assembly.entries ++ code ∧ ReadsElement s₁ (s₁.placeOf x) e code := by
      unfold assignValue
      have target : Results (expression true (.name x xt p)) (opened s₁) fun v u =>
          v = ⟨s₁.placeOf x, xt, none, none⟩ ∧ u = opened s₁ ∧ s₁.Backs xt.size (s₁.placeOf x) ∧ d.Sees f x := by
        rw [expression_name]
        exact variableValue_resides resides begin.declarations typedX
      refine target.bind ?_
      rintro _ _ ⟨rfl, rfl, backs, sees⟩
      refine .bind (Q := fun _ u => ∃ code, u.assembly.entries = s₁.assembly.entries ++ code ∧
        ReadsElement s₁ (s₁.placeOf x) e code) (inScope_assembly (P := fun _ a => ∃ code,
          a.entries = s₁.assembly.entries ++ code ∧ ReadsElement s₁ (s₁.placeOf x) e code) ?_) ?_
      · refine (element_points resides (begin.rest (t := opened (opened s₁)) rfl rfl begin.nodup begin.pool rfl) all element typedE false).bind ?_
        rintro v u ⟨sees', points⟩
        dsimp only
        rw [store_memory backs.isInMemory]
        have stores' : xt.Stores v.ty := points.typed ▸ stores
        refine (storeWhole_hops stores' flat' backs.isInMemory points.isInMemory
          (points.apart backs sized' sized (resides.apart sees sees' typedX typedC other))
          (points.vacant backs fun l hl => by simpa using hl)).bind ?_
        rintro _ w ⟨load, store, hops, -⟩
        rw [points.typed] at hops
        refine (finish_assembly points.lease).mono fun _ w' same => ?_
        rw [same]
        exact points.reads sized hops
      · intro _ u reads
        exact .pure ⟨⟨backs.isInMemory, rfl⟩, reads⟩
    rw [value, expression_assign]
    refine .bind (assigns.bind ?_) (Q := fun v u => v.lease = none ∧ ∃ code,
      u.assembly.entries = s₁.assembly.entries ++ code ∧ ReadsElement s₁ (s₁.placeOf x) e code) ?_
    · rintro v u ⟨⟨memory, lease⟩, reads⟩
      rw [materialize_whole (by rintro _ _ eq; rw [eq] at memory; cases memory)]
      exact .pure ⟨lease, reads⟩
    · rintro v u ⟨lease, reads⟩
      refine (finish_assembly (.inl lease)).mono fun _ u' same => ?_
      rw [same]
      exact reads

/-- **An element receives the value of a variable.** -/
theorem assign_writes (resides : s₁.Resides d f) (element : e.IsElement c t)
    (typed : (Expr.assign none e (.name x xt p) e.ty q).Typed d f) :
    Results (statement (.expression (.assign none e (.name x xt p) e.ty q))) s₁ fun _ u =>
      ∃ code, u.assembly.entries = s₁.assembly.entries ++ code ∧ WritesElement s₁ (s₁.placeOf x) e code := by
  cases id typed with
  | assign q typedE typedX changeable takes =>
    obtain ⟨stores⟩ := takes
    obtain ⟨smaller, sized, noInt, noBool, flat⟩ := element_smaller element typedE
    obtain ⟨p', typedC⟩ := container_typed element typedE
    have size : e.ty.size = xt.size := size_of_stores stores
    have sized' : 0 < xt.size := size ▸ sized
    have other : xt ≠ t := by
      rintro rfl
      omega
    rw [statement, effect_eq]
    refine inScope_assembly (P := fun _ a => ∃ code, a.entries = s₁.assembly.entries ++ code ∧
      WritesElement s₁ (s₁.placeOf x) e code) ?_
    have begin : s₁.Loads (opened s₁) fun _ _ _ => True :=
      (Loads.start resides).rest rfl rfl (Loads.start resides).nodup (Loads.start resides).pool rfl
    have all : 4 ≤ s₁.layout.freeGeneral.length := by
      rw [resides.general]
      decide
    -- The element is given up behind the assignment.
    have assigns : Results (assignValue none e.ty xt (expression true e) (expression false (.name x xt p))) (opened s₁)
        fun v u => (v.location.isInMemory = true ∧ (v.lease = none ∨ ∃ b, v.lease = some ⟨.register b, none⟩)) ∧
          ∃ code, u.assembly.entries = s₁.assembly.entries ++ code ∧ WritesElement s₁ (s₁.placeOf x) e code := by
      unfold assignValue
      refine (element_points resides begin all element typedE true).bind ?_
      rintro v u ⟨sees', points⟩
      refine .bind (Q := fun _ u => ∃ code, u.assembly.entries = s₁.assembly.entries ++ code ∧
        WritesElement s₁ (s₁.placeOf x) e code) (inScope_assembly (P := fun _ a => ∃ code,
          a.entries = s₁.assembly.entries ++ code ∧ WritesElement s₁ (s₁.placeOf x) e code) ?_) ?_
      · have source : Results (expression false (.name x xt p)) (opened u) fun v' u' =>
            v' = ⟨s₁.placeOf x, xt, none, none⟩ ∧ u' = opened u ∧ s₁.Backs xt.size (s₁.placeOf x) ∧ d.Sees f x := by
          rw [expression_name]
          exact variableValue_resides (s := opened u) resides points.loads.declarations typedX
        refine source.bind ?_
        rintro _ _ ⟨rfl, rfl, backs, sees⟩
        have points' : Points s₁ (opened u) (t, s₁.placeOf c) v e.ty 1 fun L m₀ =>
            (s₁.elementAddress L m₀ e).toNat :=
          ⟨points.loads.rest rfl rfl points.loads.nodup points.loads.pool rfl, points.typed, points.writeBack, points.place⟩
        dsimp only
        rw [store_memory points.isInMemory]
        have apart := points.apart backs sized' sized (resides.apart sees sees' typedX typedC other)
        refine (storeWhole_hops stores flat points.isInMemory backs.isInMemory apart.symm
          (points'.vacant backs fun l hl => by simpa [or_comm] using hl)).bind ?_
        rintro _ w ⟨load, store, hops, floats⟩
        refine (finish_assembly (.inl rfl)).mono fun _ w' same => ?_
        rw [same]
        exact points'.writes sized backs sized' resides.ok hops (floats noInt noBool)
      · intro _ w writes
        rw [points.writeBack]
        exact .pure ⟨⟨points.isInMemory, points.lease⟩, writes⟩
    rw [value, expression_assign]
    refine .bind (assigns.bind ?_) (Q := fun v u => (v.lease = none ∨ ∃ b, v.lease = some ⟨.register b, none⟩) ∧
      ∃ code, u.assembly.entries = s₁.assembly.entries ++ code ∧ WritesElement s₁ (s₁.placeOf x) e code) ?_
    · rintro v u ⟨⟨memory, lease⟩, writes⟩
      rw [materialize_whole (by rintro _ _ eq; rw [eq] at memory; cases memory)]
      exact .pure ⟨lease, writes⟩
    · rintro v u ⟨lease, writes⟩
      refine (finish_assembly lease).mono fun _ u' same => ?_
      rw [same]
      exact writes

end

end Lower

end Shading
