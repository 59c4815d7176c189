import Shading.Proofs.Object.Globals

/-!
# An object is a store of global variables

Between executions the host calls an object to write and to read its
global variables. To the host the object is a map from the global variables
of the shader to bytes, all zero at first: a call that writes one with
the right type or number of bytes replaces the bytes of that variable, and
every other call leaves the map alone (`HostCall.stores?`). What each
variable holds after some calls is what was stored there last
(`HostVariable.heldAfter`), and that determines every answer
(`HostCall.answer`).

An object has nothing like that map. It has one block, in which globals,
staging slots and constants alternate, and an index of names. A call has
its effect within one range of the block (`Object.Furnished.call_of_stores`);
since the ranges lie apart, the bytes of each of them follow the map
(`Object.Reached`), and all other bytes stay. `Object.KeepsStore` collects
what this means for the host.
-/

namespace Shading

/-! ## Calls and the map behind them -/

/-- **A call of the host.** -/
inductive HostCall where
  | write (name : String) (value : HostValue)
  | writeBytes (name : String) (bytes : List UInt8)
  | read (name : String) (type : HostType)
  | readBytes (name : String)
deriving DecidableEq

/-- **What a call of the host answers** if it succeeds. -/
inductive HostAnswer where
  | written
  | value (value : HostValue)
  | bytes (bytes : List UInt8)
deriving DecidableEq

/-- **A global variable as the host knows it.** -/
structure HostVariable where
  name : String
  ty : Ty
  /-- Whether it lives in memory, where the host can read it. -/
  readable : Bool
deriving DecidableEq

namespace HostCall

/-- The name that a call is about. -/
def name : HostCall → String
  | write name _ | writeBytes name _ | read name _ | readBytes name => name

/-- **The bytes that a call stores in a variable**, if it writes that
variable, with a value of the right type or with the right number of
bytes. -/
def stores? (v : HostVariable) : HostCall → Option (List UInt8)
  | write name value => if v.name = name ∧ value.type.accepts v.ty then some value.bytes else none
  | writeBytes name bytes => if v.name = name ∧ bytes.length = v.ty.size then some bytes else none
  | read _ _ | readBytes _ => none

/-- The variable with a name. -/
def lookup (vs : List HostVariable) (name : String) : Except Error HostVariable :=
  match vs.find? (fun v => v.name == name) with
  | some v => .ok v
  | none => .error (.unknownGlobal name)

/-- **The answer of a store** in which each variable holds certain
bytes. -/
def answer (vs : List HostVariable) (held : HostVariable → List UInt8) :
    HostCall → Except Error HostAnswer
  | write name value => do
    let v ← lookup vs name
    if value.type.accepts v.ty then return .written
    else .error (.globalTypeMismatch v.name v.ty (.value value.type.name))
  | writeBytes name bytes => do
    let v ← lookup vs name
    if bytes.length = v.ty.size then return .written
    else .error (.globalTypeMismatch v.name v.ty (.bytes bytes.length))
  | read name t => do
    let v ← lookup vs name
    if t.accepts v.ty then
      if v.readable then
        match HostValue.ofBytes? t (held v) with
        | some value => return .value value
        | none => .error (.globalTypeMismatch v.name v.ty (.value t.name))
      else .error (.registerResident name)
    else .error (.globalTypeMismatch v.name v.ty (.value t.name))
  | readBytes name => do
    let v ← lookup vs name
    if v.readable then return .bytes (held v)
    else .error (.registerResident name)

end HostCall

namespace HostVariable

/-- **What a variable holds after some calls**: the bytes that were stored
last, or zeros. -/
def heldAfter (v : HostVariable) (calls : List HostCall) : List UInt8 :=
  (calls.filterMap (HostCall.stores? v)).getLast?.getD (List.replicate v.ty.size 0)

variable {v : HostVariable} {c : HostCall} {calls : List HostCall}

/-- A variable starts at zero. -/
@[simp] theorem heldAfter_nil : v.heldAfter [] = List.replicate v.ty.size 0 := rfl

/-- Another call replaces the bytes, or leaves them alone. -/
theorem heldAfter_concat : v.heldAfter (calls ++ [c]) = (c.stores? v).getD (v.heldAfter calls) := by
  unfold heldAfter
  cases stored : c.stores? v with
  | none => simp [stored]
  | some bytes => simp [stored, List.filterMap_append]

/-- **What was stored last is held**, whatever calls followed that do not
store there. -/
theorem heldAfter_of_last {bytes : List UInt8} {later : List HostCall} (stored : c.stores? v = some bytes)
    (idle : ∀ c ∈ later, c.stores? v = none) : v.heldAfter (calls ++ c :: later) = bytes := by
  have none : later.filterMap (HostCall.stores? v) = [] := List.filterMap_eq_nil_iff.2 idle
  rw [heldAfter, List.filterMap_append, List.filterMap_cons_some stored, none, List.getLast?_concat]
  rfl

/-- **What is stored in a variable** is stored by its name, and has the size
of its type. -/
theorem of_stores? {bytes : List UInt8} (stored : c.stores? v = some bytes) :
    v.name = c.name ∧ bytes.length = v.ty.size := by
  cases c with
  | write name value =>
    obtain ⟨⟨named, accepted⟩, same⟩ := Option.ite_none_right_eq_some.1 stored
    cases same
    exact ⟨named, value.length_bytes.trans (HostType.size_eq_of_accepts accepted)⟩
  | writeBytes name bytes' =>
    obtain ⟨⟨named, length⟩, same⟩ := Option.ite_none_right_eq_some.1 stored
    cases same
    exact ⟨named, length⟩
  | read name t => cases stored
  | readBytes name => cases stored

theorem length_heldAfter : (v.heldAfter calls).length = v.ty.size := by
  unfold heldAfter
  cases last : (calls.filterMap (HostCall.stores? v)).getLast? with
  | none => simp
  | some bytes =>
    obtain ⟨c, -, stored⟩ := List.mem_filterMap.1 (List.mem_of_getLast? last)
    exact (of_stores? stored).2

end HostVariable

/-! ## Calls of an object -/

/-- What the host knows of a global. -/
def ObjectGlobal.toHost (g : ObjectGlobal) : HostVariable :=
  ⟨g.name, g.ty, g.residency ≠ .register⟩

@[simp] theorem ObjectGlobal.name_toHost (g : ObjectGlobal) : g.toHost.name = g.name := rfl

@[simp] theorem ObjectGlobal.ty_toHost (g : ObjectGlobal) : g.toHost.ty = g.ty := rfl

@[simp] theorem ObjectGlobal.readable_toHost (g : ObjectGlobal) :
    g.toHost.readable = decide (g.residency ≠ .register) := rfl

namespace Object

/-- What the host knows of the globals. -/
def hostVariables (o : Object) : List HostVariable := o.globals.map ObjectGlobal.toHost

/-- **Runs one call of the host.** -/
def call (o : Object) : HostCall → Except Error (HostAnswer × Object)
  | .write name value => (o.writeGlobal name value).map fun o => (.written, o)
  | .writeBytes name bytes => (o.writeGlobalBytes name bytes).map fun o => (.written, o)
  | .read name t => (o.readGlobal name t).map fun value => (.value value, o)
  | .readBytes name => (o.readGlobalBytes name).map fun bytes => (.bytes bytes, o)

/-- The object after a call, which is the same object if the call
fails. -/
def after (o : Object) (c : HostCall) : Object :=
  match o.call c with
  | .ok (_, o) => o
  | .error _ => o

/-- The object after some calls. -/
def afterAll (o : Object) (calls : List HostCall) : Object := calls.foldl after o

theorem afterAll_concat (o : Object) (calls : List HostCall) (c : HostCall) :
    o.afterAll (calls ++ [c]) = (o.afterAll calls).after c := by
  rw [afterAll, List.foldl_append]
  rfl

variable {o t : Object} {g : ObjectGlobal} {globalSize : Nat} {c : HostCall}

/-! ## Names -/

/-- Where names differ, a name leads to what has it. -/
theorem find?_named {α : Type} {f : α → String} {xs : List α} (nodup : (xs.map f).Nodup) {x : α} (hx : x ∈ xs) :
    xs.find? (fun y => f y == f x) = some x := by
  cases found : xs.find? (fun y => f y == f x) with
  | none => exact absurd (List.find?_eq_none.1 found x hx) (by simp)
  | some y =>
    have same : f y = f x := by simpa using List.find?_some found
    rw [List.inj_on_of_nodup_map nodup (List.mem_of_find?_eq_some found) hx same]

/-- **A global is found by its name.** -/
theorem Furnished.findGlobal_eq (h : o.Furnished globalSize) (hg : g ∈ o.globals) :
    o.findGlobal g.name = .ok g := by
  have nodup : (o.globals.reverse.map ObjectGlobal.name).Nodup := by
    rw [List.map_reverse]
    exact List.nodup_reverse.2 h.distinct
  rw [findGlobal, find?_named nodup (List.mem_reverse.2 hg)]

theorem Furnished.lookup_eq (h : o.Furnished globalSize) (hg : g ∈ o.globals) :
    HostCall.lookup o.hostVariables g.name = .ok g.toHost := by
  have nodup : (o.hostVariables.map HostVariable.name).Nodup := by
    rw [hostVariables, List.map_map]
    exact h.distinct
  have found := find?_named nodup (List.mem_map_of_mem hg : g.toHost ∈ o.hostVariables)
  rw [HostCall.lookup, show g.name = g.toHost.name from rfl, found]

/-- A name has one global at most. -/
theorem Furnished.eq_of_name (h : o.Furnished globalSize) {g' : ObjectGlobal} (hg : g ∈ o.globals)
    (hg' : g' ∈ o.globals) (same : g.name = g'.name) : g = g' := List.inj_on_of_nodup_map h.distinct hg hg' same

theorem named_or_unknown (o : Object) (name : String) :
    (∃ g ∈ o.globals, g.name = name) ∨ ∀ g ∈ o.globals, g.name ≠ name := by
  by_cases known : ∃ g ∈ o.globals, g.name = name
  · exact .inl known
  · exact .inr fun g hg same => known ⟨g, hg, same⟩

/-- What no global is named is unknown. -/
theorem findGlobal_unknown {name : String} (unknown : ∀ g ∈ o.globals, g.name ≠ name) :
    o.findGlobal name = .error (.unknownGlobal name) ∧
      HostCall.lookup o.hostVariables name = .error (.unknownGlobal name) := by
  have none : o.globals.reverse.find? (fun g => g.name == name) = none :=
    List.find?_eq_none.2 fun g hg => by simpa using unknown g (List.mem_reverse.1 hg)
  have none' : o.hostVariables.find? (fun v => v.name == name) = Option.none :=
    List.find?_eq_none.2 fun v hv => by
      obtain ⟨g, hg, rfl⟩ := List.mem_map.1 hv
      simpa using unknown g hg
  rw [findGlobal, none, HostCall.lookup, none']
  exact ⟨rfl, rfl⟩

/-! ## One call -/

/-- **Writing bytes into a global.** -/
theorem Furnished.writeGlobalBytes_eq (h : o.Furnished globalSize) (hg : g ∈ o.globals) (bytes : List UInt8) :
    o.writeGlobalBytes g.name bytes =
      if bytes.length = g.ty.size then .ok { o with block := o.block.setBytes g.offset bytes }
      else .error (.globalTypeMismatch g.name g.ty (.bytes bytes.length)) := by
  simp only [writeGlobalBytes, h.findGlobal_eq hg, bind, Except.bind]
  split
  · next same =>
    have fits : g.offset + bytes.length ≤ o.block.size := same ▸ Nat.le_trans (h.inside g hg) h.room
    rw [Block.write, if_pos fits]
    rfl
  · rfl

/-- **Writing a value into a global.** -/
theorem Furnished.writeGlobal_eq (h : o.Furnished globalSize) (hg : g ∈ o.globals) (value : HostValue) :
    o.writeGlobal g.name value =
      if value.type.accepts g.ty then .ok { o with block := o.block.setBytes g.offset value.bytes }
      else .error (.globalTypeMismatch g.name g.ty (.value value.type.name)) := by
  simp only [writeGlobal, h.findGlobal_eq hg, checkType, bind, Except.bind]
  by_cases accepted : value.type.accepts g.ty = true
  · have length := value.length_bytes.trans (HostType.size_eq_of_accepts accepted)
    rw [if_pos accepted, if_pos accepted]
    exact (h.writeGlobalBytes_eq hg value.bytes).trans (if_pos length)
  · rw [if_neg accepted, if_neg accepted]

/-- **Reading the bytes of a global.** -/
theorem Furnished.readGlobalBytes_eq (h : o.Furnished globalSize) (hg : g ∈ o.globals) :
    o.readGlobalBytes g.name =
      if g.residency = .register then .error (.registerResident g.name)
      else .ok (o.block.getBytes g.offset g.ty.size) := by
  simp only [readGlobalBytes, h.findGlobal_eq hg, bind, Except.bind]
  cases g.residency with
  | register => rfl
  | memory offset => exact if_pos (Nat.le_trans (h.inside g hg) h.room)

/-- **Reading a value from a global.** The bytes decode, since they are as
many as its type has. -/
theorem Furnished.readGlobal_eq (h : o.Furnished globalSize) (hg : g ∈ o.globals) (t : HostType) :
    o.readGlobal g.name t =
      if t.accepts g.ty then
        if g.residency = .register then .error (.registerResident g.name)
        else match HostValue.ofBytes? t (o.block.getBytes g.offset g.ty.size) with
          | some value => .ok value
          | none => .error (.globalTypeMismatch g.name g.ty (.value t.name))
      else .error (.globalTypeMismatch g.name g.ty (.value t.name)) := by
  simp only [readGlobal, h.findGlobal_eq hg, checkType, h.readGlobalBytes_eq hg, bind, Except.bind]
  by_cases accepted : t.accepts g.ty = true
  · by_cases register : g.residency = .register
    · simp [accepted, register]
    · simp only [accepted, register, if_true, if_false]
      rfl
  · simp [accepted]

/-! ## When a call succeeds -/

variable {name : String}

/-- What holds of some global with a name holds of the one that is found. -/
theorem Furnished.exists_named (h : o.Furnished globalSize) (hg : g ∈ o.globals) {P : ObjectGlobal → Prop} :
    (∃ g' ∈ o.globals, g'.name = g.name ∧ P g') ↔ P g := by
  refine ⟨fun ⟨g', hg', same, holds⟩ => ?_, fun holds => ⟨g, hg, rfl, holds⟩⟩
  rwa [h.eq_of_name hg hg' same.symm]

theorem Furnished.writeGlobal_succeeds (h : o.Furnished globalSize) {value : HostValue} :
    (∃ o', o.writeGlobal name value = .ok o') ↔
      ∃ g ∈ o.globals, g.name = name ∧ value.type.accepts g.ty = true := by
  rcases o.named_or_unknown name with ⟨g, hg, rfl⟩ | unknown
  · rw [h.exists_named hg, h.writeGlobal_eq hg]
    split <;> simp [*]
  · simp only [writeGlobal, (findGlobal_unknown unknown).1, bind, Except.bind, reduceCtorEq, exists_false, false_iff]
    exact fun ⟨g, hg, same, _⟩ => unknown g hg same

theorem Furnished.writeGlobalBytes_succeeds (h : o.Furnished globalSize) {bytes : List UInt8} :
    (∃ o', o.writeGlobalBytes name bytes = .ok o') ↔
      ∃ g ∈ o.globals, g.name = name ∧ bytes.length = g.ty.size := by
  rcases o.named_or_unknown name with ⟨g, hg, rfl⟩ | unknown
  · rw [h.exists_named hg, h.writeGlobalBytes_eq hg]
    split <;> simp [*]
  · simp only [writeGlobalBytes, (findGlobal_unknown unknown).1, bind, Except.bind, reduceCtorEq, exists_false, false_iff]
    exact fun ⟨g, hg, same, _⟩ => unknown g hg same

theorem Furnished.readGlobalBytes_ok (h : o.Furnished globalSize) {bytes : List UInt8} :
    o.readGlobalBytes name = .ok bytes ↔ ∃ g ∈ o.globals, g.name = name ∧ g.residency ≠ .register ∧
      o.block.getBytes g.offset g.ty.size = bytes := by
  rcases o.named_or_unknown name with ⟨g, hg, rfl⟩ | unknown
  · rw [h.exists_named hg, h.readGlobalBytes_eq hg]
    split <;> simp [*]
  · simp only [readGlobalBytes, (findGlobal_unknown unknown).1, bind, Except.bind, reduceCtorEq, false_iff]
    exact fun ⟨g, hg, same, _⟩ => unknown g hg same

theorem Furnished.readGlobal_ok (h : o.Furnished globalSize) {t : HostType} {value : HostValue} :
    o.readGlobal name t = .ok value ↔ ∃ g ∈ o.globals, g.name = name ∧ t.accepts g.ty = true ∧
      g.residency ≠ .register ∧ HostValue.ofBytes? t (o.block.getBytes g.offset g.ty.size) = some value := by
  rcases o.named_or_unknown name with ⟨g, hg, rfl⟩ | unknown
  · rw [h.exists_named hg, h.readGlobal_eq hg]
    split
    · split
      · simp [*]
      · split <;> simp [*]
    · simp [*]
  · simp only [readGlobal, (findGlobal_unknown unknown).1, bind, Except.bind, reduceCtorEq, false_iff]
    exact fun ⟨g, hg, same, _⟩ => unknown g hg same

/-! ## What a call does -/

/-- **A call that stores bytes** succeeds, and writes the range of one
global. -/
theorem Furnished.call_of_stores (h : o.Furnished globalSize) (hg : g ∈ o.globals) {bytes : List UInt8}
    (stored : c.stores? g.toHost = some bytes) :
    o.call c = .ok (.written, { o with block := o.block.setBytes g.offset bytes }) := by
  cases c with
  | write name value =>
    obtain ⟨⟨named, accepted⟩, same⟩ := Option.ite_none_right_eq_some.1 stored
    obtain rfl : g.name = name := named
    cases same
    rw [ObjectGlobal.ty_toHost] at accepted
    rw [call, h.writeGlobal_eq hg, if_pos accepted]
    rfl
  | writeBytes name bytes' =>
    obtain ⟨⟨named, length⟩, same⟩ := Option.ite_none_right_eq_some.1 stored
    obtain rfl : g.name = name := named
    cases same
    rw [ObjectGlobal.ty_toHost] at length
    rw [call, h.writeGlobalBytes_eq hg, if_pos length]
    rfl
  | read name t => cases stored
  | readBytes name => cases stored

/-- **Any other call leaves the object as it is.** -/
theorem Furnished.after_of_idle (h : o.Furnished globalSize)
    (idle : ∀ g ∈ o.globals, c.stores? g.toHost = none) : o.after c = o := by
  cases c with
  | write name value =>
    rcases o.named_or_unknown name with ⟨g, hg, rfl⟩ | unknown
    · have rejected : ¬ value.type.accepts g.ty = true := by simpa [HostCall.stores?] using idle g hg
      simp only [after, call, h.writeGlobal_eq hg, if_neg rejected, Except.map]
    · simp only [after, call, writeGlobal, (findGlobal_unknown unknown).1, bind, Except.bind, Except.map]
  | writeBytes name bytes =>
    rcases o.named_or_unknown name with ⟨g, hg, rfl⟩ | unknown
    · have rejected : ¬ bytes.length = g.ty.size := by simpa [HostCall.stores?] using idle g hg
      simp only [after, call, h.writeGlobalBytes_eq hg, if_neg rejected, Except.map]
    · simp only [after, call, writeGlobalBytes, (findGlobal_unknown unknown).1, bind, Except.bind, Except.map]
  | read name t =>
    simp only [after, call]
    cases o.readGlobal name t <;> rfl
  | readBytes name =>
    simp only [after, call]
    cases o.readGlobalBytes name <;> rfl

/-- **What a call does to an object**: it stores bytes in one global, or it
changes nothing. -/
theorem Furnished.after_cases (h : o.Furnished globalSize) (c : HostCall) :
    (∀ g ∈ o.globals, c.stores? g.toHost = none) ∧ o.after c = o ∨
      ∃ g ∈ o.globals, ∃ bytes, c.stores? g.toHost = some bytes ∧ bytes.length = g.ty.size ∧
        (∀ g' ∈ o.globals, g' ≠ g → c.stores? g'.toHost = none) ∧
        o.block.Wrote [(g.offset, bytes)] (o.block.setBytes g.offset bytes) ∧
        o.after c = { o with block := o.block.setBytes g.offset bytes } := by
  by_cases idle : ∀ g ∈ o.globals, c.stores? g.toHost = none
  · exact .inl ⟨idle, h.after_of_idle idle⟩
  · obtain ⟨g, hg, bytes, stored⟩ : ∃ g ∈ o.globals, ∃ bytes, c.stores? g.toHost = some bytes := by
      simpa [Option.ne_none_iff_exists'] using idle
    obtain ⟨named, length⟩ := HostVariable.of_stores? stored
    rw [ObjectGlobal.ty_toHost] at length
    have fits : Piece.stop (g.offset, bytes) ≤ o.block.size := by
      rw [Piece.stop, length]
      exact Nat.le_trans (h.inside g hg) h.room
    refine .inr ⟨g, hg, bytes, stored, length, fun g' hg' other => ?_,
      Block.wrote_of_write (p := (g.offset, bytes)) (b := o.block) (if_pos fits), ?_⟩
    · refine Option.eq_none_iff_forall_ne_some.2 fun bytes' stored' => other ?_
      exact h.eq_of_name hg' hg ((HostVariable.of_stores? stored').1.trans named.symm)
    · rw [Object.after, h.call_of_stores hg stored]

/-- **An object answers as the map does** that holds the bytes of its
globals. -/
theorem Furnished.answer_eq (h : o.Furnished globalSize) {held : HostVariable → List UInt8}
    (holds : ∀ g ∈ o.globals, o.block.getBytes g.offset g.ty.size = held g.toHost) (c : HostCall) :
    (o.call c).map Prod.fst = c.answer o.hostVariables held := by
  rcases o.named_or_unknown c.name with ⟨g, hg, named⟩ | unknown
  · have listed := h.lookup_eq hg
    cases c with
    | write name value =>
      obtain rfl : g.name = name := named
      rw [call, h.writeGlobal_eq hg, HostCall.answer, listed]
      by_cases accepted : value.type.accepts g.ty = true <;> simp [accepted, bind, Except.bind, Except.map, pure, Except.pure]
    | writeBytes name bytes =>
      obtain rfl : g.name = name := named
      rw [call, h.writeGlobalBytes_eq hg, HostCall.answer, listed]
      by_cases same : bytes.length = g.ty.size <;> simp [same, bind, Except.bind, Except.map, pure, Except.pure]
    | read name t =>
      obtain rfl : g.name = name := named
      rw [call, h.readGlobal_eq hg, holds g hg, HostCall.answer, listed]
      by_cases accepted : t.accepts g.ty = true <;> by_cases register : g.residency = .register <;>
        cases decoded : HostValue.ofBytes? t (held g.toHost) <;>
        simp [accepted, register, decoded, bind, Except.bind, Except.map, pure, Except.pure]
    | readBytes name =>
      obtain rfl : g.name = name := named
      rw [call, h.readGlobalBytes_eq hg, holds g hg, HostCall.answer, listed]
      by_cases register : g.residency = .register <;> simp [register, bind, Except.bind, Except.map, pure, Except.pure]
  · obtain ⟨missing, missing'⟩ := findGlobal_unknown unknown
    cases c <;> simp only [HostCall.name] at missing missing' <;>
      simp only [call, writeGlobal, writeGlobalBytes, readGlobal, readGlobalBytes, HostCall.answer, missing, missing',
        bind, Except.bind, Except.map]

/-! ## All calls -/

/-- **What some calls make of an object**: all its bytes but those of the
globals stay, and each global holds what was stored in it last. -/
structure Reached (o : Object) (calls : List HostCall) (t : Object) : Prop where
  /-- Nothing but the block has changed. -/
  rest : t = { o with block := t.block }
  spares : o.block.Spares (fun k => ∀ g ∈ o.globals, k < g.offset ∨ g.offset + g.ty.size ≤ k) t.block
  held : ∀ g ∈ o.globals, t.block.getBytes g.offset g.ty.size = g.toHost.heldAfter calls

namespace Reached

variable {calls : List HostCall}

/-- The globals are found as before. -/
theorem furnished (h : o.Reached calls t) (furnished : o.Furnished globalSize) : t.Furnished globalSize := by
  rw [h.rest]
  exact { furnished with room := h.spares.size ▸ furnished.room }

theorem globals (h : o.Reached calls t) : t.globals = o.globals := by rw [h.rest]

/-- **Another call** stores bytes in one global, or in none. -/
theorem after (h : o.Reached calls t) (furnished : o.Furnished globalSize) (c : HostCall) :
    o.Reached (calls ++ [c]) (t.after c) := by
  rcases (h.furnished furnished).after_cases c with ⟨idle, same⟩ | ⟨g, hg, bytes, stored, length, others, wrote, after⟩
  · rw [same]
    refine { h with held := fun g hg => ?_ }
    rw [HostVariable.heldAfter_concat, idle g (h.globals ▸ hg)]
    exact h.held g hg
  · rw [h.globals] at hg others
    rw [after]
    refine ⟨by rw [h.rest], h.spares.trans (wrote.spares.mono fun k free q hq => ?_), fun g' hg' => ?_⟩
    · obtain rfl := List.mem_singleton.1 hq
      have := free g hg
      simp only [Piece.Covers, Piece.stop, length]
      omega
    · rw [HostVariable.heldAfter_concat]
      by_cases same : g' = g
      · rw [same, stored, ← length]
        exact wrote.getBytes (List.mem_singleton_self _)
      · rw [others g' hg' same, Option.getD_none, ← h.held g' hg']
        refine wrote.spares.getBytes fun k low high q hq => ?_
        obtain rfl := List.mem_singleton.1 hq
        have apart := furnished.apart.forall hg' hg same
        simp only [ObjectGlobal.Apart] at apart
        simp only [Piece.Covers, Piece.stop, length]
        omega

end Reached

/-- **Some calls** of an object whose globals hold zeros. -/
theorem Furnished.reached (h : o.Furnished globalSize)
    (zero : ∀ g ∈ o.globals, o.block.getBytes g.offset g.ty.size = List.replicate g.ty.size 0)
    (calls : List HostCall) : o.Reached calls (o.afterAll calls) := by
  induction calls using List.reverseRecOn with
  | nil => exact ⟨rfl, .refl _, zero⟩
  | append_singleton calls c ih =>
    rw [afterAll_concat]
    exact ih.after h c

end Object

/-! ## Values in bytes -/

theorem ofLittleEndian_eq_zero {bs : List UInt8} : ofLittleEndian bs = 0 ↔ ∀ b ∈ bs, b = 0 := by
  induction bs with
  | nil => simp [ofLittleEndian]
  | cons b bs ih =>
    have word : b.toNat = 0 ↔ b = 0 := UInt8.toNat_inj (b := 0)
    rw [ofLittleEndian, Nat.add_eq_zero_iff, word, Nat.mul_eq_zero, ih, List.forall_mem_cons]
    simp

/-- **Four bytes are true** unless all of them are zero. -/
theorem HostValue.ofBytes?_bool {bytes : List UInt8} (length : bytes.length = 4) :
    ofBytes? .bool bytes = some (.bool (bytes.any (· ≠ 0))) := by
  have low := ofLittleEndian_lt bytes
  rw [length] at low
  have word : wordOfBytes bytes = 0 ↔ ∀ b ∈ bytes, b = 0 := by
    rw [wordOfBytes, List.take_of_length_le (Nat.le_of_eq length), ← ofLittleEndian_eq_zero, ← UInt32.toNat_inj,
      UInt32.toNat_ofNat_of_lt' low]
    rfl
  have truth : (wordOfBytes bytes != 0) = bytes.any (· ≠ 0) := by
    rw [Bool.eq_iff_iff]
    simp [word]
  rw [ofBytes?, if_neg (by simp [length, HostType.size]), ← truth]

/-- As many bytes as a type has decode. -/
theorem HostValue.exists_ofBytes? {t : HostType} {bytes : List UInt8} (length : bytes.length = t.size) :
    ∃ value, ofBytes? t bytes = some value := by
  rw [ofBytes?, if_neg (by simpa using length)]
  exact ⟨_, rfl⟩

/-! ## The store -/

/-- **An object is a store** of the global variables of a shader, for any
calls of the host. -/
structure Object.KeepsStore (o : Object) (p : Program) (d : Declarations) : Prop where
  /-- The globals of the object are the global variables of the shader. -/
  declared : o.globals.map ObjectGlobal.description = d.globalVariables.map Symbol.description
  distinct : (o.globals.map ObjectGlobal.name).Nodup
  /-- After any calls, the next one is answered as by the map of what each
  variable holds. -/
  answers : ∀ calls c, ((o.afterAll calls).call c).map Prod.fst =
    c.answer o.hostVariables fun v => v.heldAfter calls
  writes : ∀ calls name value, (∃ o', (o.afterAll calls).writeGlobal name value = .ok o') ↔
    ∃ v ∈ d.globalVariables, v.name = name ∧ value.type.accepts v.ty = true
  writesBytes : ∀ calls name bytes, (∃ o', (o.afterAll calls).writeGlobalBytes name bytes = .ok o') ↔
    ∃ v ∈ d.globalVariables, v.name = name ∧ bytes.length = v.ty.size
  reads : ∀ calls name t, (∃ value, (o.afterAll calls).readGlobal name t = .ok value) ↔
    ∃ g ∈ o.globals, g.name = name ∧ t.accepts g.ty = true ∧ g.residency ≠ .register
  readsBytes : ∀ calls name bytes, (o.afterAll calls).readGlobalBytes name = .ok bytes ↔
    ∃ g ∈ o.globals, g.name = name ∧ g.residency ≠ .register ∧ g.toHost.heldAfter calls = bytes
  /-- The value that was written last is read, in all its bits. -/
  readsLast : ∀ calls later, ∀ g ∈ o.globals, ∀ value : HostValue, value.type.accepts g.ty = true →
    g.residency ≠ .register → (∀ c ∈ later, c.stores? g.toHost = none) →
    (o.afterAll (calls ++ .write g.name value :: later)).readGlobal g.name value.type = .ok value
  /-- A truth value is read as true unless all its bytes are zero. -/
  readsTruth : ∀ calls, ∀ g ∈ o.globals, g.ty = .bool → g.residency ≠ .register →
    (o.afterAll calls).readGlobal g.name .bool = .ok (.bool ((g.toHost.heldAfter calls).any (· ≠ 0)))
  /-- A call that fails stores nothing. -/
  fails : ∀ calls c e, (o.afterAll calls).call c = .error e → ∀ g ∈ o.globals, c.stores? g.toHost = none
  /-- A call that stores nothing changes nothing. -/
  idle : ∀ calls c, (∀ g ∈ o.globals, c.stores? g.toHost = none) → (o.afterAll calls).after c = o.afterAll calls
  /-- No call changes a global but the one that it stores in. -/
  others : ∀ calls c, ∀ g ∈ o.globals, c.stores? g.toHost = none →
    ((o.afterAll calls).after c).block.getBytes g.offset g.ty.size =
      (o.afterAll calls).block.getBytes g.offset g.ty.size
  /-- Nothing but the bytes of the block is ever changed, -/
  rest : ∀ calls, o.afterAll calls = { o with block := (o.afterAll calls).block }
  /-- and of those only bytes of globals, -/
  elsewhere : ∀ calls k, (∀ g ∈ o.globals, k < g.offset ∨ g.offset + g.ty.size ≤ k) →
    (o.afterAll calls).block.get k = o.block.get k
  /-- none of a constant, -/
  constants : ∀ calls, ∀ c ∈ o.constants.slots,
    (o.afterAll calls).block.getBytes c.2 c.1.size = o.block.getBytes c.2 c.1.size
  /-- and none behind the global region, where the code is. -/
  code : ∀ calls k, p.globalSize ≤ k → (o.afterAll calls).block.get k = o.block.get k
  behind : ∀ f ∈ o.functions, p.globalSize + trampolineSize p.staged ≤ f.offset

namespace Object

variable {p : Program} {s : Shader} {u : LoweringState} {floor : Nat} {o : Object}

/-- **Every object that was built is a store.** -/
theorem keepsStore_of_lowered (lowered : p.Lowered s u) (run : build p floor = .ok o) :
    o.KeepsStore p s.declarations := by
  obtain ⟨furnished, declared, zero⟩ := furnished_of_build lowered run
  obtain ⟨-, -, -, -, behind⟩ := of_build run
  have reached := furnished.reached zero
  have found (calls : List HostCall) : (o.afterAll calls).Furnished p.globalSize := (reached calls).furnished furnished
  have globals (calls : List HostCall) : (o.afterAll calls).globals = o.globals := (reached calls).globals
  have held (calls : List HostCall) (g : ObjectGlobal) (hg : g ∈ o.globals) :
      (o.afterAll calls).block.getBytes g.offset g.ty.size = g.toHost.heldAfter calls := (reached calls).held g hg
  -- What some global's name and type are, some variable's are.
  have declares (P : String → Ty → Prop) :
      (∃ g ∈ o.globals, P g.name g.ty) ↔ ∃ v ∈ s.declarations.globalVariables, P v.name v.ty := by
    have same := congrArg (fun xs => ∃ x ∈ xs, P x.1 x.2.1) declared
    simpa [ObjectGlobal.description, Symbol.description] using same
  refine
    { declared
      distinct := furnished.distinct
      answers := fun calls c => ?_
      writes := fun calls name value => ?_
      writesBytes := fun calls name bytes => ?_
      reads := fun calls name t => ?_
      readsBytes := fun calls name bytes => ?_
      readsLast := fun calls later g hg value accepted memory idle => ?_
      readsTruth := fun calls g hg bool memory => ?_
      fails := fun calls c e run g hg => ?_
      idle := fun calls c idle => (found calls).after_of_idle (globals calls ▸ idle)
      others := fun calls c g hg other => ?_
      rest := fun calls => (reached calls).rest
      elsewhere := fun calls => (reached calls).spares.same
      constants := fun calls c hc => ?_
      code := fun calls k above => (reached calls).spares.same k fun g hg => .inr (Nat.le_trans (furnished.inside g hg) above)
      behind := fun f hf => ?_ }
  · have same : (o.afterAll calls).hostVariables = o.hostVariables := congrArg (List.map _) (globals calls)
    rw [← same]
    exact (found calls).answer_eq (fun g hg => held calls g (globals calls ▸ hg)) c
  · rw [(found calls).writeGlobal_succeeds, globals]
    exact declares fun name' ty => name' = name ∧ value.type.accepts ty = true
  · rw [(found calls).writeGlobalBytes_succeeds, globals]
    exact declares fun name' ty => name' = name ∧ bytes.length = ty.size
  · simp only [(found calls).readGlobal_ok, globals]
    constructor
    · rintro ⟨value, g, hg, named, accepted, memory, -⟩
      exact ⟨g, hg, named, accepted, memory⟩
    · rintro ⟨g, hg, named, accepted, memory⟩
      have length : ((o.afterAll calls).block.getBytes g.offset g.ty.size).length = t.size := by
        rw [Block.length_getBytes, HostType.size_eq_of_accepts accepted]
      obtain ⟨value, decoded⟩ := HostValue.exists_ofBytes? length
      exact ⟨value, g, hg, named, accepted, memory, decoded⟩
  · rw [(found calls).readGlobalBytes_ok, globals]
    refine exists_congr fun g => and_congr_right fun hg => ?_
    rw [held calls g hg]
  · rw [(found _).readGlobal_ok, globals]
    refine ⟨g, hg, rfl, accepted, memory, ?_⟩
    have stored : (HostCall.write g.name value).stores? g.toHost = some value.bytes := if_pos ⟨rfl, accepted⟩
    rw [held _ g hg, HostVariable.heldAfter_of_last stored idle]
    exact value.ofBytes?_bytes
  · rw [(found calls).readGlobal_ok, globals]
    have length : (g.toHost.heldAfter calls).length = 4 := by
      rw [HostVariable.length_heldAfter, ObjectGlobal.ty_toHost, bool]
      rfl
    refine ⟨g, hg, rfl, by rw [bool]; rfl, memory, ?_⟩
    rw [held calls g hg]
    exact HostValue.ofBytes?_bool length
  · refine Option.eq_none_iff_forall_ne_some.2 fun bytes stored => ?_
    rw [(found calls).call_of_stores (globals calls ▸ hg) stored] at run
    cases run
  · rw [held calls g hg, ← afterAll_concat, held _ g hg, HostVariable.heldAfter_concat, other]
    rfl
  · exact (reached calls).spares.getBytes fun k low _ g hg =>
      .inr (Nat.le_trans (furnished.constants g hg c hc) low)
  · have := behind f hf
    have := (align16_bounds p.globalSize).1
    omega

end Object

/-- **To the host, an object is a store of the global variables** that the
shader and its stage declare, whatever calls are made and in whatever
order. -/
theorem Program.keepsStore_of_build {o : Options} {source : String} {p : Program} {floor : Nat} {object : Object}
    (run : compile o source = .ok p) (built : Object.build p floor = .ok object) :
    ∃ s, Shader.parse o.stage source = .ok s ∧ object.KeepsStore p s.declarations := by
  obtain ⟨s, u, parsed, lowered⟩ := lowered_of_compile run
  exact ⟨s, parsed, Object.keepsStore_of_lowered lowered built⟩

theorem Program.keepsStore_sampleSource : ∃ p object s, compile sampleOptions sampleSource = .ok p ∧
    Object.build p 256 = .ok object ∧ Shader.parse sampleOptions.stage sampleSource = .ok s ∧
    object.KeepsStore p s.declarations := by
  obtain ⟨p, compiled, main, small⟩ := compiles_sampleSource
  obtain ⟨_, _, -, lowered⟩ := lowered_of_compile compiled
  obtain ⟨object, built, -⟩ := lowered.built main small
  obtain ⟨s, parsed, keeps⟩ := keepsStore_of_build compiled built
  exact ⟨p, object, s, compiled, built, parsed, keeps⟩

end Shading
