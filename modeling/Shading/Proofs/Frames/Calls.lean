import Shading.Proofs.Frames.Lanes

/-!
# Operations spare live registers

A call of one of the operations that lower a program (`Helper`) emits code
that writes the place of its result, the slots that the call saves registers
in, and registers that were free. Every other register is what it was when the
code has been carried out, however many are occupied or leased, and so is all
other memory; the free registers and the leased ones of the layout are the
same after the call (`Helper.spares`).

Two things are asked of memory. Nothing checks the address of an element that
is computed, so it must not lead to a slot in which the call saves a register;
and a store in a lane finds its masks among the pooled constants.
-/

namespace Shading

open LoweringState Permit

/-! ## Calls -/

/-- Lowers something into a place, and gives the place. -/
def Lower.into (out : Location) (x : Lower Unit) : Lower Location := do
  x
  return out

/-- **A call of an operation**, with what it is given. -/
inductive Helper where
  | packed (op : BinaryOp) (out : Location) (lhs rhs : Value)
  | vectorScalar (out : Location) (lhs rhs : Value)
  | matrixVector (out : Location) (lhs rhs : Value)
  | matrixProduct (out : Location) (lhs rhs : Value)
  | scalarFloat (op : BinaryOp) (out : Location) (lhs rhs : Value)
  | scalarInt (op : BinaryOp) (out : Location) (lhs rhs : Value)
  | negate (out : Location) (v : Value)
  | compare (op : RelationalOp) (lhs rhs : Value)
  | normalize (out : Location) (v : Value)
  | vectorLength (out : Location) (v : Value)
  | dot3 (out : Location) (a b : Value)
  | larger (out : Location) (a b : Value)
  | clamp (out : Location) (x lo hi : Value)
  | store (dest : Location) (ty : Ty) (v : Value)
  | writeLane (simd shift : Nat) (v : Value)
  | transfer (w : Width) (dest src : Location)
  | materialize (v : Value)

namespace LoweringState

/-- **A place that receives a result** of a type: nothing else comes to stand
there, and an address in it is under a lease. -/
structure Receives (s : LoweringState) (ty : Ty) (out : Location) : Prop where
  fits : out.Fits ty
  keeps : s.Keeps ty.size out
  address : ∀ id, out = .indirectRegister id → .register id ∈ s.layout.leased

end LoweringState

namespace Helper

/-- **The call**, which gives the place of the result. A comparison has
none. -/
def call : Helper → Lower Location
  | packed op out lhs rhs => Lower.into out (Lower.packed op out lhs rhs)
  | vectorScalar out lhs rhs => Lower.into out (Lower.vectorScalar out lhs rhs)
  | matrixVector out lhs rhs => Lower.into out (Lower.matrixVector out lhs rhs)
  | matrixProduct out lhs rhs => Lower.into out (Lower.matrixProduct out lhs rhs)
  | scalarFloat op out lhs rhs => Lower.into out (Lower.scalarFloat op out lhs rhs)
  | scalarInt op out lhs rhs => Lower.into out (Lower.scalarInt op out lhs rhs)
  | negate out v => Lower.into out (Lower.negate out v)
  | compare op lhs rhs => Lower.into .none (discard (Lower.compare op lhs rhs))
  | normalize out v => Lower.into out (Lower.normalize out v)
  | vectorLength out v => Lower.into out (Lower.vectorLength out v)
  | dot3 out a b => Lower.into out (Lower.dot3 out a b)
  | larger out a b => Lower.into out (Lower.larger out a b)
  | clamp out x lo hi => Lower.into out (Lower.clamp out x lo hi)
  | store dest ty v => Lower.into dest (Lower.store dest ty v)
  | writeLane simd shift v => Lower.into (.registerLane simd shift) (Lower.writeLane simd shift v)
  | transfer w dest src => Lower.into dest (Lower.transfer w dest src)
  | materialize v => do return (← Lower.materialize v).location

/-- The type of the result. -/
def ty : Helper → Ty
  | packed _ _ lhs _ | vectorScalar _ lhs _ | matrixProduct _ lhs _ => lhs.ty
  | matrixVector _ _ rhs => rhs.ty
  | negate _ v | normalize _ v | materialize v => v.ty
  | scalarInt _ _ _ _ | transfer .dword _ _ => .int
  | transfer .packed _ _ => .vec4
  | compare _ _ _ => .void
  | store _ ty _ => ty
  | _ => .float

/-- **A call as a lowering makes it**: its operands have the types that it is
for, and the place of its result receives it. Divisions of integers are left
out. -/
def Passed (s : LoweringState) : Helper → Prop
  | h@(packed _ out lhs _) | h@(vectorScalar out lhs _) => lhs.ty.isVector = true ∧ s.Receives h.ty out
  | h@(matrixVector out _ rhs) => rhs.ty.isVector = true ∧ s.Receives h.ty out
  | h@(matrixProduct out lhs _) => lhs.ty.isMatrix = true ∧ s.Receives h.ty out
  | h@(scalarInt op out _ _) => op ≠ .divide ∧ s.Receives h.ty out
  | h@(normalize out v) => v.ty.isVector = true ∧ s.Receives h.ty out
  | h@(scalarFloat _ out _ _) | h@(negate out _) | h@(vectorLength out _) | h@(dot3 out _ _) | h@(larger out _ _)
  | h@(clamp out _ _ _) | h@(store out _ _) | h@(transfer _ out _) => s.Receives h.ty out
  | h@(writeLane simd shift _) => s.Receives h.ty (.registerLane simd shift)
  | compare _ _ _ => True
  | h@(materialize v) => s.Keeps h.ty.size v.location ∧
    ∀ simd shift, v.location = .registerLane simd shift → v.lease = none ∧ v.ty = .float

end Helper

/-! ## What is left as it was -/

namespace LoweringState

/-- **A machine to carry out the code of a call on.** An address for the
result leads to no slot that the call saves a register in, and a store in a
lane finds the pooled constants in memory. -/
structure Begins (s t : LoweringState) (out : Location) (n L : Nat) (m : Machine) : Prop where
  suits : t.Suits L m
  clear : ∀ id, out = .indirectRegister id → ∀ k, m.bytesAt (m.general64 id).toNat n k →
    ∀ slot ∈ t.spillsSince s, ¬ slot.Contains k
  masks : (∃ id shift, out = .registerLane id shift) → ∀ c ∈ t.constants.slots, ∀ i < c.1.size,
    m.block.get (c.2 + i) = c.1.bytes.getD i 0

/-- **What code spares** between two states: memory but for the place of a
result and the slots that registers are saved in, and registers that were not
free but for that of the result. Of a general register that is under a lease
all bits are spared, of another one the lower half, and of an SSE register all
lanes but that of the result. -/
structure Spares (s t : LoweringState) (out : Location) (n L : Nat) (m m' : Machine) : Prop where
  bytes : ∀ k, ¬ m.takes L out n k → (∀ slot ∈ t.spillsSince s, ¬ slot.Contains k) →
    m'.block.get k = m.block.get k
  general64 : ∀ id < 8, .register id ∈ s.layout.leased → out ≠ .register id → m'.general64 id = m.general64 id
  general32 : ∀ id < 8, id ∉ s.layout.free .general → out ≠ .register id → m'.general32 id = m.general32 id
  simd : ∀ id < 8, id ∉ s.layout.free .simd → out ≠ .simdRegister id → ∀ lane < 4,
    (∀ shift, out = .registerLane id shift → lane ≠ shift / 4) → (m'.simd id).get lane = (m.simd id).get lane

end LoweringState

/-- **What a call of an operation leaves as it was.** -/
structure Helper.Leaves (h : Helper) (s t : LoweringState) (out : Location) : Prop where
  /-- A lane is copied to a place that was free. -/
  free : ∀ c, t.layout.free c = (s.layout.free c).filter fun id => decide (c.location id ≠ out)
  unplaced : (∀ v, h ≠ .materialize v) → ∀ c, t.layout.free c = s.layout.free c
  leased : t.layout.leased = s.layout.leased
  /-- The slots that registers are saved in are new. -/
  slots : ∀ slot ∈ t.spillsSince s, slot.region = .global ∧ s.globalTop ≤ slot.offset ∧ slot.stop ≤ t.globalTop
  /-- Jumps stay within the code. -/
  stays : ∀ rsqrt L m, s.Begins t out h.ty.size L m → ∀ l m',
    Machine.Track.run rsqrt (.running m) (t.codeSince s) ≠ .seeking l m'
  spares : ∀ rsqrt L m, s.Begins t out h.ty.size L m → ∀ m',
    Machine.Track.run rsqrt (.running m) (t.codeSince s) = .running m' → s.Spares t out h.ty.size L m m'

/-! ## The permit of a call -/

/-- **The permit for the place of a result.** -/
def Permit.result (s : LoweringState) (ok : s.Ok) (out : Location) (n : Nat) : Permit where
  start := s
  ok := ok
  memory := fun l k => out.isInMemory = true ∧ ∃ b, l = out.offsetBy b ∧ b + k ≤ n
  register := fun c id k => id ∈ c.pool ∧
    (out = c.location id ∨ c = .simd ∧ ∃ shift, out = .registerLane id shift ∧ k = shift / 4)
  addressed := True
  pooled := ∃ id shift, out = .registerLane id shift
  values := fun _ _ _ permitted => permitted.1
  alone := fun pooled _ _ permitted => by
    obtain ⟨id, shift, rfl⟩ := pooled
    cases permitted.1

section

variable {s t : LoweringState} {out : Location} {ty : Ty} {n L : Nat} {m m' : Machine} {registers : List Location}

/-- A place that receives a result may be written. -/
theorem LoweringState.Receives.admits (ok : s.Ok) (receives : s.Receives ty out) :
    (Permit.result s ok out ty.size).AdmitsValue s [] out ty := by
  have fits := receives.fits
  have keeps := receives.keeps
  have high := ok.layout.localTop
  have storage : ty.size ≠ 0 := by
    cases out with
    | none => exact fits.elim
    | register id | simdRegister id | registerLane id shift => rintro none; cases ty <;> simp_all [Location.Fits, RegisterClass.ofTy?, Ty.size]
    | globalMemory o | localMemory o | indirectRegister id => exact fits.1
  refine admitsValue_of storage (fun register => ?_) (fun inMemory b k inside => ⟨⟨inMemory, b, rfl, inside⟩, ?_⟩)
    (.inl trivial)
  · cases out with
    | register id =>
      obtain ⟨general, pool⟩ := fits
      have same : (Width.ofTy ty).registerClass = .general := by cases ty <;> first | rfl | cases general
      rw [same]
      exact ⟨id, rfl, pool, .inr (.inr fun _ _ => ⟨pool, .inl rfl⟩)⟩
    | simdRegister id =>
      obtain ⟨simd, pool⟩ := fits
      have same : (Width.ofTy ty).registerClass = .simd := by cases ty <;> first | rfl | cases simd
      rw [same]
      exact ⟨id, rfl, pool, .inr (.inr fun _ _ => ⟨pool, .inl rfl⟩)⟩
    | _ => cases register
  · cases out with
    | globalMemory o => exact Nat.le_trans (by rw [Nat.add_assoc]; exact Nat.add_le_add_left inside o) keeps.1
    | localMemory o =>
      have top : o + ty.size ≤ s.localTop := keeps
      exact Nat.le_trans (by rw [Nat.add_assoc]; exact Nat.add_le_add_left inside o) (Nat.le_trans top high)
    | indirectRegister id =>
      refine ⟨receives.address id rfl, ?_⟩
      rintro ⟨-, same | ⟨same, -⟩⟩ <;> cases same
    | _ => cases inMemory

/-- What a part of a place in memory takes, the place does. -/
theorem Machine.takes_offsetBy {l : Location} (memory : l.isInMemory = true) {b k i : Nat} (inside : b + k ≤ n)
    (takes : m.takes L (l.offsetBy b) k i) : m.takes L l n i := by
  cases l with
  | globalMemory o =>
    simp only [Machine.takes, Location.offsetBy] at takes ⊢
    omega
  | localMemory o =>
    simp only [Machine.takes, Location.offsetBy] at takes ⊢
    omega
  | indirectRegister id =>
    simp only [Machine.takes, Location.offsetBy, Machine.bytesAt] at takes ⊢
    omega
  | _ => cases memory

/-- What a permitted place takes is part of the place of the result. -/
theorem Machine.takes_of_permitted (ok : s.Ok) {l : Location} {k i : Nat}
    (permitted : (Permit.result s ok out n).memory l k) (takes : m.takes L l k i) : m.takes L out n i := by
  obtain ⟨inMemory, b, rfl, inside⟩ := permitted
  exact takes_offsetBy inMemory inside takes

/-- **The code of a call starts** on a machine that it begins on. -/
theorem LoweringState.Begins.starts (begins : s.Begins t out n L m) (ok : s.Ok)
    (conduct : Conduct (Permit.result s ok out n) s t registers []) (kept : ∀ o, out = .globalMemory o → o + n ≤ s.globalTop) :
    (Permit.result s ok out n).Starts t L m where
  suits := begins.suits
  clear := fun l k i permitted takes slot hs contains => by
    have takes := Machine.takes_of_permitted ok permitted takes
    obtain ⟨region, above, stop, -⟩ := conduct.spills slot hs
    obtain ⟨low, high⟩ := contains
    have above : s.globalTop ≤ slot.offset := above
    cases out with
    | globalMemory o =>
      have := kept o rfl
      simp only [Machine.takes] at takes
      omega
    | localMemory o =>
      have top := Nat.le_trans stop (Nat.le_trans conduct.leads.ok.layout.globalTop begins.suits.globals)
      simp only [Machine.takes] at takes
      omega
    | indirectRegister id => exact begins.clear id rfl i takes slot hs ⟨low, high⟩
    | _ => exact takes
  constants := begins.masks

/-- **What is kept is spared.** -/
theorem Permit.Kept.spares (ok : s.Ok) (kept : (Permit.result s ok out n).Kept t [] L m m') : s.Spares t out n L m m' where
  bytes := fun k outside clear =>
    kept.bytes k (fun l i permitted takes => outside (Machine.takes_of_permitted ok permitted takes)) clear
  general64 := fun id small leased other => kept.wide id small (.inr ⟨leased, fun permitted =>
    permitted.2.elim other fun lane => absurd lane.1 (by decide)⟩)
  general32 := fun id small notFree other => by
    by_cases pool : id ∈ RegisterClass.general.pool
    · exact kept.register .general id 0 pool notFree (by decide) (by simp) fun permitted =>
        permitted.2.elim other fun lane => absurd lane.1 (by decide)
    · exact congrArg UInt64.toUInt32 (kept.wide id small (.inl pool))
  simd := fun id small notFree other lane word apart => by
    have pool : id ∈ RegisterClass.simd.pool := by
      simp only [RegisterClass.pool, List.mem_cons, List.not_mem_nil, or_false]
      omega
    refine kept.register .simd id lane pool notFree word (by simp) fun permitted => ?_
    rcases permitted.2 with same | ⟨-, shift, same, at_⟩
    · exact other same
    · exact apart shift same at_

/-! ## Calls keep to their permits -/

variable {P : Permit}

/-- A call that is given the place of its result. -/
theorem Lower.into_conducts {x : Lower Unit} (h : Results x s fun _ t => Conduct P s t [] []) (out : Location) :
    Results (Lower.into out x) s fun l t => l = out ∧ Conduct P s t [] [] :=
  h.bind fun _ _ h => .pure ⟨rfl, h⟩

/-- A store keeps to the permit of its result. -/
theorem Lower.store_conducts (ok : s.Ok) {v : Value} (receives : s.Receives ty out) :
    Results (Lower.store out ty v) s fun _ t => Conduct (Permit.result s ok out ty.size) s t [] [] := by
  have start : Conduct (Permit.result s ok out ty.size) s s [] [] := .refl _
  unfold Lower.store
  split
  · next simd shift =>
    obtain ⟨-, pool, four, small⟩ := receives.fits
    obtain ⟨k, rfl⟩ : ∃ k, shift = 4 * k := ⟨shift / 4, by omega⟩
    exact Lower.writeLane_conducts start ⟨simd, _, rfl⟩ (by omega) pool ⟨pool, .inr ⟨rfl, _, rfl, by omega⟩⟩ (.inl trivial)
  · exact Lower.storeWhole_conducts start (receives.admits ok) (.inl trivial)

/-- A move keeps to the permit of its result. -/
theorem Lower.transferCall_conducts (ok : s.Ok) {w : Width} {src : Location} (same : Width.ofTy ty = w)
    (receives : s.Receives ty out) :
    Results (Lower.transfer w out src) s fun _ t => Conduct (Permit.result s ok out ty.size) s t [] [] := by
  have admits := (receives.admits ok).first
  rw [same] at admits
  exact Lower.transfer_conducts (.refl _) w admits (.inl trivial)

/-- **A call that is given the place of its result** keeps to the permit of
that place. -/
theorem Helper.conducts {h : Helper} (ok : s.Ok) (passed : h.Passed s) (given : ∀ v, h ≠ .materialize v) :
    Results h.call s fun out t => Conduct (Permit.result s ok out h.ty.size) s t [] [] ∧
      (out = .none ∨ s.Receives h.ty out) := by
  have into {out : Location} {x : Lower Unit} (receives : s.Receives h.ty out)
      (h' : Results x s fun _ t => Conduct (Permit.result s ok out h.ty.size) s t [] []) :
      Results (Lower.into out x) s fun out t => Conduct (Permit.result s ok out h.ty.size) s t [] [] ∧
        (out = .none ∨ s.Receives h.ty out) :=
    (Lower.into_conducts h' out).mono (by
      rintro _ _ ⟨same, conduct⟩
      exact same ▸ ⟨conduct, .inr receives⟩)
  have reads {out l : Location} {n : Nat} : (Permit.result s ok out n).Reads l := .inl trivial
  -- Each helper has its own theorem. Here it is applied at a permit that allows all
  -- operands and the result.
  cases h with
  | packed op out lhs rhs =>
    exact into passed.2 (Lower.packed_conducts (.refl _) op passed.1 (passed.2.admits ok) reads reads)
  | vectorScalar out lhs rhs =>
    exact into passed.2 (Lower.vectorScalar_conducts (.refl _) passed.1 (passed.2.admits ok) reads reads)
  | matrixVector out lhs rhs =>
    exact into passed.2 (Lower.matrixVector_conducts (.refl _) passed.1 (passed.2.admits ok) reads reads)
  | matrixProduct out lhs rhs =>
    exact into passed.2 (Lower.matrixProduct_conducts (.refl _) passed.1 (passed.2.admits ok) reads reads)
  | scalarFloat op out lhs rhs =>
    exact into passed (Lower.scalarFloat_conducts (.refl _) op (passed.admits ok) reads reads)
  | scalarInt op out lhs rhs =>
    exact into passed.2
      (Lower.scalarInt_conducts (.refl _) passed.1 (show Ty.int.isIntegral = true from rfl) (passed.2.admits ok) reads reads)
  | negate out v =>
    refine into passed (Lower.negate_conducts (.refl _) (passed.admits ok) reads ?_)
    cases v.ty <;> simp [Ty.isIntegral, Width.ofTy, Width.registerClass]
  | compare op lhs rhs =>
    have compares : Results (discard (Lower.compare op lhs rhs)) s fun _ t =>
        Conduct (Permit.result s ok .none 0) s t [] [] :=
      (Lower.compare_conducts (.refl _) op reads reads).bind fun _ _ h => .pure h
    refine (Lower.into_conducts compares .none).mono ?_
    rintro _ _ ⟨rfl, conduct⟩
    exact ⟨conduct, .inl rfl⟩
  | normalize out v => exact into passed.2 (Lower.normalize_conducts (.refl _) passed.1 (passed.2.admits ok) reads)
  | vectorLength out v => exact into passed (Lower.vectorLength_conducts (.refl _) (passed.admits ok) reads)
  | dot3 out a b => exact into passed (Lower.dot3_conducts (.refl _) (passed.admits ok) reads reads)
  | larger out a b => exact into passed (Lower.larger_conducts (.refl _) (passed.admits ok) reads reads)
  | clamp out x lo hi => exact into passed (Lower.clamp_conducts (.refl _) (passed.admits ok) reads reads reads)
  | store out ty v => exact into passed (Lower.store_conducts ok passed)
  | writeLane simd shift v => exact into passed (Lower.store_conducts (show s.Ok from ok) (show s.Receives .float _ from passed))
  | transfer w out src =>
    cases w with
    | dword => exact into passed (Lower.transferCall_conducts ok (show Width.ofTy .int = _ from rfl) passed)
    | single => exact into passed (Lower.transferCall_conducts ok (show Width.ofTy .float = _ from rfl) passed)
    | packed => exact into passed (Lower.transferCall_conducts ok (show Width.ofTy .vec4 = _ from rfl) passed)
  | materialize v => exact absurd rfl (given v)

/-- **A lane that is copied** keeps to the permit of the place that it is
copied to. -/
theorem Lower.materializeCall_conducts (ok : s.Ok) {v w : Value} {simd shift : Nat}
    (location : v.location = .registerLane simd shift) (unleased : v.lease = none)
    (run : Lower.materialize v s = .ok (w, t)) :
    Conduct (Permit.result s ok w.location 4) s t w.location.own [] ∧ Lower.Temporary w.location := by
  refine Lower.materialize_conducts (P := Permit.result s ok w.location 4) (.refl _) location unleased run ?_
  exact fun inMemory b k inside => ⟨inMemory, b, rfl, inside⟩

/-- The lists of a layout after a course that has taken registers for a
place. -/
theorem Layout.Leads.free_eq_filter {l l' : Layout} {registers : List Location} (ok : l.Ok)
    (leads : l.Leads l' registers []) {out : Location}
    (taken : ∀ c id, id ∈ l.free c → (c.location id ∈ registers ↔ c.location id = out)) (c : RegisterClass) :
    l'.free c = (l.free c).filter fun id => decide (c.location id ≠ out) := by
  have before := (ok.ascending c).filter fun id => decide (c.location id ≠ out)
  refine eq_of_mem_iff (leads.ok.ascending c) before fun id => ?_
  rw [leads.free c id, List.mem_filter, decide_eq_true_iff]
  refine and_congr_right fun free => not_congr ?_
  simpa using taken c id free

/-- A place that is kept is in no free register. -/
theorem LoweringState.Keeps.notFree (keeps : s.Keeps n out) {c : RegisterClass} {id : Nat}
    (free : id ∈ s.layout.free c) : c.location id ≠ out := by
  rintro rfl
  cases c <;> exact keeps free

/-- What a call that keeps to the permit of its result leaves as it was. -/
theorem Helper.leaves_of_conduct {h : Helper} (ok : s.Ok)
    (conduct : Conduct (Permit.result s ok out h.ty.size) s t registers [])
    (taken : ∀ c id, id ∈ s.layout.free c → (c.location id ∈ registers ↔ c.location id = out))
    (unplaced : (∀ v, h ≠ .materialize v) → ∀ c id, id ∈ s.layout.free c → c.location id ≠ out)
    (kept : ∀ o, out = .globalMemory o → o + h.ty.size ≤ s.globalTop) : h.Leaves s t out where
  free := conduct.leads.layout.free_eq_filter ok.layout taken
  unplaced := fun other c => by
    rw [conduct.leads.layout.free_eq_filter ok.layout taken c, List.filter_eq_self]
    exact fun id free => decide_eq_true (unplaced other c id free)
  leased := conduct.order.trans (List.append_nil _)
  slots := fun slot hs => by
    obtain ⟨region, above, stop, -⟩ := conduct.spills slot hs
    exact ⟨region, above, stop⟩
  stays := fun rsqrt L m begins => conduct.stays rsqrt L m (begins.starts ok conduct kept)
  spares := fun rsqrt L m begins m' run =>
    (conduct.keeps rsqrt L m m' ⟨begins.starts ok conduct kept, run⟩).spares ok

/-! ## Calls spare live registers -/

/-- A call that is given the place of its result. -/
theorem Helper.leaves_given {h : Helper} (ok : s.Ok) (passed : h.Passed s) (given : ∀ v, h ≠ .materialize v)
    (run : h.call s = .ok (out, t)) : h.Leaves s t out := by
  obtain ⟨conduct, result⟩ := h.conducts ok passed given out t run
  have notFree (c : RegisterClass) (id : Nat) (free : id ∈ s.layout.free c) : c.location id ≠ out := by
    rcases result with rfl | receives
    · cases c <;> rintro ⟨⟩
    · exact receives.keeps.notFree free
  refine Helper.leaves_of_conduct ok conduct (fun c id free => ?_) (fun _ => notFree) fun o same => ?_
  · simpa using notFree c id free
  · rcases result with rfl | receives
    · cases same
    · have keeps := receives.keeps
      rw [same] at keeps
      exact keeps.1

/-- A copy of a lane. -/
theorem Helper.leaves_materialize {v : Value} (ok : s.Ok) (passed : (Helper.materialize v).Passed s)
    (run : (Helper.materialize v).call s = .ok (out, t)) : (Helper.materialize v).Leaves s t out := by
  obtain ⟨w, u, copied, rest⟩ := bind_eq_ok.1 run
  obtain ⟨rfl, rfl⟩ := pure_eq_ok.1 rest
  by_cases lane : ∃ simd shift, v.location = .registerLane simd shift
  · obtain ⟨simd, shift, location⟩ := lane
    obtain ⟨unleased, float⟩ := passed.2 simd shift location
    have size : (Helper.materialize v).ty.size = 4 := by
      rw [Helper.ty, float]
      rfl
    obtain ⟨conduct, temporary⟩ := Lower.materializeCall_conducts ok location unleased copied
    rw [← size] at conduct
    refine Helper.leaves_of_conduct ok conduct (fun c id free => ?_) (fun other => absurd rfl (other v)) fun o same => ?_
    · constructor
      · intro mem
        unfold Location.own at mem
        split at mem
        · exact List.mem_singleton.1 mem
        · cases mem
      · intro same
        rw [← same, Location.own, if_pos (RegisterClass.isRegister_location c id)]
        exact List.mem_singleton_self _
    · rcases temporary with ⟨c, id, place⟩ | ⟨p, place⟩
      · rw [place] at same
        cases c <;> cases same
      · rw [place] at same
        cases same
  · rw [Lower.materialize_whole fun simd shift location => lane ⟨simd, shift, location⟩] at copied
    cases copied
    refine Helper.leaves_of_conduct ok (.refl _) (fun c id free => ?_) (fun other => absurd rfl (other v)) fun o same => ?_
    · simpa using passed.1.notFree free
    · have keeps := passed.1
      rw [same] at keeps
      exact keeps.1

/-- **Operations spare live registers.** -/
theorem Helper.spares_live {h : Helper} (ok : s.Ok) (passed : h.Passed s) (run : h.call s = .ok (out, t)) :
    h.Leaves s t out := by
  cases h with
  | materialize v => exact Helper.leaves_materialize ok passed run
  | _ => exact Helper.leaves_given ok passed (fun _ => nofun) run

end

/-! ## A state without free registers -/

namespace Lower

/-- Places so many vectors. -/
def placeVectors : Nat → Lower Unit
  | 0 => pure ()
  | n + 1 => do
    let _ ← place .vec4
    placeVectors n

/-- **All SSE registers are occupied**, a constant is pooled, and a general
register is under a lease. -/
def occupy (c : Constant) : Lower Unit := do
  placeVectors 8
  let _ ← constant c
  let _ ← acquire .general []

/-- What is on a course is in good order. -/
theorem ok_of_conduct {α : Type} {s : LoweringState} {x : Lower α} (ok : s.Ok)
    (h : ∀ P, Conduct P s s [] [] → Results x s fun _ t => ∃ registers held, Conduct P s t registers held) :
    Results x s fun _ t => t.Ok :=
  (h (Permit.result s ok .none 0) (.refl _)).mono fun _ _ ⟨_, _, conduct⟩ => conduct.leads.ok

theorem placeVectors_ok (n : Nat) : ∀ {s : LoweringState}, s.Ok → Results (placeVectors n) s fun _ t => t.Ok := by
  induction n with
  | zero => exact fun ok => .pure ok
  | succ n ih =>
    intro s ok
    have first : Results (place .vec4) s fun _ t => t.Ok :=
      ok_of_conduct ok fun P h => (place_conducts h .vec4).mono fun _ _ h' => ⟨_, _, h'.1⟩
    exact first.bind fun _ t ok' => ih ok'

theorem occupy_ok {s : LoweringState} (ok : s.Ok) (c : Constant) : Results (occupy c) s fun _ t => t.Ok := by
  unfold occupy
  refine (placeVectors_ok 8 ok).bind fun _ t ok₁ => ?_
  have pooled : Results (constant c) t fun _ t => t.Ok :=
    ok_of_conduct ok₁ fun P h => (constant_conducts h c).mono fun _ _ h' => ⟨_, _, h'.1⟩
  refine pooled.bind fun _ t ok₂ => ?_
  have leased : Results (acquire .general []) t fun _ t => t.Ok :=
    ok_of_conduct ok₂ fun P h => (acquire_conducts h .general []).mono fun _ _ h' => ⟨_, _, h'.1⟩
  exact leased.bind fun _ t ok₃ => .pure ok₃

end Lower

namespace Helper

/-- The state in which a lowering starts. -/
def idleState : LoweringState :=
  { stage := .vertex, placement := .registerFirst, declarations := {}, assembly := { keepListing := false } }

theorem ok_idleState : idleState.Ok :=
  ⟨Layout.ok_empty, Assembly.sound_nil _, ConstantPool.agrees_empty, .nil, by rintro _ ⟨⟩, by rintro _ ⟨⟩⟩

/-- A store of a pooled number at an address. -/
def storeAt : Helper := .store (.indirectRegister 0) .float ⟨.globalMemory 0, .float, none, none⟩

/-- A machine with a pooled number at the start of its block, which a register
leads into. -/
def addressingMachine (address : UInt64) : Machine where
  base := 4096
  block := (Block.new 64).setBytes 0 (bytesOfWord 0x41100000)
  ip := 0
  registers := { general := (Vector.replicate 8 0).set 0 address |>.set 6 (4096 + 64) }

/-- Whether something holds of the store where all SSE registers are
occupied, and of the machine that carries it out. -/
def carriesOut (address : UInt64) (holds : LoweringState → LoweringState → Machine → Bool) : Bool :=
  match Lower.occupy (.float 0x41100000) idleState with
  | .ok (_, s) =>
    match storeAt.call s with
    | .ok (_, t) =>
      match Machine.Track.run id (.running (addressingMachine address)) (t.codeSince s) with
      | .running m => holds s t m
      | _ => false
    | .error _ => false
  | .error _ => false

/-- What is asked of the layouts of the store. -/
def settled (s t : LoweringState) : Bool :=
  s.layout.leased == [.register 0] && s.layout.freeSimd == [] && t.spillsSince s == [⟨.global, 16, 16⟩] &&
    t.layout.globalSize == 32 && t.layout.localSize == 0

theorem exists_of_carriesOut {address : UInt64} {holds : LoweringState → LoweringState → Machine → Bool}
    (h : carriesOut address (fun s t m => settled s t && holds s t m) = true) :
    ∃ s t m, s.Ok ∧ storeAt.Passed s ∧ storeAt.call s = .ok (.indirectRegister 0, t) ∧
      t.Suits 64 (addressingMachine address) ∧ s.layout.freeSimd = [] ∧ t.spillsSince s = [⟨.global, 16, 16⟩] ∧
      Machine.Track.run id (.running (addressingMachine address)) (t.codeSince s) = .running m ∧ holds s t m = true := by
  unfold carriesOut at h
  split at h
  · next x s occupied =>
    split at h
    · next out t called =>
      split at h
      · next m run =>
        simp only [settled, Bool.and_eq_true, beq_iff_eq] at h
        obtain ⟨⟨⟨⟨⟨leased, free⟩, slots⟩, globals⟩, locals⟩, holds⟩ := h
        have same : out = .indirectRegister 0 := by
          obtain ⟨_, _, -, rest⟩ := bind_eq_ok.1 called
          exact (pure_eq_ok.1 rest).1.symm
        have size : (addressingMachine address).block.size = 4096 := by
          rw [addressingMachine, Block.size_setBytes]
          rfl
        refine ⟨s, t, m, Lower.occupy_ok ok_idleState _ _ _ occupied, ⟨⟨by decide, rfl, by decide⟩, trivial, ?_⟩,
          same ▸ called, ⟨⟨?_, ?_⟩, ?_, ?_, ?_⟩, free, slots, run, holds⟩
        · rintro id ⟨⟩
          rw [leased]
          exact List.mem_singleton_self _
        · rfl
        · rw [size]
          exact (by decide : 4096 + 4096 ≤ Machine.addressCount)
        · rw [globals]
          decide
        · rw [locals, size]
          decide
        · rw [locals]
          decide
      · cases h
    · cases h
  · cases h

set_option maxRecDepth 100000 in
/-- **A store at an address spares the register that it borrows**: the
address leads behind the slot that the register is saved in. -/
theorem spares_live_storeAt : ∃ s t m, s.Ok ∧ storeAt.Passed s ∧ storeAt.call s = .ok (.indirectRegister 0, t) ∧
    s.Begins t (.indirectRegister 0) 4 64 (addressingMachine (4096 + 32)) ∧
    Machine.Track.run id (.running (addressingMachine (4096 + 32))) (t.codeSince s) = .running m ∧
    storeAt.Leaves s t (.indirectRegister 0) ∧
    s.Spares t (.indirectRegister 0) 4 64 (addressingMachine (4096 + 32)) m ∧ m.wordAt 32 = 0x41100000 := by
  have carried : carriesOut (4096 + 32) (fun s t m => settled s t && m.wordAt 32 == 0x41100000) = true := by
    decide +kernel
  obtain ⟨s, t, m, ok, passed, called, suits, free, slots, run, stored⟩ := exists_of_carriesOut carried
  have begins : s.Begins t (.indirectRegister 0) 4 64 (addressingMachine (4096 + 32)) := by
    refine ⟨suits, ?_, ?_⟩
    · rintro id ⟨⟩ k at_ slot hs ⟨low, high⟩
      rw [slots, List.mem_singleton] at hs
      subst hs
      have address : ((addressingMachine (4096 + 32)).general64 0).toNat = 4096 + 32 := rfl
      have base : (addressingMachine (4096 + 32)).base = 4096 := rfl
      simp only [Machine.bytesAt, address, base, Slot.stop] at at_ high
      omega
    · rintro ⟨id, shift, same⟩
      cases same
  have leaves := spares_live ok passed called
  exact ⟨s, t, m, ok, passed, called, begins, run, leaves, leaves.spares _ _ _ begins _ run, beq_iff_eq.1 stored⟩

set_option maxRecDepth 100000 in
/-- **An address may lead to the slot of a register that is borrowed**, which
then comes back changed. -/
theorem not_spares_behind_address :
    ¬ ∀ (h : Helper) (s t : LoweringState) (out : Location), s.Ok → h.Passed s → h.call s = .ok (out, t) →
      ∀ (rsqrt : Word → Word) (L : Nat) (m m' : Machine), t.Suits L m →
        Machine.Track.run rsqrt (.running m) (t.codeSince s) = .running m' → s.Spares t out h.ty.size L m m' := by
  intro spares
  have carried : carriesOut (4096 + 16) (fun s t m => settled s t && (m.simd 0).get 0 == 0x41100000) = true := by
    decide +kernel
  obtain ⟨s, t, m, ok, passed, called, suits, free, -, run, changed⟩ := exists_of_carriesOut carried
  have busy : 0 ∉ s.layout.free .simd := by
    rw [show s.layout.free .simd = [] from free]
    exact List.not_mem_nil
  have kept := (spares _ s t _ ok passed called id 64 _ m suits run).simd 0 (by decide) busy (by rintro ⟨⟩) 0 (by decide)
    (by rintro _ ⟨⟩)
  rw [beq_iff_eq.1 changed] at kept
  exact absurd kept (by decide +kernel)

end Helper

end Shading
