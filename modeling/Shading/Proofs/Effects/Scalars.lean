import Shading.Proofs.Effects.Homes

/-!
# What operations on scalars compute

Numbers are combined as floats in an SSE register, where an integer is converted
first, and integers in a general register. An operand is read as it was when the
operation started, since the operation writes the place of its result alone.
-/

namespace Shading

open LoweringState Permit

/-- What a float operation computes from two words. -/
def Opcode.scalar? : Opcode → Option (Word → Word → Word)
  | addss => some Binary32.add
  | subss => some Binary32.sub
  | mulss => some Binary32.mul
  | divss => some Binary32.div
  | maxss => some Binary32.max
  | sqrtss => some fun _ b => Binary32.sqrt b
  | _ => none

/-- What an operation on integers computes from two words. -/
def Opcode.integer? : Opcode → Option (Word → Word → Word)
  | add => some (· + ·)
  | sub => some (· - ·)
  | imul => some (· * ·)
  | _ => none

namespace Machine

variable {m : Machine} {rsqrt : Word → Word} {L : Nat} {l : Location}

/-- **A float operation** on a register and an operand. -/
theorem perform_scalar {o : Opcode} {f : Word → Word → Word} (computes : o.scalar? = some f) (h : m.Has L 4 l)
    (ground : m.Grounded L) (float : ∀ id, l ≠ .register id) (id : Nat) :
    m.perform rsqrt ⟨o, id, l.operand, []⟩ = .ok (m.setScalar id (f (m.simd id).x (m.part L l 0))) := by
  have read := h.readScalar ground float (i := ⟨o, id, l.operand, []⟩) rfl
  cases o <;> cases computes <;> exact except_bind_eq_ok.2 ⟨_, read, rfl⟩

/-- **An operation on integers** on a register and an operand. -/
theorem perform_integer (rsqrt : Word → Word) {o : Opcode} {f : Word → Word → Word} (computes : o.integer? = some f) (h : m.Has L 4 l)
    (ground : m.Grounded L) (integral : ∀ id, l ≠ .simdRegister id) (id : Nat) :
    ∃ m', m.perform rsqrt ⟨o, id, l.operand, []⟩ = .ok m' ∧
      m'.general32 id = f (m.general32 id) (m.part L l 0) := by
  have read := h.read32 ground integral (i := ⟨o, id, l.operand, []⟩) rfl
  have written (w : Word) (flags : Flags) : ((m.setGeneral32 id w).setFlags flags).general32 id = w :=
    (general32_setGeneral32 m id id w).trans (if_pos rfl)
  cases o <;> cases computes <;>
    exact ⟨_, except_bind_eq_ok.2 ⟨_, read, rfl⟩, written _ _⟩

end Machine

namespace Lower

variable {P : Permit} {s₁ s t : LoweringState} {registers : List Location} {held : List Lease}
  {rsqrt : Word → Word} {L : Nat} {m₀ : Machine} {F G : Machine → Prop} {id : Nat} {out : Location} {v lhs rhs : Value}

/-! ## Floats -/

/-- **A float operation on a register**, told by what it computes. -/
theorem scalar_produces (h : Produces P s₁ s registers held rsqrt L m₀ F) {o : Opcode} {f : Word → Word → Word}
    (computes : o.scalar? = some f) (owns : P.Owns held .simd id) {l : Location} (reads : P.Reads l)
    (float : ∀ j, l ≠ .register j) (has : ∀ m, P.Comes s rsqrt L m₀ m → F m → m.Has L 4 l)
    (step : ∀ m m', P.Comes s rsqrt L m₀ m → F m → m.Touches L (.simdRegister id) 0 m' →
      (m'.simd id).x = f (m.simd id).x (m.part L l 0) → G m') :
    Results (emit o (.simdRegister id) l) s fun _ t => Produces P s₁ t registers held rsqrt L m₀ G := by
  have written : o.written? = some .simd := by cases o <;> cases computes <;> rfl
  have keeps : o.keepsFlags = true := by cases o <;> cases computes <;> rfl
  refine emit_produces (c := .simd) h written keeps owns reads [] fun m comes _ holds => ?_
  refine ⟨_, Machine.perform_scalar computes (has m comes holds) (h.grounded comes) float id, fun touches =>
    step m _ comes holds touches ?_⟩
  rw [Machine.setScalar, Machine.simd_set, if_pos rfl]

/-- **The operand of a float operation**: where it is, or converted in a leased
register. -/
structure Converts (P : Permit) (avoid : List Location) (v : Value) (operand : Location) (lease : Option Lease) : Prop where
  reads : P.Reads operand
  float : ∀ j, operand ≠ .register j
  which : lease = none ∧ operand = v.location ∨
    ∃ x j, lease = some x ∧ j ∈ RegisterClass.simd.pool ∧ x.location = .simdRegister j ∧ operand = .simdRegister j ∧
      ∀ a ∈ avoid, a ≠ .simdRegister j

/-- A leased register holds the number that was converted into it. -/
def Converted (L : Nat) (m₀ : Machine) (v : Value) (lease : Option Lease) (m : Machine) : Prop :=
  ∀ x j, lease = some x → x.location = .simdRegister j → (m.simd j).x = m₀.number L v

namespace Converts

variable {operand : Location} {lease : Option Lease} {avoid : List Location} {m m' : Machine}

/-- **The operand is the number**, where the place of the value or the leased
register has been left alone. -/
theorem word (converts : Converts P avoid v operand lease) (offers : P.Offers L m₀ v)
    (number : v.ty = .int ∨ v.ty = .float) (isFloat : lease = none → v.ty = .float)
    (conduct : Conduct P s₁ t registers held) (comes : P.Comes t rsqrt L m₀ m)
    (notHeld : lease = none → ∀ x ∈ held, x.location ≠ v.location) (holds : Converted L m₀ v lease m) :
    m.Has L 4 operand ∧ m.part L operand 0 = m₀.number L v := by
  have size : v.ty.size = 4 := by rcases number with eq | eq <;> rw [eq] <;> rfl
  rcases converts.which with ⟨none, rfl⟩ | ⟨x, j, some, pool, location, rfl, -⟩
  · obtain ⟨has, same⟩ := offers.word conduct comes size (notHeld none)
    rw [Machine.number, if_neg (by rw [isFloat none]; decide)]
    exact ⟨has, same⟩
  · exact ⟨Machine.has_location .simd j, holds x j some location⟩

/-- What is converted stays where another place is touched. -/
theorem touched (converts : Converts P avoid v operand lease) {l : Location} {n : Nat} (touches : m.Touches L l n m')
    (other : lease = none ∨ l ≠ operand) (holds : Converted L m₀ v lease m) : Converted L m₀ v lease m' := by
  rintro x j some location
  rcases converts.which with ⟨none, -⟩ | ⟨y, i, some', pool, location', rfl, -⟩
  · rw [none] at some
    cases some
  · obtain rfl : x = y := Option.some.inj (some.symm.trans some')
    obtain rfl := Location.simdRegister.inj (location.symm.trans location')
    have apart := other.resolve_left (by rw [some]; rintro ⟨⟩)
    rw [touches.simd j (Regime.pool_lt pool) apart]
    exact holds x j some location

/-- A leased register is none of the places that it was to be avoided for. -/
theorem leased_ne (converts : Converts P avoid v operand lease) {a : Location} (mem : a ∈ avoid) :
    ∀ x ∈ lease.toList, x.location ≠ a := by
  intro x hx
  rcases converts.which with ⟨none, -⟩ | ⟨y, j, some, -, location, -, clear⟩
  · rw [none] at hx
    cases hx
  · rw [some, Option.toList_some, List.mem_singleton] at hx
    rw [hx, location]
    exact (clear a mem).symm

theorem touched_slot (converts : Converts P avoid v operand lease) {o n : Nat}
    (touches : m.Touches L (.globalMemory o) n m') (holds : Converted L m₀ v lease m) : Converted L m₀ v lease m' := by
  refine converts.touched touches ?_ holds
  rcases converts.which with ⟨none, -⟩ | ⟨-, j, -, -, -, rfl, -⟩
  · exact .inl none
  · exact .inr (by rintro ⟨⟩)

theorem touched_register (converts : Converts P avoid v operand lease) (mem : Location.simdRegister id ∈ avoid) {n : Nat}
    (touches : m.Touches L (.simdRegister id) n m') (holds : Converted L m₀ v lease m) : Converted L m₀ v lease m' := by
  refine converts.touched touches ?_ holds
  rcases converts.which with ⟨none, -⟩ | ⟨-, j, -, -, -, rfl, clear⟩
  · exact .inl none
  · exact .inr (clear _ mem)

end Converts

theorem floatOperand_produces (h : Produces P s₁ s registers held rsqrt L m₀ F) (offers : P.Offers L m₀ v)
    (number : v.ty = .int ∨ v.ty = .float) {avoid : List Location} (mem : v.location ∈ avoid)
    (notHeld : ∀ x ∈ held, x.location ≠ v.location)
    (stable : ∀ m m' o n, s.globalTop ≤ o → o + n ≤ L → m.Touches L (.globalMemory o) n m' → F m → F m')
    (kept : ∀ m m' j, (∀ a ∈ avoid, a ≠ .simdRegister j) → m.Touches L (.simdRegister j) 0 m' → F m → F m') :
    Results (floatOperand v avoid) s fun r t =>
      Produces P s₁ t registers (held ++ r.2.toList) rsqrt L m₀ (fun m => F m ∧ Converted L m₀ v r.2 m) ∧
        Converts P avoid v r.1 r.2 ∧ (r.2 = none → v.ty = .float) := by
  have size : v.ty.size = 4 := by rcases number with eq | eq <;> rw [eq] <;> rfl
  unfold floatOperand
  split
  · next float =>
    refine .pure ⟨?_, ⟨offers.homes.reads P, offers.float (by rw [float]; rfl), .inl ⟨rfl, rfl⟩⟩, fun _ => float⟩
    rw [Option.toList_none, List.append_nil]
    exact h.mono fun m _ holds => ⟨holds, by rintro _ _ ⟨⟩⟩
  · next other =>
    have int := number.resolve_right other
    refine (acquire_produces h .simd avoid stable).bind ?_
    rintro x t ⟨h₁, j, grants⟩
    have location : x.location = .simdRegister j := grants.location
    have notHeld' : ∀ y ∈ held ++ [x], y.location ≠ v.location := fun y hy => by
      rcases List.mem_append.1 hy with hy | hy
      · exact notHeld y hy
      · exact List.mem_singleton.1 hy ▸ grants.apart mem
    have integral (i : Nat) (eq : v.location = .simdRegister i) : False := by
      have class_ := offers.class_eq .simd i eq
      rw [int] at class_
      cases class_
    have clear : ∀ a ∈ avoid, a ≠ .simdRegister j := fun a ha eq => grants.apart ha (location.trans eq.symm)
    rw [location]
    refine (convert_produces (G := fun m => F m ∧ (m.simd j).x = m₀.number L v) h₁
      ⟨grants.pool, .inl ⟨x, by simp, location⟩⟩ (offers.homes.reads P) integral
      (fun m comes _ => (offers.word h₁.toConduct comes size notHeld').1) fun m m' comes holds touches converted =>
        ⟨kept m m' j clear touches holds, ?_⟩).bind fun _ t h₂ => ?_
    · have same := offers.number h₁.toConduct comes size notHeld'
      rw [Machine.number, if_pos int] at same
      rw [converted, same]
    · refine .pure ⟨h₂.mono fun m _ holds => ⟨holds.1, ?_⟩, ⟨P.reads_location .simd j, by rintro _ ⟨⟩,
        .inr ⟨x, j, rfl, grants.pool, location, rfl, clear⟩⟩, by rintro ⟨⟩⟩
      rintro _ i ⟨⟩ same
      obtain rfl := Location.simdRegister.inj (location.symm.trans same)
      exact holds.2

/-- The lease of a converted operand ends. -/
theorem Converts.release_produces {operand : Location} {lease : Option Lease} {avoid : List Location}
    (h : Produces P s₁ s registers (held ++ lease.toList) rsqrt L m₀ F) (converts : Converts P avoid v operand lease)
    (kept : ∀ m m' j, (∀ a ∈ avoid, a ≠ .simdRegister j) → m.Touches L (.simdRegister j) 0 m' → F m → F m') :
    Results (releaseOption lease) s fun _ t => Produces P s₁ t registers held rsqrt L m₀ F := by
  rcases converts.which with ⟨rfl, -⟩ | ⟨x, j, rfl, -, location, -, clear⟩
  · rw [Option.toList_none, List.append_nil] at h
    exact .pure h
  · exact release_last_produces (c := .simd) h location fun m m' _ touches holds => kept m m' j clear touches holds

/-- A register keeps its first lane where another one is touched. -/
theorem keeps_x {w : Word} {avoid : List Location} (pool : id ∈ RegisterClass.simd.pool)
    (mem : Location.simdRegister id ∈ avoid) (m m' : Machine) (j : Nat) (clear : ∀ a ∈ avoid, a ≠ .simdRegister j)
    (touches : m.Touches L (.simdRegister j) 0 m') (holds : (m.simd id).x = w) : (m'.simd id).x = w := by
  rw [touches.simd id (Regime.pool_lt pool) fun eq => clear _ mem eq.symm]
  exact holds

/-- Slots leave registers alone. -/
theorem slot_x {w : Word} (pool : id ∈ RegisterClass.simd.pool) (m m' : Machine) (o n : Nat)
    (touches : m.Touches L (.globalMemory o) n m') (holds : (m.simd id).x = w) : (m'.simd id).x = w := by
  rw [touches.simd id (Regime.pool_lt pool) (by rintro ⟨⟩)]
  exact holds

/-- A number is stored as a float in a register that it is computed in. -/
theorem storeAccumulator_produces (h : Produces P s₁ s registers held rsqrt L m₀ F) (owns : P.Owns held .simd id)
    (offers : P.Offers L m₀ v) (number : v.ty = .int ∨ v.ty = .float) (notHeld : ∀ x ∈ held, x.location ≠ v.location) :
    Results (store (.simdRegister id) .float v) s fun _ t =>
      Produces P s₁ t registers held rsqrt L m₀ fun m => (m.simd id).x = m₀.number L v := by
  have size : v.ty.size = 4 := by rcases number with eq | eq <;> rw [eq] <;> rfl
  exact storeFloat_produces h owns number (offers.homes.reads P) offers.class_eq
    (fun m comes _ => (offers.word h.toConduct comes size notHeld).1) fun m m' comes _ _ stored =>
      stored.trans (offers.number h.toConduct comes size notHeld)

/-- **Two numbers are combined as floats.** -/
theorem floats_produces (start : Produces P s₁ s registers [] rsqrt L m₀ fun _ => True) (awaits : P.Awaits s₁ .float out)
    (left : P.Offers L m₀ lhs) (right : P.Offers L m₀ rhs) (numberL : lhs.ty = .int ∨ lhs.ty = .float)
    (numberR : rhs.ty = .int ∨ rhs.ty = .float) (otherL : lhs.location ≠ out) (otherR : rhs.location ≠ out) {o : Opcode}
    {f : Word → Word → Word} (computes : o.scalar? = some f) :
    Results (do
      let (acc, lease) ← accumulator out .simd [out, lhs.location, rhs.location]
      store acc .float lhs
      let (operand, operandLease) ← floatOperand rhs [acc, out, lhs.location, rhs.location]
      emit o acc operand
      releaseOption operandLease
      settle out acc lease .single) s fun _ t =>
      Produces P s₁ t registers [] rsqrt L m₀ fun m => m.part L out 0 = f (m₀.number L lhs) (m₀.number L rhs) := by
  refine (accumulate_produces (c := .simd) start List.mem_cons_self awaits.admits.first.register
    fun _ _ _ _ _ _ _ _ => trivial).bind ?_
  rintro ⟨acc, lease⟩ t ⟨h₁, id, a⟩
  have clearL := a.clear lhs.location (by simp) otherL
  have clearR := a.clear rhs.location (by simp) otherR
  have owns := a.owns
  obtain rfl : acc = .simdRegister id := a.at_
  rw [List.nil_append] at owns
  dsimp only at h₁ clearL clearR ⊢
  rw [List.nil_append] at h₁
  refine (storeAccumulator_produces h₁ owns left numberL clearL.2).bind fun _ t h₂ => ?_
  refine (floatOperand_produces h₂ right numberR (by simp) clearR.2
    (fun m m' o n _ _ touches holds => slot_x owns.1 m m' o n touches holds)
    fun m m' j clear touches holds => keeps_x owns.1 List.mem_cons_self m m' j clear touches holds).bind ?_
  rintro ⟨operand, operandLease⟩ t ⟨h₃, converts, isFloat⟩
  have word (m : Machine) (comes : P.Comes t rsqrt L m₀ m) (holds : Converted L m₀ rhs operandLease m) :=
    converts.word right numberR isFloat h₃.toConduct comes (fun unleased => by
      rw [show operandLease = none from unleased, Option.toList_none, List.append_nil]
      exact clearR.2) holds
  refine (scalar_produces (G := fun m => (m.simd id).x = f (m₀.number L lhs) (m₀.number L rhs)) h₃ computes
    (owns.mono (List.subset_append_left _ _)) converts.reads converts.float
    (fun m comes holds => (word m comes holds.2).1) fun m m' comes holds _ computed => ?_).bind fun _ t h₄ => ?_
  · rw [computed, holds.1, (word m comes holds.2).2]
  refine (converts.release_produces h₄ fun m m' j clear touches holds =>
    keeps_x owns.1 List.mem_cons_self m m' j clear touches holds).bind fun _ t h₅ => ?_
  exact a.settle_produces (w := .single) h₅ awaits.admits.first (fun m comes _ => awaits.homes.has h₅.toConduct comes)
    awaits.homes.direct (small_of_fits awaits.homes.fits) fun m m' holds _ moved => (moved 0 (by decide)).trans holds

theorem scalarFloat_produces (start : Produces P s₁ s registers [] rsqrt L m₀ fun _ => True)
    (awaits : P.Awaits s₁ .float out) (left : P.Offers L m₀ lhs) (right : P.Offers L m₀ rhs)
    (numberL : lhs.ty = .int ∨ lhs.ty = .float) (numberR : rhs.ty = .int ∨ rhs.ty = .float) (otherL : lhs.location ≠ out)
    (otherR : rhs.location ≠ out) (op : BinaryOp) {f : Word → Word → Word} (computes : (floatOpcode op).scalar? = some f) :
    Results (scalarFloat op out lhs rhs) s fun _ t =>
      Produces P s₁ t registers [] rsqrt L m₀ fun m => m.part L out 0 = f (m₀.number L lhs) (m₀.number L rhs) :=
  floats_produces start awaits left right numberL numberR otherL otherR computes

theorem larger_produces (start : Produces P s₁ s registers [] rsqrt L m₀ fun _ => True)
    (awaits : P.Awaits s₁ .float out) (left : P.Offers L m₀ lhs) (right : P.Offers L m₀ rhs)
    (numberL : lhs.ty = .int ∨ lhs.ty = .float) (numberR : rhs.ty = .int ∨ rhs.ty = .float) (otherL : lhs.location ≠ out)
    (otherR : rhs.location ≠ out) :
    Results (larger out lhs rhs) s fun _ t =>
      Produces P s₁ t registers [] rsqrt L m₀ fun m =>
        m.part L out 0 = Binary32.max (m₀.number L lhs) (m₀.number L rhs) :=
  floats_produces start awaits left right numberL numberR otherL otherR rfl

/-! ## Integers -/

/-- A word that is an operand of an integer operation. -/
theorem integral_of_isIntegral (offers : P.Offers L m₀ v) (integral : v.ty.isIntegral = true) :
    v.ty.size = 4 ∧ (Width.ofTy v.ty).registerClass = .general ∧ ∀ j, v.location ≠ .simdRegister j := by
  have facts : v.ty.size = 4 ∧ (Width.ofTy v.ty).registerClass = .general := by
    revert integral
    generalize v.ty = ty
    cases ty <;> decide
  refine ⟨facts.1, facts.2, fun j eq => ?_⟩
  have class_ := offers.class_eq .simd j eq
  rw [facts.2] at class_
  cases class_

/-- **An integer is computed in a register** from an operand, in some way. -/
theorem integer_produces {ty : Ty} (compute : Location → Lower Unit) (start : Produces P s₁ s registers [] rsqrt L m₀ fun _ => True)
    (awaits : P.Awaits s₁ ty out) (integral : ty.isIntegral = true) (left : P.Offers L m₀ lhs)
    (integralL : lhs.ty.isIntegral = true) (otherL : lhs.location ≠ out) {avoid : List Location} (memOut : out ∈ avoid)
    (memL : lhs.location ∈ avoid) {w : Word}
    (step : ∀ id held t, (∀ a ∈ avoid, a ≠ out → ∀ x ∈ held, x.location ≠ a) → P.Owns held .general id →
      Produces P s₁ t registers held rsqrt L m₀ (fun m => m.general32 id = m₀.part L lhs.location 0) →
      Results (compute (.register id)) t fun _ u =>
        Produces P s₁ u registers held rsqrt L m₀ fun m => m.general32 id = w) :
    Results (do
      let (acc, lease) ← accumulator out .general avoid
      transfer .dword acc lhs.location
      compute acc
      settle out acc lease .dword) s fun _ t =>
      Produces P s₁ t registers [] rsqrt L m₀ fun m => m.part L out 0 = w := by
  have place := admits_integral awaits.admits integral
  obtain ⟨size, class_, -⟩ := integral_of_isIntegral left integralL
  refine (accumulate_produces (c := .general) start memOut place.register
    fun _ _ _ _ _ _ _ _ => trivial).bind ?_
  rintro ⟨acc, lease⟩ t ⟨h₁, id, a⟩
  have owns := a.owns
  obtain rfl : acc = .register id := a.at_
  rw [List.nil_append] at owns
  dsimp only at h₁ ⊢
  rw [List.nil_append] at h₁
  have clear := a.clear lhs.location memL otherL
  refine (load_produces (w := .dword) (G := fun m => m.general32 id = m₀.part L lhs.location 0) h₁ owns
    (left.homes.reads P) (fun d j eq => (left.class_eq d j eq).trans class_)
    (fun m comes _ => (left.word h₁.toConduct comes size clear.2).1)
    fun m m' comes _ _ loaded => ?_).bind fun _ t h₂ => ?_
  · exact (loaded 0 (by decide)).trans (left.word h₁.toConduct comes size clear.2).2
  refine (step id _ t (fun a' mem other => (a.clear a' mem other).2) owns h₂).bind fun _ t h₃ => ?_
  have size' : ty.size = 4 := by
    revert integral
    cases ty <;> decide
  refine a.settle_produces (w := .dword) h₃ place (fun m comes _ => ?_) awaits.homes.direct
    (small_of_fits awaits.homes.fits) fun m m' holds _ moved => (moved 0 (by decide)).trans holds
  have has := awaits.homes.has h₃.toConduct comes
  rwa [size'] at has

/-- **Two integers are combined.** -/
theorem integers_produces {ty : Ty} (start : Produces P s₁ s registers [] rsqrt L m₀ fun _ => True)
    (awaits : P.Awaits s₁ ty out) (integral : ty.isIntegral = true) (left : P.Offers L m₀ lhs) (right : P.Offers L m₀ rhs)
    (integralL : lhs.ty.isIntegral = true) (integralR : rhs.ty.isIntegral = true) (otherL : lhs.location ≠ out)
    (otherR : rhs.location ≠ out) {o : Opcode} {f : Word → Word → Word} (computes : o.integer? = some f) :
    Results (do
      let (acc, lease) ← accumulator out .general [out, lhs.location, rhs.location]
      transfer .dword acc lhs.location
      emit o acc rhs.location
      settle out acc lease .dword) s fun _ t =>
      Produces P s₁ t registers [] rsqrt L m₀ fun m =>
        m.part L out 0 = f (m₀.part L lhs.location 0) (m₀.part L rhs.location 0) := by
  obtain ⟨size, -, notSimd⟩ := integral_of_isIntegral right integralR
  refine integer_produces (fun acc => emit o acc rhs.location) start awaits integral left integralL otherL
    List.mem_cons_self (by simp) fun id held t clear owns h => ?_
  have written : o.written? = some .general := by cases o <;> cases computes <;> rfl
  refine emit_computes (c := .general) h written owns (right.homes.reads P) [] fun m comes _ holds => ?_
  obtain ⟨has, same⟩ := right.word h.toConduct comes size (clear _ (by simp) otherR)
  obtain ⟨m', run, computed⟩ := Machine.perform_integer rsqrt computes has (h.grounded comes) notSimd id
  exact ⟨m', run, by rw [computed, holds, same]⟩

/-- **An integer is changed in a register.** -/
theorem changed_produces {ty : Ty} (start : Produces P s₁ s registers [] rsqrt L m₀ fun _ => True)
    (awaits : P.Awaits s₁ ty out) (integral : ty.isIntegral = true) (offers : P.Offers L m₀ v)
    (integralV : v.ty.isIntegral = true) (other : v.location ≠ out) {o : Opcode} (inPlace : o.inPlace? = some .general)
    {immediate : List UInt8} {f : Word → Word}
    (computes : ∀ (m : Machine) id, ∃ m', m.perform rsqrt ⟨o, 0, .register id, immediate⟩ = .ok m' ∧
      m'.general32 id = f (m.general32 id)) :
    Results (do
      let (acc, lease) ← accumulator out .general [out, v.location]
      transfer .dword acc v.location
      emitUnary o acc immediate
      settle out acc lease .dword) s fun _ t =>
      Produces P s₁ t registers [] rsqrt L m₀ fun m => m.part L out 0 = f (m₀.part L v.location 0) := by
  refine integer_produces (fun acc => emitUnary o acc immediate) start awaits integral offers integralV other
    List.mem_cons_self (by simp) fun id held t _ owns h => ?_
  refine unary_computes (c := .general) h inPlace owns immediate fun m _ _ holds => ?_
  obtain ⟨m', run, computed⟩ := computes m id
  exact ⟨m', run, by rw [computed, holds]⟩

theorem perform_neg (m : Machine) (id : Nat) : ∃ m', m.perform rsqrt ⟨.neg, 0, .register id, []⟩ = .ok m' ∧
    m'.general32 id = 0 - m.general32 id :=
  ⟨_, rfl, (Machine.general32_setGeneral32 m id id _).trans (if_pos rfl)⟩

theorem perform_flip (m : Machine) (id : Nat) : ∃ m', m.perform rsqrt ⟨.xorImm8, 0, .register id, [1]⟩ = .ok m' ∧
    m'.general32 id = m.general32 id ^^^ 1 := by
  have one : immediateWord [1] = 1 := by decide
  refine ⟨_, rfl, (Machine.general32_setGeneral32 m id id _).trans ((if_pos rfl).trans ?_)⟩
  rw [← one]
  rfl

/-- **A truth value is inverted.** -/
theorem invert_produces (start : Produces P s₁ s registers [] rsqrt L m₀ fun _ => True) (awaits : P.Awaits s₁ .bool out)
    (offers : P.Offers L m₀ v) (integral : v.ty.isIntegral = true) (other : v.location ≠ out) :
    Results (invert out v) s fun _ t =>
      Produces P s₁ t registers [] rsqrt L m₀ fun m => m.part L out 0 = m₀.part L v.location 0 ^^^ 1 :=
  changed_produces (o := .xorImm8) (f := (· ^^^ 1)) start awaits rfl offers integral other rfl
    fun m id => perform_flip m id

end Lower

end Shading
