import Shading.Lowering.Statement
import Shading.Proofs.Effects.Scalars
import Shading.Proofs.Simulation.Semantics

/-!
# What comparisons compute

A comparison sets flags, from which a conditional jump tells whether the
comparison failed (`Lower.signedFailure_holds`, `Lower.floatFailure_holds`).
Between the two, registers are loaded again, and that leaves the flags alone.
-/

namespace Shading

open LoweringState Permit

/-! ## Flags -/

namespace Binary32

/-- An integer word is the signed value of its bits. -/
theorem intOfWord_eq (w : Word) :
    (w.toNat < 2147483648 ∧ intOfWord w = w.toNat) ∨ (2147483648 ≤ w.toNat ∧ intOfWord w = w.toNat - 4294967296) := by
  have small := w.toNat_lt
  have bmod : intOfWord w = if (w.toNat : Int) % 4294967296 < (4294967296 + 1) / 2 then (w.toNat : Int) % 4294967296
      else (w.toNat : Int) % 4294967296 - 4294967296 := Int.bmod_def ..
  split at bmod <;> omega

theorem isNegative_eq (w : Word) : isNegative w = decide (intOfWord w < 0) := by
  have small := w.toNat_lt
  have bit : isNegative w = (w.toNat / 2147483648 == 1) := rfl
  rw [bit, Bool.eq_iff_iff, beq_iff_eq, decide_eq_true_iff]
  rcases intOfWord_eq w with ⟨_, eq⟩ | ⟨_, eq⟩ <;> omega

theorem intOfWord_inj {a b : Word} (same : intOfWord a = intOfWord b) : a = b := by
  have smallA := a.toNat_lt
  have smallB := b.toNat_lt
  refine UInt32.toNat_inj.1 ?_
  rcases intOfWord_eq a with ⟨_, eqA⟩ | ⟨_, eqA⟩ <;> rcases intOfWord_eq b with ⟨_, eqB⟩ | ⟨_, eqB⟩ <;> omega

/-- **Of numbers that compare**, one is below the other, or they are equal. -/
theorem compare_cases {a b : Word} (compare : ordered a b = true) :
    lt a b = true ∧ eq a b = false ∧ lt b a = false ∨ lt a b = false ∧ eq a b = true ∧ lt b a = false ∨
      lt a b = false ∧ eq a b = false ∧ lt b a = true := by
  have compare' : ordered b a = true := by
    rw [ordered, Bool.and_comm]
    exact compare
  rw [lt, lt, eq, compare, compare', Bool.true_and, Bool.true_and, Bool.true_and]
  simp only [decide_eq_true_eq, decide_eq_false_iff_not, beq_iff_eq, beq_eq_false_iff_ne]
  omega

end Binary32

namespace Flags

/-- **The flags of a difference** tell which integer is below the other. -/
theorem ofSub_less (a b : Word) : ((ofSub a b).sign != (ofSub a b).overflow) =
    decide (Binary32.intOfWord a < Binary32.intOfWord b) := by
  have smallA := a.toNat_lt
  have smallB := b.toNat_lt
  have difference : (a - b).toNat = (4294967296 - b.toNat + a.toNat) % 4294967296 := UInt32.toNat_sub a b
  have sign : (ofSub a b).sign = decide (Binary32.intOfWord (a - b) < 0) := Binary32.isNegative_eq _
  have overflow : (ofSub a b).overflow =
      decide (Binary32.intOfWord a - Binary32.intOfWord b ≠ Binary32.intOfWord (a - b)) := by
    rw [ofSub, Bool.eq_iff_iff, bne_iff_ne, decide_eq_true_iff]
  rw [sign, overflow, Bool.eq_iff_iff]
  simp only [bne_iff_ne, ne_eq, decide_eq_decide, decide_eq_true_eq]
  rcases Binary32.intOfWord_eq a with ⟨_, eqA⟩ | ⟨_, eqA⟩ <;> rcases Binary32.intOfWord_eq b with ⟨_, eqB⟩ | ⟨_, eqB⟩ <;>
    rcases Binary32.intOfWord_eq (a - b) with ⟨_, eq⟩ | ⟨_, eq⟩ <;> omega

theorem ofSub_zero (a b : Word) : (ofSub a b).zero = (Binary32.intOfWord a == Binary32.intOfWord b) := by
  have zero : (ofSub a b).zero = (a - b == 0) := rfl
  rw [zero, Bool.eq_iff_iff, beq_iff_eq, beq_iff_eq, UInt32.sub_eq_iff_eq_add, UInt32.zero_add]
  exact ⟨fun same => same ▸ rfl, Binary32.intOfWord_inj⟩

end Flags

namespace Machine

variable {m : Machine} {rsqrt : Word → Word} {L : Nat} {l : Location}

theorem perform_comiss (h : m.Has L 4 l) (ground : m.Grounded L) (float : ∀ id, l ≠ .register id) (id : Nat) :
    m.perform rsqrt ⟨.comiss, id, l.operand, []⟩ = .ok (m.setFlags (.ofFloats (m.simd id).x (m.part L l 0))) :=
  except_bind_eq_ok.2 ⟨_, h.readScalar ground float (i := ⟨.comiss, id, l.operand, []⟩) rfl, rfl⟩

theorem perform_cmpLoad (h : m.Has L 4 l) (ground : m.Grounded L) (integral : ∀ id, l ≠ .simdRegister id) (id : Nat) :
    m.perform rsqrt ⟨.cmpLoad, id, l.operand, []⟩ = .ok (m.setFlags (.ofSub (m.general32 id) (m.part L l 0))) :=
  except_bind_eq_ok.2 ⟨_, h.read32 ground integral (i := ⟨.cmpLoad, id, l.operand, []⟩) rfl, rfl⟩

theorem perform_cmpStore (h : m.Has L 4 l) (ground : m.Grounded L) (integral : ∀ id, l ≠ .simdRegister id) (id : Nat) :
    m.perform rsqrt ⟨.cmpStore, id, l.operand, []⟩ = .ok (m.setFlags (.ofSub (m.part L l 0) (m.general32 id))) :=
  except_bind_eq_ok.2 ⟨_, h.read32 ground integral (i := ⟨.cmpStore, id, l.operand, []⟩) rfl, rfl⟩

end Machine

namespace Lower

variable {P : Permit} {s₁ s t : LoweringState} {registers : List Location} {held : List Lease}
  {rsqrt : Word → Word} {L : Nat} {m₀ : Machine} {F G : Machine → Prop} {c : RegisterClass} {id : Nat} {out : Location}
  {v lhs rhs : Value}

/-- **The jump behind a comparison of integers** is taken when it fails. -/
theorem signedFailure_holds (op : RelationalOp) (a b : Word) :
    (signedFailure op).holds (.ofSub a b) = !Content.comparesIntegers op a b := by
  have less := Flags.ofSub_less a b
  have zero := Flags.ofSub_zero a b
  have flip : ((Flags.ofSub a b).sign == (Flags.ofSub a b).overflow) =
      !decide (Binary32.intOfWord a < Binary32.intOfWord b) := by
    rw [← less, bne, Bool.not_not]
  cases op <;> simp only [signedFailure, Condition.holds, Content.comparesIntegers, zero, less, flip]
  all_goals
    rw [Bool.eq_iff_iff]
    simp
  all_goals omega

/-- **The jump behind a comparison of floats** is taken when it fails. -/
theorem floatFailure_holds (op : RelationalOp) (a b : Word) :
    (floatFailure op).holds (.ofFloats a b) = !Content.comparesFloats op a b := by
  unfold Flags.ofFloats Content.comparesFloats
  split
  · next compare =>
    rcases Binary32.compare_cases compare with ⟨lt, eq, gt⟩ | ⟨lt, eq, gt⟩ | ⟨lt, eq, gt⟩ <;> cases op <;>
      simp only [floatFailure, Condition.holds, Content.comparesOrdered, lt, eq, gt] <;> rfl
  · cases op <;> rfl

/-! ## Instructions -/

/-- **A comparison sets flags.** -/
theorem inspect_produces (h : Produces P s₁ s registers held rsqrt L m₀ F) {o : Opcode}
    (compares : o = .cmpLoad ∨ o = .comiss) {l : Location} (reads : P.Reads l)
    (step : ∀ m, P.Comes s rsqrt L m₀ m → F m →
      ∃ m', m.perform rsqrt ⟨o, id, l.operand, []⟩ = .ok m' ∧ G m') :
    Results (emit o (c.location id) l) s fun _ t => Produces P s₁ t registers held rsqrt L m₀ G := by
  refine ((inspect_conducts h.toConduct (c.location id) l compares reads).and (emit_outcome o c id l [] s)).mono ?_
  rintro _ _ ⟨conduct, text, rfl⟩
  exact h.wrote conduct fun m comes _ holds => step m comes holds

/-- **A jump over an instruction** that computes into a register. -/
theorem skip_produces (h : Produces P s₁ s registers held rsqrt L m₀ F) (form : JumpForm) {o : Opcode}
    (written : o.written? = some c) (keeps : o.keepsFlags = true) (owns : P.Owns held c id) {l : Location} (reads : P.Reads l)
    (taken : ∀ m, P.Comes s rsqrt L m₀ m → F m → form.taken m.registers.flags = true → G m)
    (passed : ∀ m, P.Comes s rsqrt L m₀ m → F m → form.taken m.registers.flags = false →
      ∃ m', m.perform rsqrt ⟨o, id, l.operand, []⟩ = .ok m' ∧ (m.Touches L (c.location id) 0 m' → G m'))
    {next : Lower Unit} {Q : Unit → LoweringState → Prop}
    (rest : ∀ t, Produces P s₁ t registers held rsqrt L m₀ G → Results next t Q) :
    Results (do
      let label ← emitJump form
      emit o (c.location id) l
      bindLabel label
      next) s Q := by
  refine skip_conducts h.toConduct form written ⟨id, rfl, owns⟩ reads fun t j p register operand skips conduct => ?_
  obtain ⟨-, rfl⟩ := RegisterClass.location_inj register
  obtain rfl := operandOf_eq operand
  obtain ⟨label, text, d, code⟩ := skips.code
  refine rest t (h.extend conduct (.of_layout skips.layout skips.constants) [.emitted ⟨o, id, l.operand, []⟩ s.layout]
    skips.transcript code fun m comes _ _ holds => ?_)
  rw [Machine.Track.run_skip]
  split
  · next jumps => exact ⟨m, rfl, taken m comes holds jumps⟩
  · next stays =>
    obtain ⟨m', run, holds'⟩ := passed m comes holds (Bool.eq_false_iff.2 stays)
    exact ⟨m', by rw [run], holds' (Machine.touches_of_written written keeps (Regime.pool_lt owns.1) run)⟩

/-! ## Comparisons -/

/-- **Integers are compared**, wherever they are. -/
theorem compareInts_produces (start : Produces P s₁ s registers [] rsqrt L m₀ fun _ => True)
    (left : P.Offers L m₀ lhs) (right : P.Offers L m₀ rhs) (integralL : lhs.ty.isIntegral = true)
    (integralR : rhs.ty.isIntegral = true) :
    Results (compareInts lhs rhs) s fun _ t => Produces P s₁ t registers [] rsqrt L m₀ fun m =>
      m.registers.flags = .ofSub (m₀.part L lhs.location 0) (m₀.part L rhs.location 0) := by
  obtain ⟨sizeL, classL, notSimdL⟩ := integral_of_isIntegral left integralL
  obtain ⟨sizeR, classR, notSimdR⟩ := integral_of_isIntegral right integralR
  have general {l : Location} (whole : l.isRegister = true) (other : ∀ j, l ≠ .simdRegister j) :
      ∃ j, l = RegisterClass.general.location j := by
    cases l with
    | register j => exact ⟨j, rfl⟩
    | simdRegister j => exact absurd rfl (other j)
    | _ => cases whole
  unfold compareInts
  split
  · next whole =>
    obtain ⟨j, eq⟩ := general whole notSimdL
    rw [eq]
    refine inspect_produces (c := .general) start (.inl rfl) (right.homes.reads P) fun m comes _ => ?_
    obtain ⟨-, sameL⟩ := left.word start.toConduct comes sizeL (by rintro _ ⟨⟩)
    obtain ⟨has, sameR⟩ := right.word start.toConduct comes sizeR (by rintro _ ⟨⟩)
    refine ⟨_, Machine.perform_cmpLoad has (start.grounded comes) notSimdR j, ?_⟩
    rw [← sameR, ← eq, ← sameL, eq]
    rfl
  split
  · next whole =>
    obtain ⟨j, eq⟩ := general whole notSimdR
    rw [eq]
    refine ((inspectStore_conducts start.toConduct lhs.location (.register j) (left.homes.reads P)).and
      (emitStore_outcome .cmpStore lhs.location .general j s)).mono ?_
    rintro _ _ ⟨conduct, -, text, rfl⟩
    refine start.wrote conduct fun m comes _ _ => ?_
    obtain ⟨has, sameL⟩ := left.word start.toConduct comes sizeL (by rintro _ ⟨⟩)
    obtain ⟨-, sameR⟩ := right.word start.toConduct comes sizeR (by rintro _ ⟨⟩)
    refine ⟨_, Machine.perform_cmpStore has (start.grounded comes) notSimdL j, ?_⟩
    rw [← sameL, ← eq, ← sameR, eq]
    rfl
  · refine (acquire_produces start .general _ fun _ _ _ _ _ _ _ _ => trivial).bind ?_
    rintro x t ⟨h₁, j, grants⟩
    have location : x.location = .register j := grants.location
    have owns : P.Owns ([] ++ [x]) .general j := ⟨grants.pool, .inl ⟨x, by simp, location⟩⟩
    have apart (a : Location) (ha : a ∈ [lhs.location, rhs.location]) : ∀ y ∈ [] ++ [x], y.location ≠ a := fun y hy => by
      rw [List.nil_append, List.mem_singleton] at hy
      exact hy ▸ grants.apart ha
    rw [location]
    refine (load_produces (w := .dword) (G := fun m => m.general32 j = m₀.part L lhs.location 0) h₁ owns
      (left.homes.reads P) (fun d k eq => (left.class_eq d k eq).trans classL)
      (fun m comes _ => (left.word h₁.toConduct comes sizeL (apart _ (by simp))).1)
      fun m m' comes _ _ loaded => ?_).bind fun _ t h₂ => ?_
    · exact (loaded 0 (by decide)).trans (left.word h₁.toConduct comes sizeL (apart _ (by simp))).2
    refine (inspect_produces (c := .general) (G := fun m => m.registers.flags =
      .ofSub (m₀.part L lhs.location 0) (m₀.part L rhs.location 0)) h₂ (.inl rfl) (right.homes.reads P)
      fun m comes holds => ?_).bind fun _ t h₃ => ?_
    · obtain ⟨has, sameR⟩ := right.word h₂.toConduct comes sizeR (apart _ (by simp))
      refine ⟨_, Machine.perform_cmpLoad has (h₂.grounded comes) notSimdR j, ?_⟩
      rw [← sameR, ← holds]
      rfl
    -- A borrowed register is loaded again behind the comparison.
    exact release_last_produces (c := .general) h₃ location fun m m' _ touches holds => touches.flags.trans holds

/-- A number in a register is compared with another one. -/
theorem floatsAgainst_produces {lease : Option Lease}
    (h : Produces P s₁ s registers ([] ++ lease.toList) rsqrt L m₀ fun m => (m.simd id).x = m₀.number L lhs)
    (pool : id ∈ RegisterClass.simd.pool) (right : P.Offers L m₀ rhs) (number : rhs.ty = .int ∨ rhs.ty = .float)
    (leased : ∀ x ∈ lease, x.location = .simdRegister id ∧ x.location ≠ rhs.location) :
    Results (do
      let (r, rightLease) ← floatOperand rhs [.simdRegister id, lhs.location, rhs.location]
      emit .comiss (.simdRegister id) r
      releaseOption rightLease
      releaseOption lease) s fun _ t => Produces P s₁ t registers [] rsqrt L m₀ fun m =>
        m.registers.flags = .ofFloats (m₀.number L lhs) (m₀.number L rhs) := by
  have notHeld : ∀ x ∈ [] ++ lease.toList, x.location ≠ rhs.location := fun x hx => by
    rw [List.nil_append, Option.mem_toList] at hx
    exact (leased x hx).2
  refine (floatOperand_produces h right number (by simp) notHeld
    (fun m m' o n _ _ touches holds => slot_x pool m m' o n touches holds)
    fun m m' j clear touches holds => keeps_x pool List.mem_cons_self m m' j clear touches holds).bind ?_
  rintro ⟨operand, operandLease⟩ t ⟨h₁, converts, isFloat⟩
  refine (inspect_produces (c := .simd) (G := fun m => m.registers.flags = .ofFloats (m₀.number L lhs) (m₀.number L rhs)) h₁
    (.inr rfl) converts.reads fun m comes holds => ?_).bind fun _ t h₂ => ?_
  · obtain ⟨has, same⟩ := converts.word right number isFloat h₁.toConduct comes (fun unleased => by
      rw [show operandLease = none from unleased, Option.toList_none, List.append_nil]
      exact notHeld) holds.2
    refine ⟨_, Machine.perform_comiss has (h₁.grounded comes) converts.float id, ?_⟩
    rw [← same, ← holds.1]
    rfl
  refine (converts.release_produces h₂ fun m m' j _ touches holds => touches.flags.trans holds).bind fun _ t h₃ => ?_
  cases lease with
  | none => exact .pure h₃
  | some x => exact release_last_produces (c := .simd) h₃ (leased x rfl).1 fun m m' _ touches holds => touches.flags.trans holds

/-- **Numbers are compared as floats**, wherever they are. -/
theorem compareFloats_produces (start : Produces P s₁ s registers [] rsqrt L m₀ fun _ => True)
    (left : P.Offers L m₀ lhs) (right : P.Offers L m₀ rhs) (numberL : lhs.ty = .int ∨ lhs.ty = .float)
    (numberR : rhs.ty = .int ∨ rhs.ty = .float) :
    Results (compareFloats lhs rhs) s fun _ t => Produces P s₁ t registers [] rsqrt L m₀ fun m =>
      m.registers.flags = .ofFloats (m₀.number L lhs) (m₀.number L rhs) := by
  unfold compareFloats
  split
  · next whole =>
    obtain ⟨float, whole⟩ := whole
    obtain ⟨j, eq⟩ : ∃ j, lhs.location = .simdRegister j := by
      cases l : lhs.location with
      | simdRegister j => exact ⟨j, rfl⟩
      | register j => exact absurd l (left.float (by rw [float]; rfl) j)
      | _ => rw [l] at whole; cases whole
    have pool : j ∈ RegisterClass.simd.pool := (class_of_fits (c := .simd) (eq ▸ left.homes.fits)).2
    have starts : Produces P s₁ s registers ([] ++ (none : Option Lease).toList) rsqrt L m₀ fun m =>
        (m.simd j).x = m₀.number L lhs := start.mono fun m comes _ => by
      have same := left.number start.toConduct comes (by rw [float]; rfl) (by rintro _ ⟨⟩)
      rw [Machine.number, if_neg (by rw [float]; decide), eq] at same
      exact same
    have against := floatsAgainst_produces starts pool right numberR (by rintro _ ⟨⟩)
    rw [eq] at against
    simp only [pure_bind, eq]
    exact against
  · simp only [pure_bind]
    refine (acquire_produces start .simd _ fun _ _ _ _ _ _ _ _ => trivial).bind ?_
    rintro x t ⟨h₁, j, grants⟩
    have location : x.location = .simdRegister j := grants.location
    have owns : P.Owns ([] ++ [x]) .simd j := ⟨grants.pool, .inl ⟨x, by simp, location⟩⟩
    have apart (a : Location) (ha : a ∈ [lhs.location, rhs.location]) : ∀ y ∈ [] ++ [x], y.location ≠ a := fun y hy => by
      rw [List.nil_append, List.mem_singleton] at hy
      exact hy ▸ grants.apart ha
    rw [location]
    refine (storeAccumulator_produces h₁ owns left numberL (apart _ (by simp))).bind fun _ t h₂ => ?_
    refine floatsAgainst_produces h₂ grants.pool right numberR ?_
    rintro _ ⟨⟩
    exact ⟨location, grants.apart (by simp)⟩

end Lower

end Shading
