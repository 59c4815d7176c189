import Shading.Proofs.Effects.Comparisons
import Shading.Proofs.Effects.Vectors

/-!
# What the functions of the stage compute

The dot product of two vectors is added up across the lanes of a register, which
then holds it in every lane. The length and the direction of a vector are
computed from it.
-/

namespace Shading

open LoweringState Permit

/-- **The dot product** of the lanes of two vectors. -/
theorem Content.dot_eq_sum (a b : Lanes) {u v : Content} (first : ∀ k < 4, a.get k = u k) (second : ∀ k < 4, b.get k = v k) :
    (Lanes.terms 3 a b).sum = Content.dot 3 u v := by
  rw [Lanes.sum_terms]
  have lane {l : Lanes} {w : Content} (same : ∀ k < 4, l.get k = w k) : l.x = w 0 ∧ l.y = w 1 ∧ l.z = w 2 :=
    ⟨same 0 (by decide), same 1 (by decide), same 2 (by decide)⟩
  obtain ⟨ax, ay, az⟩ := lane first
  obtain ⟨bx, by_, bz⟩ := lane second
  rw [Content.dot, ax, ay, az, bx, by_, bz, if_pos rfl, if_pos rfl]

namespace Lower

variable {P : Permit} {s₁ s t : LoweringState} {registers : List Location} {held : List Lease}
  {rsqrt : Word → Word} {L : Nat} {m₀ : Machine} {F G : Machine → Prop} {id : Nat} {out : Location} {u v w : Value}

/-- A vector that is an operand is read as it was. -/
theorem vector_lanes {t : LoweringState} {m : Machine} (h : P.Offers L m₀ v) (conduct : Conduct P s₁ t registers held)
    (comes : P.Comes t rsqrt L m₀ m) (vector : v.ty.isVector = true) (base : m₀.base % 16 = 0) (locals : L % 16 = 0)
    (notHeld : ∀ x ∈ held, x.location ≠ v.location) :
    m.Has L 16 v.location ∧ m.Straight16 L v.location ∧ m.lanesAt L v.location = m₀.lanesAt L v.location := by
  have lanes := h.lanes conduct comes vector base locals (rowCount_pos v.ty) (by rwa [Nat.mul_zero, offsetBy_zero])
  rwa [Nat.mul_zero, offsetBy_zero] at lanes

/-- **A dot product is computed** in a register, of the lanes of two places or
of one with itself. -/
theorem dotProduct_produces (h : Produces P s₁ s registers held rsqrt L m₀ F) (owns : P.Owns held .simd id)
    {a : Location} {b : Option Location} {x y : Lanes} (reads : P.Reads a)
    (fits : ∀ d j, a = RegisterClass.location d j → d = .simd)
    (left : ∀ m, P.Comes s rsqrt L m₀ m → F m → m.Has L 16 a ∧ m.lanesAt L a = x)
    (right : ∀ l ∈ b, P.Reads l ∧ (∀ j, l ≠ .register j) ∧
      ∀ {t m}, Conduct P s₁ t registers held → P.Comes t rsqrt L m₀ m →
        m.Has L 16 l ∧ m.Straight16 L l ∧ m.lanesAt L l = y)
    (alone : b = none → y = x) (quiet : P.Quiet L m₀) (base : m₀.base % 16 = 0)
    (kept : ∀ m m', m.Touches L (.simdRegister id) 0 m' → F m → F m') :
    Results (dotProduct (.simdRegister id) a b) s fun _ t =>
      Produces P s₁ t registers held rsqrt L m₀ fun m => F m ∧ m.simd id = .splat (Lanes.terms 3 x y).sum := by
  unfold dotProduct
  refine (load_produces (w := .packed) (G := fun m => F m ∧ m.simd id = x) h owns reads fits
    (fun m comes holds => (left m comes holds).1)
    fun m m' comes holds touches loaded => ⟨kept m m' touches holds, ?_⟩).bind fun _ t h₁ => ?_
  · refine Lanes.ext_get fun k lane => (loaded k lane).trans ?_
    rw [← (left m comes holds).2, Machine.get_lanesAt _ _ _ lane]
  have multiplied : Results (emit .mulps (.simdRegister id) (b.getD (.simdRegister id))) t fun _ t =>
      Produces P s₁ t registers held rsqrt L m₀ fun m => F m ∧ m.simd id = Lanes.map2 Binary32.mul x y := by
    cases b with
    | none =>
      refine lanes_produces h₁ (o := .mulps) rfl owns (l := .simdRegister id) (.inr (by rintro _ ⟨⟩)) (by rintro _ ⟨⟩)
        (fun m _ _ => has_simd m L id) fun m m' _ _ holds touches computed => ⟨kept m m' touches holds.1, ?_⟩
      rw [computed, Machine.lanesAt_simd, holds.2, alone rfl]
    | some l =>
      obtain ⟨reads, float, lanes⟩ := right l rfl
      refine lanes_produces h₁ (o := .mulps) rfl owns (l := l) reads float (fun m comes _ => ?_)
        fun m m' comes _ holds touches computed => ⟨kept m m' touches holds.1, ?_⟩
      · obtain ⟨has, straight, -⟩ := lanes h₁.toConduct comes
        exact ⟨has, straight⟩
      · rw [computed, holds.2, (lanes h₁.toConduct comes).2.2]
  refine multiplied.bind fun _ t h₂ => ?_
  refine (constant_produces h₂ (.vector xyzMask)).bind ?_
  rintro _ t ⟨h₃, o, rfl, pooled⟩
  refine (mask_produces (G := fun m => F m ∧ m.simd id = Lanes.terms 3 x y) h₃ quiet base owns pooled
    fun m m' _ holds touches computed => ⟨kept m m' touches holds.1, ?_⟩).bind fun _ t h₄ => ?_
  · rw [computed, holds.2]
    rfl
  have sums {l : Lanes} {t : LoweringState} (h : Produces P s₁ t registers held rsqrt L m₀ fun m => F m ∧ m.simd id = l) :
      Results (emit .haddps (.simdRegister id) (.simdRegister id)) t fun _ t =>
        Produces P s₁ t registers held rsqrt L m₀ fun m => F m ∧ m.simd id = Lanes.horizontalAdd l l :=
    lanes_produces h (o := .haddps) rfl owns (l := .simdRegister id) (.inr (by rintro _ ⟨⟩)) (by rintro _ ⟨⟩)
      (fun m _ _ => has_simd m L id) fun m m' _ _ holds touches computed =>
        ⟨kept m m' touches holds.1, by rw [computed, Machine.lanesAt_simd, holds.2]⟩
  exact (sums h₄).bind fun _ t h₅ => (sums h₅).mono fun _ t h₆ => h₆.mono fun m _ holds => ⟨holds.1, holds.2⟩

/-- **A dot product is computed** in a leased register, and something of it is
the result. -/
theorem dotted_produces (avoid : List Location) (compute : Location → Lower Unit) (start : Produces P s₁ s registers [] rsqrt L m₀ fun _ => True) (awaits : P.Awaits s₁ .float out)
    (left : P.Offers L m₀ u) (vectorL : u.ty.isVector = true) (right : P.Offers L m₀ v) (vectorR : v.ty.isVector = true)
    {b : Option Location} (which : b = some v.location ∨ b = none ∧ v = u) (memOut : out ∈ avoid)
    (memL : u.location ∈ avoid) (memR : v.location ∈ avoid) (quiet : P.Quiet L m₀) (base : m₀.base % 16 = 0)
    (locals : L % 16 = 0) {f : Word → Word}
    (step : ∀ {t held id d}, P.Owns held .simd id →
      Produces P s₁ t registers held rsqrt L m₀ (fun m => m.simd id = .splat d) →
      Results (compute (.simdRegister id)) t fun _ t => Produces P s₁ t registers held rsqrt L m₀ fun m =>
        (m.simd id).x = f d) :
    Results (do
      let scratch ← acquire .simd avoid
      dotProduct scratch.location u.location b
      compute scratch.location
      transfer .single out scratch.location
      release scratch) s fun _ t => Produces P s₁ t registers [] rsqrt L m₀ fun m =>
        m.part L out 0 = f (Content.dot 3 (m₀.part L u.location) (m₀.part L v.location)) := by
  refine (acquire_produces start .simd avoid fun _ _ _ _ _ _ _ _ => trivial).bind ?_
  rintro x t ⟨h₁, id, grants⟩
  have location : x.location = .simdRegister id := grants.location
  have owns : P.Owns ([] ++ [x]) .simd id := ⟨grants.pool, .inl ⟨x, by simp, location⟩⟩
  have apart (a : Location) (ha : a ∈ avoid) : ∀ y ∈ [] ++ [x], y.location ≠ a := fun y hy => by
    rw [List.nil_append, List.mem_singleton] at hy
    exact hy ▸ grants.apart ha
  have outside : Location.simdRegister id ≠ out := location ▸ grants.apart memOut
  rw [location]
  refine (dotProduct_produces (x := m₀.lanesAt L u.location) (y := m₀.lanesAt L v.location) h₁ owns (left.homes.reads P)
    (fun d j eq => by rw [left.class_eq d j eq, width_of_vector vectorL]; rfl) (fun m comes _ => ?_) (fun l hl => ?_)
    (fun none => ?_) quiet base fun _ _ _ _ => trivial).bind fun _ t h₂ => ?_
  · obtain ⟨has, -, lanes⟩ := vector_lanes left h₁.toConduct comes vectorL base locals (apart _ memL)
    exact ⟨has, lanes⟩
  -- The second factor is read from where it lies, or it is the first one over again.
  · rcases which with some | ⟨none, -⟩
    · obtain rfl := Option.some.inj (some.symm.trans hl)
      exact ⟨right.homes.reads P, right.float (by revert vectorR; cases v.ty <;> decide),
        fun conduct comes => vector_lanes right conduct comes vectorR base locals (apart _ memR)⟩
    · rw [none] at hl
      cases hl
  · rcases which with some | ⟨-, same⟩
    · rw [none] at some
      cases some
    · rw [same]
  refine (step owns (h₂.mono fun m _ holds => holds.2)).bind fun _ t h₃ => ?_
  rw [Content.dot_eq_sum _ _ (fun k lane => Machine.get_lanesAt _ _ _ lane) fun k lane => Machine.get_lanesAt _ _ _ lane] at h₃
  refine (deliver_produces h₃ .single id (awaits.admits.first.mono (List.nil_subset _))
    (fun m comes _ => awaits.homes.has h₃.toConduct comes)
    (G := fun m => m.part L out 0 = f (Content.dot 3 (m₀.part L u.location) (m₀.part L v.location)))
    fun m m' _ holds _ moved => (moved 0 (by decide)).trans holds).bind fun _ t h₄ => ?_
  exact release_last_produces (c := .simd) h₄ location fun m m' _ touches holds =>
    (awaits.homes.part_register (c := .simd) touches outside 0).trans holds

theorem dot3_produces (start : Produces P s₁ s registers [] rsqrt L m₀ fun _ => True) (awaits : P.Awaits s₁ .float out)
    (left : P.Offers L m₀ u) (right : P.Offers L m₀ v) (vectorL : u.ty.isVector = true) (vectorR : v.ty.isVector = true)
    (quiet : P.Quiet L m₀) (base : m₀.base % 16 = 0) (locals : L % 16 = 0) :
    Results (dot3 out u v) s fun _ t => Produces P s₁ t registers [] rsqrt L m₀ fun m =>
      m.part L out 0 = Content.dot 3 (m₀.part L u.location) (m₀.part L v.location) := by
  have dotted := dotted_produces [out, u.location, v.location] (fun _ => pure ()) (f := id) start awaits
    left vectorL right vectorR (.inl rfl) (by simp) (by simp) (by simp) quiet base locals
    fun _ h => .pure (h.mono fun m _ holds => by rw [holds]; rfl)
  simp only [pure_bind] at dotted
  exact dotted

theorem vectorLength_produces (start : Produces P s₁ s registers [] rsqrt L m₀ fun _ => True)
    (awaits : P.Awaits s₁ .float out) (offers : P.Offers L m₀ v) (vector : v.ty.isVector = true)
    (quiet : P.Quiet L m₀) (base : m₀.base % 16 = 0) (locals : L % 16 = 0) :
    Results (vectorLength out v) s fun _ t => Produces P s₁ t registers [] rsqrt L m₀ fun m =>
      m.part L out 0 = Binary32.sqrt (Content.dot 3 (m₀.part L v.location) (m₀.part L v.location)) :=
  dotted_produces [out, v.location] (fun s => emit .sqrtss s s) (f := Binary32.sqrt) start awaits offers
    vector offers vector (.inr ⟨rfl, rfl⟩) (by simp) (by simp) (by simp) quiet base locals fun {_ held id d} owns h =>
      scalar_produces (l := .simdRegister id) h (o := .sqrtss) rfl owns (.inr (by rintro _ ⟨⟩)) (by rintro _ ⟨⟩)
        (fun m _ _ => Machine.has_location .simd id) fun m m' _ holds _ computed => by
          rw [computed]
          exact congrArg (fun l => Binary32.sqrt l.x) holds

/-- **A vector is scaled to length one.** -/
theorem normalize_produces (start : Produces P s₁ s registers [] rsqrt L m₀ fun _ => True) (awaits : P.Awaits s₁ v.ty out)
    (offers : P.Offers L m₀ v) (vector : v.ty.isVector = true) (quiet : P.Quiet L m₀) (base : m₀.base % 16 = 0)
    (locals : L % 16 = 0) :
    Results (normalize out v) s fun _ t => Produces P s₁ t registers [] rsqrt L m₀ fun m => ∀ k < 4, m.part L out k =
      Binary32.mul (m₀.part L v.location k) (rsqrt (Content.dot 3 (m₀.part L v.location) (m₀.part L v.location))) := by
  let d := Content.dot 3 (m₀.part L v.location) (m₀.part L v.location)
  have width := width_of_vector vector
  have place : P.Admits s₁ [] out .simd 16 := by
    have := awaits.admits.first
    rwa [width] at this
  unfold normalize
  refine (acquire_produces start .simd _ fun _ _ _ _ _ _ _ _ => trivial).bind ?_
  rintro x t ⟨h₁, i, grants⟩
  refine (acquire_produces h₁ .simd _ fun _ _ _ _ _ _ _ _ => trivial).bind ?_
  rintro y t ⟨h₂, j, grants'⟩
  have locationX : x.location = .simdRegister i := grants.location
  have locationY : y.location = .simdRegister j := grants'.location
  have ownsX : P.Owns ([] ++ [x] ++ [y]) .simd i := ⟨grants.pool, .inl ⟨x, by simp, locationX⟩⟩
  have ownsY : P.Owns ([] ++ [x] ++ [y]) .simd j := ⟨grants'.pool, .inl ⟨y, by simp, locationY⟩⟩
  -- One register keeps the vector while the other one computes its factor, so the two,
  -- the vector and the result are told apart first.
  have other : Location.simdRegister j ≠ .simdRegister i := locationY ▸ grants'.apart (by rw [locationX]; simp)
  have notHeld : ∀ z ∈ [] ++ [x] ++ [y], z.location ≠ v.location := fun z hz => by
    simp only [List.nil_append, List.cons_append, List.mem_cons, List.not_mem_nil, or_false] at hz
    rcases hz with rfl | rfl
    · exact grants.apart (by simp)
    · exact grants'.apart (by simp)
  have outX : Location.simdRegister i ≠ out := locationX ▸ grants.apart (by simp)
  have outY : Location.simdRegister j ≠ out := locationY ▸ grants'.apart (by simp)
  have kept {m m' : Machine} (touches : m.Touches L (.simdRegister j) 0 m') : m'.simd i = m.simd i :=
    touches.simd i (Regime.pool_lt grants.pool) other
  dsimp only
  rw [locationX, locationY]
  refine (load_produces (w := .packed) (G := fun m => m.simd i = m₀.lanesAt L v.location) h₂ ownsX
    (offers.homes.reads P) (fun d j eq => by rw [offers.class_eq d j eq, width])
    (fun m comes _ => (vector_lanes offers h₂.toConduct comes vector base locals notHeld).1)
    fun m m' comes holds touches loaded => ?_).bind fun _ t h₃ => ?_
  · refine Lanes.ext_get fun k lane => ?_
    have same := (vector_lanes offers h₂.toConduct comes vector base locals notHeld).2.2
    exact (loaded k lane).trans ((Machine.get_lanesAt m L v.location lane).symm.trans (congrArg (Lanes.get · k) same))
  refine (dotProduct_produces (a := .simdRegister i) (x := m₀.lanesAt L v.location) (y := m₀.lanesAt L v.location) h₃ ownsY
    (.inr (by rintro _ ⟨⟩)) (fun d _ eq => by cases d <;> first | rfl | cases eq)
    (fun m _ holds => ⟨(has_simd m L i).1, holds⟩) (by rintro _ ⟨⟩) (fun _ => rfl) quiet base
    fun m m' touches holds => (kept touches).trans holds).bind fun _ t h₄ => ?_
  rw [Content.dot_eq_sum _ _ (fun k lane => Machine.get_lanesAt _ _ _ lane) fun k lane => Machine.get_lanesAt _ _ _ lane] at h₄
  refine (emit_produces (c := .simd) (G := fun m => m.simd i = m₀.lanesAt L v.location ∧ m.simd j = .splat (rsqrt d)) h₄
    (o := .rsqrtps) rfl rfl ownsY (l := .simdRegister j) (.inr (by rintro _ ⟨⟩)) [] fun m _ _ holds => ?_).bind fun _ t h₅ => ?_
  · refine ⟨_, rfl, fun touches => ⟨(kept touches).trans holds.1, ?_⟩⟩
    exact (Machine.simd_set ..).trans ((if_pos rfl).trans (congrArg (Lanes.map rsqrt) holds.2))
  refine (lanes_produces (G := fun m => m.simd i = Lanes.map2 Binary32.mul (m₀.lanesAt L v.location) (.splat (rsqrt d))) h₅
    (o := .mulps) rfl ownsX (l := .simdRegister j) (.inr (by rintro _ ⟨⟩)) (by rintro _ ⟨⟩) (fun m _ _ => has_simd m L j)
    fun m m' _ _ holds _ computed => by rw [computed, Machine.lanesAt_simd, holds.1, holds.2]).bind fun _ t h₆ => ?_
  refine (deliver_produces h₆ .packed i (place.mono (List.nil_subset _)) (fun m comes _ => ?_)
    (G := fun m => ∀ k < 4, m.part L out k = Binary32.mul (m₀.part L v.location k) (rsqrt d))
    fun m m' _ holds _ moved k lane => ?_).bind fun _ t h₇ => ?_
  · refine (awaits.homes.has h₆.toConduct comes).mono ?_
    revert vector
    cases v.ty <;> decide
  · refine (moved k lane).trans ((congrArg (Lanes.get · k) holds).trans ?_)
    rw [Lanes.get_map2 _ _ _ lane, Lanes.get_splat _ lane, Machine.get_lanesAt _ _ _ lane]
  refine (release_last_produces (c := .simd) h₇ locationY fun m m' _ touches holds k lane =>
    (awaits.homes.part_register (c := .simd) touches outY k).trans (holds k lane)).bind fun _ t h₈ => ?_
  exact release_last_produces (c := .simd) h₈ locationX fun m m' _ touches holds k lane =>
    (awaits.homes.part_register (c := .simd) touches outX k).trans (holds k lane)

/-- A register holds what is chosen: it is passed over, or it is loaded. -/
theorem bound_produces {x y : Word} {l : Location}
    (h : Produces P s₁ s registers held rsqrt L m₀ fun m => F m ∧ (m.simd id).x = x)
    (owns : P.Owns held .simd id) (reads : P.Reads l) (float : ∀ j, l ≠ .register j) (op : RelationalOp) {form : JumpForm}
    (fails : ∀ flags, form.taken flags = (floatFailure op).holds flags)
    (word : ∀ {t m}, Conduct P s₁ t registers held → P.Comes t rsqrt L m₀ m → F m → m.Has L 4 l ∧ m.part L l 0 = y)
    (flags : ∀ m f, F m → F (m.setFlags f)) (kept : ∀ m m', m.Touches L (.simdRegister id) 0 m' → F m → F m')
    {next : Lower Unit} {Q : Unit → LoweringState → Prop}
    (rest : ∀ t, Produces P s₁ t registers held rsqrt L m₀ (fun m =>
      F m ∧ (m.simd id).x = if Content.comparesFloats op x y then y else x) → Results next t Q) :
    Results (do
      emit .comiss (.simdRegister id) l
      let label ← emitJump form
      emit .movssLoad (.simdRegister id) l
      bindLabel label
      next) s Q := by
  refine (inspect_produces (c := .simd) (G := fun m => (F m ∧ (m.simd id).x = x) ∧ m.registers.flags = .ofFloats x y) h
    (.inr rfl) reads fun m comes holds => ?_).bind fun _ t h₁ => ?_
  · obtain ⟨has, same⟩ := word h.toConduct comes holds.1
    exact ⟨_, Machine.perform_comiss has (h.grounded comes) float id, ⟨flags _ _ holds.1, holds.2⟩, by
      rw [same, holds.2]
      rfl⟩
  have decides {m : Machine} (set : m.registers.flags = .ofFloats x y) :
      form.taken m.registers.flags = !Content.comparesFloats op x y := by
    rw [fails, set, floatFailure_holds]
  refine skip_produces (G := fun m => F m ∧ (m.simd id).x = if Content.comparesFloats op x y then y else x) h₁ form
    (o := .movssLoad) rfl rfl owns reads (fun m _ holds taken => ?_) (fun m comes holds passed => ?_) rest
  · rw [decides holds.2, Bool.not_eq_true'] at taken
    rw [taken, if_neg Bool.false_ne_true]
    exact holds.1
  · rw [decides holds.2, Bool.not_eq_false'] at passed
    obtain ⟨has, same⟩ := word h₁.toConduct comes holds.1.1
    obtain ⟨v, run, first⟩ := Machine.perform_loadFloat rsqrt has (h₁.grounded comes) float id
    refine ⟨_, run, fun touches => ⟨kept _ _ touches holds.1.1, ?_⟩⟩
    rw [Machine.simd_set, if_pos rfl, first, same, passed, if_pos rfl]

/-- **A number is kept within two bounds.** -/
theorem clamp_produces {lo hi : Value} (start : Produces P s₁ s registers [] rsqrt L m₀ fun _ => True)
    (awaits : P.Awaits s₁ .float out) (value : P.Offers L m₀ v) (lower : P.Offers L m₀ lo) (upper : P.Offers L m₀ hi)
    (numberV : v.ty = .int ∨ v.ty = .float) (numberL : lo.ty = .int ∨ lo.ty = .float)
    (numberH : hi.ty = .int ∨ hi.ty = .float) (otherV : v.location ≠ out) (otherL : lo.location ≠ out)
    (otherH : hi.location ≠ out) :
    Results (clamp out v lo hi) s fun _ t => Produces P s₁ t registers [] rsqrt L m₀ fun m =>
      m.part L out 0 = Content.clamped (m₀.number L v) (m₀.number L lo) (m₀.number L hi) := by
  unfold clamp
  refine (accumulate_produces (c := .simd) start List.mem_cons_self awaits.admits.first.register
    fun _ _ _ _ _ _ _ _ => trivial).bind ?_
  rintro ⟨acc, lease⟩ t ⟨h₁, id, a⟩
  -- Three values are read one after another, each while the registers of the ones
  -- before are still leased; none of them may be what a later lease borrows.
  have clearV := a.clear v.location (by simp) otherV
  have clearL := a.clear lo.location (by simp) otherL
  have clearH := a.clear hi.location (by simp) otherH
  have owns := a.owns
  obtain rfl : acc = .simdRegister id := a.at_
  rw [List.nil_append] at owns
  dsimp only at h₁ clearV clearL clearH ⊢
  rw [List.nil_append] at h₁
  refine (storeAccumulator_produces h₁ owns value numberV clearV.2).bind fun _ t h₂ => ?_
  refine (floatOperand_produces h₂ lower numberL (by simp) clearL.2
    (fun m m' o n _ _ touches holds => slot_x owns.1 m m' o n touches holds)
    fun m m' j clear touches holds => keeps_x owns.1 List.mem_cons_self m m' j clear touches holds).bind ?_
  rintro ⟨low, lowLease⟩ t ⟨h₃, convertsL, floatL⟩
  dsimp only at h₃ convertsL floatL ⊢
  have memA : Location.simdRegister id ∈ Location.simdRegister id :: [out, v.location, lo.location, hi.location] := by simp
  have leasedH := convertsL.leased_ne (a := hi.location) (by simp)
  refine (floatOperand_produces h₃ upper numberH (by simp) (fun x hx => (List.mem_append.1 hx).elim (clearH.2 x) (leasedH x))
    (fun m m' o n _ _ touches holds => ⟨slot_x owns.1 m m' o n touches holds.1, convertsL.touched_slot touches holds.2⟩)
    fun m m' j clear touches holds => ⟨keeps_x owns.1 List.mem_cons_self m m' j clear touches holds.1,
      convertsL.touched touches (.inr (clear low (by simp)).symm) holds.2⟩).bind ?_
  rintro ⟨high, highLease⟩ t ⟨h₄, convertsH, floatH⟩
  dsimp only at h₄ convertsH floatH ⊢
  have memA' : Location.simdRegister id ∈
      Location.simdRegister id :: low :: [out, v.location, lo.location, hi.location] := List.mem_cons_self
  have leasedL := convertsH.leased_ne (a := lo.location) (by simp)
  have ownsA : P.Owns (lease.toList ++ lowLease.toList ++ highLease.toList) .simd id :=
    (owns.mono (List.subset_append_left _ _)).mono (List.subset_append_left _ _)
  let F (m : Machine) : Prop := Converted L m₀ lo lowLease m ∧ Converted L m₀ hi highLease m
  have kept (m m' : Machine) (touches : m.Touches L (.simdRegister id) 0 m') (holds : F m) : F m' :=
    ⟨convertsL.touched_register memA touches holds.1, convertsH.touched_register memA' touches holds.2⟩
  refine bound_produces (F := F) (x := m₀.number L v) (y := m₀.number L lo)
    (h₄.mono fun m _ holds => ⟨⟨holds.1.2, holds.2⟩, holds.1.1⟩) ownsA convertsL.reads convertsL.float .less (fun _ => rfl)
    (fun conduct comes holds => convertsL.word lower numberL floatL conduct comes (fun unleased x hx => ?_) holds.1)
    (fun _ _ holds => holds) kept fun t h₅ => ?_
  · rw [unleased, Option.toList_none, List.append_nil] at hx
    exact (List.mem_append.1 hx).elim (clearL.2 x) (leasedL x)
  refine bound_produces (F := F) (y := m₀.number L hi) h₅ ownsA convertsH.reads convertsH.float .greater (fun _ => rfl)
    (fun conduct comes holds => convertsH.word upper numberH floatH conduct comes (fun unleased x hx => ?_) holds.2)
    (fun _ _ holds => holds) kept fun t h₆ => ?_
  · rw [unleased, Option.toList_none, List.append_nil] at hx
    exact (List.mem_append.1 hx).elim (clearH.2 x) (leasedH x)
  have h₆ := h₆.mono (G := fun m => (m.simd id).x = Content.clamped (m₀.number L v) (m₀.number L lo) (m₀.number L hi))
    fun m _ holds => holds.2
  refine (convertsH.release_produces h₆ fun m m' j clear touches holds =>
    keeps_x owns.1 memA' m m' j clear touches holds).bind fun _ t h₇ => ?_
  refine (convertsL.release_produces h₇ fun m m' j clear touches holds =>
    keeps_x owns.1 memA m m' j clear touches holds).bind fun _ t h₈ => ?_
  exact a.settle_produces (w := .single) h₈ awaits.admits.first (fun m comes _ => awaits.homes.has h₈.toConduct comes)
    awaits.homes.direct (small_of_fits awaits.homes.fits) fun m m' holds _ moved => (moved 0 (by decide)).trans holds

end Lower

end Shading
