import Shading.Proofs.Effects.Scalars
import Shading.Proofs.Simulation.Semantics

/-!
# What operations on vectors and matrices compute

Vectors and matrices are added, subtracted and negated row by row, each row in a
register of its own; a float is negated as if it were such a row. A vector is
scaled by a number that has been spread over the lanes of a register.
-/

namespace Shading

open LoweringState Permit

namespace LoweringState.Homes

variable {s : LoweringState} {ty : Ty} {out : Location} {L n : Nat} {m : Machine}

theorem isVector_of_before {i r : Nat} (before : i < r) (small : r < Lower.rowCount ty) : ty.isVector = true := by
  have many : Lower.rowCount ty ≠ 1 := by omega
  revert many
  cases ty <;> decide

theorem isVector_or (simd : (Width.ofTy ty).registerClass = .simd) (storage : ty.size ≠ 0) :
    ty = .float ∨ ty.isVector = true := by
  revert simd storage
  cases ty <;> decide

/-- **The place of each row** of a float, a vector or a matrix is a home. -/
theorem rowHome (h : s.Homes ty out) (simd : (Width.ofTy ty).registerClass = .simd) {r : Nat}
    (small : r < Lower.rowCount ty) :
    ∃ rty : Ty, s.Homes rty (out.offsetBy (16 * r)) ∧ rty.size = 4 * (Width.ofTy ty).words := by
  rcases isVector_or simd (Nat.ne_of_gt (size_of_fits h.fits)) with rfl | vector
  · obtain rfl : r = 0 := Nat.lt_one_iff.1 small
    exact ⟨.float, by rwa [Nat.mul_zero, offsetBy_zero], rfl⟩
  · exact ⟨ty.rowTy, h.row vector small, by rw [Lower.width_of_vector vector]; exact Ty.size_rowTy vector⟩

/-- The words of a type are in its rows. -/
theorem word_row {k : Nat} (simd : (Width.ofTy ty).registerClass = .simd) (word : ty.hasWord k = true) :
    k / 4 < Lower.rowCount ty ∧ k % 4 < (Width.ofTy ty).words := by
  revert simd word
  cases ty <;> simp [Ty.hasWord, Lower.rowCount, Width.ofTy, Width.registerClass, Width.words, Ty.isMatrix,
    Ty.elementCount] <;> omega

theorem part_rowHome (h : s.Homes ty out) (simd : (Width.ofTy ty).registerClass = .simd) {r k : Nat}
    (small : r < Lower.rowCount ty) (word : k < (Width.ofTy ty).words) :
    m.part L (out.offsetBy (16 * r)) k = m.part L out (4 * r + k) := by
  rcases isVector_or simd (Nat.ne_of_gt (size_of_fits h.fits)) with rfl | vector
  · obtain rfl : r = 0 := Nat.lt_one_iff.1 small
    obtain rfl : k = 0 := Nat.lt_one_iff.1 word
    rw [Nat.mul_zero, offsetBy_zero]
  · exact h.part_row vector small k

end LoweringState.Homes

theorem Location.offsetBy_inj {l k : Location} {n : Nat} (same : l.offsetBy n = k.offsetBy n) : l = k := by
  cases l <;> cases k <;> simp only [Location.offsetBy] at same <;> first | exact same | cases same; done | skip
  all_goals simp only [Location.globalMemory.injEq, Location.localMemory.injEq] at same ⊢
  all_goals omega

theorem Location.eq_of_offsetBy {l : Location} {c : RegisterClass} {id n : Nat} (same : l.offsetBy n = c.location id) :
    l = c.location id := by
  cases l <;> cases c <;> first | exact same | cases same

/-- **A row of a float, a vector or a matrix that is an operand** is read as it
was. -/
theorem Permit.Offers.row {P : Permit} {s₁ t : LoweringState} {registers : List Location} {held : List Lease}
    {rsqrt : Word → Word} {L : Nat} {m₀ m : Machine} {v : Value} (h : P.Offers L m₀ v)
    (conduct : Conduct P s₁ t registers held) (comes : P.Comes t rsqrt L m₀ m)
    (simd : (Width.ofTy v.ty).registerClass = .simd) (base : m₀.base % 16 = 0) (locals : L % 16 = 0) {r : Nat}
    (small : r < Lower.rowCount v.ty) (notHeld : ∀ x ∈ held, x.location ≠ v.location.offsetBy (16 * r)) :
    m.Has L (4 * (Width.ofTy v.ty).words) (v.location.offsetBy (16 * r)) ∧
      ∀ k < (Width.ofTy v.ty).words, m.part L (v.location.offsetBy (16 * r)) k = m₀.part L v.location (4 * r + k) := by
  rcases Homes.isVector_or simd (Nat.ne_of_gt (size_of_fits h.homes.fits)) with float | vector
  · have one : r = 0 := by
      rw [float] at small
      exact Nat.lt_one_iff.1 small
    rw [one, Nat.mul_zero, offsetBy_zero] at notHeld ⊢
    obtain ⟨has, same⟩ := h.word conduct comes (by rw [float]; rfl) notHeld
    rw [float]
    refine ⟨has, fun k word => ?_⟩
    obtain rfl : k = 0 := Nat.lt_one_iff.1 word
    exact same
  · obtain ⟨has, -, same⟩ := h.lanes conduct comes vector base locals small notHeld
    refine ⟨by rwa [Lower.width_of_vector vector], fun k word => ?_⟩
    have lane : k < 4 := by rwa [Lower.width_of_vector vector] at word
    rw [← h.homes.part_rowHome simd small word, ← Machine.get_lanesAt m L _ lane, ← Machine.get_lanesAt m₀ L _ lane, same]

/-- What may be written may be written later. -/
theorem Permit.Admits.later {P : Permit} {s₁ t : LoweringState} {held : List Lease} {out : Location} {c : RegisterClass}
    {n : Nat} (h : P.Admits s₁ held out c n) (within : s₁.Within t) : P.Admits t held out c n where
  register := h.register
  memory := fun memory => (h.memory memory).imp_right fun bounds => by
    cases out with
    | globalMemory o => exact Nat.le_trans (show o + n ≤ s₁.globalTop from bounds) within.globalTop
    | localMemory o => exact Nat.le_trans (show o + n ≤ s₁.layout.localSize from bounds) within.localSize
    | indirectRegister id => exact bounds
    | _ => exact bounds.elim
  reads := h.reads

namespace Lower

variable {P : Permit} {s₁ s t : LoweringState} {registers : List Location} {held : List Lease}
  {rsqrt : Word → Word} {L : Nat} {m₀ : Machine} {F G : Machine → Prop} {id : Nat} {out : Location} {v lhs rhs : Value}

/-- **Rows of a result have been written**, up to one. -/
def RowsHold (L : Nat) (out : Location) (w : Width) (value : Nat → Nat → Word) (r : Nat) (m : Machine) : Prop :=
  ∀ i < r, ∀ k < w.words, m.part L (out.offsetBy (16 * i)) k = value i k

namespace RowsHold

variable {ty : Ty} {value : Nat → Nat → Word} {r n : Nat} {m m' : Machine}

theorem slot (ok : s.Ok) (homes : s.Homes ty out) (simd : (Width.ofTy ty).registerClass = .simd)
    (small : r < rowCount ty) (later : s.globalTop ≤ t.globalTop) {o : Nat} (above : t.globalTop ≤ o) (below : o + n ≤ L)
    (touches : m.Touches L (.globalMemory o) n m') (holds : RowsHold L out (Width.ofTy ty) value r m) :
    RowsHold L out (Width.ofTy ty) value r m' := by
  intro i before k word
  obtain ⟨rty, home, size⟩ := homes.rowHome simd (Nat.lt_trans before small)
  rw [home.part_slot ok later touches above below (by omega)]
  exact holds i before k word

theorem register (homes : s.Homes ty out) (simd : (Width.ofTy ty).registerClass = .simd) (small : r < rowCount ty)
    (touches : m.Touches L (.simdRegister id) n m') (holds : RowsHold L out (Width.ofTy ty) value r m) :
    RowsHold L out (Width.ofTy ty) value r m' := by
  intro i before k word
  obtain ⟨rty, home, -⟩ := homes.rowHome simd (Nat.lt_trans before small)
  -- A row with others behind it is in memory.
  have matrix : ty.isMatrix = true := by
    have many : rowCount ty ≠ 1 := by omega
    revert many
    cases ty <;> decide
  have memory := ((homes.supplies L m).direct matrix).1
  rw [home.part_register (c := .simd) touches (Location.offsetBy_ne_location memory .simd id _).symm]
  exact holds i before k word

theorem delivered (homes : s.Homes ty out) (small : r < rowCount ty)
    (touches : m.Touches L (out.offsetBy (16 * r)) (4 * (Width.ofTy ty).words) m')
    (holds : RowsHold L out (Width.ofTy ty) value r m) : RowsHold L out (Width.ofTy ty) value r m' := by
  intro i before k word
  have vector := Homes.isVector_of_before before small
  rw [width_of_vector vector] at touches word
  rw [homes.part_before vector before small touches word]
  exact holds i before k (by rwa [width_of_vector vector])

theorem succ {w : Width} (holds : RowsHold L out w value r m)
    (written : ∀ k < w.words, m.part L (out.offsetBy (16 * r)) k = value r k) : RowsHold L out w value (r + 1) m := by
  intro i before k word
  rcases Nat.lt_succ_iff_lt_or_eq.1 before with before | rfl
  · exact holds i before k word
  · exact written k word

end RowsHold

/-- Leased registers are no places in memory. -/
theorem leased_ne_global (h : Conduct P s₁ s registers held) (o : Nat) : ∀ x ∈ held, x.location ≠ .globalMemory o := by
  intro x hx eq
  obtain ⟨c, id, -, location, -⟩ := h.leads.ok.layout.leased _ (h.leads.layout.mem_leased hx)
  rw [eq] at location
  cases c <;> cases location

/-- **A result is computed row by row**: each row is loaded, and combined with
four lanes. -/
theorem rowwise_produces {ty : Ty} (dest src operand : Nat → Location) (avoid : Nat → List Location)
    {x : Nat → Nat → Word} {y : Nat → Lanes} (start : Produces P s₁ s registers [] rsqrt L m₀ fun _ => True)
    (awaits : P.Awaits s₁ ty out) {w : Width} (width : Width.ofTy ty = w) (simd : w.registerClass = .simd) {o : Opcode}
    {f : Word → Word → Word} (computes : o.lanes? = some (Lanes.map2 f))
    (dests : ∀ r < rowCount ty, dest r = out.offsetBy (16 * r))
    (memDest : ∀ r < rowCount ty, dest r ∈ avoid r) (memSrc : ∀ r < rowCount ty, src r ∈ avoid r)
    (other : ∀ r < rowCount ty, src r ≠ dest r)
    (clear : ∀ r < rowCount ty, operand r ∈ avoid r ∧ operand r ≠ dest r ∨ ∃ o, operand r = .globalMemory o)
    (readsSrc : ∀ r, P.Reads (src r)) (readsOperand : ∀ r, P.Reads (operand r))
    (fits : ∀ r < rowCount ty, ∀ d j, src r = RegisterClass.location d j → d = .simd)
    (float : ∀ r < rowCount ty, ∀ j, operand r ≠ .register j)
    (loads : ∀ r < rowCount ty, ∀ {t held m}, Conduct P s₁ t registers held → P.Comes t rsqrt L m₀ m →
      (∀ x ∈ held, x.location ≠ src r) → m.Has L (4 * w.words) (src r) ∧ ∀ k < w.words, m.part L (src r) k = x r k)
    (combines : ∀ r < rowCount ty, ∀ {t held m}, Conduct P s₁ t registers held → P.Comes t rsqrt L m₀ m →
      (∀ x ∈ held, x.location ≠ operand r) → m.Has L 16 (operand r) ∧ m.Straight16 L (operand r) ∧
        (t.Pools m₀ → m.lanesAt L (operand r) = y r)) :
    Results (forRows (rowCount ty) fun row => do
      let (acc, lease) ← accumulator (dest row) .simd (avoid row)
      transfer w acc (src row)
      emit o acc (operand row)
      settle (dest row) acc lease w) s fun _ t =>
      Produces P s₁ t registers [] rsqrt L m₀ (RowsHold L out w (fun r k => f (x r k) ((y r).get k)) (rowCount ty)) := by
  subst width
  let value (r k : Nat) : Word := f (x r k) ((y r).get k)
  refine forRows_produces (rowCount ty) (fun r => RowsHold L out (Width.ofTy ty) value r)
    (start.mono fun _ _ _ i none => absurd none (Nat.not_lt_zero i)) fun r small t h => ?_
  obtain ⟨rty, home, size⟩ := awaits.homes.rowHome simd small
  have place : P.Admits s₁ [] (dest r) .simd (4 * (Width.ofTy ty).words) := by
    rw [dests r small, ← simd]
    exact awaits.admits r small
  refine (accumulate_produces (c := .simd) h (memDest r small) place.register fun m m' o n above below touches holds =>
    holds.slot P.ok awaits.homes simd small h.leads.globalTop_le above below touches).bind ?_
  rintro ⟨acc, lease⟩ t ⟨h₁, id, a⟩
  -- The accumulator holds neither the source of this row nor its operand, as both were
  -- named when it was leased.
  have owns := a.owns
  have clearSrc := a.clear (src r) (memSrc r small) (other r small)
  have clearOperand : RegisterClass.simd.location id ≠ operand r ∧ ∀ x ∈ lease.toList, x.location ≠ operand r := by
    rcases clear r small with ⟨mem, apart⟩ | ⟨o, eq⟩
    · exact a.clear (operand r) mem apart
    · rw [eq]
      exact ⟨by rintro ⟨⟩, fun x hx => leased_ne_global h₁.toConduct o x (List.mem_append_right _ hx)⟩
  obtain rfl : acc = .simdRegister id := a.at_
  rw [List.nil_append] at owns
  dsimp only at h₁ ⊢
  rw [List.nil_append] at h₁
  have at_ : (Width.ofTy ty).registerClass.location id = .simdRegister id := by rw [simd]; rfl
  have words : ∀ k < (Width.ofTy ty).words, k < 4 := by cases Width.ofTy ty <;> simp [Width.words]
  rw [← at_]
  refine (load_produces (G := fun m => RowsHold L out (Width.ofTy ty) value r m ∧
    ∀ k < (Width.ofTy ty).words, (m.simd id).get k = x r k) h₁ (Width.ofTy ty) (simd ▸ owns) (readsSrc r)
    (fun d j eq => (fits r small d j eq).trans simd.symm) (fun m comes _ => (loads r small h₁.toConduct comes clearSrc.2).1)
    fun m m' comes holds touches loaded => ?_).bind fun _ t h₂ => ?_
  · rw [at_] at touches loaded
    refine ⟨holds.register awaits.homes simd small touches, fun k word => ?_⟩
    rw [← (loads r small h₁.toConduct comes clearSrc.2).2 k word]
    exact loaded k word
  rw [at_]
  refine (lanes_produces (G := fun m => RowsHold L out (Width.ofTy ty) value r m ∧
    ∀ k < (Width.ofTy ty).words, (m.simd id).get k = value r k) h₂ computes owns (readsOperand r) (float r small)
    (fun m comes _ => ?_) fun m m' comes pools holds touches computed => ?_).bind fun _ t h₃ => ?_
  · obtain ⟨has, straight, -⟩ := combines r small h₂.toConduct comes clearOperand.2
    exact ⟨has, straight⟩
  · obtain ⟨-, -, lanes⟩ := combines r small h₂.toConduct comes clearOperand.2
    have pools' : t.Pools m₀ := pools
    refine ⟨holds.1.register awaits.homes simd small touches, fun k word => ?_⟩
    rw [computed, Lanes.get_map2 _ _ _ (words k word), lanes pools', holds.2 k word]
  rw [← at_]
  have computing : ComputesIn P [] (Width.ofTy ty).registerClass (dest r) (avoid r)
      ((Width.ofTy ty).registerClass.location id) lease id := by
    rw [simd]
    exact a
  refine computing.settle_produces (w := Width.ofTy ty) h₃ (simd ▸ place) (fun m comes _ => ?_) ?_ ?_
    fun m m' holds touched moved => ?_
  · have has := home.has h₃.toConduct comes
    rwa [size, ← dests r small] at has
  · rw [dests r small]
    exact home.direct
  · rw [dests r small]
    exact small_of_fits home.fits
  · rw [at_] at touched moved
    refine RowsHold.succ ?_ fun k word => ?_
    · rcases touched with rfl | ⟨m₁, delivered, released⟩
      · exact holds.1
      · rw [dests r small] at delivered
        exact (holds.1.delivered awaits.homes small delivered).register awaits.homes simd small released
    · rw [← dests r small, moved k word]
      exact holds.2 k word

/-- What holds row by row holds word by word. -/
theorem RowsHold.words {ty : Ty} {value : Nat → Nat → Word} {m : Machine} (homes : s.Homes ty out)
    (simd : (Width.ofTy ty).registerClass = .simd) (holds : RowsHold L out (Width.ofTy ty) value (rowCount ty) m) {k : Nat}
    (word : ty.hasWord k = true) : m.part L out k = value (k / 4) (k % 4) := by
  obtain ⟨row, lane⟩ := Homes.word_row simd word
  rw [← holds _ row _ lane, homes.part_rowHome simd row lane, Nat.div_add_mod]

/-- **Vectors and matrices are added or subtracted.** -/
theorem packed_produces (start : Produces P s₁ s registers [] rsqrt L m₀ fun _ => True)
    (awaits : P.Awaits s₁ lhs.ty out) (vector : lhs.ty.isVector = true) (left : P.Offers L m₀ lhs) (right : P.Offers L m₀ rhs)
    (same : rhs.ty = lhs.ty) (otherL : lhs.location ≠ out) (otherR : rhs.location ≠ out) (base : m₀.base % 16 = 0)
    (locals : L % 16 = 0) (op : BinaryOp) :
    Results (packed op out lhs rhs) s fun _ t => Produces P s₁ t registers [] rsqrt L m₀ fun m =>
      ∀ k, lhs.ty.hasWord k = true →
        m.part L out k = Content.floatOperation op (m₀.part L lhs.location k) (m₀.part L rhs.location k) := by
  have width := width_of_vector vector
  have simd : (Width.ofTy lhs.ty).registerClass = .simd := by rw [width]; rfl
  -- A vector is one row and a matrix several, and each row is computed alike.
  have rows (o : Opcode) (computes : o.lanes? = some (Lanes.map2 (Content.floatOperation op))) :
      Results (forRows (rowCount lhs.ty) fun row => do
        let (acc, lease) ← accumulator (out.offsetBy (row * 16)) .simd
          [out.offsetBy (row * 16), lhs.location.offsetBy (row * 16), rhs.location.offsetBy (row * 16)]
        transfer .packed acc (lhs.location.offsetBy (row * 16))
        emit o acc (rhs.location.offsetBy (row * 16))
        settle (out.offsetBy (row * 16)) acc lease .packed) s fun _ t => Produces P s₁ t registers [] rsqrt L m₀ fun m =>
      ∀ k, lhs.ty.hasWord k = true →
        m.part L out k = Content.floatOperation op (m₀.part L lhs.location k) (m₀.part L rhs.location k) := by
    simp only [Nat.mul_comm _ 16]
    refine (rowwise_produces (fun r => out.offsetBy (16 * r)) (fun r => lhs.location.offsetBy (16 * r))
      (fun r => rhs.location.offsetBy (16 * r))
      (fun r => [out.offsetBy (16 * r), lhs.location.offsetBy (16 * r), rhs.location.offsetBy (16 * r)])
      (x := fun r k => m₀.part L lhs.location (4 * r + k)) (y := fun r => m₀.lanesAt L (rhs.location.offsetBy (16 * r)))
      start awaits width rfl computes
      (fun _ _ => rfl) (fun _ _ => by simp) (fun _ _ => by simp) (fun _ _ eq => otherL (Location.offsetBy_inj eq))
      (fun _ _ => .inl ⟨by simp, fun eq => otherR (Location.offsetBy_inj eq)⟩) (fun _ => (left.homes.reads P).offsetBy _)
      (fun _ => (right.homes.reads P).offsetBy _) (fun r small d j eq => ?_) (fun r small j eq => ?_)
      (fun r small {_ _ _} conduct comes notHeld => ?_) fun r small {_ _ _} conduct comes notHeld => ?_).mono
      fun _ t h => h.mono fun m _ holds k word => ?_
    · rw [left.class_eq d j (Location.eq_of_offsetBy eq), simd]
    · have class_ := right.class_eq .general j (Location.eq_of_offsetBy (c := .general) eq)
      rw [same, simd] at class_
      cases class_
    · have row := left.row conduct comes simd base locals small notHeld
      rwa [width] at row
    · obtain ⟨has, straight, lanes⟩ := right.lanes conduct comes (same ▸ vector) base locals (same ▸ small) notHeld
      exact ⟨has, straight, fun _ => lanes⟩
    · obtain ⟨row, lane⟩ := Homes.word_row simd word
      rw [← width] at holds
      rw [width] at lane
      rw [holds.words awaits.homes simd word, Machine.get_lanesAt _ _ _ lane,
        right.homes.part_rowHome (same ▸ simd) (same ▸ row) (same ▸ width ▸ lane), Nat.div_add_mod]
  unfold packed
  cases op with
  | add => exact rows .addps rfl
  | subtract => exact rows .subps rfl
  | _ => exact fun _ _ run => by cases run

/-- **A vector is scaled** by a number. -/
theorem vectorScalar_produces (start : Produces P s₁ s registers [] rsqrt L m₀ fun _ => True)
    (awaits : P.Awaits s₁ lhs.ty out) (vector : lhs.ty.isVector = true)
    (left : P.Offers L m₀ lhs) (right : P.Offers L m₀ rhs) (number : rhs.ty = .int ∨ rhs.ty = .float)
    (otherL : lhs.location ≠ out) (base : m₀.base % 16 = 0) (locals : L % 16 = 0) :
    Results (vectorScalar out lhs rhs) s fun _ t => Produces P s₁ t registers [] rsqrt L m₀ fun m =>
      ∀ k < 4, m.part L out k = Binary32.mul (m₀.part L lhs.location k) (m₀.number L rhs) := by
  have width := width_of_vector vector
  have first : 0 < rowCount lhs.ty := rowCount_pos lhs.ty
  have lanes {t : LoweringState} {held : List Lease} {m : Machine} (conduct : Conduct P s₁ t registers held)
      (comes : P.Comes t rsqrt L m₀ m) (notHeld : ∀ x ∈ held, x.location ≠ lhs.location) :
      m.Has L 16 lhs.location ∧ ∀ k < 4, m.part L lhs.location k = m₀.part L lhs.location k := by
    have simd : (Width.ofTy lhs.ty).registerClass = .simd := by rw [width]; rfl
    have row := left.row conduct comes simd base locals first (by rwa [Nat.mul_zero, offsetBy_zero])
    rw [width, Nat.mul_zero, offsetBy_zero] at row
    simp only [Nat.zero_add] at row
    exact row
  have place : P.Admits s₁ [] out .simd 16 := by
    have := awaits.admits.first
    rwa [width] at this
  unfold vectorScalar
  refine (acquire_produces start .simd _ fun _ _ _ _ _ _ _ _ => trivial).bind ?_
  rintro x t ⟨h₁, j, grants⟩
  have location : x.location = .simdRegister j := grants.location
  have outside : Location.simdRegister j ≠ out := location ▸ grants.apart (by simp)
  have notLeft : ∀ y ∈ [] ++ [x], y.location ≠ lhs.location := fun y hy => by
    rw [List.nil_append, List.mem_singleton] at hy
    exact hy ▸ grants.apart (by simp)
  have notRight : ∀ y ∈ [] ++ [x], y.location ≠ rhs.location := fun y hy => by
    rw [List.nil_append, List.mem_singleton] at hy
    exact hy ▸ grants.apart (by simp)
  -- The leased register carries the number in all of its lanes until the product is
  -- done, so every step from here on says that it leaves that register alone.
  have owns : P.Owns ([] ++ [x]) .simd j := ⟨grants.pool, .inl ⟨x, by simp, location⟩⟩
  simp only [location]
  refine (storeAccumulator_produces h₁ owns right number notRight).bind fun _ t h₂ => ?_
  refine (emit_produces (c := .simd) (G := fun m => m.simd j = .splat (m₀.number L rhs)) h₂ (o := .shufps) rfl rfl owns
    (l := .simdRegister j) (.inr (by rintro _ ⟨⟩)) [0] fun m _ _ holds => ?_).bind fun _ t h₃ => ?_
  · refine ⟨_, Machine.perform_spread j, fun _ => ?_⟩
    rw [Machine.simd_set, if_pos rfl, holds]
  refine (accumulate_produces (c := .simd) h₃ List.mem_cons_self (fun register => (place.mono (List.nil_subset _)).register register)
    fun m m' o n _ _ touches holds => ?_).bind ?_
  · rw [touches.simd j (Regime.pool_lt grants.pool) (by rintro ⟨⟩)]
    exact holds
  rintro ⟨acc, lease⟩ t ⟨h₄, id, a⟩
  have clear := a.clear lhs.location (by simp) otherL
  have apart := (a.clear (.simdRegister j) (by simp) outside).1
  have ownsAcc := a.owns
  obtain rfl : acc = .simdRegister id := a.at_
  have notLeft' : ∀ y ∈ [] ++ [x] ++ lease.toList, y.location ≠ lhs.location := fun y hy =>
    (List.mem_append.1 hy).elim (notLeft y) (clear.2 y)
  have spread {m m' : Machine} (touches : m.Touches L (.simdRegister id) 0 m') : m'.simd j = m.simd j :=
    touches.simd j (Regime.pool_lt grants.pool) apart
  refine (load_produces (w := .packed) (G := fun m => m.simd j = .splat (m₀.number L rhs) ∧
    ∀ k < 4, (m.simd id).get k = m₀.part L lhs.location k) h₄ ownsAcc (left.homes.reads P)
    (fun d j eq => by rw [left.class_eq d j eq, width]) (fun m comes _ => (lanes h₄.toConduct comes notLeft').1)
    fun m m' comes holds touches loaded => ⟨(spread touches).trans holds, fun k lane => ?_⟩).bind fun _ t h₅ => ?_
  · exact (loaded k lane).trans ((lanes h₄.toConduct comes notLeft').2 k lane)
  refine (lanes_produces (G := fun m => ∀ k < 4, (m.simd id).get k = Binary32.mul (m₀.part L lhs.location k) (m₀.number L rhs))
    h₅ (o := .mulps) rfl ownsAcc (l := .simdRegister j) (.inr (by rintro _ ⟨⟩)) (by rintro _ ⟨⟩)
    (fun m _ _ => has_simd m L j) fun m m' _ _ holds _ computed k lane => ?_).bind fun _ t h₆ => ?_
  · rw [computed, Machine.lanesAt_simd, holds.1, Lanes.get_map2 _ _ _ lane, holds.2 k lane, Lanes.get_splat _ lane]
  refine (a.settle_produces (w := .packed) h₆ (place.mono (List.nil_subset _)) (fun m comes _ => ?_) awaits.homes.direct
    (small_of_fits awaits.homes.fits) (G := fun m => ∀ k < 4, m.part L out k = Binary32.mul (m₀.part L lhs.location k) (m₀.number L rhs))
    fun m m' holds _ moved k lane => (moved k lane).trans (holds k lane)).bind fun _ t h₇ => ?_
  · have has := awaits.homes.has h₆.toConduct comes
    refine has.mono ?_
    revert vector
    cases lhs.ty <;> decide
  exact release_last_produces (c := .simd) h₇ location fun m m' _ touches holds k lane =>
    (awaits.homes.part_register (c := .simd) touches outside k).trans (holds k lane)

theorem opposite_eq (w : Word) : Binary32.opposite w = w ^^^ 0x80000000 := rfl

/-- **A value is negated.** -/
theorem negate_produces (start : Produces P s₁ s registers [] rsqrt L m₀ fun _ => True) (awaits : P.Awaits s₁ v.ty out)
    (offers : P.Offers L m₀ v) (other : v.location ≠ out) (quiet : P.Quiet L m₀) (base : m₀.base % 16 = 0)
    (locals : L % 16 = 0) :
    Results (negate out v) s fun _ t => Produces P s₁ t registers [] rsqrt L m₀ fun m =>
      ∀ k, v.ty.hasWord k = true → m.part L out k = Content.negated v.ty (m₀.part L v.location) k := by
  unfold negate
  split
  · next integral =>
    refine (changed_produces (o := .neg) (f := (0 - ·)) start awaits integral offers integral other rfl
      fun m id => perform_neg m id).mono fun _ t h => h.mono fun m _ holds k word => ?_
    have zero : k = 0 := by
      revert integral word
      cases v.ty <;> simp [Ty.hasWord, Ty.isIntegral]
    rw [zero, holds, Content.negated, if_pos integral]
  · next float =>
    have storage := Nat.ne_of_gt (size_of_fits offers.homes.fits)
    have simd : (Width.ofTy v.ty).registerClass = .simd := by
      revert float storage
      cases v.ty <;> decide
    refine (constant_produces start (.vector signMask)).bind ?_
    rintro _ t ⟨h, o, rfl, pooled⟩
    have pooledSince {u : LoweringState} {held : List Lease} (conduct : Conduct P t u registers held) :
        (.vector signMask, o) ∈ u.constants.slots := conduct.within.kept _ pooled
    have within := h.within
    simp only [Nat.mul_comm _ 16]
    have start : Produces P t t registers [] rsqrt L m₀ fun _ => True := { h with within := .refl t }
    refine (rowwise_produces (fun r => out.offsetBy (16 * r)) (fun r => v.location.offsetBy (16 * r))
      (fun _ => .globalMemory o) (fun r => [out.offsetBy (16 * r), v.location.offsetBy (16 * r)])
      (x := fun r k => m₀.part L v.location (4 * r + k)) (y := fun _ => signMask) (f := (· ^^^ ·)) (o := .xorps)
      start ⟨awaits.homes, fun r small => (awaits.admits r small).later within⟩ rfl simd rfl
      (fun _ _ => rfl) (fun _ _ => by simp) (fun _ _ => by simp) (fun _ _ eq => other (Location.offsetBy_inj eq))
      (fun _ _ => .inr ⟨o, rfl⟩) (fun _ => (offers.homes.reads P).offsetBy _)
      (fun _ => P.reads_global o) (fun r small d j eq => ?_) (fun r small j eq => by cases eq)
      (fun r small {_ _ _} conduct comes notHeld => ?_) fun r small {_ _ _} conduct comes notHeld => ?_).mono
      fun _ u h => { h.mono fun m _ holds k word => ?_ with within := within.trans h.within }
    · rw [offers.class_eq d j (Location.eq_of_offsetBy eq), simd]
    · exact offers.row conduct comes simd base locals small notHeld
    · exact ⟨conduct.pooledHas comes (pooledSince conduct), conduct.pooledStraight comes base (pooledSince conduct),
        fun pools => conduct.pooledLanes quiet comes pools (pooledSince conduct)⟩
    · have lane := (Homes.word_row simd word).2
      rw [holds.words awaits.homes simd word, Nat.div_add_mod, Content.negated, if_neg float, signMask,
        Lanes.get_splat _ (Nat.mod_lt _ (by decide)), opposite_eq]

end Lower

end Shading
