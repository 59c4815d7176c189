import Shading.Proofs.Effects.Moves
import Shading.Proofs.Frames.Calls

/-!
# What products of matrices compute

A matrix is in memory, row by row. It is applied to a vector by one product for
each row, and horizontal sums bring the sums of the terms into the lanes of the
result. A row of a product of matrices is a sum of the rows of the right one,
weighted by the elements of a row of the left one. Every sum and every product
is rounded on its own, in the order that the code has.
-/

namespace Shading

open LoweringState Permit

/-! ## Sums of products -/

namespace Lanes

/-- **The lanes added up**, the first two and the others, and then these. -/
def sum (l : Lanes) : Word := Binary32.add (Binary32.add l.x l.y) (Binary32.add l.z l.w)

/-- Three horizontal sums add up the lanes of four registers. -/
theorem horizontalAdd_sums (a b c d : Lanes) :
    horizontalAdd (horizontalAdd a b) (horizontalAdd c d) = ⟨a.sum, b.sum, c.sum, d.sum⟩ := rfl

theorem map2_xor_self (l : Lanes) : map2 (· ^^^ ·) l l = zero := by
  simp only [map2, zero, UInt32.xor_self]

theorem sum_zero : zero.sum = 0 := by decide +kernel

/-- **The terms of a row** and a vector, the last one cleared where there are
three. -/
def terms (n : Nat) (row v : Lanes) : Lanes :=
  if n = 3 then map2 (· &&& ·) (map2 Binary32.mul row v) xyzMask else map2 Binary32.mul row v

theorem sum_terms (n : Nat) (row v : Lanes) : (terms n row v).sum =
    Binary32.add (Binary32.add (Binary32.mul row.x v.x) (Binary32.mul row.y v.y))
      (Binary32.add (Binary32.mul row.z v.z) (if n = 3 then 0 else Binary32.mul row.w v.w)) := by
  have kept (w : Word) : w &&& 0xFFFFFFFF = w := UInt32.and_neg_one
  unfold terms
  split
  · simp only [sum, map2, xyzMask, kept, UInt32.and_zero]
  · rfl

/-- **Rows that are weighted and added up** in order, starting from zero. -/
def weighted (n : Nat) (weight : Nat → Word) (row : Nat → Lanes) : Lanes :=
  (List.range n).foldl (fun acc j => map2 Binary32.add acc (map2 Binary32.mul (splat (weight j)) (row j))) zero

theorem weighted_succ (n : Nat) (weight : Nat → Word) (row : Nat → Lanes) : weighted (n + 1) weight row =
    map2 Binary32.add (weighted n weight row) (map2 Binary32.mul (splat (weight n)) (row n)) := by
  rw [weighted, List.range_succ, List.foldl_append]
  rfl

theorem get_splat (w : Word) {k : Nat} (small : k < 4) : (splat w).get k = w := by
  obtain rfl | rfl | rfl | rfl : k = 0 ∨ k = 1 ∨ k = 2 ∨ k = 3 := by omega
  all_goals rfl

theorem get_weighted (n : Nat) (weight : Nat → Word) (row : Nat → Lanes) {k : Nat} (small : k < 4) :
    (weighted n weight row).get k =
      (List.range n).foldl (fun acc j => Binary32.add acc (Binary32.mul (weight j) ((row j).get k))) 0 := by
  induction n with
  | zero =>
    obtain rfl | rfl | rfl | rfl : k = 0 ∨ k = 1 ∨ k = 2 ∨ k = 3 := by omega
    all_goals rfl
  | succ n ih =>
    rw [weighted_succ, get_map2 _ _ _ small, get_map2 _ _ _ small, get_splat _ small, ih, List.range_succ,
      List.foldl_append]
    rfl

end Lanes

/-! ## Rows of matrices -/

/-- A part of a place in memory is no register. -/
theorem Location.offsetBy_ne_location {l : Location} (memory : l.isInMemory = true) (c : RegisterClass) (id b : Nat) :
    l.offsetBy b ≠ c.location id := by
  cases l <;> first | cases memory; done | (cases c <;> rintro ⟨⟩)

namespace Machine

variable {m : Machine} {L b n k : Nat} {l : Location}

theorem addressOf_offsetBy (memory : l.isInMemory = true) (direct : ∀ id, l ≠ .indirectRegister id) :
    m.addressOf L (l.offsetBy b) = m.addressOf L l + b := by
  cases l with
  | globalMemory o => exact (Nat.add_assoc _ _ _).symm
  | localMemory o =>
    simp only [Location.offsetBy, addressOf]
    omega
  | indirectRegister id => exact absurd rfl (direct id)
  | _ => cases memory

/-- A word of a part of a place is a word of the place. -/
theorem part_offsetBy (memory : l.isInMemory = true) (direct : ∀ id, l ≠ .indirectRegister id) (b k : Nat) :
    m.part L (l.offsetBy (4 * b)) k = m.part L l (b + k) := by
  have inside : m.base ≤ m.addressOf L l := by
    cases l with
    | globalMemory o => exact Nat.le_add_right _ _
    | localMemory o => exact Nat.le_add_right _ _
    | indirectRegister id => exact absurd rfl (direct id)
    | _ => cases memory
  have memory' : (l.offsetBy (4 * b)).isInMemory = true := by cases l <;> first | rfl | cases memory
  rw [part_memory m L memory', part_memory m L memory, offsetAt, offsetAt, addressOf_offsetBy memory direct,
    show m.addressOf L l + 4 * b - m.base + 4 * k = m.addressOf L l - m.base + 4 * (b + k) by omega]

/-- **A row of a matrix** in memory. -/
def rowAt (m : Machine) (L : Nat) (l : Location) (r : Nat) : Lanes :=
  ⟨m.part L l (4 * r), m.part L l (4 * r + 1), m.part L l (4 * r + 2), m.part L l (4 * r + 3)⟩

theorem get_rowAt (m : Machine) (L : Nat) (l : Location) (r : Nat) (small : k < 4) :
    (m.rowAt L l r).get k = m.part L l (4 * r + k) := by
  obtain rfl | rfl | rfl | rfl : k = 0 ∨ k = 1 ∨ k = 2 ∨ k = 3 := by omega
  all_goals rfl

theorem lanesAt_offsetBy (memory : l.isInMemory = true) (direct : ∀ id, l ≠ .indirectRegister id) (r : Nat) :
    m.lanesAt L (l.offsetBy (16 * r)) = m.rowAt L l r := by
  rw [show 16 * r = 4 * (4 * r) by omega, lanesAt, part_offsetBy memory direct, part_offsetBy memory direct,
    part_offsetBy memory direct, part_offsetBy memory direct]
  rfl

theorem rowAt_congr {m m' : Machine} {r : Nat} (same : ∀ k, m'.part L l k = m.part L l k) : m'.rowAt L l r = m.rowAt L l r := by
  simp only [rowAt, same]

/-- **A row that is stored** leaves the other rows alone. -/
theorem Touches.rowAt {m' : Machine} {i r : Nat} (h : m.Touches L (l.offsetBy (16 * i)) 16 m') (memory : l.isInMemory = true)
    (direct : ∀ id, l ≠ .indirectRegister id) (other : r ≠ i) : m'.rowAt L l r = m.rowAt L l r := by
  have at_ : m'.offsetAt L l = m.offsetAt L l := by
    rw [offsetAt, offsetAt, h.base, addressOf_congr h.base l fun id same => absurd same (direct id)]
  have word (k : Nat) (small : k < 4) : m'.part L l (4 * r + k) = m.part L l (4 * r + k) := by
    refine part_congr memory at_ fun j low high => h.bytes j fun taken => ?_
    cases l with
    | globalMemory o =>
      simp only [takes, Location.offsetBy, offsetAt, addressOf] at taken low high
      omega
    | localMemory o =>
      simp only [takes, Location.offsetBy, offsetAt, addressOf] at taken low high
      omega
    | indirectRegister id => exact direct id rfl
    | _ => cases memory
  exact Lanes.ext_get fun k small => by rw [get_rowAt _ _ _ _ small, get_rowAt _ _ _ _ small, word k small]

end Machine

namespace LoweringState

variable {s : LoweringState} {L : Nat} {m₀ m : Machine} {ty : Ty} {l : Location}

theorem Supplies.receives (h : s.Supplies L m₀ ty l) : s.Receives ty l :=
  ⟨h.fits, h.keeps, fun id same => (h.address id same).1⟩

/-- A place for a matrix is memory at a known offset. -/
theorem Supplies.direct (h : s.Supplies L m₀ ty l) (matrix : ty.isMatrix = true) :
    l.isInMemory = true ∧ ∀ id, l ≠ .indirectRegister id := by
  have fits := h.fits
  cases l with
  | globalMemory o | localMemory o => exact ⟨rfl, by rintro _ ⟨⟩⟩
  | indirectRegister id => exact absurd (matrix.symm.trans fits.2.1) (by decide)
  | none => exact fits.elim
  | register id | simdRegister id =>
    obtain ⟨class_, -⟩ := fits
    cases ty <;> cases matrix <;> cases class_
  | registerLane id shift => exact absurd rfl (h.whole id shift)

/-- **A place for a vector or a matrix is aligned**, if an address is. -/
theorem Supplies.straight (h : s.Supplies L m₀ ty l) (vector : ty.isVector = true) (base : m₀.base % 16 = 0)
    (locals : L % 16 = 0) (address : ∀ id, l = .indirectRegister id → (m₀.general64 id).toNat % 16 = 0) :
    m₀.Straight16 L l := fun memory => by
  have sixteen : BumpAllocator.alignmentOf ty.size = 16 := by cases ty <;> first | rfl | cases vector
  have fits := h.fits
  cases l with
  | globalMemory o =>
    obtain ⟨-, aligned⟩ := fits
    rw [sixteen] at aligned
    simp only [Machine.addressOf]
    omega
  | localMemory o =>
    obtain ⟨-, aligned⟩ := fits
    rw [sixteen] at aligned
    simp only [Machine.addressOf]
    omega
  | indirectRegister id => exact address id rfl
  | _ => cases memory

/-- **The place of a result is clear** of the slots that registers are saved
in. -/
theorem Supplies.starts {t : LoweringState} {registers : List Location} {ok : s.Ok} (h : s.Supplies L m ty l)
    (conduct : Conduct (Permit.result s ok l ty.size) s t registers []) (suits : t.Suits L m) :
    (Permit.result s ok l ty.size).Starts t L m := by
  refine Begins.starts ⟨suits, fun id same k at_ slot hs contains => ?_, fun lane => ?_⟩ ok conduct ?_
  · obtain ⟨-, -, kept⟩ := h.address id same
    obtain ⟨-, above, stop, -⟩ := conduct.spills slot hs
    have top := Nat.le_trans conduct.leads.ok.layout.globalTop suits.globals
    have old := kept k at_
    obtain ⟨low, high⟩ := contains
    change s.globalTop ≤ slot.offset at above
    simp only [globalTop] at stop old above
    omega
  · obtain ⟨id, shift, same⟩ := lane
    exact absurd same (h.whole id shift)
  · rintro o rfl
    exact h.keeps.1

end LoweringState

/-- The rows of a matrix are within its bytes. -/
theorem row_inside {ty : Ty} (matrix : ty.isMatrix = true) {r : Nat} (small : r < ty.elementCount) : 16 * r + 16 ≤ ty.size := by
  cases ty <;> cases matrix <;> simp only [Ty.elementCount, Ty.size] at small ⊢ <;> omega

namespace Conduct

variable {P : Permit} {s₁ s : LoweringState} {registers : List Location} {held : List Lease} {rsqrt : Word → Word}
  {L : Nat} {m₀ m : Machine} {l : Location} {ty : Ty}

/-- **A part of a matrix that may not be written** is withheld, and stands in
no register. -/
theorem portion (h : Conduct P s₁ s registers held) (comes : P.Comes s rsqrt L m₀ m) (supplies : P.start.Supplies L m₀ ty l)
    (matrix : ty.isMatrix = true) (apart : ∀ k, m₀.takes L l ty.size k → ∀ l' n', P.memory l' n' → ¬ m₀.takes L l' n' k)
    {b n : Nat} (inside : b + n ≤ ty.size) (positive : 0 < n) :
    P.Withholds L m₀ n (l.offsetBy b) ∧ ∀ x ∈ held, x.location ≠ l.offsetBy b := by
  obtain ⟨memory, direct⟩ := supplies.direct matrix
  have suits := comes.starts.suits.back h.leads.within
  refine ⟨((supplies.keeps.backs P.ok memory direct).offsetBy inside).withholds suits positive fun k taken =>
    apart k (Machine.takes_offsetBy memory inside taken), fun x hx same => ?_⟩
  obtain ⟨c, id, -, location, -⟩ := h.leads.ok.layout.leased _ (h.leads.layout.mem_leased hx)
  exact Location.offsetBy_ne_location memory c id _ (same.symm.trans location)

/-- **A row of a matrix that may not be written** is read as it was. -/
theorem row (h : Conduct P s₁ s registers held) (comes : P.Comes s rsqrt L m₀ m) (supplies : P.start.Supplies L m₀ ty l)
    (matrix : ty.isMatrix = true) (apart : ∀ k, m₀.takes L l ty.size k → ∀ l' n', P.memory l' n' → ¬ m₀.takes L l' n' k)
    (base : m₀.base % 16 = 0) (locals : L % 16 = 0) {r : Nat} (small : r < ty.elementCount) :
    m.Has L 16 (l.offsetBy (16 * r)) ∧ m.Straight16 L (l.offsetBy (16 * r)) ∧
      m.lanesAt L (l.offsetBy (16 * r)) = m₀.rowAt L l r := by
  obtain ⟨memory, direct⟩ := supplies.direct matrix
  obtain ⟨withheld, notHeld⟩ := h.portion comes supplies matrix apart (row_inside matrix small) (by decide)
  refine ⟨h.has comes withheld, fun _ => ?_, ?_⟩
  · have vector : ty.isVector = true := by cases ty <;> first | rfl | cases matrix
    have straight := supplies.straight vector base locals (fun id same => absurd same (direct id)) memory
    rw [h.addressOf comes withheld, Machine.addressOf_offsetBy memory direct]
    omega
  · rw [h.lanesAt comes withheld notHeld, Machine.lanesAt_offsetBy memory direct]

/-- **An element of a matrix that may not be written** is read as it was. -/
theorem element (h : Conduct P s₁ s registers held) (comes : P.Comes s rsqrt L m₀ m) (supplies : P.start.Supplies L m₀ ty l)
    (matrix : ty.isMatrix = true) (apart : ∀ k, m₀.takes L l ty.size k → ∀ l' n', P.memory l' n' → ¬ m₀.takes L l' n' k)
    {r k : Nat} (small : r < ty.elementCount) (lane : k < 4) :
    m.Has L 4 (l.offsetBy (16 * r + 4 * k)) ∧ m.part L (l.offsetBy (16 * r + 4 * k)) 0 = m₀.part L l (4 * r + k) := by
  obtain ⟨memory, direct⟩ := supplies.direct matrix
  have inside := row_inside matrix small
  obtain ⟨withheld, notHeld⟩ := h.portion comes supplies matrix apart (b := 16 * r + 4 * k) (n := 4) (by omega) (by decide)
  refine ⟨h.has comes withheld, ?_⟩
  rw [h.part comes withheld notHeld (k := 0) (by decide) (by decide), show 16 * r + 4 * k = 4 * (4 * r + k) by omega,
    Machine.part_offsetBy memory direct]
  rfl

end Conduct

namespace Lower

variable {P : Permit} {s₁ s t : LoweringState} {registers : List Location} {held : List Lease} {rsqrt : Word → Word}
  {L : Nat} {m₀ m : Machine} {F G : Machine → Prop} {out : Location} {lhs rhs : Value} {id : Nat}

/-! ## A matrix and a vector -/

/-- Rows of matrices are vectors. -/
theorem size_of_element {ty row : Ty} (matrix : ty.isMatrix = true) (element : ty.element? = some row) : row.size = 16 := by
  cases ty <;> cases matrix <;> cases element <;> rfl

theorem elementCount_eq_three_iff {ty : Ty} (matrix : ty.isMatrix = true) : ty.elementCount = 3 ↔ ty = .mat3x3 := by
  revert matrix
  cases ty <;> decide

theorem width_of_element {ty row : Ty} (matrix : ty.isMatrix = true) (element : ty.element? = some row) :
    Width.ofTy row = .packed := by
  cases ty <;> cases matrix <;> cases element <;> rfl

theorem width_of_matrix {ty : Ty} (matrix : ty.isMatrix = true) : Width.ofTy ty = .packed := by
  cases ty <;> cases matrix <;> rfl

/-- Matrices of three rows have rows of three lanes. -/
theorem element?_vec3_iff {ty : Ty} (matrix : ty.isMatrix = true) : ty.element? = some .vec3 ↔ ty.elementCount = 3 := by
  revert matrix
  cases ty <;> decide

/-- **A row is multiplied by a vector** in a register. -/
theorem terms_produces {ok : s.Ok} (h : Produces (Permit.still s ok) s t registers held rsqrt L m₀ F)
    (matrix : lhs.ty.isMatrix = true) (element : lhs.ty.element? = some rhs.ty)
    (left : s.Supplies L m₀ lhs.ty lhs.location) (right : s.Supplies L m₀ rhs.ty rhs.location)
    (straight : m₀.Straight16 L rhs.location) (base : m₀.base % 16 = 0) (locals : L % 16 = 0)
    (owns : (Permit.still s ok).Owns held .simd id) (notHeld : ∀ x ∈ held, x.location ≠ rhs.location) {row : Nat}
    (small : row < lhs.ty.elementCount)
    (step : ∀ m m' : Machine, F m → (∀ j < 8, j ≠ id → m'.simd j = m.simd j) →
      m'.simd id = Lanes.terms lhs.ty.elementCount (m₀.rowAt L lhs.location row) (m₀.lanesAt L rhs.location) → G m') :
    Results (do
      transfer .packed (.simdRegister id) (lhs.location.offsetBy (row * 16))
      emit .mulps (.simdRegister id) rhs.location
      if lhs.ty.element? = some .vec3 then
        emit .andps (.simdRegister id) (← constant (.vector xyzMask))) t fun _ u =>
      Produces (Permit.still s ok) s u registers held rsqrt L m₀ G := by
  have small' := Regime.pool_lt owns.1
  -- Only the register of this row is written, so the rows that are done keep their
  -- products.
  have others {m m' : Machine} (touches : m.Touches L (.simdRegister id) 0 m') (j : Nat) (lane : j < 8) (other : j ≠ id) :
      m'.simd j = m.simd j := touches.simd j lane fun same => other (Location.simdRegister.inj same).symm
  obtain ⟨memory, direct⟩ := left.direct matrix
  have size : rhs.ty.size = 16 := size_of_element matrix element
  refine (load_produces (w := .packed) (G := fun m' => ∃ m, F m ∧ (∀ j < 8, j ≠ id → m'.simd j = m.simd j) ∧
    m'.simd id = m₀.rowAt L lhs.location row) h owns (.inl trivial) (fun d j same => ?_) (fun m comes _ => ?_)
      fun m m' comes holds touches loaded => ⟨m, holds, others touches, ?_⟩).bind fun _ t h₁ => ?_
  · exact absurd same (Location.offsetBy_ne_location memory d j _)
  · rw [Nat.mul_comm row]
    exact (h.row comes left matrix (fun _ _ _ _ permitted => permitted.elim) base locals small).1
  · refine Lanes.ext_get fun k word => (loaded k word).trans ?_
    rw [Nat.mul_comm row, ← (h.row comes left matrix (fun _ _ _ _ permitted => permitted.elim) base locals small).2.2]
    exact (Machine.get_lanesAt m L _ word).symm
  have float (j : Nat) (same : rhs.location = .register j) : False := by
    have := (class_of_fits (c := .general) (same ▸ right.fits)).1
    cases ty : rhs.ty <;> rw [ty] at this size <;> cases size <;> cases this
  have read {t : LoweringState} {registers : List Location} {m : Machine}
      (h : Conduct (Permit.still s ok) s t registers held) (comes : (Permit.still s ok).Comes t rsqrt L m₀ m) :
      m.Has L 16 rhs.location ∧ m.Straight16 L rhs.location ∧ m.lanesAt L rhs.location = m₀.lanesAt L rhs.location := by
    have withheld := right.still h comes
    rw [size] at withheld
    exact ⟨h.has comes withheld, fun memory => (h.addressOf comes withheld).symm ▸ straight memory,
      h.lanesAt comes withheld notHeld⟩
  refine (lanes_produces (G := fun m' => ∃ m, F m ∧ (∀ j < 8, j ≠ id → m'.simd j = m.simd j) ∧
    m'.simd id = Lanes.map2 Binary32.mul (m₀.rowAt L lhs.location row) (m₀.lanesAt L rhs.location)) h₁ (o := .mulps) rfl
      owns (.inl trivial) float (fun m comes _ => ⟨(read h₁.toConduct comes).1, (read h₁.toConduct comes).2.1⟩)
      fun m m' comes _ holds touches computed => ?_).bind fun _ t h₂ => ?_
  · obtain ⟨m₁, holds, same, loaded⟩ := holds
    refine ⟨m₁, holds, fun j lane other => (others touches j lane other).trans (same j lane other), ?_⟩
    rw [computed, loaded, (read h₁.toConduct comes).2.2]
  split
  -- The fourth lane of a row of three is whatever lies behind it in memory; the mask
  -- clears the product there.
  · next three =>
    have rows : lhs.ty.elementCount = 3 := (element?_vec3_iff matrix).1 three
    refine (constant_produces h₂ _).bind ?_
    rintro _ t ⟨h₃, o, rfl, hc⟩
    refine mask_produces h₃ (fun _ _ _ permitted => permitted.elim) base owns hc fun m m' _ holds touches masked => ?_
    obtain ⟨m₁, holds, same, product⟩ := holds
    refine step m₁ m' holds (fun j lane other => (others touches j lane other).trans (same j lane other)) ?_
    rw [masked, product, Lanes.terms, if_pos rows]
  · next four =>
    have rows : lhs.ty.elementCount ≠ 3 := fun rows => four ((element?_vec3_iff matrix).2 rows)
    refine .pure (h₂.mono fun m' _ holds => ?_)
    obtain ⟨m₁, holds, same, product⟩ := holds
    exact step m₁ m' holds same (by rw [product, Lanes.terms, if_neg rows])

theorem elementCount_of_isMatrix {ty : Ty} (matrix : ty.isMatrix = true) : ty.elementCount = 3 ∨ ty.elementCount = 4 := by
  revert matrix
  cases ty <;> decide

/-- **The lanes of two registers are added up** into one of them. -/
theorem horizontal_produces (h : Produces P s₁ s registers held rsqrt L m₀ F) {j : Nat} (owns : P.Owns held .simd id)
    (step : ∀ m m' : Machine, F m → (∀ k < 8, k ≠ id → m'.simd k = m.simd k) →
      m'.simd id = Lanes.horizontalAdd (m.simd id) (m.simd j) → G m') :
    Results (emit .haddps (.simdRegister id) (.simdRegister j)) s fun _ t => Produces P s₁ t registers held rsqrt L m₀ G :=
  lanes_produces h (o := .haddps) rfl owns (.inr (by rintro _ ⟨⟩)) (by rintro _ ⟨⟩) (fun m _ _ => has_simd m L j)
    fun m m' _ _ holds touches computed => step m m' holds
      (fun k lane other => touches.simd k lane fun same => other (Location.simdRegister.inj same).symm) computed

/-- **The terms of a row**, and nothing in a lane without a row. -/
def termsOf (m : Machine) (L : Nat) (matrix vector : Value) (r : Nat) : Lanes :=
  if r < matrix.ty.elementCount then
    Lanes.terms matrix.ty.elementCount (m.rowAt L matrix.location r) (m.lanesAt L vector.location)
  else .zero

theorem sum_termsOf (m : Machine) (L : Nat) (matrix vector : Value) (r : Nat) : (termsOf m L matrix vector r).sum =
    if r < matrix.ty.elementCount then
      (Lanes.terms matrix.ty.elementCount (m.rowAt L matrix.location r) (m.lanesAt L vector.location)).sum
    else 0 := by
  rw [termsOf, apply_ite Lanes.sum, Lanes.sum_zero]

/-- **Each row is multiplied by the vector**, in a register of its own. -/
theorem rows_produce {ok : s.Ok} (ids : List Nat) {action : Location × Nat → Lower Unit}
    (h : Produces (Permit.still s ok) s t registers held rsqrt L m₀ fun _ => True)
    (matrix : lhs.ty.isMatrix = true) (element : lhs.ty.element? = some rhs.ty)
    (left : s.Supplies L m₀ lhs.ty lhs.location) (right : s.Supplies L m₀ rhs.ty rhs.location)
    (straight : m₀.Straight16 L rhs.location) (base : m₀.base % 16 = 0) (locals : L % 16 = 0)
    (owned : ∀ i ∈ ids, (Permit.still s ok).Owns held .simd i) (nodup : ids.Nodup)
    (notHeld : ∀ x ∈ held, x.location ≠ rhs.location) (enough : lhs.ty.elementCount ≤ ids.length)
    (steps : ∀ r row, action (r, row) = do
      transfer .packed r (lhs.location.offsetBy (row * 16))
      emit .mulps r rhs.location
      if lhs.ty.element? = some .vec3 then
        emit .andps r (← constant (.vector xyzMask))) :
    Results (((ids.map Location.simdRegister).take lhs.ty.elementCount).zipIdx.forM action) t fun _ u =>
      Produces (Permit.still s ok) s u registers held rsqrt L m₀ fun m =>
        ∀ j < lhs.ty.elementCount, ∀ id, ids[j]? = some id → m.simd id = termsOf m₀ L lhs rhs j := by
  have length : ((ids.map Location.simdRegister).take lhs.ty.elementCount).zipIdx.length = lhs.ty.elementCount := by
    rw [List.length_zipIdx, List.length_take, List.length_map, Nat.min_eq_left enough]
  have rows : Results (List.forM _ action) t _ := forM_produces ((ids.map Location.simdRegister).take lhs.ty.elementCount).zipIdx
    (fun k m => ∀ j < k, ∀ id, ids[j]? = some id → m.simd id = termsOf m₀ L lhs rhs j)
    (h.mono fun _ _ _ j none => absurd none (Nat.not_lt_zero j)) fun k inside t h' => ?_
  · rwa [length] at rows
  · have below : k < lhs.ty.elementCount := length ▸ inside
    have small : k < ids.length := Nat.lt_of_lt_of_le below enough
    simp only [List.getElem_zipIdx, List.getElem_take, List.getElem_map, Nat.zero_add]
    rw [steps]
    refine terms_produces h' matrix element left right straight base locals (owned _ (List.getElem_mem small)) notHeld
      below fun m m' holds others computed j before id at_ => ?_
    obtain ⟨inside, rfl⟩ := List.getElem?_eq_some_iff.1 at_
    rcases Nat.lt_succ_iff_lt_or_eq.1 before with before | rfl
    · -- The register of an earlier row is another one.
      rw [others _ (Regime.pool_lt (owned _ (List.getElem_mem inside)).1) fun again => ?_, holds j before _ at_]
      exact Nat.ne_of_lt before ((List.Nodup.getElem_inj_iff nodup).1 again)
    · rw [computed, termsOf, if_pos below]

/-- **Four registers are summed up** into the lanes of the first one. -/
theorem sums_produce {α : Type} {k : Lower α} {Q : α → LoweringState → Prop} {a b c d : Lanes} {i₀ i₁ i₂ i₃ : Nat}
    (h : Produces P s₁ s registers held rsqrt L m₀ fun m =>
      m.simd i₀ = a ∧ m.simd i₁ = b ∧ m.simd i₂ = c ∧ m.simd i₃ = d)
    (first : P.Owns held .simd i₀) (third : P.Owns held .simd i₂) (lane : i₃ < 8) (n₀₂ : i₀ ≠ i₂) (n₀₃ : i₀ ≠ i₃)
    (hk : ∀ t, Produces P s₁ t registers held rsqrt L m₀ (fun m => m.simd i₀ = ⟨a.sum, b.sum, c.sum, d.sum⟩) →
      Results k t Q) : Results (do
        emit .haddps (.simdRegister i₀) (.simdRegister i₁)
        emit .haddps (.simdRegister i₂) (.simdRegister i₃)
        emit .haddps (.simdRegister i₀) (.simdRegister i₂)
        k) s Q := by
  refine (horizontal_produces (G := fun m => m.simd i₀ = Lanes.horizontalAdd a b ∧ m.simd i₂ = c ∧ m.simd i₃ = d)
    h first fun m m' holds others computed => ?_).bind fun _ t h₁ => ?_
  · obtain ⟨ha, hb, hc, hd⟩ := holds
    exact ⟨by rw [computed, ha, hb], by rw [others i₂ (Regime.pool_lt third.1) (Ne.symm n₀₂), hc],
      by rw [others i₃ lane (Ne.symm n₀₃), hd]⟩
  refine (horizontal_produces (G := fun m => m.simd i₀ = Lanes.horizontalAdd a b ∧ m.simd i₂ = Lanes.horizontalAdd c d)
    h₁ third fun m m' holds others computed => ?_).bind fun _ t h₂ => ?_
  · obtain ⟨hab, hc, hd⟩ := holds
    exact ⟨by rw [others i₀ (Regime.pool_lt first.1) n₀₂, hab], by rw [computed, hc, hd]⟩
  refine (horizontal_produces (G := fun m => m.simd i₀ = ⟨a.sum, b.sum, c.sum, d.sum⟩) h₂ first
    fun m m' holds _ computed => ?_).bind fun _ t => hk t
  rw [computed, holds.1, holds.2, Lanes.horizontalAdd_sums]

/-- **Where there are three rows the fourth register is cleared.** -/
theorem clear_produces {ok : s.Ok} {i₀ i₁ i₂ i₃ : Nat} {T : Nat → Lanes} {rows : Nat} (count : rows = 3 ∨ rows = 4)
    (above : rows = 3 → T 3 = .zero) (h : Produces (Permit.still s ok) s t registers held rsqrt L m₀ fun m =>
      ∀ j < rows, ∀ id, [i₀, i₁, i₂, i₃][j]? = some id → m.simd id = T j)
    (owned : ∀ i ∈ [i₀, i₁, i₂, i₃], (Permit.still s ok).Owns held .simd i) (nodup : [i₀, i₁, i₂, i₃].Nodup) :
    Results (if rows = 3 then emit .xorps (.simdRegister i₃) (.simdRegister i₃) else pure ()) t fun _ u =>
      Produces (Permit.still s ok) s u registers held rsqrt L m₀ fun m =>
        m.simd i₀ = T 0 ∧ m.simd i₁ = T 1 ∧ m.simd i₂ = T 2 ∧ m.simd i₃ = T 3 := by
  rcases count with rfl | rfl
  · rw [if_pos rfl]
    refine lanes_produces h (o := .xorps) rfl (owned i₃ (by simp)) (.inl trivial) (by rintro _ ⟨⟩)
      (fun m _ _ => has_simd m L i₃) fun m m' _ _ holds touches computed => ?_
    -- The register that is cleared is none of the other three.
    have kept (j : Nat) (hj : j < 3) (i : Nat) (at_ : [i₀, i₁, i₂, i₃][j]? = some i) : m'.simd i = T j := by
      rw [touches.simd i (Regime.pool_lt (owned i (List.mem_of_getElem? at_)).1) fun same => ?_, holds j hj i at_]
      have fourth : [i₀, i₁, i₂, i₃][3]? = some i := Location.simdRegister.inj same ▸ rfl
      exact Nat.ne_of_lt hj ((List.getElem?_inj (List.getElem?_eq_some_iff.1 at_).1 nodup).1 (at_.trans fourth.symm))
    refine ⟨kept 0 (by decide) i₀ rfl, kept 1 (by decide) i₁ rfl, kept 2 (by decide) i₂ rfl, ?_⟩
    rw [computed, Machine.lanesAt_simd, Lanes.map2_xor_self, above rfl]
  · rw [if_neg (by decide)]
    exact .pure (h.mono fun m _ holds => ⟨holds 0 (by decide) _ rfl, holds 1 (by decide) _ rfl,
      holds 2 (by decide) _ rfl, holds 3 (by decide) _ rfl⟩)

variable (rsqrt) in
/-- **A matrix is applied to a vector**: the sum of the terms of a row is in
the lane of the row. -/
theorem matrixVector_produces (ok : s.Ok) (matrix : lhs.ty.isMatrix = true) (element : lhs.ty.element? = some rhs.ty)
    (left : s.Supplies L m₀ lhs.ty lhs.location) (right : s.Supplies L m₀ rhs.ty rhs.location)
    (result : s.Supplies L m₀ rhs.ty out) (straight : m₀.Straight16 L rhs.location) (base : m₀.base % 16 = 0)
    (locals : L % 16 = 0) :
    Results (matrixVector out lhs rhs) s fun _ t =>
      Produces (Permit.result s ok out rhs.ty.size) s t [] [] rsqrt L m₀ fun m => ∀ r < 4, m.part L out r =
        if r < lhs.ty.elementCount then
          (Lanes.terms lhs.ty.elementCount (m₀.rowAt L lhs.location r) (m₀.lanesAt L rhs.location)).sum
        else 0 := by
  have start : Produces (Permit.still s ok) s s [] [] rsqrt L m₀ fun _ => True := .start _ rsqrt L m₀ trivial
  have size : rhs.ty.size = 16 := size_of_element matrix element
  have count := elementCount_of_isMatrix matrix
  unfold matrixVector
  refine (acquireSimd_produces 4 start _).bind ?_
  rintro xs t ⟨h₁, ids, same, length, nodup, clear⟩
  have owned (i : Nat) (hi : i ∈ ids) : (Permit.still s ok).Owns ([] ++ xs) .simd i := by
    obtain ⟨x, hx, location⟩ := List.mem_map.1 (same ▸ List.mem_map_of_mem hi)
    exact ⟨(clear i hi).1, .inl ⟨x, hx, location⟩⟩
  have apart (a : Location) (ha : a ∈ [out, lhs.location, rhs.location]) : ∀ x ∈ [] ++ xs, x.location ≠ a := by
    rintro x hx rfl
    obtain ⟨i, hi, location⟩ := List.mem_map.1 (same ▸ List.mem_map_of_mem hx : x.location ∈ ids.map _)
    exact (clear i hi).2 _ ha (by rw [← location]; rfl)
  obtain ⟨i₀, i₁, i₂, i₃, rfl⟩ : ∃ i₀ i₁ i₂ i₃, ids = [i₀, i₁, i₂, i₃] := List.length_eq_four.1 length
  dsimp only
  split
  case h_2 other => exact absurd same (other _ _ _ _)
  next r₀ r₁ r₂ r₃ four =>
  obtain ⟨rfl, rfl, rfl, rfl⟩ : r₀ = .simdRegister i₀ ∧ r₁ = .simdRegister i₁ ∧ r₂ = .simdRegister i₂ ∧
      r₃ = .simdRegister i₃ := by simpa using four.symm.trans same
  refine (rows_produce [i₀, i₁, i₂, i₃] h₁ matrix element left right straight base locals owned nodup
    (apart _ (by simp)) (by rcases count with eq | eq <;> simp [eq]) fun _ _ => rfl).bind fun _ t h₂ => ?_
  refine Results.optional (clear_produces count (fun three => if_neg (by rw [three]; decide)) h₂ owned nodup) fun t h₃ => ?_
  have distinct : i₀ ≠ i₂ ∧ i₀ ≠ i₃ := by
    simp only [List.nodup_cons, List.mem_cons, not_or] at nodup
    exact ⟨nodup.1.2.1, nodup.1.2.2.1⟩
  refine sums_produce h₃ (owned i₀ (by simp)) (owned i₂ (by simp)) (Regime.pool_lt (owned i₃ (by simp)).1) distinct.1
    distinct.2 fun t h₄ => ?_
  -- The place of the result is written last, so it may be that of an operand.
  have sums (r : Nat) (lane : r < 4) : (⟨(termsOf m₀ L lhs rhs 0).sum, (termsOf m₀ L lhs rhs 1).sum,
      (termsOf m₀ L lhs rhs 2).sum, (termsOf m₀ L lhs rhs 3).sum⟩ : Lanes).get r = (termsOf m₀ L lhs rhs r).sum := by
    obtain rfl | rfl | rfl | rfl : r = 0 ∨ r = 1 ∨ r = 2 ∨ r = 3 := by omega
    all_goals rfl
  have h₅ := Produces.widen (P := Permit.result s ok out rhs.ty.size)
    (h₄.mono (G := fun m => m.simd i₀ = _ ∧ m.Has L 16 out) fun m comes holds =>
      ⟨holds, size ▸ h₄.has comes (result.still h₄.toConduct comes)⟩) trivial
  have admits := (result.receives.admits ok).first
  rw [width_of_element matrix element] at admits
  refine (deliver_produces (G := fun m => ∀ r < 4, m.part L out r = (termsOf m₀ L lhs rhs r).sum) h₅ .packed i₀
    (admits.mono (List.nil_subset _)) (fun m _ holds => holds.2) fun m m' _ holds _ moved r lane => ?_).bind fun _ t h₆ => ?_
  · rw [moved r lane, ← sums r lane, ← holds.1]
    rfl
  refine releaseAll_produces xs _ (h₆.mono fun m _ holds r lane => (holds r lane).trans (sum_termsOf m₀ L lhs rhs r)) same
    fun i hi m m' touches holds r lane => ?_
  rw [touches.part (c := .simd) ?_ (by rintro _ _ ⟨⟩) (small_of_fits result.fits), holds r lane]
  rintro rfl
  exact (clear i hi).2 _ List.mem_cons_self rfl

/-! ## Two matrices -/

/-- **A row is weighted and added** to what there is in a register. -/
theorem weigh_produces {weight : Nat → Word} {row : Nat → Lanes} {a b j : Nat} {x y : Location}
    (h : Produces P s₁ s registers held rsqrt L m₀ fun m => F m ∧ m.simd a = Lanes.weighted j weight row)
    (ownA : P.Owns held .simd a) (ownB : P.Owns held .simd b) (other : a ≠ b) (readsX : P.Reads x) (readsY : P.Reads y)
    (floatX : ∀ j, x ≠ .register j) (floatY : ∀ j, y ≠ .register j)
    (element : ∀ {s registers m}, Conduct P s₁ s registers held → P.Comes s rsqrt L m₀ m → m.Has L 4 x ∧ m.part L x 0 = weight j)
    (vector : ∀ {s registers m}, Conduct P s₁ s registers held → P.Comes s rsqrt L m₀ m →
      m.Has L 16 y ∧ m.Straight16 L y ∧ m.lanesAt L y = row j)
    (stable : ∀ m m' id, m.Touches L (.simdRegister id) 0 m' → F m → F m') :
    Results (do
      emit .movssLoad (.simdRegister b) x
      emit .shufps (.simdRegister b) (.simdRegister b) [0]
      emit .mulps (.simdRegister b) y
      emit .addps (.simdRegister a) (.simdRegister b)) s fun _ t =>
      Produces P s₁ t registers held rsqrt L m₀ fun m => F m ∧ m.simd a = Lanes.weighted (j + 1) weight row := by
  have kept {m m' : Machine} (touches : m.Touches L (.simdRegister b) 0 m') : m'.simd a = m.simd a :=
    touches.simd a (Regime.pool_lt ownA.1) fun same => other (Location.simdRegister.inj same).symm
  refine (emit_produces (c := .simd) (G := fun m => (F m ∧ m.simd a = Lanes.weighted j weight row) ∧ (m.simd b).x = weight j)
    h (o := .movssLoad) rfl rfl ownB readsX [] fun m comes _ holds => ?_).bind fun _ t h₁ => ?_
  · obtain ⟨has, same⟩ := element h.toConduct comes
    obtain ⟨v, run, first⟩ := Machine.perform_loadFloat rsqrt has (h.grounded comes) floatX b
    refine ⟨_, run, fun touches => ⟨⟨stable _ _ _ touches holds.1, (kept touches).trans holds.2⟩, ?_⟩⟩
    rw [Machine.simd_set, if_pos rfl, first, same]
  refine (emit_produces (c := .simd) (G := fun m => (F m ∧ m.simd a = Lanes.weighted j weight row) ∧
    m.simd b = Lanes.splat (weight j)) h₁ (o := .shufps) rfl rfl ownB (l := .simdRegister b) (.inr (by rintro _ ⟨⟩)) [0]
      fun m _ _ holds => ?_).bind fun _ t h₂ => ?_
  · refine ⟨_, Machine.perform_spread b, fun touches =>
      ⟨⟨stable _ _ _ touches holds.1.1, (kept touches).trans holds.1.2⟩, ?_⟩⟩
    rw [Machine.simd_set, if_pos rfl, holds.2]
  refine (lanes_produces (G := fun m => (F m ∧ m.simd a = Lanes.weighted j weight row) ∧
    m.simd b = Lanes.map2 Binary32.mul (Lanes.splat (weight j)) (row j)) h₂ (o := .mulps) rfl ownB readsY floatY
      (fun m comes _ => ⟨(vector h₂.toConduct comes).1, (vector h₂.toConduct comes).2.1⟩)
      fun m m' comes _ holds touches computed => ⟨⟨stable _ _ _ touches holds.1.1, (kept touches).trans holds.1.2⟩, ?_⟩).bind
        fun _ t h₃ => ?_
  · rw [computed, holds.2, (vector h₂.toConduct comes).2.2]
  refine lanes_produces h₃ (o := .addps) rfl ownA (.inr (by rintro _ ⟨⟩)) (by rintro _ ⟨⟩) (fun m _ _ => has_simd m L b)
    fun m m' _ _ holds touches computed => ⟨stable _ _ _ touches holds.1.1, ?_⟩
  rw [computed, holds.1.2, Machine.lanesAt_simd, holds.2, Lanes.weighted_succ]

variable (rsqrt) in
/-- **Two matrices are multiplied**: a row of the product is the sum of the
rows of the right one, weighted by the row of the left one. -/
theorem matrixProduct_produces (ok : s.Ok) (matrix : lhs.ty.isMatrix = true) (same : rhs.ty = lhs.ty)
    (left : s.Supplies L m₀ lhs.ty lhs.location) (right : s.Supplies L m₀ rhs.ty rhs.location)
    (result : s.Supplies L m₀ lhs.ty out)
    (apart : ∀ k, m₀.takes L out lhs.ty.size k →
      ¬ m₀.takes L lhs.location lhs.ty.size k ∧ ¬ m₀.takes L rhs.location rhs.ty.size k)
    (base : m₀.base % 16 = 0) (locals : L % 16 = 0) :
    Results (matrixProduct out lhs rhs) s fun _ t =>
      Produces (Permit.result s ok out lhs.ty.size) s t [] [] rsqrt L m₀ fun m => ∀ i < lhs.ty.elementCount,
        m.rowAt L out i = Lanes.weighted lhs.ty.elementCount (fun j => m₀.part L lhs.location (4 * i + j))
          (m₀.rowAt L rhs.location) := by
  obtain ⟨memory, direct⟩ := result.direct matrix
  rw [same] at right apart
  let W (i : Nat) : Lanes := Lanes.weighted lhs.ty.elementCount (fun j => m₀.part L lhs.location (4 * i + j))
    (m₀.rowAt L rhs.location)
  let P := Permit.result s ok out lhs.ty.size
  have start : Produces P s s [] [] rsqrt L m₀ fun _ => True := .start P rsqrt L m₀ trivial
  -- What is written is apart from what is read.
  have spared {l : Location} (clear : ∀ k, m₀.takes L out lhs.ty.size k → ¬ m₀.takes L l lhs.ty.size k) (k : Nat)
      (taken : m₀.takes L l lhs.ty.size k) (l' : Location) (n' : Nat) (permitted : P.memory l' n') : ¬ m₀.takes L l' n' k :=
    fun written => clear k (Machine.takes_of_permitted ok permitted written) taken
  have spared₁ := spared fun k taken => (apart k taken).1
  have spared₂ := spared fun k taken => (apart k taken).2
  have touched {i : Nat} (m m' : Machine) (id : Nat) (touches : m.Touches L (.simdRegister id) 0 m')
      (holds : ∀ r < i, m.rowAt L out r = W r) (r : Nat) (before : r < i) : m'.rowAt L out r = W r := by
    rw [← holds r before]
    refine Machine.rowAt_congr fun k => touches.part (c := .simd) ?_ (fun j eq => absurd eq (direct j))
      (small_of_fits result.fits) k
    rintro rfl
    cases memory
  unfold matrixProduct
  refine (acquire_produces start .simd _ fun _ _ _ _ _ _ _ _ => trivial).bind ?_
  rintro x t ⟨h₁, a, grants⟩
  refine (acquire_produces h₁ .simd _ fun _ _ _ _ _ _ _ _ => trivial).bind ?_
  rintro y t ⟨h₂, b, grants'⟩
  have locationX : x.location = .simdRegister a := grants.location
  have locationY : y.location = .simdRegister b := grants'.location
  have other : a ≠ b := by
    rintro rfl
    refine grants'.misses (a := x.location) (d := .simd) (j := a) (by simp) ?_ locationY
    rw [locationX]
    rfl
  have ownA : P.Owns ([] ++ [x] ++ [y]) .simd a := ⟨grants.pool, .inl ⟨x, by simp, locationX⟩⟩
  have ownB : P.Owns ([] ++ [x] ++ [y]) .simd b := ⟨grants'.pool, .inl ⟨y, by simp, locationY⟩⟩
  dsimp only
  rw [locationX, locationY]
  refine (forRows_produces lhs.ty.elementCount (fun i m => ∀ r < i, m.rowAt L out r = W r)
    (h₂.mono fun _ _ _ r none => absurd none (Nat.not_lt_zero r)) fun i small t h' => ?_).bind fun _ t h₃ => ?_
  · have stable (m m' : Machine) (id : Nat) := touched (i := i) m m' id
    refine (lanes_produces (G := fun m => (∀ r < i, m.rowAt L out r = W r) ∧ m.simd a = Lanes.weighted 0
      (fun j => m₀.part L lhs.location (4 * i + j)) (m₀.rowAt L rhs.location)) h' (o := .xorps) rfl ownA
        (.inr (by rintro _ ⟨⟩)) (by rintro _ ⟨⟩) (fun m _ _ => has_simd m L a)
        fun m m' _ _ holds touches computed => ⟨stable m m' a touches holds, ?_⟩).bind fun _ t h' => ?_
    · rw [computed, Machine.lanesAt_simd, Lanes.map2_xor_self]
      rfl
    refine (forRows_produces lhs.ty.elementCount (fun j m => (∀ r < i, m.rowAt L out r = W r) ∧ m.simd a = Lanes.weighted j
      (fun j => m₀.part L lhs.location (4 * i + j)) (m₀.rowAt L rhs.location)) h' fun j below t h' => ?_).bind fun _ t h' => ?_
    · have lane : j < 4 := by rcases elementCount_of_isMatrix matrix with eq | eq <;> omega
      obtain ⟨memoryX, directX⟩ := left.direct matrix
      obtain ⟨memoryY, directY⟩ := right.direct matrix
      rw [show i * 16 + j * 4 = 16 * i + 4 * j by omega, Nat.mul_comm j 16]
      exact weigh_produces h' ownA ownB other (.inl trivial) (.inl trivial)
        (Location.offsetBy_ne_location memoryX .general · _) (Location.offsetBy_ne_location memoryY .general · _)
        (fun conduct comes => conduct.element comes left matrix spared₁ small lane)
        (fun conduct comes => conduct.row comes right matrix spared₂ base locals below) stable
    · rw [Nat.mul_comm i 16]
      have admits := result.receives.admits ok i (by rw [rowCount, if_pos matrix]; exact small)
      rw [width_of_matrix matrix] at admits
      refine deliver_produces h' .packed a (admits.mono (List.nil_subset _)) (fun m comes _ => ?_)
        fun m m' _ holds touches moved r before => ?_
      · have backs := (result.keeps.backs ok memory direct).offsetBy (row_inside matrix small)
        exact (comes.starts.suits.back h'.leads.within).has ok backs (by decide) (h'.size comes)
      rcases Nat.lt_succ_iff_lt_or_eq.1 before with before | rfl
      · rw [touches.rowAt memory direct (Nat.ne_of_lt before)]
        exact holds.1 r before
      · refine Lanes.ext_get fun k word => ?_
        rw [← Machine.lanesAt_offsetBy memory direct, Machine.get_lanesAt _ _ _ word, moved k word]
        exact congrArg (Lanes.get · k) holds.2
  refine (release_last_produces (c := .simd) h₃ locationY fun m m' _ touches => touched m m' b touches).bind fun _ t h₄ => ?_
  exact release_last_produces (c := .simd) h₄ locationX fun m m' _ touches => touched m m' a touches

end Lower

end Shading
