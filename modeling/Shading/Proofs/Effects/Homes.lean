import Shading.Proofs.Effects.Products

/-!
# Operands and results at home

Outside computed elements, operands and results are in registers or in memory
at known offsets (`LoweringState.Homes`). Two of them with nothing in common do
not disturb each other: what an operation may write is the home of its result,
and homes apart from it are withheld (`Homes.withholds`). A vector is read as
four lanes, and a matrix row by row (`Homes.row`).

An operation computes in the register of its result or in a leased one, which is
none of the operands (`Lower.ComputesIn`), and what has been written of the
result before stays there.
-/

namespace Shading

open LoweringState Permit

/-- The type of the rows of a value that is moved in rows. -/
def Ty.rowTy (t : Ty) : Ty := if t.isMatrix then t.element?.getD t else t

theorem Ty.size_rowTy {t : Ty} (vector : t.isVector = true) : t.rowTy.size = 16 := by
  cases t <;> first | rfl | cases vector

theorem Ty.isVector_rowTy {t : Ty} (vector : t.isVector = true) : t.rowTy.isVector = true := by
  cases t <;> first | rfl | cases vector

theorem Lower.rowCount_of_not_isMatrix {t : Ty} (one : t.isMatrix = false) : rowCount t = 1 := by
  rw [rowCount, one]
  rfl

/-- Parts of places that have nothing in common have nothing in common. -/
theorem Location.Apart.offsetBy {l k : Location} {n size b j : Nat} (h : l.Apart n size k) (inside : b + j ≤ n) :
    (l.offsetBy b).Apart j size k := by
  cases l <;> cases k <;> simp only [Apart, Location.offsetBy] at h ⊢ <;> first | exact h | omega

namespace LoweringState

variable {s t : LoweringState} {ty ty' : Ty} {l out : Location} {L n : Nat} {m m₀ : Machine}

/-- **A home for a value of a type**: a register, or memory at a known offset,
that a state keeps. -/
structure Homes (s : LoweringState) (ty : Ty) (l : Location) : Prop where
  home : l.IsHome
  fits : l.Fits ty
  keeps : s.Keeps ty.size l

namespace Homes

theorem direct (h : s.Homes ty l) (id : Nat) : l ≠ .indirectRegister id := by
  rintro rfl
  exact h.home

theorem whole (h : s.Homes ty l) (id shift : Nat) : l ≠ .registerLane id shift := by
  rintro rfl
  exact h.home

theorem leads {registers : List Location} {held : List Lease} (h : s.Homes ty l) (leads : s.Leads t registers held) :
    t.Homes ty l :=
  ⟨h.home, h.fits, leads.keeps h.keeps⟩

theorem supplies (h : s.Homes ty l) (L : Nat) (m : Machine) : s.Supplies L m ty l :=
  ⟨h.fits, h.whole, h.keeps, fun id eq => absurd eq (h.direct id)⟩

theorem receives (h : s.Homes ty l) : s.Receives ty l :=
  ⟨h.fits, h.keeps, fun id eq => absurd eq (h.direct id)⟩

/-- A home is a register or in memory. -/
theorem isRegister_or (h : s.Homes ty l) : l.isRegister = true ∨ l.isInMemory = true := by
  have home := h.home
  cases l <;> first | exact .inl rfl | exact .inr rfl | exact home.elim

theorem backs (ok : s.Ok) (h : s.Homes ty l) (memory : l.isInMemory = true) : s.Backs ty.size l :=
  h.keeps.backs ok memory h.direct

theorem reads (h : s.Homes ty l) (P : Permit) : P.Reads l := .inr h.direct

/-- **Homes that have nothing in common** share no byte. -/
theorem not_takes (ok : s.Ok) (h : s.Homes ty l) (h' : s.Homes ty' out) (suits : s.Suits L m)
    (apart : l.Apart ty.size ty'.size out) {k : Nat} (taken : m.takes L l ty.size k) : ¬ m.takes L out ty'.size k := by
  have top := Nat.le_trans ok.layout.globalTop suits.globals
  have keeps := h.keeps
  have keeps' := h'.keeps
  intro taken'
  cases l with
  | globalMemory o =>
    obtain ⟨below, -⟩ := keeps
    cases out with
    | globalMemory o' =>
      simp only [Machine.takes, Location.Apart] at taken taken' apart
      omega
    | localMemory o' =>
      simp only [Machine.takes, globalTop] at taken taken' below
      omega
    | indirectRegister id => exact h'.direct id rfl
    | _ => exact taken'
  | localMemory o =>
    cases out with
    | globalMemory o' =>
      obtain ⟨below, -⟩ := keeps'
      simp only [Machine.takes, globalTop] at taken taken' below
      omega
    | localMemory o' =>
      simp only [Machine.takes, Location.Apart] at taken taken' apart
      omega
    | indirectRegister id => exact h'.direct id rfl
    | _ => exact taken'
  | indirectRegister id => exact h.direct id rfl
  | _ => exact taken

/-- **A home apart from the place of a result** is withheld while the result is
computed. -/
theorem withholds {ok : s.Ok} (h : s.Homes ty l) (result : s.Homes ty' out) (suits : s.Suits L m)
    (apart : l.Apart ty.size ty'.size out) : (Permit.result s ok out ty'.size).Withholds L m ty.size l := by
  refine (h.supplies L m).withholds (P := Permit.result s ok out ty'.size) suits (fun c id k eq permitted => ?_)
    (fun id eq => absurd eq (h.direct id)) fun k taken l' n' permitted written => ?_
  · subst eq
    rcases permitted.2 with rfl | ⟨-, shift, rfl, -⟩
    · cases c <;> exact apart rfl
    · exact result.whole id shift rfl
  · exact not_takes ok h result suits apart taken (Machine.takes_of_permitted ok permitted written)

/-- **The rows of a home** are homes. -/
theorem row (h : s.Homes ty l) (vector : ty.isVector = true) {r : Nat} (small : r < Lower.rowCount ty) :
    s.Homes ty.rowTy (l.offsetBy (16 * r)) := by
  have fits := h.fits
  have keeps := h.keeps
  have home := h.home
  have sixteen : BumpAllocator.alignmentOf ty.size = 16 ∧ BumpAllocator.alignmentOf ty.rowTy.size = 16 := by
    cases ty <;> first | exact ⟨rfl, rfl⟩ | cases vector
  have inside : 16 * r + 16 ≤ ty.size := by
    cases ty <;> first | cases vector; done | skip
    all_goals simp only [Lower.rowCount, Ty.isMatrix, Ty.elementCount, Ty.size] at small ⊢
    all_goals simp at small
    all_goals omega
  have rowSize := Ty.size_rowTy vector
  cases l with
  | globalMemory o =>
    refine ⟨trivial, ⟨by rw [rowSize]; decide, ?_⟩, ?_, fun x hx => ?_⟩
    · have aligned := fits.2
      rw [sixteen.1] at aligned
      rw [sixteen.2]
      omega
    · have below := keeps.1
      rw [rowSize]
      omega
    · have clear := keeps.2 x hx
      rw [rowSize]
      omega
  | localMemory o =>
    refine ⟨trivial, ⟨by rw [rowSize]; decide, ?_⟩, ?_⟩
    · have aligned := fits.2
      rw [sixteen.1] at aligned
      rw [sixteen.2]
      omega
    · have below : o + ty.size ≤ s.localTop := keeps
      change o + 16 * r + ty.rowTy.size ≤ s.localTop
      rw [rowSize]
      omega
  | simdRegister id =>
    refine ⟨trivial, ⟨?_, fits.2⟩, keeps⟩
    have simd := fits.1
    cases ty <;> first | rfl | cases simd
  | register id =>
    have general := fits.1
    cases ty <;> first | cases vector; done | cases general
  | none | registerLane id shift | indirectRegister id => exact home.elim

/-- The words of a row. -/
theorem part_row (h : s.Homes ty l) (vector : ty.isVector = true) {r : Nat} (small : r < Lower.rowCount ty)
    (k : Nat) : m.part L (l.offsetBy (16 * r)) k = m.part L l (4 * r + k) := by
  rcases h.isRegister_or with register | memory
  · have one : r = 0 := by
      have fits := h.fits
      have matrix : ty.isMatrix = false := by
        cases l with
        | register id | simdRegister id =>
          obtain ⟨class_, -⟩ := fits
          cases ty <;> first | rfl | cases class_
        | _ => cases register
      rw [Lower.rowCount_of_not_isMatrix matrix] at small
      omega
    subst one
    rw [Nat.mul_zero, offsetBy_zero, Nat.zero_add]
  · rw [show 16 * r = 4 * (4 * r) by omega, Machine.part_offsetBy memory h.direct]

/-- The place of a vector or of a row is aligned. -/
theorem straight (h : s.Homes ty l) (vector : ty.isVector = true) (base : m.base % 16 = 0) (locals : L % 16 = 0) :
    m.Straight16 L l :=
  (h.supplies L m).straight vector base locals fun id eq => absurd eq (h.direct id)

/-- A home is an operand as long as code keeps to a permit. -/
theorem has {P : Permit} {s₁ : LoweringState} {registers : List Location} {held : List Lease} {rsqrt : Word → Word}
    (h : P.start.Homes ty l) (conduct : Conduct P s₁ t registers held) (comes : P.Comes t rsqrt L m₀ m) :
    m.Has L ty.size l := by
  rcases h.isRegister_or with register | memory
  · cases l with
    | register id => exact Machine.has_location .general id
    | simdRegister id => exact Machine.has_location .simd id
    | _ => cases register
  · exact (comes.starts.suits.back conduct.leads.within).has P.ok (h.backs P.ok memory) (size_of_fits h.fits)
      (conduct.size comes)

/-- Slots that registers are saved in leave homes alone. -/
theorem part_slot {u : LoweringState} (ok : s.Ok) (h : s.Homes ty l) (later : s.globalTop ≤ u.globalTop) {m' : Machine}
    {o : Nat} (touches : m.Touches L (.globalMemory o) n m') (above : u.globalTop ≤ o) (below : o + n ≤ L) {k : Nat}
    (inside : 4 * k + 4 ≤ ty.size) : m'.part L l k = m.part L l k := by
  have at_ : m'.offsetAt L l = m.offsetAt L l := by
    rw [Machine.offsetAt, Machine.offsetAt, touches.base,
      Machine.addressOf_congr touches.base l fun id eq => absurd eq (h.direct id)]
  have fits := h.fits
  rcases h.isRegister_or with register | memory
  · cases l with
    | register id => exact congrArg UInt64.toUInt32 (touches.general id (Regime.pool_lt fits.2) (by rintro ⟨⟩))
    | simdRegister id => exact congrArg (Lanes.get · k) (touches.simd id (Regime.pool_lt fits.2) (by rintro ⟨⟩))
    | _ => cases register
  · have backs := h.backs ok memory
    refine Machine.part_congr memory at_ fun j low high => touches.bytes j fun taken => ?_
    cases l with
    | globalMemory x =>
      have backs : x + ty.size ≤ s.globalTop := backs
      simp only [Machine.offsetAt, Machine.addressOf, Machine.takes] at low high taken
      omega
    | localMemory x =>
      simp only [Machine.offsetAt, Machine.addressOf, Machine.takes] at low high taken
      omega
    | indirectRegister id => exact h.direct id rfl
    | _ => cases memory

/-- Another register leaves a home alone. -/
theorem part_register (h : s.Homes ty l) {m' : Machine} {c : RegisterClass} {id : Nat}
    (touches : m.Touches L (c.location id) n m') (other : c.location id ≠ l) (k : Nat) : m'.part L l k = m.part L l k :=
  touches.part other (fun j eq => absurd eq (h.direct j)) (small_of_fits h.fits) k

/-- A row that is written leaves those before it alone, which are in memory. -/
theorem part_before (h : s.Homes ty out) (vector : ty.isVector = true) {i r : Nat} (before : i < r)
    (small : r < Lower.rowCount ty) {m' : Machine} (touches : m.Touches L (out.offsetBy (16 * r)) 16 m') {k : Nat}
    (lane : k < 4) : m'.part L (out.offsetBy (16 * i)) k = m.part L (out.offsetBy (16 * i)) k := by
  have matrix : ty.isMatrix = true := by
    cases matrix : ty.isMatrix with
    | true => rfl
    | false =>
      rw [Lower.rowCount_of_not_isMatrix matrix] at small
      omega
  obtain ⟨memory, direct⟩ := (h.supplies L m).direct matrix
  have small' : i < Lower.rowCount ty := Nat.lt_trans before small
  have row := touches.rowAt memory direct (Nat.ne_of_lt before)
  rw [h.part_row vector small', h.part_row vector small', ← Machine.get_rowAt _ _ _ _ lane,
    ← Machine.get_rowAt _ _ _ _ lane, row]

end Homes

end LoweringState

/-! ## Operands and results of code that keeps to a permit -/

/-- **An operand that code reads as it was.** -/
structure Permit.Offers (P : Permit) (L : Nat) (m₀ : Machine) (v : Value) : Prop where
  homes : P.start.Homes v.ty v.location
  withheld : P.start.Suits L m₀ → P.Withholds L m₀ v.ty.size v.location

/-- **The place of a result** of a type, which code may write. -/
structure Permit.Awaits (P : Permit) (s₁ : LoweringState) (ty : Ty) (out : Location) : Prop where
  homes : P.start.Homes ty out
  admits : P.AdmitsValue s₁ [] out ty

/-- No memory outside the local region may be written. -/
def Permit.Quiet (P : Permit) (L : Nat) (m₀ : Machine) : Prop := ∀ l n k, P.memory l n → m₀.takes L l n k → L ≤ k

namespace LoweringState.Homes

variable {s : LoweringState} {ty : Ty} {out : Location} {L : Nat} {m₀ : Machine} {v : Value} {ok : s.Ok}

/-- A result is awaited in its home. -/
theorem awaits (h : s.Homes ty out) : (Permit.result s ok out ty.size).Awaits s ty out :=
  ⟨h, h.receives.admits ok⟩

/-- A home apart from that of the result offers an operand. -/
theorem offers (h : s.Homes v.ty v.location) (result : s.Homes ty out) (apart : v.location.Apart v.ty.size ty.size out) :
    (Permit.result s ok out ty.size).Offers L m₀ v :=
  ⟨h, fun suits => h.withholds result suits apart⟩

/-- Any home offers an operand where nothing may be written. -/
theorem offers_still (h : s.Homes v.ty v.location) : (Permit.still s ok).Offers L m₀ v :=
  ⟨h, fun suits => (h.supplies L m₀).withholds (P := Permit.still s ok) suits (fun _ _ _ _ permitted => permitted)
    (fun _ _ permitted => permitted) fun _ _ _ _ permitted => permitted.elim⟩

/-- A result that is not in global memory leaves the constants alone. -/
theorem quiet (h : s.Homes ty out) (other : ∀ o, out ≠ .globalMemory o) :
    (Permit.result s ok out ty.size).Quiet L m₀ := by
  intro l n k permitted taken
  have taken := Machine.takes_of_permitted ok permitted taken
  cases out with
  | globalMemory o => exact absurd rfl (other o)
  | localMemory o =>
    simp only [Machine.takes] at taken
    omega
  | indirectRegister id => exact absurd rfl (h.direct id)
  | _ => exact taken.elim

end LoweringState.Homes

namespace Permit.Offers

variable {P : Permit} {s₁ t : LoweringState} {registers : List Location} {held : List Lease} {rsqrt : Word → Word} {L : Nat}
  {m₀ m : Machine} {v : Value}

/-- **A word that is an operand** is read as it was. -/
theorem word (h : P.Offers L m₀ v) (conduct : Conduct P s₁ t registers held) (comes : P.Comes t rsqrt L m₀ m)
    (size : v.ty.size = 4) (notHeld : ∀ x ∈ held, x.location ≠ v.location) :
    m.Has L 4 v.location ∧ m.part L v.location 0 = m₀.part L v.location 0 := by
  have withheld := h.withheld (comes.starts.suits.back conduct.leads.within)
  rw [size] at withheld
  exact ⟨conduct.has comes withheld, conduct.part comes withheld notHeld (by decide) (by decide)⟩

theorem number (h : P.Offers L m₀ v) (conduct : Conduct P s₁ t registers held) (comes : P.Comes t rsqrt L m₀ m)
    (size : v.ty.size = 4) (notHeld : ∀ x ∈ held, x.location ≠ v.location) : m.number L v = m₀.number L v := by
  rw [Machine.number, Machine.number, (h.word conduct comes size notHeld).2]

/-- A row of an operand is withheld as the operand is. -/
theorem withheldRow (h : P.Offers L m₀ v) (suits : P.start.Suits L m₀) (vector : v.ty.isVector = true) {r : Nat}
    (small : r < Lower.rowCount v.ty) : P.Withholds L m₀ 16 (v.location.offsetBy (16 * r)) := by
  have withheld := h.withheld suits
  have row := h.homes.row vector small
  have inside : 16 * r + 16 ≤ v.ty.size := by
    have inside := row_within (Nat.ne_of_gt (size_of_fits h.homes.fits)) small
    rwa [Lower.width_of_vector vector] at inside
  have size := Ty.size_rowTy vector
  rcases row.isRegister_or with register | memory
  · have same : v.location.offsetBy (16 * r) = v.location := by
      cases l : v.location <;> rw [l] at register <;> first | rfl | cases register
    rw [same]
    exact ⟨withheld.toHas.mono (by omega), withheld.register, withheld.address,
      fun memory k low high => withheld.kept memory k low (by omega)⟩
  · have backs := row.backs P.ok memory
    rw [size] at backs
    have inMemory : v.location.isInMemory = true := by
      cases l : v.location <;> rw [l] at memory <;> first | rfl | cases memory
    refine ⟨suits.has P.ok backs (by decide) rfl, fun c id eq => ?_, fun id eq => absurd eq (row.direct id), fun _ k low high => ?_⟩
    · exact absurd eq (Location.offsetBy_ne_location inMemory c id _)
    · have at_ : m₀.offsetAt L (v.location.offsetBy (16 * r)) = m₀.offsetAt L v.location + 16 * r := by
        have spans := (withheld.spans inMemory).1
        rw [Machine.offsetAt, Machine.offsetAt, Machine.addressOf_offsetBy inMemory h.homes.direct]
        omega
      exact withheld.kept inMemory k (by omega) (by omega)

/-- **Four lanes that are an operand** are read as they were. -/
theorem lanes (h : P.Offers L m₀ v) (conduct : Conduct P s₁ t registers held) (comes : P.Comes t rsqrt L m₀ m)
    (vector : v.ty.isVector = true) (base : m₀.base % 16 = 0) (locals : L % 16 = 0) {r : Nat}
    (small : r < Lower.rowCount v.ty) (notHeld : ∀ x ∈ held, x.location ≠ v.location.offsetBy (16 * r)) :
    m.Has L 16 (v.location.offsetBy (16 * r)) ∧ m.Straight16 L (v.location.offsetBy (16 * r)) ∧
      m.lanesAt L (v.location.offsetBy (16 * r)) = m₀.lanesAt L (v.location.offsetBy (16 * r)) := by
  have withheld := h.withheldRow (comes.starts.suits.back conduct.leads.within) vector small
  refine ⟨conduct.has comes withheld, fun memory => ?_, conduct.lanesAt comes withheld notHeld⟩
  rw [conduct.addressOf comes withheld]
  exact (h.homes.row vector small).straight (Ty.isVector_rowTy vector) base locals memory

/-- An operand is none of the leased registers that it was to be avoided
for. -/
theorem float (h : P.Offers L m₀ v) (other : v.ty.isIntegral = false) (id : Nat) : v.location ≠ .register id := by
  intro eq
  have fits := h.homes.fits
  rw [eq] at fits
  obtain ⟨class_, -⟩ := fits
  revert other class_
  generalize v.ty = ty
  cases ty <;> decide

theorem class_eq (h : P.Offers L m₀ v) (d : RegisterClass) (j : Nat) (eq : v.location = d.location j) :
    d = (Width.ofTy v.ty).registerClass :=
  (class_of_fits (eq ▸ h.homes.fits)).1

end Permit.Offers

/-- A place that has nothing in common with a home is another one. -/
theorem Location.Apart.ne {l out : Location} {n size : Nat} (h : l.Apart n size out) (home : l.IsHome) (positive : 0 < n)
    (other : 0 < size) : l ≠ out := by
  rintro rfl
  cases l <;> simp only [Apart] at h <;> first | exact h rfl | exact home | omega

namespace Lower

variable {P : Permit} {s₁ s t : LoweringState} {registers : List Location} {held : List Lease}
  {rsqrt : Word → Word} {L : Nat} {m₀ : Machine} {F G : Machine → Prop} {c : RegisterClass} {id : Nat}

/-- **The register that a result is computed in**: that of the result, or a
leased one. It is none of the other places that were to be avoided. -/
structure ComputesIn (P : Permit) (held : List Lease) (c : RegisterClass) (out : Location) (avoid : List Location)
    (acc : Location) (lease : Option Lease) (id : Nat) : Prop where
  at_ : acc = c.location id
  owns : P.Owns (held ++ lease.toList) c id
  which : lease = none ∧ out = c.location id ∨ ∃ x, lease = some x ∧ x.location = c.location id ∧ x.location ≠ out
  clear : ∀ a ∈ avoid, a ≠ out → c.location id ≠ a ∧ ∀ x ∈ lease.toList, x.location ≠ a

/-- **A result is going to be computed in a register.** -/
theorem accumulate_produces (h : Produces P s₁ s registers held rsqrt L m₀ F) {out : Location} {avoid : List Location}
    (mem : out ∈ avoid) (own : out.isRegister = true → P.Own held c out)
    (stable : ∀ m m' o n, s.globalTop ≤ o → o + n ≤ L → m.Touches L (.globalMemory o) n m' → F m → F m') :
    Results (accumulator out c avoid) s fun r t => Produces P s₁ t registers (held ++ r.2.toList) rsqrt L m₀ F ∧
      ∃ id, ComputesIn P held c out avoid r.1 r.2 id := by
  refine (accumulator_produces h avoid own stable).mono ?_
  rintro ⟨acc, lease⟩ t ⟨h₁, id, at_, owns, which⟩
  refine ⟨h₁, id, at_, owns, ?_, fun a ha other => ?_⟩
  · rcases which with which | ⟨x, some, grants⟩
    · exact .inl which
    · exact .inr ⟨x, some, grants.location, grants.apart mem⟩
  · rcases which with ⟨none, same⟩ | ⟨x, some, grants⟩
    · refine ⟨fun eq => other (same.trans eq).symm, fun x hx => ?_⟩
      rw [show lease = Option.none from none] at hx
      cases hx
    · refine ⟨grants.location ▸ grants.apart ha, fun y hy => ?_⟩
      rw [show lease = Option.some x from some, Option.toList_some, List.mem_singleton] at hy
      exact hy ▸ grants.apart ha

/-- **The result is moved to its home**, and what is stable stays as it was. -/
theorem ComputesIn.settle_produces {lease : Option Lease} {acc out : Location} {avoid : List Location} {w : Width}
    (a : ComputesIn P held w.registerClass out avoid acc lease id)
    (h : Produces P s₁ s registers (held ++ lease.toList) rsqrt L m₀ F) (admits : P.Admits s₁ held out w.registerClass (4 * w.words))
    (has : ∀ m, P.Comes s rsqrt L m₀ m → F m → m.Has L (4 * w.words) out) (direct : ∀ j, out ≠ .indirectRegister j)
    (small : ∀ d j, out = RegisterClass.location d j ∨ out = .indirectRegister j → j < 8)
    (step : ∀ m m', F m → (m' = m ∨ ∃ m₁, m.Touches L out (4 * w.words) m₁ ∧
        m₁.Touches L (w.registerClass.location id) 0 m') →
      (∀ k < w.words, m'.part L out k = m.part L (w.registerClass.location id) k) → G m') :
    Results (settle out acc lease w) s fun _ t => Produces P s₁ t registers held rsqrt L m₀ G :=
  Lower.settle_produces h a.at_ a.which admits has (fun j eq => absurd eq (direct j)) small step

end Lower

end Shading
