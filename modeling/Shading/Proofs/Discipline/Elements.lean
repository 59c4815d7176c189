import Shading.Proofs.Discipline.Operators

/-!
# Elements along a course

An element of known number stands in the slot of its container. The address
of any other element is computed in a register that is held from then on: that
of the container, and so many strides. Nothing is known of the index, so it is
a matter of the run whether the address leads to an element
(`Regime.Contained`).
-/

namespace Shading

open LoweringState Regime

namespace Lower

variable {R : Regime} {K : Nat → Prop} {s₀ s t u : LoweringState} {registers : List Location}
  {held : List Lease} {d : Declarations} {f : Option FunctionId} {v w : Value} {e : Expr}
  {b whole : Bool}

/-! ## Elements -/

/-- A vector is an element of a matrix only. -/
theorem matrix_of_element {ty element : Ty} (has : ty.element? = some element)
    (vector : element.isVector = true) : ty.isMatrix = true ∧ ty.stride = 16 ∧ 16 ≤ ty.size := by
  rcases element_cases has with ⟨-, -, -, -, rfl⟩ | ⟨-, matrix, stride, wide, -⟩
  · exact absurd vector (by decide)
  · exact ⟨matrix, stride, wide⟩

/-- **The address of a container at a known offset is added** to the
distance of an element. -/
theorem addBase_results {α : Type} {container : Location} {ty element : Ty} {b : Bool} {r o : Nat}
    {region : Region} {avoid : List Location} {k : Unit → Lower α} {Q : α → LoweringState → Prop}
    (poise : R.Poise K d f s) (place : container.place? = some (region, o))
    (stands : R.Stands K s b ty container) (has : ty.element? = some element)
    (pool : r ∈ RegisterClass.general.pool) (free : ¬ K r) (named : .register r ∈ avoid)
    (exact : element.isVector = true → R.Shows s (R.Exact r))
    (next : ∀ t, R.Course K s t [] [] → (element.isVector = true → R.Shows t (R.Exact r)) →
      Results (k ()) t Q) :
    Results (do
      let base ← acquire .general avoid
      emit .lea base.location container
      emit .add64 (.register r) base.location
      let done ← release base
      k done : Lower α) s Q := by
  refine (acquire_results poise.ready .general avoid).bind fun x t ⟨course, calm, i, grants⟩ => ?_
  have ready := course.ready poise.ready
  have location : x.location = .register i := grants.location
  have other : i ≠ r := fun same => grants.clear (mem_registersOf.2 ⟨_, named, by rw [same]; rfl⟩)
  have new : ¬ K i := fun held => grants.notLeased (poise.ready.held i held)
  have spot : R.Place t false 0 (container.offsetBy 0) :=
    (stands.read.course poise.ready course.toPath).place place (Nat.zero_le _) nofun
  rw [offsetBy_zero] at spot
  rw [location]
  refine (lea_results ready grants.pool place spot new).bind fun _ t₁ ⟨e₁, _, exact₁⟩ => ?_
  have ready₁ := e₁.course.ready ready
  have course₁ := course.step e₁.course
  have known (u : LoweringState) (q : Nat) : R.Known u (.general q) := poise.identical.known _
  have added := add64_results ready₁ pool grants.pool (known _ _) (known _ _) free
  have exactly : Results (emit .add64 (.register r) (.register i)) t₁ fun _ u =>
      element.isVector = true → R.Shows u (R.Exact r) := by
    by_cases vector : element.isVector = true
    · obtain ⟨-, -, wide⟩ := matrix_of_element has vector
      have aligned := stands.aligned place
      rw [BumpAllocator.alignmentOf_wide wide] at aligned
      have lt := pool_lt pool
      exact (add64_exact ready₁ pool grants.pool (known _ _) (known _ _) free
        (e₁.exact r lt other.symm (calm r lt (exact vector))) (exact₁ aligned)).mono fun _ _ h _ => h
    · exact fun _ _ _ vector' => absurd vector' vector
  refine (added.and exactly).bind fun _ t₂ ⟨e₂, exact₂⟩ => ?_
  have course₂ : R.Course K s t₂ [] ([] ++ [x]) := course₁.step e₂.course
  refine (release_results course₂ poise.ready (by simp)).bind fun _ u ⟨course₃, rel⟩ => ?_
  refine next u (by simpa using course₃) fun vector => rel.exact r (pool_lt pool) ?_ (exact₂ vector)
  rw [location]
  exact fun same => other (Location.register.inj same)

/-- **The distance of an element is computed**: the index is widened, and
multiplied by the stride. -/
theorem distance_results {α : Type} {ty element : Ty} {l : Location} {r : Nat} {k : Unit → Lower α}
    {Q : α → LoweringState → Prop} (poise : R.Poise K d f s) (has : ty.element? = some element)
    (pool : r ∈ RegisterClass.general.pool) (free : ¬ K r) (source : R.Source s .general 1 l)
    (next : ∀ t, R.Course K s t [] [] → (element.isVector = true → R.Shows t (R.Exact r)) →
      Results (k ()) t Q) :
    Results (do
      transfer .dword (.register r) l
      emit .movsxd (.register r) (.register r)
      let done ← emit .imulImm64 (.register r) (.register r) (wordBytes ty.stride)
      k done : Lower α) s Q := by
  have known (u : LoweringState) (q : Nat) : R.Known u (.general q) := poise.identical.known _
  have knows (u : LoweringState) (n : Nat) (l : Location) : R.Knows u n l := fun p _ => poise.identical.known p
  refine (fetch_results poise.ready .dword pool source).bind fun _ t₁ e₁ => ?_
  have poise₁ := poise.course e₁.course.toPath
  refine (computes_results poise₁.ready (rfl : Opcode.movsxd.shape? = some ⟨.general, .general, 0, 1, 1⟩) pool
    (knows _ _ _) ⟨.inl ⟨r, pool, rfl⟩, knows _ _ _⟩ (fun h => absurd h (by decide))
    fun _ _ => free).bind fun _ t₂ e₂ => ?_
  have poise₂ := poise₁.course e₂.course.toPath
  -- The stride of a matrix is that of its rows, so the distance of a row is exact.
  have exactly : Results (emit .imulImm64 (.register r) (.register r) (wordBytes ty.stride)) t₂
      fun _ u => element.isVector = true → R.Shows u (R.Exact r) := by
    by_cases vector : element.isVector = true
    · rw [(matrix_of_element has vector).2.1]
      exact (imulImm64_exact poise₂.ready pool (known _ _) free).mono fun _ _ h _ => h
    · exact fun _ _ _ vector' => absurd vector' vector
  refine ((imulImm64_results poise₂.ready pool ty.stride (known _ _) free).and exactly).bind ?_
  rintro _ t₃ ⟨e₃, exact₃⟩
  exact next t₃ ((e₁.course.step e₂.course).step e₃.course) exact₃

/-- A value that is not behind an address has its lease elsewhere. -/
theorem lease_ne_of_leased {r : Nat} (leased : v.Leased) (clear : v.location ≠ .indirectRegister r) :
    ∀ y ∈ v.lease, y.location ≠ .register r := fun y hy eq => by
  rcases leased with ⟨none, -⟩ | ⟨z, q, some, register, location⟩
  · rw [none] at hy
    cases hy
  · rw [some] at hy
    cases hy
    rw [register] at eq
    cases eq
    exact clear location

/-- **The address of an element is complete**: the index and the container are
given up, and the register of the address is kept. -/
theorem address_gives {container j : Value} {x : Lease} {r : Nat} {element : Ty} {w : Bool}
    (poise : R.Poise K d f s) (course : R.Course K s t registers (container.lease.toList ++ j.lease.toList))
    (steps : R.Course (With (With K container) j) t u [] [x]) (leased : container.Leased) (leased' : j.Leased)
    (location : x.location = .register r) (pool : r ∈ RegisterClass.general.pool)
    (free : ¬ With (With K container) j r) (has : container.ty.element? = some element)
    (exact : element.isVector = true → R.Shows u (R.Exact r)) :
    Results (do
      finish j
      finish container
      return elementAt x element : Lower Value) u fun v u =>
        ∃ rs address, v = elementAt address element ∧ v.Leased ∧ R.Course K s u rs v.lease.toList ∧
          R.Stands (With K v) u w element v.location ∧ (element.isVector = true → R.ExactAt u v.location) := by
  have number : x.id = r := by
    rw [Lease.id, location]
    rfl
  have lt := pool_lt pool
  have all := course.trans (steps.weaken fun q h => .inl (.inl h))
  have order : (container.lease.toList ++ j.lease.toList ++ [x]).Perm
      (([x] ++ container.lease.toList) ++ j.lease.toList) := by
    rw [List.append_assoc [x]]
    exact List.perm_append_comm
  refine (finish_results (all.perm order) poise.ready).bind ?_
  rintro _ t₁ ⟨course₁, keeps₁⟩
  refine (finish_results course₁ poise.ready).bind ?_
  rintro _ t₂ ⟨course₂, keeps₂⟩
  obtain ⟨storage, whole⟩ := element_storage has
  refine .pure ⟨_, x, rfl, .inr ⟨x, r, rfl, location, by rw [elementAt, number]⟩, course₂, ?_, fun vector q eq => ?_⟩
  · exact ⟨⟨storage, whole, number ▸ pool⟩, trivial, by rintro _ _ ⟨⟩, fun q eq => ⟨.inr eq, poise.identical.known _⟩⟩
  · -- Neither the index nor the container is behind the register of the address.
    have eq : x.id = q := Location.indirectRegister.inj eq
    rw [← eq, number]
    exact keeps₂ r lt (lease_ne_of_leased leased fun h => free (.inl (.inr h)))
      (keeps₁ r lt (lease_ne_of_leased leased' fun h => free (.inr h)) (exact vector))

/-- **An address is computed** into a register that is kept, and the
registers of the container and the index are given up. -/
theorem indexMemory_gives (container : Value) {element : Ty} {index : Lower Value} {i : Expr} {b w : Bool}
    (poise : R.Poise K d f s) (course : R.Course K s t registers container.lease.toList)
    (leased : container.Leased) (memory : container.location.isInMemory = true)
    (stands : R.Stands (With K container) t b container.ty container.location)
    (has : container.ty.element? = some element) (integral : i.ty = .int)
    (hi : R.GivesFrom d f false true index i) :
    Results (indexMemory container container.ty.stride element index) t fun v u =>
      ∃ rs address, v = elementAt address element ∧ v.Leased ∧ R.Course K s u rs v.lease.toList ∧
        R.Stands (With K v) u w element v.location ∧ (element.isVector = true → R.ExactAt u v.location) := by
  have poise₁ := poise.join course.toPath leased
  have valued : i.ty ≠ .void := by rw [integral]; decide
  refine (hi _ _ poise₁).bind fun j t₂ g => ?_
  obtain ⟨rs, course₂⟩ := g.course
  have poise₂ := poise₁.join course₂.toPath g.leased
  have input := (poise₂.reads (g.stands valued) (g.operand rfl valued)).whole .general
    (by rw [g.ty, integral]; rfl)
  rw [g.ty, integral] at input
  refine (acquire_results poise₂.ready .general _).bind ?_
  rintro x t₃ ⟨course₃, -, r, grants⟩
  have target : x.location = .register r := grants.location
  have free : ¬ With (With K container) j r := fun held => grants.notLeased (poise₂.ready.held r held)
  have poise₃ := poise₂.course course₃.toPath
  rw [target]
  -- The index is multiplied into the register of the element; what remains is to add
  -- the address of the container.
  refine distance_results poise₃ has grants.pool free (input.course poise₂.ready.fine course₃.toPath).source
    fun t₄ course₄ exact₄ => ?_
  have poise₄ := poise₃.course course₄.toPath
  have steps := course₃.step course₄
  have container₄ := ((stands.course poise₁.ready course₂.toPath).weaken
    (fun _ h => .inl h : ∀ q, With K container q → With (With K container) j q)).course poise₂.ready steps.toPath
  have tail (t₅ : LoweringState) (course₅ : R.Course (With (With K container) j) t₄ t₅ [] []) :=
    address_gives (w := w) poise (course.trans (course₂.weaken fun _ h => .inl h)) (steps.step course₅) leased g.leased
      target grants.pool free has
  dsimp only
  split
  · -- What stands behind an address is no matrix, so its elements are no vectors.
    next base eq =>
    rw [eq] at container₄
    have whole : container.ty.isMatrix = false := container₄.fits.2.1
    have known (u : LoweringState) (q : Nat) : R.Known u (.general q) := poise.identical.known _
    refine (add64_results poise₄.ready grants.pool container₄.fits.2.2 (known _ _) (known _ _) free).bind
      fun _ t₅ emits => tail t₅ emits.course fun vector => ?_
    rw [(matrix_of_element has vector).1] at whole
    cases whole
  · next direct =>
    obtain ⟨region, o, place⟩ : ∃ region o, container.location.place? = some (region, o) := by
      revert memory direct
      generalize container.location = l
      cases l <;> simp [Location.isInMemory, Location.place?]
    exact addBase_results poise₄ place container₄ has grants.pool free List.mem_cons_self exact₄ tail

/-- **An element of known number** stands in the slot of its container. -/
theorem stands_offset {t : LoweringState} {w : Bool} {l : Location} {ty element : Ty}
    (stands : R.Stands K t w ty l) {region : Region} {o x : Nat} (place : l.place? = some (region, o))
    (fits : (l.offsetBy x).Fits element) (keeps : t.Keeps element.size (l.offsetBy x))
    (inside : x + element.size ≤ ty.size) : R.Stands K t w element (l.offsetBy x) where
  fits := fits
  keeps := keeps
  slot := fun r o' place' => by
    obtain ⟨use, slot, uses, holds, size, rest⟩ := stands.slot region o place
    rw [offsetBy_place place x] at place'
    cases place'
    refine ⟨use, slot, uses, ⟨holds.1, Nat.le_trans holds.2.1 (Nat.le_add_right _ _), ?_⟩, size, rest⟩
    have := holds.2.2
    omega
  held := fun r eq => by
    have := offsetBy_place place x
    rw [eq] at this
    cases this

section Subscript

variable {asTarget : Bool} {index : Lower Value} {b i : Expr} {element : Ty} {container : Value}

/-- **An element of known number is found** where its container stands. -/
theorem literalElement_gives {k : Nat} (has : b.ty.element? = some element)
    (known : literalIndex? b.ty i = some k) (p : Position) (poise : R.Poise K d f s)
    (g : R.Gives K s t asTarget (!asTarget) b container) :
    Results (subscriptValue asTarget container i index) t
      fun v u => R.Gives K s u asTarget false (.subscript b i element p) v := by
  obtain ⟨rs, course⟩ := g.course
  have poise₁ := poise.course course.toPath
  have inRange := literalIndex?_lt known
  have inside := element_inside has inRange
  obtain ⟨storage, whole⟩ := element_storage has
  have stands := g.stands (by rintro void; rw [void] at has; cases has)
  obtain ⟨location, ty, lease, back⟩ := container
  obtain rfl : ty = b.ty := g.ty
  have stay := Course.refl (K := K) poise₁.ready.fine
  -- the element stays where the container is, and so does the address
  have within {u : LoweringState} {o : Location} (h : R.Course K t u [] [])
      (stands : R.Stands (With K ⟨o, element, lease, back⟩) u asTarget element o)
      (leased : Value.Leased ⟨o, element, lease, back⟩) (exact : element.isVector = true → R.ExactAt u o) :
      R.Gives K s u asTarget false (.subscript b i element p) ⟨o, element, lease, back⟩ :=
    { course := ⟨rs, course.step h⟩
      ty := rfl
      leased
      empty := fun empty => absurd empty storage
      stands := fun _ => stands
      operand := by rintro ⟨⟩
      exact
      writeBack := fun c hc => by
        obtain ⟨register, o, ty, spill, size, stands⟩ := g.writeBack c hc
        exact ⟨register, o, ty, spill, size, stands.course poise₁.ready h.toPath⟩ }
  unfold subscriptValue
  simp only [has, known]
  rcases container_cases has stands.fits with ⟨r, rfl⟩ | memory
  · obtain ⟨fits, kept⟩ := lane_stands has inRange stands.fits stands.keeps
    obtain rfl : lease = none := g.leased.unleased (by rintro _ ⟨⟩)
    have gives := within stay ⟨fits, kept, by rintro _ _ ⟨⟩, by rintro _ ⟨⟩⟩ (.inl ⟨rfl, by rintro _ ⟨⟩⟩)
      (by rintro _ _ ⟨⟩)
    exact .pure { gives with writeBack := by rintro _ ⟨⟩ }
  · cases location with
    | globalMemory o =>
      obtain ⟨fits, kept⟩ := offset_stands has inRange (.inl ⟨o, rfl⟩) stands.fits stands.keeps
      have stands := stands_offset stands (x := k * b.ty.stride) rfl fits kept inside
      exact .pure (within stay (stands.weaken fun q h => h.imp id (by rintro ⟨⟩))
        (.inl ⟨g.leased.unleased (by rintro _ ⟨⟩), by rintro _ ⟨⟩⟩) (by rintro _ _ ⟨⟩))
    | localMemory o =>
      obtain ⟨fits, kept⟩ := offset_stands has inRange (.inr ⟨o, rfl⟩) stands.fits stands.keeps
      have stands := stands_offset stands (x := k * b.ty.stride) rfl fits kept inside
      exact .pure (within stay (stands.weaken fun q h => h.imp id (by rintro ⟨⟩))
        (.inl ⟨g.leased.unleased (by rintro _ ⟨⟩), by rintro _ ⟨⟩⟩) (by rintro _ _ ⟨⟩))
    | indirectRegister r =>
      have pool : r ∈ RegisterClass.general.pool := stands.fits.2.2
      have stands' {u : LoweringState} : R.Stands (With K ⟨.indirectRegister r, element, lease, back⟩) u
          asTarget element (.indirectRegister r) :=
        ⟨⟨storage, whole, pool⟩, trivial, by rintro _ _ ⟨⟩, fun q eq => ⟨.inr eq, poise.identical.known _⟩⟩
      -- a matrix does not stand behind an address
      have float (vector : element.isVector = true) : False := by
        have container : b.ty.isMatrix = false := stands.fits.2.1
        rw [(matrix_of_element has vector).1] at container
        cases container
      dsimp only
      split
      · obtain ⟨x, leases, register⟩ := g.leased.exists_lease rfl
        have free := poise.ready.fresh course.toPath leases register
        refine (inPlace_results poise₁.ready (.inr (.inr rfl)) pool rfl (poise.identical.known _)
          fun _ => free).bind fun _ u emits => ?_
        exact .pure (within emits.course stands' g.leased fun vector => (float vector).elim)
      · exact .pure (within stay stands' g.leased fun vector => (float vector).elim)
    | none | register r | registerLane r shift | simdRegister r => cases memory

/-- **An element whose number is computed is found** behind an address. A
vector in a register is spilled for it. -/
theorem computedElement_gives (has : b.ty.element? = some element) (integral : i.ty = .int)
    (computed : literalIndex? b.ty i = none) (p : Position) (poise : R.Poise K d f s)
    (hi : R.GivesFrom d f false true index i) (g : R.Gives K s t asTarget (!asTarget) b container) :
    Results (subscriptValue asTarget container i index) t
      fun v u => R.Gives K s u asTarget false (.subscript b i element p) v := by
  obtain ⟨rs, course⟩ := g.course
  have poise₁ := poise.course course.toPath
  have storage := (element_storage has).1
  have stands := g.stands (by rintro void; rw [void] at has; cases has)
  obtain ⟨location, ty, lease, back⟩ := container
  obtain rfl : ty = b.ty := g.ty
  -- Whatever way the container came to memory, the element is behind an address that is
  -- leased.
  have addressed {u : LoweringState} {rs' : List Location} {address : Lease} {back : Option WriteBack}
      (h : R.Course K s u rs' [address]) (leased : (elementAt address element).Leased)
      (stands : R.Stands (With K (elementAt address element)) u asTarget element
        (elementAt address element).location)
      (exact : element.isVector = true → R.ExactAt u (elementAt address element).location)
      (writeBack : ∀ c, back = some c → (∃ id ∈ RegisterClass.simd.pool, c.register = .simdRegister id) ∧
        ∃ o ty, c.spill = .localMemory o ∧ ty.size = 16 ∧ R.Stands K u false ty c.spill) :
      R.Gives K s u asTarget false (.subscript b i element p)
        { elementAt address element with writeBack := back } :=
    { course := ⟨rs', h⟩
      ty := rfl
      leased
      empty := fun empty => absurd empty storage
      stands := fun _ => stands
      operand := by rintro ⟨⟩
      exact
      writeBack }
  unfold subscriptValue
  simp only [has, computed]
  rcases container_cases has stands.fits with ⟨r, rfl⟩ | memory
  · obtain rfl : lease = none := g.leased.unleased (by rintro _ ⟨⟩)
    have wide := (vector_of_register has stands.fits).1
    have container : R.Stands K t asTarget b.ty (.simdRegister r) :=
      stands.weaken (with_direct (by rintro _ ⟨⟩))
    refine (placeInMemory_results poise₁.ready b.ty).bind ?_
    rintro _ t₂ ⟨placed, o, rfl⟩
    have poise₂ := poise₁.course placed.course.toPath
    -- What is spilled is known as it was in the register, so the element read from the
    -- spill is.
    have spill : R.Stands K t₂ true b.ty (.localMemory o) := stands_placed placed poise₁.deep
    have input := (poise₂.reads (v := ⟨.simdRegister r, b.ty, none, none⟩)
      (container.course poise₁.ready placed.course.toPath) trivial).whole .simd stands.fits.1
    have output := (poise₂.writes spill trivial).whole .simd stands.fits.1
    rw [wide] at input output
    refine (transfer_results poise₂.ready .packed input output (by rintro ⟨⟩)).bind fun _ t₃ moves => ?_
    have poise₃ := poise₂.course moves.emits.course.toPath
    have spill := (spill.course poise₂.ready moves.emits.course.toPath).read
    have first := course.trans (placed.course.step moves.emits.course)
    refine (indexMemory_gives (w := asTarget) { location := .localMemory o, ty := b.ty } poise₃
      (Course.refl poise₃.ready.fine) (.inl ⟨rfl, by rintro _ ⟨⟩⟩) rfl
      (spill.weaken fun _ h => .inl h) has integral hi).bind ?_
    rintro v u ⟨rs', address, rfl, leased, course', stands', exact⟩
    have all := first.trans course'
    have back : R.Stands K u false b.ty (.localMemory o) := spill.course poise₃.ready course'.toPath
    split
    · refine .pure (addressed all leased stands' exact fun c hc => ?_)
      cases hc
      exact ⟨⟨r, stands.fits.2, rfl⟩, o, b.ty, rfl, wide, back⟩
    · exact .pure (addressed all leased stands' exact (by rintro _ ⟨⟩))
  · have found : Results (indexMemory ⟨location, b.ty, lease, back⟩ b.ty.stride element index) t
        fun v u => R.Gives K s u asTarget false (.subscript b i element p) v := by
      refine (indexMemory_gives (w := asTarget) _ poise course g.leased memory stands has integral
        hi).mono ?_
      rintro v u ⟨rs', address, rfl, leased, course', stands', exact⟩
      exact addressed course' leased stands' exact (by rintro _ ⟨⟩)
    cases location with
    | globalMemory o | localMemory o | indirectRegister r => exact found
    | none | register r | registerLane r shift | simdRegister r => cases memory

end Subscript

/-- **The storage of an element is found.** -/
theorem subscriptValue_gives {asTarget : Bool} {base index : Lower Value} {b i : Expr} {t : Ty}
    (element : b.ty.element? = some t) (integral : i.ty = .int) (p : Position)
    (hb : R.GivesFrom d f asTarget (!asTarget) base b) (hi : R.GivesFrom d f false true index i) :
    R.GivesFrom d f asTarget false (do
      let container ← base
      subscriptValue asTarget container i index) (.subscript b i t p) := by
  intro K s poise
  refine (hb K s poise).bind fun container t₁ g => ?_
  cases known : literalIndex? b.ty i with
  | some k => exact literalElement_gives element known p poise g
  | none => exact computedElement_gives element integral known p poise hi g

/-- **An element is lowered**, for its place or for its value. -/
theorem subscript_gives {asTarget : Bool} {base index : Lower Value} {e i : Expr} {t : Ty}
    (element : e.ty.element? = some t) (integral : i.ty = .int) (p : Position)
    (hb : R.GivesFrom d f asTarget (!asTarget) base e) (hi : R.GivesFrom d f false true index i) :
    R.GivesFrom d f asTarget (!asTarget) (do
      let container ← base
      let element ← subscriptValue asTarget container i index
      if asTarget then return element else materialize element) (.subscript e i t p) := by
  have place := subscriptValue_gives element integral p hb hi
  have valued : t ≠ .void := fun h => by
    rw [h] at element
    revert element
    generalize e.ty = ty
    cases ty <;> simp [Ty.element?]
  intro K s poise
  rw [← bind_assoc]
  cases asTarget with
  | true => exact (place K s poise).bind fun v t g => .pure g
  | false => exact materialize_gives (e := .subscript e i t p) (b := false) valued (w := false) (by rintro ⟨⟩) place K s poise

end Lower

end Shading
