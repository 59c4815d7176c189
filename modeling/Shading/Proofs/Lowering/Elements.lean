import Shading.Proofs.Lowering.Operators

/-!
# Elements are lowered

An element of known number moves the location of its container or names a lane.
The address of any other element is computed into a general register, beside
those that hold the container and the index. An element stands where its
container does.
-/

namespace Shading

open LoweringState

namespace Lower

variable {s₀ s : LoweringState} {registers : List Location} {held : List Lease} {E : Error → Prop}
  {d : Declarations} {f : Option FunctionId} {n : Nat}

/-! ## Elements -/

/-- The element behind an address. -/
def elementAt (address : Lease) (ty : Ty) : Value :=
  { location := .indirectRegister address.id, ty, lease := some address }

/-- **An address is computed** into a register that is kept, and the
registers of the container and the index are given up. -/
theorem indexMemory_ends {t : LoweringState} {container : Value} {stride : Nat} {element : Ty}
    {index : Lower Value} {i : Expr} {m : Nat} (poised : s.Poised d f)
    (few : s.layout.leased.length ≤ n) (leads : s.Leads t registers container.lease.toList)
    (leased : container.Leased) (memory : container.location.isInMemory = true)
    (storage : element.size ≠ 0 ∧ element.isMatrix = false) (integral : i.ty = .int)
    (hi : Lowers d f E m false index i) (few₁ : t.layout.leased.length ≤ m)
    (fits : n ≤ 1 ∨ E (.layout (.noRegister .general))) :
    Ends (indexMemory container stride element index) t (fun v u =>
      ∃ rs address, v = elementAt address element ∧ v.Leased ∧ v.Stands u ∧
        s.Leads u (registers ++ rs) v.lease.toList) E := by
  have poised₁ : t.Poised d f := poised_leads [container] poised
    (by simpa [leasesOf] using leads) (by simpa using leased)
  refine .bind (hi t poised₁ few₁) fun j t₂ y => ?_
  obtain ⟨rs, leads₂⟩ := y.leads
  have oj := y.operand rfl (by rw [integral]; decide)
  have both : s.Leads t₂ (registers ++ rs) (leasesOf [container, j]) := by
    simpa [leasesOf] using leads.trans leads₂
  refine .bind (acquire_ends both (fits.imp (fun one => room_beside both.layout
    (by simp [leased, y.leased]) (by simp; omega) fun id hid => ?_) id)) ?_
  · obtain ⟨x, hx, occupies⟩ := mem_registersOf.1 hid
    exact mem_registersOf.2 ⟨x, by simp at hx ⊢; tauto, occupies⟩
  rintro address t₃ ⟨h₃, r, grants⟩
  have target : address.location = .register r := grants.location
  have number : address.id = r := by
    rw [Lease.id, target]
    rfl
  have register := isRegister_of_grants grants
  have operand := Location.isOperand_of_isRegister register
  have addressed : (elementAt address element).Leased :=
    .inr ⟨address, r, rfl, target, by rw [elementAt, number]⟩
  refine .bind ((transfer_steady h₃.ok _ operand oj (.inl register)).after h₃) fun _ t₄ h₄ => ?_
  refine .bind (emit_ends h₄ _ register operand []) fun _ t₅ h₅ => ?_
  refine .bind (emit_ends h₅ _ register operand _) fun _ t₆ h₆ => ?_
  -- what is left once the address is complete
  have tail {t₇ : LoweringState}
      (h₇ : s.Leads t₇ (registers ++ rs) (leasesOf [container, j] ++ [address])) :
      Ends (do
        finish j
        finish container
        return elementAt address element : Lower Value) t₇ (fun v u =>
          ∃ rs address, v = elementAt address element ∧ v.Leased ∧ v.Stands u ∧
            s.Leads u (registers ++ rs) v.lease.toList) E := by
    have order : (leasesOf [container, j] ++ [address]).Perm
        (([address] ++ container.lease.toList) ++ j.lease.toList) := by
      simp only [leasesOf, List.flatMap_cons, List.flatMap_nil, List.append_nil]
      rw [List.append_assoc [address]]
      exact List.perm_append_comm
    refine .bind (finish_ends (h₇.perm order)) fun _ t₈ h₈ => ?_
    refine .bind (finish_ends h₈) fun _ t₉ h₉ => ?_
    refine .pure ⟨_, address, rfl, addressed, ⟨?_, trivial, addressed⟩, h₉⟩
    refine ⟨storage.1, storage.2, ?_⟩
    rw [number]
    exact grants.pool
  dsimp only
  split
  · next base eq =>
    exact .bind (emit_ends h₆ _ register (Location.isOperand_of_isRegister rfl) [])
      fun _ t₇ h₇ => tail h₇
  · next direct =>
    have none := leased.unleased direct
    have held : leasesOf [container, j] ++ [address] = leasesOf [j, elementAt address element] := by
      simp [leasesOf, none, elementAt]
    have h₆' := h₆
    rw [held] at h₆'
    refine .bind (acquire_ends h₆ (fits.imp (fun one => room_beside h₆'.layout
      (by simp [addressed, y.leased]) (by simp; omega) fun q hid => ?_) id)) ?_
    · obtain ⟨x, hx, occupies⟩ := mem_registersOf.1 hid
      simp only [List.mem_cons, List.not_mem_nil, or_false] at hx
      rcases hx with rfl | rfl | rfl
      · refine mem_registersOf.2 ⟨.indirectRegister r, by simp [elementAt, number], ?_⟩
        rw [target] at occupies
        exact occupies
      · exact mem_registersOf.2 ⟨_, by simp, occupies⟩
      · revert occupies memory direct
        generalize container.location = l
        cases l <;> simp [Location.registerOf?, Location.isInMemory]
    rintro base t₇ ⟨h₇, b, baseGrants⟩
    have baseRegister := isRegister_of_grants baseGrants
    have place : container.location.IsOperand := by
      revert memory
      generalize container.location = l
      cases l <;> simp [Location.IsOperand, Location.isInMemory]
    refine .bind (emit_ends h₇ _ baseRegister place []) fun _ t₈ h₈ => ?_
    refine .bind (emit_ends h₈ _ register (Location.isOperand_of_isRegister baseRegister) [])
      fun _ t₉ h₉ => ?_
    exact .bind (release_last_ends h₉) fun _ t₁₀ h₁₀ => tail h₁₀

theorem literalIndex?_lt {ty : Ty} {e : Expr} {k : Nat} (h : literalIndex? ty e = some k) :
    k < ty.elementCount := by
  unfold literalIndex? at h
  split at h
  · split at h
    · next inRange =>
      cases h
      omega
    · cases h
  · cases h

section Element

variable {ty element : Ty} (has : ty.element? = some element)
include has

/-- The elements of a vector are numbers, and those of a matrix are
rows. -/
theorem element_cases :
    (RegisterClass.ofTy? ty = some .simd ∧ ty.size = 16 ∧ ty.stride = 4 ∧ ty.elementCount ≤ 4 ∧
        element = .float) ∨
      (RegisterClass.ofTy? ty = none ∧ ty.isMatrix = true ∧ ty.stride = 16 ∧ 16 ≤ ty.size ∧
        ty.elementCount * 16 = ty.size ∧ element.isMatrix = false ∧ element.size = 16) := by
  revert has
  cases ty <;> cases element <;> decide

theorem element_storage : element.size ≠ 0 ∧ element.isMatrix = false := by
  rcases element_cases has with ⟨-, -, -, -, rfl⟩ | ⟨-, -, -, -, -, vector, size⟩
  · decide
  · exact ⟨by omega, vector⟩

/-- Elements lie in their container. -/
theorem element_inside {k : Nat} (inRange : k < ty.elementCount) :
    k * ty.stride + element.size ≤ ty.size := by
  rcases element_cases has with ⟨-, size, stride, count, rfl⟩ | ⟨-, -, stride, -, count, -, size⟩
  · rw [size, stride]
    change k * 4 + 4 ≤ 16
    omega
  · rw [size, stride]
    omega

/-- A container is a register as a whole, or in memory. -/
theorem container_cases {l : Location} (fits : l.Fits ty) :
    (∃ r, l = .simdRegister r) ∨ l.isInMemory = true := by
  cases l with
  | none => exact fits.elim
  | register r =>
    have ofTy : RegisterClass.ofTy? ty = some .general := fits.1
    rcases element_cases has with ⟨simd, -⟩ | ⟨none, -⟩
    · rw [simd] at ofTy
      cases ofTy
    · rw [none] at ofTy
      cases ofTy
  | registerLane r shift =>
    obtain rfl : ty = .float := fits.1
    cases has
  | simdRegister r => exact .inl ⟨r, rfl⟩
  | globalMemory o | localMemory o | indirectRegister r => exact .inr rfl

/-- A container in a register is a vector. -/
theorem vector_of_register {r : Nat} (fits : (Location.simdRegister r).Fits ty) :
    ty.size = 16 ∧ ty.elementCount ≤ 4 ∧ element = .float := by
  rcases element_cases has with ⟨-, size, -, count, float⟩ | ⟨none, -⟩
  · exact ⟨size, count, float⟩
  · have ofTy : RegisterClass.ofTy? ty = some .simd := fits.1
    rw [none] at ofTy
    cases ofTy

variable {s : LoweringState} {k : Nat} (inRange : k < ty.elementCount)
include inRange

/-- **A lane of a vector** stands where the vector does. -/
theorem lane_stands {r : Nat} (fits : (Location.simdRegister r).Fits ty)
    (kept : s.Keeps ty.size (.simdRegister r)) :
    (Location.registerLane r (k * 4)).Fits element ∧
      s.Keeps element.size (.registerLane r (k * 4)) := by
  obtain ⟨-, count, float⟩ := vector_of_register has fits
  exact ⟨⟨float, fits.2, by omega, by omega⟩, kept⟩

/-- **An element of known number** in memory stands where its container
does. -/
theorem offset_stands {l : Location} (known : (∃ o, l = .globalMemory o) ∨ ∃ o, l = .localMemory o)
    (fits : l.Fits ty) (kept : s.Keeps ty.size l) :
    (l.offsetBy (k * ty.stride)).Fits element ∧ s.Keeps element.size (l.offsetBy (k * ty.stride)) := by
  have inside := element_inside has inRange
  have moved {o : Nat} (aligned : o % BumpAllocator.alignmentOf ty.size = 0) :
      (o + k * ty.stride) % BumpAllocator.alignmentOf element.size = 0 := by
    rcases element_cases has with ⟨-, size, stride, -, rfl⟩ | ⟨-, -, stride, wide, -, -, size⟩
    · rw [size, BumpAllocator.alignmentOf_wide (Nat.le_refl _)] at aligned
      rw [stride]
      change _ % 4 = 0
      omega
    · rw [BumpAllocator.alignmentOf_wide wide] at aligned
      rw [stride, size, BumpAllocator.alignmentOf_wide (Nat.le_refl _)]
      omega
  have storage := (element_storage has).1
  rcases known with ⟨o, rfl⟩ | ⟨o, rfl⟩
  · refine ⟨⟨storage, moved fits.2⟩, ?_, fun x hx => ?_⟩
    · exact Nat.le_trans (by omega) kept.1
    · have := kept.2 x hx
      omega
  · exact ⟨⟨storage, moved fits.2⟩, Nat.le_trans (by omega) kept⟩

end Element

section Subscript

variable {asTarget : Bool} {index : Lower Value} {b i : Expr} {t : Ty} {t₁ : LoweringState}
  {container : Value}

/-- **An element of known number is found** where its container stands. -/
theorem literalElement_ends {k : Nat} (element : b.ty.element? = some t)
    (known : literalIndex? b.ty i = some k) (p : Position) (y : Yields s t₁ asTarget b container) :
    Ends (subscriptValue asTarget container i index) t₁
      (fun v u => Yields s u true (.subscript b i t p) v) E := by
  obtain ⟨rs, leads⟩ := y.leads
  have inRange := literalIndex?_lt known
  have stands := y.stands (by rintro void; rw [void] at element; cases element)
  obtain ⟨location, ty, lease, back⟩ := container
  obtain rfl : ty = b.ty := y.ty
  have refl := Leads.refl leads.ok
  -- the element stays where the container is, and so does the address
  have within {u : LoweringState} {o : Location} (h : t₁.Leads u [] []) (fits : o.Fits t)
      (kept : u.Keeps t.size o) (leased : Value.Leased ⟨o, t, lease, back⟩) :
      Yields s u true (.subscript b i t p) ⟨o, t, lease, back⟩ :=
    { leads := ⟨rs, leads.step h⟩
      ty := rfl
      leased
      stands := fun _ => ⟨fits, kept, leased⟩
      operand := by simp
      holds := fun some => by simp [Expr.holds, y.holds some]
      writeBack := y.writeBack
      reloads := fun c some => (y.reloads c some).imp_right h.keeps }
  unfold subscriptValue
  simp only [element, known]
  rcases container_cases element stands.fits with ⟨r, rfl⟩ | memory
  · obtain ⟨fits, kept⟩ := lane_stands element inRange stands.fits stands.kept
    obtain rfl : lease = none := y.leased.unleased (by simp)
    have direct : Value.Leased ⟨.registerLane r (k * 4), t, none, none⟩ := .inl ⟨rfl, by simp⟩
    exact .pure { within refl fits kept (.inl ⟨rfl, by simp⟩) with
      leased := direct
      stands := fun _ => ⟨fits, kept, direct⟩
      writeBack := by simp
      reloads := by simp }
  · cases location with
    | globalMemory o =>
      obtain ⟨fits, kept⟩ := offset_stands element inRange (.inl ⟨o, rfl⟩) stands.fits stands.kept
      have unleased := y.leased.unleased (by simp)
      exact .pure (within refl fits kept (.inl ⟨unleased, by simp [Location.offsetBy]⟩))
    | localMemory o =>
      obtain ⟨fits, kept⟩ := offset_stands element inRange (.inr ⟨o, rfl⟩) stands.fits stands.kept
      have unleased := y.leased.unleased (by simp)
      exact .pure (within refl fits kept (.inl ⟨unleased, by simp [Location.offsetBy]⟩))
    | indirectRegister r =>
      obtain ⟨storage, whole⟩ := element_storage element
      have fits : (Location.indirectRegister r).Fits t := ⟨storage, whole, stands.fits.2.2⟩
      dsimp only
      split
      · refine .bind (emitUnary_ends refl _ (Location.isOperand_of_isRegister rfl) _) fun _ u h => ?_
        exact .pure (within h fits trivial y.leased)
      · exact .pure (within refl fits trivial y.leased)
    | none | register r | registerLane r shift | simdRegister r => cases memory

/-- A register that was taken is not free where more has been taken. -/
theorem notFree_of_more {l l' l'' : Layout} {registers more : List Location} {held : List Lease} {c : RegisterClass}
    {id : Nat} (h : l.Leads l' registers []) (h' : l.Leads l'' (registers ++ more) held) (taken : id ∉ l'.free c) :
    id ∉ l''.free c := fun free => by
  obtain ⟨before, notTaken⟩ := (h'.free c id).1 free
  refine taken ((h.free c id).2 ⟨before, fun mem => notTaken ?_⟩)
  rw [show registers ++ pooledOf [] = registers from List.append_nil _] at mem
  exact List.mem_append_left _ (List.mem_append_left _ mem)

/-- **An element whose number is computed is found** behind an address. A
vector in a register is spilled for it. -/
theorem computedElement_ends (element : b.ty.element? = some t) (integral : i.ty = .int)
    (computed : literalIndex? b.ty i = none) (p : Position) (poised : s.Poised d f)
    (few : s.layout.leased.length ≤ n) (hi : Lowers d f E (n + b.held) false index i)
    (fits : n ≤ 1 ∨ E (.layout (.noRegister .general))) (y : Yields s t₁ asTarget b container) :
    Ends (subscriptValue asTarget container i index) t₁
      (fun v u => Yields s u true (.subscript b i t p) v) E := by
  obtain ⟨rs, leads⟩ := y.leads
  have few₁ := leased_length few y
  have stands := y.stands (by rintro void; rw [void] at element; cases element)
  have storage := element_storage element
  obtain ⟨location, ty, lease, back⟩ := container
  obtain rfl : ty = b.ty := y.ty
  -- Whatever way the container came to memory, the element is behind the address that
  -- is leased for it.
  have addressed {u : LoweringState} {rs' : List Location} {v : Value}
      (h : s.Leads u rs' v.lease.toList) (ty : v.ty = t) (leased : v.Leased) (stands : v.Stands u)
      (writeBack : ∀ c, v.writeBack = some c → (c.register.isRegister = true ∧ c.spill.IsOperand) ∧
        c.register.Fits .vec4 ∧ u.Keeps Ty.vec4.size c.register) :
      Yields s u true (.subscript b i t p) v :=
    { leads := ⟨rs', h⟩
      ty
      leased
      stands := fun _ => stands
      operand := by simp
      holds := fun _ => by simp [Expr.holds, computed]
      writeBack := fun c some => (writeBack c some).1
      reloads := fun c some => (writeBack c some).2 }
  unfold subscriptValue
  simp only [element, computed]
  rcases container_cases element stands.fits with ⟨r, rfl⟩ | memory
  · have register : (Location.simdRegister r).isRegister = true := rfl
    obtain rfl : lease = none := y.leased.unleased (by simp)
    have wide := (vector_of_register element stands.fits).1
    refine .bind (placeInMemory_ends leads (by omega)) ?_
    rintro _ t₂ ⟨h₂, places, offset, rfl⟩
    have spill : (Location.localMemory offset).IsOperand := trivial
    refine .bind ((transfer_steady h₂.ok _ spill (Location.isOperand_of_isRegister register)
      (.inr (.inl register))).after h₂) fun _ t₃ h₃ => ?_
    have few₃ : t₃.layout.leased.length ≤ n + b.held := by
      have := h₃.layout.leased.length_eq
      simp only [Option.toList_none, List.map_nil, List.append_nil] at this
      omega
    refine .bind (indexMemory_ends (n := n) poised few h₃ (.inl ⟨rfl, by simp⟩) rfl storage integral
      hi few₃ fits) ?_
    rintro v u ⟨rs', address, rfl, leased, standsV, h⟩
    split
    · -- The vector has stayed in its register while the index was computed.
      have kept : u.Keeps Ty.vec4.size (.simdRegister r) :=
        notFree_of_more leads.layout h.layout stands.kept
      refine .pure (addressed h rfl leased ⟨standsV.fits, standsV.kept, leased⟩ ?_)
      rintro c hc
      cases hc
      exact ⟨⟨register, spill⟩, ⟨rfl, stands.fits.2⟩, kept⟩
    · exact .pure (addressed h rfl leased standsV (by simp [elementAt]))
  · have found : Ends (indexMemory ⟨location, b.ty, lease, back⟩ b.ty.stride t index) t₁
        (fun v u => Yields s u true (.subscript b i t p) v) E := by
      refine (indexMemory_ends (n := n) poised few leads y.leased memory storage integral hi few₁
        fits).mono ?_ fun _ h => h
      rintro v u ⟨rs', address, rfl, leased, stands, h⟩
      exact addressed h rfl leased stands (by simp [elementAt])
    cases location with
    | globalMemory o | localMemory o | indirectRegister r => exact found
    | none | register r | registerLane r shift | simdRegister r => cases memory

end Subscript

/-- **The storage of an element is found.** -/
theorem subscriptValue_lowers {asTarget : Bool} {base index : Lower Value} {b i : Expr} {t : Ty}
    (element : b.ty.element? = some t) (integral : i.ty = .int) (p : Position)
    (hb : Lowers d f E n asTarget base b)
    (hi : literalIndex? b.ty i = none → Lowers d f E (n + b.held) false index i)
    (fits : literalIndex? b.ty i = none → n ≤ 1 ∨ E (.layout (.noRegister .general))) :
    Lowers d f E n true (do
      let container ← base
      subscriptValue asTarget container i index) (.subscript b i t p) := by
  intro s poised few
  refine .bind (hb s poised few) fun container t₁ y => ?_
  cases known : literalIndex? b.ty i with
  | some k => exact literalElement_ends element known p y
  | none => exact computedElement_ends element integral known p poised few (hi known) (fits known) y

/-- **An element is lowered**, for its place or for its value. -/
theorem subscript_lowers {asTarget : Bool} {base index : Lower Value} {b i : Expr} {t : Ty}
    (element : b.ty.element? = some t) (integral : i.ty = .int) (p : Position)
    (hb : Lowers d f E n asTarget base b)
    (hi : literalIndex? b.ty i = none → Lowers d f E (n + b.held) false index i)
    (fits : literalIndex? b.ty i = none → n ≤ 1 ∨ E (.layout (.noRegister .general))) :
    Lowers d f E n asTarget (do
      let container ← base
      let element ← subscriptValue asTarget container i index
      if asTarget then return element else materialize element) (.subscript b i t p) := by
  have place := subscriptValue_lowers element integral p hb hi fits
  have valued : t ≠ .void := fun h => by
    rw [h] at element
    revert element
    generalize b.ty = ty
    cases ty <;> simp [Ty.element?]
  intro s poised few
  rw [← bind_assoc]
  cases asTarget with
  | true => exact .bind (place s poised few) fun v t y => .pure y
  | false => exact materialize_lowers (e := .subscript b i t p) valued place s poised few

end Lower

end Shading
