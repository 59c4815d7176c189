import Shading.Proofs.Fragment
import Shading.Proofs.Lowering.Arithmetic
import Shading.Proofs.Lowering.Places

/-!
# States from which expressions are lowered

What is carried along a tree is the number of addresses that are held when an
expression starts: each of the values that are still to be consumed accounts
for one register at most, whether it is in that register or behind the address
there, so a register is left as long as there are fewer than four of them
(`Lower.room_beside`). An expression yields a value that stands
(`Lower.Yields`).
-/

namespace Shading

open LoweringState

/-- **A state from which the expressions of a function are lowered.** -/
structure LoweringState.Poised (s : LoweringState) (d : Declarations) (f : Option FunctionId) :
    Prop where
  ok : s.Ok
  quiet : s.Quiet
  houses : s.Houses d (d.Sees f)

namespace Lower

variable {s₀ s : LoweringState} {registers : List Location} {held : List Lease} {E : Error → Prop}

/-- The leases of some values. -/
def leasesOf (vs : List Value) : List Lease := vs.flatMap fun v => v.lease.toList

/-- **There is room beside the values to be consumed** when they and the
registers leased before are fewer than four. -/
theorem room_beside {l l' : Layout} {vs : List Value} (h : l.Leads l' registers (leasesOf vs))
    (leased : ∀ v ∈ vs, v.Leased) (few : l.leased.length + vs.length < 4)
    {avoid : List Location}
    (named : ∀ id ∈ registersOf .general avoid, id ∈ registersOf .general (vs.map Value.location)) :
    l'.Room .general avoid := by
  have length := length_registersOf_le .general (l.leased ++ vs.map Value.location)
  refine Layout.room_of_cover (registersOf .general (l.leased ++ vs.map Value.location))
    ?_ (fun id hid => ?_) fun id hid => ?_
  · simp only [List.length_append, List.length_map] at length
    change _ < 4
    omega
  · rw [registersOf_append]
    exact List.mem_append_right _ (named id hid)
  · rw [registersOf_append]
    rcases List.mem_append.1 (h.leased.mem_iff.1 hid) with before | now
    · exact List.mem_append_left _ (mem_registersOf.2 ⟨_, before, rfl⟩)
    · obtain ⟨x, hx, same⟩ := List.mem_map.1 now
      obtain ⟨v, hv, lease⟩ := List.mem_flatMap.1 hx
      rw [Option.mem_toList] at lease
      rcases leased v hv with ⟨none, -⟩ | ⟨y, i, some, register, location⟩
      · rw [none] at lease
        cases lease
      · rw [some] at lease
        cases lease
        rw [register] at same
        cases same
        exact List.mem_append_right _
          (mem_registersOf.2 ⟨v.location, List.mem_map_of_mem hv, by rw [location]; rfl⟩)

theorem leasesOf_append (xs ys : List Value) : leasesOf (xs ++ ys) = leasesOf xs ++ leasesOf ys := by
  simp [leasesOf]

/-- Leases of values are leases of general registers. -/
theorem general_of_mem_leasesOf {vs : List Value} (leased : ∀ v ∈ vs, v.Leased) {x : Lease}
    (hx : x ∈ leasesOf vs) (id : Nat) : x.location ≠ .simdRegister id := by
  obtain ⟨v, hv, lease⟩ := List.mem_flatMap.1 hx
  rw [Option.mem_toList] at lease
  rcases leased v hv with ⟨none, -⟩ | ⟨y, i, some, register, -⟩
  · rw [none] at lease
    cases lease
  · rw [some] at lease
    cases lease
    rw [register]
    exact Location.noConfusion

variable {d : Declarations} {f : Option FunctionId} {n : Nat}

/-- A state stays poised while values are lowered. -/
theorem poised_leads {t : LoweringState} (vs : List Value) (poised : s.Poised d f)
    (h : s.Leads t registers (leasesOf vs)) (leased : ∀ v ∈ vs, v.Leased) : t.Poised d f :=
  ⟨h.ok, poised.quiet.leads h fun _ hx => general_of_mem_leasesOf leased hx,
    poised.houses.leads h⟩

/-- **What an expression yields** between two states. -/
structure Yields (s t : LoweringState) (asTarget : Bool) (e : Expr) (v : Value) : Prop where
  leads : ∃ rs, s.Leads t rs v.lease.toList
  ty : v.ty = e.ty
  leased : v.Leased
  /-- A value of a type with values stands. -/
  stands : e.ty ≠ .void → v.Stands t
  operand : asTarget = false → e.ty ≠ .void → v.location.IsOperand
  holds : v.lease.isSome = true → e.holds = true
  writeBack : ∀ b, v.writeBack = some b → b.register.isRegister = true ∧ b.spill.IsOperand
  /-- What is loaded again is a register that a vector is in. -/
  reloads : ∀ b, v.writeBack = some b → b.register.Fits .vec4 ∧ t.Keeps Ty.vec4.size b.register

/-- **An action lowers an expression** while so many addresses are held. -/
def Lowers (d : Declarations) (f : Option FunctionId) (E : Error → Prop) (n : Nat)
    (asTarget : Bool) (action : Lower Value) (e : Expr) : Prop :=
  ∀ s : LoweringState, s.Poised d f → s.layout.leased.length ≤ n →
    Ends action s (fun v t => Yields s t asTarget e v) E

/-- The number of addresses that are held behind a value. -/
theorem leased_length {t : LoweringState} {asTarget : Bool} {e : Expr} {v : Value}
    (few : s.layout.leased.length ≤ n) (yields : Yields s t asTarget e v) :
    t.layout.leased.length ≤ n + e.held := by
  obtain ⟨rs, leads⟩ := yields.leads
  have length := leads.layout.leased.length_eq
  rw [List.length_append, List.length_map] at length
  have own : v.lease.toList.length ≤ e.held := by
    cases lease : v.lease with
    | none => simp
    | some x => simp [Expr.held, yields.holds (by rw [lease]; rfl)]
  omega

/-- A value in a place of its own is what an expression without an address
yields. -/
theorem yields_ofPlaces {s s₁ t : LoweringState} {asTarget : Bool} {e : Expr} {out : Location}
    {rs : List Location} (places : Places s s₁ e.ty out) (leads : s.Leads t rs [])
    (later : s₁.Leads t [] []) : Yields s t asTarget e { location := out, ty := e.ty } := by
  have stands := (Value.Stands.ofPlaces places).leads later
  exact
    { leads := ⟨rs, leads⟩
      ty := rfl
      leased := stands.lease
      stands := fun _ => stands
      operand := fun _ _ => places.isOperand
      holds := by simp
      writeBack := by simp
      reloads := by simp }

end Lower

end Shading
