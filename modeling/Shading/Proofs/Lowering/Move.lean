import Shading.Proofs.Lowering.Steps

/-!
# Moves succeed

Every way of moving a value succeeds from a state in good order, and
leaves nothing behind (`Steady`). An SSE register can always be leased,
since no lease of one outlives the operation that took it (`Quiet`) and
no operation names eight of them. A general register may be missing when
addresses are held: where one is needed, the lemma asks for one
(`RoomFor`) or for an error that reports the lack of it.
-/

namespace Shading

open LoweringState

namespace LoweringState

/-- No SSE register is under a lease. -/
def Quiet (s : LoweringState) : Prop := ∀ id, Location.simdRegister id ∉ s.layout.leased

/-- **A general register is at hand** to compute what goes to a place: the
place is one, or there is room for one beside it and the operands, or
the lack of one is an error that is put up with. -/
def RoomFor (s : LoweringState) (E : Error → Prop) (out : Location) (operands : List Location) :
    Prop :=
  out.isRegister = true ∨ s.layout.Room .general (out :: operands) ∨
    E (.layout (.noRegister .general))

variable {s₀ s : LoweringState} {registers : List Location} {held : List Lease}

theorem Quiet.leads (quiet : s₀.Quiet) (h : s₀.Leads s registers held)
    (general : ∀ x ∈ held, ∀ id, x.location ≠ .simdRegister id) : s.Quiet := by
  intro id leased
  rcases List.mem_append.1 (h.layout.leased.mem_iff.1 leased) with before | now
  · exact quiet id before
  · obtain ⟨x, hx, same⟩ := List.mem_map.1 now
    exact general x hx id same

theorem Quiet.step (quiet : s₀.Quiet) (h : s₀.Leads s registers []) : s.Quiet :=
  quiet.leads h (by simp)

/-- **There is room for an SSE register** beside fewer than eight
locations, if they name those under a lease. -/
theorem Quiet.room (quiet : s₀.Quiet) (h : s₀.Leads s registers held) {avoid : List Location}
    (few : avoid.length < 8) (named : ∀ x ∈ held, x.location ∈ avoid) :
    s.layout.Room .simd avoid := by
  refine Layout.room_of_cover (registersOf .simd avoid)
    (Nat.lt_of_le_of_lt (length_registersOf_le _ _) few) (fun _ h => h) fun id leased => ?_
  rcases List.mem_append.1 (h.layout.leased.mem_iff.1 leased) with before | now
  · exact absurd before (quiet id)
  · obtain ⟨x, hx, same⟩ := List.mem_map.1 now
    exact mem_registersOf.2 ⟨x.location, named x hx, by rw [same]; rfl⟩

end LoweringState

namespace Lower

/-- **A step that leaves nothing behind.** -/
def Steady {α : Type} (x : Lower α) (s : LoweringState) (E : Error → Prop) : Prop :=
  Ends x s (fun _ s' => s.Leads s' [] []) E

variable {α β : Type} {s₀ s : LoweringState} {registers : List Location} {held : List Lease}
  {E : Error → Prop}

/-- A steady step goes on with any course. -/
theorem Steady.after {x : Lower α} (hx : Steady x s E) (h : s₀.Leads s registers held) :
    Ends x s (fun _ s' => s₀.Leads s' registers held) E :=
  hx.mono (fun _ _ h' => h.step h') fun _ h => h

/-- An action for each of some values, of which each goes on with the
course. -/
theorem forM_ends {action : α → Lower Unit} (xs : List α) (h : s₀.Leads s registers held)
    (each : ∀ x ∈ xs, ∀ t, s₀.Leads t registers held →
      Ends (action x) t (fun _ t' => s₀.Leads t' registers held) E) :
    Ends (xs.forM action) s (fun _ s' => s₀.Leads s' registers held) E := by
  induction xs generalizing s with
  | nil => exact .pure h
  | cons x xs ih =>
    refine .bind (each x List.mem_cons_self s h) fun _ t h' => ?_
    exact ih h' fun y hy => each y (List.mem_cons_of_mem _ hy)

theorem forRows_ends {action : Nat → Lower Unit} (rows : Nat) (h : s₀.Leads s registers held)
    (each : ∀ row, ∀ t, s₀.Leads t registers held →
      Ends (action row) t (fun _ t' => s₀.Leads t' registers held) E) :
    Ends (forRows rows action) s (fun _ s' => s₀.Leads s' registers held) E :=
  forM_ends (List.range rows) h fun row _ => each row

/-! ## Leases of single operations -/

/-- Leasing an SSE register beside fewer than eight locations that name
those under a lease. -/
theorem acquireSimd_ends (quiet : s₀.Quiet) (h : s₀.Leads s registers held)
    {avoid : List Location} (few : avoid.length < 8) (named : ∀ x ∈ held, x.location ∈ avoid) :
    Ends (acquire .simd avoid) s (fun x s' => s₀.Leads s' registers (held ++ [x]) ∧
      ∃ id, s.layout.Grants s'.layout .simd avoid x id) E :=
  acquire_ends h (.inl (quiet.room h few named))

/-- A leased register is a register. -/
theorem isRegister_of_grants {l l' : Layout} {c : RegisterClass} {avoid : List Location} {x : Lease}
    {id : Nat} (grants : l.Grants l' c avoid x id) : x.location.isRegister = true := by
  rw [grants.location]
  exact RegisterClass.isRegister_location c id

/-- Ending a lease, if there is one. -/
theorem releaseOption_ends {lease : Option Lease}
    (h : s₀.Leads s registers (held ++ lease.toList)) :
    Ends (releaseOption lease) s (fun _ s' => s₀.Leads s' registers held) E := by
  cases lease with
  | none =>
    rw [Option.toList_none, List.append_nil] at h
    exact .pure h
  | some x => exact release_last_ends h

/-! ## Whole values -/

/-- **Moving a value** succeeds if one of the places is a register, or if
there is room for one. -/
theorem transfer_steady (ok : s.Ok) (w : Width) {dest src : Location} (hd : dest.IsOperand)
    (hs : src.IsOperand)
    (room : dest.isRegister = true ∨ src.isRegister = true ∨
      s.layout.Room w.registerClass [dest, src] ∨ E (.layout (.noRegister w.registerClass))) :
    Steady (transfer w dest src) s E := by
  have h := Leads.refl ok
  unfold Steady transfer
  split
  · exact .pure h
  split
  · next register => exact emit_ends h _ register hs []
  split
  · next register => exact emitStore_ends h _ hd register
  · next notDest notSrc =>
    refine .bind (acquire_ends h ((room.resolve_left notDest).resolve_left notSrc)) ?_
    rintro x t ⟨h₁, id, grants⟩
    have register := isRegister_of_grants grants
    refine .bind (emit_ends h₁ _ register hs []) fun _ _ h₂ => ?_
    refine .bind (emitStore_ends h₂ _ hd register) fun _ _ h₃ => ?_
    exact release_last_ends h₃

/-- Moving a value by SSE registers always succeeds. -/
theorem transferSimd_steady (ok : s.Ok) (quiet : s.Quiet) {w : Width} (simd : w.registerClass = .simd)
    {dest src : Location} (hd : dest.IsOperand) (hs : src.IsOperand) :
    Steady (transfer w dest src) s E :=
  transfer_steady ok w hd hs (.inr (.inr (.inl (by
    rw [simd]
    exact quiet.room (.refl ok) (by simp) (by simp)))))

theorem isRegister_of_eq {l : Location} {c : RegisterClass} (h : ∃ id, l = c.location id) :
    l.isRegister = true := by
  obtain ⟨id, rfl⟩ := h
  exact RegisterClass.isRegister_location c id

theorem isOperand_of_eq {l : Location} {c : RegisterClass} (h : ∃ id, l = c.location id) :
    l.IsOperand := Location.isOperand_of_isRegister (isRegister_of_eq h)

/-- The register that a result is computed in. -/
theorem accumulator_ends (h : s₀.Leads s registers held) {out : Location} {c : RegisterClass}
    {avoid : List Location}
    (room : (∃ id, out = c.location id) ∨ s.layout.Room c avoid ∨ E (.layout (.noRegister c))) :
    Ends (accumulator out c avoid) s (fun r s' => s₀.Leads s' registers (held ++ r.2.toList) ∧
      (∃ id, r.1 = c.location id) ∧ ∀ x ∈ r.2, x.location = r.1) E := by
  unfold accumulator
  split
  · next own =>
    have eq : ∃ id, out = c.location id := by
      cases out <;> cases c <;>
        simp_all [Location.isRegister, Location.registerOf?, RegisterClass.location]
    exact .pure ⟨by simpa using h, eq, by simp⟩
  · next other =>
    have notOwn : ¬ ∃ id, out = c.location id := by
      rintro ⟨id, rfl⟩
      simp at other
    refine .bind (acquire_ends h (room.resolve_left notOwn)) ?_
    rintro x t ⟨h', id, grants⟩
    exact .pure ⟨h', ⟨id, grants.location⟩, by simp⟩

/-- The register that a result of floats is computed in. -/
theorem accumulatorSimd_ends (quiet : s₀.Quiet) (h : s₀.Leads s registers held) {out : Location}
    {avoid : List Location} (few : avoid.length < 8) (named : ∀ x ∈ held, x.location ∈ avoid) :
    Ends (accumulator out .simd avoid) s (fun r s' =>
      s₀.Leads s' registers (held ++ r.2.toList) ∧
      (∃ id, r.1 = .simdRegister id) ∧ ∀ x ∈ r.2, x.location = r.1) E :=
  accumulator_ends h (.inr (.inl (quiet.room h few named)))

/-- Moving a result from a register to its place. -/
theorem settle_ends {out acc : Location} {lease : Option Lease} {w : Width}
    (h : s₀.Leads s registers (held ++ lease.toList)) (hout : out.IsOperand)
    (register : ∃ c id, acc = RegisterClass.location c id) :
    Ends (settle out acc lease w) s (fun _ s' => s₀.Leads s' registers held) E := by
  cases lease with
  | none =>
    rw [Option.toList_none, List.append_nil] at h
    exact .pure h
  | some x =>
    obtain ⟨c, id⟩ := register
    refine .bind ((transfer_steady h.ok w hout (isOperand_of_eq id)
      (.inr (.inl (isRegister_of_eq id)))).after h) fun _ t h' => ?_
    exact release_last_ends h'

/-- Moving rows succeeds. -/
theorem transferRows_steady (ok : s.Ok) (quiet : s.Quiet) (rows : Nat) {dest src : Location}
    (hd : dest.IsOperand) (hs : src.IsOperand) : Steady (transferRows rows dest src) s E :=
  forRows_ends rows (.refl ok) fun _ _ h =>
    (transferSimd_steady h.ok (quiet.step h) rfl ((Location.isOperand_offsetBy dest _).2 hd)
      ((Location.isOperand_offsetBy src _).2 hs)).after h

/-- A place for the values of an integral type is a general register or in
memory. -/
theorem Fits.general {ty : Ty} {l : Location} (fits : l.Fits ty) (integral : ty.isIntegral = true)
    (register : l.isRegister = true) : ∃ id, l = RegisterClass.general.location id := by
  cases l <;> cases ty <;> simp_all [Location.Fits, Location.isRegister, RegisterClass.location,
    Ty.isIntegral, RegisterClass.ofTy?]

/-- **Storing a value in a place that is no lane** succeeds, if a general
register is free to move an integer between places in memory. -/
theorem storeWhole_steady (ok : s.Ok) (quiet : s.Quiet) {dest : Location} {ty : Ty} {v : Value}
    (hd : dest.IsOperand) (fits : dest.Fits ty) (hv : v.location.IsOperand)
    (room : ty.isIntegral = true →
      (v.ty.isIntegral = true ∧ v.location.isRegister = true) ∨ s.RoomFor E dest [v.location]) :
    Steady (storeWhole dest ty v) s E := by
  have h := Leads.refl ok
  unfold Steady storeWhole
  split
  · refine .bind (accumulatorSimd_ends quiet h (by simp) (by simp)) ?_
    rintro ⟨acc, lease⟩ t ⟨h₁, register, -⟩
    refine .bind (emit_ends h₁ _ (isRegister_of_eq (c := .simd) register) hv []) fun _ _ h₂ => ?_
    exact settle_ends h₂ hd ⟨.simd, register⟩
  · next value =>
    have space : s.RoomFor E dest [v.location] := (room rfl).resolve_left fun own => by
      rw [value] at own
      cases own.1
    refine .bind (accumulator_ends h (space.imp (Fits.general fits rfl) id)) ?_
    rintro ⟨acc, lease⟩ t ⟨h₁, register, -⟩
    refine .bind (emit_ends h₁ _ (isRegister_of_eq register) hv []) fun _ _ h₂ => ?_
    exact settle_ends h₂ hd ⟨_, register⟩
  · rename_i ty _ _ _ _
    split
    · exact transferRows_steady ok quiet _ hd hv
    · refine transfer_steady ok _ hd hv ?_
      cases integral : ty.isIntegral with
      | true =>
        have general : (Width.ofTy ty).registerClass = .general := by
          cases ty <;> simp_all [Ty.isIntegral, Width.ofTy, Width.registerClass]
        rw [general]
        rcases room integral with ⟨-, register⟩ | register | space
        · exact .inr (.inl register)
        · exact .inl register
        · exact .inr (.inr space)
      | false =>
        have simd : (Width.ofTy ty).registerClass = .simd := by
          cases ty <;> simp_all [Ty.isIntegral, Width.ofTy, Width.registerClass]
        rw [simd]
        exact .inr (.inr (.inl (quiet.room h (by simp) (by simp))))

/-- Storing a float in an SSE register succeeds. -/
theorem storeFloat_ends (h : s₀.Leads s registers held) {acc : Location} {v : Value}
    (hv : v.location.IsOperand) (simd : ∃ id, acc = .simdRegister id) :
    Ends (storeWhole acc .float v) s (fun _ s' => s₀.Leads s' registers held) E := by
  obtain ⟨id, rfl⟩ := simd
  have register : (Location.simdRegister id).isRegister = true := rfl
  unfold storeWhole
  split
  · refine .bind (.pure ⟨rfl, rfl⟩ : Ends (accumulator (.simdRegister id) .simd _) s
      (fun r t => r = (.simdRegister id, none) ∧ t = s) E) ?_
    rintro _ _ ⟨rfl, rfl⟩
    refine .bind (emit_ends h _ register hv []) fun _ _ h₂ => ?_
    exact .pure h₂
  · next eq _ => cases eq
  · exact (transfer_steady h.ok _ (Location.isOperand_of_isRegister register) hv
      (.inl register)).after h

/-! ## Lanes -/

/-- The place of a constant is an operand. -/
theorem constantOperand_ends (h : s₀.Leads s registers held) (c : Constant) :
    Ends (constant c) s (fun l s' => s₀.Leads s' registers held ∧ l.IsOperand) E := by
  refine (constant_ends h c).mono ?_ fun _ h => h
  rintro _ t ⟨h', offset, rfl, -⟩
  exact ⟨h', trivial⟩

/-- Writing a lane of a register succeeds. -/
theorem writeLane_steady (ok : s.Ok) (quiet : s.Quiet) (simd shift : Nat) {v : Value}
    (hv : v.location.IsOperand) : Steady (writeLane simd shift v) s E := by
  have h := Leads.refl ok
  have whole : (Location.simdRegister simd).isRegister = true := rfl
  unfold Steady writeLane
  refine .bind (acquireSimd_ends quiet h (by simp) (by simp)) ?_
  rintro x t ⟨h₁, id, grants⟩
  have register := isRegister_of_grants grants
  have operand := Location.isOperand_of_isRegister register
  refine .bind (storeFloat_ends h₁ hv ⟨id, grants.location⟩) fun _ _ h₂ => ?_
  refine .bind (constantOperand_ends h₂ _) ?_
  rintro mask t ⟨h₃, hmask⟩
  refine .bind (emit_ends h₃ _ register hmask []) fun _ t h₄ => ?_
  have tail {t : LoweringState} (h₄ : s.Leads t [] ([] ++ [x])) :
      Ends (do
        emit .andps (.simdRegister simd) (← constant (.vector (clearMask (shift / 4))))
        emit .orps (.simdRegister simd) x.location
        release x) t (fun _ s' => s.Leads s' [] []) E := by
    refine .bind (constantOperand_ends h₄ _) ?_
    rintro clear t ⟨h₅, hclear⟩
    refine .bind (emit_ends h₅ _ whole hclear []) fun _ _ h₆ => ?_
    refine .bind (emit_ends h₆ _ whole operand []) fun _ _ h₇ => ?_
    exact release_last_ends h₇
  dsimp only
  split
  · exact .bind (emitUnary_ends h₄ _ operand _) fun _ _ h₅ => tail h₅
  · exact tail h₄

/-- **Storing a value** succeeds, if a general register is free to move an
integer between places in memory. -/
theorem store_steady (ok : s.Ok) (quiet : s.Quiet) {dest : Location} {ty : Ty} {v : Value}
    (fits : dest.Fits ty) (hv : v.location.IsOperand)
    (room : ty.isIntegral = true →
      (v.ty.isIntegral = true ∧ v.location.isRegister = true) ∨ s.RoomFor E dest [v.location]) :
    Steady (store dest ty v) s E := by
  cases dest with
  | registerLane simd shift => exact writeLane_steady ok quiet simd shift hv
  | none => exact absurd fits id
  | _ => exact storeWhole_steady ok quiet trivial fits hv room

/-- The operand of a float instruction. -/
theorem floatOperand_ends (quiet : s₀.Quiet) (h : s₀.Leads s registers held) {v : Value}
    (hv : v.location.IsOperand) {avoid : List Location} (few : avoid.length < 8)
    (named : ∀ x ∈ held, x.location ∈ avoid) :
    Ends (floatOperand v avoid) s (fun r s' => s₀.Leads s' registers (held ++ r.2.toList) ∧
      r.1.IsOperand ∧ ∀ x ∈ r.2, x.location = r.1) E := by
  unfold floatOperand
  split
  · exact .pure ⟨by simpa using h, hv, by simp⟩
  · refine .bind (acquireSimd_ends quiet h few named) ?_
    rintro x t ⟨h₁, id, grants⟩
    have register := isRegister_of_grants grants
    refine .bind (emit_ends h₁ _ register hv []) fun _ _ h₂ => ?_
    exact .pure ⟨h₂, Location.isOperand_of_isRegister register, by simp⟩

end Lower

/-! ## Values -/

/-- A value holds a lease exactly when its location is an address. -/
def Value.Leased (v : Value) : Prop :=
  (v.lease = none ∧ ∀ id, v.location ≠ .indirectRegister id) ∨
    ∃ x id, v.lease = some x ∧ x.location = .register id ∧ v.location = .indirectRegister id

/-- A value that no address leads to has no lease. -/
theorem Value.Leased.unleased {v : Value} (h : v.Leased)
    (direct : ∀ id, v.location ≠ .indirectRegister id) : v.lease = none := by
  rcases h with ⟨none, -⟩ | ⟨_, id, -, -, same⟩
  · exact none
  · exact absurd same (direct id)

/-- The address that leads to a value is leased. -/
theorem Value.Leased.exists_lease {v : Value} (h : v.Leased) {id : Nat}
    (address : v.location = .indirectRegister id) :
    ∃ x, v.lease = some x ∧ x.location = .register id := by
  rcases h with ⟨-, direct⟩ | ⟨x, id', lease, register, location⟩
  · exact absurd address (direct id)
  · rw [location] at address
    cases address
    exact ⟨x, lease, register⟩

/-- **A value stands** in a state: its location suits its type and is
kept, and its lease is that of its address. -/
structure Value.Stands (s : LoweringState) (v : Value) : Prop where
  fits : v.location.Fits v.ty
  kept : s.Keeps v.ty.size v.location
  lease : v.Leased

theorem Value.Stands.leads {s s' : LoweringState} {registers : List Location} {held : List Lease}
    {v : Value} (h : v.Stands s) (leads : s.Leads s' registers held) : v.Stands s' :=
  ⟨h.fits, leads.keeps h.kept, h.lease⟩

/-- What was placed for a type stands there as a value. -/
theorem Value.Stands.ofPlaces {s s' : LoweringState} {ty : Ty} {out : Location}
    (h : Lower.Places s s' ty out) : Value.Stands s' { location := out, ty } := by
  refine ⟨h.fits, h.keeps, .inl ⟨rfl, fun id same => ?_⟩⟩
  have fresh := h.fresh
  simp only at same
  rw [same] at fresh
  exact fresh

/-- A place in which a scalar or more stands is an operand. -/
theorem Lower.Places.isOperand {s s' : LoweringState} {ty : Ty} {out : Location}
    (h : Lower.Places s s' ty out) : out.IsOperand := by
  have fresh := h.fresh
  cases out <;> simp_all [Fresh, Location.IsOperand]

namespace Lower

variable {α β : Type} {s₀ s : LoweringState} {registers : List Location} {held : List Lease}
  {E : Error → Prop}

/-- Giving up a value ends its lease. -/
theorem finish_ends {v : Value} (h : s₀.Leads s registers (held ++ v.lease.toList)) :
    Ends (finish v) s (fun _ s' => s₀.Leads s' registers held) E :=
  releaseOption_ends h

/-- Giving up the only value at hand. -/
theorem finish_only_ends {v : Value} (h : s₀.Leads s registers v.lease.toList) :
    Ends (finish v) s (fun _ s' => s₀.Leads s' registers []) E := by
  rw [← List.nil_append v.lease.toList] at h
  exact finish_ends h

/-- **What materializing a value comes to**: it is left where it is, or it
is a float in a place of its own. -/
structure Materialized (s s' : LoweringState) (v v' : Value) : Prop where
  leads : ∃ rs, s.Leads s' rs []
  operand : v'.location.IsOperand
  ty : v'.ty = v.ty
  same : v' = v ∨ (v'.Stands s' ∧ v'.ty = .float ∧ v'.lease = none ∧ v.lease = none ∧
    v'.writeBack = none)

/-- **A lane is copied into a place of its own**, and any other value is
left where it is. -/
theorem materialize_ends (ok : s.Ok) (quiet : s.Quiet) {v : Value} (fits : v.location.Fits v.ty)
    (lane : ∀ r k, v.location = .registerLane r k → v.lease = none) :
    Ends (materialize v) s (fun v' s' => Materialized s s' v v') E := by
  obtain ⟨location, ty, lease, writeBack⟩ := v
  have h := Leads.refl ok
  cases location with
  | registerLane simd shift =>
    obtain ⟨rfl, -⟩ : ty = .float ∧ _ := fits
    obtain rfl : lease = none := lane simd shift rfl
    have whole := Location.isOperand_simdRegister simd
    rw [materialize_def]
    refine .bind (place_ends h (by decide)) ?_
    rintro out t ⟨h₁, places⟩
    have stands := Value.Stands.ofPlaces places
    refine .bind (accumulatorSimd_ends (quiet.step h₁) (.refl h₁.ok) (by simp) (by simp)) ?_
    rintro ⟨acc, x⟩ u ⟨h₂, simdAcc, -⟩
    have register := isRegister_of_eq (c := .simd) simdAcc
    have operand := Location.isOperand_of_isRegister register
    refine .bind (emit_ends h₂ _ register whole []) fun _ u h₃ => ?_
    have tail {u : LoweringState} (h₃ : t.Leads u [] ([] ++ x.toList)) :
        Ends (do
          emit .andps acc (← constant (.vector lane0Mask))
          settle out acc x .single
          finish ⟨.registerLane simd shift, .float, none, writeBack⟩
          return { location := out, ty := .float } : Lower Value) u
          (fun v' s' => Materialized s s' ⟨.registerLane simd shift, .float, none, writeBack⟩ v')
          E := by
      refine .bind (constantOperand_ends h₃ _) ?_
      rintro mask u ⟨h₄, hmask⟩
      refine .bind (emit_ends h₄ _ register hmask []) fun _ _ h₅ => ?_
      refine .bind (settle_ends h₅ places.isOperand ⟨.simd, simdAcc⟩) fun _ u h₆ => ?_
      exact .pure ⟨⟨_, h₁.step h₆⟩, places.isOperand, rfl,
        .inr ⟨stands.leads h₆, rfl, rfl, rfl, rfl⟩⟩
    dsimp only
    split
    · exact .bind (emitUnary_ends h₃ _ operand _) fun _ _ h₄ => tail h₄
    · exact tail h₃
  | none => exact absurd fits id
  | _ => exact .pure ⟨⟨[], h⟩, trivial, rfl, .inl rfl⟩

end Lower

end Shading
