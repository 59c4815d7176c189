import Shading.Proofs.Frames.Calls
import Shading.Proofs.Lowering.Expression

/-!
# The operations that expressions call

The types of its operands choose the operation that a binary operation calls
(`Helper.ofBinary`), and the name of an intrinsic function of the stage chooses
that of the function (`Helper.ofIntrinsic`). With operands of types that go
together, and with a place that receives the result, each of these calls is
passed what it is for (`Helper.passed_ofBinary`, `Helper.passed_ofIntrinsic`).
-/

namespace Shading

/-! ## Places that receive results -/

namespace LoweringState

variable {s t : LoweringState} {ty : Ty} {out : Location} {registers : List Location} {held : List Lease}

/-- **A place receives its result** also later on. -/
theorem Receives.leads (h : s.Receives ty out) (leads : s.Leads t registers held) : t.Receives ty out where
  fits := h.fits
  keeps := leads.keeps h.keeps
  address := fun id same => leads.layout.leased.mem_iff.2 (List.mem_append_left _ (h.address id same))

theorem Receives.opened (h : s.Receives ty out) : (Lower.opened s).Receives ty out where
  fits := h.fits
  keeps := by
    have keeps := h.keeps
    cases out <;> exact keeps
  address := h.address

/-- A place that was given out receives a result. -/
theorem receives_of_places (places : Lower.Places s t ty out) : t.Receives ty out :=
  ⟨places.fits, places.keeps, fun id same => absurd same (places.direct id)⟩

/-- A place with a value in it receives another one, while its lease goes
on. -/
theorem receives_of_stands {v : Value} (stands : v.Stands t) (leads : s.Leads t registers (held ++ v.lease.toList)) :
    t.Receives v.ty v.location where
  fits := stands.fits
  keeps := stands.kept
  address := fun id same => by
    rcases stands.lease with ⟨-, direct⟩ | ⟨x, i, some, register, location⟩
    · exact absurd same (direct id)
    · obtain rfl := Location.indirectRegister.inj (same.symm.trans location)
      refine leads.layout.leased.mem_iff.2 (List.mem_append_right _ (List.mem_map.2 ⟨x, ?_, register⟩))
      exact List.mem_append_right _ (Option.mem_toList.2 some)

/-- The register of a lease receives a word. -/
theorem receives_of_grants {avoid : List Location} {x : Lease} {id : Nat} {l : Layout}
    (grants : l.Grants s.layout .general avoid x id) : s.Receives .int x.location := by
  have location : x.location = .register id := grants.location
  rw [location]
  refine ⟨⟨rfl, grants.pool⟩, fun free => ?_, by rintro _ ⟨⟩⟩
  obtain ⟨before, notPooled⟩ := (grants.leads.free .general id).1 free
  rcases grants.spill with ⟨none, -⟩ | ⟨notFree, -⟩
  · refine notPooled (List.mem_append_right _ (mem_pooledOf.2 ⟨x, List.mem_singleton_self x, ?_, location⟩))
    simp [Lease.isPooled, none]
  · exact notFree before

end LoweringState

/-! ## Calls -/

/-- What lowers something is a call that gives its place. -/
theorem Lower.into_eq_ok {x : Lower Unit} {s t : LoweringState} (out : Location) (run : x s = .ok ((), t)) :
    Lower.into out x s = .ok (out, t) :=
  bind_eq_ok.2 ⟨(), t, run, rfl⟩

namespace Helper

/-- **The operation that computes a binary operation** of a result type. A
division of integers is none of them. -/
def ofBinary (op : BinaryOp) (out : Location) (ty : Ty) (lhs rhs : Value) : Option Helper :=
  if op = .multiply ∧ lhs.ty.isMatrix ∧ rhs.ty.isMatrix then some (matrixProduct out lhs rhs)
  else if op = .multiply ∧ lhs.ty.isMatrix ∧ rhs.ty.isVector then some (matrixVector out lhs rhs)
  else if lhs.ty.isVector ∧ rhs.ty.isScalar then some (vectorScalar out lhs rhs)
  else if lhs.ty.isVector then some (packed op out lhs rhs)
  else if ty = .float then some (scalarFloat op out lhs rhs)
  else if op = .divide then none
  else some (scalarInt op out lhs rhs)

/-- **The operation that computes an intrinsic function.** -/
def ofIntrinsic (name : String) (out : Location) (args : List Value) : Option Helper :=
  match name, args with
  | "normalize", [v] => some (normalize out v)
  | "length", [v] => some (vectorLength out v)
  | "dot3", [a, b] => some (dot3 out a b)
  | "max", [a, b] => some (larger out a b)
  | "clamp", [x, lo, hi] => some (clamp out x lo hi)
  | _, _ => none

variable {op : BinaryOp} {out : Location} {ty : Ty} {lhs rhs : Value} {h : Helper} {s t : LoweringState}

/-- A binary operation is lowered by the call of its operation. -/
theorem call_of_binary (call : ofBinary op out ty lhs rhs = some h) (run : Lower.binary op out ty lhs rhs s = .ok ((), t)) :
    h.call s = .ok (out, t) := by
  unfold ofBinary at call
  unfold Lower.binary at run
  split_ifs at call run <;> (obtain rfl := Option.some.inj call; exact Lower.into_eq_ok out run)

/-- **The type of a result is that of an operand**: of the vector, of the left
one of two matrices, and of what a matrix is applied to. Numbers that give no
float give an integer. -/
theorem arith_of_joins {l r : Ty} (joins : Parser.joins op l r = true) :
    (l.isMatrix = true → r.isMatrix = true → l.arith r = l) ∧
      (l.isMatrix = true → r.isVector = true → r.isMatrix = false → op = .multiply → l.arith r = r) ∧
      (l.isVector = true → ¬ (op = .multiply ∧ l.isMatrix = true ∧ r.isVector = true) → l.arith r = l) ∧
      (l.isVector = false → l.arith r ≠ .float → l.arith r = .int) := by
  revert joins
  cases op <;> cases l <;> cases r <;> decide

/-- **The operation of a binary operation is passed what it is for.** -/
theorem passed_ofBinary (yields : op.Yields lhs.ty rhs.ty ty) (receives : s.Receives ty out)
    (call : ofBinary op out ty lhs rhs = some h) : h.Passed s := by
  obtain ⟨joins, rfl⟩ := yields.joins
  obtain ⟨matrices, applies, same, whole⟩ := arith_of_joins joins
  unfold ofBinary at call
  split_ifs at call with product applied scaled vector float divides
  all_goals obtain rfl := Option.some.inj call
  · rw [matrices product.2.1 product.2.2] at receives
    exact ⟨product.2.1, receives⟩
  · have notMatrix : rhs.ty.isMatrix = false :=
      Bool.eq_false_iff.2 fun matrix => product ⟨applied.1, applied.2.1, matrix⟩
    rw [applies applied.2.1 applied.2.2 notMatrix applied.1] at receives
    exact ⟨applied.2.2, receives⟩
  · rw [same scaled.1 applied] at receives
    exact ⟨scaled.1, receives⟩
  · rw [same vector applied] at receives
    exact ⟨vector, receives⟩
  · rw [float] at receives
    exact receives
  · rw [whole (Bool.eq_false_iff.2 vector) float] at receives
    exact ⟨divides, receives⟩

/-! ## Intrinsic functions -/

/-- An intrinsic function is lowered by the call of its operation. -/
theorem call_of_intrinsic {name : String} {args : List Value} (call : ofIntrinsic name out args = some h)
    (run : Lower.intrinsic name out args s = .ok ((), t)) : h.call s = .ok (out, t) := by
  unfold ofIntrinsic at call
  split at call <;> first
    | (obtain rfl := Option.some.inj call; exact Lower.into_eq_ok out run)
    | cases call

/-- **The operation of an intrinsic function is passed what it is for**, if the
parameters of the function store its arguments. -/
theorem passed_ofIntrinsic {g : StageFunction} {args : List Value} (known : g ∈ stageFunctions)
    (stores : List.Forall₂ Ty.Stores g.parameters (args.map Value.ty)) (receives : g.returnTy ≠ .void → s.Receives g.returnTy out)
    (call : ofIntrinsic g.name out args = some h) : h.Passed s := by
  simp only [stageFunctions, List.mem_cons, List.not_mem_nil, or_false] at known
  rcases known with rfl | rfl | rfl | rfl | rfl | rfl
  · obtain ⟨v, rfl, fits⟩ := Ty.Stores.one stores
    obtain rfl := Option.some.inj call
    have receives : s.Receives .vec4 out := receives (by decide)
    rw [← fits.vec4_eq] at receives
    exact ⟨by rw [fits.vec4_eq]; rfl, receives⟩
  · obtain ⟨v, rfl, -⟩ := Ty.Stores.one stores
    obtain rfl := Option.some.inj call
    exact receives (by decide)
  · obtain ⟨a, b, rfl, -⟩ := Ty.Stores.two stores
    obtain rfl := Option.some.inj call
    exact receives (by decide)
  · obtain ⟨a, b, rfl, -⟩ := Ty.Stores.two stores
    obtain rfl := Option.some.inj call
    exact receives (by decide)
  · obtain ⟨x, lo, hi, rfl, -⟩ := Ty.Stores.three stores
    obtain rfl := Option.some.inj call
    exact receives (by decide)
  · obtain ⟨v, rfl, -⟩ := Ty.Stores.one stores
    cases call

end Helper

end Shading
