import Shading.Layout

/-!
# Sessions of layout operations

A session runs layout operations in any order on one layout. Scopes and
leases are numbered as they are opened and granted, and are named by
their numbers afterwards, so that scopes may close and leases end in any
order.
-/

namespace Shading.Layout

/-- **One operation on a layout.** -/
inductive Action where
  /-- Reserves so many bytes of global memory. -/
  | allocateGlobal (size : Nat)
  | place (ty : Ty) (region : Region)
  | placeInMemory (ty : Ty) (region : Region)
  | openScope
  | placeInScope (scope : Nat) (ty : Ty)
  | placeInScopeMemory (scope : Nat) (ty : Ty)
  | closeScope (scope : Nat)
  | lease (cls : RegisterClass) (avoid : List Location)
  | release (lease : Nat)
deriving DecidableEq

/-- **What an operation answers.** -/
inductive Answer where
  | placed (location : Location)
  /-- The number of an opened scope. -/
  | opened (scope : Nat)
  | leased (lease : Lease)
  | done
  /-- The scope or lease was never given out, or the scope is closed. -/
  | unknown
deriving DecidableEq

/-- **A layout with the scopes and leases given out so far.** A closed
scope and an ended lease keep their number without a value. -/
structure Session where
  layout : Layout := {}
  scopes : List (Option TemporaryScope) := []
  leases : List (Option Lease) := []

namespace Session

/-- The scope with a number, if it is open. -/
def openScope? (s : Session) (id : Nat) : Option TemporaryScope := (s.scopes[id]?).join

/-- **Runs one operation.** A failed operation changes nothing. -/
def step (s : Session) : Action → Except Error (Answer × Session)
  | .allocateGlobal size =>
    let (location, layout) := s.layout.allocate .global size
    .ok (.placed location, { s with layout })
  | .place ty region => do
    let (location, layout) ← s.layout.place ty region
    return (.placed location, { s with layout })
  | .placeInMemory ty region => do
    let (location, layout) ← s.layout.placeInMemory ty region
    return (.placed location, { s with layout })
  | .openScope =>
    .ok (.opened s.scopes.length, { s with scopes := s.scopes ++ [some s.layout.openScope] })
  | .placeInScope id ty =>
    match s.openScope? id with
    | none => .ok (.unknown, s)
    | some scope => do
      let (location, scope, layout) ← s.layout.placeIn scope ty
      return (.placed location, { s with layout, scopes := s.scopes.set id (some scope) })
  | .placeInScopeMemory id ty =>
    match s.openScope? id with
    | none => .ok (.unknown, s)
    | some _ => do
      let (location, layout) ← s.layout.placeInMemory ty .local
      return (.placed location, { s with layout })
  | .closeScope id =>
    match s.scopes[id]? with
    | none => .ok (.unknown, s)
    | some none => .ok (.done, s)
    | some (some scope) =>
      .ok (.done, { s with layout := s.layout.closeScope scope, scopes := s.scopes.set id none })
  | .lease cls avoid => do
    let (lease, layout) ← s.layout.lease cls avoid
    return (.leased lease, { s with layout, leases := s.leases ++ [some lease] })
  | .release id =>
    match s.leases[id]? with
    | none => .ok (.unknown, s)
    | some none => .ok (.done, s)
    | some (some lease) =>
      .ok (.done, { s with layout := s.layout.release lease, leases := s.leases.set id none })

/-- The session after an operation, which is the same session if the
operation fails. -/
def after (s : Session) (a : Action) : Session :=
  match s.step a with
  | .ok (_, s) => s
  | .error _ => s

/-- The session after some operations. -/
def afterAll (s : Session) (actions : List Action) : Session := actions.foldl after s

end Session

end Shading.Layout
