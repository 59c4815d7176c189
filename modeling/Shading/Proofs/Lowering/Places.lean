import Shading.Proofs.Lowering.Move
import Shading.Proofs.Typing

/-!
# The places of variables

Lowering works on tables that differ from those of the parser only by
the places that variables were given. `LoweringState.Houses d placed` says
that this is so for the variables that a function sees: each is at home
in a register or in memory of its own, which the state keeps, and no two
of them share a byte.

What is placed later is apart from everything that is kept
(`apart_of_fresh`), so homes stay apart without further thought.
-/

namespace Shading

namespace Location

/-- A register or memory at a known offset. -/
def IsHome : Location → Prop
  | .register _ | .simdRegister _ | .globalMemory _ | .localMemory _ => True
  | _ => False

theorem IsHome.isOperand {l : Location} (h : l.IsHome) : l.IsOperand := by
  cases l <;> trivial

/-- **Two places have nothing in common**, of which the first holds so
many bytes and the second so many others. -/
def Apart (size : Nat) : Location → Nat → Location → Prop
  | .register i, _, .register j => i ≠ j
  | .simdRegister i, _, .simdRegister j | .simdRegister i, _, .registerLane j _
  | .registerLane i _, _, .simdRegister j | .registerLane i _, _, .registerLane j _ => i ≠ j
  | .globalMemory x, size', .globalMemory y | .localMemory x, size', .localMemory y =>
    x + size ≤ y ∨ y + size' ≤ x
  | _, _, _ => True

theorem Apart.symm {m n : Nat} {k l : Location} (h : k.Apart m n l) : l.Apart n m k := by
  cases k <;> cases l <;> simp_all [Apart, or_comm, ne_comm]

end Location

open LoweringState

/-- **What is new is apart from what was kept.** -/
theorem LoweringState.apart_of_fresh {s : LoweringState} {m n : Nat} {k l : Location}
    (kept : s.Keeps m k) (fresh : s.Fresh l) : k.Apart m n l := by
  cases k <;> cases l <;> simp_all only [Keeps, Fresh, Location.Apart] <;>
    first
      | exact fun same => kept (same ▸ fresh)
      | omega

/-- A variable that a function sees. -/
def Declarations.Sees (d : Declarations) (f : Option FunctionId) (id : SymbolId) : Prop :=
  ∃ v, d.symbols.get? id = some v ∧ v.kind = .variable ∧ v.VisibleIn f

/-- **Some variables have homes of their own.** -/
structure LoweringState.Houses (s : LoweringState) (d : Declarations) (placed : SymbolId → Prop) :
    Prop where
  functions : s.declarations.functions = d.functions
  /-- Only places have been given out since the tables were read. -/
  symbols : ∀ id v, d.symbols.get? id = some v →
    ∃ l, s.declarations.symbols.get? id = some { v with location := l }
  homes : ∀ id v, placed id → s.declarations.symbols.get? id = some v →
    v.location.IsHome ∧ v.location.Fits v.ty ∧ s.Keeps v.ty.size v.location
  apart : ∀ id id' v v', id ≠ id' → placed id → placed id' →
    s.declarations.symbols.get? id = some v → s.declarations.symbols.get? id' = some v' →
    v.location.Apart v.ty.size v'.ty.size v'.location

/-- Homes are kept. -/
theorem LoweringState.Houses.leads {s s' : LoweringState} {registers : List Location}
    {held : List Lease} {d : Declarations} {placed : SymbolId → Prop} (h : s.Houses d placed)
    (leads : s.Leads s' registers held) : s'.Houses d placed := by
  obtain ⟨functions, symbols, homes, apart⟩ := h
  rw [← leads.declarations] at functions symbols homes apart
  refine ⟨functions, symbols, fun id v hid hv => ?_, apart⟩
  obtain ⟨home, fits, kept⟩ := homes id v hid hv
  exact ⟨home, fits, leads.keeps kept⟩

end Shading
