import Shading.Proofs.Discipline.Assigned
import Shading.Proofs.Discipline.Intrinsics
import Shading.Proofs.Lowering.Expression

/-!
# States from which expressions are lowered

The registers that are held grow by the address of each value that is still
to be consumed (`Regime.With`). What lowering an expression gives
(`Regime.Gives`) is a value that stands, and a course to it. An address of a
vector is a multiple of sixteen when the value has just been evaluated; an
operand evaluated later may have saved the register meanwhile, and only an
access through it tells that it is right again.
-/

namespace Shading

open LoweringState Regime

namespace Regime

variable {R : Regime} {K K' : Nat → Prop} {s t u : LoweringState} {registers : List Location}
  {held : List Lease} {d : Declarations} {f : Option FunctionId} {v w : Value} {ty : Ty} {l : Location}

/-- The registers that are held beside a value: those of before, and its
address. -/
def With (K : Nat → Prop) (v : Value) : Nat → Prop := fun r => K r ∨ v.location = .indirectRegister r

/-- **A state from which the statements of a function are lowered.** -/
structure Footing (R : Regime) (K : Nat → Prop) (d : Declarations) (f : Option FunctionId)
    (s : LoweringState) : Prop where
  ready : R.Ready K s
  houses : s.Houses d (d.Sees f)
  function : s.function = f
  globals : R.KeepsGlobals s
  /-- There is a scope for the variables of the function. -/
  within : Transcript.frames s.transcript ≠ []
  identical : R.Identical

/-- **A state from which expressions are lowered**, in a scope of their
own. -/
structure Poise (R : Regime) (K : Nat → Prop) (d : Declarations) (f : Option FunctionId)
    (s : LoweringState) : Prop extends R.Footing K d f s where
  deep : 2 ≤ (Transcript.frames s.transcript).length

theorem Footing.course (footing : R.Footing K d f s) (h : R.Path K s t registers held) :
    R.Footing K d f t where
  ready := h.ready footing.ready
  houses := footing.houses.leads h.leads
  function := h.leads.function.trans footing.function
  globals := footing.globals.leads footing.ready.fine.regime h.leads
  within := by
    obtain ⟨slots, eq⟩ := h.frames
    have within := footing.within
    rw [eq]
    revert within
    cases Transcript.frames s.transcript <;> simp [Transcript.addSlots]
  identical := footing.identical

theorem Footing.opened (footing : R.Footing K d f s) : R.Poise K d f (Lower.opened s) where
  ready := Lower.ready_opened footing.ready
  houses := ⟨footing.houses.functions, footing.houses.symbols, footing.houses.homes, footing.houses.apart⟩
  function := footing.function
  globals := fun covers slot hs k hk =>
    Lower.kept_opened.2 (footing.globals (Lower.covers_opened.1 covers) slot hs k hk)
  within := List.cons_ne_nil _ _
  deep := Nat.succ_le_succ (List.length_pos_iff.2 footing.within)
  identical := footing.identical

theorem Poise.course (poise : R.Poise K d f s) (h : R.Path K s t registers held) : R.Poise K d f t where
  toFooting := poise.toFooting.course h
  deep := by
    obtain ⟨slots, eq⟩ := h.frames
    rw [eq, Transcript.length_addSlots]
    exact poise.deep

theorem Poise.knows (poise : R.Poise K d f s) (n : Nat) (l : Location) : R.Knows s n l := fun p _ =>
  poise.identical.known p

/-- **A value joins those that are held.** -/
theorem Poise.join (poise : R.Poise K d f s) (h : R.Path K s t registers v.lease.toList)
    (leased : v.Leased) : R.Poise (With K v) d f t := by
  have later := poise.course h
  refine { later with ready := ⟨later.ready.fine, fun r held => ?_, later.ready.scopes⟩ }
  rcases held with old | address
  · exact later.ready.held r old
  · rcases leased with ⟨-, direct⟩ | ⟨x, id, lease, register, location⟩
    · exact absurd address (direct r)
    · rw [location] at address
      cases address
      exact register ▸ h.leads.layout.mem_leased (by rw [lease]; exact List.mem_singleton.2 rfl)

/-- The address of a value is held by nothing else. -/
theorem Ready.fresh (ready : R.Ready K s) (h : R.Path K s t registers v.lease.toList) {x : Lease}
    (lease : v.lease = some x) {r : Nat} (location : x.location = .register r) : ¬ K r := fun held =>
  h.leads.layout.not_leased (by rw [lease]; exact List.mem_singleton.2 rfl) (location ▸ ready.held r held)

/-- **What an expression gives** between two states: a value that may be
written to if `w` says so, and that is no lane of a register if `whole`
does. -/
structure Gives (R : Regime) (K : Nat → Prop) (s t : LoweringState) (w whole : Bool) (e : Expr)
    (v : Value) : Prop where
  course : ∃ rs, R.Course K s t rs v.lease.toList
  ty : v.ty = e.ty
  leased : v.Leased
  empty : e.ty.size = 0 → v.location = .none
  stands : e.ty ≠ .void → R.Stands (With K v) t w v.ty v.location
  operand : whole = true → e.ty ≠ .void → v.location.IsOperand
  exact : v.ty.isVector = true → R.ExactAt t v.location
  writeBack : ∀ b, v.writeBack = some b → (∃ id ∈ RegisterClass.simd.pool, b.register = .simdRegister id) ∧
    ∃ o ty, b.spill = .localMemory o ∧ ty.size = 16 ∧ R.Stands K t false ty b.spill

/-- **An action gives what an expression does**, wherever it starts. -/
def GivesFrom (R : Regime) (d : Declarations) (f : Option FunctionId) (w whole : Bool)
    (action : Lower Value) (e : Expr) : Prop :=
  ∀ (K : Nat → Prop) (s : LoweringState), R.Poise K d f s →
    Results action s fun v t => R.Gives K s t w whole e v

/-- A value without an address holds no register. -/
theorem with_direct (direct : ∀ r, v.location ≠ .indirectRegister r) (r : Nat) (h : With K v r) : K r :=
  h.elim id fun eq => absurd eq (direct r)

/-- Vectors are read from where they stand. -/
theorem Poise.reads (poise : R.Poise K d f s) {b : Bool} (stands : R.Stands K s b v.ty v.location)
    (operand : v.location.IsOperand) : R.Reads K s v :=
  stands.reads poise.ready poise.globals operand (poise.knows _ _)

theorem Poise.writes (poise : R.Poise K d f s) (stands : R.Stands K s true ty l)
    (operand : l.IsOperand) : R.Writes K s ty l :=
  stands.writes poise.ready poise.globals operand

end Regime

namespace Lower

variable {R : Regime} {K : Nat → Prop} {s₀ s t u : LoweringState} {registers : List Location}
  {held : List Lease} {d : Declarations} {f : Option FunctionId} {v w : Value} {e : Expr}
  {b whole : Bool}

/-- What fails has no results. -/
theorem fail_results {α : Type} {Q : α → LoweringState → Prop} (e : Error) : Results (fail e) s Q :=
  fun _ _ run => by cases run

/-! ## Giving values up -/

/-- **A value is given up.** Other addresses stay what they are. -/
theorem finish_results (h : R.Course K s₀ s registers (held ++ v.lease.toList)) (ready₀ : R.Ready K s₀) :
    Results (finish v) s fun _ t => R.Course K s₀ t registers held ∧
      ∀ r < 8, (∀ x ∈ v.lease, x.location ≠ .register r) → R.Shows s (R.Exact r) → R.Shows t (R.Exact r) := by
  unfold finish
  cases lease : v.lease with
  | none =>
    rw [lease, Option.toList_none, List.append_nil] at h
    exact .pure ⟨h, fun _ _ _ exact => exact⟩
  | some x =>
    rw [lease, Option.toList_some] at h
    refine (release_results h ready₀ (List.mem_append_right _ (List.mem_singleton.2 rfl))).mono
      fun _ t ⟨course, rel⟩ => ⟨?_, fun r small other exact => rel.exact r small (other x rfl) exact⟩
    rwa [erase_last h.leads] at course

/-- A value in a place of its own. -/
theorem gives_placed {s₁ : LoweringState} {out : Location} {rs : List Location}
    (placed : Placed R K s s₁ e.ty out) (deep : 2 ≤ (Transcript.frames s.transcript).length)
    (ready : R.Ready K s) (course : R.Course K s t rs []) (later : R.Course K s₁ t [] []) :
    R.Gives K s t b whole e { location := out, ty := e.ty } := by
  have direct (r : Nat) : out ≠ .indirectRegister r := placed.places.direct r
  have stands : R.Stands K s₁ true e.ty out := stands_placed placed deep
  have stands := stands.course (placed.course.ready ready) later.toPath
  have stands : R.Stands K t b e.ty out := by
    cases b
    · exact stands.read
    · exact stands
  exact
    { course := ⟨rs, course⟩
      ty := rfl
      leased := .inl ⟨rfl, direct⟩
      empty := fun empty => absurd empty placed.storage
      stands := fun _ => stands.weaken fun _ h => .inl h
      operand := fun _ _ => placed.places.isOperand
      exact := fun _ r eq => absurd eq (direct r)
      writeBack := nofun }

end Lower

end Shading
