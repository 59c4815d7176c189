import Shading.Lowering.Move
import Shading.Proofs.Assembly.Labels
import Shading.Proofs.Layout.Course
import Shading.Proofs.Lowering.Constants

/-!
# The course of a lowering

`LoweringState.Leads s s' registers held` carries the courses of the
layout and of the code over to whole states. Between `s` and `s'` the
task at hand has not changed, the innermost scope has collected
`registers`, the leases of `held` are under way, and the constants and
division slots that were added lie behind the global memory that was in
use at `s`.

A state is in good order (`LoweringState.Ok`) when its layout and its
code are, when the tables of constants agree, and when the pooled constants
and the division slots lie apart from each other in the memory handed out so
far.
-/

namespace Shading

/-- The scratch words of divisions, from an offset on. -/
def DivisionSlots.at (offset : Nat) : DivisionSlots :=
  ⟨.globalMemory offset, .globalMemory (offset + 4), .globalMemory (offset + 8)⟩

/-- Scopes after some registers were placed in the innermost one. -/
def addRegisters (registers : List Location) : List TemporaryScope → List TemporaryScope
  | [] => []
  | scope :: scopes => { scope with registers := scope.registers ++ registers } :: scopes

@[simp] theorem addRegisters_nil (scopes : List TemporaryScope) : addRegisters [] scopes = scopes := by
  cases scopes <;> simp [addRegisters]

@[simp] theorem length_addRegisters (registers : List Location) (scopes : List TemporaryScope) :
    (addRegisters registers scopes).length = scopes.length := by
  cases scopes <;> rfl

theorem addRegisters_append (xs ys : List Location) (scopes : List TemporaryScope) :
    addRegisters ys (addRegisters xs scopes) = addRegisters (xs ++ ys) scopes := by
  cases scopes <;> simp [addRegisters]

namespace LoweringState

/-- The global memory handed out so far. -/
def globalTop (s : LoweringState) : Nat := s.layout.globalRegion.top

/-- The local memory in use. -/
def localTop (s : LoweringState) : Nat := s.layout.localRegion.top

/-- **A state in good order.** -/
structure Ok (s : LoweringState) : Prop where
  layout : s.layout.Ok
  assembly : s.assembly.Sound
  agrees : s.constants.Agrees
  /-- Pooled constants lie behind each other. -/
  ascending : s.constants.slots.Pairwise (fun a b => a.2 + a.1.size ≤ b.2)
  pooled : ∀ c ∈ s.constants.slots, c.2 + c.1.size ≤ s.globalTop ∧
    c.2 % BumpAllocator.alignmentOf c.1.size = 0
  division : ∀ d, s.divisionSlots = some d → ∃ x, d = .at x ∧ x % 4 = 0 ∧ x + 12 ≤ s.globalTop ∧
    ∀ c ∈ s.constants.slots, c.2 + c.1.size ≤ x ∨ x + 12 ≤ c.2

/-- **The course of a lowering.** -/
structure Leads (s s' : LoweringState) (registers : List Location) (held : List Lease) : Prop where
  ok : s'.Ok
  stage : s'.stage = s.stage
  placement : s'.placement = s.placement
  declarations : s'.declarations = s.declarations
  function : s'.function = s.function
  assembly : s.assembly.Leads s'.assembly
  layout : s.layout.Leads s'.layout registers held
  scopes : s'.scopes = addRegisters registers s.scopes
  constants : ∃ added, s'.constants.slots = s.constants.slots ++ added ∧
    ∀ c ∈ added, s.globalTop ≤ c.2
  division : s'.divisionSlots = s.divisionSlots ∨
    (s.divisionSlots = none ∧ ∃ x, s'.divisionSlots = some (.at x) ∧ s.globalTop ≤ x)

namespace Leads

variable {s s' s'' : LoweringState} {registers registers' : List Location} {held held' : List Lease}

theorem refl (ok : s.Ok) : s.Leads s [] [] where
  ok := ok
  stage := rfl
  placement := rfl
  declarations := rfl
  function := rfl
  assembly := .refl ok.assembly
  layout := .refl ok.layout
  scopes := (addRegisters_nil _).symm
  constants := ⟨[], by simp, by simp⟩
  division := .inl rfl

theorem globalTop_le (h : s.Leads s' registers held) : s.globalTop ≤ s'.globalTop := h.layout.globalTop

theorem localTop_le (h : s.Leads s' registers held) : s.localTop ≤ s'.localTop := h.layout.localTop

/-- **Courses compose.** -/
theorem trans (h : s.Leads s' registers held) (h' : s'.Leads s'' registers' held') :
    s.Leads s'' (registers ++ registers') (held ++ held') where
  ok := h'.ok
  stage := h'.stage.trans h.stage
  placement := h'.placement.trans h.placement
  declarations := h'.declarations.trans h.declarations
  function := h'.function.trans h.function
  assembly := h.assembly.trans h'.assembly
  layout := h.layout.trans h'.layout
  scopes := by rw [h'.scopes, h.scopes, addRegisters_append]
  constants := by
    obtain ⟨added, eq, above⟩ := h.constants
    obtain ⟨added', eq', above'⟩ := h'.constants
    refine ⟨added ++ added', by rw [eq', eq, List.append_assoc], fun c hc => ?_⟩
    rcases List.mem_append.1 hc with hc | hc
    · exact above c hc
    · exact Nat.le_trans h.globalTop_le (above' c hc)
  division := by
    rcases h.division with same | ⟨none, x, new, above⟩
    · rcases h'.division with same' | ⟨none, x, new, above⟩
      · exact .inl (same'.trans same)
      · exact .inr ⟨same ▸ none, x, new, Nat.le_trans h.globalTop_le above⟩
    · rcases h'.division with same' | ⟨none', -⟩
      · exact .inr ⟨none, x, same'.trans new, above⟩
      · rw [new] at none'
        cases none'

/-- The order of the leases under way does not matter. -/
theorem perm (h : s.Leads s' registers held) (p : held.Perm held') : s.Leads s' registers held' :=
  { h with layout := h.layout.perm p }

/-- A course goes on with steps that leave nothing behind. -/
theorem step (h : s.Leads s' registers held) (h' : s'.Leads s'' [] []) :
    s.Leads s'' registers held := by
  simpa using h.trans h'

/-- Steps that write code. -/
theorem ofAssembly (ok : s.Ok) {a : Assembly} (h : s.assembly.Leads a)
    (transcript : List LoweringEvent) :
    s.Leads { s with assembly := a, transcript := transcript } [] [] where
  ok := ⟨ok.layout, h.sound, ok.agrees, ok.ascending, ok.pooled, ok.division⟩
  stage := rfl
  placement := rfl
  declarations := rfl
  function := rfl
  assembly := h
  layout := .refl ok.layout
  scopes := (addRegisters_nil _).symm
  constants := ⟨[], by simp, by simp⟩
  division := .inl rfl

/-- Steps that change the layout. -/
theorem ofLayout (ok : s.Ok) {l : Layout} (h : s.layout.Leads l registers held)
    (transcript : List LoweringEvent) :
    s.Leads { s with layout := l, scopes := addRegisters registers s.scopes,
                     transcript := transcript } registers held where
  ok := ⟨h.ok, ok.assembly, ok.agrees, ok.ascending,
    fun c hc => ⟨Nat.le_trans (ok.pooled c hc).1 h.globalTop, (ok.pooled c hc).2⟩,
    fun d hd => by
      obtain ⟨x, eq, aligned, below, apart⟩ := ok.division d hd
      exact ⟨x, eq, aligned, Nat.le_trans below h.globalTop, apart⟩⟩
  stage := rfl
  placement := rfl
  declarations := rfl
  function := rfl
  assembly := .refl ok.assembly
  layout := h
  scopes := rfl
  constants := ⟨[], by simp, by simp⟩
  division := .inl rfl

/-- **A lease that ends** leaves the others under way. -/
theorem release (h : s.Leads s' registers held) {x : Lease} (hx : x ∈ held)
    (transcript : List LoweringEvent) :
    s.Leads { s' with layout := s'.layout.release x, transcript := transcript } registers
      (held.erase x) := by
  have layout := h.layout.release hx
  obtain ⟨-, globalRegion⟩ := Layout.regions_release s'.layout x
  exact
    { h with
      ok := ⟨layout.ok, h.ok.assembly, h.ok.agrees, h.ok.ascending,
        fun c hc => by
          change _ ≤ (s'.layout.release x).globalRegion.top ∧ _
          rw [globalRegion]
          exact h.ok.pooled c hc,
        fun d hd => by
          change ∃ y, _ ∧ _ ∧ _ ≤ (s'.layout.release x).globalRegion.top ∧ _
          rw [globalRegion]
          exact h.ok.division d hd⟩
      layout := layout }

end Leads

end LoweringState

end Shading
