import Shading.Proofs.Effects.Comparisons
import Shading.Proofs.Lowering.Statement
import Shading.Proofs.Simulation.Expression

/-!
# Conditions select a branch

A condition is lowered to a comparison and a jump that is taken when the
comparison fails. The comparison sets flags (`Flags.ofComparison`) and the jump reads
them: registers that were borrowed for the comparison are loaded again in
between, which leaves the flags as they are. So code behind the jump is reached
where the condition holds (`Lower.condition_tests`), and where it fails the code
up to the label is passed over.

Code is told up to the distances of its jumps, which are set when their labels
are bound.
-/

namespace Shading

open LoweringState Permit

/-! ## Code up to distances -/

namespace LoweringState

variable {s t u : LoweringState} {es es' : List CodeEntry} {registers : List Location} {held : List Lease}

/-- **Entries have been added between two states**, up to distances. -/
def Adds (s t : LoweringState) (es : List CodeEntry) : Prop :=
  t.assembly.entries.map CodeEntry.unaimed = s.assembly.entries.map CodeEntry.unaimed ++ es

namespace Adds

theorem trans (h : s.Adds t es) (h' : t.Adds u es') : s.Adds u (es ++ es') := by
  rw [Adds, show _ = _ from h', show _ = _ from h, List.append_assoc]

/-- Only the code of the states matters. -/
theorem congr {s' t' : LoweringState} (h : s.Adds t es) (first : s'.assembly = s.assembly) (last : t'.assembly = t.assembly) :
    s'.Adds t' es := by
  rw [Adds, first, last]
  exact h

theorem of_code {code : List CodeEntry} (h : t.assembly.entries = s.assembly.entries ++ code) :
    s.Adds t (code.map CodeEntry.unaimed) := by
  rw [Adds, h, List.map_append]

end Adds

theorem Leads.adds (h : s.Leads t registers held) : s.Adds t ((t.codeSince s).map CodeEntry.unaimed) :=
  .of_code h.entries_eq

/-- Labels that had been given out are not bound in code behind. -/
theorem Leads.unmarked (h : s.Leads t registers held) {l : Nat} (old : l ≤ s.assembly.labels) :
    CodeEntry.mark l ∉ (t.codeSince s).map CodeEntry.unaimed := by
  intro mem
  obtain ⟨e, he, same⟩ := List.mem_map.1 mem
  obtain ⟨es, code, fresh⟩ := h.assembly.entries
  rw [codeSince_of_append code] at he
  obtain rfl : e = .mark l := by cases e <;> first | exact same | cases same
  exact Nat.not_lt.2 old (fresh _ he l (.inr rfl))

end LoweringState

namespace Lower

variable {s t : LoweringState}

/-- A jump adds itself. -/
theorem emitJump_adds (form : JumpForm) : Results (emitJump form) s fun label t =>
    s.Adds t [.jump form label 0] ∧ t.layout = s.layout ∧ t.constants = s.constants :=
  .intro rfl ⟨(Adds.of_code rfl : s.Adds _ ([CodeEntry.jump form (s.assembly.labels + 1) 0].map CodeEntry.unaimed)), rfl, rfl⟩

/-- A label that is bound adds a mark. -/
theorem bindLabel_adds {form : JumpForm} {label : Nat} (sound : s.assembly.Sound) (isOpen : s.assembly.Open form label) :
    Results (bindLabel label) s fun _ t => s.Adds t [.mark label] ∧ t.layout = s.layout ∧ t.constants = s.constants := by
  obtain ⟨i, d, -, bind⟩ := Assembly.bind_eq sound isOpen
  unfold bindLabel
  refine .bindGet ?_
  rw [bind]
  split
  · refine .intro rfl ⟨?_, rfl, rfl⟩
    rw [Adds, List.map_append, List.map_map]
    refine congrArg (· ++ _) (List.map_congr_left fun e _ => ?_)
    exact CodeEntry.unaimed_setDistance _ _ e
  · rintro _ _ ⟨⟩

end Lower

/-! ## Comparisons -/

/-- **The flags that a comparison sets.** -/
def Flags.ofComparison (lt rt : Ty) (a b : Content) : Flags :=
  if lt.isIntegral && rt.isIntegral then .ofSub (a 0) (b 0) else .ofFloats (a.toFloat lt) (b.toFloat rt)

namespace Lower

variable {s t : LoweringState} {d : Declarations} {f : Option FunctionId} {lhs rhs : Value} {op : RelationalOp}

/-- **The jump behind a comparison**, which is taken when it fails. -/
def failure (op : RelationalOp) (lt rt : Ty) : Condition :=
  if lt.isIntegral && rt.isIntegral then signedFailure op else floatFailure op

theorem failure_holds (op : RelationalOp) (lt rt : Ty) (a b : Content) :
    (failure op lt rt).holds (.ofComparison lt rt a b) = !Content.compares op lt rt a b := by
  unfold failure Flags.ofComparison Content.compares
  split
  · exact signedFailure_holds op (a 0) (b 0)
  · exact floatFailure_holds op _ _

/-- What is compared and is not both integral is two numbers. -/
theorem numbers_of_compares {l r : Ty} (compares : op.Compares l r) (plain : l.isScalar = true ∨ l = .bool)
    (mixed : ¬ (l.isIntegral && r.isIntegral) = true) : (l = .int ∨ l = .float) ∧ (r = .int ∨ r = .float) := by
  cases compares with
  | numbers _ lhs rhs => exact ⟨Ty.number_of_isScalar lhs, Ty.number_of_isScalar rhs⟩
  | equality | inequality =>
    rcases plain with scalar | rfl
    · exact ⟨Ty.number_of_isScalar scalar, Ty.number_of_isScalar scalar⟩
    · exact absurd rfl mixed

/-- What is compared with a number or a truth value is one, and no vector. -/
theorem plain_of_compares {l r : Ty} (compares : op.Compares l r) (plain : l.isScalar = true ∨ l = .bool) :
    (r.isScalar = true ∨ r = .bool) ∧ (l.isVector || r.isVector) = false := by
  have flat {t : Ty} (plain : t.isScalar = true ∨ t = .bool) : t.isVector = false := by
    revert plain
    cases t <;> decide
  have right : r.isScalar = true ∨ r = .bool := by
    cases compares with
    | numbers _ _ rhs => exact .inl rhs
    | equality | inequality => exact plain
  exact ⟨right, by rw [flat plain, flat right]; rfl⟩

/-- **A comparison sets the flags of its operands**, wherever they are. -/
theorem compare_tests (ok : s.Ok) (homeL : s.Homes lhs.ty lhs.location) (homeR : s.Homes rhs.ty rhs.location)
    (compares : op.Compares lhs.ty rhs.ty) (plain : lhs.ty.isScalar = true ∨ lhs.ty = .bool) :
    Results (compare op lhs rhs) s fun jump t => jump = failure op lhs.ty rhs.ty ∧ s.Leads t [] [] ∧
      ∀ {T : LoweringState} {rsqrt : Word → Word} {L : Nat} {m : Machine}, T.Ok → t.Follows T → T.Serves L m →
        ∃ m', Crosses T s s t rsqrt L m m' ∧ m'.registers.flags =
          .ofComparison lhs.ty rhs.ty (m.part L lhs.location) (m.part L rhs.location) := by
  intro jump t run
  have conduct : Conduct (Permit.still s ok) s t [] [] :=
    compare_conducts (.refl (Permit.still s ok)) op (homeL.reads _) (homeR.reads _) jump t run
  have start (rsqrt : Word → Word) (L : Nat) (m : Machine) :
      Produces (Permit.still s ok) s s [] [] rsqrt L m fun _ => True := .start _ rsqrt L m trivial
  have left (L : Nat) (m : Machine) : (Permit.still s ok).Offers L m lhs := homeL.offers_still
  have right (L : Nat) (m : Machine) : (Permit.still s ok).Offers L m rhs := homeR.offers_still
  unfold compare at run
  rw [(plain_of_compares compares plain).2, if_neg Bool.false_ne_true] at run
  by_cases integral : (lhs.ty.isIntegral && rhs.ty.isIntegral) = true
  · rw [if_pos integral] at run
    obtain ⟨_, u, compared, rest⟩ := bind_eq_ok.1 run
    obtain ⟨rfl, rfl⟩ := pure_eq_ok.1 rest
    refine ⟨(if_pos integral).symm, conduct.leads, fun {T rsqrt L m} okT follows serves => ?_⟩
    have both := Bool.and_eq_true_iff.1 integral
    have flags := compareInts_produces (start rsqrt L m) (left L m) (right L m) both.1 both.2 _ _ compared
    obtain ⟨m', crosses, holds⟩ := flags.crosses_still okT follows serves
    exact ⟨m', crosses, holds.trans (if_pos integral).symm⟩
  · rw [if_neg integral] at run
    obtain ⟨_, u, compared, rest⟩ := bind_eq_ok.1 run
    obtain ⟨rfl, rfl⟩ := pure_eq_ok.1 rest
    refine ⟨(if_neg integral).symm, conduct.leads, fun {T rsqrt L m} okT follows serves => ?_⟩
    obtain ⟨numberL, numberR⟩ := numbers_of_compares compares plain integral
    have flags := compareFloats_produces (start rsqrt L m) (left L m) (right L m) numberL numberR _ _ compared
    obtain ⟨m', crosses, holds⟩ := flags.crosses_still okT follows serves
    exact ⟨m', crosses, holds.trans (if_neg integral).symm⟩

/-! ## Tests -/

/-- The flags of a comparison depend on the first words alone. -/
theorem ofComparison_congr {l r : Ty} {a a' b b' : Content} (first : a 0 = a' 0) (second : b 0 = b' 0) :
    Flags.ofComparison l r a b = .ofComparison l r a' b' := by
  unfold Flags.ofComparison Content.toFloat
  rw [first, second]

/-- Numbers and truth values have a first word. -/
theorem hasWord_of_plain {t : Ty} (plain : t.isScalar = true ∨ t = .bool) : t.hasWord 0 = true := by
  revert plain
  cases t <;> decide

section

variable {l r : Expr} {ty : Ty} {p : Position}

/-- **The operands of a comparison are evaluated and compared**, and the flags
are what the comparison of their values sets. -/
theorem relational_tests (sound : d.Sound) (poised : s.Poised d f) (typedL : l.Typed d f) (typedR : r.Typed d f)
    (calculatesL : l.calculates = true) (calculatesR : r.calculates = true) (compares : op.Compares l.ty r.ty)
    (plain : l.ty.isScalar = true ∨ l.ty = .bool) :
    Results (conditionJump (.relational op l r ty p)) s fun jump t => jump = failure op l.ty r.ty ∧
      (∃ rs, s.Leads t rs []) ∧
      ∀ {T : LoweringState} {rsqrt : Word → Word} {L : Nat} {m : Machine} {σ : Store} {a b : Content}, T.Ok → t.Follows T →
        T.Serves L m → s.Holds d f L m σ → l.eval rsqrt σ = .ok a → r.eval rsqrt σ = .ok b →
        ∃ m', Crosses T s s t rsqrt L m m' ∧ m'.registers.flags = .ofComparison l.ty r.ty a b := by
  have plainR := (plain_of_compares compares plain).1
  have valued {t : Ty} (plain : t.isScalar = true ∨ t = .bool) : t ≠ .void := by
    rintro rfl
    revert plain
    decide
  rw [conditionJump_def]
  refine (expression_computes sound l typedL calculatesL s poised).bind fun v t₁ left => ?_
  obtain ⟨rs₁, leads₁⟩ := left.leads
  have poised₁ := poised_step poised leads₁
  refine (expression_computes sound r typedR calculatesR t₁ poised₁).bind fun w t₂ right => ?_
  obtain ⟨rs₂, leads₂⟩ := right.leads
  have poised₂ := poised_step poised₁ leads₂
  have homeL := (left.dwells (valued plain)).homes
  have homeR := (right.dwells (valued plainR)).homes
  refine (compare_tests poised₂.ok (homeL.leads leads₂) homeR (by rw [left.ty, right.ty]; exact compares)
    (by rw [left.ty]; exact plain)).bind ?_
  rintro jump t₃ ⟨same, leads₃, tests⟩
  rw [finish_unleased left.unleased, finish_unleased right.unleased]
  have whole : s.Leads t₃ (rs₁ ++ rs₂) [] := by simpa using (leads₁.trans leads₂).trans leads₃
  refine .pure ⟨by rw [same, left.ty, right.ty], ⟨_, whole⟩, fun {T rsqrt L m σ a b} okT follows serves holds valueL valueR => ?_⟩
  have later := leads₃.follows.trans follows
  obtain ⟨m₁, first, carriesL⟩ := left.crosses okT (leads₂.follows.trans later) serves holds valueL
  obtain ⟨m₂, second, carriesR⟩ := right.crosses okT later first.serves
    (holds.retained poised.houses leads₁.declarations first.retains) valueR
  have carriesL := second.retains.carries (left.ty ▸ homeL) carriesL
  obtain ⟨m₃, third, flags⟩ := @tests T rsqrt L m₂ okT follows second.serves
  have back₁ (ty' : Ty) (k : Location) (home : s.Homes ty' k) : t₁.Homes ty' k := home.leads leads₁
  have back₂ (ty' : Ty) (k : Location) (home : s.Homes ty' k) : t₂.Homes ty' k := (back₁ ty' k home).leads leads₂
  refine ⟨m₃, (first.trans (second.back back₁)).trans (third.back back₂), flags.trans ?_⟩
  rw [left.ty, right.ty]
  exact ofComparison_congr (carriesL 0 (hasWord_of_plain plain)) (carriesR 0 (hasWord_of_plain plainR))

/-- **The test in front of a choice**: code that sets flags, and a jump past the
body. -/
structure Tests (s t : LoweringState) (d : Declarations) (f : Option FunctionId) (op : RelationalOp) (l r : Expr)
    (skip : Nat) (test : List CodeEntry) : Prop where
  adds : s.Adds t (test ++ [.jump (.when (failure op l.ty r.ty)) skip 0])
  flags : ∀ {T : LoweringState} {rsqrt : Word → Word} {L : Nat} {m : Machine} {σ : Store} {a b : Content}, T.Ok → t.Follows T →
    T.Serves L m → s.Holds d f L m σ → l.eval rsqrt σ = .ok a → r.eval rsqrt σ = .ok b →
    ∃ m', Machine.Track.run rsqrt (.running m) test = .running m' ∧ T.Serves L m' ∧ s.Retains L m m' ∧
      m'.registers.flags = .ofComparison l.ty r.ty a b

/-- **A comparison that stands as a condition** is tested. -/
theorem condition_tests (sound : d.Sound) (poised : s.Poised d f) (typedL : l.Typed d f) (typedR : r.Typed d f)
    (calculatesL : l.calculates = true) (calculatesR : r.calculates = true) (compares : op.Compares l.ty r.ty)
    (plain : l.ty.isScalar = true ∨ l.ty = .bool) :
    Results (condition (.relational op l r ty p)) s fun skip t => ∃ test, Tests s t d f op l r skip test := by
  rintro skip t run
  rw [condition_eq] at run
  obtain ⟨u, inner, close⟩ := exists_of_inScope run
  obtain ⟨jump, u₁, tested, jumped⟩ := bind_eq_ok.1 inner
  obtain ⟨same, ⟨rs, leads⟩, flags⟩ := relational_tests sound (opened_poised poised) typedL typedR calculatesL calculatesR
    compares plain jump u₁ tested
  subst same
  obtain ⟨adds, layout, constants⟩ := emitJump_adds (.when (failure op l.ty r.ty)) skip u jumped
  obtain ⟨assembly, follows⟩ := leaveScope_rests _ u _ _ close
  refine ⟨(u₁.codeSince (opened s)).map CodeEntry.unaimed, (leads.adds.trans adds).congr rfl assembly,
    fun {T rsqrt L m σ a b} okT later serves holds valueL valueR => ?_⟩
  have jumps : u₁.Follows u := .of_layout layout constants
  obtain ⟨m', crosses, set⟩ := flags okT (jumps.trans (follows.trans later)) serves holds valueL valueR
  refine ⟨m', ?_, crosses.serves, crosses.retains.back fun ty' k home => ⟨home.home, home.fits, home.keeps⟩, set⟩
  rw [Machine.Track.run_unaimed]
  exact crosses.run

end

end Lower

end Shading
