import Shading.Object.Execution
import Shading.Proofs.Discipline.Program
import Shading.Proofs.Frames.Residence
import Shading.Proofs.Lowering.Evaluation
import Shading.Proofs.Simulation.Condition

/-!
# Choices select their branches

Behind the test of a choice stand a jump, the code of the branch and the label
that the jump leads to (`Lower.choiceCode`). On every machine that serves, the
operands of the comparison have values in what the variables hold
(`Expr.eval_total`), the test comes to the jump with the flags of their
comparison, and the jump is taken unless the comparison holds
(`Lower.choice_selects`). Then the branch is passed over.

Every choice of a program does so, however deep it is nested
(`Program.selects_branches`): it is lowered from a state in which no address is
held, its code is part of the code of the function, and a machine with the
constants of the program in its memory serves it.
-/

namespace Shading

open LoweringState Permit

/-! ## Values -/

namespace Expr

mutual

/-- **Whether integers are divided in an expression.** -/
def divides : Expr → Bool
  | literal _ _ _ | name _ _ _ => false
  | binary op lhs rhs ty _ => (op == .divide && ty == .int) || lhs.divides || rhs.divides
  | assign op target value _ _ =>
    (op == some .divide && target.ty == .int && value.ty == .int) || target.divides || value.divides
  | relational _ lhs rhs _ _ => lhs.divides || rhs.divides
  | negate operand _ _ | not operand _ _ => operand.divides
  | subscript base index _ _ => base.divides || index.divides
  | call _ _ args _ _ => anyDivides args

/-- Whether integers are divided in one of some expressions. -/
def anyDivides : List Expr → Bool
  | [] => false
  | e :: es => e.divides || anyDivides es

end

end Expr

/-- An operation other than a division of integers has a result. -/
theorem Content.arithmetic_total {op : BinaryOp} {l r t : Ty} (yields : op.Yields l r t)
    (whole : (op == .divide && t == .int) = false) (a b : Content) : ∃ c, Content.arithmetic op l r a b = .ok c := by
  cases yields with
  | integers op =>
    rw [Content.arithmetic_integers]
    cases op with
    | divide => cases whole
    | _ => exact ⟨_, rfl⟩
  | floats op scalarL scalarR float => exact ⟨_, Content.arithmetic_floats op scalarL scalarR float a b⟩
  | sum vector => exact ⟨_, by rw [Content.arithmetic_packed .add (by rintro ⟨⟩) vector]⟩
  | difference vector => exact ⟨_, by rw [Content.arithmetic_packed .subtract (by rintro ⟨⟩) vector]⟩
  | scaled lanes scalar => exact ⟨_, by rw [Content.arithmetic_scaled lanes scalar]⟩
  | composed matrix => exact ⟨_, by rw [Content.arithmetic_composed matrix]⟩
  | applied matrix element => exact ⟨_, by rw [Content.arithmetic_applied matrix element]⟩

/-- What has been written is read. -/
theorem Store.read_total {σ : Store} (full : ∀ id k, (σ id k).isSome = true) (id : SymbolId) (start : Nat) (t : Ty) :
    ∃ c, σ.read id start t = .ok c := by
  refine ⟨_, if_pos (List.all_eq_true.2 fun i _ => ?_)⟩
  rw [full, Bool.or_true]

namespace Expr

variable {d : Declarations} {f : Option FunctionId} {σ : Store}

mutual

/-- **An expression that calculates and divides no integers has a value** where
everything has been written. -/
theorem eval_total (rsqrt : Word → Word) (full : ∀ id k, (σ id k).isSome = true) : (e : Expr) → e.Typed d f →
    e.calculates = true → e.divides = false → ∃ c, e.eval rsqrt σ = .ok c
  | .literal v ty p, _, _, _ => ⟨.scalar v.word, by simp only [eval]⟩
  | .name id ty p, _, _, _ => by
    simp only [eval]
    exact Store.read_total full id 0 ty
  -- Division is the one operation that can fail, and it is excluded.
  | .binary op l r ty p, typed, calculates, whole => by
    cases typed with
    | binary _ hl hr yields =>
      simp only [Expr.calculates, Bool.and_eq_true] at calculates
      simp only [divides, Bool.or_eq_false_iff] at whole
      obtain ⟨a, valueL⟩ := eval_total rsqrt full l hl calculates.1 whole.1.2
      obtain ⟨b, valueR⟩ := eval_total rsqrt full r hr calculates.2 whole.2
      obtain ⟨c, value⟩ := Content.arithmetic_total yields whole.1.1 a b
      simp only [eval]
      exact ⟨c, except_bind_eq_ok.2 ⟨a, valueL, except_bind_eq_ok.2 ⟨b, valueR, value⟩⟩⟩
  | .assign _ _ _ _ _, _, calculates, _ => by simp [Expr.calculates] at calculates
  | .relational _ _ _ _ _, _, calculates, _ => by simp [Expr.calculates] at calculates
  | .negate e ty p, typed, calculates, whole => by
    cases typed with
    | negate _ he _ =>
      simp only [Expr.calculates] at calculates
      simp only [divides] at whole
      obtain ⟨a, value⟩ := eval_total rsqrt full e he calculates whole
      simp only [eval]
      exact ⟨_, except_bind_eq_ok.2 ⟨a, value, rfl⟩⟩
  | .not e ty p, typed, calculates, whole => by
    cases typed with
    | not _ he _ =>
      simp only [Expr.calculates] at calculates
      simp only [divides] at whole
      obtain ⟨a, value⟩ := eval_total rsqrt full e he calculates whole
      simp only [eval]
      exact ⟨_, except_bind_eq_ok.2 ⟨a, value, rfl⟩⟩
  | .subscript b i ty p, typed, calculates, whole => by
    cases typed with
    | subscript _ hb _ _ _ =>
      simp only [Expr.calculates, Bool.and_eq_true] at calculates
      simp only [divides, Bool.or_eq_false_iff] at whole
      obtain ⟨a, value⟩ := eval_total rsqrt full b hb calculates.1 whole.1
      obtain ⟨k, known⟩ := Option.isSome_iff_exists.1 calculates.2
      simp only [eval]
      exact ⟨_, except_bind_eq_ok.2 ⟨a, value, except_bind_eq_ok.2 ⟨k, Lower.elementNumber_eq known, rfl⟩⟩⟩
  | .call id _ args ty p, typed, calculates, whole => by
    cases typed with
    | @call _ _ _ _ _ typedArgs _ =>
      simp only [Expr.calculates] at calculates
      simp only [divides] at whole
      obtain ⟨vs, values⟩ := evalAll_total rsqrt full args typedArgs calculates whole
      simp only [eval]
      exact ⟨_, except_bind_eq_ok.2 ⟨vs, values, rfl⟩⟩

/-- Arguments have values. -/
theorem evalAll_total (rsqrt : Word → Word) (full : ∀ id k, (σ id k).isSome = true) : (es : List Expr) →
    (∀ e ∈ es, e.Typed d f) → allCalculate es = true → anyDivides es = false → ∃ vs, evalAll rsqrt σ es = .ok vs
  | [], _, _, _ => ⟨[], by simp only [evalAll]⟩
  | e :: es, typed, calculates, whole => by
    simp only [allCalculate, Bool.and_eq_true] at calculates
    simp only [anyDivides, Bool.or_eq_false_iff] at whole
    obtain ⟨a, value⟩ := eval_total rsqrt full e (typed e List.mem_cons_self) calculates.1 whole.1
    obtain ⟨vs, values⟩ := evalAll_total rsqrt full es (fun a h => typed a (List.mem_cons_of_mem _ h)) calculates.2 whole.2
    simp only [evalAll]
    exact ⟨_, except_bind_eq_ok.2 ⟨a, value, except_bind_eq_ok.2 ⟨vs, values, rfl⟩⟩⟩

end

end Expr

/-! ## Contents -/

namespace LoweringState

/-- **What the variables hold on a machine**, at their places. -/
def contents (s : LoweringState) (L : Nat) (m : Machine) : Store := fun id k => some (m.part L (s.placeOf id) k)

theorem holds_contents (s : LoweringState) (d : Declarations) (f : Option FunctionId) (L : Nat) (m : Machine) :
    s.Holds d f L m (s.contents L m) := by
  intro id v _ found k _ w known
  have place : s.placeOf id = v.location := by
    rw [placeOf, found]
    rfl
  rw [contents, place] at known
  exact Option.some.inj known

/-- A machine that serves a state serves an earlier one. -/
theorem Serves.back {s t : LoweringState} {L : Nat} {m : Machine} (h : t.Serves L m) (within : s.Within t) : s.Serves L m :=
  ⟨h.suits.back within, fun c hc => h.pools c (within.kept c hc), h.base, h.locals⟩

end LoweringState

namespace Lower

variable {s t : LoweringState} {d : Declarations} {f : Option FunctionId} {g : FunctionId}

/-! ## What has been lowered -/

theorem leads_of_condition (sound : d.Sound) {e : Expr} {skip : Nat} (settled : s.Settled d f) (typed : e.Typed d f)
    (truth : e.ty = .bool) (run : condition e s = .ok (skip, t)) :
    s.Leads t [] [] ∧ (∃ k, t.assembly.Open (.when k) skip) ∧ s.assembly.labels < skip :=
  (condition_ends (E := fun _ => True) sound settled typed truth (fun _ _ => trivial) (.inr trivial)).of_ok run

theorem leads_of_statement (sound : d.Sound) {st : Statement} (settled : s.Settled d (some g)) (typed : st.Typed d g)
    (run : statement st s = .ok ((), t)) : s.Leads t [] [] :=
  (statement_steady (E := fun _ => True) sound (fun _ _ => trivial) st s settled typed (fun _ _ => trivial)
    (.inr trivial)).of_ok run

theorem leads_of_choice (sound : d.Sound) {c : IfStatement} (settled : s.Settled d (some g)) (typed : c.Typed d g)
    (run : choice c s = .ok ((), t)) : s.Leads t [] [] :=
  (choice_steady (E := fun _ => True) sound (fun _ _ => trivial) c s settled typed (fun _ _ => trivial)
    (.inr trivial)).of_ok run

theorem leads_of_statements (sound : d.Sound) {ss : List Statement} (settled : s.Settled d (some g))
    (typed : Statement.AllTyped d g ss) (run : statements ss s = .ok ((), t)) : s.Leads t [] [] :=
  (statements_steady (E := fun _ => True) sound (fun _ _ => trivial) ss s settled typed (fun _ _ => trivial)
    (.inr trivial)).of_ok run

/-! ## Behind a branch -/

/-- **The label of a choice stands behind its branch**, once. -/
structure Rejoins (s t : LoweringState) (skip : Nat) (before after : List CodeEntry) : Prop where
  adds : s.Adds t (before ++ .mark skip :: after)
  first : CodeEntry.mark skip ∉ before
  follows : s.Follows t

/-- The label is bound behind the jump over the other branch. -/
theorem alternative_rejoins {body : Lower Unit} (settled : s.Settled d f) (h : s.Leads t [] []) {form : JumpForm}
    {skip : Nat} (isOpen : t.assembly.Open form skip) (young : s.assembly.labels < skip) (wide : form.width = 4)
    (hb : ∀ u : LoweringState, u.Settled d f → Steady body u fun _ => True) :
    Results (do
      let stop ← emitJump .always
      bindLabel skip
      body
      bindLabel stop : Lower Unit) t fun _ u => ∃ before after, Rejoins t u skip before after := by
  rintro _ u run
  obtain ⟨stop, t₁, jumped, run⟩ := bind_eq_ok.1 run
  obtain ⟨_, t₂, bound, run⟩ := bind_eq_ok.1 run
  obtain ⟨_, t₃, passed, last⟩ := bind_eq_ok.1 run
  obtain ⟨h₁, stopOpen, new⟩ := (emitJump_ends (E := fun _ => True) (.refl h.ok) .always).of_ok jumped
  obtain ⟨adds₁, layout₁, constants₁⟩ := emitJump_adds .always _ _ jumped
  have skipOpen := isOpen.leads h.ok.assembly h₁.assembly
  have older : skip ≤ t.assembly.labels := by
    obtain ⟨_, jump⟩ := isOpen.jump
    exact h.ok.assembly.jumps _ jump skip rfl
  obtain ⟨h₂, others⟩ := (bindChoice_ends (E := fun _ => True) settled.ok (h.step h₁) skipOpen young wide
    fun _ _ => trivial).of_ok bound
  obtain ⟨adds₂, layout₂, constants₂⟩ := bindLabel_adds h₁.ok.assembly skipOpen _ _ bound
  have h₃ := (hb t₂ (settled_leads settled h₂)).of_ok passed
  have stopOpen := (others .always stop (by omega) stopOpen).leads h₂.ok.assembly h₃.assembly
  obtain ⟨adds₃, layout₃, constants₃⟩ := bindLabel_adds h₃.ok.assembly stopOpen _ _ last
  refine ⟨[.jump .always stop 0], _, adds₁.trans (adds₂.trans (h₃.adds.trans adds₃)), by simp, ?_⟩
  exact (Follows.of_layout layout₁ constants₁).trans ((Follows.of_layout layout₂ constants₂).trans
    (h₃.follows.trans (.of_layout layout₃ constants₃)))

/-- **What stands behind a branch** binds the label of the choice. -/
theorem branchOtherwise_rejoins (sound : d.Sound) {otherwise : ElseBranch} (settled : s.Settled d (some g))
    (h : s.Leads t [] []) {skip : Nat} {k : Condition} (young : s.assembly.labels < skip)
    (isOpen : t.assembly.Open (.when k) skip) (typed : otherwise.Typed d g) :
    Results (branchOtherwise skip otherwise) t fun _ u => ∃ before after, Rejoins t u skip before after := by
  cases otherwise with
  | none =>
    unfold branchOtherwise
    refine (bindLabel_adds h.ok.assembly isOpen).mono ?_
    rintro _ u ⟨adds, layout, constants⟩
    exact ⟨[], [], adds, List.not_mem_nil, .of_layout layout constants⟩
  | chain c =>
    simp only [ElseBranch.Typed] at typed
    unfold branchOtherwise
    exact alternative_rejoins settled h isOpen young rfl fun u settled => choice_steady sound (fun _ _ => trivial) c u
      settled typed (fun _ _ => trivial) (.inr trivial)
  | block body =>
    simp only [ElseBranch.Typed] at typed
    unfold branchOtherwise
    exact alternative_rejoins settled h isOpen young rfl fun u settled => statements_steady sound (fun _ _ => trivial)
      body u settled typed (fun _ _ => trivial) (.inr trivial)

/-! ## Choices -/

/-- The code of a choice: a test, a jump past the code of the branch, and the
label that the jump leads to. -/
def choiceCode (jump : Condition) (skip : Nat) (test inner before after : List CodeEntry) : List CodeEntry :=
  test ++ .jump (.when jump) skip 0 :: (inner ++ (before ++ .mark skip :: after))

/-- **Code that selects a branch by a comparison.** Whatever the variables hold
on a machine that serves, the test comes to the jump with the flags of the
comparison, and the jump is taken unless the comparison holds. -/
structure Selects (serves : Nat → Machine → Prop) (s t : LoweringState) (op : RelationalOp) (l r : Expr)
    (branch : List Statement) (skip : Nat) (test inner before after : List CodeEntry) : Prop where
  adds : s.Adds t (choiceCode (failure op l.ty r.ty) skip test inner before after)
  branch : ∃ u v : LoweringState, statements branch u = .ok ((), v) ∧ u.Adds v inner
  decides : ∀ (rsqrt : Word → Word) (L : Nat) (m : Machine), serves L m → ∃ a b m',
    l.eval rsqrt (s.contents L m) = .ok a ∧ r.eval rsqrt (s.contents L m) = .ok b ∧
    Machine.Track.run rsqrt (.running m) test = .running m' ∧ s.Retains L m m' ∧
    m'.registers.flags = .ofComparison l.ty r.ty a b ∧
    Machine.Track.run rsqrt (.running m) (test ++ [.jump (.when (failure op l.ty r.ty)) skip 0]) =
      if Content.compares op l.ty r.ty a b then .running m' else .seeking skip m'
  /-- Once the jump is taken, nothing before the label is carried out. -/
  passes : ∀ (rsqrt : Word → Word) (m : Machine),
    Machine.Track.run rsqrt (.seeking skip m) (inner ++ before) = .seeking skip m

/-- A test and the jump behind it. -/
theorem Tests.decides {op : RelationalOp} {l r : Expr} {skip : Nat} {test : List CodeEntry} {T : LoweringState}
    (tests : Tests s t d f op l r skip test) (typedL : l.Typed d f) (typedR : r.Typed d f) (calculatesL : l.calculates = true)
    (calculatesR : r.calculates = true) (wholeL : l.divides = false) (wholeR : r.divides = false) (okT : T.Ok)
    (follows : t.Follows T) (rsqrt : Word → Word) {L : Nat} {m : Machine} (serves : T.Serves L m) : ∃ a b m',
    l.eval rsqrt (s.contents L m) = .ok a ∧ r.eval rsqrt (s.contents L m) = .ok b ∧
    Machine.Track.run rsqrt (.running m) test = .running m' ∧ s.Retains L m m' ∧
    m'.registers.flags = .ofComparison l.ty r.ty a b ∧
    Machine.Track.run rsqrt (.running m) (test ++ [.jump (.when (failure op l.ty r.ty)) skip 0]) =
      if Content.compares op l.ty r.ty a b then .running m' else .seeking skip m' := by
  have full (id : SymbolId) (k : Nat) : (s.contents L m id k).isSome = true := rfl
  obtain ⟨a, valueL⟩ := l.eval_total rsqrt full typedL calculatesL wholeL
  obtain ⟨b, valueR⟩ := r.eval_total rsqrt full typedR calculatesR wholeR
  obtain ⟨m', run, -, retains, flags⟩ := tests.flags okT follows serves (s.holds_contents d f L m) valueL valueR
  refine ⟨a, b, m', valueL, valueR, run, retains, flags, ?_⟩
  have taken : Machine.Track.step rsqrt (.running m') (.jump (.when (failure op l.ty r.ty)) skip 0) =
      if (failure op l.ty r.ty).holds m'.registers.flags then .seeking skip m' else .running m' := rfl
  rw [Machine.Track.run_concat, run, taken, flags, failure_holds]
  cases Content.compares op l.ty r.ty a b <;> rfl

/-- **A choice selects its branch** by the comparison in its condition. -/
theorem choice_selects (sound : d.Sound) (settled : s.Settled d (some g)) {op : RelationalOp} {l r : Expr} {ty : Ty}
    {p : Position} {branch : List Statement} {otherwise : ElseBranch}
    (typed : (IfStatement.mk (.relational op l r ty p) branch otherwise).Typed d g) (calculatesL : l.calculates = true)
    (calculatesR : r.calculates = true) (wholeL : l.divides = false) (wholeR : r.divides = false)
    (plain : l.ty.isScalar = true ∨ l.ty = .bool) :
    Results (choice (.mk (.relational op l r ty p) branch otherwise)) s fun _ t =>
      ∃ skip test inner before after, Selects t.Serves s t op l r branch skip test inner before after := by
  rintro _ t run
  have okT := (leads_of_choice sound settled typed run).ok
  simp only [IfStatement.Typed] at typed
  obtain ⟨typedC, truth, typedB, typedO⟩ := typed
  unfold choice at run
  obtain ⟨skip, t₁, tested, run⟩ := bind_eq_ok.1 run
  obtain ⟨_, t₂, passed, rest⟩ := bind_eq_ok.1 run
  obtain ⟨h₁, ⟨k, isOpen⟩, young⟩ := leads_of_condition sound settled typedC truth tested
  have h₂ := leads_of_statements sound (settled_leads settled h₁) typedB passed
  have old : skip ≤ t₁.assembly.labels := by
    obtain ⟨_, jump⟩ := isOpen.jump
    exact h₁.ok.assembly.jumps _ jump skip rfl
  obtain ⟨before, after, rejoins⟩ := branchOtherwise_rejoins sound settled (h₁.step h₂) young
    (isOpen.leads h₁.ok.assembly h₂.assembly) typedO _ _ rest
  cases id typedC with
  | relational _ typedL typedR compares =>
    obtain ⟨test, tests⟩ := condition_tests sound settled.toPoised typedL typedR calculatesL calculatesR compares plain
      _ _ tested
    refine ⟨skip, test, (t₂.codeSince t₁).map CodeEntry.unaimed, before, after, ?_, ⟨t₁, t₂, passed, h₂.adds⟩, ?_, ?_⟩
    · have adds := tests.adds.trans (h₂.adds.trans rejoins.adds)
      rwa [List.append_assoc, List.singleton_append] at adds
    · exact fun rsqrt L m serves => tests.decides typedL typedR calculatesL calculatesR wholeL wholeR okT
        (h₂.follows.trans rejoins.follows) rsqrt serves
    · refine fun rsqrt m => Machine.Track.run_seeking fun mem => ?_
      exact (List.mem_append.1 mem).elim (h₂.unmarked old) rejoins.first

/-- The other branch of a choice is lowered from a settled state. -/
theorem otherwise_settled (sound : d.Sound) {s₁ s₂ s₃ s₄ : LoweringState} {e : Expr} {branch : List Statement}
    {skip stop : Nat} (settled : s.Settled d (some g)) (typedC : e.Typed d (some g)) (truth : e.ty = .bool)
    (typedB : Statement.AllTyped d g branch) (tested : condition e s = .ok (skip, s₁))
    (passed : statements branch s₁ = .ok ((), s₂)) (jump : emitJump .always s₂ = .ok (stop, s₃))
    (bind : bindLabel skip s₃ = .ok ((), s₄)) : s₄.Settled d (some g) := by
  obtain ⟨h₁, ⟨k, isOpen⟩, young⟩ := leads_of_condition sound settled typedC truth tested
  have h₂ := leads_of_statements sound (settled_leads settled h₁) typedB passed
  obtain ⟨h₃, -, -⟩ := (emitJump_ends (E := fun _ => True) (.refl h₂.ok) .always).of_ok jump
  have skipOpen := isOpen.leads h₁.ok.assembly (h₂.assembly.trans h₃.assembly)
  obtain ⟨h₄, -⟩ := (bindChoice_ends (E := fun _ => True) settled.ok (h₁.step (h₂.step h₃)) skipOpen young
    rfl fun _ _ => trivial).of_ok bind
  exact settled_leads settled h₄

/-- A choice that another one chains on to is lowered from a settled state. -/
theorem Chain.settled (sound : d.Sound) {x y : IfStatement × LoweringState} (chain : Chain x y) :
    x.2.Settled d (some g) → x.1.Typed d g → y.2.Settled d (some g) ∧ y.1.Typed d g := by
  induction chain with
  | refl => exact fun settled typed => ⟨settled, typed⟩
  | next tested passed jump bind rest ih =>
    intro settled typed
    dsimp only at settled typed
    simp only [IfStatement.Typed, ElseBranch.Typed] at typed
    obtain ⟨typedC, truth, typedB, typedO⟩ := typed
    exact ih (otherwise_settled sound settled typedC truth typedB tested passed jump bind) typedO

/-! ## What comes behind -/

/-- Code is only added to. -/
theorem closed_adds : Closed fun s t => ∃ es, s.Adds t es :=
  .ofSteps
    { refl := fun s => ⟨[], (List.append_nil _).symm⟩
      trans := by
        rintro s t u ⟨es, h⟩ ⟨es', h'⟩
        exact ⟨es ++ es', h.trans h'⟩
      storage := fun assembly _ _ => ⟨[], by rw [Adds, assembly, List.append_nil]⟩
      entry := fun s e _ _ => ⟨[e.unaimed], List.map_append⟩
      bind := by
        intro s l a bound
        unfold Assembly.bind at bound
        split at bound
        · cases bound
          exact ⟨[], (List.append_nil _).symm⟩
        · dsimp only at bound
          split at bound
          · cases bound
            refine ⟨[.mark l], ?_⟩
            rw [Adds, List.map_append, List.map_map]
            exact congrArg (· ++ _) (List.map_congr_left fun e _ => CodeEntry.unaimed_setDistance _ _ e)
          · cases bound }
    (fun s _ _ _ => ⟨[], (List.append_nil _).symm⟩)
    fun s i text _ _ => ⟨[.instruction i text], List.map_append⟩

/-- A label that is bound takes no storage. -/
theorem bindLabel_follows (label : Nat) : Results (bindLabel label) s fun _ t => s.Follows t := by
  unfold bindLabel
  refine .bindGet ?_
  cases s.assembly.bind label with
  | ok a => exact .intro rfl (.of_layout rfl rfl)
  | error e => rintro _ _ ⟨⟩

/-- Behind its body, a choice goes on with the other branch. -/
theorem otherwise_of_choice {s₁ s₂ z : LoweringState} {e : Expr} {branch : List Statement} {otherwise : ElseBranch}
    {skip : Nat} (run : choice (.mk e branch otherwise) s = .ok ((), z)) (tested : condition e s = .ok (skip, s₁))
    (passed : statements branch s₁ = .ok ((), s₂)) : branchOtherwise skip otherwise s₂ = .ok ((), z) := by
  simp only [choice] at run
  obtain ⟨_, _, tested', run⟩ := bind_eq_ok.1 run
  obtain ⟨rfl, rfl⟩ := eq_of_runs tested tested'
  obtain ⟨_, _, passed', run⟩ := bind_eq_ok.1 run
  obtain ⟨-, rfl⟩ := eq_of_runs passed passed'
  exact run

/-- Behind the jump over it, the other branch is lowered, and its end is marked. -/
theorem follows_of_alternative {s₃ s₄ z : LoweringState} {body : Lower Unit} {skip stop : Nat} (run : (do
      let stop ← emitJump .always
      bindLabel skip
      body
      bindLabel stop : Lower Unit) s = .ok ((), z)) (jump : emitJump .always s = .ok (stop, s₃))
    (bind : bindLabel skip s₃ = .ok ((), s₄)) : ∃ v, body s₄ = .ok ((), v) ∧ v.Follows z := by
  obtain ⟨_, _, jump', run⟩ := bind_eq_ok.1 run
  obtain ⟨rfl, rfl⟩ := eq_of_runs jump jump'
  obtain ⟨_, _, bind', run⟩ := bind_eq_ok.1 run
  obtain ⟨-, rfl⟩ := eq_of_runs bind bind'
  obtain ⟨_, v, chosen, bound⟩ := bind_eq_ok.1 run
  exact ⟨v, chosen, bindLabel_follows _ _ _ bound⟩

/-- The chain of a choice ends before the choice does. -/
theorem Chain.follows {x y : IfStatement × LoweringState} (chain : Chain x y) {z : LoweringState}
    (run : choice x.1 x.2 = .ok ((), z)) : ∃ t, choice y.1 y.2 = .ok ((), t) ∧ t.Follows z := by
  induction chain generalizing z with
  | refl => exact ⟨z, run, .refl z⟩
  | next tested passed jump bind rest ih =>
    have run := otherwise_of_choice run tested passed
    unfold branchOtherwise at run
    obtain ⟨v, chosen, last⟩ := follows_of_alternative run jump bind
    obtain ⟨t, inner, follows⟩ := ih chosen
    exact ⟨t, inner, follows.trans last⟩

mutual

/-- What statements end in follows each statement among them. -/
theorem Visits.follows (sound : d.Sound) {ss : List Statement} {st : Statement} {x y z v : LoweringState}
    (visits : Visits st y z ss x) (settled : x.Settled d (some g)) (typed : Statement.AllTyped d g ss)
    (run : statements ss x = .ok ((), v)) : z.Follows v := by
  cases ss with
  | nil => cases visits
  | cons head tail =>
    simp only [Statement.AllTyped] at typed
    simp only [statements] at run
    obtain ⟨_, x₁, first, rest⟩ := bind_eq_ok.1 run
    have leads := leads_of_statement sound settled typed.1 first
    have behind := leads_of_statements sound (settled_leads settled leads) typed.2 rest
    cases visits with
    | here reached =>
      obtain ⟨-, rfl⟩ := eq_of_runs reached first
      exact behind.follows
    | later passed visits =>
      obtain ⟨-, rfl⟩ := eq_of_runs passed first
      exact Visits.follows sound visits (settled_leads settled leads) typed.2 rest
    | inner visits =>
      simp only [Statement.Typed] at typed
      simp only [statement] at first
      exact (VisitsChoice.follows sound visits settled typed.1 first).trans behind.follows

theorem VisitsChoice.follows (sound : d.Sound) {c : IfStatement} {st : Statement} {x y z v : LoweringState}
    (visits : VisitsChoice st y z c x) (settled : x.Settled d (some g)) (typed : c.Typed d g)
    (run : choice c x = .ok ((), v)) : z.Follows v := by
  cases visits with
  | body tested visits =>
    simp only [IfStatement.Typed] at typed
    obtain ⟨typedC, truth, typedB, typedO⟩ := typed
    simp only [choice] at run
    obtain ⟨_, x₁, tested', run⟩ := bind_eq_ok.1 run
    obtain ⟨rfl, rfl⟩ := eq_of_runs tested tested'
    obtain ⟨_, x₂, passed, rest⟩ := bind_eq_ok.1 run
    obtain ⟨h₁, ⟨k, isOpen⟩, young⟩ := leads_of_condition sound settled typedC truth tested
    have h₂ := leads_of_statements sound (settled_leads settled h₁) typedB passed
    obtain ⟨before, after, rejoins⟩ := branchOtherwise_rejoins sound settled (h₁.step h₂) young
      (isOpen.leads h₁.ok.assembly h₂.assembly) typedO _ _ rest
    exact (Visits.follows sound visits (settled_leads settled h₁) typedB passed).trans rejoins.follows
  | chain tested passed jump bind visits =>
    simp only [IfStatement.Typed, ElseBranch.Typed] at typed
    obtain ⟨typedC, truth, typedB, typedO⟩ := typed
    have run := otherwise_of_choice run tested passed
    unfold branchOtherwise at run
    obtain ⟨w, chosen, last⟩ := follows_of_alternative run jump bind
    have settled' := otherwise_settled sound settled typedC truth typedB tested passed jump bind
    exact (VisitsChoice.follows sound visits settled' typedO chosen).trans last
  | block tested passed jump bind visits =>
    simp only [IfStatement.Typed, ElseBranch.Typed] at typed
    obtain ⟨typedC, truth, typedB, typedO⟩ := typed
    have run := otherwise_of_choice run tested passed
    unfold branchOtherwise at run
    obtain ⟨w, chosen, last⟩ := follows_of_alternative run jump bind
    have settled' := otherwise_settled sound settled typedC truth typedB tested passed jump bind
    exact (Visits.follows sound visits settled' typedO chosen).trans last

end

/-! ## Functions -/

/-- The statements of a function are lowered from a settled state. -/
theorem Runs.settled (sound : d.Sound) {globals staging : List Holding} {body : List Statement} {u w : LoweringState}
    {h : Function} (known : d.functions.get? g = some h) (standing : Standing globals staging d s)
    (runs : Runs s g h body u w t) : (bodyStart u).Settled d (some g) := by
  obtain ⟨footing, none⟩ := runs.footing sound known standing (idle_suits standing body)
  have none : (bodyStart u).layout.leased = [] := none
  have quiet : (bodyStart u).Quiet := fun id mem => by
    rw [none] at mem
    exact List.not_mem_nil mem
  have free : (bodyStart u).layout.leased.length ≤ 0 := by
    rw [none]
    exact Nat.le_refl 0
  exact ⟨⟨footing.ready.fine.ok, quiet, footing.houses⟩, free⟩

/-- So is each of them. -/
theorem Visits.settled (sound : d.Sound) {globals staging : List Holding} {body : List Statement} {u w : LoweringState}
    {h : Function} (known : d.functions.get? g = some h) (standing : Standing globals staging d s)
    (runs : Runs s g h body u w t) (typed : Statement.AllTyped d g body) {st : Statement} {y z : LoweringState}
    (visits : Visits st y z body (bodyStart u)) : y.Settled d (some g) := by
  obtain ⟨footing, -⟩ := runs.footing sound known standing (idle_suits standing body)
  obtain ⟨-, path, -⟩ := visits.footing sound footing typed fun _ _ => trivial
  exact settled_leads (runs.settled sound known standing) path.leads

/-- **The choices of a function select their branches** in some code: those
whose conditions compare two numbers or truth values that are calculated without
a division of integers. (A comparison within an operand is not lowered.) -/
def SelectsBranches (serves : Nat → Machine → Prop) (code : List CodeEntry) (body : List Statement) (s : LoweringState) :
    Prop :=
  ∀ (y z : LoweringState) (c : IfStatement) (x : LoweringState) (op : RelationalOp) (l r : Expr) (ty : Ty) (p : Position)
    (branch : List Statement) (otherwise : ElseBranch),
    Visits (.branch c) y z body s → Chain (c, y) (.mk (.relational op l r ty p) branch otherwise, x) →
    l.calculates = true → r.calculates = true → l.divides = false → r.divides = false →
    l.ty.isScalar = true ∨ l.ty = .bool →
    ∃ t, choice (.mk (.relational op l r ty p) branch otherwise) x = .ok ((), t) ∧
      ∃ skip test inner before after front back, Selects serves x t op l r branch skip test inner before after ∧
        code.map CodeEntry.unaimed =
          front ++ choiceCode (failure op l.ty r.ty) skip test inner before after ++ back

/-- The end of a function follows its statements, with a return behind their
code. -/
theorem Runs.ends {body : List Statement} {u w : LoweringState} {h : Function} (runs : Runs s g h body u w t) :
    w.Adds t [.ret] ∧ w.Follows t := by
  obtain ⟨x, close, rfl⟩ := runs.close
  obtain ⟨assembly, follows⟩ := leaveScope_rests _ _ _ _ close
  have adds : w.Adds (Regime.passed w .ret w.assembly.labels) ([CodeEntry.ret].map CodeEntry.unaimed) := .of_code rfl
  refine ⟨adds.congr rfl assembly, ?_⟩
  exact (Follows.of_layout rfl rfl : w.Follows (Regime.passed w .ret w.assembly.labels)).trans
    (follows.trans (.of_layout rfl rfl))

/-- **Every choice of a function selects its branch**, on machines that serve the
end of the function. -/
theorem Runs.selects (sound : d.Sound) {globals staging : List Holding} {body : List Statement} {u w : LoweringState}
    {h : Function} (known : d.functions.get? g = some h) (standing : Standing globals staging d s)
    (runs : Runs s g h body u w t) (typed : Statement.AllTyped d g body) {serves : Nat → Machine → Prop}
    (served : ∀ L m, serves L m → t.Serves L m) :
    SelectsBranches serves t.assembly.entries body (bodyStart u) := by
  intro y z c x op l r ty p branch otherwise visits chain calculatesL calculatesR wholeL wholeR plain
  obtain ⟨typedSt, run⟩ := visits.typed typed
  simp only [Statement.Typed] at typedSt
  unfold statement at run
  obtain ⟨settled, typedC⟩ := chain.settled sound (visits.settled sound known standing runs typed) typedSt
  obtain ⟨v, chosen, follows⟩ := chain.follows run
  dsimp only at settled typedC chosen
  obtain ⟨skip, test, inner, before, after, selects⟩ := choice_selects sound settled typedC calculatesL calculatesR wholeL
    wholeR plain _ _ chosen
  -- What comes behind the choice adds to its code and to its storage.
  obtain ⟨_, chosen', -, ⟨es₁, behind₁⟩⟩ := chain.between closed_adds run
  obtain ⟨-, rfl⟩ := eq_of_runs chosen chosen'
  obtain ⟨-, -, ⟨es₂, behind₂⟩⟩ := visits.between closed_adds runs.body
  obtain ⟨behind₃, last⟩ := runs.ends
  have follows := follows.trans ((visits.follows sound (runs.settled sound known standing) typed runs.body).trans last)
  refine ⟨v, chosen, skip, test, inner, before, after, x.assembly.entries.map CodeEntry.unaimed,
    es₁ ++ (es₂ ++ [.ret]), ?_, ?_⟩
  · exact { selects with
      decides := fun rsqrt L m h => selects.decides rsqrt L m ((served L m h).back follows.toWithin) }
  · have adds := selects.adds.trans (behind₁.trans (behind₂.trans behind₃))
    rw [List.append_assoc]
    exact adds

end Lower

/-! ## Programs -/

/-- **A machine to carry out the code of a program on**: its two regions have
room in the block and are aligned, and the constants are in memory. -/
structure Program.Serves (p : Program) (L : Nat) (m : Machine) : Prop where
  grounded : m.Grounded L
  globals : p.globalSize ≤ L
  locals : L + p.localSize ≤ m.block.size
  reach : p.localSize ≤ 2 ^ 31
  pools : ∀ c ∈ p.constants.slots, ∀ i < c.1.size, m.block.get (c.2 + i) = c.1.bytes.getD i 0
  base : m.base % 16 = 0
  aligned : L % 16 = 0

theorem Program.Lowered.serves {p : Program} {shader : Shader} {u t : LoweringState} (lowered : p.Lowered shader u)
    (precedes : t.Precedes u) {L : Nat} {m : Machine} (h : p.Serves L m) : t.Serves L m := by
  obtain ⟨added, constants, -⟩ := precedes.constants
  exact
    { suits := ⟨h.grounded, Nat.le_trans (lowered.globalSize ▸ precedes.globalSize) h.globals,
        Nat.le_trans (Nat.add_le_add_left (lowered.localSize ▸ precedes.localSize) L) h.locals,
        Nat.le_trans (lowered.localSize ▸ precedes.localSize) h.reach⟩
      pools := fun c hc => h.pools c (by
        rw [lowered.constants, constants]
        exact List.mem_append_left _ hc)
      base := h.base
      locals := h.aligned }

/-- **Conditions select the right branch.** In a program that compiles, every
choice whose condition compares numbers or truth values does so. Integers and
truth values compare as signed words. Other numbers compare as floats; where one
of them is no number, `<`, `<=` and `==` hold and the others do not
(`Content.compares`). -/
theorem Program.selects_branches {o : Options} {source : String} {p : Program} (run : compile o source = .ok p)
    {f : CompiledFunction} (hf : f ∈ p.functions) :
    ∃ shader g h c body s u w t, Shader.parse o.stage source = .ok shader ∧
      .function g f.name c body ∈ shader.items ∧ shader.declarations.functions.get? g = some h ∧
      Lower.Runs s g h body u w t ∧ Lower.SelectsBranches p.Serves f.assembly.entries body (Lower.bodyStart u) := by
  obtain ⟨shader, last, parsed, lowered⟩ := lowered_of_compile run
  obtain ⟨g, c, body, s, v, t, item, -, written, precedes⟩ := lowered.functions f hf
  obtain ⟨h, u, w, known, runs⟩ := written.runs
  refine ⟨shader, g, h, c, body, s, u, w, t, parsed, item, known, runs, ?_⟩
  rw [written.assembly, ← written.coded.assembly]
  exact runs.selects lowered.typed.sound known written.standing written.typed fun L m h => lowered.serves precedes h

/-! A choice by a comparison of floats. -/

/-- Whether a statement is a choice by a comparison of numbers or truth values
that are calculated without a division. -/
def Statement.selects : Statement → Bool
  | .branch (.mk (.relational _ l r _ _) _ _) =>
    l.calculates && r.calculates && !l.divides && !r.divides && (l.ty.isScalar || l.ty == .bool)
  | _ => false

/-- A function that starts with a choice, or no function. -/
def Item.selectsFirst : Item → Bool
  | .function _ _ _ (st :: _) => st.selects
  | .function _ _ _ [] => false
  | .global _ _ => true

theorem Statement.exists_of_selects {st : Statement} (h : st.selects = true) : ∃ op l r ty p branch otherwise,
    st = .branch (.mk (.relational op l r ty p) branch otherwise) ∧ Expr.calculates l = true ∧ Expr.calculates r = true ∧
      Expr.divides l = false ∧ Expr.divides r = false ∧ (l.ty.isScalar = true ∨ l.ty = .bool) := by
  unfold selects at h
  split at h
  · simp only [Bool.and_eq_true, Bool.not_eq_true', Bool.or_eq_true, beq_iff_eq] at h
    obtain ⟨⟨⟨⟨calculatesL, calculatesR⟩, wholeL⟩, wholeR⟩, plain⟩ := h
    exact ⟨_, _, _, _, _, _, _, rfl, calculatesL, calculatesR, wholeL, wholeR, plain⟩
  · cases h

def unequalSource : String :=
  "float a; int result; export void main() \x7b if (a != 1.0) \x7b result = 1; \x7d \x7d"

def unequalOptions : Options := { placement := .memoryFirst }

set_option maxRecDepth 100000 in
theorem compiles_unequalSource : ∃ p s f, Program.compile unequalOptions unequalSource = .ok p ∧
    Shader.parse unequalOptions.stage unequalSource = .ok s ∧ f ∈ p.functions ∧ ∀ i ∈ s.items, i.selectsFirst = true := by
  have shape : (Shader.parse unequalOptions.stage unequalSource).toOption.any (fun s => s.items.all Item.selectsFirst) = true := by
    decide +kernel
  have compiles : (Program.compile unequalOptions unequalSource).toOption.any (fun p => !p.functions.isEmpty) = true := by
    decide +kernel
  obtain ⟨s, parsed, shape⟩ := exists_ok_of_any shape
  obtain ⟨p, compiled, some⟩ := exists_ok_of_any compiles
  obtain ⟨f, hf⟩ := List.exists_mem_of_ne_nil p.functions (by simpa using some)
  exact ⟨p, s, f, compiled, parsed, hf, List.all_eq_true.1 shape⟩

theorem Program.selects_branches_unequalSource : ∃ p f, ∃ x t : LoweringState, ∃ op l r branch skip test inner before after front back,
    compile unequalOptions unequalSource = .ok p ∧ f ∈ p.functions ∧
    Lower.Selects p.Serves x t op l r branch skip test inner before after ∧ f.assembly.entries.map CodeEntry.unaimed =
      front ++ Lower.choiceCode (Lower.failure op l.ty r.ty) skip test inner before after ++ back := by
  obtain ⟨p, s', f, compiled, parsed', hf, shape⟩ := compiles_unequalSource
  obtain ⟨shader, g, h, c, body, s, u, w, t, parsed, item, known, runs, selects⟩ :=
    selects_branches compiled hf
  rw [parsed'] at parsed
  cases parsed
  have shape := shape _ item
  cases body with
  | nil => cases shape
  | cons st ss =>
    obtain ⟨op, l, r, ty, q, branch, otherwise, rfl, calculatesL, calculatesR, wholeL, wholeR, plain⟩ :=
      Statement.exists_of_selects shape
    have body := runs.body
    unfold Lower.statements at body
    obtain ⟨_, z, run, -⟩ := bind_eq_ok.1 body
    obtain ⟨t', -, skip, test, inner, before, after, front, back, chosen, code⟩ := selects _ z _ _ op l r ty q branch
      otherwise (.here run) .refl calculatesL calculatesR wholeL wholeR plain
    exact ⟨p, f, _, t', op, l, r, branch, skip, test, inner, before, after, front, back, compiled, hf, chosen, code⟩

/-- The bytes of `result` behind an execution on some bytes of `a`. -/
def unequalOutcome (a : List UInt8) : Except Error (List UInt8) := do
  let o ← Object.compile unequalOptions unequalSource
  let o ← o.writeGlobalBytes "a" a
  match o.execute with
  | .finished o => o.readGlobalBytes "result"
  | _ => .error .missingEntryPoint

set_option maxRecDepth 100000 in
/-- **What is no number is not unequal to another one**: the branch is passed
over, although the two are not equal. -/
theorem unequalOutcome_nan : (unequalOutcome [0x00, 0x00, 0xc0, 0x7f]).toOption = some [0, 0, 0, 0] ∧
    Binary32.eq 0x7fc00000 0x3f800000 = false := by
  decide +kernel

end Shading
