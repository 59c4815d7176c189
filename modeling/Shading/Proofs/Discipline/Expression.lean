import Shading.Proofs.Discipline.Elements

/-!
# Expressions along a course

A typed expression is lowered to a value that stands, in whichever way the
lowering comes to an end with a value: what lowering refuses has no value.
The proof goes along the tree, with one lemma for each form.
-/

namespace Shading

open LoweringState Regime

namespace Lower

variable {R : Regime} {K : Nat → Prop} {s₀ s t u : LoweringState} {registers : List Location}
  {held : List Lease} {d : Declarations} {f : Option FunctionId} {v w : Value} {e : Expr}
  {b whole : Bool}

/-! ## Calls -/

/-- **An action gives the values of arguments**, wherever it starts. -/
def GivesAll (R : Regime) (d : Declarations) (f : Option FunctionId) (action : Lower (List Value))
    (es : List Expr) : Prop :=
  ∀ (K : Nat → Prop) (s : LoweringState), R.Poise K d f s → Results action s fun vs t =>
    ∃ K' : Nat → Prop, (∀ r, K r → K' r) ∧ R.Poise K' d f t ∧
      (∃ rs, R.Course K s t rs (leasesOf vs)) ∧
      List.Forall₂ (fun v e => v.ty = Expr.ty e ∧ R.Reads K' t v) vs es ∧
      (∀ v, vs.getLast? = some v → v.ty.isVector = true → R.ExactAt t v.location) ∧ (vs = [] → t = s)

/-- Giving up values from the last one on. -/
theorem finishAll_results (ready₀ : R.Ready K s₀) (vs : List Value)
    (h : R.Course K s₀ s registers (held ++ leasesOf vs.reverse)) :
    Results (vs.forM finish) s fun _ t => R.Course K s₀ t registers held := by
  induction vs generalizing s with
  | nil => exact .pure (by simpa [leasesOf] using h)
  | cons v vs ih =>
    rw [List.reverse_cons, leasesOf_append, ← List.append_assoc] at h
    have h : R.Course K s₀ s registers ((held ++ leasesOf vs.reverse) ++ v.lease.toList) := by
      simpa [leasesOf] using h
    exact (finish_results h ready₀).bind fun _ t h' => ih h'.1

/-- **A call of an intrinsic function is lowered.** Other functions are
refused. -/
theorem callValue_gives {id : FunctionId} {g : Function} {args : List Expr}
    {action : Lower (List Value)} (sound : d.Sound) (found : d.functions.get? id = some g)
    (stores : List.Forall₂ Ty.Stores (g.parameters.map d.symbolTy) (args.map Expr.ty))
    (p : Position) (ha : GivesAll R d f action args) :
    R.GivesFrom d f b whole (callValue id g.name g.returnTy action)
      (.call id g.name args g.returnTy p) := by
  intro K s poise
  unfold callValue
  refine .bindGet ?_
  by_cases isIntrinsic : (s.declarations.functions.get? id).any Function.intrinsic
  swap
  · rw [if_neg isIntrinsic]
    exact fail_results _
  rw [if_pos isIntrinsic]
  have intrinsic : g.intrinsic = true := by
    rw [poise.houses.functions, found] at isIntrinsic
    simpa using isIntrinsic
  have known := sound.intrinsic id g found intrinsic
  -- The result is written last, so what is asked of its place is asked in the state
  -- behind the arguments.
  have body {t : LoweringState} {out : Location} (poise : R.Poise K d f t)
      (direct : ∀ r, out ≠ .indirectRegister r) (operand : g.returnTy ≠ .void → out.IsOperand)
      (stands : g.returnTy ≠ .void → R.Stands K t true g.returnTy out) : Results (inScope do
        let values ← action
        Lower.intrinsic g.name out values
        values.reverse.forM finish) t fun _ u => R.Course K t u [] [] := by
    refine (inScope_results (P := fun _ _ => True) poise.ready ?_).mono fun _ u ⟨_, course, _, _⟩ => course
    refine (ha K (opened t) poise.opened).bind ?_
    rintro vs t₁ ⟨K', sub, poise', ⟨rs, course⟩, fit, exact, -⟩
    have reads : ∀ v ∈ vs, R.Reads K' t₁ v := fun v hv => by
      obtain ⟨i, hi, rfl⟩ := List.getElem_of_mem hv
      exact ((List.forall₂_iff_get.1 fit).2 i hi (fit.length_eq ▸ hi)).2
    have types : List.Forall₂ (fun t (a : Value) => t.assignable a.ty = true)
        (g.parameters.map d.symbolTy) vs := by
      have count : args.length = vs.length := fit.length_eq.symm
      refine List.forall₂_iff_get.2 ⟨by simpa [count] using stores.length_eq, fun i hi hi' => ?_⟩
      have second := (List.forall₂_iff_get.1 fit).2 i hi' (count ▸ hi')
      rw [second.1]
      simpa [Ty.stores_iff] using (List.forall₂_iff_get.1 stores).2 i hi (by simpa [count] using hi')
    have writes (valued : g.returnTy ≠ .void) : R.Writes K' t₁ g.returnTy out := poise'.writes
      (((stands valued).opened.course poise.opened.ready course.toPath).weaken sub) (operand valued)
    refine (intrinsic_results poise'.ready known types reads exact writes direct).bind
      fun _ t₂ ⟨course₂, _⟩ => ?_
    have course : R.Course K (opened t) t₂ rs ([] ++ leasesOf vs.reverse.reverse) := by
      simpa using course.step (course₂.weaken sub)
    exact (finishAll_results poise.opened.ready _ course).mono fun _ u h => ⟨⟨rs, h⟩, trivial⟩
  by_cases void : g.returnTy = .void
  · rw [if_pos void]
    refine (Results.pure ⟨rfl, rfl⟩ : Results (pure Location.none) s
      fun out t => out = .none ∧ t = s).bind ?_
    rintro _ _ ⟨rfl, rfl⟩
    refine (body poise (fun _ => Location.noConfusion) (fun h => absurd void h) fun h => absurd void h).bind
      fun _ u course => ?_
    exact .pure
      { course := ⟨[], course⟩
        ty := rfl
        leased := .inl ⟨rfl, nofun⟩
        empty := fun _ => rfl
        stands := fun h => absurd void h
        operand := fun _ h => absurd void h
        exact := fun _ => nofun
        writeBack := nofun }
  · rw [if_neg void]
    refine (place_results poise.ready g.returnTy).bind fun out t placed => ?_
    have poise₁ := poise.course placed.course.toPath
    have stands : R.Stands K t true g.returnTy out := stands_placed placed poise.deep
    refine (body poise₁ placed.places.direct (fun _ => placed.places.isOperand) fun _ => stands).bind
      fun _ u course => ?_
    exact .pure (gives_placed placed poise.deep poise.ready (placed.course.step course) course)

/-! ## The tree -/

/-- No literal has elements. -/
theorem isLiteral_of_element {e : Expr} {t : Ty} (typed : e.Typed d f) (element : e.ty.element? = some t) :
    e.isLiteral = false := by
  cases typed with
  | literal v => cases v <;> cases element
  | _ => rfl

mutual

/-- **A typed expression is lowered**, for its place or for its value, if
it is lowered at all, where the variables that it assigns may be
written. -/
theorem expression_gives (sound : d.Sound) (asTarget : Bool) : (e : Expr) → e.Typed d f →
    (∀ id ∈ e.assigned, R.assigned id) → (asTarget = true → ∀ id ∈ e.root?, R.assigned id) →
    (asTarget = true → e.isLiteral = false) →
    R.GivesFrom d f asTarget (!asTarget) (expression asTarget e) e
  | .literal v ty p, typed, _, _, place => by
    cases typed
    rw [expression_literal]
    cases asTarget with
    -- A literal is no target, so it is lowered for its value only.
    | true => cases place rfl
    | false => exact literal_gives v p
  | .name id ty p, typed, _, root, _ => by
    cases typed with
    | name _ found visible =>
      rw [expression_name]
      exact variableValue_gives found visible (fun h => root h id rfl) p
  | .binary op l r ty p, typed, assigned, _, _ => by
    cases typed with
    | binary _ hl hr yields =>
      obtain ⟨joins, rfl⟩ := yields.joins
      simp only [Expr.assigned, List.mem_append] at assigned
      rw [expression_binary]
      exact binaryValue_gives joins p
        (expression_gives sound false l hl (fun id h => assigned id (.inl h)) nofun nofun)
        (expression_gives sound false r hr (fun id h => assigned id (.inr h)) nofun nofun)
  -- The target is written and then read again for its value, so it is asked of the root
  -- that it may be assigned.
  | .assign op t v ty p, typed, assigned, _, _ => by
    cases typed with
    | assign _ ht hv changeable takes =>
      simp only [Expr.assigned, List.mem_append] at assigned
      have target := expression_gives sound true t ht (fun id h => assigned id (.inl (.inr h)))
        (fun _ id h => assigned id (.inl (.inl (Option.mem_toList.2 h))))
        fun _ => Expr.isLiteral_of_changeable changeable
      have value := expression_gives sound false v hv (fun id h => assigned id (.inr h)) nofun nofun
      rw [expression_assign]
      exact materialize_gives (e := .assign op t v t.ty p) takes.notVoid (w := true) (fun _ => rfl)
        (assignValue_gives (Ty.takes_iff.1 takes) p target value)
  | .relational op l r ty p, _, _, _, _ => by
    rw [expression_relational]
    exact fun _ _ _ => fail_results _
  | .negate e ty p, typed, assigned, _, _ => by
    cases typed with
    | negate _ he numeric =>
      rw [expression_negate]
      exact negate_gives numeric p (expression_gives sound false e he assigned nofun nofun)
  | .not e ty p, typed, assigned, _, _ => by
    cases typed with
    | not _ he truth =>
      rw [expression_not]
      exact invert_gives truth p (expression_gives sound false e he assigned nofun nofun)
  -- What is written in an element is written in the root of its container.
  | .subscript e i ty p, typed, assigned, root, _ => by
    cases typed with
    | subscript _ he hi element integral =>
      simp only [Expr.assigned, List.mem_append] at assigned
      have whole := isLiteral_of_element he element
      rw [expression_subscript]
      exact subscript_gives element integral p
        (expression_gives sound asTarget e he (fun id h => assigned id (.inl h)) root fun _ => whole)
        (expression_gives sound false i hi (fun id h => assigned id (.inr h)) nofun nofun)
  | .call id name args ty p, typed, assigned, root, place => by
    cases typed with
    | call _ found typedArgs stores =>
      rw [expression_call]
      exact callValue_gives sound found stores p
        (arguments_gives sound args typedArgs (Expr.valued_of_stores stores) assigned)

theorem arguments_gives (sound : d.Sound) : (es : List Expr) → (∀ e ∈ es, e.Typed d f) →
    (∀ e ∈ es, e.ty ≠ .void) → (∀ id ∈ Expr.allAssigned es, R.assigned id) →
    GivesAll R d f (arguments es) es
  | [], _, _, _ => by
    intro K s poise
    rw [arguments_nil]
    exact .pure ⟨K, fun _ h => h, poise, ⟨[], .refl poise.ready.fine⟩, .nil,
      (fun _ last => by cases last), fun _ => rfl⟩
  | e :: es, typed, valued, assigned => by
    intro K s poise
    simp only [Expr.allAssigned, List.mem_append] at assigned
    have first := expression_gives sound false e (typed e List.mem_cons_self)
      (fun id h => assigned id (.inl h)) nofun nofun
    have rest := arguments_gives sound es (fun a h => typed a (List.mem_cons_of_mem _ h))
      (fun a h => valued a (List.mem_cons_of_mem _ h)) fun id h => assigned id (.inr h)
    have hv := valued e List.mem_cons_self
    rw [arguments_cons]
    refine (first K s poise).bind fun v t g => ?_
    obtain ⟨rs, course⟩ := g.course
    have poise₁ := poise.join course.toPath g.leased
    refine (rest (With K v) t poise₁).bind ?_
    rintro vs u ⟨K', sub, poise', ⟨rs', course'⟩, fit, exact, same⟩
    have reads : R.Reads K' u v := poise'.reads
      (((g.stands hv).course poise₁.ready course'.toPath).weaken sub) (g.operand rfl hv)
    refine .pure ⟨K', fun r h => sub r (.inl h), poise', ⟨rs ++ rs', ?_⟩, .cons ⟨g.ty, reads⟩ fit,
      fun w last vector => ?_, List.cons_ne_nil _ _ |>.elim⟩
    · simpa [leasesOf] using course.trans (course'.weaken fun _ h => .inl h)
    · cases vs with
      | nil =>
        cases last
        exact same rfl ▸ g.exact vector
      | cons w' vs => exact exact w (by simpa using last) vector

end

/-- **An expression that is not written to gives its value.** -/
theorem value_gives (sound : d.Sound) {e : Expr} (typed : e.Typed d f)
    (assigned : ∀ id ∈ e.assigned, R.assigned id) : R.GivesFrom d f false true (value e) e :=
  expression_gives sound false e typed assigned (fun target => by cases target) fun target => by cases target

end Lower

end Shading
