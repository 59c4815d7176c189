import Shading.Proofs.Lowering.Elements

/-!
# Expressions are lowered

A typed expression is lowered to a value that stands, from any state whose
variables are housed, unless a general register is missing or a form in it is
refused (`Lower.expression_lowers`). The proof goes along the tree, with one
lemma for each form.
-/

namespace Shading

open LoweringState

namespace Lower

variable {s₀ s : LoweringState} {registers : List Location} {held : List Lease} {E : Error → Prop}
  {d : Declarations} {f : Option FunctionId} {n : Nat}

/-! ## Calls -/

/-- **An action lowers arguments** while so many addresses are held. -/
def LowersAll (d : Declarations) (f : Option FunctionId) (E : Error → Prop) (n : Nat)
    (action : Lower (List Value)) (es : List Expr) : Prop :=
  ∀ s : LoweringState, s.Poised d f → s.layout.leased.length ≤ n →
    Ends action s (fun vs t => (∃ rs, s.Leads t rs (leasesOf vs)) ∧ (∀ v ∈ vs, v.Leased) ∧
      List.Forall₂ (fun v e => v.ty = Expr.ty e ∧ v.Stands t ∧ v.location.IsOperand) vs es) E

/-- Giving up values from the last one on. -/
theorem finishAll_ends (vs : List Value) (h : s₀.Leads s registers (held ++ leasesOf vs.reverse)) :
    Ends (vs.forM finish) s (fun _ t => s₀.Leads t registers held) E := by
  induction vs generalizing s with
  | nil => exact .pure (by simpa [leasesOf] using h)
  | cons v vs ih =>
    rw [List.reverse_cons, leasesOf_append, ← List.append_assoc] at h
    have h : s₀.Leads s registers ((held ++ leasesOf vs.reverse) ++ v.lease.toList) := by
      simpa [leasesOf] using h
    exact .bind (finish_ends h) fun _ t h' => ih h'

/-- **A call of an intrinsic function is lowered.** -/
theorem callValue_lowers {asTarget : Bool} {id : FunctionId} {g : Function} {args : List Expr}
    {action : Lower (List Value)} (sound : d.Sound) (found : d.functions.get? id = some g)
    (intrinsic : g.intrinsic = true) (count : args.length = g.parameters.length) (p : Position)
    (ha : LowersAll d f E n action args) :
    Lowers d f E n asTarget (callValue id g.name g.returnTy action)
      (.call id g.name args g.returnTy p) := by
  intro s poised few
  have known := sound.intrinsic id g found intrinsic
  have storage : g.returnTy ≠ .void → g.returnTy.size ≠ 0 := by
    revert known
    simp only [stageFunctions, List.mem_cons, StageFunction.mk.injEq, List.not_mem_nil, or_false]
    rintro (⟨-, h, -⟩ | ⟨-, h, -⟩ | ⟨-, h, -⟩ | ⟨-, h, -⟩ | ⟨-, h, -⟩ | ⟨-, h, -⟩) <;>
      simp [h, Ty.size]
  -- The arguments and the operation are the same with and without a result; only the
  -- place of the result is not.
  have body {t : LoweringState} {out : Location} (h : s.Leads t out.own [])
      (operand : g.returnTy ≠ .void → out.IsOperand) : Ends (inScope do
        let values ← action
        Lower.intrinsic g.name out values
        values.reverse.forM finish) t (fun _ u => t.Leads u [] [] ∧ True) E := by
    have poised₁ : t.Poised d f :=
      poised_leads [] poised (by simpa [leasesOf] using h) (by simp)
    have few₁ : t.layout.leased.length ≤ n := by
      have := h.layout.leased.length_eq
      simp only [List.map_nil, List.append_nil] at this
      omega
    refine inScope_ends (.refl h.ok) (P := fun _ _ => True) ?_
    refine .bind (ha (opened t) (opened_poised poised₁) few₁) ?_
    rintro vs t₁ ⟨⟨rs, leads⟩, leased, fit⟩
    have poised₂ := poised_leads _ (opened_poised poised₁) leads leased
    have operands : ∀ v ∈ vs, v.location.IsOperand := fun v hv => by
      obtain ⟨i, hi, rfl⟩ := List.getElem_of_mem hv
      exact (List.forall₂_iff_get.1 fit).2 i hi ((List.Forall₂.length_eq fit) ▸ hi) |>.2.2
    have length : vs.length = (StageFunction.mk g.name g.returnTy
        (g.parameters.map d.symbolTy)).parameters.length := by
      simp [List.Forall₂.length_eq fit, count]
    refine .bind ((intrinsic_steady poised₂.ok poised₂.quiet known length operand
      operands).after leads) fun _ t₂ h₂ => ?_
    have h₂ : (opened t).Leads t₂ rs ([] ++ leasesOf vs.reverse.reverse) := by simpa using h₂
    exact (finishAll_ends vs.reverse h₂).mono (fun _ u h => ⟨⟨rs, h⟩, trivial⟩) fun _ h => h
  have isIntrinsic : ((s.declarations.functions.get? id).any Function.intrinsic) = true := by
    rw [poised.houses.functions, found]
    simpa using intrinsic
  unfold callValue
  refine .bindGet ?_
  rw [if_pos isIntrinsic]
  by_cases void : g.returnTy = .void
  · rw [if_pos void]
    refine .bind (.pure ⟨rfl, rfl⟩ : Ends (pure Location.none) s
      (fun out t => out = .none ∧ t = s) E) ?_
    rintro _ _ ⟨rfl, rfl⟩
    have nothing : Location.none.own = [] := rfl
    refine .bind (body (by rw [nothing]; exact .refl poised.ok) fun h => absurd void h) ?_
    rintro _ u ⟨h, -⟩
    exact .pure
      { leads := ⟨[], h⟩
        ty := rfl
        leased := .inl ⟨rfl, by simp⟩
        stands := fun h => absurd void h
        operand := fun _ h => absurd void h
        holds := by simp
        writeBack := by simp
        reloads := by simp }
  · rw [if_neg void]
    refine .bind (place_ends (.refl poised.ok) (storage void)) ?_
    rintro out t ⟨h₁, places⟩
    rw [List.nil_append] at h₁
    refine .bind (body h₁ fun _ => places.isOperand) ?_
    rintro _ u ⟨h₂, -⟩
    exact .pure (yields_ofPlaces places (h₁.step h₂) h₂)

/-! ## Refused forms -/

section Refused

variable {Q : Value → LoweringState → Prop}

/-- The name of a function is no value. -/
theorem functionName_refused {id : SymbolId} {v : Symbol} (found : d.symbols.get? id = some v)
    (isFunction : v.kind = .function) (refused : E (Form.functionName v.name).refusal)
    (poised : s.Poised d f) : Ends (variableValue id) s Q E := by
  obtain ⟨l, known⟩ := poised.houses.symbols id v found
  unfold variableValue
  refine .bindGet ?_
  rw [known]
  dsimp only
  rw [if_pos (.inl isFunction)]
  exact .of_error rfl refused

/-- A function of the shader is not called. -/
theorem userCall_refused {id : FunctionId} {g : Function} {name : String} {ty : Ty}
    {action : Lower (List Value)} (found : d.functions.get? id = some g)
    (user : g.intrinsic = false) (refused : E Form.userCall.refusal) (poised : s.Poised d f) :
    Ends (callValue id name ty action) s Q E := by
  unfold callValue
  refine .bindGet ?_
  rw [if_neg (by rw [poised.houses.functions, found]; simpa using user)]
  exact .of_error rfl refused

end Refused

/-! ## The tree -/

mutual

/-- **A typed expression is lowered**, for its place or for its value, if
its registers suffice or the lack of one is put up with, as the refusal of
its forms is. -/
theorem expression_lowers {n : Nat} (sound : d.Sound) (asTarget : Bool) : (e : Expr) → e.Typed d f →
    (∀ form ∈ e.forms d, E form.refusal) →
    (e.fits n = true ∨ E (.layout (.noRegister .general))) →
    Lowers d f E n asTarget (expression asTarget e) e
  | .literal v ty p, typed, _, _ => by
    cases typed
    rw [expression_literal]
    exact literal_lowers v p
  | .name id ty p, typed, refused, _ => by
    cases typed with
    | @name _ s _ found visible =>
      simp only [Expr.forms, found] at refused
      rw [expression_name]
      cases kind : s.kind with
      | «variable» => exact variableValue_lowers found kind visible p
      | function =>
        rw [if_pos kind] at refused
        intro t poised _
        exact functionName_refused found kind (refused _ (List.mem_singleton_self _)) poised
  -- An operand behind another one is lowered while the address of that one is held,
  -- which is what the number of held addresses counts.
  | .binary op l r ty p, typed, refused, fits => by
    cases typed with
    | binary _ hl hr yields =>
      obtain ⟨joins, rfl⟩ := yields.joins
      simp only [Expr.forms, List.forall_mem_append] at refused
      simp only [Expr.fits, Bool.and_eq_true] at fits
      rw [expression_binary]
      refine binaryValue_lowers joins p
        (expression_lowers sound false l hl refused.1 (fits.imp (·.1.1) id))
        (expression_lowers sound false r hr refused.2 (fits.imp (·.1.2) id)) fun int => ?_
      exact fits.imp (fun h => by simpa [int] using h.2) id
  | .assign op t v ty p, typed, refused, fits => by
    cases typed with
    | assign _ ht hv _ takes =>
      simp only [Expr.forms, List.forall_mem_append] at refused
      simp only [Expr.fits, Bool.and_eq_true] at fits
      rw [expression_assign]
      refine materialize_lowers (e := .assign op t v t.ty p) takes.notVoid
        (assignValue_lowers (Ty.takes_iff.1 takes) p
        (expression_lowers sound true t ht refused.1 (fits.imp (·.1.1) id))
        (expression_lowers sound false v hv refused.2 (fits.imp (·.1.2) id)) fun int => ?_)
      exact fits.imp (fun h => by simpa [int] using h.2) id
  -- Only conditions compare; as a value, a comparison is refused from any state.
  | .relational op l r ty p, _, refused, _ => by
    simp only [Expr.forms, List.forall_mem_cons] at refused
    rw [expression_relational]
    intro s _ _
    exact .of_error rfl refused.1
  | .negate e ty p, typed, refused, fits => by
    cases typed with
    | negate _ he numeric =>
      simp only [Expr.forms] at refused
      simp only [Expr.fits, Bool.and_eq_true] at fits
      rw [expression_negate]
      refine negate_lowers numeric p (expression_lowers sound false e he refused (fits.imp (·.1) id))
        fun int => ?_
      exact fits.imp (fun h => by simpa [int] using h.2) id
  | .not e ty p, typed, refused, fits => by
    cases typed with
    | not _ he truth =>
      simp only [Expr.forms] at refused
      simp only [Expr.fits, Bool.and_eq_true] at fits
      rw [expression_not]
      refine invert_lowers truth p (expression_lowers sound false e he refused (fits.imp (·.1) id)) ?_
      exact fits.imp (fun h => by simpa [Ty.isIntegral] using h.2) id
  | .subscript b i ty p, typed, refused, fits => by
    cases typed with
    | subscript _ hb hi element integral =>
      simp only [Expr.forms, List.forall_mem_append] at refused
      simp only [Expr.fits, Bool.and_eq_true] at fits
      rw [expression_subscript]
      refine subscript_lowers element integral p
        (expression_lowers sound asTarget b hb refused.1 (fits.imp (·.1) id)) (fun dynamic => ?_)
        fun dynamic => ?_
      · refine expression_lowers sound false i hi refused.2 (fits.imp (fun h => ?_) id)
        have := h.2
        simp only [dynamic, Option.isSome_none, Bool.false_or, Bool.and_eq_true] at this
        exact this.1
      · refine fits.imp (fun h => ?_) id
        have := h.2
        simp only [dynamic, Option.isSome_none, Bool.false_or, Bool.and_eq_true,
          decide_eq_true_eq] at this
        exact this.2
  | .call id name args ty p, typed, refused, fits => by
    cases typed with
    | @call _ g _ _ found typedArgs stores =>
      simp only [Expr.forms, found, Option.any_some, List.forall_mem_append] at refused
      simp only [Expr.fits] at fits
      have count : args.length = g.parameters.length := by
        simpa using stores.length_eq.symm
      rw [expression_call]
      cases intrinsic : g.intrinsic with
      | true =>
        exact callValue_lowers sound found intrinsic count p
          (arguments_lowers sound args typedArgs (Expr.valued_of_stores stores) refused.2 fits)
      | false =>
        rw [intrinsic, if_neg (by decide)] at refused
        intro s poised _
        exact userCall_refused found intrinsic (refused.1 _ (List.mem_singleton_self _)) poised

theorem arguments_lowers {n : Nat} (sound : d.Sound) : (es : List Expr) → (∀ e ∈ es, e.Typed d f) →
    (∀ e ∈ es, e.ty ≠ .void) → (∀ form ∈ Expr.allForms d es, E form.refusal) →
    (Expr.allFit n es = true ∨ E (.layout (.noRegister .general))) →
    LowersAll d f E n (arguments es) es
  | [], _, _, _, _ => by
    intro s poised _
    rw [arguments_nil]
    exact .pure ⟨⟨[], .refl poised.ok⟩, by simp, .nil⟩
  | e :: es, typed, valued, refused, fits => by
    intro s poised few
    simp only [Expr.allForms, List.forall_mem_append] at refused
    simp only [Expr.allFit, Bool.and_eq_true] at fits
    have first := expression_lowers sound false e (typed e List.mem_cons_self) refused.1
      (fits.imp (·.1) id)
    have rest := arguments_lowers sound es (fun a h => typed a (List.mem_cons_of_mem _ h))
      (fun a h => valued a (List.mem_cons_of_mem _ h)) refused.2 (fits.imp (·.2) id)
    have hv := valued e List.mem_cons_self
    rw [arguments_cons]
    refine .bind (first s poised few) fun v t y => ?_
    obtain ⟨rs, leads⟩ := y.leads
    have poised₁ : t.Poised d f := poised_leads [v] poised
      (by simpa [leasesOf] using leads) (by simpa using y.leased)
    refine .bind (rest t poised₁ (leased_length few y)) ?_
    rintro vs u ⟨⟨rs', leads'⟩, leased, fit⟩
    refine .pure ⟨⟨rs ++ rs', ?_⟩, ?_, .cons ⟨y.ty, (y.stands hv).leads leads', y.operand rfl hv⟩ fit⟩
    · simpa [leasesOf] using leads.trans leads'
    · exact List.forall_mem_cons.2 ⟨y.leased, leased⟩

end

end Lower

end Shading
