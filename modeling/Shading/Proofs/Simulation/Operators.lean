import Shading.Proofs.Simulation.Evaluation

/-!
# Operators, literals and variables compute what they mean

An operation delivers what it produces (`Frames` and `Effects` say what each
produces and what it leaves alone), so that an operator on operands that
calculate is a calculation, too. Literals and variables are the leaves.
-/

namespace Shading.Lower

open LoweringState Permit

variable {s t u : LoweringState} {d : Declarations} {f : Option FunctionId} {ty : Ty} {out : Location} {v w : Value}

/-! ## Operations -/

section

variable {lhs rhs : Value} {l r : Ty} {op : BinaryOp}

/-- An operation gives its result to a place for what is computed in between. -/
theorem isTransient_of_operates {operands : List Value} (h : s.Operates ty out operands) : out.IsTransient := by
  cases place : out with
  | globalMemory o => exact h.temporary o place
  | indirectRegister id => exact h.result.direct id place
  | registerLane id shift => exact h.result.whole id shift place
  | _ => trivial

/-- What an operation produces is delivered. -/
theorem delivers_of_produces {operands : List Value} {means : (Word → Word) → Nat → Machine → Content → Prop} (ok : s.Ok)
    (operates : s.Operates ty out operands) (leads : s.Leads t [] [])
    (produces : ∀ (rsqrt : Word → Word) (L : Nat) (m : Machine), s.Suits L m → m.base % 16 = 0 → L % 16 = 0 →
      Produces (Permit.result s ok out ty.size) s t [] [] rsqrt L m fun m' => ∀ c, means rsqrt L m c → m'.Carries L ty out c) :
    Delivers s t ty out means where
  leads := ⟨[], leads⟩
  crosses := fun {T b rsqrt L m c} okT follows serves apart means => by
    have suits := (serves.suits.back follows.toWithin).back leads.within
    obtain ⟨m', crosses, carries⟩ := (produces rsqrt L m suits serves.base serves.locals).crosses_result
      (isTransient_of_operates operates) okT follows serves apart
    exact ⟨m', crosses, carries c means⟩

/-- **A binary operation delivers** what it means for its operands. -/
theorem binary_delivers (ok : s.Ok) (quiet : s.Quiet) (operates : s.Operates ty out [lhs, rhs])
    (yields : op.Yields lhs.ty rhs.ty ty) :
    Results (binary op out ty lhs rhs) s fun _ t => Delivers s t ty out fun _ L m c =>
      Content.arithmetic op lhs.ty rhs.ty (m.part L lhs.location) (m.part L rhs.location) = .ok c := by
  have operand {v : Value} (hv : v ∈ [lhs, rhs]) : v.location.IsOperand := (operates.operands v hv).1.home.isOperand
  obtain ⟨joins, type⟩ := yields.joins
  rintro ⟨⟩ t run
  have leads : s.Leads t [] [] := by
    subst type
    exact (binary_steady (E := fun _ => True) ok quiet joins operates.result.home.isOperand operates.result.fits
      (operand (by simp)) (operand (by simp)) fun _ _ => .inr (.inr trivial)).of_ok run
  by_cases whole : op = .divide ∧ ty = .int
  · obtain ⟨rfl, rfl⟩ := whole
    obtain ⟨left, right⟩ : lhs.ty = .int ∧ rhs.ty = .int := by
      generalize lhs.ty = a at yields
      generalize rhs.ty = b at yields
      cases yields with
      | integers => exact ⟨rfl, rfl⟩
    have divides : binary .divide out .int lhs rhs = integerDivision out lhs rhs := by
      simp [binary, scalarInt, left, right, Ty.isVector, Ty.tyClass]
    rw [divides] at run
    obtain ⟨-, crosses⟩ := integerDivision_crosses ok operates left right () t run
    refine ⟨⟨[], leads⟩, fun {T b rsqrt L m c} okT follows serves apart means => ?_⟩
    rw [left, right, Content.arithmetic_integers] at means
    obtain ⟨q, quotient, rfl⟩ := except_map_eq_ok.1 means
    obtain ⟨m', crosses, holds⟩ := @crosses T b rsqrt L m q okT follows serves apart quotient
    exact ⟨m', crosses, carries_word rfl holds⟩
  · exact delivers_of_produces ok operates leads fun rsqrt L m suits base locals =>
      binary_produces ok operates suits base locals yields whole () t run

/-- **A negation delivers** the negative of its operand. -/
theorem negate_delivers (ok : s.Ok) (quiet : s.Quiet) (operates : s.Operates v.ty out [v]) :
    Results (negate out v) s fun _ t => Delivers s t v.ty out fun _ L m c =>
      Content.negated v.ty (m.part L v.location) = c := by
  rintro ⟨⟩ t run
  have leads : s.Leads t [] [] := (negate_steady (E := fun _ => True) ok quiet operates.result.home.isOperand
    operates.result.fits (operates.operands v (by simp)).1.home.isOperand fun _ => .inr (.inr trivial)).of_ok run
  refine delivers_of_produces ok operates leads fun rsqrt L m _ base locals => ?_
  exact (negative_produces ok operates base locals () t run).mono fun m' _ carries c means => means ▸ carries

/-- **An inversion delivers** the other truth value. -/
theorem invert_delivers (ok : s.Ok) (truth : v.ty = .bool) (operates : s.Operates .bool out [v]) :
    Results (invert out v) s fun _ t => Delivers s t .bool out fun _ L m c => Content.inverted (m.part L v.location) = c := by
  rintro ⟨⟩ t run
  have leads : s.Leads t [] [] := (invert_steady (E := fun _ => True) ok operates.result.home.isOperand
    operates.result.fits (operates.operands v (by simp)).1.home.isOperand (.inr (.inr trivial))).of_ok run
  refine delivers_of_produces ok operates leads fun rsqrt L m _ base locals => ?_
  exact (inverse_produces ok truth operates () t run).mono fun m' _ carries c means => means ▸ carries

/-- **A function of the stage delivers** what it means for its arguments. -/
theorem intrinsic_delivers (ok : s.Ok) (quiet : s.Quiet) {args : List Value} {g : StageFunction} (mem : g ∈ stageFunctions)
    (fits : List.Forall₂ Ty.Stores g.parameters (args.map Value.ty)) (operates : s.Operates g.returnTy out args) :
    Results (intrinsic g.name out args) s fun _ t => Delivers s t g.returnTy out fun rsqrt L m c =>
      Content.intrinsic rsqrt g.name (args.map fun v => (v.ty, m.part L v.location)) = c := by
  rintro ⟨⟩ t run
  have count : args.length = g.parameters.length := by simpa using fits.length_eq.symm
  have leads : s.Leads t [] [] := (intrinsic_steady (E := fun _ => True) ok quiet mem count
    (fun _ => operates.result.home.isOperand) fun v hv => (operates.operands v hv).1.home.isOperand).of_ok run
  refine delivers_of_produces ok operates leads fun rsqrt L m _ base locals => ?_
  exact (intrinsic_produces ok mem fits (fun _ => operates) base locals () t run).mono
    fun m' _ carries c means => means ▸ carries

end

/-! ## Operators -/

section

variable {l r : Ty} {op : BinaryOp} {x y : Lower Value} {ml mr : (Word → Word) → Store → Except Stuck Content}

/-- **An operation on two operands fills a place** with what it means. -/
theorem binary_fills (yields : op.Yields l r ty) (hx : Calculates d f x l ml) (hy : Calculates d f y r mr) :
    Fills d f (fun out => do
      let v ← x
      let w ← y
      binary op out ty v w
      finish w
      finish v) ty (fun rsqrt σ => do
        let a ← ml rsqrt σ
        let b ← mr rsqrt σ
        Content.arithmetic op l r a b) := by
  obtain ⟨valuedL, valuedR⟩ := yields.valued
  intro s out poised home foreign
  refine (hx s poised).bind fun v t₁ left => ?_
  obtain ⟨rs₁, leads₁⟩ := left.leads
  have poised₁ := poised_step poised leads₁
  refine (hy t₁ poised₁).bind fun w t₂ right => ?_
  obtain ⟨rs₂, leads₂⟩ := right.leads
  have poised₂ := poised_step poised₁ leads₂
  have homeL := (left.dwells valuedL).homes
  -- The place of the result is no home, and it was given out before or after the
  -- operands were evaluated, so that neither of them is in it.
  have operates : t₂.Operates ty out [v, w] := by
    refine ⟨(home.leads leads₁).leads leads₂, foreign.transient.not_global, ?_⟩
    intro z hz
    simp only [List.mem_cons, List.not_mem_nil, or_false] at hz
    rcases hz with rfl | rfl
    · exact (left.dwells valuedL).operand home.keeps foreign leads₂
    · exact (right.dwells valuedR).operand (leads₁.keeps home.keeps) (foreign.later leads₁.declarations)
        (.refl poised₂.ok)
  refine (binary_delivers poised₂.ok poised₂.quiet operates (by rw [left.ty, right.ty]; exact yields)).bind
    fun _ t₃ computed => ?_
  rw [finish_unleased left.unleased, finish_unleased right.unleased]
  obtain ⟨rs₃, leads₃⟩ := computed.leads
  have whole : s.Leads t₃ (rs₁ ++ rs₂ ++ rs₃) [] := by simpa using (leads₁.trans leads₂).trans leads₃
  refine .pure ⟨⟨_, whole⟩, fun {T b rsqrt L m c} okT follows serves apart means => ?_⟩
  -- The left value is carried over the code of the right operand, and both over the
  -- operation.
  obtain ⟨σ, holds, means⟩ := means
  obtain ⟨a, meansL, means⟩ := except_bind_eq_ok.1 means
  obtain ⟨a', meansR, means⟩ := except_bind_eq_ok.1 means
  have later := leads₃.follows.trans follows
  obtain ⟨m₁, first, carriesL⟩ := left.crosses okT (leads₂.follows.trans later) serves holds meansL
  obtain ⟨m₂, second, carriesR⟩ := right.crosses okT later first.serves
    (holds.retained poised.houses leads₁.declarations first.retains) meansR
  have carriesL := second.retains.carries (left.ty ▸ homeL) carriesL
  obtain ⟨c', computes, same⟩ := Content.arithmetic_congr yields (fun k word => (carriesL k word).symm)
    (fun k word => (carriesR k word).symm) means
  obtain ⟨m₃, third, carries⟩ := computed.crosses (b := b) okT follows second.serves
    (fun ty' l' home' => by
      obtain ⟨kept, apart⟩ := apart ty' l' home'
      exact ⟨(kept.leads leads₁).leads leads₂, apart⟩) (by rw [left.ty, right.ty]; exact computes)
  refine ⟨m₃, ((first.back fun ty' l' home' => (apart ty' l' home').1).trans
    (second.back fun ty' l' home' => (apart ty' l' home').1.leads leads₁)).trans third, fun k word => ?_⟩
  rw [carries k word, same k word]

/-- **An operation on one operand fills a place** with what it means. -/
theorem unary_fills {compute : Location → Value → Lower Unit} {g : Content → Content} (valued : l ≠ .void)
    (congr : ∀ a b, Content.Agrees l a b → Content.Agrees ty (g a) (g b))
    (delivers : ∀ s out v, s.Poised d f → v.ty = l → s.Operates ty out [v] →
      Results (compute out v) s fun _ t => Delivers s t ty out fun _ L m c => g (m.part L v.location) = c)
    (hx : Calculates d f x l ml) :
    Fills d f (fun out => do
      let v ← x
      compute out v
      finish v) ty (fun rsqrt σ => do return g (← ml rsqrt σ)) := by
  intro s out poised home foreign
  refine (hx s poised).bind fun v t₁ operand => ?_
  obtain ⟨rs₁, leads₁⟩ := operand.leads
  have poised₁ := poised_step poised leads₁
  have operates : t₁.Operates ty out [v] := by
    refine ⟨home.leads leads₁, foreign.transient.not_global, fun z hz => ?_⟩
    rw [List.mem_singleton] at hz
    subst hz
    exact (operand.dwells valued).operand home.keeps foreign (.refl poised₁.ok)
  refine (delivers t₁ out v poised₁ operand.ty operates).bind fun _ t₂ computed => ?_
  rw [finish_unleased operand.unleased]
  obtain ⟨rs₂, leads₂⟩ := computed.leads
  have whole : s.Leads t₂ (rs₁ ++ rs₂) [] := by simpa using leads₁.trans leads₂
  refine .pure ⟨⟨_, whole⟩, fun {T b rsqrt L m c} okT follows serves apart means => ?_⟩
  obtain ⟨σ, holds, means⟩ := means
  obtain ⟨a, value, same⟩ := except_bind_eq_ok.1 means
  cases same
  obtain ⟨m₁, first, carries₁⟩ := operand.crosses okT (leads₂.follows.trans follows) serves holds value
  obtain ⟨m₂, second, carries₂⟩ := computed.crosses (b := b) okT follows first.serves
    (fun ty' l' home' => by
      obtain ⟨kept, apart⟩ := apart ty' l' home'
      exact ⟨kept.leads leads₁, apart⟩) rfl
  refine ⟨m₂, (first.back fun ty' l' home' => (apart ty' l' home').1).trans second, fun k word => ?_⟩
  rw [carries₂ k word, congr _ a carries₁ k word]

end

/-! ## Literals and variables -/

/-- **A word is set** in a place. -/
theorem setWord_delivers (ok : s.Ok) (home : s.Homes ty out) (transient : out.IsTransient) (integral : ty.isIntegral = true)
    (n : Nat) : Results (emitUnary .movImm out (wordBytes n)) s fun _ t => Delivers s t ty out fun _ _ _ c =>
      c = .scalar (UInt32.ofNat n) := by
  have width : Width.ofTy ty = .dword ∧ ty.size = 4 := by
    revert integral
    cases ty <;> decide
  have operates : s.Operates ty out [] := ⟨home, transient.not_global, fun v hv => absurd hv List.not_mem_nil⟩
  have admits := (home.receives.admits ok).first
  rw [width.1] at admits
  obtain ⟨p, operand⟩ := operandOf_of_isOperand home.home.isOperand
  obtain rfl := operandOf_eq operand
  obtain ⟨text, run⟩ := emitUnary_eq (s := s) .movImm operand (wordBytes n)
  have integers (id : Nat) : out ≠ .simdRegister id := by
    rintro rfl
    have class_ := home.fits.1
    revert class_ integral
    cases ty <;> decide
  refine .intro run (delivers_of_produces ok operates (leads_wrote ok _ text) fun rsqrt L m _ _ _ => ?_)
  have start : Produces (Permit.result s ok out ty.size) s s [] [] rsqrt L m fun _ => True := .start _ rsqrt L m trivial
  refine start.wrote (emitUnary_conducts start.toConduct (c := .general) rfl admits (wordBytes n) _ _ run)
    fun m comes _ _ => ?_
  have has := home.has (P := Permit.result s ok out ty.size) start.toConduct comes
  rw [width.2] at has
  obtain ⟨m', perform, holds⟩ := Machine.perform_setWord rsqrt has (start.grounded comes) integers (wordBytes n)
  refine ⟨m', perform, fun c eq => ?_⟩
  rw [eq]
  exact carries_word width.2 (holds.trans (Machine.immediateWord_wordBytes n))

/-- **A word is set in a place of its own.** -/
theorem setWord_calculates (integral : ty.isIntegral = true) (n : Nat) : Calculates d f (do
    let out ← place ty
    emitUnary .movImm out (wordBytes n)
    return { location := out, ty } : Lower Value) ty fun _ _ => .ok (.scalar (UInt32.ofNat n)) := by
  intro s poised
  refine (place_placed poised.ok ty).bind fun out s₁ placed => ?_
  refine (setWord_delivers placed.leads.ok placed.homes placed.temporary.isTransient integral n).bind fun _ t delivers => ?_
  obtain ⟨rs, leads⟩ := delivers.leads
  have whole : s.Leads t (out.own ++ rs) [] := placed.leads.trans leads
  exact .pure
    { leads := ⟨_, whole⟩
      ty := rfl
      unleased := rfl
      dwells := fun _ => placed.dwells leads
      crosses := fun {T rsqrt L m σ c} okT later serves _ means => by
        obtain ⟨m', crosses, carries⟩ := delivers.crosses (b := s) okT later serves
          (fun ty' l home => ⟨home.leads placed.leads, placed.apart home.keeps⟩) (Except.ok.inj means).symm
        exact ⟨m', crosses.congr placed.assembly.symm rfl, carries⟩ }

/-- **A literal** is set in a place of its own, or pooled. -/
theorem literal_calculates (v : Literal) : Calculates d f (literal v) v.ty fun _ _ => .ok (.scalar v.word) := by
  cases v with
  | int value =>
    rw [literal_ofInt]
    exact setWord_calculates rfl _
  | bool value =>
    rw [literal_ofBool]
    cases value <;> exact setWord_calculates rfl _
  | float bits =>
    rw [literal_ofFloat]
    intro s poised
    refine ((constant_rests (s := s) (.float bits)).and (Results.ofEnds
      (constant_ends (E := fun _ => True) (.refl poised.ok) (.float bits)))).bind fun l t h => ?_
    obtain ⟨⟨assembly, -⟩, leads, offset, rfl, pooled⟩ := h
    obtain ⟨below, aligned⟩ := leads.ok.pooled _ pooled
    refine .pure
      { leads := ⟨[], leads⟩
        ty := rfl
        unleased := rfl
        dwells := fun _ => ⟨⟨trivial, ⟨(by decide : Ty.float.size ≠ 0), aligned⟩, below, fun x hx => ?_⟩, fun n l' _ foreign => ?_⟩
        crosses := fun {T rsqrt L m σ c} okT later serves _ means => ?_ }
    · obtain ⟨y, same, -, -, apart⟩ := leads.ok.division _ hx
      cases same
      exact apart _ pooled
    · have transient := foreign.transient
      cases l' with
      | globalMemory o => exact transient.elim
      | _ => trivial
    · cases means
      refine ⟨m, .rest s rsqrt serves assembly, carries_word rfl ?_⟩
      have word := serves.pools.float (later.kept _ pooled)
      rw [Machine.part_memory _ _ rfl, Machine.offsetAt, Machine.addressOf, Nat.add_sub_cancel_left]
      exact word

/-- **A variable** is read where it is at home. -/
theorem variableValue_calculates {id : SymbolId} {x : Symbol} (found : d.symbols.get? id = some x)
    (isVariable : x.kind = .variable) (visible : x.VisibleIn f) :
    Calculates d f (variableValue id) x.ty fun _ σ => σ.read id 0 x.ty := by
  intro s poised
  obtain ⟨l, known⟩ := poised.houses.symbols id x found
  have sees : d.Sees f id := ⟨x, found, isVariable, visible⟩
  have home : s.Homes x.ty l := poised.houses.homesOf sees known
  have placed : l ≠ .none := fun none => by
    have at_ := home.home
    rw [none] at at_
    exact at_
  unfold variableValue
  refine .bindGet ?_
  rw [known]
  dsimp only
  rw [if_neg (by simp [isVariable, placed])]
  exact .pure
    { leads := ⟨[], .refl poised.ok⟩
      ty := rfl
      unleased := rfl
      dwells := fun _ => ⟨home, fun n l' _ foreign => foreign.apart id _ sees known⟩
      crosses := fun {T rsqrt L m σ c} okT later serves holds means =>
        ⟨m, .rest s rsqrt serves rfl, fun k word => by
          have written := Store.read_eq_ok means k word
          rw [Nat.zero_add] at written
          exact holds id _ sees known k word _ written⟩ }

end Shading.Lower
