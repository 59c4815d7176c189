import Shading.Proofs.Lowering.Poised

/-!
# Operators and assignments are lowered

Literals, variables, operators and assignments are lowered if their operands
are. Only arithmetic on integers needs a general register beside the operands
that are still to be consumed.
-/

namespace Shading

open LoweringState

namespace Lower

variable {s₀ s : LoweringState} {registers : List Location} {held : List Lease} {E : Error → Prop}
  {d : Declarations} {f : Option FunctionId} {n : Nat}

/-! ## Atoms -/

theorem literal_lowers {asTarget : Bool} (v : Literal) (p : Position) :
    Lowers d f E n asTarget (literal v) (.literal v v.ty p) := by
  intro s poised _
  have h := Leads.refl poised.ok
  have placed {ty : Ty} (storage : ty.size ≠ 0) (bytes : List UInt8) (same : v.ty = ty) :
      Ends (do
        let out ← place ty
        emitUnary .movImm out bytes
        return { location := out, ty } : Lower Value) s
        (fun w t => Yields s t asTarget (.literal v v.ty p) w) E := by
    subst same
    refine .bind (place_ends h storage) ?_
    rintro out t ⟨h₁, places⟩
    refine .bind (emitUnary_ends (.refl h₁.ok) _ places.isOperand bytes) fun _ u h₂ => ?_
    exact .pure (yields_ofPlaces places (h₁.step h₂) h₂)
  cases v with
  | int value =>
    rw [literal_ofInt]
    exact placed (by decide) _ rfl
  | bool value =>
    rw [literal_ofBool]
    exact placed (by decide) _ rfl
  | float bits =>
    rw [literal_ofFloat]
    refine .bind (constant_ends h _) ?_
    rintro _ t ⟨h₁, offset, rfl, pooled⟩
    obtain ⟨below, aligned⟩ := h₁.ok.pooled _ pooled
    have stands : Value.Stands t { location := .globalMemory offset, ty := .float } := by
      refine ⟨⟨(by decide : Ty.float.size ≠ 0), aligned⟩, ⟨below, fun x hx => ?_⟩, .inl ⟨rfl, by simp⟩⟩
      obtain ⟨y, eq, -, -, apart⟩ := h₁.ok.division _ hx
      simp only [DivisionSlots.at, DivisionSlots.mk.injEq, Location.globalMemory.injEq] at eq
      rw [eq.1]
      exact apart _ pooled
    exact .pure
      { leads := ⟨[], h₁⟩
        ty := rfl
        leased := stands.lease
        stands := fun _ => stands
        operand := fun _ _ => trivial
        holds := by simp
        writeBack := by simp
        reloads := by simp }

/-- The places of variables are told from the parser's tables. -/
theorem variableValue_lowers {asTarget : Bool} {id : SymbolId} {v : Symbol}
    (found : d.symbols.get? id = some v) (isVariable : v.kind = .variable)
    (visible : v.VisibleIn f) (p : Position) :
    Lowers d f E n asTarget (variableValue id) (.name id v.ty p) := by
  intro s poised _
  obtain ⟨l, known⟩ := poised.houses.symbols id v found
  obtain ⟨home, fits, kept⟩ := poised.houses.homes id _ ⟨v, found, isVariable, visible⟩ known
  have placed : l ≠ .none := fun none => by
    rw [none] at home
    exact home
  have stands : Value.Stands s { location := l, ty := v.ty } := by
    refine ⟨fits, kept, .inl ⟨rfl, fun id same => ?_⟩⟩
    simp only at same
    rw [same] at home
    exact home
  unfold variableValue
  refine .bindGet ?_
  rw [known]
  dsimp only
  rw [if_neg (by simp [isVariable, placed])]
  exact .pure
    { leads := ⟨[], .refl poised.ok⟩
      ty := rfl
      leased := stands.lease
      stands := fun _ => stands
      operand := fun _ _ => Location.IsHome.isOperand home
      holds := by simp
      writeBack := by simp
      reloads := by simp }

/-! ## Operators -/

/-- A value of a type with values is consumed by an operation. -/
theorem opened_poised (poised : s.Poised d f) : (opened s).Poised d f :=
  ⟨ok_opened poised.ok, poised.quiet, poised.houses.functions, poised.houses.symbols,
    poised.houses.homes, poised.houses.apart⟩

/-- **Two operands and the operation on them** leave nothing behind. -/
theorem operands_ends {lhs rhs : Lower Value} {l r : Expr} (compute : Value → Value → Lower Unit)
    (hl : Lowers d f E n false lhs l) (hr : Lowers d f E (n + l.held) false rhs r)
    (poised : s.Poised d f) (few : s.layout.leased.length ≤ n)
    (step : ∀ (t : LoweringState) rs v w, s.Leads t rs (leasesOf [v, w]) → v.Leased → w.Leased →
      v.ty = l.ty → w.ty = r.ty → (l.ty ≠ .void → v.Stands t ∧ v.location.IsOperand) →
      (r.ty ≠ .void → w.Stands t ∧ w.location.IsOperand) → Steady (compute v w) t E) :
    Ends (do
      let v ← lhs
      let w ← rhs
      compute v w
      finish w
      finish v : Lower Unit) s (fun _ t => ∃ rs, s.Leads t rs []) E := by
  refine .bind (hl s poised few) fun v t₁ y₁ => ?_
  obtain ⟨rs₁, leads₁⟩ := y₁.leads
  have poised₁ : t₁.Poised d f := poised_leads [v] poised (by simpa [leasesOf] using leads₁)
    (by simpa using y₁.leased)
  refine .bind (hr t₁ poised₁ (leased_length few y₁)) fun w t₂ y₂ => ?_
  obtain ⟨rs₂, leads₂⟩ := y₂.leads
  have both : s.Leads t₂ (rs₁ ++ rs₂) (leasesOf [v, w]) := by
    simpa [leasesOf] using leads₁.trans leads₂
  have hv (h : l.ty ≠ .void) : v.Stands t₂ ∧ v.location.IsOperand :=
    ⟨(y₁.stands h).leads leads₂, y₁.operand rfl h⟩
  have hw (h : r.ty ≠ .void) : w.Stands t₂ ∧ w.location.IsOperand :=
    ⟨y₂.stands h, y₂.operand rfl h⟩
  refine .bind (step t₂ _ v w both y₁.leased y₂.leased y₁.ty y₂.ty hv hw) fun _ t₃ h₃ => ?_
  have end₃ : s.Leads t₃ (rs₁ ++ rs₂) (v.lease.toList ++ w.lease.toList) := by
    simpa [leasesOf] using both.step h₃
  refine .bind (finish_ends end₃) fun _ t₄ h₄ => ?_
  exact (finish_only_ends h₄).mono (fun _ t₅ h₅ => ⟨_, h₅⟩) fun _ h => h

/-- A place that was given out is no address. -/
theorem Places.direct {s t : LoweringState} {ty : Ty} {out : Location} (h : Places s t ty out)
    (id : Nat) : out ≠ .indirectRegister id := fun same => by
  have := h.fresh
  rw [same] at this
  exact this

/-- **A general register is at hand** beside the values to be consumed,
when at most one address is held and they are at most two. -/
theorem roomFor_beside {l : Layout} {t : LoweringState} {vs : List Value} {out : Location}
    {operands : List Location} (h : l.Leads t.layout registers (leasesOf vs))
    (leased : ∀ v ∈ vs, v.Leased) (two : vs.length ≤ 2) (few : l.leased.length ≤ n)
    (fits : n ≤ 1 ∨ E (.layout (.noRegister .general)))
    (named : out.isRegister = false → ∀ id ∈ registersOf .general (out :: operands),
      id ∈ registersOf .general (vs.map Value.location)) :
    t.RoomFor E out operands := by
  cases register : out.isRegister with
  | true => exact .inl register
  | false =>
    refine .inr (fits.imp (fun one => ?_) id)
    exact room_beside h leased (by omega) (named register)

/-- A place in memory names no general register. -/
theorem not_mem_registersOf {out : Location} (register : out.isRegister = false)
    (direct : ∀ id, out ≠ .indirectRegister id) {l : List Location} {id : Nat}
    (h : id ∈ registersOf .general (out :: l)) : id ∈ registersOf .general l := by
  obtain ⟨x, hx, occupies⟩ := mem_registersOf.1 h
  rcases List.mem_cons.1 hx with rfl | hx
  · cases x <;> simp_all [Location.registerOf?, Location.isRegister]
  · exact mem_registersOf.2 ⟨x, hx, occupies⟩

/-- **A binary operation is lowered** with its operands. -/
theorem binaryValue_lowers {asTarget : Bool} {op : BinaryOp} {lhs rhs : Lower Value} {l r : Expr}
    (joins : Parser.joins op l.ty r.ty = true) (p : Position)
    (hl : Lowers d f E n false lhs l) (hr : Lowers d f E (n + l.held) false rhs r)
    (fits : Expr.computesInteger op (l.ty.arith r.ty) = true →
      n ≤ 1 ∨ E (.layout (.noRegister .general))) :
    Lowers d f E n asTarget (binaryValue op (l.ty.arith r.ty) lhs rhs)
      (.binary op l r (l.ty.arith r.ty) p) := by
  intro s poised few
  have storage : (l.ty.arith r.ty).size ≠ 0 := by
    revert joins
    generalize l.ty = a, r.ty = b
    cases op <;> cases a <;> cases b <;> decide
  have valued : l.ty ≠ .void ∧ r.ty ≠ .void := by
    revert joins
    generalize l.ty = a, r.ty = b
    cases op <;> cases a <;> cases b <;> decide
  refine .bind (place_ends (.refl poised.ok) storage) ?_
  rintro out t ⟨h₁, places⟩
  have poised₁ : t.Poised d f :=
    poised_leads [] poised (by simpa [leasesOf] using h₁) (by simp)
  have few₁ : t.layout.leased.length ≤ n := by
    have := h₁.layout.leased.length_eq
    simp only [List.map_nil, List.append_nil] at this
    omega
  refine .bind (inScope_ends (.refl h₁.ok) (P := fun _ _ => True) ?_) ?_
  · have inner := operands_ends (binary op out (l.ty.arith r.ty)) hl hr
      (opened_poised poised₁) few₁ ?_
    · exact inner.mono (fun _ t h => ⟨h, trivial⟩) fun _ h => h
    · intro t rs v w h hv hw vty wty standsV standsW
      obtain ⟨-, ov⟩ := standsV valued.1
      obtain ⟨-, ow⟩ := standsW valued.2
      have poised₂ := poised_leads _ (opened_poised poised₁) h (by simp [hv, hw])
      rw [← vty, ← wty] at joins places fits ⊢
      refine binary_steady poised₂.ok poised₂.quiet joins places.isOperand places.fits ov ow
        fun notDivide int => ?_
      refine roomFor_beside h.layout (by simp [hv, hw]) (by simp) few₁
        (fits (by simp [Expr.computesInteger, notDivide, int])) fun memory id hid => ?_
      exact not_mem_registersOf memory places.direct hid
  · rintro _ u ⟨h₂, -⟩
    exact .pure (yields_ofPlaces places (h₁.step h₂) h₂)

/-- **An operation on one operand is lowered** with it. -/
theorem unaryValue_lowers {asTarget : Bool} {operand : Lower Value}
    {compute : Location → Value → Lower Unit} {e r : Expr} (storage : r.ty.size ≠ 0)
    (valued : e.ty ≠ .void) (he : Lowers d f E n false operand e)
    (step : ∀ (t : LoweringState) v out, t.Poised d f → v.ty = e.ty → v.location.IsOperand →
      out.IsOperand → out.Fits r.ty → (n ≤ 1 → t.RoomFor E out [v.location]) →
      Steady (compute out v) t E) :
    Lowers d f E n asTarget (unaryValue compute r.ty operand) r := by
  intro s poised few
  refine .bind (place_ends (.refl poised.ok) storage) ?_
  rintro out t ⟨h₁, places⟩
  have poised₁ : t.Poised d f :=
    poised_leads [] poised (by simpa [leasesOf] using h₁) (by simp)
  have few₁ : t.layout.leased.length ≤ n := by
    have := h₁.layout.leased.length_eq
    simp only [List.map_nil, List.append_nil] at this
    omega
  refine .bind (inScope_ends (.refl h₁.ok) (P := fun _ _ => True) ?_) ?_
  · refine .bind (he (opened t) (opened_poised poised₁) few₁) fun v t₁ y => ?_
    obtain ⟨rs, leads⟩ := y.leads
    have one : (opened t).Leads t₁ rs (leasesOf [v]) := by simpa [leasesOf] using leads
    have poised₂ := poised_leads _ (opened_poised poised₁) one (by simpa using y.leased)
    have room (one' : n ≤ 1) : t₁.RoomFor E out [v.location] :=
      roomFor_beside one.layout (by simpa using y.leased) (by simp) few₁ (.inl one')
        fun memory _ hid => not_mem_registersOf memory places.direct hid
    refine .bind ((step t₁ v out poised₂ y.ty (y.operand rfl valued) places.isOperand places.fits
      room).after leads) fun _ t₂ h₂ => ?_
    exact (finish_only_ends h₂).mono (fun _ t₃ h₃ => ⟨⟨rs, h₃⟩, trivial⟩) fun _ h => h
  · rintro _ u ⟨h₂, -⟩
    exact .pure (yields_ofPlaces places (h₁.step h₂) h₂)

/-- **Negation is lowered.** -/
theorem negate_lowers {asTarget : Bool} {operand : Lower Value} {e : Expr}
    (numeric : e.ty.isScalar = true ∨ e.ty.isVector = true) (p : Position)
    (he : Lowers d f E n false operand e)
    (fits : e.ty.isIntegral = true → n ≤ 1 ∨ E (.layout (.noRegister .general))) :
    Lowers d f E n asTarget (unaryValue negate e.ty operand) (.negate e e.ty p) := by
  have storage : e.ty.size ≠ 0 ∧ e.ty ≠ .void := by
    revert numeric
    generalize e.ty = a
    cases a <;> decide
  refine unaryValue_lowers (r := .negate e e.ty p) storage.1 storage.2 he
    fun t v out poised same ov hout hfits room => ?_
  have hfits : out.Fits v.ty := same ▸ hfits
  exact negate_steady poised.ok poised.quiet hout hfits ov fun integral =>
    (fits (same ▸ integral)).elim room fun h => .inr (.inr h)

/-- **Inversion is lowered.** -/
theorem invert_lowers {asTarget : Bool} {operand : Lower Value} {e : Expr} (truth : e.ty = .bool)
    (p : Position) (he : Lowers d f E n false operand e)
    (fits : n ≤ 1 ∨ E (.layout (.noRegister .general))) :
    Lowers d f E n asTarget (unaryValue invert .bool operand) (.not e .bool p) :=
  unaryValue_lowers (r := .not e .bool p) (by simp [Expr.ty, Ty.size]) (by rw [truth]; decide) he
    fun _ _ _ poised _ ov hout hfits room =>
      invert_steady poised.ok hout hfits ov (fits.elim room fun h => .inr (.inr h))

/-! ## Assignments -/

/-- A place for values that are not integral names no general register. -/
theorem notGeneral_of_fits {l : Location} {ty : Ty} (fits : l.Fits ty)
    (other : ty.isIntegral = false) (direct : ∀ id, l ≠ .indirectRegister id) (id : Nat) :
    l.registerOf? ≠ some (.general, id) := by
  cases l <;> cases ty <;>
    simp_all [Location.registerOf?, Location.Fits, Ty.isIntegral, RegisterClass.ofTy?]

theorem Value.Leased.direct {v : Value} (h : v.Leased) (none : v.lease = none) (id : Nat) :
    v.location ≠ .indirectRegister id := by
  rcases h with ⟨-, direct⟩ | ⟨x, i, some, -⟩
  · exact direct id
  · rw [none] at some
    cases some

/-- What was materialized names no register but that of its origin. -/
theorem Materialized.named {s t : LoweringState} {v w : Value} (m : Materialized s t v w) {id : Nat}
    (h : w.location.registerOf? = some (.general, id)) :
    v.location.registerOf? = some (.general, id) := by
  rcases m.same with rfl | ⟨stands, float, none, -⟩
  · exact h
  · exact absurd h (notGeneral_of_fits stands.fits (float ▸ rfl)
      (Value.Leased.direct stands.lease none) id)

/-- **Combining a value with what its target holds**, and storing the
result there. -/
theorem combine_ends {op : BinaryOp} {dest source : Value} {targetTy valueTy : Ty} {l : Layout}
    {k : Unit → Lower Unit} {R : Unit → LoweringState → Prop} (poised : s.Poised d f) (joins : Parser.joins op targetTy valueTy = true)
    (destTy : dest.ty = targetTy) (destFits : dest.location.Fits targetTy)
    (destLeased : dest.Leased) (sourceTy : source.ty = valueTy) (sourceLeased : source.Leased)
    (operand : source.location.IsOperand)
    (layout : l.Leads s.layout registers (leasesOf [dest, source])) (few : l.leased.length ≤ n)
    (fits : targetTy.isIntegral = true → n ≤ 1 ∨ E (.layout (.noRegister .general)))
    (next : ∀ t rs, s.Leads t rs [] → Ends (k ()) t R E) :
    Ends (do
      let current ← materialize { location := dest.location, ty := dest.ty }
      let ty := targetTy.arith valueTy
      let result ← place ty
      binary op result ty current source
      let done ← store dest.location targetTy { location := result, ty }
      k done : Lower Unit) s R E := by
  subst destTy sourceTy
  -- Types are finite, so what is true of all combinations is checked case by case.
  have storage : (dest.ty.arith source.ty).size ≠ 0 := by
    revert joins
    generalize dest.ty = a, source.ty = b
    cases op <;> cases a <;> cases b <;> decide
  have integral : dest.ty.arith source.ty = .int → dest.ty.isIntegral = true := by
    revert joins
    generalize dest.ty = a, source.ty = b
    cases op <;> cases a <;> cases b <;> decide
  have leased : ∀ v ∈ [dest, source], v.Leased := by simp [destLeased, sourceLeased]
  refine .bind (materialize_ends poised.ok poised.quiet destFits fun _ _ _ => rfl) ?_
  intro current t₁ m
  obtain ⟨rs₁, h₁⟩ := m.leads
  have poised₁ : t₁.Poised d f :=
    poised_leads [] poised (by simpa [leasesOf] using h₁) (by simp)
  refine .bind (place_ends (.refl h₁.ok) storage) ?_
  rintro result t₂ ⟨h₂, places⟩
  have poised₂ : t₂.Poised d f :=
    poised_leads [] poised₁ (by simpa [leasesOf] using h₂) (by simp)
  have layout₂ := (layout.trans h₁.layout).trans h₂.layout
  rw [List.append_nil, List.append_nil] at layout₂
  -- Where an integer operation needs a register for itself, the leased operands leave
  -- one, for the place of the result is not counted among them.
  have room : op ≠ .divide → current.ty.arith source.ty = .int →
      t₂.RoomFor E result [current.location, source.location] := fun _ int => by
    rw [m.ty] at int
    refine roomFor_beside layout₂ leased (by simp) few (fits (integral int)) fun memory id hid => ?_
    obtain ⟨x, hx, occupies⟩ := mem_registersOf.1 (not_mem_registersOf memory places.direct hid)
    rcases List.mem_cons.1 hx with rfl | hx
    · exact mem_registersOf.2 ⟨dest.location, by simp, m.named occupies⟩
    · exact mem_registersOf.2 ⟨x, by simp at hx; simp [hx], occupies⟩
  have same := m.ty
  have computed : Steady (binary op result (dest.ty.arith source.ty) current source) t₂ E := by
    have kinds : Parser.joins op current.ty source.ty = true := by
      rw [m.ty]
      exact joins
    have := binary_steady (E := E) poised₂.ok poised₂.quiet kinds places.isOperand (by rw [m.ty]; exact places.fits) m.operand
      operand room
    rwa [m.ty] at this
  refine .bind computed fun _ t₃ h₃ => ?_
  have poised₃ : t₃.Poised d f :=
    poised_leads [] poised₂ (by simpa [leasesOf] using h₃) (by simp)
  have layout₃ := layout₂.trans h₃.layout
  rw [List.append_nil, List.append_nil] at layout₃
  refine .bind (Steady.after (store_steady poised₃.ok poised₃.quiet destFits places.isOperand ?_)
    ((h₁.trans h₂).trans h₃)) fun _ t₄ h₄ => next t₄ _ h₄
  intro int
  by_cases own : (dest.ty.arith source.ty).isIntegral = true ∧ result.isRegister = true
  · exact .inl own
  refine .inr (roomFor_beside layout₃ leased (by simp) few (fits int) fun memory id hid => ?_)
  obtain ⟨x, hx, occupies⟩ := mem_registersOf.1 hid
  rcases List.mem_cons.1 hx with rfl | hx
  · exact mem_registersOf.2 ⟨dest.location, by simp, occupies⟩
  · obtain rfl : x = result := by simpa using hx
    by_cases register : x.isRegister = true
    · have other : (dest.ty.arith source.ty).isIntegral = false := by simpa [register] using own
      exact absurd occupies (notGeneral_of_fits places.fits other places.direct id)
    · have direct := places.direct id
      cases x <;> simp_all [Location.registerOf?, Location.isRegister]

/-- What is assigned, and what it is assigned to, has values. -/
theorem valued_of_assigns {op : Option BinaryOp} {target value : Ty} (assigns : Parser.assigns op target value = true) :
    target ≠ .void ∧ value ≠ .void := by
  revert assigns
  cases op with
  | none => cases target <;> cases value <;> decide
  | some op => cases op <;> cases target <;> cases value <;> decide

/-- **What an assignment does once its target is found**: its value is
evaluated, combined with what the target holds, and stored. -/
def assigning (op : Option BinaryOp) (targetTy valueTy : Ty) (dest : Value) (value : Lower Value) : Lower Unit :=
  inScope do
    let source ← value
    match op with
    | none => store dest.location targetTy source
    | some op =>
      let current ← materialize { location := dest.location, ty := dest.ty }
      let ty := targetTy.arith valueTy
      let result ← place ty
      binary op result ty current source
      store dest.location targetTy { location := result, ty }
    finish source

/-- **The value is assigned**, and nothing is left behind. -/
theorem assigning_ends {op : Option BinaryOp} {value : Lower Value} {t v : Expr} {dest : Value} {t₁ : LoweringState}
    (assigns : Parser.assigns op t.ty v.ty = true) (poised : s.Poised d f) (few : s.layout.leased.length ≤ n)
    (found : Yields s t₁ true t dest) (hv : Lowers d f E (n + t.held) false value v)
    (fits : t.ty.isIntegral = true → n ≤ 1 ∨ E (.layout (.noRegister .general))) :
    Ends (assigning op t.ty v.ty dest value) t₁ (fun _ u => t₁.Leads u [] []) E := by
  have valued := valued_of_assigns assigns
  obtain ⟨rs₁, leads₁⟩ := found.leads
  have poised₁ : t₁.Poised d f := poised_leads [dest] poised
    (by simpa [leasesOf] using leads₁) (by simpa using found.leased)
  have few₁ := leased_length few found
  have destFits : dest.location.Fits t.ty := found.ty ▸ (found.stands valued.1).fits
  refine (inScope_ends (.refl leads₁.ok) (P := fun _ _ => True) (Ends.mono
    (Q := fun _ u => ∃ rs, (opened t₁).Leads u rs []) ?_ (fun _ _ h => ⟨h, trivial⟩) fun _ h => h)).mono
    (fun _ _ h => h.1) fun _ h => h
  refine .bind (hv _ (opened_poised poised₁) few₁) fun source t₂ y₂ => ?_
  obtain ⟨rs₂, leads₂⟩ := y₂.leads
  have layout : s.layout.Leads t₂.layout (rs₁ ++ rs₂) (leasesOf [dest, source]) := by
    simpa [leasesOf] using leads₁.layout.trans leads₂.layout
  have one : (opened t₁).Leads t₂ rs₂ (leasesOf [source]) := by simpa [leasesOf] using leads₂
  have poised₂ := poised_leads _ (opened_poised poised₁) one (by simpa using y₂.leased)
  have ov := y₂.operand rfl valued.2
  cases op with
  | none =>
    refine .bind ((store_steady poised₂.ok poised₂.quiet destFits ov fun integral => .inr
      (roomFor_beside layout (by simp [found.leased, y₂.leased]) (by simp) few (fits integral)
        fun _ _ hid => hid)).after leads₂) fun _ t₃ h₃ => ?_
    exact (finish_only_ends h₃).mono (fun _ u h => ⟨_, h⟩) fun _ h => h
  | some op =>
    have joins : Parser.joins op t.ty v.ty = true := by
      simp only [Parser.assigns, Bool.and_eq_true] at assigns
      exact assigns.1
    refine combine_ends poised₂ joins found.ty destFits found.leased y₂.ty y₂.leased ov layout few fits
      fun t₃ rs₃ h₃ => ?_
    have h := leads₂.trans h₃
    rw [List.append_nil] at h
    exact (finish_only_ends h).mono (fun _ u h => ⟨_, h⟩) fun _ h => h

/-- **An assignment is lowered**, for the place it assigns to. -/
theorem assignValue_lowers {op : Option BinaryOp} {target value : Lower Value} {t v : Expr}
    (assigns : Parser.assigns op t.ty v.ty = true) (p : Position)
    (ht : Lowers d f E n true target t) (hv : Lowers d f E (n + t.held) false value v)
    (fits : t.ty.isIntegral = true → n ≤ 1 ∨ E (.layout (.noRegister .general))) :
    Lowers d f E n true (assignValue op t.ty v.ty target value) (.assign op t v t.ty p) := by
  intro s poised few
  have valued := valued_of_assigns assigns
  refine .bind (ht s poised few) fun dest t₁ y₁ => ?_
  obtain ⟨rs₁, leads₁⟩ := y₁.leads
  refine .bind (assigning_ends assigns poised few y₁ hv fits) ?_
  rintro _ t₂ h₂
  have yields {t₃ : LoweringState} (h₃ : t₁.Leads t₃ [] []) :
      Yields s t₃ true (.assign op t v t.ty p) { dest with writeBack := none } :=
    { leads := ⟨rs₁, leads₁.step h₃⟩
      ty := y₁.ty
      leased := y₁.leased
      stands := fun _ => by
        obtain ⟨fits, kept, leased⟩ := (y₁.stands valued.1).leads h₃
        exact ⟨fits, kept, leased⟩
      operand := by simp
      holds := y₁.holds
      writeBack := by simp
      reloads := by simp }
  dsimp only
  split
  · next back some =>
    obtain ⟨register, operand⟩ := y₁.writeBack back some
    refine .bind ((transfer_steady h₂.ok _ (Location.isOperand_of_isRegister register) operand
      (.inl register)).after h₂) fun _ t₃ h₃ => ?_
    exact .pure (yields h₃)
  · exact .pure (yields h₂)

/-- **A place is lowered for its value**: its lane, if it is one, is
copied. -/
theorem materialize_lowers {asTarget : Bool} {action : Lower Value} {e : Expr}
    (valued : e.ty ≠ .void) (he : Lowers d f E n true action e) :
    Lowers d f E n asTarget (do materialize (← action)) e := by
  intro s poised few
  refine .bind (he s poised few) fun v t y => ?_
  obtain ⟨rs, leads⟩ := y.leads
  have poised₁ : t.Poised d f := poised_leads [v] poised
    (by simpa [leasesOf] using leads) (by simpa using y.leased)
  have stands := y.stands valued
  have lane : ∀ r k, v.location = .registerLane r k → v.lease = none := fun r k same =>
    y.leased.unleased (by simp [same])
  refine (materialize_ends poised₁.ok poised₁.quiet stands.fits lane).mono ?_ fun _ h => h
  intro w u m
  obtain ⟨rs', h⟩ := m.leads
  rcases m.same with rfl | ⟨stands', float, none, none', back⟩
  · refine ⟨⟨rs ++ rs', ?_⟩, y.ty, y.leased, fun _ => stands.leads h, fun _ _ => m.operand, y.holds,
      y.writeBack, fun b some => (y.reloads b some).imp_right h.keeps⟩
    simpa using leads.trans h
  · refine ⟨⟨rs ++ rs', ?_⟩, m.ty.trans y.ty, stands'.lease, fun _ => stands',
      fun _ _ => m.operand, by simp [none], by simp [back], by simp [back]⟩
    rw [none', Option.toList_none] at leads
    simpa [none] using leads.trans h

end Lower

end Shading
