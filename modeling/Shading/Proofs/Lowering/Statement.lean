import Shading.Lowering.Statement
import Shading.Proofs.Lowering.Expression

/-!
# Statements are lowered

Between statements no address is held, so every statement starts with
all registers at hand. Besides a missing register and the forms that are
refused, only a jump over too much code can fail: its distance does not fit
in 32 bits.
-/

namespace Shading

open LoweringState

/-- **A state from which statements are lowered**: no address is held. -/
structure LoweringState.Settled (s : LoweringState) (d : Declarations) (f : Option FunctionId) :
    Prop extends s.Poised d f where
  free : s.layout.leased.length ≤ 0

namespace Lower

variable {s : LoweringState} {E : Error → Prop} {d : Declarations} {f : Option FunctionId}

/-! ## Conditions -/

variable {lhs rhs : Value}

/-- Comparing integers succeeds when there is room for a register. -/
theorem compareInts_steady (ok : s.Ok) (hl : lhs.location.IsOperand) (hr : rhs.location.IsOperand)
    (room : s.layout.Room .general [lhs.location, rhs.location]) :
    Steady (compareInts lhs rhs) s E := by
  have h := Leads.refl ok
  unfold Steady compareInts
  split
  · next register => exact emit_ends h _ register hr []
  split
  · next register => exact emitStore_ends h _ hl register
  · refine .bind (acquire_ends h (.inl room)) ?_
    rintro x t ⟨h₁, id, grants⟩
    have register := isRegister_of_grants grants
    refine .bind ((transfer_steady h₁.ok _ (Location.isOperand_of_isRegister register) hl
      (.inl register)).after h₁) fun _ t h₂ => ?_
    refine .bind (emit_ends h₂ _ register hr []) fun _ t h₃ => ?_
    exact release_last_ends h₃

/-- Comparing a register with a float, and handing back what was taken on the
way. -/
theorem compareRegister_ends (quiet : s.Quiet) (hr : rhs.location.IsOperand) {t : LoweringState}
    {left : Location} {lease : Option Lease} (h : s.Leads t [] ([] ++ lease.toList))
    (register : left.isRegister = true) (named : ∀ x ∈ lease, x.location = left) : Ends (do
      let (right, rightLease) ← floatOperand rhs [left, lhs.location, rhs.location]
      emit .comiss left right
      releaseOption rightLease
      releaseOption lease : Lower Unit) t (fun _ u => s.Leads u [] []) E := by
  refine .bind (floatOperand_ends quiet h hr (by simp) fun x hx => ?_) ?_
  · rw [List.nil_append, Option.mem_toList] at hx
    rw [named x hx]
    exact List.mem_cons_self
  rintro ⟨right, rightLease⟩ t ⟨h₂, operand, -⟩
  refine .bind (emit_ends h₂ _ register operand []) fun _ t h₃ => ?_
  refine .bind (releaseOption_ends h₃) fun _ t h₄ => ?_
  exact releaseOption_ends h₄

/-- Comparing floats succeeds. -/
theorem compareFloats_steady (ok : s.Ok) (quiet : s.Quiet) (hl : lhs.location.IsOperand)
    (hr : rhs.location.IsOperand) : Steady (compareFloats lhs rhs) s E := by
  have h := Leads.refl ok
  unfold Steady compareFloats
  dsimp only
  split
  · next own =>
    rw [← List.append_nil ([] : List Lease)] at h
    exact compareRegister_ends quiet hr h own.2 (by simp)
  · refine .bind (acquireSimd_ends quiet h (by simp) (by simp)) ?_
    rintro x t ⟨h₁, id, grants⟩
    have register := isRegister_of_grants grants
    have storing : Ends (store x.location .float lhs) t (fun _ u => s.Leads u [] ([] ++ [x])) E := by
      have := storeFloat_ends (E := E) h₁ hl ⟨id, grants.location⟩
      rw [grants.location] at this ⊢
      exact this
    refine .bind storing fun _ t h₂ => ?_
    exact compareRegister_ends quiet hr h₂ register (by simp)

/-- What is compared is neither a vector nor `void`, or both are one vector
type, or both are `void`. -/
theorem sorts_of_compares {op : RelationalOp} {l r : Ty} (h : op.Compares l r) :
    ((l.isVector = false ∧ l ≠ .void) ∧ r.isVector = false ∧ r ≠ .void) ∨
      (l.isVector = true ∧ r.isVector = true) ∨ (l = .void ∧ r = .void) := by
  have scalar {t : Ty} (h : t.isScalar = true) : t.isVector = false ∧ t ≠ .void := by
    revert h
    cases t <;> decide
  cases h with
  | numbers _ lhs rhs => exact .inl ⟨scalar lhs, scalar rhs⟩
  | equality | inequality => cases l <;> decide

/-- A value without a place is not compared. -/
theorem compareFloats_refused (ok : s.Ok) (quiet : s.Quiet) (void : lhs.ty = .void)
    (unplaced : lhs.location = .none) (refused : E Form.voidComparison.refusal)
    {Q : Unit → LoweringState → Prop} : Ends (compareFloats lhs rhs) s Q E := by
  unfold compareFloats
  dsimp only
  rw [if_neg (by rw [void]; simp)]
  refine .bind (acquireSimd_ends quiet (.refl ok) (by simp) (by simp)) ?_
  rintro x t ⟨-, id, grants⟩
  have stored : store x.location .float lhs t = .error (Form.voidComparison.refusal) := by
    obtain ⟨location, ty, lease, back⟩ := lhs
    cases void
    cases unplaced
    rw [grants.location]
    rfl
  exact .bind (Q := fun _ _ => False) (.of_error stored refused) fun _ _ h => h.elim

/-- **Two values are compared**, unless they are vectors or have no
place. -/
theorem compare_steady (ok : s.Ok) (quiet : s.Quiet) {op : RelationalOp}
    (compares : op.Compares lhs.ty rhs.ty)
    (vectors : lhs.ty.isVector = true → rhs.ty.isVector = true → E Form.vectorComparison.refusal)
    (voids : lhs.ty = .void → rhs.ty = .void →
      lhs.location = .none ∧ E Form.voidComparison.refusal)
    (hl : lhs.ty ≠ .void → lhs.location.IsOperand) (hr : rhs.ty ≠ .void → rhs.location.IsOperand)
    (room : s.layout.Room .general [lhs.location, rhs.location]) :
    Steady (compare op lhs rhs) s E := by
  unfold Steady compare
  rcases sorts_of_compares compares with ⟨⟨vectorL, voidL⟩, vectorR, voidR⟩ |
    ⟨vectorL, vectorR⟩ | ⟨voidL, voidR⟩
  · rw [vectorL, vectorR, if_neg (by decide)]
    split
    · exact .bind (compareInts_steady ok (hl voidL) (hr voidR) room) fun _ t h => .pure h
    · exact .bind (compareFloats_steady ok quiet (hl voidL) (hr voidR)) fun _ t h => .pure h
  · rw [vectorL, if_pos (by simp)]
    exact .of_error rfl (vectors vectorL vectorR)
  · obtain ⟨unplaced, refused⟩ := voids voidL voidR
    rw [voidL, voidR, if_neg (by decide), if_neg (by decide)]
    exact .bind (Q := fun _ _ => False) (compareFloats_refused ok quiet voidL unplaced refused)
      fun _ _ h => h.elim

/-- A course that holds no lease ends in a settled state if its variables
are at home. -/
theorem settled_of_leads {t : LoweringState} {rs : List Location} (h : s.Leads t rs [])
    (quiet : s.Quiet) (free : s.layout.leased.length ≤ 0) (houses : t.Houses d (d.Sees f)) :
    t.Settled d f := by
  have length := h.layout.leased.length_eq
  simp only [List.map_nil, List.append_nil] at length
  exact ⟨⟨h.ok, quiet.step h, houses⟩, length ▸ free⟩

theorem settled_leads {t : LoweringState} {rs : List Location} (settled : s.Settled d f)
    (h : s.Leads t rs []) : t.Settled d f :=
  settled_of_leads h settled.quiet settled.free (settled.houses.leads h)

theorem settled_opened (settled : s.Settled d f) : (opened s).Settled d f :=
  ⟨opened_poised settled.toPoised, settled.free⟩

/-- A call without a value has no place. -/
theorem callValue_unplaced {id : FunctionId} {name : String} {action : Lower (List Value)} :
    Results (callValue id name .void action) s fun v _ => v.location = .none := by
  unfold callValue
  refine .bindGet ?_
  split
  · refine .bind (.pure rfl : Results (pure Location.none) s fun out _ => out = .none) ?_
    rintro _ t rfl
    exact .bind (Q := fun _ _ => True) (fun _ _ _ => trivial) fun _ _ _ => .pure rfl
  · rintro v t ⟨⟩

/-- **What is lowered and has type `void` is a call**, and has no place. -/
theorem void_results (sound : d.Sound) {e : Expr} (typed : e.Typed d f) (poised : s.Poised d f) :
    Results (value e) s fun v _ => e.ty = .void → e.isVoidCall = true ∧ v.location = .none := by
  intro v t run void
  cases typed with
  | literal v p => cases v <;> cases void
  | @name _ w _ found visible =>
    have void : w.ty = .void := void
    cases kind : w.kind with
    | «variable» => exact absurd (by rw [void]; rfl) (sound.storable _ w found kind)
    | function =>
      rw [value, expression_name] at run
      have never : Ends (variableValue _) s (fun _ _ => False) fun _ => True :=
        functionName_refused found kind trivial poised
      exact (never.of_ok run).elim
  | @binary op l r _ p hl hr yields =>
    obtain ⟨joins, rfl⟩ := yields.joins
    have void : l.ty.arith r.ty = .void := void
    exfalso
    revert joins void
    generalize l.ty = a, r.ty = b
    cases op <;> cases a <;> cases b <;> decide
  | assign _ _ _ _ takes => exact absurd void takes.notVoid
  | relational | not => cases void
  | @negate e _ _ numeric =>
    have void : e.ty = .void := void
    rw [void] at numeric
    exact absurd numeric (by decide)
  | @subscript b _ ty _ _ _ element _ =>
    have void : ty = .void := void
    rw [void] at element
    exfalso
    revert element
    generalize b.ty = a
    cases a <;> decide
  | @call _ g args p found _ _ =>
    have void : g.returnTy = .void := void
    rw [void] at run ⊢
    rw [value, expression_call] at run
    exact ⟨rfl, callValue_unplaced v t run⟩

/-- **The condition of a choice is evaluated.** -/
theorem conditionJump_ends (sound : d.Sound) {c : Expr} (settled : s.Settled d f)
    (typed : c.Typed d f) (truth : c.ty = .bool) (refused : ∀ form ∈ c.conditionForms d, E form.refusal)
    (fits : c.fits 0 = true ∨ E (.layout (.noRegister .general))) :
    Ends (conditionJump c) s (fun _ t => ∃ rs, s.Leads t rs []) E := by
  -- A condition that is no comparison is a truth value, which is compared with zero.
  have whole (e : Expr) (typed : e.Typed d f) (truth : e.ty = .bool)
      (refused : ∀ form ∈ e.forms d, E form.refusal)
      (fits : e.fits 0 = true ∨ E (.layout (.noRegister .general))) : Ends (do
        let v ← value e
        emitUnary .cmpImm8 v.location [0]
        finish v
        return Condition.equal) s (fun _ t => ∃ rs, s.Leads t rs []) E := by
    refine .bind (expression_lowers sound false e typed refused fits s settled.toPoised settled.free)
      fun v t y => ?_
    obtain ⟨rs, leads⟩ := y.leads
    have operand := y.operand rfl (by rw [truth]; decide)
    refine .bind (emitUnary_ends leads _ operand _) fun _ t h => ?_
    exact .bind (finish_only_ends h) fun _ t h => .pure ⟨rs, h⟩
  rw [conditionJump_def]
  cases c with
  | relational op l r ty p =>
    cases typed with
    | relational _ hl hr compares =>
      simp only [Expr.conditionForms, List.forall_mem_append] at refused
      simp only [Expr.fits, Bool.and_eq_true] at fits
      obtain ⟨⟨vectors, voids⟩, formsL, formsR⟩ := refused
      refine .bind ((void_results sound hl settled.toPoised).andEnds (expression_lowers sound false l
        hl formsL (fits.imp (·.1) id) s settled.toPoised settled.free)) ?_
      rintro v t₁ ⟨y₁, void₁⟩
      obtain ⟨rs₁, leads₁⟩ := y₁.leads
      have poised₁ : t₁.Poised d f := poised_leads [v] settled.toPoised
        (by simpa [leasesOf] using leads₁) (by simpa using y₁.leased)
      refine .bind ((void_results sound hr poised₁).andEnds (expression_lowers sound false r hr
        formsR (fits.imp (·.2) id) t₁ poised₁ (leased_length settled.free y₁))) ?_
      rintro w t₂ ⟨y₂, void₂⟩
      obtain ⟨rs₂, leads₂⟩ := y₂.leads
      have both : s.Leads t₂ (rs₁ ++ rs₂) (leasesOf [v, w]) := by
        simpa [leasesOf] using leads₁.trans leads₂
      have poised₂ := poised_leads _ settled.toPoised both (by simp [y₁.leased, y₂.leased])
      have free := settled.free
      have room : t₂.layout.Room .general [v.location, w.location] :=
        room_beside both.layout (by simp [y₁.leased, y₂.leased]) (by simp; omega) fun _ h => h
      have compared : Steady (compare op v w) t₂ E := by
        refine compare_steady poised₂.ok poised₂.quiet (by rw [y₁.ty, y₂.ty]; exact compares)
          (fun vectorL vectorR => ?_) (fun voidL voidR => ?_) (fun some => ?_) (fun some => ?_) room
        · rw [y₁.ty] at vectorL
          rw [y₂.ty] at vectorR
          exact vectors _ (by simp [vectorL, vectorR])
        · obtain ⟨callL, unplaced⟩ := void₁ (y₁.ty ▸ voidL)
          obtain ⟨callR, -⟩ := void₂ (y₂.ty ▸ voidR)
          exact ⟨unplaced, voids _ (by simp [callL, callR])⟩
        · exact y₁.operand rfl (y₁.ty ▸ some)
        · exact y₂.operand rfl (y₂.ty ▸ some)
      refine .bind (compared.after both) fun _ t₃ h₃ => ?_
      have h₃ : s.Leads t₃ (rs₁ ++ rs₂) (v.lease.toList ++ w.lease.toList) := by
        simpa [leasesOf] using h₃
      refine .bind (finish_ends h₃) fun _ t₄ h₄ => ?_
      exact .bind (finish_only_ends h₄) fun _ t₅ h₅ => .pure ⟨_, h₅⟩
  | _ => exact whole _ typed truth refused fits

/-- **A jump past a body is emitted**, and its label stays open. -/
theorem condition_ends (sound : d.Sound) {c : Expr} (settled : s.Settled d f)
    (typed : c.Typed d f) (truth : c.ty = .bool) (refused : ∀ form ∈ c.conditionForms d, E form.refusal)
    (fits : c.fits 0 = true ∨ E (.layout (.noRegister .general))) :
    Ends (condition c) s (fun l t => s.Leads t [] [] ∧
      ((∃ k, t.assembly.Open (.when k) l) ∧ s.assembly.labels < l)) E := by
  rw [condition_eq]
  refine inScope_ends (.refl settled.ok)
    (P := fun l a => (∃ k, a.Open (.when k) l) ∧ s.assembly.labels < l) ?_
  refine .bind (conditionJump_ends sound (settled_opened settled) typed truth refused fits) ?_
  rintro k t ⟨rs, h⟩
  refine (emitJump_ends h (.when k)).mono ?_ fun _ h => h
  rintro l u ⟨h', isOpen, new⟩
  exact ⟨⟨rs, h'⟩, ⟨k, isOpen⟩, Nat.lt_of_le_of_lt h.assembly.labels new⟩

/-! ## Statements -/

/-- **An expression is evaluated for its effect.** -/
theorem effect_steady (sound : d.Sound) {e : Expr} (settled : s.Settled d f)
    (typed : e.Typed d f) (refused : ∀ form ∈ e.forms d, E form.refusal)
    (fits : e.fits 0 = true ∨ E (.layout (.noRegister .general))) : Steady (effect e) s E := by
  have inner : Ends (inScope do
      let v ← value e
      finish v) s (fun _ t => s.Leads t [] [] ∧ True) E := by
    refine inScope_ends (.refl settled.ok) (P := fun _ _ => True) ?_
    refine .bind (expression_lowers sound false e typed refused fits _
      (settled_opened settled).toPoised settled.free) fun v t y => ?_
    obtain ⟨rs, leads⟩ := y.leads
    exact (finish_only_ends leads).mono (fun _ u h => ⟨⟨rs, h⟩, trivial⟩) fun _ h => h
  rw [effect_eq]
  exact inner.mono (fun _ _ h => h.1) fun _ h => h

/-- **A local is given its first value.** -/
theorem initialise_steady (sound : d.Sound) {g : FunctionId} {v : SymbolId} {e : Expr}
    (settled : s.Settled d (some g)) (isLocal : d.IsVariableOf g v) (typed : e.Typed d (some g))
    (stores : (d.symbolTy v).Stores e.ty) (refused : ∀ form ∈ e.forms d, E form.refusal)
    (fits : e.fits 0 = true ∨ E (.layout (.noRegister .general))) :
    Steady (initialise v e) s E := by
  obtain ⟨sym, found, kind, scope, owner, storage⟩ := isLocal
  obtain ⟨l, known⟩ := settled.houses.symbols v sym found
  have sees : d.Sees (some g) v := ⟨sym, found, kind, .inr ⟨scope, owner, rfl⟩⟩
  obtain ⟨home, homeFits, -⟩ := settled.houses.homes v _ sees known
  rw [Declarations.symbolTy_of_get? found] at stores
  have valued := stores.notVoid.2
  have inner : Ends (inScope do
      let w ← value e
      store l sym.ty w
      finish w) s (fun _ t => s.Leads t [] [] ∧ True) E := by
    refine inScope_ends (.refl settled.ok) (P := fun _ _ => True) ?_
    refine .bind (expression_lowers sound false e typed refused fits _
      (settled_opened settled).toPoised settled.free) fun w t y => ?_
    obtain ⟨rs, leads⟩ := y.leads
    have one : (opened s).Leads t rs (leasesOf [w]) := by simpa [leasesOf] using leads
    have poised := poised_leads _ (settled_opened settled).toPoised one (by simpa using y.leased)
    have room : t.RoomFor E l [w.location] := by
      refine roomFor_beside one.layout (by simpa using y.leased) (by simp)
        (settled_opened settled).free (.inl (Nat.zero_le 1)) fun memory _ hid => ?_
      exact not_mem_registersOf memory (fun r same => by rw [same] at home; exact home) hid
    refine .bind ((store_steady poised.ok poised.quiet homeFits (y.operand rfl valued)
      fun _ => .inr room).after leads) fun _ t h => ?_
    exact (finish_only_ends h).mono (fun _ u h => ⟨⟨rs, h⟩, trivial⟩) fun _ h => h
  rw [initialise_eq]
  unfold Steady
  refine .bindGet ?_
  rw [known]
  exact inner.mono (fun _ _ h => h.1) fun _ h => h

/-! ## Sequences and choices -/

/-- **The label of a choice is bound** behind the start of the choice,
unless its jump leads too far. -/
theorem bindChoice_ends {t : LoweringState} (ok : s.Ok) (h : s.Leads t [] []) {form : JumpForm}
    {l : Nat} (isOpen : t.assembly.Open form l) (young : s.assembly.labels < l)
    (wide : form.width = 4)
    (far : ∀ distance : Int, 2 ^ 31 ≤ distance → E (.layout (.longJump distance))) :
    Ends (bindLabel l) t (fun _ u => s.Leads u [] [] ∧
      ∀ form' l', l' ≠ l → t.assembly.Open form' l' → u.assembly.Open form' l') E := by
  refine bindLabel_ends h ok isOpen young fun i d hi outside => ?_
  rw [wide] at outside ⊢
  rw [if_neg (by decide)]
  refine far _ ?_
  -- the jump stands before the end of the code, so the distance is not negative
  have before : Assembly.startOf t.assembly.entries (i + 1) ≤ t.assembly.size := by
    have inside := (List.getElem?_eq_some_iff.1 hi).1
    rw [Assembly.size, ← Assembly.startOf_length]
    exact Assembly.startOf_mono inside
  unfold fitsSigned at outside
  simp at outside
  omega

/-- **The other branch of a choice** is jumped over behind the body, and
reached where the condition fails. -/
theorem alternative_ends {t : LoweringState} {body : Lower Unit}
    (far : ∀ distance : Int, 2 ^ 31 ≤ distance → E (.layout (.longJump distance)))
    (settled : s.Settled d f) (h : s.Leads t [] []) {form : JumpForm} {skip : Nat}
    (isOpen : t.assembly.Open form skip) (young : s.assembly.labels < skip)
    (wide : form.width = 4) (hb : ∀ u : LoweringState, u.Settled d f → Steady body u E) :
    Ends (do
      let stop ← emitJump .always
      bindLabel skip
      body
      bindLabel stop : Lower Unit) t (fun _ u => s.Leads u [] []) E := by
  refine .bind (emitJump_ends (.refl h.ok) .always) ?_
  rintro stop t₁ ⟨h₁, stopOpen, new⟩
  have older : skip ≤ t.assembly.labels := by
    obtain ⟨_, jump⟩ := isOpen.jump
    exact h.ok.assembly.jumps _ jump skip rfl
  refine .bind (bindChoice_ends settled.ok (h.step h₁) (isOpen.leads h.ok.assembly h₁.assembly)
    young wide far) ?_
  rintro _ t₂ ⟨h₂, others⟩
  have stopOpen := others .always stop (by omega) stopOpen
  refine .bind (hb t₂ (settled_leads settled h₂)) fun _ t₃ h₃ => ?_
  have stopOpen := stopOpen.leads h₂.ok.assembly h₃.assembly
  have labels := h.assembly.labels
  exact (bindChoice_ends settled.ok (h₂.step h₃) stopOpen (by omega) rfl far).mono
    (fun _ _ h => h.1) fun _ h => h

mutual

/-- **Every typed statement is lowered** and leaves nothing behind, if the
refusal of its forms is put up with. -/
theorem statement_steady (sound : d.Sound) {g : FunctionId}
    (far : ∀ distance : Int, 2 ^ 31 ≤ distance → E (.layout (.longJump distance))) :
    (st : Statement) → (s : LoweringState) → s.Settled d (some g) → st.Typed d g →
      (∀ form ∈ st.forms d, E form.refusal) → (st.fits = true ∨ E (.layout (.noRegister .general))) →
      Steady (statement st) s E
  | .localVariable v none => by
    intro s settled _ _ _
    unfold Steady statement
    exact .pure (.refl settled.ok)
  | .localVariable v (some e) => by
    intro s settled typed refused fits
    obtain ⟨isLocal, typed, stores⟩ := typed
    simp only [Statement.forms] at refused
    simp only [Statement.fits, Option.all_some] at fits
    unfold Steady statement
    exact initialise_steady sound settled isLocal typed stores refused fits
  | .expression e => by
    intro s settled typed refused fits
    simp only [Statement.Typed] at typed
    simp only [Statement.forms] at refused
    simp only [Statement.fits] at fits
    unfold Steady statement
    exact effect_steady sound settled typed refused fits
  | .branch c => by
    intro s settled typed refused fits
    simp only [Statement.Typed] at typed
    simp only [Statement.forms] at refused
    simp only [Statement.fits] at fits
    unfold Steady statement
    exact choice_steady sound far c s settled typed refused fits
  | .whileLoop _ _ | .forLoop _ _ _ _ => by
    intro s _ _ refused _
    simp only [Statement.forms, List.forall_mem_cons] at refused
    unfold Steady statement
    exact .of_error rfl refused.1
  | .ret none => by
    intro s settled _ _ _
    unfold Steady statement
    exact write_ends (.refl settled.ok) ⟨rfl, rfl⟩
  | .ret (some e) => by
    intro s settled typed refused fits
    simp only [Statement.Typed] at typed
    simp only [Statement.forms] at refused
    simp only [Statement.fits, Option.all_some] at fits
    unfold Steady statement
    refine .bind (effect_steady sound settled typed.1 refused fits) fun _ t h => ?_
    exact write_ends h ⟨rfl, rfl⟩

/-- Every typed choice is lowered. -/
theorem choice_steady (sound : d.Sound) {g : FunctionId}
    (far : ∀ distance : Int, 2 ^ 31 ≤ distance → E (.layout (.longJump distance))) :
    (st : IfStatement) → (s : LoweringState) → s.Settled d (some g) → st.Typed d g →
      (∀ form ∈ st.forms d, E form.refusal) → (st.fits = true ∨ E (.layout (.noRegister .general))) →
      Steady (choice st) s E
  | .mk c body otherwise => by
    intro s settled typed refused fits
    simp only [IfStatement.Typed] at typed
    obtain ⟨typedC, truth, typedB, typedO⟩ := typed
    simp only [IfStatement.forms, List.forall_mem_append] at refused
    obtain ⟨⟨refusedC, refusedB⟩, refusedO⟩ := refused
    simp only [IfStatement.fits, Bool.and_eq_true] at fits
    unfold Steady choice
    refine .bind (condition_ends sound settled typedC truth refusedC (fits.imp (·.1.1) id)) ?_
    rintro skip t₁ ⟨h₁, ⟨k, isOpen⟩, young⟩
    refine .bind (statements_steady sound far body t₁ (settled_leads settled h₁) typedB refusedB
      (fits.imp (·.1.2) id)) fun _ t₂ h₂ => ?_
    exact branchOtherwise_ends sound far otherwise s t₂ settled (h₁.step h₂) young
      (isOpen.leads h₁.ok.assembly h₂.assembly) typedO refusedO (fits.imp (·.2) id)

/-- What stands behind the body of a typed choice is lowered. -/
theorem branchOtherwise_ends (sound : d.Sound) {g : FunctionId}
    (far : ∀ distance : Int, 2 ^ 31 ≤ distance → E (.layout (.longJump distance))) :
    (st : ElseBranch) → (s t : LoweringState) → s.Settled d (some g) → s.Leads t [] [] →
      {skip : Nat} → {k : Condition} → s.assembly.labels < skip →
      t.assembly.Open (.when k) skip → st.Typed d g → (∀ form ∈ st.forms d, E form.refusal) →
      (st.fits = true ∨ E (.layout (.noRegister .general))) →
      Ends (branchOtherwise skip st) t (fun _ u => s.Leads u [] []) E
  | .none => by
    intro s t settled h skip k young isOpen _ _ _
    unfold branchOtherwise
    exact (bindChoice_ends settled.ok h isOpen young rfl far).mono (fun _ _ h => h.1) fun _ h => h
  | .chain c => by
    intro s t settled h skip k young isOpen typed refused fits
    simp only [ElseBranch.Typed] at typed
    simp only [ElseBranch.forms] at refused
    simp only [ElseBranch.fits] at fits
    unfold branchOtherwise
    exact alternative_ends far settled h isOpen young rfl fun u settled =>
      choice_steady sound far c u settled typed refused fits
  | .block body => by
    intro s t settled h skip k young isOpen typed refused fits
    simp only [ElseBranch.Typed] at typed
    simp only [ElseBranch.forms] at refused
    simp only [ElseBranch.fits] at fits
    unfold branchOtherwise
    exact alternative_ends far settled h isOpen young rfl fun u settled =>
      statements_steady sound far body u settled typed refused fits

/-- Typed statements are lowered in order. -/
theorem statements_steady (sound : d.Sound) {g : FunctionId}
    (far : ∀ distance : Int, 2 ^ 31 ≤ distance → E (.layout (.longJump distance))) :
    (ss : List Statement) → (s : LoweringState) → s.Settled d (some g) →
      Statement.AllTyped d g ss → (∀ form ∈ Statement.allForms d ss, E form.refusal) →
      (Statement.allFit ss = true ∨ E (.layout (.noRegister .general))) →
      Steady (statements ss) s E
  | [] => by
    intro s settled _ _ _
    unfold Steady statements
    exact .pure (.refl settled.ok)
  | st :: ss => by
    intro s settled typed refused fits
    simp only [Statement.AllTyped] at typed
    simp only [Statement.allForms, List.forall_mem_append] at refused
    simp only [Statement.allFit, Bool.and_eq_true] at fits
    unfold Steady statements
    refine .bind (statement_steady sound far st s settled typed.1 refused.1 (fits.imp (·.1) id))
      fun _ t h => ?_
    exact (statements_steady sound far ss t (settled_leads settled h) typed.2 refused.2
      (fits.imp (·.2) id)).after h

end

end Lower

end Shading
