import Shading.Proofs.Simulation.Operators

/-!
# Expressions compute what they mean

When the code of an expression that only calculates is crossed from a machine
on which the variables hold what a store says, the place of its value holds
what the expression means on that store (`Lower.expression_computes`), and
everything that was at home before is as it was. The proof goes along the tree;
its cases are those of `Lower.Calculates`.
-/

namespace Shading.Lower

open LoweringState Permit

variable {s t u : LoweringState} {d : Declarations} {f : Option FunctionId} {ty : Ty} {out : Location} {v w : Value}

/-! ## Elements -/

section

variable {element : Ty} {x : Lower Value} {meaning : (Word → Word) → Store → Except Stuck Content} {e : Expr} {k : Nat}

theorem elementNumber_eq (known : literalIndex? ty e = some k) : Expr.elementNumber ty e = .ok k := by
  rw [Expr.elementNumber, known]
  rfl

/-- The words before an element fill words. -/
theorem stride_words (has : ty.element? = some element) : k * ty.stride = 4 * (k * ty.stride / 4) := by
  rcases element_cases has with ⟨-, -, stride, -⟩ | ⟨-, -, stride, -⟩ <;> rw [stride] <;> omega

/-- **The copy of a lane** has a place of its own. -/
structure LaneCopied (s t : LoweringState) (simd k : Nat) (w : Value) : Prop where
  leads : ∃ rs, s.Leads t rs []
  ty : w.ty = .float
  unleased : w.lease = none
  homes : t.Homes .float w.location
  apart : ∀ n l, s.Keeps n l → l.Apart n 4 w.location
  crosses : ∀ {T : LoweringState} {rsqrt : Word → Word} {L : Nat} {m : Machine}, T.Ok → t.Follows T → T.Serves L m →
    ∃ m', Crosses T s s t rsqrt L m m' ∧ m'.part L w.location 0 = (m.simd simd).get k

/-- **A lane is copied.** -/
theorem lane_copied (ok : s.Ok) (quiet : s.Quiet) {simd : Nat} (small : k < 4) (pool : simd ∈ RegisterClass.simd.pool)
    (notFree : simd ∉ s.layout.free .simd) :
    Results (materialize { location := .registerLane simd (k * 4), ty := .float, writeBack := v.writeBack }) s fun w t =>
      LaneCopied s t simd k w := by
  intro w t run
  have materialized := (materialize_ends (E := fun _ => True) ok quiet
    (v := { location := .registerLane simd (k * 4), ty := .float, writeBack := v.writeBack })
    ⟨rfl, pool, by omega, by omega⟩ fun _ _ _ => rfl).of_ok run
  obtain ⟨-, temporary⟩ := materializeCall_conducts ok rfl rfl run
  have fresh : s.Fresh w.location := by
    have placed := run
    rw [materialize_lane rfl] at placed
    obtain ⟨out, t₁, placed, copied⟩ := bind_eq_ok.1 placed
    rw [copyLane_location _ _ _ out t₁ w t copied]
    exact (place_placed ok .float out t₁ placed).fresh
  obtain ⟨stands, float, none, -⟩ : w.Stands t ∧ w.ty = .float ∧ w.lease = none ∧ True := by
    rcases materialized.same with same | ⟨stands, float, none, -⟩
    · have transient := temporary.isTransient
      rw [same] at transient
      exact transient.elim
    · exact ⟨stands, float, none, trivial⟩
  have fits := stands.fits
  have keeps := stands.kept
  rw [float] at fits keeps
  have apart (n : Nat) (l : Location) (kept : s.Keeps n l) : l.Apart n 4 w.location := apart_of_fresh kept fresh
  refine
    { leads := materialized.leads
      ty := float
      unleased := none
      homes := ⟨?_, fits, keeps⟩
      apart := apart
      crosses := fun {T rsqrt L m} okT follows serves => ?_ }
  · rcases temporary with ⟨c, id, at_⟩ | ⟨o, at_⟩ <;> rw [at_]
    · cases c <;> trivial
    · trivial
  · obtain ⟨s₁, registers, produces⟩ := materialize_produces rsqrt (L := L) ok small pool notFree
      (by rw [Nat.mul_comm]) rfl serves.base w t run
    obtain ⟨m', crosses, holds⟩ := produces.crosses_result (b := s) temporary.isTransient okT follows serves
      fun ty' l home => ⟨home, apart _ _ home.keeps⟩
    exact ⟨m', crosses, holds.1⟩

/-- **An element of known number** is what the container holds there. -/
theorem element_calculates (has : ty.element? = some element) (known : literalIndex? ty e = some k) {index : Lower Value}
    (hx : Calculates d f x ty meaning) :
    Calculates d f (do
      let container ← x
      let v ← subscriptValue false container e index
      materialize v) element (fun rsqrt σ => do
        let v ← meaning rsqrt σ
        let k ← Expr.elementNumber ty e
        return .element ty k v) := by
  have inRange := literalIndex?_lt known
  have valued : ty ≠ .void := by
    rintro rfl
    cases has
  intro s poised
  refine (hx s poised).bind fun v t calculated => ?_
  obtain ⟨rs, leads⟩ := calculated.leads
  have poised₁ := poised_step poised leads
  obtain ⟨location, container, lease, writeBack⟩ := v
  obtain rfl : ty = container := calculated.ty.symm
  have home : t.Homes ty location := (calculated.dwells valued).homes
  obtain rfl : lease = none := calculated.unleased
  have means {rsqrt : Word → Word} {σ : Store} {c : Content} (h : (do
      let v ← meaning rsqrt σ
      let k ← Expr.elementNumber ty e
      return Content.element ty k v) = .ok c) : ∃ a, meaning rsqrt σ = .ok a ∧ c = .element ty k a := by
    obtain ⟨a, value, h⟩ := except_bind_eq_ok.1 h
    rw [elementNumber_eq known] at h
    exact ⟨a, value, (Except.ok.inj h).symm⟩
  unfold subscriptValue
  dsimp only
  rw [has, known]
  have inside := element_inside has inRange
  -- An element in memory is moved to by its offset.
  have moved (direct : (∃ o, location = .globalMemory o) ∨ ∃ o, location = .localMemory o)
      (memory : location.isInMemory = true) :
      Calculated d f s t element { location := location.offsetBy (k * ty.stride), ty := element, writeBack }
        (fun rsqrt σ => do
          let v ← meaning rsqrt σ
          let k ← Expr.elementNumber ty e
          return .element ty k v) := by
    obtain ⟨fits, keeps⟩ := offset_stands has inRange direct home.fits home.keeps
    refine
      { leads := ⟨rs, leads⟩
        ty := rfl
        unleased := rfl
        dwells := fun _ => ⟨⟨?_, fits, keeps⟩, fun n l kept foreign =>
          ((calculated.dwells valued).apart n l kept foreign).offsetBy inside⟩
        crosses := fun {T rsqrt L m σ c} okT later serves holds value => ?_ }
    · rcases direct with ⟨o, rfl⟩ | ⟨o, rfl⟩ <;> trivial
    · obtain ⟨a, contains, rfl⟩ := means value
      obtain ⟨m', crosses, carries⟩ := calculated.crosses okT later serves holds contains
      refine ⟨m', crosses, fun i word => ?_⟩
      change m'.part L (location.offsetBy (k * ty.stride)) i = _
      rw [stride_words has, Machine.part_offsetBy memory home.direct]
      exact carries _ (Ty.hasWord_element has inRange word)
  rcases container_cases has home.fits with ⟨r, rfl⟩ | memory
  · obtain ⟨-, count, rfl⟩ := vector_of_register has home.fits
    have small : k < 4 := by omega
    have kept : t.Keeps ty.size (.simdRegister r) := home.keeps
    refine (lane_copied (v := { location := .simdRegister r, ty, writeBack }) poised₁.ok poised₁.quiet small home.fits.2
      kept).mono fun w u copied => ?_
    obtain ⟨rs', leads'⟩ := copied.leads
    have whole : s.Leads u (rs ++ rs') [] := by simpa using leads.trans leads'
    refine
      { leads := ⟨_, whole⟩
        ty := copied.ty
        unleased := copied.unleased
        dwells := fun _ => ⟨copied.ty ▸ copied.homes, fun n l keeps foreign => ?_⟩
        crosses := fun {T rsqrt L m σ c} okT later serves holds value => ?_ }
    · rw [copied.ty]
      exact (copied.apart n l (leads.keeps keeps)).symm
    · obtain ⟨a, contains, rfl⟩ := means value
      obtain ⟨m₁, first, carries⟩ := calculated.crosses okT (leads'.follows.trans later) serves holds contains
      obtain ⟨m₂, second, copies⟩ : ∃ m₂, Crosses T t t u rsqrt L m₁ m₂ ∧ _ := copied.crosses okT later first.serves
      refine ⟨m₂, first.trans (second.back fun ty' l home' => home'.leads leads), fun i word => ?_⟩
      obtain rfl := Ty.hasWord_word rfl word
      have value := Ty.hasWord_element has inRange word
      rw [copies, Content.element, ← carries _ value]
      have stride : ty.stride = 4 := by
        rcases element_cases has with ⟨-, -, stride, -⟩ | ⟨-, -, -, -, -, -, size⟩
        · exact stride
        · cases size
      rw [stride, Nat.mul_div_cancel _ (by decide : 0 < 4)]
      rfl
  · cases location with
    | globalMemory o => exact .pure (moved (.inl ⟨o, rfl⟩) rfl)
    | localMemory o => exact .pure (moved (.inr ⟨o, rfl⟩) rfl)
    | indirectRegister id => exact absurd rfl (home.direct id)
    | _ => cases memory

end

/-! ## Calls -/

/-- **What has been calculated of arguments** between two states. -/
structure CalculatedAll (d : Declarations) (f : Option FunctionId) (s t : LoweringState) (vs : List Value) (es : List Expr) :
    Prop where
  leads : ∃ rs, s.Leads t rs []
  tys : vs.map Value.ty = es.map Expr.ty
  unleased : ∀ v ∈ vs, v.lease = none
  dwells : ∀ v ∈ vs, v.ty ≠ .void → s.Dwells t d f v
  crosses : ∀ {T : LoweringState} {rsqrt : Word → Word} {L : Nat} {m : Machine} {σ : Store} {args : List (Ty × Content)},
    T.Ok → t.Follows T → T.Serves L m → s.Holds d f L m σ → Expr.evalAll rsqrt σ es = .ok args →
    ∃ m', Crosses T s s t rsqrt L m m' ∧
      List.Forall₂ (fun v a => a.1 = v.ty ∧ m'.Carries L v.ty v.location a.2) vs args

/-- **An action calculates arguments**, from left to right. -/
def CalculatesAll (d : Declarations) (f : Option FunctionId) (x : Lower (List Value)) (es : List Expr) : Prop :=
  ∀ s : LoweringState, s.Poised d f → Results x s fun vs t => CalculatedAll d f s t vs es

theorem calculatesAll_nil : CalculatesAll d f (pure []) [] := by
  intro s poised
  refine .pure ⟨⟨[], .refl poised.ok⟩, rfl, by simp, by simp, fun {T rsqrt L m σ args} _ _ serves _ values => ?_⟩
  rw [Expr.evalAll] at values
  cases values
  exact ⟨m, .rest s rsqrt serves rfl, .nil⟩

theorem calculatesAll_cons {x : Lower Value} {xs : Lower (List Value)} {e : Expr} {es : List Expr}
    (hx : Calculates d f x e.ty fun rsqrt σ => e.eval rsqrt σ) (hxs : CalculatesAll d f xs es) (valued : e.ty ≠ .void) :
    CalculatesAll d f (do
      let v ← x
      return v :: (← xs)) (e :: es) := by
  intro s poised
  refine (hx s poised).bind fun v t₁ first => ?_
  obtain ⟨rs₁, leads₁⟩ := first.leads
  have poised₁ := poised_step poised leads₁
  refine (hxs t₁ poised₁).bind fun vs t₂ rest => ?_
  obtain ⟨rs₂, leads₂⟩ := rest.leads
  have whole : s.Leads t₂ (rs₁ ++ rs₂) [] := by simpa using leads₁.trans leads₂
  have firstDwells := first.dwells valued
  refine .pure ⟨⟨_, whole⟩, ?_, ?_, ?_, fun {T rsqrt L m σ args} okT later serves holds values => ?_⟩
  · rw [List.map_cons, List.map_cons, first.ty, rest.tys]
  · exact List.forall_mem_cons.2 ⟨first.unleased, rest.unleased⟩
  · refine List.forall_mem_cons.2 ⟨fun _ => ⟨firstDwells.homes.leads leads₂, firstDwells.apart⟩, fun w hw valued => ?_⟩
    have dwells := rest.dwells w hw valued
    exact ⟨dwells.homes, fun n l keeps foreign => dwells.apart n l (leads₁.keeps keeps) (foreign.later leads₁.declarations)⟩
  · rw [Expr.evalAll] at values
    obtain ⟨a, value, others⟩ := except_bind_eq_ok.1 values
    obtain ⟨args', values', same⟩ := except_bind_eq_ok.1 others
    cases same
    obtain ⟨m₁, crosses₁, carries⟩ := first.crosses okT (leads₂.follows.trans later) serves holds value
    obtain ⟨m₂, crosses₂, all⟩ := rest.crosses okT later crosses₁.serves
      (holds.retained poised.houses leads₁.declarations crosses₁.retains) values'
    refine ⟨m₂, crosses₁.trans (crosses₂.back fun ty' l home => home.leads leads₁), .cons ⟨first.ty.symm, ?_⟩ all⟩
    rw [first.ty]
    exact crosses₂.retains.carries (first.ty ▸ firstDwells.homes) carries

/-- Values without leases are given up without code. -/
theorem finishAll_unleased {vs : List Value} (unleased : ∀ v ∈ vs, v.lease = none) : vs.forM finish = pure () := by
  induction vs with
  | nil => rfl
  | cons v vs ih =>
    obtain ⟨first, rest⟩ := List.forall_mem_cons.1 unleased
    change (finish v >>= fun _ => vs.forM finish) = pure ()
    rw [finish_unleased first, pure_bind, ih rest]

/-- The function without a value does nothing. -/
theorem intrinsic_void {g : StageFunction} (mem : g ∈ stageFunctions) (void : g.returnTy = .void) {vs : List Value}
    (count : vs.length = g.parameters.length) (out : Location) : intrinsic g.name out vs = pure () := by
  simp only [stageFunctions, List.mem_cons, List.not_mem_nil, or_false] at mem
  rcases mem with rfl | rfl | rfl | rfl | rfl | rfl
  all_goals first | cases void; done | skip
  obtain ⟨v, rfl⟩ := List.length_eq_one_iff.1 count
  rfl

/-- **A function of the stage fills a place** with what it means, if there is a
place. -/
theorem intrinsic_fills {g : StageFunction} (mem : g ∈ stageFunctions) {xs : Lower (List Value)} {es : List Expr}
    (fits : List.Forall₂ Ty.Stores g.parameters (es.map Expr.ty)) (ha : CalculatesAll d f xs es) (poised : s.Poised d f)
    (placed : g.returnTy ≠ .void → s.Homes g.returnTy out ∧ s.Foreign d f g.returnTy.size out) :
    Results (do
      let values ← xs
      intrinsic g.name out values
      values.reverse.forM finish) s fun _ t => Delivers s t g.returnTy out fun rsqrt L m c => ∃ σ, s.Holds d f L m σ ∧
        (do return Content.intrinsic rsqrt g.name (← Expr.evalAll rsqrt σ es) : Except Stuck Content) = .ok c := by
  refine (ha s poised).bind fun vs t₁ calculated => ?_
  obtain ⟨rs₁, leads₁⟩ := calculated.leads
  have poised₁ := poised_step poised leads₁
  have count : vs.length = g.parameters.length := by
    have same := congrArg List.length calculated.tys
    have length := fits.length_eq
    simp only [List.length_map] at same length
    omega
  rw [finishAll_unleased fun v hv => calculated.unleased v (List.mem_reverse.1 hv)]
  -- A function without a result has no place to carry it, so nothing is asked of its
  -- code but that it is passed.
  by_cases void : g.returnTy = .void
  · rw [intrinsic_void mem void count]
    refine .pure ⟨⟨_, leads₁⟩, fun {T b rsqrt L m c} okT follows serves apart means => ?_⟩
    obtain ⟨σ, holds, means⟩ := means
    obtain ⟨args, values, -⟩ := except_bind_eq_ok.1 means
    obtain ⟨m₁, crosses, -⟩ := calculated.crosses okT follows serves holds values
    refine ⟨m₁, crosses.back fun ty' l home => (apart ty' l home).1, fun k word => ?_⟩
    rw [void] at word
    cases word
  · obtain ⟨home, foreign⟩ := placed void
    have valued {v : Value} (hv : v ∈ vs) : v.ty ≠ .void := by
      have mem := List.mem_map_of_mem (f := Value.ty) hv
      rw [calculated.tys] at mem
      obtain ⟨e, he, same⟩ := List.mem_map.1 mem
      exact same ▸ Expr.valued_of_stores fits e he
    have operates : t₁.Operates g.returnTy out vs :=
      ⟨home.leads leads₁, foreign.transient.not_global, fun v hv =>
        (calculated.dwells v hv (valued hv)).operand home.keeps foreign (.refl poised₁.ok)⟩
    refine (intrinsic_delivers poised₁.ok poised₁.quiet mem (calculated.tys ▸ fits) operates).bind fun _ t₂ computed => ?_
    obtain ⟨rs₂, leads₂⟩ := computed.leads
    have whole : s.Leads t₂ (rs₁ ++ rs₂) [] := by simpa using leads₁.trans leads₂
    refine .pure ⟨⟨_, whole⟩, fun {T b rsqrt L m c} okT follows serves apart means => ?_⟩
    obtain ⟨σ, holds, means⟩ := means
    obtain ⟨args, values, same⟩ := except_bind_eq_ok.1 means
    cases same
    obtain ⟨m₁, first, all⟩ := calculated.crosses okT (leads₂.follows.trans follows) serves holds values
    obtain ⟨m₂, second, carries⟩ := computed.crosses (b := b) okT follows first.serves
      (fun ty' l' home' => by
        obtain ⟨kept, apart⟩ := apart ty' l' home'
        exact ⟨kept.leads leads₁, apart⟩) rfl
    -- The result is written when the arguments have been evaluated, in a place that is
    -- apart from every home.
    refine ⟨m₂, (first.back fun ty' l' home' => (apart ty' l' home').1).trans second, fun k word => ?_⟩
    rw [carries k word]
    refine Content.intrinsic_congr mem ?_ ?_ k word
    · rw [List.map_map]
      exact calculated.tys ▸ fits
    · exact List.forall₂_map_left_iff.2 (all.imp fun v a carried => ⟨carried.1.symm, carried.2⟩)

/-- **A call of a function of the stage** calculates what it means. -/
theorem callValue_calculates (sound : d.Sound) {id : FunctionId} {g : Function} {args : List Expr} {action : Lower (List Value)}
    (found : d.functions.get? id = some g) (intrinsic : g.intrinsic = true)
    (fits : List.Forall₂ Ty.Stores (g.parameters.map d.symbolTy) (args.map Expr.ty)) (ha : CalculatesAll d f action args) :
    Calculates d f (callValue id g.name g.returnTy action) g.returnTy fun rsqrt σ =>
      (do return Content.intrinsic rsqrt g.name (← Expr.evalAll rsqrt σ args) : Except Stuck Content) := by
  have mem := sound.intrinsic id g found intrinsic
  intro s poised
  have isIntrinsic : ((s.declarations.functions.get? id).any Function.intrinsic) = true := by
    rw [poised.houses.functions, found]
    simpa using intrinsic
  unfold callValue
  refine .bindGet ?_
  rw [if_pos isIntrinsic]
  by_cases void : g.returnTy = .void
  · rw [if_pos void, pure_bind]
    refine (inScope_delivers poised.ok (intrinsic_fills mem fits ha (opened_poised poised) fun h => absurd void h)).bind ?_
    rintro _ t ⟨closed, delivers⟩
    refine .pure
      { leads := ⟨[], closed⟩
        ty := rfl
        unleased := rfl
        dwells := fun h => absurd void h
        crosses := fun {T rsqrt L m σ c} okT later serves holds means => ?_ }
    exact delivers.crosses (b := s) okT later serves (fun ty' l home => ⟨home, by cases l <;> trivial⟩) ⟨σ, holds, means⟩
  · rw [if_neg void]
    exact calculates_of_fills (fun s out poised home foreign => intrinsic_fills mem fits ha poised fun _ => ⟨home, foreign⟩)
      s poised

/-! ## The tree -/

mutual

/-- **An expression that only calculates computes what it means.** -/
theorem expression_computes (sound : d.Sound) : (e : Expr) → e.Typed d f → e.calculates = true →
    Calculates d f (expression false e) e.ty fun rsqrt σ => e.eval rsqrt σ
  | .literal v ty p, typed, _ => by
    cases typed
    rw [expression_literal]
    simp only [Expr.eval]
    exact literal_calculates v
  -- A function's name and a call of a function of the shader are typed, but they are
  -- never lowered, so there is nothing to compute.
  | .name id ty p, typed, _ => by
    cases typed with
    | @name _ x _ found visible =>
      rw [expression_name]
      simp only [Expr.eval]
      cases kind : x.kind with
      | «variable» => exact variableValue_calculates found kind visible
      | function =>
        intro s poised
        exact Results.ofEnds (functionName_refused (E := fun _ => True) found kind trivial poised)
  | .binary op l r ty p, typed, calculates => by
    cases typed with
    | binary _ hl hr yields =>
      simp only [Expr.calculates, Bool.and_eq_true] at calculates
      rw [expression_binary]
      simp only [Expr.eval]
      exact calculates_of_fills (binary_fills yields (expression_computes sound l hl calculates.1)
        (expression_computes sound r hr calculates.2))
  | .assign _ _ _ _ _, _, calculates => by simp [Expr.calculates] at calculates
  | .relational _ _ _ _ _, _, calculates => by simp [Expr.calculates] at calculates
  | .negate e ty p, typed, calculates => by
    cases typed with
    | negate _ he numeric =>
      simp only [Expr.calculates] at calculates
      rw [expression_negate]
      simp only [Expr.eval]
      refine calculates_of_fills (unary_fills ?_ (fun a b same => Content.negated_congr same) (fun s out v poised type operates => ?_)
        (expression_computes sound e he calculates))
      · rintro void
        rw [void] at numeric
        revert numeric
        decide
      · rw [← type] at operates ⊢
        exact negate_delivers poised.ok poised.quiet operates
  | .not e ty p, typed, calculates => by
    cases typed with
    | not _ he truth =>
      simp only [Expr.calculates] at calculates
      rw [expression_not]
      simp only [Expr.eval]
      refine calculates_of_fills (unary_fills (l := e.ty) (by rw [truth]; decide) (fun a b same => ?_)
        (fun s out v poised type operates => invert_delivers poised.ok (type.trans truth) operates)
        (expression_computes sound e he calculates))
      rw [truth] at same
      rw [Content.inverted_congr same]
      exact fun _ _ => rfl
  -- Only elements of known number are calculated: any other index is read when the code
  -- is carried out.
  | .subscript b i ty p, typed, calculates => by
    cases typed with
    | subscript _ hb hi element integral =>
      simp only [Expr.calculates, Bool.and_eq_true] at calculates
      obtain ⟨k, known⟩ := Option.isSome_iff_exists.1 calculates.2
      rw [expression_subscript]
      simp only [Expr.eval, Bool.false_eq_true, if_false]
      exact element_calculates element known (expression_computes sound b hb calculates.1)
  | .call id name args ty p, typed, calculates => by
    cases typed with
    | @call _ g _ _ found typedArgs stores =>
      simp only [Expr.calculates] at calculates
      rw [expression_call]
      simp only [Expr.eval]
      cases intrinsic : g.intrinsic with
      | true =>
        exact callValue_calculates sound found intrinsic stores
          (arguments_compute sound args typedArgs (Expr.valued_of_stores stores) calculates)
      | false =>
        intro s poised
        exact Results.ofEnds (userCall_refused (E := fun _ => True) found intrinsic trivial poised)

/-- Arguments compute what they mean. -/
theorem arguments_compute (sound : d.Sound) : (es : List Expr) → (∀ e ∈ es, e.Typed d f) → (∀ e ∈ es, e.ty ≠ .void) →
    Expr.allCalculate es = true → CalculatesAll d f (arguments es) es
  | [], _, _, _ => by
    rw [arguments_nil]
    exact calculatesAll_nil
  | e :: es, typed, valued, calculates => by
    simp only [Expr.allCalculate, Bool.and_eq_true] at calculates
    rw [arguments_cons]
    exact calculatesAll_cons (expression_computes sound e (typed e List.mem_cons_self) calculates.1)
      (arguments_compute sound es (fun a h => typed a (List.mem_cons_of_mem _ h))
        (fun a h => valued a (List.mem_cons_of_mem _ h)) calculates.2) (valued e List.mem_cons_self)

end

end Shading.Lower
