import Shading.Proofs.Lowering.LiteralReads

/-!
# Where float literals are read

Typed expressions and statements are lowered to code that reads their literals,
each once for each operation whose operand it is, and in that order
(`Lower.statements_reading`).
-/

namespace Shading.Lower

variable {P : ConstantPool} {w w' : List Word} {s t u : LoweringState} {α β : Type}
  {D d : Declarations} {f : Option FunctionId}

/-- **A literal** is found where its bits are from now on. -/
theorem literal_evaluating (v : Literal) (ty : Ty) (p : Position) : Evaluating D P (.literal v ty p) (literal v) := by
  have quiet := closed_readsFloats P
  cases v with
  | float bits =>
    intro s _ v t run
    rw [literal_ofFloat] at run
    obtain ⟨l, t', pooled, run⟩ := bind_eq_ok.1 run
    obtain ⟨rfl, rfl⟩ := pure_eq_ok.1 run
    refine ⟨quiet.follows.constant bits _ _ _ pooled, fun within => ?_⟩
    obtain ⟨offset, rfl, -, ⟨known, rfl⟩ | ⟨absent, layout, rfl⟩⟩ := constant_eq_ok pooled
    · exact ⟨[offset], .cons (within _ _ known) .nil, .inr ⟨offset, rfl, rfl, rfl⟩⟩
    · exact ⟨[offset], .cons (within _ _ (ConstantPool.offset?_add_self s.constants (.float bits) offset)) .nil, .inr ⟨offset, rfl, rfl, rfl⟩⟩
  | int value => exact fun s _ => (quiet.follows.literal (.int value) s).mono fun v t h => ⟨h, holds_of_not_literal rfl v t⟩
  | bool value => exact fun s _ => (quiet.follows.literal (.bool value) s).mono fun v t h => ⟨h, holds_of_not_literal rfl v t⟩

/-- What is no literal is not to be read. -/
theorem Reading.evaluating {e : Expr} {x : Lower Value} (hx : Reading D P e.readFloats x) (other : e.operandFloats = []) :
    Evaluating D P e x := fun s here => (hx s here).mono fun v t h => ⟨h, holds_of_not_literal other v t⟩

theorem binaryValue_reading {l r : Expr} {lhs rhs : Lower Value} (op : BinaryOp) (ty : Ty) (hl : Evaluating D P l lhs)
    (hr : Evaluating D P r rhs) : Reading D P (l.readFloats ++ (r.readFloats ++ (l.operandFloats ++ r.operandFloats)))
      (binaryValue op ty lhs rhs) := by
  have quiet := closed_readsFloats P
  refine .before (quiet.place ty) fun out => .behind (.inScope ?_) fun _ => quiet.pure _
  refine hl.both hr fun v v' s held held' => ?_
  exact Results.readsThen (held.readBoth held' (quiet.binary op out ty v v') fun _ _ => binary_reads op ty) fun _ =>
    quiet.step (quiet.finish v') fun _ => quiet.finish v

theorem unaryValue_reading {e : Expr} {operand : Lower Value} {compute : Location → Value → Lower Unit} (ty : Ty)
    (quietly : ∀ out v, Respects (ReadsFloats P []) (compute out v))
    (reads : ∀ out v os, v.Offers os → Respects (Reads os) (compute out v)) (he : Evaluating D P e operand) :
    Reading D P (e.readFloats ++ e.operandFloats) (unaryValue compute ty operand) := by
  have quiet := closed_readsFloats P
  refine .before (quiet.place ty) fun out => .behind (.inScope ?_) fun _ => quiet.pure _
  exact he.andThen fun v s _ held => Results.readsThen (held.read (quietly out v) (reads out v)) fun _ => quiet.finish v

/-- A float literal is stored as a number. -/
theorem number_of_stores {e : Expr} {ty : Ty} (typed : e.Typed d f) (stores : ty.Stores e.ty) (some : e.operandFloats ≠ []) :
    ty.isMatrix = false ∧ ty.size ≠ 0 := by
  cases typed with
  | literal v =>
    cases v with
    | float bits =>
      have stores : ty.Stores .float := stores
      cases stores with
      | same => exact ⟨rfl, by decide⟩
      | converted into => cases ty <;> cases into <;> exact ⟨rfl, by decide⟩
    | _ => exact absurd rfl some
  | _ => exact absurd rfl some

/-- **The variables that a function sees are at home** in the tables `D`, and no
float of a pool is in a home. -/
structure Housed (P : ConstantPool) (d D : Declarations) (f : Option FunctionId) : Prop where
  symbols : ∀ id v, d.symbols.get? id = some v → ∃ l, D.symbols.get? id = some { v with location := l }
  apart : ∀ x n bits, InHome D f x n → n ≠ 0 → (.float bits, x) ∉ P.slots

/-- **A value is stored in a home**, where no literal is. -/
theorem store_reading {e : Expr} {dest : Location} {ty : Ty} {v : Value} (housed : Housed P d D f) (typed : e.Typed d f)
    (stores : ty.Stores e.ty) (home : ∀ x, dest = .globalMemory x → InHome D f x ty.size) (held : Holds P e v s) :
    Results (store dest ty v) s fun _ t => ReadsFloats P e.operandFloats s t := by
  refine .of_reads ((closed_readsFloats P).store dest ty v) fun within => ?_
  obtain ⟨os, places, offers⟩ := held within
  refine ⟨os, places, store_reads offers (fun some same => ?_) fun some => ?_⟩
  · rcases offers with none | ⟨offset, rfl, place, -⟩
    · exact some none
    · cases places' : e.operandFloats with
      | nil => rw [places'] at places; cases places
      | cons bits rest =>
        rw [places'] at places
        cases places with
        | cons pooled =>
          have number := number_of_stores typed stores (by rw [places']; nofun)
          exact housed.apart offset ty.size bits (home offset (same.trans place)) number.2 pooled
  · exact (number_of_stores typed stores fun none => some (by rw [none] at places; cases places; rfl)).1

/-- **A value is assigned to a target**, or combined with what the target
holds. -/
theorem assignValue_reading {op : Option BinaryOp} {target value : Expr} {found evaluated : Lower Value} (housed : Housed P d D f)
    (typed : value.Typed d f) (takes : target.ty.Takes op value.ty) (ht : Evaluating D P target found)
    (home : ∀ s, s.declarations = D → Results found s fun v _ => AtHome D f target.ty v)
    (hv : Evaluating D P value evaluated) :
    Reading D P (target.readFloats ++ (value.readFloats ++ value.operandFloats))
      (assignValue op target.ty value.ty found evaluated) := by
  have quiet := closed_readsFloats P
  intro s here
  refine ((ht s here).and (home s here)).bind fun dest t h => ?_
  obtain ⟨⟨led, -⟩, home⟩ := h
  refine Results.mono (Reading.behind (.inScope (hv.andThen fun source s' _ held => ?_)) (fun _ => ?_) t
    (led.declarations.trans here)) fun _ _ later => led.chain later
  · cases takes with
    | plain stores =>
      exact Results.readsThen (store_reading housed typed stores (fun x at_ => (home x at_).2) held) fun _ => quiet.finish source
    | combined yields stores =>
      refine (quiet.materialize { location := dest.location, ty := dest.ty } s').bind fun current u h => ?_
      refine (quiet.place _ u).bind fun result u' h' => ?_
      have earlier := quiet.trans h h'
      refine Results.mono ?_ fun _ _ later => earlier.chain (w := []) later
      refine Results.readsThen ((held.later earlier).read (quiet.binary _ result _ current source) fun os offers => ?_) fun _ =>
        quiet.step (quiet.store _ _ _) fun _ => quiet.finish source
      exact binary_reads (w := []) _ _ (.inl rfl) offers
  · cases dest.writeBack with
    | some back => exact quiet.step (quiet.transfer _ _ _) fun _ => quiet.pure _
    | none => exact quiet.step (quiet.pure ()) fun _ => quiet.pure _

/-- The index of an element is read where its address is computed. -/
theorem indexMemory_reading {index : Expr} {computed : Lower Value} (container : Value) (stride : Nat) (element : Ty)
    (hi : Evaluating D P index computed) :
    Reading D P (index.readFloats ++ index.operandFloats) (indexMemory container stride element computed) := by
  refine hi.andThen fun i s _ held => ?_
  have quiet := closed_readsFloats P
  refine (quiet.acquire .general [i.location, container.location] s).and (acquire_register _ _ s) |>.bind fun address t h => ?_
  refine Results.mono ?_ fun _ _ later => h.1.chain (w := []) later
  refine Results.readsThen ((held.later h.1).read (quiet.transfer .dword address.location i.location) fun os offers =>
    load_reads .dword offers.location h.2) fun _ => ?_
  refine quiet.step (quiet.emit _ _ [] rfl) fun _ => quiet.step (quiet.emit _ _ _ rfl) fun _ => ?_
  have rest : Respects (ReadsFloats P []) (do
      finish i
      finish container
      return { location := .indirectRegister address.id, ty := element, lease := some address } : Lower Value) :=
    quiet.step (quiet.finish _) fun _ => quiet.step (quiet.finish _) fun _ => quiet.pure _
  split
  · exact quiet.step (quiet.emit _ _ [] rfl) fun _ => rest
  · exact quiet.step (quiet.acquire _ _) fun _ => quiet.step (quiet.emit _ _ [] rfl) fun _ =>
      quiet.step (quiet.emit _ _ [] rfl) fun _ => quiet.step (quiet.release _) fun _ => rest

/-- An index that names an element is no float. -/
theorem readFloats_of_literalIndex {container : Ty} {index : Expr} (named : literalIndex? container index ≠ none) :
    index.readFloats ++ index.operandFloats = [] := by
  unfold literalIndex? at named
  split at named
  · rfl
  · exact absurd rfl named

theorem subscriptValue_reading {index : Expr} {computed : Lower Value} (b : Bool) (container : Value)
    (hi : Evaluating D P index computed) :
    Reading D P (index.readFloats ++ index.operandFloats) (subscriptValue b container index computed) := by
  have quiet := closed_readsFloats P
  unfold subscriptValue
  split
  · exact .fail _
  · dsimp only
    cases literal : literalIndex? container.ty index with
    | some k =>
      rw [readFloats_of_literalIndex (by rw [literal]; nofun)]
      refine .of_quiet ?_
      split
      · exact quiet.pure _
      · contradiction
      · exact quiet.pure _
      · exact quiet.pure _
      · exact quiet.optional (quiet.emitUnary _ _ rfl) (quiet.pure _)
      · contradiction
      · contradiction
      · contradiction
      · exact Plain.fail _
    | none =>
      split
      · contradiction
      · exact .before (quiet.placeInMemory _) fun _ => .before (quiet.transfer _ _ _) fun _ =>
          .behind (indexMemory_reading _ _ _ hi) fun _ => Plain.ite (quiet.pure _) (quiet.pure _)
      · contradiction
      · contradiction
      · contradiction
      · exact indexMemory_reading _ _ _ hi
      · exact indexMemory_reading _ _ _ hi
      · exact indexMemory_reading _ _ _ hi
      · exact .fail _

/-- **The lowering of arguments** leaves what there is to read of their values to
the call. -/
def EvaluatingAll (D : Declarations) (P : ConstantPool) (es : List Expr) (x : Lower (List Value)) : Prop :=
  ∀ s, s.declarations = D → Results x s fun vs t => ReadsFloats P (Expr.allReadFloats es) s t ∧
    (Within P t → ∃ oss, PlacesIn P (es.flatMap Expr.operandFloats) oss.flatten ∧ List.Forall₂ Value.Offers vs oss)

theorem callValue_reading {es : List Expr} {args : Lower (List Value)} (id : FunctionId) (callee : String) (ty : Ty)
    (ha : EvaluatingAll D P es args) : Reading D P
      (Expr.allReadFloats es ++ if callee = "nop" then [] else es.flatMap Expr.operandFloats) (callValue id callee ty args) := by
  have quiet := closed_readsFloats P
  have called (out : Location) : Reading D P (Expr.allReadFloats es ++ if callee = "nop" then [] else es.flatMap Expr.operandFloats) (do
      inScope do
        let values ← args
        intrinsic callee out values
        values.reverse.forM finish
      return { location := out, ty } : Lower Value) := by
    refine .behind (.inScope fun s here => ?_) fun _ => quiet.pure _
    refine (ha s here).bind fun vs t h => Results.mono ?_ fun _ _ later => h.1.chain later
    refine Results.readsThen ?_ fun _ => quiet.forM quiet.finish _
    split
    · exact quiet.intrinsic callee out vs t
    · next solid =>
      refine .of_reads (quiet.intrinsic callee out vs) fun within => ?_
      obtain ⟨oss, places, offers⟩ := h.2 within
      exact ⟨oss.flatten, places, intrinsic_reads offers solid⟩
  unfold callValue
  refine .before quiet.get fun s => ?_
  revert called
  generalize (Expr.allReadFloats es ++ if callee = "nop" then [] else es.flatMap Expr.operandFloats) = w
  intro called
  split
  · dsimp only
    split
    · exact .before (quiet.pure _) called
    · exact .before (quiet.place _) called
  · exact .fail _

mutual

/-- **A typed expression is lowered to code that reads its literals.** -/
theorem expression_evaluating (housed : Housed P d D f) (b : Bool) : (e : Expr) → e.Typed d f → Evaluating D P e (expression b e)
  | .literal v ty p, _ => by
    rw [expression_literal]
    exact literal_evaluating v ty p
  | .name id _ _, _ => by
    rw [expression_name]
    exact Reading.evaluating (.of_quiet ((closed_readsFloats P).follows.variableValue id)) rfl
  | .binary op l r ty _, typed => by
    cases typed with
    | binary _ typedL typedR _ =>
      rw [expression_binary]
      exact Reading.evaluating (binaryValue_reading op ty (expression_evaluating housed false l typedL)
        (expression_evaluating housed false r typedR)) rfl
  | .assign op target value _ _, typed => by
    cases typed with
    | assign _ typedT typedV changeable takes =>
      rw [expression_assign]
      refine Reading.evaluating (.behind (assignValue_reading housed typedV takes (expression_evaluating housed true target typedT)
        ?_ (expression_evaluating housed false value typedV)) fun v => (closed_readsFloats P).materialize v) rfl
      exact expression_home housed.symbols true target typedT (Expr.isLiteral_of_changeable changeable)
  | .relational _ _ _ _ _, _ => by
    rintro s - _ _ ⟨⟩
  | .negate operand ty _, typed => by
    cases typed with
    | negate _ typed _ =>
      rw [expression_negate]
      exact Reading.evaluating (unaryValue_reading _ (closed_readsFloats P).negate (fun _ _ _ => negate_reads)
        (expression_evaluating housed false operand typed)) rfl
  | .not operand ty _, typed => by
    cases typed with
    | not _ typed _ =>
      rw [expression_not]
      exact Reading.evaluating (unaryValue_reading _ (closed_readsFloats P).invert (fun _ _ _ => invert_reads)
        (expression_evaluating housed false operand typed)) rfl
  | .subscript base index _ _, typed => by
    have quiet := closed_readsFloats P
    cases typed with
    | subscript _ typedB typedI _ _ =>
      rw [expression_subscript]
      refine Reading.evaluating (fun s here => ?_) rfl
      refine (expression_evaluating housed b base typedB s here).bind fun container t h => ?_
      refine Results.mono (Reading.behind (subscriptValue_reading b container (expression_evaluating housed false index typedI))
        (fun element => ?_) t (h.1.declarations.trans here)) fun _ _ later => h.1.chain later
      exact Plain.ite (quiet.pure _) (quiet.materialize _)
  | .call id callee args ty _, typed => by
    cases typed with
    | call _ _ typed _ =>
      rw [expression_call]
      exact Reading.evaluating (callValue_reading id _ _ (arguments_evaluating housed args typed)) rfl

theorem arguments_evaluating (housed : Housed P d D f) : (es : List Expr) → (∀ e ∈ es, e.Typed d f) →
    EvaluatingAll D P es (arguments es)
  | [], _ => by
    intro s _
    rw [arguments_nil]
    exact .pure ⟨(closed_readsFloats P).refl s, fun _ => ⟨[], .nil, .nil⟩⟩
  | e :: es, typed => by
    intro s here
    rw [arguments_cons]
    refine (expression_evaluating housed false e (typed e List.mem_cons_self) s here).bind fun v t h => ?_
    refine (arguments_evaluating housed es (fun e he => typed e (List.mem_cons_of_mem _ he)) t
      (h.1.declarations.trans here)).bind fun vs u h' => .pure ⟨h.1.chain h'.1, fun within => ?_⟩
    obtain ⟨os, places, offers⟩ := h.2 (h'.1.within within)
    obtain ⟨oss, places', offers'⟩ := h'.2 within
    exact ⟨os :: oss, List.rel_append places places', .cons offers offers'⟩

end

/-! ## Statements -/

theorem condition_reading (housed : Housed P d D f) {e : Expr} (typed : e.Typed d f) :
    Reading D P (e.readFloats ++ e.operandFloats) (condition e) := by
  have quiet := closed_readsFloats P
  rw [condition_eq]
  refine .inScope (.behind ?_ fun _ => quiet.emitJump _)
  rw [conditionJump_def]
  split
  · next op l r ty p =>
    cases typed with
    | relational _ typedL typedR _ =>
      rw [show (Expr.relational op l r .bool p).operandFloats = [] from rfl, List.append_nil]
      refine Evaluating.both (expression_evaluating housed false l typedL) (expression_evaluating housed false r typedR)
        fun v v' s held held' => ?_
      exact Results.readsThen (held.readBoth held' (quiet.compare op v v') fun _ _ => compare_reads op) fun _ =>
        quiet.step (quiet.finish v') fun _ => quiet.step (quiet.finish v) fun _ => quiet.pure _
  · refine Evaluating.andThen (expression_evaluating housed false _ typed) fun v s _ held => ?_
    exact Results.readsThen (held.read (quiet.emitUnary v.location [0] rfl) fun os offers =>
      emitUnary_reads rfl offers.location [0]) fun _ => quiet.step (quiet.finish v) fun _ => quiet.pure _

theorem effect_reading (housed : Housed P d D f) {e : Expr} (typed : e.Typed d f) : Reading D P e.readFloats (effect e) := by
  rw [effect_eq]
  exact .inScope (List.append_nil e.readFloats ▸ Evaluating.andThen (expression_evaluating housed false e typed)
    fun v s _ _ => (closed_readsFloats P).finish v s)

/-- **The first value of a local** is stored in its home. -/
theorem initialise_reading {g : FunctionId} (housed : Housed P d D g) {symbol : SymbolId} {e : Expr} (typed : e.Typed d g)
    (own : d.IsVariableOf g symbol) (stores : (d.symbolTy symbol).Stores e.ty) :
    Reading D P (e.readFloats ++ e.operandFloats) (initialise symbol e) := by
  intro s here
  obtain ⟨v, found, kind, scope, owner, -⟩ := own
  obtain ⟨l, known⟩ := housed.symbols symbol v found
  rw [Declarations.symbolTy_of_get? found] at stores
  rw [initialise_eq]
  refine .bindGet ?_
  rw [here, known]
  refine Reading.inScope (Evaluating.andThen (expression_evaluating housed false e typed) fun value s' _ held => ?_) s here
  refine Results.readsThen (store_reading housed typed stores (fun x at_ => ?_) held) fun _ => (closed_readsFloats P).finish value
  exact ⟨symbol, _, x, known, kind, .inr ⟨scope, owner, rfl⟩, at_, Nat.le_refl _, Nat.le_refl _⟩

mutual

/-- **A typed statement is lowered to code that reads its literals.** -/
theorem statement_reading {g : FunctionId} (housed : Housed P d D g) :
    (st : Statement) → st.Typed d g → Reading D P st.readFloats (statement st)
  | .localVariable _ none, _ => by
    unfold statement
    exact .of_quiet ((closed_readsFloats P).pure ())
  | .localVariable symbol (some e), typed => by
    simp only [Statement.Typed] at typed
    unfold statement
    exact initialise_reading housed typed.2.1 typed.1 typed.2.2
  | .expression e, typed => by
    simp only [Statement.Typed] at typed
    unfold statement
    exact effect_reading housed typed
  | .branch c, typed => by
    simp only [Statement.Typed] at typed
    unfold statement
    exact choice_reading housed c typed
  | .whileLoop _ _, _ => by
    unfold statement
    exact .fail _
  | .forLoop _ _ _ _, _ => by
    unfold statement
    exact .fail _
  | .ret none, _ => by
    unfold statement
    exact .of_quiet (closed_readsFloats P).emitReturn
  | .ret (some e), typed => by
    simp only [Statement.Typed] at typed
    unfold statement
    exact .behind (effect_reading housed typed.1) fun _ => (closed_readsFloats P).emitReturn

theorem choice_reading {g : FunctionId} (housed : Housed P d D g) :
    (c : IfStatement) → c.Typed d g → Reading D P c.readFloats (choice c)
  | .mk c body otherwise, typed => by
    simp only [IfStatement.Typed] at typed
    unfold choice
    exact (condition_reading housed typed.1).seq fun skip => (statements_reading housed body typed.2.2.1).seq fun _ =>
      branchOtherwise_reading housed skip otherwise typed.2.2.2

theorem branchOtherwise_reading {g : FunctionId} (housed : Housed P d D g) (skip : Nat) :
    (b : ElseBranch) → b.Typed d g → Reading D P b.readFloats (branchOtherwise skip b)
  | .none, _ => by
    unfold branchOtherwise
    exact .of_quiet ((closed_readsFloats P).bindLabel skip)
  | .chain c, typed => by
    have quiet := closed_readsFloats P
    simp only [ElseBranch.Typed] at typed
    unfold branchOtherwise
    exact .before (quiet.emitJump _) fun stop => .before (quiet.bindLabel skip) fun _ =>
      .behind (choice_reading housed c typed) fun _ => quiet.bindLabel stop
  | .block body, typed => by
    have quiet := closed_readsFloats P
    simp only [ElseBranch.Typed] at typed
    unfold branchOtherwise
    exact .before (quiet.emitJump _) fun stop => .before (quiet.bindLabel skip) fun _ =>
      .behind (statements_reading housed body typed) fun _ => quiet.bindLabel stop

/-- **Typed statements are lowered to code that reads their literals.** -/
theorem statements_reading {g : FunctionId} (housed : Housed P d D g) :
    (ss : List Statement) → Statement.AllTyped d g ss → Reading D P (Statement.allReadFloats ss) (statements ss)
  | [], _ => by
    unfold statements
    exact .of_quiet ((closed_readsFloats P).pure ())
  | st :: ss, typed => by
    simp only [Statement.AllTyped] at typed
    unfold statements
    exact (statement_reading housed st typed.1).seq fun _ => statements_reading housed ss typed.2

end

end Shading.Lower
