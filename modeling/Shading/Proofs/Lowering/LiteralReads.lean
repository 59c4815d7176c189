import Mathlib.Data.List.Forall2
import Shading.Proofs.Discipline.Expression
import Shading.Proofs.Lowering.Reading

/-!
# Reading literals from a pool

A float literal is not computed: its value is the place of its bits among the
constants. It is read by the operation whose operand it is. `Expr.readFloats`
lists the literals that the operations of an expression read, in the order in
which they do. A literal that no operation takes is not read: one that is a
statement of its own, is returned, or is the argument of `nop`.

`Lower.ReadsFloats` says that the code written from one state to another reads
some literals, each at the place of its bits in a pool. Only where a literal is
assigned could it be in its place already, so that nothing is read: but a target
is in the home of a variable (`Lower.expression_home`), and homes are apart from
constants.
-/

namespace Shading

/-! ## Literals that are read -/

namespace Expr

/-- **The float that an operand is**, if it is a literal. -/
def operandFloats : Expr → List Word
  | literal v _ _ => v.floats
  | _ => []

mutual

/-- **The float literals that the operations of an expression read**, in the
order in which they do: an operation reads its own when its operands have been
lowered. -/
def readFloats : Expr → List Word
  | literal _ _ _ | name _ _ _ => []
  | binary _ lhs rhs _ _ | relational _ lhs rhs _ _ =>
    lhs.readFloats ++ (rhs.readFloats ++ (lhs.operandFloats ++ rhs.operandFloats))
  | assign _ target value _ _ => target.readFloats ++ (value.readFloats ++ value.operandFloats)
  | negate operand _ _ | not operand _ _ => operand.readFloats ++ operand.operandFloats
  | subscript base index _ _ => base.readFloats ++ (index.readFloats ++ index.operandFloats)
  | call _ callee args _ _ => allReadFloats args ++ if callee = "nop" then [] else args.flatMap operandFloats

/-- The float literals that the operations of some expressions read. -/
def allReadFloats : List Expr → List Word
  | [] => []
  | e :: es => e.readFloats ++ allReadFloats es

end

end Expr

mutual

/-- **The float literals that a statement reads**, in order. -/
def Statement.readFloats : Statement → List Word
  | .localVariable _ (some e) => e.readFloats ++ e.operandFloats
  | .expression e | .ret (some e) => e.readFloats
  | .branch c => c.readFloats
  | .localVariable _ none | .ret none | .whileLoop _ _ | .forLoop _ _ _ _ => []

/-- The float literals that a choice reads. -/
def IfStatement.readFloats : IfStatement → List Word
  | .mk c body otherwise =>
    (c.readFloats ++ c.operandFloats) ++ (Statement.allReadFloats body ++ otherwise.readFloats)

/-- The float literals that are read by what a choice does otherwise. -/
def ElseBranch.readFloats : ElseBranch → List Word
  | .none => []
  | .chain c => c.readFloats
  | .block body => Statement.allReadFloats body

/-- The float literals that some statements read. -/
def Statement.allReadFloats : List Statement → List Word
  | [] => []
  | s :: ss => s.readFloats ++ Statement.allReadFloats ss

end

namespace Lower

variable {P : ConstantPool} {w w' : List Word} {s t u : LoweringState} {α β : Type}

/-! ## Reading from a pool -/

/-- Some places are those of some bits in a pool. -/
abbrev PlacesIn (P : ConstantPool) : List Word → List Nat → Prop :=
  List.Forall₂ fun bits offset => (.float bits, offset) ∈ P.slots

/-- A pool has what is found in a state. -/
def Within (P : ConstantPool) (s : LoweringState) : Prop := ∀ c offset, s.constants.offset? c = some offset → (c, offset) ∈ P.slots

/-- **The code from one state to another reads some literals**, each at the place
of its bits in a pool that has what is found in the end. -/
structure ReadsFloats (P : ConstantPool) (w : List Word) (s t : LoweringState) : Prop where
  declarations : t.declarations = s.declarations
  within : Within P t → Within P s
  reads : Within P t → ∃ os, PlacesIn P w os ∧ Reads os s t

theorem ReadsFloats.chain (h : ReadsFloats P w s t) (h' : ReadsFloats P w' t u) : ReadsFloats P (w ++ w') s u where
  declarations := h'.declarations.trans h.declarations
  within := h.within ∘ h'.within
  reads within := by
    obtain ⟨os, places, reads⟩ := h.reads (h'.within within)
    obtain ⟨os', places', reads'⟩ := h'.reads within
    exact ⟨os ++ os', List.rel_append places places', reads.chain reads'⟩

/-- Steps that read no literal. -/
theorem closed_readsFloats (P : ConstantPool) : Closed (ReadsFloats P []) :=
  .ofSteps
    { refl := fun s => ⟨rfl, id, fun _ => ⟨[], .nil, closed_reads.refl s⟩⟩
      trans := ReadsFloats.chain
      storage := fun assembly constants declarations =>
        ⟨declarations, fun within c offset found => within c offset (constants ▸ found),
          fun _ => ⟨[], .nil, closed_reads.storage assembly constants declarations⟩⟩
      entry := fun s _ labels plain => ⟨rfl, id, fun _ => ⟨[], .nil, closed_reads.entry s labels plain⟩⟩
      bind := fun s _ _ run => ⟨rfl, id, fun _ => ⟨[], .nil, closed_reads.bind s run⟩⟩ }
    (fun s c offset absent =>
      ⟨rfl, fun within _ _ found => within _ _ (ConstantPool.offset?_add found absent),
        fun _ => ⟨[], .nil, [], by simp, List.nil_sublist _⟩⟩)
    fun s i text reads masks => ⟨rfl, id, fun _ => ⟨[], .nil, closed_reads.mask s text reads masks⟩⟩

/-- **What there is to read of the value of an expression**: a literal is at the
place of its bits. -/
def Holds (P : ConstantPool) (e : Expr) (v : Value) (s : LoweringState) : Prop :=
  Within P s → ∃ os, PlacesIn P e.operandFloats os ∧ v.Offers os

/-- It stays there. -/
theorem Holds.later {e : Expr} {v : Value} (h : Holds P e v s) (later : ReadsFloats P w s t) : Holds P e v t :=
  fun within => h (later.within within)

/-- There is nothing to read of any other value. -/
theorem holds_of_not_literal {e : Expr} (other : e.operandFloats = []) (v : Value) (s : LoweringState) : Holds P e v s :=
  fun _ => ⟨[], other ▸ .nil, .inl rfl⟩

/-- **Operations read what is offered to them.** -/
theorem ReadsFloats.of_reads {x : Lower α} (quiet : Respects (ReadsFloats P []) x)
    (reads : Within P s → ∃ os, PlacesIn P w os ∧ Respects (Reads os) x) : Results x s fun _ t => ReadsFloats P w s t := by
  intro a t run
  obtain ⟨declarations, within, -⟩ := quiet s a t run
  refine ⟨declarations, within, fun later => ?_⟩
  obtain ⟨os, places, reads⟩ := reads (within later)
  exact ⟨os, places, reads s a t run⟩

/-- A value is read where it is the only operand. -/
theorem Holds.read {e : Expr} {v : Value} {x : Lower α} (h : Holds P e v s) (quiet : Respects (ReadsFloats P []) x)
    (reads : ∀ os, v.Offers os → Respects (Reads os) x) : Results x s fun _ t => ReadsFloats P e.operandFloats s t :=
  .of_reads quiet fun within => (h within).imp fun _ h => ⟨h.1, reads _ h.2⟩

/-- Two operands are read, first the left one. -/
theorem Holds.readBoth {e e' : Expr} {v v' : Value} {x : Lower α} (h : Holds P e v s) (h' : Holds P e' v' s)
    (quiet : Respects (ReadsFloats P []) x)
    (reads : ∀ os os', v.Offers os → v'.Offers os' → Respects (Reads (os ++ os')) x) :
    Results x s fun _ t => ReadsFloats P (e.operandFloats ++ e'.operandFloats) s t :=
  .of_reads quiet fun within => by
    obtain ⟨os, places, offers⟩ := h within
    obtain ⟨os', places', offers'⟩ := h' within
    exact ⟨os ++ os', List.rel_append places places', reads os os' offers offers'⟩

/-! ## Sequences -/

/-- **An action reads some literals**, where variables are at home as in some
tables. -/
def Reading (D : Declarations) (P : ConstantPool) (w : List Word) (x : Lower α) : Prop :=
  ∀ s, s.declarations = D → Results x s fun _ t => ReadsFloats P w s t

/-- **The lowering of an expression** reads the literals in it, and what there
is to read of its value is left to the operation around it. -/
def Evaluating (D : Declarations) (P : ConstantPool) (e : Expr) (x : Lower Value) : Prop :=
  ∀ s, s.declarations = D → Results x s fun v t => ReadsFloats P e.readFloats s t ∧ Holds P e v t

variable {D : Declarations}

theorem Reading.of_quiet {x : Lower α} (quiet : Respects (ReadsFloats P []) x) : Reading D P [] x := fun s _ => quiet s

theorem Reading.fail (e : Error) : Reading D P w (Lower.fail e : Lower α) := by rintro _ - _ _ ⟨⟩

theorem Reading.seq {x : Lower α} {k : α → Lower β} (hx : Reading D P w x) (hk : ∀ a, Reading D P w' (k a)) :
    Reading D P (w ++ w') (x >>= k) := fun s here =>
  (hx s here).bind fun a t h => (hk a t (h.declarations.trans here)).mono fun _ _ h' => h.chain h'

theorem Reading.before {x : Lower α} {k : α → Lower β} (quiet : Respects (ReadsFloats P []) x) (hk : ∀ a, Reading D P w (k a)) :
    Reading D P w (x >>= k) := (Reading.of_quiet quiet).seq hk

theorem Reading.behind {x : Lower α} {k : α → Lower β} (hx : Reading D P w x) (quiet : ∀ a, Respects (ReadsFloats P []) (k a)) :
    Reading D P w (x >>= k) := List.append_nil w ▸ hx.seq fun a => .of_quiet (quiet a)

theorem Reading.inScope {x : Lower α} (hx : Reading D P w x) : Reading D P w (Lower.inScope x) :=
  .before (closed_readsFloats P).enterScope fun _ => hx.behind fun _ =>
    (closed_readsFloats P).step ((closed_readsFloats P).leaveScope _) fun _ => (closed_readsFloats P).pure _

/-- An action on the value of an expression. -/
theorem Evaluating.andThen {e : Expr} {x : Lower Value} {k : Value → Lower α} (hx : Evaluating D P e x)
    (hk : ∀ v s, s.declarations = D → Holds P e v s → Results (k v) s fun _ t => ReadsFloats P w s t) :
    Reading D P (e.readFloats ++ w) (x >>= k) := fun s here =>
  (hx s here).bind fun v t h => (hk v t (h.1.declarations.trans here) h.2).mono fun _ _ h' => h.1.chain h'

/-- **An operation on the values of two expressions**, which reads them. -/
theorem Evaluating.both {l r : Expr} {x y : Lower Value} {k : Value → Value → Lower α} (hx : Evaluating D P l x)
    (hy : Evaluating D P r y) (hk : ∀ v v' s, Holds P l v s → Holds P r v' s →
      Results (k v v') s fun _ t => ReadsFloats P (l.operandFloats ++ r.operandFloats) s t) :
    Reading D P (l.readFloats ++ (r.readFloats ++ (l.operandFloats ++ r.operandFloats))) (do
      let v ← x
      let v' ← y
      k v v') :=
  hx.andThen fun v s here held => (hy s here).bind fun v' t h =>
    (hk v v' t (held.later h.1) h.2).mono fun _ _ h' => h.1.chain h'

/-- Behind an operation there are only steps that read no literal. -/
theorem Results.readsThen {x : Lower α} {k : α → Lower β} (hx : Results x s fun _ t => ReadsFloats P w s t)
    (quiet : ∀ a, Respects (ReadsFloats P []) (k a)) : Results (x >>= k) s fun _ t => ReadsFloats P w s t :=
  hx.bind fun a t h => (quiet a t).mono fun _ _ h' => List.append_nil w ▸ h.chain h'

/-! ## Homes -/

/-- **Some bytes in global memory are in the home of a variable** that a function
sees. -/
def InHome (D : Declarations) (f : Option FunctionId) (x n : Nat) : Prop :=
  ∃ id v o, D.symbols.get? id = some v ∧ v.kind = .variable ∧ v.VisibleIn f ∧ v.location = .globalMemory o ∧
    o ≤ x ∧ x + n ≤ o + v.ty.size

/-- A value of a type that is in global memory is in the home of a variable. -/
def AtHome (D : Declarations) (f : Option FunctionId) (ty : Ty) (v : Value) : Prop :=
  ∀ x, v.location = .globalMemory x → v.ty = ty ∧ InHome D f x ty.size

variable {d : Declarations} {f : Option FunctionId}

/-- What comes first does not matter. -/
theorem Results.last {x : Lower α} {k : α → Lower β} {Q : β → LoweringState → Prop} (hk : ∀ a t, Results (k a) t Q) :
    Results (x >>= k) s Q := .bind (Q := fun _ _ => True) (fun _ _ _ => trivial) fun a t _ => hk a t

theorem atHome_of_ne {ty : Ty} {v : Value} (ne : ∀ x, v.location ≠ .globalMemory x) : AtHome D f ty v :=
  fun x here => absurd here (ne x)

/-- A temporary is not in global memory. -/
theorem Layout.ne_global_of_place {l l' : Layout} {ty : Ty} {out : Location} (placed : l.place ty .local = .ok (out, l'))
    (x : Nat) : out ≠ .globalMemory x := by
  unfold Layout.place at placed
  split at placed
  · cases placed
  split at placed
  · next register =>
    obtain ⟨c, -, taken⟩ := Option.bind_eq_some_iff.1 register
    unfold Layout.takeRegister? at taken
    split at taken
    · cases taken
    · cases taken
      cases placed
      cases c <;> nofun
  · cases placed
    nofun

theorem place_ne_global (ty : Ty) : Results (place ty) s fun out _ => ∀ x, out ≠ .globalMemory x := by
  rw [place_def]
  refine .bindGet ?_
  have rest (id : ScopeId) (placed : Location × List TemporaryScope × Layout) (apart : ∀ x, placed.1 ≠ .globalMemory x) (t : LoweringState) :
      Results (do
        modify fun s => { s with scopes := placed.2.1, layout := placed.2.2 }
        record (.placed id ty placed.1)
        return placed.1 : Lower Location) t fun out _ => ∀ x, out ≠ .globalMemory x :=
    Results.last fun _ _ => Results.last fun _ _ => .pure apart
  have placed {γ : Type} (x : Except Error γ) (P : γ → Prop) (h : ∀ a, x = .ok a → P a) :
      Results (liftM x : Lower γ) s fun a _ => P a := by
    intro a t run
    cases x with
    | error e => cases run
    | ok b =>
      cases run
      exact h _ rfl
  cases s.scopes with
  | nil =>
    refine (placed _ (fun a => ∀ x, a.1 ≠ .globalMemory x) fun a h => Layout.ne_global_of_place h).bind ?_
    rintro ⟨location, layout⟩ t apart
    exact rest _ ⟨location, [], layout⟩ apart t
  | cons scope scopes =>
    refine (placed _ (fun a => ∀ x, a.1 ≠ .globalMemory x) ?_).bind ?_
    · rintro ⟨location, scope, layout⟩ h
      unfold Layout.placeIn at h
      obtain ⟨⟨out, l⟩, here, rest⟩ := except_bind_eq_ok.1 h
      dsimp only at rest
      split at rest <;> cases rest <;> exact Layout.ne_global_of_place here
    · rintro ⟨location, scope, layout⟩ t apart
      exact rest _ ⟨location, scope :: scopes, layout⟩ apart t

theorem materialize_home (v : Value) : Results (materialize v) s fun w _ => w = v ∨ ∀ x, w.location ≠ .globalMemory x := by
  rw [materialize_def]
  split
  · refine (place_ne_global .float).bind fun out t apart => Results.last fun r u => Results.last fun _ u' => ?_
    have rest (u : LoweringState) : Results (do
        emit .andps r.1 (← constant (.vector lane0Mask))
        settle out r.1 r.2 .single
        finish v
        return { location := out, ty := .float } : Lower Value) u fun w _ => w = v ∨ ∀ x, w.location ≠ .globalMemory x :=
      Results.last fun _ _ => Results.last fun _ _ => Results.last fun _ _ => Results.last fun _ _ => .pure (.inr apart)
    split
    · exact Results.last fun _ _ => rest _
    · exact rest _
  · exact .pure (.inl rfl)

/-- What is at an address is at no place that is known. -/
theorem indexMemory_home (container : Value) (stride : Nat) (element : Ty) (index : Lower Value) :
    Results (indexMemory container stride element index) s fun v _ => ∀ x, v.location ≠ .globalMemory x := by
  unfold indexMemory
  refine Results.last fun i t => Results.last fun address t' => Results.last fun _ _ => Results.last fun _ _ =>
    Results.last fun _ _ => ?_
  have rest (u : LoweringState) : Results (do
      finish i
      finish container
      return { location := .indirectRegister address.id, ty := element, lease := some address } : Lower Value) u
        fun v _ => ∀ x, v.location ≠ .globalMemory x :=
    Results.last fun _ _ => Results.last fun _ _ => .pure nofun
  split
  · exact Results.last fun _ _ => rest _
  · exact Results.last fun _ _ => Results.last fun _ _ => Results.last fun _ _ => Results.last fun _ _ => rest _

/-- **An element is in the home that its container is in.** -/
theorem subscriptValue_home (b : Bool) {base index : Expr} {container : Value} {element : Ty} (has : base.ty.element? = some element)
    (home : AtHome D f base.ty container) (computed : Lower Value) :
    Results (subscriptValue b container index computed) s fun v _ => AtHome D f element v := by
  have addressed (container : Value) (stride : Nat) (element' : Ty) {t : LoweringState} :
      Results (indexMemory container stride element' computed) t fun v _ => AtHome D f element v :=
    (indexMemory_home _ _ _ _).mono fun _ _ => atHome_of_ne
  unfold subscriptValue
  split
  · rintro _ _ ⟨⟩
  next element' has' =>
  dsimp only
  split
  · exact .pure (atHome_of_ne (by rintro _ ⟨⟩))
  · refine Results.last fun spill t => Results.last fun _ t' => (indexMemory_home _ _ _ _).bind fun v t'' apart => ?_
    split
    · exact .pure (atHome_of_ne apart)
    · exact .pure (atHome_of_ne apart)
  -- This is the one element that stays in a home: its row has a known offset there. All
  -- others are addressed, or are lanes.
  · next o k place named =>
    refine .pure fun x here => ?_
    obtain ⟨same, id, v, o', known, isVariable, visible, at_, low, high⟩ := home o place
    rw [same, has] at has'
    cases has'
    have here : container.location.offsetBy (k * container.ty.stride) = .globalMemory x := here
    rw [place] at here
    cases here
    have inside := base.ty.elementCount_mul_stride_le_size (by rw [has]; exact Option.some_ne_none _)
    have step : base.ty.stride = element.size := by rw [Ty.stride, has]
    have row : (k + 1) * base.ty.stride ≤ base.ty.elementCount * base.ty.stride :=
      Nat.mul_le_mul_right _ (same ▸ literalIndex?_lt named)
    rw [Nat.succ_mul] at row
    rw [same]
    exact ⟨rfl, id, v, o', known, isVariable, visible, at_, by omega, by omega⟩
  · next place _ =>
    refine .pure (atHome_of_ne ?_)
    rw [place]
    rintro _ ⟨⟩
  · next place _ =>
    have direct : ∀ x, ({ container with ty := element' } : Value).location ≠ .globalMemory x := by
      rw [show ({ container with ty := element' } : Value).location = _ from place]
      rintro _ ⟨⟩
    split
    · exact Results.last fun _ _ => .pure (atHome_of_ne direct)
    · exact .pure (atHome_of_ne direct)
  · exact addressed _ _ _
  · exact addressed _ _ _
  · exact addressed _ _ _
  · rintro _ _ ⟨⟩

variable (houses : ∀ id v, d.symbols.get? id = some v → ∃ l, D.symbols.get? id = some { v with location := l })

include houses

/-- **A value in global memory is a literal or in the home of a variable.** -/
theorem expression_home (b : Bool) : (e : Expr) → e.Typed d f → e.isLiteral = false →
    ∀ s, s.declarations = D → Results (expression b e) s fun v _ => AtHome D f e.ty v
  | .literal _ _ _, _, other => by cases other
  | .name id _ _, typed, _ => by
    rintro s rfl
    cases typed with
    | name _ found visible =>
      obtain ⟨l, known⟩ := houses _ _ found
      rw [expression_name]
      unfold variableValue
      refine .bindGet ?_
      rw [known]
      dsimp only
      split
      · rintro _ _ ⟨⟩
      next ordinary =>
      refine .pure fun x here => ⟨rfl, id, _, x, known, ?_, visible, here, Nat.le_refl _, Nat.le_refl _⟩
      have other := (not_or.1 ordinary).1
      revert other
      generalize Symbol.kind _ = kind
      cases kind
      · exact fun _ => rfl
      · exact fun other => absurd rfl other
  -- A result is in a new place, and new places are never in the global region.
  | .binary op l r ty p, _, _ => by
    intro s _
    rw [expression_binary]
    unfold binaryValue
    exact (place_ne_global ty).bind fun out t apart => Results.last fun _ _ => .pure (atHome_of_ne apart)
  | .assign op target value ty p, typed, _ => by
    intro s here
    cases typed with
    | assign _ typedT typedV changeable takes =>
      rw [expression_assign]
      unfold assignValue
      refine .bind (Q := fun v _ => AtHome D f target.ty v) ?_ fun v t home => ?_
      · refine (expression_home true target typedT (Expr.isLiteral_of_changeable changeable) s here).bind fun dest t home => ?_
        refine Results.last fun _ u => ?_
        cases dest.writeBack with
        | none => exact .pure home
        | some back => exact Results.last fun _ _ => .pure home
      · refine (materialize_home v).mono fun w _ h => ?_
        rcases h with rfl | apart
        · exact home
        · exact atHome_of_ne apart
  | .relational _ _ _ _ _, _, _ => by
    rintro s - _ _ ⟨⟩
  | .negate operand ty p, _, _ => by
    intro s _
    rw [expression_negate]
    unfold unaryValue
    exact (place_ne_global ty).bind fun out t apart => Results.last fun _ _ => .pure (atHome_of_ne apart)
  | .not operand ty p, _, _ => by
    intro s _
    rw [expression_not]
    unfold unaryValue
    exact (place_ne_global ty).bind fun out t apart => Results.last fun _ _ => .pure (atHome_of_ne apart)
  -- An element in the global region is part of a variable, since a container is no
  -- literal.
  | .subscript base index _ p, typed, _ => by
    intro s here
    cases typed with
    | subscript _ typedB typedI element _ =>
      rw [expression_subscript]
      refine (expression_home b base typedB (isLiteral_of_element typedB element) s here).bind fun container t home => ?_
      refine (subscriptValue_home b element home _).bind fun v u home => ?_
      split
      · exact .pure home
      · refine (materialize_home v).mono fun w _ h => ?_
        rcases h with rfl | apart
        · exact home
        · exact atHome_of_ne apart
  | .call id callee args ty p, _, _ => by
    intro s _
    rw [expression_call]
    unfold callValue
    refine .bindGet ?_
    split
    · dsimp only
      split
      · exact Results.bind (Q := fun out _ => ∀ x, out ≠ Location.globalMemory x) (.pure nofun) fun out t apart =>
          Results.last fun _ _ => .pure (atHome_of_ne apart)
      · exact (place_ne_global ty).bind fun out t apart => Results.last fun _ _ => .pure (atHome_of_ne apart)
    · rintro _ _ ⟨⟩

end Lower

end Shading
