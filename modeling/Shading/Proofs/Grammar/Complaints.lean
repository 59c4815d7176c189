import Shading.Proofs.Grammar.Attention
import Shading.Proofs.Token.Excerpt

/-!
# Complaints about statements and declarations

The walk of `Attention` through statements and declarations, up to the whole
parser: a complaint is about a token of the source, and what is missing at the
end would be missing in front of whatever came next.
-/

namespace Shading

namespace Attends

variable {tokens : List Token} {t : Token} {α : Type} {s : ParserState} {Q : α → ParserState → Prop}

/-- A complaint does not depend on what a parser does next. -/
theorem failAt_bind {β : Type} {k k' : β → Parser α} {u : Token} (hu : u ∈ tokens) (cause : Complaint) :
    Attends tokens t (Parser.failAt u.position cause >>= k) (Parser.failAt u.position cause >>= k') s Q :=
  (failAt (Q := fun _ _ => False) hu cause).bind fun _ _ no => no.elim

/-- Looking at the next token, or at the idle one behind the end. -/
theorem look {β : Type} {k k' : Option Token → Parser β} {R : β → ParserState → Prop}
    (next : ∀ o : Option Token, (∀ u, o = some u → u ∈ tokens ∧ ∃ rest, s.rest = u :: rest) →
      Attends tokens t (k o) (k' (o.or (some t))) s R) :
    Attends tokens t (Parser.peek? >>= k) (Parser.peek? >>= k') s R := by
  refine .peek (fun _ => next none ?_) fun u rest here member => next (some u) ?_
  · rintro u ⟨⟩
  · rintro _ ⟨⟩
    exact ⟨member, rest, here⟩

/-- What misses something at the end of the tokens may miss something else
there. -/
theorem misses {p p' : Parser α} {R : α → ParserState → Prop} {c : Complaint} (h : Attends tokens t p p' s R)
    (run : p s = .error (.unexpectedEnd c)) (ends : s.rest = []) (cause : Complaint) :
    Attends tokens t (Parser.failHere cause) p' s Q := by
  intro within
  have h := h within
  rw [run] at h
  have here : (Parser.failHere cause : Parser α) s = .error (.unexpectedEnd cause) := by
    simp only [Parser.failHere, ends]
  rw [here]
  rcases h with ⟨_, cause', _, same⟩ | ⟨u, _, _, no, _⟩
  · exact .inl ⟨cause, cause', rfl, same⟩
  · cases no

end Attends

/-- **What two parsers have in common where the first one fails.** Either it
misses something at the end of the tokens, and the second one complains about
the token there, or it complains about one of `tokens`. -/
def Heeds (tokens : List Token) (t : Token) {α : Type} (p p' : Parser α) (s : ParserState) : Prop :=
  s.rest ⊆ tokens → ∀ e, p s = .error e →
    (∃ cause cause', e = .unexpectedEnd cause ∧
      p' (s.followedBy t) = .error (.ofComplaint s.source t.position cause')) ∨
    ∃ u ∈ tokens, ∃ cause, e = .ofComplaint s.source u.position cause

namespace Heeds

variable {tokens : List Token} {t : Token} {α β : Type} {s : ParserState} {p p' : Parser α}

/-- Where the first parser succeeds nothing is said. -/
theorem pure {a : α} : Heeds tokens t (Pure.pure a) p' s := by
  rintro _ _ ⟨⟩

theorem peek {k k' : Option Token → Parser α} (ends : s.rest = [] → Heeds tokens t (k none) (k' (some t)) s)
    (token : ∀ u rest, s.rest = u :: rest → u ∈ tokens → Heeds tokens t (k (some u)) (k' (some u)) s) :
    Heeds tokens t (Parser.peek? >>= k) (Parser.peek? >>= k') s := by
  obtain ⟨source, rest, d, f⟩ := s
  intro within
  cases rest with
  | nil => exact ends rfl within
  | cons u rest => exact token u rest rfl (within List.mem_cons_self) within

/-- A parser that attends to its tokens, in front of another one. -/
theorem bind {k k' : α → Parser β} {Q : α → ParserState → Prop} (h : Attends tokens t p p' s Q)
    (next : ∀ a s', Q a s' → Heeds tokens t (k a) (k' a) s') : Heeds tokens t (p >>= k) (p' >>= k') s := by
  intro within e run
  have h := h within
  have first : (p >>= k) s = p s >>= fun x => k x.1 x.2 := rfl
  have second : (p' >>= k') (s.followedBy t) = p' (s.followedBy t) >>= fun x => k' x.1 x.2 := rfl
  rw [first] at run
  rw [second]
  cases here : p s with
  | ok x =>
    obtain ⟨a, s'⟩ := x
    simp only [here] at h run
    obtain ⟨same, source, inside, holds⟩ := h
    have after := next a s' holds inside e run
    rw [same]
    rw [source] at after
    exact after
  | error e' =>
    simp only [here] at h run
    obtain rfl : e' = e := Except.error.inj run
    rcases h with ⟨cause, cause', eq, same⟩ | ⟨u, hu, cause, eq, _⟩
    · rw [same]
      exact .inl ⟨cause, cause', eq, rfl⟩
    · exact .inr ⟨u, hu, cause, eq⟩

/-- What is made of the results makes no difference. -/
theorem map (h : Heeds tokens t p p' s) (f : α → β) :
    Heeds tokens t (p >>= fun a => Pure.pure (f a)) (p' >>= fun a => Pure.pure (f a)) s := by
  intro within e run
  have first : (p >>= fun a => Pure.pure (f a)) s = p s >>= fun x => .ok (f x.1, x.2) := rfl
  have second : (p' >>= fun a => Pure.pure (f a)) (s.followedBy t) =
    p' (s.followedBy t) >>= fun x => .ok (f x.1, x.2) := rfl
  rw [first] at run
  rw [second]
  cases here : p s with
  | ok x =>
    rw [here] at run
    cases run
  | error e' =>
    rw [here] at run
    obtain rfl : e' = e := Except.error.inj run
    rcases h within e' here with ⟨cause, cause', eq, same⟩ | other
    · rw [same]
      exact .inl ⟨cause, cause', eq, rfl⟩
    · exact .inr other

end Heeds

namespace Parser

variable {tokens : List Token} {t u : Token} {s : ParserState} {m : Nat}
  {nested nested' : Parser (List Statement)}

/-- An idle token names no type. -/
theorem ty?_of_isIdle (k : TokenKind) (h : k.isIdle = true) : k.ty? = none := by
  cases k <;> first | rfl | cases h

/-- A name is declared, which reads nothing. -/
theorem attends_declare (hu : u ∈ tokens) (scope : SymbolScope) (kind : SymbolKind) (ty : Ty) :
    Attends tokens t (declare u scope kind ty) (declare u scope kind ty) s (Leaves 0 s) := by
  unfold declare
  extract_lets add
  have adding (owner : Option FunctionId) : Attends tokens t (add owner) (add owner) s (Leaves 0 s) := by
    refine .declarations ?_
    dsimp only
    split
    · split
      · exact .failAt hu _
      · exact .failAt hu _
    · split
      · exact .failAt hu _
      · exact .change rfl rfl rfl (.pure (Nat.le_refl _))
  cases scope with
  | global => exact adding none
  | «local» => exact .currentFunction (adding _)

section Statements

variable (idle : t.kind.isIdle = true)
include idle

theorem attends_typedName :
    Attends tokens t typedName typedName s fun x s' => x.2 ∈ tokens ∧ s'.rest.length + 2 = s.rest.length := by
  refine .peek (fun ends => ?_) fun v rest here member => ?_
  · rw [Option.bind_none, Option.bind_some, ty?_of_isIdle _ idle]
    exact .failHere _
  · rw [Option.bind_some]
    cases v.kind.ty? with
    | none => exact .failHere _
    | some ty =>
      refine .skip here fun s₁ less => attends_expect idle rfl _ fun name member s₂ less' => ?_
      exact .pure ⟨member, by omega⟩

theorem attends_boolExpression : Attends tokens t boolExpression boolExpression s (Leaves 1 s) := by
  refine .peek (fun ends => ?_) fun v rest here member => ?_
  · -- An expression is at least one token.
    refine (attends_expression idle s).bind fun e s' le => ?_
    rw [Leaves, ends] at le
    cases le
  · refine (attends_expression idle s).bind fun e s' le => ?_
    split
    · exact .pure le
    · exact .failAt member _

theorem attends_condition : Attends tokens t condition condition s (Leaves 1 s) := by
  refine attends_expect idle rfl _ fun _ _ s₁ less => ?_
  refine (attends_boolExpression idle).bind fun e s₂ le => ?_
  exact attends_expect idle rfl _ fun _ _ s₃ less' => .pure (by omega)

theorem attends_expressionStatement :
    Attends tokens t expressionStatement expressionStatement s (Leaves 1 s) := by
  refine (attends_expression idle s).bind fun e s₁ le => ?_
  exact attends_expect idle rfl _ fun _ _ s₂ less => .pure (by omega)

theorem attends_localVariable : Attends tokens t localVariable localVariable s (Leaves 1 s) := by
  refine (attends_typedName idle).bind ?_
  rintro ⟨ty, name⟩ s₁ ⟨member, less⟩
  dsimp only at member less
  by_cases empty : ty = .void
  · change Attends tokens t (if ty = .void then _ else _) (if ty = .void then _ else _) s₁ _
    rw [if_pos empty]
    exact .failAt member _
  · change Attends tokens t (if ty = .void then _ else _) (if ty = .void then _ else _) s₁ _
    rw [if_neg empty]
    refine .look fun o seen => ?_
    extract_lets close
    have closing (e : Option Expr) (s₂ : ParserState) (le : s₂.rest.length ≤ s₁.rest.length) :
        Attends tokens t (close e) (close e) s₂ (Leaves 1 s) := by
      refine attends_expect idle rfl _ fun _ _ s₃ less' => ?_
      refine (attends_declare member _ _ _).bind fun symbol s₄ le' => .currentFunction ?_
      dsimp only
      cases s₄.function with
      | none => exact .pure (by omega)
      | some f => exact .change rfl rfl rfl (.pure (by dsimp only [Leaves]; omega))
    cases o with
    | none =>
      rw [Option.none_or]
      dsimp only
      rw [if_neg (isIdle_ne idle rfl)]
      exact closing none s₁ (Nat.le_refl _)
    | some v =>
      obtain ⟨hv, rest, here⟩ := seen v rfl
      rw [Option.some_or]
      dsimp only
      split
      · refine .skip here fun s₂ less' => (attends_expression idle s₂).bind fun value s₃ le => ?_
        split
        · exact closing (some value) s₃ (by omega)
        · exact .failAt_bind hv _
      · exact closing none s₁ (Nat.le_refl _)

theorem attends_returnOf (hu : u ∈ tokens) : Attends tokens t (returnOf u) (returnOf u) s (Leaves 0 s) := by
  refine .currentFunction (.declarations ?_)
  dsimp only
  refine attends_accept idle rfl (fun s₁ less => ?_) ?_
  · rw [if_pos rfl]
    split
    · exact .pure (by omega)
    · exact .failAt hu _
  · rw [if_neg Bool.false_ne_true]
    refine (attends_expression idle s).bind fun e s₁ le => ?_
    split
    · exact attends_expect idle rfl _ fun _ _ s₂ less => .pure (by omega)
    · exact .failAt hu _

section Nested

variable (hn : Walks tokens t m nested nested')
include hn

theorem attends_choiceOf {b b' : Nat} (more : b < b') (few : s.rest.length < m) (enough : s.rest.length < b) :
    Attends tokens t (choiceOf nested b) (choiceOf nested' b') s (Leaves 1 s) := by
  induction b generalizing b' s with
  | zero => omega
  | succ b ih =>
    obtain ⟨b', rfl⟩ : ∃ c, b' = c + 1 := ⟨b' - 1, by omega⟩
    refine (attends_condition idle).bind fun c s₁ le => (hn s₁ (by omega)).bind fun body s₂ le' => ?_
    refine attends_accept idle rfl (fun s₃ less => ?_) (.pure (by omega))
    refine attends_accept idle rfl (fun s₄ less' => ?_) ?_
    · exact (ih (by omega) (by omega) (by omega)).bind fun next s₅ le'' => .pure (by omega)
    · exact (hn s₃ (by omega)).bind fun next s₅ le'' => .pure (by omega)

theorem attends_forOf (few : s.rest.length < m) : Attends tokens t (forOf nested) (forOf nested') s (Leaves 0 s) := by
  refine attends_expect idle rfl _ fun _ _ s₁ less₁ => ?_
  refine (attends_expression idle s₁).bind fun first s₂ le₂ => attends_expect idle rfl _ fun _ _ s₃ less₃ => ?_
  refine (attends_boolExpression idle).bind fun c s₄ le₄ => attends_expect idle rfl _ fun _ _ s₅ less₅ => ?_
  refine (attends_expression idle s₅).bind fun step s₆ le₆ => attends_expect idle rfl _ fun _ _ s₇ less₇ => ?_
  exact (hn s₇ (by omega)).bind fun body s₈ le₈ => .pure (by omega)

theorem attends_statement (few : s.rest.length < m) :
    Attends tokens t (statement nested) (statement nested') s (Leaves 1 s) := by
  refine .peek (fun ends => ?_) fun v rest here member => ?_
  · dsimp only
    rw [if_neg (by rw [TokenKind.isType, ty?_of_isIdle _ idle]; exact Bool.false_ne_true)]
    have same : Attends tokens t expressionStatement expressionStatement s (Leaves 1 s) :=
      attends_expressionStatement idle
    cases kind : t.kind <;> rw [kind] at idle <;> first | exact same | cases idle
  · dsimp only
    split
    · exact attends_localVariable idle
    · split
      · refine .skip here fun s₁ less => .remaining ?_
        exact (attends_choiceOf idle hn (Nat.lt_succ_self _) (by omega)
          (Nat.lt_succ_self _)).bind fun c s₂ le => .pure (by omega)
      · refine .skip here fun s₁ less => (attends_condition idle).bind fun c s₂ le => ?_
        exact (hn s₂ (by omega)).bind fun body s₃ le' => .pure (by omega)
      · exact .skip here fun s₁ less => (attends_forOf idle hn (by omega)).mono fun _ s₂ le => by omega
      · exact .skip here fun s₁ less => (attends_returnOf idle member).mono fun _ s₂ le => by omega
      · exact attends_expressionStatement idle

theorem attends_statementsUntilBrace {b b' : Nat} (more : b < b') (few : s.rest.length < m)
    (enough : s.rest.length < b) :
    Attends tokens t (statementsUntilBrace nested b) (statementsUntilBrace nested' b') s (Leaves 1 s) := by
  induction b generalizing b' s with
  | zero => omega
  | succ b ih =>
    obtain ⟨b', rfl⟩ : ∃ c, b' = c + 1 := ⟨b' - 1, by omega⟩
    refine .peek (fun ends => ?_) fun v rest here member => ?_
    · -- A statement is missed where the list ends.
      dsimp only
      rw [if_neg (isIdle_ne idle rfl), if_neg (isIdle_ne idle rfl)]
      refine .misses (c := .expectedExpression)
        ((attends_statement idle hn few).bind (k := fun _ => failHere .expectedListEnd) (R := fun _ _ => True)
          fun first s₁ le => ?_) ?_ ends _
      · rw [Leaves, ends] at le
        cases le
      · obtain ⟨source, _, d, f⟩ := s
        cases ends
        rfl
    · dsimp only
      split
      · exact .skip here fun s₁ less => .pure (by omega)
      · split
        · exact .skip here fun s₁ less => (ih (by omega) (by omega) (by omega)).mono fun _ s₂ le => by omega
        · refine (attends_statement idle hn few).bind fun first s₁ le => ?_
          exact (ih (by omega) (by omega) (by omega)).bind fun next s₂ le' => .pure (by omega)

end Nested

/-- **Lists of statements of any depth.** -/
theorem walks_blockWithin {b b' : Nat} (more : b < b') :
    Walks tokens t b (blockWithin b) (blockWithin b') := by
  induction b generalizing b' with
  | zero => exact fun s few => absurd few (Nat.not_lt_zero _)
  | succ b ih =>
    obtain ⟨b', rfl⟩ : ∃ c, b' = c + 1 := ⟨b' - 1, by omega⟩
    refine fun s few => attends_expect idle rfl _ fun _ _ s₁ less => .remaining ?_
    exact (attends_statementsUntilBrace idle (ih (by omega)) (Nat.lt_succ_self _) (by omega)
      (Nat.lt_succ_self _)).mono fun _ s₂ le => by omega

theorem attends_block (s : ParserState) : Attends tokens t block block s (Leaves 1 s) :=
  .remaining (walks_blockWithin idle (Nat.lt_succ_self _) s (Nat.lt_succ_self _))

/-! ## Declarations -/

theorem attends_decoratorsFrom {b b' : Nat} (more : b < b') (enough : s.rest.length ≤ b) (d : Decorators) :
    Attends tokens t (decoratorsFrom b d) (decoratorsFrom b' d) s (Leaves 0 s) := by
  have read (d : Decorators) : Attends tokens t (Pure.pure d : Parser Decorators) (Pure.pure d) s (Leaves 0 s) :=
    .pure (Nat.le_refl _)
  induction b generalizing b' s d with
  | zero =>
    obtain ⟨b', rfl⟩ : ∃ c, b' = c + 1 := ⟨b' - 1, by omega⟩
    refine .peek (k := fun _ => Pure.pure d) (fun ends => ?_) fun u rest here _ => ?_
    · dsimp only
      cases kind : t.kind <;> rw [kind] at idle <;> first | exact read d | cases idle
    · rw [here] at enough
      cases enough
  | succ b ih =>
    obtain ⟨b', rfl⟩ : ∃ c, b' = c + 1 := ⟨b' - 1, by omega⟩
    have again (d' : Decorators) (s₁ : ParserState) (less : s₁.rest.length + 1 = s.rest.length) :
        Attends tokens t (decoratorsFrom b d') (decoratorsFrom b' d') s₁ (Leaves 0 s) :=
      (ih (by omega) (by omega) d' fun _ => .pure (Nat.le_refl _)).mono fun _ s₂ le => by omega
    refine .peek (fun ends => ?_) fun u rest here member => ?_
    · dsimp only
      cases kind : t.kind <;> rw [kind] at idle <;> first | exact read d | cases idle
    · dsimp only
      split
      · exact .skip here (again _)
      · exact .skip here (again _)
      · exact .skip here (again _)
      · exact read d

theorem attends_globalOf (hu : u ∈ tokens) (d : Decorators) (ty : Ty) :
    Attends tokens t (globalOf d ty u) (globalOf d ty u) s (Leaves 0 s) := by
  refine attends_expect idle rfl _ fun _ _ s₁ less => ?_
  split
  · exact .failAt hu _
  · exact (attends_declare hu _ _ _).bind fun symbol s₂ le => .pure (by omega)

theorem attends_parametersOf (f : FunctionId) {b b' : Nat} (more : b < b') (enough : s.rest.length < b) :
    Attends tokens t (parametersOf f b) (parametersOf f b') s (Leaves 0 s) := by
  induction b generalizing b' s with
  | zero => omega
  | succ b ih =>
    obtain ⟨b', rfl⟩ : ∃ c, b' = c + 1 := ⟨b' - 1, by omega⟩
    refine (attends_typedName idle).bind ?_
    rintro ⟨ty, name⟩ s₁ ⟨member, less⟩
    dsimp only at member ⊢
    split
    · exact .failAt member _
    · refine (attends_declare member _ _ _).bind fun symbol s₂ le => .change rfl rfl rfl ?_
      refine attends_accept idle rfl (fun s₃ less' => ?_) (.pure (by dsimp only [Leaves]; omega))
      dsimp only at less'
      exact (ih (by omega) (by omega)).mono fun _ s₄ le' => by omega

omit idle in
theorem attends_declareFunction (hu : u ∈ tokens) (d : Decorators) (ty : Ty) :
    Attends tokens t (declareFunction d ty u) (declareFunction d ty u) s (Leaves 0 s) := by
  refine (attends_declare hu _ _ _).bind fun symbol s₁ le => .declarations ?_
  split
  · exact .failAt hu _
  · exact .change rfl rfl rfl (.pure le)

theorem attends_functionOf (hu : u ∈ tokens) (d : Decorators) (ty : Ty) :
    Attends tokens t (functionOf d ty u) (functionOf d ty u) s (Leaves 0 s) := by
  unfold functionOf
  by_cases uniform : d.uniform = true
  · rw [if_pos uniform]
    exact .failAt hu _
  by_cases interpolated : d.interpolated = true
  · rw [if_neg uniform, if_pos interpolated]
    exact .failAt hu _
  rw [if_neg uniform, if_neg interpolated]
  refine (attends_declareFunction hu d ty).bind fun id s₁ le₁ => .change rfl rfl rfl ?_
  refine attends_expect idle rfl _ fun _ _ s₂ less₂ => attends_sees idle rfl fun b => ?_
  extract_lets close
  have closing (s₃ : ParserState) (le : s₃.rest.length ≤ s₂.rest.length) :
      Attends tokens t (close ()) (close ()) s₃ (Leaves 0 s) := by
    refine attends_expect idle rfl _ fun _ _ s₄ less => (attends_block idle s₄).bind fun body s₅ le' => ?_
    exact .change rfl rfl rfl (.pure (by dsimp only [Leaves] at *; omega))
  cases b with
  | true => exact closing s₂ (Nat.le_refl _)
  | false =>
    refine .remaining ?_
    exact (attends_parametersOf idle id (Nat.lt_succ_self _) (Nat.lt_succ_self _)).bind
      fun _ s₃ le => closing s₃ le

theorem attends_item (s : ParserState) : Attends tokens t item item s (Leaves 1 s) := by
  refine .remaining ((attends_decoratorsFrom idle (Nat.lt_succ_self _) (Nat.le_refl _) _).bind fun d s₁ le => ?_)
  refine .peek (fun ends => ?_) fun u rest here member => ?_
  · rw [Option.bind_none, Option.bind_some, ty?_of_isIdle _ idle]
    exact .failHere _
  · rw [Option.bind_some]
    cases u.kind.ty? with
    | none => exact .failHere _
    | some ty =>
      refine .skip here fun s₂ less => attends_expect idle rfl _ fun name hn s₃ less' => ?_
      refine attends_sees idle rfl fun b => ?_
      cases b with
      | true => exact (attends_functionOf idle hn d ty).mono fun _ s₄ le' => by omega
      | false => exact (attends_globalOf idle hn d ty).mono fun _ s₄ le' => by omega

/-- **Declarations to the end of the tokens.** Reading them ends with the
tokens, and one more is a further declaration. -/
theorem heeds_itemsWithin {b b' : Nat} (more : b < b') (enough : s.rest.length ≤ b) :
    Heeds tokens t (itemsWithin b) (itemsWithin b') s := by
  induction b generalizing b' s with
  | zero => exact .pure
  | succ b ih =>
    obtain ⟨b', rfl⟩ : ∃ c, b' = c + 1 := ⟨b' - 1, by omega⟩
    refine .peek (fun ends => .pure) fun u rest here member => ?_
    refine .bind (attends_item idle s) fun i s₁ le => ?_
    exact (ih (by omega) (by omega)).map _

theorem heeds_items (s : ParserState) : Heeds tokens t items items s := by
  intro within e run
  have counted : items (s.followedBy t) = itemsWithin (s.rest.length + 1) (s.followedBy t) := by
    change itemsWithin (s.rest ++ [t]).length _ = _
    rw [List.length_append]
    rfl
  rw [counted]
  exact heeds_itemsWithin idle (Nat.lt_succ_self _) (Nat.le_refl _) within e run

end Statements

end Parser

/-! ## Shaders -/

/-- What goes wrong with the names of a stage is no fault of a source. -/
def Error.IsMalformed (e : Error) : Prop := ∃ fault, e = .malformedTree fault

theorem isMalformed_of_foldlM {α β : Type} {step : β → α → Except Error β}
    (each : ∀ b a e, step b a = .error e → e.IsMalformed) {as : List α} {b : β} {e : Error}
    (run : as.foldlM step b = .error e) : e.IsMalformed := by
  induction as generalizing b with
  | nil => cases run
  | cons a as ih =>
    rw [List.foldlM_cons] at run
    cases first : step b a with
    | ok b' =>
      rw [first] at run
      exact ih run
    | error e' =>
      rw [first] at run
      obtain rfl : e' = e := Except.error.inj run
      exact each b a e' first

theorem Declarations.isMalformed_of_addStage {d : Declarations} {stage : Stage} {e : Error}
    (run : d.addStage stage = .error e) : e.IsMalformed := by
  have boundary (d : Declarations) (v : StageVariable) (e : Error) (run : d.addStageVariable v = .error e) :
      e.IsMalformed := by
    unfold addStageVariable at run
    split at run
    · cases run
    · exact ⟨_, (Except.error.inj run).symm⟩
  have parameters (id : FunctionId) (d : Declarations) (parameter : Ty × Nat) (e : Error)
      (run : d.addStageParameter id parameter = .error e) : e.IsMalformed := by
    unfold addStageParameter at run
    dsimp only at run
    split at run
    · cases run
    · exact ⟨_, (Except.error.inj run).symm⟩
  have functions (d : Declarations) (f : StageFunction) (e : Error) (run : d.addStageFunction f = .error e) :
      e.IsMalformed := by
    unfold addStageFunction at run
    split at run
    · exact ⟨_, (Except.error.inj run).symm⟩
    · split at run
      · exact ⟨_, (Except.error.inj run).symm⟩
      · exact isMalformed_of_foldlM (parameters _) run
  unfold addStage at run
  cases first : stage.boundary.foldlM addStageVariable d with
  | ok d' =>
    rw [first] at run
    exact isMalformed_of_foldlM functions run
  | error e' =>
    rw [first] at run
    obtain rfl : e' = e := Except.error.inj run
    exact isMalformed_of_foldlM boundary first

/-- Once the names of a stage are declared, tokens are refused where their
declarations are. -/
theorem Shader.ofTokens_error_iff {stage : Stage} {source : String} {d : Declarations}
    (declared : Declarations.addStage {} stage = .ok d) {tokens : List Token} {e : Error} :
    Shader.ofTokens stage source tokens = .error e ↔
      Parser.items ⟨source.toList, tokens, d, none⟩ = .error e := by
  simp only [Shader.ofTokens, ParserState.start, declared, Bind.bind, Except.bind, Pure.pure, Except.pure]
  cases Parser.items ⟨source.toList, tokens, d, none⟩ with
  | ok x => exact ⟨by rintro ⟨⟩, by rintro ⟨⟩⟩
  | error e' => simp only [Except.error.injEq]

/-- **Why tokens are refused**: for the names of the stage, for something that
is missing behind all of them, or for one of them. -/
theorem Shader.error_of_ofTokens {stage : Stage} {source : String} {tokens : List Token} {e : Error}
    (run : Shader.ofTokens stage source tokens = .error e) :
    e.IsMalformed ∨
      (∃ cause, e = .unexpectedEnd cause ∧ ∀ stopper : Token, stopper.kind.isIdle = true →
        ∃ cause', Shader.ofTokens stage source (tokens ++ [stopper]) =
          .error (.ofComplaint source.toList stopper.position cause')) ∨
      ∃ t ∈ tokens, ∃ cause, e = .ofComplaint source.toList t.position cause := by
  cases declared : Declarations.addStage {} stage with
  | error e' =>
    simp only [Shader.ofTokens, ParserState.start, declared, Bind.bind, Except.bind] at run
    obtain rfl : e' = e := Except.error.inj run
    exact .inl (Declarations.isMalformed_of_addStage declared)
  | ok d =>
    have heeds (stopper : Token) (idle : stopper.kind.isIdle = true) :=
      Parser.heeds_items idle _ (List.Subset.refl _) e ((ofTokens_error_iff declared).1 run)
    by_cases ended : ∃ cause, e = .unexpectedEnd cause
    · obtain ⟨cause, rfl⟩ := ended
      refine .inr (.inl ⟨cause, rfl, fun stopper idle => ?_⟩)
      rcases heeds stopper idle with ⟨_, cause', _, same⟩ | ⟨_, _, _, no⟩
      · exact ⟨cause', (ofTokens_error_iff declared).2 same⟩
      · cases no
    · rcases heeds ⟨.logicalAnd, "&&", .start⟩ rfl with ⟨cause, _, eq, _⟩ | other
      · exact absurd ⟨cause, eq⟩ ended
      · exact .inr (.inr other)

/-- **A complaint points at a token of its source**, and one about the end of
the source has passed over all tokens: with any token behind them that no rule
reads, the complaint is about that one. -/
theorem Shader.points_of_parse {stage : Stage} {source : String} {e : Error}
    (run : Shader.parse stage source = .error e) :
    (∀ cause p excerpt, e = .complaint cause p excerpt → p.line < 1000000 →
      ∃ tokens, tokenize source = .ok tokens ∧ ∃ t ∈ tokens, t.position = p ∧
        Text.PointsAt source.toList t.lexeme.toList p cause.message.toList excerpt.toList) ∧
    ∀ cause, e = .unexpectedEnd cause →
      ∃ tokens, tokenize source = .ok tokens ∧ ∀ stopper : Token, stopper.kind.isIdle = true →
        ∃ cause', Shader.ofTokens stage source (tokens ++ [stopper]) =
          .error (.ofComplaint source.toList stopper.position cause') := by
  cases scanned : tokenize source with
  | error e' =>
    -- What cannot be scanned is reported before anything is parsed.
    simp only [Shader.parse, scanned, Bind.bind, Except.bind] at run
    obtain rfl : e' = e := Except.error.inj run
    have scans := scans_tokenize source
    rw [scanned] at scans
    cases scans
    exact ⟨by rintro _ _ _ ⟨⟩, by rintro _ ⟨⟩⟩
  | ok tokens =>
    have parsed : Shader.ofTokens stage source tokens = .error e := by
      simpa only [Shader.parse, scanned, Bind.bind, Except.bind] using run
    rcases Shader.error_of_ofTokens parsed with ⟨fault, rfl⟩ | ⟨missing, rfl, behind⟩ | ⟨t, ht, cause, rfl⟩
    · exact ⟨by rintro _ _ _ ⟨⟩, by rintro _ ⟨⟩⟩
    · refine ⟨by rintro _ _ _ ⟨⟩, ?_⟩
      rintro _ ⟨⟩
      exact ⟨tokens, rfl, behind⟩
    · refine ⟨?_, by rintro _ ⟨⟩⟩
      rintro _ _ _ ⟨⟩ few
      refine ⟨tokens, rfl, t, ht, rfl, ?_⟩
      rw [String.toList_ofList]
      exact Text.pointsAt_excerpt (standsIn_of_tokenize scanned t ht) few _

/-- A shader without a semicolon. -/
def Shader.openSource : String := "int a;\r\n\tint b\tint c;"

/-- A shader that ends too early. -/
def Shader.endedSource : String := "void main() \x7b if (true) "

set_option maxRecDepth 100000 in
theorem Shader.points_openSource :
    (∃ excerpt, Shader.parse .vertex openSource = .error (.complaint .missingSemicolon ⟨2, 8⟩ excerpt) ∧
      ∃ tokens, tokenize openSource = .ok tokens ∧ ∃ t ∈ tokens, t.position = ⟨2, 8⟩ ∧
        Text.PointsAt openSource.toList t.lexeme.toList ⟨2, 8⟩ Complaint.missingSemicolon.message.toList
          excerpt.toList) ∧
    Shader.parse .vertex endedSource = .error (.unexpectedEnd .expectedListStart) ∧
      ∃ tokens, tokenize endedSource = .ok tokens ∧ ∀ stopper : Token, stopper.kind.isIdle = true →
        ∃ cause', Shader.ofTokens .vertex endedSource (tokens ++ [stopper]) =
          .error (.ofComplaint endedSource.toList stopper.position cause') := by
  have fails {source : String} {e : Error}
      (read : (Shader.parse .vertex source).map (fun _ => ()) = .error e) :
      Shader.parse .vertex source = .error e := by
    cases parsed : Shader.parse .vertex source with
    | ok s =>
      rw [parsed] at read
      cases read
    | error e' =>
      rw [parsed] at read
      rw [Except.error.inj read]
  have refused : Shader.parse .vertex openSource = .error
      (.ofComplaint openSource.toList ⟨2, 8⟩ .missingSemicolon) := fails (by decide +kernel)
  have ended : Shader.parse .vertex endedSource = .error (.unexpectedEnd .expectedListStart) :=
    fails (by decide +kernel)
  exact ⟨⟨_, refused, (Shader.points_of_parse refused).1 _ _ _ rfl (by decide)⟩,
    ended, (Shader.points_of_parse ended).2 _ rfl⟩

end Shading
