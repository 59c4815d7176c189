import Shading.Parser.Shader

/-!
# Where a parser complains

A parser complains about a token that it has read or that comes next, and it
misses something at the end of the tokens only when it has read all of them.
For the second half the tokens are followed by one more that no rule reads
(`TokenKind.isIdle`): whatever was missing at the end is now the complaint about
that token, and every other outcome is the same (`Attends`).

Both are shown in one walk through the parsers. Every repetition reads a token
first, so the number of tokens that are left is below its bound throughout.
-/

namespace Shading

/-- **A kind of token that no rule reads.** -/
def TokenKind.isIdle : TokenKind → Bool
  | .logicalAnd | .logicalOr => true
  | _ => false

/-- The state with one more token at the end. -/
def ParserState.followedBy (s : ParserState) (t : Token) : ParserState := { s with rest := s.rest ++ [t] }

/-- **Two parsers attend to the same tokens** from a state on, the second one
with an idle token at the end. Where both succeed, the token is still there.
What misses something at the end complains about the token, and any other
complaint is about one of `tokens` and the same for both. -/
def Attends (tokens : List Token) (t : Token) {α : Type} (p p' : Parser α) (s : ParserState)
    (Q : α → ParserState → Prop) : Prop :=
  s.rest ⊆ tokens →
  match p s with
  | .ok (a, s') =>
    p' (s.followedBy t) = .ok (a, s'.followedBy t) ∧ s'.source = s.source ∧ s'.rest ⊆ tokens ∧ Q a s'
  | .error e =>
    (∃ cause cause', e = .unexpectedEnd cause ∧
      p' (s.followedBy t) = .error (.ofComplaint s.source t.position cause')) ∨
    ∃ u ∈ tokens, ∃ cause, e = .ofComplaint s.source u.position cause ∧ p' (s.followedBy t) = .error e

namespace Attends

variable {tokens : List Token} {t : Token} {α β : Type} {p p' : Parser α} {s : ParserState}
  {Q R : α → ParserState → Prop}

theorem mono (h : Attends tokens t p p' s Q) (sub : ∀ a s', Q a s' → R a s') : Attends tokens t p p' s R := by
  intro within
  have h := h within
  cases run : p s with
  | ok x =>
    simp only [run] at h ⊢
    exact ⟨h.1, h.2.1, h.2.2.1, sub _ _ h.2.2.2⟩
  | error e =>
    simp only [run] at h ⊢
    exact h

theorem pure {a : α} (h : Q a s) : Attends tokens t (Pure.pure a) (Pure.pure a) s Q := fun within => ⟨rfl, rfl, within, h⟩

theorem bind {k k' : α → Parser β} {R : β → ParserState → Prop} (h : Attends tokens t p p' s Q)
    (next : ∀ a s', Q a s' → Attends tokens t (k a) (k' a) s' R) :
    Attends tokens t (p >>= k) (p' >>= k') s R := by
  intro within
  have run : (p >>= k) s = p s >>= fun x => k x.1 x.2 := rfl
  have run' : (p' >>= k') (s.followedBy t) = p' (s.followedBy t) >>= fun x => k' x.1 x.2 := rfl
  have h := h within
  rw [run, run']
  cases here : p s with
  | ok x =>
    obtain ⟨a, s'⟩ := x
    simp only [here] at h
    obtain ⟨same, source, inside, holds⟩ := h
    have after := next a s' holds inside
    rw [same]
    rw [source] at after
    exact after
  | error e =>
    simp only [here] at h
    rcases h with ⟨cause, cause', eq, same⟩ | ⟨u, hu, cause, eq, same⟩
    · rw [same]
      exact .inl ⟨cause, cause', eq, rfl⟩
    · rw [same]
      exact .inr ⟨u, hu, cause, eq, rfl⟩

/-- A complaint about a token that was read. -/
theorem failAt {u : Token} (hu : u ∈ tokens) (cause : Complaint) :
    Attends tokens t (Parser.failAt u.position cause : Parser α) (Parser.failAt u.position cause) s Q :=
  fun _ => .inr ⟨u, hu, cause, rfl, rfl⟩

/-- **A complaint about the next token**, or the end of the tokens. -/
theorem failHere (cause : Complaint) :
    Attends tokens t (Parser.failHere cause : Parser α) (Parser.failHere cause) s Q := by
  obtain ⟨source, rest, d, f⟩ := s
  intro within
  cases rest with
  | nil => exact .inl ⟨cause, cause, rfl, rfl⟩
  | cons u rest => exact .inr ⟨u, within List.mem_cons_self, cause, rfl, rfl⟩

/-- **Looking at the next token.** At the end the second parser sees the idle
one. -/
theorem peek {k k' : Option Token → Parser α} (ends : s.rest = [] → Attends tokens t (k none) (k' (some t)) s Q)
    (token : ∀ u rest, s.rest = u :: rest → u ∈ tokens → Attends tokens t (k (some u)) (k' (some u)) s Q) :
    Attends tokens t (Parser.peek? >>= k) (Parser.peek? >>= k') s Q := by
  obtain ⟨source, rest, d, f⟩ := s
  intro within
  cases rest with
  | nil => exact ends rfl within
  | cons u rest => exact token u rest rfl (within List.mem_cons_self) within

/-- Passing over a token. -/
theorem skip {k k' : Unit → Parser α} {u : Token} {rest : List Token} (here : s.rest = u :: rest)
    (next : ∀ s', s'.rest.length + 1 = s.rest.length → Attends tokens t (k ()) (k' ()) s' Q) :
    Attends tokens t (Parser.skip >>= k) (Parser.skip >>= k') s Q := by
  obtain ⟨source, all, d, f⟩ := s
  cases here
  exact fun within => next ⟨source, rest, d, f⟩ rfl fun v hv => within (List.mem_cons_of_mem u hv)

/-- The tokens that are left are counted. -/
theorem remaining {k k' : Nat → Parser α} (next : Attends tokens t (k s.rest.length) (k' (s.rest.length + 1)) s Q) :
    Attends tokens t (Parser.remaining >>= k) (Parser.remaining >>= k') s Q := by
  intro within
  have counted : (Parser.remaining >>= k') (s.followedBy t) = k' (s.rest.length + 1) (s.followedBy t) := by
    change k' (s.rest ++ [t]).length _ = _
    rw [List.length_append]
    rfl
  have run : (Parser.remaining >>= k) s = k s.rest.length s := rfl
  rw [run, counted]
  exact next within

/-- A step that reads the names alone. -/
theorem declarations {k k' : Declarations → Parser α}
    (next : Attends tokens t (k s.declarations) (k' s.declarations) s Q) :
    Attends tokens t (Parser.declarations >>= k) (Parser.declarations >>= k') s Q := next

theorem currentFunction {k k' : Option FunctionId → Parser α}
    (next : Attends tokens t (k s.function) (k' s.function) s Q) :
    Attends tokens t (Parser.currentFunction >>= k) (Parser.currentFunction >>= k') s Q := next

/-- A step that changes no token. -/
theorem change {f : ParserState → ParserState} {k k' : PUnit → Parser α} (source : (f s).source = s.source)
    (rest : (f s).rest = s.rest) (same : f (s.followedBy t) = (f s).followedBy t)
    (next : Attends tokens t (k .unit) (k' .unit) (f s) Q) :
    Attends tokens t (modify f >>= k) (modify f >>= k') s Q := by
  intro within
  have after := next (rest ▸ within)
  rw [source, ← same] at after
  exact after

end Attends

namespace Parser

/-- **A parser leaves fewer tokens**, by a number at least. -/
abbrev Leaves (n : Nat) (s : ParserState) {α : Type} (_ : α) (s' : ParserState) : Prop :=
  s'.rest.length + n ≤ s.rest.length

/-- **Two parsers attend to the same tokens** wherever fewer than so many are
left, and read one at least. -/
def Walks (tokens : List Token) (t : Token) (n : Nat) {α : Type} (p p' : Parser α) : Prop :=
  ∀ s, s.rest.length < n → Attends tokens t p p' s (Leaves 1 s)

variable {tokens : List Token} {t u : Token} {s : ParserState} {α β : Type} {m n : Nat} {nested nested' : Parser Expr}

theorem isIdle_ne (idle : t.kind.isIdle = true) {k : TokenKind} (known : k.isIdle = false) : t.kind ≠ k := by
  rintro rfl
  rw [idle] at known
  cases known

/-! ## Single tokens -/

section Tokens

variable (idle : t.kind.isIdle = true)
include idle

/-- A token of a kind is read, or missed. -/
theorem attends_expect {k : Token → Parser α} {k' : Token → Parser α} {Q : α → ParserState → Prop} {kind : TokenKind}
    (known : kind.isIdle = false) (cause : Complaint)
    (next : ∀ u ∈ tokens, ∀ s', s'.rest.length + 1 = s.rest.length → Attends tokens t (k u) (k' u) s' Q) :
    Attends tokens t (expect kind cause >>= k) (expect kind cause >>= k') s Q := by
  have single : Attends tokens t (expect kind cause) (expect kind cause) s
      fun u s' => u ∈ tokens ∧ s'.rest.length + 1 = s.rest.length := by
    refine .peek (fun ends => ?_) fun u rest here member => ?_
    · dsimp only
      rw [if_neg (isIdle_ne idle known)]
      exact .failHere cause
    · dsimp only
      split
      · exact .skip here fun s' less => .pure ⟨member, less⟩
      · exact .failHere cause
  refine single.bind ?_
  rintro u s' ⟨member, less⟩
  exact next u member s' less

/-- The next token is of a kind, which the idle one is not. -/
theorem attends_sees {k k' : Bool → Parser α} {Q : α → ParserState → Prop} {kind : TokenKind} (known : kind.isIdle = false)
    (next : ∀ b, Attends tokens t (k b) (k' b) s Q) : Attends tokens t (sees kind >>= k) (sees kind >>= k') s Q := by
  have single : Attends tokens t (sees kind) (sees kind) s fun _ s' => s' = s := by
    refine .peek (fun ends => ?_) fun u rest here member => ?_
    · have other : (t.kind == kind) = false := beq_false_of_ne (isIdle_ne idle known)
      rw [Option.any_some, other]
      exact .pure rfl
    · exact .pure rfl
  refine single.bind ?_
  rintro b _ rfl
  exact next b

/-- A token of a kind is passed over, or left. -/
theorem attends_accept {k k' : Bool → Parser α} {Q : α → ParserState → Prop} {kind : TokenKind} (known : kind.isIdle = false)
    (taken : ∀ s', s'.rest.length + 1 = s.rest.length → Attends tokens t (k true) (k' true) s' Q)
    (left : Attends tokens t (k false) (k' false) s Q) :
    Attends tokens t (accept kind >>= k) (accept kind >>= k') s Q := by
  have single : Attends tokens t (accept kind) (accept kind) s fun b s' =>
      if b then s'.rest.length + 1 = s.rest.length else s' = s := by
    have look : Attends tokens t (sees kind) (sees kind) s fun b s' => s' = s ∧ (b = true → s.rest ≠ []) := by
      refine .peek (fun ends => ?_) fun u rest here member => ?_
      · have other : (t.kind == kind) = false := beq_false_of_ne (isIdle_ne idle known)
        rw [Option.any_some, other]
        exact .pure ⟨rfl, by rintro ⟨⟩⟩
      · exact .pure ⟨rfl, fun _ none => by rw [none] at here; cases here⟩
    refine look.bind ?_
    rintro b _ ⟨rfl, some⟩
    cases b with
    | false => exact .pure rfl
    | true =>
      obtain ⟨u, rest, here⟩ := List.exists_cons_of_ne_nil (some rfl)
      exact .skip here fun s' less => .pure less
  refine single.bind fun b s' h => ?_
  cases b with
  | false =>
    obtain rfl : s' = s := h
    exact left
  | true => exact taken s' h

/-- An operator is read, or none stands here. -/
theorem attends_takeOp {op? : TokenKind → Option β} {k k' : Option (β × Token) → Parser α}
    {Q : α → ParserState → Prop} (known : ∀ k : TokenKind, k.isIdle = true → op? k = none)
    (taken : ∀ b, ∀ u ∈ tokens, ∀ s', s'.rest.length + 1 = s.rest.length →
      Attends tokens t (k (some (b, u))) (k' (some (b, u))) s' Q)
    (left : Attends tokens t (k none) (k' none) s Q) :
    Attends tokens t (takeOp? op? >>= k) (takeOp? op? >>= k') s Q := by
  have single : Attends tokens t (takeOp? op?) (takeOp? op?) s fun r s' =>
      (r = none ∧ s' = s) ∨ ∃ b, ∃ u ∈ tokens, r = some (b, u) ∧ s'.rest.length + 1 = s.rest.length := by
    refine .peek (fun ends => ?_) fun u rest here member => ?_
    · dsimp only
      rw [known _ idle]
      exact .pure (.inl ⟨rfl, rfl⟩)
    · dsimp only
      cases op? u.kind with
      | none => exact .pure (.inl ⟨rfl, rfl⟩)
      | some b => exact .skip here fun s' less => .pure (.inr ⟨b, u, member, rfl, less⟩)
  refine single.bind ?_
  rintro r s' (⟨rfl, rfl⟩ | ⟨b, u, member, rfl, less⟩)
  · exact left
  · exact taken b u member s' less

end Tokens

/-! ## Atoms and suffixes -/

theorem attends_nameExpr (hu : u ∈ tokens) : Attends tokens t (nameExpr u) (nameExpr u) s (Leaves 0 s) := by
  refine .declarations (.currentFunction ?_)
  split
  · exact .pure (Nat.le_refl _)
  · exact .failAt hu _

/-- An idle token is no literal. -/
theorem literal?_of_isIdle (idle : t.kind.isIdle = true) : literal? t = .ok none := by
  unfold literal?
  cases kind : t.kind <;> rw [kind] at idle <;> first | rfl | cases idle

section Expressions

variable (idle : t.kind.isIdle = true) (hn : Walks tokens t m nested nested')
include idle hn

theorem walks_atom : Walks tokens t (m + 1) (atom nested) (atom nested') := by
  intro s few
  refine .peek (fun ends => ?_) fun u rest here member => ?_
  · -- The idle token starts no atom.
    obtain ⟨source, _, d, f⟩ := s
    cases ends
    intro _
    refine .inl ⟨.expectedExpression, .expectedExpression, rfl, ?_⟩
    dsimp only
    rw [literal?_of_isIdle idle]
    simp only [isIdle_ne idle (k := .identifier) rfl, isIdle_ne idle (k := .roundLeft) rfl, if_false]
    rfl
  · refine .skip here fun s' less => ?_
    split
    · exact .failAt member _
    · exact .pure (Nat.le_of_eq less)
    · split
      · exact (attends_nameExpr member).mono fun _ s'' le => by omega
      · split
        · refine (hn s' (by omega)).bind fun e s₁ le => attends_expect idle rfl _ fun v _ s₂ less' => ?_
          exact .pure (by omega)
        · exact .failAt member _

theorem attends_subscriptOf {base : Expr} (hu : u ∈ tokens) (few : s.rest.length < m) :
    Attends tokens t (subscriptOf nested base u) (subscriptOf nested' base u) s (Leaves 1 s) := by
  refine (hn s few).bind fun index s₁ le => attends_expect idle rfl _ fun v _ s₂ less => ?_
  split
  · exact .failAt hu _
  · split
    · exact .pure (by omega)
    · exact .failAt hu _

theorem attends_argumentList {b b' : Nat} (more : b < b') (few : s.rest.length < m) (enough : s.rest.length < b) :
    Attends tokens t (argumentList nested b) (argumentList nested' b') s (Leaves 1 s) := by
  induction b generalizing b' s with
  | zero => omega
  | succ b ih =>
    obtain ⟨b', rfl⟩ : ∃ c, b' = c + 1 := ⟨b' - 1, by omega⟩
    refine (hn s few).bind fun e s₁ le => attends_accept idle rfl (fun s₂ less => ?_) (.pure le)
    exact (ih (Nat.lt_of_succ_lt_succ more) (by omega) (by omega)).bind fun es s₃ le' => .pure (by omega)

omit idle hn in
theorem attends_calleeOf {callee : Expr} (hu : u ∈ tokens) :
    Attends tokens t (calleeOf callee u) (calleeOf callee u) s (Leaves 0 s) := by
  unfold calleeOf
  split
  · refine .declarations ?_
    dsimp only
    split
    · exact .pure (Nat.le_refl _)
    · exact .failAt hu _
  · exact .failAt hu _

theorem attends_callOf {callee : Expr} (hu : u ∈ tokens) (few : s.rest.length < m) :
    Attends tokens t (callOf nested callee u) (callOf nested' callee u) s (Leaves 1 s) := by
  refine (attends_calleeOf hu).bind ?_
  rintro ⟨id, name⟩ s₁ le
  refine attends_sees idle rfl fun b => ?_
  extract_lets close
  have closing (args : List Expr) (s₂ : ParserState) (le' : s₂.rest.length ≤ s₁.rest.length) :
      Attends tokens t (close args) (close args) s₂ (Leaves 1 s) := by
    refine attends_expect idle rfl _ fun v _ s₃ less => .declarations ?_
    dsimp only
    split
    · exact .failAt hu _
    · split
      · exact .failAt hu _
      · exact .pure (by omega)
  cases b with
  | true => exact closing [] s₁ (Nat.le_refl _)
  | false =>
    exact .remaining ((attends_argumentList idle hn (Nat.lt_succ_self _) (by omega)
      (Nat.lt_succ_self _)).bind fun args s₂ le' => closing args s₂ (by omega))

theorem attends_suffixes {b b' : Nat} (more : b < b') (few : s.rest.length < m + 1) (enough : s.rest.length < b)
    (e : Expr) : Attends tokens t (suffixes nested b e) (suffixes nested' b' e) s (Leaves 0 s) := by
  induction b generalizing b' s e with
  | zero => omega
  | succ b ih =>
    obtain ⟨b', rfl⟩ : ∃ c, b' = c + 1 := ⟨b' - 1, by omega⟩
    refine .peek (fun ends => ?_) fun u rest here member => ?_
    · dsimp only
      rw [if_neg (isIdle_ne idle rfl), if_neg (isIdle_ne idle rfl)]
      exact .pure (Nat.le_refl _)
    · dsimp only
      split
      · refine .skip here fun s₁ less => (attends_subscriptOf idle hn member (by omega)).bind fun e' s₂ le => ?_
        exact (ih (by omega) (by omega) (by omega) e').mono fun _ s₃ le' => by omega
      · split
        · refine .skip here fun s₁ less => (attends_callOf idle hn member (by omega)).bind fun e' s₂ le => ?_
          exact (ih (by omega) (by omega) (by omega) e').mono fun _ s₃ le' => by omega
        · exact .pure (Nat.le_refl _)

theorem walks_suffixed : Walks tokens t (m + 1) (suffixed nested) (suffixed nested') := by
  intro s few
  refine (walks_atom idle hn s few).bind fun e s₁ le => .remaining ?_
  exact (attends_suffixes idle hn (Nat.lt_succ_self _) (by omega) (Nat.lt_succ_self _) e).mono fun _ s₂ le' => by omega

/-! ## Operators -/

omit idle hn in
theorem sumOp?_of_isIdle (k : TokenKind) (h : k.isIdle = true) : sumOp? k = none := by
  cases k <;> first | rfl | cases h

omit idle hn in
theorem productOp?_of_isIdle (k : TokenKind) (h : k.isIdle = true) : productOp? k = none := by
  cases k <;> first | rfl | cases h

omit idle hn in
theorem relationalOp?_of_isIdle (k : TokenKind) (h : k.isIdle = true) : relationalOp? k = none := by
  cases k <;> first | rfl | cases h

omit idle hn in
theorem assignmentOp?_of_isIdle (k : TokenKind) (h : k.isIdle = true) : assignmentOp? k = none := by
  cases k <;> first | rfl | cases h

theorem attends_unary {b b' : Nat} (more : b < b') (few : s.rest.length < m + 1) (enough : s.rest.length < b) :
    Attends tokens t (unary nested b) (unary nested' b') s (Leaves 1 s) := by
  induction b generalizing b' s with
  | zero => omega
  | succ b ih =>
    obtain ⟨b', rfl⟩ : ∃ c, b' = c + 1 := ⟨b' - 1, by omega⟩
    refine .peek (fun ends => ?_) fun u rest here member => ?_
    · dsimp only
      rw [if_neg (isIdle_ne idle rfl), if_neg (isIdle_ne idle rfl)]
      exact walks_suffixed idle hn s few
    · dsimp only
      split
      · refine .skip here fun s₁ less => (ih (by omega) (by omega) (by omega)).bind fun e s₂ le => ?_
        split
        · exact .pure (by omega)
        · exact .failAt member _
      · split
        · refine .skip here fun s₁ less => (ih (by omega) (by omega) (by omega)).bind fun e s₂ le => ?_
          split
          · exact .pure (by omega)
          · exact .failAt member _
        · exact walks_suffixed idle hn s few

theorem walks_factor : Walks tokens t (m + 1) (factor nested) (factor nested') := fun _ few =>
  .remaining (attends_unary idle hn (Nat.lt_succ_self _) few (Nat.lt_succ_self _))

omit hn in
/-- Operators of one level join operands. -/
theorem attends_joined {op? : TokenKind → Option BinaryOp} (known : ∀ k : TokenKind, k.isIdle = true → op? k = none)
    {operand operand' : Parser Expr} (ho : Walks tokens t m operand operand') {b b' : Nat} (more : b < b')
    (few : s.rest.length < m) (enough : s.rest.length < b) (e : Expr) :
    Attends tokens t (joined op? operand b e) (joined op? operand' b' e) s (Leaves 0 s) := by
  induction b generalizing b' s e with
  | zero => omega
  | succ b ih =>
    obtain ⟨b', rfl⟩ : ∃ c, b' = c + 1 := ⟨b' - 1, by omega⟩
    refine attends_takeOp idle known (fun op u member s₁ less => ?_) (.pure (Nat.le_refl _))
    refine (ho s₁ (by omega)).bind fun rhs s₂ le => ?_
    split
    · exact (ih (by omega) (by omega) (by omega) _).mono fun _ s₃ le' => by omega
    · exact .failAt member _

theorem walks_product : Walks tokens t (m + 1) (product nested) (product nested') := fun s few => by
  refine (walks_factor idle hn s few).bind fun e s₁ le => .remaining ?_
  exact (attends_joined idle productOp?_of_isIdle (walks_factor idle hn) (Nat.lt_succ_self _) (by omega)
    (Nat.lt_succ_self _) e).mono fun _ s₂ le' => by omega

theorem walks_sum : Walks tokens t (m + 1) (sum nested) (sum nested') := fun s few => by
  refine (walks_product idle hn s few).bind fun e s₁ le => .remaining ?_
  exact (attends_joined idle sumOp?_of_isIdle (walks_product idle hn) (Nat.lt_succ_self _) (by omega)
    (Nat.lt_succ_self _) e).mono fun _ s₂ le' => by omega

theorem walks_relation : Walks tokens t (m + 1) (relation nested) (relation nested') := fun s few => by
  refine (walks_sum idle hn s few).bind fun e s₁ le => ?_
  refine attends_takeOp idle relationalOp?_of_isIdle (fun op u member s₂ less => ?_) (.pure le)
  refine (walks_sum idle hn s₂ (by omega)).bind fun rhs s₃ le' => ?_
  split
  · exact .pure (by omega)
  · exact .failAt member _

theorem walks_assignment : Walks tokens t (m + 1) (assignment nested) (assignment nested') := fun s few => by
  refine (walks_relation idle hn s few).bind fun e s₁ le => ?_
  refine attends_takeOp idle assignmentOp?_of_isIdle (fun op u member s₂ less => ?_) (.pure le)
  refine (hn s₂ (by omega)).bind fun value s₃ le' => ?_
  split
  · exact .failAt member _
  · split
    · exact .pure (by omega)
    · exact .failAt member _

end Expressions

/-- **Expressions of any depth.** -/
theorem walks_expressionWithin (idle : t.kind.isIdle = true) {b b' : Nat} (more : b < b') :
    Walks tokens t b (expressionWithin b) (expressionWithin b') := by
  induction b generalizing b' with
  | zero => exact fun s few => absurd few (Nat.not_lt_zero _)
  | succ b ih =>
    obtain ⟨b', rfl⟩ : ∃ c, b' = c + 1 := ⟨b' - 1, by omega⟩
    exact walks_assignment idle (ih (by omega))

theorem attends_expression (idle : t.kind.isIdle = true) (s : ParserState) :
    Attends tokens t expression expression s (Leaves 1 s) :=
  .remaining (walks_expressionWithin idle (Nat.lt_succ_self _) s (Nat.lt_succ_self _))

end Parser

end Shading
