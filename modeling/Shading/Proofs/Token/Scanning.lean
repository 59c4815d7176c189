import Shading.Proofs.Token.Munch

/-!
# What scanning comes to

A source text is read from its start: what stands between tokens is passed
over (`Gap`), and then comes the token of the place (`Munch`), at a
position that is counted from the start of the text. `Reading source
before tokens rest` says that this has read `before` of the text, and
`Scans source result` that it went on for as long as it could: to the end
of the text, or to the first place where a token should start and no
definition matches.

Scanning is the one function of the text with such results
(`tokenize_eq_iff`): there is always a result, it is never another one,
and a message about the set of definitions itself does not occur.
-/

namespace Shading

/-! ## Positions -/

/-- **The position behind a text**: one line further for each line feed,
and one column for each character after the last one. -/
def Position.behind (before : List Char) : Position :=
  ⟨before.count '\n' + 1, (before.reverse.takeWhile (· != '\n')).length + 1⟩

theorem Position.behind_snoc (before : List Char) (c : Char) :
    behind (before ++ [c]) = (behind before).after c := by
  by_cases feed : c = '\n'
  · simp [behind, after, feed]
  · simp [behind, after, feed, List.count_eq_zero_of_not_mem]

/-- Counting along a text comes to the position behind it. -/
theorem Position.behind_append (before text : List Char) :
    behind (before ++ text) = (behind before).afterAll text := by
  induction text generalizing before with
  | nil => simp
  | cons c text ih => rw [List.append_cons, ih, behind_snoc, afterAll_cons]

/-- Positions are ordered by their lines, and in a line by their columns. -/
def Position.Before (p q : Position) : Prop :=
  p.line < q.line ∨ (p.line = q.line ∧ p.column < q.column)

theorem Position.Before.trans {p q r : Position} (h : p.Before q) (h' : q.Before r) : p.Before r := by
  unfold Before at *
  omega

theorem Position.before_after (p : Position) (c : Char) : p.Before (p.after c) := by
  unfold Before after
  split
  · exact .inl (Nat.lt_succ_self _)
  · exact .inr ⟨rfl, Nat.lt_succ_self _⟩

/-- A text that is not empty ends behind its start. -/
theorem Position.before_afterAll (p : Position) {text : List Char} (some : text ≠ []) :
    p.Before (p.afterAll text) := by
  induction text generalizing p with
  | nil => exact absurd rfl some
  | cons c text ih =>
    rw [afterAll_cons]
    cases text with
    | nil => exact p.before_after c
    | cons d text => exact (p.before_after c).trans (ih _ (List.cons_ne_nil _ _))

/-! ## Between tokens -/

/-- **What stands in front of a text**: blanks, and comments, which run
from two slashes to the end of the line. -/
inductive Gap : List Char → List Char → Prop where
  | none {rest : List Char} : Gap [] rest
  | blank {c : Char} {gap rest : List Char} (blank : isBlank c = true) (more : Gap gap rest) :
      Gap (c :: gap) rest
  | comment {body gap rest : List Char} (line : '\n' ∉ body)
      (ends : ∀ c ∈ (gap ++ rest).head?, c = '\n') (more : Gap gap rest) :
      Gap ('/' :: '/' :: body ++ gap) rest

/-- A text that starts with neither a blank nor a comment. -/
def Bare (text : List Char) : Prop :=
  (∀ c ∈ text.head?, isBlank c = false) ∧ ¬['/', '/'] <+: text

theorem bare_nil : Bare [] := ⟨by simp, by simp⟩

section Skip

variable {gap gap' rest rest' : List Char} {p : Position}

theorem skipBlanks_of_bare (h : Bare rest) (p : Position) : skipBlanks false rest p = ⟨rest, p⟩ := by
  obtain ⟨blank, comment⟩ := h
  cases rest with
  | nil => rfl
  | cons c cs =>
    have other : (c == '/' && cs.head? == some '/') = false := by
      refine Bool.eq_false_iff.2 fun slashes => comment ?_
      simp only [Bool.and_eq_true, beq_iff_eq] at slashes
      obtain ⟨rfl, second⟩ := slashes
      obtain ⟨cs, rfl⟩ := List.head?_eq_some_iff.1 second
      exact ⟨cs, rfl⟩
    simp [skipBlanks, blank c rfl, other]

/-- Within a comment all of its line is passed over. -/
theorem skipBlanks_comment {body : List Char} (line : '\n' ∉ body)
    (ends : ∀ c ∈ rest.head?, c = '\n') (p : Position) :
    skipBlanks true (body ++ rest) p = skipBlanks false rest (p.afterAll body) := by
  induction body generalizing p with
  | nil =>
    cases rest with
    | nil => rfl
    | cons c rest =>
      obtain rfl : c = '\n' := ends c rfl
      rfl
  | cons c body ih =>
    obtain ⟨own, line⟩ := List.ne_and_not_mem_of_not_mem_cons line
    have going : (c != '\n') = true := bne_iff_ne.2 own.symm
    simp only [List.cons_append, skipBlanks, if_true, going, Position.afterAll_cons]
    exact ih line (p.after c)

/-- **A gap is passed over**, up to what is behind it. -/
theorem skipBlanks_of_gap (h : Gap gap rest) (bare : Bare rest) (p : Position) :
    skipBlanks false (gap ++ rest) p = ⟨rest, p.afterAll gap⟩ := by
  induction h generalizing p with
  | none => exact skipBlanks_of_bare bare p
  | @blank c gap rest blank _ ih => simpa [skipBlanks, blank] using ih bare (p.after c)
  | @comment body gap rest line ends _ ih =>
    have opening : skipBlanks false ('/' :: '/' :: body ++ gap ++ rest) p =
        skipBlanks true ('/' :: body ++ (gap ++ rest)) (p.after '/') := by
      simp [skipBlanks, isBlank]
    rw [opening, skipBlanks_comment (by simpa using line) ends, ih bare]
    simp

/-- A text starts with one gap. -/
theorem Gap.unique (h : Gap gap rest) (h' : Gap gap' rest') (bare : Bare rest)
    (bare' : Bare rest') (place : gap' ++ rest' = gap ++ rest) : gap' = gap ∧ rest' = rest := by
  have same := skipBlanks_of_gap h bare .start
  rw [← place, skipBlanks_of_gap h' bare' .start] at same
  obtain rfl : rest' = rest := congrArg Cursor.rest same
  exact ⟨List.append_cancel_right place, rfl⟩

/-- **What is passed over is a gap**, and behind it something else
starts. In a comment the rest of the line comes before that. -/
theorem skipBlanks_spec (inComment : Bool) (cs : List Char) (p : Position) :
    ∃ gap rest, cs = gap ++ rest ∧ skipBlanks inComment cs p = ⟨rest, p.afterAll gap⟩ ∧ Bare rest ∧
      if inComment then ∃ body after, gap = body ++ after ∧ '\n' ∉ body ∧
        (∀ c ∈ (after ++ rest).head?, c = '\n') ∧ Gap after rest
      else Gap gap rest := by
  -- The state tells whether a comment is open. The gap of an open comment is given up
  -- to its line break, for only there is it known where the comment ends.
  induction cs generalizing inComment p with
  | nil =>
    refine ⟨[], [], rfl, rfl, bare_nil, ?_⟩
    cases inComment with
    | false => exact .none
    | true => exact ⟨[], [], rfl, by simp, by simp, .none⟩
  | cons c cs ih =>
    rw [skipBlanks]
    cases inComment with
    | true =>
      obtain ⟨gap, rest, rfl, skipped, bare, between⟩ := ih (c != '\n') (p.after c)
      refine ⟨c :: gap, rest, rfl, by simpa using skipped, bare, ?_⟩
      by_cases feed : c = '\n'
      · subst feed
        exact ⟨[], '\n' :: gap, rfl, by simp, by simp, .blank rfl (by simpa using between)⟩
      · obtain ⟨body, after, rfl, line, ends, more⟩ :
            ∃ body after, gap = body ++ after ∧ '\n' ∉ body ∧
              (∀ c ∈ (after ++ rest).head?, c = '\n') ∧ Gap after rest := by
          simpa [feed] using between
        exact ⟨c :: body, after, rfl, by simp [Ne.symm feed, line], ends, more⟩
    | false =>
      simp only [Bool.false_eq_true, if_false]
      split
      · next blank =>
        obtain ⟨gap, rest, rfl, skipped, bare, between⟩ := ih false (p.after c)
        exact ⟨c :: gap, rest, rfl, by simpa using skipped, bare, .blank blank (by simpa using between)⟩
      · next solid =>
        split
        · next slashes =>
          simp only [Bool.and_eq_true, beq_iff_eq] at slashes
          obtain ⟨rfl, second⟩ := slashes
          obtain ⟨gap, rest, rfl, skipped, bare, body, after, rfl, line, ends, more⟩ :=
            ih true (p.after '/')
          refine ⟨'/' :: (body ++ after), rest, rfl, by simpa using skipped, bare, ?_⟩
          cases body with
          | nil => cases ends '/' second
          | cons d body =>
            obtain rfl : d = '/' := Option.some.inj second
            exact .comment (List.not_mem_of_not_mem_cons line) ends more
        · next single =>
          refine ⟨[], c :: cs, rfl, rfl, ⟨?_, ?_⟩, .none⟩
          · rintro _ ⟨⟩
            simpa using solid
          · rintro ⟨behind, same⟩
            cases same
            simp at single

end Skip

/-! ## Readings -/

/-- **A reading of the start of a text**: `tokens` are those of `before`,
and `rest` is the rest of the text. -/
inductive Reading (source : List Char) : List Char → List Token → List Char → Prop where
  | start : Reading source [] [] source
  | token {before gap w rest : List Char} {tokens : List Token} {k : TokenKind}
      (reading : Reading source before tokens (gap ++ (w ++ rest))) (between : Gap gap (w ++ rest))
      (bare : Bare (w ++ rest)) (munch : Munch k w rest) :
      Reading source (before ++ gap ++ w)
        (tokens ++ [⟨k, String.ofList w, .behind (before ++ gap)⟩]) rest

/-- **What scanning a text comes to**: the tokens of all of it, or the
position of the first place where a token should start and none does. -/
inductive Scans (source : List Char) : Except Error (List Token) → Prop where
  | tokens {before gap : List Char} {tokens : List Token}
      (reading : Reading source before tokens gap) (between : Gap gap []) :
      Scans source (.ok tokens)
  | unmatched {before gap rest : List Char} {tokens : List Token}
      (reading : Reading source before tokens (gap ++ rest)) (between : Gap gap rest)
      (bare : Bare rest) (more : rest ≠ [])
      (unmatched : ∀ (k : TokenKind) w rest', w ++ rest' = rest → ¬k.Matches w rest') :
      Scans source (.error (.lex .unmatched (.behind (before ++ gap))))

section Readings

variable {source before before' gap gap' rest rest' : List Char} {tokens tokens' : List Token}

/-- **Nothing is lost**: the text is what was read and the rest. -/
theorem Reading.source_eq (h : Reading source before tokens rest) : source = before ++ rest := by
  induction h with
  | start => rfl
  | token _ _ _ _ ih => simpa using ih

/-- Tokens stand in the order of their positions, in front of the rest. -/
theorem Reading.ascending (h : Reading source before tokens rest) :
    tokens.Pairwise (fun t u => t.position.Before u.position) ∧
      ∀ t ∈ tokens, t.position.Before (.behind before) := by
  induction h with
  | start => exact ⟨.nil, by simp⟩
  | @token before gap w rest tokens k reading between bare munch ih =>
    obtain ⟨ordered, below⟩ := ih
    have start : ∀ t ∈ tokens, t.position.Before (.behind (before ++ gap)) := by
      intro t ht
      cases gap with
      | nil => simpa using below t ht
      | cons c gap =>
        rw [Position.behind_append]
        exact (below t ht).trans (Position.before_afterAll _ (List.cons_ne_nil c gap))
    have whole : (Position.behind (before ++ gap)).Before (.behind (before ++ gap ++ w)) := by
      rw [Position.behind_append (before ++ gap)]
      exact Position.before_afterAll _ munch.nonempty
    refine ⟨List.pairwise_append.2 ⟨ordered, List.pairwise_singleton _ _, by simpa using start⟩, ?_⟩
    intro t ht
    rcases List.mem_append.1 ht with ht | ht
    · exact (start t ht).trans whole
    · obtain rfl := List.mem_singleton.1 ht
      exact whole

/-- Of two readings the shorter one is the start of the longer one. -/
theorem Reading.prefix_of_le (h : Reading source before tokens rest)
    (h' : Reading source before' tokens' rest') (le : tokens'.length ≤ tokens.length) :
    tokens' <+: tokens ∧ (tokens'.length = tokens.length → before' = before ∧ rest' = rest) := by
  induction h generalizing before' tokens' rest' with
  | start =>
    cases h' with
    | start => exact ⟨List.prefix_refl _, fun _ => ⟨rfl, rfl⟩⟩
    | token => simp at le
  | @token before gap w rest tokens k reading between bare munch ih =>
    rcases Nat.lt_or_ge tokens.length tokens'.length with gt | shorter
    · cases h' with
      | start => simp at gt
      | @token before' gap' w' rest' tokens' k' reading' between' bare' munch' =>
        simp only [List.length_append, List.length_singleton] at le gt
        have length : tokens'.length = tokens.length := by omega
        obtain ⟨front, agree⟩ := ih reading' (Nat.le_of_eq length)
        obtain rfl := front.eq_of_length length
        obtain ⟨rfl, place⟩ := agree length
        obtain ⟨rfl, here⟩ := between.unique between' bare bare' place
        obtain ⟨rfl, rfl, rfl⟩ := munch.unique munch' here
        exact ⟨List.prefix_refl _, fun _ => ⟨rfl, rfl⟩⟩
    · refine ⟨(ih h' shorter).1.trans (List.prefix_append _ _), fun same => ?_⟩
      simp at same
      omega

/-- A reading that cannot go on is the longest one. -/
theorem Reading.prefix_of_stuck (h : Reading source before tokens (gap ++ rest))
    (between : Gap gap rest) (bare : Bare rest)
    (stuck : ∀ (k : TokenKind) w rest', w ++ rest' = rest → ¬k.Matches w rest')
    (h' : Reading source before' tokens' rest') : tokens' <+: tokens := by
  induction h' with
  | start => exact List.nil_prefix
  | @token before' gap' w rest' tokens' k reading' between' bare' munch ih =>
    rcases Nat.lt_or_ge tokens'.length tokens.length with shorter | le
    · exact (h.prefix_of_le (reading'.token between' bare' munch) (by simp; omega)).1
    · have length := Nat.le_antisymm ih.length_le le
      obtain ⟨rfl, place⟩ := (h.prefix_of_le reading' (Nat.le_of_eq length)).2 length
      obtain ⟨rfl, here⟩ := between.unique between' bare bare' place
      exact absurd munch.fits (stuck k w rest' here)

/-- The end of a text is no token. -/
theorem not_matches_nil (k : TokenKind) (w rest : List Char) (place : w ++ rest = []) :
    ¬k.Matches w rest := by
  intro h
  exact h.ne_nil (List.append_eq_nil_iff.1 place).1

/-- Two readings that cannot go on are the same. -/
theorem Reading.unique_of_stuck (h : Reading source before tokens (gap ++ rest))
    (between : Gap gap rest) (bare : Bare rest)
    (stuck : ∀ (k : TokenKind) w rest', w ++ rest' = rest → ¬k.Matches w rest')
    (h' : Reading source before' tokens' (gap' ++ rest')) (between' : Gap gap' rest')
    (bare' : Bare rest')
    (stuck' : ∀ (k : TokenKind) w rest, w ++ rest = rest' → ¬k.Matches w rest) :
    tokens' = tokens ∧ before' = before ∧ gap' = gap ∧ rest' = rest := by
  have front := h.prefix_of_stuck between bare stuck h'
  have back := h'.prefix_of_stuck between' bare' stuck' h
  have length := Nat.le_antisymm front.length_le back.length_le
  obtain ⟨rfl, place⟩ := (h.prefix_of_le h' front.length_le).2 length
  obtain ⟨rfl, rfl⟩ := between.unique between' bare bare' place
  exact ⟨front.eq_of_length length, rfl, rfl, rfl⟩

/-- **A text has one result.** -/
theorem Scans.unique {r r' : Except Error (List Token)} (h : Scans source r) (h' : Scans source r') :
    r' = r := by
  -- both results come from readings that cannot go on
  have stuck {r : Except Error (List Token)} (h : Scans source r) : ∃ before tokens gap rest,
      Reading source before tokens (gap ++ rest) ∧ Gap gap rest ∧ Bare rest ∧
      (∀ (k : TokenKind) w rest', w ++ rest' = rest → ¬k.Matches w rest') ∧
      r = if rest = [] then .ok tokens else .error (.lex .unmatched (.behind (before ++ gap))) := by
    cases h with
    | @tokens before gap tokens reading between =>
      exact ⟨before, tokens, gap, [], by simpa using reading, between, bare_nil, not_matches_nil,
        rfl⟩
    | @unmatched before gap rest tokens reading between bare more none =>
      exact ⟨before, tokens, gap, rest, reading, between, bare, none, (if_neg more).symm⟩
  obtain ⟨before, tokens, gap, rest, reading, between, bare, none, rfl⟩ := stuck h
  obtain ⟨before', tokens', gap', rest', reading', between', bare', none', rfl⟩ := stuck h'
  obtain ⟨rfl, rfl, rfl, rfl⟩ :=
    reading.unique_of_stuck between bare none reading' between' bare' none'
  rfl

end Readings

/-! ## The scanner -/

namespace Definitions

variable {source before : List Char} {tokens : List Token}

/-- What is read behind a reading belongs to one text. -/
theorem scanWithin_scans {budget : Nat} {c : Cursor} (reading : Reading source before tokens c.rest)
    (position : c.position = .behind before) (enough : c.rest.length < budget) :
    ∃ result, language.scanWithin budget c = some result ∧ Scans source (result.map (tokens ++ ·)) := by
  induction budget generalizing c before tokens with
  | zero => cases enough
  | succ budget ih =>
    obtain ⟨gap, rest, split, skipped, bare, between⟩ := skipBlanks_spec false c.rest c.position
    have between : Gap gap rest := between
    have skip : c.skip = ⟨rest, .behind (before ++ gap)⟩ := by
      rw [Cursor.skip, skipped, Position.behind_append, position]
    simp only [scanWithin, skip]
    rw [split] at reading enough
    cases rest with
    | nil =>
      rw [List.append_nil] at reading
      exact ⟨.ok [], rfl, by simpa [Except.map] using .tokens reading between⟩
    | cons d rest =>
      generalize hd : d :: rest = text at *
      have more : text ≠ [] := by simp [← hd]
      have going : text.isEmpty = false := by simp [← hd]
      simp only [going, Bool.false_eq_true, if_false, scanToken]
      cases found : language.match? text with
      | none =>
        refine ⟨_, rfl, ?_⟩
        exact .unmatched reading between bare more fun k w rest' place =>
          not_matches_of_match? found place
      | some token =>
        obtain ⟨k, n⟩ := token
        obtain ⟨w, rest, rfl, rfl, munch⟩ := munch_of_match? found
        have length : 0 < w.length := List.length_pos_iff.2 munch.nonempty
        have moved : Cursor.advance ⟨w ++ rest, .behind (before ++ gap)⟩ w.length =
            ⟨rest, .behind (before ++ gap ++ w)⟩ := by
          simp [Cursor.advance, Position.behind_append]
        simp only [Nat.ne_of_gt length, false_and, if_false, moved, List.take_left]
        obtain ⟨result, scanned, scans⟩ := ih (c := ⟨rest, .behind (before ++ gap ++ w)⟩)
          (reading.token between bare munch) rfl (by simp at enough ⊢; omega)
        refine ⟨_, by rw [scanned]; rfl, ?_⟩
        cases result with
        | error e => exact scans
        | ok more => simpa [Except.map] using scans

end Definitions

theorem scans_tokenize (source : String) : Scans source.toList (tokenize source) := by
  obtain ⟨result, scanned, scans⟩ := Definitions.scanWithin_scans
    (c := .ofSource source.toList) .start rfl (Nat.lt_succ_self _)
  have scanned : Definitions.language.scan? source.toList = some result := scanned
  rw [tokenize, scanned, Option.getD_some]
  cases result with
  | error e => exact scans
  | ok tokens => exact scans

/-- **Scanning comes to the one result that a text has.** The tokens cover
the text but for blanks and comments, each is the one that matches most at
its place, and each has the position of its first character. Where no
definition matches, the message has the position of that place. -/
theorem tokenize_eq_iff (source : String) (result : Except Error (List Token)) :
    tokenize source = result ↔ Scans source.toList result := by
  constructor
  · rintro rfl
    exact scans_tokenize source
  · intro h
    exact h.unique (scans_tokenize source)

/-- **The tokens of a text stand in the order of their positions.** -/
theorem ascending_of_tokenize {source : String} {tokens : List Token}
    (h : tokenize source = .ok tokens) :
    tokens.Pairwise fun t u => t.position.Before u.position := by
  have scans := scans_tokenize source
  rw [h] at scans
  cases scans with
  | tokens reading _ => exact reading.ascending.1

end Shading
