import Shading.Proofs.Token.Scanning

/-!
# When scanning ends

Scanning goes on for as long as tokens are found, and what makes it end is
that each token takes some of the text. A matcher that takes nothing is
refused, so it is never the reason why a scan goes on for ever. A fixed
text is not checked: an empty one takes nothing wherever it is the first
that fits, and from there on the same empty token is read again and again.

`Definitions.Reads` is the course of a scan without a bound on its length.
It shows that this is the only way not to end: a scan has a result just
when its course never comes to a place where an empty fixed text is the
first that fits (`Definitions.scanWithin_ends_iff`). So every set without
empty fixed texts scans every text, whatever its matchers do
(`Definitions.exists_scan?_of_whole`).
-/

namespace Shading

/-! ## Passing over blanks -/

theorem Cursor.bare_skip (c : Cursor) : Bare c.skip.rest := by
  obtain ⟨gap, rest, -, skipped, bare, -⟩ := skipBlanks_spec false c.rest c.position
  rw [Cursor.skip, skipped]
  exact bare

/-- What has been passed over once is not there any more. -/
@[simp] theorem Cursor.skip_skip (c : Cursor) : c.skip.skip = c.skip :=
  skipBlanks_of_bare c.bare_skip _

/-- Passing over blanks makes nothing longer. -/
theorem Cursor.length_skip_le (c : Cursor) : c.skip.rest.length ≤ c.rest.length := by
  obtain ⟨gap, rest, split, skipped, -⟩ := skipBlanks_spec false c.rest c.position
  rw [Cursor.skip, skipped, split, List.length_append]
  exact Nat.le_add_left _ _

theorem Cursor.length_advance (c : Cursor) (count : Nat) :
    (c.advance count).rest.length = c.rest.length - count := by
  simp [Cursor.advance]

@[simp] theorem Cursor.advance_zero (c : Cursor) : c.advance 0 = c := by
  simp [Cursor.advance]

namespace Definitions

variable {d : Definitions} {c c' : Cursor} {token : Token}

/-! ## One token -/

/-- The first fixed text that fits is empty. -/
def EmptyFits (d : Definitions) (cs : List Char) : Prop :=
  ∃ t, d.fixed.find? (fun t => t.fits cs) = some t ∧ t.text = []

/-- A text is read as a fixed token if one fits. -/
theorem fixedFits_eq_isSome (d : Definitions) (cs : List Char) :
    d.fixedFits cs = (d.fixed.find? fun t => t.fits cs).isSome := by
  rw [Bool.eq_iff_iff, List.find?_isSome, fixedFits, List.any_eq_true]

/-- **What one token comes to.** No definition matches; or the matcher whose
turn it is takes nothing, which is refused; or a token is read that takes
some of the text; or it takes nothing, and then the first fixed text that
fits is empty. -/
theorem scanToken_cases (d : Definitions) (c : Cursor) :
    (d.match? c.rest = none ∧ d.scanToken c = .error (.lex .unmatched c.position)) ∨
      (∃ kind, d.match? c.rest = some (kind, 0) ∧ d.fixedFits c.rest = false ∧
        d.scanToken c = .error (.lex (.stalled kind) c.position)) ∨
      (∃ kind count, d.match? c.rest = some (kind, count) ∧ 0 < count ∧
        d.scanToken c = .ok (⟨kind, String.ofList (c.rest.take count), c.position⟩, c.advance count)) ∨
      ∃ token, d.EmptyFits c.rest ∧ d.scanToken c = .ok (token, c) := by
  rw [scanToken]
  cases found : d.match? c.rest with
  | none => exact .inl ⟨rfl, rfl⟩
  | some result =>
    obtain ⟨kind, count⟩ := result
    dsimp only
    rcases Nat.eq_zero_or_pos count with rfl | taken
    · rw [fixedFits_eq_isSome]
      cases first : d.fixed.find? (fun t => t.fits c.rest) with
      | none => exact .inr (.inl ⟨kind, rfl, rfl, if_pos ⟨rfl, rfl⟩⟩)
      | some t =>
        refine .inr (.inr (.inr ⟨⟨kind, "", c.position⟩, ⟨t, first, ?_⟩, by simp⟩))
        simp only [match?, first, Option.some.injEq, Prod.mk.injEq] at found
        exact List.length_eq_zero_iff.1 found.2
    · exact .inr (.inr (.inl ⟨kind, count, rfl, taken, if_neg fun none => Nat.ne_of_gt taken none.1⟩))

/-- **A token that is read takes some of the text**, or the first fixed text
that fits is empty and the place stays the same. -/
theorem scanToken_advances (read : d.scanToken c = .ok (token, c')) (more : c.rest ≠ []) :
    c'.rest.length < c.rest.length ∨ (d.EmptyFits c.rest ∧ c' = c) := by
  rcases d.scanToken_cases c with ⟨-, refused⟩ | ⟨kind, -, -, refused⟩ | ⟨kind, count, -, taken, ok⟩ |
    ⟨same, empty, ok⟩
  · rw [refused] at read
    cases read
  · rw [refused] at read
    cases read
  · rw [ok] at read
    cases read
    have := List.length_pos_iff.2 more
    rw [Cursor.length_advance]
    exact .inl (by omega)
  · rw [ok] at read
    cases read
    exact .inr ⟨empty, rfl⟩

/-- Where the first fixed text that fits is empty, a token is read and
nothing is taken. -/
theorem EmptyFits.scanToken (h : d.EmptyFits c.rest) : ∃ token, d.scanToken c = .ok (token, c) := by
  obtain ⟨t, first, empty⟩ := h
  have fits : d.fixedFits c.rest = true := by rw [fixedFits_eq_isSome, first, Option.isSome_some]
  exact ⟨⟨t.kind, "", c.position⟩, by simp [Definitions.scanToken, match?, first, empty, fits]⟩

/-! ## The course of a scan -/

/-- **The course of a scan**: some tokens are read one after the other, and
blanks are passed over in front of each. -/
inductive Reads (d : Definitions) : Cursor → List Token → Cursor → Prop where
  | start (c : Cursor) : Reads d c [] c
  | token {c c' c'' : Cursor} {token : Token} {tokens : List Token} (more : c.skip.rest ≠ [])
      (read : d.scanToken c.skip = .ok (token, c')) (later : Reads d c' tokens c'') :
      Reads d c (token :: tokens) c''

/-- A scan stands still: there is more to read, and the first fixed text
that fits is empty. -/
def Stuck (d : Definitions) (c : Cursor) : Prop := c.skip.rest ≠ [] ∧ d.EmptyFits c.skip.rest

/-- **The scan of a text comes to a stand.** -/
def Stalls (d : Definitions) (c : Cursor) : Prop := ∃ tokens c', d.Reads c tokens c' ∧ d.Stuck c'

theorem scanWithin_token {token : Token} {next : Cursor} (budget : Nat) (more : c.skip.rest ≠ [])
    (read : d.scanToken c.skip = .ok (token, next)) :
    d.scanWithin (budget + 1) c = (d.scanWithin budget next).map fun r => r.map (token :: ·) := by
  simp only [scanWithin, List.isEmpty_iff, if_neg more, read]

theorem scanWithin_error {e : Error} (budget : Nat) (more : c.skip.rest ≠ [])
    (read : d.scanToken c.skip = .error e) : d.scanWithin (budget + 1) c = some (.error e) := by
  simp only [scanWithin, List.isEmpty_iff, if_neg more, read]

/-- A scan that stands still never ends: the next token is read at the same
place. -/
theorem Stuck.scanWithin (h : d.Stuck c) (budget : Nat) : d.scanWithin budget c = none := by
  induction budget generalizing c with
  | zero => rfl
  | succ budget ih =>
    obtain ⟨token, read⟩ := h.2.scanToken
    have still : d.Stuck c.skip := by
      rw [Stuck, Cursor.skip_skip]
      exact h
    rw [scanWithin_token budget h.1 read, ih still, Option.map_none]

/-- **A scan that comes to a stand never ends.** -/
theorem Stalls.scanWithin (h : d.Stalls c) (budget : Nat) : d.scanWithin budget c = none := by
  obtain ⟨tokens, c', reads, stuck⟩ := h
  induction reads generalizing budget with
  | start c => exact stuck.scanWithin budget
  | token more read _ ih =>
    cases budget with
    | zero => rfl
    | succ budget =>
      rw [scanWithin_token budget more read, ih budget stuck, Option.map_none]

/-- **A scan that never comes to a stand ends**: it takes one token more than
there are characters at the most. The induction is on the bound, which each
token lowers by one and the rest of the text by more. -/
theorem exists_scanWithin {budget : Nat} (moves : ¬ d.Stalls c) (enough : c.rest.length < budget) :
    ∃ result, d.scanWithin budget c = some result := by
  induction budget generalizing c with
  | zero => omega
  | succ budget ih =>
    by_cases more : c.skip.rest = []
    · exact ⟨.ok [], by simp [Definitions.scanWithin, more]⟩
    · cases read : d.scanToken c.skip with
      | error e => exact ⟨.error e, scanWithin_error budget more read⟩
      | ok result =>
        obtain ⟨token, next⟩ := result
        have shorter : next.rest.length < c.skip.rest.length := by
          refine (scanToken_advances read more).resolve_right fun still => moves ?_
          exact ⟨[], c, .start c, more, still.1⟩
        have moves' : ¬ d.Stalls next := by
          rintro ⟨tokens, c', reads, stuck⟩
          exact moves ⟨_, c', .token more read reads, stuck⟩
        obtain ⟨result, rest⟩ := ih moves' (by have := c.length_skip_le; omega)
        exact ⟨_, by rw [scanWithin_token budget more read, rest, Option.map_some]⟩

/-- The budget of `scan?` suffices for a scan that never comes to a
stand. -/
theorem exists_scan? {source : List Char} (moves : ¬ d.Stalls (.ofSource source)) :
    ∃ result, d.scan? source = some result :=
  exists_scanWithin moves (Nat.lt_succ_self _)

/-- **When scanning ends.** Whatever the matchers report, a text is scanned
to a result just when its scan never comes to a place where an empty fixed
text is the first that fits, and the budget of `scan?` suffices for it. -/
theorem scanWithin_ends_iff (d : Definitions) (source : List Char) :
    ((∃ budget result, d.scanWithin budget (.ofSource source) = some result) ↔
        ¬ d.Stalls (.ofSource source)) ∧
      ((∃ result, d.scan? source = some result) ↔ ¬ d.Stalls (.ofSource source)) := by
  have never {budget : Nat} {result : Except Error (List Token)}
      (ended : d.scanWithin budget (.ofSource source) = some result) : ¬ d.Stalls (.ofSource source) :=
    fun stalls => by simp [stalls.scanWithin budget] at ended
  refine ⟨⟨?_, fun moves => ⟨_, exists_scan? moves⟩⟩, ?_, exists_scan?⟩
  · rintro ⟨budget, result, ended⟩
    exact never ended
  · rintro ⟨result, ended⟩
    exact never ended

/-- A set without empty fixed texts never stands still. -/
theorem not_stalls (whole : ∀ t ∈ d.fixed, t.text ≠ []) (c : Cursor) : ¬ d.Stalls c := by
  rintro ⟨tokens, c', -, -, t, first, empty⟩
  exact whole t (List.mem_of_find?_eq_some first) empty

/-- **A set without empty fixed texts scans every text.** -/
theorem exists_scan?_of_whole (whole : ∀ t ∈ d.fixed, t.text ≠ []) (source : List Char) :
    ∃ result, d.scan? source = some result :=
  exists_scan? (not_stalls whole _)

/-- **An empty fixed text is read for ever**: with nothing else to match, a
letter is never passed. -/
theorem scanWithin_emptyText :
    ¬ ∃ budget result,
      (empty.addFixed .identifier []).scanWithin budget (.ofSource ['a']) = some result := by
  have stalls : (empty.addFixed .identifier []).Stalls (.ofSource ['a']) :=
    ⟨[], _, .start _, by decide, ⟨.identifier, []⟩, rfl, rfl⟩
  rintro ⟨budget, result, ended⟩
  rw [stalls.scanWithin budget] at ended
  cases ended

end Definitions

end Shading
