import Shading.Proofs.Token.Pattern
import Shading.Token.Scan

/-!
# The token at the start of a text

`TokenKind.Matches k w rest` says that a definition of the language, of
kind `k`, matches the text `w` where `rest` follows it. Many definitions
may match at one place, and one of them matches more than all others, or
as much as an identifier would: that is the token there (`Munch`). There
is never more than one such token (`Munch.unique`).

The definition set does not compare lengths. It tries the fixed texts,
longest first, and behind them three patterns of which no two could match
a text of the same length. That this comes to the same is the main
statement here (`munch_of_match?`).
-/

namespace Shading

/-! ## What the definitions match -/

/-- Whether a text starts like a word. -/
def StartsWord (text : List Char) : Prop := ∃ c ∈ text.head?, c.isAlpha = true ∨ c = '_'

/-- **A definition of the language matches a text** in front of another
one. A fixed text that is a word has to end where the word does. -/
inductive TokenKind.Matches : TokenKind → List Char → List Char → Prop where
  | fixed {kind : TokenKind} {text : String} {rest : List Char}
      (listed : (kind, text) ∈ languageTexts)
      (ends : StartsWord text.toList → ∀ c ∈ rest.head?, isWordChar c = false) :
      Matches kind text.toList rest
  | float {w rest : List Char} (spelled : floatPattern.Spells w) : Matches .floatLiteral w rest
  | int {w rest : List Char} (spelled : intPattern.Spells w) : Matches .intLiteral w rest
  | identifier {w rest : List Char} (spelled : identifierPattern.Spells w) :
      Matches .identifier w rest

/-- **The token at the start of a text**, which is `w` with `rest` behind
it. -/
structure Munch (k : TokenKind) (w rest : List Char) : Prop where
  fits : k.Matches w rest
  nonempty : w ≠ []
  /-- No definition matches more. -/
  longest : ∀ (k' : TokenKind) w' rest', w' ++ rest' = w ++ rest → k'.Matches w' rest' →
    w'.length ≤ w.length
  /-- Of the definitions that match as much, a keyword goes before an
  identifier. -/
  preferred : ∀ k' : TokenKind, k'.Matches w rest →
    k' = k ∨ (k' = .identifier ∧ ∃ text, (k, text) ∈ languageTexts ∧ w = text.toList)

/-! ## Characters -/

section Characters

open Pattern

/-- Letters are those of two ranges. -/
theorem isAlpha_eq (c : Char) : c.isAlpha = (decide (c.val ≥ 'A'.val ∧ c.val ≤ 'Z'.val) ||
    (decide (c.val ≥ 'a'.val) && decide (c.val ≤ 'z'.val))) := rfl

theorem inRanges_digitRanges (c : Char) : inRanges digitRanges c = c.isDigit := by
  rw [Bool.eq_iff_iff]
  simp [inRanges, digitRanges, Char.isDigit, Char.le_def]

theorem le_underscore_iff (c : Char) : ('_' ≤ c ∧ c ≤ '_') ↔ c = '_' :=
  ⟨fun h => Std.le_antisymm h.2 h.1, by rintro rfl; simp⟩

theorem inRanges_letterRanges (c : Char) : inRanges letterRanges c = (c.isAlpha || c == '_') := by
  rw [Bool.eq_iff_iff]
  simp [inRanges, letterRanges, isAlpha_eq, le_underscore_iff]
  simp [Char.le_def, or_assoc]

theorem inRanges_wordRanges (c : Char) : inRanges wordRanges c = isWordChar c := by
  rw [Bool.eq_iff_iff]
  simp [inRanges, wordRanges, isWordChar, Char.isAlphanum, Char.isDigit, isAlpha_eq,
    le_underscore_iff]
  simp [Char.le_def, or_assoc]

end Characters

/-! ## The first character -/

/-- How a token starts. -/
inductive Start where
  | letter
  | numeral
  | mark
deriving DecidableEq

/-- What starts with a character. -/
def Start.of (c : Char) : Start :=
  if c.isAlpha || c == '_' then .letter else if c.isDigit || c == '.' then .numeral else .mark

/-- A text starts in a way. -/
def Starts (start : Start) (text : List Char) : Prop := text.head?.map Start.of = some start

section Starts

variable {s t : Start} {w rest : List Char}

theorem Starts.unique (h : Starts s w) (h' : Starts t w) : s = t :=
  Option.some.inj (h.symm.trans h')

theorem Starts.append (h : Starts s w) (rest : List Char) : Starts s (w ++ rest) := by
  cases w with
  | nil => cases h
  | cons c w => exact h

theorem starts_letter_iff : Starts .letter w ↔ StartsWord w := by
  cases w with
  | nil => simp [Starts, StartsWord]
  | cons c w =>
    by_cases letter : c.isAlpha = true ∨ c = '_'
    · simp [Starts, StartsWord, Start.of, letter]
    · by_cases numeral : c.isDigit = true ∨ c = '.' <;>
        simp [Starts, StartsWord, Start.of, letter, numeral]

end Starts

/-! ## The fixed texts -/

set_option maxRecDepth 10000 in
/-- **A fixed text is a word or starts with a mark.** A word is one that
starts with a letter and holds no other characters than words do. -/
theorem languageTexts_split : ∀ t ∈ languageTexts, t.1 ≠ .identifier ∧
    byteLength t.2.toList = t.2.toList.length ∧ (Starts .mark t.2.toList ∨
      (Starts .letter t.2.toList ∧ ∀ c ∈ t.2.toList, isWordChar c = true)) := by
  suffices languageTexts.all (fun t => t.1 != .identifier &&
      byteLength t.2.toList == t.2.toList.length &&
      (t.2.toList.head?.map Start.of == some .mark ||
        (t.2.toList.head?.map Start.of == some .letter && t.2.toList.all isWordChar))) = true by
    intro t mem
    have := List.all_eq_true.1 this t mem
    simp only [Bool.and_eq_true, Bool.or_eq_true, bne_iff_ne, beq_iff_eq, List.all_eq_true] at this
    obtain ⟨⟨kind, bytes⟩, shape⟩ := this
    exact ⟨kind, bytes, shape⟩
  decide +kernel

set_option maxRecDepth 10000 in
/-- A fixed text has one kind. -/
theorem languageTexts_functional : ∀ t ∈ languageTexts, ∀ u ∈ languageTexts, t.2 = u.2 → t.1 = u.1 := by
  decide +kernel

namespace Definitions

/-- Fixed texts in the order they are tried, longest first. -/
def Descending (ts : List FixedToken) : Prop :=
  ts.Pairwise fun a b => byteLength b.text ≤ byteLength a.text

theorem mem_insertFixed {t u : FixedToken} {us : List FixedToken} :
    u ∈ insertFixed t us ↔ u = t ∨ u ∈ us := by
  induction us with
  | nil => simp [insertFixed]
  | cons v us ih =>
    rw [insertFixed]
    split
    · rw [List.mem_cons, ih, List.mem_cons, or_left_comm]
    · rw [List.mem_cons]

/-- **A fixed text goes behind those that are longer.** -/
theorem descending_insertFixed {t : FixedToken} {us : List FixedToken} (h : Descending us) :
    Descending (insertFixed t us) := by
  induction us with
  | nil => exact List.pairwise_singleton _ t
  | cons v us ih =>
    obtain ⟨shorter, below⟩ := List.pairwise_cons.1 h
    rw [insertFixed]
    split
    · next le =>
      refine List.pairwise_cons.2 ⟨fun u hu => ?_, ih below⟩
      rcases mem_insertFixed.1 hu with rfl | hu
      · exact le
      · exact shorter u hu
    · next lt =>
      have lt : byteLength v.text ≤ byteLength t.text := by omega
      refine List.pairwise_cons.2 ⟨fun u hu => ?_, h⟩
      rcases List.mem_cons.1 hu with rfl | hu
      · exact lt
      · exact Nat.le_trans (shorter u hu) lt

/-- Adding fixed texts one after the other. -/
theorem fixed_foldl (ts : List (TokenKind × String)) {d : Definitions} (h : Descending d.fixed) :
    let e := ts.foldl (fun (d : Definitions) t => d.addFixed t.1 t.2.toList) d
    Descending e.fixed ∧ e.matched = d.matched ∧
      ∀ u, u ∈ e.fixed ↔ u ∈ d.fixed ∨ ∃ t ∈ ts, u = ⟨t.1, t.2.toList⟩ := by
  induction ts generalizing d with
  | nil => simpa using h
  | cons t ts ih =>
    have step : Descending (d.addFixed t.1 t.2.toList).fixed := descending_insertFixed h
    obtain ⟨order, matched, mem⟩ := ih step
    refine ⟨order, matched, fun u => (mem u).trans ?_⟩
    simp only [addFixed, mem_insertFixed, List.mem_cons, exists_eq_or_imp]
    rw [or_assoc, or_left_comm]

/-- **The fixed texts of the language** are those listed, longest first. -/
theorem language_fixed : Descending language.fixed ∧
    ∀ u, u ∈ language.fixed ↔ ∃ t ∈ languageTexts, u = ⟨t.1, t.2.toList⟩ := by
  obtain ⟨order, -, mem⟩ := fixed_foldl languageTexts (d := empty) .nil
  exact ⟨order, fun u => (mem u).trans (by simp [empty])⟩

/-- The patterns of the language, in the order they are tried. -/
theorem language_matched : language.matched = [⟨.floatLiteral, floatPattern.matchLength⟩,
    ⟨.intLiteral, intPattern.matchLength⟩, ⟨.identifier, identifierPattern.matchLength⟩] := by
  obtain ⟨-, matched, -⟩ := fixed_foldl languageTexts (d := empty) .nil
  change (_ ++ _ ++ _ ++ _ : List MatchedToken) = _
  rw [matched]
  rfl

end Definitions

/-- A fixed text fits where its definition matches. -/
theorem FixedToken.fits_iff {k : TokenKind} {text cs : List Char} :
    FixedToken.fits ⟨k, text⟩ cs = true ↔
      ∃ rest, cs = text ++ rest ∧ (StartsWord text → ∀ c ∈ rest.head?, isWordChar c = false) := by
  have word : FixedToken.isKeyword ⟨k, text⟩ = true ↔ StartsWord text := by
    simp [isKeyword, StartsWord, Option.any_eq_true]
  constructor
  · intro h
    obtain ⟨front, boundary⟩ := Bool.and_eq_true_iff.1 h
    obtain ⟨rest, rfl⟩ := List.isPrefixOf_iff_prefix.1 front
    refine ⟨rest, rfl, fun starts c hc => ?_⟩
    rw [List.drop_left, word.2 starts, Option.mem_def.1 hc] at boundary
    simpa using boundary
  · rintro ⟨rest, rfl, ends⟩
    refine Bool.and_eq_true_iff.2 ⟨List.isPrefixOf_iff_prefix.2 ⟨rest, rfl⟩, ?_⟩
    cases keyword : FixedToken.isKeyword ⟨k, text⟩ with
    | false => rfl
    | true =>
      cases behind : rest.head? with
      | none => simp [behind]
      | some c => simpa [behind] using ends (word.1 keyword) c behind

/-! ## The patterns -/

section Patterns

variable {w : List Char}

theorem start_of_digit {c : Char} (h : c.isDigit = true) : Start.of c = .numeral := by
  have other : (c.isAlpha || c == '_') = false := by
    rw [Bool.or_eq_false_iff]
    constructor
    · simp only [Char.isDigit, Bool.and_eq_true, decide_eq_true_eq] at h
      simp only [isAlpha_eq, Bool.or_eq_false_iff, Bool.and_eq_false_iff, decide_eq_false_iff_not]
      grind
    · rw [beq_eq_false_iff_ne]
      rintro rfl
      cases h
  simp [Start.of, other, h]

/-- A float has a point and starts with it or with a digit. -/
theorem floatPattern_shape (h : floatPattern.Spells w) : Starts .numeral w ∧ '.' ∈ w := by
  obtain ⟨row, listed, spelled⟩ := h
  have point {u : List Char} (h : PatternItem.Takes ⟨[('.', '.')], .once⟩ u) : u = ['.'] := by
    obtain ⟨taken, count⟩ := h
    obtain ⟨c, rfl⟩ := List.length_eq_one_iff.1 count
    have inside : Pattern.inRanges [('.', '.')] c = true := taken c (List.mem_singleton_self c)
    simp only [Pattern.inRanges, List.any_cons, List.any_nil, Bool.or_false, Bool.and_eq_true,
      decide_eq_true_eq] at inside
    rw [Std.le_antisymm inside.2 inside.1]
  simp only [floatPattern, List.mem_cons, List.not_mem_nil, or_false] at listed
  rcases listed with rfl | rfl
  · cases spelled with
    | @cons _ _ u _ first more =>
      cases more with
      | @cons _ _ d v dot _ =>
        obtain rfl := point dot
        obtain ⟨c, u, rfl, digit⟩ := Pattern.PatternItem.Takes.head first (by decide)
        rw [inRanges_digitRanges] at digit
        exact ⟨by simp [Starts, start_of_digit digit], by simp⟩
  · cases spelled with
    | @cons _ _ d v dot _ =>
      obtain rfl := point dot
      exact ⟨rfl, by simp⟩

/-- An integer is made of digits. -/
theorem intPattern_shape (h : intPattern.Spells w) :
    Starts .numeral w ∧ ∀ c ∈ w, c.isDigit = true := by
  obtain ⟨row, listed, spelled⟩ := h
  obtain rfl := List.mem_singleton.1 listed
  cases spelled with
  | @cons _ _ u _ first more =>
    cases more
    obtain ⟨c, v, rfl, digit⟩ := Pattern.PatternItem.Takes.head first (by decide)
    rw [inRanges_digitRanges] at digit
    refine ⟨by simp [Starts, start_of_digit digit], fun d hd => ?_⟩
    rw [← inRanges_digitRanges]
    exact first.1 d (by simpa using hd)

/-- An identifier is a word. -/
theorem identifierPattern_shape (h : identifierPattern.Spells w) :
    Starts .letter w ∧ ∀ c ∈ w, isWordChar c = true := by
  obtain ⟨row, listed, spelled⟩ := h
  obtain rfl := List.mem_singleton.1 listed
  cases spelled with
  | @cons _ _ u _ first more =>
    obtain ⟨c, v, rfl, letter⟩ := Pattern.PatternItem.Takes.head first (by decide)
    have alone : v = [] := by simpa using first.2
    subst alone
    rw [inRanges_letterRanges] at letter
    cases more with
    | @cons _ _ v _ behind last =>
      cases last
      refine ⟨by simp [Starts, Start.of, letter], ?_⟩
      simp only [List.append_nil, List.singleton_append, List.forall_mem_cons]
      refine ⟨?_, fun d hd => by simpa [inRanges_wordRanges] using behind.1 d hd⟩
      simp only [isWordChar, Char.isAlphanum]
      rcases Bool.or_eq_true_iff.1 letter with letter | letter <;> simp [letter]

end Patterns

/-! ## The token of a place -/

section Munch

variable {k k' : TokenKind} {w w' rest rest' : List Char}

/-- Two texts that start one and the same text start alike. -/
theorem Starts.same {s t : Start} (h : Starts s w) (h' : Starts t w')
    (place : w' ++ rest' = w ++ rest) : s = t :=
  (h.append rest).unique (place ▸ h'.append rest')

/-- A word is no longer than the text it starts, if the word ends there. -/
theorem length_le_of_boundary (place : w' ++ rest' = w ++ rest)
    (word : ∀ c ∈ w', isWordChar c = true) (ends : ∀ c ∈ rest.head?, isWordChar c = false) :
    w'.length ≤ w.length := by
  rcases List.append_eq_append_iff.1 place with ⟨more, rfl, -⟩ | ⟨more, rfl, rfl⟩
  · simp
  · cases more with
    | nil => simp
    | cons c more =>
      have inside : isWordChar c = true := word c (by simp)
      rw [ends c rfl] at inside
      cases inside

/-- Digits are no longer than the text they start, if a point is in it. -/
theorem length_le_of_point (place : w' ++ rest' = w ++ rest)
    (digits : ∀ c ∈ w', c.isDigit = true) (point : '.' ∈ w) : w'.length ≤ w.length := by
  rcases List.append_eq_append_iff.1 place with ⟨more, rfl, -⟩ | ⟨more, rfl, rfl⟩
  · simp
  · exact absurd (digits '.' (List.mem_append_left more point)) (by decide)

/-- A definition does not match an empty text, and it tells how its texts
start. -/
theorem TokenKind.Matches.starts (h : k.Matches w rest) : ∃ s, Starts s w := by
  cases h with
  | @fixed _ text _ listed ends =>
    obtain ⟨-, -, mark | word⟩ := languageTexts_split _ listed
    · exact ⟨.mark, mark⟩
    · exact ⟨.letter, word.1⟩
  | float spelled => exact ⟨.numeral, (floatPattern_shape spelled).1⟩
  | int spelled => exact ⟨.numeral, (intPattern_shape spelled).1⟩
  | identifier spelled => exact ⟨.letter, (identifierPattern_shape spelled).1⟩

theorem TokenKind.Matches.ne_nil (h : k.Matches w rest) : w ≠ [] := by
  rintro rfl
  obtain ⟨s, ⟨⟩⟩ := h.starts

namespace Definitions

/-- A fixed text that is found is one of those listed. -/
theorem listed_of_find {t : FixedToken} {cs : List Char}
    (found : language.fixed.find? (fun t => t.fits cs) = some t) :
    ∃ text, (t.kind, text) ∈ languageTexts ∧ t.text = text.toList := by
  obtain ⟨⟨kind, text⟩, listed, rfl⟩ := (language_fixed.2 t).1 (List.mem_of_find?_eq_some found)
  exact ⟨text, listed, rfl⟩

/-- **The fixed text that is found is a longest one that fits.** -/
theorem length_le_of_find {t : FixedToken} {cs : List Char} {text : String}
    (found : language.fixed.find? (fun t => t.fits cs) = some t)
    (listed : (k, text) ∈ languageTexts) (fits : FixedToken.fits ⟨k, text.toList⟩ cs = true) :
    text.toList.length ≤ t.text.length := by
  obtain ⟨descending, mem⟩ := language_fixed
  obtain ⟨own, listed', same⟩ := listed_of_find found
  obtain ⟨-, before, behind, split, none⟩ := List.find?_eq_some_iff_append.1 found
  have member : (⟨k, text.toList⟩ : FixedToken) ∈ language.fixed := (mem _).2 ⟨_, listed, rfl⟩
  rw [split, List.mem_append, List.mem_cons] at member
  rcases member with front | rfl | back
  · have := none _ front
    simp [fits] at this
  · exact Nat.le_refl _
  · rw [split] at descending
    have order := (List.pairwise_cons.1 (List.pairwise_append.1 descending).2.1).1 _ back
    rwa [same, (languageTexts_split _ listed).2.1, (languageTexts_split _ listed').2.1,
      ← same] at order

/-- **A fixed text that is found is the token.** -/
theorem munch_of_fixed {t : FixedToken} {cs : List Char}
    (found : language.fixed.find? (fun t => t.fits cs) = some t) :
    ∃ rest, cs = t.text ++ rest ∧ Munch t.kind t.text rest := by
  obtain ⟨text, listed, same⟩ := listed_of_find found
  have fits : t.fits cs = true := by simpa using List.find?_some found
  have longest {k' : TokenKind} {other : String} (listed : (k', other) ∈ languageTexts) :=
    length_le_of_find found listed
  obtain ⟨kind, w⟩ := t
  obtain ⟨rest, rfl, ends⟩ := FixedToken.fits_iff.1 fits
  dsimp only at *
  obtain ⟨-, -, shape⟩ := languageTexts_split _ listed
  rw [← same] at shape
  -- what starts with no mark here is a word, and the fixed text ends where it does
  have word {s : Start} {w' rest' : List Char} (start : Starts s w')
      (place : w' ++ rest' = w ++ rest) (other : s ≠ .mark) :
      s = .letter ∧ ∀ c ∈ rest.head?, isWordChar c = false := by
    rcases shape with mark | ⟨letter, -⟩
    · exact absurd (mark.same start place).symm other
    · exact ⟨(letter.same start place).symm, ends (starts_letter_iff.1 letter)⟩
  have fits : TokenKind.Matches kind w rest := same ▸ .fixed listed (same ▸ ends)
  refine ⟨rest, rfl, fits, fits.ne_nil, fun k' w' rest' place h => ?_, fun k' h => ?_⟩
  · cases h with
    | fixed listed' ends' => exact longest listed' (FixedToken.fits_iff.2 ⟨rest', place.symm, ends'⟩)
    | float spelled => cases (word (floatPattern_shape spelled).1 place Start.noConfusion).1
    | int spelled => cases (word (intPattern_shape spelled).1 place Start.noConfusion).1
    | identifier spelled =>
      obtain ⟨start, all⟩ := identifierPattern_shape spelled
      exact length_le_of_boundary place all (word start place Start.noConfusion).2
  · cases h with
    | fixed listed' ends' =>
      exact .inl (languageTexts_functional _ listed' _ listed (String.toList_inj.1 same))
    | float spelled => cases (word (floatPattern_shape spelled).1 rfl Start.noConfusion).1
    | int spelled => cases (word (intPattern_shape spelled).1 rfl Start.noConfusion).1
    | identifier spelled => exact .inr ⟨rfl, text, listed, same⟩

/-- A pattern matches as much as any of its texts that are there. -/
theorem le_of_spells {p : Pattern} {cs : List Char} {n : Nat} (definite : p.Definite)
    (found : p.matchLength cs = some n) (spelled : p.Spells w) (place : w ++ rest = cs) :
    w.length ≤ n := by
  obtain ⟨m, matched, le⟩ := Pattern.exists_matchLength definite spelled rest
  rw [place, found] at matched
  cases matched
  exact le

theorem floatPattern_definite : floatPattern.Definite := ⟨by decide, by decide⟩

theorem intPattern_definite : intPattern.Definite := ⟨by decide, by decide⟩

theorem identifierPattern_definite : identifierPattern.Definite := ⟨by decide, by decide⟩

/-- Where a pattern matches nothing, none of its texts is. -/
theorem not_spells {p : Pattern} {cs : List Char} (definite : p.Definite)
    (none : p.matchLength cs = none) (place : w ++ rest = cs) : ¬p.Spells w := by
  intro spelled
  obtain ⟨m, matched, -⟩ := Pattern.exists_matchLength definite spelled rest
  rw [place, none] at matched
  cases matched

/-- Where no fixed text is found, none of them is. -/
theorem not_fixed {cs : List Char} {text : String}
    (none : language.fixed.find? (fun t => t.fits cs) = none) (listed : (k, text) ∈ languageTexts)
    (ends : StartsWord text.toList → ∀ c ∈ rest.head?, isWordChar c = false) :
    text.toList ++ rest ≠ cs := by
  intro place
  refine List.find?_eq_none.1 none _ ((language_fixed.2 _).2 ⟨_, listed, rfl⟩) ?_
  exact FixedToken.fits_iff.2 ⟨rest, place.symm, ends⟩

/-- **What a pattern matches is the token**, if it is at least as long as
what any definition matches there, and longer than that of another kind. -/
theorem munch_of_compared {p : Pattern} {cs : List Char} {n : Nat} (matched : p.matchLength cs = some n)
    (fits : ∀ w rest, p.Spells w → k.Matches w rest)
    (compared : ∀ w rest, w ++ rest = cs → w.length = n → p.Spells w →
      ∀ (k' : TokenKind) w' rest', w' ++ rest' = cs → k'.Matches w' rest' →
        w'.length ≤ n ∧ (w' = w → k' = k)) :
    ∃ w rest, cs = w ++ rest ∧ w.length = n ∧ Munch k w rest := by
  obtain ⟨w, rest, rfl, length, spelled⟩ := Pattern.spells_of_matchLength matched
  have compared := compared w rest rfl length spelled
  have fits := fits w rest spelled
  refine ⟨w, rest, rfl, length, fits, fits.ne_nil, fun k' w' rest' place h => ?_, fun k' h => ?_⟩
  · exact length ▸ (compared k' w' rest' place h).1
  · exact .inl ((compared k' w rest rfl h).2 rfl)

variable {cs : List Char} {n : Nat}

/-- A number with a point is the token where no fixed text is found. -/
theorem munch_of_float (none : language.fixed.find? (fun t => t.fits cs) = none)
    (float : floatPattern.matchLength cs = some n) :
    ∃ w rest, cs = w ++ rest ∧ w.length = n ∧ Munch .floatLiteral w rest := by
  refine munch_of_compared float (fun _ _ => .float) fun w rest split length spelled k' w' rest' place h => ?_
  obtain ⟨start, point⟩ := floatPattern_shape spelled
  cases h with
  | fixed listed ends => exact absurd place (not_fixed none listed ends)
  | float other => exact ⟨le_of_spells floatPattern_definite float other place, fun _ => rfl⟩
  | int other =>
    have digits := (intPattern_shape other).2
    refine ⟨length ▸ length_le_of_point (place.trans split.symm) digits point, ?_⟩
    rintro rfl
    exact absurd (digits '.' point) (by decide)
  | identifier other =>
    cases start.same (identifierPattern_shape other).1 (place.trans split.symm)

/-- Digits are the token where there is no number with a point either. -/
theorem munch_of_int (none : language.fixed.find? (fun t => t.fits cs) = none)
    (float : floatPattern.matchLength cs = .none) (int : intPattern.matchLength cs = some n) :
    ∃ w rest, cs = w ++ rest ∧ w.length = n ∧ Munch .intLiteral w rest := by
  refine munch_of_compared int (fun _ _ => .int) fun w rest split length spelled k' w' rest' place h => ?_
  have start := (intPattern_shape spelled).1
  cases h with
  | fixed listed ends => exact absurd place (not_fixed none listed ends)
  | float other => exact absurd other (not_spells floatPattern_definite float place)
  | int other => exact ⟨le_of_spells intPattern_definite int other place, fun _ => rfl⟩
  | identifier other =>
    cases start.same (identifierPattern_shape other).1 (place.trans split.symm)

/-- A word is the token where there is no number either. -/
theorem munch_of_identifier (none : language.fixed.find? (fun t => t.fits cs) = none)
    (float : floatPattern.matchLength cs = .none) (int : intPattern.matchLength cs = .none)
    (identifier : identifierPattern.matchLength cs = some n) :
    ∃ w rest, cs = w ++ rest ∧ w.length = n ∧ Munch .identifier w rest := by
  refine munch_of_compared identifier (fun _ _ => .identifier) fun w rest _ _ _ k' w' rest' place h => ?_
  cases h with
  | fixed listed ends => exact absurd place (not_fixed none listed ends)
  | float other => exact absurd other (not_spells floatPattern_definite float place)
  | int other => exact absurd other (not_spells intPattern_definite int place)
  | identifier other =>
    exact ⟨le_of_spells identifierPattern_definite identifier other place, fun _ => rfl⟩

/-- **Without a fixed text, the first pattern that matches gives the
token.** -/
theorem munch_of_pattern (none : language.fixed.find? (fun t => t.fits cs) = none)
    (found : language.matched.findSome? (fun m => (m.matchLength cs).map fun n => (m.kind, n)) =
      some (k, n)) :
    ∃ w rest, cs = w ++ rest ∧ w.length = n ∧ Munch k w rest := by
  rw [language_matched] at found
  simp only [List.findSome?_cons, List.findSome?_nil] at found
  cases float : floatPattern.matchLength cs with
  | some m =>
    rw [float] at found
    cases found
    exact munch_of_float none float
  | none =>
    cases int : intPattern.matchLength cs with
    | some m =>
      rw [float, int] at found
      cases found
      exact munch_of_int none float int
    | none =>
      cases identifier : identifierPattern.matchLength cs with
      | none => simp [float, int, identifier] at found
      | some m =>
        rw [float, int, identifier] at found
        cases found
        exact munch_of_identifier none float int identifier

/-- **What the definition set finds is the token of the place.** -/
theorem munch_of_match? (found : language.match? cs = some (k, n)) :
    ∃ w rest, cs = w ++ rest ∧ w.length = n ∧ Munch k w rest := by
  rw [match?] at found
  split at found
  · next t fixed =>
    cases found
    obtain ⟨rest, split, munch⟩ := munch_of_fixed fixed
    exact ⟨t.text, rest, split, rfl, munch⟩
  · next none => exact munch_of_pattern none found

/-- **Where the definition set finds nothing, no definition matches.** -/
theorem not_matches_of_match? (none : language.match? cs = none)
    (place : w ++ rest = cs) : ¬k.Matches w rest := by
  intro h
  rw [match?] at none
  split at none
  · cases none
  · next unlisted =>
    rw [language_matched] at none
    simp only [List.findSome?_eq_none_iff, List.forall_mem_cons, Option.map_eq_none_iff] at none
    obtain ⟨float, int, identifier, -⟩ := none
    cases h with
    | fixed listed ends => exact not_fixed unlisted listed ends place
    | float spelled => exact not_spells floatPattern_definite float place spelled
    | int spelled => exact not_spells intPattern_definite int place spelled
    | identifier spelled => exact not_spells identifierPattern_definite identifier place spelled

end Definitions

/-- **A place has one token.** -/
theorem Munch.unique (h : Munch k w rest) (h' : Munch k' w' rest')
    (place : w' ++ rest' = w ++ rest) : k' = k ∧ w' = w ∧ rest' = rest := by
  have length : w'.length = w.length :=
    Nat.le_antisymm (h.longest k' w' rest' place h'.fits) (h'.longest k w rest place.symm h.fits)
  obtain ⟨rfl, rfl⟩ := List.append_inj place length
  refine ⟨?_, rfl, rfl⟩
  rcases h.preferred k' h'.fits with same | ⟨rfl, text, listed, -⟩
  · exact same
  · rcases h'.preferred k h.fits with same | ⟨rfl, -⟩
    · exact same.symm
    · exact absurd rfl (languageTexts_split _ listed).1

end Munch

end Shading
