import Mathlib.Data.List.Basic
import Mathlib.Data.List.Induction
import Mathlib.Data.Nat.Digits.Defs
import Shading.Parser.Shader
import Shading.Proofs.Token.Scanning

/-!
# Tokens on the lines of their source

Positions are counted character by character, and a line feed alone starts a
new line; an excerpt shows lines, which end before a carriage return and a line
feed as well. The two agree about tokens: a token stands on one line
(`TokenKind.Matches.solid`), at its column (`lines_append`), whatever the line
ends with. An excerpt about a token therefore points at it (`points_excerpt`).
-/

namespace Shading

/-! ## No token has the end of a line in it -/

/-- A text of a row is made of characters of its sets. -/
theorem Pattern.RowSpells.mem {row : List PatternItem} {w : List Char} (h : RowSpells row w) {c : Char}
    (hc : c ∈ w) : ∃ item ∈ row, inRanges item.ranges c = true := by
  induction h with
  | nil => cases hc
  | @cons item row u v first rest ih =>
    rcases List.mem_append.1 hc with hc | hc
    · exact ⟨item, List.mem_cons_self, first.1 c hc⟩
    · obtain ⟨item, member, inside⟩ := ih hc
      exact ⟨item, List.mem_cons_of_mem _ member, inside⟩

/-- A pattern without a character in its sets has no text with it. -/
theorem Pattern.Spells.not_mem {p : Pattern} {w : List Char} (h : p.Spells w) {c : Char}
    (none : p.alternatives.all (fun row => row.all fun item => !inRanges item.ranges c) = true) : c ∉ w := by
  intro hc
  obtain ⟨row, listed, spelled⟩ := h
  obtain ⟨item, member, inside⟩ := spelled.mem hc
  have outside := List.all_eq_true.1 (List.all_eq_true.1 none row listed) item member
  rw [inside] at outside
  cases outside

/-- The characters that end a line. -/
def isLineEnd (c : Char) : Bool := c == '\n' || c == '\r'

set_option maxRecDepth 10000 in
theorem languageTexts_solid : ∀ t ∈ languageTexts, ∀ c ∈ t.2.toList, isLineEnd c = false := by
  suffices languageTexts.all (fun t => t.2.toList.all fun c => !isLineEnd c) = true by
    intro t mem c hc
    simpa using List.all_eq_true.1 (List.all_eq_true.1 this t mem) c hc
  decide +kernel

/-- **No token has the end of a line in it.** -/
theorem TokenKind.Matches.solid {k : TokenKind} {w rest : List Char} (h : k.Matches w rest) :
    ∀ c ∈ w, isLineEnd c = false := by
  have apart {p : Pattern} (spelled : p.Spells w)
      (feed : p.alternatives.all (fun row => row.all fun item => !Pattern.inRanges item.ranges '\n') = true)
      (ret : p.alternatives.all (fun row => row.all fun item => !Pattern.inRanges item.ranges '\r') = true) :
      ∀ c ∈ w, isLineEnd c = false := by
    intro c hc
    refine Bool.eq_false_iff.2 fun ends => ?_
    simp only [isLineEnd, Bool.or_eq_true, beq_iff_eq] at ends
    rcases ends with rfl | rfl
    · exact spelled.not_mem feed hc
    · exact spelled.not_mem ret hc
  cases h with
  | fixed listed ends => exact languageTexts_solid _ listed
  | float spelled => exact apart spelled (by decide) (by decide)
  | int spelled => exact apart spelled (by decide) (by decide)
  | identifier spelled => exact apart spelled (by decide) (by decide)

/-- **A token stands in a text** at the position it has. -/
def Token.StandsIn (source : List Char) (t : Token) : Prop :=
  ∃ before after, source = before ++ t.lexeme.toList ++ after ∧ t.position = .behind before ∧
    t.lexeme.toList ≠ [] ∧ ∀ c ∈ t.lexeme.toList, isLineEnd c = false

theorem Reading.standsIn {source before rest : List Char} {tokens : List Token}
    (h : Reading source before tokens rest) : ∀ t ∈ tokens, t.StandsIn source := by
  induction h with
  | start =>
    intro t ht
    cases ht
  | @token before gap w rest tokens k reading between bare munch ih =>
    intro t ht
    rcases List.mem_append.1 ht with ht | ht
    · exact ih t ht
    · obtain rfl := List.mem_singleton.1 ht
      have text : (String.ofList w).toList = w := String.toList_ofList
      refine ⟨before ++ gap, rest, ?_, rfl, ?_, ?_⟩
      · rw [reading.source_eq, text]
        simp only [List.append_assoc]
      · rw [text]
        exact munch.nonempty
      · rw [text]
        exact munch.fits.solid

/-- **The tokens of a text stand in it.** -/
theorem standsIn_of_tokenize {source : String} {tokens : List Token} (h : tokenize source = .ok tokens) :
    ∀ t ∈ tokens, t.StandsIn source.toList := by
  have scans := scans_tokenize source
  rw [h] at scans
  cases scans with
  | tokens reading _ => exact reading.standsIn

namespace Text

/-! ## Lines -/

/-- A character that ends no line stands at the start of one. -/
theorem lines_cons {c : Char} {cs : List Char} (feed : c ≠ '\n') (ret : c = '\r' → cs.head? ≠ some '\n') :
    lines (c :: cs) = consToFirst c (lines cs) := by
  refine lines.eq_4 c cs feed ?_
  rintro more rfl rfl
  exact ret rfl rfl

theorem consToFirst_append (c : Char) {ls : List (List Char)} (more : ls ≠ []) (ms : List (List Char)) :
    consToFirst c (ls ++ ms) = consToFirst c ls ++ ms := by
  cases ls with
  | nil => exact absurd rfl more
  | cons l ls => rfl

theorem length_consToFirst (c : Char) {ls : List (List Char)} (more : ls ≠ []) :
    (consToFirst c ls).length = ls.length := by
  cases ls with
  | nil => exact absurd rfl more
  | cons l ls => rfl

/-- **Whole lines come first**, as many as there are line feeds. -/
theorem lines_append {whole : List Char} (ends : ∀ c ∈ whole.getLast?, c = '\n') (rest : List Char) :
    lines (whole ++ rest) = lines whole ++ lines rest ∧ (lines whole).length = whole.count '\n' := by
  fun_induction lines whole with
  | case1 => exact ⟨rfl, rfl⟩
  | case2 cs ih =>
    have ends' : ∀ c ∈ cs.getLast?, c = '\n' := fun c hc => ends c (List.mem_getLast?_cons hc)
    obtain ⟨same, count⟩ := ih ends'
    refine ⟨?_, by simp [count]⟩
    change [] :: lines (cs ++ rest) = _
    rw [same, List.cons_append]
  | case3 cs ih =>
    have ends' : ∀ c ∈ cs.getLast?, c = '\n' := fun c hc =>
      ends c (List.mem_getLast?_cons (List.mem_getLast?_cons hc))
    obtain ⟨same, count⟩ := ih ends'
    refine ⟨?_, by simp [count]⟩
    change [] :: lines (cs ++ rest) = _
    rw [same, List.cons_append]
  | case4 c cs feed ret ih =>
    -- A line feed is still to come.
    have open' : cs ≠ [] := by
      rintro rfl
      exact feed (ends c rfl)
    have ends' : ∀ c ∈ cs.getLast?, c = '\n' := fun d hd => ends d (List.mem_getLast?_cons hd)
    obtain ⟨same, count⟩ := ih ends'
    have feeds : 0 < cs.count '\n' := by
      have last := List.getLast?_eq_some_getLast open'
      rw [ends' _ last] at last
      exact List.count_pos_iff.2 (List.mem_of_getLast? last)
    have more : lines cs ≠ [] := by
      intro none
      rw [none, List.length_nil] at count
      omega
    have first (behind : List Char) : c = '\r' → (cs ++ behind).head? ≠ some '\n' := by
      rintro rfl head
      obtain ⟨d, cs, rfl⟩ := List.exists_cons_of_ne_nil open'
      obtain rfl : d = '\n' := Option.some.inj head
      exact ret cs rfl rfl
    refine ⟨?_, ?_⟩
    · rw [List.cons_append, lines_cons feed (first rest), same, consToFirst_append c more]
    · rw [length_consToFirst c more, count, List.count_cons_of_ne feed]

/-- What starts with a text that ends no line starts a line with it. -/
theorem lines_solid {w : List Char} (more : w ≠ []) (feed : '\n' ∉ w) (ret : w.getLast? ≠ some '\r')
    (rest : List Char) : ∃ behind ls, lines (w ++ rest) = (w ++ behind) :: ls := by
  induction w with
  | nil => exact absurd rfl more
  | cons c w ih =>
    obtain ⟨own, feed⟩ := List.ne_and_not_mem_of_not_mem_cons feed
    cases w with
    | nil =>
      rw [List.singleton_append, lines_cons own.symm fun same => absurd (congrArg some same) ret]
      cases lines rest with
      | nil => exact ⟨[], [], rfl⟩
      | cons l ls => exact ⟨l, ls, rfl⟩
    | cons d w =>
      obtain ⟨behind, ls, same⟩ := ih (List.cons_ne_nil d w) feed (by rwa [List.getLast?_cons_cons] at ret)
      refine ⟨behind, ls, ?_⟩
      rw [List.cons_append, lines_cons own.symm fun _ => ?_, same]
      · rfl
      · rintro ⟨⟩
        exact feed List.mem_cons_self

end Text

/-- **The line that a position is on** starts behind the last line feed. -/
theorem Position.exists_line (before : List Char) : ∃ whole current, before = whole ++ current ∧
    (∀ c ∈ whole.getLast?, c = '\n') ∧ '\n' ∉ current ∧
      behind before = ⟨whole.count '\n' + 1, current.length + 1⟩ := by
  induction before using List.reverseRecOn with
  | nil => exact ⟨[], [], rfl, by simp, by simp, rfl⟩
  | append_singleton before c ih =>
    obtain ⟨whole, current, rfl, ends, line, place⟩ := ih
    rw [behind_snoc, place]
    by_cases feed : c = '\n'
    · subst feed
      refine ⟨whole ++ current ++ ['\n'], [], by simp, by simp, by simp, ?_⟩
      simp [after, List.count_eq_zero_of_not_mem line]
    · refine ⟨whole, current ++ [c], by simp, ends, ?_, ?_⟩
      · simp [line, Ne.symm feed]
      · simp [after, feed]

namespace Text

/-- A line as it is displayed, behind its number. -/
def displayed (number : Nat) (line : List Char) : List Char := padRight 6 (decimal number) ++ line

/-- **An excerpt points at a text** at a position: its line has it there, and
is shown between its neighbours; the caret has as many characters before it as
the text has on the line that is displayed, and tabs in front of it where that
line has them. -/
def PointsAt (source lexeme : List Char) (p : Position) (message excerpt : List Char) : Prop :=
  ∃ line indent, (lines source)[p.line - 1]? = some line ∧ lexeme <+: line.drop (p.column - 1) ∧
    indent.length = 6 + (p.column - 1) ∧ lexeme <+: (displayed p.line line).drop indent.length ∧
    (∀ i < indent.length, indent[i]? =
      some (if 6 ≤ i ∧ (displayed p.line line)[i]? = some '\t' then '\t' else ' ')) ∧
    excerpt =
      (if p.line = 1 then [] else
        (lines source)[p.line - 2]?.elim [] fun l => displayed (p.line - 1) l ++ ['\n']) ++
      displayed p.line line ++ ['\n'] ++
      indent ++ ['^', ' '] ++ message ++ ['\n'] ++
      (lines source)[p.line]?.elim [] fun l => '\n' :: displayed (p.line + 1) l ++ ['\n']

end Text

/-- **A token stands on its line**, at its column. -/
theorem Token.StandsIn.line {source : List Char} {t : Token} (h : t.StandsIn source) :
    0 < t.position.line ∧ ∃ line, (Text.lines source)[t.position.line - 1]? = some line ∧
      t.lexeme.toList <+: line.drop (t.position.column - 1) := by
  obtain ⟨before, after, rfl, place, more, solid⟩ := h
  obtain ⟨whole, current, rfl, ends, line, same⟩ := Position.exists_line before
  rw [place, same]
  have feed : '\n' ∉ current ++ t.lexeme.toList := by
    intro member
    rcases List.mem_append.1 member with member | member
    · exact line member
    · exact absurd (solid _ member) (by decide)
  have ret : (current ++ t.lexeme.toList).getLast? ≠ some '\r' := by
    rw [List.getLast?_append_of_ne_nil _ more]
    intro last
    exact absurd (solid _ (List.mem_of_getLast? last)) (by decide)
  obtain ⟨behind, ls, lines⟩ := Text.lines_solid (List.append_ne_nil_of_right_ne_nil _ more) feed ret after
  obtain ⟨split, count⟩ := Text.lines_append ends (current ++ t.lexeme.toList ++ after)
  refine ⟨Nat.succ_pos _, current ++ t.lexeme.toList ++ behind, ?_, ?_⟩
  · dsimp only
    rw [List.append_assoc, List.append_assoc, ← List.append_assoc current, split, lines, Nat.add_sub_cancel,
      List.getElem?_append_right (Nat.le_of_eq count), count, Nat.sub_self]
    rfl
  · dsimp only
    rw [Nat.add_sub_cancel, List.append_assoc, List.drop_left]
    exact List.prefix_append _ _

namespace Text

/-- A number below a million takes up its field. -/
theorem length_padRight_decimal {n : Nat} (few : n < 1000000) : (padRight 6 (decimal n)).length = 6 := by
  have digits : (decimal n).length ≤ 6 := Nat.toDigits_length 10 n 6 (by decide) few
  rw [padRight, List.length_append, List.length_replicate]
  omega

/-- What stands left of a caret is as long as what is left of the column. -/
theorem getElem?_caretIndent (row : List Char) (column i : Nat) :
    (caretIndent row column)[i]? =
      if i < column - 1 then row[i]?.map fun c => if c = '\t' then '\t' else ' ' else none := by
  rw [caretIndent, List.getElem?_map, List.getElem?_take]
  split <;> rfl

/-- **An excerpt about a token points at it.** -/
theorem pointsAt_excerpt {source : List Char} {t : Token} (h : t.StandsIn source)
    (few : t.position.line < 1000000) (message : List Char) :
    PointsAt source t.lexeme.toList t.position message (excerpt source t.position message) := by
  obtain ⟨positive, row, here, stands⟩ := h.line
  obtain ⟨before, after, _, _, more, _⟩ := h
  generalize t.lexeme.toList = lexeme at *
  generalize t.position = p at *
  have field := length_padRight_decimal few
  have left : p.column - 1 < row.length := by
    have fits := stands.length_le
    rw [List.length_drop] at fits
    have := List.length_pos_iff.2 more
    omega
  have indent : (caretIndent row p.column).length = p.column - 1 := by
    rw [caretIndent, List.length_map, List.length_take, Nat.min_eq_left (Nat.le_of_lt left)]
  have whole : (List.replicate 6 ' ' ++ caretIndent row p.column).length = 6 + (p.column - 1) := by
    rw [List.length_append, List.length_replicate, indent]
  -- The line number takes six columns in front of the line, and the caret is indented
  -- by as many blanks.
  refine ⟨row, List.replicate 6 ' ' ++ caretIndent row p.column, here, stands, whole, ?_, ?_, ?_⟩
  · rw [whole, displayed]
    have behind : (padRight 6 (decimal p.line) ++ row).drop (6 + (p.column - 1)) = row.drop (p.column - 1) := by
      conv_lhs => rw [← List.drop_drop]
      rw [List.drop_left' field]
    rw [behind]
    exact stands
  · intro i hi
    rw [whole] at hi
    rw [displayed]
    by_cases number : i < 6
    · have blanks : i < (List.replicate 6 ' ').length := by rwa [List.length_replicate]
      rw [List.getElem?_append_left blanks, List.getElem?_replicate, if_pos number, if_neg (by omega)]
    · obtain ⟨j, rfl⟩ : ∃ j, i = 6 + j := ⟨i - 6, by omega⟩
      have shown : (padRight 6 (decimal p.line) ++ row)[6 + j]? = row[j]? := by
        rw [List.getElem?_append_right (by omega), field, Nat.add_sub_cancel_left]
      rw [List.getElem?_append_right (by rw [List.length_replicate]; omega), List.length_replicate,
        Nat.add_sub_cancel_left, getElem?_caretIndent, if_pos (by omega), shown]
      have inside : j < row.length := by omega
      rw [List.getElem?_eq_getElem inside, Option.map_some]
      simp
  · simp only [excerpt, here, if_neg (Nat.ne_of_gt positive), displayed, numberedLine, List.append_assoc]
    congr 1
    · split
      · rfl
      · cases (lines source)[p.line - 2]? <;> rfl
    · cases (lines source)[p.line]? with
      | none => rfl
      | some l => simp only [Option.elim_some, List.append_assoc, List.cons_append]

end Text

end Shading
