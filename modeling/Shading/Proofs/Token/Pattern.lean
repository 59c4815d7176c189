import Shading.Token.Pattern

/-!
# What a pattern matches

A pattern stands for a set of texts: those that one of its rows spells,
item by item (`Pattern.Spells`). A match is always such a text
(`Pattern.spells_of_matchLength`), but it need not be a longest one, since
the first alternative that fits is taken and a repetition takes what it
can. It is a longest one where nothing is left to choose: where the
alternatives start with different characters, and no repeated item could
take a character of the item behind it. Such patterns are *definite*, and
`Pattern.exists_matchLength` says that their matches are longest.
-/

namespace Shading

/-- **The texts that an item takes**: characters of its set, as many as its
repetition allows. -/
def PatternItem.Takes (item : PatternItem) (w : List Char) : Prop :=
  (∀ c ∈ w, Pattern.inRanges item.ranges c = true) ∧
    match item.repetition with
    | .once => w.length = 1
    | .any => True
    | .some => w ≠ []

namespace Pattern

/-- **The texts that a row spells**: one item behind the other. -/
inductive RowSpells : List PatternItem → List Char → Prop where
  | nil : RowSpells [] []
  | cons {item : PatternItem} {row : List PatternItem} {u v : List Char} (first : item.Takes u)
      (rest : RowSpells row v) : RowSpells (item :: row) (u ++ v)

/-- **The texts of a pattern.** -/
def Spells (p : Pattern) (w : List Char) : Prop := ∃ row ∈ p.alternatives, RowSpells row w

variable {test : Char → Bool} {next : List Char → Option Nat} {n : Nat} {cs : List Char}

/-! ## A match is a text of the pattern -/

theorem matchOne_eq_some (h : matchOne test next cs = some n) :
    ∃ c rest m, cs = c :: rest ∧ test c = true ∧ next rest = some m ∧ n = m + 1 := by
  cases cs with
  | nil => cases h
  | cons c rest =>
    rw [matchOne] at h
    split at h
    · next taken =>
      obtain ⟨m, hm, rfl⟩ := Option.map_eq_some_iff.1 h
      exact ⟨c, rest, m, rfl, taken, hm, rfl⟩
    · cases h

theorem matchMany_eq_some (h : matchMany test next cs = some n) :
    ∃ u rest m, cs = u ++ rest ∧ (∀ c ∈ u, test c = true) ∧ next rest = some m ∧
      n = u.length + m := by
  induction cs generalizing n with
  | nil => exact ⟨[], [], n, rfl, by simp, h, by simp⟩
  | cons c cs ih =>
    have here (h : next (c :: cs) = some n) : ∃ u rest m, c :: cs = u ++ rest ∧
        (∀ c ∈ u, test c = true) ∧ next rest = some m ∧ n = u.length + m :=
      ⟨[], c :: cs, n, rfl, by simp, h, by simp⟩
    rw [matchMany] at h
    split at h
    · next taken =>
      split at h
      · next m further =>
        obtain ⟨u, rest, k, rfl, all, hk, rfl⟩ := ih further
        cases h
        exact ⟨c :: u, rest, k, rfl, List.forall_mem_cons.2 ⟨taken, all⟩, hk, by simp; omega⟩
      · exact here h
    · exact here h

/-- **What a row matches, it spells.** -/
theorem spells_of_matchRow {row : List PatternItem} (h : matchRow row cs = some n) :
    ∃ w rest, cs = w ++ rest ∧ w.length = n ∧ RowSpells row w := by
  induction row generalizing cs n with
  | nil =>
    cases h
    exact ⟨[], cs, rfl, rfl, .nil⟩
  | cons item row ih =>
    obtain ⟨ranges, repetition⟩ := item
    rw [matchRow] at h
    cases repetition with
    | once =>
      obtain ⟨c, rest, m, rfl, taken, matched, rfl⟩ := matchOne_eq_some h
      obtain ⟨w, rest, rfl, rfl, spelled⟩ := ih matched
      exact ⟨[c] ++ w, rest, rfl, by simp, .cons ⟨by simpa using taken, rfl⟩ spelled⟩
    | any =>
      obtain ⟨u, rest, m, rfl, taken, matched, rfl⟩ := matchMany_eq_some h
      obtain ⟨w, rest, rfl, rfl, spelled⟩ := ih matched
      exact ⟨u ++ w, rest, by simp, by simp, .cons ⟨taken, trivial⟩ spelled⟩
    | some =>
      obtain ⟨c, rest, k, rfl, first, more, rfl⟩ := matchOne_eq_some h
      obtain ⟨u, rest, m, rfl, taken, matched, rfl⟩ := matchMany_eq_some more
      obtain ⟨w, rest, rfl, rfl, spelled⟩ := ih matched
      exact ⟨c :: u ++ w, rest, by simp, by simp,
        .cons ⟨List.forall_mem_cons.2 ⟨first, taken⟩, by simp⟩ spelled⟩

/-- **What a pattern matches is one of its texts.** -/
theorem spells_of_matchLength {p : Pattern} (h : p.matchLength cs = some n) :
    ∃ w rest, cs = w ++ rest ∧ w.length = n ∧ p.Spells w := by
  obtain ⟨row, listed, matched⟩ := List.exists_of_findSome?_eq_some h
  obtain ⟨w, rest, split, length, spelled⟩ := spells_of_matchRow matched
  exact ⟨w, rest, split, length, row, listed, spelled⟩

/-! ## Definite patterns -/

/-- Whether two sets have no character in common. -/
def apart (xs ys : List (Char × Char)) : Bool :=
  xs.all fun x => ys.all fun y => x.2 < y.1 || y.2 < x.1

theorem not_inRanges_of_apart {xs ys : List (Char × Char)} (h : apart xs ys = true) {c : Char}
    (hx : inRanges xs c = true) : inRanges ys c = false := by
  obtain ⟨x, memX, lo, hi⟩ : ∃ x ∈ xs, x.1 ≤ c ∧ c ≤ x.2 := by simpa [inRanges] using hx
  simp only [apart, List.all_eq_true, Bool.or_eq_true, decide_eq_true_eq] at h
  simp only [inRanges, List.any_eq_false, Bool.and_eq_true, decide_eq_true_eq, not_and, Char.not_le]
  intro y memY below
  rcases h x memX y memY with lt | lt
  · exact absurd (Std.lt_of_lt_of_le lt below) (Char.not_lt.2 hi)
  · exact Std.lt_of_lt_of_le lt lo

/-- Whether no repeated item of a row could take a character of the item
behind it, which takes one itself. -/
def isSettled : List PatternItem → Bool
  | item :: behind :: row =>
    (item.repetition == .once || (behind.repetition != .any && apart item.ranges behind.ranges)) &&
      isSettled (behind :: row)
  | _ => true

/-- Whether two rows start with different characters, and with one at
least. -/
def startApart : List PatternItem → List PatternItem → Bool
  | i :: _, j :: _ => i.repetition != .any && j.repetition != .any && apart i.ranges j.ranges
      && apart j.ranges i.ranges
  | _, _ => false

/-- **A pattern that leaves nothing to choose.** -/
structure Definite (p : Pattern) : Prop where
  settled : ∀ row ∈ p.alternatives, isSettled row = true
  apart : p.alternatives.Pairwise (fun r s => startApart r s = true)

/-- A repetition with nothing behind it takes all it can. -/
theorem exists_matchMany (always : ∀ cs, ∃ m, next cs = some m) {u : List Char}
    (taken : ∀ c ∈ u, test c = true) (rest : List Char) :
    ∃ n, matchMany test next (u ++ rest) = some n ∧ u.length ≤ n := by
  induction u with
  | nil =>
    suffices ∃ n, matchMany test next rest = some n from
      this.imp fun n h => ⟨h, Nat.zero_le n⟩
    induction rest with
    | nil => exact always []
    | cons c cs ih =>
      obtain ⟨n, further⟩ := ih
      obtain ⟨m, stop⟩ := always (c :: cs)
      simp only [matchMany, further]
      split
      · exact ⟨n + 1, rfl⟩
      · exact ⟨m, stop⟩
  | cons c u ih =>
    obtain ⟨first, taken⟩ := List.forall_mem_cons.1 taken
    obtain ⟨n, further, le⟩ := ih taken
    exact ⟨n + 1, by simp [matchMany, first, further], by simpa using le⟩

/-- A repetition ends where a character is not of its set. -/
theorem matchMany_of_stop {u rest : List Char} {m : Nat} (taken : ∀ c ∈ u, test c = true)
    (stop : ∀ c ∈ rest.head?, test c = false) (matched : next rest = some m) :
    matchMany test next (u ++ rest) = some (u.length + m) := by
  induction u with
  | nil =>
    cases rest with
    | nil => simpa [matchMany] using matched
    | cons c rest =>
      have other : test c = false := stop c rfl
      simpa [matchMany, other] using matched
  | cons c u ih =>
    obtain ⟨first, taken⟩ := List.forall_mem_cons.1 taken
    simp only [List.cons_append, matchMany, first, if_true, ih taken, List.length_cons]
    congr 1
    omega

/-- What an item takes that is not left out starts with a character of its
set. -/
theorem PatternItem.Takes.head {item : PatternItem} {w : List Char} (h : item.Takes w)
    (needed : item.repetition ≠ .any) : ∃ c u, w = c :: u ∧ inRanges item.ranges c = true := by
  obtain ⟨all, count⟩ := h
  cases w with
  | nil =>
    cases repetition : item.repetition with
    | any => exact absurd repetition needed
    | once | some => simp [repetition] at count
  | cons c u => exact ⟨c, u, rfl, all c List.mem_cons_self⟩

/-- **A settled row matches at least as much as any text that it
spells.** -/
theorem exists_matchRow {row : List PatternItem} {w : List Char} (spelled : RowSpells row w)
    (settled : isSettled row = true) (rest : List Char) :
    ∃ n, matchRow row (w ++ rest) = some n ∧ w.length ≤ n := by
  induction spelled with
  | nil => exact ⟨0, rfl, Nat.le_refl 0⟩
  | @cons item row u v first spelled ih =>
    obtain ⟨ranges, repetition⟩ := item
    obtain ⟨taken, count⟩ := first
    dsimp only at taken count
    have further : ∃ m, matchRow row (v ++ rest) = some m ∧ v.length ≤ m := by
      refine ih ?_
      cases row with
      | nil => rfl
      | cons behind row => exact (Bool.and_eq_true_iff.1 settled).2
    -- a repetition, after the characters that it takes in any case
    have repeated (many : repetition ≠ .once) {u : List Char}
        (taken : ∀ c ∈ u, inRanges ranges c = true) :
        ∃ n, matchMany (inRanges ranges) (matchRow row) (u ++ (v ++ rest)) = some n ∧
          u.length + v.length ≤ n := by
      cases spelled with
      | nil =>
        have always (cs : List Char) : ∃ m, matchRow [] cs = some m := ⟨0, rfl⟩
        simpa using exists_matchMany always taken rest
      | @cons behind row x y start spelled =>
        obtain ⟨m, matched, le⟩ := further
        have choice := (Bool.and_eq_true_iff.1 settled).1
        simp only [many, Bool.or_eq_true, beq_iff_eq, false_or, Bool.and_eq_true, bne_iff_ne] at choice
        obtain ⟨c, x, rfl, own⟩ := PatternItem.Takes.head start choice.1
        refine ⟨u.length + m, matchMany_of_stop taken ?_ matched, Nat.add_le_add_left le _⟩
        rintro _ ⟨⟩
        cases other : inRanges ranges c with
        | false => rfl
        | true =>
          rw [not_inRanges_of_apart choice.2 other] at own
          cases own
    rw [matchRow, List.append_assoc]
    cases repetition with
    | once =>
      obtain ⟨c, rfl⟩ := List.length_eq_one_iff.1 count
      obtain ⟨m, matched, le⟩ := further
      have own : inRanges ranges c = true := taken c (List.mem_singleton_self c)
      exact ⟨m + 1, by simp [matchOne, own, matched], by simp; omega⟩
    | any => simpa using repeated (by simp) taken
    | some =>
      cases u with
      | nil => exact absurd rfl count
      | cons c u =>
        obtain ⟨first, taken⟩ := List.forall_mem_cons.1 taken
        obtain ⟨n, matched, le⟩ := repeated (by simp) taken
        exact ⟨n + 1, by simp [matchOne, first, matched], by simp; omega⟩

/-- A row matches nothing where another one spells a text, if they start
apart. -/
theorem matchRow_eq_none {row other : List PatternItem} {w : List Char} (spelled : RowSpells other w)
    (away : startApart row other = true ∨ startApart other row = true) (rest : List Char) :
    matchRow row (w ++ rest) = none := by
  cases spelled with
  | nil => rcases away with away | away <;> cases row <;> cases away
  | @cons item more u v first _ =>
    cases row with
    | nil => rcases away with away | away <;> cases away
    | cons start row =>
      obtain ⟨needed, own, disjoint⟩ : start.repetition ≠ .any ∧ item.repetition ≠ .any ∧
          apart item.ranges start.ranges = true := by
        rcases away with away | away <;>
          simp only [startApart, Bool.and_eq_true, bne_iff_ne] at away
        · exact ⟨away.1.1.1, away.1.1.2, away.2⟩
        · exact ⟨away.1.1.2, away.1.1.1, away.1.2⟩
      obtain ⟨c, u, rfl, inside⟩ := PatternItem.Takes.head first own
      have outside := not_inRanges_of_apart disjoint inside
      obtain ⟨ranges, repetition⟩ := start
      rw [matchRow]
      cases repetition with
      | any => exact absurd rfl needed
      | once | some => simp [matchOne, outside]

/-- **A definite pattern matches at least as much as any of its texts.** -/
theorem exists_matchLength {p : Pattern} (definite : p.Definite) {w : List Char} (h : p.Spells w)
    (rest : List Char) : ∃ n, p.matchLength (w ++ rest) = some n ∧ w.length ≤ n := by
  obtain ⟨row, listed, spelled⟩ := h
  obtain ⟨front, behind, split⟩ := List.append_of_mem listed
  obtain ⟨n, matched, le⟩ := exists_matchRow spelled (definite.settled row listed) rest
  refine ⟨n, ?_, le⟩
  have away := definite.apart
  rw [split] at away
  -- no row in front of it matches
  have none : front.findSome? (fun r => matchRow r (w ++ rest)) = none := by
    refine List.findSome?_eq_none_iff.2 fun r hr => matchRow_eq_none spelled (.inl ?_) rest
    exact (List.pairwise_append.1 away).2.2 r hr row List.mem_cons_self
  rw [matchLength, split, List.findSome?_append, none, Option.none_or, List.findSome?_cons, matched]

end Pattern

end Shading
