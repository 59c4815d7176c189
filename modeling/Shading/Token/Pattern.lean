import Shading.Arithmetic

/-!
# Token patterns

A pattern describes the tokens that are not fixed text. It is written as
alternatives divided by a bar, each a row of character sets that may be
repeated: `[0-9]+\.[0-9]*|\.[0-9]+`. A set is a character, an escaped
character or a bracketed list of characters and ranges; `*` repeats it
any number of times and `+` at least once.

Matching takes the first alternative that fits the start of a text, and
in it every repetition takes as much as the rest of the row allows.
-/

namespace Shading

/-- How often a character set is taken. -/
inductive Repetition where
  | once
  | any
  | some
deriving DecidableEq

/-- A character set, given by closed ranges, with its repetition. -/
structure PatternItem where
  ranges : List (Char × Char)
  repetition : Repetition
deriving DecidableEq

/-- **A pattern**: alternatives, each a row of items. -/
structure Pattern where
  alternatives : List (List PatternItem)
deriving DecidableEq

namespace Pattern

/-- Whether a character is in one of the ranges. -/
def inRanges (ranges : List (Char × Char)) (c : Char) : Bool :=
  ranges.any (fun r => r.1 ≤ c && c ≤ r.2)

/-! ## Matching -/

/-- Takes characters as long as the test holds and the rest of the row
still fits; `next` matches the rest of the row. -/
def matchMany (test : Char → Bool) (next : List Char → Option Nat) : List Char → Option Nat
  | [] => next []
  | c :: cs =>
    if test c then
      match matchMany test next cs with
      | some n => some (n + 1)
      | none => next (c :: cs)
    else next (c :: cs)

/-- Takes one character that passes the test. -/
def matchOne (test : Char → Bool) (next : List Char → Option Nat) : List Char → Option Nat
  | [] => none
  | c :: cs => if test c then (next cs).map (· + 1) else none

/-- The length of the match of a row of items at the start of a text. -/
def matchRow : List PatternItem → List Char → Option Nat
  | [], _ => some 0
  | item :: row, cs =>
    let test := inRanges item.ranges
    match item.repetition with
    | .once => matchOne test (matchRow row) cs
    | .any => matchMany test (matchRow row) cs
    | .some => matchOne test (matchMany test (matchRow row)) cs

/-- **The length in characters of the match at the start of a text**,
that of the first alternative that fits. -/
def matchLength (p : Pattern) (cs : List Char) : Option Nat :=
  p.alternatives.findSome? (fun row => matchRow row cs)

/-! ## Reading a pattern -/

/-- Characters that mean something other than themselves. -/
def isOperator (c : Char) : Bool :=
  "\\.+*?()|[]\x7b\x7d^$".toList.contains c

/-- Reads the inside of a bracketed set up to its closing bracket. -/
def readSet : List Char → Option (List (Char × Char) × List Char)
  | [] => none
  | ']' :: cs => some ([], cs)
  | c :: '-' :: d :: cs =>
    if isOperator c || isOperator d || d < c then none
    else (readSet cs).map (fun r => ((c, d) :: r.1, r.2))
  | c :: cs =>
    if isOperator c || c == '-' then none
    else (readSet cs).map (fun r => ((c, c) :: r.1, r.2))

/-- Reads one character set at the start of a text. -/
def readItem : List Char → Option (List (Char × Char) × List Char)
  | [] => none
  | '\\' :: c :: cs => if isOperator c then some ([(c, c)], cs) else none
  | '[' :: cs =>
    match readSet cs with
    | some ([], _) => none
    | r => r
  | c :: cs => if isOperator c then none else some ([(c, c)], cs)

/-- Reads the repetition mark behind a character set. -/
def readRepetition : List Char → Repetition × List Char
  | '*' :: cs => (.any, cs)
  | '+' :: cs => (.some, cs)
  | cs => (.once, cs)

/-- Reads rows of items divided by bars, at most as many items as
`budget` says. -/
def readRows : (budget : Nat) → List PatternItem → List Char → Option (List (List PatternItem))
  | _, row, [] => some [row.reverse]
  | 0, _, _ => none
  | budget + 1, row, '|' :: cs =>
    (readRows budget [] cs).map (row.reverse :: ·)
  | budget + 1, row, cs =>
    match readItem cs with
    | none => none
    | some (ranges, cs) =>
      let (repetition, cs) := readRepetition cs
      readRows budget (⟨ranges, repetition⟩ :: row) cs

/-- **The pattern written by a text**, if it is well formed. Each item
is at least one character long, which bounds their number. -/
def ofString? (s : String) : Option Pattern :=
  (readRows (s.length + 1) [] s.toList).map Pattern.mk

end Pattern

end Shading
