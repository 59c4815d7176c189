import Shading.Error
import Shading.Token.Pattern

/-!
# Token definitions

A definition set says which texts are tokens. Fixed texts are tried
first, longest first, and a fixed text that starts like a word counts
only where the word ends. Patterns are tried after them, in the order
they were added.
-/

namespace Shading

/-- A letter, a digit or an underscore. -/
def isWordChar (c : Char) : Bool := c.isAlphanum || c == '_'

/-- The number of bytes a text takes when stored. -/
def byteLength (cs : List Char) : Nat := (cs.map Char.utf8Size).sum

/-- **A token of fixed text.** -/
structure FixedToken where
  kind : TokenKind
  text : List Char

/-- A fixed text that starts with a letter or an underscore is a
keyword, which is not read from the middle of a longer word. -/
def FixedToken.isKeyword (t : FixedToken) : Bool :=
  t.text.head?.any (fun c => c.isAlpha || c == '_')

/-- Whether a text starts with the token. -/
def FixedToken.fits (t : FixedToken) (cs : List Char) : Bool :=
  t.text.isPrefixOf cs &&
    !(t.isKeyword && (cs.drop t.text.length).head?.any isWordChar)

/-- **A token described by a matcher**, which gives the length in
characters of the match at the start of a text. -/
structure MatchedToken where
  kind : TokenKind
  matchLength : List Char → Option Nat

/-- **A definition set.** -/
structure Definitions where
  /-- Fixed texts, longest first. -/
  fixed : List FixedToken
  /-- Matchers, in the order they are tried. -/
  matched : List MatchedToken

namespace Definitions

/-- The set without definitions. -/
def empty : Definitions := ⟨[], []⟩

/-- Places a fixed text behind those that are at least as long, so that
texts of one length stay in the order they were added. -/
def insertFixed (t : FixedToken) : List FixedToken → List FixedToken
  | [] => [t]
  | u :: us =>
    if byteLength t.text ≤ byteLength u.text then u :: insertFixed t us else t :: u :: us

/-- Adds a token of fixed text. -/
def addFixed (d : Definitions) (kind : TokenKind) (text : List Char) : Definitions :=
  { d with fixed := insertFixed ⟨kind, text⟩ d.fixed }

/-- Adds a token described by a matcher. -/
def addMatcher (d : Definitions) (kind : TokenKind) (matchLength : List Char → Option Nat) :
    Definitions :=
  { d with matched := d.matched ++ [⟨kind, matchLength⟩] }

/-- Adds a token described by the text of a pattern. -/
def addPattern (d : Definitions) (kind : TokenKind) (pattern : String) :
    Except Error Definitions :=
  match Pattern.ofString? pattern with
  | some p => .ok (d.addMatcher kind p.matchLength)
  | none => .error (.tokenPattern pattern)

end Definitions

/-- The matcher that takes a fixed number of bytes where a character
ends there. -/
def takeBytes : Nat → List Char → Option Nat
  | 0, _ => some 0
  | _ + 1, [] => none
  | n + 1, c :: cs =>
    if c.utf8Size ≤ n + 1 then (takeBytes (n + 1 - c.utf8Size) cs).map (· + 1) else none

/-! ## The shading language -/

/-- The fixed texts of the language. -/
def languageTexts : List (TokenKind × String) :=
  [(.int, "int"), (.float, "float"), (.bool, "bool"), (.void, "void"),
    (.vec3, "vec3"), (.vec4, "vec4"), (.mat3x3, "mat3x3"), (.mat4x4, "mat4x4"),
    (.boolLiteral, "true"), (.boolLiteral, "false"),
    (.logicalAnd, "&&"), (.logicalOr, "||"), (.logicalNot, "!"),
    (.notEquals, "!="), (.equals, "=="), (.lessEquals, "<="), (.greaterEquals, ">="),
    (.less, "<"), (.greater, ">"), (.assign, "="),
    (.add, "+"), (.addAssign, "+="), (.subtract, "-"), (.subtractAssign, "-="),
    (.multiply, "*"), (.multiplyAssign, "*="), (.divide, "/"), (.divideAssign, "/="),
    (.ifWord, "if"), (.elseWord, "else"), (.returnWord, "return"), (.forWord, "for"),
    (.whileWord, "while"),
    (.exportMark, "export"), (.uniformMark, "uniform"), (.interpolatedMark, "interpolated"),
    (.squareLeft, "["), (.squareRight, "]"), (.roundLeft, "("), (.roundRight, ")"),
    (.curlyLeft, "\x7b"), (.curlyRight, "\x7d"), (.comma, ","), (.semicolon, ";")]

/-- Decimal digits as a set. -/
def digitRanges : List (Char × Char) := [('0', '9')]

/-- Letters and the underscore as a set. -/
def letterRanges : List (Char × Char) := [('A', 'Z'), ('a', 'z'), ('_', '_')]

/-- Letters, digits and the underscore as a set. -/
def wordRanges : List (Char × Char) := [('A', 'Z'), ('a', 'z'), ('0', '9'), ('_', '_')]

/-- Digits around a point, with digits on at least one side of it. -/
def floatPattern : Pattern :=
  ⟨[[⟨digitRanges, .some⟩, ⟨[('.', '.')], .once⟩, ⟨digitRanges, .any⟩],
    [⟨[('.', '.')], .once⟩, ⟨digitRanges, .some⟩]]⟩

/-- Digits. -/
def intPattern : Pattern := ⟨[[⟨digitRanges, .some⟩]]⟩

/-- A letter or an underscore, and any number of word characters. -/
def identifierPattern : Pattern := ⟨[[⟨letterRanges, .once⟩, ⟨wordRanges, .any⟩]]⟩

/-- **The tokens of the shading language.** -/
def Definitions.language : Definitions :=
  let texts := languageTexts.foldl (fun (d : Definitions) t => d.addFixed t.1 t.2.toList) empty
  ((texts.addMatcher .floatLiteral floatPattern.matchLength).addMatcher
    .intLiteral intPattern.matchLength).addMatcher .identifier identifierPattern.matchLength

end Shading
