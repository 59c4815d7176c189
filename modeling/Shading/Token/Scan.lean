import Shading.Token.Definitions

/-!
# Scanning

Scanning turns source text into tokens. Blanks and comments between
tokens are passed over; a comment runs from two slashes to the end of
its line. At each place the definition set decides which token starts
there.
-/

namespace Shading

/-- **A place in a source text**: what is still to be read and where it
starts. -/
structure Cursor where
  rest : List Char
  position : Position
deriving DecidableEq

namespace Cursor

/-- The start of a text. -/
def ofSource (source : List Char) : Cursor := ⟨source, .start⟩

/-- The cursor so many characters further on. -/
def advance (c : Cursor) (count : Nat) : Cursor :=
  ⟨c.rest.drop count, c.position.afterAll (c.rest.take count)⟩

end Cursor

/-- Characters that only divide tokens. -/
def isBlank (c : Char) : Bool := c == ' ' || c == '\r' || c == '\t' || c == '\n'

/-- Passes over blanks and comments; `inComment` says whether a comment
has begun and its line has not ended. -/
def skipBlanks (inComment : Bool) : List Char → Position → Cursor
  | [], p => ⟨[], p⟩
  | c :: cs, p =>
    if inComment then skipBlanks (c != '\n') cs (p.after c)
    else if isBlank c then skipBlanks false cs (p.after c)
    else if c == '/' && cs.head? == some '/' then skipBlanks true cs (p.after c)
    else ⟨c :: cs, p⟩

/-- The cursor at the next character that is neither blank nor in a
comment. -/
def Cursor.skip (c : Cursor) : Cursor := skipBlanks false c.rest c.position

namespace Definitions

/-- **The kind and length of the token that starts a text**: the first
fixed text that fits, else the first match. -/
def match? (d : Definitions) (cs : List Char) : Option (TokenKind × Nat) :=
  match d.fixed.find? (fun t => t.fits cs) with
  | some t => some (t.kind, t.text.length)
  | none => d.matched.findSome? (fun m => (m.matchLength cs).map (fun n => (m.kind, n)))

/-- Whether a fixed text, and no matcher, decides what starts a text. -/
def fixedFits (d : Definitions) (cs : List Char) : Bool :=
  d.fixed.any (fun t => t.fits cs)

/-- **Reads one token.** A matcher that takes no character is
refused. -/
def scanToken (d : Definitions) (c : Cursor) : Except Error (Token × Cursor) :=
  match d.match? c.rest with
  | none => .error (.lex .unmatched c.position)
  | some (kind, count) =>
    if count = 0 ∧ d.fixedFits c.rest = false then .error (.lex (.stalled kind) c.position)
    else
      .ok (⟨kind, String.ofList (c.rest.take count), c.position⟩, c.advance count)

/-- Reads tokens to the end of the text, at most as many as `budget`
says; no value means that the budget ran out. -/
def scanWithin (d : Definitions) : (budget : Nat) → Cursor → Option (Except Error (List Token))
  | 0, _ => none
  | budget + 1, c =>
    let c := c.skip
    if c.rest.isEmpty then some (.ok [])
    else
      match d.scanToken c with
      | .error e => some (.error e)
      | .ok (token, next) => (d.scanWithin budget next).map (fun r => r.map (token :: ·))

/-- **The tokens of a source text.** A text has no more tokens than
characters unless a fixed text is empty, and an empty token would be
read for ever: that is the case without a value. -/
def scan? (d : Definitions) (source : List Char) : Option (Except Error (List Token)) :=
  d.scanWithin (source.length + 1) (.ofSource source)

end Definitions

/-- **The tokens of a shader.** -/
def tokenize (source : String) : Except Error (List Token) :=
  (Definitions.language.scan? source.toList).getD (.ok [])

end Shading
