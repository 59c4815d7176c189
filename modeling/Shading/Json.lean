import Shading.Text.Number

/-!
# JSON documents

A reader for JSON text. Numbers are kept as they are written, so that a
consumer can tell an integer literal from any other number. A string is
kept with its escapes resolved, or without a value if an escaped
surrogate stands alone in it: such a string is well formed and names no
text.
-/

namespace Shading

/-- **A JSON value.** -/
inductive Json where
  | null
  | bool (b : Bool)
  /-- A number, as it is written. -/
  | number (text : List Char)
  /-- A string, if its escapes name a text. -/
  | string (s : Option String)
  | array (values : List Json)
  /-- The members in the order they are written, repeated keys
  included. -/
  | object (members : List (Option String × Json))

namespace Json

/-- Passes over the blanks between tokens. -/
def skipBlanks (cs : List Char) : List Char :=
  cs.dropWhile (fun c => c == ' ' || c == '\n' || c == '\t' || c == '\r')

/-! ## Strings -/

/-- The value of four hexadecimal digits at the start of a text. -/
def readHex4 : List Char → Option (Nat × List Char)
  | a :: b :: c :: d :: cs => do
    let a ← Text.hexValue? a
    let b ← Text.hexValue? b
    let c ← Text.hexValue? c
    let d ← Text.hexValue? d
    return (((a * 16 + b) * 16 + c) * 16 + d, cs)
  | _ => none

/-- One code unit of a string: a character that stands for itself or is
escaped by a letter, or an escaped UTF-16 unit. -/
inductive Piece where
  | char (c : Char)
  | unit (n : Nat)

/-- The character that an escape letter names. -/
def escaped? : Char → Option Char
  | '"' => some '"'
  | '\\' => some '\\'
  | '/' => some '/'
  | 'b' => some '\x08'
  | 'f' => some '\x0c'
  | 'n' => some '\n'
  | 'r' => some '\r'
  | 't' => some '\t'
  | _ => none

/-- Reads the pieces of a string up to its closing quote. Control
characters have to be escaped. -/
def readPieces : (budget : Nat) → List Char → Option (List Piece × List Char)
  | 0, _ => none
  | _ + 1, [] => none
  | _ + 1, '"' :: cs => some ([], cs)
  | budget + 1, '\\' :: 'u' :: cs => do
    let (n, cs) ← readHex4 cs
    let (pieces, cs) ← readPieces budget cs
    return (.unit n :: pieces, cs)
  | budget + 1, '\\' :: c :: cs => do
    let c ← escaped? c
    let (pieces, cs) ← readPieces budget cs
    return (.char c :: pieces, cs)
  | budget + 1, c :: cs =>
    if c.toNat < 32 || c == '\\' then none
    else (readPieces budget cs).map (fun r => (.char c :: r.1, r.2))

/-- The characters that pieces name. Two surrogates in a row name one
character, and a surrogate alone names none. -/
def joinPieces : List Piece → Option (List Char)
  | [] => some []
  | .char c :: ps => (joinPieces ps).map (c :: ·)
  | .unit high :: .unit low :: ps =>
    if 0xD800 ≤ high ∧ high < 0xDC00 then
      if 0xDC00 ≤ low ∧ low < 0xE000 then
        (joinPieces ps).map
          (Char.ofNat (0x10000 + (high - 0xD800) * 0x400 + (low - 0xDC00)) :: ·)
      else none
    else if 0xDC00 ≤ high ∧ high < 0xE000 then none
    else (joinPieces (.unit low :: ps)).map (Char.ofNat high :: ·)
  | .unit n :: ps =>
    if 0xD800 ≤ n ∧ n < 0xE000 then none else (joinPieces ps).map (Char.ofNat n :: ·)

/-- Reads a string behind its opening quote. -/
def readString (cs : List Char) : Option (Option String × List Char) :=
  (readPieces (cs.length + 1) cs).map (fun r => ((joinPieces r.1).map String.ofList, r.2))

/-! ## Numbers -/

/-- Splits off the digits at the start of a text, of which there must be
at least one. -/
def readDigits (cs : List Char) : Option (List Char × List Char) :=
  match cs.takeWhile Char.isDigit with
  | [] => none
  | ds => some (ds, cs.dropWhile Char.isDigit)

/-- Reads the digits before a point: a zero alone, or digits that start
with another. -/
def readWhole : List Char → Option (List Char × List Char)
  | '0' :: cs => if cs.head?.any Char.isDigit then none else some (['0'], cs)
  | cs => readDigits cs

/-- Reads a point and the digits behind it, if a point stands here. -/
def readFraction : List Char → Option (List Char × List Char)
  | '.' :: cs => (readDigits cs).map (fun r => ('.' :: r.1, r.2))
  | cs => some ([], cs)

/-- Reads the sign and digits of an exponent behind its mark. -/
def readExponentDigits : List Char → Option (List Char × List Char)
  | '+' :: cs => (readDigits cs).map (fun r => ('+' :: r.1, r.2))
  | '-' :: cs => (readDigits cs).map (fun r => ('-' :: r.1, r.2))
  | cs => readDigits cs

/-- Reads an exponent, if one stands here. -/
def readExponent : List Char → Option (List Char × List Char)
  | 'e' :: cs => (readExponentDigits cs).map (fun r => ('e' :: r.1, r.2))
  | 'E' :: cs => (readExponentDigits cs).map (fun r => ('E' :: r.1, r.2))
  | cs => some ([], cs)

/-- Reads a number. -/
def readNumber (cs : List Char) : Option (List Char × List Char) := do
  let (sign, cs) := match cs with
    | '-' :: cs => (['-'], cs)
    | cs => ([], cs)
  let (whole, cs) ← readWhole cs
  let (fraction, cs) ← readFraction cs
  let (exponent, cs) ← readExponent cs
  return (sign ++ whole ++ fraction ++ exponent, cs)

/-! ## Values -/

mutual

/-- Reads a value, nested at most as deep as `budget` says. -/
def readValue : (budget : Nat) → List Char → Option (Json × List Char)
  | 0, _ => none
  | budget + 1, cs =>
    match skipBlanks cs with
    | 'n' :: 'u' :: 'l' :: 'l' :: cs => some (.null, cs)
    | 't' :: 'r' :: 'u' :: 'e' :: cs => some (.bool true, cs)
    | 'f' :: 'a' :: 'l' :: 's' :: 'e' :: cs => some (.bool false, cs)
    | '"' :: cs => (readString cs).map (fun r => (.string r.1, r.2))
    | '[' :: cs =>
      match skipBlanks cs with
      | ']' :: cs => some (.array [], cs)
      | cs => (readElements budget cs).map (fun r => (.array r.1, r.2))
    | '\x7b' :: cs =>
      match skipBlanks cs with
      | '\x7d' :: cs => some (.object [], cs)
      | cs => (readMembers budget cs).map (fun r => (.object r.1, r.2))
    | cs => (readNumber cs).map (fun r => (.number r.1, r.2))

/-- Reads the values of an array up to its closing bracket. -/
def readElements : (budget : Nat) → List Char → Option (List Json × List Char)
  | 0, _ => none
  | budget + 1, cs => do
    let (value, cs) ← readValue budget cs
    match skipBlanks cs with
    | ']' :: cs => return ([value], cs)
    | ',' :: cs => do
      let (values, cs) ← readElements budget cs
      return (value :: values, cs)
    | _ => none

/-- Reads the members of an object up to its closing brace. -/
def readMembers : (budget : Nat) → List Char → Option (List (Option String × Json) × List Char)
  | 0, _ => none
  | budget + 1, cs =>
    match skipBlanks cs with
    | '"' :: cs => do
      let (key, cs) ← readString cs
      match skipBlanks cs with
      | ':' :: cs => do
        let (value, cs) ← readValue budget cs
        match skipBlanks cs with
        | '\x7d' :: cs => return ([(key, value)], cs)
        | ',' :: cs => do
          let (members, cs) ← readMembers budget cs
          return ((key, value) :: members, cs)
        | _ => none
      | _ => none
    | _ => none

end

/-- **The value that a text writes**, if it writes one and nothing else.
Every nesting and every further element costs a character, which bounds
the depth of reading. -/
def ofChars? (cs : List Char) : Option Json :=
  match readValue (cs.length + 1) cs with
  | some (value, rest) => if (skipBlanks rest).isEmpty then some value else none
  | none => none

/-- The members of an object. -/
def members? : Json → Option (List (Option String × Json))
  | object members => some members
  | _ => none

/-- The value of the first member with a key. -/
def field? (j : Json) (key : String) : Option Json :=
  j.members?.bind (fun ms => (ms.find? (fun m => m.1 == some key)).map (·.2))

/-- The natural number that a number without sign, point and exponent
writes. -/
def nat? : Json → Option Nat
  | number text =>
    if text.all Char.isDigit then
      some (text.foldl (fun n c => 10 * n + (c.toNat - 48)) 0)
    else none
  | _ => none

end Json

end Shading
