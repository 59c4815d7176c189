import Shading.Position
import Shading.Text.Number

/-!
# Source excerpts

An excerpt shows the line a message is about between its neighbours,
with a caret under the column:

```text
1     int a;
2     int b = c;
              ^ Undefined symbol 'c'

3     int d;
```

Line numbers stand in a field of six characters, and the caret line
repeats the tabs of the line above it, so that the caret stays aligned
however wide a tab is shown.
-/

namespace Shading.Text

/-- Puts a character in front of the first of some lines. -/
def consToFirst (c : Char) : List (List Char) → List (List Char)
  | [] => [[c]]
  | l :: ls => (c :: l) :: ls

/-- **The lines of a text.** A line ends before a line feed, or before a
carriage return directly followed by one, and no line stands after a
line feed that ends the text. -/
def lines : List Char → List (List Char)
  | [] => []
  | '\n' :: cs => [] :: lines cs
  | '\r' :: '\n' :: cs => [] :: lines cs
  | c :: cs => consToFirst c (lines cs)

/-- A source line behind its number. -/
def numberedLine (number : Nat) (line : List Char) : List Char :=
  padRight 6 (decimal number) ++ line ++ ['\n']

/-- What stands left of a caret: a blank for each character of the line
before the column, and a tab for each tab. -/
def caretIndent (line : List Char) (column : Nat) : List Char :=
  (line.take (column - 1)).map (fun c => if c = '\t' then '\t' else ' ')

/-- **The excerpt of a message at a position**: the line before it if
there is one, the line itself, a caret with the message, and the line
after it. A position outside the text shows the message alone. -/
def excerpt (source : List Char) (p : Position) (message : List Char) : List Char :=
  let ls := lines source
  match ls[p.line - 1]? with
  | some line =>
    if p.line = 0 then message ++ ['\n']
    else
      let previous :=
        if p.line = 1 then [] else
          match ls[p.line - 2]? with
          | some l => numberedLine (p.line - 1) l
          | none => []
      let following :=
        match ls[p.line]? with
        | some l => '\n' :: numberedLine (p.line + 1) l
        | none => []
      previous ++ numberedLine p.line line ++ List.replicate 6 ' '
        ++ caretIndent line p.column ++ ['^', ' '] ++ message ++ ['\n'] ++ following
  | none => message ++ ['\n']

end Shading.Text
