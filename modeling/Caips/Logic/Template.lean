/-
Caips.Logic.Template — templates with `$name` and `${name}` placeholders.

`scan` cuts a template into pieces: literal text, and names with the text they
were written as. `$$` is a dollar sign; a dollar sign that starts no placeholder
is text. A placeholder whose name has no value stays as it was written. What is
put in for a name is not scanned again, so the result is the literal pieces
with the values between them, in order (`substitute`). Nothing in this file
knows what is being verified.
-/
import Mathlib.Data.List.Basic

namespace Caips.Logic

namespace Template

/-- A piece of a template. -/
inductive Piece where
  | text (l : List Char)
  | var (name written : List Char)
  deriving DecidableEq

/-- The first character of a name. -/
def isNameStart (c : Char) : Bool := c.isAlpha || c == '_'

/-- The further characters of a name. -/
def isNameChar (c : Char) : Bool := isNameStart c || c.isDigit

/-- Where the scanner is: in text, after a dollar sign, in a name, or in a name
in braces; what it has read of the name is kept backwards. -/
inductive Mode where
  | plain
  | dollar
  | named (read : List Char)
  | braced (read : List Char)

/-- The pieces of a template. -/
def scan : Mode → List Char → List Piece
  | .plain, [] => []
  | .plain, c :: l => if c = '$' then scan .dollar l else .text [c] :: scan .plain l
  | .dollar, [] => [.text ['$']]
  | .dollar, c :: l =>
    if c = '$' then .text ['$'] :: scan .plain l
    else if isNameStart c then scan (.named [c]) l
    else if c = '{' then scan (.braced []) l
    else .text ['$', c] :: scan .plain l
  | .named read, [] => [.var read.reverse ('$' :: read.reverse)]
  | .named read, c :: l =>
    if isNameChar c then scan (.named (c :: read)) l
    else .var read.reverse ('$' :: read.reverse) ::
      if c = '$' then scan .dollar l else .text [c] :: scan .plain l
  | .braced read, [] => [.text ('$' :: '{' :: read.reverse)]
  | .braced read, c :: l =>
    if c = '}' ∧ read ≠ [] then
      .var read.reverse ('$' :: '{' :: read.reverse ++ ['}']) :: scan .plain l
    else if isNameStart c ∨ (isNameChar c ∧ read ≠ []) then scan (.braced (c :: read)) l
    else .text ('$' :: '{' :: read.reverse) ::
      if c = '$' then scan .dollar l else .text [c] :: scan .plain l

/-- The text of a piece under these values. -/
def Piece.fill (values : List Char → Option (List Char)) : Piece → List Char
  | .text l => l
  | .var name written => (values name).getD written

/-- The template with values put in. -/
def substitute (values : List Char → Option (List Char)) (template : List Char) : List Char :=
  (scan .plain template).flatMap (Piece.fill values)

example : substitute (fun n => if n = "a".toList then some "$b".toList else none)
    "$\x7ba\x7d $a$$ $c $\x7ba- $".toList = "$b $b$ $c $\x7ba- $".toList := by decide +kernel

end Template

end Caips.Logic
