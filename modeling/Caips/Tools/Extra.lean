/-
Caips.Tools.Extra — the rendering of query results, after `_format_rows` in
`tools/extra.py`.

A text is the list of its characters, and a cell is its text, which is what `str`
makes of the value. `available` is a natural number: it is zero where the source
has zero or less.
-/
import Mathlib.Data.Nat.Notation

namespace Caips.Tools.Extra

abbrev Text := List Char

/-- `MAX_ROWS` -/
def maxRows : ℕ := 200

/-- `MAX_CELL_CHARS` -/
def maxCellChars : ℕ := 500

/-- `MAX_RESULT_CHARS` -/
def maxResultChars : ℕ := 20000

def marker : Text := "[output truncated]".toList

def dataLimit : ℕ := maxResultChars - marker.length - 1

/-- The cell of the last row, when there are more rows. -/
def moreRows : Text := s!"[more than {maxRows} rows; add LIMIT]".toList

/-- The variables that `append_row` writes. -/
structure Page where
  out : List Text := []
  used : ℕ := 0
  truncated : Bool := false

/-- The loop of `append_row` over the cells from an index on: the parts it adds, the
`row_used` it ends with, and whether it breaks off. -/
def appendCells (available : ℕ) : ℕ → ℕ → List Text → List Text × ℕ × Bool
  | _, rowUsed, [] => ([], rowUsed, false)
  | index, rowUsed, cell :: rest =>
    let separator : Text := if index = 0 then [] else ['\t']
    if available ≤ rowUsed + separator.length then ([], rowUsed, true)
    else
      let rowUsed := rowUsed + separator.length
      let cellLimit := min maxCellChars (available - rowUsed)
      let part := cell.take cellLimit
      let rowUsed := rowUsed + min cell.length cellLimit
      if cellLimit < cell.length then ([separator, part], rowUsed, true)
      else
        let (parts, rowUsed, broken) := appendCells available (index + 1) rowUsed rest
        (separator :: part :: parts, rowUsed, broken)

namespace Page

variable (p : Page)

def lineBreak : Text := if p.out = [] then [] else ['\n']

/-- `append_row` -/
def appendRow (values : List Text) : Page :=
  let available := dataLimit - p.used - p.lineBreak.length
  if available = 0 then { p with truncated := true }
  else
    let (parts, rowUsed, broken) := appendCells available 0 0 values
    { out := p.out ++ [p.lineBreak ++ parts.flatten]
      used := p.used + (p.lineBreak.length + rowUsed)
      truncated := p.truncated || broken }

/-- The loop over the rows. -/
def appendRows (p : Page) : List (List Text) → Page
  | [] => p
  | row :: rest => if (p.appendRow row).truncated then p.appendRow row else (p.appendRow row).appendRows rest

def text : Text := if p.truncated then p.out.flatten ++ (p.lineBreak ++ marker) else p.out.flatten

end Page

/-- `_format_rows` up to its last two lines. -/
def page (cols : List Text) (rows : List (List Text)) : Page :=
  let p := Page.appendRow {} cols
  let p := if p.truncated then p else p.appendRows (rows.take maxRows)
  if maxRows < rows.length ∧ p.truncated = false then p.appendRow [moreRows] else p

/-- `_format_rows` -/
def formatRows (cols : List Text) (rows : List (List Text)) : Text := (page cols rows).text

end Caips.Tools.Extra
