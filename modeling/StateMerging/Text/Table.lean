import StateMerging.Text.Blank
import StateMerging.Text.Rendition
import StateMerging.Text.Style
import StateMerging.Text.Width

/-!
# Text tables

A table draws cells in a frame of ASCII characters, with a rule above and below every row.  Every
column is as wide as its widest line, and escape sequences take no width.
-/

namespace StateMerging.Text

def cellLines (cell : String) : List (List Char) :=
  match cell.toList.splitOnP (· = '\n') with
  | [line] => [line]
  | lines => Rendition.plain.carry lines

/-- The columns that a line takes.  What each of its segments shows is measured by itself. -/
def lineWidth (line : List Char) : Nat :=
  (segments line).foldr (fun s n => width s.shown + n) 0

def cellWidth (cell : String) : Nat := ((cellLines cell).map lineWidth).foldl max 0

def columnWidths (rows : List (List String)) : List Nat :=
  (List.range ((rows.map List.length).foldl max 0)).map fun i =>
    (rows.map fun row => cellWidth ((row[i]?).getD "")).foldl max 0

def rule (widths : List Nat) : String :=
  "+" ++ "+".intercalate (widths.map fun w => String.ofList (List.replicate (w + 2) '-')) ++ "+"

def cell (w : Nat) (line : List Char) : List Char :=
  ' ' :: line ++ List.replicate (w - lineWidth line) ' ' ++ [' ']

def rowLines (widths : List Nat) (row : List String) : List String :=
  let cells := row.map cellLines
  let height := (cells.map List.length).foldl max 0
  (List.range height).map fun i =>
    "|" ++ "|".intercalate ((widths.zip cells).map fun (w, lines) =>
      String.ofList (cell w ((lines[i]?).getD []))) ++ "|"

def tableLines (rows : List (List String)) : List String :=
  let widths := columnWidths rows
  rule widths :: rows.flatMap fun row => rowLines widths row ++ [rule widths]

/-- The text of a table, without a line feed at its end. -/
def table (rows : List (List String)) : String := "\n".intercalate (tableLines rows)

end StateMerging.Text
