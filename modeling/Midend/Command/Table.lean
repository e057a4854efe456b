/-!
# Tables in box characters

A table has a head row and further rows. Every column is as wide as its widest cell with a blank on
either side, cells start at the left, and lines of dashes part the rows.
-/

namespace Midend.Command

/-- A head row and further rows of cells. -/
structure Table where
  head : List String
  rows : List (List String)
  deriving DecidableEq, Repr

namespace Table

/-- The width of each column, its widest cell. -/
def widths (t : Table) : List Nat :=
  t.rows.foldl (fun ws row => ws.zipWith (fun w (c : String) => max w c.length) row)
    (t.head.map String.length)

/-- A line made of one character, with given characters at the ends and between columns. -/
def rule (ws : List Nat) (left fill middle right : String) : String :=
  left ++ middle.intercalate (ws.map fun w => String.join (List.replicate (w + 2) fill)) ++ right

def cell (w : Nat) (c : String) : String :=
  " " ++ c ++ String.ofList (List.replicate (w - c.length) ' ') ++ " "

def rowLine (ws : List Nat) (cells : List String) : String :=
  "│" ++ "┆".intercalate (ws.zipWith cell cells) ++ "│"

def lines (t : Table) : List String :=
  let ws := t.widths
  let between := rule ws "├" "╌" "┼" "┤"
  rule ws "┌" "─" "┬" "┐" :: rowLine ws t.head :: rule ws "╞" "═" "╪" "╡" ::
    ((t.rows.map (rowLine ws)).intersperse between ++ [rule ws "└" "─" "┴" "┘"])

/-- The text of a table, its last line not ended. -/
def text (t : Table) : String := "\n".intercalate t.lines

end Table

end Midend.Command
