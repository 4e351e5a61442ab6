import CanonicalLR.Table.Basic
import CanonicalLR.Text.Blank

namespace CanonicalLR

/-! The action table as a grid of texts. -/

def absentText : String := "-"

def Action.cellText : Option Action → String
  | none => absentText
  | some action => action.text

/-- A conflicting cell, as listed below the grid. -/
structure ConflictRow where
  state : Nat
  symbol : String
  entries : List String
  chosen : String
deriving DecidableEq

namespace ConflictRow

def cellText (row : ConflictRow) : String :=
  toString row.state ++ ", " ++ row.symbol

def entriesText (row : ConflictRow) : String :=
  " / ".intercalate row.entries

end ConflictRow

/-- Every row begins with the number of its state, the header with `#`. -/
structure Grid where
  header : List String
  rows : List (List String)
  conflicts : List ConflictRow
deriving DecidableEq

namespace Grid

def conflictRow (g : Grammar) (c : Conflict) : ConflictRow where
  state := c.state
  symbol := g.name c.symbol
  entries := c.competing.map Action.text
  chosen := c.chosen.text

def stateRow (t : Table) (state : Nat) : List String :=
  toString state :: t.columns.map fun symbol => Action.cellText (t.entry state symbol)

def ofTable (t : Table) : Grid where
  header := "#" :: t.columns.map t.grammar.name
  rows := (List.range t.stateCount).map (stateRow t)
  conflicts := t.conflicts.map (conflictRow t.grammar)

def cell? (grid : Grid) (state column : Nat) : Option String :=
  grid.rows[state]?.bind (·[column + 1]?)

/-! Columns are as wide as their longest cell in bytes, two blanks apart, and
blanks at the end of a line are dropped. -/

def cellWidth (cell : String) : Nat :=
  Text.byteLength cell.toList

/-- Widths that also hold the cells of a row. -/
def widen (widths : List Nat) (row : List String) : List Nat :=
  List.zipWith (fun width cell => max width (cellWidth cell)) widths row

def widths (grid : Grid) : List Nat :=
  grid.rows.foldl widen (grid.header.map cellWidth)

/-- A row as it stands before blanks at its end are dropped. -/
def aligned (widths : List Nat) (row : List String) : String :=
  "  ".intercalate (List.zipWith Text.padRight widths row)

def line (widths : List Nat) (row : List String) : String :=
  String.ofList (Text.trimRight (aligned widths row).toList)

def conflictWarning : String :=
  "WARNING: the table has conflicts, the first entry of each cell is kept"

def conflictLines (grid : Grid) : List String :=
  if grid.conflicts = [] then []
  else ["", conflictWarning, "Cell\tEntries\tChosen"] ++
    grid.conflicts.map fun row =>
      row.cellText ++ "\t" ++ row.entriesText ++ "\t" ++ row.chosen

def text (grid : Grid) : String :=
  Text.unlines ((grid.header :: grid.rows).map (line grid.widths) ++ grid.conflictLines)

end Grid
end CanonicalLR
