import CanonicalLR.Text.Blank

namespace CanonicalLR.Text

/-! Tables of texts, drawn with borders or separated by commas. -/

namespace Box

/-! A cell holds its text by lines.  A line feed ends a line, alone or behind a
carriage return; the last line may lack its end, but is not empty then. -/

def dropReturn (line : List Char) : List Char :=
  if line.getLast? = some '\r' then line.dropLast else line

def lastLine (line : List Char) : List (List Char) :=
  if line = [] then [] else [line]

def cellLines (cell : String) : List String :=
  let stretches := lines cell.toList
  (stretches.dropLast.map dropReturn ++ stretches.getLast?.toList.flatMap lastLine).map
    String.ofList

def cellText (cell : String) : String :=
  "\n".intercalate (cellLines cell)

def cellWidth (cell : String) : Nat :=
  (cellLines cell).foldl (fun width line => max width line.length) 0

/-- Widths that also hold the cells of a row. -/
def widen : List Nat → List String → List Nat
  | widths, [] => widths
  | [], cell :: row => cellWidth cell :: widen [] row
  | width :: widths, cell :: row => max width (cellWidth cell) :: widen widths row

def border (widths : List Nat) : String :=
  "+" ++ String.join (widths.map fun width =>
    String.ofList (List.replicate (width + 2) '-') ++ "+")

/-- One line of a row; a cell with fewer lines is blank there. -/
def rowLine (widths : List Nat) (row : List String) (index : Nat) : String :=
  "|" ++ String.join (widths.zipIdx.map fun (width, column) =>
    " " ++ padRight width ((cellLines (row.getD column "")).getD index "") ++ " |")

def rowLines (widths : List Nat) (row : List String) : List String :=
  let height := row.foldl (fun height cell => max height (cellLines cell).length) 1
  (List.range height).map (rowLine widths row)

end Box

def box (rows : List (List String)) : String :=
  let widths := rows.foldl Box.widen []
  unlines (Box.border widths ::
    rows.flatMap fun row => Box.rowLines widths row ++ [Box.border widths])

/-- A field of comma-separated values.  One that would be misread stands in
quotes, and a quote in it is written twice. -/
def csvField (cell : String) : String :=
  if cell.toList.any fun c => c = ',' || c = '"' || c = '\n' || c = '\r' then
    "\"" ++ String.ofList (cell.toList.flatMap fun c =>
      if c = '"' then ['"', '"'] else [c]) ++ "\""
  else cell

def csv (rows : List (List String)) : String :=
  unlines (rows.map fun row => ",".intercalate (row.map csvField))

end CanonicalLR.Text
