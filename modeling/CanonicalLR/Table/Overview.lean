import CanonicalLR.Table.Grid
import CanonicalLR.Text.Box

namespace CanonicalLR

/-! The table beside the items of its states: cells of text, the title row
first. -/

namespace Overview

def titles (grid : Grid) : List String :=
  ["#", "LR(1) item closure", "Lookahead"] ++ grid.header.drop 1

def entryText (cell : Option String) : String :=
  match cell with
  | none => ""
  | some text => if text = absentText then "" else text

/-- Items and lookaheads of a state fill one cell each, line by line. -/
def stateRow (t : Table) (grid : Grid) (index : Nat) (state : State) : List String :=
  [toString index,
   "\n".intercalate (state.items.map (·.ruleText t.grammar)),
   "\n".intercalate (state.items.map (·.lookaheadText t.grammar))] ++
    (List.range t.columns.length).map fun column => entryText (grid.cell? index column)

end Overview

/-- The rows, with the text of each cell as the cell holds it. -/
def Table.overview (t : Table) : List (List String) :=
  let grid := Grid.ofTable t
  let rows := Overview.titles grid ::
    t.automaton.states.zipIdx.map fun (state, index) =>
      Overview.stateRow t grid index state
  rows.map fun row => row.map Text.Box.cellText

end CanonicalLR
