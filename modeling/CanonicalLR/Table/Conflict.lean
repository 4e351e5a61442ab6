import CanonicalLR.Symbol
import CanonicalLR.Table.Action

namespace CanonicalLR

/-! Conflicts: cells of the table for which several actions were proposed. -/

/-- An action proposed for a cell that holds a different one. -/
structure Collision where
  state : Nat
  symbol : Symbol
  kept : Action
  refused : Action
deriving DecidableEq

/-- All that was proposed for one cell. -/
structure Conflict where
  state : Nat
  symbol : Symbol
  /-- The action that was proposed first and stays in the table. -/
  chosen : Action
  /-- The others, each once, in the order in which they were proposed. -/
  discarded : List Action
deriving DecidableEq

namespace Conflict

def competing (c : Conflict) : List Action :=
  c.chosen :: c.discarded

def entriesText (c : Conflict) : String :=
  " / ".intercalate (c.competing.map Action.text)

def describe (c : Conflict) : String :=
  c.entriesText ++ " (chose " ++ c.chosen.text ++ ")"

def concerns (c : Conflict) (collision : Collision) : Bool :=
  c.state = collision.state && c.symbol = collision.symbol

def discard (c : Conflict) (action : Action) : Conflict :=
  if action ∈ c.discarded then c
  else { c with discarded := c.discarded ++ [action] }

def ofCollision (collision : Collision) : Conflict where
  state := collision.state
  symbol := collision.symbol
  chosen := collision.kept
  discarded := [collision.refused]

/-- Enters a collision into a log that holds one conflict for each cell. -/
def log (conflicts : List Conflict) (collision : Collision) : List Conflict :=
  if conflicts.any (·.concerns collision) then
    conflicts.map fun c =>
      if c.concerns collision then c.discard collision.refused else c
  else conflicts ++ [ofCollision collision]

/-- Conflicts in the order in which their cells first saw a collision. -/
def ofCollisions (collisions : List Collision) : List Conflict :=
  collisions.foldl log []

end Conflict
end CanonicalLR
