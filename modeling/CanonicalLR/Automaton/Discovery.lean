import CanonicalLR.Automaton.Basic

namespace CanonicalLR

/-! Discovery of the states.  A state is known by its set of items; states are
numbered in the order of their discovery, and each is expanded over all symbols
when its turn comes. -/

/-- Order in which states waiting for their expansion are taken. -/
inductive Exploration where
  | breadthFirst
  | depthFirst
deriving DecidableEq

def Exploration.take : Exploration → List Nat → Option (Nat × List Nat)
  | breadthFirst, frontier =>
      match frontier with
      | [] => none
      | oldest :: rest => some (oldest, rest)
  | depthFirst, frontier =>
      frontier.getLast?.map fun newest => (newest, frontier.dropLast)

structure Discovery where
  /-- Item lists of the states found so far. -/
  found : List (List Item)
  /-- Transitions in the order in which they were followed. -/
  followed : List Transition
  /-- Found states that wait for their expansion, the oldest first. -/
  frontier : List Nat

namespace Discovery

/-- Items of state 0: the closure of the start rule, followed by the end marker. -/
def initialItems (g : Grammar) : List Item :=
  closure g [.start 0 (.singleton .endMarker)]

def start (g : Grammar) : Discovery where
  found := [initialItems g]
  followed := []
  frontier := [0]

def itemsOf (d : Discovery) (state : Nat) : List Item :=
  d.found.getD state []

/-- The state with the given items, in whatever order. -/
def stateOf? (d : Discovery) (items : List Item) : Option Nat :=
  d.found.findIdx? (State.sameItems items)

/-- Follows a symbol from a state, to a state found before or to a new one. -/
def follow (g : Grammar) (source : Nat) (d : Discovery) (symbol : Symbol) : Discovery :=
  match goto g (d.itemsOf source) symbol with
  | none => d
  | some items =>
      match d.stateOf? items with
      | some target => { d with followed := d.followed ++ [⟨source, symbol, target⟩] }
      | none =>
          let target := d.found.length
          { found := d.found ++ [items]
            followed := d.followed ++ [⟨source, symbol, target⟩]
            frontier := d.frontier ++ [target] }

def expand (g : Grammar) (d : Discovery) (source : Nat) : Discovery :=
  g.symbols.foldl (follow g source) d

def run (g : Grammar) (e : Exploration) : Nat → Discovery → Discovery
  | 0, d => d
  | budget + 1, d =>
      match e.take d.frontier with
      | none => d
      | some (source, rest) => run g e budget (expand g { d with frontier := rest } source)

def dotCount (g : Grammar) : Nat :=
  g.rules.foldr (fun rule count => rule.rhs.length + 1 + count) 0

/-- Every lookahead is the FIRST set of a symbol, so this counts the sets of
items from which states are made. -/
def bound (g : Grammar) : Nat :=
  Nat.pow 2 (dotCount g * g.symbols.length)

end Discovery

def discover (g : Grammar) (e : Exploration) : Discovery :=
  (Discovery.start g).run g e (Discovery.bound g)

end CanonicalLR
