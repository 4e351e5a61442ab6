import CanonicalLR.Automaton.Discovery

namespace CanonicalLR

/-! Renumbering of discovered states breadth first from state 0, which makes
the numbers independent of the order of discovery. -/

namespace Numbering

def targets (followed : List Transition) (source : Nat) : List Nat :=
  (followed.filter fun transition => transition.source = source).map
    Transition.target

/-- Lists states in the order in which a breadth-first walk meets them.  Every
pending state is already listed. -/
def walk (followed : List Transition) : Nat → List Nat → List Nat → List Nat
  | 0, listed, _ => listed
  | _ + 1, listed, [] => listed
  | budget + 1, listed, source :: pending =>
      let fresh := ((targets followed source).filter (!listed.contains ·)).eraseDups
      walk followed budget (listed ++ fresh) (pending ++ fresh)

def order (d : Discovery) : List Nat :=
  walk d.followed d.found.length [0] [0]

def number (order : List Nat) (state : Nat) : Nat :=
  order.idxOf state

def renumber (order : List Nat) (transition : Transition) : Transition where
  source := number order transition.source
  symbol := transition.symbol
  target := number order transition.target

end Numbering

def Discovery.numberedTransitions (d : Discovery) (order : List Nat) : List Transition :=
  order.flatMap fun state =>
    (d.followed.filter fun transition => transition.source = state).map
      (Numbering.renumber order)

namespace Automaton

def ofDiscovery (g : Grammar) (d : Discovery) : Automaton :=
  let order := Numbering.order d
  { grammar := g
    states := order.map fun state => .ofItems g (d.itemsOf state)
    transitions := d.numberedTransitions order }

/-- The canonical LR(1) automaton of a grammar. -/
def build (g : Grammar) (e : Exploration) : Automaton :=
  ofDiscovery g (discover g e)

end Automaton
end CanonicalLR
