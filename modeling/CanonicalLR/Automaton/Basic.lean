import CanonicalLR.State

namespace CanonicalLR

/-! The canonical LR(1) automaton: closed item sets, numbered breadth first
from the closure of the start rule, and the transitions between them. -/

structure Transition where
  source : Nat
  symbol : Symbol
  target : Nat
deriving DecidableEq

structure Automaton where
  grammar : Grammar
  states : List State
  /-- Grouped by source, in increasing order. -/
  transitions : List Transition
deriving DecidableEq

namespace Automaton

def stateCount (a : Automaton) : Nat := a.states.length

def state? (a : Automaton) (index : Nat) : Option State := a.states[index]?

def transitionsFrom (a : Automaton) (source : Nat) : List Transition :=
  a.transitions.filter fun transition => transition.source = source

def goto? (a : Automaton) (source : Nat) (symbol : Symbol) : Option Nat :=
  (a.transitions.find? fun transition =>
    transition.source = source && transition.symbol = symbol).map Transition.target

theorem mem_transitionsFrom {a : Automaton} {source : Nat} {transition : Transition} :
    transition ∈ a.transitionsFrom source ↔
      transition ∈ a.transitions ∧ transition.source = source := by
  simp [transitionsFrom]

/-- Automata agree if their states do, one by one, and all else is equal. -/
def agrees (first second : Automaton) : Bool :=
  first.grammar = second.grammar &&
    first.states.length = second.states.length &&
    (first.states.zip second.states).all (fun (x, y) => x.agrees y) &&
    first.transitions = second.transitions

end Automaton
end CanonicalLR
