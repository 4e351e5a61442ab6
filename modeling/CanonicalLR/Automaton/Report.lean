import CanonicalLR.Automaton.Basic
import CanonicalLR.Text.Blank

namespace CanonicalLR

/-! Plain text listings of grammars and automata. -/

namespace Grammar

def rulesReport (g : Grammar) : String :=
  Text.unlines (g.rules.zipIdx.map fun (rule, id) => toString id ++ ": " ++ rule.text)

def firstReport (g : Grammar) : String :=
  Text.unlines (g.nonterminals.zipIdx.map fun (name, n) =>
    name ++ " : " ++ g.setText (g.first n))

end Grammar

namespace Automaton

def stateReport (a : Automaton) (index : Nat) (state : State) : List String :=
  ["", "State " ++ toString index, "--------"] ++
    state.items.map (·.text a.grammar) ++
    (a.transitionsFrom index).map fun transition =>
      "Goes to " ++ toString transition.target ++ " on " ++
        a.grammar.name transition.symbol

def report (a : Automaton) : String :=
  Text.unlines (a.states.zipIdx.flatMap fun (state, index) => a.stateReport index state)

end Automaton
end CanonicalLR
