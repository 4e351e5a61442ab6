import CanonicalLR.Automaton.Basic

namespace CanonicalLR

/-! The automaton as a directed graph in the dot language. -/

namespace Graph

/-- In an HTML-like label an angle bracket or an ampersand stands for itself
only as an entity. -/
def entity : Char → List Char
  | '&' => ['&', 'a', 'm', 'p', ';']
  | '<' => ['&', 'l', 't', ';']
  | '>' => ['&', 'g', 't', ';']
  | c => [c]

def escapeHtml (text : String) : String :=
  String.ofList (text.toList.flatMap entity)

/-- In a quoted label a quote or a backslash follows a backslash. -/
def quoted : Char → List Char
  | '\\' => ['\\', '\\']
  | '"' => ['\\', '"']
  | c => [c]

def escapeLabel (text : String) : String :=
  String.ofList (text.toList.flatMap quoted)

def tableRow (left right : String) : String :=
  "      <TR><TD>" ++ left ++ "</TD><TD>" ++ right ++ "</TD></TR>"

def headRow (index : Nat) : String :=
  tableRow ("<B>State #" ++ toString index ++ "</B>") "<B>Lookahead</B>"

/-- A row for an item; the lookahead is underlined if the item asks for a
reduction. -/
def itemRow (g : Grammar) (item : Item) : String :=
  let lookahead := escapeHtml (item.lookaheadText g)
  tableRow (escapeHtml (item.ruleText g))
    (if item.atEnd g then "<U>" ++ lookahead ++ "</U>" else lookahead)

def node (g : Grammar) (index : Nat) (state : State) : List String :=
  ["  State" ++ toString index ++ " [shape=plain label=<",
   "    <TABLE BORDER=\"0\" CELLBORDER=\"1\" CELLSPACING=\"0\">",
   headRow index,
   "\n".intercalate (state.items.map (itemRow g)),
   "    </TABLE>",
   "  >];"]

def edge (g : Grammar) (transition : Transition) : String :=
  "  State" ++ toString transition.source ++ " -> State" ++
    toString transition.target ++ " [label=\"" ++
    escapeLabel (g.name transition.symbol) ++ "\"];"

end Graph

/-- Every state is a node that shows its items, followed by the edges that leave
it. -/
def Automaton.graph (a : Automaton) : String :=
  "\n".intercalate
    (["digraph lr1_states \x7b"] ++
      (a.states.zipIdx.flatMap fun (state, index) =>
        Graph.node a.grammar index state ++
          (a.transitionsFrom index).map (Graph.edge a.grammar)) ++
      ["\x7d"])

end CanonicalLR
