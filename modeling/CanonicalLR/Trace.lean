import CanonicalLR.Automaton.Discovery
import CanonicalLR.Grammar.First
import CanonicalLR.Parsing.Run

namespace CanonicalLR.Trace

/-! A log of what happens on the way from a grammar to a parse.  States bear
their discovery numbers until the automaton is complete. -/

def line (text : String) : String :=
  "[lr1] " ++ text

def ofFirst (g : Grammar) : List String :=
  let visits := (First.fixpoint g.toVocabulary g.rules).visits
  [line ("FIRST sets reached a fixpoint after " ++ toString visits ++ " visits")]

def discovered (state : Nat) : String :=
  line ("discovered state " ++ toString state)

def followed (g : Grammar) (transition : Transition) : String :=
  line (toString transition.source ++ " --" ++ g.name transition.symbol ++ "--> " ++
    toString transition.target)

/-- Transitions in the order followed.  One that leads to a state not known
before follows the discovery of that state. -/
def ofFollowed (g : Grammar) (known : Nat) : List Transition → List String
  | [] => []
  | transition :: rest =>
      if transition.target < known then
        followed g transition :: ofFollowed g known rest
      else
        discovered transition.target :: followed g transition ::
          ofFollowed g (known + 1) rest

def ofDiscovery (g : Grammar) (d : Discovery) : List String :=
  discovered 0 :: ofFollowed g 1 d.followed

def ofCollision (g : Grammar) (c : Collision) : String :=
  line ("conflict in state " ++ toString c.state ++ " on " ++ g.name c.symbol ++
    ": keeping " ++ c.kept.text ++ ", discarding " ++ c.refused.text)

def ofTable (t : Table) : List String :=
  t.collisions.map (ofCollision t.grammar)

def stackText (g : Grammar) (c : Config) : String :=
  " [" ++ c.stack.text g ++ "]"

/-- A rejection is logged only where the table has no entry. -/
def ofMove (g : Grammar) (c : Config) : Move → List String
  | .shift symbol next => [line ("shift " ++ g.name symbol ++ stackText g next)]
  | .reduce rule next =>
      [line ("reduce by " ++ (g.rule rule).text ++ stackText g next)]
  | .accept _ => [line ("accept" ++ stackText g c)]
  | .reject (.missingTableEntry state token _) =>
      [line ("reject: no entry for state " ++ toString state ++ " on " ++ token ++
        stackText g c)]
  | .reject _ => []

def ofParse (t : Table) (input : String) : List String :=
  (t.history input).flatMap fun (c, move) => ofMove t.grammar c move

end CanonicalLR.Trace
