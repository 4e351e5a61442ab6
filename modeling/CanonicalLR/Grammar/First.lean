import CanonicalLR.Grammar.Basic

namespace CanonicalLR.First

/-! FIRST sets as a fixpoint.  No rule derives the empty text, so the terminals
that can begin a rule are those that can begin its first symbol.  A nonterminal
is visited again whenever a set it depends on has grown. -/

/-- Terminals that can begin a symbol, as far as the given sets know. -/
def ofSymbol (sets : List TerminalSet) : Symbol → TerminalSet
  | .terminal t => .singleton t
  | .nonterminal n => sets.getD n .empty

def ofRule (sets : List TerminalSet) (rule : Rule) : TerminalSet :=
  match rule.rhs.head? with
  | none => .empty
  | some symbol => ofSymbol sets symbol

/-- The set of a nonterminal, enlarged by what its rules can begin with. -/
def enlarge (rules : List Rule) (sets : List TerminalSet) (n : Nat) : TerminalSet :=
  (rules.filter fun rule => rule.lhs = n).foldl
    (fun set rule => set.union (ofRule sets rule)) (sets.getD n .empty)

/-- Nonterminals with a rule that begins with the given one, in increasing
order. -/
def dependents (rules : List Rule) (n : Nat) : List Nat :=
  (OrderedSet.ofList
    ((rules.filter fun rule => rule.rhs.head? = some (.nonterminal n)).map
      Rule.lhs)).toList

/-- Sets found so far, nonterminals still to be visited, and visits made. -/
structure Progress where
  sets : List TerminalSet
  pending : List Nat
  visits : Nat

namespace Progress

def start (nonterminals : Nat) : Progress where
  sets := List.replicate nonterminals .empty
  pending := List.range nonterminals
  visits := 0

/-- Visits a nonterminal; those that depend on it wait for a visit if its set
has grown. -/
def visit (rules : List Rule) (p : Progress) (n : Nat) (rest : List Nat) : Progress :=
  let set := enlarge rules p.sets n
  if set.size = (p.sets.getD n .empty).size then
    { p with pending := rest, visits := p.visits + 1 }
  else
    { sets := p.sets.set n set
      pending := rest ++ (dependents rules n).filter (!rest.contains ·)
      visits := p.visits + 1 }

def run (rules : List Rule) : Nat → Progress → Progress
  | 0, p => p
  | budget + 1, p =>
      match p.pending with
      | [] => p
      | n :: rest => run rules budget (p.visit rules n rest)

end Progress

/-- Visits that suffice: one per nonterminal, and one per dependent each time a
set grows by a terminal. -/
def visitBound (v : Vocabulary) : Nat :=
  v.nonterminals.length +
    v.nonterminals.length * v.nonterminals.length * v.terminals.length

def fixpoint (v : Vocabulary) (rules : List Rule) : Progress :=
  (Progress.start v.nonterminals.length).run rules (visitBound v)

end CanonicalLR.First
