import CanonicalLR.Parsing.Stack
import CanonicalLR.Parsing.Token
import CanonicalLR.Table.Basic

namespace CanonicalLR

/-! Shift-reduce parsing.  A configuration determines the next move, and a run
makes moves until one of them accepts or rejects. -/

/-- Result of an accepted input. -/
structure Derivation where
  /-- Rules of the rightmost derivation, so the latest reduction comes first. -/
  rules : List Nat
  /-- Number of shifted terminals, the end marker included. -/
  shifts : Nat
deriving DecidableEq

def Derivation.reductions (derivation : Derivation) : List Nat :=
  derivation.rules.reverse

structure Config where
  stack : ParseStack
  /-- The current token, or the reason why there is none. -/
  lookahead : Except Rejection Token
  scanner : Scanner
  derivation : Derivation

inductive Move where
  | shift (symbol : Symbol) (next : Config)
  | reduce (rule : Nat) (next : Config)
  | accept (derivation : Derivation)
  | reject (rejection : Rejection)

namespace Config

def ofInput (v : Vocabulary) (input : String) : Config :=
  let (lookahead, scanner) := (Scanner.ofInput input).fetch v
  ⟨.fresh, lookahead, scanner, ⟨[], 0⟩⟩

/-- Pushes the current token.  The end marker stays the current token, any other
token makes way for the next one. -/
def shift (v : Vocabulary) (c : Config) (token : Token) (target : Nat) : Config :=
  let stack := c.stack.push (.terminal token.terminal) target
  let derivation := { c.derivation with shifts := c.derivation.shifts + 1 }
  if token.terminal = .endMarker then
    { c with stack := stack, derivation := derivation }
  else
    let (lookahead, scanner) := c.scanner.fetch v
    ⟨stack, lookahead, scanner, derivation⟩

def reduce (t : Table) (c : Config) (rule : Nat) : Except Rejection Config :=
  match c.stack.popRhs t.grammar rule with
  | (.error rejection, _) => .error rejection
  | (.ok (), stack) =>
      let lhs := (t.grammar.rule rule).lhs
      match t.entry stack.top (.nonterminal lhs) with
      | some (.goto target) =>
          .ok { c with
            stack := stack.push (.nonterminal lhs) target
            derivation := { c.derivation with
              rules := rule :: c.derivation.rules } }
      | _ => .error (.missingGoto stack.top (t.grammar.nonterminalName lhs))

end Config

namespace Table

/-- The move that the table prescribes; reducing by rule 0 accepts. -/
def move (t : Table) (c : Config) : Move :=
  match c.lookahead with
  | .error rejection => .reject rejection
  | .ok token =>
      let state := c.stack.top
      match t.entry state (.terminal token.terminal) with
      | none =>
          .reject (.missingTableEntry state (t.grammar.terminalName token.terminal)
            (String.ofList token.before))
      | some (.shift target) =>
          .shift (.terminal token.terminal) (c.shift t.grammar.toVocabulary token target)
      | some (.reduce 0) => .accept c.derivation
      | some (.reduce (id + 1)) =>
          match c.reduce t (id + 1) with
          | .ok next => .reduce (id + 1) next
          | .error rejection => .reject rejection
      | some (.goto _) =>
          .reject (.gotoOnTerminal state (t.grammar.terminalName token.terminal))

end Table

/-- How parsing ends; `endless` if the table makes it go round in circles. -/
inductive Outcome where
  | accepted (derivation : Derivation)
  | rejected (rejection : Rejection)
  | endless
deriving DecidableEq

namespace Table

def run (t : Table) : Nat → Config → Outcome
  | 0, _ => .endless
  | budget + 1, c =>
      match t.move c with
      | .shift _ next => t.run budget next
      | .reduce _ next => t.run budget next
      | .accept derivation => .accepted derivation
      | .reject rejection => .rejected rejection

def moves (t : Table) : Nat → Config → List (Config × Move)
  | 0, _ => []
  | budget + 1, c =>
      match t.move c with
      | .shift symbol next => (c, .shift symbol next) :: t.moves budget next
      | .reduce rule next => (c, .reduce rule next) :: t.moves budget next
      | move => [(c, move)]

/-- Moves after which a run over so many characters goes round in circles.  On
one token a symbol of the stack is replaced at most once by each nonterminal,
and the stack holds a symbol for each token before; an end marker on the stack
is followed by end markers only, each in another state. -/
def moveBound (t : Table) (length : Nat) : Nat :=
  (length + 1) * (length * t.grammar.nonterminals.length + 1) +
    t.stateCount + 2

def parse (t : Table) (input : String) : Outcome :=
  t.run (t.moveBound input.length) (.ofInput t.grammar.toVocabulary input)

def history (t : Table) (input : String) : List (Config × Move) :=
  t.moves (t.moveBound input.length) (.ofInput t.grammar.toVocabulary input)

def accepts (t : Table) (input : String) : Bool :=
  match t.parse input with
  | .accepted _ => true
  | _ => false

end Table
end CanonicalLR
