import CanonicalLR.Vocabulary

namespace CanonicalLR

/-! Context-free grammars without empty right-hand sides. -/

/-- A rule is known by its position in the grammar; `lhs` is a position among
the nonterminals. -/
structure Rule where
  lhs : Nat
  rhs : List Symbol
  text : String
deriving DecidableEq, Inhabited

structure Grammar extends Vocabulary where
  rules : List Rule
  /-- FIRST sets, in the order of the nonterminals. -/
  firstSets : List TerminalSet
deriving DecidableEq

namespace Grammar

/-- The rule with a number.  Every number in use names a rule of the grammar;
any other would name a rule without symbols. -/
def rule (g : Grammar) (id : Nat) : Rule :=
  g.rules.getD id default

/-- Numbers of the rules of a nonterminal, in increasing order. -/
def rulesOf (g : Grammar) (nonterminal : Nat) : List Nat :=
  (List.range g.rules.length).filter fun id => (g.rule id).lhs = nonterminal

def first (g : Grammar) (nonterminal : Nat) : TerminalSet :=
  g.firstSets.getD nonterminal .empty

def firstOfSymbol (g : Grammar) : Symbol → TerminalSet
  | .terminal t => .singleton t
  | .nonterminal n => g.first n

def firstSet (g : Grammar) (name : String) : TerminalSet :=
  match g.nonterminal? name with
  | some n => g.first n
  | none => .empty

def rulesWithLhs (g : Grammar) (name : String) : List Nat :=
  match g.nonterminal? name with
  | some n => g.rulesOf n
  | none => []

@[simp] theorem firstOfSymbol_terminal (g : Grammar) (t : Terminal) :
    g.firstOfSymbol (.terminal t) = .singleton t := rfl

@[simp] theorem firstOfSymbol_nonterminal (g : Grammar) (n : Nat) :
    g.firstOfSymbol (.nonterminal n) = g.first n := rfl

theorem mem_rulesOf {g : Grammar} {nonterminal id : Nat} :
    id ∈ g.rulesOf nonterminal ↔
      id < g.rules.length ∧ (g.rule id).lhs = nonterminal := by
  simp [rulesOf]

end Grammar
end CanonicalLR
