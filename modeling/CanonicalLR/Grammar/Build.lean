import CanonicalLR.Grammar.First
import CanonicalLR.Grammar.Production
import CanonicalLR.Grammar.Segment

namespace CanonicalLR

/-! From an alphabet and written productions to a grammar.  The left-hand sides
are read first, because they are the nonterminals that a right-hand side may
mention; the lhs of the first production is the start symbol. -/

/-- The part of a right-hand side where no end marker may stand: it may only
close the rule of the start symbol. -/
def unmarkedPart (id : Nat) (rhs : List Symbol) : List Symbol :=
  if id = 0 then rhs.dropLast else rhs

def Vocabulary.readRule (v : Vocabulary) (id : Nat) (production : Production) :
    Except GrammarError Rule :=
  match v.segment production.rhs with
  | .error offset => .error (.unknownSymbol production.text offset)
  | .ok rhs =>
      let lhs := v.nonterminals.idxOf production.lhs
      if .terminal .endMarker ∈ unmarkedPart id rhs then
        .error (.misplacedEndMarker production.text)
      else if id ≠ 0 ∧ lhs = 0 then
        .error (.duplicateStartRule (v.nonterminalName 0) id)
      else .ok ⟨lhs, rhs, production.text⟩

namespace Grammar

def ofRules (v : Vocabulary) (rules : List Rule) : Grammar where
  toVocabulary := v
  rules := rules
  firstSets := (First.fixpoint v rules).sets

/-- Duplicate and empty terminals are ignored. -/
def alphabetOf (alphabet : List String) : List String :=
  (alphabet.filter (· ≠ "")).eraseDups

def build (alphabet productions : List String) : Except GrammarError Grammar := do
  let alphabet := alphabetOf alphabet
  if endMarkerName ∈ alphabet then throw .reservedTerminal
  if productions = [] then throw .noProductions
  let read ← productions.mapM (Production.read alphabet)
  let vocabulary : Vocabulary := ⟨alphabet, (read.map Production.lhs).eraseDups⟩
  let rules ← read.zipIdx.mapM fun (production, id) =>
    vocabulary.readRule id production
  return ofRules vocabulary rules

end Grammar
end CanonicalLR
