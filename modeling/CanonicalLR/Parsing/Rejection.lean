namespace CanonicalLR

/-! Reasons why an input is rejected. -/

inductive Rejection where
  | unrecognizedSymbol (offset : Nat) (consumed : String)
  | missingTableEntry (state : Nat) (token consumed : String)
  | reduceStackUnderflow (rule state : Nat)
  | rhsMismatch (rule : Nat) (found : String)
  | missingGoto (state : Nat) (nonterminal : String)
  | gotoOnTerminal (state : Nat) (token : String)
deriving DecidableEq

namespace Rejection

/-- Whether the table contradicts itself, so that the input is not to blame. -/
def isInternal : Rejection → Bool
  | unrecognizedSymbol .. | missingTableEntry .. => false
  | reduceStackUnderflow .. | rhsMismatch .. | missingGoto .. | gotoOnTerminal .. => true

def message : Rejection → String
  | unrecognizedSymbol offset consumed =>
      "Unrecognized symbol at offset " ++ toString offset ++
        " (after `" ++ consumed ++ "`)"
  | missingTableEntry state token consumed =>
      "No table entry for state " ++ toString state ++ " on `" ++ token ++
        "` (after `" ++ consumed ++ "`)"
  | reduceStackUnderflow rule state =>
      "Internal error: stack underflow while reducing by rule " ++ toString rule ++
        " in state " ++ toString state
  | rhsMismatch rule found =>
      "Internal error: stack holds `" ++ found ++ "` where rule " ++ toString rule ++
        " expects its right-hand side"
  | missingGoto state nonterminal =>
      "Internal error: no goto from state " ++ toString state ++ " on " ++ nonterminal
  | gotoOnTerminal state token =>
      "Internal error: goto entry in state " ++ toString state ++ " on terminal `" ++
        token ++ "`"

end Rejection
end CanonicalLR
