import CanonicalLR.Grammar.Error
import CanonicalLR.Text.Blank
import CanonicalLR.Vocabulary

namespace CanonicalLR

/-! Written productions, before their right-hand sides are understood. -/

/-- A production cut into its two trimmed sides, beside the text it was
written as. -/
structure Production where
  text : String
  lhs : String
  rhs : List Char
deriving DecidableEq

namespace Production

def cutAtArrow : List Char → Option (List Char × List Char)
  | [] => none
  | '-' :: '>' :: text => some ([], text)
  | c :: text => (cutAtArrow text).map fun (before, after) => (c :: before, after)

def split (text : String) : Except GrammarError Production :=
  match cutAtArrow text.toList with
  | none => .error (.missingSeparator text)
  | some (before, after) =>
      let lhs := Text.trim before
      let rhs := Text.trim after
      if lhs = [] then .error (.emptyLhs text)
      else if rhs = [] then .error (.emptyRhs text)
      else .ok ⟨text, String.ofList lhs, rhs⟩

/-- A production whose left-hand side may name a nonterminal beside the given
alphabet. -/
def read (alphabet : List String) (text : String) : Except GrammarError Production :=
  match split text with
  | .error error => .error error
  | .ok production =>
      if production.lhs = endMarkerName then .error (.reservedNonterminal text)
      else if production.lhs ∈ alphabet then
        .error (.terminalAsNonterminal production.lhs)
      else .ok production

end Production
end CanonicalLR
