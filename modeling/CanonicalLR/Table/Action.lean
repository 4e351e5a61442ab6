import CanonicalLR.Text.Numeral

namespace CanonicalLR

/-! Entries of the action table.  Reducing by rule 0 accepts, so there is no
separate entry for acceptance. -/

inductive Action where
  | shift (state : Nat)
  | goto (state : Nat)
  | reduce (rule : Nat)
deriving DecidableEq

/-- A text that is not the written form of an action. -/
structure InvalidAction where
  text : String
deriving DecidableEq

def InvalidAction.message (error : InvalidAction) : String :=
  "Invalid action `" ++ error.text ++ "`"

namespace Action

def isAccept (action : Action) : Bool :=
  action = reduce 0

def target : Action → Nat
  | shift state => state
  | goto state => state
  | reduce rule => rule

def letter : Action → Char
  | shift _ => 's'
  | goto _ => 'g'
  | reduce _ => 'r'

def text (action : Action) : String :=
  String.ofList [action.letter] ++ toString action.target

def ofLetter? (letter : Char) (target : Nat) : Option Action :=
  match letter with
  | 's' => some (shift target)
  | 'g' => some (goto target)
  | 'r' => some (reduce target)
  | _ => none

/-- Reads a letter and a 64-bit numeral. -/
def read? : List Char → Option Action
  | [] => none
  | letter :: digits => (Text.numeral? digits).bind (ofLetter? letter)

def read (text : String) : Except InvalidAction Action :=
  match read? text.toList with
  | some action => .ok action
  | none => .error ⟨text⟩

end Action
end CanonicalLR
