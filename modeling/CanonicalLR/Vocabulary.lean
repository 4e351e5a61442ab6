import CanonicalLR.Symbol

namespace CanonicalLR

/-! The names of a grammar's symbols.  A symbol is written by its name; a name
is looked up among the nonterminals first, then as the end marker, then in the
alphabet. -/

/-- Name of the end marker, reserved in every grammar. -/
def endMarkerName : String := "$"

structure Vocabulary where
  alphabet : List String
  nonterminals : List String
deriving DecidableEq

namespace Vocabulary

def terminals (v : Vocabulary) : List Terminal :=
  (List.range v.alphabet.length).map .token ++ [.endMarker]

def symbols (v : Vocabulary) : List Symbol :=
  (List.range v.nonterminals.length).map .nonterminal ++
    v.terminals.map .terminal

@[simp] theorem token_mem_terminals {v : Vocabulary} {index : Nat} :
    .token index ∈ v.terminals ↔ index < v.alphabet.length := by
  simp [terminals]

@[simp] theorem endMarker_mem_terminals (v : Vocabulary) :
    .endMarker ∈ v.terminals := by
  simp [terminals]

@[simp] theorem terminal_mem_symbols {v : Vocabulary} {t : Terminal} :
    .terminal t ∈ v.symbols ↔ t ∈ v.terminals := by
  simp [symbols]

@[simp] theorem nonterminal_mem_symbols {v : Vocabulary} {index : Nat} :
    .nonterminal index ∈ v.symbols ↔ index < v.nonterminals.length := by
  simp [symbols]

def terminalName (v : Vocabulary) : Terminal → String
  | .token index => v.alphabet.getD index ""
  | .endMarker => endMarkerName

def nonterminalName (v : Vocabulary) (index : Nat) : String :=
  v.nonterminals.getD index ""

def name (v : Vocabulary) : Symbol → String
  | .terminal t => v.terminalName t
  | .nonterminal n => v.nonterminalName n

@[simp] theorem name_terminal (v : Vocabulary) (t : Terminal) :
    v.name (.terminal t) = v.terminalName t := rfl

@[simp] theorem name_nonterminal (v : Vocabulary) (n : Nat) :
    v.name (.nonterminal n) = v.nonterminalName n := rfl

@[simp] theorem terminalName_endMarker (v : Vocabulary) :
    v.terminalName .endMarker = endMarkerName := rfl

def nonterminal? (v : Vocabulary) (name : String) : Option Nat :=
  v.nonterminals.idxOf? name

def terminal? (v : Vocabulary) (name : String) : Option Terminal :=
  if name = endMarkerName then some .endMarker
  else (v.alphabet.idxOf? name).map .token

def symbol? (v : Vocabulary) (name : String) : Option Symbol :=
  match v.nonterminal? name with
  | some n => some (.nonterminal n)
  | none => (v.terminal? name).map .terminal

def isNonterminal (v : Vocabulary) (name : String) : Bool :=
  v.nonterminals.contains name

def setText (v : Vocabulary) (set : TerminalSet) : String :=
  "\x7b" ++ ", ".intercalate (set.toList.map v.terminalName) ++ "\x7d"

end Vocabulary
end CanonicalLR
