import CanonicalLR.Grammar.Build

namespace CanonicalLR

/-! Descriptions of grammars in files.  Blank lines and lines that begin with
`#` are skipped, lines that begin with `terminals:` declare terminals, and every
other line is a production. -/

structure GrammarFile where
  terminals : List String
  productions : List String
deriving DecidableEq

namespace GrammarFile

inductive Line where
  | skipped
  | terminals (names : List String)
  | production (text : String)
deriving DecidableEq

def terminalsMark : List Char := "terminals:".toList

/-- What a trimmed line says. -/
def Line.ofTrimmed (text : List Char) : Line :=
  if text = [] then skipped
  else if text.head? = some '#' then skipped
  else if terminalsMark.isPrefixOf text then
    terminals ((Text.words (text.drop terminalsMark.length)).map String.ofList)
  else production (String.ofList text)

def Line.read (text : List Char) : Line :=
  ofTrimmed (Text.trim text)

def Line.declared : Line → List String
  | terminals names => names
  | _ => []

def Line.production? : Line → Option String
  | production text => some text
  | _ => none

def ofLines (lines : List Line) : GrammarFile where
  terminals := lines.flatMap Line.declared
  productions := lines.filterMap Line.production?

def read (content : String) : GrammarFile :=
  ofLines ((Text.lines content.toList).map Line.read)

end GrammarFile

/-! A file describes a grammar if it declares terminals and productions and
these make up a grammar. -/

inductive LoadError where
  | noTerminals (filename : String)
  | noProductions (filename : String)
  | grammar (error : GrammarError)
deriving DecidableEq

def LoadError.message : LoadError → String
  | noTerminals filename => filename ++ " declares no terminals"
  | noProductions filename => filename ++ " contains no productions"
  | grammar error => error.message

def GrammarFile.grammar (filename : String) (file : GrammarFile) :
    Except LoadError Grammar :=
  if file.terminals = [] then .error (.noTerminals filename)
  else if file.productions = [] then .error (.noProductions filename)
  else
    match Grammar.build file.terminals file.productions with
    | .ok g => .ok g
    | .error error => .error (.grammar error)

end CanonicalLR
