namespace CanonicalLR.CommandLine

/-! Arguments of the command line.  The first one names a command; options may
stand before, between and behind the operands of the command. -/

inductive Command where
  | first (file : String)
  | automaton (file : String)
  | table (file : String) (csv : Option String) (plain strict : Bool)
  | graph (file : String) (output : Option String)
  | parse (file : String) (inputs : List String) (derivation strict : Bool)
deriving DecidableEq

def Command.file : Command → String
  | first file => file
  | automaton file => file
  | table file _ _ _ => file
  | graph file _ => file
  | parse file _ _ _ => file

/-! Single arguments. -/

inductive Word where
  /-- Two dashes alone: all that follows is an operand. -/
  | separator
  /-- An option by its name, with the text after an equals sign. -/
  | long (name : String) (value : Option String)
  /-- Options by their letters. -/
  | short (letters : List Char)
  | operand (text : String)
deriving DecidableEq

def afterEquals (text : List Char) : String :=
  String.ofList (text.dropWhile (· = '='))

def Word.ofText (text : String) : Word :=
  match text.toList with
  | ['-', '-'] => separator
  | '-' :: '-' :: rest =>
      let body := rest.dropWhile (· = '-')
      let value := body.dropWhile (· ≠ '=')
      long (String.ofList (body.takeWhile (· ≠ '=')))
        (if value = [] then none else some (afterEquals value))
  | '-' :: c :: rest => short (c :: rest)
  | _ => operand text

/-! What a command understands. -/

structure OptionSpec where
  name : String
  letter : Option Char
  takesValue : Bool
deriving DecidableEq

structure CommandSpec where
  name : String
  options : List OptionSpec
  /-- Fewest operands. -/
  required : Nat
  /-- Whether there may be more operands. -/
  repeats : Bool
deriving DecidableEq

def strictOption : OptionSpec := ⟨"strict", none, false⟩

def commandSpecs : List CommandSpec :=
  [⟨"first", [], 1, false⟩,
   ⟨"automaton", [], 1, false⟩,
   ⟨"table", [⟨"csv", none, true⟩, ⟨"plain", none, false⟩, strictOption], 1, false⟩,
   ⟨"graph", [⟨"output", some 'o', true⟩], 1, false⟩,
   ⟨"parse", [⟨"derivation", some 'd', false⟩, strictOption], 2, true⟩]

/-! Arguments given to a command. -/

/-- Why reading stops before a command is known. -/
inductive Stop where
  | help
  | version
  | misuse
deriving DecidableEq

structure Given where
  /-- Options with their values, the latest one first. -/
  options : List (String × Option String)
  operands : List String
  /-- Whether the latest option waits for its value. -/
  awaiting : Bool
deriving DecidableEq

namespace Given

def empty : Given := ⟨[], [], false⟩

def addOption (given : Given) (spec : OptionSpec) (value : Option String) : Given where
  options := (spec.name, value) :: given.options
  operands := given.operands
  awaiting := spec.takesValue && value.isNone

def addValue (given : Given) (value : String) : Given where
  options := match given.options with
    | (name, _) :: rest => (name, some value) :: rest
    | [] => []
  operands := given.operands
  awaiting := false

def addOperand (spec : CommandSpec) (given : Given) (text : String) : Except Stop Given :=
  if spec.repeats || given.operands.length < spec.required then
    .ok { given with operands := given.operands ++ [text] }
  else .error .misuse

/-- An option without a value ignores one. -/
def addLong (spec : CommandSpec) (given : Given) (name : String)
    (value : Option String) : Except Stop Given :=
  match spec.options.find? (·.name = name) with
  | some option => .ok (given.addOption option (if option.takesValue then value else none))
  | none =>
      if name = "help" then .error .help
      else if name = "version" then .error .version
      else .error .misuse

/-- The letters behind one that takes a value are that value. -/
def addShort (spec : CommandSpec) (given : Given) : List Char → Except Stop Given
  | [] => .ok given
  | letter :: rest =>
      match spec.options.find? (·.letter = some letter) with
      | some option =>
          if option.takesValue then
            .ok (given.addOption option
              (if rest = [] then none else some (afterEquals rest)))
          else addShort spec (given.addOption option none) rest
      | none =>
          if letter = 'h' then .error .help
          else if letter = 'V' then .error .version
          else .error .misuse

/-- A word that is no option is the value of an option that waits for one, and
an operand otherwise. -/
def addText (spec : CommandSpec) (given : Given) (text : String) : Except Stop Given :=
  if given.awaiting then .ok (given.addValue text) else given.addOperand spec text

def read (spec : CommandSpec) (given : Given) : List String → Except Stop Given
  | [] => .ok given
  | text :: rest => do
      match Word.ofText text with
      | .separator => rest.foldlM (addOperand spec) given
      | .long name value => (← given.addLong spec name value).read spec rest
      | .short letters => (← given.addShort spec letters).read spec rest
      | .operand text => (← given.addText spec text).read spec rest

/-- Nothing is given twice, nothing required is missing, and options that take a
value have one. -/
def isComplete (spec : CommandSpec) (given : Given) : Bool :=
  spec.required ≤ given.operands.length &&
    (given.options.map Prod.fst).Nodup &&
    given.options.all fun (name, value) =>
      value.isSome || spec.options.any fun option => option.name = name && !option.takesValue

def has (given : Given) (name : String) : Bool :=
  given.options.any fun option => option.1 = name

def value? (given : Given) (name : String) : Option String :=
  (given.options.find? fun option => option.1 = name).bind Prod.snd

end Given

def Command.ofGiven (name : String) (given : Given) : Option Command :=
  match name, given.operands with
  | "first", file :: _ => some (first file)
  | "automaton", file :: _ => some (automaton file)
  | "table", file :: _ =>
      some (table file (given.value? "csv") (given.has "plain") (given.has "strict"))
  | "graph", file :: _ => some (graph file (given.value? "output"))
  | "parse", file :: inputs =>
      some (parse file inputs (given.has "derivation") (given.has "strict"))
  | _, _ => none

/-! All arguments together. -/

inductive Invocation where
  | command (command : Command)
  | help
  /-- The version of the program, or of a command. -/
  | version (command : Option String)
  | misuse
deriving DecidableEq

namespace Invocation

def ofStop (command : Option String) : Stop → Invocation
  | .help => help
  | .version => version command
  | .misuse => misuse

def ofCommand (spec : CommandSpec) (arguments : List String) : Invocation :=
  match Given.empty.read spec arguments with
  | .error stop => ofStop (some spec.name) stop
  | .ok given =>
      if given.isComplete spec then
        match Command.ofGiven spec.name given with
        | some c => command c
        | none => misuse
      else misuse

/-- Help is to be had on the program, on each command and on help itself. -/
def ofHelpTopics : List String → Invocation
  | [] => help
  | [topic] =>
      if topic = "help" || commandSpecs.any (·.name = topic) then help else misuse
  | _ => misuse

/-- Options in front of a command: only those for help and the version. -/
def ofOption (text : String) : Invocation :=
  match Word.ofText text with
  | .long "help" _ => help
  | .long "version" _ => version none
  | .short ('h' :: _) => help
  | .short ('V' :: _) => version none
  | _ => misuse

def read : List String → Invocation
  | [] => misuse
  | text :: rest =>
      match commandSpecs.find? (·.name = text) with
      | some spec => ofCommand spec rest
      | none => if text = "help" then ofHelpTopics rest else ofOption text

end Invocation
end CanonicalLR.CommandLine
