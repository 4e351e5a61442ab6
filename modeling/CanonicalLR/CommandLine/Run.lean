import CanonicalLR.Automaton.Graph
import CanonicalLR.Automaton.Numbering
import CanonicalLR.Automaton.Report
import CanonicalLR.CommandLine.Arguments
import CanonicalLR.CommandLine.FileSystem
import CanonicalLR.CommandLine.GrammarFile
import CanonicalLR.Table.Overview
import CanonicalLR.Text.Box
import CanonicalLR.Trace

namespace CanonicalLR.CommandLine

/-! What the commands say about the grammar in a file.  Reading and writing of
files is left to the caller: a command needs the content of its grammar file and
asks for at most one file to be written. -/

structure OutputFile where
  name : String
  content : String
deriving DecidableEq

structure Report where
  stdout : String
  stderr : String
  output : Option OutputFile
  failure : Option String
deriving DecidableEq

namespace Report

def printed (text : String) : Report := ⟨text, "", none, none⟩

def failed (message : String) : Report := ⟨"", "", none, some message⟩

def after (text : String) (report : Report) : Report :=
  { report with stdout := text ++ report.stdout }

end Report

/-! The outcome of parsing, in words. -/

def describeOutcome (g : Grammar) (input : String) (outcome : Outcome)
    (showDerivation : Bool) : String :=
  match outcome with
  | .accepted derivation =>
      input ++ ": ACCEPTED" ++
        if showDerivation then
          String.join (derivation.reductions.map fun id =>
            "\n  " ++ toString id ++ ": " ++ (g.rule id).text)
        else ""
  | .rejected rejection => input ++ ": REJECTED (" ++ rejection.message ++ ")"
  | .endless => input ++ ": ENDLESS"

/-! The commands, each beginning with what it is about. -/

def logged (tracing : Bool) (log : List String) : String :=
  if tracing then Text.unlines log else ""

def firstListing (g : Grammar) : String :=
  "Rules\n-----\n" ++ g.rulesReport ++ "\nFIRST sets\n----------\n" ++ g.firstReport

def conflictNote (t : Table) : String :=
  if t.hasConflicts then
    Grid.conflictWarning ++ "\n" ++
      Text.box (["Cell", "Entries", "Chosen"] ::
        (Grid.ofTable t).conflicts.map fun row =>
          [row.cellText, row.entriesText, row.chosen]) ++ "\n"
  else ""

def tableReport (t : Table) (csv : Option String) (plain : Bool) : Report :=
  match csv with
  | some name => ⟨"", conflictNote t, some ⟨name, Text.csv t.overview⟩, none⟩
  | none =>
      if plain then .printed (Grid.ofTable t).text
      else ⟨Text.box t.overview ++ "\n", conflictNote t, none, none⟩

def graphReport (a : Automaton) (output : Option String) : Report :=
  match output with
  | some name => ⟨"", "", some ⟨name, a.graph⟩, none⟩
  | none => .printed (a.graph ++ "\n")

def parseReport (tracing : Bool) (t : Table) (inputs : List String)
    (derivation : Bool) : Report :=
  .printed (String.join (inputs.map fun input =>
    logged tracing (Trace.ofParse t input) ++
      describeOutcome t.grammar input (t.parse input) derivation ++ "\n"))

def withAutomaton (tracing : Bool) (g : Grammar) (k : Automaton → Report) : Report :=
  let d := discover g .breadthFirst
  (k (.ofDiscovery g d)).after (logged tracing (Trace.ofDiscovery g d))

/-- Goes on with the table of a grammar, unless it has conflicts and must not. -/
def withTable (tracing strict : Bool) (g : Grammar) (k : Table → Report) : Report :=
  withAutomaton tracing g fun a =>
    let report :=
      match Table.buildWith a (if strict then .fail else .firstWins) with
      | .ok t => k t
      | .error conflict => .failed (Table.conflictMessage g conflict)
    report.after (logged tracing (Trace.ofTable (.build a)))

namespace Command

def report (tracing : Bool) (g : Grammar) : Command → Report
  | first _ => .printed (firstListing g)
  | automaton _ => withAutomaton tracing g fun a => .printed a.report
  | table _ csv plain strict =>
      withTable tracing strict g fun t => tableReport t csv plain
  | graph _ output => withAutomaton tracing g fun a => graphReport a output
  | parse _ inputs derivation strict =>
      withTable tracing strict g fun t => parseReport tracing t inputs derivation

def run (tracing : Bool) (c : Command) (content : Except FileError String) : Report :=
  match content with
  | .error error => .failed error.message
  | .ok content =>
      match (GrammarFile.read content).grammar c.file with
      | .error error => .failed error.message
      | .ok g => (c.report tracing g).after (logged tracing (Trace.ofFirst g))

end Command

/-! How the program ends. -/

structure Ending where
  code : Nat
  stdout : String
  stderr : String
deriving DecidableEq

/-- The end of a command, once its output file is written or could not be; what
it has to note comes after that. -/
def Report.ending (report : Report) (written : Except FileError Unit) : Ending :=
  let failure :=
    match report.failure, written with
    | some message, _ => some message
    | none, .error error => some error.message
    | none, .ok () => none
  match failure with
  | none => ⟨0, report.stdout, report.stderr⟩
  | some message => ⟨1, report.stdout, "Error: " ++ message ++ "\n"⟩

def programName : String := "lr1_cli"

def usage : String :=
  "USAGE:\n    " ++ programName ++ " <" ++
    "|".intercalate (commandSpecs.map CommandSpec.name) ++ "> [OPTIONS] <file> ...\n"

def versionText : Option String → String
  | none => programName ++ " 0.1.0\n"
  | some name => programName ++ "-" ++ name ++ " \n"

/-- The end of the program where there is no command to run. -/
def Invocation.ending : Invocation → Ending
  | help => ⟨0, usage, ""⟩
  | version name => ⟨0, versionText name, ""⟩
  | _ => ⟨1, "", "error: invalid arguments\n\n" ++ usage⟩

/-! The program among files. -/

def FileSystem.writeOutput (s : FileSystem) :
    Option OutputFile → Except FileError Unit × FileSystem
  | none => (.ok (), s)
  | some file =>
      match s.write file.name file.content with
      | .ok written => (.ok (), written)
      | .error error => (.error error, s)

/-- An output file that is a device is shown between what is printed and what is
noted. -/
def Ending.around (ending : Ending) (s : FileSystem) : Ending :=
  { ending with
    stdout := ending.stdout ++ s.shown
    stderr := s.complaints ++ ending.stderr }

def Invocation.runIn (tracing : Bool) (s : FileSystem) :
    Invocation → Ending × FileSystem
  | command c =>
      let report := c.run tracing (s.read c.file)
      let (written, s) := s.writeOutput report.output
      ((report.ending written).around s, s)
  | invocation => (invocation.ending, s)

end CanonicalLR.CommandLine
