import CanonicalLR.CommandLine.Run

/-! The command line program. -/

namespace CanonicalLR.CommandLine

def readGrammarFile (name : String) : IO (Except FileError String) := do
  try
    let bytes ← IO.FS.readBinFile name
    match String.fromUTF8? bytes with
    | some content => return .ok content
    | none => return .error .notUtf8
  catch
    | .noFileOrDirectory .. => return .error .notFound
    | error => return .error (.other (toString error))

def writeOutput : Option OutputFile → IO (Except FileError Unit)
  | none => return .ok ()
  | some file => do
      try
        IO.FS.writeFile file.name file.content
        return .ok ()
      catch
        | .noFileOrDirectory .. => return .error .notFound
        | error => return .error (.other (toString error))

def Ending.show (ending : Ending) : IO UInt32 := do
  IO.print ending.stdout
  IO.eprint ending.stderr
  return ending.code.toUInt32

def execute (arguments : List String) : IO UInt32 := do
  match Invocation.read arguments with
  | .command command =>
      let report := command.run false (← readGrammarFile command.file)
      let written ← writeOutput report.output
      (report.ending written).show
  | invocation => invocation.ending.show

end CanonicalLR.CommandLine

def main (arguments : List String) : IO UInt32 :=
  CanonicalLR.CommandLine.execute arguments
