import CanonicalLR.Parsing.Rejection
import CanonicalLR.Text.Blank
import CanonicalLR.Vocabulary

namespace CanonicalLR

/-! Tokens of an input.  A token is the shortest text at its place that is a
name of the alphabet; the end marker stands for the end of the input and is
never written. -/

/-- A terminal found in an input, with the text it was found as. -/
structure Token where
  terminal : Terminal
  /-- The characters in front of it, the nearest one first. -/
  passed : List Char
  text : List Char
deriving DecidableEq

namespace Token

def before (token : Token) : List Char :=
  token.passed.reverse

def start (token : Token) : Nat :=
  Text.byteLength token.passed

def stop (token : Token) : Nat :=
  token.start + Text.byteLength token.text

end Token

/-- A token of the alphabet at the front of a text that continues the characters
already `read`, and the text behind it.  There is none where an end marker would
be read first. -/
def Vocabulary.shortestMatch (v : Vocabulary) (read : List Char) :
    List Char → Option (Nat × List Char × List Char)
  | [] => none
  | c :: text =>
      let candidate := read ++ [c]
      if String.ofList candidate = endMarkerName then none
      else
        match v.alphabet.idxOf? (String.ofList candidate) with
        | some index => some (index, candidate, text)
        | none => v.shortestMatch candidate text

/-- What is read of an input, and what is still to be read. -/
structure Scanner where
  /-- The characters that are read, the latest one first. -/
  passed : List Char
  rest : List Char
  /-- Set by the end marker and by an error; nothing follows either. -/
  finished : Bool
deriving DecidableEq

namespace Scanner

def ofInput (input : String) : Scanner :=
  ⟨[], input.toList, false⟩

/-- The next token, if any is to come, and the scanner behind it. -/
def next (v : Vocabulary) (s : Scanner) : Option (Except Rejection Token) × Scanner :=
  if s.finished then (none, s)
  else if s.rest = [] then
    (some (.ok ⟨.endMarker, s.passed, []⟩), { s with finished := true })
  else
    match v.shortestMatch [] s.rest with
    | some (index, text, rest) =>
        (some (.ok ⟨.token index, s.passed, text⟩), ⟨text.reverse ++ s.passed, rest, false⟩)
    | none =>
        (some (.error (.unrecognizedSymbol (Text.byteLength s.passed)
          (String.ofList s.passed.reverse))), { s with finished := true })

def results (v : Vocabulary) : Nat → Scanner → List (Option (Except Rejection Token))
  | 0, _ => []
  | count + 1, s => (s.next v).1 :: results v count (s.next v).2

/-- The next token, which is an end marker where no token is to come. -/
def fetch (v : Vocabulary) (s : Scanner) : Except Rejection Token × Scanner :=
  match s.next v with
  | (some result, s) => (result, s)
  | (none, s) => (.ok ⟨.endMarker, s.rest.reverse ++ s.passed, []⟩, s)

end Scanner
end CanonicalLR
