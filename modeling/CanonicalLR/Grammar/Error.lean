namespace CanonicalLR

/-! Reasons why a description is not a grammar.  A production is quoted as it
was written, and offsets count bytes of its trimmed right-hand side. -/

inductive GrammarError where
  | noProductions
  | missingSeparator (production : String)
  | emptyLhs (production : String)
  | emptyRhs (production : String)
  | unknownSymbol (production : String) (offset : Nat)
  | reservedTerminal
  | reservedNonterminal (production : String)
  | terminalAsNonterminal (name : String)
  | misplacedEndMarker (production : String)
  | duplicateStartRule (nonterminal : String) (rule : Nat)
deriving DecidableEq

def GrammarError.message : GrammarError → String
  | noProductions => "Grammar has no productions"
  | missingSeparator production =>
      "Production `" ++ production ++ "` lacks the `->` separator"
  | emptyLhs production =>
      "Production `" ++ production ++ "` has an empty left-hand side"
  | emptyRhs production =>
      "Production `" ++ production ++
        "` has an empty right-hand side (nullable rules are not supported)"
  | unknownSymbol production offset =>
      "Right-hand side of `" ++ production ++
        "` cannot be segmented into known symbols at offset " ++ toString offset
  | reservedTerminal => "The end marker `$` cannot be part of the alphabet"
  | reservedNonterminal production =>
      "The end marker `$` cannot be the lhs of `" ++ production ++ "`"
  | terminalAsNonterminal name =>
      name ++ " is a terminal of the alphabet and cannot be the lhs of a production"
  | misplacedEndMarker production =>
      "The end marker `$` may only end the start production, found in `" ++
        production ++ "`"
  | duplicateStartRule nonterminal rule =>
      "Start symbol " ++ nonterminal ++ " is also the lhs of rule " ++ toString rule

end CanonicalLR
