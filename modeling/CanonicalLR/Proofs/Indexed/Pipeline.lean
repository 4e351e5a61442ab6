import CanonicalLR.Proofs.Grammar.Building
import CanonicalLR.Proofs.Indexed.Build
import CanonicalLR.Proofs.Indexed.Parse
import CanonicalLR.Proofs.Indexed.Report

namespace CanonicalLR

open Indexed

/-! From a description to a parse.  No stage reads or writes a place that is not there, cuts a
text inside a character, or looks for a column, a name or a first symbol that is missing; for
then it would have no result. -/

/-- Every stage comes to its end with the result that is computed without places. -/
theorem pipeline_completes {alphabet productions : List String} {g : Grammar}
    (hbuild : Grammar.build alphabet productions = .ok g) (e : Exploration) :
    build? alphabet productions = some (.ok g.catalog) ∧
    Layout.build? g.catalog e = some (Automaton.build g e).layout ∧
    (Automaton.build g e).layout.report? = some (Automaton.build g e).report ∧
    Sheet.build? (Automaton.build g e).layout =
      some (Table.build (Automaton.build g e)).sheet ∧
    Grid.ofSheet? (Table.build (Automaton.build g e)).sheet =
      some (.ofTable (.build (Automaton.build g e))) ∧
    ∀ budget input, (Table.build (Automaton.build g e)).sheet.parse? budget input =
      some ((Table.build (Automaton.build g e)).run budget (.ofInput g.toVocabulary input)) := by
  have hg := Grammar.build_wellFormed hbuild
  have ha := Automaton.build_canonical hg e
  have hgrouped := Automaton.build_grouped hg e
  refine ⟨?_, Automaton.build?_eq hg e, ha.report?_eq hgrouped, Table.build?_eq ha hgrouped,
    Grid.ofSheet?_eq _, Table.parse?_eq ha⟩
  rw [build?_eq, hbuild]
  rfl

/-- The input ends inside a terminal of several bytes. -/
theorem pipeline_completes_accented :
    Layout.build? Grammar.accented.catalog .depthFirst =
      some (Automaton.build Grammar.accented .depthFirst).layout ∧
    (Table.build (Automaton.build Grammar.accented .depthFirst)).sheet.parse? 3 "é→" =
      some (.rejected (.unrecognizedSymbol 2 "é")) := by
  obtain ⟨_, hautomaton, _, _, _, hparse⟩ :=
    pipeline_completes Grammar.build_accented .depthFirst
  refine ⟨hautomaton, ?_⟩
  rw [hparse]
  decide +kernel

end CanonicalLR
