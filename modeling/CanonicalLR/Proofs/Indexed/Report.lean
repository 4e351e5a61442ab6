import CanonicalLR.Automaton.Report
import CanonicalLR.Proofs.Indexed.Table
import CanonicalLR.Table.Grid

namespace CanonicalLR

open Indexed

/-! Listings of automata and tables, which look up every name and every cell they show. -/

namespace Layout

def transitionText? (l : Layout) (transition : Transition) : Option String := do
  let name ← l.catalog.name? transition.symbol
  return "Goes to " ++ toString transition.target ++ " on " ++ name

def stateReport? (l : Layout) (index : Nat) (state : State) : Option (List String) := do
  let items ← state.items.mapM (·.text? l.catalog)
  let transitions ← (← l.transitionsFrom? index).mapM l.transitionText?
  return ["", "State " ++ toString index, "--------"] ++ items ++ transitions

def report? (l : Layout) : Option String := do
  let reports ← l.states.zipIdx.mapM fun (state, index) => l.stateReport? index state
  return Text.unlines reports.flatten

end Layout

namespace Grid

def namedRow (c : NamedConflict) : ConflictRow where
  state := c.state
  symbol := c.symbolName
  entries := c.competing.map Action.text
  chosen := c.chosen.text

def stateRow? (s : Sheet) (state : Nat) : Option (List String) := do
  let entries ← s.columns.mapM (s.entry? state)
  return toString state :: entries.map Action.cellText

def ofSheet? (s : Sheet) : Option Grid := do
  let names ← s.columns.mapM s.layout.catalog.name?
  let rows ← (List.range s.layout.states.length).mapM (stateRow? s)
  return ⟨"#" :: names, rows, s.conflicts.map namedRow⟩

end Grid

namespace Automaton.Canonical

variable {a : Automaton}

theorem stateReport?_eq (ha : a.Canonical) (hgrouped : a.Grouped) {index : Nat} {state : State}
    (hstate : a.states[index]? = some state) :
    a.layout.stateReport? index state = some (a.stateReport index state) := by
  have hitems : state.items.mapM (·.text? a.layout.catalog) =
      some (state.items.map (·.text a.grammar)) := by
    refine mapM_eq_some fun item hitem => Item.text?_eq ha.wellFormed ?_
    exact ha.proper item (itemsOf_eq_of_state? hstate ▸ hitem)
  have htransitions : (a.transitionsFrom index).mapM a.layout.transitionText? =
      some ((a.transitionsFrom index).map fun transition =>
        "Goes to " ++ toString transition.target ++ " on " ++
          a.grammar.name transition.symbol) := by
    refine mapM_eq_some fun transition htransition => ?_
    have hsymbol := ha.symbol_mem transition (mem_transitionsFrom.mp htransition).1
    have hname : a.layout.catalog.name? transition.symbol =
        some (a.grammar.name transition.symbol) := Vocabulary.name?_eq hsymbol
    rw [Layout.transitionText?, hname]
    rfl
  rw [Layout.stateReport?, hitems, hgrouped.transitionsFrom?_eq ha.source_lt]
  simp only [Option.bind_eq_bind, Option.bind_some]
  rw [htransitions]
  rfl

theorem report?_eq (ha : a.Canonical) (hgrouped : a.Grouped) :
    a.layout.report? = some a.report := by
  have hstates : a.states.zipIdx.mapM (fun found => a.layout.stateReport? found.2 found.1) =
      some (a.states.zipIdx.map fun found => a.stateReport found.2 found.1) :=
    mapM_eq_some fun found hfound =>
      ha.stateReport?_eq hgrouped (List.mem_zipIdx_iff_getElem?.mp hfound)
  rw [Layout.report?]
  simp only [layout] at hstates ⊢
  rw [hstates]
  simp [report, List.flatMap_def]

end Automaton.Canonical

namespace Grid

theorem stateRow?_eq (a : Automaton) (state : Nat) :
    stateRow? (Table.build a).sheet state = some (stateRow (.build a) state) := by
  have hentries : (Table.build a).sheet.columns.mapM ((Table.build a).sheet.entry? state) =
      some ((Table.build a).columns.map ((Table.build a).entry state)) :=
    mapM_eq_some fun symbol _ => Table.entry?_sheet a state symbol
  rw [stateRow?, hentries, stateRow]
  simp

theorem ofSheet?_eq (a : Automaton) :
    ofSheet? (Table.build a).sheet = some (.ofTable (.build a)) := by
  have hnames : (Table.build a).sheet.columns.mapM (Table.build a).sheet.layout.catalog.name? =
      some ((Table.build a).columns.map a.grammar.name) := by
    refine mapM_eq_some fun symbol hsymbol => Vocabulary.name?_eq ?_
    exact Table.columns_build a ▸ hsymbol
  have hrows : (List.range (Table.build a).sheet.layout.states.length).mapM
      (stateRow? (Table.build a).sheet) =
        some ((List.range a.stateCount).map (stateRow (.build a))) :=
    mapM_eq_some fun state _ => stateRow?_eq a state
  have hconflicts : (Table.build a).sheet.conflicts.map namedRow =
      (Table.build a).conflicts.map (conflictRow a.grammar) := List.map_map
  rw [ofSheet?, hnames, hrows]
  simp only [Option.bind_eq_bind, Option.bind_some]
  rw [hconflicts]
  rfl

end Grid
end CanonicalLR
