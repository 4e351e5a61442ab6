import CanonicalLR.Proofs.Table.Contents

namespace CanonicalLR

open Indexed

/-! The books that are kept on proposals.  Whatever automaton they come from, each cell has
the first action proposed for it, and the log has all the others, cell by cell in the order
in which different actions first met. -/

namespace Proposal

variable {proposals others : List Proposal} {p : Proposal} {cell other : Nat × Symbol}

theorem Contested.mono (h : Contested proposals cell) (hsubset : proposals ⊆ others) :
    Contested others cell := by
  obtain ⟨first, second, hne, hfirst, hsecond⟩ := h
  exact ⟨first, second, hne, hsubset hfirst, hsubset hsecond⟩

section Columns

variable {columns : List Symbol} {state : Nat} {symbol : Symbol}

theorem contested_filter :
    Contested (proposals.filter (·.symbol ∈ columns)) cell ↔
      cell.2 ∈ columns ∧ Contested proposals cell := by
  constructor
  · rintro ⟨first, second, hne, hfirst, hsecond⟩
    obtain ⟨hfirst, hcolumn⟩ := List.mem_filter.mp hfirst
    exact ⟨of_decide_eq_true hcolumn, first, second, hne, hfirst,
      (List.mem_filter.mp hsecond).1⟩
  · rintro ⟨hcolumn, first, second, hne, hfirst, hsecond⟩
    have hdecide : decide (cell.2 ∈ columns) = true := decide_eq_true hcolumn
    exact ⟨first, second, hne, List.mem_filter.mpr ⟨hfirst, hdecide⟩,
      List.mem_filter.mpr ⟨hsecond, hdecide⟩⟩

end Columns
end Proposal

theorem Cells.write_eq_self {cells : Cells} (hfull : cells.Full) {symbol : Symbol}
    (hsymbol : symbol ∉ cells.columns) (state : Nat) (action : Action) :
    cells.write state symbol action = cells := by
  have hrows : cells.rows.modify state (·.set (cells.columns.idxOf symbol) (some action)) =
      cells.rows := by
    refine List.ext_getElem (by simp) fun index _ hindex => ?_
    rw [List.getElem_modify]
    split
    · have hrow := hfull.length_of_mem _ (List.getElem_mem hindex)
      exact List.set_eq_of_length_le (by rw [hrow, List.idxOf_eq_length hsymbol])
    · rfl
  rw [write, hrows]

namespace Draft

variable {draft : Draft} {states : Nat} {proposals : List Proposal} {p : Proposal}

/-- A proposal for a column that is not there is passed over. -/
theorem enter_eq_self (hfull : draft.cells.Full) (hsymbol : p.symbol ∉ draft.cells.columns) :
    draft.enter p = draft := by
  unfold enter
  rw [Cells.entry_eq_none hfull hsymbol]
  dsimp only
  rw [Cells.write_eq_self hfull hsymbol]

/-- The draft that proposals are entered into. -/
def ofProposals (columns : List Symbol) (states : Nat) (proposals : List Proposal) : Draft :=
  proposals.foldl enter ⟨.blank columns states, []⟩

theorem ofProposals_concat (columns : List Symbol) (states : Nat) (proposals : List Proposal)
    (p : Proposal) :
    ofProposals columns states (proposals ++ [p]) =
      (ofProposals columns states proposals).enter p := by
  rw [ofProposals, List.foldl_append]
  rfl

theorem ofProposals_full (columns : List Symbol) (states : Nat) (proposals : List Proposal) :
    (ofProposals columns states proposals).cells.Full ∧
      (ofProposals columns states proposals).cells.columns = columns :=
  foldl_enter_full (Cells.blank_full columns states) proposals

section Books

variable (columns : List Symbol) (hstates : ∀ p ∈ proposals, p.state < states)
include hstates

theorem ofProposals_records :
    (ofProposals columns states proposals).Records
      (proposals.filter (·.symbol ∈ columns)) := by
  induction proposals using List.reverseRecOn with
  | nil => exact blank_records columns states
  | append_singleton proposals p ih =>
      have hold := ih fun q hq => hstates q (List.mem_append_left [p] hq)
      obtain ⟨hfull, hcolumns⟩ := ofProposals_full columns states proposals
      rw [ofProposals_concat, List.filter_append, List.filter_singleton]
      by_cases hsymbol : p.symbol ∈ columns
      · have hrows : (ofProposals columns states proposals).cells.rows.length = states :=
          (length_rows_foldl _ proposals).trans List.length_replicate
        rw [decide_eq_true hsymbol]
        refine hold.enter ⟨?_, by rwa [hcolumns]⟩
        rw [hrows]
        exact hstates p (List.mem_append_right proposals List.mem_cons_self)
      · rw [enter_eq_self hfull (by rwa [hcolumns]), decide_eq_false hsymbol]
        simpa using hold

theorem mem_cells_iff (cell : Nat × Symbol) :
    cell ∈ (Conflict.ofCollisions (ofProposals columns states proposals).collisions).map
        Conflict.cell ↔ cell.2 ∈ columns ∧ Proposal.Contested proposals cell :=
  (ofProposals_records columns hstates).mem_cells_iff.trans Proposal.contested_filter

end Books
end Draft

/-! Proposals are made state by state, also where the offsets of the transitions are not
those of their sources. -/

namespace Layout

variable {l : Layout} {state : Nat} {proposals : List Proposal} {p : Proposal}

end Layout

namespace Sheet

variable {s next last : Sheet} {p : Proposal} {proposals : List Proposal}

end Sheet

namespace Automaton

variable {a : Automaton} {offsets : List Nat} {proposals : List Proposal}

end Automaton

namespace Table

end Table

end CanonicalLR
