import CanonicalLR.Automaton.Numbering
import CanonicalLR.Proofs.Grammar.Building
import CanonicalLR.Proofs.Table.Action
import CanonicalLR.Proofs.Text.Blank
import CanonicalLR.Table.Overview
import Mathlib.Data.List.Forall2

namespace CanonicalLR

/-! What the written forms of a table show.  A line of the grid is a row of cells at the
positions that all rows have in common, so its words are the cells; and from a cell its entry
can be read.  The cells of the overview say the same, three columns further to the right. -/

namespace Text

theorem IsWord.not_mem {word : List Char} (h : IsWord word) : '\n' ∉ word :=
  fun hmem => absurd (h.not_blank _ hmem) (by decide)

theorem Spaced.append_left {gap text : List Char} {list : List (List Char)} (hgap : Blanks gap)
    (h : Spaced list text) : Spaced list (gap ++ text) := by
  have happend : ∀ {more : List Char}, Blanks more → Blanks (gap ++ more) :=
    fun hmore c hc => (List.mem_append.mp hc).elim (hgap c) (hmore c)
  cases h with
  | blanks hmore => exact .blanks (happend hmore)
  | word hmore hrest hapart =>
      rw [← List.append_assoc, ← List.append_assoc]
      exact .word (happend hmore) hrest hapart

end Text

namespace Action

end Action

namespace Grid

/-- A line of cells, each at the position where its column begins.  Positions count characters,
and between two cells there are two blanks at least. -/
inductive Laid : Nat → List Nat → List String → List Char → Prop
  | last {position : Nat} {cell : String} (blanks : Nat) :
      Laid position [position] [cell] (cell.toList ++ List.replicate blanks ' ')
  | cons {position : Nat} {starts : List Nat} {cell : String} {cells : List String}
      {line : List Char} (blanks : Nat)
      (h : Laid (position + cell.length + (blanks + 2)) starts cells line) :
      Laid position (position :: starts) (cell :: cells)
        (cell.toList ++ (List.replicate (blanks + 2) ' ' ++ line))

namespace Laid

variable {position : Nat} {starts : List Nat} {cells : List String} {line : List Char}

theorem not_mem (h : Laid position starts cells line)
    (hcells : ∀ cell ∈ cells, '\n' ∉ cell.toList) : '\n' ∉ line := by
  induction h with
  | last blanks => simpa using hcells _ List.mem_cons_self
  | cons blanks _ ih =>
      have hrest := ih fun cell hcell => hcells cell (List.mem_cons_of_mem _ hcell)
      simpa [hrest] using hcells _ List.mem_cons_self

theorem spaced (h : Laid position starts cells line) :
    Text.Spaced (cells.map String.toList) line := by
  induction h with
  | last blanks =>
      have hblanks := Text.blanks_replicate blanks
      exact .word Text.blanks_nil (.blanks hblanks) fun c hc => hblanks c (List.mem_of_head? hc)
  | @cons position starts cell cells line blanks _ ih =>
      have hrest := ih.append_left (Text.blanks_replicate (blanks + 2))
      refine .word Text.blanks_nil hrest fun c hc => ?_
      rw [List.replicate_succ, List.cons_append, List.head?_cons] at hc
      cases hc
      rfl

theorem words_eq (h : Laid position starts cells line)
    (hcells : ∀ cell ∈ cells, Text.IsWord cell.toList) :
    Text.words line = cells.map String.toList := by
  refine h.spaced.words_eq fun word hword => ?_
  obtain ⟨cell, hcell, rfl⟩ := List.mem_map.mp hword
  exact hcells cell hcell

end Laid

/-! The columns of the grid. -/

/-- Where columns of these widths begin, two blanks apart. -/
def starts (position : Nat) : List Nat → List Nat
  | [] => []
  | width :: widths => position :: starts (position + width + 2) widths

variable (t : Table)

variable {t}

/-- What is written for an entry, in the grid and in the overview. -/
structure Shows (entry : Option Action) (word cell : String) : Prop where
  absent_iff : word = absentText ↔ entry = none
  read_eq : ∀ action, entry = some action → action.target < UInt64.size →
    Action.read word = .ok action
  cell_empty_iff : cell = "" ↔ entry = none
  cell_eq : entry ≠ none → cell = word

end Grid

/-! The cells of the overview hold a text without line feeds as it is. -/

namespace Text.Box

end Text.Box

namespace Overview

end Overview

namespace Table

variable {t : Table} {column : Nat} {symbol : Symbol}

def accented : Table :=
  build (Automaton.build .accented .breadthFirst)

end Table
end CanonicalLR
