import CanonicalLR.Automaton.Basic
import CanonicalLR.Table.Conflict

namespace CanonicalLR

/-! The action table: a row for each state, a column for each symbol.  Actions
are proposed state by state, and of several proposals for one cell the first
one stays. -/

structure Proposal where
  state : Nat
  symbol : Symbol
  action : Action
deriving DecidableEq

namespace Automaton

/-- A transition proposes a shift on a terminal, a goto on a nonterminal. -/
def transitionProposal (state : Nat) (transition : Transition) : Proposal where
  state := state
  symbol := transition.symbol
  action :=
    if transition.symbol.isTerminal then .shift transition.target
    else .goto transition.target

/-- An item with its dot at the end proposes its reduction on every terminal of
its lookahead. -/
def itemProposals (g : Grammar) (state : Nat) (item : Item) : List Proposal :=
  if item.atEnd g then
    item.lookahead.toList.map fun t => ⟨state, .terminal t, .reduce item.rule⟩
  else []

def stateProposals (a : Automaton) (index : Nat) (state : State) : List Proposal :=
  (a.transitionsFrom index).map (transitionProposal index) ++
    if state.reduces then state.items.flatMap (itemProposals a.grammar index) else []

def proposals (a : Automaton) : List Proposal :=
  a.states.zipIdx.flatMap fun (state, index) => a.stateProposals index state

end Automaton

/-! Rows of cells, written in place. -/

structure Cells where
  columns : List Symbol
  rows : List (List (Option Action))
deriving DecidableEq

namespace Cells

def blank (columns : List Symbol) (states : Nat) : Cells where
  columns := columns
  rows := List.replicate states (List.replicate columns.length none)

/-- Content of a cell; a cell outside the table is empty. -/
def entry (cells : Cells) (state : Nat) (symbol : Symbol) : Option Action :=
  ((cells.rows[state]?.bind (·[cells.columns.idxOf symbol]?)).join)

def write (cells : Cells) (state : Nat) (symbol : Symbol) (action : Action) : Cells :=
  { cells with
    rows := cells.rows.modify state (·.set (cells.columns.idxOf symbol) (some action)) }

/-! Writing a cell of a table with full rows changes that cell and no other. -/

structure Full (cells : Cells) : Prop where
  length_of_mem : ∀ row ∈ cells.rows, row.length = cells.columns.length

theorem blank_full (columns : List Symbol) (states : Nat) : (blank columns states).Full where
  length_of_mem row hrow := by
    rw [List.eq_of_mem_replicate hrow, List.length_replicate]
    rfl

@[simp] theorem entry_blank (columns : List Symbol) (states state : Nat) (symbol : Symbol) :
    (blank columns states).entry state symbol = none := by
  unfold entry blank
  rw [List.getElem?_replicate]
  split
  · rw [Option.bind_some, List.getElem?_replicate]
    split <;> rfl
  · rfl

@[simp] theorem columns_write (cells : Cells) (state : Nat) (symbol : Symbol)
    (action : Action) : (cells.write state symbol action).columns = cells.columns := rfl

@[simp] theorem length_rows_write (cells : Cells) (state : Nat) (symbol : Symbol)
    (action : Action) :
    (cells.write state symbol action).rows.length = cells.rows.length := by
  simp [write]

theorem Full.write {cells : Cells} (hfull : cells.Full) (state : Nat) (symbol : Symbol)
    (action : Action) : (cells.write state symbol action).Full where
  length_of_mem row hrow := by
    obtain ⟨index, hindex, rfl⟩ := List.mem_iff_getElem.mp hrow
    have hlength : index < cells.rows.length := by simpa using hindex
    have hold := hfull.length_of_mem _ (List.getElem_mem hlength)
    simp only [Cells.write, List.getElem_modify]
    split
    · rw [List.length_set, hold]
    · exact hold

theorem entry_write_self {cells : Cells} (hfull : cells.Full) {state : Nat} {symbol : Symbol}
    (hstate : state < cells.rows.length) (hsymbol : symbol ∈ cells.columns)
    (action : Action) :
    (cells.write state symbol action).entry state symbol = some action := by
  have hcolumn : cells.columns.idxOf symbol < cells.rows[state].length := by
    rw [hfull.length_of_mem _ (List.getElem_mem hstate)]
    exact List.idxOf_lt_length_iff.mpr hsymbol
  simp [entry, write, List.getElem?_eq_getElem hstate, hcolumn]

theorem idxOf_ne_of_ne {columns : List Symbol} {symbol column : Symbol}
    (hcolumn : column ∈ columns) (hne : column ≠ symbol) :
    columns.idxOf symbol ≠ columns.idxOf column := by
  intro heq
  have hlt : columns.idxOf column < columns.length := List.idxOf_lt_length_iff.mpr hcolumn
  have hfound : columns[columns.idxOf column] = symbol := by
    simp only [← heq]
    exact List.getElem_idxOf (heq ▸ hlt)
  exact hne (by rw [← hfound, List.getElem_idxOf hlt])

theorem entry_write_other {cells : Cells} {state other : Nat} {symbol column : Symbol}
    (hcolumn : column ∈ cells.columns) (hne : other ≠ state ∨ column ≠ symbol)
    (action : Action) :
    (cells.write state symbol action).entry other column = cells.entry other column := by
  by_cases hstate : state = other
  · subst hstate
    have hindex : cells.columns.idxOf symbol ≠ cells.columns.idxOf column :=
      idxOf_ne_of_ne hcolumn (hne.resolve_left (fun hself => hself rfl))
    cases hrow : cells.rows[state]? with
    | none => simp [entry, write, hrow]
    | some row => simp [entry, write, hrow, List.getElem?_set_ne hindex]
  · simp [entry, write, hstate]

end Cells

/-- A table while proposals are entered: its cells, and the collisions so far. -/
structure Draft where
  cells : Cells
  collisions : List Collision
deriving DecidableEq

namespace Draft

/-- Enters a proposal.  The same action proposed again is no collision. -/
def enter (draft : Draft) (p : Proposal) : Draft :=
  match draft.cells.entry p.state p.symbol with
  | none => { draft with cells := draft.cells.write p.state p.symbol p.action }
  | some kept =>
      if kept = p.action then draft
      else { draft with
        collisions := draft.collisions ++ [⟨p.state, p.symbol, kept, p.action⟩] }

end Draft

structure Table where
  automaton : Automaton
  cells : Cells
  /-- Collisions in the order in which they happened. -/
  collisions : List Collision
deriving DecidableEq

/-- What to do about cells with several proposals. -/
inductive ConflictPolicy where
  | firstWins
  | fail
deriving DecidableEq

namespace Table

def grammar (t : Table) : Grammar := t.automaton.grammar

def stateCount (t : Table) : Nat := t.automaton.stateCount

def columns (t : Table) : List Symbol := t.cells.columns

def entry (t : Table) (state : Nat) (symbol : Symbol) : Option Action :=
  t.cells.entry state symbol

def entryByName (t : Table) (state : Nat) (name : String) : Option Action :=
  (t.grammar.symbol? name).bind (t.entry state)

def conflicts (t : Table) : List Conflict :=
  Conflict.ofCollisions t.collisions

def hasConflicts (t : Table) : Bool :=
  !t.conflicts.isEmpty

/-- The table in which the first proposal for a cell wins. -/
def build (a : Automaton) : Table :=
  let blank : Draft := ⟨.blank a.grammar.symbols a.stateCount, []⟩
  let draft := a.proposals.foldl Draft.enter blank
  ⟨a, draft.cells, draft.collisions⟩

/-- The first conflict, under a policy that tolerates none. -/
def buildWith (a : Automaton) (policy : ConflictPolicy) : Except Conflict Table :=
  let table := build a
  match policy, table.conflicts with
  | .fail, conflict :: _ => .error conflict
  | _, _ => .ok table

def conflictMessage (g : Grammar) (c : Conflict) : String :=
  "Conflict in state " ++ toString c.state ++ " on " ++ g.name c.symbol ++ ": " ++
    c.describe

end Table
end CanonicalLR
