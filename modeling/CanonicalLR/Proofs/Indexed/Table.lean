import CanonicalLR.Proofs.Indexed.Automaton
import CanonicalLR.Proofs.Table.Competition

namespace CanonicalLR

open Indexed

/-! The table as one vector of cells, row behind row.  Conflicts stand in a vector of their
own, and the place of each is kept by its cell. -/

/-- A conflict with the name of its symbol. -/
structure NamedConflict extends Conflict where
  symbolName : String

structure Sheet where
  layout : Layout
  columns : List Symbol
  cells : List (Option Action)
  conflicts : List NamedConflict
  /-- Where the conflict of a state and a column stands. -/
  places : List ((Nat × Nat) × Nat)

namespace Sheet

/-- The content of a cell.  The table has no cell for other symbols and states. -/
def entry? (s : Sheet) (state : Nat) (symbol : Symbol) : Option (Option Action) :=
  match s.columns.idxOf? symbol with
  | none => some none
  | some column =>
      if s.layout.states.length ≤ state then some none
      else s.cells[state * s.columns.length + column]?

/-- Enters an action that a cell refuses. -/
def collide? (s : Sheet) (p : Proposal) (column : Nat) (kept : Action) : Option Sheet :=
  match s.places.lookup (p.state, column) with
  | some place => do
      let conflicts ← update? s.conflicts place fun c =>
        { c with toConflict := c.toConflict.discard p.action }
      return { s with conflicts := conflicts }
  | none => do
      let name ← s.layout.catalog.name? p.symbol
      return { s with
        conflicts := s.conflicts ++ [⟨⟨p.state, p.symbol, kept, [p.action]⟩, name⟩]
        places := s.places ++ [((p.state, column), s.conflicts.length)] }

def enter? (s : Sheet) (p : Proposal) : Option Sheet := do
  let column ← s.columns.idxOf? p.symbol
  let cell := p.state * s.columns.length + column
  match ← s.cells[cell]? with
  | none => do
      let cells ← update? s.cells cell fun _ => some p.action
      return { s with cells := cells }
  | some kept => if kept = p.action then return s else s.collide? p column kept

end Sheet

namespace Layout

def itemProposals? (l : Layout) (state : Nat) (item : Item) : Option (List Proposal) := do
  if ← item.atEnd? l.catalog then
    return item.lookahead.toList.map fun t => ⟨state, .terminal t, .reduce item.rule⟩
  else return []

def stateProposals? (l : Layout) (index : Nat) (state : State) : Option (List Proposal) := do
  let transitions ← l.transitionsFrom? index
  let reductions ← if state.reduces then state.items.mapM (l.itemProposals? index) else some []
  return transitions.map (Automaton.transitionProposal index) ++ reductions.flatten

def proposals? (l : Layout) : Option (List Proposal) := do
  let proposals ← l.states.zipIdx.mapM fun (state, index) => l.stateProposals? index state
  return proposals.flatten

def blankSheet (l : Layout) : Sheet where
  layout := l
  columns := l.catalog.symbols
  cells := List.replicate (l.states.length * l.catalog.symbols.length) none
  conflicts := []
  places := []

end Layout

def Sheet.build? (l : Layout) : Option Sheet := do
  (← l.proposals?).foldlM enter? l.blankSheet

/-! Entering proposals. -/

/-! Of the layout, only the names of the symbols are read. -/

namespace Sheet

variable {s : Sheet} {l : Layout}

theorem collide?_layout (hcatalog : l.catalog = s.layout.catalog) (p : Proposal)
    (column : Nat) (kept : Action) :
    { s with layout := l }.collide? p column kept =
      (s.collide? p column kept).map ({ · with layout := l }) := by
  unfold collide?
  dsimp only
  rw [hcatalog]
  cases s.places.lookup (p.state, column) with
  | none =>
      dsimp only [Option.bind_eq_bind]
      rw [Option.map_bind]
      rfl
  | some place =>
      dsimp only [Option.bind_eq_bind]
      rw [Option.map_bind]
      rfl

theorem enter?_layout (hcatalog : l.catalog = s.layout.catalog) (p : Proposal) :
    { s with layout := l }.enter? p = (s.enter? p).map ({ · with layout := l }) := by
  unfold enter?
  simp only [Option.bind_eq_bind, Option.map_bind, Function.comp_def]
  refine Option.bind_congr fun column _ => Option.bind_congr fun content _ => ?_
  cases content with
  | none =>
      dsimp only
      rw [Option.map_bind]
      rfl
  | some kept =>
      dsimp only
      split
      · rfl
      · exact collide?_layout hcatalog p column kept

end Sheet

namespace Conflict

def named (g : Grammar) (c : Conflict) : NamedConflict :=
  ⟨c, g.name c.symbol⟩

def key (columns : List Symbol) (c : Conflict) : Nat × Nat :=
  (c.state, columns.idxOf c.symbol)

/-- Where the conflicts of a log stand, from a place on. -/
def placesFrom (columns : List Symbol) (place : Nat) (conflicts : List Conflict) :
    List ((Nat × Nat) × Nat) :=
  (conflicts.zipIdx place).map fun (c, place) => (c.key columns, place)

variable {columns : List Symbol} {conflicts : List Conflict} {collision : Collision}

theorem key_eq_iff (c : Conflict) (hsymbol : collision.symbol ∈ columns) :
    c.key columns = (collision.state, columns.idxOf collision.symbol) ↔
      c.concerns collision = true := by
  rw [concerns_iff, key, cell, Prod.mk.injEq, Prod.mk.injEq]
  refine and_congr_right fun _ => ⟨fun hcolumn => ?_, fun heq => heq ▸ rfl⟩
  exact Classical.byContradiction fun hne => Cells.idxOf_ne_of_ne hsymbol (Ne.symm hne) hcolumn

@[simp] theorem key_discard (c : Conflict) (action : Action) :
    (c.discard action).key columns = c.key columns := by
  unfold discard
  split <;> rfl

theorem named_discard {g : Grammar} (action : Action) (c : Conflict) :
    ({ c.named g with toConflict := (c.named g).toConflict.discard action } : NamedConflict) =
      (c.discard action).named g := by
  have hsymbol : (c.discard action).symbol = c.symbol := congrArg Prod.snd (cell_discard c action)
  rw [named, named, hsymbol]

theorem lookup_placesFrom (conflicts : List Conflict) (collision : Collision)
    (hsymbol : collision.symbol ∈ columns) (place : Nat) :
    (placesFrom columns place conflicts).lookup
        (collision.state, columns.idxOf collision.symbol) =
      (conflicts.findIdx? (·.concerns collision)).map (· + place) := by
  induction conflicts generalizing place with
  | nil => rfl
  | cons c conflicts ih =>
      rw [placesFrom, List.zipIdx_cons, List.map_cons, List.lookup_cons, List.findIdx?_cons,
        ← placesFrom, ih]
      by_cases hc : c.concerns collision = true
      · rw [if_pos hc, beq_iff_eq.mpr ((key_eq_iff c hsymbol).mpr hc).symm]
        simp
      · rw [if_neg hc, beq_false_of_ne fun heq => hc ((key_eq_iff c hsymbol).mp heq.symm)]
        cases conflicts.findIdx? (·.concerns collision) with
        | none => rfl
        | some found => simp [Nat.add_assoc, Nat.add_comm 1]

theorem placesFrom_concat (c : Conflict) :
    placesFrom columns 0 (conflicts ++ [c]) =
      placesFrom columns 0 conflicts ++ [(c.key columns, conflicts.length)] := by
  simp [placesFrom, List.zipIdx_append]

/-- A collision on a cell that has a conflict changes that conflict in its place. -/
theorem update?_log (hnodup : (conflicts.map cell).Nodup) {place : Nat}
    (hplace : conflicts.findIdx? (·.concerns collision) = some place) :
    update? conflicts place (·.discard collision.refused) = some (log conflicts collision) := by
  obtain ⟨hlt, hself, _⟩ := List.findIdx?_eq_some_iff_getElem.mp hplace
  have hany : conflicts.any (·.concerns collision) = true :=
    List.any_eq_true.mpr ⟨_, List.getElem_mem hlt, hself⟩
  rw [update?, List.getElem?_eq_getElem hlt, Option.map_some, log, if_pos hany]
  refine congrArg some (List.ext_getElem? fun other => ?_)
  rw [List.getElem?_set, List.getElem?_map]
  by_cases heq : place = other
  · subst heq
    rw [if_pos rfl, if_pos hlt, List.getElem?_eq_getElem hlt, Option.map_some, if_pos hself]
  · rw [if_neg heq]
    cases hother : conflicts[other]? with
    | none => rfl
    | some c =>
        obtain ⟨hbound, rfl⟩ := List.getElem?_eq_some_iff.mp hother
        rw [Option.map_some, if_neg fun hc => heq ?_]
        refine (List.getElem?_inj (by rwa [List.length_map]) hnodup).mp ?_
        rw [List.getElem?_map, List.getElem?_map, List.getElem?_eq_getElem hlt, hother,
          Option.map_some, Option.map_some, concerns_iff.mp hself, concerns_iff.mp hc]

theorem placesFrom_log {place : Nat}
    (hplace : conflicts.findIdx? (·.concerns collision) = some place) :
    placesFrom columns 0 (log conflicts collision) = placesFrom columns 0 conflicts := by
  obtain ⟨hlt, hself, _⟩ := List.findIdx?_eq_some_iff_getElem.mp hplace
  rw [log, if_pos (List.any_eq_true.mpr ⟨_, List.getElem_mem hlt, hself⟩), placesFrom,
    List.zipIdx_map, List.map_map]
  refine List.map_congr_left fun entry _ => ?_
  obtain ⟨c, other⟩ := entry
  dsimp only [Function.comp_apply, Prod.map]
  split
  · rw [key_discard]
    rfl
  · rfl

end Conflict

theorem idxOf?_of_mem {columns : List Symbol} {symbol : Symbol} (h : symbol ∈ columns) :
    columns.idxOf? symbol = some (columns.idxOf symbol) :=
  List.findIdx?_eq_some_of_exists ⟨symbol, h, beq_self_eq_true symbol⟩

namespace Draft

def sheet (a : Automaton) (draft : Draft) : Sheet where
  layout := a.layout
  columns := draft.cells.columns
  cells := draft.cells.rows.flatten
  conflicts := (Conflict.ofCollisions draft.collisions).map (Conflict.named a.grammar)
  places := Conflict.placesFrom draft.cells.columns 0 (Conflict.ofCollisions draft.collisions)

variable {a : Automaton} {draft : Draft} {proposals : List Proposal} {p : Proposal}

/-- A cell that the table has is in its place in the vector. -/
theorem getElem?_cells {cells : Cells} (hfull : cells.Full) {state : Nat} {symbol : Symbol}
    (hstate : state < cells.rows.length) (hsymbol : symbol ∈ cells.columns) :
    cells.rows.flatten[state * cells.columns.length + cells.columns.idxOf symbol]? =
      some (cells.entry state symbol) := by
  rw [getElem?_flatten hfull.length_of_mem (List.idxOf_lt_length_iff.mpr hsymbol)]
  have hrow := hfull.length_of_mem _ (List.getElem_mem hstate)
  have hcolumn : cells.columns.idxOf symbol < cells.rows[state].length :=
    hrow ▸ List.idxOf_lt_length_iff.mpr hsymbol
  rw [Cells.entry, List.getElem?_eq_getElem hstate, Option.bind_some,
    List.getElem?_eq_getElem hcolumn, Option.join_some]

theorem update?_cells {cells : Cells} (hfull : cells.Full) {state : Nat} {symbol : Symbol}
    (hstate : state < cells.rows.length) (hsymbol : symbol ∈ cells.columns) (action : Action) :
    update? cells.rows.flatten (state * cells.columns.length + cells.columns.idxOf symbol)
        (fun _ => some action) = some (cells.write state symbol action).rows.flatten := by
  rw [update?, getElem?_cells hfull hstate hsymbol, Option.map_some,
    set_flatten hfull.length_of_mem (List.idxOf_lt_length_iff.mpr hsymbol)]
  rfl

/-- The conflict of a cell is in its place, and one that is added has a name. -/
theorem Records.collide?_eq (h : draft.Records proposals) (hp : p.Fits draft.cells)
    (hname : p.symbol ∈ a.grammar.symbols) (kept : Action) :
    (draft.sheet a).collide? p (draft.cells.columns.idxOf p.symbol) kept =
      some (sheet a ⟨draft.cells,
        draft.collisions ++ [⟨p.state, p.symbol, kept, p.action⟩]⟩) := by
  have hlookup := Conflict.lookup_placesFrom (Conflict.ofCollisions draft.collisions)
    ⟨p.state, p.symbol, kept, p.action⟩ hp.symbol_mem 0
  rw [Sheet.collide?, sheet, sheet, ofCollisions_concat]
  dsimp only at hlookup ⊢
  rw [hlookup]
  cases hfind : (Conflict.ofCollisions draft.collisions).findIdx?
      (·.concerns ⟨p.state, p.symbol, kept, p.action⟩) with
  | some place =>
      have hchange := Conflict.update?_log h.cells_nodup hfind
      rw [Option.map_some, Nat.add_zero, Conflict.placesFrom_log hfind]
      dsimp only
      rw [update?_map (Conflict.named_discard p.action), hchange]
      rfl
  | none =>
      have hnone : ¬(Conflict.ofCollisions draft.collisions).any
          (·.concerns ⟨p.state, p.symbol, kept, p.action⟩) = true := fun hany => by
        obtain ⟨c, hc, hself⟩ := List.any_eq_true.mp hany
        exact absurd hself (ne_true_of_eq_false (List.findIdx?_eq_none_iff.mp hfind c hc))
      rw [Option.map_none, Conflict.log, if_neg hnone, Conflict.placesFrom_concat,
        List.map_append, List.length_map]
      dsimp only
      have hsymbol : a.layout.catalog.name? p.symbol = some (a.grammar.name p.symbol) :=
        Vocabulary.name?_eq hname
      rw [hsymbol]
      rfl

theorem Records.enter?_eq (h : draft.Records proposals) (hp : p.Fits draft.cells)
    (hname : p.symbol ∈ a.grammar.symbols) :
    (draft.sheet a).enter? p = some ((draft.enter p).sheet a) := by
  rw [Sheet.enter?]
  dsimp only [sheet]
  rw [idxOf?_of_mem hp.symbol_mem, Option.bind_eq_bind, Option.bind_some,
    getElem?_cells h.full hp.state_lt hp.symbol_mem, Option.bind_eq_bind, Option.bind_some,
    Draft.enter]
  cases hentry : draft.cells.entry p.state p.symbol with
  | none =>
      dsimp only
      rw [update?_cells h.full hp.state_lt hp.symbol_mem]
      rfl
  | some kept =>
      dsimp only
      by_cases heq : kept = p.action
      · rw [if_pos heq, if_pos heq]
        rfl
      · rw [if_neg heq, if_neg heq]
        exact h.collide?_eq hp hname kept

theorem length_rows_foldl (draft : Draft) (proposals : List Proposal) :
    (proposals.foldl enter draft).cells.rows.length = draft.cells.rows.length := by
  induction proposals generalizing draft with
  | nil => rfl
  | cons p proposals ih => exact (ih (draft.enter p)).trans (length_rows_enter draft p)

theorem fits_foldl (hp : p.Fits draft.cells) (proposals : List Proposal) :
    p.Fits (proposals.foldl enter draft).cells := by
  induction proposals generalizing draft with
  | nil => exact hp
  | cons q proposals ih => exact ih (fits_enter hp q)

theorem entry?_sheet {l : Layout} (hfull : draft.cells.Full)
    (hrows : draft.cells.rows.length = l.states.length) (state : Nat) (symbol : Symbol) :
    Sheet.entry? { draft.sheet a with layout := l } state symbol =
      some (draft.cells.entry state symbol) := by
  rw [Sheet.entry?]
  dsimp only [sheet]
  by_cases hsymbol : symbol ∈ draft.cells.columns
  · rw [idxOf?_of_mem hsymbol]
    dsimp only
    by_cases hstate : l.states.length ≤ state
    · rw [if_pos hstate, Cells.entry, List.getElem?_eq_none (hrows ▸ hstate)]
      rfl
    · rw [if_neg hstate]
      exact getElem?_cells hfull (hrows ▸ Nat.lt_of_not_le hstate) hsymbol
  · rw [List.idxOf?_eq_none_iff.mpr hsymbol, Cells.entry_eq_none hfull hsymbol]

/-- The offsets of the transitions play no part once it is known what is proposed. -/
theorem foldlM_enter?_eq {l : Layout} (hcatalog : l.catalog = a.grammar.catalog)
    (hstates : l.states = a.states)
    (hfits : ∀ p ∈ proposals, p.Fits (.blank a.grammar.symbols a.stateCount)) :
    proposals.foldlM Sheet.enter? l.blankSheet =
      some { sheet a (proposals.foldl enter ⟨.blank a.grammar.symbols a.stateCount, []⟩) with
        layout := l } := by
  have hblank : l.blankSheet =
      { sheet a ⟨.blank a.grammar.symbols a.stateCount, []⟩ with layout := l } := by
    simp [Layout.blankSheet, sheet, Cells.blank, hcatalog, hstates, Automaton.stateCount,
      Conflict.ofCollisions, Conflict.placesFrom]
  rw [hblank]
  refine foldlM_eq_state (fun done => { sheet a
    (done.foldl enter ⟨.blank a.grammar.symbols a.stateCount, []⟩) with layout := l }) ?_
  intro done p rest hlist
  have hdone : ∀ q ∈ done, q.Fits (.blank a.grammar.symbols a.stateCount) :=
    fun q hq => hfits q (hlist ▸ List.mem_append_left _ hq)
  have hp := hfits p (hlist ▸ List.mem_append_right done List.mem_cons_self)
  have hrecords := (blank_records a.grammar.symbols a.stateCount).foldl_enter hdone
  rw [Sheet.enter?_layout (by exact hcatalog), List.foldl_append,
    hrecords.enter?_eq (fits_foldl hp done) hp.symbol_mem]
  rfl

end Draft

/-! What is proposed, and the finished table. -/

namespace Automaton

variable {a : Automaton}

theorem itemProposals?_eq {item : Item} (hrule : item.rule < a.grammar.rules.length)
    (state : Nat) :
    a.layout.itemProposals? state item = some (itemProposals a.grammar state item) := by
  rw [Layout.itemProposals?, layout, Item.atEnd?_eq hrule, Option.bind_eq_bind, Option.bind_some,
    itemProposals]
  split <;> rfl

theorem Canonical.stateProposals?_eq (ha : a.Canonical) (hgrouped : a.Grouped) {index : Nat}
    {state : State} (hstate : a.states[index]? = some state) :
    a.layout.stateProposals? index state = some (a.stateProposals index state) := by
  have hitems : ∀ item ∈ state.items,
      a.layout.itemProposals? index item = some (itemProposals a.grammar index item) := by
    intro item hitem
    have hmem : item ∈ a.itemsOf index := itemsOf_eq_of_state? hstate ▸ hitem
    exact itemProposals?_eq (ha.proper item hmem).rule_lt index
  rw [Layout.stateProposals?, hgrouped.transitionsFrom?_eq ha.source_lt, Option.bind_eq_bind,
    Option.bind_some, stateProposals]
  cases state.reduces with
  | false => rfl
  | true =>
      rw [if_pos rfl, if_pos rfl, mapM_eq_some hitems]
      simp [List.flatMap_def]

theorem Canonical.proposals?_eq (ha : a.Canonical) (hgrouped : a.Grouped) :
    a.layout.proposals? = some a.proposals := by
  have hstates : ∀ found ∈ a.states.zipIdx,
      a.layout.stateProposals? found.2 found.1 = some (a.stateProposals found.2 found.1) :=
    fun found hfound => ha.stateProposals?_eq hgrouped (List.mem_zipIdx_iff_getElem?.mp hfound)
  have hproposals : a.states.zipIdx.mapM (fun found => a.layout.stateProposals? found.2 found.1) =
      some (a.states.zipIdx.map fun found => a.stateProposals found.2 found.1) :=
    mapM_eq_some hstates
  rw [Layout.proposals?]
  simp only [layout] at hproposals ⊢
  rw [hproposals]
  simp [proposals, List.flatMap_def]

end Automaton

namespace Table

variable {a : Automaton}

/-- The vectors in which a table is kept. -/
def sheet (t : Table) : Sheet :=
  Draft.sheet t.automaton ⟨t.cells, t.collisions⟩

theorem build?_eq (ha : a.Canonical) (hgrouped : a.Grouped) :
    Sheet.build? a.layout = some (build a).sheet := by
  rw [Sheet.build?, ha.proposals?_eq hgrouped, Option.bind_eq_bind, Option.bind_some,
    Draft.foldlM_enter?_eq (l := a.layout) rfl rfl (proposals_fit ha)]
  rfl

theorem entry?_sheet (a : Automaton) (state : Nat) (symbol : Symbol) :
    (build a).sheet.entry? state symbol = some ((build a).entry state symbol) := by
  have hfull : (build a).cells.Full :=
    (Draft.foldl_enter_full (Cells.blank_full _ _) a.proposals).1
  have hrows : (build a).cells.rows.length = a.stateCount :=
    (Draft.length_rows_foldl _ a.proposals).trans List.length_replicate
  exact Draft.entry?_sheet (l := a.layout) hfull hrows state symbol

end Table
end CanonicalLR
