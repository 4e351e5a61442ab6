import CanonicalLR.Proofs.Automaton.Canonical
import CanonicalLR.Proofs.Grammar.First
import CanonicalLR.Table.Basic

namespace CanonicalLR

/-! A cell of the table holds the first action that was proposed for it, and
without conflicts every action that was proposed for it. -/

namespace Proposal

def concerns (p : Proposal) (state : Nat) (symbol : Symbol) : Bool :=
  p.state = state && p.symbol = symbol

/-- The action of the first proposal for a cell. -/
def firstAction (proposals : List Proposal) (state : Nat) (symbol : Symbol) : Option Action :=
  (proposals.find? (·.concerns state symbol)).map Proposal.action

/-- The proposal is for a cell that the table has. -/
structure Fits (p : Proposal) (cells : Cells) : Prop where
  state_lt : p.state < cells.rows.length
  symbol_mem : p.symbol ∈ cells.columns

theorem concerns_iff {p : Proposal} {state : Nat} {symbol : Symbol} :
    p.concerns state symbol = true ↔ p.state = state ∧ p.symbol = symbol := by
  simp [concerns]

@[simp] theorem firstAction_nil (state : Nat) (symbol : Symbol) :
    firstAction [] state symbol = none := rfl

theorem firstAction_cons (p : Proposal) (proposals : List Proposal) (state : Nat)
    (symbol : Symbol) :
    firstAction (p :: proposals) state symbol =
      (if p.concerns state symbol then some p.action else none).or
        (firstAction proposals state symbol) := by
  rw [firstAction, List.find?_cons]
  cases p.concerns state symbol <;> rfl

theorem firstAction_eq_some {proposals : List Proposal} {state : Nat} {symbol : Symbol}
    {action : Action} (h : firstAction proposals state symbol = some action) :
    ⟨state, symbol, action⟩ ∈ proposals := by
  obtain ⟨p, hfind, rfl⟩ := Option.map_eq_some_iff.mp h
  have hconcerns : p.concerns state symbol = true := by
    simpa using List.find?_some hfind
  obtain ⟨rfl, rfl⟩ := concerns_iff.mp hconcerns
  exact List.mem_of_find?_eq_some hfind

theorem firstAction_ne_none {proposals : List Proposal} {p : Proposal}
    (h : p ∈ proposals) : firstAction proposals p.state p.symbol ≠ none := by
  intro hnone
  have hfind := List.find?_eq_none.mp (Option.map_eq_none_iff.mp hnone) p h
  exact hfind (concerns_iff.mpr ⟨rfl, rfl⟩)

end Proposal

namespace Draft

variable {draft : Draft} {p : Proposal}

theorem columns_enter (draft : Draft) (p : Proposal) :
    (draft.enter p).cells.columns = draft.cells.columns := by
  unfold enter
  split
  · rfl
  · split <;> rfl

theorem length_rows_enter (draft : Draft) (p : Proposal) :
    (draft.enter p).cells.rows.length = draft.cells.rows.length := by
  unfold enter
  split
  · exact Cells.length_rows_write ..
  · split <;> rfl

theorem full_enter (hfull : draft.cells.Full) (p : Proposal) :
    (draft.enter p).cells.Full := by
  unfold enter
  split
  · exact hfull.write ..
  · split <;> exact hfull

theorem fits_enter {other : Proposal} (h : other.Fits draft.cells) (p : Proposal) :
    other.Fits (draft.enter p).cells where
  state_lt := by
    rw [length_rows_enter]
    exact h.state_lt
  symbol_mem := by
    rw [columns_enter]
    exact h.symbol_mem

/-- What a cell holds stays there; an empty cell takes a proposal that is for it. -/
theorem entry_enter (hfull : draft.cells.Full) (hp : p.Fits draft.cells) {state : Nat}
    {symbol : Symbol} (hsymbol : symbol ∈ draft.cells.columns) :
    (draft.enter p).cells.entry state symbol =
      (draft.cells.entry state symbol).or
        (if p.concerns state symbol then some p.action else none) := by
  by_cases hconcerns : p.concerns state symbol = true
  · obtain ⟨rfl, rfl⟩ := Proposal.concerns_iff.mp hconcerns
    rw [if_pos hconcerns]
    unfold enter
    cases hentry : draft.cells.entry p.state p.symbol with
    | none => exact Cells.entry_write_self hfull hp.state_lt hp.symbol_mem p.action
    | some kept =>
        dsimp only
        split <;> exact hentry
  · rw [if_neg hconcerns, Option.or_none]
    have hne : state ≠ p.state ∨ symbol ≠ p.symbol := by
      by_cases hstate : state = p.state
      · refine .inr fun hsame => hconcerns (Proposal.concerns_iff.mpr ⟨hstate.symm, hsame.symm⟩)
      · exact .inl hstate
    unfold enter
    split
    · exact Cells.entry_write_other hsymbol hne p.action
    · split <;> rfl

theorem entry_foldl_enter {proposals : List Proposal} (hfull : draft.cells.Full)
    (hfits : ∀ p ∈ proposals, p.Fits draft.cells) {state : Nat} {symbol : Symbol}
    (hsymbol : symbol ∈ draft.cells.columns) :
    (proposals.foldl enter draft).cells.entry state symbol =
      (draft.cells.entry state symbol).or
        (Proposal.firstAction proposals state symbol) := by
  induction proposals generalizing draft with
  | nil => rw [Proposal.firstAction_nil, Option.or_none, List.foldl_nil]
  | cons p proposals ih =>
      have hp := hfits p List.mem_cons_self
      have hrest : ∀ other ∈ proposals, other.Fits (draft.enter p).cells :=
        fun other hother => fits_enter (hfits other (List.mem_cons_of_mem p hother)) p
      have hcolumns : symbol ∈ (draft.enter p).cells.columns := by
        rw [columns_enter]
        exact hsymbol
      rw [List.foldl_cons, ih (full_enter hfull p) hrest hcolumns,
        entry_enter hfull hp hsymbol, Proposal.firstAction_cons, Option.or_assoc]

theorem foldl_enter_full (hfull : draft.cells.Full) (proposals : List Proposal) :
    (proposals.foldl enter draft).cells.Full ∧
      (proposals.foldl enter draft).cells.columns = draft.cells.columns := by
  induction proposals generalizing draft with
  | nil => exact ⟨hfull, rfl⟩
  | cons p proposals ih =>
      obtain ⟨hlast, hcolumns⟩ := ih (full_enter hfull p)
      exact ⟨hlast, hcolumns.trans (columns_enter draft p)⟩

theorem entry_of_collisions_enter (hfull : draft.cells.Full) (hp : p.Fits draft.cells)
    (h : (draft.enter p).collisions = []) :
    draft.collisions = [] ∧ (draft.enter p).cells.entry p.state p.symbol = some p.action := by
  have hconcerns : p.concerns p.state p.symbol = true := Proposal.concerns_iff.mpr ⟨rfl, rfl⟩
  rw [entry_enter hfull hp hp.symbol_mem, if_pos hconcerns]
  unfold enter at h
  cases hentry : draft.cells.entry p.state p.symbol with
  | none =>
      rw [hentry] at h
      exact ⟨h, rfl⟩
  | some kept =>
      rw [hentry] at h
      dsimp only at h
      split at h
      next hkept => exact ⟨h, by rw [hkept]; rfl⟩
      next => exact absurd h (by simp)

theorem entry_of_collisions_foldl {proposals : List Proposal} (hfull : draft.cells.Full)
    (hfits : ∀ p ∈ proposals, p.Fits draft.cells)
    (h : (proposals.foldl enter draft).collisions = []) :
    draft.collisions = [] ∧ ∀ p ∈ proposals,
      (proposals.foldl enter draft).cells.entry p.state p.symbol = some p.action := by
  induction proposals generalizing draft with
  | nil => exact ⟨h, fun p hp => absurd hp List.not_mem_nil⟩
  | cons p proposals ih =>
      have hp := hfits p List.mem_cons_self
      have hrest : ∀ other ∈ proposals, other.Fits (draft.enter p).cells :=
        fun other hother => fits_enter (hfits other (List.mem_cons_of_mem p hother)) p
      obtain ⟨hcollisions, hentries⟩ := ih (full_enter hfull p) hrest h
      obtain ⟨hdraft, hentry⟩ := entry_of_collisions_enter hfull hp hcollisions
      refine ⟨hdraft, fun other hother => ?_⟩
      rcases List.mem_cons.mp hother with rfl | hother
      · have hcolumns : other.symbol ∈ (draft.enter other).cells.columns := by
          rw [columns_enter]
          exact hp.symbol_mem
        rw [List.foldl_cons, entry_foldl_enter (full_enter hfull other) hrest hcolumns,
          hentry, Option.some_or]
      · exact hentries other hother

end Draft

theorem Cells.symbol_mem_of_entry {cells : Cells} (hfull : cells.Full) {state : Nat}
    {symbol : Symbol} {action : Action} (h : cells.entry state symbol = some action) :
    symbol ∈ cells.columns := by
  obtain ⟨row, hrow, hcell⟩ := Option.bind_eq_some_iff.mp (Option.join_eq_some_iff.mp h)
  obtain ⟨hcolumn, _⟩ := List.getElem?_eq_some_iff.mp hcell
  rw [hfull.length_of_mem row (List.mem_of_getElem? hrow)] at hcolumn
  exact List.idxOf_lt_length_iff.mp hcolumn

theorem Cells.entry_eq_none {cells : Cells} (hfull : cells.Full) {symbol : Symbol}
    (hsymbol : symbol ∉ cells.columns) (state : Nat) : cells.entry state symbol = none :=
  Option.eq_none_iff_forall_ne_some.mpr fun _ hentry =>
    hsymbol (Cells.symbol_mem_of_entry hfull hentry)

/-! Every collision leaves a conflict. -/

namespace Conflict

theorem log_ne_nil (conflicts : List Conflict) (collision : Collision) :
    log conflicts collision ≠ [] := by
  unfold log
  split
  next hany =>
    intro hnil
    rw [List.map_eq_nil_iff.mp hnil] at hany
    cases hany
  next => exact List.append_ne_nil_of_right_ne_nil _ (List.cons_ne_nil _ _)

theorem foldl_log_ne_nil {conflicts : List Conflict} (h : conflicts ≠ [])
    (collisions : List Collision) : collisions.foldl log conflicts ≠ [] := by
  induction collisions generalizing conflicts with
  | nil => exact h
  | cons collision collisions ih => exact ih (log_ne_nil conflicts collision)

theorem ofCollisions_eq_nil {collisions : List Collision}
    (h : ofCollisions collisions = []) : collisions = [] := by
  cases collisions with
  | nil => rfl
  | cons collision collisions => exact absurd h (foldl_log_ne_nil (log_ne_nil [] collision) _)

end Conflict

namespace Table

theorem buildWith_fail_eq_error_iff {a : Automaton} {c : Conflict} :
    buildWith a .fail = .error c ↔ (build a).conflicts.head? = some c := by
  unfold buildWith
  dsimp only
  cases (build a).conflicts with
  | nil => simp
  | cons first conflicts => simp

theorem buildWith_eq_ok_iff {a : Automaton} {policy : ConflictPolicy} {t : Table} :
    buildWith a policy = .ok t ↔
      t = build a ∧ (policy = .fail → (build a).conflicts = []) := by
  unfold buildWith
  dsimp only
  split
  next first conflicts hconflicts =>
    refine iff_of_false nofun fun ⟨_, hnone⟩ => ?_
    rw [hconflicts] at hnone
    cases hnone rfl
  next hnone =>
    constructor
    · intro h
      cases h
      refine ⟨rfl, fun hfail => ?_⟩
      cases hconflicts : (build a).conflicts with
      | nil => rfl
      | cons first conflicts => exact absurd hconflicts (hnone _ _ hfail)
    · rintro ⟨rfl, _⟩
      rfl

theorem buildWith_eq_ok {a : Automaton} {policy : ConflictPolicy} {t : Table}
    (h : buildWith a policy = .ok t) :
    t = build a ∧ (policy = .fail → (build a).collisions = []) := by
  obtain ⟨ht, hnone⟩ := buildWith_eq_ok_iff.mp h
  exact ⟨ht, fun hfail => Conflict.ofCollisions_eq_nil (hnone hfail)⟩

theorem collisions_eq_nil_of_hasConflicts {t : Table} (h : t.hasConflicts = false) :
    t.collisions = [] := by
  rw [hasConflicts, Bool.not_eq_false', List.isEmpty_iff] at h
  exact Conflict.ofCollisions_eq_nil h

end Table

/-! What is proposed: the transitions of the automaton, and the reductions that
the items at the end of their rules ask for. -/

namespace Automaton

variable {a : Automaton}

theorem mem_itemProposals {g : Grammar} {state : Nat} {item : Item} {p : Proposal} :
    p ∈ itemProposals g state item ↔
      item.atEnd g = true ∧ ∃ x ∈ item.lookahead,
        p = ⟨state, .terminal x, .reduce item.rule⟩ := by
  unfold itemProposals
  split
  next hend =>
    rw [List.mem_map]
    constructor
    · rintro ⟨x, hx, rfl⟩
      exact ⟨hend, x, hx, rfl⟩
    · rintro ⟨_, x, hx, rfl⟩
      exact ⟨x, hx, rfl⟩
  next hend => simp [hend]

theorem mem_stateProposals {index : Nat} {state : State} {p : Proposal} :
    p ∈ a.stateProposals index state ↔
      (∃ transition ∈ a.transitions, transition.source = index ∧
        p = transitionProposal index transition) ∨
      (state.reduces = true ∧
        ∃ item ∈ state.items, p ∈ itemProposals a.grammar index item) := by
  have hreductions : p ∈ (if state.reduces then
      state.items.flatMap (itemProposals a.grammar index) else []) ↔
        state.reduces = true ∧
          ∃ item ∈ state.items, p ∈ itemProposals a.grammar index item := by
    split
    next hreduces => rw [List.mem_flatMap, and_iff_right hreduces]
    next hreduces => simp [hreduces]
  rw [stateProposals, List.mem_append, hreductions, List.mem_map]
  refine or_congr_left ?_
  constructor
  · rintro ⟨transition, htransition, rfl⟩
    obtain ⟨hmem, hsource⟩ := mem_transitionsFrom.mp htransition
    exact ⟨transition, hmem, hsource, rfl⟩
  · rintro ⟨transition, hmem, hsource, rfl⟩
    exact ⟨transition, mem_transitionsFrom.mpr ⟨hmem, hsource⟩, rfl⟩

theorem mem_proposals {p : Proposal} :
    p ∈ a.proposals ↔ ∃ index state, a.states[index]? = some state ∧
      p ∈ a.stateProposals index state := by
  rw [proposals, List.mem_flatMap]
  constructor
  · rintro ⟨⟨state, index⟩, hzip, hp⟩
    exact ⟨index, state, List.mem_zipIdx_iff_getElem?.mp hzip, hp⟩
  · rintro ⟨index, state, hstate, hp⟩
    exact ⟨⟨state, index⟩, List.mem_zipIdx_iff_getElem?.mpr hstate, hp⟩

/-- What a transition or a reduction puts into a cell. -/
inductive Proposes (a : Automaton) (state : Nat) : Symbol → Action → Prop
  | shift {t : Terminal} {target : Nat}
      (hstep : ⟨state, .terminal t, target⟩ ∈ a.transitions) :
      a.Proposes state (.terminal t) (.shift target)
  | goto {n target : Nat} (hstep : ⟨state, .nonterminal n, target⟩ ∈ a.transitions) :
      a.Proposes state (.nonterminal n) (.goto target)
  | reduce {item : Item} {t : Terminal} (hitem : item ∈ a.itemsOf state)
      (hend : item.atEnd a.grammar = true) (ht : t ∈ item.lookahead) :
      a.Proposes state (.terminal t) (.reduce item.rule)

theorem states_getElem? {index : Nat} (h : index < a.stateCount) :
    ∃ state, a.states[index]? = some state ∧ a.itemsOf index = state.items := by
  have hstate : a.states[index]? = some a.states[index] := List.getElem?_eq_getElem h
  exact ⟨_, hstate, by rw [itemsOf, hstate]; rfl⟩

theorem mem_proposals_iff (ha : a.Canonical) {state : Nat} {symbol : Symbol}
    {action : Action} :
    ⟨state, symbol, action⟩ ∈ a.proposals ↔ a.Proposes state symbol action := by
  rw [mem_proposals]
  constructor
  · rintro ⟨index, found, hfound, hp⟩
    rcases mem_stateProposals.mp hp with
      ⟨⟨source, moved, target⟩, hstep, rfl, heq⟩ | ⟨_, item, hitem, hp⟩
    · cases heq
      cases moved with
      | terminal t => exact .shift hstep
      | nonterminal n => exact .goto hstep
    · obtain ⟨hend, t, ht, heq⟩ := mem_itemProposals.mp hp
      cases heq
      have hmem : item ∈ a.itemsOf state := by
        rw [itemsOf, hfound]
        exact hitem
      exact .reduce hmem hend ht
  · intro h
    cases h with
    | shift hstep =>
        obtain ⟨found, hfound, _⟩ := states_getElem? (ha.source_lt _ hstep)
        exact ⟨state, found, hfound, mem_stateProposals.mpr (.inl ⟨_, hstep, rfl, rfl⟩)⟩
    | goto hstep =>
        obtain ⟨found, hfound, _⟩ := states_getElem? (ha.source_lt _ hstep)
        exact ⟨state, found, hfound, mem_stateProposals.mpr (.inl ⟨_, hstep, rfl, rfl⟩)⟩
    | @reduce item t hitem hend ht =>
        obtain ⟨found, hfound, hitems⟩ := states_getElem? (Canonical.state_lt_of_mem hitem)
        rw [hitems] at hitem
        refine ⟨state, found, hfound, mem_stateProposals.mpr
          (.inr ⟨?_, item, hitem, mem_itemProposals.mpr ⟨hend, t, ht, rfl⟩⟩)⟩
        rw [ha.reduces_eq found (List.mem_of_getElem? hfound)]
        exact List.any_eq_true.mpr ⟨item, hitem, hend⟩

theorem Proposes.symbol_mem (ha : a.Canonical) {state : Nat} {symbol : Symbol}
    {action : Action} (h : a.Proposes state symbol action) :
    symbol ∈ a.grammar.symbols := by
  cases h with
  | shift hstep => exact ha.symbol_mem _ hstep
  | goto hstep => exact ha.symbol_mem _ hstep
  | @reduce item t hitem _ ht =>
      obtain ⟨origin, horigin, hlookahead⟩ := (ha.proper item hitem).lookahead_eq
      rw [hlookahead, Grammar.mem_firstOfSymbol_iff ha.wellFormed] at ht
      exact Vocabulary.terminal_mem_symbols.mpr (ht.mem_terminals ha.wellFormed horigin)

theorem Proposes.state_lt (ha : a.Canonical) {state : Nat} {symbol : Symbol}
    {action : Action} (h : a.Proposes state symbol action) : state < a.stateCount := by
  cases h with
  | shift hstep => exact ha.source_lt _ hstep
  | goto hstep => exact ha.source_lt _ hstep
  | reduce hitem => exact Canonical.state_lt_of_mem hitem

end Automaton

/-! Reading the finished table. -/

namespace Table

variable {a : Automaton} {state : Nat} {symbol : Symbol} {action : Action}

theorem proposals_fit (ha : a.Canonical) :
    ∀ p ∈ a.proposals, p.Fits (.blank a.grammar.symbols a.stateCount) := by
  rintro ⟨state, symbol, action⟩ hp
  have hproposes := (Automaton.mem_proposals_iff ha).mp hp
  refine ⟨?_, hproposes.symbol_mem ha⟩
  rw [Cells.blank, List.length_replicate]
  exact hproposes.state_lt ha

theorem entry_build (ha : a.Canonical) (hsymbol : symbol ∈ a.grammar.symbols) :
    (build a).entry state symbol = Proposal.firstAction a.proposals state symbol := by
  have hentry : (build a).entry state symbol =
      ((Cells.blank a.grammar.symbols a.stateCount).entry state symbol).or
        (Proposal.firstAction a.proposals state symbol) :=
    Draft.entry_foldl_enter (Cells.blank_full _ _) (proposals_fit ha) hsymbol
  rwa [Cells.entry_blank, Option.none_or] at hentry

theorem symbol_mem_of_entry (h : (build a).entry state symbol = some action) :
    symbol ∈ a.grammar.symbols := by
  have hshape : (build a).cells.Full ∧ (build a).cells.columns = a.grammar.symbols :=
    Draft.foldl_enter_full (Cells.blank_full _ _) a.proposals
  rw [← hshape.2]
  exact Cells.symbol_mem_of_entry hshape.1 h

theorem proposes_of_entry (ha : a.Canonical) (h : (build a).entry state symbol = some action) :
    a.Proposes state symbol action := by
  rw [entry_build ha (symbol_mem_of_entry h)] at h
  exact (Automaton.mem_proposals_iff ha).mp (Proposal.firstAction_eq_some h)

theorem entry_ne_none (ha : a.Canonical) (h : a.Proposes state symbol action) :
    (build a).entry state symbol ≠ none := by
  rw [entry_build ha (h.symbol_mem ha)]
  exact Proposal.firstAction_ne_none ((Automaton.mem_proposals_iff ha).mpr h)

/-- Without collisions a cell holds whatever was proposed for it. -/
theorem entry_eq_some (ha : a.Canonical) (hfree : (build a).collisions = [])
    (h : a.Proposes state symbol action) :
    (build a).entry state symbol = some action := by
  obtain ⟨_, hentries⟩ :=
    Draft.entry_of_collisions_foldl (Cells.blank_full _ _) (proposals_fit ha) hfree
  exact hentries _ ((Automaton.mem_proposals_iff ha).mpr h)

theorem entry_goto (ha : a.Canonical) {n target : Nat}
    (hstep : ⟨state, .nonterminal n, target⟩ ∈ a.transitions) :
    (build a).entry state (.nonterminal n) = some (.goto target) := by
  cases hentry : (build a).entry state (.nonterminal n) with
  | none => exact absurd hentry (entry_ne_none ha (.goto hstep))
  | some action =>
      cases proposes_of_entry ha hentry with
      | goto hother => rw [ha.source_unique hstep hother]

end Table
end CanonicalLR
