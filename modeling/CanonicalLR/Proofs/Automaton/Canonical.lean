import CanonicalLR.Proofs.Automaton.Numbering

namespace CanonicalLR

/-! What the numbered automaton owes to discovery: its states are distinct
closed sets of proper items, and its transitions are exactly those that the
items ask for. -/

namespace Automaton

def itemsOf (a : Automaton) (state : Nat) : List Item :=
  (a.states[state]?.map State.items).getD []

structure Canonical (a : Automaton) : Prop where
  wellFormed : a.grammar.WellFormed
  states_pos : 0 < a.stateCount
  itemsOf_zero : a.itemsOf 0 = Discovery.initialItems a.grammar
  reduces_eq : ∀ state ∈ a.states, state.reduces = state.items.any (·.atEnd a.grammar)
  proper : ∀ {state}, ∀ item ∈ a.itemsOf state, item.Proper a.grammar
  expanded : ∀ {state}, ∀ item ∈ a.itemsOf state,
    ∀ new ∈ item.expansions a.grammar, new ∈ a.itemsOf state
  distinct : ∀ {first second}, first < a.stateCount → second < a.stateCount →
    State.sameItems (a.itemsOf first) (a.itemsOf second) = true → first = second
  source_lt : ∀ transition ∈ a.transitions, transition.source < a.stateCount
  target_lt : ∀ transition ∈ a.transitions, transition.target < a.stateCount
  symbol_mem : ∀ transition ∈ a.transitions, transition.symbol ∈ a.grammar.symbols
  goto_eq : ∀ transition ∈ a.transitions, ∃ items,
    goto a.grammar (a.itemsOf transition.source) transition.symbol = some items ∧
      State.sameItems items (a.itemsOf transition.target) = true
  followed : ∀ {state symbol}, state < a.stateCount → symbol ∈ a.grammar.symbols →
    goto a.grammar (a.itemsOf state) symbol ≠ none →
    ∃ target, ⟨state, symbol, target⟩ ∈ a.transitions

section OfDiscovery

variable {g : Grammar} {d : Discovery} {last : Nat}

theorem itemsOf_ofDiscovery {state : Nat} (hstate : state < (Numbering.order d).length) :
    (ofDiscovery g d).itemsOf state = d.itemsOf (Numbering.order d)[state] := by
  simp [itemsOf, ofDiscovery, List.getElem?_eq_getElem hstate, State.ofItems]

theorem itemsOf_number {state : Nat} (hstate : state ∈ Numbering.order d) :
    (ofDiscovery g d).itemsOf (Numbering.number (Numbering.order d) state) =
      d.itemsOf state := by
  have hlt := List.idxOf_lt_length_iff.mpr hstate
  rw [Numbering.number, itemsOf_ofDiscovery hlt, List.getElem_idxOf hlt]

theorem itemsOf_of_le {a : Automaton} {state : Nat} (hstate : a.stateCount ≤ state) :
    a.itemsOf state = [] := by
  rw [itemsOf, List.getElem?_eq_none hstate]
  rfl

theorem stateCount_ofDiscovery (g : Grammar) (d : Discovery) :
    (ofDiscovery g d).stateCount = (Numbering.order d).length :=
  List.length_map _

/-- A state outside the automaton has no items to speak of. -/
theorem lt_of_mem_itemsOf {state : Nat} {item : Item}
    (h : item ∈ (ofDiscovery g d).itemsOf state) : state < (Numbering.order d).length := by
  apply Classical.byContradiction
  intro hnot
  rw [itemsOf_of_le (stateCount_ofDiscovery g d ▸ Nat.le_of_not_lt hnot)] at h
  exact absurd h List.not_mem_nil

theorem goto_ofDiscovery (h : d.Sound g last []) {transition : Transition}
    (htransition : transition ∈ (ofDiscovery g d).transitions) :
    ∃ items, goto g ((ofDiscovery g d).itemsOf transition.source) transition.symbol =
        some items ∧
      State.sameItems items ((ofDiscovery g d).itemsOf transition.target) = true := by
  obtain ⟨old, hold, hsource, rfl⟩ := Discovery.mem_numberedTransitions.mp htransition
  obtain ⟨items, hgoto, hsame⟩ := (h.leads old hold).goto_eq
  refine ⟨items, ?_, ?_⟩
  · rw [Numbering.renumber, itemsOf_number hsource]
    exact hgoto
  · rw [Numbering.renumber, itemsOf_number (h.target_mem_order hold hsource)]
    exact hsame

/-- Every symbol that discovery followed from a state is followed from its number. -/
theorem exists_transition_ofDiscovery (h : d.Sound g last []) (hfrontier : d.frontier = [])
    {state : Nat} {symbol : Symbol} (hstate : state < (Numbering.order d).length)
    (hsymbol : symbol ∈ g.symbols)
    (hsome : goto g ((ofDiscovery g d).itemsOf state) symbol ≠ none) :
    ∃ target, ⟨state, symbol, target⟩ ∈ (ofDiscovery g d).transitions := by
  have hfound : (Numbering.order d)[state] < d.found.length :=
    h.order.listed_lt _ (List.getElem_mem hstate)
  rw [itemsOf_ofDiscovery hstate] at hsome
  rcases h.followed hfound hsymbol hsome with hopen | ⟨_, hnil⟩ | ⟨old, hold, hsource, rfl⟩
  · rw [hfrontier] at hopen
    exact absurd hopen List.not_mem_nil
  · exact absurd hnil List.not_mem_nil
  · refine ⟨Numbering.number (Numbering.order d) old.target,
      Discovery.mem_numberedTransitions.mpr ⟨old, hold, ?_, ?_⟩⟩
    · rw [hsource]
      exact List.getElem_mem hstate
    · rw [Numbering.renumber, hsource, Numbering.number, Numbering.number,
        h.order.nodup.idxOf_getElem]

theorem ofDiscovery_canonical (hg : g.WellFormed) (h : d.Sound g last [])
    (hfrontier : d.frontier = []) : (ofDiscovery g d).Canonical := by
  have horder := h.order
  have hcount := stateCount_ofDiscovery g d
  have hfound : ∀ {state} (hstate : state < (Numbering.order d).length),
      (Numbering.order d)[state] < d.found.length :=
    fun hstate => horder.listed_lt _ (List.getElem_mem hstate)
  obtain ⟨rest, hrest⟩ := List.head?_eq_some_iff.mp horder.head_eq
  have hpos : 0 < (Numbering.order d).length := by
    rw [hrest, List.length_cons]
    exact Nat.succ_pos _
  constructor
  case wellFormed => exact hg
  case states_pos => exact hcount ▸ hpos
  case itemsOf_zero =>
    rw [itemsOf_ofDiscovery hpos]
    simp only [hrest, List.getElem_cons_zero]
    exact h.itemsOf_zero
  case reduces_eq =>
    intro state hstate
    obtain ⟨old, _, rfl⟩ := List.mem_map.mp hstate
    rfl
  case proper =>
    intro state item hitem
    have hstate := lt_of_mem_itemsOf hitem
    rw [itemsOf_ofDiscovery hstate] at hitem
    exact h.proper (hfound hstate) item hitem
  case expanded =>
    intro state item hitem
    have hstate := lt_of_mem_itemsOf hitem
    rw [itemsOf_ofDiscovery hstate] at hitem ⊢
    exact h.expanded (hfound hstate) item hitem
  case distinct =>
    intro first second hfirst hsecond hsame
    rw [hcount] at hfirst hsecond
    rw [itemsOf_ofDiscovery hfirst, itemsOf_ofDiscovery hsecond] at hsame
    have heq := h.distinct (hfound hfirst) (hfound hsecond) hsame
    exact (horder.nodup.getElem_inj_iff).mp heq
  case source_lt =>
    intro transition hmem
    obtain ⟨old, _, hsource, rfl⟩ := Discovery.mem_numberedTransitions.mp hmem
    rw [hcount]
    exact List.idxOf_lt_length_iff.mpr hsource
  case target_lt =>
    intro transition hmem
    obtain ⟨old, hold, hsource, rfl⟩ := Discovery.mem_numberedTransitions.mp hmem
    rw [hcount]
    exact List.idxOf_lt_length_iff.mpr (h.target_mem_order hold hsource)
  case symbol_mem =>
    intro transition hmem
    obtain ⟨old, hold, _, rfl⟩ := Discovery.mem_numberedTransitions.mp hmem
    exact (h.leads old hold).symbol_mem
  case goto_eq =>
    intro transition hmem
    exact goto_ofDiscovery h hmem
  case followed =>
    intro state symbol hstate hsymbol hsome
    exact exists_transition_ofDiscovery h hfrontier (hcount ▸ hstate) hsymbol hsome

end OfDiscovery

theorem build_canonical {g : Grammar} (hg : g.WellFormed) (e : Exploration) :
    (build g e).Canonical := by
  obtain ⟨last, hsound, hfrontier⟩ := discover_sound hg e
  exact ofDiscovery_canonical hg hsound hfrontier

namespace Canonical

variable {a : Automaton} {source target : Nat} {symbol : Symbol}

theorem source_unique (h : a.Canonical) {other : Nat}
    (htarget : ⟨source, symbol, target⟩ ∈ a.transitions)
    (hother : ⟨source, symbol, other⟩ ∈ a.transitions) : target = other := by
  obtain ⟨items, hgoto, hsame⟩ := h.goto_eq _ htarget
  obtain ⟨_, hgoto', hsame'⟩ := h.goto_eq _ hother
  obtain rfl := Option.some.inj (hgoto.symm.trans hgoto')
  exact h.distinct (h.target_lt _ htarget) (h.target_lt _ hother)
    (Discovery.sameItems_trans (Discovery.sameItems_symm hsame) hsame')

theorem goto?_eq_some_iff (h : a.Canonical) :
    a.goto? source symbol = some target ↔ ⟨source, symbol, target⟩ ∈ a.transitions := by
  constructor
  · intro hfound
    obtain ⟨⟨first, moved, last⟩, hfind, rfl⟩ := Option.map_eq_some_iff.mp hfound
    obtain ⟨rfl, rfl⟩ : first = source ∧ moved = symbol := by
      simpa using List.find?_some hfind
    exact List.mem_of_find?_eq_some hfind
  · intro hmem
    unfold goto?
    cases hfind : a.transitions.find? fun transition =>
        transition.source = source && transition.symbol = symbol with
    | none => exact absurd (List.find?_eq_none.mp hfind _ hmem) (by simp)
    | some transition =>
        obtain ⟨first, moved, last⟩ := transition
        obtain ⟨rfl, rfl⟩ : first = source ∧ moved = symbol := by
          simpa using List.find?_some hfind
        have hother := List.mem_of_find?_eq_some hfind
        rw [Option.map_some, h.source_unique hmem hother]

theorem mem_target_iff (h : a.Canonical)
    (htransition : ⟨source, symbol, target⟩ ∈ a.transitions) {item : Item} :
    item ∈ a.itemsOf target ↔
      item ∈ closure a.grammar (successors a.grammar (a.itemsOf source) symbol) := by
  obtain ⟨items, hgoto, hsame⟩ := h.goto_eq _ htransition
  rw [← goto_eq_some hgoto]
  exact (State.sameItems_iff.mp hsame item).symm

theorem advance_mem (h : a.Canonical)
    (htransition : ⟨source, symbol, target⟩ ∈ a.transitions) {item : Item}
    (hitem : item ∈ a.itemsOf source) (hnext : item.next? a.grammar = some symbol) :
    item.advance ∈ a.itemsOf target :=
  (h.mem_target_iff htransition).mpr
    (mem_closure_of_mem_kernel (mem_successors.mpr ⟨item, hitem, hnext, rfl⟩))

theorem expansion_mem (h : a.Canonical) {state n id : Nat} {item : Item}
    (hitem : item ∈ a.itemsOf state) (hnext : item.next? a.grammar = some (.nonterminal n))
    (hid : id ∈ a.grammar.rulesOf n) :
    .start id (item.expansionLookahead a.grammar) ∈ a.itemsOf state :=
  h.expanded item hitem _ (Item.mem_expansions.mpr ⟨n, hnext, id, hid, rfl⟩)

/-! Every item of a state moved there over a symbol, began the automaton, or
expands an item of the same state. -/

theorem mem_target_cases (h : a.Canonical)
    (htransition : ⟨source, symbol, target⟩ ∈ a.transitions) {item : Item}
    (hitem : item ∈ a.itemsOf target) :
    (∃ old ∈ a.itemsOf source, old.next? a.grammar = some symbol ∧ item = old.advance) ∨
      ∃ parent ∈ a.itemsOf target, item ∈ parent.expansions a.grammar := by
  have hmem := (h.mem_target_iff htransition).mp hitem
  rcases closure_origin h.wellFormed hmem with hkernel | ⟨parent, hparent, hnew⟩
  · exact .inl (mem_successors.mp hkernel)
  · exact .inr ⟨parent, (h.mem_target_iff htransition).mpr hparent, hnew⟩

/-- An item with symbols in front of its dot came over every transition into its state. -/
theorem exists_source_item (h : a.Canonical)
    (htransition : ⟨source, symbol, target⟩ ∈ a.transitions) {item : Item}
    (hitem : item ∈ a.itemsOf target) (hdot : item.dot ≠ 0) :
    ∃ old ∈ a.itemsOf source, old.next? a.grammar = some symbol ∧ item = old.advance := by
  rcases h.mem_target_cases htransition hitem with hold | ⟨_, _, hnew⟩
  · exact hold
  · obtain ⟨_, _, _, _, rfl⟩ := Item.mem_expansions.mp hnew
    exact absurd rfl hdot

theorem mem_zero_cases (h : a.Canonical) {item : Item} (hitem : item ∈ a.itemsOf 0) :
    item = .start 0 (.singleton .endMarker) ∨
      ∃ parent ∈ a.itemsOf 0, item ∈ parent.expansions a.grammar := by
  rw [h.itemsOf_zero] at hitem ⊢
  rcases closure_origin h.wellFormed hitem with hkernel | hparent
  · exact .inl (List.mem_singleton.mp hkernel)
  · exact .inr hparent

/-! A property that holds of the items that moved over a symbol, and passes from
an item to its expansions, holds of all items of the target. -/

theorem target_induction (h : a.Canonical)
    (htransition : ⟨source, symbol, target⟩ ∈ a.transitions) {property : Item → Prop}
    (hadvance : ∀ item ∈ a.itemsOf source, item.next? a.grammar = some symbol →
      property item.advance)
    (hexpand : ∀ item new, property item → new ∈ item.expansions a.grammar →
      property new) :
    ∀ item ∈ a.itemsOf target, property item := by
  intro item hitem
  refine closure_induction (fun new hnew => ?_) hexpand item
    ((h.mem_target_iff htransition).mp hitem)
  obtain ⟨old, hold, hnext, rfl⟩ := mem_successors.mp hnew
  exact hadvance old hold hnext

theorem zero_induction (h : a.Canonical) {property : Item → Prop}
    (hstart : property (.start 0 (.singleton .endMarker)))
    (hexpand : ∀ item new, property item → new ∈ item.expansions a.grammar →
      property new) :
    ∀ item ∈ a.itemsOf 0, property item := by
  rw [h.itemsOf_zero]
  refine closure_induction (fun item hitem => ?_) hexpand
  rw [List.mem_singleton.mp hitem]
  exact hstart

theorem start_mem (h : a.Canonical) :
    .start 0 (.singleton .endMarker) ∈ a.itemsOf 0 := by
  rw [h.itemsOf_zero]
  exact mem_closure_of_mem_kernel List.mem_cons_self

theorem state_lt_of_mem {a : Automaton} {state : Nat} {item : Item}
    (hitem : item ∈ a.itemsOf state) : state < a.stateCount := by
  apply Classical.byContradiction
  intro hnot
  rw [itemsOf_of_le (Nat.le_of_not_lt hnot)] at hitem
  exact absurd hitem List.not_mem_nil

theorem exists_transition (h : a.Canonical) {item : Item}
    (hitem : item ∈ a.itemsOf source) (hnext : item.next? a.grammar = some symbol) :
    ∃ target, ⟨source, symbol, target⟩ ∈ a.transitions := by
  have hsymbol : symbol ∈ a.grammar.symbols :=
    h.wellFormed.symbol_mem (h.proper item hitem).rule_lt symbol (List.mem_of_getElem? hnext)
  refine h.followed (state_lt_of_mem hitem) hsymbol fun hnone => ?_
  exact goto_eq_none_iff.mp hnone item hitem hnext

theorem exists_kernel (h : a.Canonical)
    (htransition : ⟨source, symbol, target⟩ ∈ a.transitions) :
    ∃ item ∈ a.itemsOf source, item.next? a.grammar = some symbol := by
  obtain ⟨items, hgoto, _⟩ := h.goto_eq _ htransition
  apply Classical.byContradiction
  intro hnot
  have hnone := goto_eq_none_iff.mpr fun item hitem hnext => hnot ⟨item, hitem, hnext⟩
  rw [hgoto] at hnone
  cases hnone

/-- Every transition brings an item to its target. -/
theorem exists_advanced (h : a.Canonical)
    (htransition : ⟨source, symbol, target⟩ ∈ a.transitions) :
    ∃ item ∈ a.itemsOf source,
      item.next? a.grammar = some symbol ∧ item.advance ∈ a.itemsOf target := by
  obtain ⟨item, hitem, hnext⟩ := h.exists_kernel htransition
  exact ⟨item, hitem, hnext, h.advance_mem htransition hitem hnext⟩

theorem dot_eq_zero_of_mem_zero (h : a.Canonical) {item : Item}
    (hitem : item ∈ a.itemsOf 0) : item.dot = 0 := by
  rcases h.mem_zero_cases hitem with rfl | ⟨parent, _, hnew⟩
  · rfl
  · obtain ⟨_, _, _, _, rfl⟩ := Item.mem_expansions.mp hnew
    rfl

theorem target_ne_zero (h : a.Canonical)
    (htransition : ⟨source, symbol, target⟩ ∈ a.transitions) : target ≠ 0 := by
  rintro rfl
  obtain ⟨item, _, _, hadvanced⟩ := h.exists_advanced htransition
  have hdot := h.dot_eq_zero_of_mem_zero hadvanced
  cases hdot

end Canonical
end Automaton
end CanonicalLR
