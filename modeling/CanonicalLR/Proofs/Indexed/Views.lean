import CanonicalLR.Proofs.Indexed.Automaton

namespace CanonicalLR

open Indexed

/-! Three views of the transitions: the list, its rows between the offsets, and the map from
sources and symbols to targets.  All of them speak of the states that were discovered, under
the numbers of the breadth-first walk. -/

deriving instance Hashable for Terminal
deriving instance Hashable for Symbol

namespace Automaton

variable {a : Automaton} {source target : Nat} {symbol : Symbol}

def edges (a : Automaton) : Std.HashMap (Nat × Symbol) Nat :=
  .ofList (a.transitions.map fun transition =>
    ((transition.source, transition.symbol), transition.target))

theorem Ordered.getElem?_edges (h : a.Ordered) :
    a.edges[(source, symbol)]? = some target ↔ ⟨source, symbol, target⟩ ∈ a.transitions := by
  -- No key is stored twice, so no entry is overwritten.
  have hkeys : (a.transitions.map fun transition =>
      ((transition.source, transition.symbol), transition.target)).Pairwise
        fun first second => (first.1 == second.1) = false := by
    apply List.pairwise_map.mpr
    apply h.pairwise_ne.imp
    intro first second hne
    simpa using hne
  have hstored : ∀ {target : Nat}, ⟨source, symbol, target⟩ ∈ a.transitions →
      a.edges[(source, symbol)]? = some target := by
    intro target hmem
    apply Std.HashMap.getElem?_ofList_of_mem (beq_self_eq_true (source, symbol)) hkeys
    exact List.mem_map.mpr ⟨_, hmem, rfl⟩
  constructor
  · intro hsome
    by_cases hmem : ∃ other, ⟨source, symbol, other⟩ ∈ a.transitions
    · obtain ⟨other, hother⟩ := hmem
      rw [hstored hother] at hsome
      cases hsome
      exact hother
    · have hnone : a.edges[(source, symbol)]? = none := by
        apply Std.HashMap.getElem?_ofList_of_contains_eq_false
        rw [← Bool.not_eq_true, List.contains_iff_mem, List.map_map]
        intro hkey
        obtain ⟨transition, htransition, heq⟩ := List.mem_map.mp hkey
        obtain ⟨rfl, rfl⟩ := Prod.mk.inj heq
        exact hmem ⟨transition.target, htransition⟩
      rw [hnone] at hsome
      cases hsome
  · exact hstored

/-- How states and transitions are numbered after their discovery. -/
structure Renumbered (g : Grammar) (d : Discovery) (a : Automaton) : Prop where
  /-- The walk over the vectors, and the states taken out of their places. -/
  taken : numberBreadthFirst? (d.search g) = some (a.states, a.transitions)
  bijective : Set.BijOn (Numbering.number (Numbering.order d)) (Set.Iio d.found.length)
    (Set.Iio a.stateCount)
  number_zero : Numbering.number (Numbering.order d) 0 = 0
  state?_number : ∀ old < d.found.length,
    a.state? (Numbering.number (Numbering.order d) old) = some (.ofItems g (d.itemsOf old))
  mem_transitions : ∀ transition, transition ∈ a.transitions ↔
    ∃ old ∈ d.followed, transition = Numbering.renumber (Numbering.order d) old

/-- The order of the transitions, and what the other views show of them. -/
structure Viewed (a : Automaton) : Prop where
  ordered : a.Ordered
  targets_eq : (a.transitions.map Transition.target).eraseDups =
    List.range' 1 (a.stateCount - 1)
  transitionsFrom? : ∀ state,
    a.layout.transitionsFrom? state = some (a.transitions.filter (·.source = state))
  transitionsFrom?_of_le : ∀ state, a.stateCount ≤ state →
    a.layout.transitionsFrom? state = some []
  edges : ∀ source symbol target, a.edges[(source, symbol)]? = some target ↔
    ⟨source, symbol, target⟩ ∈ a.transitions
  goto? : ∀ source symbol target, a.goto? source symbol = some target ↔
    ⟨source, symbol, target⟩ ∈ a.transitions

section OfDiscovery

variable {g : Grammar} {d : Discovery} {last : Nat}

theorem bijOn_number (h : d.Sound g last []) (hlinked : d.Linked) :
    Set.BijOn (Numbering.number (Numbering.order d)) (Set.Iio d.found.length)
      (Set.Iio (ofDiscovery g d).stateCount) := by
  have hmem : ∀ {old : Nat}, old ∈ Numbering.order d ↔ old < d.found.length :=
    h.mem_order_iff hlinked
  rw [stateCount_ofDiscovery]
  refine ⟨fun old hold => ?_, fun first hfirst second _ heq => ?_, fun number hnumber => ?_⟩
  · exact List.idxOf_lt_length_iff.mpr (hmem.mpr hold)
  · exact Numbering.number_inj (hmem.mpr hfirst) heq
  · have hlt : number < (Numbering.order d).length := hnumber
    exact ⟨(Numbering.order d)[number], hmem.mp (List.getElem_mem hlt),
      h.order.nodup.idxOf_getElem number hlt⟩

theorem state?_number (h : d.Sound g last []) (hlinked : d.Linked) {old : Nat}
    (hold : old < d.found.length) :
    (ofDiscovery g d).state? (Numbering.number (Numbering.order d) old) =
      some (.ofItems g (d.itemsOf old)) := by
  have hlt := List.idxOf_lt_length_iff.mpr ((h.mem_order_iff hlinked).mpr hold)
  rw [state?, ofDiscovery, List.getElem?_map, Numbering.number, List.getElem?_eq_getElem hlt,
    List.getElem_idxOf hlt]
  rfl

theorem ofDiscovery_renumbered (h : d.Sound g last []) (hlinked : d.Linked) :
    Renumbered g d (ofDiscovery g d) where
  taken := Discovery.numberBreadthFirst?_eq h
  bijective := bijOn_number h hlinked
  number_zero := Numbering.number_zero h.order.head_eq
  state?_number _ hold := state?_number h hlinked hold
  mem_transitions transition := by
    rw [ofDiscovery, Discovery.mem_numberedTransitions]
    constructor
    · rintro ⟨old, hold, _, heq⟩
      exact ⟨old, hold, heq⟩
    · rintro ⟨old, hold, heq⟩
      exact ⟨old, hold, (h.mem_order_iff hlinked).mpr (h.leads old hold).source_lt, heq⟩

end OfDiscovery

theorem build_viewed {g : Grammar} (hg : g.WellFormed) (e : Exploration) :
    (build g e).Viewed := by
  have ha := build_canonical hg e
  have hordered := build_ordered hg e
  have hrows := fun state => hordered.grouped.transitionsFrom?_eq ha.source_lt state
  constructor
  case ordered => exact hordered
  case targets_eq => exact eraseDups_targets_build hg e
  case transitionsFrom? => exact hrows
  case transitionsFrom?_of_le =>
    intro state hstate
    rw [hrows, transitionsFrom_of_le ha.source_lt hstate]
  case edges =>
    intro source symbol target
    exact hordered.getElem?_edges
  case goto? =>
    intro source symbol target
    exact ha.goto?_eq_some_iff

theorem build_views {alphabet productions : List String} {g : Grammar}
    (hbuild : Grammar.build alphabet productions = .ok g) (e : Exploration) :
    Layout.build? g.catalog e = some (build g e).layout ∧
      Renumbered g (discover g e) (build g e) ∧ (build g e).Viewed := by
  have hg := Grammar.build_wellFormed hbuild
  obtain ⟨_, hsound, _⟩ := discover_sound hg e
  exact ⟨build?_eq hg e, ofDiscovery_renumbered hsound (Discovery.discover_linked g e),
    build_viewed hg e⟩

/-- The newest state is expanded first, so that the fifth one to be found has number 7. -/
theorem build_views_swapped :
    (build .swapped .depthFirst).state? 7 =
        some (.ofItems .swapped ((discover .swapped .depthFirst).itemsOf 4)) ∧
      ((build .swapped .depthFirst).transitions.map Transition.target).eraseDups =
        [1, 2, 3, 4, 5, 6, 7, 8, 9, 10, 11, 12, 13, 14, 15, 16] ∧
      (build .swapped .depthFirst).layout.transitionsFrom? 17 = some [] ∧
      (build .swapped .depthFirst).edges[(8, Symbol.terminal (.token 2))]? = some 12 := by
  obtain ⟨_, hrenumbered, hviewed⟩ := build_views Grammar.build_swapped .depthFirst
  have hfound : (discover .swapped .depthFirst).found.length = 17 := by
    decide +kernel
  have hcount : (build .swapped .depthFirst).stateCount = 17 := by
    decide +kernel
  have hnumber : Numbering.number (Numbering.order (discover .swapped .depthFirst)) 4 = 7 := by
    decide +kernel
  have hmem : ⟨8, .terminal (.token 2), 12⟩ ∈ (build .swapped .depthFirst).transitions := by
    decide +kernel
  have hstate := hrenumbered.state?_number 4 (by omega)
  have htargets := hviewed.targets_eq
  rw [hnumber] at hstate
  rw [hcount] at htargets
  exact ⟨hstate, htargets, hviewed.transitionsFrom?_of_le 17 (Nat.le_of_eq hcount),
    (hviewed.edges _ _ _).mpr hmem⟩

end Automaton
end CanonicalLR
