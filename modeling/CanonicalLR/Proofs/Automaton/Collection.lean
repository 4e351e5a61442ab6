import CanonicalLR.Proofs.Automaton.Exploration
import CanonicalLR.Proofs.Automaton.Viable

namespace CanonicalLR

/-! The automaton is the canonical collection.  Every set of items that state 0 leads to
is one of its states, no other set is, and its transitions are those that the items of
the states ask for. -/

namespace Numbering

variable {followed : List Transition} {property : Nat → Prop}

/-- A property that passes along transitions holds of all states that a walk lists, if
it holds of those it starts with. -/
theorem walk_induction
    (htarget : ∀ source target, property source → target ∈ targets followed source →
      property target) {budget : Nat} {listed pending : List Nat}
    (hlisted : ∀ state ∈ listed, property state)
    (hpending : ∀ state ∈ pending, property state) :
    ∀ state ∈ walk followed budget listed pending, property state := by
  induction budget generalizing listed pending with
  | zero => exact hlisted
  | succ budget ih =>
      cases pending with
      | nil => exact hlisted
      | cons source pending =>
          have hfresh : ∀ state ∈
              ((targets followed source).filter (!listed.contains ·)).eraseDups,
              property state := by
            intro state hstate
            apply htarget source state (hpending source List.mem_cons_self)
            exact (List.mem_filter.mp (List.mem_eraseDups.mp hstate)).1
          apply ih
          · intro state hstate
            exact (List.mem_append.mp hstate).elim (hlisted state) (hfresh state)
          · intro state hstate
            apply (List.mem_append.mp hstate).elim _ (hfresh state)
            exact fun hold => hpending state (List.mem_cons_of_mem source hold)

theorem number_zero {order : List Nat} (h : order.head? = some 0) : number order 0 = 0 := by
  obtain ⟨rest, rfl⟩ := List.head?_eq_some_iff.mp h
  exact List.idxOf_cons_self

end Numbering

namespace State

variable {first second : State}

theorem ofList_eq_iff {items others : List Item} :
    OrderedSet.ofList items = OrderedSet.ofList others ↔ sameItems items others = true := by
  rw [sameItems_iff]
  constructor
  · intro heq item
    rw [← OrderedSet.mem_ofList, heq, OrderedSet.mem_ofList]
  · intro hsame
    apply OrderedSet.eq_of_mem_iff
    simpa using hsame

theorem itemSet_eq_iff :
    first.itemSet = second.itemSet ↔ sameItems first.items second.items = true :=
  ofList_eq_iff

/-- Where no item is listed twice, the number of items adds nothing to their set. -/
theorem agrees_iff (hfirst : first.items.Nodup) (hsecond : second.items.Nodup) :
    first.agrees second = true ↔ first.itemSet = second.itemSet := by
  rw [itemSet_eq_iff, agrees, Bool.and_eq_true, decide_eq_true_eq]
  apply and_iff_right_of_imp
  intro hsame
  have hperm := (List.perm_ext_iff_of_nodup hfirst hsecond).mpr (sameItems_iff.mp hsame)
  exact hperm.length_eq

end State

namespace Automaton

/-- The states are the closed item sets that the symbols lead to from the closure of the
start rule, each of them once. -/
structure Collected (a : Automaton) : Prop where
  itemSet_zero : (a.state? 0).map State.itemSet =
    some (.ofList (closure a.grammar [.start 0 (.singleton .endMarker)]))
  goto?_eq_some_iff : ∀ {source found} symbol target, a.state? source = some found →
    (a.goto? source symbol = some target ↔
      ∃ items, goto a.grammar found.items symbol = some items ∧
        (a.state? target).map State.itemSet = some (.ofList items))
  goto?_eq_none_iff : ∀ {source found} symbol, a.state? source = some found →
    (a.goto? source symbol = none ↔ goto a.grammar found.items symbol = none)
  itemSet_injective : ∀ {i j first second}, a.state? i = some first →
    a.state? j = some second → first.itemSet = second.itemSet → i = j
  items_nodup : ∀ found ∈ a.states, found.items.Nodup
  agrees_iff : ∀ first ∈ a.states, ∀ second ∈ a.states,
    (first.agrees second = true ↔ first.itemSet = second.itemSet)
  exists_reach : ∀ state < a.stateCount, ∃ symbols, a.reach? symbols = some state
  target_ne_zero : ∀ transition ∈ a.transitions, transition.target ≠ 0

variable {a : Automaton} {source target : Nat} {symbol : Symbol} {found : State}

theorem itemsOf_eq_of_state? (h : a.state? source = some found) :
    a.itemsOf source = found.items := by
  rw [itemsOf, ← state?, h]
  rfl

theorem state?_lt (h : a.state? source = some found) : source < a.stateCount := by
  obtain ⟨hlt, _⟩ := List.getElem?_eq_some_iff.mp h
  exact hlt

theorem exists_state? (h : source < a.stateCount) : ∃ found, a.state? source = some found :=
  ⟨_, List.getElem?_eq_getElem h⟩

namespace Canonical

theorem itemSet_zero (ha : a.Canonical) :
    (a.state? 0).map State.itemSet =
      some (.ofList (closure a.grammar [.start 0 (.singleton .endMarker)])) := by
  obtain ⟨found, hfound⟩ := exists_state? ha.states_pos
  rw [hfound, Option.map_some, State.itemSet, ← itemsOf_eq_of_state? hfound, ha.itemsOf_zero]
  rfl

theorem goto?_eq_none_iff (ha : a.Canonical) :
    a.goto? source symbol = none ↔ goto a.grammar (a.itemsOf source) symbol = none := by
  constructor
  · intro hnone
    apply goto_eq_none_iff.mpr
    intro item hitem hnext
    obtain ⟨target, hstep⟩ := ha.exists_transition hitem hnext
    rw [ha.goto?_eq_some_iff.mpr hstep] at hnone
    cases hnone
  · intro hnone
    apply Option.eq_none_iff_forall_ne_some.mpr
    intro target hgoto
    obtain ⟨items, hitems, _⟩ := ha.goto_eq _ (ha.goto?_eq_some_iff.mp hgoto)
    rw [hnone] at hitems
    cases hitems

theorem itemSet_injective (ha : a.Canonical) {other : State}
    (hsource : a.state? source = some found) (htarget : a.state? target = some other)
    (hsame : found.itemSet = other.itemSet) : source = target := by
  apply ha.distinct (state?_lt hsource) (state?_lt htarget)
  rw [itemsOf_eq_of_state? hsource, itemsOf_eq_of_state? htarget]
  exact State.itemSet_eq_iff.mp hsame

theorem goto?_eq_some_iff_goto (ha : a.Canonical) :
    a.goto? source symbol = some target ↔
      ∃ items, goto a.grammar (a.itemsOf source) symbol = some items ∧
        (a.state? target).map State.itemSet = some (.ofList items) := by
  -- A transition says which items are reached, and no other state has the same set.
  have hstep : ∀ {state : Nat}, a.goto? source symbol = some state →
      ∃ items other, goto a.grammar (a.itemsOf source) symbol = some items ∧
        a.state? state = some other ∧ other.itemSet = .ofList items := by
    intro state hgoto
    have hmem := ha.goto?_eq_some_iff.mp hgoto
    obtain ⟨items, hitems, hsame⟩ := ha.goto_eq _ hmem
    obtain ⟨other, hother⟩ := exists_state? (ha.target_lt _ hmem)
    rw [itemsOf_eq_of_state? hother] at hsame
    exact ⟨items, other, hitems, hother, (State.ofList_eq_iff.mpr hsame).symm⟩
  constructor
  · intro hgoto
    obtain ⟨items, other, hitems, hother, hset⟩ := hstep hgoto
    refine ⟨items, hitems, ?_⟩
    rw [hother, Option.map_some, hset]
  · intro ⟨items, hitems, hset⟩
    obtain ⟨other, hother, hotherSet⟩ := Option.map_eq_some_iff.mp hset
    cases hgoto : a.goto? source symbol with
    | none =>
        rw [ha.goto?_eq_none_iff.mp hgoto] at hitems
        cases hitems
    | some state =>
        obtain ⟨_, reached, hreached, hstate, hreachedSet⟩ := hstep hgoto
        rw [hitems] at hreached
        cases hreached
        rw [ha.itemSet_injective hstate hother (hreachedSet.trans hotherSet.symm)]

end Canonical

section OfDiscovery

variable {g : Grammar} {d : Discovery} {last : Nat}

theorem ofDiscovery_items_nodup (hg : g.WellFormed) (h : d.Finished g) :
    ∀ found ∈ (ofDiscovery g d).states, found.items.Nodup := by
  intro found hfound
  obtain ⟨old, hold, rfl⟩ := List.mem_map.mp hfound
  obtain ⟨last, hsound⟩ := h.exists_sound
  exact h.itemsOf_nodup hg (hsound.order.listed_lt old hold)

/-- The walk lists a state only if transitions lead to it. -/
theorem exists_traces_ofDiscovery (h : d.Sound g last []) :
    ∀ old ∈ Numbering.order d, ∃ trail : Trail, (ofDiscovery g d).Traces trail ∧
      trail.top = Numbering.number (Numbering.order d) old := by
  have hzero : 0 ∈ Numbering.order d ∧ ∃ trail : Trail, (ofDiscovery g d).Traces trail ∧
      trail.top = Numbering.number (Numbering.order d) 0 :=
    ⟨List.mem_of_head? h.order.head_eq, [], .nil,
      (Numbering.number_zero h.order.head_eq).symm⟩
  have hstart : ∀ old ∈ [0], old ∈ Numbering.order d ∧ ∃ trail : Trail,
      (ofDiscovery g d).Traces trail ∧
        trail.top = Numbering.number (Numbering.order d) old := by
    intro old hold
    rw [List.mem_singleton.mp hold]
    exact hzero
  intro old hold
  refine (Numbering.walk_induction ?_ hstart hstart old hold).2
  intro source target ⟨hsource, trail, htrail, htop⟩ htarget
  obtain ⟨transition, hfollowed, rfl, rfl⟩ := Numbering.mem_targets.mp htarget
  have hstep : Numbering.renumber (Numbering.order d) transition ∈
      (ofDiscovery g d).transitions :=
    Discovery.mem_numberedTransitions.mpr ⟨transition, hfollowed, hsource, rfl⟩
  rw [Numbering.renumber, ← htop] at hstep
  exact ⟨h.target_mem_order hfollowed hsource, _, .cons htrail hstep, rfl⟩

end OfDiscovery

theorem exists_traces {g : Grammar} (hg : g.WellFormed) (e : Exploration) {state : Nat}
    (hstate : state < (build g e).stateCount) :
    ∃ trail : Trail, (build g e).Traces trail ∧ trail.top = state := by
  obtain ⟨last, hsound, _⟩ := discover_sound hg e
  have hlt : state < (Numbering.order (discover g e)).length :=
    stateCount_ofDiscovery g (discover g e) ▸ hstate
  obtain ⟨trail, htrail, htop⟩ :=
    exists_traces_ofDiscovery hsound _ (List.getElem_mem hlt)
  rw [Numbering.number, hsound.order.nodup.idxOf_getElem] at htop
  exact ⟨trail, htrail, htop⟩

theorem build_collected {alphabet productions : List String} {g : Grammar}
    (hbuild : Grammar.build alphabet productions = .ok g) (e : Exploration) :
    (build g e).Collected := by
  have hg := Grammar.build_wellFormed hbuild
  have ha := build_canonical hg e
  have hnodup := ofDiscovery_items_nodup hg (discover_finished hg e)
  constructor
  case itemSet_zero => exact ha.itemSet_zero
  case goto?_eq_some_iff =>
    intro source found symbol target hfound
    rw [← itemsOf_eq_of_state? hfound]
    exact ha.goto?_eq_some_iff_goto
  case goto?_eq_none_iff =>
    intro source found symbol hfound
    rw [← itemsOf_eq_of_state? hfound]
    exact ha.goto?_eq_none_iff
  case itemSet_injective => exact ha.itemSet_injective
  case items_nodup => exact hnodup
  case agrees_iff =>
    intro first hfirst second hsecond
    exact State.agrees_iff (hnodup first hfirst) (hnodup second hsecond)
  case exists_reach =>
    intro state hstate
    obtain ⟨trail, htrail, htop⟩ := exists_traces hg e hstate
    exact ⟨_, (reach?_eq_some_iff ha).mpr ⟨trail, htrail, rfl, htop⟩⟩
  case target_ne_zero =>
    intro transition htransition
    exact ha.target_ne_zero htransition

/-- Some symbols lead also to the state behind `ac` and `bc`, and nothing leads back. -/
theorem build_collected_swapped :
    (build .swapped .depthFirst).Collected ∧
      (∃ symbols, (build .swapped .depthFirst).reach? symbols = some 6) ∧
      (build .swapped .depthFirst).goto? 6 (.nonterminal 0) = none := by
  have hcollected := build_collected Grammar.build_swapped .depthFirst
  refine ⟨hcollected, hcollected.exists_reach 6 ?_, ?_⟩
  · decide +kernel
  · decide +kernel

end Automaton
end CanonicalLR
