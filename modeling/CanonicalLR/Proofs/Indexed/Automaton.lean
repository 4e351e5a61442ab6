import CanonicalLR.Proofs.Automaton.Breadth
import CanonicalLR.Proofs.Indexed.Numbering

namespace CanonicalLR

open Indexed

/-! Transitions are grouped by their sources, so an offset for each state says where its own
begin.  The offsets are counted, then summed up. -/

/-- An automaton with the places of its transitions. -/
structure Layout where
  catalog : Catalog
  states : List State
  transitions : List Transition
  /-- Transitions between two neighbouring offsets leave the state of the first one. -/
  offsets : List Nat

namespace Layout

/-- Counts the transitions that leave each state, one place behind the state. -/
def counts? (states : Nat) (transitions : List Transition) : Option (List Nat) :=
  transitions.foldlM (fun offsets transition => update? offsets (transition.source + 1) (· + 1))
    (List.replicate (states + 1) 0)

def sums? (offsets : List Nat) : Option (List Nat) :=
  (List.range' 1 (offsets.length - 1)).foldlM
    (fun offsets index => do
      let before ← offsets[index - 1]?
      update? offsets index (· + before))
    offsets

def build? (c : Catalog) (e : Exploration) : Option Layout := do
  let s ← discover? c e
  let (states, transitions) ← numberBreadthFirst? s
  let counts ← counts? states.length transitions
  let offsets ← sums? counts
  return ⟨c, states, transitions, offsets⟩

def transitionsFrom? (l : Layout) (state : Nat) : Option (List Transition) :=
  match l.offsets[state]?, l.offsets[state + 1]? with
  | some start, some stop => part? l.transitions start stop
  | _, _ => part? l.transitions 0 0

end Layout

namespace Automaton

def layout (a : Automaton) : Layout where
  catalog := a.grammar.catalog
  states := a.states
  transitions := a.transitions
  offsets := vector (a.stateCount + 1) a.offset

def Grouped (a : Automaton) : Prop :=
  a.transitions.Pairwise (·.source ≤ ·.source)

variable {a : Automaton}

theorem Ordered.grouped (h : a.Ordered) : a.Grouped :=
  h.imp fun hbefore => hbefore.elim Nat.le_of_lt fun hsource => Nat.le_of_eq hsource.1

theorem build_grouped {g : Grammar} (hg : g.WellFormed) (e : Exploration) :
    (build g e).Grouped :=
  (build_ordered hg e).grouped

/-- Grouped transitions fall in three parts: those of the states before, those of the state
itself, and those of the states behind it. -/
theorem transitions_split {transitions : List Transition}
    (h : transitions.Pairwise (·.source ≤ ·.source)) (state : Nat) :
    transitions = transitions.filter (·.source < state) ++
      transitions.filter (·.source = state) ++ transitions.filter (state < ·.source) := by
  induction transitions with
  | nil => rfl
  | cons transition transitions ih =>
      obtain ⟨hle, hrest⟩ := List.pairwise_cons.mp h
      have hsplit := ih hrest
      rcases Nat.lt_trichotomy transition.source state with hlt | rfl | hgt
      · simpa [hlt, Nat.ne_of_lt hlt, Nat.le_of_lt hlt] using hsplit
      · have hbefore : transitions.filter (·.source < transition.source) = [] :=
          List.filter_eq_nil_iff.mpr fun other hother => by simpa using hle other hother
        simpa [hbefore] using hsplit
      · have hbefore : transitions.filter (·.source < state) = [] :=
          List.filter_eq_nil_iff.mpr fun other hother => by
            simpa using Nat.le_of_lt (Nat.lt_of_lt_of_le hgt (hle other hother))
        have hself : transitions.filter (·.source = state) = [] :=
          List.filter_eq_nil_iff.mpr fun other hother => by
            simpa using Nat.ne_of_gt (Nat.lt_of_lt_of_le hgt (hle other hother))
        simpa [hgt, Nat.ne_of_gt hgt, Nat.le_of_lt hgt, hbefore, hself] using hsplit

theorem offset_zero (a : Automaton) : a.offset 0 = 0 := by
  simp [offset]

theorem offset_succ (a : Automaton) (state : Nat) :
    a.offset (state + 1) = a.offset state + a.transitions.countP (·.source + 1 = state + 1) := by
  rw [offset, offset]
  induction a.transitions with
  | nil => rfl
  | cons transition transitions ih =>
      rw [List.countP_cons, List.countP_cons, List.countP_cons, ih]
      by_cases hlt : transition.source < state
      · have hne : transition.source ≠ state := Nat.ne_of_lt hlt
        simp [hlt, hne, Nat.lt_succ_of_lt hlt]
        omega
      · by_cases heq : transition.source = state
        · simp [heq]
          omega
        · have hge : ¬transition.source < state + 1 := by omega
          simp [hlt, heq, hge]

theorem transitionsFrom_of_le
    (hlt : ∀ transition ∈ a.transitions, transition.source < a.stateCount) {state : Nat}
    (hstate : a.stateCount ≤ state) : a.transitionsFrom state = [] := by
  apply List.filter_eq_nil_iff.mpr
  intro transition htransition heq
  have hsource := hlt transition htransition
  rw [of_decide_eq_true heq] at hsource
  exact Nat.not_lt_of_le hstate hsource

theorem Grouped.transitionsFrom?_eq (h : a.Grouped)
    (hlt : ∀ transition ∈ a.transitions, transition.source < a.stateCount) (state : Nat) :
    a.layout.transitionsFrom? state = some (a.transitionsFrom state) := by
  rw [Layout.transitionsFrom?]
  dsimp only [layout]
  by_cases hstate : state < a.stateCount
  · have hcount : a.transitions.countP (·.source + 1 = state + 1) =
        (a.transitionsFrom state).length := by
      rw [List.countP_eq_length_filter, transitionsFrom]
      simp
    rw [getElem?_vector (Nat.lt_succ_of_lt hstate), getElem?_vector (Nat.succ_lt_succ hstate)]
    dsimp only
    rw [offset_succ, hcount, offset, List.countP_eq_length_filter]
    have hpart := part?_append (a.transitions.filter (·.source < state))
      (a.transitions.filter (·.source = state)) (a.transitions.filter (state < ·.source))
    rwa [← transitions_split h state] at hpart
  · have hle : a.stateCount ≤ state := Nat.le_of_not_lt hstate
    rw [getElem?_vector_of_le (Nat.succ_le_succ hle), transitionsFrom_of_le hlt hle]
    split
    · contradiction
    · rfl

theorem counts?_eq (hlt : ∀ transition ∈ a.transitions, transition.source < a.stateCount) :
    Layout.counts? a.stateCount a.transitions =
      some (vector (a.stateCount + 1) fun index =>
        a.transitions.countP (·.source + 1 = index)) := by
  rw [Layout.counts?, replicate_eq_vector]
  refine foldlM_eq_state (fun done : List Transition => vector (a.stateCount + 1) fun index =>
    done.countP (·.source + 1 = index)) ?_
  intro done transition rest hlist
  have hsource : transition.source < a.stateCount := hlt transition (by simp [hlist])
  rw [update?_vector (Nat.succ_lt_succ hsource)]
  refine congrArg some (vector_congr fun index _ => ?_)
  rw [Function.update_apply, List.countP_append, List.countP_singleton]
  by_cases heq : index = transition.source + 1
  · simp [heq]
  · simp [heq, Ne.symm heq]

/-- What the places hold while those up to `last` are summed up. -/
def summed (a : Automaton) (last index : Nat) : Nat :=
  if index ≤ last then a.offset index else a.transitions.countP (·.source + 1 = index)

theorem sums?_eq (a : Automaton) :
    Layout.sums? (vector (a.stateCount + 1) fun index =>
        a.transitions.countP (·.source + 1 = index)) =
      some (vector (a.stateCount + 1) a.offset) := by
  have hstart : (vector (a.stateCount + 1) fun index =>
      a.transitions.countP (·.source + 1 = index)) =
        vector (a.stateCount + 1) (a.summed 0) := by
    refine vector_congr fun index _ => ?_
    rw [summed]
    split
    next hzero => rw [Nat.le_zero.mp hzero, offset_zero]; simp
    next => rfl
  have hend : vector (a.stateCount + 1) a.offset =
      vector (a.stateCount + 1) (a.summed (List.range' 1 a.stateCount).length) := by
    refine vector_congr fun index hindex => ?_
    rw [List.length_range', summed, if_pos (Nat.le_of_lt_succ hindex)]
  rw [Layout.sums?, length_vector, hstart, hend, Nat.add_sub_cancel]
  refine foldlM_eq_state (fun done : List Nat =>
    vector (a.stateCount + 1) (a.summed done.length)) ?_
  intro done index rest hlist
  obtain rfl : index = done.length + 1 := by
    have hindex : (List.range' 1 a.stateCount)[done.length]? = some index := by simp [hlist]
    obtain ⟨_, heq⟩ := List.getElem?_eq_some_iff.mp hindex
    rw [List.getElem_range'] at heq
    omega
  have hlt : done.length < a.stateCount := by
    have hlength : (List.range' 1 a.stateCount).length = a.stateCount := List.length_range'
    rw [← hlength, hlist, List.length_append, List.length_cons]
    omega
  rw [Nat.add_sub_cancel, getElem?_vector (Nat.lt_succ_of_lt hlt), Option.bind_eq_bind,
    Option.bind_some, update?_vector (Nat.succ_lt_succ hlt), List.length_append,
    List.length_singleton]
  refine congrArg some (vector_congr fun index _ => ?_)
  rw [Function.update_apply]
  by_cases heq : index = done.length + 1
  · rw [if_pos heq, heq, summed, summed, summed, if_neg (by omega), if_pos (Nat.le_refl _),
      if_pos (Nat.le_refl _), offset_succ, Nat.add_comm]
  · rw [if_neg heq, summed, summed]
    by_cases hle : index ≤ done.length
    · rw [if_pos hle, if_pos (Nat.le_succ_of_le hle)]
    · rw [if_neg hle, if_neg (by omega)]

theorem build?_eq {g : Grammar} (hg : g.WellFormed) (e : Exploration) :
    Layout.build? g.catalog e = some (build g e).layout := by
  obtain ⟨last, hsound, _⟩ := discover_sound hg e
  have hlt := (build_canonical hg e).source_lt
  rw [Layout.build?, discover?_eq hg, Option.bind_eq_bind, Option.bind_some,
    Discovery.numberBreadthFirst?_eq hsound, Option.bind_eq_bind, Option.bind_some]
  have hcounts := counts?_eq hlt
  have hsums := sums?_eq (build g e)
  rw [stateCount, build] at hcounts hsums
  dsimp only
  rw [hcounts, Option.bind_eq_bind, Option.bind_some, hsums]
  rfl

end Automaton
end CanonicalLR
