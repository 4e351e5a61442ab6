import CanonicalLR.Proofs.Automaton.Canonical
import CanonicalLR.Proofs.Related

namespace CanonicalLR

/-! Automata that differ at most in the order in which their states list their items. -/

namespace State

structure Rearranged (first second : State) : Prop where
  perm : first.items.Perm second.items
  reduces_eq : first.reduces = second.reduces

theorem Rearranged.agrees {first second : State} (h : Rearranged first second) :
    first.agrees second = true :=
  (Bool.and_eq_true _ _).mpr ⟨decide_eq_true h.perm.length_eq,
    sameItems_iff.mpr fun _ => h.perm.mem_iff⟩

end State

namespace Automaton

structure Rearranged (a b : Automaton) : Prop where
  grammar_eq : a.grammar = b.grammar
  states : List.Forall₂ State.Rearranged a.states b.states
  transitions_eq : a.transitions = b.transitions

/-- How many transitions stand before those that leave a state. -/
def offset (a : Automaton) (state : Nat) : Nat :=
  a.transitions.countP (·.source < state)

namespace Rearranged

variable {a b : Automaton}

theorem agrees (h : a.Rearranged b) : a.agrees b = true := by
  simp only [Automaton.agrees, Bool.and_eq_true, decide_eq_true_eq, List.all_eq_true]
  refine ⟨⟨⟨h.grammar_eq, h.states.length_eq⟩, fun _ hpair => ?_⟩, h.transitions_eq⟩
  exact (List.forall₂_zip h.states hpair).agrees

theorem stateCount_eq (h : a.Rearranged b) : a.stateCount = b.stateCount :=
  h.states.length_eq

theorem itemsOf_perm (h : a.Rearranged b) (state : Nat) :
    (a.itemsOf state).Perm (b.itemsOf state) := by
  rcases Nat.lt_or_ge state a.stateCount with hstate | hstate
  · have hother : state < b.stateCount := h.stateCount_eq ▸ hstate
    rw [itemsOf, itemsOf, List.getElem?_eq_getElem hstate, List.getElem?_eq_getElem hother]
    exact (h.states.get hstate hother).perm
  · rw [itemsOf_of_le hstate, itemsOf_of_le (h.stateCount_eq ▸ hstate)]

theorem reduces_eq (h : a.Rearranged b) :
    a.states.map State.reduces = b.states.map State.reduces :=
  map_eq_of_forall₂ (h.states.imp fun _ _ hstate => hstate.reduces_eq)

theorem goto?_eq (h : a.Rearranged b) (source : Nat) (symbol : Symbol) :
    a.goto? source symbol = b.goto? source symbol := by
  rw [goto?, goto?, h.transitions_eq]

theorem offset_eq (h : a.Rearranged b) (state : Nat) : a.offset state = b.offset state := by
  rw [offset, offset, h.transitions_eq]

end Rearranged
end Automaton
end CanonicalLR
