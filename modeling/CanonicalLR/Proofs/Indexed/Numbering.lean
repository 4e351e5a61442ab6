import CanonicalLR.Proofs.Automaton.Collection
import CanonicalLR.Proofs.Indexed.Discovery

namespace CanonicalLR

open Indexed

/-! Renumbering with a vector of numbers, in which the states that are not met yet have
none.  Each state is then taken out of its place, which is left with an empty one. -/

structure Walk where
  numbers : List (Option Nat)
  order : List Nat
  /-- States whose turn is still to come, with their numbers. -/
  queue : List (Nat × Nat)
  transitions : List Transition

namespace Walk

/-- The number of a state, which is the next one if the state is new. -/
def meet? (w : Walk) (state : Nat) : Option (Nat × Walk) := do
  match ← w.numbers[state]? with
  | some number => return (number, w)
  | none => do
      let number := w.order.length
      let numbers ← update? w.numbers state fun _ => some number
      return (number, ⟨numbers, w.order ++ [state], w.queue ++ [(state, number)], w.transitions⟩)

def cross? (source : Nat) (w : Walk) (edge : Symbol × Nat) : Option Walk := do
  let (target, w) ← w.meet? edge.2
  return { w with transitions := w.transitions ++ [⟨source, edge.1, target⟩] }

/-- Visits states until the queue is empty. -/
def run? (outgoing : List (List (Symbol × Nat))) : Nat → Walk → Option Walk
  | 0, w => if w.queue = [] then some w else none
  | budget + 1, w =>
      match w.queue with
      | [] => some w
      | (state, number) :: rest => do
          let edges ← outgoing[state]?
          run? outgoing budget (← edges.foldlM (cross? number) { w with queue := rest })

end Walk

def State.empty : State := ⟨[], false⟩

/-- Takes a state out of its place and puts it behind those taken before. -/
def takeState? (taken : List State × List State) (old : Nat) :
    Option (List State × List State) := do
  let state ← taken.2[old]?
  let states ← update? taken.2 old fun _ => .empty
  return (taken.1 ++ [state], states)

def numberBreadthFirst? (s : Search) : Option (List State × List Transition) := do
  let numbers ← update? (List.replicate s.states.length none) 0 fun _ => some 0
  let w ← Walk.run? s.outgoing s.states.length ⟨numbers, [0], [(0, 0)], []⟩
  let (states, _) ← w.order.foldlM takeState? ([], s.states)
  return (states, w.transitions)

namespace Numbering

/-- The vectors of a walk that lists some states, a part of `order`, by which all states
are numbered in the end. -/
def walking (count : Nat) (order listed pending : List Nat) (transitions : List Transition) :
    Walk where
  numbers := vector count fun state =>
    if state ∈ listed then some (number order state) else none
  order := listed
  queue := pending.map fun state => (state, number order state)
  transitions := transitions

/-- What a state that is met adds to those that are listed. -/
def added (listed : List Nat) (state : Nat) : List Nat :=
  if state ∈ listed then [] else [state]

def fresh (listed : List Nat) (edges : List (Symbol × Nat)) : List Nat :=
  ((edges.map Prod.snd).filter (!listed.contains ·)).eraseDups

def numberEdge (order : List Nat) (source : Nat) (edge : Symbol × Nat) : Transition :=
  ⟨number order source, edge.1, number order edge.2⟩

variable {count budget : Nat} {order listed pending visited : List Nat}
  {transitions : List Transition} {d : Discovery}

theorem number_concat {state : Nat} (h : listed ++ [state] <+: order)
    (hnew : state ∉ listed) : number order state = listed.length := by
  obtain ⟨rest, rfl⟩ := h
  rw [number, List.append_assoc, List.idxOf_append_of_notMem hnew]
  simp

theorem fresh_append (listed : List Nat) (done rest : List (Symbol × Nat)) :
    fresh listed done <+: fresh listed (done ++ rest) := by
  unfold fresh
  rw [List.map_append, List.filter_append, List.eraseDups_append]
  exact List.prefix_append _ _

theorem fresh_concat (listed : List Nat) (done : List (Symbol × Nat)) (edge : Symbol × Nat) :
    fresh listed (done ++ [edge]) =
      fresh listed done ++ added (listed ++ fresh listed done) edge.2 := by
  unfold fresh added
  rw [List.map_append, List.filter_append, List.eraseDups_append]
  by_cases hlisted : edge.2 ∈ listed
  · simp [hlisted]
  · by_cases hdone : ∃ symbol, (symbol, edge.2) ∈ done
    · simp [hlisted, hdone, List.removeAll]
    · simp [hlisted, hdone, List.removeAll, List.eraseDups_cons]

theorem meet?_walking {state : Nat} (hstate : state < count)
    (hfront : listed ++ added listed state <+: order) :
    (walking count order listed pending transitions).meet? state =
      some (number order state, walking count order (listed ++ added listed state)
        (pending ++ added listed state) transitions) := by
  rw [Walk.meet?, walking]
  dsimp only
  rw [getElem?_vector hstate, Option.bind_eq_bind, Option.bind_some]
  unfold added at hfront ⊢
  by_cases hlisted : state ∈ listed
  · rw [if_pos hlisted, if_pos hlisted, List.append_nil, List.append_nil]
    rfl
  · rw [if_neg hlisted] at hfront
    rw [if_neg hlisted, if_neg hlisted]
    dsimp only
    rw [update?_vector hstate, Option.bind_eq_bind, Option.bind_some, walking, List.map_append,
      ← number_concat hfront hlisted]
    refine congrArg some (Prod.ext rfl ?_)
    dsimp only
    congr 1
    refine vector_congr fun other _ => ?_
    rw [Function.update_apply]
    by_cases heq : other = state
    · simp [heq]
    · simp [heq]

theorem foldlM_cross? {source : Nat} {edges : List (Symbol × Nat)}
    (hedges : ∀ edge ∈ edges, edge.2 < count) (hfront : listed ++ fresh listed edges <+: order) :
    edges.foldlM (Walk.cross? (number order source))
        (walking count order listed pending transitions) =
      some (walking count order (listed ++ fresh listed edges) (pending ++ fresh listed edges)
        (transitions ++ edges.map (numberEdge order source))) := by
  have hnil : walking count order listed pending transitions =
      walking count order (listed ++ fresh listed []) (pending ++ fresh listed [])
        (transitions ++ [].map (numberEdge order source)) := by simp [fresh]
  rw [hnil]
  refine foldlM_eq_state (fun done => walking count order (listed ++ fresh listed done)
    (pending ++ fresh listed done) (transitions ++ done.map (numberEdge order source))) ?_
  rintro done edge rest rfl
  have hmore := fresh_append listed (done ++ [edge]) rest
  rw [List.append_assoc, List.singleton_append] at hmore
  have hpart : listed ++ fresh listed (done ++ [edge]) <+: order :=
    ((List.prefix_append_right_inj listed).mpr hmore).trans hfront
  rw [fresh_concat, ← List.append_assoc] at hpart
  rw [Walk.cross?, meet?_walking (hedges edge (by simp)) hpart, fresh_concat]
  simp [walking, numberEdge]

theorem targets_eq (d : Discovery) (source : Nat) :
    targets d.followed source = (d.edges source).map Prod.snd := by
  rw [targets, Discovery.edges, List.map_map]
  rfl

theorem map_numberEdge (d : Discovery) (order : List Nat) (source : Nat) :
    (d.edges source).map (numberEdge order source) =
      (d.outgoing source).map (renumber order) := by
  rw [Discovery.edges, List.map_map]
  refine List.map_congr_left fun transition htransition => ?_
  obtain ⟨_, rfl⟩ := Discovery.mem_outgoing.mp htransition
  rfl

theorem listed_prefix_walk (followed : List Transition) (budget : Nat) (listed pending : List Nat) :
    listed <+: walk followed budget listed pending := by
  induction budget generalizing listed pending with
  | zero => exact List.prefix_refl listed
  | succ budget ih =>
      cases pending with
      | nil => exact List.prefix_refl listed
      | cons source pending => exact (List.prefix_append _ _).trans (ih _ _)

/-- Transitions that leave some states, in the order of the states. -/
def written (d : Discovery) (order visited : List Nat) : List Transition :=
  visited.flatMap fun source => (d.edges source).map (numberEdge order source)

theorem written_order (d : Discovery) (order : List Nat) :
    written d order order = d.numberedTransitions order := by
  simp only [written, map_numberEdge]
  rfl

theorem targets_lt (hlt : ∀ transition ∈ d.followed, transition.target < d.found.length)
    (source : Nat) : ∀ edge ∈ d.edges source, edge.2 < d.found.length := by
  intro edge hedge
  obtain ⟨transition, htransition, rfl⟩ := List.mem_map.mp hedge
  exact hlt transition (Discovery.mem_outgoing.mp htransition).1

/-- The states that are listed and do not wait are visited, and their transitions written. -/
theorem run?_walking (hlt : ∀ transition ∈ d.followed, transition.target < d.found.length)
    (h : Sound d.followed d.found.length listed pending) (hlisted : listed = visited ++ pending)
    (hbudget : d.found.length ≤ visited.length + budget)
    (horder : walk d.followed budget listed pending = order) :
    (walking d.found.length order listed pending (written d order visited)).run?
        (vector d.found.length d.edges) budget =
      some (walking d.found.length order order [] (d.numberedTransitions order)) := by
  have hvisits : listed.length = pending.length + visited.length := by
    rw [hlisted, List.length_append, Nat.add_comm]
  induction budget generalizing listed visited pending with
  | zero =>
      obtain rfl := h.pending_eq_nil hvisits hbudget
      obtain rfl : listed = order := horder
      rw [List.append_nil] at hlisted
      rw [← hlisted, written_order]
      rfl
  | succ budget ih =>
      cases pending with
      | nil =>
          obtain rfl : listed = order := horder
          rw [List.append_nil] at hlisted
          rw [← hlisted, written_order]
          rfl
      | cons source pending =>
          have hsource : source < d.found.length :=
            h.listed_lt source (h.pending_subset source List.mem_cons_self)
          have hfresh : fresh listed (d.edges source) =
              ((targets d.followed source).filter (!listed.contains ·)).eraseDups := by
            rw [fresh, targets_eq]
          rw [Numbering.walk, ← hfresh] at horder
          have hfront : listed ++ fresh listed (d.edges source) <+: order :=
            horder ▸ listed_prefix_walk ..
          have hcross : (d.edges source).foldlM (Walk.cross? (number order source))
              (walking d.found.length order listed pending (written d order visited)) = some _ :=
            foldlM_cross? (targets_lt hlt source) hfront
          have hcount : (visited ++ [source]).length = visited.length + 1 := by simp
          have hsplit : listed ++ fresh listed (d.edges source) =
              visited ++ [source] ++ (pending ++ fresh listed (d.edges source)) := by
            rw [hlisted]
            simp
          have hnext := ih (h.visit hlt hfresh) hsplit (by omega) horder
            (by rw [length_visit hvisits, hcount])
          rw [written, List.flatMap_append, List.flatMap_singleton, ← written] at hnext
          have hstep : (walking d.found.length order listed (source :: pending)
              (written d order visited)).run? (vector d.found.length d.edges) (budget + 1) =
              ((vector d.found.length d.edges)[source]?).bind fun edges =>
                (edges.foldlM (Walk.cross? (number order source))
                  (walking d.found.length order listed pending (written d order visited))).bind
                  (Walk.run? (vector d.found.length d.edges) budget) := rfl
          rw [hstep, getElem?_vector hsource, Option.bind_some, hcross]
          exact hnext

end Numbering

namespace Discovery

/-- The states in their places, without those that are taken. -/
def left (g : Grammar) (d : Discovery) (taken : List Nat) : List State :=
  vector d.found.length fun old =>
    if old ∈ taken then .empty else .ofItems g (d.itemsOf old)

theorem takeStates?_eq {g : Grammar} {d : Discovery} {order : List Nat} (hnodup : order.Nodup)
    (hlt : ∀ old ∈ order, old < d.found.length) :
    order.foldlM takeState? ([], (d.search g).states) =
      some (order.map fun old => .ofItems g (d.itemsOf old), d.left g order) := by
  have hstates : (d.search g).states = d.left g [] := by
    refine List.ext_getElem? fun old => ?_
    by_cases hold : old < d.found.length
    · rw [getElem?_states hold, left, getElem?_vector hold, if_neg List.not_mem_nil]
    · rw [left, getElem?_vector_of_le (Nat.le_of_not_lt hold), List.getElem?_eq_none]
      rw [search, List.length_map]
      exact Nat.le_of_not_lt hold
  rw [hstates]
  refine foldlM_eq_state
    (fun done => (done.map fun old => State.ofItems g (d.itemsOf old), d.left g done)) ?_
  rintro done old rest rfl
  have hnew : old ∉ done := fun hmem =>
    (List.nodup_append.mp hnodup).2.2 old hmem old List.mem_cons_self rfl
  have hold : old < d.found.length := hlt old (by simp)
  rw [takeState?]
  dsimp only [left]
  rw [getElem?_vector hold, if_neg hnew, Option.bind_eq_bind, Option.bind_some,
    update?_vector hold, Option.bind_eq_bind, Option.bind_some, List.map_append]
  refine congrArg some (Prod.ext rfl (vector_congr fun other _ => ?_))
  rw [Function.update_apply]
  by_cases heq : other = old
  · simp [heq]
  · simp [heq]

theorem numberBreadthFirst?_eq {g : Grammar} {d : Discovery} {last : Nat}
    (h : d.Sound g last []) :
    numberBreadthFirst? (d.search g) =
      some ((Automaton.ofDiscovery g d).states, (Automaton.ofDiscovery g d).transitions) := by
  have hlength : (d.search g).states.length = d.found.length := List.length_map _
  have hlt : ∀ transition ∈ d.followed, transition.target < d.found.length :=
    fun transition htransition => (h.leads transition htransition).target_lt
  have hrun := Numbering.run?_walking hlt h.walk_start (List.nil_append [0]).symm
    (Nat.le_add_left _ _) rfl
  have hzero : Numbering.number (Numbering.order d) 0 = 0 := Numbering.number_zero h.order.head_eq
  have hstart : (⟨vector d.found.length (Function.update (fun _ => none) 0 (some 0)), [0],
      [(0, 0)], []⟩ : Walk) = Numbering.walking d.found.length (Numbering.order d) [0] [0] [] := by
    rw [Numbering.walking, List.map_singleton, hzero]
    congr 1
    refine vector_congr fun state _ => ?_
    rw [Function.update_apply]
    by_cases hstate : state = 0
    · rw [if_pos hstate, hstate, if_pos List.mem_cons_self, hzero]
    · rw [if_neg hstate, if_neg fun hmem => hstate (List.mem_singleton.mp hmem)]
  rw [numberBreadthFirst?, hlength, replicate_eq_vector, update?_vector h.found_pos,
    Option.bind_eq_bind, Option.bind_some, hstart]
  have htake := takeStates?_eq (g := g) h.order.nodup h.order.listed_lt
  rw [Numbering.written, List.flatMap_nil, ← Numbering.order] at hrun
  dsimp only [search] at htake ⊢
  rw [hrun, Option.bind_eq_bind, Option.bind_some]
  dsimp only [Numbering.walking]
  rw [htake]
  rfl

end Discovery
end CanonicalLR
