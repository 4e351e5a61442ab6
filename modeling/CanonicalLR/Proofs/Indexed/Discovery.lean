import CanonicalLR.Proofs.Automaton.Outgoing
import CanonicalLR.Proofs.Indexed.Item

namespace CanonicalLR

open Indexed

/-! Discovery in two vectors that grow together: the states that are found, and what leaves
each of them. -/

structure Search where
  states : List State
  /-- Symbols and targets, in the order in which they were followed. -/
  outgoing : List (List (Symbol × Nat))
  frontier : List Nat

namespace Search

def addState? (c : Catalog) (s : Search) (items : List Item) : Option Search := do
  let state ← State.ofItems? c items
  return ⟨s.states ++ [state], s.outgoing ++ [[]], s.frontier ++ [s.states.length]⟩

def stateOf? (s : Search) (items : List Item) : Option Nat :=
  s.states.findIdx? fun state => State.sameItems items state.items

/-- The state with the given items, which is added if there is none. -/
def reach? (c : Catalog) (s : Search) (items : List Item) : Option (Nat × Search) :=
  match s.stateOf? items with
  | some target => some (target, s)
  | none => (s.addState? c items).map fun next => (s.states.length, next)

def follow? (c : Catalog) (source : Nat) (s : Search) (symbol : Symbol) : Option Search := do
  let state ← s.states[source]?
  match ← goto? c state.items symbol with
  | none => return s
  | some items => do
      let (target, s) ← s.reach? c items
      let outgoing ← update? s.outgoing source (· ++ [(symbol, target)])
      return { s with outgoing := outgoing }

/-- Expands states until none waits any more. -/
def run? (c : Catalog) (e : Exploration) : Nat → Search → Option Search
  | 0, s => if s.frontier = [] then some s else none
  | budget + 1, s =>
      match e.take s.frontier with
      | none => some s
      | some (source, rest) => do
          run? c e budget (← c.symbols.foldlM (follow? c source) { s with frontier := rest })

end Search

def discover? (c : Catalog) (e : Exploration) : Option Search := do
  let items ← closure? c [.start 0 (.singleton .endMarker)]
  let start ← Search.addState? c ⟨[], [], []⟩ items
  start.run? c e (Discovery.bound c.toGrammar)

namespace Discovery

def edges (d : Discovery) (state : Nat) : List (Symbol × Nat) :=
  (d.outgoing state).map fun transition => (transition.symbol, transition.target)

/-- The vectors of what has been found. -/
def search (g : Grammar) (d : Discovery) : Search where
  states := d.found.map (.ofItems g)
  outgoing := vector d.found.length d.edges
  frontier := d.frontier

variable {g : Grammar} {d : Discovery} {source : Nat} {symbol : Symbol}
  {remaining : List Symbol}

theorem getElem?_states {state : Nat} (hstate : state < d.found.length) :
    (d.search g).states[state]? = some (.ofItems g (d.itemsOf state)) := by
  rw [search, List.getElem?_map, List.getElem?_eq_getElem hstate, itemsOf_eq hstate]
  rfl

theorem stateOf?_search (items : List Item) :
    (d.search g).stateOf? items = d.stateOf? items := by
  rw [Search.stateOf?, search, List.findIdx?_map]
  rfl

theorem edges_append (found : List (List Item)) (frontier : List Nat) (state target : Nat) :
    edges ⟨found, d.followed ++ [⟨source, symbol, target⟩], frontier⟩ state =
      if state = source then d.edges state ++ [(symbol, target)] else d.edges state := by
  rw [edges, outgoing_append, List.map_append]
  split
  next => rfl
  next => exact List.append_nil _

theorem update?_edges {count : Nat} (hsource : source < count) (found : List (List Item))
    (frontier : List Nat) (target : Nat) :
    update? (vector count d.edges) source (· ++ [(symbol, target)]) =
      some (vector count
        (edges ⟨found, d.followed ++ [⟨source, symbol, target⟩], frontier⟩)) := by
  rw [update?_vector hsource]
  refine congrArg some (vector_congr fun state _ => ?_)
  rw [edges_append, Function.update_apply]
  split
  next heq => rw [heq]
  next => rfl

theorem Sound.rule_lt (h : d.Sound g source remaining) {state : Nat}
    (hstate : state < d.found.length) :
    ∀ item ∈ d.itemsOf state, item.rule < g.rules.length :=
  fun item hitem => (h.proper hstate item hitem).rule_lt

/-- Nothing leaves a state that is added. -/
theorem Sound.addState?_eq (hg : g.WellFormed) (h : d.Sound g source remaining)
    (hsource : source < d.found.length) {items : List Item}
    (hgoto : goto g (d.itemsOf source) symbol = some items) :
    (d.search g).addState? g.catalog items =
      some ⟨(d.found ++ [items]).map (.ofItems g), vector (d.found.length + 1) d.edges,
        d.frontier ++ [d.found.length]⟩ := by
  have hitems : ∀ item ∈ items, item.rule < g.rules.length :=
    fun item hitem => (Item.proper_goto hg (h.proper hsource) hgoto item hitem).rule_lt
  have hnone : d.edges d.found.length = [] := by rw [edges, outgoing_length_found h]; rfl
  rw [Search.addState?, State.ofItems?_eq hitems, search, vector_succ, hnone, List.length_map,
    List.map_append]
  rfl

/-- The vectors have a place for the source, and for a state that is added. -/
theorem Sound.follow?_eq (hg : g.WellFormed) (h : d.Sound g source (symbol :: remaining))
    (hsource : source < d.found.length) :
    (d.search g).follow? g.catalog source symbol =
      some ((Discovery.follow g source d symbol).search g) := by
  have hgoto := goto?_eq hg (h.rule_lt hsource) symbol
  rw [Search.follow?, getElem?_states hsource, Option.bind_eq_bind, Option.bind_some,
    State.ofItems, hgoto, Option.bind_eq_bind, Option.bind_some, Discovery.follow]
  cases hitems : goto g (d.itemsOf source) symbol with
  | none => rfl
  | some items =>
      dsimp only
      rw [Search.reach?, stateOf?_search]
      cases hstate : d.stateOf? items with
      | some target =>
          dsimp only
          rw [Option.bind_eq_bind, Option.bind_some]
          dsimp only [search]
          rw [update?_edges hsource]
          rfl
      | none =>
          dsimp only
          rw [h.addState?_eq hg hsource hitems, Option.map_some, Option.bind_eq_bind,
            Option.bind_some]
          dsimp only [search]
          rw [update?_edges (Nat.lt_succ_of_lt hsource) (d.found ++ [items])
            (d.frontier ++ [d.found.length]), List.length_map, List.length_append]
          rfl

theorem Sound.foldlM_follow? (hg : g.WellFormed) (h : d.Sound g source remaining)
    (hsource : source < d.found.length) (hremaining : ∀ symbol ∈ remaining, symbol ∈ g.symbols) :
    remaining.foldlM (Search.follow? g.catalog source) (d.search g) =
      some ((remaining.foldl (Discovery.follow g source) d).search g) := by
  induction remaining generalizing d with
  | nil => rfl
  | cons symbol remaining ih =>
      obtain ⟨hfollow, hlt⟩ := h.follow hg hsource (hremaining symbol List.mem_cons_self)
      rw [List.foldlM_cons, h.follow?_eq hg hsource]
      exact ih hfollow hlt fun other hother => hremaining other (List.mem_cons_of_mem _ hother)

/-- A run that leaves no state waiting has had turns enough. -/
theorem Sound.run?_eq (hg : g.WellFormed) (e : Exploration) {budget : Nat}
    (h : d.Sound g source []) (hfrontier : (d.run g e budget).frontier = []) :
    (d.search g).run? g.catalog e budget = some ((d.run g e budget).search g) := by
  induction budget generalizing d source with
  | zero => exact if_pos hfrontier
  | succ budget ih =>
      rw [Discovery.run] at hfrontier ⊢
      rw [Search.run?]
      dsimp only [search] at ih ⊢
      cases htake : e.take d.frontier with
      | none => rfl
      | some taken =>
          obtain ⟨state, rest⟩ := taken
          have hperm := take_eq_some htake
          obtain ⟨hnext, hstate⟩ := h.take hperm
          have hexpand := hnext.foldlM_follow? hg hstate fun _ hsymbol => hsymbol
          simp only [htake] at hfrontier
          exact (congrArg (Option.bind · _) hexpand).trans (ih (h.expand hg hperm) hfrontier)

end Discovery

theorem discover?_eq {g : Grammar} (hg : g.WellFormed) (e : Exploration) :
    discover? g.catalog e = some ((discover g e).search g) := by
  obtain ⟨_, _, hfrontier⟩ := discover_sound hg e
  have hrun := (Discovery.start_sound hg).run?_eq hg e hfrontier
  have hitems : ∀ item ∈ Discovery.initialItems g, item.rule < g.rules.length :=
    fun item hitem => (Item.proper_initialItems hg item hitem).rule_lt
  rw [discover?, closure?_eq hg fun item hitem => ?_, Option.bind_eq_bind, Option.bind_some,
    Search.addState?, ← Discovery.initialItems, State.ofItems?_eq hitems]
  · exact hrun
  · rw [List.mem_singleton.mp hitem]
    exact hg.rules_pos

end CanonicalLR
