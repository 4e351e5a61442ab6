import CanonicalLR.Proofs.Grammar.Fixpoint
import CanonicalLR.Proofs.Indexed.Discovery
import Mathlib.Data.Set.Card

namespace CanonicalLR

/-! How discovery ends.  Whatever a round leaves behind is made of the finitely many items of
the grammar, and no state waits twice, so all runs of rounds come to the same end. -/

/-- A rule, a dot in its right-hand side, and a set that is the end marker, a token or the
FIRST set of a nonterminal. -/
def Grammar.triples (g : Grammar) : Set Item :=
  {item | item.rule < g.rules.length ∧ item.dot ≤ (g.rule item.rule).rhs.length ∧
    (item.lookahead = .singleton .endMarker ∨
      (∃ index < g.alphabet.length, item.lookahead = .singleton (.token index)) ∨
      ∃ n < g.nonterminals.length, item.lookahead = g.first n)}

theorem Item.mem_triples {g : Grammar} {item : Item} : item ∈ g.triples ↔ item.Proper g := by
  constructor
  · rintro ⟨hrule, hdot, hlookahead⟩
    refine ⟨hrule, hdot, ?_⟩
    rcases hlookahead with heq | ⟨index, hindex, heq⟩ | ⟨n, hn, heq⟩
    · exact ⟨.terminal .endMarker, by simp, heq⟩
    · exact ⟨.terminal (.token index), by simpa using hindex, heq⟩
    · exact ⟨.nonterminal n, by simpa using hn, heq⟩
  · rintro ⟨hrule, hdot, symbol, hsymbol, heq⟩
    refine ⟨hrule, hdot, ?_⟩
    cases symbol with
    | nonterminal n => exact .inr (.inr ⟨n, by simpa using hsymbol, heq⟩)
    | terminal t =>
        cases t with
        | endMarker => exact .inl heq
        | token index => exact .inr (.inl ⟨index, by simpa using hsymbol, heq⟩)

theorem Grammar.triples_finite (g : Grammar) : g.triples.Finite :=
  (List.finite_toSet (Discovery.candidates g)).subset fun _ hitem =>
    Discovery.mem_candidates (Item.mem_triples.mp hitem)

namespace Discovery

variable {g : Grammar} {e : Exploration} {d middle last : Discovery} {sources : List Nat}

theorem Sound.length_found_le_ncard {source : Nat} {remaining : List Symbol}
    (h : d.Sound g source remaining) : d.found.length ≤ 2 ^ g.triples.ncard := by
  have hitems : ∀ item : Item, item.Proper g → item ∈ g.triples_finite.toFinset.toList := by
    intro item hitem
    rw [Finset.mem_toList, Set.Finite.mem_toFinset]
    exact Item.mem_triples.mpr hitem
  have hle := h.length_found_le_sublists hitems
  rwa [List.length_sublists, Finset.length_toList,
    ← Set.ncard_eq_toFinset_card g.triples g.triples_finite] at hle

/-- Rounds that cannot go on continue any others. -/
theorem Rounds.exists_rest {others : List Nat} (h : Rounds g e d sources middle)
    (hlast : Rounds g e d others last) (hfrontier : last.frontier = []) :
    ∃ rest, others = sources ++ rest ∧ Rounds g e middle rest last := by
  induction h generalizing others with
  | nil => exact ⟨others, rfl, hlast⟩
  | cons htake _ ih =>
      cases hlast with
      | nil =>
          rw [hfrontier] at htake
          cases e <;> cases htake
      | cons hother hrounds =>
          -- The exploration leaves no choice of the state that is taken.
          obtain ⟨rfl, rfl⟩ := Prod.mk.inj (Option.some.inj (htake.symm.trans hother))
          obtain ⟨rest, rfl, hrest⟩ := ih hrounds
          exact ⟨rest, rfl, hrest⟩

theorem Rounds.eq_of_frontier (h : Rounds g e d sources last) (hfrontier : d.frontier = []) :
    last = d := by
  cases h with
  | nil => rfl
  | cons htake _ =>
      rw [hfrontier] at htake
      cases e <;> cases htake

theorem Sound.goto_subset_triples (hg : g.WellFormed) {source state : Nat}
    (h : d.Sound g source []) (hstate : state < d.found.length) {symbol : Symbol}
    {items : List Item} (hgoto : goto g (d.itemsOf state) symbol = some items) :
    ∀ item ∈ items, item ∈ g.triples := fun item hitem =>
  Item.mem_triples.mpr (Item.proper_goto hg (h.proper hstate) hgoto item hitem)

theorem run_eq_discover (hg : g.WellFormed) (e : Exploration) {budget : Nat}
    (hbudget : bound g ≤ budget) : (start g).run g e budget = discover g e := by
  obtain ⟨_, hrun, _⟩ := rounds_run g e budget (start g)
  obtain ⟨_, hdiscover, _⟩ := rounds_run g e (bound g) (start g)
  obtain ⟨_, _, hrest⟩ := hdiscover.exists_rest hrun (run_frontier_eq_nil hg e hbudget)
  exact hrest.eq_of_frontier (run_frontier_eq_nil hg e (Nat.le_refl _))

/-- What the rounds that begin with state 0 come to. -/
structure Exhausts (g : Grammar) (e : Exploration) (last : Discovery) : Prop where
  /-- Every item of a state, and every item that a symbol leads to. -/
  produced : ∀ {sources d}, Rounds g e (start g) sources d → ∀ state < d.found.length,
    (∀ item ∈ d.itemsOf state, item ∈ g.triples) ∧
    ∀ symbol items, goto g (d.itemsOf state) symbol = some items →
      ∀ item ∈ items, item ∈ g.triples
  /-- A state is taken at most once, and waits if it has not been taken. -/
  once : ∀ {sources d}, Rounds g e (start g) sources d →
    (sources ++ d.frontier).Perm (List.range d.found.length)
  bounded : ∀ {sources d}, Rounds g e (start g) sources d →
    d.found.length ≤ 2 ^ g.triples.ncard
  continues : ∀ {sources d}, Rounds g e (start g) sources d → ∃ rest, Rounds g e d rest last
  frontier_eq : last.frontier = []

theorem discover_exhausts (hg : g.WellFormed) (e : Exploration) :
    Exhausts g e (discover g e) := by
  obtain ⟨_, _, hfrontier⟩ := discover_sound hg e
  have hstart := start_sound hg
  constructor
  case produced =>
    intro sources d hrounds state hstate
    obtain ⟨_, hsound⟩ := hrounds.sound hg hstart
    refine ⟨fun item hitem => Item.mem_triples.mpr (hsound.proper hstate item hitem), ?_⟩
    intro symbol items hgoto
    exact hsound.goto_subset_triples hg hstate hgoto
  case once =>
    intro sources d hrounds
    exact hrounds.accounts (start_accounts g)
  case bounded =>
    intro sources d hrounds
    obtain ⟨_, hsound⟩ := hrounds.sound hg hstart
    exact hsound.length_found_le_ncard
  case continues =>
    intro sources d hrounds
    obtain ⟨_, hrun, _⟩ := rounds_run g e (bound g) (start g)
    obtain ⟨rest, _, hrest⟩ := hrounds.exists_rest hrun hfrontier
    exact ⟨rest, hrest⟩
  case frontier_eq => exact hfrontier

/-- The loop over the frontier ends with every state expanded, and with no more states than
there are sets of items. -/
theorem discover_terminates {alphabet productions : List String}
    (hbuild : Grammar.build alphabet productions = .ok g) (e : Exploration) :
    g.triples.Finite ∧ Exhausts g e (discover g e) ∧
    (∃ sources, Rounds g e (start g) sources (discover g e) ∧
      sources.Perm (List.range (discover g e).found.length)) ∧
    discover? g.catalog e = some ((discover g e).search g) ∧
    (∀ budget, bound g ≤ budget →
      ((start g).search g).run? g.catalog e budget = some ((discover g e).search g)) ∧
    (Automaton.build g e).stateCount ≤ 2 ^ g.triples.ncard := by
  have hg := Grammar.build_wellFormed hbuild
  obtain ⟨_, hsound, hfrontier⟩ := discover_sound hg e
  have hexhausts := discover_exhausts hg e
  obtain ⟨sources, hrun, _⟩ := rounds_run g e (bound g) (start g)
  refine ⟨g.triples_finite, hexhausts, ⟨sources, hrun, ?_⟩, discover?_eq hg e, ?_, ?_⟩
  · have honce := hexhausts.once hrun
    rwa [← discover, hfrontier, List.append_nil] at honce
  · intro budget hbudget
    have heq := run_eq_discover hg e hbudget
    rw [← heq]
    apply (start_sound hg).run?_eq hg e
    rw [heq]
    exact hfrontier
  · rw [Automaton.build, Automaton.stateCount_ofDiscovery]
    exact hsound.order.length_listed_le.trans hsound.length_found_le_ncard

/-- The newest state is taken first, and still each of the seven states has its turn. -/
theorem discover_terminates_revolving :
    7 ≤ 2 ^ Grammar.revolving.triples.ncard ∧
    ∃ sources, Rounds .revolving .depthFirst (start .revolving) sources
        (discover .revolving .depthFirst) ∧
      sources.Perm [0, 1, 2, 3, 4, 5, 6] := by
  obtain ⟨_, hexhausts, ⟨sources, hrounds, hperm⟩, _⟩ :=
    discover_terminates Grammar.build_revolving .depthFirst
  have hcount : (discover .revolving .depthFirst).found.length = 7 := by
    decide +kernel
  have hbounded := hexhausts.bounded hrounds
  rw [hcount] at hbounded hperm
  exact ⟨hbounded, sources, hrounds, hperm⟩

end Discovery
end CanonicalLR
