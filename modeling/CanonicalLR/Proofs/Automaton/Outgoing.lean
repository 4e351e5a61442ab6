import CanonicalLR.Proofs.Automaton.Canonical

namespace CanonicalLR

/-! Discovery follows the symbols of a grammar in order.  Once a state has had its
turn, its transitions stand in the order of the symbols that its items expect, so the
items alone say what leaves a state. -/

namespace Discovery

def outgoing (d : Discovery) (state : Nat) : List Transition :=
  d.followed.filter fun transition => transition.source = state

/-- The symbols that some of the items expect. -/
def expected (g : Grammar) (items : List Item) (symbols : List Symbol) : List Symbol :=
  symbols.filter fun symbol => (goto g items symbol).isSome

/-- What also holds after the symbols in `done` are followed from one state: found
items are closures, and the states that do not wait are left over the symbols that
their items expect, in order. -/
structure Orderly (g : Grammar) (d : Discovery) (source : Nat) (done : List Symbol) :
    Prop where
  closed : ∀ {state}, state < d.found.length → ∃ kernel, d.itemsOf state = closure g kernel
  waiting : ∀ state ∈ d.frontier, d.outgoing state = []
  expanded : ∀ {state}, state < d.found.length → state ∉ d.frontier →
    (d.outgoing state).map Transition.symbol =
      expected g (d.itemsOf state) (if state = source then done else g.symbols)

variable {g : Grammar} {d : Discovery} {source : Nat} {done remaining : List Symbol}
  {symbol : Symbol}

theorem mem_outgoing {state : Nat} {transition : Transition} :
    transition ∈ d.outgoing state ↔ transition ∈ d.followed ∧ transition.source = state := by
  simp [outgoing]

theorem outgoing_append (found : List (List Item)) (frontier : List Nat) (state target : Nat) :
    outgoing ⟨found, d.followed ++ [⟨source, symbol, target⟩], frontier⟩ state =
      d.outgoing state ++ if state = source then [⟨source, symbol, target⟩] else [] := by
  rw [outgoing, List.filter_append, outgoing]
  refine congrArg (d.outgoing state ++ ·) ?_
  by_cases hstate : state = source
  · simp [hstate]
  · simp [hstate, Ne.symm hstate]

theorem expected_concat (g : Grammar) (items : List Item) (symbols : List Symbol)
    (symbol : Symbol) :
    expected g items (symbols ++ [symbol]) =
      expected g items symbols ++ if (goto g items symbol).isSome then [symbol] else [] := by
  rw [expected, List.filter_append, expected]
  refine congrArg (expected g items symbols ++ ·) ?_
  cases hgoto : goto g items symbol <;> simp [hgoto]

/-! A transition on the next symbol puts that symbol behind those of its source, and
leaves the other states as they are. -/

theorem Orderly.expanded_append (h : d.Orderly g source done) {items : List Item}
    (hgoto : goto g (d.itemsOf source) symbol = some items) (found : List (List Item))
    (frontier : List Nat) (target : Nat) {state : Nat} (hstate : state < d.found.length)
    (hfrontier : state ∉ d.frontier) :
    (outgoing ⟨found, d.followed ++ [⟨source, symbol, target⟩], frontier⟩ state).map
        Transition.symbol =
      expected g (d.itemsOf state)
        (if state = source then done ++ [symbol] else g.symbols) := by
  have hold := h.expanded hstate hfrontier
  rw [outgoing_append]
  by_cases hsource : state = source
  · subst hsource
    rw [if_pos rfl] at hold
    rw [if_pos rfl, if_pos rfl, List.map_append, hold, expected_concat, hgoto]
    rfl
  · rw [if_neg hsource] at hold
    rw [if_neg hsource, if_neg hsource, List.append_nil, hold]

theorem outgoing_append_other {state : Nat} (hne : state ≠ source)
    (hold : d.outgoing state = []) (found : List (List Item)) (frontier : List Nat)
    (target : Nat) :
    outgoing ⟨found, d.followed ++ [⟨source, symbol, target⟩], frontier⟩ state = [] := by
  rw [outgoing_append, hold, if_neg hne, List.append_nil]

/-- No transition leaves a state that is still to be found. -/
theorem outgoing_length_found (h : d.Sound g source remaining) :
    d.outgoing d.found.length = [] := by
  refine List.filter_eq_nil_iff.mpr fun transition htransition hlast => ?_
  have hlt := (h.leads transition htransition).source_lt
  rw [of_decide_eq_true hlast] at hlt
  exact Nat.lt_irrefl _ hlt

theorem Orderly.follow_new (hsound : d.Sound g source (symbol :: remaining))
    (h : d.Orderly g source done) (hsource : source < d.found.length)
    (hfrontier : source ∉ d.frontier) {items : List Item}
    (hgoto : goto g (d.itemsOf source) symbol = some items) :
    Orderly g ⟨d.found ++ [items], d.followed ++ [⟨source, symbol, d.found.length⟩],
      d.frontier ++ [d.found.length]⟩ source (done ++ [symbol]) := by
  constructor
  case closed =>
    intro state hstate
    rcases lt_length_append hstate with hold | rfl
    · rw [itemsOf_append hold]
      exact h.closed hold
    · rw [itemsOf_append_self]
      exact ⟨_, goto_eq_some hgoto⟩
  case waiting =>
    intro state hstate
    rcases List.mem_append.mp hstate with hold | hlast
    · have hne : state ≠ source := fun heq => hfrontier (heq ▸ hold)
      exact outgoing_append_other hne (h.waiting state hold) ..
    · rw [List.mem_singleton.mp hlast]
      exact outgoing_append_other (Nat.ne_of_gt hsource) (outgoing_length_found hsound) ..
  case expanded =>
    intro state hstate hwaits
    obtain ⟨hwaits, hlast⟩ := not_or.mp fun hmem => hwaits (List.mem_append.mpr hmem)
    rcases lt_length_append hstate with hold | rfl
    · rw [itemsOf_append hold]
      exact h.expanded_append hgoto _ _ _ hold hwaits
    · exact absurd List.mem_cons_self hlast

theorem Orderly.follow (hsound : d.Sound g source (symbol :: remaining))
    (h : d.Orderly g source done) (hsource : source < d.found.length)
    (hfrontier : source ∉ d.frontier) :
    (follow g source d symbol).Orderly g source (done ++ [symbol]) ∧
      source ∉ (follow g source d symbol).frontier := by
  rcases follow_cases g source d symbol with ⟨hnone, heq⟩ |
      ⟨items, target, hgoto, _, _, heq⟩ | ⟨items, hgoto, _, heq⟩
  · rw [heq]
    refine ⟨{ h with expanded := fun {state} hstate hwaits => ?_ }, hfrontier⟩
    rw [h.expanded hstate hwaits]
    split
    next hself =>
      rw [expected_concat, hself, hnone, Option.isSome_none, if_neg Bool.false_ne_true,
        List.append_nil]
    next => rfl
  · rw [heq]
    refine ⟨⟨h.closed, fun state hstate => ?_, fun {state} hstate hwaits => ?_⟩, hfrontier⟩
    · have hne : state ≠ source := fun hself => hfrontier (hself ▸ hstate)
      exact outgoing_append_other hne (h.waiting state hstate) ..
    · exact h.expanded_append hgoto _ _ _ hstate hwaits
  · rw [heq]
    refine ⟨h.follow_new hsound hsource hfrontier hgoto, fun hmem => ?_⟩
    rcases List.mem_append.mp hmem with hold | hlast
    · exact hfrontier hold
    · exact Nat.ne_of_lt hsource (List.mem_singleton.mp hlast)

theorem Orderly.foldl_follow (hg : g.WellFormed) (hsound : d.Sound g source remaining)
    (h : d.Orderly g source done) (hsource : source < d.found.length)
    (hfrontier : source ∉ d.frontier) (hremaining : ∀ symbol ∈ remaining, symbol ∈ g.symbols) :
    (remaining.foldl (Discovery.follow g source) d).Orderly g source (done ++ remaining) := by
  induction remaining generalizing d done with
  | nil =>
      rw [List.append_nil]
      exact h
  | cons symbol remaining ih =>
      obtain ⟨hfollow, hwaits⟩ := h.follow hsound hsource hfrontier
      obtain ⟨hnext, hlt⟩ := hsound.follow hg hsource (hremaining symbol List.mem_cons_self)
      have hrest := ih hnext hfollow hlt hwaits
        fun other hother => hremaining other (List.mem_cons_of_mem _ hother)
      rw [List.append_assoc] at hrest
      exact hrest

theorem Orderly.expand (hg : g.WellFormed) {state : Nat} {rest : List Nat}
    (hsound : d.Sound g source []) (h : d.Orderly g source g.symbols)
    (hperm : d.frontier.Perm (state :: rest)) :
    (expand g { d with frontier := rest } state).Orderly g state g.symbols := by
  obtain ⟨htake, hstate⟩ := hsound.take hperm
  obtain ⟨hwaits, _⟩ := List.nodup_cons.mp (hperm.nodup_iff.mp hsound.frontier_nodup)
  have hnone : Orderly g { d with frontier := rest } state [] := by
    refine ⟨h.closed, fun other hother => ?_, fun {other} hother hrest => ?_⟩
    · exact h.waiting other (hperm.mem_iff.mpr (List.mem_cons_of_mem _ hother))
    · by_cases hself : other = state
      · rw [if_pos hself, hself]
        exact congrArg _ (h.waiting state (hperm.mem_iff.mpr List.mem_cons_self))
      · rw [if_neg hself]
        have hold := h.expanded hother fun hmem =>
          (List.mem_cons.mp (hperm.mem_iff.mp hmem)).elim hself hrest
        rwa [ite_self] at hold
  exact hnone.foldl_follow hg htake hstate hwaits fun _ hsymbol => hsymbol

theorem Rounds.orderly (hg : g.WellFormed) {e : Exploration} {last : Discovery}
    {sources : List Nat} (hrounds : Rounds g e d sources last) (hsound : d.Sound g source [])
    (h : d.Orderly g source g.symbols) : ∃ source, last.Orderly g source g.symbols := by
  induction hrounds generalizing source with
  | nil => exact ⟨source, h⟩
  | cons htake _ ih =>
      have hperm := take_eq_some htake
      exact ih (hsound.expand hg hperm) (h.expand hg hsound hperm)

theorem start_orderly (g : Grammar) : (start g).Orderly g 0 g.symbols where
  closed {state} hstate := by
    obtain rfl : state = 0 := Nat.lt_one_iff.mp hstate
    exact ⟨_, rfl⟩
  waiting _ _ := rfl
  expanded {state} hstate hfrontier := by
    obtain rfl : state = 0 := Nat.lt_one_iff.mp hstate
    exact absurd List.mem_cons_self hfrontier

/-- What discovery has found when no state waits any more. -/
structure Finished (g : Grammar) (d : Discovery) : Prop where
  exists_sound : ∃ last, d.Sound g last []
  closed : ∀ {state}, state < d.found.length → ∃ kernel, d.itemsOf state = closure g kernel
  symbols_eq : ∀ {state}, state < d.found.length →
    (d.outgoing state).map Transition.symbol = expected g (d.itemsOf state) g.symbols

theorem Finished.itemsOf_nodup (hg : g.WellFormed) (h : d.Finished g) {state : Nat}
    (hstate : state < d.found.length) : (d.itemsOf state).Nodup := by
  obtain ⟨kernel, heq⟩ := h.closed hstate
  rw [heq]
  exact closure_nodup hg kernel

end Discovery

theorem discover_finished {g : Grammar} (hg : g.WellFormed) (e : Exploration) :
    (discover g e).Finished g := by
  obtain ⟨last, hsound, hfrontier⟩ := discover_sound hg e
  obtain ⟨_, hrounds, _⟩ := Discovery.rounds_run g e (Discovery.bound g) (Discovery.start g)
  obtain ⟨_, horderly⟩ :=
    hrounds.orderly hg (Discovery.start_sound hg) (Discovery.start_orderly g)
  refine ⟨⟨last, hsound⟩, horderly.closed, fun {state} hstate => ?_⟩
  have hsymbols := horderly.expanded hstate (hfrontier ▸ List.not_mem_nil)
  rwa [ite_self] at hsymbols

end CanonicalLR
