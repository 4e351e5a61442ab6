import CanonicalLR.Proofs.Automaton.Pointwise
import Mathlib.Order.Interval.Set.Nat

namespace CanonicalLR

/-! States are told apart by whole lookahead sets.  When their items are split, a set of two
terminals and the two sets with one of them each come out the same, so the automaton can
have more states than the collection has sets.  It has not where every lookahead has a
terminal of its own. -/

/-- Every set of the family has a terminal that no other one has. -/
def Apart (family : Set TerminalSet) : Prop :=
  ∀ set ∈ family, ∃ t ∈ set, ∀ other ∈ family, t ∈ other → other = set

theorem Apart.mono {family larger : Set TerminalSet} (h : Apart larger)
    (hsubset : family ⊆ larger) : Apart family := by
  intro set hset
  obtain ⟨t, ht, hown⟩ := h set (hsubset hset)
  exact ⟨t, ht, fun other hother => hown other (hsubset hother)⟩

instance (list : List TerminalSet) : Decidable (Apart { set | set ∈ list }) :=
  inferInstanceAs (Decidable
    (∀ set ∈ list, ∃ t ∈ set.toList, ∀ other ∈ list, t ∈ other → other = set))

namespace Grammar

/-- What can come after a context. -/
def lookaheads (g : Grammar) : Set TerminalSet :=
  fun set => ∃ before n rest, g.Context before n rest ∧ set = g.followers rest

/-- The end marker, and what the symbols behind the first one of a rule can begin with.
Every lookahead is one of these sets. -/
def followingSets (g : Grammar) : List TerminalSet :=
  .singleton .endMarker :: g.rules.flatMap fun rule => rule.rhs.tail.map g.firstOfSymbol

variable {g : Grammar}

theorem Context.followers_mem {before rest : List Symbol} {n : Nat}
    (h : g.Context before n rest) : g.followers rest ∈ g.followingSets := by
  induction h with
  | start => exact List.mem_cons_self
  | @expand before rest left right n id m _ hid hrhs ih =>
      cases right with
      | nil => exact ih
      | cons symbol right =>
          have htail : symbol ∈ (g.rule id).rhs.tail := by
            rw [hrhs]
            cases left with
            | nil => exact List.mem_cons_self
            | cons first left => simp
          have hset := List.mem_map_of_mem (f := g.firstOfSymbol) htail
          have hrule := rule_mem (mem_rulesOf.mp hid).1
          exact List.mem_cons_of_mem _ (List.mem_flatMap.mpr ⟨_, hrule, hset⟩)

theorem mem_followingSets_of_mem_lookaheads {set : TerminalSet} (h : set ∈ g.lookaheads) :
    set ∈ g.followingSets := by
  obtain ⟨before, n, rest, hcontext, rfl⟩ := h
  exact hcontext.followers_mem

end Grammar

namespace Automaton

/-- The lookaheads of a state's items of a rule with the dot at one place. -/
def lookaheadsAt (a : Automaton) (state rule dot : Nat) : Set TerminalSet :=
  fun lookahead => ⟨rule, dot, lookahead⟩ ∈ a.itemsOf state

variable {a : Automaton} {first second source target rule dot : Nat} {symbol : Symbol}

theorem pointItems_subset
    (h : ∀ item ∈ a.itemsOf first, ∀ t ∈ item.lookahead.toList, ∃ other ∈ a.itemsOf second,
      other.rule = item.rule ∧ other.dot = item.dot ∧ t ∈ other.lookahead) :
    a.pointItems first ⊆ a.pointItems second := by
  rintro ⟨rule, dot, t⟩ ⟨lookahead, hitem, ht⟩
  obtain ⟨other, hother, rfl, rfl, hmem⟩ := h _ hitem t ht
  exact ⟨other.lookahead, hother, hmem⟩

theorem ncard_image_pointItems_lt (hfirst : first < a.stateCount)
    (hsecond : second < a.stateCount) (hne : first ≠ second)
    (hpoints : a.pointItems first = a.pointItems second) :
    (a.pointItems '' Set.Iio a.stateCount).ncard < a.stateCount := by
  have hfinite := Set.finite_Iio a.stateCount
  calc (a.pointItems '' Set.Iio a.stateCount).ncard
    _ < (Set.Iio a.stateCount).ncard := by
        refine lt_of_le_of_ne (Set.ncard_image_le hfinite) fun heq => hne ?_
        exact (Set.ncard_image_iff hfinite).mp heq hfirst hsecond hpoints
    _ = a.stateCount := Set.ncard_Iio_nat _

/-- A terminal of its own gives a lookahead away, also when the items are split. -/
theorem lookaheadsAt_subset (hpoints : a.pointItems first = a.pointItems second)
    (hapart : Apart (a.lookaheadsAt first rule dot ∪ a.lookaheadsAt second rule dot)) :
    a.lookaheadsAt first rule dot ⊆ a.lookaheadsAt second rule dot := by
  intro lookahead hlookahead
  obtain ⟨t, ht, hown⟩ := hapart lookahead (.inl hlookahead)
  have hpoint : (⟨rule, dot, t⟩ : PointItem) ∈ a.pointItems second :=
    hpoints ▸ ⟨lookahead, hlookahead, ht⟩
  obtain ⟨other, hother, hmem⟩ := hpoint
  exact hown other (.inr hother) hmem ▸ hother

theorem lookaheadsAt_eq (hpoints : a.pointItems first = a.pointItems second)
    (hapart : Apart (a.lookaheadsAt first rule dot ∪ a.lookaheadsAt second rule dot)) :
    a.lookaheadsAt first rule dot = a.lookaheadsAt second rule dot :=
  (lookaheadsAt_subset hpoints hapart).antisymm
    (lookaheadsAt_subset hpoints.symm (Set.union_comm .. ▸ hapart))

theorem Traces.lookahead_mem (ha : a.Canonical) {trail : Trail} (h : a.Traces trail)
    {item : Item} (hitem : item ∈ a.itemsOf trail.top) :
    item.lookahead ∈ a.grammar.lookaheads := by
  obtain ⟨before, rest, hcontext, _, heq⟩ := h.valid ha item hitem
  exact ⟨before, _, rest, hcontext, heq⟩

/-! The items with the dot behind a symbol determine all items of their state. -/

namespace Canonical

theorem itemsOf_subset (ha : a.Canonical) (hstep : ⟨source, symbol, first⟩ ∈ a.transitions)
    (hmoved : ∀ rule dot, 0 < dot →
      a.lookaheadsAt first rule dot ⊆ a.lookaheadsAt second rule dot) :
    a.itemsOf first ⊆ a.itemsOf second := by
  refine ha.target_induction hstep (fun item hitem hnext => ?_)
    fun item new hitem hnew => ha.expanded item hitem new hnew
  exact hmoved item.rule (item.dot + 1) (Nat.succ_pos _) (ha.advance_mem hstep hitem hnext)

/-- State 0 has no items with the dot behind a symbol, unlike a state that a transition
leads to. -/
theorem exists_lookaheadsAt_ne (ha : a.Canonical)
    (hstep : ⟨source, symbol, target⟩ ∈ a.transitions) :
    ∃ rule dot, 0 < dot ∧ a.lookaheadsAt 0 rule dot ≠ a.lookaheadsAt target rule dot := by
  obtain ⟨item, _, _, hadvanced⟩ := ha.exists_advanced hstep
  have hmem : item.lookahead ∈ a.lookaheadsAt target item.rule (item.dot + 1) := hadvanced
  refine ⟨item.rule, item.dot + 1, Nat.succ_pos _, fun heq => ?_⟩
  rw [← heq] at hmem
  have hdot := ha.dot_eq_zero_of_mem_zero hmem
  cases hdot

theorem top_eq_of_lookaheadsAt (ha : a.Canonical) {one other : Trail} (hone : a.Traces one)
    (hother : a.Traces other)
    (hmoved : ∀ rule dot, 0 < dot →
      a.lookaheadsAt one.top rule dot = a.lookaheadsAt other.top rule dot) :
    one.top = other.top := by
  cases hone with
  | nil =>
      cases hother with
      | nil => rfl
      | cons _ hstep =>
          obtain ⟨rule, dot, hdot, hne⟩ := ha.exists_lookaheadsAt_ne hstep
          exact absurd (hmoved rule dot hdot) hne
  | cons _ hfirst =>
      cases hother with
      | nil =>
          obtain ⟨rule, dot, hdot, hne⟩ := ha.exists_lookaheadsAt_ne hfirst
          exact absurd (hmoved rule dot hdot).symm hne
      | cons _ hsecond =>
          apply ha.distinct (ha.target_lt _ hfirst) (ha.target_lt _ hsecond)
          refine State.sameItems_iff.mpr fun item => ⟨fun hitem => ?_, fun hitem => ?_⟩
          · exact ha.itemsOf_subset hfirst (fun rule dot hdot => (hmoved rule dot hdot).le) hitem
          · exact ha.itemsOf_subset hsecond (fun rule dot hdot => (hmoved rule dot hdot).ge) hitem

end Canonical

theorem lookahead_mem {g : Grammar} (hg : g.WellFormed) (e : Exploration) {state : Nat}
    {item : Item} (hitem : item ∈ (build g e).itemsOf state) : item.lookahead ∈ g.lookaheads := by
  obtain ⟨trail, htrail, rfl⟩ := exists_traces hg e (Canonical.state_lt_of_mem hitem)
  exact htrail.lookahead_mem (build_canonical hg e) hitem

theorem image_pointItems {g : Grammar} (hg : g.WellFormed) (e : Exploration)
    (hfilled : ∀ set ∈ g.lookaheads, ∃ t, t ∈ set) :
    (build g e).pointItems '' Set.Iio (build g e).stateCount = g.pointCollection :=
  (build_canonical hg e).image_pointItems
    (fun item hitem => hfilled item.lookahead (lookahead_mem hg e hitem))
    fun _ hstate => exists_traces hg e hstate

/-- Split items tell the states apart where the lookaheads behind a symbol have terminals
of their own.  Where all lookaheads of the grammar have, the states are the sets of the
collection, each of them once. -/
theorem pointItems_build {alphabet productions : List String} {g : Grammar}
    (hbuild : Grammar.build alphabet productions = .ok g) (e : Exploration) :
    (∀ first < (build g e).stateCount, ∀ second < (build g e).stateCount,
        (build g e).pointItems first = (build g e).pointItems second →
        (∀ rule dot, 0 < dot → Apart ((build g e).lookaheadsAt first rule dot ∪
          (build g e).lookaheadsAt second rule dot)) → first = second) ∧
      ((∀ set ∈ g.lookaheads, ∃ t, t ∈ set) →
        (build g e).pointItems '' Set.Iio (build g e).stateCount = g.pointCollection) ∧
      (Apart g.lookaheads →
        Set.BijOn (build g e).pointItems (Set.Iio (build g e).stateCount) g.pointCollection ∧
          g.pointCollection.ncard = (build g e).stateCount) := by
  have hg := Grammar.build_wellFormed hbuild
  have hdistinct : ∀ first < (build g e).stateCount, ∀ second < (build g e).stateCount,
      (build g e).pointItems first = (build g e).pointItems second →
      (∀ rule dot, 0 < dot → Apart ((build g e).lookaheadsAt first rule dot ∪
        (build g e).lookaheadsAt second rule dot)) → first = second := by
    intro first hfirst second hsecond hpoints hapart
    obtain ⟨one, hone, rfl⟩ := exists_traces hg e hfirst
    obtain ⟨other, hother, rfl⟩ := exists_traces hg e hsecond
    exact (build_canonical hg e).top_eq_of_lookaheadsAt hone hother
      fun rule dot hdot => lookaheadsAt_eq hpoints (hapart rule dot hdot)
  refine ⟨hdistinct, image_pointItems hg e, fun hapart => ?_⟩
  have himage := image_pointItems hg e fun set hset => (hapart set hset).imp fun _ ht => ht.1
  have hinj : Set.InjOn (build g e).pointItems (Set.Iio (build g e).stateCount) := by
    intro first hfirst second hsecond hpoints
    refine hdistinct first hfirst second hsecond hpoints fun rule dot _ => hapart.mono ?_
    exact Set.union_subset (fun _ h => lookahead_mem hg e h) fun _ h => lookahead_mem hg e h
  rw [← himage, hinj.ncard_image]
  exact ⟨hinj.bijOn_image, Set.ncard_Iio_nat _⟩

end Automaton

/-- Two `C` stand one behind the other, so that `{$}` and `{c, d}` are the lookaheads. -/
def Grammar.doubled : Grammar :=
  .ofRules ⟨["c", "d"], ["S", "T", "C"]⟩
    [⟨0, [.nonterminal 1], "S->T"⟩,
     ⟨1, [.nonterminal 2, .nonterminal 2], "T->CC"⟩,
     ⟨2, [.terminal (.token 0), .nonterminal 2], "C->cC"⟩,
     ⟨2, [.terminal (.token 1)], "C->d"⟩]

theorem Grammar.build_doubled :
    build ["c", "d"] ["S->T", "T->CC", "C->cC", "C->d"] = .ok doubled := by
  decide +kernel

theorem Automaton.pointItems_build_doubled :
    Set.BijOn (build .doubled .breadthFirst).pointItems (Set.Iio 10)
        Grammar.doubled.pointCollection ∧
      Grammar.doubled.pointCollection.ncard = 10 := by
  have hcount : (build .doubled .breadthFirst).stateCount = 10 := by decide +kernel
  have hapart : Apart { set | set ∈ Grammar.doubled.followingSets } := by decide +kernel
  obtain ⟨_, _, hcollection⟩ := pointItems_build Grammar.build_doubled .breadthFirst
  rw [hcount] at hcollection
  exact hcollection (hapart.mono fun _ h => Grammar.mem_followingSets_of_mem_lookaheads h)

/-- Behind `ac` the rule of `A` is followed by `{a, b}`, and behind `bc` once by `{a}` and
once by `{b}`. -/
def Grammar.gathered : Grammar :=
  .ofRules ⟨["a", "b", "c"], ["S", "T", "X", "A"]⟩
    [⟨0, [.nonterminal 1], "S->T"⟩,
     ⟨1, [.terminal (.token 0), .nonterminal 3, .nonterminal 2], "T->aAX"⟩,
     ⟨1, [.terminal (.token 1), .nonterminal 3, .terminal (.token 0)], "T->bAa"⟩,
     ⟨1, [.terminal (.token 1), .nonterminal 3, .terminal (.token 1)], "T->bAb"⟩,
     ⟨2, [.terminal (.token 0)], "X->a"⟩,
     ⟨2, [.terminal (.token 1)], "X->b"⟩,
     ⟨3, [.terminal (.token 2)], "A->c"⟩]

theorem Grammar.build_gathered :
    build ["a", "b", "c"] ["S->T", "T->aAX", "T->bAa", "T->bAb", "X->a", "X->b", "A->c"] =
      .ok gathered := by
  decide +kernel

/-- The states behind `ac` and `bc` are different and their split items are the same, so
the collection has fewer sets than the automaton has states. -/
theorem Automaton.pointItems_gathered :
    Grammar.build ["a", "b", "c"]
        ["S->T", "T->aAX", "T->bAa", "T->bAb", "X->a", "X->b", "A->c"] = .ok .gathered ∧
      5 < (build .gathered .breadthFirst).stateCount ∧
      7 < (build .gathered .breadthFirst).stateCount ∧
      (build .gathered .breadthFirst).pointItems 5 =
        (build .gathered .breadthFirst).pointItems 7 ∧
      Grammar.gathered.pointCollection.ncard < (build .gathered .breadthFirst).stateCount := by
  have hfirst : 5 < (build .gathered .breadthFirst).stateCount := by decide +kernel
  have hsecond : 7 < (build .gathered .breadthFirst).stateCount := by decide +kernel
  have hsame : (build .gathered .breadthFirst).pointItems 5 =
      (build .gathered .breadthFirst).pointItems 7 := by
    apply Set.Subset.antisymm
    · exact pointItems_subset (by decide +kernel)
    · exact pointItems_subset (by decide +kernel)
  have hfilled : ∀ set ∈ Grammar.gathered.followingSets, set.toList ≠ [] := by decide +kernel
  have himage := image_pointItems (Grammar.build_wellFormed Grammar.build_gathered)
    .breadthFirst fun set hset => List.exists_mem_of_ne_nil set.toList
      (hfilled set (Grammar.mem_followingSets_of_mem_lookaheads hset))
  rw [← himage]
  exact ⟨Grammar.build_gathered, hfirst, hsecond, hsame,
    ncard_image_pointItems_lt hfirst hsecond (by decide) hsame⟩

end CanonicalLR
