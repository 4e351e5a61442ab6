import CanonicalLR.Proofs.Automaton.Collection

namespace CanonicalLR

/-! The way into a state.  States are shared between trails of different lengths, yet the
items of a state agree with every trail into it: what is in front of a dot has just been
read, and going back over it leads to the state in which the item began. -/

theorem Item.advance_injective : Function.Injective advance := by
  rintro ⟨rule, dot, lookahead⟩ ⟨_, _, _⟩ h
  cases h
  rfl

namespace Automaton

variable {a : Automaton} {trail : Trail}

/-- All transitions into a state are on the same symbol. -/
theorem Canonical.symbol_unique (h : a.Canonical) {source other target : Nat}
    {symbol moved : Symbol} (hstep : ⟨source, symbol, target⟩ ∈ a.transitions)
    (hother : ⟨other, moved, target⟩ ∈ a.transitions) : symbol = moved := by
  obtain ⟨item, _, hnext, hadvanced⟩ := h.exists_advanced hstep
  -- The item that came over the first transition came over the other one as well.
  obtain ⟨old, _, hmoved, hsame⟩ :=
    h.exists_source_item hother hadvanced (Nat.succ_ne_zero item.dot)
  obtain rfl : item = old := Item.advance_injective hsame
  exact Option.some.inj (hnext.symm.trans hmoved)

/-- What an item of a state says about a trail into the state. -/
structure Rooted (a : Automaton) (trail : Trail) (item : Item) : Prop where
  rule_lt : item.rule < a.grammar.rules.length
  dot_le : item.dot ≤ (item.rhs a.grammar).length
  dot_le_length : item.dot ≤ trail.length
  /-- The symbols in front of the dot are the last ones of the trail. -/
  read : (item.rhs a.grammar).take item.dot <:+ trail.spelling
  /-- With each transition back the dot stands one symbol earlier. -/
  passed : ∀ count ≤ item.dot, ⟨item.rule, item.dot - count, item.lookahead⟩ ∈
    a.itemsOf (Trail.top (trail.drop count))
  /-- Before those symbols the item stood with its dot in front. -/
  began : .start item.rule item.lookahead ∈ a.itemsOf (Trail.top (trail.drop item.dot))
  /-- There the left-hand side can be read instead. -/
  leads : item.rule ≠ 0 → ∃ target,
    ⟨Trail.top (trail.drop item.dot), .nonterminal (a.grammar.rule item.rule).lhs, target⟩ ∈
      a.transitions

theorem Traces.rooted (ha : a.Canonical) (h : a.Traces trail) {item : Item}
    (hitem : item ∈ a.itemsOf trail.top) : a.Rooted trail item := by
  have hproper := ha.proper item hitem
  obtain ⟨hlength, hspelling, hstart⟩ := h.history ha hitem
  constructor
  case rule_lt => exact hproper.rule_lt
  case dot_le => exact hproper.dot_le
  case dot_le_length => exact hlength
  case read => exact ⟨_, hspelling.symm⟩
  case passed => exact fun count hcount => (h.retrace ha hitem hcount).2.2
  case began => exact hstart
  case leads => exact fun hid => (h.drop item.dot).exists_goto ha hid hstart

/-- Trails lead to every state, all its items say how each of them ends, and so all
transitions into it are on one symbol. -/
theorem build_rooted {alphabet productions : List String} {g : Grammar}
    (hbuild : Grammar.build alphabet productions = .ok g) (e : Exploration) :
    (∀ state < (build g e).stateCount,
      ∃ trail : Trail, (build g e).Traces trail ∧ trail.top = state) ∧
    (∀ trail : Trail, (build g e).Traces trail →
      ∀ item ∈ (build g e).itemsOf trail.top, (build g e).Rooted trail item) ∧
    ∀ first ∈ (build g e).transitions, ∀ second ∈ (build g e).transitions,
      first.target = second.target → first.symbol = second.symbol := by
  have hg := Grammar.build_wellFormed hbuild
  have ha := build_canonical hg e
  refine ⟨fun state hstate => exists_traces hg e hstate,
    fun trail htrail item hitem => htrail.rooted ha hitem, ?_⟩
  rintro ⟨source, symbol, target⟩ hfirst ⟨other, moved, _⟩ hsecond rfl
  exact ha.symbol_unique hfirst hsecond

/-- `((S)` and `(((S)` lead to one state, in which `B->(S).` goes back to two. -/
theorem build_rooted_tangled :
    ∃ item ∈ (build .tangled .depthFirst).itemsOf 14, item.dot = 3 ∧
      .start item.rule item.lookahead ∈ (build .tangled .depthFirst).itemsOf 4 ∧
      .start item.rule item.lookahead ∈ (build .tangled .depthFirst).itemsOf 10 := by
  obtain ⟨_, hrooted, _⟩ := build_rooted Grammar.build_tangled .depthFirst
  have hitem : ⟨4, 3, .singleton (.token 2)⟩ ∈ (build .tangled .depthFirst).itemsOf 14 := by
    decide +kernel
  have hopens : ∀ state ∈ [4, 10],
      ⟨state, .terminal (.token 1), 10⟩ ∈ (build .tangled .depthFirst).transitions := by
    decide +kernel
  have hinside : ⟨10, .nonterminal 0, 13⟩ ∈ (build .tangled .depthFirst).transitions := by
    decide +kernel
  have hclosing : ⟨13, .terminal (.token 2), 14⟩ ∈
      (build .tangled .depthFirst).transitions := by
    decide +kernel
  have hcloses : ∀ {trail : Trail}, (build .tangled .depthFirst).Traces trail →
      trail.top ∈ [4, 10] → (build .tangled .depthFirst).Traces
        ((.terminal (.token 2), 14) :: (.nonterminal 0, 13) :: (.terminal (.token 1), 10) ::
          trail) :=
    fun htrail htop => .cons (.cons (.cons htrail (hopens _ htop)) hinside) hclosing
  have honce : (build .tangled .depthFirst).Traces [(.terminal (.token 1), 4)] :=
    .cons .nil (by decide +kernel)
  have htwice : (build .tangled .depthFirst).Traces
      [(.terminal (.token 1), 10), (.terminal (.token 1), 4)] :=
    .cons honce (hopens 4 (by decide))
  exact ⟨_, hitem, rfl, (hrooted _ (hcloses honce (by decide)) _ hitem).began,
    (hrooted _ (hcloses htwice (by decide)) _ hitem).began⟩

end Automaton
end CanonicalLR
