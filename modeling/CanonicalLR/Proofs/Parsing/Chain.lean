import CanonicalLR.Proofs.Parsing.Detection

namespace CanonicalLR

/-! Without conflicts a parser does not go in circles, whatever symbols derive each other.
A symbol that comes up on a circle is the right-hand side of the rule that is reduced next,
so the state below it has an item that expects the symbol in front of the current token.
Such an item is at the start of that very rule, as the table has nothing else to offer, and
the item that it expands expects the next symbol of the circle.  So none of the items of
that state came first. -/

namespace ParseStack

def entrySymbol? : StackEntry → Option Symbol
  | .state _ => none
  | .symbol symbol => some symbol

/-- The symbols on the stack, the topmost first. -/
def symbols (stack : ParseStack) : List Symbol :=
  stack.entries.filterMap entrySymbol?

@[simp] theorem symbols_push (stack : ParseStack) (symbol : Symbol) (state : Nat) :
    (stack.push symbol state).symbols = symbol :: stack.symbols := rfl

theorem symbols_ofTrail (trail : Trail) : (ofTrail trail).symbols = trail.map Prod.fst := by
  induction trail with
  | nil => rfl
  | cons entry trail ih => rw [ofTrail_cons, symbols_push, ih, List.map_cons]

end ParseStack

namespace Automaton

variable {a : Automaton} {below : Trail} {t : Terminal} {symbol : Symbol} {item : Item}

/-- A symbol that comes up on a circle, above a trail and in front of a token. -/
def Turns (a : Automaton) (below : Trail) (t : Terminal) (symbol : Symbol) : Prop :=
  ∃ c state token, c.On a ((symbol, state) :: below) ∧ c.lookahead = .ok token ∧
    token.terminal = t ∧ (Table.build a).Circles c

/-- The item by which a symbol on a circle is reduced to the next one. -/
structure Renames (a : Automaton) (below : Trail) (t : Terminal) (symbol : Symbol)
    (state : Nat) (item : Item) : Prop where
  step : ⟨below.top, symbol, state⟩ ∈ a.transitions
  mem : item ∈ a.itemsOf state
  atEnd : item.atEnd a.grammar = true
  mem_lookahead : t ∈ item.lookahead
  rule_ne_zero : item.rule ≠ 0
  rhs_eq : item.rhs a.grammar = [symbol]
  turns : a.Turns below t (.nonterminal (a.grammar.rule item.rule).lhs)

theorem Turns.exists_renames (ha : a.Canonical) (h : a.Turns below t symbol) :
    ∃ state item, a.Renames below t symbol state item := by
  obtain ⟨c, state, token, hon, htoken, rfl, hcircles⟩ := h
  obtain ⟨rule, next, hmove, hunit, hagain⟩ := hcircles.exists_reduce
  obtain ⟨_, item, target, hlookahead, hnext, hitem, hend, hmem, rfl, hrule, hrhs, hnextOn⟩ :=
    Table.reduce_single ha hon hunit hmove
  rw [hlookahead] at htoken
  cases htoken
  cases hon.traces with
  | cons _ hstep =>
      exact ⟨state, item, hstep, hitem, hend, hmem, hrule, hrhs,
        next, target, token, hnextOn, hnext, rfl, hagain⟩

/-- The item expects, in front of the token, a symbol that comes up on a circle. -/
def ExpectsTurn (a : Automaton) (below : Trail) (t : Terminal) (item : Item) : Prop :=
  ∃ symbol, item.next? a.grammar = some symbol ∧ t ∈ item.expansionLookahead a.grammar ∧
    a.Turns below t symbol

theorem Renames.expectsTurn (ha : a.Canonical) {state : Nat} (htrail : a.Traces below)
    (h : a.Renames below t symbol state item) (hturns : a.Turns below t symbol) :
    ∃ start ∈ a.itemsOf below.top, a.ExpectsTurn below t start := by
  have hhistory := (htrail.cons h.step).history_atEnd ha h.mem h.atEnd
  have hrhs : (a.grammar.rule item.rule).rhs = [symbol] := h.rhs_eq
  rw [h.rhs_eq] at hhistory
  refine ⟨_, hhistory.2.2, symbol, ?_, ?_, hturns⟩
  · rw [Item.next?, Item.rhs, Item.start, hrhs]
    rfl
  · rw [Item.expansionLookahead_eq, Item.rhs, Item.start, hrhs]
    exact h.mem_lookahead

section ConflictFree

variable (ha : a.Canonical) (hfree : (Table.build a).collisions = [])
include ha hfree

/-- Behind its symbol such an item can only be reduced by the rule that the circle
reduces, so that rule is its own. -/
theorem Renames.rule_eq {state : Nat} (h : a.Renames below t symbol state item)
    {other : Item} (hother : other ∈ a.itemsOf below.top)
    (hnext : other.next? a.grammar = some symbol)
    (ht : t ∈ other.expansionLookahead a.grammar) :
    other.rule = item.rule ∧ t ∈ other.lookahead := by
  have hmoved := ha.advance_mem h.step hother hnext
  have hentry := Table.entry_eq_some ha hfree (.reduce h.mem h.atEnd h.mem_lookahead)
  rw [Item.expansionLookahead_eq] at ht
  cases hdrop : (other.rhs a.grammar).drop (other.dot + 1) with
  | cons first rest =>
      rw [hdrop] at ht
      obtain ⟨target, hshift⟩ := ha.exists_shift hmoved (other.advance.next?_of_drop hdrop).1 ht
      rw [Table.entry_eq_some ha hfree hshift] at hentry
      cases hentry
  | nil =>
      rw [hdrop] at ht
      have hend : other.advance.atEnd a.grammar = true :=
        decide_eq_true (List.drop_eq_nil_iff.mp hdrop)
      rw [Table.entry_eq_some ha hfree (.reduce hmoved hend ht)] at hentry
      exact ⟨Action.reduce.inj (Option.some.inj hentry), ht⟩

/-- An item that expects a symbol of a circle starts the rule that is reduced there. -/
theorem ExpectsTurn.cases (hitem : item ∈ a.itemsOf below.top)
    (h : a.ExpectsTurn below t item) :
    item.dot = 0 ∧ item.rule ≠ 0 ∧ t ∈ item.lookahead ∧
      a.Turns below t (.nonterminal (a.grammar.rule item.rule).lhs) := by
  obtain ⟨symbol, hnext, ht, hturns⟩ := h
  obtain ⟨state, other, hrenames⟩ := hturns.exists_renames ha
  obtain ⟨hrule, hlookahead⟩ := hrenames.rule_eq ha hfree hitem hnext ht
  refine ⟨?_, hrule ▸ hrenames.rule_ne_zero, hlookahead, hrule ▸ hrenames.turns⟩
  have hrhs : item.rhs a.grammar = [symbol] := by
    rw [Item.rhs, hrule]
    exact hrenames.rhs_eq
  obtain ⟨hdot, _⟩ := List.getElem?_eq_some_iff.mp hnext
  rw [hrhs] at hdot
  exact Nat.lt_one_iff.mp hdot

theorem ExpectsTurn.expands {parent new : Item} (hnew : new ∈ parent.expansions a.grammar)
    (hmem : new ∈ a.itemsOf below.top) (h : a.ExpectsTurn below t new) :
    a.ExpectsTurn below t parent := by
  obtain ⟨_, _, hlookahead, hturns⟩ := h.cases ha hfree hmem
  obtain ⟨n, hnext, id, hid, rfl⟩ := Item.mem_expansions.mp hnew
  refine ⟨.nonterminal n, hnext, hlookahead, ?_⟩
  rw [← (Grammar.mem_rulesOf.mp hid).2]
  exact hturns

/-- The items of a state come out of its closure one behind the other, and the first
that expects a symbol of a circle would have to be expanded from an earlier one. -/
theorem Traces.not_expectsTurn (h : a.Traces below) :
    ∀ item ∈ a.itemsOf below.top, ¬ a.ExpectsTurn below t item := by
  have hexpand : ∀ item new, item ∈ a.itemsOf below.top ∧ ¬ a.ExpectsTurn below t item →
      new ∈ item.expansions a.grammar →
      new ∈ a.itemsOf below.top ∧ ¬ a.ExpectsTurn below t new := by
    intro item new ⟨hitem, hnot⟩ hnew
    have hmem := ha.expanded item hitem new hnew
    exact ⟨hmem, fun hnewTurn => hnot (hnewTurn.expands ha hfree hnew hmem)⟩
  have hall : ∀ item ∈ a.itemsOf below.top,
      item ∈ a.itemsOf below.top ∧ ¬ a.ExpectsTurn below t item := by
    cases h with
    | nil =>
        have hstart := ha.start_mem
        refine ha.zero_induction ⟨hstart, fun hturn => ?_⟩ hexpand
        exact (hturn.cases ha hfree hstart).2.1 rfl
    | cons _ hstep =>
        refine ha.target_induction hstep (fun item hitem hnext => ?_) hexpand
        have hmoved := ha.advance_mem hstep hitem hnext
        refine ⟨hmoved, fun hturn => ?_⟩
        exact absurd (hturn.cases ha hfree hmoved).1 (Nat.succ_ne_zero item.dot)
  exact fun item hitem => (hall item hitem).2

end ConflictFree
end Automaton

namespace Table

variable {a : Automaton} {c : Config} {trail : Trail}

theorem not_circles (ha : a.Canonical) (hfree : (build a).collisions = [])
    (hon : c.On a trail) : ¬ (build a).Circles c := by
  intro hcircles
  obtain ⟨rule, next, hmove, _, _⟩ := hcircles.exists_reduce
  cases trail with
  | nil =>
      obtain ⟨hpos, hlength, _⟩ := reduce_cases ha hon hmove
      exact absurd hpos (Nat.not_lt_of_le hlength)
  | cons entry below =>
      obtain ⟨symbol, state⟩ := entry
      have hacts := acts ha hon
      rw [hmove] at hacts
      cases hacts with
      | @reduce token item target hlookahead _ _ _ _ _ =>
          have hturns : a.Turns below token.terminal symbol :=
            ⟨c, state, token, hon, hlookahead, rfl, hcircles⟩
          obtain ⟨_, _, hrenames⟩ := hturns.exists_renames ha
          have hbelow := hon.traces.drop 1
          obtain ⟨start, hstart, hturn⟩ := hrenames.expectsTurn ha hbelow hturns
          exact hbelow.not_expectsTurn ha hfree start hstart hturn

theorem straight_of_steady (ha : a.Canonical) (hfree : (build a).collisions = [])
    (h : c.Steady a) : (build a).Straight c := by
  intro count last hruns
  have hsteady := hruns.preserves (fun _ _ hc hnext => Config.Steady.next ha hc hnext) h
  obtain ⟨trail, hon⟩ := hsteady.exists_on
  exact not_circles ha hfree hon

/-- If no chain of reductions is longer than a bound, one of them comes to an end. -/
theorem exists_settled (t : Table) {bound : Nat} {c : Config}
    (h : ∀ rules last, t.Reduces rules c last → rules.length ≤ bound) :
    ∃ rules last, t.Reduces rules c last ∧ ∀ rule next, t.move last ≠ .reduce rule next := by
  induction bound generalizing c with
  | zero =>
      refine ⟨[], c, .nil c, fun rule next hmove => ?_⟩
      exact absurd (h [rule] next (.cons hmove (.nil next))) (Nat.not_succ_le_zero 0)
  | succ bound ih =>
      by_cases hmore : ∃ rule next, t.move c = .reduce rule next
      · obtain ⟨rule, next, hmove⟩ := hmore
        obtain ⟨rules, last, hreduces, hlast⟩ := ih fun rules last hreduces =>
          Nat.le_of_succ_le_succ (h (rule :: rules) last (.cons hmove hreduces))
        exact ⟨rule :: rules, last, .cons hmove hreduces, hlast⟩
      · exact ⟨[], c, .nil c, fun rule next hmove => hmore ⟨rule, next, hmove⟩⟩

/-- On one token a parser without conflicts makes no more reductions than there are
symbols on its stack times nonterminals, and then shifts, accepts or rejects. -/
theorem reductions_bounded {alphabet productions : List String} {g : Grammar}
    (hbuild : Grammar.build alphabet productions = .ok g) {e : Exploration}
    {policy : ConflictPolicy} {t : Table}
    (htable : buildWith (Automaton.build g e) policy = .ok t)
    (hfree : t.hasConflicts = false) {input : String} {count : Nat} {c : Config}
    (hruns : t.Runs count (.ofInput g.toVocabulary input) c) :
    (∀ rules last, t.Reduces rules c last → last.lookahead = c.lookahead ∧
      rules.length ≤ c.stack.symbols.length * g.nonterminals.length) ∧
    ∃ rules last, t.Reduces rules c last ∧
      ((∃ symbol next, t.move last = .shift symbol next) ∨
        (∃ derivation, t.move last = .accept derivation) ∨
        ∃ rejection, t.move last = .reject rejection) := by
  have ha := Automaton.build_canonical (Grammar.build_wellFormed hbuild) e
  obtain ⟨rfl, _⟩ := buildWith_eq_ok htable
  have hcollisions := collisions_eq_nil_of_hasConflicts hfree
  have hsteady := Config.Steady.of_runs ha hruns
  obtain ⟨trail, hon⟩ := hsteady.exists_on
  have hheight : c.stack.symbols.length = trail.length := by
    rw [hon.stack_eq, ParseStack.symbols_ofTrail, List.length_map]
  have hbound : ∀ rules last, (build (Automaton.build g e)).Reduces rules c last →
      rules.length ≤ c.stack.symbols.length * g.nonterminals.length := by
    intro rules last hreduces
    rw [hheight]
    exact hreduces.length_le ha hon (straight_of_steady ha hcollisions hsteady)
  obtain ⟨rules, last, hreduces, hlast⟩ := exists_settled _ hbound
  refine ⟨fun others middle hothers => ⟨?_, hbound others middle hothers⟩,
    rules, last, hreduces, ?_⟩
  · obtain ⟨_, _, _, hlookahead, _⟩ := hothers.exists_on ha hon
    exact hlookahead
  · cases hmove : (build (Automaton.build g e)).move last with
    | shift symbol next => exact .inl ⟨symbol, next, rfl⟩
    | reduce rule next => exact absurd hmove (hlast rule next)
    | accept derivation => exact .inr (.inl ⟨derivation, rfl⟩)
    | reject rejection => exact .inr (.inr ⟨rejection, rfl⟩)

end Table

/-- `T` is only another name for `U`, of which `V` derives nothing, and `D` and `E`
derive each other. -/
def Grammar.aliased : Grammar :=
  .ofRules ⟨["a", "b", "c"], ["S", "T", "U", "V", "D", "E"]⟩
    [⟨0, [.terminal (.token 0), .nonterminal 1], "S->aT"⟩,
     ⟨1, [.nonterminal 2], "T->U"⟩,
     ⟨2, [.terminal (.token 1)], "U->b"⟩,
     ⟨2, [.nonterminal 3], "U->V"⟩,
     ⟨3, [.terminal (.token 2), .nonterminal 3], "V->cV"⟩,
     ⟨4, [.nonterminal 5], "D->E"⟩,
     ⟨5, [.nonterminal 4], "E->D"⟩]

theorem Grammar.build_aliased :
    build ["a", "b", "c"] ["S->aT", "T->U", "U->b", "U->V", "V->cV", "D->E", "E->D"] =
      .ok aliased := by
  decide +kernel

/-- Behind `ab` there are two symbols on the stack, so at most twelve reductions follow. -/
theorem Table.reductions_bounded_aliased :
    ∃ count c, (build (Automaton.build .aliased .depthFirst)).Runs count
        (.ofInput Grammar.aliased.toVocabulary "ab") c ∧
      c.stack.symbols.length = 2 ∧
      ∀ rules last, (build (Automaton.build .aliased .depthFirst)).Reduces rules c last →
        rules.length ≤ 12 := by
  have htable : buildWith (Automaton.build .aliased .depthFirst) .firstWins =
      .ok (build (Automaton.build .aliased .depthFirst)) := rfl
  have hfree : (build (Automaton.build .aliased .depthFirst)).hasConflicts = false := by
    decide +kernel
  have hexists : ((build (Automaton.build .aliased .depthFirst)).history "ab").any
      (fun made => made.1.stack.symbols.length = 2) = true := by
    decide +kernel
  obtain ⟨made, hmem, hheight⟩ := List.any_eq_true.mp hexists
  obtain ⟨count, hruns, _⟩ := runs_of_mem_moves hmem
  have hlength : made.1.stack.symbols.length = 2 := of_decide_eq_true hheight
  have hbounded := (reductions_bounded Grammar.build_aliased htable hfree hruns).1
  rw [hlength] at hbounded
  exact ⟨count, made.1, hruns, hlength, fun rules last h => (hbounded rules last h).2⟩

end CanonicalLR
