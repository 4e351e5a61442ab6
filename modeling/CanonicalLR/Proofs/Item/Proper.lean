import CanonicalLR.Automaton.Discovery
import CanonicalLR.Proofs.Item.Closure

namespace CanonicalLR

/-! The items from which states are made.  Their lookaheads are FIRST sets of
symbols, so a grammar has finitely many of them. -/

namespace Item

structure Proper (g : Grammar) (item : Item) : Prop where
  rule_lt : item.rule < g.rules.length
  dot_le : item.dot ≤ (item.rhs g).length
  lookahead_eq : ∃ symbol ∈ g.symbols, item.lookahead = g.firstOfSymbol symbol

variable {g : Grammar}

theorem Proper.mem_rulesOf {item : Item} (h : item.Proper g) :
    item.rule ∈ g.rulesOf (g.rule item.rule).lhs :=
  Grammar.mem_rulesOf.mpr ⟨h.rule_lt, rfl⟩

theorem Proper.advance {item : Item} (h : item.Proper g) {symbol : Symbol}
    (hnext : item.next? g = some symbol) : item.advance.Proper g where
  rule_lt := h.rule_lt
  dot_le := by
    obtain ⟨hlt, _⟩ := List.getElem?_eq_some_iff.mp hnext
    exact hlt
  lookahead_eq := h.lookahead_eq

theorem Proper.expansion (hg : g.WellFormed) {item new : Item} (h : item.Proper g)
    (hnew : new ∈ item.expansions g) : new.Proper g := by
  obtain ⟨n, _, rule, hrule, rfl⟩ := mem_expansions.mp hnew
  refine ⟨(Grammar.mem_rulesOf.mp hrule).1, Nat.zero_le _, ?_⟩
  show ∃ symbol ∈ g.symbols, item.expansionLookahead g = g.firstOfSymbol symbol
  unfold expansionLookahead
  split
  next symbol hafter =>
    exact ⟨symbol, hg.symbol_mem h.rule_lt symbol (List.mem_of_getElem? hafter), rfl⟩
  next => exact h.lookahead_eq

theorem proper_closure (hg : g.WellFormed) {kernel : List Item}
    (hkernel : ∀ item ∈ kernel, item.Proper g) :
    ∀ item ∈ closure g kernel, item.Proper g :=
  closure_induction hkernel fun _ _ h hnew => h.expansion hg hnew

theorem proper_initialItems (hg : g.WellFormed) :
    ∀ item ∈ Discovery.initialItems g, item.Proper g := by
  refine proper_closure hg fun item hitem => ?_
  rw [List.mem_singleton.mp hitem]
  exact ⟨hg.rules_pos, Nat.zero_le _, .terminal .endMarker, by simp, rfl⟩

theorem proper_goto (hg : g.WellFormed) {items result : List Item} {symbol : Symbol}
    (hitems : ∀ item ∈ items, item.Proper g) (h : goto g items symbol = some result) :
    ∀ item ∈ result, item.Proper g := by
  rw [goto_eq_some h]
  refine proper_closure hg fun item hitem => ?_
  obtain ⟨old, hold, hnext, rfl⟩ := mem_successors.mp hitem
  exact (hitems old hold).advance hnext

end Item

namespace Discovery

def candidates (g : Grammar) : List Item :=
  g.rules.zipIdx.flatMap fun (rule, id) =>
    (List.range (rule.rhs.length + 1)).flatMap fun dot =>
      g.symbols.map fun symbol => ⟨id, dot, g.firstOfSymbol symbol⟩

theorem length_candidates (g : Grammar) :
    (candidates g).length = dotCount g * g.symbols.length := by
  have hsum : ∀ (rules : List Rule) (start : Nat),
      ((rules.zipIdx start).map fun (rule, _) =>
        (rule.rhs.length + 1) * g.symbols.length).sum =
        rules.foldr (fun rule count => rule.rhs.length + 1 + count) 0 *
          g.symbols.length := by
    intro rules
    induction rules with
    | nil => simp
    | cons rule rules ih =>
        intro start
        rw [List.zipIdx_cons, List.map_cons, List.sum_cons, ih, List.foldr_cons, Nat.add_mul]
  rw [dotCount, ← hsum g.rules 0]
  simp [candidates, List.length_flatMap, List.map_const']

theorem mem_candidates {g : Grammar} {item : Item} (h : item.Proper g) :
    item ∈ candidates g := by
  obtain ⟨symbol, hsymbol, hlookahead⟩ := h.lookahead_eq
  refine List.mem_flatMap.mpr ⟨(g.rule item.rule, item.rule), ?_, ?_⟩
  · exact List.mem_zipIdx_iff_getElem?.mpr (Grammar.getElem?_rules h.rule_lt)
  · refine List.mem_flatMap.mpr ⟨item.dot, ?_, ?_⟩
    · exact List.mem_range.mpr (Nat.lt_succ_of_le h.dot_le)
    · refine List.mem_map.mpr ⟨symbol, hsymbol, ?_⟩
      rw [← hlookahead]

end Discovery
end CanonicalLR
