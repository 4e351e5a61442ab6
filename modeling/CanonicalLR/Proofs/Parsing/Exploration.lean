import CanonicalLR.Proofs.Automaton.Exploration
import CanonicalLR.Proofs.Parsing.Soundness
import CanonicalLR.Proofs.Table.Reducers
import CanonicalLR.Table.Grid

namespace CanonicalLR

/-! What the order of exploration leaves to be seen in a table.  The automata differ in
the order of their items at most, but of several reductions the first one listed wins
its cell. -/

namespace Table

section SameCells

variable {t u : Table} (hgrammar : t.grammar = u.grammar)
  (hentry : ∀ state symbol, t.entry state symbol = u.entry state symbol)
include hgrammar hentry

theorem move_eq (c : Config) : t.move c = u.move c := by
  have hcells : t.entry = u.entry := funext fun state => funext (hentry state)
  simp only [move, Config.reduce, hgrammar, hcells]

theorem run_eq (budget : Nat) (c : Config) : t.run budget c = u.run budget c := by
  induction budget generalizing c with
  | zero => rfl
  | succ budget ih =>
      rw [run, run, move_eq hgrammar hentry]
      cases u.move c with
      | shift symbol next => exact ih next
      | reduce rule next => exact ih next
      | accept derivation => rfl
      | reject rejection => rfl

theorem parse_eq (hcount : t.stateCount = u.stateCount) (input : String) :
    t.parse input = u.parse input := by
  rw [parse, parse, moveBound, moveBound, hgrammar, hcount]
  exact run_eq hgrammar hentry _ _

theorem grid_eq (hcount : t.stateCount = u.stateCount) (hcolumns : t.columns = u.columns)
    (hconflicts : t.conflicts = u.conflicts) : Grid.ofTable t = Grid.ofTable u := by
  have hcells : t.entry = u.entry := funext fun state => funext (hentry state)
  have hrow : Grid.stateRow t = Grid.stateRow u := by
    funext state
    rw [Grid.stateRow, Grid.stateRow, hcolumns, hcells]
  rw [Grid.ofTable, Grid.ofTable, hcolumns, hgrammar, hcount, hconflicts, hrow]

end SameCells

/-- The tables have the same cells and the same log of conflicts, look the same and
parse every input alike. -/
structure Equivalent (t u : Table) : Prop where
  entry_eq : ∀ state symbol, t.entry state symbol = u.entry state symbol
  conflicts_eq : t.conflicts = u.conflicts
  grid_eq : Grid.ofTable t = Grid.ofTable u
  parse_eq : ∀ input, t.parse input = u.parse input

section Rearranged

variable {a b : Automaton} (ha : a.Canonical) (hb : b.Canonical)
include ha hb

/-! If the same actions compete in the same order, the conflicts are the same, but the
logs may still list them in different orders. -/

theorem mem_conflicts_of_actionsAt_eq
    (hactions : ∀ state symbol,
      (build a).actionsAt state symbol = (build b).actionsAt state symbol) {c : Conflict} :
    c ∈ (build a).conflicts ↔ c ∈ (build b).conflicts := by
  rw [mem_conflicts_iff (proposals_fit ha), mem_conflicts_iff (proposals_fit hb), hactions]

theorem conflicts_eq_of_actionsAt_eq
    (hactions : ∀ state symbol,
      (build a).actionsAt state symbol = (build b).actionsAt state symbol)
    (hcells : (build a).conflicts.map Conflict.cell = (build b).conflicts.map Conflict.cell) :
    (build a).conflicts = (build b).conflicts := by
  have hnodup := conflicts_cells_nodup (proposals_fit hb)
  rw [← List.forall₂_eq_eq_eq]
  refine forall₂_of_map_eq hcells fun c hc other hother hcell => ?_
  have hmem := (mem_conflicts_of_actionsAt_eq ha hb hactions).mp hc
  exact List.inj_on_of_nodup_map hnodup hmem hother hcell

variable (h : a.Rearranged b)
include h

theorem actionsAt_perm (state : Nat) (symbol : Symbol) :
    ((build a).actionsAt state symbol).Perm ((build b).actionsAt state symbol) := by
  rw [actionsAt_build (proposals_fit ha), actionsAt_build (proposals_fit hb)]
  exact h.competing_perm state symbol

theorem entry_eq_iff :
    (∀ state symbol, (build a).entry state symbol = (build b).entry state symbol) ↔
      ∀ state t, a.goto? state (.terminal t) = none →
        (a.reducers state t).head? = (b.reducers state t).head? := by
  rw [← h.head?_competing_eq_iff ha hb]
  simp only [entry_eq_head? (proposals_fit ha), entry_eq_head? (proposals_fit hb)]

theorem actionsAt_eq_iff :
    (∀ state symbol, (build a).actionsAt state symbol = (build b).actionsAt state symbol) ↔
      ∀ state t, a.reducers state t = b.reducers state t := by
  rw [← h.competing_eq_iff ha hb]
  simp only [actionsAt_build (proposals_fit ha), actionsAt_build (proposals_fit hb)]

theorem equivalent_iff :
    (build a).Equivalent (build b) ↔
      (∀ state t, a.reducers state t = b.reducers state t) ∧
        (build a).conflicts.map Conflict.cell = (build b).conflicts.map Conflict.cell := by
  constructor
  · intro hequivalent
    refine ⟨(actionsAt_eq_iff ha hb h).mp fun state symbol => ?_,
      congrArg _ hequivalent.conflicts_eq⟩
    rw [actionsAt, actionsAt, hequivalent.conflicts_eq, hequivalent.entry_eq]
  · intro ⟨hreducers, hcells⟩
    have hactions := (actionsAt_eq_iff ha hb h).mpr hreducers
    have hentry := (entry_eq_iff ha hb h).mpr fun state t _ => congrArg _ (hreducers state t)
    have hconflicts := conflicts_eq_of_actionsAt_eq ha hb hactions hcells
    have hcolumns : (build a).columns = (build b).columns := by
      rw [columns_build, columns_build, h.grammar_eq]
    exact ⟨hentry, hconflicts, grid_eq h.grammar_eq hentry h.stateCount_eq hcolumns hconflicts,
      parse_eq h.grammar_eq hentry h.stateCount_eq⟩

/-- Without a conflict there is no order in which actions could compete. -/
theorem actionsAt_eq_of_conflicts_eq_nil (hfree : (build a).conflicts = []) (state : Nat)
    (symbol : Symbol) :
    (build a).actionsAt state symbol = (build b).actionsAt state symbol := by
  have hperm := actionsAt_perm ha hb h state symbol
  have hcell : (build a).actionsAt state symbol = ((build a).entry state symbol).toList := by
    rw [actionsAt, hfree]
    rfl
  rw [hcell] at hperm ⊢
  cases hentry : (build a).entry state symbol with
  | none =>
      rw [hentry] at hperm
      exact (List.nil_perm.mp hperm).symm
  | some action =>
      rw [hentry] at hperm
      exact List.singleton_perm.mp hperm

theorem equivalent_of_conflicts_eq_nil (hfree : (build a).conflicts = []) :
    (build a).Equivalent (build b) := by
  have hactions := actionsAt_eq_of_conflicts_eq_nil ha hb h hfree
  have hother : (build b).conflicts = [] := by
    refine List.eq_nil_iff_forall_not_mem.mpr fun c hc => ?_
    have hmem := (mem_conflicts_of_actionsAt_eq ha hb hactions).mpr hc
    rw [hfree] at hmem
    exact List.not_mem_nil hmem
  refine (equivalent_iff ha hb h).mpr ⟨(actionsAt_eq_iff ha hb h).mp hactions, ?_⟩
  rw [hfree, hother]

end Rearranged

/-- Whatever the order of exploration, the same actions compete for each cell, and the
tables are the same as far as the items list the reductions in the same order. -/
theorem build_explorations {alphabet productions : List String} {g : Grammar}
    (hbuild : Grammar.build alphabet productions = .ok g) (first second : Exploration) :
    ∃ t u, buildWith (Automaton.build g first) .firstWins = .ok t ∧
      buildWith (Automaton.build g second) .firstWins = .ok u ∧
      (∀ state symbol, (t.actionsAt state symbol).Perm (u.actionsAt state symbol)) ∧
      ((∀ state symbol, t.entry state symbol = u.entry state symbol) ↔
        ∀ state x, t.automaton.goto? state (.terminal x) = none →
          (t.automaton.reducers state x).head? = (u.automaton.reducers state x).head?) ∧
      ((∀ state symbol, t.entry state symbol = u.entry state symbol) →
        ∀ input, t.parse input = u.parse input) ∧
      (t.Equivalent u ↔
        (∀ state x, t.automaton.reducers state x = u.automaton.reducers state x) ∧
          t.conflicts.map Conflict.cell = u.conflicts.map Conflict.cell) ∧
      (t.conflicts = [] → t.Equivalent u) := by
  have hg := Grammar.build_wellFormed hbuild
  have h := Automaton.build_rearranged hg first second
  have ha := Automaton.build_canonical hg first
  have hb := Automaton.build_canonical hg second
  exact ⟨build (Automaton.build g first), build (Automaton.build g second), rfl, rfl,
    actionsAt_perm ha hb h, entry_eq_iff ha hb h,
    fun hentry => parse_eq h.grammar_eq hentry h.stateCount_eq, equivalent_iff ha hb h,
    equivalent_of_conflicts_eq_nil ha hb h⟩

theorem explorations_nesting :
    (build (Automaton.build .nesting .breadthFirst)).Equivalent
      (build (Automaton.build .nesting .depthFirst)) := by
  obtain ⟨t, u, ht, hu, _, _, _, _, hfree⟩ :=
    build_explorations Grammar.build_nesting .breadthFirst .depthFirst
  cases ht
  cases hu
  exact hfree (by decide +kernel)

/-- The reductions to `X` and to `Y` compete in state 6, and each wins once. -/
theorem explorations_swapped :
    Grammar.build ["a", "b", "c"]
      ["S->T", "T->aXcb", "T->aYca", "T->bYca", "T->bXcb", "X->c", "Y->c"] = .ok .swapped ∧
    ∃ t u, buildWith (Automaton.build .swapped .breadthFirst) .firstWins = .ok t ∧
      buildWith (Automaton.build .swapped .depthFirst) .firstWins = .ok u ∧
      t.entry 6 (.terminal (.token 2)) = some (.reduce 5) ∧
      u.entry 6 (.terminal (.token 2)) = some (.reduce 6) ∧
      t.conflicts = [⟨6, .terminal (.token 2), .reduce 5, [.reduce 6]⟩] ∧
      u.conflicts = [⟨6, .terminal (.token 2), .reduce 6, [.reduce 5]⟩] ∧
      Grid.ofTable t ≠ Grid.ofTable u ∧
      t.parse "accb" = .accepted ⟨[1, 5], 4⟩ ∧
      u.parse "accb" = .rejected (.missingTableEntry 10 "b" "acc") := by
  refine ⟨Grammar.build_swapped, _, _, rfl, rfl, ?_, ?_, ?_, ?_, ?_, ?_, ?_⟩
  all_goals decide +kernel

end Table
end CanonicalLR
