import CanonicalLR.Proofs.Indexed.Pipeline
import CanonicalLR.Proofs.Table.Reducers

namespace CanonicalLR

open Indexed

/-! What a cell holds.  A step over its symbol comes before the reductions, and of these
the one that the first item of the state asks for. -/

namespace Automaton

/-- The rule of the first item of a state that asks to reduce in front of a terminal. -/
def firstReducer? (a : Automaton) (state : Nat) (t : Terminal) : Option Nat :=
  ((a.itemsOf state).find? fun item => item.atEnd a.grammar ∧ t ∈ item.lookahead).map
    Item.rule

variable {a : Automaton} {state : Nat} {symbol : Symbol}

theorem head?_reducers (t : Terminal) :
    (a.reducers state t).head? = a.firstReducer? state t := by
  rw [reducers, head?_eraseDups, List.head?_map, List.head?_filter, firstReducer?]

theorem Canonical.step?_of_mem (ha : a.Canonical) {target : Nat}
    (hstep : ⟨state, symbol, target⟩ ∈ a.transitions) :
    a.step? state symbol =
      some (if symbol.isTerminal then .shift target else .goto target) := by
  rw [step?, ha.goto?_eq_some_iff.mpr hstep]
  rfl

theorem Canonical.step?_eq_none (ha : a.Canonical)
    (hnone : ∀ target, ⟨state, symbol, target⟩ ∉ a.transitions) :
    a.step? state symbol = none := by
  rw [step?, Option.map_eq_none_iff]
  refine Option.eq_none_iff_forall_ne_some.mpr fun target hgoto => ?_
  exact hnone target (ha.goto?_eq_some_iff.mp hgoto)

end Automaton

namespace Table

variable {a : Automaton} {state : Nat} {symbol : Symbol}

/-- A cell holds the step, or else the first reduction. -/
theorem entry_eq (ha : a.Canonical) (state : Nat) (symbol : Symbol) :
    (build a).entry state symbol =
      (a.step? state symbol).or (a.reductions state symbol).head? := by
  rw [entry_eq_head? (proposals_fit ha), Automaton.competing_proposals ha, List.head?_append]
  cases a.step? state symbol <;> rfl

theorem entry_of_step (ha : a.Canonical) {target : Nat}
    (hstep : ⟨state, symbol, target⟩ ∈ a.transitions) :
    (build a).entry state symbol =
      some (if symbol.isTerminal then .shift target else .goto target) := by
  rw [entry_eq ha, ha.step?_of_mem hstep, Option.some_or]

theorem entry_of_no_step (ha : a.Canonical)
    (hnone : ∀ target, ⟨state, symbol, target⟩ ∉ a.transitions) :
    (build a).entry state symbol = (a.reductions state symbol).head? := by
  rw [entry_eq ha, ha.step?_eq_none hnone, Option.none_or]

theorem entry_nonterminal_ne_reduce (ha : a.Canonical) {n rule : Nat} :
    (build a).entry state (.nonterminal n) ≠ some (.reduce rule) := by
  intro hentry
  cases proposes_of_entry ha hentry

/-- Every cell holds the step over its symbol; without a step, the first reduction that
an item of its state asks for; and otherwise nothing.  The vector of cells has it there. -/
theorem entries_exact {alphabet productions : List String} {g : Grammar}
    (hbuild : Grammar.build alphabet productions = .ok g) {e : Exploration}
    {policy : ConflictPolicy} {t : Table}
    (htable : buildWith (Automaton.build g e) policy = .ok t) :
    (∀ state symbol target, ⟨state, symbol, target⟩ ∈ (Automaton.build g e).transitions →
      t.entry state symbol =
        some (if symbol.isTerminal then .shift target else .goto target)) ∧
    (∀ state x,
      (∀ target, ⟨state, .terminal x, target⟩ ∉ (Automaton.build g e).transitions) →
      t.entry state (.terminal x) =
        ((Automaton.build g e).firstReducer? state x).map .reduce) ∧
    (∀ state n,
      (∀ target, ⟨state, .nonterminal n, target⟩ ∉ (Automaton.build g e).transitions) →
      t.entry state (.nonterminal n) = none) ∧
    (∀ state n rule, t.entry state (.nonterminal n) ≠ some (.reduce rule)) ∧
    ∃ s, Sheet.build? (Automaton.build g e).layout = some s ∧
      ∀ state symbol, s.entry? state symbol = some (t.entry state symbol) := by
  have hg := Grammar.build_wellFormed hbuild
  have ha := Automaton.build_canonical hg e
  obtain ⟨rfl, _⟩ := buildWith_eq_ok htable
  refine ⟨fun state symbol target hstep => entry_of_step ha hstep,
    fun state x hnone => ?_, fun state n hnone => entry_of_no_step ha hnone,
    fun state n rule => entry_nonterminal_ne_reduce ha, _,
    build?_eq ha (Automaton.build_grouped hg e), entry?_sheet _⟩
  rw [entry_of_no_step ha hnone, Automaton.reductions, List.head?_map,
    Automaton.head?_reducers]

end Table

/-- Behind `E+E` an `E` or an `F` can end, or another `+` can follow. -/
def Grammar.contested : Grammar :=
  .ofRules ⟨["a", "+"], ["S", "E", "F"]⟩
    [⟨0, [.nonterminal 1], "S->E"⟩,
     ⟨1, [.nonterminal 1, .terminal (.token 1), .nonterminal 1], "E->E+E"⟩,
     ⟨1, [.nonterminal 1, .terminal (.token 1), .nonterminal 2], "E->E+F"⟩,
     ⟨1, [.terminal (.token 0)], "E->a"⟩,
     ⟨2, [.nonterminal 1], "F->E"⟩]

theorem Grammar.build_contested :
    build ["a", "+"] ["S->E", "E->E+E", "E->E+F", "E->a", "F->E"] = .ok contested := by
  decide +kernel

/-- In front of `+` the shift stays, and in front of `$` the first reduction. -/
theorem Table.entries_exact_contested :
    (build (Automaton.build .contested .breadthFirst)).entry 4 (.terminal (.token 1)) =
        some (.shift 3) ∧
      (build (Automaton.build .contested .breadthFirst)).entry 4 (.terminal .endMarker) =
        some (.reduce 1) := by
  have htable : buildWith (Automaton.build .contested .breadthFirst) .firstWins =
      .ok (build (Automaton.build .contested .breadthFirst)) := rfl
  obtain ⟨hstep, hreduce, _⟩ := entries_exact Grammar.build_contested htable
  have hmem : ⟨4, .terminal (.token 1), 3⟩ ∈
      (Automaton.build .contested .breadthFirst).transitions := by
    decide +kernel
  have hnone : ∀ transition ∈ (Automaton.build .contested .breadthFirst).transitions,
      transition.source = 4 → transition.symbol ≠ .terminal .endMarker := by
    decide +kernel
  have hfirst : (Automaton.build .contested .breadthFirst).firstReducer? 4 .endMarker =
      some 1 := by
    decide +kernel
  refine ⟨hstep 4 (.terminal (.token 1)) 3 hmem, ?_⟩
  rw [hreduce 4 .endMarker fun target hother => hnone _ hother rfl rfl, hfirst]
  rfl

end CanonicalLR
