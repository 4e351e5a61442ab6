import CanonicalLR.Proofs.Automaton.Collection
import CanonicalLR.Proofs.Table.Competition

namespace CanonicalLR

/-! Conflicts of a table and conflicts of its grammar.  A table has a conflict where two
actions are proposed for one cell; the grammar has one where the symbols read so far and
the next terminal leave the choice between two rules, or between a rule and the terminal. -/

namespace Grammar

/-- The symbols are a context and the front part of a rule that can stand there. -/
def Viable (g : Grammar) (symbols : List Symbol) : Prop :=
  ∃ before rest id left right, id < g.rules.length ∧
    g.Context before (g.rule id).lhs rest ∧ (g.rule id).rhs = left ++ right ∧
    symbols = before ++ left

/-- The symbols end in the right-hand side of the rule, and the terminal can follow it
there. -/
def Reducible (g : Grammar) (symbols : List Symbol) (t : Terminal) (id : Nat) : Prop :=
  id < g.rules.length ∧ ∃ before rest, g.Context before (g.rule id).lhs rest ∧
    symbols = before ++ (g.rule id).rhs ∧ g.CanFollow rest t

/-- The terminal stands behind the symbols in some rule. -/
def Shiftable (g : Grammar) (symbols : List Symbol) (t : Terminal) : Prop :=
  ∃ before rest id left right, id < g.rules.length ∧
    g.Context before (g.rule id).lhs rest ∧
    (g.rule id).rhs = left ++ .terminal t :: right ∧ symbols = before ++ left

def ConflictsBehind (g : Grammar) (symbols : List Symbol) (t : Terminal) : Prop :=
  (∃ first second, first ≠ second ∧ g.Reducible symbols t first ∧
    g.Reducible symbols t second) ∨
  ∃ id, g.Reducible symbols t id ∧ g.Shiftable symbols t

/-- Some viable prefix and some terminal leave a choice. -/
def Conflicting (g : Grammar) : Prop :=
  ∃ symbols t, g.Viable symbols ∧ g.ConflictsBehind symbols t

variable {g : Grammar} {symbols : List Symbol} {t : Terminal}

theorem Reducible.viable {id : Nat} (h : g.Reducible symbols t id) : g.Viable symbols := by
  obtain ⟨hid, before, rest, hcontext, hsymbols, _⟩ := h
  exact ⟨before, rest, id, _, [], hid, hcontext, (List.append_nil _).symm, hsymbols⟩

theorem ConflictsBehind.viable (h : g.ConflictsBehind symbols t) : g.Viable symbols := by
  rcases h with ⟨_, _, _, hreducible, _⟩ | ⟨_, hreducible, _⟩
  · exact hreducible.viable
  · exact hreducible.viable

end Grammar

namespace Automaton

variable {a : Automaton} {trail : Trail} {t : Terminal}

/-! What the top of a trail proposes is what the grammar allows behind its symbols. -/

theorem Traces.proposes_reduce_iff (ha : a.Canonical) (h : a.Traces trail) {id : Nat} :
    a.Proposes trail.top (.terminal t) (.reduce id) ↔
      a.grammar.Reducible trail.spelling t id := by
  constructor
  · intro hproposes
    cases hproposes with
    | @reduce item _ hitem hend ht =>
        obtain ⟨hrule, hdot, before, rest, hcontext, hsymbols, hlookahead⟩ :=
          (h.mem_iff_valid ha).mp hitem
        rw [List.take_of_length_le (of_decide_eq_true hend)] at hsymbols
        rw [hlookahead] at ht
        exact ⟨hrule, before, rest, hcontext, hsymbols,
          (Grammar.mem_followers_iff ha.wellFormed).mp ht⟩
  · intro ⟨hid, before, rest, hcontext, hsymbols, hfollow⟩
    have hitem : ⟨id, (a.grammar.rule id).rhs.length, a.grammar.followers rest⟩ ∈
        a.itemsOf trail.top := by
      apply (h.mem_iff_valid ha).mpr
      refine ⟨hid, Nat.le_refl _, before, rest, hcontext, ?_, rfl⟩
      rw [Item.rhs, List.take_length]
      exact hsymbols
    exact .reduce hitem (decide_eq_true (Nat.le_refl _))
      ((Grammar.mem_followers_iff ha.wellFormed).mpr hfollow)

theorem Traces.exists_shift_iff (ha : a.Canonical) (h : a.Traces trail) :
    (∃ target, a.Proposes trail.top (.terminal t) (.shift target)) ↔
      a.grammar.Shiftable trail.spelling t := by
  constructor
  · intro ⟨target, hproposes⟩
    cases hproposes with
    | shift hstep =>
        obtain ⟨item, hitem, hnext⟩ := ha.exists_kernel hstep
        obtain ⟨hrule, _, before, rest, hcontext, hsymbols, _⟩ :=
          (h.mem_iff_valid ha).mp hitem
        exact ⟨before, rest, item.rule, _, _, hrule, hcontext, Item.rhs_eq hnext, hsymbols⟩
  · intro ⟨before, rest, id, left, right, hid, hcontext, hrhs, hsymbols⟩
    have hitem : ⟨id, left.length, a.grammar.followers rest⟩ ∈ a.itemsOf trail.top := by
      apply (h.mem_iff_valid ha).mpr
      refine ⟨hid, ?_, before, rest, hcontext, ?_, rfl⟩
      · simp [Item.rhs, hrhs]
      · simpa [Item.rhs, hrhs] using hsymbols
    have hnext : Item.next? a.grammar ⟨id, left.length, a.grammar.followers rest⟩ =
        some (.terminal t) := by
      simp [Item.next?, Item.rhs, hrhs]
    obtain ⟨target, hstep⟩ := ha.exists_transition hitem hnext
    exact ⟨target, .shift hstep⟩

/-- Different actions for a cell are two reductions, or a shift and a reduction. -/
theorem Traces.conflicts_iff (ha : a.Canonical) (h : a.Traces trail) :
    (∃ first second, first ≠ second ∧ a.Proposes trail.top (.terminal t) first ∧
      a.Proposes trail.top (.terminal t) second) ↔
      a.grammar.ConflictsBehind trail.spelling t := by
  constructor
  · intro ⟨first, second, hne, hfirst, hsecond⟩
    cases hfirst with
    | shift hstep =>
        cases hsecond with
        | shift hother => exact absurd (congrArg _ (ha.source_unique hstep hother)) hne
        | reduce hitem hend ht =>
            exact .inr ⟨_, (h.proposes_reduce_iff ha).mp (.reduce hitem hend ht),
              (h.exists_shift_iff ha).mp ⟨_, .shift hstep⟩⟩
    | reduce hitem hend ht =>
        have hreducible := (h.proposes_reduce_iff ha).mp (.reduce hitem hend ht)
        cases hsecond with
        | shift hstep => exact .inr ⟨_, hreducible, (h.exists_shift_iff ha).mp ⟨_, .shift hstep⟩⟩
        | reduce hother hotherEnd hotherTerminal =>
            refine .inl ⟨_, _, fun heq => hne (congrArg _ heq), hreducible, ?_⟩
            exact (h.proposes_reduce_iff ha).mp (.reduce hother hotherEnd hotherTerminal)
  · intro hconflicts
    rcases hconflicts with ⟨i, j, hne, hi, hj⟩ | ⟨id, hid, hshift⟩
    · refine ⟨.reduce i, .reduce j, fun heq => hne (Action.reduce.inj heq), ?_, ?_⟩
      · exact (h.proposes_reduce_iff ha).mpr hi
      · exact (h.proposes_reduce_iff ha).mpr hj
    · obtain ⟨target, hproposes⟩ := (h.exists_shift_iff ha).mpr hshift
      refine ⟨.shift target, .reduce id, nofun, hproposes, ?_⟩
      exact (h.proposes_reduce_iff ha).mpr hid

/-- Over a nonterminal there is only its transition. -/
theorem Proposes.eq_of_nonterminal (ha : a.Canonical) {state n : Nat} {first second : Action}
    (hfirst : a.Proposes state (.nonterminal n) first)
    (hsecond : a.Proposes state (.nonterminal n) second) : first = second := by
  cases hfirst with
  | goto hstep =>
      cases hsecond with
      | goto hother => exact congrArg _ (ha.source_unique hstep hother)

end Automaton

namespace Table

variable {a : Automaton}

theorem hasConflicts_iff_exists_mem {t : Table} :
    t.hasConflicts = true ↔ ∃ c, c ∈ t.conflicts := by
  rw [hasConflicts, Bool.not_eq_true', List.isEmpty_eq_false_iff_exists_mem]

/-- The log has a conflict for a cell if different actions were proposed for it. -/
theorem exists_conflict_iff (ha : a.Canonical) {state : Nat} {symbol : Symbol} :
    (∃ c ∈ (build a).conflicts, c.cell = (state, symbol)) ↔
      ∃ first second, first ≠ second ∧ a.Proposes state symbol first ∧
        a.Proposes state symbol second := by
  have hcells : (state, symbol) ∈ (build a).conflicts.map Conflict.cell ↔
      Proposal.Contested a.proposals (state, symbol) :=
    (build_records (proposals_fit ha)).mem_cells_iff
  rw [List.mem_map] at hcells
  simp only [Proposal.Contested, Automaton.mem_proposals_iff ha] at hcells
  exact hcells

theorem buildWith_fail_iff :
    (∃ c, buildWith a .fail = .error c) ↔ (build a).hasConflicts = true := by
  simp only [buildWith_fail_eq_error_iff, hasConflicts_iff_exists_mem]
  exact ⟨fun ⟨c, hc⟩ => ⟨c, List.mem_of_head? hc⟩, fun ⟨_, hc⟩ =>
    ⟨_, List.head?_eq_some_head (List.ne_nil_of_mem hc)⟩⟩

theorem hasConflicts_build_iff {g : Grammar} (hg : g.WellFormed) (e : Exploration) :
    (build (Automaton.build g e)).hasConflicts = true ↔ g.Conflicting := by
  have ha := Automaton.build_canonical hg e
  rw [hasConflicts_iff_exists_mem]
  constructor
  · intro ⟨c, hc⟩
    obtain ⟨first, second, hne, hfirst, hsecond⟩ :=
      (exists_conflict_iff ha).mp ⟨c, hc, rfl⟩
    obtain ⟨trail, htrail, htop⟩ := Automaton.exists_traces hg e (hfirst.state_lt ha)
    rw [← htop] at hfirst hsecond
    cases hsymbol : c.symbol with
    | nonterminal n =>
        rw [hsymbol] at hfirst hsecond
        exact absurd (hfirst.eq_of_nonterminal ha hsecond) hne
    | terminal t =>
        rw [hsymbol] at hfirst hsecond
        have hconflicts : g.ConflictsBehind trail.spelling t :=
          (htrail.conflicts_iff ha).mp ⟨first, second, hne, hfirst, hsecond⟩
        exact ⟨trail.spelling, t, hconflicts.viable, hconflicts⟩
  · intro ⟨symbols, t, ⟨before, rest, id, left, right, hid, hcontext, hrhs, hsymbols⟩,
      hconflicts⟩
    have hdot : left.length ≤ (g.rule id).rhs.length := by simp [hrhs]
    have hvalid : Item.Valid g symbols ⟨id, left.length, g.followers rest⟩ :=
      ⟨before, rest, hcontext, by simpa [Item.rhs, hrhs] using hsymbols, rfl⟩
    obtain ⟨trail, htrail, rfl, _⟩ :=
      Automaton.exists_traces_of_valid ha hid hdot hvalid
    obtain ⟨c, hc, _⟩ := (exists_conflict_iff ha).mpr ((htrail.conflicts_iff ha).mpr hconflicts)
    exact ⟨c, hc⟩

/-- A table reports conflicts, or is refused for them, exactly if its grammar has any. -/
theorem conflicts_exact {alphabet productions : List String} {g : Grammar}
    (hbuild : Grammar.build alphabet productions = .ok g) (e : Exploration) :
    ((build (Automaton.build g e)).hasConflicts = true ↔ g.Conflicting) ∧
      ((∃ c, buildWith (Automaton.build g e) .fail = .error c) ↔ g.Conflicting) := by
  have hconflicts := hasConflicts_build_iff (Grammar.build_wellFormed hbuild) e
  exact ⟨hconflicts, buildWith_fail_iff.trans hconflicts⟩

end Table

/-- Behind `a` two items ask to reduce by the same rule in front of `b`. -/
def Grammar.overlapping : Grammar :=
  .ofRules ⟨["a", "b", "c", "d"], ["S", "T", "A", "N"]⟩
    [⟨0, [.nonterminal 1], "S->T"⟩,
     ⟨1, [.nonterminal 2, .nonterminal 3], "T->AN"⟩,
     ⟨1, [.nonterminal 2, .terminal (.token 1), .terminal (.token 3)], "T->Abd"⟩,
     ⟨2, [.terminal (.token 0)], "A->a"⟩,
     ⟨3, [.terminal (.token 1)], "N->b"⟩,
     ⟨3, [.terminal (.token 2)], "N->c"⟩]

theorem Grammar.build_overlapping :
    build ["a", "b", "c", "d"] ["S->T", "T->AN", "T->Abd", "A->a", "N->b", "N->c"] =
      .ok overlapping := by
  decide +kernel

theorem Table.conflicts_exact_overlapping :
    Grammar.swapped.Conflicting ∧ ¬ Grammar.overlapping.Conflicting := by
  have hswapped := conflicts_exact Grammar.build_swapped .breadthFirst
  have hoverlapping := conflicts_exact Grammar.build_overlapping .depthFirst
  have hconflicts : (build (Automaton.build .swapped .breadthFirst)).hasConflicts = true := by
    decide +kernel
  have hnone : (build (Automaton.build .overlapping .depthFirst)).hasConflicts = false := by
    decide +kernel
  refine ⟨hswapped.1.mp hconflicts, fun hconflicting => ?_⟩
  rw [hoverlapping.1.mpr hconflicting] at hnone
  cases hnone

end CanonicalLR
