import CanonicalLR.Proofs.Parsing.Halting

namespace CanonicalLR

/-! A table never contradicts itself, however its conflicts were resolved.  Where it
asks for a reduction, the stack holds the right-hand side of the rule, and the state
below it has a goto; so whatever is rejected, the input is to blame. -/

theorem Scanner.fetch_error {v : Vocabulary} {s : Scanner} {rejection : Rejection}
    (h : (s.fetch v).1 = .error rejection) : rejection.isInternal = false := by
  cases hs : s.finished with
  | true =>
      rw [fetch_of_finished v hs] at h
      cases h
  | false =>
      have hfetched := fetched v hs
      rw [h] at hfetched
      generalize (s.fetch v).2 = after at hfetched
      cases hfetched
      rfl

theorem ParseStack.topState?_ofTrail (trail : Trail) :
    (ofTrail trail).topState? = some trail.top := by
  cases trail <;> rfl

namespace Config

/-- The stack has what the table relies on: a state on top and, where a reduction is
asked for, the right-hand side of its rule above a state with a goto. -/
structure Consistent (t : Table) (c : Config) : Prop where
  top : ∃ state, c.stack.topState? = some state
  exposes : ∀ token id, c.lookahead = .ok token →
    t.entry c.stack.top (.terminal token.terminal) = some (.reduce id) → id ≠ 0 →
    ∃ stack state target, c.stack.popRhs t.grammar id = (.ok (), stack) ∧
      stack.topState? = some state ∧
      t.entry state (.nonterminal (t.grammar.rule id).lhs) = some (.goto target)
  not_internal : ∀ rejection, t.move c = .reject rejection → rejection.isInternal = false

/-- What holds of every configuration of a run: the stack follows a trail, and an
error in place of the current token is one of the input. -/
structure Steady (a : Automaton) (c : Config) : Prop where
  exists_on : ∃ trail, c.On a trail
  unread : ∀ rejection, c.lookahead = .error rejection → rejection.isInternal = false

variable {a : Automaton} {c : Config}

theorem ofInput_steady (a : Automaton) (input : String) :
    (ofInput a.grammar.toVocabulary input).Steady a where
  exists_on := ⟨[], rfl, .nil⟩
  unread _ h := Scanner.fetch_error h

theorem unread_shift (h : c.Steady a) (v : Vocabulary) (token : Token) (target : Nat)
    {rejection : Rejection} (hshift : (c.shift v token target).lookahead = .error rejection) :
    rejection.isInternal = false := by
  unfold shift at hshift
  dsimp only at hshift
  split at hshift
  · exact h.unread rejection hshift
  · exact Scanner.fetch_error hshift

theorem Steady.next (ha : a.Canonical) (h : c.Steady a) {next : Config}
    (hnext : (Table.build a).Next c next) : next.Steady a := by
  obtain ⟨trail, hon⟩ := h.exists_on
  rcases hnext.cases ha hon with
    ⟨token, target, _, hstep, rfl⟩ | ⟨_, item, target, _, _, _, _, _, hstep, rfl⟩
  · exact ⟨⟨_, Table.stack_shift hon.stack_eq .., .cons hon.traces hstep⟩,
      fun _ hshift => unread_shift h _ token target hshift⟩
  · exact ⟨⟨_, rfl, .cons (hon.traces.drop _) hstep⟩, h.unread⟩

theorem Steady.exposes (ha : a.Canonical) (h : c.Steady a) {x : Terminal} {id : Nat}
    (hentry : (Table.build a).entry c.stack.top (.terminal x) = some (.reduce id))
    (hid : id ≠ 0) :
    ∃ stack state target, c.stack.popRhs a.grammar id = (.ok (), stack) ∧
      stack.topState? = some state ∧
      (Table.build a).entry state (.nonterminal (a.grammar.rule id).lhs) =
        some (.goto target) := by
  obtain ⟨trail, hon⟩ := h.exists_on
  rw [hon.top_eq] at hentry
  cases Table.proposes_of_entry ha hentry with
  | @reduce item _ hitem hend _ =>
      obtain ⟨_, hspelling, _⟩ := hon.traces.history_atEnd ha hitem hend
      obtain ⟨target, hstep⟩ := hon.traces.exists_goto_below ha hitem hend hid
      refine ⟨_, _, target, ?_, ParseStack.topState?_ofTrail _, Table.entry_goto ha hstep⟩
      rw [hon.stack_eq]
      exact ParseStack.popRhs_ofTrail ⟨_, hspelling.symm⟩

theorem Steady.not_internal (ha : a.Canonical) (h : c.Steady a) {rejection : Rejection}
    (hmove : (Table.build a).move c = .reject rejection) : rejection.isInternal = false := by
  obtain ⟨trail, hon⟩ := h.exists_on
  have hacts := Table.acts ha hon
  rw [hmove] at hacts
  cases hacts with
  | unread hlookahead => exact h.unread rejection hlookahead
  | stuck => rfl

theorem Steady.consistent (ha : a.Canonical) (h : c.Steady a) :
    c.Consistent (Table.build a) where
  top := by
    obtain ⟨trail, hon⟩ := h.exists_on
    exact ⟨trail.top, by rw [hon.stack_eq, ParseStack.topState?_ofTrail]⟩
  exposes _ _ _ hentry hid := h.exposes ha hentry hid
  not_internal _ hmove := h.not_internal ha hmove

theorem Steady.of_runs (ha : a.Canonical) {input : String} {count : Nat}
    (h : (Table.build a).Runs count (ofInput a.grammar.toVocabulary input) c) :
    c.Steady a :=
  h.preserves (fun _ _ hsteady hnext => hsteady.next ha hnext) (ofInput_steady a input)

end Config

namespace Table

/-- No configuration that a run comes to lets the table down, and no input is rejected
for an internal error. -/
theorem runs_consistent {alphabet productions : List String} {g : Grammar}
    (hbuild : Grammar.build alphabet productions = .ok g) {e : Exploration}
    {policy : ConflictPolicy} {t : Table}
    (htable : buildWith (Automaton.build g e) policy = .ok t) (input : String) :
    (∀ count c, t.Runs count (.ofInput g.toVocabulary input) c → c.Consistent t) ∧
    ∀ rejection, t.parse input = .rejected rejection → rejection.isInternal = false := by
  have ha := Automaton.build_canonical (Grammar.build_wellFormed hbuild) e
  obtain ⟨rfl, _⟩ := buildWith_eq_ok htable
  refine ⟨fun count c hruns => (Config.Steady.of_runs ha hruns).consistent ha,
    fun rejection hparse => ?_⟩
  obtain ⟨count, last, hruns, hmove⟩ := exists_reject hparse
  exact (Config.Steady.of_runs ha hruns).not_internal ha hmove

/-- Also where reductions that were refused would have led out of a circle. -/
theorem runs_consistent_circling :
    (∀ count c, (build (Automaton.build .circling .depthFirst)).Runs count
      (.ofInput Grammar.circling.toVocabulary "aa") c →
        c.Consistent (build (Automaton.build .circling .depthFirst))) ∧
    ∀ rejection, (build (Automaton.build .circling .depthFirst)).parse "aa" =
      .rejected rejection → rejection.isInternal = false := by
  have htable : buildWith (Automaton.build .circling .depthFirst) .firstWins =
      .ok (build (Automaton.build .circling .depthFirst)) := rfl
  exact runs_consistent Grammar.build_circling htable "aa"

end Table
end CanonicalLR
