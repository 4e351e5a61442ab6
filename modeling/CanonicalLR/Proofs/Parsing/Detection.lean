import CanonicalLR.Proofs.Parsing.Consistency

namespace CanonicalLR

/-! Errors are detected at once.  The lookahead of an item is what can come behind its
rule in the place where the rule was expanded, so once a rule has been reduced the state
behind it has an action for the current token, however conflicts were resolved.  A missing
entry is met right behind a shift, or before anything is done. -/

namespace Automaton

variable {a : Automaton} {trail : Trail} {state : Nat} {t : Terminal}

/-- With an item that expects a symbol there are items that expect all it can begin
with. -/
theorem Canonical.exists_expects (ha : a.Canonical) {symbol : Symbol}
    (h : a.grammar.Begins symbol t) {item : Item} (hitem : item ∈ a.itemsOf state)
    (hnext : item.next? a.grammar = some symbol) :
    ∃ other ∈ a.itemsOf state, other.next? a.grammar = some (.terminal t) := by
  induction h generalizing item with
  | terminal t => exact ⟨item, hitem, hnext⟩
  | @rule n id symbol rest t hid hrhs _ ih =>
      apply ih (ha.expansion_mem hitem hnext hid)
      simp [Item.next?, Item.rhs, Item.start, hrhs]

/-- What can begin with a token can be begun by shifting it. -/
theorem Canonical.exists_shift (ha : a.Canonical) {item : Item} {symbol : Symbol}
    (hitem : item ∈ a.itemsOf state) (hnext : item.next? a.grammar = some symbol)
    (ht : t ∈ a.grammar.firstOfSymbol symbol) :
    ∃ target, a.Proposes state (.terminal t) (.shift target) := by
  have hbegins := (Grammar.mem_firstOfSymbol_iff ha.wellFormed).mp ht
  obtain ⟨other, hother, hterminal⟩ := ha.exists_expects hbegins hitem hnext
  obtain ⟨target, hstep⟩ := ha.exists_transition hother hterminal
  exact ⟨target, .shift hstep⟩

theorem Canonical.exists_proposes (ha : a.Canonical) {item : Item}
    (hitem : item ∈ a.itemsOf state)
    (ht : t ∈ a.grammar.upcoming ((item.rhs a.grammar).drop item.dot) item.lookahead) :
    ∃ action, a.Proposes state (.terminal t) action := by
  cases hdrop : (item.rhs a.grammar).drop item.dot with
  | nil =>
      rw [hdrop] at ht
      exact ⟨_, .reduce hitem (decide_eq_true (List.drop_eq_nil_iff.mp hdrop)) ht⟩
  | cons symbol rest =>
      rw [hdrop] at ht
      obtain ⟨target, hshift⟩ := ha.exists_shift hitem (item.next?_of_drop hdrop).1 ht
      exact ⟨_, hshift⟩

/-- Where a rule is reduced, the item that it expands moves on, and what the rule looked
ahead to is what can come there. -/
theorem Traces.exists_proposes_behind (ha : a.Canonical) (h : a.Traces trail) {item : Item}
    (hitem : item ∈ a.itemsOf trail.top) (hend : item.atEnd a.grammar = true)
    (ht : t ∈ item.lookahead) (hrule : item.rule ≠ 0) {target : Nat}
    (hstep : ⟨Trail.top (trail.drop (item.rhs a.grammar).length),
      .nonterminal (a.grammar.rule item.rule).lhs, target⟩ ∈ a.transitions) :
    ∃ action, a.Proposes target (.terminal t) action := by
  obtain ⟨_, _, hstart⟩ := h.history_atEnd ha hitem hend
  rcases (h.drop _).mem_cases ha hstart rfl with ⟨_, hzero⟩ | ⟨parent, hparent, hnew⟩
  · exact absurd (congrArg Item.rule hzero) hrule
  · obtain ⟨n, hnext, id, hid, heq⟩ := Item.mem_expansions.mp hnew
    have hid' : item.rule = id := congrArg Item.rule heq
    have hlookahead : item.lookahead = parent.expansionLookahead a.grammar :=
      congrArg Item.lookahead heq
    rw [hid', (Grammar.mem_rulesOf.mp hid).2] at hstep
    rw [hlookahead, Item.expansionLookahead_eq] at ht
    exact ha.exists_proposes (ha.advance_mem hstep hparent hnext) ht

end Automaton

namespace Table

variable {a : Automaton} {c next : Config}

/-- No reduction has been made on the current token. -/
inductive Untouched (t : Table) (origin : Config) : Config → Prop
  | start : t.Untouched origin origin
  | shift {count : Nat} {c next : Config} {symbol : Symbol} (hruns : t.Runs count origin c)
      (hmove : t.move c = .shift symbol next) : t.Untouched origin next

/-- A run has reduced nothing on its current token, or a reduction comes last. -/
theorem Runs.untouched_or_reduce {t : Table} {count : Nat} {origin c : Config}
    (h : t.Runs count origin c) :
    t.Untouched origin c ∨
      ∃ before last rule, t.Runs before origin last ∧ t.move last = .reduce rule c := by
  induction h with
  | refl c => exact .inl .start
  | @step _ origin next c hnext _ ih =>
      rcases ih with huntouched | ⟨before, last, rule, hruns, hmove⟩
      · cases huntouched with
        | shift hruns hmove => exact .inl (.shift (.step hnext hruns) hmove)
        | start =>
            cases hnext with
            | shift hmove => exact .inl (.shift (.refl origin) hmove)
            | @reduce rule hmove => exact .inr ⟨0, origin, rule, .refl origin, hmove⟩
      · exact .inr ⟨before + 1, last, rule, .step hnext hruns, hmove⟩

theorem entry_of_reduce (ha : a.Canonical) (h : c.Steady a) {rule : Nat}
    (hmove : (build a).move c = .reduce rule next) :
    rule ≠ 0 ∧ ∃ token action, c.lookahead = .ok token ∧ next.lookahead = .ok token ∧
      (build a).entry next.stack.top (.terminal token.terminal) = some action := by
  obtain ⟨trail, hon⟩ := h.exists_on
  have hacts := acts ha hon
  rw [hmove] at hacts
  cases hacts with
  | @reduce token item target hlookahead hitem hend htoken hrule hstep =>
      obtain ⟨_, hproposes⟩ :=
        hon.traces.exists_proposes_behind ha hitem hend htoken hrule hstep
      obtain ⟨action, hentry⟩ := Option.ne_none_iff_exists'.mp (entry_ne_none ha hproposes)
      exact ⟨hrule, token, action, hlookahead, hlookahead, hentry⟩

theorem move_ne_missing (ha : a.Canonical) (h : c.Steady a) {token : Token}
    {action : Action} (hlookahead : c.lookahead = .ok token)
    (hentry : (build a).entry c.stack.top (.terminal token.terminal) = some action)
    (state : Nat) (name consumed : String) :
    (build a).move c ≠ .reject (.missingTableEntry state name consumed) := by
  obtain ⟨trail, hon⟩ := h.exists_on
  intro hmove
  have hacts := acts ha hon
  rw [hmove] at hacts
  cases hacts with
  | unread hother =>
      rw [hlookahead] at hother
      cases hother
  | stuck hother hnone =>
      rw [hlookahead] at hother
      cases hother
      rw [← hon.top_eq, hentry] at hnone
      cases hnone

theorem move_ne_missing_of_reduce (ha : a.Canonical) (h : c.Steady a) {rule : Nat}
    (hmove : (build a).move c = .reduce rule next) (state : Nat) (name consumed : String) :
    (build a).move next ≠ .reject (.missingTableEntry state name consumed) := by
  obtain ⟨_, token, action, _, hlookahead, hentry⟩ := entry_of_reduce ha h hmove
  exact move_ne_missing ha (h.next ha (.reduce hmove)) hlookahead hentry state name consumed

theorem Reduces.exists_last {t : Table} {rules : List Nat} {last : Config}
    (h : t.Reduces rules c last) (hne : rules ≠ []) :
    ∃ front rule before, t.Reduces front c before ∧ t.move before = .reduce rule last := by
  obtain ⟨front, rule, rfl⟩ := (List.eq_nil_or_concat rules).resolve_left hne
  rw [List.concat_eq_append] at h
  obtain ⟨before, hfront, hlast⟩ := h.exists_append
  cases hlast with
  | cons hmove hrest =>
      cases hrest
      exact ⟨front, rule, before, hfront, hmove⟩

/-- Behind every reduction there is an entry for the token that it was made on, so a
missing entry is not met before that token is shifted. -/
theorem errors_immediate {alphabet productions : List String} {g : Grammar}
    (hbuild : Grammar.build alphabet productions = .ok g) {e : Exploration}
    {policy : ConflictPolicy} {t : Table}
    (htable : buildWith (Automaton.build g e) policy = .ok t) (input : String) :
    (∀ count c rule next, t.Runs count (.ofInput g.toVocabulary input) c →
      t.move c = .reduce rule next →
      rule ≠ 0 ∧ ∃ token action, c.lookahead = .ok token ∧ next.lookahead = .ok token ∧
        t.entry next.stack.top (.terminal token.terminal) = some action) ∧
    (∀ count c rules last, t.Runs count (.ofInput g.toVocabulary input) c →
      t.Reduces rules c last → rules ≠ [] → ∀ state name consumed,
        t.move last ≠ .reject (.missingTableEntry state name consumed)) ∧
    ∀ state name consumed,
      t.parse input = .rejected (.missingTableEntry state name consumed) →
      ∃ last, t.Untouched (.ofInput g.toVocabulary input) last ∧
        t.move last = .reject (.missingTableEntry state name consumed) := by
  have ha := Automaton.build_canonical (Grammar.build_wellFormed hbuild) e
  obtain ⟨rfl, _⟩ := buildWith_eq_ok htable
  refine ⟨fun count c rule next hruns hmove => ?_,
    fun count c rules last hruns hreduces hne state name consumed => ?_,
    fun state name consumed hparse => ?_⟩
  · exact entry_of_reduce ha (.of_runs ha hruns) hmove
  · obtain ⟨front, rule, before, hfront, hmove⟩ := hreduces.exists_last hne
    have hsteady := Config.Steady.of_runs ha (hruns.trans hfront.runs)
    exact move_ne_missing_of_reduce ha hsteady hmove state name consumed
  · obtain ⟨count, last, hruns, hlast⟩ := exists_reject hparse
    refine ⟨last, hruns.untouched_or_reduce.resolve_right ?_, hlast⟩
    intro ⟨_, before, rule, hbefore, hmove⟩
    have hsteady := Config.Steady.of_runs ha hbefore
    exact move_ne_missing_of_reduce ha hsteady hmove state name consumed hlast

end Table

/-- Behind `ac` and behind `bc` the rule of `A` looks ahead to different tokens. -/
def Grammar.paired : Grammar :=
  .ofRules ⟨["a", "b", "c", "d", "e"], ["S", "T", "A"]⟩
    [⟨0, [.nonterminal 1], "S->T"⟩,
     ⟨1, [.terminal (.token 0), .nonterminal 2, .terminal (.token 3)], "T->aAd"⟩,
     ⟨1, [.terminal (.token 1), .nonterminal 2, .terminal (.token 4)], "T->bAe"⟩,
     ⟨2, [.terminal (.token 2)], "A->c"⟩]

theorem Grammar.build_paired :
    build ["a", "b", "c", "d", "e"] ["S->T", "T->aAd", "T->bAe", "A->c"] = .ok paired := by
  decide +kernel

/-- So `ace` is refused before anything is reduced. -/
theorem Table.errors_immediate_paired :
    ∃ state, (build (Automaton.build .paired .depthFirst)).parse "ace" =
        .rejected (.missingTableEntry state "e" "ac") ∧
      ∃ last, (build (Automaton.build .paired .depthFirst)).Untouched
          (.ofInput Grammar.paired.toVocabulary "ace") last ∧
        (build (Automaton.build .paired .depthFirst)).move last =
          .reject (.missingTableEntry state "e" "ac") := by
  have htable : buildWith (Automaton.build .paired .depthFirst) .firstWins =
      .ok (build (Automaton.build .paired .depthFirst)) := rfl
  have hparse : (build (Automaton.build .paired .depthFirst)).parse "ace" =
      .rejected (.missingTableEntry 5 "e" "ac") := by
    decide +kernel
  exact ⟨_, hparse, (errors_immediate Grammar.build_paired htable "ace").2.2 _ _ _ hparse⟩

end CanonicalLR
