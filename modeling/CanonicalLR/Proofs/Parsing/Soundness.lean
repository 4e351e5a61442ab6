import CanonicalLR.Proofs.Grammar.Phrase
import CanonicalLR.Proofs.Parsing.Run
import CanonicalLR.Proofs.Parsing.Token

namespace CanonicalLR

/-! What a parser accepts, it has derived.  At every moment the symbols of the
stack derive the terminals shifted so far, by the rules reduced so far. -/

/-- What holds of every configuration of a run: the stack follows a trail, and
what is consumed and what comes next is what the run began with. -/
structure Config.Follows (a : Automaton) (origin c : Config) (trail : Trail)
    (consumed : List Terminal) : Prop extends c.On a trail where
  yields : a.grammar.Yields trail.spelling consumed c.derivation.reductions
  shifts_eq : c.derivation.shifts = consumed.length
  zero_not_mem : 0 ∉ c.derivation.reductions
  awaits : ∀ pending, c.Awaits a.grammar.toVocabulary pending →
    origin.Awaits a.grammar.toVocabulary (consumed ++ pending)

namespace Config.Follows

variable {a : Automaton} {origin c : Config} {trail : Trail} {consumed : List Terminal}

theorem start (a : Automaton) (input : String) :
    (ofInput a.grammar.toVocabulary input).Follows a
      (ofInput a.grammar.toVocabulary input) [] [] where
  stack_eq := rfl
  traces := .nil
  yields := a.grammar.yields_nil
  shifts_eq := rfl
  zero_not_mem := List.not_mem_nil
  awaits _ hpending := hpending

theorem shift (h : Follows a origin c trail consumed) {token : Token} {target : Nat}
    (hlookahead : c.lookahead = .ok token)
    (hstep : ⟨trail.top, .terminal token.terminal, target⟩ ∈ a.transitions) :
    Follows a origin (c.shift a.grammar.toVocabulary token target)
      ((.terminal token.terminal, target) :: trail) (consumed ++ [token.terminal]) where
  stack_eq := Table.stack_shift h.stack_eq ..
  traces := .cons h.traces hstep
  yields := by
    rw [Trail.spelling_cons, derivation_shift]
    exact h.yields.terminal token.terminal
  shifts_eq := by
    rw [derivation_shift, h.shifts_eq, List.length_append, List.length_singleton]
  zero_not_mem := by
    rw [derivation_shift]
    exact h.zero_not_mem
  awaits pending hpending := by
    rw [List.append_assoc]
    exact h.awaits _ ((awaits_shift hlookahead target).mp hpending)

theorem reduced (ha : a.Canonical) (h : Follows a origin c trail consumed) {item : Item}
    {target : Nat} (hitem : item ∈ a.itemsOf trail.top)
    (hend : item.atEnd a.grammar = true) (hrule : item.rule ≠ 0)
    (hstep : ⟨Trail.top (trail.drop (item.rhs a.grammar).length),
      .nonterminal (a.grammar.rule item.rule).lhs, target⟩ ∈ a.transitions) :
    Follows a origin
      (c.reduced (.ofTrail ((.nonterminal (a.grammar.rule item.rule).lhs, target) ::
        trail.drop (item.rhs a.grammar).length)) item.rule)
      ((.nonterminal (a.grammar.rule item.rule).lhs, target) ::
        trail.drop (item.rhs a.grammar).length) consumed := by
  obtain ⟨_, hspelling, _⟩ := h.traces.history_atEnd ha hitem hend
  have hid := (ha.proper item hitem).mem_rulesOf
  have hreductions : ∀ stack, (c.reduced stack item.rule).derivation.reductions =
      c.derivation.reductions ++ [item.rule] := fun stack => List.reverse_cons
  constructor
  case toOn => exact ⟨rfl, .cons (h.traces.drop _) hstep⟩
  case yields =>
    have hyields := h.yields
    rw [hspelling] at hyields
    rw [hreductions, Trail.spelling_cons]
    exact hyields.reduce hid
  case shifts_eq => exact h.shifts_eq
  case zero_not_mem =>
    rw [hreductions]
    intro hzero
    rcases List.mem_append.mp hzero with hold | hnew
    · exact h.zero_not_mem hold
    · exact hrule (List.mem_singleton.mp hnew).symm
  case awaits => exact h.awaits

theorem next (ha : a.Canonical) (h : Follows a origin c trail consumed) {next : Config}
    (hnext : (Table.build a).Next c next) :
    ∃ trail consumed, Follows a origin next trail consumed := by
  rcases hnext.cases ha h.toOn with
    ⟨token, target, hlookahead, hstep, rfl⟩ |
    ⟨token, item, target, _, hitem, hend, _, hrule, hstep, rfl⟩
  · exact ⟨_, _, h.shift hlookahead hstep⟩
  · exact ⟨_, _, h.reduced ha hitem hend hrule hstep⟩

theorem runs (ha : a.Canonical) {input : String} {count : Nat}
    (h : (Table.build a).Runs count (ofInput a.grammar.toVocabulary input) c) :
    ∃ trail consumed,
      Follows a (ofInput a.grammar.toVocabulary input) c trail consumed := by
  have hpreserves : ∀ c next : Config,
      (∃ trail consumed,
        Follows a (ofInput a.grammar.toVocabulary input) c trail consumed) →
      (Table.build a).Next c next →
      ∃ trail consumed,
        Follows a (ofInput a.grammar.toVocabulary input) next trail consumed := by
    intro c next ⟨trail, consumed, hfollows⟩ hnext
    exact hfollows.next ha hnext
  exact h.preserves hpreserves ⟨[], [], start a input⟩

end Config.Follows

/-! Acceptance. -/

theorem Grammar.awaits_closingMarker_iff {g : Grammar} {input : String} {indices : List Nat} :
    (Config.ofInput g.toVocabulary input).Awaits g.toVocabulary
        ((indices.map .token ++ g.closingMarker) ++ [.endMarker]) ↔
      g.Tokenizes input (indices.map .token ++ [.endMarker]) := by
  have hmarker : Terminal.endMarker ∉
      (indices.map Terminal.token ++ [Terminal.endMarker]).dropLast := by
    rw [List.dropLast_concat]
    exact endMarker_not_mem_map_token indices
  rw [← Config.ofInput_awaits hmarker]
  rcases g.closingMarker_cases with hclosing | hclosing
  · rw [hclosing, List.append_nil]
  · rw [hclosing, List.append_assoc]
    constructor
    · intro hawaits
      rw [← List.singleton_append, ← List.append_assoc] at hawaits
      exact hawaits.of_append
    · exact Vocabulary.Awaits.repeat_endMarker

/-- Where the parser accepts, the start rule is complete behind a context of the
start symbol, and the current token may follow it. -/
theorem Config.Follows.closes {a : Automaton} (ha : a.Canonical) {origin c : Config}
    {trail : Trail} {consumed : List Terminal} (h : Follows a origin c trail consumed)
    {derivation : Derivation} (hmove : (Table.build a).move c = .accept derivation) :
    derivation = c.derivation ∧ ∃ token, c.lookahead = .ok token ∧
      a.grammar.Closes consumed derivation.reductions token.terminal := by
  have hacts := Table.acts ha h.toOn
  rw [hmove] at hacts
  cases hacts with
  | @accept token item hlookahead hitem hend htoken hrule =>
      obtain ⟨_, hspelling, hstart⟩ := h.traces.history_atEnd ha hitem hend
      rw [hrule] at hstart
      obtain ⟨before, rest, hcontext, hbefore, hfollowers⟩ :=
        (h.traces.drop _).valid ha _ hstart
      have hfront : Trail.spelling (trail.drop (item.rhs a.grammar).length) = before :=
        hbefore.trans (List.append_nil before)
      have hx : token.terminal ∈ a.grammar.followers rest := by
        rw [← hfollowers]
        exact htoken
      have hyields := h.yields
      rw [hspelling, hfront, Item.rhs, hrule] at hyields
      exact ⟨rfl, token, hlookahead, .intro hcontext hyields h.zero_not_mem hx⟩

namespace Table

theorem closes_of_mem_history {a : Automaton} (ha : a.Canonical) {input : String} {c : Config}
    {derivation : Derivation} (h : (c, .accept derivation) ∈ (build a).history input) :
    ∃ token consumed, c.lookahead = .ok token ∧
      a.grammar.Closes consumed derivation.reductions token.terminal ∧
      derivation.shifts = consumed.length ∧
      (Config.ofInput a.grammar.toVocabulary input).Awaits a.grammar.toVocabulary
        (consumed ++ [token.terminal]) := by
  obtain ⟨count, hruns, hmove⟩ := runs_of_mem_moves h
  obtain ⟨trail, consumed, hfollows⟩ := Config.Follows.runs ha hruns
  obtain ⟨rfl, token, hlookahead, hcloses⟩ := hfollows.closes ha hmove
  exact ⟨token, consumed, hlookahead, hcloses, hfollows.shifts_eq,
    hfollows.awaits _ (Config.awaits_current hlookahead)⟩

/-- An accepted input is derived from the start rule by the reported reductions,
read backwards, and every token of it is shifted. -/
theorem parse_sound {alphabet productions : List String} {g : Grammar}
    (hbuild : Grammar.build alphabet productions = .ok g) (hfree : g.StartFree)
    {e : Exploration} {policy : ConflictPolicy} {t : Table}
    (htable : buildWith (Automaton.build g e) policy = .ok t) {input : String}
    {derivation : Derivation} (hparse : t.parse input = .accepted derivation) :
    ∃ indices : List Nat,
      g.Tokenizes input (indices.map Terminal.token ++ [.endMarker]) ∧
      (∀ id ∈ derivation.reductions, id ≠ 0 ∧ id < g.rules.length) ∧
      g.rewrite (g.rule 0).rhs derivation.reductions.reverse =
        some ((indices.map Terminal.token ++ g.closingMarker).map .terminal) ∧
      derivation.shifts = indices.length + g.closingMarker.length := by
  have hg := Grammar.build_wellFormed hbuild
  have ha := Automaton.build_canonical hg e
  obtain ⟨rfl, _⟩ := buildWith_eq_ok htable
  obtain ⟨last, hlast⟩ := exists_mem_moves hparse
  obtain ⟨token, consumed, _, hcloses, hshifts, hawaits⟩ := closes_of_mem_history ha hlast
  obtain ⟨hyields, hmarker⟩ := hcloses.yields hfree
  obtain ⟨indices, rfl⟩ := hcloses.eq_closingMarker hg
  refine ⟨indices, ?_, ?_, hyields.rewrite, ?_⟩
  · rw [hmarker] at hawaits
    exact Grammar.awaits_closingMarker_iff.mp hawaits
  · intro id hid
    exact ⟨fun hzero => hcloses.zero_not_mem (hzero ▸ hid), hcloses.rule_lt id hid⟩
  · rw [hshifts, List.length_append, List.length_map]

end Table

/-- A token in brackets. -/
def Grammar.nesting : Grammar :=
  .ofRules ⟨["a", "(", ")"], ["S", "A"]⟩
    [⟨0, [.nonterminal 1], "S->A"⟩,
     ⟨1, [.terminal (.token 0)], "A->a"⟩,
     ⟨1, [.terminal (.token 1), .nonterminal 1, .terminal (.token 2)], "A->(A)"⟩]

theorem Grammar.build_nesting :
    build ["a", "(", ")"] ["S->A", "A->a", "A->(A)"] = .ok nesting := by
  decide +kernel

namespace Table

theorem buildWith_nesting :
    buildWith (Automaton.build .nesting .breadthFirst) .fail =
      .ok (build (Automaton.build .nesting .breadthFirst)) := by
  decide +kernel

theorem parse_sound_nesting :
    (build (Automaton.build .nesting .breadthFirst)).parse "(a)" = .accepted ⟨[2, 1], 3⟩ ∧
    ∃ indices : List Nat,
      Grammar.nesting.Tokenizes "(a)" (indices.map Terminal.token ++ [.endMarker]) ∧
      (∀ id ∈ [1, 2], id ≠ 0 ∧ id < 3) ∧
      Grammar.nesting.rewrite [.nonterminal 1] [2, 1] =
        some ((indices.map Terminal.token ++ []).map .terminal) ∧
      3 = indices.length + 0 := by
  have hfree : Grammar.nesting.StartFree := by decide +kernel
  have hparse : (build (Automaton.build .nesting .breadthFirst)).parse "(a)" =
      .accepted ⟨[2, 1], 3⟩ := by
    decide +kernel
  exact ⟨hparse, parse_sound Grammar.build_nesting hfree buildWith_nesting hparse⟩

end Table
end CanonicalLR
