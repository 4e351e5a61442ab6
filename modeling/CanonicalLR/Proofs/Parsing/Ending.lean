import CanonicalLR.Proofs.Parsing.Completeness

namespace CanonicalLR

/-! Acceptance in front of the end of an input.  Reducing by rule 0 accepts on any
token that can follow the start symbol, and where a right-hand side mentions the
start symbol, this need not be the end marker. -/

/-- The parser accepts with the end marker as its current token, and by then all the
tokens of the input are shifted. -/
def Table.ReadsWhole (t : Table) (input : String) (d : Derivation) : Prop :=
  ∃ (c : Config) (token : Token) (indices : List Nat),
    (c, .accept d) ∈ t.history input ∧ c.lookahead = .ok token ∧
    token.terminal = .endMarker ∧
    t.grammar.Tokenizes input (indices.map .token ++ [.endMarker]) ∧
    d.shifts = indices.length + t.grammar.closingMarker.length

/-- The start rule closes in front of a token of the alphabet. -/
def Grammar.EndsEarly (g : Grammar) (input : String) (d : Derivation) : Prop :=
  ∃ terminals index, g.Closes terminals d.reductions (.token index) ∧
    g.Tokenizes input (terminals ++ [.token index]) ∧ d.shifts = terminals.length

theorem Grammar.not_endsEarly {g : Grammar} (hg : g.WellFormed)
    (h : g.StartFree ∨ g.closingMarker ≠ []) (input : String) (d : Derivation) :
    ¬ g.EndsEarly input d := by
  intro ⟨terminals, index, hcloses, htokenizes, _⟩
  cases h with
  | inl hfree =>
      obtain ⟨_, hmarker⟩ := hcloses.yields hfree
      cases hmarker
  | inr hclosing =>
      obtain ⟨indices, rfl⟩ := hcloses.eq_closingMarker hg
      have hmarker := Scanner.Delivers.endMarker_not_mem rfl htokenizes
      rw [List.dropLast_concat] at hmarker
      apply hmarker
      rw [g.closingMarker_cases.resolve_left hclosing]
      exact List.mem_append_right _ List.mem_cons_self

theorem Grammar.Closes.tokenizes {g : Grammar} (hg : g.WellFormed) {input : String}
    {terminals : List Terminal} {rules : List Nat} {index : Nat}
    (h : g.Closes terminals rules (.token index))
    (hawaits : (Config.ofInput g.toVocabulary input).Awaits g.toVocabulary
      (terminals ++ [.token index])) :
    g.Tokenizes input (terminals ++ [.token index]) := by
  obtain ⟨indices, rfl⟩ := h.eq_closingMarker hg
  refine (Config.ofInput_awaits ?_).mp hawaits
  rw [List.dropLast_concat]
  rcases g.closingMarker_cases with hclosing | hclosing
  · rw [hclosing, List.append_nil]
    exact endMarker_not_mem_map_token indices
  · rw [hclosing, List.append_assoc] at hawaits
    cases Vocabulary.Awaits.eq_endMarker hawaits

namespace Table

variable {a : Automaton} {input : String} {d : Derivation}

theorem readsWhole_or_endsEarly (ha : a.Canonical)
    (hparse : (build a).parse input = .accepted d) :
    (build a).ReadsWhole input d ∨ a.grammar.EndsEarly input d := by
  obtain ⟨c, hc⟩ := exists_mem_moves hparse
  obtain ⟨token, consumed, hlookahead, hcloses, hshifts, hawaits⟩ :=
    closes_of_mem_history ha hc
  cases hterminal : token.terminal with
  | endMarker =>
      rw [hterminal] at hawaits
      obtain ⟨indices, rfl⟩ := hcloses.eq_closingMarker ha.wellFormed
      refine .inl ⟨c, token, indices, hc, hlookahead, hterminal,
        Grammar.awaits_closingMarker_iff.mp hawaits, ?_⟩
      rw [hshifts, List.length_append, List.length_map]
      rfl
  | token index =>
      rw [hterminal] at hawaits hcloses
      exact .inr ⟨consumed, index, hcloses, hcloses.tokenizes ha.wellFormed hawaits, hshifts⟩

theorem ReadsWhole.not_endsEarly (ha : a.Canonical) (h : (build a).ReadsWhole input d) :
    ¬ a.grammar.EndsEarly input d := by
  intro ⟨terminals, index, _, htokenizes, hlength⟩
  obtain ⟨c, token, _, hc, hlookahead, hmarker, _, _⟩ := h
  obtain ⟨other, consumed, hother, _, hshifts, hawaits⟩ := closes_of_mem_history ha hc
  rw [hlookahead] at hother
  cases hother
  have hsame := hawaits.unique (Config.awaits_of_tokenizes htokenizes) (by
    rw [List.length_append, List.length_append, ← hshifts, hlength]
    rfl)
  obtain ⟨_, hlast⟩ := List.append_inj' hsame rfl
  rw [hmarker] at hlast
  cases hlast

theorem parse_eq_of_endsEarly (ha : a.Canonical) (hcollisions : (build a).collisions = [])
    (h : a.grammar.EndsEarly input d) : (build a).parse input = .accepted d := by
  obtain ⟨terminals, index, hcloses, htokenizes, hshifts⟩ := h
  have hparse := parse_eq_of_closes ha hcollisions hcloses
    (Config.awaits_of_tokenizes htokenizes)
  rw [hparse, ← hshifts, Derivation.extend_empty]

/-- Accepting an input means to have read it all, unless the start rule closes in
front of one of its tokens. -/
theorem reads_whole_iff {alphabet productions : List String} {g : Grammar}
    (hbuild : Grammar.build alphabet productions = .ok g) {e : Exploration}
    {policy : ConflictPolicy} {t : Table}
    (htable : buildWith (Automaton.build g e) policy = .ok t) (input : String) :
    ((∀ d, t.parse input = .accepted d → t.ReadsWhole input d) ↔
      ∀ d, t.parse input = .accepted d → ¬ g.EndsEarly input d) ∧
    (t.collisions = [] → ∀ d, g.EndsEarly input d → t.parse input = .accepted d) ∧
    (g.StartFree ∨ g.closingMarker ≠ [] → ∀ d, ¬ g.EndsEarly input d) := by
  have hg := Grammar.build_wellFormed hbuild
  have ha := Automaton.build_canonical hg e
  obtain ⟨rfl, _⟩ := buildWith_eq_ok htable
  refine ⟨⟨fun hreads d hparse => ?_, fun hends d hparse => ?_⟩,
    fun hcollisions d hends => ?_, fun hstart => ?_⟩
  · exact (hreads d hparse).not_endsEarly ha
  · exact (readsWhole_or_endsEarly ha hparse).resolve_right (hends d hparse)
  · exact parse_eq_of_endsEarly ha hcollisions hends
  · exact Grammar.not_endsEarly hg hstart input

theorem reads_whole_nesting :
    (build (Automaton.build .nesting .breadthFirst)).ReadsWhole "(a)" ⟨[2, 1], 3⟩ := by
  have hfree : Grammar.nesting.StartFree := by decide +kernel
  have hparse : (build (Automaton.build .nesting .breadthFirst)).parse "(a)" =
      .accepted ⟨[2, 1], 3⟩ := by
    decide +kernel
  obtain ⟨hreads, _, hends⟩ := reads_whole_iff Grammar.build_nesting buildWith_nesting "(a)"
  exact hreads.mpr (fun d _ => hends (.inl hfree) d) _ hparse

end Table

def Grammar.nestedStart : Grammar :=
  .ofRules ⟨["a", "(", ")"], ["S", "A"]⟩
    [⟨0, [.nonterminal 1], "S->A"⟩,
     ⟨1, [.terminal (.token 0)], "A->a"⟩,
     ⟨1, [.terminal (.token 1), .nonterminal 0, .terminal (.token 2)], "A->(S)"⟩]

/-- The parser accepts an opening bracket and a token in front of the closing bracket,
and does not look at what comes after it. -/
theorem Table.nestedStart_ends_early :
    Grammar.build ["a", "(", ")"] ["S->A", "A->a", "A->(S)"] = .ok .nestedStart ∧
    ∃ t, buildWith (Automaton.build .nestedStart .breadthFirst) .fail = .ok t ∧
      ¬ ∀ d, t.parse "(a)z" = .accepted d → t.ReadsWhole "(a)z" d := by
  have hbuild : Grammar.build ["a", "(", ")"] ["S->A", "A->a", "A->(S)"] =
      .ok .nestedStart := by
    decide +kernel
  have htable : buildWith (Automaton.build .nestedStart .breadthFirst) .fail =
      .ok (build (Automaton.build .nestedStart .breadthFirst)) := by
    decide +kernel
  have hparse : (build (Automaton.build .nestedStart .breadthFirst)).parse "(a)z" =
      .accepted ⟨[1], 2⟩ := by
    decide +kernel
  refine ⟨hbuild, _, htable, fun hreads => ?_⟩
  obtain ⟨_, _, indices, _, _, _, htokenizes, hshifts⟩ := hreads _ hparse
  have htokens : Grammar.nestedStart.Tokenizes "(a)z" [.token 1, .token 0, .token 2] :=
    ⟨[⟨.token 1, [], ['(']⟩, ⟨.token 0, ['('], ['a']⟩, ⟨.token 2, ['a', '('], [')']⟩],
      by decide +kernel, rfl⟩
  have hlength : [Terminal.token 1, .token 0, .token 2].length =
      (indices.map Terminal.token ++ [Terminal.endMarker]).length := by
    rw [List.length_append, List.length_map]
    exact congrArg Nat.succ hshifts
  have hsame := (Config.awaits_of_tokenizes htokens).unique
    (Config.awaits_of_tokenizes htokenizes) hlength
  have hlast := congrArg List.getLast? hsame
  rw [List.getLast?_concat] at hlast
  cases hlast

end CanonicalLR
