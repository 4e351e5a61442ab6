import CanonicalLR.Proofs.Grammar.Opening
import CanonicalLR.Proofs.Parsing.Completeness
import CanonicalLR.Proofs.Parsing.Consistency
import CanonicalLR.Proofs.Parsing.Span

namespace CanonicalLR

/-! What a parser has shifted when it finds no entry.  The symbols of the stack begin a
form that the start rule derives, and so do the terminals they stand for.  If such a form
went on with the next terminal, a table without collisions would have read it. -/

namespace Automaton

variable {a : Automaton} {trail : Trail}

theorem Traces.exists_item (ha : a.Canonical) (h : a.Traces trail) :
    ∃ item, item ∈ a.itemsOf trail.top := by
  cases h with
  | nil => exact ⟨_, ha.start_mem⟩
  | cons _ hstep =>
      obtain ⟨_, _, _, hadvanced⟩ := ha.exists_advanced hstep
      exact ⟨_, hadvanced⟩

theorem Traces.exists_derives (ha : a.Canonical) (h : a.Traces trail) :
    ∃ rest, a.grammar.Derives (a.grammar.rule 0).rhs (trail.spelling ++ rest) := by
  obtain ⟨item, hitem⟩ := h.exists_item ha
  obtain ⟨before, rest, hcontext, hsymbols, _⟩ := h.valid ha item hitem
  refine ⟨(item.rhs a.grammar).drop item.dot ++ rest, ?_⟩
  rw [hsymbols, ← List.append_assoc, List.append_assoc before, List.take_append_drop]
  exact hcontext.derives ha.wellFormed (ha.proper item hitem).mem_rulesOf

/-- Nothing stands behind an end marker. -/
theorem Traces.eq_cons_endMarker (ha : a.Canonical) (h : a.Traces trail)
    (hmem : .terminal .endMarker ∈ trail.spelling) :
    ∃ state below, trail = (.terminal .endMarker, state) :: below := by
  induction h with
  | nil => exact absurd hmem List.not_mem_nil
  | @cons trail symbol state htrail hstep ih =>
      rw [Trail.spelling_cons, List.mem_append] at hmem
      rcases hmem with hmem | hmem
      · obtain ⟨marked, below, rfl⟩ := ih hmem
        cases htrail with
        | cons _ hmarker =>
            obtain ⟨item, hitem, hnext⟩ := ha.exists_kernel hstep
            rw [(ha.mem_behind_endMarker hmarker item hitem).2] at hnext
            cases hnext
      · rw [← List.mem_singleton.mp hmem]
        exact ⟨state, trail, rfl⟩

end Automaton

/-! Reading the beginning of a form. -/

namespace Grammar

variable {a : Automaton}

/-- Where an item expects symbols that open with some terminals, a table without
collisions reads them, whatever comes behind. -/
theorem Opens.read (ha : a.Canonical) (hcollisions : (Table.build a).collisions = [])
    (hfree : a.grammar.StartFree) {form : List Symbol} {terminals : List Terminal}
    {x : Terminal} (h : a.grammar.Opens form terminals x) :
    ∀ (trail : Trail) (item : Item) (rest : List Symbol), a.Traces trail →
      item ∈ a.itemsOf trail.top → (item.rhs a.grammar).drop item.dot = form ++ rest →
      .nonterminal a.grammar.start ∉ form → ∀ more : List Terminal,
      ∃ (after : Trail) (rules : List Nat),
        (Table.build a).Reads trail (terminals ++ [x]) rules more after := by
  induction h with
  | terminal x after =>
      intro trail item rest _ hitem hdrop _ more
      obtain ⟨hnext, _⟩ := item.next?_of_drop hdrop
      obtain ⟨state, hstep⟩ := ha.exists_transition hitem hnext
      exact ⟨_, _, .shift (Table.entry_eq_some ha hcollisions (.shift hstep)) more⟩
  | @rule n id terminals x hid _ after ih =>
      intro trail item rest htrail hitem hdrop _ more
      obtain ⟨hnext, _⟩ := item.next?_of_drop hdrop
      exact ih trail _ [] htrail (ha.expansion_mem hitem hnext hid) (List.append_nil _).symm
        (hfree.not_mem (mem_rulesOf.mp hid).1) more
  | @skip symbol form terminals x tree h ih =>
      intro trail item rest htrail hitem hdrop hsymbols more
      rw [List.cons_append] at hdrop
      obtain ⟨hnext, hrest⟩ := item.next?_of_drop hdrop
      obtain ⟨hsymbol, hform⟩ := not_or.mp fun h => hsymbols (List.mem_cons.mpr h)
      have hzero := tree.zero_not_mem_postorder hfree (Ne.symm hsymbol)
      obtain ⟨t, others, hpending, ht⟩ :=
        h.exists_upcoming ha.wellFormed more rest item.lookahead
      rw [← hrest, ← Item.expansionLookahead_eq] at ht
      obtain ⟨state, hstep, hreads⟩ :=
        tree.read ha hcollisions hzero trail item t htrail hitem hnext ht others
      obtain ⟨after, rules, hmore⟩ := ih ((symbol, state) :: trail) item.advance rest
        (.cons htrail hstep) (ha.advance_mem hstep hitem hnext) hrest hform more
      rw [← hpending, List.append_cons] at hreads
      rw [List.append_assoc]
      exact ⟨after, _, hreads.append hmore⟩

/-- The right-hand side of the start rule, closed by an end marker. -/
def closedStart (g : Grammar) : List Symbol :=
  if (g.rule 0).rhs.getLast? = some (.terminal .endMarker) then (g.rule 0).rhs
  else (g.rule 0).rhs ++ [.terminal .endMarker]

theorem Opens.closedStart_cases {g : Grammar} {terminals : List Terminal} {x : Terminal}
    (h : g.Opens g.closedStart terminals x) :
    g.Opens (g.rule 0).rhs terminals x ∨
      ∃ forest : Forest g (g.rule 0).rhs, terminals = forest.frontier ∧ x = .endMarker := by
  unfold closedStart at h
  split at h
  · exact .inl h
  · rcases h.append_cases with hopens | ⟨forest, others, rfl, hmarker⟩
    · exact .inl hopens
    · cases hmarker with
      | terminal => exact .inr ⟨forest, List.append_nil _, rfl⟩
      | skip _ hnil => cases hnil

end Grammar

/-! A run that has come to a missing entry. -/

namespace Config

variable {a : Automaton} {input : String} {c : Config} {trail : Trail}
  {consumed : List Terminal} {token : Token}

theorem shifts_le_of_next (ha : a.Canonical) (h : c.Steady a) {next : Config}
    (hnext : (Table.build a).Next c next) : c.derivation.shifts ≤ next.derivation.shifts := by
  obtain ⟨trail, hon⟩ := h.exists_on
  rcases hnext.cases ha hon with
    ⟨token, target, _, _, rfl⟩ | ⟨_, item, target, _, _, _, _, _, _, rfl⟩
  · rw [derivation_shift]
    exact Nat.le_succ _
  · exact Nat.le_refl _

theorem shifts_le_of_runs (ha : a.Canonical) (h : c.Steady a) {count : Nat} {last : Config}
    (hruns : (Table.build a).Runs count c last) :
    c.derivation.shifts ≤ last.derivation.shifts := by
  induction hruns with
  | refl c => exact Nat.le_refl _
  | step hnext _ ih => exact (shifts_le_of_next ha h hnext).trans (ih (h.next ha hnext))

/-- Only the end marker comes behind the end marker. -/
theorem Follows.eq_endMarker {state : Nat}
    (h : Follows a (ofInput a.grammar.toVocabulary input) c
      ((.terminal .endMarker, state) :: trail) consumed)
    (hlookahead : c.lookahead = .ok token) : token.terminal = .endMarker := by
  have hyields := h.yields
  rw [Trail.spelling_cons] at hyields
  obtain ⟨forest, hfrontier, _⟩ := hyields
  obtain ⟨left, right, rfl⟩ := forest.exists_append
  have hright := @Forest.frontier_map_terminal _ [.endMarker] right
  have hawaits := h.awaits _ (awaits_current hlookahead)
  rw [← hfrontier, Forest.frontier_append, hright, List.append_assoc] at hawaits
  exact Vocabulary.Awaits.eq_endMarker hawaits

/-- A run over an input has shifted some terminals and finds no entry for the token. -/
structure Stuck (a : Automaton) (input : String) (c : Config) (trail : Trail)
    (consumed : List Terminal) (token : Token) : Prop
    extends Follows a (ofInput a.grammar.toVocabulary input) c trail consumed where
  exists_runs : ∃ count,
    (Table.build a).Runs count (ofInput a.grammar.toVocabulary input) c
  lookahead_eq : c.lookahead = .ok token
  entry_eq : (Table.build a).entry trail.top (.terminal token.terminal) = none

namespace Stuck

theorem awaits_token (h : Stuck a input c trail consumed token) :
    (ofInput a.grammar.toVocabulary input).Awaits a.grammar.toVocabulary
      (consumed ++ [token.terminal]) :=
  h.awaits _ (awaits_current h.lookahead_eq)

theorem not_proposes (ha : a.Canonical) (h : Stuck a input c trail consumed token)
    {action : Action} : ¬ a.Proposes trail.top (.terminal token.terminal) action :=
  fun hproposes => Table.entry_ne_none ha hproposes h.entry_eq

theorem not_next (ha : a.Canonical) (h : Stuck a input c trail consumed token)
    {next : Config} : ¬ (Table.build a).Next c next := by
  intro hnext
  rcases hnext.cases ha h.toOn with
    ⟨other, target, hother, hstep, _⟩ | ⟨other, item, target, hother, hitem, hend, ht, _⟩
  · rw [h.lookahead_eq] at hother
    cases hother
    exact h.not_proposes ha (.shift hstep)
  · rw [h.lookahead_eq] at hother
    cases hother
    exact h.not_proposes ha (.reduce hitem hend ht)

/-- Behind a shifted end marker the start rule is complete, so there is an entry. -/
theorem endMarker_not_mem (ha : a.Canonical) (hfree : a.grammar.StartFree)
    (h : Stuck a input c trail consumed token) : .endMarker ∉ consumed := by
  intro hmem
  have hspelling : .terminal .endMarker ∈ trail.spelling := by
    obtain ⟨forest, rfl, hpostorder⟩ := h.yields
    apply Classical.byContradiction
    intro hnot
    have hzero : 0 ∉ forest.postorder := by
      rw [hpostorder]
      exact h.zero_not_mem
    exact forest.endMarker_not_mem_frontier ha.wellFormed hzero hnot hmem
  obtain ⟨state, below, rfl⟩ := h.traces.eq_cons_endMarker ha hspelling
  obtain ⟨item, hitem⟩ := h.traces.exists_item ha
  obtain ⟨hrule, hnext⟩ : item.rule = 0 ∧ item.next? a.grammar = none := by
    cases h.traces with
    | cons _ hmarker => exact ha.mem_behind_endMarker hmarker item hitem
  obtain ⟨before, rest, hcontext, _, hfollowers⟩ := h.traces.valid ha item hitem
  rw [hrule] at hcontext
  obtain ⟨_, rfl⟩ := hcontext.eq_nil hfree
  refine h.not_proposes ha (.reduce hitem (Item.next?_eq_none_iff.mp hnext) ?_)
  rw [hfollowers, h.eq_endMarker h.lookahead_eq]
  exact OrderedSet.mem_singleton.mpr rfl

theorem exists_derives (ha : a.Canonical) (h : Stuck a input c trail consumed token) :
    ∃ rest, a.grammar.Derives (a.grammar.rule 0).rhs (consumed.map .terminal ++ rest) := by
  obtain ⟨rest, hrest⟩ := h.traces.exists_derives ha
  exact ⟨rest, hrest.trans (h.yields.derives.append_right rest)⟩

/-- A run does not end in front of a terminal that could still be read. -/
theorem not_opens (ha : a.Canonical) (hcollisions : (Table.build a).collisions = [])
    (hfree : a.grammar.StartFree) (h : Stuck a input c trail consumed token) :
    ¬ a.grammar.Opens (a.grammar.rule 0).rhs consumed token.terminal := by
  intro hopens
  obtain ⟨count, hruns⟩ := h.exists_runs
  obtain ⟨after, rules, hreads⟩ := hopens.read ha hcollisions hfree [] _ [] .nil ha.start_mem
    (List.append_nil _).symm (hfree.not_mem ha.wellFormed.rules_pos) []
  have hawaits := h.awaits_token
  rw [← List.append_nil (consumed ++ [token.terminal])] at hawaits
  obtain ⟨others, middle, hmiddle, hshows⟩ :=
    Table.exists_runs_of_advances (hreads ⟨[], 0⟩) ⟨rfl, hawaits, rfl⟩
  obtain ⟨rest, hrest⟩ := hmiddle.exists_rest hruns fun _ => h.not_next ha
  have hshifts := shifts_le_of_runs ha (.of_runs ha hmiddle) hrest
  rw [hshows.derivation_eq, h.shifts_eq] at hshifts
  simp only [Derivation.extend, List.length_append, List.length_singleton] at hshifts
  omega

theorem not_derives (ha : a.Canonical) (hcollisions : (Table.build a).collisions = [])
    (hfree : a.grammar.StartFree) (h : Stuck a input c trail consumed token)
    (hparse : ∀ d, (Table.build a).parse input ≠ .accepted d) (rest : List Symbol) :
    ¬ a.grammar.Derives a.grammar.closedStart
      (consumed.map .terminal ++ .terminal token.terminal :: rest) := by
  intro hderives
  rcases (Grammar.Opens.of_derives hderives).closedStart_cases with
    hopens | ⟨forest, hfrontier, hmarker⟩
  · exact h.not_opens ha hcollisions hfree hopens
  · -- All of the start rule is read, so the parser would accept.
    have hzero := forest.zero_not_mem_postorder hfree (hfree.not_mem ha.wellFormed.rules_pos)
    have hcloses : a.grammar.Closes consumed forest.postorder .endMarker :=
      Grammar.Yields.closes ⟨forest, hfrontier.symm, rfl⟩ hzero
    have hawaits := h.awaits_token
    rw [hmarker] at hawaits
    exact hparse _ (Table.parse_eq_of_closes ha hcollisions hcloses hawaits)

end Stuck
end Config

namespace Table

/-- A parser that rejects for a missing entry is stuck, and reports the token and the text
of what it has shifted. -/
theorem exists_stuck {a : Automaton} (ha : a.Canonical) {input : String} {state : Nat}
    {name before : String}
    (hparse : (build a).parse input = .rejected (.missingTableEntry state name before)) :
    ∃ last trail consumed token, Config.Stuck a input last trail consumed token ∧
      a.grammar.terminalName token.terminal = name ∧ a.grammar.written consumed = before := by
  obtain ⟨count, last, hruns, hmove⟩ := exists_reject hparse
  obtain ⟨trail, consumed, hfollows, hplaced⟩ := Config.exists_follows_placed ha hruns
  have hacts := acts ha hfollows.toOn
  rw [hmove] at hacts
  cases hacts with
  | unread herror =>
      cases (hplaced.error herror).unread.1
  | @stuck token hlookahead hentry =>
      refine ⟨last, trail, consumed, token, ⟨hfollows, ⟨count, hruns⟩, hlookahead, hentry⟩, rfl, ?_⟩
      rw [(hplaced.ok hlookahead).before_eq, String.ofList_toList]

/-- A missing entry tells that what was read begins a form of the start rule, and, if the
table has no conflicts, that none goes on with the token in question. -/
theorem rejects_past_prefix {alphabet productions : List String} {g : Grammar}
    (hbuild : Grammar.build alphabet productions = .ok g) (hfree : g.StartFree)
    {e : Exploration} {policy : ConflictPolicy} {t : Table}
    (htable : buildWith (Automaton.build g e) policy = .ok t) {input : String} {state : Nat}
    {name before : String}
    (hparse : t.parse input = .rejected (.missingTableEntry state name before)) :
    ∃ (indices : List Nat) (x : Terminal),
      g.Tokenizes input (indices.map Terminal.token ++ [x]) ∧
      g.written (indices.map Terminal.token) = before ∧ g.terminalName x = name ∧
      (∃ rest, g.Derives (g.rule 0).rhs
        ((indices.map Terminal.token).map .terminal ++ rest)) ∧
      (t.hasConflicts = false → ∀ rest, ¬ g.Derives g.closedStart
        ((indices.map Terminal.token).map .terminal ++ .terminal x :: rest)) := by
  have ha := Automaton.build_canonical (Grammar.build_wellFormed hbuild) e
  obtain ⟨rfl, _⟩ := buildWith_eq_ok htable
  obtain ⟨last, trail, consumed, token, hstuck, hname, hwritten⟩ := exists_stuck ha hparse
  have hmarker := hstuck.endMarker_not_mem ha hfree
  have htokenizes : g.Tokenizes input (consumed ++ [token.terminal]) := by
    apply (Config.ofInput_awaits ?_).mp hstuck.awaits_token
    rw [List.dropLast_concat]
    exact hmarker
  have hnot : ∀ d, (build (Automaton.build g e)).parse input ≠ .accepted d := by
    simp [hparse]
  obtain ⟨indices, rfl⟩ := eq_map_token hmarker
  refine ⟨indices, token.terminal, htokenizes, hwritten, hname, hstuck.exists_derives ha,
    fun hconflicts => ?_⟩
  exact hstuck.not_derives ha (collisions_eq_nil_of_hasConflicts hconflicts) hfree hnot

/-- Behind an opening bracket and a token there can be a closing bracket, but not a
second token. -/
theorem rejects_past_prefix_nesting :
    Grammar.nesting.StartFree ∧
    ∃ state, (build (Automaton.build .nesting .breadthFirst)).parse "(aa)" =
        .rejected (.missingTableEntry state "a" "(a") ∧
      ∃ (indices : List Nat) (x : Terminal),
        Grammar.nesting.Tokenizes "(aa)" (indices.map Terminal.token ++ [x]) ∧
        Grammar.nesting.written (indices.map Terminal.token) = "(a" ∧
        Grammar.nesting.terminalName x = "a" ∧
        (∃ rest, Grammar.nesting.Derives [.nonterminal 1]
          ((indices.map Terminal.token).map .terminal ++ rest)) ∧
        ∀ rest, ¬ Grammar.nesting.Derives [.nonterminal 1, .terminal .endMarker]
          ((indices.map Terminal.token).map .terminal ++ .terminal x :: rest) := by
  have hfree : Grammar.nesting.StartFree := by decide +kernel
  have hparse : (build (Automaton.build .nesting .breadthFirst)).parse "(aa)" =
      .rejected (.missingTableEntry 5 "a" "(a") := by
    decide +kernel
  have hconflicts : (build (Automaton.build .nesting .breadthFirst)).hasConflicts = false := by
    decide +kernel
  obtain ⟨indices, x, htokenizes, hwritten, hname, hderives, hnot⟩ :=
    rejects_past_prefix Grammar.build_nesting hfree buildWith_nesting hparse
  exact ⟨hfree, 5, hparse, indices, x, htokenizes, hwritten, hname, hderives,
    hnot hconflicts⟩

end Table
end CanonicalLR
