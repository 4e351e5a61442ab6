import CanonicalLR.Proofs.Parsing.Circle
import CanonicalLR.Proofs.Parsing.Soundness
import Mathlib.Logic.Relation

namespace CanonicalLR

/-! A run ends unless it comes to a circle.  Between two shifts there are no more
reductions than there are reducts of the trail, every shift of a token takes some
of the input, and behind a shifted end marker there is nothing but the end of the
start rule.  So the budget of a parse is large enough. -/

namespace Scanner

/-- How many tokens can still come, the current one included. -/
def ahead (lookahead : Except Rejection Token) (s : Scanner) : Nat :=
  match lookahead with
  | .ok token => if token.terminal = .endMarker then 0 else s.rest.length + 1
  | .error _ => 0

theorem ahead_fetch_le (v : Vocabulary) (s : Scanner) :
    ahead (s.fetch v).1 (s.fetch v).2 ≤ s.rest.length := by
  cases hlookahead : (s.fetch v).1 with
  | error rejection => exact Nat.zero_le _
  | ok token =>
      unfold ahead
      dsimp only
      split
      next => exact Nat.zero_le _
      next htoken =>
        cases hs : s.finished with
        | false =>
            rcases fetch_cases hs hlookahead with ⟨hmarker, _⟩ | ⟨_, _, _, hlength⟩
            · exact absurd hmarker htoken
            · exact hlength
        | true =>
            rw [fetch_of_finished v hs] at hlookahead
            cases hlookahead
            exact absurd rfl htoken

end Scanner

namespace Config

def ahead (c : Config) : Nat :=
  Scanner.ahead c.lookahead c.scanner

theorem ahead_ofInput_le (v : Vocabulary) (input : String) :
    (ofInput v input).ahead ≤ input.length := by
  rw [← String.length_toList]
  exact Scanner.ahead_fetch_le v (Scanner.ofInput input)

theorem ahead_shift_lt {c : Config} {token : Token} (hlookahead : c.lookahead = .ok token)
    (htoken : token.terminal ≠ .endMarker) (v : Vocabulary) (target : Nat) :
    (c.shift v token target).ahead < c.ahead := by
  have hahead : c.ahead = c.scanner.rest.length + 1 := by
    unfold ahead Scanner.ahead
    rw [hlookahead]
    exact if_neg htoken
  rw [hahead, shift_token htoken]
  exact Nat.lt_succ_of_le (Scanner.ahead_fetch_le v c.scanner)

end Config

namespace Automaton

variable {a : Automaton} {trail : Trail} {state : Nat}

theorem Canonical.next?_endMarker (ha : a.Canonical) {item : Item}
    (hitem : item ∈ a.itemsOf state)
    (hnext : item.next? a.grammar = some (.terminal .endMarker)) :
    item.rule = 0 ∧ item.dot + 1 = (item.rhs a.grammar).length := by
  have hmarker := ha.wellFormed.endMarker_not_mem (ha.proper item hitem).rule_lt
  obtain ⟨hdot, hsymbol⟩ := List.getElem?_eq_some_iff.mp hnext
  unfold unmarkedPart at hmarker
  split at hmarker
  next hzero =>
    refine ⟨hzero, ?_⟩
    apply Classical.byContradiction
    intro hne
    have hlt : item.dot < (item.rhs a.grammar).length - 1 := by omega
    have hlast : (item.rhs a.grammar).dropLast[item.dot]? = some (.terminal .endMarker) := by
      rw [List.getElem?_dropLast, if_pos hlt]
      exact hnext
    exact hmarker (List.mem_of_getElem? hlast)
  next =>
    rw [← hsymbol] at hmarker
    exact absurd (List.getElem_mem hdot) hmarker

/-- Behind an end marker only the start rule is left, and it is at its end. -/
theorem Canonical.mem_behind_endMarker (ha : a.Canonical) {source : Nat}
    (hstep : ⟨source, .terminal .endMarker, state⟩ ∈ a.transitions) :
    ∀ item ∈ a.itemsOf state, item.rule = 0 ∧ item.next? a.grammar = none := by
  refine ha.target_induction hstep (fun item hitem hnext => ?_) fun item new hdone hnew => ?_
  · obtain ⟨hrule, hdot⟩ := ha.next?_endMarker hitem hnext
    refine ⟨hrule, List.getElem?_eq_none ?_⟩
    exact Nat.le_of_eq hdot.symm
  · obtain ⟨n, hnext, _⟩ := Item.mem_expansions.mp hnew
    rw [hdone.2] at hnext
    cases hnext

end Automaton

namespace Table

variable {a : Automaton} {c next : Config} {trail : Trail}

theorem not_next_behind_endMarker (ha : a.Canonical) {state : Nat}
    (hon : c.On a ((.terminal .endMarker, state) :: trail)) : ¬ (build a).Next c next := by
  intro h
  cases hon.traces with
  | cons _ hstep =>
      have hitems := ha.mem_behind_endMarker hstep
      rcases h.cases ha hon with ⟨_, _, _, hshift, _⟩ |
        ⟨_, item, _, _, hitem, _, _, hrule, _, _⟩
      · obtain ⟨item, hitem, hnext⟩ := ha.exists_kernel hshift
        rw [(hitems item hitem).2] at hnext
        cases hnext
      · exact hrule (hitems item hitem).1

theorem Reduces.exists_on (ha : a.Canonical) (hon : c.On a trail) {rules : List Nat}
    {last : Config} (h : (build a).Reduces rules c last) :
    ∃ left, last.On a left ∧ left.length ≤ trail.length ∧
      last.lookahead = c.lookahead ∧ last.scanner = c.scanner := by
  induction h generalizing trail with
  | nil c => exact ⟨trail, hon, Nat.le_refl _, rfl, rfl⟩
  | cons hmove _ ih =>
      obtain ⟨hpos, hlength, hnext⟩ := reduce_cases ha hon hmove
      obtain ⟨target, hnextOn⟩ := hnext.exists_on hon.traces
      obtain ⟨left, hlast, hle, hlookahead, hscanner⟩ := ih hnextOn
      refine ⟨left, hlast, ?_, hlookahead.trans hnext.lookahead_eq,
        hscanner.trans hnext.scanner_eq⟩
      rw [List.length_cons, List.length_drop] at hle
      omega

def Straight (t : Table) (c : Config) : Prop :=
  ∀ count last, t.Runs count c last → ¬ t.Circles last

theorem Straight.of_runs {t : Table} {c last : Config} {count : Nat} (h : t.Straight c)
    (hruns : t.Runs count c last) : t.Straight last :=
  fun _ _ hmore => h _ _ (hruns.trans hmore)

/-- Moves before a run from a trail ends, if it does not come to a circle. -/
def runBound (a : Automaton) (height ahead : Nat) : Nat :=
  (ahead + 1) * ((height + ahead) * a.grammar.nonterminals.length + 1) + 1

theorem runBound_succ (a : Automaton) (height ahead : Nat) :
    height * a.grammar.nonterminals.length + 1 + runBound a (height + 1) ahead ≤
      runBound a height (ahead + 1) := by
  have hheight : height * a.grammar.nonterminals.length ≤
      (height + (ahead + 1)) * a.grammar.nonterminals.length :=
    Nat.mul_le_mul_right _ (Nat.le_add_right _ _)
  have hsame : height + 1 + ahead = height + (ahead + 1) := by omega
  simp only [runBound, hsame, Nat.succ_mul (ahead + 1)]
  omega

theorem le_runBound (a : Automaton) (height ahead : Nat) :
    height * a.grammar.nonterminals.length + 1 ≤ runBound a height ahead := by
  have hheight : height * a.grammar.nonterminals.length ≤
      (height + ahead) * a.grammar.nonterminals.length :=
    Nat.mul_le_mul_right _ (Nat.le_add_right _ _)
  simp only [runBound, Nat.succ_mul ahead]
  omega

theorem runBound_le (a : Automaton) {height others ahead more : Nat}
    (hheight : height ≤ others) (hahead : ahead ≤ more) :
    runBound a height ahead ≤ runBound a others more := by
  have hproduct := Nat.mul_le_mul_right a.grammar.nonterminals.length
    (Nat.add_le_add hheight hahead)
  exact Nat.succ_le_succ
    (Nat.mul_le_mul (Nat.succ_le_succ hahead) (Nat.succ_le_succ hproduct))

theorem Reduces.length_le (ha : a.Canonical) (hon : c.On a trail)
    (hstraight : (build a).Straight c) {rules : List Nat} {last : Config}
    (h : (build a).Reduces rules c last) :
    rules.length ≤ trail.length * a.grammar.nonterminals.length := by
  apply Classical.byContradiction
  intro hnot
  obtain ⟨front, d, hfront, hcircles⟩ := h.exists_circle ha hon (Nat.lt_of_not_le hnot)
  exact hstraight _ _ hfront.runs hcircles

/-- The induction is on the tokens that can still come: up to the next shift the
reductions are counted, and the rest is a shorter run from a longer trail. -/
theorem Runs.count_le (ha : a.Canonical) {count : Nat} {last : Config} (hon : c.On a trail)
    (hstraight : (build a).Straight c) (h : (build a).Runs count c last) :
    count ≤ runBound a trail.length c.ahead := by
  induction hsize : c.ahead using Nat.strong_induction_on generalizing c trail count with
  | _ ahead ih =>
      rcases h.cases with ⟨rules, rfl, hreduces⟩ |
        ⟨rules, middle, symbol, next, rest, hreduces, hmove, hrest, rfl⟩
      · have hrules := hreduces.length_le ha hon hstraight
        have hbound := le_runBound a trail.length ahead
        omega
      · have hrules := hreduces.length_le ha hon hstraight
        have hbound := le_runBound a trail.length ahead
        obtain ⟨left, hmiddle, hle, hlookahead, hscanner⟩ := hreduces.exists_on ha hon
        have hsame : middle.ahead = c.ahead := by
          rw [Config.ahead, hlookahead, hscanner]
          rfl
        have hacts := acts ha hmiddle
        rw [hmove] at hacts
        cases hacts with
        | @shift token target hlookahead hstep =>
            have hnext : (middle.shift a.grammar.toVocabulary token target).On a
                ((.terminal token.terminal, target) :: left) :=
              ⟨stack_shift hmiddle.stack_eq .., .cons hmiddle.traces hstep⟩
            by_cases htoken : token.terminal = .endMarker
            · rw [htoken] at hnext
              cases hrest with
              | refl => omega
              | step hmore => exact absurd hmore (not_next_behind_endMarker ha hnext)
            · have hlt := Config.ahead_shift_lt hlookahead htoken a.grammar.toVocabulary target
              rw [hsame, hsize] at hlt
              have hreached := hreduces.runs.trans (Runs.single (.shift hmove))
              have hcount := ih _ hlt hnext (hstraight.of_runs hreached) hrest rfl
              generalize (middle.shift a.grammar.toVocabulary token target).ahead = left
                at hlt hcount
              calc rules.length + 1 + rest
                  ≤ trail.length * a.grammar.nonterminals.length + 1 +
                      runBound a (trail.length + 1) left := by
                    have hgrown := runBound_le a (Nat.succ_le_succ hle) (Nat.le_refl left)
                    exact Nat.add_le_add (Nat.succ_le_succ hrules) (hcount.trans hgrown)
                _ ≤ runBound a trail.length (left + 1) := runBound_succ a trail.length left
                _ ≤ runBound a trail.length ahead := runBound_le a (Nat.le_refl _) hlt

/-- The budget of a parse suffices for every run that ends at all. -/
theorem exists_circle_of_endless (ha : a.Canonical) {input : String}
    (h : (build a).parse input = .endless) :
    ∃ count c, (build a).Runs count (.ofInput a.grammar.toVocabulary input) c ∧
      (build a).Circles c := by
  obtain ⟨last, hruns⟩ := run_eq_endless_iff.mp h
  apply Classical.byContradiction
  intro hnot
  have hstraight : (build a).Straight (.ofInput a.grammar.toVocabulary input) :=
    fun count c hc hcircles => hnot ⟨count, c, hc, hcircles⟩
  have hon : (Config.ofInput a.grammar.toVocabulary input).On a [] := ⟨rfl, .nil⟩
  have hcount := hruns.count_le ha hon hstraight
  have hbound := runBound_le a (Nat.le_refl 0)
    (Config.ahead_ofInput_le a.grammar.toVocabulary input)
  have hzero : runBound a 0 input.length =
      (input.length + 1) * (input.length * a.grammar.nonterminals.length + 1) + 1 := by
    rw [runBound, Nat.zero_add]
  have hmoves : (build a).moveBound input.length =
      (input.length + 1) * (input.length * a.grammar.nonterminals.length + 1) +
        (build a).stateCount + 2 := rfl
  rw [List.length_nil] at hcount
  omega

theorem parse_eq_endless_iff (ha : a.Canonical) {input : String} :
    (build a).parse input = .endless ↔
      ∀ budget, (build a).run budget (.ofInput a.grammar.toVocabulary input) = .endless := by
  constructor
  · intro h
    obtain ⟨count, c, hruns, hcircles⟩ := exists_circle_of_endless ha h
    exact hruns.run_eq hcircles
  · intro h
    exact h _

/-- A run that ends, within whatever budget, ends within that of a parse. -/
theorem parse_eq_of_run (ha : a.Canonical) {input : String} {budget : Nat} {outcome : Outcome}
    (h : (build a).run budget (.ofInput a.grammar.toVocabulary input) = outcome)
    (hends : outcome ≠ .endless) : (build a).parse input = outcome := by
  have hparse : (build a).parse input ≠ .endless := by
    intro hendless
    exact hends (h.symm.trans ((parse_eq_endless_iff ha).mp hendless budget))
  have hsame := run_add hparse budget
  rw [Nat.add_comm, run_add (h ▸ hends)] at hsame
  exact hsame.symm.trans h

theorem parse_eq_accepted (ha : a.Canonical) {input : String} {count : Nat} {last : Config}
    {derivation : Derivation}
    (hruns : (build a).Runs count (.ofInput a.grammar.toVocabulary input) last)
    (hmove : (build a).move last = .accept derivation) :
    (build a).parse input = .accepted derivation := by
  have hrun : (build a).run (count + 1) (.ofInput a.grammar.toVocabulary input) =
      .accepted derivation := by
    rw [run_of_runs hruns, run_of_outcome (Move.outcome?_eq_accepted_iff.mpr hmove)]
  exact parse_eq_of_run ha hrun nofun

end Table

/-! A grammar in which no symbol derives itself by such rules has no circles. -/

/-- The first symbol is the lhs of a rule whose right-hand side is the second. -/
def Grammar.UnitStep (g : Grammar) (first second : Symbol) : Prop :=
  ∃ rule ∈ g.rules, first = .nonterminal rule.lhs ∧ rule.rhs = [second]

def Grammar.UnitFree (g : Grammar) : Prop :=
  ∀ symbol, ¬ Relation.TransGen g.UnitStep symbol symbol

namespace Table

variable {a : Automaton} {c next : Config} {trail : Trail} {symbol : Symbol} {state : Nat}

/-- A reduction of a single symbol puts the left-hand side of its rule in its place. -/
theorem reduce_single (ha : a.Canonical) (hon : c.On a ((symbol, state) :: trail)) {rule : Nat}
    (hunit : (a.grammar.rule rule).rhs.length = 1)
    (hmove : (build a).move c = .reduce rule next) :
    ∃ token item target, c.lookahead = .ok token ∧ next.lookahead = .ok token ∧
      item ∈ a.itemsOf state ∧ item.atEnd a.grammar = true ∧
      token.terminal ∈ item.lookahead ∧ item.rule = rule ∧ rule ≠ 0 ∧
      item.rhs a.grammar = [symbol] ∧
      next.On a ((.nonterminal (a.grammar.rule rule).lhs, target) :: trail) := by
  have hacts := acts ha hon
  rw [hmove] at hacts
  cases hacts with
  | @reduce token item target hlookahead hitem hend htoken hrule hstep =>
      obtain ⟨_, hspelling, _⟩ := hon.traces.history_atEnd ha hitem hend
      have hlength : (item.rhs a.grammar).length = 1 := hunit
      rw [hlength, List.drop_one, List.tail_cons] at hstep hspelling
      rw [Trail.spelling_cons] at hspelling
      refine ⟨token, item, target, hlookahead, hlookahead, hitem, hend, htoken, rfl, hrule,
        (List.append_cancel_left hspelling).symm, ?_, .cons (hon.traces.drop 1) hstep⟩
      rw [hlength]
      rfl

theorem reduce_unit (ha : a.Canonical) (hon : c.On a ((symbol, state) :: trail)) {rule : Nat}
    (hunit : (a.grammar.rule rule).rhs.length = 1)
    (hmove : (build a).move c = .reduce rule next) :
    ∃ parent target, next.On a ((parent, target) :: trail) ∧
      a.grammar.UnitStep parent symbol := by
  obtain ⟨_, item, target, _, _, hitem, _, _, rfl, _, hrhs, hnext⟩ :=
    reduce_single ha hon hunit hmove
  have hrule := Grammar.rule_mem (ha.proper item hitem).rule_lt
  exact ⟨_, target, hnext, a.grammar.rule item.rule, hrule, rfl, hrhs⟩

theorem Reduces.unit_chain (ha : a.Canonical) (hon : c.On a ((symbol, state) :: trail))
    {rules : List Nat} {last : Config} (h : (build a).Reduces rules c last)
    (hne : rules ≠ []) (hunit : ∀ id ∈ rules, (a.grammar.rule id).rhs.length = 1) :
    ∃ parent target, last.On a ((parent, target) :: trail) ∧
      Relation.TransGen a.grammar.UnitStep parent symbol := by
  induction h generalizing symbol state with
  | nil => exact absurd rfl hne
  | @cons rule rules c next last hmove hrest ih =>
      obtain ⟨parent, target, hnext, hstep⟩ :=
        reduce_unit ha hon (hunit rule List.mem_cons_self) hmove
      by_cases hrules : rules = []
      · subst hrules
        cases hrest
        exact ⟨parent, target, hnext, .single hstep⟩
      · obtain ⟨root, final, hlast, hchain⟩ :=
          ih hnext hrules fun id hid => hunit id (List.mem_cons_of_mem rule hid)
        exact ⟨root, final, hlast, hchain.tail hstep⟩

theorem Repeats.exists_transGen (ha : a.Canonical) (hon : c.On a trail) {rules : List Nat}
    (h : (build a).Repeats c rules) :
    ∃ symbol, Relation.TransGen a.grammar.UnitStep symbol symbol := by
  obtain ⟨hne, hunit, last, hreduces, hfront⟩ := h
  cases trail with
  | nil =>
      cases hreduces with
      | nil => exact absurd rfl hne
      | cons hmove _ =>
          obtain ⟨hpos, hlength, _⟩ := reduce_cases ha hon hmove
          exact absurd hpos (Nat.not_lt_of_le hlength)
  | cons entry trail =>
      obtain ⟨symbol, state⟩ := entry
      obtain ⟨parent, target, hlast, hchain⟩ := hreduces.unit_chain ha hon hne hunit
      have hstack : ParseStack.ofTrail ((symbol, state) :: trail) =
          .ofTrail ((parent, target) :: trail) := by
        rw [← hon.stack_eq, ← hlast.stack_eq]
        exact hfront.stack_eq
      obtain rfl : symbol = parent := by
        cases hstack
        rfl
      exact ⟨symbol, hchain⟩

theorem parse_ends_of_unitFree (ha : a.Canonical) (hfree : a.grammar.UnitFree)
    (input : String) : (build a).parse input ≠ .endless := by
  intro hendless
  obtain ⟨count, c, hruns, rules, hrepeats⟩ := exists_circle_of_endless ha hendless
  obtain ⟨trail, consumed, hfollows⟩ := Config.Follows.runs ha hruns
  obtain ⟨symbol, hchain⟩ := hrepeats.exists_transGen ha hfollows.toOn
  exact hfree symbol hchain

/-- A run ends exactly if it does not come to a circle of reductions by rules with
a single symbol on their right-hand side, and if it ends, it does so in time. -/
theorem run_ends_iff {alphabet productions : List String} {g : Grammar}
    (hbuild : Grammar.build alphabet productions = .ok g) {e : Exploration}
    {policy : ConflictPolicy} {t : Table}
    (htable : buildWith (Automaton.build g e) policy = .ok t) (input : String) :
    ((∃ budget, t.run budget (.ofInput g.toVocabulary input) ≠ .endless) ↔
      ∀ count c, t.Runs count (.ofInput g.toVocabulary input) c → ¬ t.Circles c) ∧
    ((∃ budget, t.run budget (.ofInput g.toVocabulary input) ≠ .endless) →
      t.run (t.moveBound input.length) (.ofInput g.toVocabulary input) ≠ .endless) ∧
    (g.UnitFree → ∃ budget, t.run budget (.ofInput g.toVocabulary input) ≠ .endless) := by
  have ha := Automaton.build_canonical (Grammar.build_wellFormed hbuild) e
  obtain ⟨rfl, _⟩ := buildWith_eq_ok htable
  refine ⟨⟨?_, ?_⟩, ?_, ?_⟩
  · intro ⟨budget, hends⟩ count c hruns hcircles
    exact hends (hruns.run_eq hcircles budget)
  · intro hstraight
    refine ⟨(build (Automaton.build g e)).moveBound input.length, fun hendless => ?_⟩
    obtain ⟨count, c, hruns, hcircles⟩ := exists_circle_of_endless ha hendless
    exact hstraight count c hruns hcircles
  · intro ⟨budget, hends⟩ hendless
    exact hends ((parse_eq_endless_iff ha).mp hendless budget)
  · intro hfree
    exact ⟨_, parse_ends_of_unitFree ha hfree input⟩

theorem run_ends_nesting :
    (build (Automaton.build .nesting .breadthFirst)).run 7
      (.ofInput Grammar.nesting.toVocabulary "(a)") ≠ .endless ∧
    ∀ count c, (build (Automaton.build .nesting .breadthFirst)).Runs count
      (.ofInput Grammar.nesting.toVocabulary "(a)") c →
        ¬ (build (Automaton.build .nesting .breadthFirst)).Circles c := by
  have hends : (build (Automaton.build .nesting .breadthFirst)).run 7
      (.ofInput Grammar.nesting.toVocabulary "(a)") ≠ .endless := by
    decide +kernel
  exact ⟨hends,
    (run_ends_iff Grammar.build_nesting buildWith_nesting "(a)").1.mp ⟨7, hends⟩⟩

end Table

/-- Behind two tokens `B` is reduced to `A` and `A` to `B`, although `A` could also
be reduced to `D` and `D` closes a rule. -/
def Grammar.circling : Grammar :=
  .ofRules ⟨["a"], ["S", "B", "A", "D"]⟩
    [⟨0, [.nonterminal 1], "S->B"⟩,
     ⟨1, [.nonterminal 2], "B->A"⟩,
     ⟨2, [.nonterminal 3], "A->D"⟩,
     ⟨1, [.terminal (.token 0)], "B->a"⟩,
     ⟨2, [.terminal (.token 0), .nonterminal 3], "A->aD"⟩,
     ⟨3, [.nonterminal 2], "D->A"⟩,
     ⟨2, [.nonterminal 1], "A->B"⟩]

theorem Grammar.build_circling :
    build ["a"] ["S->B", "B->A", "A->D", "B->a", "A->aD", "D->A", "A->B"] =
      .ok circling := by
  decide +kernel

theorem Table.circling_endless :
    Grammar.build ["a"] ["S->B", "B->A", "A->D", "B->a", "A->aD", "D->A", "A->B"] =
      .ok .circling ∧
    ∃ t, buildWith (Automaton.build .circling .breadthFirst) .firstWins = .ok t ∧
      ¬ ∃ budget, t.run budget (.ofInput Grammar.circling.toVocabulary "aa") ≠ .endless := by
  have hbuild := Grammar.build_circling
  refine ⟨hbuild, _, rfl, fun ⟨budget, hends⟩ => ?_⟩
  have ha := Automaton.build_canonical (Grammar.build_wellFormed hbuild) .breadthFirst
  have hendless : (build (Automaton.build .circling .breadthFirst)).parse "aa" = .endless := by
    decide +kernel
  exact hends ((parse_eq_endless_iff ha).mp hendless budget)

end CanonicalLR
