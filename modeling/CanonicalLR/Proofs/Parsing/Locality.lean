import CanonicalLR.Proofs.Parsing.Consistency
import CanonicalLR.Proofs.Parsing.Position
import CanonicalLR.Proofs.Parsing.Snapshot

namespace CanonicalLR

/-! What the parser does not look at.  The tokenizer never reads behind a token, and it fetches
one at a time; so as long as it has not come to an end, a run goes the same way whatever
follows what it has read. -/

namespace Scanner

/-- The scanner at the same place, with another text before it. -/
def facing (s : Scanner) (rest : List Char) : Scanner :=
  { s with rest := rest }

variable {v : Vocabulary} {s : Scanner}

theorem finished_of_fetch (h : (s.fetch v).2.finished = false) : s.finished = false := by
  cases hs : s.finished with
  | false => rfl
  | true =>
      rw [fetch_of_finished v hs, hs] at h
      cases h

/-- A token is found where it stands, whatever follows it. -/
theorem fetch_facing (h : (s.fetch v).2.finished = false) :
    ∃ text, s.rest = text ++ (s.fetch v).2.rest ∧
      ∀ other, (s.facing (text ++ other)).fetch v =
        ((s.fetch v).1, (s.fetch v).2.facing other) := by
  have hs := finished_of_fetch h
  have hfetched := fetched v hs
  generalize (s.fetch v).1 = result at hfetched ⊢
  generalize (s.fetch v).2 = after at h hfetched ⊢
  cases hfetched with
  | endMarker => cases h
  | error => cases h
  | @token index text rest hmatch =>
      obtain ⟨_, hne, hrest, rfl, hindex, hshorter⟩ := Vocabulary.front_of_shortestMatch hmatch
      refine ⟨text, hrest, fun other =>
        fetch_of_shortestMatch (s := s.facing (text ++ other)) hs ?_⟩
      exact Vocabulary.shortestMatch_append other hne (hshorter text hne List.prefix_rfl).1 hindex
        fun shorter hnonempty hbegins hproper =>
          ⟨(hshorter shorter hnonempty hbegins).1, (hshorter shorter hnonempty hbegins).2 hproper⟩

end Scanner

namespace Config

def facing (c : Config) (rest : List Char) : Config :=
  { c with scanner := c.scanner.facing rest }

variable {v : Vocabulary} {c : Config} {token : Token}

theorem ofInput_facing {x : String} (h : (ofInput v x).scanner.finished = false) :
    ∃ text, x.toList = text ++ (ofInput v x).scanner.rest ∧
      ∀ (y : String) (other : List Char), y.toList = text ++ other →
        ofInput v y = (ofInput v x).facing other := by
  obtain ⟨text, htext, hsame⟩ := Scanner.fetch_facing (s := .ofInput x) h
  refine ⟨text, htext, fun y other hy => ?_⟩
  have hscanner : Scanner.ofInput y = (Scanner.ofInput x).facing (text ++ other) := by
    rw [← hy]
    rfl
  unfold ofInput
  rw [hscanner, hsame other]
  rfl

theorem shift_facing {target : Nat} (h : (c.shift v token target).scanner.finished = false) :
    c.scanner.finished = false ∧
    ∃ text, c.scanner.rest = text ++ (c.shift v token target).scanner.rest ∧
      ∀ other, (c.facing (text ++ other)).shift v token target =
        (c.shift v token target).facing other := by
  by_cases htoken : token.terminal = .endMarker
  · rw [shift_endMarker htoken] at h ⊢
    refine ⟨h, [], rfl, fun other => ?_⟩
    rw [shift_endMarker htoken]
    rfl
  · rw [shift_token htoken] at h ⊢
    obtain ⟨text, htext, hsame⟩ := Scanner.fetch_facing h
    refine ⟨Scanner.finished_of_fetch h, text, htext, fun other => ?_⟩
    rw [shift_token htoken]
    unfold facing
    dsimp only
    rw [hsame other]

end Config

namespace Table

variable {t : Table} {c next : Config}

theorem Next.facing (h : t.Next c next) (hnext : next.scanner.finished = false) :
    c.scanner.finished = false ∧
    ∃ text, c.scanner.rest = text ++ next.scanner.rest ∧
      ∀ other, t.Next (c.facing (text ++ other)) (next.facing other) := by
  have hmade := t.made c
  cases h with
  | shift hmove =>
      rw [hmove] at hmade
      cases hmade with
      | @shift token target hlookahead hentry =>
          obtain ⟨hfinished, text, htext, hsame⟩ := Config.shift_facing hnext
          refine ⟨hfinished, text, htext, fun other => ?_⟩
          rw [← hsame other]
          exact .shift (move_shift (c := c.facing (text ++ other)) hlookahead hentry)
  | reduce hmove =>
      rw [hmove] at hmade
      cases hmade with
      | reduce hlookahead hentry hrule hreduce =>
          refine ⟨hnext, [], rfl, fun other =>
            .reduce (move_reduce (c := c.facing other) hlookahead hentry hrule ?_)⟩
          rw [Config.reduce_eq]
          exact congrArg (Except.map _) hreduce

/-- A run that has not come to the end of its text makes the same moves in front of another
text that begins with what it has read. -/
theorem Runs.facing {count : Nat} {last : Config} (h : t.Runs count c last)
    (hlast : last.scanner.finished = false) :
    c.scanner.finished = false ∧
    ∃ text, c.scanner.rest = text ++ last.scanner.rest ∧
      ∀ other, t.Runs count (c.facing (text ++ other)) (last.facing other) := by
  induction h with
  | refl c => exact ⟨hlast, [], rfl, fun other => .refl _⟩
  | step hnext _ ih =>
      obtain ⟨hfinished, second, hsecond, hruns⟩ := ih hlast
      obtain ⟨hfinished, first, hfirst, hstep⟩ := hnext.facing hfinished
      refine ⟨hfinished, first ++ second, ?_, fun other => ?_⟩
      · rw [hfirst, hsecond, List.append_assoc]
      · rw [List.append_assoc]
        exact .step (hstep (second ++ other)) (hruns other)

/-- A token that has no entry is met again in any text that goes on with it behind what was
read before. -/
theorem exists_runs_stuck {x y : String} {count : Nat} {last : Config} {state : Nat}
    {name before : String} (hname : name ≠ endMarkerName)
    (hfront : (before ++ name).toList <+: y.toList)
    (hruns : t.Runs count (.ofInput t.grammar.toVocabulary x) last)
    (hmove : t.move last = .reject (.missingTableEntry state name before)) :
    ∃ again, t.Runs count (.ofInput t.grammar.toVocabulary y) again ∧
      t.move again = .reject (.missingTableEntry state name before) := by
  obtain ⟨shifted, hplaced⟩ := Config.exists_placed hruns
  have hmade := t.made last
  rw [hmove] at hmade
  cases hmade with
  | unread hlookahead => cases (hplaced.error hlookahead).unread.1
  | @stuck token hlookahead hentry =>
      obtain ⟨hlast, hinput⟩ := (hplaced.ok hlookahead).input_eq hname
      obtain ⟨hfirst, second, hsecond, hagain⟩ := hruns.facing hlast
      obtain ⟨first, hfirst, hstart⟩ := Config.ofInput_facing hfirst
      -- Up to the token, both inputs are what was read of the first one.
      have hread : (t.grammar.written shifted).toList ++
          (t.grammar.terminalName token.terminal).toList = first ++ second := by
        rw [hfirst, hsecond, ← List.append_assoc] at hinput
        exact (List.append_cancel_right hinput).symm
      obtain ⟨other, hother⟩ := hfront
      rw [String.toList_append, (hplaced.ok hlookahead).before_eq, String.toList_ofList, hread,
        List.append_assoc] at hother
      refine ⟨last.facing other, ?_, move_stuck (c := last.facing other) hlookahead hentry⟩
      rw [hstart y (second ++ other) hother.symm]
      exact hagain other
  | contradicted _ hinternal => cases hinternal

/-- Whether a token is missing from the table depends on nothing that follows it. -/
theorem stuck_local {t : Table} {x y : String} {state : Nat} {name before : String}
    (hname : name ≠ endMarkerName) (hfront : ∃ rest, y = before ++ name ++ rest) :
    (∀ budget,
      t.run budget (.ofInput t.grammar.toVocabulary x) =
        .rejected (.missingTableEntry state name before) →
      t.run budget (.ofInput t.grammar.toVocabulary y) =
        .rejected (.missingTableEntry state name before)) ∧
    ∀ (alphabet productions : List String) (g : Grammar) (e : Exploration)
      (policy : ConflictPolicy), Grammar.build alphabet productions = .ok g →
      buildWith (Automaton.build g e) policy = .ok t →
      t.parse x = .rejected (.missingTableEntry state name before) →
      t.parse y = .rejected (.missingTableEntry state name before) := by
  obtain ⟨rest, rfl⟩ := hfront
  have hfront : (before ++ name).toList <+: (before ++ name ++ rest).toList :=
    ⟨rest.toList, (String.toList_append ..).symm⟩
  have hrun : ∀ budget,
      t.run budget (.ofInput t.grammar.toVocabulary x) =
        .rejected (.missingTableEntry state name before) →
      t.run budget (.ofInput t.grammar.toVocabulary (before ++ name ++ rest)) =
        .rejected (.missingTableEntry state name before) := by
    intro budget hrejected
    obtain ⟨count, last, hlt, hruns, hmove⟩ := run_eq_rejected_iff.mp hrejected
    obtain ⟨again, hagain, hstuck⟩ := exists_runs_stuck hname hfront hruns hmove
    exact run_eq_rejected_iff.mpr ⟨count, again, hlt, hagain, hstuck⟩
  refine ⟨hrun, fun alphabet productions g e policy hbuild htable hparse => ?_⟩
  have ha := Automaton.build_canonical (Grammar.build_wellFormed hbuild) e
  obtain ⟨rfl, _⟩ := buildWith_eq_ok htable
  exact parse_eq_of_run ha (hrun _ hparse) nofun

/-- Behind the second token nothing is looked at, not even what is no token at all. -/
theorem stuck_local_nesting :
    (build (Automaton.build .nesting .breadthFirst)).parse "(aa)" =
      .rejected (.missingTableEntry 5 "a" "(a") ∧
    (build (Automaton.build .nesting .breadthFirst)).parse "(aaé$" =
      .rejected (.missingTableEntry 5 "a" "(a") := by
  have hparse : (build (Automaton.build .nesting .breadthFirst)).parse "(aa)" =
      .rejected (.missingTableEntry 5 "a" "(a") := by
    decide +kernel
  have hname : "a" ≠ endMarkerName := by decide
  have hfront : ∃ rest, "(aaé$" = "(a" ++ "a" ++ rest := ⟨"é$", rfl⟩
  exact ⟨hparse, (stuck_local hname hfront).2 _ _ _ _ _ Grammar.build_nesting buildWith_nesting
    hparse⟩

end Table
end CanonicalLR
