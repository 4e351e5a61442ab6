import CanonicalLR.Proofs.Grammar.Building

namespace CanonicalLR

/-! The printed form of a grammar.  A rule is printed as the name of its nonterminal, an arrow
and the names of its symbols, with nothing in between.  No name has an arrow inside, and none
has blanks around it; so the printed rules are read as what they are, and the same grammar is
built of them. -/

namespace Production

theorem Arrow.no_arrow_before {text before after : List Char} (h : Arrow text before after)
    (front back : List Char) : before ≠ front ++ '-' :: '>' :: back := by
  rintro rfl
  have hlength := h.length_le front (back ++ '-' :: '>' :: after) (by simp [h.text_eq])
  rw [List.length_append, List.length_cons] at hlength
  omega

/-- Behind a text without an arrow, also one that ends in a dash, the first arrow is the one
that is put there. -/
theorem arrow_append {lhs : List Char} (rhs : List Char)
    (hlhs : ∀ front back, lhs ≠ front ++ '-' :: '>' :: back) :
    Arrow (lhs ++ '-' :: '>' :: rhs) lhs rhs := by
  refine ⟨rfl, fun front back heq => ?_⟩
  -- An arrow further to the left would lie inside, or consist of the last dash and another one.
  rcases List.append_eq_append_iff.mp heq with ⟨more, rfl, _⟩ | ⟨more, hmore, hrest⟩
  · rw [List.length_append]
    exact Nat.le_add_right ..
  · match more with
    | [] => rw [hmore, List.append_nil]
    | [_] => simp at hrest
    | _ :: _ :: more =>
        simp only [List.cons_append, List.cons.injEq] at hrest
        obtain ⟨rfl, rfl, _⟩ := hrest
        exact absurd hmore (hlhs front more)

/-- The text of a production without blanks around its sides. -/
def print (lhs : String) (rhs : List Char) : String :=
  lhs ++ "->" ++ String.ofList rhs

theorem Sides.print {text lhs : String} {rhs : List Char} (h : Sides text lhs rhs) :
    Sides (print lhs rhs) lhs rhs := by
  obtain ⟨before, after, harrow, rfl, rfl⟩ := h
  refine ⟨Text.trim before, Text.trim after, ?_, by rw [Text.trim_trim], by rw [Text.trim_trim]⟩
  have htext : (Production.print (String.ofList (Text.trim before)) (Text.trim after)).toList =
      Text.trim before ++ '-' :: '>' :: Text.trim after := by
    simp [Production.print]
  rw [htext]
  refine arrow_append _ fun front back hfront => ?_
  obtain ⟨left, right, hinfix⟩ := Text.trim_infix before
  refine harrow.no_arrow_before (left ++ front) (back ++ right) ?_
  rw [← hinfix, hfront]
  simp

def printed (production : Production) : Production :=
  { production with text := print production.lhs production.rhs }

end Production

/-- A rule with another text. -/
def Rule.labelled (label : Rule → String) (rule : Rule) : Rule :=
  { rule with text := label rule }

namespace First

/-! The texts of the rules have no part in their FIRST sets. -/

variable (label : Rule → String) (rules : List Rule)

theorem enlarge_labelled (sets : List TerminalSet) (n : Nat) :
    enlarge (rules.map (Rule.labelled label)) sets n = enlarge rules sets n := by
  rw [enlarge, List.filter_map, List.foldl_map]
  rfl

theorem dependents_labelled (n : Nat) :
    dependents (rules.map (Rule.labelled label)) n = dependents rules n := by
  rw [dependents, List.filter_map, List.map_map]
  rfl

theorem visit_labelled (p : Progress) (n : Nat) (rest : List Nat) :
    p.visit (rules.map (Rule.labelled label)) n rest = p.visit rules n rest := by
  rw [Progress.visit, enlarge_labelled, dependents_labelled]
  rfl

theorem run_labelled (budget : Nat) (p : Progress) :
    p.run (rules.map (Rule.labelled label)) budget = p.run rules budget := by
  induction budget generalizing p with
  | zero => rfl
  | succ budget ih =>
      rw [Progress.run, Progress.run]
      cases p.pending with
      | nil => rfl
      | cons n rest =>
          dsimp only
          rw [visit_labelled, ih]

theorem fixpoint_labelled (v : Vocabulary) :
    fixpoint v (rules.map (Rule.labelled label)) = fixpoint v rules :=
  run_labelled label rules _ _

end First

namespace Vocabulary

variable {v : Vocabulary} {id : Nat} {production : Production} {rule : Rule}

def print (v : Vocabulary) (rule : Rule) : String :=
  v.nonterminalName rule.lhs ++ "->" ++ String.join (rule.rhs.map v.name)

theorem print_of_readRule (hv : v.Distinct) (hlhs : production.lhs ∈ v.nonterminals)
    (h : v.readRule id production = .ok rule) :
    v.print rule = Production.print production.lhs production.rhs := by
  obtain ⟨hsegment, hrule, _⟩ := readRule_eq_ok h
  have hcut := ((segment_eq_ok_iff hv).mp hsegment).2
  rw [print, hrule, nonterminalName_idxOf hlhs, hcut.join_eq, Production.print]

end Vocabulary

namespace Grammar

open Production (Sides)

variable {alphabet productions : List String} {read : List Production} {rules : List Rule}

namespace Headed

theorem printed (hread : Headed alphabet productions read) :
    Headed (alphabetOf alphabet) (read.map fun production => production.printed.text)
      (read.map Production.printed) where
  endMarker_not_mem := by
    rw [alphabetOf_alphabetOf]
    exact hread.endMarker_not_mem
  productions_ne_nil := by
    have hlength := length_of_mapM_eq_ok hread.read_eq
    intro hnil
    rw [List.map_eq_nil_iff.mp hnil] at hlength
    exact hread.productions_ne_nil (List.length_eq_zero_iff.mp hlength.symm)
  read_eq := by
    have hsame : read.mapM Except.ok = (Except.ok read : Except GrammarError _) := by
      have hpure := List.mapM_pure (m := Except GrammarError) (l := read) (f := id)
      rwa [List.map_id] at hpure
    rw [alphabetOf_alphabetOf, List.mapM_map]
    refine mapM_eq_ok_map hsame fun production hmem _ hok => ?_
    cases hok
    obtain ⟨id, hid⟩ := List.mem_iff_getElem?.mp hmem
    obtain ⟨_, hlegible⟩ := hread.written hid
    exact Production.read_of_legible { hlegible with sides := hlegible.sides.print }

theorem vocabularyOf_printed (alphabet : List String) (read : List Production) :
    vocabularyOf (alphabetOf alphabet) (read.map Production.printed) =
      vocabularyOf alphabet read := by
  rw [vocabularyOf, alphabetOf_alphabetOf, List.map_map]
  rfl

/-- The rules of the printed productions are the same, apart from their texts. -/
theorem readRules_printed (hread : Headed alphabet productions read)
    (hrules : readRules (vocabularyOf alphabet read) read = .ok rules) :
    readRules (vocabularyOf alphabet read) (read.map Production.printed) =
      .ok (rules.map (Rule.labelled (vocabularyOf alphabet read).print)) := by
  rw [readRules, List.zipIdx_map, List.mapM_map]
  refine mapM_eq_ok_map hrules fun ⟨production, id⟩ hmem rule hok => ?_
  obtain ⟨index, hindex⟩ := List.mem_iff_getElem?.mp hmem
  obtain ⟨hproduction, rfl⟩ := getElem?_zipIdx_iff.mp hindex
  have hprint := Vocabulary.print_of_readRule hread.disjoint.distinct
    (hread.lhs_mem hproduction) hok
  have htext := Vocabulary.readRule_of_text hok production.printed.text
  rw [Rule.labelled, hprint]
  exact htext

end Headed

theorem map_text_of_readRules {v : Vocabulary} (h : readRules v read = .ok rules) :
    rules.map Rule.text = read.map Production.text := by
  have htexts : read.zipIdx.mapM (fun entry => Except.ok entry.1.text) =
      (Except.ok (rules.map Rule.text) : Except GrammarError _) :=
    mapM_eq_ok_map h fun _ _ _ hok => congrArg Except.ok (Vocabulary.readRule_text hok).symm
  have hpure := List.mapM_pure (m := Except GrammarError) (l := read.zipIdx)
    (f := Production.text ∘ Prod.fst)
  rw [← List.map_map, List.zipIdx_map_fst] at hpure
  exact Except.ok.inj (htexts.symm.trans hpure)

/-- A grammar whose rules have other texts. -/
def labelled (g : Grammar) (label : Rule → String) : Grammar :=
  ofRules g.toVocabulary (g.rules.map (Rule.labelled label))

theorem rule_labelled (g : Grammar) (label : Rule → String) (id : Nat) :
    ((g.labelled label).rule id).lhs = (g.rule id).lhs ∧
      ((g.labelled label).rule id).rhs = (g.rule id).rhs := by
  simp only [rule, labelled, ofRules, List.getD_eq_getElem?_getD, List.getElem?_map]
  cases g.rules[id]? <;> exact ⟨rfl, rfl⟩

theorem rulesOf_labelled (g : Grammar) (label : Rule → String) (n : Nat) :
    (g.labelled label).rulesOf n = g.rulesOf n := by
  have hlength : (g.labelled label).rules.length = g.rules.length := List.length_map ..
  rw [rulesOf, rulesOf, hlength]
  exact List.filter_congr fun id _ => by rw [(rule_labelled g label id).1]

theorem WellFormed.firstSets_labelled {g : Grammar} (hg : g.WellFormed) (label : Rule → String) :
    (g.labelled label).firstSets = g.firstSets := by
  rw [hg.firstSets_eq, ← First.fixpoint_labelled label]
  rfl

/-- Built again from its printed rules, a grammar is the same apart from their texts. -/
theorem build_printed {g : Grammar} (h : build alphabet productions = .ok g) :
    build g.alphabet (g.rules.map g.print) =
      .ok (g.labelled g.print) := by
  have hbuilt := build_built alphabet productions
  rw [h] at hbuilt
  cases hbuilt with
  | @ok read rules hread hrules =>
      have hagain := hread.readRules_printed hrules
      have htexts := map_text_of_readRules hagain
      rw [List.map_map, List.map_map] at htexts
      rw [← Headed.vocabularyOf_printed] at hagain
      have hbuild := hread.printed.build_eq_ok hagain
      rw [Headed.vocabularyOf_printed] at hbuild
      exact (congrArg (build (alphabetOf alphabet)) htexts).trans hbuild

/-- A right-hand side is cut into the longest names, and the place is told where that is not
possible.  So the names of its symbols make up a right-hand side, and from its printed rules a
grammar is built again. -/
theorem printing_exact (alphabet productions : List String) :
    (∀ read, Headed alphabet productions read →
      ∀ (id : Nat) (text lhs : String) (rhs : List Char),
        productions[id]? = some text → Sides text lhs rhs →
        read[id]? = some ⟨text, lhs, rhs⟩ ∧
        (∀ symbols, (vocabularyOf alphabet read).segment rhs = .ok symbols ↔
          (∀ symbol ∈ symbols, symbol ∈ (vocabularyOf alphabet read).symbols) ∧
            Cut (Named alphabet productions) rhs
              (symbols.map (vocabularyOf alphabet read).name) []) ∧
        (∀ symbols, (vocabularyOf alphabet read).segment rhs = .ok symbols →
          String.join (symbols.map (vocabularyOf alphabet read).name) = String.ofList rhs) ∧
        ∀ offset, (vocabularyOf alphabet read).readRule id ⟨text, lhs, rhs⟩ =
            .error (.unknownSymbol text offset) ↔
          Stuck (Named alphabet productions) rhs offset) ∧
    ∀ g, build alphabet productions = .ok g → ∃ again,
      build g.alphabet (g.rules.map g.print) = .ok again ∧
      again.toVocabulary = g.toVocabulary ∧
      again.rules.length = g.rules.length ∧
      (∀ id, (again.rule id).lhs = (g.rule id).lhs ∧ (again.rule id).rhs = (g.rule id).rhs) ∧
      (∀ n, again.rulesOf n = g.rulesOf n) ∧
      again.firstSets = g.firstSets := by
  refine ⟨fun read hread id text lhs rhs htext hsides => ?_, fun g hbuild => ?_⟩
  · obtain ⟨production, hproduction, rfl, hlegible⟩ := hread.legible htext
    obtain ⟨rfl, rfl⟩ := hlegible.sides.unique hsides
    have hdistinct := hread.disjoint.distinct
    rw [← hread.known_eq]
    refine ⟨hproduction, fun symbols => Vocabulary.segment_eq_ok_iff hdistinct,
      fun symbols hsegment => ?_, fun offset => ?_⟩
    · exact ((Vocabulary.segment_eq_ok_iff hdistinct).mp hsegment).2.join_eq
    · exact Vocabulary.readRule_eq_unknownSymbol_iff.trans
        (Vocabulary.segment_eq_error_iff hdistinct)
  · exact ⟨g.labelled g.print, build_printed hbuild, rfl, List.length_map ..,
      rule_labelled g _, rulesOf_labelled g _, (build_wellFormed hbuild).firstSets_labelled _⟩

/-- Names that end in a dash or are a part of an arrow. -/
def dashed : Grammar :=
  .ofRules ⟨["a", "a-", ">"], ["S-", "A-"]⟩
    [⟨0, [.nonterminal 1, .terminal .endMarker], "S-->  A-$ "⟩,
     ⟨1, [.terminal (.token 1), .terminal (.token 2), .terminal (.token 0)], "A- -> a->a"⟩,
     ⟨1, [.terminal (.token 2)], "A- -> >"⟩]

theorem build_dashed :
    build ["a", "a-", ">"] ["S-->  A-$ ", "A- -> a->a", "A- -> >"] = .ok dashed := by
  decide +kernel

/-- The arrow in front of `>` is found behind a name that ends in a dash. -/
theorem printing_exact_dashed :
    dashed.rules.map dashed.print = ["S-->A-$", "A-->a->a", "A-->>"] ∧
    ∃ again, build ["a", "a-", ">"] (dashed.rules.map dashed.print) = .ok again ∧
      again.toVocabulary = dashed.toVocabulary ∧ again.rules.length = 3 ∧
      (∀ id, (again.rule id).lhs = (dashed.rule id).lhs ∧
        (again.rule id).rhs = (dashed.rule id).rhs) ∧
      (∀ n, again.rulesOf n = dashed.rulesOf n) ∧ again.firstSets = dashed.firstSets :=
  ⟨by decide +kernel, (printing_exact _ _).2 dashed build_dashed⟩

end Grammar
end CanonicalLR
