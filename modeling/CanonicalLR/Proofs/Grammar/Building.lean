import CanonicalLR.Proofs.Grammar.Admission

namespace CanonicalLR.Grammar

open Production (Sides Legible)

/-! Building accepts the admissible descriptions, refuses every other one for the first thing
that is wrong with it, and what it builds represents the description. -/

/-- What a grammar owes to the description it was built from. -/
structure Represents (g : Grammar) (alphabet productions : List String) : Prop where
  alphabet_eq : g.alphabet = alphabetOf alphabet
  length_rules : g.rules.length = productions.length
  /-- The rule with a number is the production at that place. -/
  reads : ∀ {id : Nat} {text : String}, productions[id]? = some text →
    (g.rule id).text = text ∧ ∃ rhs,
      Sides text (g.nonterminalName (g.rule id).lhs) rhs ∧
      Cut (Named alphabet productions) rhs ((g.rule id).rhs.map g.name) []
  rhs_ne_nil : ∀ id < g.rules.length, (g.rule id).rhs ≠ []
  symbol_mem : ∀ id < g.rules.length, ∀ symbol ∈ (g.rule id).rhs, symbol ∈ g.symbols
  owner : ∀ id < g.rules.length, ∃! n, n < g.nonterminals.length ∧ id ∈ g.rulesOf n
  rulesOf_lt : ∀ n, ∀ id ∈ g.rulesOf n, id < g.rules.length
  rulesOf_increasing : ∀ n, (g.rulesOf n).Pairwise (· < ·)
  rulesOf_ne_nil : ∀ n < g.nonterminals.length, g.rulesOf n ≠ []
  symbols_nodup : g.symbols.Nodup
  symbol?_name : ∀ symbol ∈ g.symbols, g.symbol? (g.name symbol) = some symbol

@[simp] theorem alphabetOf_alphabetOf (alphabet : List String) :
    alphabetOf (alphabetOf alphabet) = alphabetOf alphabet := by
  have hne : ∀ name ∈ alphabetOf alphabet, name ≠ "" := fun _ hname => (mem_alphabetOf.mp hname).2
  rw [alphabetOf, List.filter_eq_self.mpr (by simpa using hne)]
  exact eraseDups_of_nodup (eraseDups_nodup _)

variable {alphabet productions : List String} {read : List Production} {rules : List Rule}

theorem endMarker_not_mem_alphabet (hmarker : endMarkerName ∉ alphabetOf alphabet) :
    endMarkerName ∉ alphabet :=
  fun hmem => hmarker (mem_alphabetOf.mpr ⟨hmem, by decide⟩)

/-- The rules are read one by one, each with the number of its production. -/
theorem getElem?_zipIdx_iff {id number : Nat} {production : Production} :
    read.zipIdx[id]? = some (production, number) ↔
      read[id]? = some production ∧ id = number := by
  rw [List.getElem?_zipIdx, Option.map_eq_some_iff, Nat.zero_add]
  constructor
  · rintro ⟨found, hfound, hpair⟩
    cases hpair
    exact ⟨hfound, rfl⟩
  · rintro ⟨hfound, rfl⟩
    exact ⟨production, hfound, rfl⟩

/-- The rule with a number is the one that was read from the production at that place. -/
theorem rule_at (hrules : readRules (vocabularyOf alphabet read) read = .ok rules) {id : Nat}
    {production : Production} (hproduction : read[id]? = some production) :
    id < rules.length ∧ (vocabularyOf alphabet read).readRule id production =
      .ok ((ofRules (vocabularyOf alphabet read) rules).rule id) := by
  obtain ⟨rule, hrule, hok⟩ :=
    getElem?_mapM_of_getElem? hrules (getElem?_zipIdx_iff.mpr ⟨hproduction, rfl⟩)
  have hlt := (List.getElem?_eq_some_iff.mp hrule).1
  have hfound := getElem?_rules (g := ofRules (vocabularyOf alphabet read) rules) hlt
  exact ⟨hlt, hok.trans (congrArg Except.ok (Option.some.inj (hrule.symm.trans hfound)))⟩

/-- A nonterminal has the rules of the productions that begin with its name. -/
theorem rulesOf_ne_nil_of_readRules
    (hrules : readRules (vocabularyOf alphabet read) read = .ok rules) {n : Nat}
    (hn : n < (vocabularyOf alphabet read).nonterminals.length) :
    (ofRules (vocabularyOf alphabet read) rules).rulesOf n ≠ [] := by
  have hmem := List.getElem_mem hn
  obtain ⟨production, hproduction, hname⟩ := List.mem_map.mp (List.mem_eraseDups.mp hmem)
  obtain ⟨id, hid⟩ := List.mem_iff_getElem?.mp hproduction
  obtain ⟨hlt, hok⟩ := rule_at hrules hid
  refine List.ne_nil_of_mem (mem_rulesOf.mpr ⟨hlt, ?_⟩)
  rw [(Vocabulary.readRule_eq_ok hok).2.1, hname]
  exact (eraseDups_nodup _).idxOf_getElem n hn

namespace Headed

theorem legible (hread : Headed alphabet productions read) {id : Nat} {text : String}
    (htext : productions[id]? = some text) :
    ∃ production, read[id]? = some production ∧ production.text = text ∧
      Legible alphabet text production.lhs production.rhs := by
  obtain ⟨production, hproduction, hok⟩ := getElem?_mapM_of_getElem? hread.read_eq htext
  exact ⟨production, hproduction, Production.legible_of_read hok⟩

theorem written (hread : Headed alphabet productions read) {id : Nat} {production : Production}
    (hproduction : read[id]? = some production) :
    productions[id]? = some production.text ∧
      Legible alphabet production.text production.lhs production.rhs := by
  obtain ⟨text, htext, hok⟩ := getElem?_of_mapM_eq_ok hread.read_eq hproduction
  obtain ⟨rfl, hlegible⟩ := Production.legible_of_read hok
  exact ⟨htext, hlegible⟩

theorem first (hread : Headed alphabet productions read) :
    ∃ first start rest, productions[0]? = some first ∧ Sides first start rest := by
  have hfirst := List.getElem?_eq_getElem (List.length_pos_iff.mpr hread.productions_ne_nil)
  obtain ⟨production, _, _, hlegible⟩ := hread.legible hfirst
  exact ⟨_, _, _, hfirst, hlegible.sides⟩

/-- The nonterminals are the names in front of the arrows. -/
theorem mem_nonterminals_iff (hread : Headed alphabet productions read) {name : String} :
    name ∈ (vocabularyOf alphabet read).nonterminals ↔
      ∃ text ∈ productions, ∃ rhs, Legible alphabet text name rhs := by
  rw [vocabularyOf, List.mem_eraseDups, List.mem_map]
  constructor
  · rintro ⟨production, hmem, rfl⟩
    obtain ⟨id, hid⟩ := List.mem_iff_getElem?.mp hmem
    obtain ⟨htext, hlegible⟩ := hread.written hid
    exact ⟨_, List.mem_of_getElem? htext, _, hlegible⟩
  · rintro ⟨text, hmem, rhs, hlegible⟩
    obtain ⟨id, hid⟩ := List.mem_iff_getElem?.mp hmem
    obtain ⟨production, hproduction, _, hother⟩ := hread.legible hid
    exact ⟨production, List.mem_of_getElem? hproduction,
      (hother.sides.unique hlegible.sides).1⟩

theorem lhs_mem (hread : Headed alphabet productions read) {id : Nat} {production : Production}
    (hproduction : read[id]? = some production) :
    production.lhs ∈ (vocabularyOf alphabet read).nonterminals := by
  obtain ⟨htext, hlegible⟩ := hread.written hproduction
  exact hread.mem_nonterminals_iff.mpr ⟨_, List.mem_of_getElem? htext, _, hlegible⟩

theorem disjoint (hread : Headed alphabet productions read) :
    (vocabularyOf alphabet read).Disjoint where
  alphabet_nodup := eraseDups_nodup _
  nonterminals_nodup := eraseDups_nodup _
  alphabet_ne name hname :=
    ⟨(mem_alphabetOf.mp hname).2, fun heq => hread.endMarker_not_mem (heq ▸ hname)⟩
  nonterminals_ne name hname := by
    obtain ⟨text, _, rhs, hlegible⟩ := hread.mem_nonterminals_iff.mp hname
    exact ⟨hlegible.lhs_ne, hlegible.lhs_ne_endMarker⟩
  not_mem_alphabet name hname hmem := by
    obtain ⟨text, _, rhs, hlegible⟩ := hread.mem_nonterminals_iff.mp hname
    exact hlegible.lhs_not_mem (mem_alphabetOf.mp hmem).1

theorem known_eq (hread : Headed alphabet productions read) :
    (vocabularyOf alphabet read).Known = Named alphabet productions := by
  funext name
  rw [Vocabulary.known_iff, hread.mem_nonterminals_iff]
  refine propext ⟨?_, fun h => ?_⟩
  · rintro (⟨text, htext, rhs, hlegible⟩ | hname | rfl)
    · exact .nonterminal htext hlegible.sides hlegible.lhs_ne
    · exact .terminal (mem_alphabetOf.mp hname).1 (mem_alphabetOf.mp hname).2
    · exact .endMarker
  · cases h with
    | terminal hname hne => exact .inr (.inl (mem_alphabetOf.mpr ⟨hname, hne⟩))
    | @nonterminal text _ rhs htext hsides =>
        obtain ⟨id, hid⟩ := List.mem_iff_getElem?.mp htext
        obtain ⟨production, _, _, hlegible⟩ := hread.legible hid
        obtain ⟨rfl, -⟩ := hlegible.sides.unique hsides
        exact .inl ⟨text, htext, _, hlegible⟩
    | endMarker => exact .inr (.inr rfl)

/-- The first production belongs to the first nonterminal. -/
theorem nonterminalName_zero (hread : Headed alphabet productions read) {first start : String}
    {rest : List Char} (hfirst : productions[0]? = some first) (hstart : Sides first start rest) :
    (vocabularyOf alphabet read).nonterminalName 0 = start := by
  obtain ⟨production, hproduction, _, hlegible⟩ := hread.legible hfirst
  cases read with
  | nil => cases hproduction
  | cons head read =>
      cases hproduction
      rw [Vocabulary.nonterminalName, vocabularyOf, List.map_cons, List.eraseDups_cons,
        List.getD_cons_zero]
      exact (hlegible.sides.unique hstart).1

/-- What a production whose rule was read has to offer. -/
theorem readable (hread : Headed alphabet productions read) {id : Nat} {production : Production}
    (hproduction : read[id]? = some production) {rule : Rule}
    (hok : (vocabularyOf alphabet read).readRule id production = .ok rule)
    {first start : String} {rest : List Char} (hfirst : productions[0]? = some first)
    (hstart : Sides first start rest) :
    Production.Readable (Named alphabet productions) start id production.lhs production.rhs
      (rule.rhs.map (vocabularyOf alphabet read).name) := by
  rw [← hread.known_eq, ← hread.nonterminalName_zero hfirst hstart]
  exact Vocabulary.readable_of_readRule hread.disjoint.distinct (hread.lhs_mem hproduction) hok

theorem admissible (hread : Headed alphabet productions read)
    (hrules : readRules (vocabularyOf alphabet read) read = .ok rules) :
    Admissible alphabet productions where
  endMarker_not_mem := endMarker_not_mem_alphabet hread.endMarker_not_mem
  productions_ne_nil := hread.productions_ne_nil
  legible text hmem := by
    obtain ⟨id, hid⟩ := List.mem_iff_getElem?.mp hmem
    obtain ⟨production, _, _, hlegible⟩ := hread.legible hid
    exact ⟨_, _, hlegible⟩
  readable {id first start text lhs rest rhs} hfirst hstart htext hsides := by
    obtain ⟨production, hproduction, _, hlegible⟩ := hread.legible htext
    obtain ⟨rfl, rfl⟩ := hlegible.sides.unique hsides
    obtain ⟨_, hok⟩ := rule_at hrules hproduction
    exact ⟨_, hread.readable hproduction hok hfirst hstart⟩

/-- A production that stops the second way through the list is the first that cannot be
read. -/
theorem firstFault (hread : Headed alphabet productions read) {error : GrammarError}
    (h : readRules (vocabularyOf alphabet read) read = .error error) :
    ∃ place, FirstFault alphabet productions place error := by
  obtain ⟨id, ⟨production, _⟩, hzip, herror, hbefore⟩ := getElem?_of_mapM_eq_error h
  obtain ⟨hproduction, rfl⟩ := getElem?_zipIdx_iff.mp hzip
  obtain ⟨htext, hlegible⟩ := hread.written hproduction
  obtain ⟨first, start, rest, hfirst, hstart⟩ := hread.first
  obtain ⟨rank, hunreadable, hleast⟩ := Vocabulary.unreadable_of_readRule
    hread.disjoint.distinct (hread.lhs_mem hproduction) herror
  rw [hread.known_eq, hread.nonterminalName_zero hfirst hstart] at hunreadable hleast
  refine ⟨⟨3, id, rank⟩, .body hfirst hstart htext hlegible.sides hunreadable,
    fun earlier other hearlier hfault => ?_⟩
  cases hfault with
  | reservedTerminal hmem => exact endMarker_not_mem_alphabet hread.endMarker_not_mem hmem
  | noProductions hnil => exact hread.productions_ne_nil hnil
  | heading htext' hmisread =>
      obtain ⟨_, _, _, hother⟩ := hread.legible htext'
      exact hother.not_misread _ _ hmisread
  | @body id' rank' _ _ text' lhs' _ rhs' _ hfirst' hstart' htext' hsides hother =>
      obtain rfl := Option.some.inj (hfirst.symm.trans hfirst')
      obtain ⟨rfl, -⟩ := hstart.unique hstart'
      obtain hlt | ⟨-, hlt | ⟨rfl, hlt⟩⟩ := hearlier
      · exact absurd hlt (Nat.lt_irrefl 3)
      · obtain ⟨production', hproduction', _, hlegible'⟩ := hread.legible htext'
        obtain ⟨rfl, rfl⟩ := hlegible'.sides.unique hsides
        obtain ⟨rule, hok⟩ := hbefore id' hlt _ (getElem?_zipIdx_iff.mpr ⟨hproduction', rfl⟩)
        have hreadable := hread.readable hproduction' hok hfirst hstart
        exact hreadable.not_unreadable (fun _ => Named.ne) hother
      · cases htext.symm.trans htext'
        obtain ⟨rfl, rfl⟩ := hlegible.sides.unique hsides
        exact hleast rank' hlt other hother

theorem represents (hread : Headed alphabet productions read)
    (hrules : readRules (vocabularyOf alphabet read) read = .ok rules)
    (hg : (ofRules (vocabularyOf alphabet read) rules).WellFormed) :
    (ofRules (vocabularyOf alphabet read) rules).Represents alphabet productions where
  alphabet_eq := rfl
  length_rules := by
    rw [← length_of_mapM_eq_ok hread.read_eq, ← read.length_zipIdx]
    exact length_of_mapM_eq_ok hrules
  reads {id text} htext := by
    obtain ⟨production, hproduction, rfl, hlegible⟩ := hread.legible htext
    obtain ⟨first, start, rest, hfirst, hstart⟩ := hread.first
    obtain ⟨_, hok⟩ := rule_at hrules hproduction
    have hname := Vocabulary.nonterminalName_idxOf (hread.lhs_mem hproduction)
    rw [← (Vocabulary.readRule_eq_ok hok).2.1] at hname
    exact ⟨Vocabulary.readRule_text hok, production.rhs, hname ▸ hlegible.sides,
      (hread.readable hproduction hok hfirst hstart).cut⟩
  rhs_ne_nil _ := hg.rhs_ne_nil
  symbol_mem _ := hg.symbol_mem
  owner id hid := by
    refine ⟨_, ⟨hg.lhs_lt hid, mem_rulesOf.mpr ⟨hid, rfl⟩⟩, ?_⟩
    rintro n ⟨_, hn⟩
    exact (mem_rulesOf.mp hn).2.symm
  rulesOf_lt n id hid := (mem_rulesOf.mp hid).1
  rulesOf_increasing n := List.pairwise_lt_range.filter _
  rulesOf_ne_nil _ := rulesOf_ne_nil_of_readRules hrules
  symbols_nodup := Vocabulary.symbols_nodup _
  symbol?_name _ := hread.disjoint.symbol?_name

end Headed

/-- A production that stops the first way through the list is the first that is misread. -/
theorem firstFault_of_read (hmarker : endMarkerName ∉ alphabetOf alphabet)
    (hproductions : productions ≠ []) {error : GrammarError}
    (h : productions.mapM (Production.read (alphabetOf alphabet)) = .error error) :
    ∃ place, FirstFault alphabet productions place error := by
  obtain ⟨id, text, htext, herror, hbefore⟩ := getElem?_of_mapM_eq_error h
  obtain ⟨rank, hmisread, hleast⟩ := Production.misread_of_read herror
  refine ⟨⟨2, id, rank⟩, .heading htext hmisread, fun earlier other hearlier hfault => ?_⟩
  cases hfault with
  | reservedTerminal hmem => exact endMarker_not_mem_alphabet hmarker hmem
  | noProductions hnil => exact hproductions hnil
  | @heading id' rank' text' _ htext' hmisread' =>
      obtain hlt | ⟨-, hlt | ⟨rfl, hlt⟩⟩ := hearlier
      · exact absurd hlt (Nat.lt_irrefl 2)
      · obtain ⟨production, hok⟩ := hbefore id' hlt text' htext'
        exact (Production.legible_of_read hok).2.not_misread _ _ hmisread'
      · obtain rfl := Option.some.inj (htext.symm.trans htext')
        exact hleast rank' hlt other hmisread'
  | body =>
      simp only [Place.Before] at hearlier
      omega

theorem firstFault_of_build {error : GrammarError}
    (h : build alphabet productions = .error error) :
    ∃ place, FirstFault alphabet productions place error := by
  have hbuilt := build_built alphabet productions
  rw [h] at hbuilt
  cases hbuilt with
  | reservedTerminal hmarker =>
      refine ⟨⟨0, 0, 0⟩, .reservedTerminal (mem_alphabetOf.mp hmarker).1, ?_⟩
      intro earlier other hearlier
      simp [Place.Before] at hearlier
  | noProductions hmarker hnil =>
      refine ⟨⟨1, 0, 0⟩, .noProductions hnil, fun earlier other hearlier hfault => ?_⟩
      cases hfault with
      | reservedTerminal hmem => exact endMarker_not_mem_alphabet hmarker hmem
      | _ =>
          simp only [Place.Before] at hearlier
          omega
  | heading hmarker hproductions hread => exact firstFault_of_read hmarker hproductions hread
  | body hread hrules => exact hread.firstFault hrules

theorem admissible_of_build {g : Grammar} (h : build alphabet productions = .ok g) :
    Admissible alphabet productions := by
  have hbuilt := build_built alphabet productions
  rw [h] at hbuilt
  cases hbuilt with
  | ok hread hrules => exact hread.admissible hrules

theorem represents_of_build {g : Grammar} (h : build alphabet productions = .ok g) :
    g.Represents alphabet productions := by
  have hg := build_wellFormed h
  have hbuilt := build_built alphabet productions
  rw [h] at hbuilt
  cases hbuilt with
  | ok hread hrules => exact hread.represents hrules hg

theorem build_disjoint {g : Grammar} (h : build alphabet productions = .ok g) :
    g.toVocabulary.Disjoint := by
  have hbuilt := build_built alphabet productions
  rw [h] at hbuilt
  cases hbuilt with
  | ok hread hrules => exact hread.disjoint

/-- Building accepts the admissible descriptions and no other, an error is the first thing that
is wrong with a description, and a grammar represents its description. -/
theorem build_exact (alphabet productions : List String) :
    ((∃ g, build alphabet productions = .ok g) ↔ Admissible alphabet productions) ∧
      (∀ error, build alphabet productions = .error error ↔
        ∃ place, FirstFault alphabet productions place error) ∧
      ∀ g, build alphabet productions = .ok g → g.Represents alphabet productions := by
  refine ⟨⟨?_, fun hadmissible => ?_⟩, fun error => ⟨firstFault_of_build, ?_⟩,
    fun g => represents_of_build⟩
  · rintro ⟨g, hbuild⟩
    exact admissible_of_build hbuild
  · cases hbuild : build alphabet productions with
    | ok g => exact ⟨g, rfl⟩
    | error error =>
        obtain ⟨place, hfault, _⟩ := firstFault_of_build hbuild
        exact absurd hfault hadmissible.not_fault
  · rintro ⟨place, hfirst⟩
    cases hbuild : build alphabet productions with
    | ok g => exact absurd hfirst.1 (admissible_of_build hbuild).not_fault
    | error other =>
        obtain ⟨place', hother⟩ := firstFault_of_build hbuild
        rw [hfirst.unique hother]

/-- A grammar whose terminals take several bytes. -/
def accented : Grammar :=
  .ofRules ⟨["é", "→←"], ["S", "P"]⟩
    [⟨0, [.nonterminal 1, .terminal .endMarker], "S -> P$"⟩,
     ⟨1, [.terminal (.token 0), .terminal (.token 1), .nonterminal 1], "P->é→←P"⟩,
     ⟨1, [.terminal (.token 0)], "P -> é"⟩]

theorem build_accented :
    build ["é", "→←"] ["S -> P$", "P->é→←P", "P -> é"] = .ok accented := by
  decide +kernel

/-- The second production is refused for its left-hand side before the first one is for its
right-hand side. -/
theorem build_exact_accented :
    (Admissible ["é", "→←"] ["S -> P$", "P->é→←P", "P -> é"] ∧
      accented.Represents ["é", "→←"] ["S -> P$", "P->é→←P", "P -> é"]) ∧
    ∃ place, FirstFault ["a"] ["S->b", "a->a"] place (.terminalAsNonterminal "a") := by
  have haccented := build_exact ["é", "→←"] ["S -> P$", "P->é→←P", "P -> é"]
  refine ⟨⟨haccented.1.mp ⟨_, build_accented⟩, haccented.2.2 _ build_accented⟩, ?_⟩
  exact ((build_exact ["a"] ["S->b", "a->a"]).2.1 _).mp (by decide +kernel)

end CanonicalLR.Grammar
