import CanonicalLR.Grammar.Build

namespace CanonicalLR

/-! What every built grammar satisfies.  The later stages read rules, symbols
and FIRST sets by position, and this is what makes the positions good. -/

section MapM

variable {α β γ ε : Type} {f : α → Except ε β}

theorem mapM_cons_eq_ok {a : α} {list : List α} {result : List β}
    (h : (a :: list).mapM f = .ok result) :
    ∃ b rest, f a = .ok b ∧ list.mapM f = .ok rest ∧ result = b :: rest := by
  rw [List.mapM_cons] at h
  cases hhead : f a with
  | error error =>
      rw [hhead] at h
      cases h
  | ok b =>
      cases htail : list.mapM f with
      | error error =>
          rw [hhead, htail] at h
          cases h
      | ok rest =>
          rw [hhead, htail] at h
          cases h
          exact ⟨b, rest, rfl, rfl, rfl⟩

/-- A walk that succeeds does so with any other reading that follows it step by step. -/
theorem mapM_eq_ok_map {h : α → Except ε γ} {k : β → γ} {list : List α} {result : List β}
    (hresult : list.mapM f = .ok result)
    (hstep : ∀ a ∈ list, ∀ b, f a = .ok b → h a = .ok (k b)) :
    list.mapM h = .ok (result.map k) := by
  induction list generalizing result with
  | nil =>
      cases hresult
      rfl
  | cons a list ih =>
      obtain ⟨b, rest, hhead, htail, rfl⟩ := mapM_cons_eq_ok hresult
      have hrest := ih htail fun c hc => hstep c (List.mem_cons_of_mem a hc)
      rw [List.mapM_cons, hstep a List.mem_cons_self b hhead, hrest]
      rfl

theorem length_of_mapM_eq_ok {list : List α} {result : List β}
    (h : list.mapM f = .ok result) : result.length = list.length := by
  induction list generalizing result with
  | nil =>
      cases h
      rfl
  | cons a list ih =>
      obtain ⟨b, rest, _, htail, rfl⟩ := mapM_cons_eq_ok h
      rw [List.length_cons, List.length_cons, ih htail]

theorem getElem?_of_mapM_eq_ok {list : List α} {result : List β}
    (h : list.mapM f = .ok result) {index : Nat} {b : β}
    (hb : result[index]? = some b) : ∃ a, list[index]? = some a ∧ f a = .ok b := by
  induction list generalizing result index with
  | nil =>
      cases h
      cases hb
  | cons a list ih =>
      obtain ⟨c, rest, hhead, htail, rfl⟩ := mapM_cons_eq_ok h
      cases index with
      | zero =>
          cases hb
          exact ⟨a, rfl, hhead⟩
      | succ index => exact ih htail hb

theorem getElem?_mapM_of_getElem? {list : List α} {result : List β}
    (h : list.mapM f = .ok result) {index : Nat} {a : α} (ha : list[index]? = some a) :
    ∃ b, result[index]? = some b ∧ f a = .ok b := by
  have hlt : index < result.length := by
    rw [length_of_mapM_eq_ok h]
    exact (List.getElem?_eq_some_iff.mp ha).1
  have hb := List.getElem?_eq_getElem hlt
  obtain ⟨_, ha', hok⟩ := getElem?_of_mapM_eq_ok h hb
  obtain rfl := Option.some.inj (ha.symm.trans ha')
  exact ⟨_, hb, hok⟩

/-- A walk that fails does so at the first element that fails. -/
theorem getElem?_of_mapM_eq_error {list : List α} {error : ε}
    (h : list.mapM f = .error error) :
    ∃ (index : Nat) (a : α), list[index]? = some a ∧ f a = .error error ∧
      ∀ earlier < index, ∀ b, list[earlier]? = some b → ∃ c, f b = .ok c := by
  induction list with
  | nil => cases h
  | cons head list ih =>
      rw [List.mapM_cons] at h
      cases hhead : f head with
      | error other =>
          rw [hhead] at h
          cases h
          exact ⟨0, head, rfl, hhead, fun earlier hlt => absurd hlt (Nat.not_lt_zero earlier)⟩
      | ok b =>
          rw [hhead] at h
          cases htail : list.mapM f with
          | ok rest =>
              rw [htail] at h
              cases h
          | error other =>
              rw [htail] at h
              cases h
              obtain ⟨index, a, ha, herror, hbefore⟩ := ih htail
              refine ⟨index + 1, a, ha, herror, fun earlier hlt c hc => ?_⟩
              cases earlier with
              | zero =>
                  cases hc
                  exact ⟨b, hhead⟩
              | succ earlier => exact hbefore earlier (Nat.lt_of_succ_lt_succ hlt) c hc

end MapM

/-! Segmentation only finds symbols of the vocabulary. -/

namespace Vocabulary

theorem foldl_longer_mem {v : Vocabulary} {symbols : List Symbol}
    {best : Option Symbol} {symbol : Symbol}
    (h : symbols.foldl v.longer best = some symbol) :
    symbol ∈ symbols ∨ best = some symbol := by
  induction symbols generalizing best with
  | nil => exact .inr h
  | cons head symbols ih =>
      rcases ih h with hmem | hbest
      · exact .inl (List.mem_cons_of_mem head hmem)
      · unfold longer at hbest
        split at hbest
        · cases hbest
          exact .inl List.mem_cons_self
        · split at hbest
          · cases hbest
            exact .inl List.mem_cons_self
          · exact .inr hbest

theorem longestMatch_mem {v : Vocabulary} {text : List Char} {symbol : Symbol}
    (h : v.longestMatch text = some symbol) : symbol ∈ v.symbols := by
  rcases foldl_longer_mem h with hmem | hnone
  · exact (List.mem_filter.mp hmem).1
  · cases hnone

theorem segmentFrom_cons_eq_ok {v : Vocabulary} {offset : Nat} {c : Char}
    {text : List Char} {symbols : List Symbol}
    (h : v.segmentFrom offset 0 (c :: text) = .ok symbols) :
    ∃ first rest, v.longestMatch (c :: text) = some first ∧
      v.segmentFrom (offset + c.utf8Size) ((v.name first).length - 1) text = .ok rest ∧
      symbols = first :: rest := by
  unfold segmentFrom at h
  dsimp only at h
  split at h
  · cases h
  next first hmatch =>
    cases hrest : v.segmentFrom (offset + c.utf8Size) ((v.name first).length - 1) text with
    | error error =>
        rw [hrest] at h
        cases h
    | ok rest =>
        rw [hrest] at h
        cases h
        exact ⟨first, rest, hmatch, hrest, rfl⟩

theorem segmentFrom_mem {v : Vocabulary} {offset covered : Nat} {text : List Char}
    {symbols : List Symbol} (h : v.segmentFrom offset covered text = .ok symbols) :
    ∀ symbol ∈ symbols, symbol ∈ v.symbols := by
  induction text generalizing offset covered symbols with
  | nil =>
      cases h
      simp
  | cons c text ih =>
      cases covered with
      | succ covered => exact ih h
      | zero =>
          obtain ⟨first, rest, hmatch, hrest, rfl⟩ := segmentFrom_cons_eq_ok h
          intro symbol hsymbol
          rcases List.mem_cons.mp hsymbol with rfl | hsymbol
          · exact longestMatch_mem hmatch
          · exact ih hrest symbol hsymbol

theorem segment_ne_nil {v : Vocabulary} {text : List Char} {symbols : List Symbol}
    (htext : text ≠ []) (h : v.segment text = .ok symbols) : symbols ≠ [] := by
  obtain ⟨c, text, rfl⟩ := List.exists_cons_of_ne_nil htext
  obtain ⟨first, rest, _, _, rfl⟩ := segmentFrom_cons_eq_ok h
  exact List.cons_ne_nil first rest

end Vocabulary

namespace Production

theorem split_rhs_ne_nil {text : String} {production : Production}
    (h : split text = .ok production) : production.rhs ≠ [] := by
  unfold split at h
  split at h
  · cases h
  · dsimp only at h
    split at h
    · cases h
    · split at h
      · cases h
      next hrhs =>
        cases h
        exact hrhs

theorem read_rhs_ne_nil {alphabet : List String} {text : String}
    {production : Production} (h : read alphabet text = .ok production) :
    production.rhs ≠ [] := by
  unfold read at h
  split at h
  · cases h
  next found hsplit =>
    split at h
    · cases h
    · split at h
      · cases h
      · cases h
        exact split_rhs_ne_nil hsplit

end Production

/-- What a rule owes to the checks made when it was read. -/
structure Vocabulary.ReadRule (v : Vocabulary) (id : Nat) (rule : Rule) : Prop where
  symbol_mem : ∀ symbol ∈ rule.rhs, symbol ∈ v.symbols
  endMarker_not_mem : .terminal .endMarker ∉ unmarkedPart id rule.rhs
  lhs_ne_zero : id ≠ 0 → rule.lhs ≠ 0

theorem Vocabulary.readRule_eq_ok {v : Vocabulary} {id : Nat} {production : Production}
    {rule : Rule} (h : v.readRule id production = .ok rule) :
    v.segment production.rhs = .ok rule.rhs ∧
      rule.lhs = v.nonterminals.idxOf production.lhs ∧ v.ReadRule id rule := by
  unfold readRule at h
  split at h
  · cases h
  next rhs hsegment =>
    dsimp only at h
    split at h
    · cases h
    next hmarker =>
      split at h
      · cases h
      next hstart =>
        cases h
        exact ⟨hsegment, rfl, segmentFrom_mem hsegment, hmarker,
          fun hid hlhs => hstart ⟨hid, hlhs⟩⟩

namespace Grammar

def start (g : Grammar) : Nat := (g.rule 0).lhs

structure WellFormed (g : Grammar) : Prop where
  rules_pos : 0 < g.rules.length
  rhs_ne_nil : ∀ {id}, id < g.rules.length → (g.rule id).rhs ≠ []
  symbol_mem : ∀ {id}, id < g.rules.length →
    ∀ symbol ∈ (g.rule id).rhs, symbol ∈ g.symbols
  lhs_lt : ∀ {id}, id < g.rules.length → (g.rule id).lhs < g.nonterminals.length
  lhs_ne_start : ∀ {id}, id < g.rules.length → id ≠ 0 → (g.rule id).lhs ≠ g.start
  endMarker_not_mem : ∀ {id}, id < g.rules.length →
    .terminal .endMarker ∉ unmarkedPart id (g.rule id).rhs
  firstSets_eq : g.firstSets = (First.fixpoint g.toVocabulary g.rules).sets

theorem getElem?_rules {g : Grammar} {id : Nat} (hid : id < g.rules.length) :
    g.rules[id]? = some (g.rule id) := by
  rw [rule, List.getD_eq_getElem?_getD, List.getElem?_eq_getElem hid]
  rfl

def vocabularyOf (alphabet : List String) (read : List Production) : Vocabulary where
  alphabet := alphabetOf alphabet
  nonterminals := (read.map Production.lhs).eraseDups

/-- The rules of productions that were read, each with the number of its production. -/
def readRules (v : Vocabulary) (read : List Production) : Except GrammarError (List Rule) :=
  read.zipIdx.mapM fun (production, id) => v.readRule id production

/-- The sides of all productions have passed their checks. -/
structure Headed (alphabet productions : List String) (read : List Production) : Prop where
  endMarker_not_mem : endMarkerName ∉ alphabetOf alphabet
  productions_ne_nil : productions ≠ []
  read_eq : productions.mapM (Production.read (alphabetOf alphabet)) = .ok read

/-- The ways in which building can end, each with what went well before. -/
inductive Built (alphabet productions : List String) : Except GrammarError Grammar → Prop
  | reservedTerminal (h : endMarkerName ∈ alphabetOf alphabet) :
      Built alphabet productions (.error .reservedTerminal)
  | noProductions (hmarker : endMarkerName ∉ alphabetOf alphabet) (h : productions = []) :
      Built alphabet productions (.error .noProductions)
  | heading (hmarker : endMarkerName ∉ alphabetOf alphabet) (hproductions : productions ≠ [])
      {error : GrammarError}
      (h : productions.mapM (Production.read (alphabetOf alphabet)) = .error error) :
      Built alphabet productions (.error error)
  | body {read : List Production} {error : GrammarError}
      (hread : Headed alphabet productions read)
      (h : readRules (vocabularyOf alphabet read) read = .error error) :
      Built alphabet productions (.error error)
  | ok {read : List Production} {rules : List Rule} (hread : Headed alphabet productions read)
      (hrules : readRules (vocabularyOf alphabet read) read = .ok rules) :
      Built alphabet productions (.ok (ofRules (vocabularyOf alphabet read) rules))

theorem build_built (alphabet productions : List String) :
    Built alphabet productions (build alphabet productions) := by
  unfold build
  dsimp only
  split
  next hmarker => exact .reservedTerminal hmarker
  next hmarker =>
    split
    next hnil => exact .noProductions hmarker hnil
    next hproductions =>
      cases hread : productions.mapM (Production.read (alphabetOf alphabet)) with
      | error error => exact .heading hmarker hproductions hread
      | ok read =>
          have hheaded : Headed alphabet productions read := ⟨hmarker, hproductions, hread⟩
          change Built alphabet productions (do
            let rules ← readRules (vocabularyOf alphabet read) read
            return ofRules (vocabularyOf alphabet read) rules)
          cases hrules : readRules (vocabularyOf alphabet read) read with
          | error error => exact .body hheaded hrules
          | ok rules => exact .ok hheaded hrules

theorem Headed.build_eq_ok {alphabet productions : List String} {read : List Production}
    {rules : List Rule} (hread : Headed alphabet productions read)
    (hrules : readRules (vocabularyOf alphabet read) read = .ok rules) :
    build alphabet productions = .ok (ofRules (vocabularyOf alphabet read) rules) := by
  have hbuilt := build_built alphabet productions
  generalize build alphabet productions = result at hbuilt ⊢
  have hsame : ∀ {other}, Headed alphabet productions other → other = read := by
    intro other hother
    exact Except.ok.inj (hother.read_eq.symm.trans hread.read_eq)
  cases hbuilt with
  | reservedTerminal h => exact absurd h hread.endMarker_not_mem
  | noProductions _ h => exact absurd h hread.productions_ne_nil
  | heading _ _ h =>
      rw [hread.read_eq] at h
      cases h
  | body hother h =>
      rw [hsame hother, hrules] at h
      cases h
  | ok hother h =>
      rw [hsame hother, hrules] at h
      cases h
      rw [hsame hother]

theorem build_eq_ok {alphabet productions : List String} {g : Grammar}
    (h : build alphabet productions = .ok g) :
    productions ≠ [] ∧ ∃ read,
      productions.mapM (Production.read (alphabetOf alphabet)) = .ok read ∧
      g.nonterminals = (read.map Production.lhs).eraseDups ∧
      read.zipIdx.mapM (fun (production, id) =>
        g.toVocabulary.readRule id production) = .ok g.rules ∧
      g.firstSets = (First.fixpoint g.toVocabulary g.rules).sets := by
  have hbuilt := build_built alphabet productions
  rw [h] at hbuilt
  cases hbuilt with
  | ok hread hrules =>
      exact ⟨hread.productions_ne_nil, _, hread.read_eq, rfl, hrules, rfl⟩

theorem build_rule {alphabet productions : List String} {g : Grammar}
    (h : build alphabet productions = .ok g) {id : Nat} (hid : id < g.rules.length) :
    (g.rule id).rhs ≠ [] ∧ g.toVocabulary.ReadRule id (g.rule id) ∧
      (g.rule id).lhs < g.nonterminals.length ∧ (id = 0 → (g.rule id).lhs = 0) := by
  obtain ⟨_, read, hread, hnonterminals, hrules, _⟩ := build_eq_ok h
  obtain ⟨⟨production, position⟩, hzip, hok⟩ :=
    getElem?_of_mapM_eq_ok hrules (getElem?_rules hid)
  rw [List.getElem?_zipIdx] at hzip
  obtain ⟨found, hfound, hpair⟩ := Option.map_eq_some_iff.mp hzip
  obtain ⟨rfl, rfl⟩ := Prod.mk.inj hpair
  rw [Nat.zero_add] at hok
  obtain ⟨hsegment, hlhs, hruleRead⟩ := Vocabulary.readRule_eq_ok hok
  obtain ⟨text, _, htext⟩ := getElem?_of_mapM_eq_ok hread hfound
  refine ⟨Vocabulary.segment_ne_nil (Production.read_rhs_ne_nil htext) hsegment,
    hruleRead, ?_, ?_⟩
  · rw [hlhs]
    refine List.idxOf_lt_length_iff.mpr ?_
    rw [hnonterminals]
    exact List.mem_eraseDups.mpr (List.mem_map_of_mem (List.mem_of_getElem? hfound))
  · rintro rfl
    obtain ⟨rest, rfl⟩ : ∃ rest, read = found :: rest := by
      cases read with
      | nil => cases hfound
      | cons first rest =>
          cases hfound
          exact ⟨rest, rfl⟩
    rw [hlhs, hnonterminals, List.map_cons, List.eraseDups_cons, List.idxOf_cons_self]

theorem build_wellFormed {alphabet productions : List String} {g : Grammar}
    (h : build alphabet productions = .ok g) : g.WellFormed := by
  obtain ⟨hproductions, read, hread, _, hrules, hfirst⟩ := build_eq_ok h
  have hpos : 0 < g.rules.length := by
    rw [length_of_mapM_eq_ok hrules, List.length_zipIdx, length_of_mapM_eq_ok hread]
    exact List.length_pos_iff.mpr hproductions
  have hstart : g.start = 0 := (build_rule h hpos).2.2.2 rfl
  constructor
  case rules_pos => exact hpos
  case rhs_ne_nil => exact fun hid => (build_rule h hid).1
  case symbol_mem => exact fun hid => (build_rule h hid).2.1.symbol_mem
  case lhs_lt => exact fun hid => (build_rule h hid).2.2.1
  case lhs_ne_start =>
    intro id hid hne
    rw [hstart]
    exact (build_rule h hid).2.1.lhs_ne_zero hne
  case endMarker_not_mem => exact fun hid => (build_rule h hid).2.1.endMarker_not_mem
  case firstSets_eq => exact hfirst

end Grammar
end CanonicalLR
