import CanonicalLR.Proofs.Grammar.Building
import CanonicalLR.Proofs.Indexed.First
import CanonicalLR.Proofs.Indexed.Slice

namespace CanonicalLR.Indexed

/-! Building a grammar with its texts cut at byte positions and its rules and FIRST sets kept
in vectors.  Every cut falls between two characters and every place is there, so the grammar
is the same. -/

/-- The position of the first arrow. -/
def arrow? : List Char → Option Nat
  | [] => none
  | '-' :: '>' :: _ => some 0
  | c :: text => (arrow? text).map (c.utf8Size + ·)

def split? (text : String) : Option (Except GrammarError Production) :=
  match arrow? text.toList with
  | none => some (.error (.missingSeparator text))
  | some position => do
      let before ← Text.sliceTo? position text.toList
      let after ← Text.sliceFrom? (position + 2) text.toList
      let lhs := Text.trim before
      let rhs := Text.trim after
      if lhs = [] then return .error (.emptyLhs text)
      else if rhs = [] then return .error (.emptyRhs text)
      else return .ok ⟨text, String.ofList lhs, rhs⟩

def read? (alphabet : List String) (text : String) : Option (Except GrammarError Production) := do
  match ← split? text with
  | .error error => return .error error
  | .ok production =>
      if production.lhs = endMarkerName then return .error (.reservedNonterminal text)
      else if production.lhs ∈ alphabet then
        return .error (.terminalAsNonterminal production.lhs)
      else return .ok production

/-- Segments the part of a text behind an offset.  A walk that does not come to an end within
its budget has no result. -/
def segmentFrom? (v : Vocabulary) (text : List Char) :
    Nat → Nat → Option (Except Nat (List Symbol))
  | 0, _ => none
  | budget + 1, offset =>
      if offset < Text.byteLength text then do
        let rest ← Text.sliceFrom? offset text
        match v.longestMatch rest with
        | none => return .error offset
        | some symbol => do
            let result ← segmentFrom? v text budget
              (offset + Text.byteLength (v.name symbol).toList)
            return result.map (symbol :: ·)
      else some (.ok [])

def segment? (v : Vocabulary) (text : List Char) : Option (Except Nat (List Symbol)) :=
  segmentFrom? v text (text.length + 1) 0

def readRule? (v : Vocabulary) (id : Nat) (production : Production) :
    Option (Except GrammarError Rule) := do
  match ← segment? v production.rhs with
  | .error offset => return .error (.unknownSymbol production.text offset)
  | .ok rhs =>
      let lhs := v.nonterminals.idxOf production.lhs
      if .terminal .endMarker ∈ unmarkedPart id rhs then
        return .error (.misplacedEndMarker production.text)
      else if id ≠ 0 ∧ lhs = 0 then do
        let start ← v.nonterminalName? 0
        return .error (.duplicateStartRule start id)
      else return .ok ⟨lhs, rhs, production.text⟩

def readRules? (v : Vocabulary) (read : List Production) :
    Option (Except GrammarError (List Rule)) :=
  mapExcept? (fun (production, id) => readRule? v id production) read.zipIdx

def build? (alphabet productions : List String) : Option (Except GrammarError Catalog) := do
  let names := Grammar.alphabetOf alphabet
  if endMarkerName ∈ names then return .error .reservedTerminal
  else if productions = [] then return .error .noProductions
  else
    match ← mapExcept? (read? names) productions with
    | .error error => return .error error
    | .ok read => do
        let v := Grammar.vocabularyOf alphabet read
        match ← readRules? v read with
        | .error error => return .error error
        | .ok rules => do
            let rulesByLhs ← Catalog.rulesByLhs? v.nonterminals.length rules
            let firstSets ← firstSets? v rules rulesByLhs
            return .ok ⟨⟨v, rules, firstSets⟩, rulesByLhs⟩

/-! The productions are read the same way. -/

theorem arrow?_eq (text : List Char) :
    arrow? text = (Production.cutAtArrow text).map fun (before, _) => Text.byteLength before := by
  induction text using Production.cutAtArrow.induct with
  | case1 => rfl
  | case2 text => rfl
  | case3 c text hno ih =>
      rw [Production.cutAtArrow_cons hno, arrow?, ih, Option.map_map, Option.map_map]
      · rfl
      · exact hno

theorem split?_eq (text : String) : split? text = some (Production.split text) := by
  unfold split? Production.split
  rw [arrow?_eq]
  cases hcut : Production.cutAtArrow text.toList with
  | none => rfl
  | some parts =>
      obtain ⟨before, after⟩ := parts
      have htext := (Production.arrow_of_cutAtArrow hcut).text_eq
      have hbefore : Text.sliceTo? (Text.byteLength before) text.toList = some before := by
        rw [htext, Text.sliceTo?_append]
      have hafter : Text.sliceFrom? (Text.byteLength before + 2) text.toList = some after := by
        refine Text.sliceFrom?_eq_some_iff.mpr ⟨before ++ ['-', '>'], ?_, ?_⟩
        · rw [htext, List.append_assoc]
          rfl
        · rw [Text.byteLength_append]
          rfl
      simp only [Option.map_some, hbefore, hafter, Option.bind_eq_bind, Option.bind_some]
      split
      · rfl
      · split <;> rfl

theorem read?_eq (alphabet : List String) (text : String) :
    read? alphabet text = some (Production.read alphabet text) := by
  unfold read? Production.read
  rw [split?_eq]
  cases Production.split text with
  | error error => rfl
  | ok production =>
      simp only [Option.bind_eq_bind, Option.bind_some]
      split
      · rfl
      · split <;> rfl

theorem segmentFrom?_eq {v : Vocabulary} (hv : v.Distinct) {budget : Nat}
    {front rest : List Char} (hbudget : rest.length < budget) :
    segmentFrom? v (front ++ rest) budget (Text.byteLength front) =
      some (v.segmentFrom (Text.byteLength front) 0 rest) := by
  induction budget generalizing front rest with
  | zero => exact absurd hbudget (Nat.not_lt_zero _)
  | succ budget ih =>
      rw [segmentFrom?, Text.byteLength_append, Text.sliceFrom?_append]
      cases rest with
      | nil => simp
      | cons c text =>
          have hpos := c.utf8Size_pos
          rw [if_pos (by rw [Text.byteLength_cons]; omega), Option.bind_eq_bind,
            Option.bind_some]
          cases hmatch : v.longestMatch (c :: text) with
          | none =>
              rw [Vocabulary.segmentFrom_eq_error hmatch]
              rfl
          | some symbol =>
              obtain ⟨hsymbol, hlongest⟩ := Vocabulary.longest_of_longestMatch hmatch
              obtain ⟨rest, hrest⟩ := hlongest.begins
              have hne := hv.name_ne symbol hsymbol
              have hshort := length_lt_of_append hne hrest
              rw [← hrest] at hmatch hshort hbudget ⊢
              dsimp only
              rw [Vocabulary.segmentFrom_append _ hne hmatch, ← Text.byteLength_append,
                ← List.append_assoc, ih (by omega)]
              rfl

theorem segment?_eq {v : Vocabulary} (hv : v.Distinct) (text : List Char) :
    segment? v text = some (v.segment text) := by
  have hwhole : segmentFrom? v ([] ++ text) (text.length + 1) (Text.byteLength []) = some _ :=
    segmentFrom?_eq hv (Nat.lt_succ_self _)
  exact hwhole

theorem readRule?_eq {v : Vocabulary} (hv : v.Distinct) {id : Nat} {production : Production}
    (hlhs : production.lhs ∈ v.nonterminals) :
    readRule? v id production = some (v.readRule id production) := by
  unfold readRule? Vocabulary.readRule
  rw [segment?_eq hv]
  cases v.segment production.rhs with
  | error offset => rfl
  | ok rhs =>
      simp only [Option.bind_eq_bind, Option.bind_some]
      split
      · rfl
      · split
        · rw [Vocabulary.nonterminalName?_eq (List.length_pos_of_mem hlhs)]
          rfl
        · rfl

theorem readRules?_eq {alphabet productions : List String} {read : List Production}
    (hread : Grammar.Headed alphabet productions read) :
    readRules? (Grammar.vocabularyOf alphabet read) read =
      some (Grammar.readRules (Grammar.vocabularyOf alphabet read) read) := by
  refine mapExcept?_eq_some ?_
  rintro ⟨production, id⟩ hmem
  obtain ⟨place, hplace⟩ := List.mem_iff_getElem?.mp hmem
  obtain ⟨hproduction, rfl⟩ := Grammar.getElem?_zipIdx_iff.mp hplace
  exact readRule?_eq hread.disjoint.distinct (hread.lhs_mem hproduction)

/-- Whatever the description, building it reads and writes only places that are there. -/
theorem build?_eq (alphabet productions : List String) :
    build? alphabet productions =
      some ((Grammar.build alphabet productions).map Grammar.catalog) := by
  have hread? : ∀ names : List String,
      mapExcept? (read? names) productions =
        some (productions.mapM (Production.read names)) :=
    fun names => mapExcept?_eq_some fun text _ => read?_eq names text
  have hbuilt := Grammar.build_built alphabet productions
  unfold build?
  dsimp only
  rw [hread?]
  generalize hresult : Grammar.build alphabet productions = result at hbuilt
  cases hbuilt with
  | reservedTerminal hmarker =>
      rw [if_pos hmarker]
      rfl
  | noProductions hmarker hnil =>
      rw [if_neg hmarker, if_pos hnil]
      rfl
  | heading hmarker hproductions h =>
      rw [if_neg hmarker, if_neg hproductions, h]
      rfl
  | body hread h =>
      rw [if_neg hread.endMarker_not_mem, if_neg hread.productions_ne_nil, hread.read_eq]
      simp only [Option.bind_eq_bind, Option.bind_some, readRules?_eq hread, h]
      rfl
  | @ok read rules hread hrules =>
      have hg := Grammar.build_wellFormed hresult
      have hnumbers : Catalog.rulesByLhs?
          (Grammar.vocabularyOf alphabet read).nonterminals.length rules = some _ :=
        Catalog.rulesByLhs?_eq hg
      have hsets : firstSets? (Grammar.vocabularyOf alphabet read) rules _ = some _ :=
        firstSets?_eq hg
      rw [if_neg hread.endMarker_not_mem, if_neg hread.productions_ne_nil, hread.read_eq]
      simp only [Option.bind_eq_bind, Option.bind_some, readRules?_eq hread, hrules,
        hnumbers, hsets]
      rfl

end CanonicalLR.Indexed
