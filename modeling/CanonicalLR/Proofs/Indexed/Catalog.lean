import CanonicalLR.Proofs.Grammar.Vocabulary
import CanonicalLR.Proofs.Grammar.First
import CanonicalLR.Proofs.Indexed.Vector

namespace CanonicalLR

open Indexed

/-! A grammar as the later stages read it: names, rules, FIRST sets and the rules of a
nonterminal are vectors, and each is read at a place that has to be there. -/

namespace Vocabulary

def terminalName? (v : Vocabulary) : Terminal → Option String
  | .token index => v.alphabet[index]?
  | .endMarker => some endMarkerName

def nonterminalName? (v : Vocabulary) (n : Nat) : Option String :=
  v.nonterminals[n]?

def name? (v : Vocabulary) : Symbol → Option String
  | .terminal t => v.terminalName? t
  | .nonterminal n => v.nonterminalName? n

def setText? (v : Vocabulary) (set : TerminalSet) : Option String :=
  (set.toList.mapM v.terminalName?).map fun names =>
    "\x7b" ++ ", ".intercalate names ++ "\x7d"

variable {v : Vocabulary}

theorem name?_eq {symbol : Symbol} (h : symbol ∈ v.symbols) :
    v.name? symbol = some (v.name symbol) := by
  cases symbol with
  | nonterminal n => exact nonterminals_getElem? h
  | terminal t =>
      cases t with
      | token index => exact alphabet_getElem? h
      | endMarker => rfl

theorem terminalName?_eq {t : Terminal} (h : t ∈ v.terminals) :
    v.terminalName? t = some (v.terminalName t) :=
  name?_eq (terminal_mem_symbols.mpr h)

theorem nonterminalName?_eq {n : Nat} (h : n < v.nonterminals.length) :
    v.nonterminalName? n = some (v.nonterminalName n) :=
  name?_eq (nonterminal_mem_symbols.mpr h)

theorem setText?_eq {set : TerminalSet} (h : ∀ t ∈ set, t ∈ v.terminals) :
    v.setText? set = some (v.setText set) := by
  rw [setText?, mapM_eq_some fun t ht => terminalName?_eq (h t ht)]
  rfl

end Vocabulary

structure Catalog extends Grammar where
  /-- Numbers of the rules of each nonterminal, in increasing order. -/
  rulesByLhs : List (List Nat)

namespace Catalog

def rule? (c : Catalog) (id : Nat) : Option Rule :=
  c.rules[id]?

def first? (c : Catalog) (n : Nat) : Option TerminalSet :=
  c.firstSets[n]?

def firstOfSymbol? (c : Catalog) : Symbol → Option TerminalSet
  | .terminal t => some (.singleton t)
  | .nonterminal n => c.first? n

def rulesOf? (c : Catalog) (n : Nat) : Option (List Nat) :=
  c.rulesByLhs[n]?

end Catalog

namespace Grammar

/-- The catalog in which a grammar is kept. -/
def catalog (g : Grammar) : Catalog :=
  { g with rulesByLhs := vector g.nonterminals.length g.rulesOf }

variable {g : Grammar}

@[simp] theorem toGrammar_catalog (g : Grammar) : g.catalog.toGrammar = g := rfl

theorem rule?_catalog {id : Nat} (hid : id < g.rules.length) :
    g.catalog.rule? id = some (g.rule id) :=
  getElem?_rules hid

theorem rulesOf?_catalog {n : Nat} (hn : n < g.nonterminals.length) :
    g.catalog.rulesOf? n = some (g.rulesOf n) :=
  getElem?_vector hn g.rulesOf

theorem first?_catalog (hg : g.WellFormed) {n : Nat} (hn : n < g.nonterminals.length) :
    g.catalog.first? n = some (g.first n) := by
  have hlength : n < g.firstSets.length := by
    rw [hg.firstSets_eq, (First.fixpoint_sound hg).length_sets]
    exact hn
  rw [first, List.getD_eq_getElem?_getD, List.getElem?_eq_getElem hlength]
  exact List.getElem?_eq_getElem hlength

theorem firstOfSymbol?_catalog (hg : g.WellFormed) {symbol : Symbol}
    (hsymbol : symbol ∈ g.symbols) :
    g.catalog.firstOfSymbol? symbol = some (g.firstOfSymbol symbol) := by
  cases symbol with
  | terminal t => rfl
  | nonterminal n => exact first?_catalog hg (Vocabulary.nonterminal_mem_symbols.mp hsymbol)

theorem rules_eq_map_rule (g : Grammar) :
    g.rules = (List.range g.rules.length).map g.rule := by
  refine List.ext_getElem? fun id => ?_
  by_cases hid : id < g.rules.length
  · rw [getElem?_rules hid]
    simp [hid]
  · rw [List.getElem?_eq_none (Nat.le_of_not_lt hid)]
    simp [hid]

/-- The rules of a nonterminal, by their numbers. -/
theorem map_rule_rulesOf (g : Grammar) (n : Nat) :
    (g.rulesOf n).map g.rule = g.rules.filter fun rule => rule.lhs = n := by
  conv_rhs => rw [rules_eq_map_rule, List.filter_map]
  rfl

theorem zipIdx_rules (g : Grammar) :
    g.rules.zipIdx = (List.range g.rules.length).map fun id => (g.rule id, id) := by
  refine List.ext_getElem? fun id => ?_
  rw [List.getElem?_zipIdx, List.getElem?_map]
  by_cases hid : id < g.rules.length
  · rw [getElem?_rules hid, List.getElem?_range hid, Nat.zero_add]
    rfl
  · rw [List.getElem?_eq_none (Nat.le_of_not_lt hid), List.getElem?_eq_none]
    · rfl
    · rw [List.length_range]
      exact Nat.le_of_not_lt hid

end Grammar

namespace Catalog

/-- Puts the number of each rule behind those of its nonterminal. -/
def rulesByLhs? (nonterminals : Nat) (rules : List Rule) : Option (List (List Nat)) :=
  rules.zipIdx.foldlM (fun groups (rule, id) => update? groups rule.lhs (· ++ [id]))
    (List.replicate nonterminals [])

/-- The numbers of the rules of a nonterminal among some of the rules. -/
def numbersOf (rules : List (Rule × Nat)) (n : Nat) : List Nat :=
  (rules.filter fun (rule, _) => rule.lhs = n).map Prod.snd

theorem numbersOf_concat (rules : List (Rule × Nat)) (rule : Rule) (id n : Nat) :
    numbersOf (rules ++ [(rule, id)]) n =
      if n = rule.lhs then numbersOf rules n ++ [id] else numbersOf rules n := by
  unfold numbersOf
  rw [List.filter_append, List.map_append]
  split
  next heq => simp [heq]
  next hne => simp [Ne.symm hne]

theorem numbersOf_rules (g : Grammar) (n : Nat) :
    numbersOf g.rules.zipIdx n = g.rulesOf n := by
  rw [numbersOf, Grammar.zipIdx_rules, List.filter_map, List.map_map]
  exact List.map_id _

theorem rulesByLhs?_eq {g : Grammar} (hg : g.WellFormed) :
    rulesByLhs? g.nonterminals.length g.rules = some g.catalog.rulesByLhs := by
  have hcatalog : g.catalog.rulesByLhs =
      vector g.nonterminals.length (numbersOf g.rules.zipIdx) :=
    vector_congr fun n _ => (numbersOf_rules g n).symm
  rw [rulesByLhs?, replicate_eq_vector, hcatalog]
  refine foldlM_eq_state (fun done => vector g.nonterminals.length (numbersOf done)) ?_
  rintro done ⟨rule, id⟩ rest hlist
  have hmem : (rule, id) ∈ g.rules.zipIdx := by
    rw [hlist]
    exact List.mem_append_right done List.mem_cons_self
  rw [Grammar.zipIdx_rules] at hmem
  obtain ⟨number, hnumber, hpair⟩ := List.mem_map.mp hmem
  cases hpair
  dsimp only
  rw [update?_vector (hg.lhs_lt (List.mem_range.mp hnumber))]
  refine congrArg some (vector_congr fun n _ => ?_)
  rw [numbersOf_concat, Function.update_apply]
  split
  next heq => rw [heq]
  next => rfl

end Catalog
end CanonicalLR
