import CanonicalLR.Proofs.Indexed.Catalog
import CanonicalLR.Proofs.Item.Proper

namespace CanonicalLR

open Indexed

/-! Items read their rules from a catalog.  The items of a closure stand in a vector that grows
while an index walks through it. -/

namespace Item

/-- The symbol at a position of the right-hand side, if the rule reaches so far. -/
def symbolAt? (c : Catalog) (item : Item) (position : Nat) : Option (Option Symbol) :=
  (c.rule? item.rule).map fun rule => rule.rhs[position]?

def atEnd? (c : Catalog) (item : Item) : Option Bool :=
  (c.rule? item.rule).map fun rule => decide (rule.rhs.length ≤ item.dot)

def expansions? (c : Catalog) (item : Item) : Option (List Item) := do
  match ← item.symbolAt? c item.dot with
  | some (.nonterminal n) => do
      let lookahead ←
        match ← item.symbolAt? c (item.dot + 1) with
        | some symbol => c.firstOfSymbol? symbol
        | none => some item.lookahead
      let rules ← c.rulesOf? n
      return rules.map fun rule => start rule lookahead
  | _ => return []

/-- The item with the dot moved over a symbol, if the dot stands in front of it. -/
def move? (c : Catalog) (symbol : Symbol) (item : Item) : Option (Option Item) := do
  let next ← item.symbolAt? c item.dot
  return if next = some symbol then some item.advance else none

def ruleText? (c : Catalog) (item : Item) : Option String := do
  let rule ← c.rule? item.rule
  let lhs ← c.nonterminalName? rule.lhs
  let names ← rule.rhs.mapM c.name?
  return lhs ++ "->" ++ dotted names item.dot

def text? (c : Catalog) (item : Item) : Option String := do
  let rule ← item.ruleText? c
  let lookahead ← c.setText? item.lookahead
  return rule ++ "    " ++ lookahead

end Item

namespace Closure

def addNew (items : List Item) (new : Item) : List Item :=
  if items.contains new then items else items ++ [new]

/-- Expands the items from an index on, until there is none left. -/
def runFrom? (c : Catalog) : Nat → Nat → List Item → Option (List Item)
  | 0, index, items => if index < items.length then none else some items
  | budget + 1, index, items =>
      if index < items.length then do
        let item ← items[index]?
        let new ← item.expansions? c
        runFrom? c budget (index + 1) (new.foldl addNew items)
      else some items

end Closure

def closure? (c : Catalog) (kernel : List Item) : Option (List Item) :=
  Closure.runFrom? c (Closure.bound c.toGrammar kernel) 0 kernel.eraseDups

def successors? (c : Catalog) (items : List Item) (symbol : Symbol) : Option (List Item) := do
  let moved ← items.mapM (·.move? c symbol)
  return moved.filterMap id

def goto? (c : Catalog) (items : List Item) (symbol : Symbol) : Option (Option (List Item)) := do
  match ← successors? c items symbol with
  | [] => return none
  | kernel => do
      let closed ← closure? c kernel
      return some closed

def State.ofItems? (c : Catalog) (items : List Item) : Option State := do
  let ends ← items.mapM (·.atEnd? c)
  return ⟨items, ends.any id⟩

variable {g : Grammar} {item : Item}

namespace Item

theorem symbolAt?_eq (hrule : item.rule < g.rules.length) (position : Nat) :
    item.symbolAt? g.catalog position = some (item.rhs g)[position]? := by
  rw [symbolAt?, Grammar.rule?_catalog hrule]
  rfl

theorem move?_eq (hrule : item.rule < g.rules.length) (symbol : Symbol) :
    item.move? g.catalog symbol =
      some (if item.next? g = some symbol then some item.advance else none) := by
  rw [move?, symbolAt?_eq hrule]
  rfl

theorem atEnd?_eq (hrule : item.rule < g.rules.length) :
    item.atEnd? g.catalog = some (item.atEnd g) := by
  rw [atEnd?, Grammar.rule?_catalog hrule]
  rfl

theorem expansions?_eq (hg : g.WellFormed) (hrule : item.rule < g.rules.length) :
    item.expansions? g.catalog = some (item.expansions g) := by
  rw [expansions?, symbolAt?_eq hrule, symbolAt?_eq hrule, expansions, next?]
  simp only [Option.bind_eq_bind, Option.bind_some]
  have hmem : ∀ {position : Nat} {symbol : Symbol}, (item.rhs g)[position]? = some symbol →
      symbol ∈ g.symbols :=
    fun hsymbol => hg.symbol_mem hrule _ (List.mem_of_getElem? hsymbol)
  cases hnext : (item.rhs g)[item.dot]? with
  | none => rfl
  | some next =>
      cases next with
      | terminal t => rfl
      | nonterminal n =>
          have hn := Vocabulary.nonterminal_mem_symbols.mp (hmem hnext)
          rw [expansionLookahead, afterNext?]
          cases hafter : (item.rhs g)[item.dot + 1]? with
          | none =>
              dsimp only
              rw [Grammar.rulesOf?_catalog hn]
              rfl
          | some symbol =>
              dsimp only
              rw [Grammar.firstOfSymbol?_catalog hg (hmem hafter), Grammar.rulesOf?_catalog hn]
              rfl

theorem Proper.lookahead_subset (hg : g.WellFormed) (h : item.Proper g) :
    ∀ t ∈ item.lookahead, t ∈ g.terminals := by
  obtain ⟨symbol, hsymbol, heq⟩ := h.lookahead_eq
  intro t ht
  rw [heq, Grammar.mem_firstOfSymbol_iff hg] at ht
  exact ht.mem_terminals hg hsymbol

theorem text?_eq (hg : g.WellFormed) (h : item.Proper g) :
    item.text? g.catalog = some (item.text g) := by
  have hnames : (g.rule item.rule).rhs.mapM g.name? = some ((item.rhs g).map g.name) :=
    mapM_eq_some fun symbol hsymbol => Vocabulary.name?_eq (hg.symbol_mem h.rule_lt symbol hsymbol)
  rw [text?, ruleText?, Grammar.rule?_catalog h.rule_lt]
  simp only [Option.bind_eq_bind, Option.bind_some, Grammar.toGrammar_catalog]
  rw [Vocabulary.nonterminalName?_eq (hg.lhs_lt h.rule_lt), hnames,
    Vocabulary.setText?_eq (h.lookahead_subset hg)]
  rfl

end Item

namespace Closure

theorem foldl_addNew {items new : List Item} (hnew : new.Nodup) :
    new.foldl addNew items = items ++ new.filter (!items.contains ·) := by
  induction new generalizing items with
  | nil => simp
  | cons item new ih =>
      obtain ⟨hitem, hnew⟩ := List.nodup_cons.mp hnew
      rw [List.foldl_cons, ih hnew, addNew, List.filter_cons]
      by_cases hold : items.contains item = true
      · rw [if_pos hold, if_neg (by rw [hold]; decide)]
      · rw [if_neg hold, if_pos (by simpa using hold), List.append_assoc]
        refine congrArg (items ++ item :: ·) (List.filter_congr fun other hother => ?_)
        have hne : other ≠ item := fun heq => hitem (heq ▸ hother)
        simp [hne]

theorem runFrom?_eq (hg : g.WellFormed) {kernel done pending : List Item} {budget : Nat}
    (h : Sound g kernel done pending)
    (hrule : ∀ item ∈ done ++ pending, item.rule < g.rules.length)
    (hbudget : (candidates g kernel).length ≤ done.length + budget) :
    runFrom? g.catalog budget done.length (done ++ pending) = some (run g budget done pending) := by
  induction budget generalizing done pending with
  | zero =>
      obtain rfl := h.pending_eq_nil hbudget
      rw [runFrom?, if_neg (by simp)]
      rfl
  | succ budget ih =>
      cases pending with
      | nil =>
          rw [runFrom?, if_neg (by simp), List.append_nil]
          rfl
      | cons item pending =>
          have hitem : (done ++ item :: pending)[done.length]? = some item := by simp
          have hsplit : (item.expansions g).foldl addNew (done ++ item :: pending) =
              (done ++ [item]) ++ (pending ++ (item.expansions g).filter
                (!(done ++ item :: pending).contains ·)) := by
            rw [foldl_addNew (expansions_nodup item)]
            simp
          rw [runFrom?, if_pos (by simp), hitem, Option.bind_eq_bind, Option.bind_some,
            Item.expansions?_eq hg (hrule item (by simp)), Option.bind_eq_bind,
            Option.bind_some, hsplit]
          have hnext := ih (h.expand hg) ?_ ?_
          · rwa [List.length_append, List.length_singleton] at hnext
          · rw [← hsplit, foldl_addNew (expansions_nodup item)]
            intro new hnew
            rcases List.mem_append.mp hnew with hold | hnew
            · exact hrule new hold
            · obtain ⟨_, _, _, hid, rfl⟩ := Item.mem_expansions.mp (List.mem_filter.mp hnew).1
              exact (Grammar.mem_rulesOf.mp hid).1
          · rw [List.length_append, List.length_singleton]
            omega

end Closure

theorem closure?_eq (hg : g.WellFormed) {kernel : List Item}
    (hkernel : ∀ item ∈ kernel, item.rule < g.rules.length) :
    closure? g.catalog kernel = some (closure g kernel) := by
  refine Closure.runFrom?_eq hg (Closure.start_sound g kernel) ?_ ?_
  · exact fun item hitem => hkernel item (List.mem_eraseDups.mp hitem)
  · rw [Closure.length_candidates]
    exact Nat.le_add_left _ _

theorem successors?_eq {items : List Item} (hitems : ∀ item ∈ items, item.rule < g.rules.length)
    (symbol : Symbol) :
    successors? g.catalog items symbol = some (successors g items symbol) := by
  rw [successors?, mapM_eq_some fun item hitem => Item.move?_eq (hitems item hitem) symbol,
    Option.bind_eq_bind, Option.bind_some, List.filterMap_map, successors,
    ← List.filterMap_eq_map, List.filterMap_filter]
  simp

theorem goto?_eq (hg : g.WellFormed) {items : List Item}
    (hitems : ∀ item ∈ items, item.rule < g.rules.length) (symbol : Symbol) :
    goto? g.catalog items symbol = some (goto g items symbol) := by
  rw [goto?, successors?_eq hitems, goto, Option.bind_eq_bind, Option.bind_some]
  cases hkernel : successors g items symbol with
  | nil => rfl
  | cons item kernel =>
      dsimp only
      rw [← hkernel, closure?_eq hg fun new hnew => ?_]
      · rfl
      · obtain ⟨old, hold, _, rfl⟩ := mem_successors.mp hnew
        exact hitems old hold

theorem State.ofItems?_eq {items : List Item}
    (hitems : ∀ item ∈ items, item.rule < g.rules.length) :
    State.ofItems? g.catalog items = some (.ofItems g items) := by
  rw [ofItems?, mapM_eq_some fun item hitem => Item.atEnd?_eq (hitems item hitem)]
  simp [ofItems, List.any_map]

end CanonicalLR
