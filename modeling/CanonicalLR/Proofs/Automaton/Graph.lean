import CanonicalLR.Proofs.Automaton.GraphLine
import CanonicalLR.Proofs.Grammar.Building
import CanonicalLR.Proofs.Indexed.Automaton
import CanonicalLR.Proofs.Text.Blank

namespace CanonicalLR

/-! The automaton read back from its graph: the items of every state and all transitions are
found in it, whatever the symbols are called. -/

namespace Item

variable {g : Grammar}

theorem not_mem_dotted {names : List String} {c : Char} (h : ∀ name ∈ names, c ∉ name.toList)
    (hdot : c ≠ '.') (dot : Nat) : c ∉ (dotted names dot).toList := by
  have htake : ∀ name ∈ names.take dot, c ∉ name.toList :=
    fun name hname => h name (List.mem_of_mem_take hname)
  have hdrop : ∀ name ∈ names.drop dot, c ∉ name.toList :=
    fun name hname => h name (List.mem_of_mem_drop hname)
  unfold dotted
  split
  · simpa [hdot] using ⟨htake, hdrop⟩
  · simpa using h

theorem not_mem_ruleText (hnames : g.Unbroken) (item : Item) :
    '\n' ∉ (item.ruleText g).toList := by
  have hlhs : '\n' ∉ (g.nonterminalName (g.rule item.rule).lhs).toList :=
    hnames.name (.nonterminal _)
  have hrhs : ∀ name ∈ (item.rhs g).map g.name, '\n' ∉ name.toList := by
    intro name hname
    obtain ⟨symbol, _, rfl⟩ := List.mem_map.mp hname
    exact hnames.name symbol
  have hdotted := not_mem_dotted hrhs (by decide) item.dot
  simp [ruleText, hlhs, hdotted]

theorem not_mem_lookaheadText (hnames : g.Unbroken) (item : Item) :
    '\n' ∉ (item.lookaheadText g).toList := by
  have hset : '\n' ∉ (", ".intercalate (item.lookahead.toList.map g.terminalName)).toList := by
    rw [String.toList_intercalate]
    refine Text.not_mem_intercalate (by decide) fun text htext => ?_
    simp only [List.mem_map] at htext
    obtain ⟨_, ⟨terminal, _, rfl⟩, rfl⟩ := htext
    exact hnames.name (.terminal terminal)
  simpa [lookaheadText, Vocabulary.setText] using hset

end Item

namespace Graph

/-! The lines of the graph, one after the other. -/

def entries (text : String) : List Entry :=
  (Text.lines text.toList).filterMap Entry.read?

/-- The rows behind a node. -/
def rowsOf (index : Nat) (list : List Entry) : List Entry :=
  ((list.dropWhile (· ≠ .node index)).drop 1).takeWhile Entry.isRow

theorem entries_of_not_mem {text : String} (h : '\n' ∉ text.toList) :
    entries text = (Entry.read? text.toList).toList := by
  rw [entries, Text.lines_of_not_mem h]
  cases hread : Entry.read? text.toList <;> simp [hread]

theorem lines_intercalate_texts {texts : List String} (h : texts ≠ []) :
    Text.lines ("\n".intercalate texts).toList = texts.flatMap (Text.lines ·.toList) := by
  have hbreak : "\n".toList = ['\n'] := by
    simp
  rw [String.toList_intercalate, hbreak, Text.lines_intercalate_eq (by simpa using h),
    List.flatMap_map]

/-- No text at all is an empty line, which says nothing either. -/
theorem entries_intercalate (texts : List String) :
    entries ("\n".intercalate texts) = texts.flatMap entries := by
  cases texts with
  | nil => rfl
  | cons text texts =>
      rw [entries, lines_intercalate_texts (List.cons_ne_nil text texts), List.filterMap_flatMap]
      rfl

theorem mem_lines_intercalate {texts : List String} {text : String} {line : List Char}
    (htext : text ∈ texts) (hline : line ∈ Text.lines text.toList) :
    line ∈ Text.lines ("\n".intercalate texts).toList := by
  rw [lines_intercalate_texts (List.ne_nil_of_mem htext)]
  exact List.mem_flatMap.mpr ⟨text, htext, hline⟩

theorem not_mem_toDigits (n : Nat) : '\n' ∉ Nat.toDigits 10 n :=
  (Text.decimal_toDigits n).not_mem rfl

theorem not_mem_tableRow {left right : String} (hleft : '\n' ∉ left.toList)
    (hright : '\n' ∉ right.toList) : '\n' ∉ (tableRow left right).toList := by
  unfold tableRow
  simp [hleft, hright]

theorem not_mem_itemRow {g : Grammar} (hnames : g.Unbroken) (item : Item) :
    '\n' ∉ (itemRow g item).toList := by
  have hrule := not_mem_escapeHtml (Item.not_mem_ruleText hnames item)
  have hlookahead := not_mem_escapeHtml (Item.not_mem_lookaheadText hnames item)
  refine not_mem_tableRow hrule ?_
  split <;> simp [hlookahead]

theorem entries_itemRow {g : Grammar} (hnames : g.Unbroken) (item : Item) :
    entries (itemRow g item) = [.ofItem g item] := by
  rw [entries_of_not_mem (not_mem_itemRow hnames item), Entry.read?_itemRow]
  rfl

theorem entries_edge {g : Grammar} (hnames : g.Unbroken) (transition : Transition) :
    entries (edge g transition) = [.ofTransition g transition] := by
  have hlabel := not_mem_escapeLabel (hnames.name transition.symbol)
  have hedge : '\n' ∉ (edge g transition).toList := by
    simp [edge, hlabel, not_mem_toDigits]
  rw [entries_of_not_mem hedge, Entry.read?_edge]
  rfl

theorem entries_headRow (index : Nat) : entries (headRow index) = [] := by
  have hrow : '\n' ∉ (headRow index).toList :=
    not_mem_tableRow (by simp [not_mem_toDigits]) (by simp)
  rw [entries_of_not_mem hrow, Entry.read?_headRow]
  rfl

theorem entries_nodeLine (index : Nat) :
    entries ("  State" ++ toString index ++ " [shape=plain label=<") = [.node index] := by
  have hline : '\n' ∉ ("  State" ++ toString index ++ " [shape=plain label=<").toList := by
    simp [not_mem_toDigits]
  rw [entries_of_not_mem hline, Entry.read?_nodeLine]
  rfl

theorem flatMap_entries_map {α : Type} {f : α → String} {entry : α → Entry}
    (h : ∀ x, entries (f x) = [entry x]) (list : List α) :
    (list.map f).flatMap entries = list.map entry := by
  rw [List.flatMap_map, List.map_eq_flatMap]
  simp [h]

/-- The lines that are the same in all graphs. -/
theorem entries_fixed (line : String) (h : line ∈
    ["digraph lr1_states \x7b", "    <TABLE BORDER=\"0\" CELLBORDER=\"1\" CELLSPACING=\"0\">",
     "    </TABLE>", "  >];", "\x7d"]) : entries line = [] := by
  revert line
  decide +kernel

theorem flatMap_entries_node {g : Grammar} (hnames : g.Unbroken) (index : Nat) (state : State) :
    (node g index state).flatMap entries =
      .node index :: state.items.map (Entry.ofItem g) := by
  have htable := entries_fixed "    <TABLE BORDER=\"0\" CELLBORDER=\"1\" CELLSPACING=\"0\">"
    (by simp)
  have htableEnd := entries_fixed "    </TABLE>" (by simp)
  have hnodeEnd := entries_fixed "  >];" (by simp)
  rw [node]
  simp only [List.flatMap_cons, List.flatMap_nil, List.append_nil, entries_nodeLine, htable,
    entries_headRow, entries_intercalate, flatMap_entries_map (entries_itemRow hnames), htableEnd,
    hnodeEnd, List.nil_append, List.singleton_append]

end Graph

namespace Automaton

open CanonicalLR.Graph

variable {a : Automaton}

/-- What the graph says of a state and of what leaves it. -/
def stateEntries (a : Automaton) (index : Nat) (state : State) : List Entry :=
  .node index :: state.items.map (Entry.ofItem a.grammar) ++
    (a.transitionsFrom index).map (Entry.ofTransition a.grammar)

theorem entries_graph (hnames : a.grammar.Unbroken) :
    entries a.graph = a.states.zipIdx.flatMap fun (state, index) => a.stateEntries index state := by
  have hbegin := entries_fixed "digraph lr1_states \x7b" (by simp)
  have hend := entries_fixed "\x7d" (by simp)
  rw [graph, entries_intercalate, List.flatMap_append, List.flatMap_append, List.flatMap_assoc]
  simp only [List.flatMap_cons, List.flatMap_nil, hbegin, hend, List.append_nil, List.nil_append,
    List.flatMap_append, flatMap_entries_node hnames, flatMap_entries_map (entries_edge hnames),
    stateEntries]

theorem node_not_mem_stateEntries {index other : Nat} (h : index ≠ other) (state : State) :
    .node index ∉ a.stateEntries other state := by
  simp [stateEntries, Entry.ofItem, Entry.ofTransition, h]

theorem takeWhile_isRow_nodes (transitions : List Transition) (states : List State) (start : Nat) :
    (transitions.map (Entry.ofTransition a.grammar) ++
      (states.zipIdx start).flatMap fun (state, index) => a.stateEntries index state).takeWhile
        Entry.isRow = [] := by
  cases transitions with
  | cons transition transitions => rfl
  | nil => cases states <;> rfl

/-- The nodes are passed one by one until the right one comes. -/
theorem rowsOf_flatMap {states : List State} {index : Nat} {state : State}
    (h : states[index]? = some state) (start : Nat) :
    rowsOf (start + index)
        ((states.zipIdx start).flatMap fun (state, index) => a.stateEntries index state) =
      state.items.map (Entry.ofItem a.grammar) := by
  induction states generalizing index start with
  | nil => cases h
  | cons first states ih =>
      simp only [List.zipIdx_cons, List.flatMap_cons]
      cases index with
      | zero =>
          obtain rfl : first = state := Option.some.inj h
          have hrows : ∀ entry ∈ first.items.map (Entry.ofItem a.grammar), entry.isRow = true := by
            simp [Entry.ofItem, Entry.isRow]
          rw [rowsOf, stateEntries, Nat.add_zero, List.cons_append, List.cons_append,
            List.dropWhile_cons_of_neg (by simp), List.drop_one, List.tail_cons,
            List.append_assoc, List.takeWhile_append_of_pos hrows, takeWhile_isRow_nodes,
            List.append_nil]
      | succ index =>
          have hne : start + (index + 1) ≠ start := by omega
          have hpassed : ∀ entry ∈ a.stateEntries start first,
              decide (entry ≠ .node (start + (index + 1))) = true := by
            intro entry hentry
            refine decide_eq_true fun heq => ?_
            exact node_not_mem_stateEntries hne first (heq ▸ hentry)
          have hrest := ih h (start + 1)
          rw [Nat.add_right_comm, Nat.add_assoc] at hrest
          rw [rowsOf, List.dropWhile_append_of_pos hpassed]
          exact hrest

theorem filter_isEdge_stateEntries (index : Nat) (state : State) :
    (a.stateEntries index state).filter Entry.isEdge =
      (a.transitionsFrom index).map (Entry.ofTransition a.grammar) := by
  have hrows : (state.items.map (Entry.ofItem a.grammar)).filter Entry.isEdge = [] := by
    simp [Entry.ofItem, Entry.isEdge]
  have hedges : ((a.transitionsFrom index).map (Entry.ofTransition a.grammar)).filter
      Entry.isEdge = (a.transitionsFrom index).map (Entry.ofTransition a.grammar) := by
    simp [Entry.ofTransition, Entry.isEdge]
  rw [stateEntries, List.cons_append, List.filter_cons_of_neg (by simp [Entry.isEdge]),
    List.filter_append, hrows, hedges, List.nil_append]

/-- Grouped transitions stand in the order in which the states are gone through. -/
theorem flatMap_filter_source {transitions : List Transition}
    (h : transitions.Pairwise (·.source ≤ ·.source)) (count : Nat) :
    ((List.range count).flatMap fun state => transitions.filter (·.source = state)) =
      transitions.filter (·.source < count) := by
  induction count with
  | zero => simp
  | succ count ih =>
      have hbefore : (transitions.filter (·.source < count + 1)).filter (·.source < count) =
          transitions.filter (·.source < count) := by
        rw [List.filter_filter]
        exact List.filter_congr fun transition _ => by simpa using Nat.lt_succ_of_lt
      have hself : (transitions.filter (·.source < count + 1)).filter (·.source = count) =
          transitions.filter (·.source = count) := by
        rw [List.filter_filter]
        refine List.filter_congr fun transition _ => ?_
        by_cases hsource : transition.source = count <;> simp [hsource]
      have hbehind :
          (transitions.filter (·.source < count + 1)).filter (count < ·.source) = [] := by
        rw [List.filter_eq_nil_iff]
        intro transition htransition
        have hlt := of_decide_eq_true (List.mem_filter.mp htransition).2
        simpa using Nat.le_of_lt_succ hlt
      have hsplit := transitions_split (h.filter (·.source < count + 1)) count
      rw [hbefore, hself, hbehind, List.append_nil] at hsplit
      rw [List.range_succ, List.flatMap_append, ih, List.flatMap_singleton, hsplit]

theorem edges_graph (hnames : a.grammar.Unbroken) (hgrouped : a.Grouped)
    (hsource : ∀ transition ∈ a.transitions, transition.source < a.stateCount) :
    (entries a.graph).filter Entry.isEdge =
      a.transitions.map (Entry.ofTransition a.grammar) := by
  have hall : a.transitions.filter (·.source < a.stateCount) = a.transitions :=
    List.filter_eq_self.mpr fun transition htransition =>
      decide_eq_true (hsource transition htransition)
  rw [entries_graph hnames, List.filter_flatMap]
  simp only [filter_isEdge_stateEntries]
  rw [← hall, ← flatMap_filter_source hgrouped, List.map_flatMap, List.range_eq_range',
    stateCount, ← List.zipIdx_map_snd, List.flatMap_map]
  rfl

theorem transitions_graph {alphabet productions : List String} {g : Grammar}
    (hg : Grammar.build alphabet productions = .ok g) (hnames : g.Unbroken) (e : Exploration) :
    (entries (build g e).graph).filter Entry.isEdge =
        (build g e).transitions.map (Entry.ofTransition g) ∧
      (entries (build g e).graph).filterMap (Entry.transition? g.toVocabulary) =
        (build g e).transitions := by
  have hwellFormed := Grammar.build_wellFormed hg
  have ha := build_canonical hwellFormed e
  have hedges := edges_graph (a := build g e) hnames (build_grouped hwellFormed e) ha.source_lt
  have honly : (fun entry : Entry =>
      if entry.isEdge then entry.transition? g.toVocabulary else none) =
        Entry.transition? g.toVocabulary := by
    funext entry
    cases entry <;> rfl
  have hnamed : ∀ transition ∈ (build g e).transitions,
      (Entry.ofTransition g transition).transition? g.toVocabulary = some transition := by
    intro transition htransition
    have hsymbol := (Grammar.build_disjoint hg).symbol?_name (ha.symbol_mem _ htransition)
    rw [Entry.ofTransition, Entry.transition?, hsymbol]
    rfl
  refine ⟨hedges, ?_⟩
  calc
    (entries (build g e).graph).filterMap (Entry.transition? g.toVocabulary)
      = ((entries (build g e).graph).filter Entry.isEdge).filterMap
          (Entry.transition? g.toVocabulary) := by rw [List.filterMap_filter, honly]
    _ = (build g e).transitions.filterMap fun transition =>
          (Entry.ofTransition g transition).transition? g.toVocabulary := by
        rw [hedges, List.filterMap_map]
        rfl
    _ = (build g e).transitions := by
        rw [List.filterMap_congr hnamed, List.filterMap_some]

/-! The lines of a graph. -/

theorem itemRow_mem_lines (hnames : a.grammar.Unbroken) {state : State} (hstate : state ∈ a.states)
    {item : Item} (hitem : item ∈ state.items) :
    (itemRow a.grammar item).toList ∈ Text.lines a.graph.toList := by
  have hrow : (itemRow a.grammar item).toList ∈ Text.lines (itemRow a.grammar item).toList := by
    rw [Text.lines_of_not_mem (not_mem_itemRow hnames item)]
    exact List.mem_singleton_self _
  have hrows := mem_lines_intercalate (List.mem_map_of_mem hitem) hrow
  obtain ⟨index, hindex⟩ := List.getElem?_of_mem hstate
  have hnode : "\n".intercalate (state.items.map (itemRow a.grammar)) ∈
      node a.grammar index state := by
    simp [node]
  refine mem_lines_intercalate ?_ hrows
  refine List.mem_append_left _ (List.mem_append_right _ (List.mem_flatMap.mpr ?_))
  exact ⟨(state, index), List.mem_zipIdx_iff_getElem?.mpr hindex, List.mem_append_left _ hnode⟩

theorem filter_isAngle_itemRow (g : Grammar) (item : Item) :
    (itemRow g item).toList.filter isAngle =
      (tableRow "" (if item.atEnd g then "<U></U>" else "")).toList.filter isAngle := by
  have hnone : ∀ text, (escapeHtml text).toList.filter isAngle = [] := by
    intro text
    simpa using not_isAngle_escapeHtml text
  have hunderline : "<U></U>".toList = "<U>".toList ++ "</U>".toList := by
    simp
  rw [itemRow, toList_tableRow, toList_tableRow]
  cases item.atEnd g <;>
    simp only [Bool.false_eq_true, if_true, if_false, String.toList_append, hunderline,
      List.filter_append, hnone, List.nil_append, String.toList_empty, List.append_nil]

/-- The graph is faithful.  Behind the node of a state there is a row for each of its items, with
the texts of the item, underlined if the dot is at the end; the edges are the transitions, in
their order, and for a grammar that was built their labels tell the symbols.  The only angle
brackets in a row are those of the markup. -/
theorem graph_exact {a : Automaton} (hnames : a.grammar.Unbroken) :
    (∀ index state, a.states[index]? = some state →
      rowsOf index (entries a.graph) = state.items.map (Entry.ofItem a.grammar)) ∧
    (a.Grouped → (∀ transition ∈ a.transitions, transition.source < a.stateCount) →
      (entries a.graph).filter Entry.isEdge =
        a.transitions.map (Entry.ofTransition a.grammar)) ∧
    (∀ alphabet productions e, Grammar.build alphabet productions = .ok a.grammar →
      a = build a.grammar e →
      (entries a.graph).filter Entry.isEdge =
          a.transitions.map (Entry.ofTransition a.grammar) ∧
        (entries a.graph).filterMap (Entry.transition? a.grammar.toVocabulary) =
          a.transitions) ∧
    ∀ state ∈ a.states, ∀ item ∈ state.items, ∃ line ∈ Text.lines a.graph.toList,
      Entry.read? line = some (.ofItem a.grammar item) ∧
      line.filter isAngle =
        (tableRow "" (if item.atEnd a.grammar then "<U></U>" else "")).toList.filter isAngle := by
  refine ⟨fun index state hstate => ?_, edges_graph hnames, ?_, ?_⟩
  · have hrows := rowsOf_flatMap (a := a) hstate 0
    rw [Nat.zero_add] at hrows
    rw [entries_graph hnames, hrows]
  · intro alphabet productions e hg ha
    have htransitions := transitions_graph hg hnames e
    rwa [← ha] at htransitions
  · intro state hstate item hitem
    exact ⟨_, itemRow_mem_lines hnames hstate hitem, Entry.read?_itemRow a.grammar item,
      filter_isAngle_itemRow a.grammar item⟩

end Automaton

/-- A grammar whose symbols are called like an entity, an escaped quote and a tag. -/
def Grammar.marked : Grammar :=
  .ofRules ⟨["&lt;", "\\\"", "<U>"], ["S", "A"]⟩
    [⟨0, [.nonterminal 1, .terminal (.token 2)], "S->A<U>"⟩,
     ⟨1, [.terminal (.token 0), .terminal (.token 1)], "A->&lt;\\\""⟩]

theorem Grammar.build_marked :
    build ["&lt;", "\\\"", "<U>"] ["S->A<U>", "A->&lt;\\\""] = .ok marked := by
  decide +kernel

theorem Automaton.graph_exact_marked :
    Graph.rowsOf 4 (Graph.entries (build .marked .breadthFirst).graph) =
        [.row "A->&lt;\\\"." "\x7b<U>\x7d" true] ∧
      (Graph.entries (build .marked .breadthFirst).graph).filterMap
          (Graph.Entry.transition? Grammar.marked.toVocabulary) =
        [⟨0, .nonterminal 1, 1⟩, ⟨0, .terminal (.token 0), 2⟩, ⟨1, .terminal (.token 2), 3⟩,
         ⟨2, .terminal (.token 1), 4⟩] := by
  have hnames : (build .marked .breadthFirst).grammar.Unbroken := by
    decide +kernel
  have hstate : (build .marked .breadthFirst).states[4]? =
      some ⟨[⟨1, 2, .singleton (.token 2)⟩], true⟩ := by
    decide +kernel
  have htransitions : (build .marked .breadthFirst).transitions =
      [⟨0, .nonterminal 1, 1⟩, ⟨0, .terminal (.token 0), 2⟩, ⟨1, .terminal (.token 2), 3⟩,
       ⟨2, .terminal (.token 1), 4⟩] := by
    decide +kernel
  have hrow : Graph.Entry.ofItem .marked ⟨1, 2, .singleton (.token 2)⟩ =
      .row "A->&lt;\\\"." "\x7b<U>\x7d" true := by
    decide +kernel
  obtain ⟨hrows, -, hbuilt, -⟩ := graph_exact hnames
  constructor
  · rw [hrows 4 _ hstate]
    exact congrArg (fun entry => [entry]) hrow
  · exact (hbuilt _ _ .breadthFirst Grammar.build_marked rfl).2.trans htransitions

end CanonicalLR
