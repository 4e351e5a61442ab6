import CanonicalLR.Proofs.Parsing.Halting
import CanonicalLR.Proofs.Parsing.Snapshot

namespace CanonicalLR

/-! A table without collisions parses every tree.  Where an item expects a symbol
and the terminal behind a tree of it can come next, the parser reads the terminals
of the tree, reduces its rules in post-order, and goes on behind the symbol. -/

variable {a : Automaton}

/-- From a trail the parser reads some terminals and reduces some rules, and goes
on with what comes next. -/
def Table.Reads (t : Table) (trail : Trail) (terminals : List Terminal) (rules : List Nat)
    (pending : List Terminal) (after : Trail) : Prop :=
  ∀ d, Relation.ReflTransGen t.Advances ⟨trail, terminals ++ pending, d⟩
    ⟨after, pending, d.extend rules terminals.length⟩

namespace Table.Reads

variable {t : Table} {trail middle after : Trail}

theorem nil (t : Table) (trail : Trail) (pending : List Terminal) :
    t.Reads trail [] [] pending trail :=
  fun _ => .refl

theorem append {first second pending : List Terminal} {rules others : List Nat}
    (hfirst : t.Reads trail first rules (second ++ pending) middle)
    (hsecond : t.Reads middle second others pending after) :
    t.Reads trail (first ++ second) (rules ++ others) pending after := by
  intro d
  have hboth := (hfirst d).trans (hsecond (d.extend rules first.length))
  rw [Derivation.extend_extend, ← List.length_append, ← List.append_assoc] at hboth
  exact hboth

theorem shift {x : Terminal} {state : Nat}
    (hentry : t.entry trail.top (.terminal x) = some (.shift state))
    (pending : List Terminal) :
    t.Reads trail [x] [] pending ((.terminal x, state) :: trail) :=
  fun _ => .single (.shift hentry)

theorem reduce {entries : Trail} {x : Terminal} {id state : Nat} (hid : id ≠ 0)
    (hspelling : entries.spelling = (t.grammar.rule id).rhs)
    (hentry : t.entry (Trail.top (entries ++ trail)) (.terminal x) = some (.reduce id))
    (hgoto : t.entry trail.top (.nonterminal (t.grammar.rule id).lhs) = some (.goto state))
    (more : List Terminal) :
    t.Reads (entries ++ trail) [] [id] (x :: more)
      ((.nonterminal (t.grammar.rule id).lhs, state) :: trail) := by
  have hlength : (t.grammar.rule id).rhs.length = entries.length := by
    rw [← hspelling, Trail.length_spelling]
  have hdrop : (entries ++ trail).drop (t.grammar.rule id).rhs.length = trail := by
    rw [hlength, List.drop_left]
  have hlonger : (t.grammar.rule id).rhs.length ≤ (entries ++ trail).length := by
    rw [hlength, List.length_append]
    exact Nat.le_add_right _ _
  have hall : Trail.spelling (entries ++ trail) =
      Trail.spelling ((entries ++ trail).drop (t.grammar.rule id).rhs.length) ++
        (t.grammar.rule id).rhs := by
    rw [hdrop, Trail.spelling_append, hspelling]
  intro d
  have hadvances : t.Advances ⟨entries ++ trail, x :: more, d⟩ _ :=
    .reduce hid hentry hlonger hall (by rw [hdrop]; exact hgoto)
  rw [hdrop] at hadvances
  exact .single hadvances

end Table.Reads

/-- What has to be shown of a tree: it is read wherever an item expects its root
and the terminal behind it can come next. -/
def Tree.Read (a : Automaton) {symbol : Symbol} (tree : Tree a.grammar symbol) : Prop :=
  ∀ (trail : Trail) (item : Item) (x : Terminal), a.Traces trail →
    item ∈ a.itemsOf trail.top → item.next? a.grammar = some symbol →
    x ∈ item.expansionLookahead a.grammar → ∀ more : List Terminal,
    ∃ state, ⟨trail.top, symbol, state⟩ ∈ a.transitions ∧
      (Table.build a).Reads trail tree.frontier tree.postorder (x :: more)
        ((symbol, state) :: trail)

/-- The same of a forest, with an item that expects the symbols of its roots. -/
def Forest.Read (a : Automaton) {symbols : List Symbol} (forest : Forest a.grammar symbols) :
    Prop :=
  ∀ (trail : Trail) (item : Item) (rest : List Symbol) (x : Terminal), a.Traces trail →
    item ∈ a.itemsOf trail.top → (item.rhs a.grammar).drop item.dot = symbols ++ rest →
    x ∈ a.grammar.upcoming rest item.lookahead → ∀ more : List Terminal,
    ∃ entries : Trail, entries.spelling = symbols ∧ a.Traces (entries ++ trail) ∧
      ⟨item.rule, item.dot + symbols.length, item.lookahead⟩ ∈
        a.itemsOf (Trail.top (entries ++ trail)) ∧
      (Table.build a).Reads trail forest.frontier forest.postorder (x :: more)
        (entries ++ trail)

theorem Tree.read_leaf (ha : a.Canonical) (hfree : (Table.build a).collisions = [])
    (t : Terminal) : (Tree.leaf t : Tree a.grammar _).Read a := by
  intro trail item x htrail hitem hnext _ more
  obtain ⟨state, hstep⟩ := ha.exists_transition hitem hnext
  exact ⟨state, hstep, .shift (Table.entry_eq_some ha hfree (.shift hstep)) _⟩

theorem Tree.read_node (ha : a.Canonical) (hfree : (Table.build a).collisions = [])
    {n id : Nat} (hid : id ∈ a.grammar.rulesOf n) (hne : id ≠ 0)
    {children : Forest a.grammar (a.grammar.rule id).rhs} (hchildren : children.Read a) :
    (Tree.node id hid children).Read a := by
  intro trail item x htrail hitem hnext hx more
  have hstart := ha.expansion_mem hitem hnext hid
  obtain ⟨entries, hspelling, hentries, hend, hreads⟩ :=
    hchildren trail _ [] x htrail hstart (List.append_nil _).symm hx more
  obtain ⟨state, hstep⟩ := ha.exists_transition hitem hnext
  have hentry : (Table.build a).entry (Trail.top (entries ++ trail)) (.terminal x) =
      some (.reduce id) := by
    refine Table.entry_eq_some ha hfree (.reduce hend ?_ hx)
    exact decide_eq_true (Nat.le_add_left _ _)
  obtain ⟨_, rfl⟩ := Grammar.mem_rulesOf.mp hid
  refine ⟨state, hstep, ?_⟩
  have hreduce := Table.Reads.reduce hne hspelling hentry (Table.entry_goto ha hstep) more
  have hboth := Table.Reads.append hreads hreduce
  rw [List.append_nil] at hboth
  exact hboth

theorem Forest.read_nil (a : Automaton) : (Forest.nil : Forest a.grammar []).Read a :=
  fun trail _ _ x htrail hitem _ _ more => ⟨[], rfl, htrail, hitem, .nil _ trail (x :: more)⟩

theorem Forest.read_cons (ha : a.Canonical) {symbol : Symbol} {symbols : List Symbol}
    {tree : Tree a.grammar symbol} {forest : Forest a.grammar symbols} (htree : tree.Read a)
    (hforest : forest.Read a) : (Forest.cons tree forest).Read a := by
  intro trail item rest x htrail hitem hdrop hx more
  rw [List.cons_append] at hdrop
  obtain ⟨hnext, hrest⟩ := item.next?_of_drop hdrop
  obtain ⟨t, others, hpending, ht⟩ := forest.exists_upcoming ha.wellFormed hx more
  rw [← Grammar.upcoming_append, ← hrest, ← Item.expansionLookahead_eq] at ht
  obtain ⟨state, hstep, hreads⟩ := htree trail item t htrail hitem hnext ht others
  obtain ⟨entries, hspelling, hentries, hend, hmore⟩ :=
    hforest ((symbol, state) :: trail) item.advance rest x (.cons htrail hstep)
      (ha.advance_mem hstep hitem hnext) hrest hx more
  have hsplit : (entries ++ [(symbol, state)]) ++ trail = entries ++ (symbol, state) :: trail :=
    List.append_assoc ..
  refine ⟨entries ++ [(symbol, state)], ?_, ?_, ?_, ?_⟩
  · rw [Trail.spelling_append, hspelling]
    rfl
  · rw [hsplit]
    exact hentries
  · rw [hsplit, List.length_cons, ← Nat.succ_eq_add_one symbols.length, ← Nat.succ_add_eq_add_succ]
    exact hend
  · rw [hsplit]
    rw [← hpending] at hreads
    exact hreads.append hmore

mutual
theorem Tree.read (ha : a.Canonical) (hfree : (Table.build a).collisions = [])
    {symbol : Symbol} :
    ∀ tree : Tree a.grammar symbol, 0 ∉ tree.postorder → tree.Read a
  | .leaf t, _ => Tree.read_leaf ha hfree t
  | .node id hid children, hzero => by
      have hne : id ≠ 0 := by
        rintro rfl
        exact hzero (List.mem_append_right _ List.mem_cons_self)
      have hchildren : 0 ∉ children.postorder := fun hmem =>
        hzero (List.mem_append_left _ hmem)
      exact Tree.read_node ha hfree hid hne (children.read ha hfree hchildren)

theorem Forest.read (ha : a.Canonical) (hfree : (Table.build a).collisions = [])
    {symbols : List Symbol} :
    ∀ forest : Forest a.grammar symbols, 0 ∉ forest.postorder → forest.Read a
  | .nil, _ => Forest.read_nil a
  | .cons tree forest, hzero => by
      obtain ⟨htree, hforest⟩ := not_or.mp fun h => hzero (List.mem_append.mpr h)
      exact Forest.read_cons ha (tree.read ha hfree htree) (forest.read ha hfree hforest)
end

/-- Where a nonterminal stands, all its rules start, if the terminal behind the
context begins it. -/
theorem Grammar.Context.read (ha : a.Canonical) (hfree : (Table.build a).collisions = [])
    {before rest : List Symbol} {n : Nat} (h : a.grammar.Context before n rest) :
    ∀ forest : Forest a.grammar before, 0 ∉ forest.postorder →
      ∀ {x : Terminal}, a.grammar.Begins (.nonterminal n) x → ∀ more : List Terminal,
      ∃ trail : Trail, trail.spelling = before ∧ a.Traces trail ∧
        (∀ id ∈ a.grammar.rulesOf n,
          .start id (a.grammar.followers rest) ∈ a.itemsOf trail.top) ∧
        (Table.build a).Reads [] forest.frontier forest.postorder (x :: more) trail := by
  induction h with
  | start =>
      intro forest _ x _ more
      cases forest
      refine ⟨[], rfl, .nil, fun id hid => ?_, .nil _ [] (x :: more)⟩
      rw [(Grammar.mem_rulesOf_start ha.wellFormed).mp hid]
      exact ha.start_mem
  | @expand before rest left right n id m _ hid hrhs ih =>
      intro forest hzero x hx more
      obtain ⟨first, second, rfl⟩ := forest.exists_append
      rw [Forest.postorder_append] at hzero
      obtain ⟨hfirst, hsecond⟩ := not_or.mp fun h => hzero (List.mem_append.mpr h)
      have hxm : x ∈ a.grammar.upcoming (.nonterminal m :: right)
          (a.grammar.followers rest) :=
        (Grammar.mem_firstOfSymbol_iff ha.wellFormed).mpr hx
      obtain ⟨t, others, hpending, ht⟩ := second.exists_upcoming ha.wellFormed hxm more
      rw [← Grammar.upcoming_append, ← hrhs] at ht
      have hbegins := Grammar.begins_of_upcoming ha.wellFormed hid ht
      obtain ⟨trail, hspelling, htrail, hitems, hreads⟩ := ih first hfirst hbegins others
      obtain ⟨entries, hentries, hnext, hitem, hmore⟩ :=
        second.read ha hfree hsecond trail _ _ x htrail (hitems id hid) hrhs hxm more
      have hdrop : (a.grammar.rule id).rhs.drop (0 + left.length) = .nonterminal m :: right := by
        rw [hrhs, Nat.zero_add, List.drop_left]
      obtain ⟨hexpects, hright⟩ :=
        Item.next?_of_drop ⟨id, 0 + left.length, a.grammar.followers rest⟩ hdrop
      have hlookahead : a.grammar.followers (right ++ rest) =
          Item.expansionLookahead a.grammar
            ⟨id, 0 + left.length, a.grammar.followers rest⟩ := by
        rw [Item.expansionLookahead_eq, hright, Grammar.followers, Grammar.upcoming_append]
        rfl
      refine ⟨entries ++ trail, ?_, hnext, fun child hchild => ?_, ?_⟩
      · rw [Trail.spelling_append, hspelling, hentries]
      · rw [hlookahead]
        exact ha.expansion_mem hitem hexpects hchild
      · rw [Forest.frontier_append, Forest.postorder_append]
        rw [← hpending] at hreads
        exact hreads.append hmore

/-- Where the start rule closes, the parser accepts, whatever comes after the next
terminal. -/
theorem Grammar.Closes.completes (ha : a.Canonical) (hfree : (Table.build a).collisions = [])
    {terminals : List Terminal} {rules : List Nat} {x : Terminal}
    (h : a.grammar.Closes terminals rules x) (more : List Terminal) (d : Derivation) :
    (Table.build a).Completes ⟨[], terminals ++ x :: more, d⟩
      (d.extend rules terminals.length) := by
  obtain ⟨hcontext, hyields, hzero, hx⟩ := h
  obtain ⟨forest, rfl, rfl⟩ := hyields
  obtain ⟨left, phrase, rfl⟩ := forest.exists_append
  rw [Forest.postorder_append] at hzero ⊢
  rw [Forest.frontier_append]
  obtain ⟨hleft, hphrase⟩ := not_or.mp fun h => hzero (List.mem_append.mpr h)
  have hid : 0 ∈ a.grammar.rulesOf a.grammar.start :=
    (Grammar.mem_rulesOf_start ha.wellFormed).mpr rfl
  obtain ⟨t, others, hpending, ht⟩ := phrase.exists_upcoming ha.wellFormed hx more
  have hbegins := Grammar.begins_of_upcoming ha.wellFormed hid ht
  obtain ⟨trail, _, htrail, hitems, hreads⟩ :=
    hcontext.read ha hfree left hleft hbegins others
  obtain ⟨entries, _, _, hend, hmore⟩ := phrase.read ha hfree hphrase trail _ [] x htrail
    (hitems 0 hid) (List.append_nil _).symm hx more
  rw [← hpending] at hreads
  refine ⟨_, (hreads.append hmore) d, ⟨x, rfl, ?_⟩, rfl⟩
  refine Table.entry_eq_some ha hfree (.reduce hend ?_ hx)
  exact decide_eq_true (Nat.le_add_left _ _)

theorem Tree.exists_closes {g : Grammar} (hg : g.WellFormed) (hfree : g.StartFree)
    (tree : Tree g (.nonterminal g.start)) :
    ∃ rules, tree.postorder = rules ++ [0] ∧ g.Closes tree.frontier rules .endMarker := by
  cases tree with
  | node id hid children =>
      obtain rfl := (Grammar.mem_rulesOf_start hg).mp hid
      have hzero := children.zero_not_mem_postorder hfree (hfree.not_mem hg.rules_pos)
      exact ⟨children.postorder, rfl, Grammar.Yields.closes ⟨children, rfl, rfl⟩ hzero⟩

namespace Table

/-- A parse reads what its input closes, and need not look further than the next
terminal. -/
theorem parse_eq_of_closes (ha : a.Canonical) (hcollisions : (build a).collisions = [])
    {input : String} {terminals : List Terminal} {rules : List Nat} {x : Terminal}
    (hcloses : a.grammar.Closes terminals rules x)
    (hawaits : (Config.ofInput a.grammar.toVocabulary input).Awaits a.grammar.toVocabulary
      (terminals ++ [x])) :
    (build a).parse input = .accepted (.extend ⟨[], 0⟩ rules terminals.length) := by
  have hcompletes := hcloses.completes ha hcollisions [] ⟨[], 0⟩
  obtain ⟨count, last, hruns, hmove⟩ := hcompletes.exists_runs ⟨rfl, hawaits, rfl⟩
  exact parse_eq_accepted ha hruns hmove

/-- Two trees of the same terminals are the same, because one run reads both. -/
theorem eq_of_frontier_eq (ha : a.Canonical) (hcollisions : (build a).collisions = [])
    (hfree : a.grammar.StartFree) {first second : Tree a.grammar (.nonterminal a.grammar.start)}
    (hsame : first.frontier = second.frontier) : first = second := by
  obtain ⟨rules, hpostorder, hfirst⟩ := first.exists_closes ha.wellFormed hfree
  obtain ⟨others, hother, hsecond⟩ := second.exists_closes ha.wellFormed hfree
  rw [hsame] at hfirst
  have hrules := congrArg Derivation.reductions <|
    (hfirst.completes ha hcollisions [] ⟨[], 0⟩).unique
      (hsecond.completes ha hcollisions [] ⟨[], 0⟩)
  rw [Derivation.reductions_extend, Derivation.reductions_extend] at hrules
  apply Tree.postorder_injective
  rw [hpostorder, hother, List.append_cancel_left hrules]

/-- An input is read into any tree of it, and so no two trees have the same
terminals. -/
theorem parse_complete {alphabet productions : List String} {g : Grammar}
    (hbuild : Grammar.build alphabet productions = .ok g) (hfree : g.StartFree)
    {e : Exploration} {t : Table} (htable : buildWith (Automaton.build g e) .fail = .ok t) :
    (∀ (tree : Tree g (.nonterminal g.start)) (indices : List Nat) (input : String),
      tree.frontier = indices.map Terminal.token ++ g.closingMarker →
      g.Tokenizes input (indices.map Terminal.token ++ [.endMarker]) →
      ∃ d, t.parse input = .accepted d ∧ d.reductions = tree.postorder.dropLast ∧
        d.shifts = indices.length + g.closingMarker.length) ∧
    (∀ first second : Tree g (.nonterminal g.start),
      first.frontier = second.frontier → first = second) := by
  have hg := Grammar.build_wellFormed hbuild
  have ha := Automaton.build_canonical hg e
  obtain ⟨rfl, hcollisions⟩ := buildWith_eq_ok htable
  constructor
  · intro tree indices input hfrontier htokenizes
    obtain ⟨rules, hpostorder, hcloses⟩ := tree.exists_closes hg hfree
    rw [hfrontier] at hcloses
    have hparse := parse_eq_of_closes ha (hcollisions rfl) hcloses
      (Grammar.awaits_closingMarker_iff.mpr htokenizes)
    refine ⟨_, hparse, ?_, ?_⟩
    · rw [Derivation.reductions_extend, hpostorder, List.dropLast_concat]
      exact List.nil_append rules
    · show 0 + (indices.map Terminal.token ++ g.closingMarker).length = _
      rw [Nat.zero_add, List.length_append, List.length_map]
  · intro first second hsame
    exact eq_of_frontier_eq ha (hcollisions rfl) hfree hsame

end Table

def Tree.nesting : Tree Grammar.nesting (.nonterminal Grammar.nesting.start) :=
  let inner : Tree Grammar.nesting (.nonterminal 1) :=
    .node 1 (by decide +kernel) (.cons (.leaf (.token 0)) .nil)
  .node 0 (by decide +kernel) (.cons
    (.node 2 (by decide +kernel)
      (.cons (.leaf (.token 1)) (.cons inner (.cons (.leaf (.token 2)) .nil)))) .nil)

theorem Table.parse_complete_nesting :
    Grammar.nesting.StartFree ∧
      (∃ d, (build (Automaton.build .nesting .breadthFirst)).parse "(a)" = .accepted d ∧
        d.reductions = [1, 2] ∧ d.shifts = 3) ∧
      ∀ other, Tree.nesting.frontier = other.frontier → Tree.nesting = other := by
  have hfree : Grammar.nesting.StartFree := by decide +kernel
  have htokenizes : Grammar.nesting.Tokenizes "(a)"
      ([1, 0, 2].map Terminal.token ++ [.endMarker]) :=
    ⟨[⟨.token 1, [], ['(']⟩, ⟨.token 0, ['('], ['a']⟩, ⟨.token 2, ['a', '('], [')']⟩,
      ⟨.endMarker, [')', 'a', '('], []⟩], by decide +kernel, rfl⟩
  obtain ⟨hparse, hunique⟩ := parse_complete Grammar.build_nesting hfree buildWith_nesting
  exact ⟨hfree, hparse Tree.nesting [1, 0, 2] "(a)" rfl htokenizes, hunique Tree.nesting⟩

end CanonicalLR
