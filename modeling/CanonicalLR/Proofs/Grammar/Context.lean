import CanonicalLR.Proofs.Grammar.Derivation
import CanonicalLR.Proofs.Grammar.First

namespace CanonicalLR

/-! Where a nonterminal can stand in what the start rule derives, and which
terminals can follow it there. -/

namespace Grammar

/-- A nonterminal stands between the symbols `before` and the symbols `rest`. -/
inductive Context (g : Grammar) : List Symbol → Nat → List Symbol → Prop
  | start : g.Context [] g.start []
  | expand {before rest left right : List Symbol} {n id m : Nat}
      (hcontext : g.Context before n rest) (hid : id ∈ g.rulesOf n)
      (hrhs : (g.rule id).rhs = left ++ .nonterminal m :: right) :
      g.Context (before ++ left) m (right ++ rest)

/-- What can come next: what the first of the symbols can begin with, or else
what follows them all. -/
def upcoming (g : Grammar) (symbols : List Symbol) (following : TerminalSet) : TerminalSet :=
  match symbols with
  | [] => following
  | symbol :: _ => g.firstOfSymbol symbol

@[simp] theorem upcoming_nil (g : Grammar) (following : TerminalSet) :
    g.upcoming [] following = following := rfl

@[simp] theorem upcoming_cons (g : Grammar) (symbol : Symbol) (symbols : List Symbol)
    (following : TerminalSet) :
    g.upcoming (symbol :: symbols) following = g.firstOfSymbol symbol := rfl

theorem upcoming_append (g : Grammar) (first second : List Symbol)
    (following : TerminalSet) :
    g.upcoming (first ++ second) following = g.upcoming first (g.upcoming second following) := by
  cases first <;> rfl

/-- What can come after a context; the end marker comes after the start rule. -/
def followers (g : Grammar) (rest : List Symbol) : TerminalSet :=
  g.upcoming rest (.singleton .endMarker)

/-- The start symbol stands in no right-hand side. -/
def StartFree (g : Grammar) : Prop :=
  ∀ rule ∈ g.rules, .nonterminal g.start ∉ rule.rhs

instance (g : Grammar) : Decidable g.StartFree :=
  inferInstanceAs (Decidable (∀ rule ∈ g.rules, .nonterminal g.start ∉ rule.rhs))

variable {g : Grammar}

theorem StartFree.not_mem (h : g.StartFree) {id : Nat} (hid : id < g.rules.length) :
    .nonterminal g.start ∉ (g.rule id).rhs :=
  h _ (rule_mem hid)

theorem mem_rulesOf_start (hg : g.WellFormed) {id : Nat} :
    id ∈ g.rulesOf g.start ↔ id = 0 := by
  rw [mem_rulesOf]
  constructor
  · rintro ⟨hid, hlhs⟩
    apply Classical.byContradiction
    intro hne
    exact hg.lhs_ne_start hid hne hlhs
  · rintro rfl
    exact ⟨hg.rules_pos, rfl⟩

theorem begins_of_upcoming (hg : g.WellFormed) {n id : Nat} (hid : id ∈ g.rulesOf n)
    {following : TerminalSet} {t : Terminal}
    (ht : t ∈ g.upcoming (g.rule id).rhs following) : g.Begins (.nonterminal n) t := by
  obtain ⟨symbol, rest, hrhs⟩ :=
    List.exists_cons_of_ne_nil (hg.rhs_ne_nil (mem_rulesOf.mp hid).1)
  rw [hrhs, upcoming_cons] at ht
  exact .rule hid hrhs ((mem_firstOfSymbol_iff hg).mp ht)

def closingMarker (g : Grammar) : List Terminal :=
  if (g.rule 0).rhs.getLast? = some (.terminal .endMarker) then [.endMarker] else []

end Grammar

variable {g : Grammar}

/-! The first terminal of a tree is one that its root can begin with. -/

mutual
theorem Tree.exists_begins (hg : g.WellFormed) {symbol : Symbol} :
    ∀ tree : Tree g symbol, ∃ t rest, tree.frontier = t :: rest ∧ g.Begins symbol t
  | .leaf t => ⟨t, [], rfl, .terminal t⟩
  | .node id hid children => by
      obtain ⟨first, others, hrhs⟩ :=
        List.exists_cons_of_ne_nil (hg.rhs_ne_nil (Grammar.mem_rulesOf.mp hid).1)
      obtain ⟨t, rest, hfrontier, hbegins⟩ := children.exists_begins hg hrhs
      exact ⟨t, rest, hfrontier, .rule hid hrhs hbegins⟩

theorem Forest.exists_begins (hg : g.WellFormed) {symbols : List Symbol} :
    ∀ (forest : Forest g symbols) {symbol : Symbol} {others : List Symbol},
      symbols = symbol :: others →
        ∃ t rest, forest.frontier = t :: rest ∧ g.Begins symbol t
  | .cons tree forest, _, _, h => by
      cases h
      obtain ⟨t, rest, hfrontier, hbegins⟩ := tree.exists_begins hg
      refine ⟨t, rest ++ forest.frontier, ?_, hbegins⟩
      rw [Forest.frontier_cons, hfrontier, List.cons_append]
end

theorem Forest.exists_upcoming (hg : g.WellFormed) {symbols : List Symbol}
    (forest : Forest g symbols) {x : Terminal} {following : TerminalSet}
    (hx : x ∈ following) (more : List Terminal) :
    ∃ t rest, forest.frontier ++ x :: more = t :: rest ∧ t ∈ g.upcoming symbols following := by
  cases symbols with
  | nil =>
      cases forest
      exact ⟨x, more, rfl, hx⟩
  | cons symbol symbols =>
      obtain ⟨t, rest, hfrontier, hbegins⟩ := forest.exists_begins hg rfl
      refine ⟨t, rest ++ x :: more, ?_, (Grammar.mem_firstOfSymbol_iff hg).mpr hbegins⟩
      rw [hfrontier, List.cons_append]

theorem Forest.frontier_map_terminal :
    ∀ {terminals : List Terminal} (forest : Forest g (terminals.map .terminal)),
      forest.frontier = terminals
  | [], .nil => rfl
  | t :: _, .cons (.leaf _) forest => congrArg (t :: ·) forest.frontier_map_terminal

/-! Every rule in a tree is a rule of the grammar.  Without rule 0 there is no
end marker below symbols other than itself, and without the start symbol in
right-hand sides there is no rule 0 below them. -/

mutual
theorem Tree.postorder_lt {symbol : Symbol} :
    ∀ tree : Tree g symbol, ∀ id ∈ tree.postorder, id < g.rules.length
  | .leaf _, _, h => absurd h List.not_mem_nil
  | .node id hid children, other, h => by
      rcases List.mem_append.mp h with hchildren | hroot
      · exact children.postorder_lt other hchildren
      · rw [List.mem_singleton.mp hroot]
        exact (Grammar.mem_rulesOf.mp hid).1

theorem Forest.postorder_lt {symbols : List Symbol} :
    ∀ forest : Forest g symbols, ∀ id ∈ forest.postorder, id < g.rules.length
  | .nil, _, h => absurd h List.not_mem_nil
  | .cons tree forest, id, h => by
      rcases List.mem_append.mp h with htree | hforest
      · exact tree.postorder_lt id htree
      · exact forest.postorder_lt id hforest
end

theorem Grammar.WellFormed.endMarker_not_mem_rhs (hg : g.WellFormed) {id : Nat}
    (hid : id < g.rules.length) (hne : id ≠ 0) :
    .terminal .endMarker ∉ (g.rule id).rhs := by
  have hmarker := hg.endMarker_not_mem hid
  rwa [unmarkedPart, if_neg hne] at hmarker

mutual
theorem Tree.endMarker_not_mem_frontier (hg : g.WellFormed) {symbol : Symbol} :
    ∀ tree : Tree g symbol, 0 ∉ tree.postorder → symbol ≠ .terminal .endMarker →
      .endMarker ∉ tree.frontier
  | .leaf t, _, hsymbol => by
      intro hmem
      exact hsymbol (congrArg Symbol.terminal (List.mem_singleton.mp hmem).symm)
  | .node id hid children, hzero, _ => by
      have hchildren : 0 ∉ children.postorder := fun hmem =>
        hzero (List.mem_append_left [id] hmem)
      have hne : id ≠ 0 := by
        rintro rfl
        exact hzero (List.mem_append_right children.postorder List.mem_cons_self)
      exact children.endMarker_not_mem_frontier hg hchildren
        (hg.endMarker_not_mem_rhs (Grammar.mem_rulesOf.mp hid).1 hne)

theorem Forest.endMarker_not_mem_frontier (hg : g.WellFormed) {symbols : List Symbol} :
    ∀ forest : Forest g symbols, 0 ∉ forest.postorder →
      .terminal .endMarker ∉ symbols → .endMarker ∉ forest.frontier
  | .nil, _, _ => List.not_mem_nil
  | .cons tree forest, hzero, hsymbols => by
      obtain ⟨htree, hforest⟩ := not_or.mp fun h => hzero (List.mem_append.mpr h)
      obtain ⟨hsymbol, hrest⟩ := not_or.mp fun h => hsymbols (List.mem_cons.mpr h)
      intro hmem
      rcases List.mem_append.mp hmem with hmem | hmem
      · exact tree.endMarker_not_mem_frontier hg htree (Ne.symm hsymbol) hmem
      · exact forest.endMarker_not_mem_frontier hg hforest hrest hmem
end

mutual
theorem Tree.zero_not_mem_postorder (hfree : g.StartFree) {symbol : Symbol} :
    ∀ tree : Tree g symbol, symbol ≠ .nonterminal g.start → 0 ∉ tree.postorder
  | .leaf _, _ => List.not_mem_nil
  | .node id hid children, hsymbol => by
      obtain ⟨hlt, hlhs⟩ := Grammar.mem_rulesOf.mp hid
      intro hmem
      rcases List.mem_append.mp hmem with hmem | hroot
      · exact children.zero_not_mem_postorder hfree (hfree.not_mem hlt) hmem
      · apply hsymbol
        rw [← hlhs, ← List.mem_singleton.mp hroot]
        rfl

theorem Forest.zero_not_mem_postorder (hfree : g.StartFree) {symbols : List Symbol} :
    ∀ forest : Forest g symbols, .nonterminal g.start ∉ symbols → 0 ∉ forest.postorder
  | .nil, _ => List.not_mem_nil
  | .cons tree forest, hsymbols => by
      obtain ⟨hsymbol, hrest⟩ := not_or.mp fun h => hsymbols (List.mem_cons.mpr h)
      intro hmem
      rcases List.mem_append.mp hmem with hmem | hmem
      · exact tree.zero_not_mem_postorder hfree (Ne.symm hsymbol) hmem
      · exact forest.zero_not_mem_postorder hfree hrest hmem
end

end CanonicalLR
