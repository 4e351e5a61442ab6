import CanonicalLR.Proofs.Grammar.Context
import CanonicalLR.Proofs.Grammar.Form

namespace CanonicalLR

/-! How the forms that symbols derive can begin.  The first terminals are those of whole
trees, and below the symbol that comes next there is a path down to the next terminal.
What stands behind the path plays no part, even if it derives no terminals at all. -/

variable {g : Grammar}

/-! Trees are derivations. -/

mutual
theorem Tree.derives {symbol : Symbol} :
    ∀ tree : Tree g symbol, g.Derives [symbol] (tree.frontier.map .terminal)
  | .leaf _ => .refl
  | .node _ hid children => (Grammar.Derives.rule hid).trans children.derives

theorem Forest.derives {symbols : List Symbol} :
    ∀ forest : Forest g symbols, g.Derives symbols (forest.frontier.map .terminal)
  | .nil => .refl
  | @Forest.cons _ symbol symbols tree forest => by
      have htree := tree.derives.append_right symbols
      have hforest := forest.derives.append_left (tree.frontier.map .terminal)
      rw [← List.map_append] at hforest
      exact htree.trans hforest
end

namespace Grammar

variable {symbols form other : List Symbol} {terminals : List Terminal} {x : Terminal}

theorem Yields.derives {rules : List Nat} (h : g.Yields symbols terminals rules) :
    g.Derives symbols (terminals.map .terminal) := by
  obtain ⟨forest, rfl, _⟩ := h
  exact forest.derives

/-- What stands around a nonterminal comes from the start rule, and any rule of the
nonterminal may take its place. -/
theorem Context.derives (hg : g.WellFormed) {before rest : List Symbol} {n : Nat}
    (h : g.Context before n rest) {id : Nat} (hid : id ∈ g.rulesOf n) :
    g.Derives (g.rule 0).rhs (before ++ (g.rule id).rhs ++ rest) := by
  induction h generalizing id with
  | start =>
      rw [(mem_rulesOf_start hg).mp hid, List.nil_append, List.append_nil]
      exact .refl
  | @expand before rest left right n parent m _ hparent hrhs ih =>
      have hbefore := ih hparent
      have hstep := Replaces.intro hid (before ++ left) (right ++ rest)
      simp only [hrhs, List.append_assoc, List.cons_append] at hbefore hstep ⊢
      exact hbefore.tail hstep

/-- The terminals, and `x` behind them, begin some form that the symbols derive. -/
inductive Opens (g : Grammar) : List Symbol → List Terminal → Terminal → Prop
  | terminal (x : Terminal) (after : List Symbol) : g.Opens (.terminal x :: after) [] x
  | rule {n id : Nat} {terminals : List Terminal} {x : Terminal} (hid : id ∈ g.rulesOf n)
      (h : g.Opens (g.rule id).rhs terminals x) (after : List Symbol) :
      g.Opens (.nonterminal n :: after) terminals x
  | skip {symbol : Symbol} {form : List Symbol} {terminals : List Terminal} {x : Terminal}
      (tree : Tree g symbol) (h : g.Opens form terminals x) :
      g.Opens (symbol :: form) (tree.frontier ++ terminals) x

namespace Opens

theorem append_right (h : g.Opens form terminals x) (after : List Symbol) :
    g.Opens (form ++ after) terminals x := by
  induction h with
  | terminal x behind => exact .terminal x (behind ++ after)
  | rule hid h behind => exact .rule hid h (behind ++ after)
  | skip tree _ ih => exact .skip tree ih

theorem append_left (forest : Forest g symbols) (h : g.Opens form terminals x) :
    g.Opens (symbols ++ form) (forest.frontier ++ terminals) x := by
  induction symbols with
  | nil =>
      cases forest
      exact h
  | cons symbol symbols ih =>
      cases forest with
      | cons tree forest =>
          rw [Forest.frontier_cons, List.append_assoc]
          exact .skip tree (ih forest)

/-- The path goes down in the first symbols, or trees of all of them come before it. -/
theorem append_cases (h : g.Opens (symbols ++ form) terminals x) :
    g.Opens symbols terminals x ∨
      ∃ (forest : Forest g symbols) (others : List Terminal),
        terminals = forest.frontier ++ others ∧ g.Opens form others x := by
  induction symbols generalizing terminals with
  | nil => exact .inr ⟨.nil, terminals, rfl, h⟩
  | cons symbol symbols ih =>
      cases h with
      | terminal => exact .inl (.terminal x symbols)
      | rule hid h => exact .inl (.rule hid h symbols)
      | skip tree h =>
          rcases ih h with hfirst | ⟨forest, others, rfl, hsecond⟩
          · exact .inl (.skip tree hfirst)
          · refine .inr ⟨.cons tree forest, others, ?_, hsecond⟩
            rw [Forest.frontier_cons, List.append_assoc]

theorem of_terminals (terminals : List Terminal) (x : Terminal) (rest : List Symbol) :
    g.Opens (terminals.map .terminal ++ .terminal x :: rest) terminals x := by
  induction terminals with
  | nil => exact .terminal x rest
  | cons t terminals ih => exact .skip (.leaf t) ih

theorem of_replaces (hstep : g.Replaces form other) (h : g.Opens other terminals x) :
    g.Opens form terminals x := by
  cases hstep with
  | @intro n id hid before after =>
      rw [List.append_assoc] at h
      rcases h.append_cases with hbefore | ⟨front, others, rfl, hrest⟩
      · exact hbefore.append_right _
      · apply append_left front
        rcases hrest.append_cases with hrhs | ⟨children, behind, rfl, hafter⟩
        · exact .rule hid hrhs after
        · exact .skip (.node id hid children) hafter

theorem of_derives {rest : List Symbol}
    (h : g.Derives form (terminals.map .terminal ++ .terminal x :: rest)) :
    g.Opens form terminals x := by
  induction h using Relation.ReflTransGen.head_induction_on with
  | refl => exact of_terminals terminals x rest
  | head hstep _ ih => exact of_replaces hstep ih

theorem exists_begins (hg : g.WellFormed) (h : g.Opens form terminals x)
    (more : List Terminal) :
    ∃ symbol others t rest, form = symbol :: others ∧
      terminals ++ x :: more = t :: rest ∧ g.Begins symbol t := by
  induction h with
  | terminal x after => exact ⟨_, after, x, more, rfl, rfl, .terminal x⟩
  | rule hid _ after ih =>
      obtain ⟨symbol, others, t, rest, hrhs, hfirst, hbegins⟩ := ih
      exact ⟨_, after, t, rest, rfl, hfirst, .rule hid hrhs hbegins⟩
  | @skip symbol form terminals x tree _ _ =>
      obtain ⟨t, rest, hfrontier, hbegins⟩ := tree.exists_begins hg
      refine ⟨symbol, form, t, rest ++ (terminals ++ x :: more), rfl, ?_, hbegins⟩
      simp [hfrontier]

theorem exists_upcoming (hg : g.WellFormed) (h : g.Opens form terminals x)
    (more : List Terminal) (behind : List Symbol) (following : TerminalSet) :
    ∃ t rest, terminals ++ x :: more = t :: rest ∧
      t ∈ g.upcoming (form ++ behind) following := by
  obtain ⟨symbol, others, t, rest, rfl, hfirst, hbegins⟩ := h.exists_begins hg more
  exact ⟨t, rest, hfirst, (mem_firstOfSymbol_iff hg).mpr hbegins⟩

end Opens
end Grammar
end CanonicalLR
