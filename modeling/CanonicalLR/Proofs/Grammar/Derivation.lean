import CanonicalLR.Proofs.Grammar.Tree

namespace CanonicalLR

/-! Rightmost derivations.  A step replaces the rightmost nonterminal of a form
by the right-hand side of one of its rules. -/

namespace Grammar

def rewriteRightmost (g : Grammar) (id : Nat) : List Symbol → Option (List Symbol)
  | [] => none
  | symbol :: rest =>
      if rest.all Symbol.isTerminal then
        if symbol = .nonterminal (g.rule id).lhs then some ((g.rule id).rhs ++ rest)
        else none
      else (g.rewriteRightmost id rest).map (symbol :: ·)

def rewrite (g : Grammar) (form : List Symbol) (rules : List Nat) : Option (List Symbol) :=
  rules.foldlM (fun form id => g.rewriteRightmost id form) form

theorem rewriteRightmost_append (g : Grammar) (id : Nat) (before : List Symbol)
    (after : List Terminal) :
    g.rewriteRightmost id
        (before ++ .nonterminal (g.rule id).lhs :: after.map .terminal) =
      some (before ++ (g.rule id).rhs ++ after.map .terminal) := by
  induction before with
  | nil => simp [rewriteRightmost]
  | cons symbol before ih =>
      rw [List.cons_append, rewriteRightmost, if_neg (by simp), ih]
      simp

@[simp] theorem rewrite_nil (g : Grammar) (form : List Symbol) :
    g.rewrite form [] = some form := rfl

theorem rewrite_append {g : Grammar} {form middle : List Symbol} {first second : List Nat}
    (h : g.rewrite form first = some middle) :
    g.rewrite form (first ++ second) = g.rewrite middle second := by
  rw [rewrite, List.foldlM_append]
  rw [rewrite] at h
  rw [h]
  rfl

end Grammar

/-! A tree is derived from its root by its rules, the root's own rule first and
the last subtree before those in front of it. -/

mutual
theorem Tree.rewrite_postorder {g : Grammar} {symbol : Symbol} :
    ∀ (tree : Tree g symbol) (before : List Symbol) (after : List Terminal),
      g.rewrite (before ++ symbol :: after.map .terminal) tree.postorder.reverse =
        some (before ++ (tree.frontier ++ after).map .terminal)
  | .leaf t, before, after => by simp
  | .node id hid children, before, after => by
      obtain ⟨_, rfl⟩ := Grammar.mem_rulesOf.mp hid
      have hstep : g.rewrite
          (before ++ .nonterminal (g.rule id).lhs :: after.map .terminal) [id] =
            some (before ++ (g.rule id).rhs ++ after.map .terminal) := by
        show (g.rewriteRightmost id _).bind some = _
        rw [g.rewriteRightmost_append]
        rfl
      rw [Tree.postorder_node, List.reverse_append, List.reverse_singleton,
        Grammar.rewrite_append hstep, Tree.frontier_node]
      exact children.rewrite_postorder before after

theorem Forest.rewrite_postorder {g : Grammar} {symbols : List Symbol} :
    ∀ (forest : Forest g symbols) (before : List Symbol) (after : List Terminal),
      g.rewrite (before ++ symbols ++ after.map .terminal) forest.postorder.reverse =
        some (before ++ (forest.frontier ++ after).map .terminal)
  | .nil, before, after => by simp
  | @Forest.cons _ symbol symbols tree forest, before, after => by
      have hforest : g.rewrite (before ++ symbol :: symbols ++ after.map .terminal)
          forest.postorder.reverse =
            some (before ++ symbol :: (forest.frontier ++ after).map .terminal) := by
        simpa using forest.rewrite_postorder (before ++ [symbol]) after
      rw [Forest.postorder_cons, List.reverse_append, Grammar.rewrite_append hforest,
        tree.rewrite_postorder before (forest.frontier ++ after), Forest.frontier_cons,
        List.append_assoc]
end

/-! What a string of symbols derives, and by which rules. -/

namespace Grammar

/-- The terminals are derived from the symbols by trees with these rules in
post-order. -/
def Yields (g : Grammar) (symbols : List Symbol) (terminals : List Terminal)
    (rules : List Nat) : Prop :=
  ∃ forest : Forest g symbols, forest.frontier = terminals ∧ forest.postorder = rules

theorem yields_nil (g : Grammar) : g.Yields [] [] [] :=
  ⟨.nil, rfl, rfl⟩

theorem Yields.terminal {g : Grammar} {symbols : List Symbol}
    {terminals : List Terminal} {rules : List Nat}
    (h : g.Yields symbols terminals rules) (t : Terminal) :
    g.Yields (symbols ++ [.terminal t]) (terminals ++ [t]) rules := by
  obtain ⟨forest, rfl, rfl⟩ := h
  exact ⟨forest.append (.cons (.leaf t) .nil), by simp, by simp⟩

theorem Yields.reduce {g : Grammar} {symbols : List Symbol}
    {terminals : List Terminal} {rules : List Nat} {n id : Nat}
    (hid : id ∈ g.rulesOf n)
    (h : g.Yields (symbols ++ (g.rule id).rhs) terminals rules) :
    g.Yields (symbols ++ [.nonterminal n]) terminals (rules ++ [id]) := by
  obtain ⟨forest, rfl, rfl⟩ := h
  obtain ⟨left, children, rfl⟩ := forest.exists_append
  exact ⟨left.append (.cons (.node id hid children) .nil), by simp, by simp⟩

theorem Yields.rewrite {g : Grammar} {symbols : List Symbol}
    {terminals : List Terminal} {rules : List Nat}
    (h : g.Yields symbols terminals rules) :
    g.rewrite symbols rules.reverse = some (terminals.map .terminal) := by
  obtain ⟨forest, rfl, rfl⟩ := h
  simpa using forest.rewrite_postorder [] []

end Grammar
end CanonicalLR
