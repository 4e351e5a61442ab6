import CanonicalLR.Proofs.Grammar.WellFormed

namespace CanonicalLR

/-! Derivation trees.  A tree is indexed by the symbol at its root and a forest
by the symbols of its roots, so that every tree follows the rules. -/

mutual
inductive Tree (g : Grammar) : Symbol → Type
  | leaf (t : Terminal) : Tree g (.terminal t)
  | node {n : Nat} (id : Nat) (hid : id ∈ g.rulesOf n)
      (children : Forest g (g.rule id).rhs) : Tree g (.nonterminal n)

inductive Forest (g : Grammar) : List Symbol → Type
  | nil : Forest g []
  | cons {symbol : Symbol} {symbols : List Symbol} (tree : Tree g symbol)
      (forest : Forest g symbols) : Forest g (symbol :: symbols)
end

variable {g : Grammar}

mutual
/-- The terminals at the leaves, from left to right. -/
def Tree.frontier {symbol : Symbol} : Tree g symbol → List Terminal
  | .leaf t => [t]
  | .node _ _ children => children.frontier

def Forest.frontier {symbols : List Symbol} : Forest g symbols → List Terminal
  | .nil => []
  | .cons tree forest => tree.frontier ++ forest.frontier
end

mutual
/-- The rules of the inner nodes, children before their parent. -/
def Tree.postorder {symbol : Symbol} : Tree g symbol → List Nat
  | .leaf _ => []
  | .node id _ children => children.postorder ++ [id]

def Forest.postorder {symbols : List Symbol} : Forest g symbols → List Nat
  | .nil => []
  | .cons tree forest => tree.postorder ++ forest.postorder
end

@[simp] theorem Tree.frontier_leaf (t : Terminal) :
    (Tree.leaf t : Tree g _).frontier = [t] := rfl

@[simp] theorem Tree.postorder_leaf (t : Terminal) :
    (Tree.leaf t : Tree g _).postorder = [] := rfl

@[simp] theorem Tree.frontier_node {n id : Nat} (hid : id ∈ g.rulesOf n)
    (children : Forest g (g.rule id).rhs) :
    (Tree.node id hid children).frontier = children.frontier := rfl

@[simp] theorem Tree.postorder_node {n id : Nat} (hid : id ∈ g.rulesOf n)
    (children : Forest g (g.rule id).rhs) :
    (Tree.node id hid children).postorder = children.postorder ++ [id] := rfl

namespace Forest

@[simp] theorem frontier_nil : (nil : Forest g []).frontier = [] := rfl

@[simp] theorem postorder_nil : (nil : Forest g []).postorder = [] := rfl

@[simp] theorem frontier_cons {symbol : Symbol} {symbols : List Symbol}
    (tree : Tree g symbol) (forest : Forest g symbols) :
    (cons tree forest).frontier = tree.frontier ++ forest.frontier := rfl

@[simp] theorem postorder_cons {symbol : Symbol} {symbols : List Symbol}
    (tree : Tree g symbol) (forest : Forest g symbols) :
    (cons tree forest).postorder = tree.postorder ++ forest.postorder := rfl

def append {first second : List Symbol} :
    Forest g first → Forest g second → Forest g (first ++ second)
  | .nil, right => right
  | .cons tree left, right => .cons tree (left.append right)

@[simp] theorem frontier_append {first second : List Symbol}
    (left : Forest g first) (right : Forest g second) :
    (left.append right).frontier = left.frontier ++ right.frontier := by
  induction first with
  | nil => cases left; rfl
  | cons symbol first ih =>
      cases left with
      | cons tree left =>
          show tree.frontier ++ (left.append right).frontier = _
          rw [ih, frontier_cons, List.append_assoc]

@[simp] theorem postorder_append {first second : List Symbol}
    (left : Forest g first) (right : Forest g second) :
    (left.append right).postorder = left.postorder ++ right.postorder := by
  induction first with
  | nil => cases left; rfl
  | cons symbol first ih =>
      cases left with
      | cons tree left =>
          show tree.postorder ++ (left.append right).postorder = _
          rw [ih, postorder_cons, List.append_assoc]

theorem exists_append {first second : List Symbol}
    (forest : Forest g (first ++ second)) :
    ∃ (left : Forest g first) (right : Forest g second),
      forest = left.append right := by
  induction first with
  | nil => exact ⟨.nil, forest, rfl⟩
  | cons symbol first ih =>
      cases forest with
      | cons tree rest =>
          obtain ⟨left, right, rfl⟩ := ih rest
          exact ⟨.cons tree left, right, rfl⟩

end Forest

/-! The rules in post-order determine a tree.  Read from the back, a list of
rules names the root of the last tree first, so the last trees of two forests
agree before anything is known about the trees in front of them. -/

mutual
theorem Tree.eq_of_append_postorder {symbol : Symbol} :
    ∀ {first second : Tree g symbol} {front back : List Nat},
      front ++ first.postorder = back ++ second.postorder →
        first = second ∧ front = back
  | .leaf t, .leaf _, front, back, h => by
      rw [Tree.postorder_leaf, List.append_nil, List.append_nil] at h
      exact ⟨rfl, h⟩
  | .node id hid children, .node other hother rest, front, back, h => by
      rw [Tree.postorder_node, Tree.postorder_node, ← List.append_assoc,
        ← List.append_assoc] at h
      obtain ⟨hchildren, hroot⟩ := List.append_inj' h rfl
      cases hroot
      obtain ⟨rfl, hfront⟩ := Forest.eq_of_append_postorder hchildren
      exact ⟨rfl, hfront⟩

theorem Forest.eq_of_append_postorder {symbols : List Symbol} :
    ∀ {first second : Forest g symbols} {front back : List Nat},
      front ++ first.postorder = back ++ second.postorder →
        first = second ∧ front = back
  | .nil, .nil, front, back, h => by
      rw [Forest.postorder_nil, List.append_nil, List.append_nil] at h
      exact ⟨rfl, h⟩
  | .cons tree forest, .cons other rest, front, back, h => by
      rw [Forest.postorder_cons, Forest.postorder_cons, ← List.append_assoc,
        ← List.append_assoc] at h
      obtain ⟨rfl, htrees⟩ := Forest.eq_of_append_postorder h
      obtain ⟨rfl, hfront⟩ := Tree.eq_of_append_postorder htrees
      exact ⟨rfl, hfront⟩
end

theorem Tree.postorder_injective {symbol : Symbol} {first second : Tree g symbol}
    (h : first.postorder = second.postorder) : first = second :=
  (@Tree.eq_of_append_postorder g symbol first second [] [] h).1

end CanonicalLR
