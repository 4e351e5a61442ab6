import CanonicalLR.Grammar.Basic

namespace CanonicalLR

/-! Items: a rule, a dot in its right-hand side, and the terminals that may
follow.  Items that differ in their lookahead alone are different items. -/

structure Item where
  rule : Nat
  dot : Nat
  lookahead : TerminalSet
deriving DecidableEq

namespace Item

def order (first second : Item) : Ordering :=
  (compare first.rule second.rule).then
    ((compare first.dot second.dot).then (compare first.lookahead second.lookahead))

instance : Ord Item := ⟨order⟩

instance : Std.TransOrd Item :=
  inferInstanceAs (Std.TransCmp fun first second : Item =>
    compareLex (compareOn Item.rule)
      (compareLex (compareOn Item.dot) (compareOn Item.lookahead)) first second)

instance : Std.LawfulEqOrd Item where
  compare_self {item} := by
    show order item item = .eq
    simp [order]
  eq_of_compare {first second} h := by
    have h : order first second = .eq := h
    simp only [order, Ordering.then_eq_eq, Std.LawfulEqOrd.compare_eq_iff_eq] at h
    obtain ⟨hrule, hdot, hlookahead⟩ := h
    cases first
    cases second
    cases hrule
    cases hdot
    cases hlookahead
    rfl

/-- The item of a rule with the dot in front. -/
def start (rule : Nat) (lookahead : TerminalSet) : Item :=
  ⟨rule, 0, lookahead⟩

/-- The dot moved over the next symbol. -/
def advance (item : Item) : Item :=
  { item with dot := item.dot + 1 }

def rhs (g : Grammar) (item : Item) : List Symbol :=
  (g.rule item.rule).rhs

/-- The symbol behind the dot. -/
def next? (g : Grammar) (item : Item) : Option Symbol :=
  (item.rhs g)[item.dot]?

/-- The symbol that follows the one behind the dot. -/
def afterNext? (g : Grammar) (item : Item) : Option Symbol :=
  (item.rhs g)[item.dot + 1]?

def atEnd (g : Grammar) (item : Item) : Bool :=
  (item.rhs g).length ≤ item.dot

@[simp] theorem rule_advance (item : Item) : item.advance.rule = item.rule := rfl

@[simp] theorem dot_advance (item : Item) : item.advance.dot = item.dot + 1 := rfl

@[simp] theorem lookahead_advance (item : Item) :
    item.advance.lookahead = item.lookahead := rfl

@[simp] theorem rhs_advance (g : Grammar) (item : Item) :
    item.advance.rhs g = item.rhs g := rfl

theorem next?_advance (g : Grammar) (item : Item) :
    item.advance.next? g = item.afterNext? g := rfl

theorem next?_eq_none_iff {g : Grammar} {item : Item} :
    item.next? g = none ↔ item.atEnd g = true := by
  simp [next?, atEnd]

/-! The written form of an item shows the dot inside the rule.  A dot beyond
the end is not shown. -/

/-- Names with a dot in front of the one at position `dot`. -/
def dotted (names : List String) (dot : Nat) : String :=
  if dot ≤ names.length then
    String.join (names.take dot) ++ "." ++ String.join (names.drop dot)
  else String.join names

def ruleText (g : Grammar) (item : Item) : String :=
  g.nonterminalName (g.rule item.rule).lhs ++ "->" ++
    dotted ((item.rhs g).map g.name) item.dot

def lookaheadText (g : Grammar) (item : Item) : String :=
  g.setText item.lookahead

def text (g : Grammar) (item : Item) : String :=
  item.ruleText g ++ "    " ++ item.lookaheadText g

end Item

abbrev ItemSet := OrderedSet Item

end CanonicalLR
