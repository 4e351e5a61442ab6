import CanonicalLR.Item.Basic

namespace CanonicalLR

/-! The closure of a list of items, and the items reached over a symbol. -/

namespace Item

/-- Lookahead of the rules that expand the nonterminal behind the dot: what the
symbol after it can begin with, or else what may follow the item itself. -/
def expansionLookahead (g : Grammar) (item : Item) : TerminalSet :=
  match item.afterNext? g with
  | some symbol => g.firstOfSymbol symbol
  | none => item.lookahead

def expansions (g : Grammar) (item : Item) : List Item :=
  match item.next? g with
  | some (.nonterminal n) =>
      (g.rulesOf n).map fun rule => start rule (item.expansionLookahead g)
  | _ => []

theorem mem_expansions {g : Grammar} {item new : Item} :
    new ∈ item.expansions g ↔
      ∃ n, item.next? g = some (.nonterminal n) ∧
        ∃ rule ∈ g.rulesOf n, new = start rule (item.expansionLookahead g) := by
  unfold expansions
  split
  next n hnext =>
    constructor
    · intro h
      obtain ⟨rule, hrule, rfl⟩ := List.mem_map.mp h
      exact ⟨n, hnext, rule, hrule, rfl⟩
    · rintro ⟨m, hm, rule, hrule, rfl⟩
      rw [hnext] at hm
      cases hm
      exact List.mem_map.mpr ⟨rule, hrule, rfl⟩
  next hnext =>
    constructor
    · intro h
      exact absurd h List.not_mem_nil
    · rintro ⟨n, hn, _⟩
      exact absurd hn (hnext n)

end Item

namespace Closure

/-- Expands the pending items in order; an item that is already there is not
added again. -/
def run (g : Grammar) : Nat → List Item → List Item → List Item
  | 0, done, pending => done ++ pending
  | _ + 1, done, [] => done
  | budget + 1, done, item :: pending =>
      let fresh := (item.expansions g).filter fun new =>
        !(done ++ item :: pending).contains new
      run g budget (done ++ [item]) (pending ++ fresh)

/-- Items that a closure can hold: those of the kernel, and the rules with the
dot in front whose lookahead is a FIRST set or that of a kernel item. -/
def bound (g : Grammar) (kernel : List Item) : Nat :=
  kernel.length + g.rules.length * (g.symbols.length + kernel.length)

end Closure

/-- The closure begins with the kernel, repetitions removed, and lists every
further item in the order in which it was first asked for. -/
def closure (g : Grammar) (kernel : List Item) : List Item :=
  Closure.run g (Closure.bound g kernel) [] kernel.eraseDups

/-- Items with the symbol behind the dot, with the dot moved over it. -/
def successors (g : Grammar) (items : List Item) (symbol : Symbol) : List Item :=
  (items.filter fun item => item.next? g = some symbol).map Item.advance

theorem mem_successors {g : Grammar} {items : List Item} {symbol : Symbol} {new : Item} :
    new ∈ successors g items symbol ↔
      ∃ item ∈ items, item.next? g = some symbol ∧ new = item.advance := by
  simp only [successors, List.mem_map, List.mem_filter, decide_eq_true_eq]
  constructor
  · rintro ⟨item, ⟨hitem, hnext⟩, rfl⟩
    exact ⟨item, hitem, hnext, rfl⟩
  · rintro ⟨item, hitem, hnext, rfl⟩
    exact ⟨item, ⟨hitem, hnext⟩, rfl⟩

/-- The closed items reached over a symbol, if any item expects it. -/
def goto (g : Grammar) (items : List Item) (symbol : Symbol) : Option (List Item) :=
  match successors g items symbol with
  | [] => none
  | kernel => some (closure g kernel)

theorem goto_eq_none_iff {g : Grammar} {items : List Item} {symbol : Symbol} :
    goto g items symbol = none ↔ ∀ item ∈ items, item.next? g ≠ some symbol := by
  have hsuccessors : goto g items symbol = none ↔ successors g items symbol = [] := by
    unfold goto
    split <;> simp_all
  rw [hsuccessors, List.eq_nil_iff_forall_not_mem]
  constructor
  · intro h item hitem hnext
    exact h item.advance (mem_successors.mpr ⟨item, hitem, hnext, rfl⟩)
  · intro h new hnew
    obtain ⟨item, hitem, hnext, _⟩ := mem_successors.mp hnew
    exact h item hitem hnext

theorem goto_eq_some {g : Grammar} {items result : List Item} {symbol : Symbol}
    (h : goto g items symbol = some result) :
    result = closure g (successors g items symbol) := by
  unfold goto at h
  split at h
  next => cases h
  next => exact (Option.some.inj h).symm

end CanonicalLR
