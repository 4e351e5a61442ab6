import CanonicalLR.Item.Closure

namespace CanonicalLR

/-! States of the automaton.  The order of the items is kept, but it does not
distinguish states. -/

structure State where
  items : List Item
  /-- Whether some item has its dot at the end. -/
  reduces : Bool
deriving DecidableEq

namespace State

def ofItems (g : Grammar) (items : List Item) : State :=
  ⟨items, items.any (·.atEnd g)⟩

def itemSet (state : State) : ItemSet :=
  .ofList state.items

def sameItems (first second : List Item) : Bool :=
  first.all (second.contains ·) && second.all (first.contains ·)

/-- States agree if they have equally many items and the same set of them. -/
def agrees (first second : State) : Bool :=
  first.items.length = second.items.length && sameItems first.items second.items

theorem sameItems_iff {first second : List Item} :
    sameItems first second = true ↔ ∀ item, item ∈ first ↔ item ∈ second := by
  simp only [sameItems, Bool.and_eq_true, List.all_eq_true, List.contains_iff_mem]
  exact ⟨fun h item => ⟨h.1 item, h.2 item⟩,
    fun h => ⟨fun item => (h item).mp, fun item => (h item).mpr⟩⟩

end State
end CanonicalLR
