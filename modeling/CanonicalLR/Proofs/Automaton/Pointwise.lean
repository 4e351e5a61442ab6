import CanonicalLR.Proofs.Automaton.Collection
import Mathlib.Data.Set.Card

namespace CanonicalLR

/-! The collection of sets of items that look ahead to a single terminal each, and the sets
that the states stand for when their items are split. -/

namespace Grammar

/-- Where `A → α · B β` is followed by `t`, the rules of `B` are followed by whatever the
forms that `β t` derives begin with. -/
inductive InPointClosure (g : Grammar) (kernel : Set PointItem) : PointItem → Prop
  | kernel {item : PointItem} (hitem : item ∈ kernel) : g.InPointClosure kernel item
  | expand {item : PointItem} {n id : Nat} {rest more : List Symbol} {t : Terminal}
      (hitem : g.InPointClosure kernel item)
      (hdrop : (g.rule item.rule).rhs.drop item.dot = .nonterminal n :: rest)
      (hid : id ∈ g.rulesOf n)
      (hbegins : g.Derives (rest ++ [.terminal item.terminal]) (.terminal t :: more)) :
      g.InPointClosure kernel ⟨id, 0, t⟩

def pointClosure (g : Grammar) (kernel : Set PointItem) : Set PointItem :=
  fun item => g.InPointClosure kernel item

/-- Items with the symbol behind the dot, with the dot moved over it. -/
def pointSuccessors (g : Grammar) (items : Set PointItem) (symbol : Symbol) : Set PointItem :=
  fun item => ∃ dot, item.dot = dot + 1 ∧ ⟨item.rule, dot, item.terminal⟩ ∈ items ∧
    (g.rule item.rule).rhs[dot]? = some symbol

def pointGoto (g : Grammar) (items : Set PointItem) (symbol : Symbol) : Set PointItem :=
  g.pointClosure (g.pointSuccessors items symbol)

inductive InPointCollection (g : Grammar) : Set PointItem → Prop
  | start : g.InPointCollection (g.pointClosure {⟨0, 0, .endMarker⟩})
  | goto {items : Set PointItem} (symbol : Symbol) (hitems : g.InPointCollection items)
      (hsome : (g.pointGoto items symbol).Nonempty) :
      g.InPointCollection (g.pointGoto items symbol)

/-- The canonical collection of sets of items with one terminal each. -/
def pointCollection (g : Grammar) : Set (Set PointItem) :=
  fun items => g.InPointCollection items

variable {g : Grammar}

theorem exists_derives_iff (hg : g.WellFormed) {rest : List Symbol} {last t : Terminal} :
    (∃ more, g.Derives (rest ++ [.terminal last]) (.terminal t :: more)) ↔
      t ∈ g.upcoming rest (.singleton last) := by
  have hfirst : ∀ (symbol : Symbol) (more : List Symbol),
      (∃ after, g.Derives (symbol :: more) (.terminal t :: after)) ↔
        t ∈ g.firstOfSymbol symbol := by
    intro symbol more
    rw [mem_firstOfSymbol_iff hg]
    constructor
    · intro ⟨after, hderives⟩
      obtain ⟨first, hhead, hbegins⟩ := hderives.begins hg
      cases hhead
      exact hbegins
    · intro hbegins
      obtain ⟨after, hderives⟩ := hbegins.canBegin
      exact ⟨after ++ more, hderives.append_right more⟩
  cases rest with
  | nil => exact hfirst (.terminal last) []
  | cons symbol rest => exact hfirst symbol (rest ++ [.terminal last])

/-- What comes next does not depend on which terminal follows, but there must be one. -/
theorem mem_upcoming_iff {rest : List Symbol} {following : TerminalSet} {t : Terminal}
    (hsome : ∃ last, last ∈ following) :
    t ∈ g.upcoming rest following ↔
      ∃ last ∈ following, t ∈ g.upcoming rest (.singleton last) := by
  cases rest with
  | nil => simp
  | cons symbol rest =>
      obtain ⟨last, hlast⟩ := hsome
      exact ⟨fun h => ⟨last, hlast, h⟩, fun ⟨_, _, h⟩ => h⟩

theorem exists_mem_of_mem_pointClosure {kernel : Set PointItem} {item : PointItem}
    (h : item ∈ g.pointClosure kernel) : kernel.Nonempty := by
  induction h with
  | kernel hitem => exact ⟨_, hitem⟩
  | expand _ _ _ _ ih => exact ih

end Grammar

namespace Automaton

/-- The items of a state, split into items with one terminal each. -/
def pointItems (a : Automaton) (state : Nat) : Set PointItem :=
  fun item => ∃ lookahead, ⟨item.rule, item.dot, lookahead⟩ ∈ a.itemsOf state ∧
    item.terminal ∈ lookahead

variable {a : Automaton} {state source target : Nat} {symbol : Symbol}

theorem mem_pointItems {item : Item} {t : Terminal} (hitem : item ∈ a.itemsOf state)
    (ht : t ∈ item.lookahead) : ⟨item.rule, item.dot, t⟩ ∈ a.pointItems state :=
  ⟨item.lookahead, hitem, ht⟩

namespace Canonical

/-- The split items of a state are closed. -/
theorem pointClosure_subset (ha : a.Canonical) {kernel : Set PointItem}
    (hkernel : kernel ⊆ a.pointItems state) :
    a.grammar.pointClosure kernel ⊆ a.pointItems state := by
  intro item hitem
  induction hitem with
  | kernel hitem => exact hkernel hitem
  | @expand item n id rest more t _ hdrop hid hbegins ih =>
      obtain ⟨lookahead, hmem, hlast⟩ := ih
      obtain ⟨hnext, hrest⟩ := Item.next?_of_drop ⟨item.rule, item.dot, lookahead⟩ hdrop
      refine ⟨_, ha.expansion_mem hmem hnext hid, ?_⟩
      rw [Item.expansionLookahead_eq, hrest, Grammar.mem_upcoming_iff ⟨_, hlast⟩]
      exact ⟨_, hlast, (Grammar.exists_derives_iff ha.wellFormed).mp ⟨more, hbegins⟩⟩

/-- An item whose lookahead is not empty hands its expansions on to the split items. -/
theorem expansion_mem_pointClosure (ha : a.Canonical) {kernel : Set PointItem}
    {item new : Item} (hsome : ∃ t, t ∈ item.lookahead)
    (hitem : ∀ t ∈ item.lookahead, ⟨item.rule, item.dot, t⟩ ∈ a.grammar.pointClosure kernel)
    (hnew : new ∈ item.expansions a.grammar) :
    ∀ t ∈ new.lookahead, ⟨new.rule, new.dot, t⟩ ∈ a.grammar.pointClosure kernel := by
  obtain ⟨n, hnext, id, hid, rfl⟩ := Item.mem_expansions.mp hnew
  intro t ht
  have ht : t ∈ item.expansionLookahead a.grammar := ht
  rw [Item.expansionLookahead_eq, Grammar.mem_upcoming_iff hsome] at ht
  obtain ⟨last, hlast, ht⟩ := ht
  obtain ⟨more, hbegins⟩ := (Grammar.exists_derives_iff ha.wellFormed).mpr ht
  exact .expand (hitem last hlast) (Item.drop_dot hnext) hid hbegins

variable (hfilled : ∀ {state}, ∀ item ∈ a.itemsOf state, ∃ t, t ∈ item.lookahead)
include hfilled

theorem pointItems_zero (ha : a.Canonical) :
    a.pointItems 0 = a.grammar.pointClosure {⟨0, 0, .endMarker⟩} := by
  apply Set.Subset.antisymm
  · intro item ⟨lookahead, hitem, ht⟩
    have hclosed : ∀ item ∈ a.itemsOf 0, item ∈ a.itemsOf 0 ∧ ∀ t ∈ item.lookahead,
        ⟨item.rule, item.dot, t⟩ ∈
          a.grammar.pointClosure {(⟨0, 0, .endMarker⟩ : PointItem)} := by
      refine ha.zero_induction ⟨ha.start_mem, ?_⟩ fun item new ⟨hmem, hitem⟩ hnew => ?_
      · intro t ht
        cases OrderedSet.mem_singleton.mp ht
        exact .kernel rfl
      · exact ⟨ha.expanded item hmem new hnew,
          ha.expansion_mem_pointClosure (hfilled item hmem) hitem hnew⟩
    exact (hclosed _ hitem).2 _ ht
  · apply ha.pointClosure_subset
    rintro _ rfl
    exact mem_pointItems ha.start_mem (OrderedSet.mem_singleton.mpr rfl)

theorem pointItems_target (ha : a.Canonical)
    (hstep : ⟨source, symbol, target⟩ ∈ a.transitions) :
    a.pointItems target = a.grammar.pointGoto (a.pointItems source) symbol := by
  apply Set.Subset.antisymm
  · intro item ⟨lookahead, hitem, ht⟩
    have hclosed : ∀ item ∈ a.itemsOf target, item ∈ a.itemsOf target ∧
        ∀ t ∈ item.lookahead,
          ⟨item.rule, item.dot, t⟩ ∈ a.grammar.pointGoto (a.pointItems source) symbol := by
      refine ha.target_induction hstep (fun item hmem hnext => ?_)
        fun item new ⟨hmem, hitem⟩ hnew => ?_
      · refine ⟨ha.advance_mem hstep hmem hnext, fun t ht => .kernel ?_⟩
        exact ⟨item.dot, rfl, mem_pointItems hmem ht, hnext⟩
      · exact ⟨ha.expanded item hmem new hnew,
          ha.expansion_mem_pointClosure (hfilled item hmem) hitem hnew⟩
    exact (hclosed _ hitem).2 _ ht
  · apply ha.pointClosure_subset
    rintro ⟨rule, _, t⟩ ⟨dot, rfl, ⟨lookahead, hitem, ht⟩, hnext⟩
    exact mem_pointItems (ha.advance_mem hstep hitem hnext) ht

/-- Where no lookahead is empty, the states stand for the sets of the collection. -/
theorem image_pointItems (ha : a.Canonical)
    (htraces : ∀ state < a.stateCount, ∃ trail : Trail, a.Traces trail ∧ trail.top = state) :
    a.pointItems '' Set.Iio a.stateCount = a.grammar.pointCollection := by
  apply Set.Subset.antisymm
  · rintro _ ⟨state, hstate, rfl⟩
    obtain ⟨trail, htrail, rfl⟩ := htraces state hstate
    clear hstate
    induction htrail with
    | nil => exact ha.pointItems_zero hfilled ▸ .start
    | @cons trail symbol state _ hstep ih =>
        have htarget := ha.pointItems_target hfilled hstep
        obtain ⟨item, hitem, _, hadvanced⟩ := ha.exists_advanced hstep
        obtain ⟨t, ht⟩ := hfilled item hitem
        have hmem := mem_pointItems hadvanced ht
        rw [Trail.top_cons]
        rw [htarget] at hmem ⊢
        exact .goto symbol ih ⟨_, hmem⟩
  · intro items hitems
    induction hitems with
    | start => exact ⟨0, ha.states_pos, ha.pointItems_zero hfilled⟩
    | goto symbol _ hsome ih =>
        obtain ⟨source, _, rfl⟩ := ih
        obtain ⟨_, hitem⟩ := hsome
        obtain ⟨_, dot, _, ⟨lookahead, hmem, _⟩, hnext⟩ :=
          Grammar.exists_mem_of_mem_pointClosure hitem
        obtain ⟨target, hstep⟩ := ha.exists_transition hmem hnext
        exact ⟨target, ha.target_lt _ hstep, ha.pointItems_target hfilled hstep⟩

end Canonical

end Automaton
end CanonicalLR
