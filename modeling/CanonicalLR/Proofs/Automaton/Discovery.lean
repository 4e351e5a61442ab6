import CanonicalLR.Proofs.Item.Proper
import Mathlib.Data.List.GetD
import Mathlib.Data.List.Sublists

namespace CanonicalLR

/-! Discovery finds every set of items that the symbols lead to, each one once,
and its budget is large enough for the frontier to become empty. -/

namespace Discovery

/-- A transition leads from the items of its source to those of its target. -/
structure Leads (g : Grammar) (d : Discovery) (transition : Transition) : Prop where
  source_lt : transition.source < d.found.length
  target_lt : transition.target < d.found.length
  symbol_mem : transition.symbol ∈ g.symbols
  goto_eq : ∃ items, goto g (d.itemsOf transition.source) transition.symbol = some items ∧
    State.sameItems items (d.itemsOf transition.target) = true

/-- What holds while the symbols in `remaining` are still to be followed from
one state. -/
structure Sound (g : Grammar) (d : Discovery) (source : Nat) (remaining : List Symbol) :
    Prop where
  found_pos : 0 < d.found.length
  itemsOf_zero : d.itemsOf 0 = initialItems g
  proper : ∀ {state}, state < d.found.length → ∀ item ∈ d.itemsOf state, item.Proper g
  expanded : ∀ {state}, state < d.found.length → ∀ item ∈ d.itemsOf state,
    ∀ new ∈ item.expansions g, new ∈ d.itemsOf state
  distinct : ∀ {first second}, first < d.found.length → second < d.found.length →
    State.sameItems (d.itemsOf first) (d.itemsOf second) = true → first = second
  leads : ∀ transition ∈ d.followed, d.Leads g transition
  frontier_nodup : d.frontier.Nodup
  frontier_lt : ∀ state ∈ d.frontier, state < d.found.length
  followed : ∀ {state symbol}, state < d.found.length → symbol ∈ g.symbols →
    goto g (d.itemsOf state) symbol ≠ none →
    state ∈ d.frontier ∨ (state = source ∧ symbol ∈ remaining) ∨
      ∃ transition ∈ d.followed, transition.source = state ∧ transition.symbol = symbol

variable {g : Grammar} {d : Discovery}

theorem sameItems_symm {first second : List Item}
    (h : State.sameItems first second = true) : State.sameItems second first = true :=
  State.sameItems_iff.mpr fun item => (State.sameItems_iff.mp h item).symm

theorem sameItems_trans {first second third : List Item}
    (hfirst : State.sameItems first second = true)
    (hsecond : State.sameItems second third = true) :
    State.sameItems first third = true :=
  State.sameItems_iff.mpr fun item =>
    (State.sameItems_iff.mp hfirst item).trans (State.sameItems_iff.mp hsecond item)

theorem itemsOf_eq {state : Nat} (hstate : state < d.found.length) :
    d.itemsOf state = d.found[state] := by
  rw [itemsOf, List.getD_eq_getElem?_getD, List.getElem?_eq_getElem hstate]
  rfl

theorem stateOf?_eq_some {items : List Item} {state : Nat}
    (h : d.stateOf? items = some state) :
    state < d.found.length ∧ State.sameItems items (d.itemsOf state) = true := by
  obtain ⟨hstate, hsame, _⟩ := List.findIdx?_eq_some_iff_getElem.mp h
  exact ⟨hstate, itemsOf_eq hstate ▸ hsame⟩

theorem stateOf?_eq_none {items : List Item} (h : d.stateOf? items = none) {state : Nat}
    (hstate : state < d.found.length) :
    State.sameItems items (d.itemsOf state) = false := by
  rw [itemsOf_eq hstate]
  exact List.findIdx?_eq_none_iff.mp h _ (List.getElem_mem hstate)

/-- Following a symbol does nothing, adds a transition to a state found before,
or finds a state and adds a transition to it. -/
theorem follow_cases (g : Grammar) (source : Nat) (d : Discovery) (symbol : Symbol) :
    (goto g (d.itemsOf source) symbol = none ∧ follow g source d symbol = d) ∨
    (∃ items target, goto g (d.itemsOf source) symbol = some items ∧
      target < d.found.length ∧ State.sameItems items (d.itemsOf target) = true ∧
      follow g source d symbol =
        { d with followed := d.followed ++ [⟨source, symbol, target⟩] }) ∨
    (∃ items, goto g (d.itemsOf source) symbol = some items ∧
      (∀ {state}, state < d.found.length →
        State.sameItems items (d.itemsOf state) = false) ∧
      follow g source d symbol =
        { found := d.found ++ [items]
          followed := d.followed ++ [⟨source, symbol, d.found.length⟩]
          frontier := d.frontier ++ [d.found.length] }) := by
  unfold follow
  cases hgoto : goto g (d.itemsOf source) symbol with
  | none => exact .inl ⟨rfl, rfl⟩
  | some items =>
      cases hstate : d.stateOf? items with
      | some target =>
          obtain ⟨htarget, hsame⟩ := stateOf?_eq_some hstate
          exact .inr (.inl ⟨items, target, rfl, htarget, hsame, by simp only [hstate]⟩)
      | none =>
          exact .inr (.inr ⟨items, rfl, stateOf?_eq_none hstate, by simp only [hstate]⟩)

/-! Found states keep their items. -/

theorem itemsOf_append {items : List Item} {followed : List Transition}
    {frontier : List Nat} {state : Nat} (hstate : state < d.found.length) :
    (⟨d.found ++ [items], followed, frontier⟩ : Discovery).itemsOf state =
      d.itemsOf state :=
  List.getD_append _ _ _ _ hstate

theorem itemsOf_append_self {items : List Item} {followed : List Transition}
    {frontier : List Nat} :
    (⟨d.found ++ [items], followed, frontier⟩ : Discovery).itemsOf d.found.length =
      items := by
  simp [itemsOf]

theorem Leads.append {transition : Transition} (h : d.Leads g transition)
    (items : List Item) (followed : List Transition) (frontier : List Nat) :
    Leads g ⟨d.found ++ [items], followed, frontier⟩ transition := by
  obtain ⟨hsource, htarget, hsymbol, hgoto⟩ := h
  refine ⟨?_, ?_, hsymbol, ?_⟩
  · exact Nat.lt_of_lt_of_le hsource (by simp)
  · exact Nat.lt_of_lt_of_le htarget (by simp)
  · rw [itemsOf_append hsource, itemsOf_append htarget]
    exact hgoto

theorem lt_length_append {items : List Item} {state : Nat}
    (h : state < (d.found ++ [items]).length) :
    state < d.found.length ∨ state = d.found.length := by
  rw [List.length_append, List.length_singleton] at h
  omega

theorem goto_expanded (hg : g.WellFormed) {items result : List Item} {symbol : Symbol}
    (h : goto g items symbol = some result) :
    ∀ item ∈ result, ∀ new ∈ item.expansions g, new ∈ result := by
  intro item hitem new hnew
  rw [goto_eq_some h] at hitem ⊢
  exact closure_expanded hg hitem hnew

/-- A transition on the first of the remaining symbols settles it. -/
theorem Sound.settled {source : Nat} {symbol : Symbol} {remaining : List Symbol}
    (h : d.Sound g source (symbol :: remaining)) (target : Nat) {state : Nat} {other : Symbol}
    (hstate : state < d.found.length) (hother : other ∈ g.symbols)
    (hsome : goto g (d.itemsOf state) other ≠ none) :
    state ∈ d.frontier ∨ (state = source ∧ other ∈ remaining) ∨
      ∃ transition ∈ d.followed ++ [⟨source, symbol, target⟩],
        transition.source = state ∧ transition.symbol = other := by
  rcases h.followed hstate hother hsome with hfrontier | ⟨rfl, hremaining⟩ | ⟨t, ht, heq⟩
  · exact .inl hfrontier
  · rcases List.mem_cons.mp hremaining with rfl | hremaining
    · exact .inr (.inr ⟨_, List.mem_append_right _ List.mem_cons_self, rfl, rfl⟩)
    · exact .inr (.inl ⟨rfl, hremaining⟩)
  · exact .inr (.inr ⟨t, List.mem_append_left _ ht, heq⟩)

theorem Sound.follow_old {source target : Nat} {symbol : Symbol} {remaining : List Symbol}
    (h : d.Sound g source (symbol :: remaining)) (hsource : source < d.found.length)
    (hsymbol : symbol ∈ g.symbols) (htarget : target < d.found.length)
    {items : List Item} (hgoto : goto g (d.itemsOf source) symbol = some items)
    (hsame : State.sameItems items (d.itemsOf target) = true) :
    Sound g { d with followed := d.followed ++ [⟨source, symbol, target⟩] }
      source remaining := by
  refine { h with leads := fun transition htransition => ?_, followed := ?_ }
  · rcases List.mem_append.mp htransition with hold | hnew
    · obtain ⟨holdSource, holdTarget, holdSymbol, holdGoto⟩ := h.leads transition hold
      exact ⟨holdSource, holdTarget, holdSymbol, holdGoto⟩
    · rw [List.mem_singleton.mp hnew]
      exact ⟨hsource, htarget, hsymbol, items, hgoto, hsame⟩
  · exact h.settled target

/-- A new state waits on the frontier. -/
theorem Sound.follow_new (hg : g.WellFormed) {source : Nat} {symbol : Symbol}
    {remaining : List Symbol} (h : d.Sound g source (symbol :: remaining))
    (hsource : source < d.found.length) (hsymbol : symbol ∈ g.symbols)
    {items : List Item} (hgoto : goto g (d.itemsOf source) symbol = some items)
    (hfresh : ∀ {state}, state < d.found.length →
      State.sameItems items (d.itemsOf state) = false) :
    Sound g
      { found := d.found ++ [items]
        followed := d.followed ++ [⟨source, symbol, d.found.length⟩]
        frontier := d.frontier ++ [d.found.length] }
      source remaining := by
  have hlast : d.found.length < (d.found ++ [items]).length := by simp
  constructor
  case found_pos => exact Nat.lt_of_lt_of_le h.found_pos (Nat.le_of_lt hlast)
  case itemsOf_zero => rw [itemsOf_append h.found_pos, h.itemsOf_zero]
  case proper =>
    intro state hstate
    rcases lt_length_append hstate with hold | rfl
    · rw [itemsOf_append hold]
      exact h.proper hold
    · rw [itemsOf_append_self]
      exact Item.proper_goto hg (h.proper hsource) hgoto
  case expanded =>
    intro state hstate
    rcases lt_length_append hstate with hold | rfl
    · rw [itemsOf_append hold]
      exact h.expanded hold
    · rw [itemsOf_append_self]
      exact goto_expanded hg hgoto
  case distinct =>
    intro first second hfirst hsecond hsame
    rcases lt_length_append hfirst with hfirst | rfl <;>
      rcases lt_length_append hsecond with hsecond | rfl
    · rw [itemsOf_append hfirst, itemsOf_append hsecond] at hsame
      exact h.distinct hfirst hsecond hsame
    · rw [itemsOf_append hfirst, itemsOf_append_self] at hsame
      have hback := sameItems_symm hsame
      rw [hfresh hfirst] at hback
      cases hback
    · rw [itemsOf_append_self, itemsOf_append hsecond, hfresh hsecond] at hsame
      cases hsame
    · rfl
  case leads =>
    intro transition htransition
    rcases List.mem_append.mp htransition with hold | hnew
    · exact (h.leads transition hold).append _ _ _
    · rw [List.mem_singleton.mp hnew]
      refine ⟨Nat.lt_trans hsource hlast, hlast, hsymbol, items, ?_, ?_⟩
      · rw [itemsOf_append hsource]
        exact hgoto
      · rw [itemsOf_append_self]
        exact State.sameItems_iff.mpr fun _ => Iff.rfl
  case frontier_nodup =>
    refine List.nodup_append.mpr ⟨h.frontier_nodup, List.nodup_singleton _, ?_⟩
    intro state hstate other hother heq
    rw [heq, List.mem_singleton.mp hother] at hstate
    exact Nat.lt_irrefl _ (h.frontier_lt _ hstate)
  case frontier_lt =>
    intro state hstate
    rcases List.mem_append.mp hstate with hold | hnew
    · exact Nat.lt_trans (h.frontier_lt state hold) hlast
    · rw [List.mem_singleton.mp hnew]
      exact hlast
  case followed =>
    intro state other hstate hother hsome
    rcases lt_length_append hstate with hold | rfl
    · rw [itemsOf_append hold] at hsome
      exact (h.settled d.found.length hold hother hsome).imp_left (List.mem_append_left _)
    · exact .inl (List.mem_append_right _ List.mem_cons_self)

theorem Sound.follow (hg : g.WellFormed) {source : Nat} {symbol : Symbol}
    {remaining : List Symbol} (h : d.Sound g source (symbol :: remaining))
    (hsource : source < d.found.length) (hsymbol : symbol ∈ g.symbols) :
    (follow g source d symbol).Sound g source remaining ∧
      source < (follow g source d symbol).found.length := by
  rcases follow_cases g source d symbol with ⟨hnone, heq⟩ |
      ⟨items, target, hgoto, htarget, hsame, heq⟩ | ⟨items, hgoto, hfresh, heq⟩
  · rw [heq]
    refine ⟨{ h with followed := fun {state other} hstate hother hsome => ?_ }, hsource⟩
    rcases h.followed hstate hother hsome with hfrontier | ⟨rfl, hremaining⟩ | hdone
    · exact .inl hfrontier
    · rcases List.mem_cons.mp hremaining with rfl | hremaining
      · exact absurd hnone hsome
      · exact .inr (.inl ⟨rfl, hremaining⟩)
    · exact .inr (.inr hdone)
  · rw [heq]
    exact ⟨h.follow_old hsource hsymbol htarget hgoto hsame, hsource⟩
  · rw [heq]
    refine ⟨h.follow_new hg hsource hsymbol hgoto hfresh, ?_⟩
    exact Nat.lt_of_lt_of_le hsource (by simp)

theorem Sound.foldl_follow (hg : g.WellFormed) {source : Nat} {remaining : List Symbol}
    (h : d.Sound g source remaining) (hsource : source < d.found.length)
    (hremaining : ∀ symbol ∈ remaining, symbol ∈ g.symbols) :
    (remaining.foldl (Discovery.follow g source) d).Sound g source [] := by
  induction remaining generalizing d with
  | nil => exact h
  | cons symbol remaining ih =>
      obtain ⟨hfollow, hlt⟩ := h.follow hg hsource (hremaining symbol List.mem_cons_self)
      exact ih hfollow hlt fun other hother => hremaining other (List.mem_cons_of_mem _ hother)

/-! The state that is taken from the frontier is expanded at once. -/

theorem take_eq_none {e : Exploration} {frontier : List Nat}
    (h : e.take frontier = none) : frontier = [] := by
  cases e with
  | breadthFirst =>
      cases frontier with
      | nil => rfl
      | cons oldest rest => cases h
  | depthFirst =>
      rw [Exploration.take, Option.map_eq_none_iff] at h
      exact List.getLast?_eq_none_iff.mp h

theorem take_eq_some {e : Exploration} {frontier rest : List Nat} {state : Nat}
    (h : e.take frontier = some (state, rest)) : frontier.Perm (state :: rest) := by
  cases e with
  | breadthFirst =>
      cases frontier with
      | nil => cases h
      | cons oldest others =>
          cases h
          exact .refl _
  | depthFirst =>
      obtain ⟨newest, hnewest, hpair⟩ := Option.map_eq_some_iff.mp h
      cases hpair
      obtain ⟨others, rfl⟩ := List.getLast?_eq_some_iff.mp hnewest
      rw [List.dropLast_concat]
      exact List.perm_append_singleton _ _

theorem Sound.take {source state : Nat} {rest : List Nat} (h : d.Sound g source [])
    (hperm : d.frontier.Perm (state :: rest)) :
    Sound g { d with frontier := rest } state g.symbols ∧ state < d.found.length := by
  have hstate : state < d.found.length :=
    h.frontier_lt state (hperm.mem_iff.mpr List.mem_cons_self)
  refine ⟨{ h with
    leads := fun transition htransition => ?_
    frontier_nodup := ?_
    frontier_lt := fun other hother => ?_
    followed := fun {other symbol} hother hsymbol hsome => ?_ }, hstate⟩
  · obtain ⟨hsource, htarget, hsymbol, hgoto⟩ := h.leads transition htransition
    exact ⟨hsource, htarget, hsymbol, hgoto⟩
  · exact (List.nodup_cons.mp (hperm.nodup_iff.mp h.frontier_nodup)).2
  · exact h.frontier_lt other (hperm.mem_iff.mpr (List.mem_cons_of_mem _ hother))
  · rcases h.followed hother hsymbol hsome with hfrontier | ⟨_, hnil⟩ | hdone
    · rcases List.mem_cons.mp (hperm.mem_iff.mp hfrontier) with rfl | hrest
      · exact .inr (.inl ⟨rfl, hsymbol⟩)
      · exact .inl hrest
    · exact absurd hnil List.not_mem_nil
    · exact .inr (.inr hdone)

theorem Sound.expand (hg : g.WellFormed) {source state : Nat} {rest : List Nat}
    (h : d.Sound g source []) (hperm : d.frontier.Perm (state :: rest)) :
    (expand g { d with frontier := rest } state).Sound g state [] := by
  obtain ⟨htake, hstate⟩ := h.take hperm
  exact htake.foldl_follow hg hstate fun _ hsymbol => hsymbol

theorem start_sound (hg : g.WellFormed) : (start g).Sound g 0 [] where
  found_pos := Nat.one_pos
  itemsOf_zero := rfl
  proper {state} hstate := by
    obtain rfl : state = 0 := Nat.lt_one_iff.mp hstate
    exact Item.proper_initialItems hg
  expanded {state} hstate := by
    obtain rfl : state = 0 := Nat.lt_one_iff.mp hstate
    exact fun item hitem new hnew => closure_expanded hg hitem hnew
  distinct {first second} hfirst hsecond _ := by
    rw [Nat.lt_one_iff.mp hfirst, Nat.lt_one_iff.mp hsecond]
  leads _ htransition := absurd htransition List.not_mem_nil
  frontier_nodup := List.nodup_singleton 0
  frontier_lt state hstate := by
    rw [List.mem_singleton.mp hstate]
    exact Nat.one_pos
  followed {state symbol} hstate _ _ := by
    obtain rfl : state = 0 := Nat.lt_one_iff.mp hstate
    exact .inl List.mem_cons_self

/-! Different states have different sets of proper items, so their number is
bounded.  A round takes one state from the frontier, and all that it finds goes
to the frontier, so every round leaves one more state expanded. -/

/-- A list that holds all proper items has a sublist for every state. -/
theorem Sound.length_found_le_sublists {source : Nat} {remaining : List Symbol}
    (h : d.Sound g source remaining) {items : List Item}
    (hitems : ∀ item, item.Proper g → item ∈ items) :
    d.found.length ≤ items.sublists.length := by
  have hsubsets : ((List.range d.found.length).map fun state =>
      items.filter (d.itemsOf state).contains).Nodup := by
    refine (List.nodup_map_iff_inj_on List.nodup_range).mpr ?_
    intro first hfirst second hsecond heq
    refine h.distinct (List.mem_range.mp hfirst) (List.mem_range.mp hsecond)
      (State.sameItems_iff.mpr fun item => ?_)
    have hmem : ∀ {state}, state < d.found.length →
        (item ∈ items.filter (d.itemsOf state).contains ↔
          item ∈ d.itemsOf state) := fun {state} hstate => by
      rw [List.mem_filter, List.contains_iff_mem, and_iff_right_iff_imp]
      exact fun hitem => hitems item (h.proper hstate item hitem)
    rw [← hmem (List.mem_range.mp hfirst), ← hmem (List.mem_range.mp hsecond), heq]
  have hsublists : ((List.range d.found.length).map fun state =>
      items.filter (d.itemsOf state).contains) ⊆ items.sublists := by
    intro subset hsubset
    obtain ⟨state, _, rfl⟩ := List.mem_map.mp hsubset
    exact List.mem_sublists.mpr List.filter_sublist
  have hlength := hsubsets.length_le_of_subset hsublists
  rwa [List.length_map, List.length_range] at hlength

theorem Sound.length_found_le {source : Nat} {remaining : List Symbol}
    (h : d.Sound g source remaining) : d.found.length ≤ bound g := by
  have hle := h.length_found_le_sublists fun item hitem => mem_candidates hitem
  rwa [List.length_sublists, length_candidates] at hle

/-- Every state found is expanded or waits, and there is no other. -/
def Accounts (d : Discovery) (expanded : List Nat) : Prop :=
  (expanded ++ d.frontier).Perm (List.range d.found.length)

theorem Accounts.length_eq {expanded : List Nat} (h : d.Accounts expanded) :
    expanded.length + d.frontier.length = d.found.length := by
  have hlength := List.Perm.length_eq h
  rwa [List.length_append, List.length_range] at hlength

theorem start_accounts (g : Grammar) : (start g).Accounts [] := .refl _

theorem Accounts.follow {expanded : List Nat} (h : d.Accounts expanded) (g : Grammar)
    (source : Nat) (symbol : Symbol) : (follow g source d symbol).Accounts expanded := by
  rcases follow_cases g source d symbol with ⟨_, heq⟩ | ⟨_, _, _, _, _, heq⟩ |
    ⟨_, _, _, heq⟩
  · rw [heq]
    exact h
  · rw [heq]
    exact h
  · rw [heq, Accounts, List.length_append, List.length_singleton, List.range_succ,
      ← List.append_assoc]
    exact List.Perm.append_right _ h

theorem Accounts.foldl_follow {expanded : List Nat} (h : d.Accounts expanded) (g : Grammar)
    (source : Nat) (symbols : List Symbol) :
    (symbols.foldl (Discovery.follow g source) d).Accounts expanded := by
  induction symbols generalizing d with
  | nil => exact h
  | cons symbol symbols ih => exact ih (h.follow g source symbol)

theorem Accounts.expand {expanded rest : List Nat} {state : Nat} (h : d.Accounts expanded)
    (g : Grammar) (hperm : d.frontier.Perm (state :: rest)) :
    (expand g { d with frontier := rest } state).Accounts (expanded ++ [state]) := by
  have htake : Accounts { d with frontier := rest } (expanded ++ [state]) := by
    rw [Accounts, List.append_assoc, List.singleton_append]
    exact (hperm.symm.append_left expanded).trans h
  exact htake.foldl_follow g state g.symbols

/-- Rounds, with the states that they take. -/
inductive Rounds (g : Grammar) (e : Exploration) : Discovery → List Nat → Discovery → Prop
  | nil (d : Discovery) : Rounds g e d [] d
  | cons {d last : Discovery} {source : Nat} {rest sources : List Nat}
      (htake : e.take d.frontier = some (source, rest))
      (hrounds : Rounds g e (expand g { d with frontier := rest } source) sources last) :
      Rounds g e d (source :: sources) last

/-- A run ends for want of waiting states or of budget. -/
theorem rounds_run (g : Grammar) (e : Exploration) (budget : Nat) (d : Discovery) :
    ∃ sources, Rounds g e d sources (d.run g e budget) ∧
      ((d.run g e budget).frontier = [] ∨ sources.length = budget) := by
  induction budget generalizing d with
  | zero => exact ⟨[], .nil d, .inr rfl⟩
  | succ budget ih =>
      unfold Discovery.run
      split
      next hnone => exact ⟨[], .nil d, .inl (take_eq_none hnone)⟩
      next source rest htake =>
        obtain ⟨sources, hrounds, hend⟩ := ih (expand g { d with frontier := rest } source)
        exact ⟨source :: sources, .cons htake hrounds, hend.imp_right (congrArg Nat.succ)⟩

section Rounds

variable {e : Exploration} {last : Discovery} {sources : List Nat}

theorem Rounds.sound (hg : g.WellFormed) (h : Rounds g e d sources last) {source : Nat}
    (hd : d.Sound g source []) : ∃ source, last.Sound g source [] := by
  induction h generalizing source with
  | nil => exact ⟨source, hd⟩
  | cons htake _ ih => exact ih (hd.expand hg (take_eq_some htake))

theorem Rounds.accounts (h : Rounds g e d sources last) {expanded : List Nat}
    (hd : d.Accounts expanded) : last.Accounts (expanded ++ sources) := by
  induction h generalizing expanded with
  | nil =>
      rw [List.append_nil]
      exact hd
  | cons htake _ ih =>
      have hrest := ih (hd.expand g (take_eq_some htake))
      rwa [List.append_assoc, List.singleton_append] at hrest

end Rounds

/-- The budget is large enough, because every round expands another state. -/
theorem run_frontier_eq_nil (hg : g.WellFormed) (e : Exploration) {budget : Nat}
    (hbudget : bound g ≤ budget) : ((start g).run g e budget).frontier = [] := by
  obtain ⟨sources, hrounds, hend⟩ := rounds_run g e budget (start g)
  rcases hend with hnil | hlength
  · exact hnil
  · obtain ⟨_, hsound⟩ := hrounds.sound hg (start_sound hg)
    have hle := hsound.length_found_le
    have hsum := (hrounds.accounts (start_accounts g)).length_eq
    rw [List.nil_append] at hsum
    exact List.length_eq_zero_iff.mp (by omega)

end Discovery

theorem discover_sound {g : Grammar} (hg : g.WellFormed) (e : Exploration) :
    ∃ last, (discover g e).Sound g last [] ∧ (discover g e).frontier = [] := by
  obtain ⟨_, hrounds, _⟩ := Discovery.rounds_run g e (Discovery.bound g) (Discovery.start g)
  obtain ⟨last, hsound⟩ := hrounds.sound hg (Discovery.start_sound hg)
  exact ⟨last, hsound, Discovery.run_frontier_eq_nil hg e (Nat.le_refl _)⟩

end CanonicalLR
