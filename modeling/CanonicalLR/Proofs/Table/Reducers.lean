import CanonicalLR.Proofs.Automaton.Rearranged
import CanonicalLR.Proofs.Table.Competition

namespace CanonicalLR

/-! What competes for the cells of a canonical automaton: the step over the symbol,
and behind it the rules to reduce by, in the order of the items of the state. -/

theorem flatMap_zipIdx {α β : Type} {f : α × Nat → List β} {index : Nat}
    (hother : ∀ x i, i ≠ index → f (x, i) = []) (l : List α) :
    l.zipIdx.flatMap f = (l[index]?.map fun x => f (x, index)).getD [] := by
  induction l using List.reverseRecOn with
  | nil => rfl
  | append_singleton l last ih =>
      rw [List.zipIdx_append, List.flatMap_append, ih, List.zipIdx_singleton,
        List.flatMap_singleton, Nat.zero_add]
      rcases Nat.lt_trichotomy index l.length with hlt | rfl | hgt
      · rw [hother last _ (Nat.ne_of_gt hlt), List.append_nil, List.getElem?_append_left hlt]
      · rw [List.getElem?_concat_length, List.getElem?_eq_none (Nat.le_refl _)]
        rfl
      · rw [hother last _ (Nat.ne_of_lt hgt), List.getElem?_eq_none (Nat.le_of_lt hgt),
          List.getElem?_eq_none (by simpa using Nat.succ_le_of_lt hgt)]
        rfl

theorem flatMap_zipIdx_perm {α β : Type} {R : α → α → Prop} {f h : α × Nat → List β}
    {first second : List α} (hall : List.Forall₂ R first second)
    (hperm : ∀ x y index, R x y → (f (x, index)).Perm (h (y, index))) (start : Nat) :
    ((first.zipIdx start).flatMap f).Perm ((second.zipIdx start).flatMap h) := by
  induction hall generalizing start with
  | nil => exact .refl _
  | cons hxy _ ih =>
      simp only [List.zipIdx_cons, List.flatMap_cons]
      exact (hperm _ _ start hxy).append (ih (start + 1))

theorem Proposal.competing_perm {proposals others : List Proposal} (h : proposals.Perm others)
    (state : Nat) (symbol : Symbol) :
    (competing proposals state symbol).Perm (competing others state symbol) := by
  apply (List.perm_ext_iff_of_nodup (eraseDups_nodup _) (eraseDups_nodup _)).mpr
  intro action
  rw [← competing, ← competing, mem_competing, mem_competing]
  exact h.mem_iff

theorem Action.reduce_injective : Function.Injective Action.reduce :=
  fun _ _ h => Action.reduce.inj h

namespace Automaton

/-- The action that a transition over the symbol proposes. -/
def step? (a : Automaton) (state : Nat) (symbol : Symbol) : Option Action :=
  (a.goto? state symbol).map fun target =>
    (transitionProposal state ⟨state, symbol, target⟩).action

/-- The rules by which items of a state ask to reduce in front of a terminal, each once,
in the order of the items. -/
def reducers (a : Automaton) (state : Nat) (t : Terminal) : List Nat :=
  (((a.itemsOf state).filter fun item => item.atEnd a.grammar ∧ t ∈ item.lookahead).map
    Item.rule).eraseDups

def reductions (a : Automaton) (state : Nat) : Symbol → List Action
  | .terminal t => (a.reducers state t).map .reduce
  | .nonterminal _ => []

variable {a b : Automaton} {state : Nat} {symbol : Symbol}

theorem step?_ne_reduce {id : Nat} : a.step? state symbol ≠ some (.reduce id) := by
  intro h
  obtain ⟨target, _, heq⟩ := Option.map_eq_some_iff.mp h
  cases symbol <;> cases heq

theorem state_eq_of_mem_stateProposals {index : Nat} {found : State} {p : Proposal}
    (h : p ∈ a.stateProposals index found) : p.state = index := by
  rcases mem_stateProposals.mp h with ⟨_, _, _, rfl⟩ | ⟨_, item, _, hp⟩
  · rfl
  · obtain ⟨_, _, _, rfl⟩ := mem_itemProposals.mp hp
    rfl

theorem stateProposals_eq (ha : a.Canonical) {found : State}
    (hfound : a.states[state]? = some found) :
    a.stateProposals state found = (a.transitionsFrom state).map (transitionProposal state) ++
      (a.itemsOf state).flatMap (itemProposals a.grammar state) := by
  have hitems : a.itemsOf state = found.items := by
    rw [itemsOf, hfound]
    rfl
  rw [stateProposals, hitems]
  refine congrArg (_ ++ ·) ?_
  split
  next => rfl
  next hreduces =>
    rw [ha.reduces_eq found (List.mem_of_getElem? hfound)] at hreduces
    refine (List.flatMap_eq_nil_iff.mpr fun item hitem => if_neg fun hend => ?_).symm
    exact hreduces (List.any_eq_true.mpr ⟨item, hitem, hend⟩)

/-- Only the state of a cell proposes actions for the cell. -/
theorem filter_proposals_eq (a : Automaton) (state : Nat) (symbol : Symbol) :
    a.proposals.filter (·.concerns state symbol) =
      (a.states[state]?.map fun found =>
        (a.stateProposals state found).filter (·.concerns state symbol)).getD [] := by
  rw [proposals, List.filter_flatMap]
  refine flatMap_zipIdx (fun found index hne => List.filter_eq_nil_iff.mpr ?_) a.states
  intro p hp hconcerns
  have hindex := state_eq_of_mem_stateProposals hp
  exact hne (hindex.symm.trans (Proposal.concerns_iff.mp hconcerns).1)

theorem filter_proposals (ha : a.Canonical) (state : Nat) (symbol : Symbol) :
    a.proposals.filter (·.concerns state symbol) =
      ((a.transitionsFrom state).map (transitionProposal state)).filter
          (·.concerns state symbol) ++
        ((a.itemsOf state).flatMap (itemProposals a.grammar state)).filter
          (·.concerns state symbol) := by
  rw [filter_proposals_eq, ← List.filter_append]
  cases hfound : a.states[state]? with
  | some found => rw [Option.map_some, Option.getD_some, stateProposals_eq ha hfound]
  | none =>
      have hcount : a.stateCount ≤ state := List.getElem?_eq_none_iff.mp hfound
      have htransitions : a.transitionsFrom state = [] :=
        List.filter_eq_nil_iff.mpr fun transition hmem hsource =>
          Nat.not_lt.mpr hcount (of_decide_eq_true hsource ▸ ha.source_lt transition hmem)
      rw [htransitions, itemsOf_of_le hcount]
      rfl

theorem filter_itemProposals (g : Grammar) (state : Nat) (item : Item) (t : Terminal) :
    (itemProposals g state item).filter (·.concerns state (.terminal t)) =
      if item.atEnd g ∧ t ∈ item.lookahead then
        [⟨state, .terminal t, .reduce item.rule⟩] else [] := by
  have hconcerns : (fun p : Proposal => p.concerns state (.terminal t)) ∘
      (fun x => ⟨state, .terminal x, .reduce item.rule⟩) = fun x => decide (x = t) := by
    funext x
    simp [Proposal.concerns]
  unfold itemProposals
  by_cases hend : item.atEnd g = true
  · rw [if_pos hend, List.filter_map, hconcerns, List.filter_eq, item.lookahead.nodup.count]
    by_cases ht : t ∈ item.lookahead.toList
    · rw [if_pos ht, if_pos ⟨hend, ht⟩]
      rfl
    · rw [if_neg ht, if_neg fun h : item.atEnd g = true ∧ t ∈ item.lookahead => ht h.2]
      rfl
  · rw [if_neg hend, if_neg fun h => hend h.1]
    rfl

/-- The reductions that items propose in front of a terminal, with those proposed
several times. -/
theorem map_filter_items (g : Grammar) (state : Nat) (t : Terminal) (items : List Item) :
    ((items.flatMap (itemProposals g state)).filter (·.concerns state (.terminal t))).map
        Proposal.action =
      ((items.filter fun item => item.atEnd g ∧ t ∈ item.lookahead).map Item.rule).map
        .reduce := by
  induction items with
  | nil => rfl
  | cons item items ih =>
      rw [List.flatMap_cons, List.filter_append, List.map_append, ih, filter_itemProposals,
        List.filter_cons]
      by_cases hasks : item.atEnd g = true ∧ t ∈ item.lookahead
      · rw [if_pos hasks, if_pos (decide_eq_true hasks)]
        rfl
      · rw [if_neg hasks, if_neg (mt of_decide_eq_true hasks)]
        rfl

theorem filter_items_nonterminal (g : Grammar) (state n : Nat) (items : List Item) :
    (items.flatMap (itemProposals g state)).filter (·.concerns state (.nonterminal n)) = [] := by
  refine List.filter_eq_nil_iff.mpr fun p hp hconcerns => ?_
  obtain ⟨item, _, hitem⟩ := List.mem_flatMap.mp hp
  obtain ⟨_, _, _, rfl⟩ := mem_itemProposals.mp hitem
  cases (Proposal.concerns_iff.mp hconcerns).2

theorem mem_map_filter_transitions (ha : a.Canonical) {action : Action} :
    action ∈ (((a.transitionsFrom state).map (transitionProposal state)).filter
        (·.concerns state symbol)).map Proposal.action ↔ a.step? state symbol = some action := by
  rw [step?, Option.map_eq_some_iff, List.mem_map]
  constructor
  · rintro ⟨p, hp, rfl⟩
    obtain ⟨hmem, hconcerns⟩ := List.mem_filter.mp hp
    obtain ⟨⟨source, moved, target⟩, htransition, rfl⟩ := List.mem_map.mp hmem
    obtain ⟨hstep, rfl⟩ := mem_transitionsFrom.mp htransition
    obtain ⟨_, rfl⟩ := Proposal.concerns_iff.mp hconcerns
    exact ⟨target, ha.goto?_eq_some_iff.mpr hstep, rfl⟩
  · rintro ⟨target, hgoto, rfl⟩
    have hstep := mem_transitionsFrom.mpr ⟨ha.goto?_eq_some_iff.mp hgoto, rfl⟩
    refine ⟨_, List.mem_filter.mpr ⟨List.mem_map.mpr ⟨_, hstep, rfl⟩, ?_⟩, rfl⟩
    exact Proposal.concerns_iff.mpr ⟨rfl, rfl⟩

theorem eraseDups_eq_toList {actions : List Action} {action? : Option Action}
    (h : ∀ action, action ∈ actions ↔ action? = some action) :
    actions.eraseDups = action?.toList := by
  have hperm : actions.eraseDups.Perm action?.toList := by
    refine (List.perm_ext_iff_of_nodup (eraseDups_nodup _) ?_).mpr fun action => ?_
    · cases action? <;> simp
    · rw [List.mem_eraseDups, h, Option.mem_toList]
  cases action? with
  | none => exact List.perm_nil.mp hperm
  | some action => exact List.perm_singleton.mp hperm

/-- A step is proposed before the reductions. -/
theorem competing_proposals (ha : a.Canonical) (state : Nat) (symbol : Symbol) :
    Proposal.competing a.proposals state symbol =
      (a.step? state symbol).toList ++ a.reductions state symbol := by
  rw [Proposal.competing, filter_proposals ha, List.map_append, List.eraseDups_append,
    eraseDups_eq_toList fun _ => mem_map_filter_transitions ha]
  refine congrArg ((a.step? state symbol).toList ++ ·) ?_
  cases symbol with
  | nonterminal n =>
      rw [filter_items_nonterminal]
      rfl
  | terminal t =>
      -- No step is a reduction, so none of the reductions was proposed before.
      rw [map_filter_items, List.removeAll, List.filter_eq_self.mpr, eraseDups_map]
      · rfl
      · exact Action.reduce_injective
      · intro action haction
        obtain ⟨id, _, rfl⟩ := List.mem_map.mp haction
        simpa [mem_map_filter_transitions ha] using step?_ne_reduce

/-! Automata that differ in the order of items only propose the same actions for a
cell, the step first; only the order of the reductions may differ. -/

namespace Rearranged

theorem step?_eq (h : a.Rearranged b) (state : Nat) (symbol : Symbol) :
    a.step? state symbol = b.step? state symbol := by
  rw [step?, step?, h.goto?_eq]

theorem stateProposals_perm (h : a.Rearranged b) {first second : State}
    (hstates : first.Rearranged second) (index : Nat) :
    (a.stateProposals index first).Perm (b.stateProposals index second) := by
  have htransitions : a.transitionsFrom index = b.transitionsFrom index := by
    rw [transitionsFrom, transitionsFrom, h.transitions_eq]
  rw [stateProposals, stateProposals, htransitions, hstates.reduces_eq, h.grammar_eq]
  apply List.Perm.append_left
  split
  · exact hstates.perm.flatMap_right _
  · exact .refl _

theorem proposals_perm (h : a.Rearranged b) : a.proposals.Perm b.proposals :=
  flatMap_zipIdx_perm h.states (fun _ _ index hstates => h.stateProposals_perm hstates index) 0

theorem competing_perm (h : a.Rearranged b) (state : Nat) (symbol : Symbol) :
    (Proposal.competing a.proposals state symbol).Perm
      (Proposal.competing b.proposals state symbol) :=
  Proposal.competing_perm h.proposals_perm state symbol

variable (h : a.Rearranged b) (ha : a.Canonical) (hb : b.Canonical)
include h ha hb

theorem competing_eq_iff :
    (∀ state symbol, Proposal.competing a.proposals state symbol =
        Proposal.competing b.proposals state symbol) ↔
      ∀ state t, a.reducers state t = b.reducers state t := by
  constructor
  · intro heq state t
    have hcell := heq state (.terminal t)
    rw [competing_proposals ha, competing_proposals hb, h.step?_eq] at hcell
    have hmap : (a.reducers state t).map Action.reduce = (b.reducers state t).map .reduce :=
      List.append_cancel_left hcell
    exact List.map_injective_iff.mpr Action.reduce_injective hmap
  · intro heq state symbol
    rw [competing_proposals ha, competing_proposals hb, h.step?_eq]
    cases symbol with
    | nonterminal n => rfl
    | terminal t => rw [reductions, reductions, heq]

/-- The cells agree if the first reductions do, wherever there is no step. -/
theorem head?_competing_eq_iff :
    (∀ state symbol, (Proposal.competing a.proposals state symbol).head? =
        (Proposal.competing b.proposals state symbol).head?) ↔
      ∀ state t, a.goto? state (.terminal t) = none →
        (a.reducers state t).head? = (b.reducers state t).head? := by
  constructor
  · intro heq state t hnone
    have hcell := heq state (.terminal t)
    have hstep : b.step? state (.terminal t) = none := by
      rw [← h.step?_eq, step?, hnone, Option.map_none]
    rw [competing_proposals ha, competing_proposals hb, h.step?_eq, hstep, Option.toList_none,
      List.nil_append, List.nil_append, reductions, reductions, List.head?_map,
      List.head?_map] at hcell
    exact Option.map_injective Action.reduce_injective hcell
  · intro heq state symbol
    rw [competing_proposals ha, competing_proposals hb, ← h.step?_eq]
    cases hstep : a.step? state symbol with
    | some action => rfl
    | none =>
        cases symbol with
        | nonterminal n => rfl
        | terminal t =>
            have hfirst := heq state t (Option.map_eq_none_iff.mp hstep)
            rw [Option.toList_none, List.nil_append, List.nil_append, reductions, reductions,
              List.head?_map, List.head?_map, hfirst]

end Rearranged
end Automaton
end CanonicalLR
