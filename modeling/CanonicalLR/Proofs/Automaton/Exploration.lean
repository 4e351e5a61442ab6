import CanonicalLR.Proofs.Automaton.Outgoing
import CanonicalLR.Proofs.Automaton.Rearranged

namespace CanonicalLR

/-! The automaton does not depend on the order of its discovery.  Whichever way they
are explored, the same sets of items are found, and from each of them the same symbols
are followed in the same order; so walks from the two states 0 meet pairs of states
with the same items, and give them the same number. -/

namespace Numbering

/-! Two walks whose states correspond list corresponding states. -/

variable {R : Nat → Nat → Prop} {first second : List Transition} {m n : Nat}
  {listed others pending rest : List Nat}

theorem Sound.forall₂_walk (hR : Relator.BiUnique R)
    (htargets : ∀ s t, R s t → List.Forall₂ R (targets first s) (targets second t))
    (hfirst : ∀ transition ∈ first, transition.target < m)
    (hsecond : ∀ transition ∈ second, transition.target < n)
    (visits : Nat) {budget more : Nat} (h : Sound first m listed pending)
    (hothers : Sound second n others rest)
    (hlisted : List.Forall₂ R listed others) (hpending : List.Forall₂ R pending rest)
    (hvisits : listed.length = pending.length + visits) (hbudget : m ≤ visits + budget)
    (hmore : n ≤ visits + more) :
    List.Forall₂ R (Numbering.walk first budget listed pending)
      (Numbering.walk second more others rest) := by
  induction budget generalizing listed others pending rest visits more with
  | zero =>
      obtain rfl := h.pending_eq_nil hvisits hbudget
      cases hpending
      rw [walk_nil, walk_nil]
      exact hlisted
  | succ budget ih =>
      cases hpending with
      | nil =>
          rw [walk_nil, walk_nil]
          exact hlisted
      | @cons s t pending rest hst hpending =>
          cases more with
          -- Both budgets are large enough, though they may differ.
          | zero =>
              rw [hlisted.length_eq, List.length_cons, hpending.length_eq] at hvisits
              cases hothers.pending_eq_nil hvisits hmore
          | succ more =>
              have hfresh := forall₂_eraseDups hR (forall₂_filter hR hlisted (htargets s t hst))
              have hleft : m ≤ visits + 1 + budget := by omega
              have hright : n ≤ visits + 1 + more := by omega
              have hwalk := ih (visits + 1) (h.visit hfirst rfl) (hothers.visit hsecond rfl)
                (List.rel_append hlisted hfresh) (List.rel_append hpending hfresh)
                (length_visit hvisits _) hleft hright
              exact hwalk

end Numbering

/-! Items reached from the same items are the same. -/

theorem successors_subset {g : Grammar} {items others : List Item} (h : items ⊆ others)
    (symbol : Symbol) : successors g items symbol ⊆ successors g others symbol := by
  intro new hnew
  obtain ⟨item, hitem, hnext⟩ := mem_successors.mp hnew
  exact mem_successors.mpr ⟨item, h hitem, hnext⟩

theorem goto_eq_none_of_subset {g : Grammar} {items others : List Item} (h : items ⊆ others)
    {symbol : Symbol} (hnone : goto g others symbol = none) : goto g items symbol = none :=
  goto_eq_none_iff.mpr fun item hitem => goto_eq_none_iff.mp hnone item (h hitem)

section SameItems

variable {g : Grammar} {items others : List Item}

theorem isSome_goto_eq (h : State.sameItems items others = true) (symbol : Symbol) :
    (goto g items symbol).isSome = (goto g others symbol).isSome := by
  have hsame := State.sameItems_iff.mp h
  have hnone : goto g items symbol = none ↔ goto g others symbol = none :=
    ⟨goto_eq_none_of_subset fun item => (hsame item).mpr,
      goto_eq_none_of_subset fun item => (hsame item).mp⟩
  rw [Bool.eq_iff_iff, ← not_iff_not]
  simpa using hnone

theorem sameItems_goto (hg : g.WellFormed) (h : State.sameItems items others = true)
    {symbol : Symbol} {first second : List Item} (hfirst : goto g items symbol = some first)
    (hsecond : goto g others symbol = some second) : State.sameItems first second = true := by
  have hsame := State.sameItems_iff.mp h
  rw [goto_eq_some hfirst, goto_eq_some hsecond]
  refine State.sameItems_iff.mpr fun item => ⟨fun hitem => ?_, fun hitem => ?_⟩
  · exact closure_subset hg (successors_subset (fun new => (hsame new).mp) symbol) hitem
  · exact closure_subset hg (successors_subset (fun new => (hsame new).mpr) symbol) hitem

theorem expected_eq (h : State.sameItems items others = true) (symbols : List Symbol) :
    Discovery.expected g items symbols = Discovery.expected g others symbols :=
  List.filter_congr fun symbol _ => isSome_goto_eq h symbol

theorem any_atEnd_eq (h : State.sameItems items others = true) :
    items.any (·.atEnd g) = others.any (·.atEnd g) := by
  have hsame := State.sameItems_iff.mp h
  rw [Bool.eq_iff_iff, List.any_eq_true, List.any_eq_true]
  exact exists_congr fun item => and_congr_left' (hsame item)

end SameItems

namespace Discovery

/-- Two discoveries have found the same items in these states. -/
def Alike (first second : Discovery) (s t : Nat) : Prop :=
  s < first.found.length ∧ t < second.found.length ∧
    State.sameItems (first.itemsOf s) (second.itemsOf t) = true

variable {g : Grammar} {first second : Discovery} {s t : Nat}

theorem alike_biUnique (hfirst : first.Finished g) (hsecond : second.Finished g) :
    Relator.BiUnique (Alike first second) := by
  obtain ⟨_, hleft⟩ := hfirst.exists_sound
  obtain ⟨_, hright⟩ := hsecond.exists_sound
  constructor
  · intro s other t ⟨hs, _, hsame⟩ ⟨hother, _, hback⟩
    exact hleft.distinct hs hother (sameItems_trans hsame (sameItems_symm hback))
  · intro s t other ⟨_, ht, hsame⟩ ⟨_, hother, hback⟩
    exact hright.distinct ht hother (sameItems_trans (sameItems_symm hsame) hback)

/-- Transitions over one symbol between states that are alike. -/
structure AlikeStep (first second : Discovery) (x y : Transition) : Prop where
  source : Alike first second x.source y.source
  symbol_eq : x.symbol = y.symbol
  target : Alike first second x.target y.target

theorem Alike.forall₂_outgoing (hg : g.WellFormed) (hfirst : first.Finished g)
    (hsecond : second.Finished g) (h : Alike first second s t) :
    List.Forall₂ (AlikeStep first second) (first.outgoing s) (second.outgoing t) := by
  obtain ⟨hs, ht, hsame⟩ := h
  obtain ⟨_, hleft⟩ := hfirst.exists_sound
  obtain ⟨_, hright⟩ := hsecond.exists_sound
  have hsymbols : (first.outgoing s).map Transition.symbol =
      (second.outgoing t).map Transition.symbol := by
    rw [hfirst.symbols_eq hs, hsecond.symbols_eq ht, expected_eq hsame]
  refine forall₂_of_map_eq hsymbols fun x hx y hy hsymbol => ?_
  obtain ⟨hxfollowed, rfl⟩ := mem_outgoing.mp hx
  obtain ⟨hyfollowed, rfl⟩ := mem_outgoing.mp hy
  obtain ⟨_, hxlt, _, items, hxgoto, hxsame⟩ := hleft.leads x hxfollowed
  obtain ⟨_, hylt, _, others, hygoto, hysame⟩ := hright.leads y hyfollowed
  rw [← hsymbol] at hygoto
  have hreached := sameItems_goto hg hsame hxgoto hygoto
  exact ⟨⟨hs, ht, hsame⟩, hsymbol, hxlt, hylt,
    sameItems_trans (sameItems_symm hxsame) (sameItems_trans hreached hysame)⟩

/-- Both walks meet the states in the same order. -/
theorem forall₂_order (hg : g.WellFormed) (hfirst : first.Finished g)
    (hsecond : second.Finished g) :
    List.Forall₂ (Alike first second) (Numbering.order first) (Numbering.order second) := by
  obtain ⟨_, hleft⟩ := hfirst.exists_sound
  obtain ⟨_, hright⟩ := hsecond.exists_sound
  have hzero : Alike first second 0 0 := by
    refine ⟨hleft.found_pos, hright.found_pos, ?_⟩
    rw [hleft.itemsOf_zero, hright.itemsOf_zero]
    exact State.sameItems_iff.mpr fun _ => Iff.rfl
  have hstart : List.Forall₂ (Alike first second) [0] [0] := .cons hzero .nil
  have htargets : ∀ s t, Alike first second s t → List.Forall₂ (Alike first second)
      (Numbering.targets first.followed s) (Numbering.targets second.followed t) := by
    intro s t hst
    refine List.forall₂_map_left_iff.mpr (List.forall₂_map_right_iff.mpr ?_)
    exact (hst.forall₂_outgoing hg hfirst hsecond).imp fun _ _ hxy => hxy.target
  exact hleft.walk_start.forall₂_walk (alike_biUnique hfirst hsecond) htargets
    (fun x hx => (hleft.leads x hx).target_lt) (fun y hy => (hright.leads y hy).target_lt)
    0 hright.walk_start hstart hstart rfl (Nat.le_add_left _ 0) (Nat.le_add_left _ 0)

theorem Alike.number_eq (hg : g.WellFormed) (hfirst : first.Finished g)
    (hsecond : second.Finished g) (h : Alike first second s t) :
    Numbering.number (Numbering.order first) s = Numbering.number (Numbering.order second) t :=
  idxOf_eq_of_forall₂ (alike_biUnique hfirst hsecond) (forall₂_order hg hfirst hsecond) h

theorem AlikeStep.renumber_eq (hg : g.WellFormed) (hfirst : first.Finished g)
    (hsecond : second.Finished g) {x y : Transition} (h : AlikeStep first second x y) :
    Numbering.renumber (Numbering.order first) x =
      Numbering.renumber (Numbering.order second) y := by
  rw [Numbering.renumber, Numbering.renumber, h.source.number_eq hg hfirst hsecond,
    h.symbol_eq, h.target.number_eq hg hfirst hsecond]

theorem numberedTransitions_eq (hg : g.WellFormed) (hfirst : first.Finished g)
    (hsecond : second.Finished g) :
    first.numberedTransitions (Numbering.order first) =
      second.numberedTransitions (Numbering.order second) := by
  have hstates : (Numbering.order first).map (fun s =>
      (first.outgoing s).map (Numbering.renumber (Numbering.order first))) =
        (Numbering.order second).map (fun t =>
          (second.outgoing t).map (Numbering.renumber (Numbering.order second))) := by
    refine map_eq_of_forall₂ ((forall₂_order hg hfirst hsecond).imp fun s t hst => ?_)
    refine map_eq_of_forall₂ ((hst.forall₂_outgoing hg hfirst hsecond).imp ?_)
    exact fun _ _ hxy => hxy.renumber_eq hg hfirst hsecond
  exact congrArg List.flatten hstates

theorem Alike.itemsOf_perm (hg : g.WellFormed) (hfirst : first.Finished g)
    (hsecond : second.Finished g) (h : Alike first second s t) :
    (first.itemsOf s).Perm (second.itemsOf t) := by
  obtain ⟨hs, ht, hsame⟩ := h
  exact (List.perm_ext_iff_of_nodup (hfirst.itemsOf_nodup hg hs)
    (hsecond.itemsOf_nodup hg ht)).mpr (State.sameItems_iff.mp hsame)

end Discovery

namespace Automaton

theorem build_rearranged {g : Grammar} (hg : g.WellFormed) (first second : Exploration) :
    (build g first).Rearranged (build g second) := by
  have hfirst := discover_finished hg first
  have hsecond := discover_finished hg second
  refine ⟨rfl, ?_, Discovery.numberedTransitions_eq hg hfirst hsecond⟩
  refine List.forall₂_map_left_iff.mpr (List.forall₂_map_right_iff.mpr ?_)
  refine (Discovery.forall₂_order hg hfirst hsecond).imp fun s t hst => ?_
  exact ⟨hst.itemsOf_perm hg hfirst hsecond, any_atEnd_eq hst.2.2⟩

/-- Every exploration builds the same automaton, up to the order of the items in its
states. -/
theorem build_agrees {alphabet productions : List String} {g : Grammar}
    (hbuild : Grammar.build alphabet productions = .ok g) (first second : Exploration) :
    (build g first).agrees (build g second) = true ∧
      (build g first).stateCount = (build g second).stateCount ∧
      (∀ state, ((build g first).itemsOf state).Perm ((build g second).itemsOf state)) ∧
      (build g first).states.map State.reduces = (build g second).states.map State.reduces ∧
      (build g first).transitions = (build g second).transitions ∧
      (∀ state symbol,
        (build g first).goto? state symbol = (build g second).goto? state symbol) ∧
      ∀ state, (build g first).offset state = (build g second).offset state := by
  have h := build_rearranged (Grammar.build_wellFormed hbuild) first second
  exact ⟨h.agrees, h.stateCount_eq, h.itemsOf_perm, h.reduces_eq, h.transitions_eq,
    h.goto?_eq, h.offset_eq⟩

end Automaton

/-- The same state lies behind `ac` and `bc`.  It lists the items of `X` and `Y` in
the order in which the first of its sources to be expanded lists them. -/
def Grammar.swapped : Grammar :=
  .ofRules ⟨["a", "b", "c"], ["S", "T", "X", "Y"]⟩
    [⟨0, [.nonterminal 1], "S->T"⟩,
     ⟨1, [.terminal (.token 0), .nonterminal 2, .terminal (.token 2), .terminal (.token 1)],
      "T->aXcb"⟩,
     ⟨1, [.terminal (.token 0), .nonterminal 3, .terminal (.token 2), .terminal (.token 0)],
      "T->aYca"⟩,
     ⟨1, [.terminal (.token 1), .nonterminal 3, .terminal (.token 2), .terminal (.token 0)],
      "T->bYca"⟩,
     ⟨1, [.terminal (.token 1), .nonterminal 2, .terminal (.token 2), .terminal (.token 1)],
      "T->bXcb"⟩,
     ⟨2, [.terminal (.token 2)], "X->c"⟩,
     ⟨3, [.terminal (.token 2)], "Y->c"⟩]

theorem Grammar.build_swapped :
    build ["a", "b", "c"] ["S->T", "T->aXcb", "T->aYca", "T->bYca", "T->bXcb", "X->c", "Y->c"] =
      .ok swapped := by
  decide +kernel

theorem Automaton.build_agrees_swapped :
    (build .swapped .breadthFirst).agrees (build .swapped .depthFirst) = true ∧
      (build .swapped .breadthFirst).states ≠ (build .swapped .depthFirst).states := by
  obtain ⟨hagrees, _⟩ := build_agrees Grammar.build_swapped .breadthFirst .depthFirst
  exact ⟨hagrees, by decide +kernel⟩

end CanonicalLR
