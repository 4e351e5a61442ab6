import CanonicalLR.Proofs.Automaton.Collection
import CanonicalLR.Proofs.Automaton.Rounds

namespace CanonicalLR

/-! Numbering breadth first.  Every state was found over a transition from one found before it,
so the walk meets all of them.  It meets them where transitions first lead to them, so the
numbers come one after the other along the transitions, which are ordered by source and symbol. -/

namespace Discovery

variable {g : Grammar} {e : Exploration} {d last : Discovery} {source : Nat} {symbol : Symbol}

def Linked (d : Discovery) : Prop :=
  ∀ state < d.found.length, state ≠ 0 →
    ∃ transition ∈ d.followed, transition.target = state ∧ transition.source < state

theorem start_linked (g : Grammar) : (start g).Linked := by
  intro state hstate hne
  exact absurd (Nat.lt_one_iff.mp hstate) hne

theorem Linked.append (h : d.Linked) (more : List Transition) :
    ∀ state < d.found.length, state ≠ 0 →
      ∃ transition ∈ d.followed ++ more, transition.target = state ∧ transition.source < state := by
  intro state hstate hne
  obtain ⟨transition, htransition, hleads⟩ := h state hstate hne
  exact ⟨transition, List.mem_append_left more htransition, hleads⟩

theorem Linked.follow (h : d.Linked) (hsource : source < d.found.length) :
    (follow g source d symbol).Linked ∧ source < (follow g source d symbol).found.length := by
  rcases follow_cases g source d symbol with ⟨_, heq⟩ | ⟨_, _, _, _, _, heq⟩ | ⟨_, _, _, heq⟩
  · rw [heq]
    exact ⟨h, hsource⟩
  · rw [heq]
    exact ⟨h.append _, hsource⟩
  · rw [heq]
    constructor
    · intro state hstate hne
      rcases lt_length_append hstate with hold | rfl
      · exact h.append _ state hold hne
      · exact ⟨_, List.mem_append_right _ List.mem_cons_self, rfl, hsource⟩
    · exact Nat.lt_of_lt_of_le hsource (by simp)

theorem Linked.foldl_follow (h : d.Linked) (hsource : source < d.found.length)
    (symbols : List Symbol) : (symbols.foldl (Discovery.follow g source) d).Linked := by
  induction symbols generalizing d with
  | nil => exact h
  | cons symbol symbols ih =>
      obtain ⟨hfollow, hlt⟩ := h.follow hsource
      exact ih hfollow hlt

theorem Rounds.linked {sources expanded : List Nat} (h : Rounds g e d sources last)
    (hd : d.Linked) (haccounts : d.Accounts expanded) : last.Linked := by
  induction h generalizing expanded with
  | nil => exact hd
  | @cons d _ source rest _ htake _ ih =>
      have hperm := take_eq_some htake
      have hsource : source < d.found.length := by
        apply List.mem_range.mp
        apply haccounts.subset
        exact List.mem_append_right _ (hperm.mem_iff.mpr List.mem_cons_self)
      have hrest : Linked { d with frontier := rest } := hd
      exact ih (hrest.foldl_follow hsource g.symbols) (haccounts.expand g hperm)

theorem discover_linked (g : Grammar) (e : Exploration) : (discover g e).Linked := by
  obtain ⟨_, hrun, _⟩ := rounds_run g e (bound g) (start g)
  exact hrun.linked (start_linked g) (start_accounts g)

theorem Sound.mem_order_iff {current : Nat} (h : d.Sound g current []) (hlinked : d.Linked)
    {state : Nat} : state ∈ Numbering.order d ↔ state < d.found.length := by
  constructor
  · exact h.order.listed_lt state
  · induction state using Nat.strongRecOn with
    | ind state ih =>
        intro hstate
        by_cases hzero : state = 0
        · rw [hzero]
          exact List.mem_of_head? h.order.head_eq
        · obtain ⟨transition, htransition, htarget, hlt⟩ := hlinked state hstate hzero
          rw [← htarget]
          exact h.target_mem_order htransition (ih _ hlt (hlt.trans hstate))

end Discovery

namespace Numbering

variable {g : Grammar} {d : Discovery} {last : Nat}

/-- The walk lists state 0, and then what the transitions of the listed states lead to, where
it is met first. -/
theorem order_eq_eraseDups (h : d.Sound g last []) :
    order d = (0 :: (order d).flatMap (targets d.followed)).eraseDups := by
  have hvisit : ∀ visited source listed,
      listed = (0 :: visited.flatMap (targets d.followed)).eraseDups →
        listed ++ ((targets d.followed source).filter (!listed.contains ·)).eraseDups =
          (0 :: (visited ++ [source]).flatMap (targets d.followed)).eraseDups := by
    -- A visit adds what its targets have that those of the visited states do not.
    intro visited source listed hlisted
    rw [List.flatMap_append, List.flatMap_singleton, ← List.cons_append,
      eraseDups_append_filter, ← hlisted]
  exact (h.walk_start.walk (fun t ht => (h.leads t ht).target_lt)
    (fun visited listed => listed = (0 :: visited.flatMap (targets d.followed)).eraseDups) hvisit
    (List.nil_append [0]).symm rfl (Nat.le_add_left _ 0) rfl).2

theorem number_inj {order : List Nat} {first second : Nat} (hfirst : first ∈ order)
    (heq : number order first = number order second) : first = second :=
  (List.idxOf_inj hfirst).mp heq

theorem map_target_numberedTransitions (d : Discovery) (order : List Nat) :
    (d.numberedTransitions order).map Transition.target =
      (order.flatMap (targets d.followed)).map (number order) := by
  rw [Discovery.numberedTransitions, List.map_flatMap, List.map_flatMap]
  congr 1
  funext state
  rw [targets, List.map_map, List.map_map]
  rfl

/-- The numbers of the targets come up in their order. -/
theorem eraseDups_targets (h : d.Sound g last []) :
    (0 :: (d.numberedTransitions (order d)).map Transition.target).eraseDups =
      List.range (order d).length := by
  have horder := order_eq_eraseDups h
  have hmem : ∀ state ∈ 0 :: (order d).flatMap (targets d.followed), state ∈ order d := by
    intro state hstate
    rw [horder]
    exact List.mem_eraseDups.mpr hstate
  have hinj : ∀ first ∈ 0 :: (order d).flatMap (targets d.followed),
      ∀ second ∈ 0 :: (order d).flatMap (targets d.followed),
      number (order d) first = number (order d) second → first = second :=
    fun first hfirst _ _ heq => number_inj (hmem first hfirst) heq
  calc
    (0 :: (d.numberedTransitions (order d)).map Transition.target).eraseDups =
        ((0 :: (order d).flatMap (targets d.followed)).map (number (order d))).eraseDups := by
      rw [map_target_numberedTransitions, List.map_cons, number_zero h.order.head_eq]
    _ = (0 :: (order d).flatMap (targets d.followed)).eraseDups.map (number (order d)) :=
      eraseDups_map_of_injOn hinj
    _ = (order d).map (number (order d)) := by rw [← horder]
    _ = List.range (order d).length := map_idxOf h.order.nodup

end Numbering

namespace Automaton

variable {g : Grammar} {d : Discovery} {a : Automaton}

/-- By source, and from one source by the columns of the symbols. -/
def Ordered (a : Automaton) : Prop :=
  a.transitions.Pairwise fun first second => first.source < second.source ∨
    first.source = second.source ∧
      a.grammar.symbols.idxOf first.symbol < a.grammar.symbols.idxOf second.symbol

theorem source_of_mem_renumbered {order : List Nat} {state : Nat} {transition : Transition}
    (h : transition ∈ (d.outgoing state).map (Numbering.renumber order)) :
    transition.source = Numbering.number order state := by
  obtain ⟨old, hold, rfl⟩ := List.mem_map.mp h
  rw [Numbering.renumber, (Discovery.mem_outgoing.mp hold).2]

theorem pairwise_outgoing (h : d.Finished g) {state : Nat} (hstate : state < d.found.length) :
    (d.outgoing state).Pairwise fun first second =>
      g.symbols.idxOf first.symbol < g.symbols.idxOf second.symbol := by
  have hsymbols : ((d.outgoing state).map Transition.symbol).Sublist g.symbols := by
    rw [h.symbols_eq hstate]
    exact List.filter_sublist
  have hcolumns : ((d.outgoing state).map Transition.symbol).Pairwise fun first second =>
      g.symbols.idxOf first < g.symbols.idxOf second :=
    (pairwise_idxOf g.symbols_nodup).sublist hsymbols
  rwa [List.pairwise_map] at hcolumns

theorem ofDiscovery_ordered (h : d.Finished g) : (ofDiscovery g d).Ordered := by
  obtain ⟨_, hsound⟩ := h.exists_sound
  apply List.pairwise_flatMap.mpr
  constructor
  · intro state hstate
    have hsources : ((d.outgoing state).map (Numbering.renumber (Numbering.order d))).Pairwise
        fun first second => first.source = second.source := by
      apply List.pairwise_of_forall_mem_list
      intro first hfirst second hsecond
      rw [source_of_mem_renumbered hfirst, source_of_mem_renumbered hsecond]
    have hcolumns : ((d.outgoing state).map (Numbering.renumber (Numbering.order d))).Pairwise
        fun first second =>
          g.symbols.idxOf first.symbol < g.symbols.idxOf second.symbol :=
      List.pairwise_map.mpr (pairwise_outgoing h (hsound.order.listed_lt state hstate))
    exact hsources.imp₂ (fun _ _ hsource hcolumn => .inr ⟨hsource, hcolumn⟩) hcolumns
  · apply (pairwise_idxOf hsound.order.nodup).imp
    intro before behind hlt first hfirst second hsecond
    rw [source_of_mem_renumbered hfirst, source_of_mem_renumbered hsecond]
    exact .inl hlt

theorem build_ordered {g : Grammar} (hg : g.WellFormed) (e : Exploration) :
    (build g e).Ordered :=
  ofDiscovery_ordered (discover_finished hg e)

/-- One source has one transition over a symbol. -/
theorem Ordered.pairwise_ne (h : a.Ordered) : a.transitions.Pairwise fun first second =>
    (first.source, first.symbol) ≠ (second.source, second.symbol) := by
  apply h.imp
  rintro first second (hlt | ⟨_, hlt⟩) heq
  · exact Nat.ne_of_lt hlt (Prod.mk.inj heq).1
  · rw [(Prod.mk.inj heq).2] at hlt
    exact Nat.lt_irrefl _ hlt

theorem eraseDups_targets_build {g : Grammar} (hg : g.WellFormed) (e : Exploration) :
    ((build g e).transitions.map Transition.target).eraseDups =
      List.range' 1 ((build g e).stateCount - 1) := by
  obtain ⟨_, hsound, _⟩ := discover_sound hg e
  have ha := build_canonical hg e
  have hcons : (0 :: (build g e).transitions.map Transition.target).eraseDups =
      List.range (build g e).stateCount := by
    rw [build, stateCount_ofDiscovery]
    exact Numbering.eraseDups_targets hsound
  have hne : ((build g e).transitions.map Transition.target).filter (fun target => !target == 0) =
      (build g e).transitions.map Transition.target := by
    apply List.filter_eq_self.mpr
    intro target htarget
    obtain ⟨transition, htransition, rfl⟩ := List.mem_map.mp htarget
    simpa using ha.target_ne_zero htransition
  obtain ⟨count, hcount⟩ := Nat.exists_eq_add_one_of_ne_zero (Nat.ne_of_gt ha.states_pos)
  rw [List.eraseDups_cons, hne, hcount, List.range_eq_range', List.range'_succ] at hcons
  rw [hcount, Nat.add_sub_cancel]
  exact List.tail_eq_of_cons_eq hcons

end Automaton
end CanonicalLR
