import CanonicalLR.Proofs.Table.Log

namespace CanonicalLR

/-! Tables of automata that list the items of their states in different orders.  The
proposals are the same up to their order, so the same actions compete for every cell.
Which of them comes first can differ only where several compete and none is a step. -/

namespace Proposal

variable {proposals others : List Proposal} {state : Nat} {symbol : Symbol}

theorem contested_perm (h : proposals.Perm others) {cell : Nat × Symbol} :
    Contested proposals cell ↔ Contested others cell :=
  ⟨fun hcell => hcell.mono h.subset, fun hcell => hcell.mono h.symm.subset⟩

/-- An action without a rival is first in any order. -/
theorem competing_eq_of_perm (h : proposals.Perm others)
    (hcell : ¬ Contested proposals (state, symbol)) :
    competing proposals state symbol = competing others state symbol := by
  have hperm := competing_perm h state symbol
  cases hcompeting : competing proposals state symbol with
  | nil =>
      rw [hcompeting] at hperm
      exact (List.nil_perm.mp hperm).symm
  | cons chosen discarded =>
      cases discarded with
      | nil =>
          rw [hcompeting] at hperm
          exact List.singleton_perm.mp hperm
      | cons other discarded =>
          apply absurd (contested_iff.mpr _) hcell
          exact ⟨chosen, other :: discarded, List.cons_ne_nil _ _, hcompeting⟩

theorem firstAction_congr
    (h : proposals.filter (·.concerns state symbol) = others.filter (·.concerns state symbol)) :
    firstAction proposals state symbol = firstAction others state symbol := by
  rw [firstAction, firstAction, ← List.head?_filter, ← List.head?_filter, h]

end Proposal

namespace Automaton

variable {a b : Automaton} {state target : Nat} {symbol : Symbol}

/-- Transitions are proposed before reductions, in whatever order these are asked for. -/
theorem firstAction_of_step (hstate : state < a.stateCount)
    (hstep : ⟨state, symbol, target⟩ ∈ a.transitions) :
    Proposal.firstAction a.proposals state symbol =
      Proposal.firstAction ((a.transitionsFrom state).map (transitionProposal state))
        state symbol := by
  have hstates : a.states[state]? = some a.states[state] := List.getElem?_eq_getElem hstate
  have hown : Proposal.firstAction a.proposals state symbol =
      Proposal.firstAction (a.stateProposals state a.states[state]) state symbol := by
    apply Proposal.firstAction_congr
    rw [filter_proposals_eq, hstates]
    rfl
  have hmem : transitionProposal state ⟨state, symbol, target⟩ ∈
      (a.transitionsFrom state).map (transitionProposal state) :=
    List.mem_map_of_mem (mem_transitionsFrom.mpr ⟨hstep, rfl⟩)
  obtain ⟨action, haction⟩ :=
    Option.ne_none_iff_exists'.mp (Proposal.firstAction_ne_none hmem)
  have hfirst : Proposal.firstAction ((a.transitionsFrom state).map (transitionProposal state))
      state symbol = some action := haction
  rw [hown, stateProposals, Proposal.firstAction_append, hfirst, Option.some_or]

theorem Rearranged.fits (h : a.Rearranged b)
    (hfits : ∀ p ∈ a.proposals, p.Fits (.blank a.grammar.symbols a.stateCount)) :
    ∀ p ∈ b.proposals, p.Fits (.blank b.grammar.symbols b.stateCount) := by
  intro p hp
  rw [← h.grammar_eq, ← h.stateCount_eq]
  exact hfits p (h.proposals_perm.mem_iff.mpr hp)

end Automaton

namespace Table

theorem exists_buildWith_fail_iff {a : Automaton} :
    (∃ t, buildWith a .fail = .ok t) ↔ (build a).conflicts = [] := by
  simp [buildWith_eq_ok_iff]

section Rearranged

variable {a b : Automaton} (h : a.Rearranged b)
  (hfits : ∀ p ∈ a.proposals, p.Fits (.blank a.grammar.symbols a.stateCount))
include h hfits

theorem conflicts_cells_perm :
    ((build a).conflicts.map Conflict.cell).Perm ((build b).conflicts.map Conflict.cell) := by
  have hother := h.fits hfits
  apply (List.perm_ext_iff_of_nodup (conflicts_cells_nodup hfits)
    (conflicts_cells_nodup hother)).mpr
  intro cell
  calc
    cell ∈ (build a).conflicts.map Conflict.cell ↔ Proposal.Contested a.proposals cell :=
      (build_records hfits).mem_cells_iff
    _ ↔ Proposal.Contested b.proposals cell := Proposal.contested_perm h.proposals_perm
    _ ↔ cell ∈ (build b).conflicts.map Conflict.cell :=
      (build_records hother).mem_cells_iff.symm

theorem conflict_competing_perm {c d : Conflict} (hc : c ∈ (build a).conflicts)
    (hd : d ∈ (build b).conflicts) (hcell : c.cell = d.cell) :
    c.competing.Perm d.competing := by
  obtain ⟨hstate, hsymbol⟩ := Prod.mk.inj hcell
  rw [((build_records hfits).mem_iff.mp hc).2,
    ((build_records (h.fits hfits)).mem_iff.mp hd).2, hstate, hsymbol]
  exact h.competing_perm d.state d.symbol

theorem entry_eq_of_not_mem_cells {state : Nat} {symbol : Symbol}
    (hcell : (state, symbol) ∉ (build a).conflicts.map Conflict.cell) :
    (build a).entry state symbol = (build b).entry state symbol := by
  have hfree : ¬ Proposal.Contested a.proposals (state, symbol) :=
    fun hcontested => hcell ((build_records hfits).mem_cells_iff.mpr hcontested)
  rw [entry_eq_head? hfits, entry_eq_head? (h.fits hfits),
    Proposal.competing_eq_of_perm h.proposals_perm hfree]

theorem entry_eq_of_mem_transitions {state target : Nat} {symbol : Symbol}
    (hstate : state < a.stateCount) (hstep : ⟨state, symbol, target⟩ ∈ a.transitions) :
    (build a).entry state symbol = (build b).entry state symbol := by
  have hother : ⟨state, symbol, target⟩ ∈ b.transitions := h.transitions_eq ▸ hstep
  have htransitions : a.transitionsFrom state = b.transitionsFrom state := by
    rw [Automaton.transitionsFrom, Automaton.transitionsFrom, h.transitions_eq]
  rw [entry_eq_head? hfits, entry_eq_head? (h.fits hfits), Proposal.head?_competing,
    Proposal.head?_competing, Automaton.firstAction_of_step hstate hstep,
    Automaton.firstAction_of_step (h.stateCount_eq ▸ hstate) hother, htransitions]

end Rearranged

/-- However the states of an automaton list their items, the table differs at most in
which of several reductions wins a cell. -/
theorem rearranged_agree {alphabet productions : List String} {g : Grammar}
    (hbuild : Grammar.build alphabet productions = .ok g) (e : Exploration) {b : Automaton}
    (h : (Automaton.build g e).Rearranged b) :
    (Automaton.build g e).agrees b = true ∧
    ((build (Automaton.build g e)).conflicts.map Conflict.cell).Perm
      ((build b).conflicts.map Conflict.cell) ∧
    (∀ c ∈ (build (Automaton.build g e)).conflicts, ∀ d ∈ (build b).conflicts,
      c.cell = d.cell → c.competing.Perm d.competing) ∧
    (∀ state symbol,
      (state, symbol) ∉ (build (Automaton.build g e)).conflicts.map Conflict.cell →
      (build (Automaton.build g e)).entry state symbol = (build b).entry state symbol) ∧
    (∀ state symbol target, ⟨state, symbol, target⟩ ∈ (Automaton.build g e).transitions →
      (build (Automaton.build g e)).entry state symbol = (build b).entry state symbol) ∧
    ((∃ t, buildWith (Automaton.build g e) .fail = .ok t) ↔
      ∃ u, buildWith b .fail = .ok u) := by
  have ha := Automaton.build_canonical (Grammar.build_wellFormed hbuild) e
  have hfits := proposals_fit ha
  have hcells := conflicts_cells_perm h hfits
  refine ⟨h.agrees, hcells, fun c hc d hd => conflict_competing_perm h hfits hc hd,
    fun state symbol => entry_eq_of_not_mem_cells h hfits, ?_, ?_⟩
  · intro state symbol target hstep
    exact entry_eq_of_mem_transitions h hfits (ha.source_lt _ hstep) hstep
  · rw [exists_buildWith_fail_iff, exists_buildWith_fail_iff]
    constructor
    · intro hnone
      rw [hnone] at hcells
      exact List.map_eq_nil_iff.mp (List.nil_perm.mp hcells)
    · intro hnone
      rw [hnone] at hcells
      exact List.map_eq_nil_iff.mp (List.perm_nil.mp hcells)

end Table

namespace Automaton

/-- Every state lists its items the other way round. -/
def turned (a : Automaton) : Automaton :=
  { a with states := a.states.map fun found => { found with items := found.items.reverse } }

theorem rearranged_turned (a : Automaton) : a.Rearranged a.turned := by
  refine ⟨rfl, ?_, rfl⟩
  apply List.forall₂_map_right_iff.mpr
  apply List.forall₂_same.mpr
  exact fun found _ => ⟨(List.reverse_perm found.items).symm, rfl⟩

end Automaton

/-- The other reduction wins in front of `$`, but the shift of `+` stays. -/
theorem Table.rearranged_agree_contested :
    (build (Automaton.build .contested .breadthFirst)).entry 4 (.terminal .endMarker) =
        some (.reduce 1) ∧
      (build (Automaton.build .contested .breadthFirst).turned).entry 4
        (.terminal .endMarker) = some (.reduce 4) ∧
      (build (Automaton.build .contested .breadthFirst).turned).entry 4
        (.terminal (.token 1)) = some (.shift 3) ∧
      ((build (Automaton.build .contested .breadthFirst)).conflicts.map Conflict.cell).Perm
        ((build (Automaton.build .contested .breadthFirst).turned).conflicts.map
          Conflict.cell) := by
  obtain ⟨_, hcells, _, _, hsteps, _⟩ := rearranged_agree Grammar.build_contested .breadthFirst
    (Automaton.rearranged_turned _)
  have hmem : ⟨4, .terminal (.token 1), 3⟩ ∈
      (Automaton.build .contested .breadthFirst).transitions := by
    decide +kernel
  refine ⟨by decide +kernel, by decide +kernel, ?_, hcells⟩
  rw [← hsteps 4 (.terminal (.token 1)) 3 hmem]
  decide +kernel

end CanonicalLR
