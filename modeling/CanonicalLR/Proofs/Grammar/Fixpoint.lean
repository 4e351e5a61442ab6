import CanonicalLR.Proofs.Grammar.Form
import CanonicalLR.Proofs.Indexed.First

namespace CanonicalLR

/-! The search for FIRST sets, visit by visit.  Every visit finds what it looks up, takes
weight off the search, and leaves the flags telling which nonterminals are pending; so the
search ends, and it ends with what the nonterminals derive. -/

namespace Indexed

/-- So many visits lead from one work list to another. -/
inductive Visits (rules : List Rule) (rulesByLhs : List (List Nat))
    (dependents : List (OrderedSet Nat)) : Nat → Worklist → Worklist → Prop
  | refl (w : Worklist) : Visits rules rulesByLhs dependents 0 w w
  | step {count n : Nat} {rest : List Nat} {w next last : Worklist}
      (hpending : w.pending = n :: rest)
      (hvisit : visit? rules rulesByLhs dependents w n rest = some next)
      (hvisits : Visits rules rulesByLhs dependents count next last) :
      Visits rules rulesByLhs dependents (count + 1) w last

variable {g : Grammar} {p : First.Progress}

/-- What the visits keep: the sets are sound, no nonterminal waits twice, and the work list
stands for the progress that has been made. -/
structure Worklist.Shows (g : Grammar) (w : Worklist) (p : First.Progress) : Prop where
  eq : w = worklist g.nonterminals.length p
  sound : p.Sound g
  nodup : p.pending.Nodup

theorem Worklist.start_shows (hg : g.WellFormed) :
    (start g.nonterminals.length).Shows g (.start g.nonterminals.length) :=
  ⟨(worklist_start _).symm, First.Progress.start_sound hg, List.nodup_range⟩

theorem Worklist.Shows.pending_eq {w : Worklist} (h : w.Shows g p) : w.pending = p.pending :=
  congrArg pending h.eq

theorem Worklist.Shows.visit {w : Worklist} (hg : g.WellFormed) (h : w.Shows g p) {n : Nat}
    {rest : List Nat} (hpending : p.pending = n :: rest) :
    ∃ next, visit? g.rules g.catalog.rulesByLhs
        (vector g.nonterminals.length (dependentsOf g.rules)) w n rest = some next ∧
      next.Shows g (p.visit g.rules n rest) := by
  obtain ⟨rfl, hsound, hnodup⟩ := h
  refine ⟨_, visit?_eq hg hsound hpending hnodup, rfl, hsound.visit hpending hg, ?_⟩
  rw [hpending] at hnodup
  exact pending_visit_nodup hnodup

theorem Visits.shows {w last : Worklist} (hg : g.WellFormed) {count : Nat}
    (hvisits : Visits g.rules g.catalog.rulesByLhs
      (vector g.nonterminals.length (dependentsOf g.rules)) count w last)
    (h : w.Shows g p) :
    ∃ q : First.Progress, last.Shows g q ∧ count + q.weight g ≤ p.weight g := by
  induction hvisits generalizing p with
  | refl w => exact ⟨p, h, Nat.le_of_eq (Nat.zero_add _)⟩
  | @step count n rest w next last hpending hvisit _ ih =>
      have hwaiting := h.pending_eq.symm.trans hpending
      obtain ⟨other, hother, hshows⟩ := h.visit hg hwaiting
      rw [hvisit] at hother
      cases hother
      obtain ⟨q, hlast, hweight⟩ := ih hshows
      have hlt := h.sound.weight_visit_lt hwaiting hg
      exact ⟨q, hlast, by omega⟩

theorem Worklist.Shows.exists_visits {w : Worklist} (hg : g.WellFormed) (h : w.Shows g p)
    (budget : Nat) :
    ∃ count last, Visits g.rules g.catalog.rulesByLhs
        (vector g.nonterminals.length (dependentsOf g.rules)) count w last ∧
      last.Shows g (p.run g.rules budget) := by
  induction budget generalizing p w with
  | zero => exact ⟨0, w, .refl w, h⟩
  | succ budget ih =>
      unfold First.Progress.run
      split
      next => exact ⟨0, w, .refl w, h⟩
      next n rest hpending =>
        obtain ⟨next, hvisit, hshows⟩ := h.visit hg hpending
        obtain ⟨count, last, hvisits, hlast⟩ := ih hshows
        exact ⟨count + 1, last, .step (h.pending_eq.trans hpending) hvisit hvisits, hlast⟩

end Indexed

namespace Grammar

variable {g : Grammar} {n : Nat} {t : Terminal}

/-- A nonterminal is not yet a form that begins with a terminal, so there is a step. -/
theorem mem_first_iff_derives (hg : g.WellFormed) :
    t ∈ g.first n ↔
      ∃ rest, Relation.TransGen g.Replaces [.nonterminal n] (.terminal t :: rest) := by
  rw [mem_first_iff hg, ← canBegin_iff hg]
  refine exists_congr fun rest => ?_
  rw [Derives, Relation.reflTransGen_iff_eq_or_transGen]
  refine or_iff_right fun heq => ?_
  cases heq

/-- The search for the FIRST sets of a grammar ends, and the set of a nonterminal holds
exactly the terminals with which forms derived from it can begin. -/
theorem firstSets_exact {alphabet productions : List String} {g : Grammar}
    (hbuild : build alphabet productions = .ok g) :
    (∃ dependents, Indexed.dependents? g.nonterminals.length g.rules = some dependents ∧
      (∀ count w, Indexed.Visits g.rules g.catalog.rulesByLhs dependents count
          (.start g.nonterminals.length) w →
        count ≤ First.visitBound g.toVocabulary ∧
        ∀ n rest, w.pending = n :: rest →
          Indexed.visit? g.rules g.catalog.rulesByLhs dependents w n rest ≠ none) ∧
      ∃ count w, Indexed.Visits g.rules g.catalog.rulesByLhs dependents count
          (.start g.nonterminals.length) w ∧ w.pending = [] ∧ w.sets = g.firstSets) ∧
    ∀ n t, t ∈ g.first n ↔
      ∃ rest, Relation.TransGen g.Replaces [.nonterminal n] (.terminal t :: rest) := by
  have hg := build_wellFormed hbuild
  have hstart := Indexed.Worklist.start_shows hg
  refine ⟨⟨_, Indexed.dependents?_eq hg, fun count w hvisits => ?_, ?_⟩,
    fun n t => mem_first_iff_derives hg⟩
  · obtain ⟨q, hshows, hweight⟩ := hvisits.shows hg hstart
    have hbound := First.weight_start_le g
    refine ⟨by omega, fun n rest hpending hnone => ?_⟩
    obtain ⟨next, hvisit, _⟩ := hshows.visit hg (hshows.pending_eq.symm.trans hpending)
    rw [hnone] at hvisit
    cases hvisit
  · obtain ⟨count, last, hvisits, hlast⟩ :=
      hstart.exists_visits hg (First.visitBound g.toVocabulary)
    refine ⟨count, last, hvisits, hlast.pending_eq.trans (First.fixpoint_pending hg), ?_⟩
    rw [hlast.eq, hg.firstSets_eq]
    rfl

/-- `A` begins with itself and with `B`, which begins with `A`, and `C` derives no text. -/
def revolving : Grammar :=
  .ofRules ⟨["a", "b"], ["S", "A", "B", "C"]⟩
    [⟨0, [.nonterminal 1], "S->A"⟩,
     ⟨1, [.nonterminal 1, .terminal (.token 1)], "A->Ab"⟩,
     ⟨1, [.nonterminal 2], "A->B"⟩,
     ⟨2, [.nonterminal 3], "B->C"⟩,
     ⟨2, [.nonterminal 1], "B->A"⟩,
     ⟨2, [.terminal (.token 0)], "B->a"⟩,
     ⟨3, [.nonterminal 3, .terminal (.token 0)], "C->Ca"⟩]

theorem build_revolving :
    build ["a", "b"] ["S->A", "A->Ab", "A->B", "B->C", "B->A", "B->a", "C->Ca"] =
      .ok revolving := by
  decide +kernel

theorem firstSets_exact_revolving :
    (∃ rest, Relation.TransGen revolving.Replaces [.nonterminal 0]
      (.terminal (.token 0) :: rest)) ∧
    ∀ t rest, ¬ Relation.TransGen revolving.Replaces [.nonterminal 3] (.terminal t :: rest) := by
  obtain ⟨_, hfirst⟩ := firstSets_exact build_revolving
  have hstart : revolving.first 0 = .singleton (.token 0) := by
    decide +kernel
  have hempty : revolving.first 3 = .empty := by
    decide +kernel
  refine ⟨(hfirst 0 _).mp ?_, fun t rest hderives => ?_⟩
  · rw [hstart]
    exact OrderedSet.mem_singleton.mpr rfl
  · have hmem := (hfirst 3 t).mpr ⟨rest, hderives⟩
    rw [hempty] at hmem
    exact OrderedSet.not_mem_empty t hmem

end Grammar
end CanonicalLR
