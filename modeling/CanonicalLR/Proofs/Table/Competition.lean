import CanonicalLR.Proofs.Item.Closure
import CanonicalLR.Proofs.Table.Entry
import Mathlib.Data.List.Induction

namespace CanonicalLR

/-! What competes for a cell.  A cell holds the first of the actions proposed for it,
and the log of conflicts holds all of them for each cell that has several. -/

theorem head?_eraseDups {α : Type} [BEq α] (list : List α) :
    list.eraseDups.head? = list.head? := by
  cases list with
  | nil => rfl
  | cons a list => rw [List.eraseDups_cons, List.head?_cons, List.head?_cons]

namespace Proposal

/-- The actions proposed for a cell, each once, in the order of their first proposals. -/
def competing (proposals : List Proposal) (state : Nat) (symbol : Symbol) : List Action :=
  ((proposals.filter (·.concerns state symbol)).map Proposal.action).eraseDups

variable {proposals : List Proposal} {p : Proposal} {state : Nat} {symbol : Symbol}

theorem mem_competing {action : Action} :
    action ∈ competing proposals state symbol ↔ ⟨state, symbol, action⟩ ∈ proposals := by
  rw [competing, List.mem_eraseDups, List.mem_map]
  constructor
  · rintro ⟨p, hp, rfl⟩
    obtain ⟨hmem, hconcerns⟩ := List.mem_filter.mp hp
    obtain ⟨rfl, rfl⟩ := concerns_iff.mp hconcerns
    exact hmem
  · intro hmem
    exact ⟨_, List.mem_filter.mpr ⟨hmem, concerns_iff.mpr ⟨rfl, rfl⟩⟩, rfl⟩

theorem head?_competing :
    (competing proposals state symbol).head? = firstAction proposals state symbol := by
  rw [competing, head?_eraseDups, List.head?_map, List.head?_filter, firstAction]

theorem firstAction_append (proposals others : List Proposal) (state : Nat) (symbol : Symbol) :
    firstAction (proposals ++ others) state symbol =
      (firstAction proposals state symbol).or (firstAction others state symbol) := by
  rw [firstAction, List.find?_append, Option.map_or, firstAction, firstAction]

theorem firstAction_concat (proposals : List Proposal) (p : Proposal) (state : Nat)
    (symbol : Symbol) :
    firstAction (proposals ++ [p]) state symbol =
      (firstAction proposals state symbol).or
        (if p.concerns state symbol then some p.action else none) := by
  rw [firstAction_append, firstAction_cons, firstAction_nil, Option.or_none]

theorem competing_concat_other (h : p.concerns state symbol = false) :
    competing (proposals ++ [p]) state symbol = competing proposals state symbol := by
  rw [competing, List.filter_append, List.filter_singleton, h]
  simp [competing]

theorem competing_concat (proposals : List Proposal) (p : Proposal) :
    competing (proposals ++ [p]) p.state p.symbol =
      if p.action ∈ competing proposals p.state p.symbol then
        competing proposals p.state p.symbol
      else competing proposals p.state p.symbol ++ [p.action] := by
  have hself : p.concerns p.state p.symbol = true := concerns_iff.mpr ⟨rfl, rfl⟩
  rw [competing, List.filter_append, List.filter_singleton, hself, List.map_append,
    List.eraseDups_append, competing]
  split
  next hmem =>
    rw [List.mem_eraseDups] at hmem
    simp [List.removeAll, hmem]
  next hnew =>
    rw [List.mem_eraseDups] at hnew
    simp [List.removeAll, hnew, List.eraseDups_cons]

/-- Different actions are proposed for the cell. -/
def Contested (proposals : List Proposal) (cell : Nat × Symbol) : Prop :=
  ∃ first second, first ≠ second ∧ ⟨cell.1, cell.2, first⟩ ∈ proposals ∧
    ⟨cell.1, cell.2, second⟩ ∈ proposals

theorem contested_iff :
    Contested proposals (state, symbol) ↔ ∃ chosen discarded, discarded ≠ [] ∧
      competing proposals state symbol = chosen :: discarded := by
  constructor
  · intro ⟨first, second, hne, hfirst, hsecond⟩
    rw [← mem_competing] at hfirst hsecond
    obtain ⟨chosen, discarded, hcompeting⟩ :=
      List.exists_cons_of_ne_nil (List.ne_nil_of_mem hfirst)
    refine ⟨chosen, discarded, fun hnil => ?_, hcompeting⟩
    rw [hcompeting, hnil, List.mem_singleton] at hfirst hsecond
    exact hne (hfirst.trans hsecond.symm)
  · intro ⟨chosen, discarded, hdiscarded, hcompeting⟩
    obtain ⟨other, others, rfl⟩ := List.exists_cons_of_ne_nil hdiscarded
    have hnodup : (competing proposals state symbol).Nodup := eraseDups_nodup _
    have hmem : ∀ action ∈ chosen :: other :: others, ⟨state, symbol, action⟩ ∈ proposals :=
      fun action haction => mem_competing.mp (hcompeting ▸ haction)
    refine ⟨chosen, other, fun heq => ?_, hmem chosen (by simp), hmem other (by simp)⟩
    rw [hcompeting, heq] at hnodup
    simp at hnodup

end Proposal

namespace Conflict

def cell (c : Conflict) : Nat × Symbol :=
  (c.state, c.symbol)

variable {c old : Conflict} {conflicts : List Conflict} {collision : Collision}

theorem concerns_iff :
    c.concerns collision = true ↔ c.cell = (collision.state, collision.symbol) := by
  simp [concerns, cell]

theorem concerns_collision (p : Proposal) (c : Conflict) (kept : Action) :
    p.concerns c.state c.symbol = c.concerns ⟨p.state, p.symbol, kept, p.action⟩ := by
  rw [Bool.eq_iff_iff, Proposal.concerns_iff, concerns_iff, cell, Prod.mk.injEq]
  exact and_congr eq_comm eq_comm

/-- A conflict is known by its cell and all that competes for it. -/
theorem eq_iff_competing {actions : List Action} (hcell : c.cell = old.cell)
    (hdiscarded : old.discarded ≠ []) (hcompeting : old.competing = actions) :
    c = old ↔ c.discarded ≠ [] ∧ c.competing = actions := by
  refine ⟨fun heq => heq ▸ ⟨hdiscarded, hcompeting⟩, fun ⟨_, heq⟩ => ?_⟩
  obtain ⟨state, symbol, chosen, discarded⟩ := c
  obtain ⟨_, _, _, _⟩ := old
  cases hcell
  cases heq.trans hcompeting.symm
  rfl

@[simp] theorem cell_discard (c : Conflict) (action : Action) :
    (c.discard action).cell = c.cell := by
  unfold discard
  split <;> rfl

@[simp] theorem concerns_discard (c : Conflict) (action : Action) :
    (c.discard action).concerns collision = c.concerns collision := by
  unfold discard
  split <;> rfl

theorem competing_discard (c : Conflict) {action : Action} (hne : action ≠ c.chosen) :
    (c.discard action).competing =
      if action ∈ c.competing then c.competing else c.competing ++ [action] := by
  have hmem : action ∈ c.competing ↔ action ∈ c.discarded :=
    List.mem_cons.trans (or_iff_right hne)
  simp only [hmem]
  unfold discard
  split <;> rfl

theorem discarded_discard_ne_nil (h : c.discarded ≠ []) (action : Action) :
    (c.discard action).discarded ≠ [] := by
  unfold discard
  split
  · exact h
  · exact List.append_ne_nil_of_left_ne_nil h _

theorem cells_log (conflicts : List Conflict) (collision : Collision) :
    (log conflicts collision).map cell =
      if conflicts.any (·.concerns collision) then conflicts.map cell
      else conflicts.map cell ++ [(collision.state, collision.symbol)] := by
  unfold log
  split
  · rw [List.map_map]
    refine List.map_congr_left fun c _ => ?_
    rw [Function.comp_apply]
    split
    · exact cell_discard c _
    · rfl
  · exact List.map_append

theorem log_cells_nodup (h : (conflicts.map cell).Nodup) (collision : Collision) :
    ((log conflicts collision).map cell).Nodup := by
  rw [cells_log]
  split
  next => exact h
  next hnone =>
    refine List.nodup_append.mpr ⟨h, List.nodup_singleton _, fun place hplace other hother => ?_⟩
    obtain ⟨c, hc, rfl⟩ := List.mem_map.mp hplace
    rw [List.mem_singleton.mp hother]
    intro heq
    exact hnone (List.any_eq_true.mpr ⟨c, hc, concerns_iff.mpr heq⟩)

/-! A collision changes at most the conflict of its own cell. -/

theorem mem_log_other (hc : c.concerns collision = false) :
    c ∈ log conflicts collision ↔ c ∈ conflicts := by
  unfold log
  split
  next =>
    rw [List.mem_map]
    constructor
    · rintro ⟨old, hold, heq⟩
      split at heq
      next hself =>
        rw [← heq, concerns_discard, hself] at hc
        cases hc
      next => exact heq ▸ hold
    · exact fun hmem => ⟨c, hmem, if_neg (ne_true_of_eq_false hc)⟩
  next =>
    rw [List.mem_append, List.mem_singleton]
    refine or_iff_left fun heq => ?_
    rw [heq, concerns_iff.mpr rfl] at hc
    cases hc

theorem mem_log_of_mem (hnodup : (conflicts.map cell).Nodup) (hold : old ∈ conflicts)
    (hself : old.concerns collision = true) (hc : c.concerns collision = true) :
    c ∈ log conflicts collision ↔ c = old.discard collision.refused := by
  have hany : conflicts.any (·.concerns collision) = true :=
    List.any_eq_true.mpr ⟨old, hold, hself⟩
  rw [log, if_pos hany, List.mem_map]
  constructor
  · rintro ⟨other, hother, heq⟩
    split at heq
    next hconcerns =>
      have hcell : other.cell = old.cell :=
        (concerns_iff.mp hconcerns).trans (concerns_iff.mp hself).symm
      rw [← heq, List.inj_on_of_nodup_map hnodup hother hold hcell]
    next hconcerns => exact absurd (heq ▸ hc) hconcerns
  · rintro rfl
    exact ⟨old, hold, if_pos hself⟩

theorem mem_log_new (hnone : ∀ old ∈ conflicts, old.concerns collision = false)
    (hc : c.concerns collision = true) :
    c ∈ log conflicts collision ↔ c = ofCollision collision := by
  have hany : ¬ conflicts.any (·.concerns collision) = true := fun hany => by
    obtain ⟨old, hold, hself⟩ := List.any_eq_true.mp hany
    rw [hnone old hold] at hself
    cases hself
  rw [log, if_neg hany, List.mem_append, List.mem_singleton]
  refine or_iff_right fun hmem => ?_
  rw [hnone c hmem] at hc
  cases hc

end Conflict

namespace Draft

/-- A draft stands for the proposals that were entered into it. -/
structure Records (draft : Draft) (proposals : List Proposal) : Prop where
  full : draft.cells.Full
  entry_eq : ∀ {state symbol}, symbol ∈ draft.cells.columns →
    draft.cells.entry state symbol = Proposal.firstAction proposals state symbol
  cells_nodup : ((Conflict.ofCollisions draft.collisions).map Conflict.cell).Nodup
  mem_iff : ∀ {c : Conflict}, c ∈ Conflict.ofCollisions draft.collisions ↔
    c.discarded ≠ [] ∧ c.competing = Proposal.competing proposals c.state c.symbol

variable {draft : Draft} {proposals : List Proposal} {p : Proposal}

theorem ofCollisions_concat (collisions : List Collision) (collision : Collision) :
    Conflict.ofCollisions (collisions ++ [collision]) =
      Conflict.log (Conflict.ofCollisions collisions) collision := by
  rw [Conflict.ofCollisions, Conflict.ofCollisions, List.foldl_append, List.foldl_cons,
    List.foldl_nil]

theorem blank_records (columns : List Symbol) (states : Nat) :
    Records ⟨.blank columns states, []⟩ [] where
  full := Cells.blank_full columns states
  entry_eq _ := Cells.entry_blank ..
  cells_nodup := List.nodup_nil
  mem_iff := by
    refine ⟨fun hmem => absurd hmem List.not_mem_nil, fun ⟨_, hnil⟩ => ?_⟩
    exact absurd hnil (List.cons_ne_nil _ _)

theorem Records.entry_enter (h : draft.Records proposals) (hp : p.Fits draft.cells)
    {state : Nat} {symbol : Symbol} (hsymbol : symbol ∈ (draft.enter p).cells.columns) :
    (draft.enter p).cells.entry state symbol =
      Proposal.firstAction (proposals ++ [p]) state symbol := by
  rw [columns_enter] at hsymbol
  rw [Draft.entry_enter h.full hp hsymbol, h.entry_eq hsymbol, Proposal.firstAction_concat]

theorem collisions_enter_of_agree
    (h : ∀ kept, draft.cells.entry p.state p.symbol = some kept → kept = p.action) :
    (draft.enter p).collisions = draft.collisions := by
  unfold enter
  split
  next => rfl
  next kept hentry => rw [if_pos (h kept hentry)]

theorem collisions_enter_of_ne {kept : Action}
    (h : draft.cells.entry p.state p.symbol = some kept) (hne : kept ≠ p.action) :
    (draft.enter p).collisions =
      draft.collisions ++ [⟨p.state, p.symbol, kept, p.action⟩] := by
  unfold enter
  rw [h]
  dsimp only
  rw [if_neg hne]

theorem Records.competing_eq_singleton (h : draft.Records proposals) {state : Nat}
    {symbol : Symbol} {kept : Action}
    (hkept : (Proposal.competing proposals state symbol).head? = some kept)
    (hnone : ∀ c ∈ Conflict.ofCollisions draft.collisions, c.cell ≠ (state, symbol)) :
    Proposal.competing proposals state symbol = [kept] := by
  obtain ⟨rest, hrest⟩ := List.head?_eq_some_iff.mp hkept
  cases rest with
  | nil => exact hrest
  | cons action rest =>
      have hlogged : ⟨state, symbol, kept, action :: rest⟩ ∈
          Conflict.ofCollisions draft.collisions :=
        h.mem_iff.mpr ⟨List.cons_ne_nil _ _, hrest.symm⟩
      exact absurd rfl (hnone _ hlogged)

/-- The log has a conflict for each cell that different actions were proposed for. -/
theorem Records.mem_cells_iff (h : draft.Records proposals) {cell : Nat × Symbol} :
    cell ∈ (Conflict.ofCollisions draft.collisions).map Conflict.cell ↔
      Proposal.Contested proposals cell := by
  obtain ⟨state, symbol⟩ := cell
  rw [Proposal.contested_iff, List.mem_map]
  constructor
  · rintro ⟨c, hc, hcell⟩
    obtain ⟨rfl, rfl⟩ := Prod.mk.inj hcell
    obtain ⟨hdiscarded, hcompeting⟩ := h.mem_iff.mp hc
    exact ⟨c.chosen, c.discarded, hdiscarded, hcompeting.symm⟩
  · intro ⟨chosen, discarded, hdiscarded, hcompeting⟩
    exact ⟨⟨state, symbol, chosen, discarded⟩,
      h.mem_iff.mpr ⟨hdiscarded, hcompeting.symm⟩, rfl⟩

/-! Behind a collision the log has one conflict for its cell, made of what competes
there: the conflict it had before, or a new one. -/

theorem Records.mem_log_of_mem (h : draft.Records proposals) {c old : Conflict} {kept : Action}
    (hmem : old ∈ Conflict.ofCollisions draft.collisions)
    (hself : old.concerns ⟨p.state, p.symbol, kept, p.action⟩ = true)
    (hkept : (Proposal.competing proposals p.state p.symbol).head? = some kept)
    (hne : kept ≠ p.action)
    (hc : c.concerns ⟨p.state, p.symbol, kept, p.action⟩ = true) :
    c ∈ Conflict.log (Conflict.ofCollisions draft.collisions)
        ⟨p.state, p.symbol, kept, p.action⟩ ↔
      c.discarded ≠ [] ∧
        c.competing = Proposal.competing (proposals ++ [p]) p.state p.symbol := by
  have hcell := Conflict.concerns_iff.mp hself
  obtain ⟨hstate, hsymbol⟩ := Prod.mk.inj hcell
  obtain ⟨hdiscarded, hcompeting⟩ := h.mem_iff.mp hmem
  rw [hstate, hsymbol] at hcompeting
  have hchosen : old.chosen = kept := by
    rw [← hcompeting] at hkept
    exact Option.some.inj hkept
  have hother : p.action ≠ old.chosen := hchosen ▸ hne.symm
  rw [Conflict.mem_log_of_mem h.cells_nodup hmem hself hc]
  refine Conflict.eq_iff_competing ?_ (Conflict.discarded_discard_ne_nil hdiscarded _) ?_
  · rw [Conflict.cell_discard, hcell]
    exact Conflict.concerns_iff.mp hc
  · rw [Conflict.competing_discard old hother, hcompeting, Proposal.competing_concat]

theorem Records.mem_log_new (h : draft.Records proposals) {c : Conflict} {kept : Action}
    (hnone : ∀ old ∈ Conflict.ofCollisions draft.collisions,
      old.concerns ⟨p.state, p.symbol, kept, p.action⟩ = false)
    (hkept : (Proposal.competing proposals p.state p.symbol).head? = some kept)
    (hne : kept ≠ p.action)
    (hc : c.concerns ⟨p.state, p.symbol, kept, p.action⟩ = true) :
    c ∈ Conflict.log (Conflict.ofCollisions draft.collisions)
        ⟨p.state, p.symbol, kept, p.action⟩ ↔
      c.discarded ≠ [] ∧
        c.competing = Proposal.competing (proposals ++ [p]) p.state p.symbol := by
  have hsingle := h.competing_eq_singleton hkept fun old hmem hcell =>
    ne_true_of_eq_false (hnone old hmem) (Conflict.concerns_iff.mpr hcell)
  have hnew : p.action ∉ [kept] := fun hmem => hne (List.mem_singleton.mp hmem).symm
  rw [Conflict.mem_log_new hnone hc]
  refine Conflict.eq_iff_competing (Conflict.concerns_iff.mp hc) (List.cons_ne_nil _ _) ?_
  rw [Proposal.competing_concat, hsingle, if_neg hnew]
  rfl

/-- A proposal without a collision makes no cell a conflicting one. -/
theorem Records.mem_agree (h : draft.Records proposals)
    (hagree : ∀ kept, (Proposal.competing proposals p.state p.symbol).head? = some kept →
      kept = p.action) {c : Conflict} :
    c ∈ Conflict.ofCollisions draft.collisions ↔
      c.discarded ≠ [] ∧
        c.competing = Proposal.competing (proposals ++ [p]) c.state c.symbol := by
  rw [h.mem_iff]
  cases hconcerns : p.concerns c.state c.symbol with
  | false => rw [Proposal.competing_concat_other hconcerns]
  | true =>
      obtain ⟨hstate, hsymbol⟩ := Proposal.concerns_iff.mp hconcerns
      rw [← hstate, ← hsymbol, Proposal.competing_concat]
      split
      next => exact Iff.rfl
      -- A new action that meets no other one is the first for its cell.
      next hnew =>
        cases hcompeting : Proposal.competing proposals p.state p.symbol with
        | nil =>
            refine and_congr_right fun hdiscarded => ?_
            refine iff_of_false (List.cons_ne_nil _ _) fun hsingle => hdiscarded ?_
            exact (List.cons.inj hsingle).2
        | cons kept rest =>
            rw [hcompeting] at hagree hnew
            exact absurd (hagree kept rfl ▸ List.mem_cons_self) hnew

theorem Records.enter (h : draft.Records proposals) (hp : p.Fits draft.cells) :
    (draft.enter p).Records (proposals ++ [p]) := by
  have hentry : draft.cells.entry p.state p.symbol =
      (Proposal.competing proposals p.state p.symbol).head? := by
    rw [h.entry_eq hp.symbol_mem, Proposal.head?_competing]
  have hfull := full_enter h.full p
  by_cases hagree : ∀ kept, draft.cells.entry p.state p.symbol = some kept → kept = p.action
  · have hcollisions := collisions_enter_of_agree hagree
    rw [hentry] at hagree
    refine ⟨hfull, fun hsymbol => h.entry_enter hp hsymbol, ?_, fun {c} => ?_⟩
    · rw [hcollisions]
      exact h.cells_nodup
    · rw [hcollisions]
      exact h.mem_agree hagree
  · obtain ⟨kept, hrest⟩ := Classical.not_forall.mp hagree
    obtain ⟨hkept, hne⟩ := Classical.not_imp.mp hrest
    have hcollisions := collisions_enter_of_ne hkept hne
    rw [hentry] at hkept
    refine ⟨hfull, fun hsymbol => h.entry_enter hp hsymbol, ?_, fun {c} => ?_⟩
    · rw [hcollisions, ofCollisions_concat]
      exact Conflict.log_cells_nodup h.cells_nodup _
    · rw [hcollisions, ofCollisions_concat]
      cases hc : c.concerns ⟨p.state, p.symbol, kept, p.action⟩ with
      | false =>
          have hconcerns : p.concerns c.state c.symbol = false := by
            rw [Conflict.concerns_collision, hc]
          rw [Conflict.mem_log_other hc, h.mem_iff, Proposal.competing_concat_other hconcerns]
      | true =>
          obtain ⟨hstate, hsymbol⟩ := Prod.mk.inj (Conflict.concerns_iff.mp hc)
          rw [hstate, hsymbol]
          by_cases hlogged : ∃ old ∈ Conflict.ofCollisions draft.collisions,
              old.concerns ⟨p.state, p.symbol, kept, p.action⟩ = true
          · obtain ⟨old, hmem, hself⟩ := hlogged
            exact h.mem_log_of_mem hmem hself hkept hne hc
          · refine h.mem_log_new (fun old hmem => ?_) hkept hne hc
            exact eq_false_of_ne_true fun hself => hlogged ⟨old, hmem, hself⟩

theorem Records.foldl_enter {entered : List Proposal} (h : draft.Records entered)
    (hfits : ∀ p ∈ proposals, p.Fits draft.cells) :
    (proposals.foldl Draft.enter draft).Records (entered ++ proposals) := by
  induction proposals generalizing draft entered with
  | nil =>
      rw [List.append_nil]
      exact h
  | cons p proposals ih =>
      have hrest := ih (h.enter (hfits p List.mem_cons_self)) fun other hother =>
        fits_enter (hfits other (List.mem_cons_of_mem p hother)) p
      rw [List.append_assoc] at hrest
      exact hrest

end Draft

namespace Table

/-- All that was proposed for a cell, as far as the table tells: the actions of its
conflict, or else what the cell holds. -/
def actionsAt (t : Table) (state : Nat) (symbol : Symbol) : List Action :=
  match t.conflicts.find? fun c => c.state = state && c.symbol = symbol with
  | some c => c.competing
  | none => (t.entry state symbol).toList

variable {a : Automaton} {state : Nat} {symbol : Symbol}

theorem columns_build (a : Automaton) : (build a).columns = a.grammar.symbols :=
  (Draft.foldl_enter_full (Cells.blank_full _ _) a.proposals).2

section Built

variable (hfits : ∀ p ∈ a.proposals, p.Fits (.blank a.grammar.symbols a.stateCount))
include hfits

theorem build_records :
    Draft.Records ⟨(build a).cells, (build a).collisions⟩ a.proposals :=
  (Draft.blank_records a.grammar.symbols a.stateCount).foldl_enter hfits

theorem conflicts_cells_nodup : ((build a).conflicts.map Conflict.cell).Nodup :=
  (build_records hfits).cells_nodup

theorem entry_eq_head? :
    (build a).entry state symbol = (Proposal.competing a.proposals state symbol).head? := by
  by_cases hsymbol : symbol ∈ a.grammar.symbols
  · rw [← columns_build a] at hsymbol
    rw [Proposal.head?_competing]
    exact (build_records hfits).entry_eq hsymbol
  · have hentry : (build a).entry state symbol = none :=
      Cells.entry_eq_none (build_records hfits).full (by rwa [← columns_build a] at hsymbol) state
    have hcompeting : Proposal.competing a.proposals state symbol = [] :=
      List.eq_nil_iff_forall_not_mem.mpr fun _ hmem =>
        hsymbol (hfits _ (Proposal.mem_competing.mp hmem)).symbol_mem
    rw [hentry, hcompeting, List.head?_nil]

theorem actionsAt_build :
    (build a).actionsAt state symbol = Proposal.competing a.proposals state symbol := by
  unfold actionsAt
  split
  next c hfind =>
    obtain ⟨rfl, rfl⟩ : c.state = state ∧ c.symbol = symbol := by
      simpa using List.find?_some hfind
    exact ((build_records hfits).mem_iff.mp (List.mem_of_find?_eq_some hfind)).2
  next hnone =>
    rw [entry_eq_head? hfits]
    cases hhead : (Proposal.competing a.proposals state symbol).head? with
    | none => exact (List.head?_eq_none_iff.mp hhead).symm
    | some kept =>
        refine ((build_records hfits).competing_eq_singleton hhead fun c hc hcell => ?_).symm
        obtain ⟨hstate, hsymbol⟩ := Prod.mk.inj hcell
        exact List.find?_eq_none.mp hnone c hc (by simp [hstate, hsymbol])

theorem mem_conflicts_iff {c : Conflict} :
    c ∈ (build a).conflicts ↔
      c.discarded ≠ [] ∧ c.competing = (build a).actionsAt c.state c.symbol := by
  rw [actionsAt_build hfits]
  exact (build_records hfits).mem_iff

end Built

end Table
end CanonicalLR
