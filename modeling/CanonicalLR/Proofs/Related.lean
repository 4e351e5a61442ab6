import Mathlib.Data.List.Forall2

namespace CanonicalLR

/-! Lists whose elements correspond one by one.  If no element has two partners, then
whatever depends on equality of elements only corresponds as well. -/

variable {α β γ : Type} {R : α → β → Prop}

theorem forall₂_of_map_eq {f : α → γ} {h : β → γ} {first : List α} {second : List β}
    (heq : first.map f = second.map h)
    (hR : ∀ a ∈ first, ∀ b ∈ second, f a = h b → R a b) : List.Forall₂ R first second := by
  induction first generalizing second with
  | nil =>
      rw [List.map_eq_nil_iff.mp heq.symm]
      exact .nil
  | cons a first ih =>
      obtain ⟨b, second, rfl, hhead, htail⟩ := List.map_eq_cons_iff.mp heq.symm
      refine .cons (hR a List.mem_cons_self b List.mem_cons_self hhead.symm) (ih htail.symm ?_)
      exact fun x hx y hy => hR x (List.mem_cons_of_mem a hx) y (List.mem_cons_of_mem b hy)

theorem map_eq_of_forall₂ {f : α → γ} {h : β → γ} {first : List α} {second : List β}
    (hall : List.Forall₂ (fun a b => f a = h b) first second) :
    first.map f = second.map h := by
  induction hall with
  | nil => rfl
  | cons hhead _ ih => rw [List.map_cons, List.map_cons, hhead, ih]

variable [DecidableEq α] [DecidableEq β]

theorem idxOf_eq_of_forall₂ (hR : Relator.BiUnique R) {first : List α} {second : List β}
    (h : List.Forall₂ R first second) {a : α} {b : β} (hab : R a b) :
    first.idxOf a = second.idxOf b := by
  induction h with
  | nil => rfl
  | @cons x y first second hxy _ ih =>
      rw [List.idxOf_cons, List.idxOf_cons, ih]
      have heq : x = a ↔ y = b :=
        ⟨fun h => hR.2 (h ▸ hxy) hab, fun h => hR.1 (h ▸ hxy) hab⟩
      rw [Bool.eq_iff_iff.mpr ((beq_iff_eq.trans heq).trans beq_iff_eq.symm)]

theorem forall₂_filter (hR : Relator.BiUnique R) {first seen : List α} {second other : List β}
    (hseen : List.Forall₂ R seen other) (h : List.Forall₂ R first second) :
    List.Forall₂ R (first.filter (!seen.contains ·)) (second.filter (!other.contains ·)) := by
  refine List.rel_filter (fun a b hab => ?_) h
  have hmem := List.rel_mem hR hab hseen
  simpa using not_congr hmem

theorem forall₂_eraseDups (hR : Relator.BiUnique R) {first : List α} {second : List β}
    (h : List.Forall₂ R first second) : List.Forall₂ R first.eraseDups second.eraseDups := by
  induction hlength : first.length using Nat.strongRecOn generalizing first second with
  | ind length ih =>
      cases h with
      | nil => exact .nil
      | @cons a b first second hab htail =>
          rw [List.eraseDups_cons, List.eraseDups_cons]
          refine .cons hab (ih _ ?_ ?_ rfl)
          · rw [← hlength, List.length_cons]
            exact Nat.lt_succ_of_le (List.length_filter_le _ _)
          · refine List.rel_filter (fun x y hxy => ?_) htail
            have heq : x = a ↔ y = b :=
              ⟨fun h => hR.2 (h ▸ hxy) hab, fun h => hR.1 (h ▸ hxy) hab⟩
            simpa using not_congr heq

/-- Elements that are told apart are met for the first time in the same places. -/
theorem eraseDups_map_of_injOn {f : α → β} {l : List α}
    (hf : ∀ a ∈ l, ∀ b ∈ l, f a = f b → a = b) : (l.map f).eraseDups = l.eraseDups.map f := by
  have hR : Relator.BiUnique fun a b => a ∈ l ∧ f a = b :=
    ⟨fun a b _ ⟨ha, h⟩ ⟨hb, hother⟩ => hf a ha b hb (h.trans hother.symm),
      fun _ _ _ h hother => h.2.symm.trans hother.2⟩
  have hmap : List.Forall₂ (fun a b => a ∈ l ∧ f a = b) l (l.map f) := by
    rw [List.forall₂_map_right_iff, List.forall₂_same]
    exact fun a ha => ⟨ha, rfl⟩
  have herase := map_eq_of_forall₂ ((forall₂_eraseDups hR hmap).imp fun _ _ h => h.2)
  exact (List.map_id _).symm.trans herase.symm

theorem eraseDups_map {f : α → β} (hf : Function.Injective f) (l : List α) :
    (l.map f).eraseDups = l.eraseDups.map f :=
  eraseDups_map_of_injOn fun _ _ _ _ h => hf h

/-- What is new in the second list comes behind what is new in the first one. -/
theorem eraseDups_append_filter (first second : List α) :
    (first ++ second).eraseDups =
      first.eraseDups ++ (second.filter (!first.eraseDups.contains ·)).eraseDups := by
  rw [List.eraseDups_append, List.removeAll]
  congr 2
  apply List.filter_congr
  intro a _
  simp

/-! Positions in a list without repetitions. -/

theorem map_idxOf {l : List α} (h : l.Nodup) : l.map l.idxOf = List.range l.length := by
  apply List.ext_getElem
  · rw [List.length_map, List.length_range]
  · intro i hi _
    rw [List.getElem_map, h.idxOf_getElem, List.getElem_range]

theorem pairwise_idxOf {l : List α} (h : l.Nodup) :
    l.Pairwise fun a b => l.idxOf a < l.idxOf b := by
  apply List.pairwise_iff_getElem.mpr
  intro i j hi hj hij
  rwa [h.idxOf_getElem, h.idxOf_getElem]

end CanonicalLR
