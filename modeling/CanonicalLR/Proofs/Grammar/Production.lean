import CanonicalLR.Proofs.Grammar.WellFormed
import CanonicalLR.Proofs.Text.Blank

namespace CanonicalLR

/-! What a written production has to offer: the trimmed texts on both sides of its first
arrow.  A production is refused for the first thing that is wrong with them. -/

namespace Production

/-- The two parts of a text before and behind its first arrow. -/
structure Arrow (text before after : List Char) : Prop where
  text_eq : text = before ++ '-' :: '>' :: after
  length_le : ∀ front back, text = front ++ '-' :: '>' :: back → before.length ≤ front.length

theorem Arrow.unique {text before after front back : List Char} (h : Arrow text before after)
    (hother : Arrow text front back) : before = front ∧ after = back := by
  have hlength : before.length = front.length :=
    Nat.le_antisymm (h.length_le front back hother.text_eq)
      (hother.length_le before after h.text_eq)
  obtain ⟨rfl, hrest⟩ := List.append_inj (h.text_eq.symm.trans hother.text_eq) hlength
  exact ⟨rfl, by simpa using hrest⟩

/-- A text that does not begin with an arrow has its arrows behind its first character. -/
theorem exists_of_cons_eq {c : Char} {text front back : List Char}
    (hno : ∀ rest, c = '-' → text = '>' :: rest → False)
    (h : c :: text = front ++ '-' :: '>' :: back) :
    ∃ rest, front = c :: rest ∧ text = rest ++ '-' :: '>' :: back := by
  cases front with
  | nil =>
      cases h
      exact absurd rfl (hno back rfl)
  | cons d rest =>
      cases h
      exact ⟨rest, rfl, rfl⟩

theorem cutAtArrow_cons {c : Char} {text : List Char}
    (hno : ∀ rest, c = '-' → text = '>' :: rest → False) :
    cutAtArrow (c :: text) =
      (cutAtArrow text).map fun (before, after) => (c :: before, after) := by
  rw [cutAtArrow]
  exact hno

theorem not_arrow_of_cutAtArrow {text : List Char} (h : cutAtArrow text = none) :
    ∀ before after, text ≠ before ++ '-' :: '>' :: after := by
  induction text using cutAtArrow.induct with
  | case1 => simp
  | case2 text => cases h
  | case3 c text hno ih =>
      rw [cutAtArrow_cons hno, Option.map_eq_none_iff] at h
      intro before after heq
      obtain ⟨rest, _, htext⟩ := exists_of_cons_eq hno heq
      exact ih h rest after htext

theorem arrow_of_cutAtArrow {text before after : List Char}
    (h : cutAtArrow text = some (before, after)) : Arrow text before after := by
  induction text using cutAtArrow.induct generalizing before after with
  | case1 => cases h
  | case2 text =>
      cases h
      exact ⟨rfl, fun front back _ => Nat.zero_le _⟩
  | case3 c text hno ih =>
      rw [cutAtArrow_cons hno] at h
      obtain ⟨⟨rest, _⟩, hrest, hpair⟩ := Option.map_eq_some_iff.mp h
      cases hpair
      obtain ⟨htext, hle⟩ := ih hrest
      refine ⟨by rw [htext, List.cons_append], fun front back heq => ?_⟩
      obtain ⟨others, rfl, hothers⟩ := exists_of_cons_eq hno heq
      exact Nat.succ_le_succ (hle others back hothers)

/-- The trimmed sides of a production. -/
def Sides (text lhs : String) (rhs : List Char) : Prop :=
  ∃ before after, Arrow text.toList before after ∧
    lhs = String.ofList (Text.trim before) ∧ rhs = Text.trim after

theorem Sides.unique {text lhs other : String} {rhs rest : List Char} (h : Sides text lhs rhs)
    (hother : Sides text other rest) : lhs = other ∧ rhs = rest := by
  obtain ⟨before, after, harrow, rfl, rfl⟩ := h
  obtain ⟨front, back, harrow', rfl, rfl⟩ := hother
  obtain ⟨rfl, rfl⟩ := harrow.unique harrow'
  exact ⟨rfl, rfl⟩

/-- What can be wrong with a production when only its sides are looked at, in the order in
which it is noticed. -/
inductive Misread (alphabet : List String) (text : String) : Nat → GrammarError → Prop
  | missingSeparator (h : ∀ before after, text.toList ≠ before ++ '-' :: '>' :: after) :
      Misread alphabet text 0 (.missingSeparator text)
  | emptyLhs {before after : List Char} (harrow : Arrow text.toList before after)
      (hblank : ∀ c ∈ before, Text.isBlank c = true) : Misread alphabet text 1 (.emptyLhs text)
  | emptyRhs {before after : List Char} (harrow : Arrow text.toList before after)
      (hblank : ∀ c ∈ after, Text.isBlank c = true) : Misread alphabet text 2 (.emptyRhs text)
  | reservedNonterminal {rhs : List Char} (hsides : Sides text endMarkerName rhs) :
      Misread alphabet text 3 (.reservedNonterminal text)
  | terminalAsNonterminal {lhs : String} {rhs : List Char} (hsides : Sides text lhs rhs)
      (hlhs : lhs ∈ alphabet) : Misread alphabet text 4 (.terminalAsNonterminal lhs)

/-- Both sides of a production are there, and the left one may name a nonterminal. -/
structure Legible (alphabet : List String) (text lhs : String) (rhs : List Char) : Prop where
  sides : Sides text lhs rhs
  lhs_ne : lhs ≠ ""
  rhs_ne : rhs ≠ []
  lhs_ne_endMarker : lhs ≠ endMarkerName
  lhs_not_mem : lhs ∉ alphabet

variable {text : String} {alphabet : List String}

theorem Misread.unique {rank : Nat} {error other : GrammarError}
    (h : Misread alphabet text rank error) (hother : Misread alphabet text rank other) :
    error = other := by
  cases h with
  | terminalAsNonterminal hsides =>
      cases hother with
      | terminalAsNonterminal hsides' => rw [(hsides.unique hsides').1]
  | _ =>
      cases hother
      rfl

/-- Behind a look at two sides that are not blank, only the name on the left can be wrong. -/
theorem Misread.of_sides {lhs : String} {rhs : List Char} {rank : Nat} {error : GrammarError}
    (h : Misread alphabet text rank error) (hsides : Sides text lhs rhs) (hlhs : lhs ≠ "")
    (hrhs : rhs ≠ []) :
    rank = 3 ∧ lhs = endMarkerName ∨ rank = 4 ∧ lhs ∈ alphabet := by
  have ⟨before, after, harrow, hlhs_eq, hrhs_eq⟩ := hsides
  cases h with
  | missingSeparator hno => exact absurd harrow.text_eq (hno before after)
  | emptyLhs harrow' hblank =>
      obtain ⟨rfl, rfl⟩ := harrow.unique harrow'
      rw [Text.trim_eq_nil_iff.mpr hblank] at hlhs_eq
      exact absurd hlhs_eq hlhs
  | emptyRhs harrow' hblank =>
      obtain ⟨rfl, rfl⟩ := harrow.unique harrow'
      exact absurd (hrhs_eq.trans (Text.trim_eq_nil_iff.mpr hblank)) hrhs
  | reservedNonterminal hsides' => exact .inl ⟨rfl, (hsides.unique hsides').1⟩
  | terminalAsNonterminal hsides' hmem =>
      exact .inr ⟨rfl, (hsides.unique hsides').1 ▸ hmem⟩

theorem Legible.not_misread {lhs : String} {rhs : List Char}
    (h : Legible alphabet text lhs rhs) (rank : Nat) (error : GrammarError) :
    ¬ Misread alphabet text rank error := by
  intro hmisread
  rcases hmisread.of_sides h.sides h.lhs_ne h.rhs_ne with ⟨_, hmarker⟩ | ⟨_, hmem⟩
  · exact h.lhs_ne_endMarker hmarker
  · exact h.lhs_not_mem hmem

theorem sides_of_split {production : Production} (h : split text = .ok production) :
    production.text = text ∧ Sides text production.lhs production.rhs ∧
      production.lhs ≠ "" ∧ production.rhs ≠ [] := by
  unfold split at h
  split at h
  · cases h
  next before after hcut =>
    dsimp only at h
    split at h
    · cases h
    next hlhs =>
      split at h
      · cases h
      next hrhs =>
        cases h
        refine ⟨rfl, ⟨before, after, arrow_of_cutAtArrow hcut, rfl, rfl⟩, ?_, hrhs⟩
        exact fun hempty => hlhs (String.ofList_eq_empty_iff.mp hempty)

/-- What stopped the split is the first thing that is wrong. -/
theorem misread_of_split {error : GrammarError} (h : split text = .error error) :
    ∃ rank, Misread alphabet text rank error ∧
      ∀ earlier < rank, ∀ other, ¬ Misread alphabet text earlier other := by
  unfold split at h
  split at h
  next hcut =>
    cases h
    refine ⟨0, .missingSeparator (not_arrow_of_cutAtArrow hcut), fun earlier hlt => ?_⟩
    exact absurd hlt (Nat.not_lt_zero earlier)
  next before after hcut =>
    have harrow := arrow_of_cutAtArrow hcut
    dsimp only at h
    split at h
    next hlhs =>
      cases h
      refine ⟨1, .emptyLhs harrow (Text.trim_eq_nil_iff.mp hlhs), ?_⟩
      intro earlier hlt other hother
      cases hother with
      | missingSeparator hno => exact hno before after harrow.text_eq
      | _ => omega
    next hlhs =>
      split at h
      next hrhs =>
        cases h
        refine ⟨2, .emptyRhs harrow (Text.trim_eq_nil_iff.mp hrhs), ?_⟩
        intro earlier hlt other hother
        cases hother with
        | missingSeparator hno => exact hno before after harrow.text_eq
        | emptyLhs harrow' hblank =>
            obtain ⟨rfl, rfl⟩ := harrow.unique harrow'
            exact hlhs (Text.trim_eq_nil_iff.mpr hblank)
        | _ => omega
      · cases h

end Production

theorem Grammar.mem_alphabetOf {alphabet : List String} {name : String} :
    name ∈ alphabetOf alphabet ↔ name ∈ alphabet ∧ name ≠ "" := by
  simp [alphabetOf, List.mem_eraseDups]

namespace Production

variable {text : String} {alphabet : List String}

theorem legible_of_read {production : Production}
    (h : read (Grammar.alphabetOf alphabet) text = .ok production) :
    production.text = text ∧ Legible alphabet text production.lhs production.rhs := by
  unfold read at h
  split at h
  · cases h
  next found hsplit =>
    split at h
    · cases h
    next hmarker =>
      split at h
      · cases h
      next hmem =>
        cases h
        obtain ⟨htext, hsides, hlhs, hrhs⟩ := sides_of_split hsplit
        refine ⟨htext, hsides, hlhs, hrhs, hmarker, fun hlhs' => hmem ?_⟩
        exact Grammar.mem_alphabetOf.mpr ⟨hlhs', hlhs⟩

/-- Whatever stops a reading, nothing that is noticed before it is wrong. -/
theorem misread_of_read {error : GrammarError}
    (h : read (Grammar.alphabetOf alphabet) text = .error error) :
    ∃ rank, Misread alphabet text rank error ∧
      ∀ earlier < rank, ∀ other, ¬ Misread alphabet text earlier other := by
  unfold read at h
  split at h
  next hsplit =>
    cases h
    exact misread_of_split hsplit
  next found hsplit =>
    obtain ⟨_, hsides, hlhs, hrhs⟩ := sides_of_split hsplit
    split at h
    next hmarker =>
      cases h
      refine ⟨3, .reservedNonterminal (hmarker ▸ hsides), fun earlier hlt other hother => ?_⟩
      rcases hother.of_sides hsides hlhs hrhs with ⟨rfl, _⟩ | ⟨rfl, _⟩ <;> omega
    next hmarker =>
      split at h
      next hmem =>
        cases h
        refine ⟨4, .terminalAsNonterminal hsides (Grammar.mem_alphabetOf.mp hmem).1,
          fun earlier hlt other hother => ?_⟩
        rcases hother.of_sides hsides hlhs hrhs with ⟨_, heq⟩ | ⟨rfl, _⟩
        · exact hmarker heq
        · omega
      · cases h

theorem read_of_legible {lhs : String} {rhs : List Char}
    (h : Legible alphabet text lhs rhs) :
    read (Grammar.alphabetOf alphabet) text = .ok ⟨text, lhs, rhs⟩ := by
  cases hread : read (Grammar.alphabetOf alphabet) text with
  | error error =>
      obtain ⟨rank, hmisread, _⟩ := misread_of_read hread
      exact absurd hmisread (h.not_misread rank error)
  | ok production =>
      obtain ⟨rfl, hlegible⟩ := legible_of_read hread
      obtain ⟨rfl, rfl⟩ := hlegible.sides.unique h.sides
      rfl

end Production
end CanonicalLR
