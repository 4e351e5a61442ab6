import CanonicalLR.Proofs.Grammar.Context

namespace CanonicalLR

/-! Where the start rule ends.  The end marker can only close it, so in front of
the next terminal there are tokens of the alphabet and at most one end marker. -/

theorem eq_map_token {terminals : List Terminal} (h : .endMarker ∉ terminals) :
    ∃ indices : List Nat, terminals = indices.map .token := by
  induction terminals with
  | nil => exact ⟨[], rfl⟩
  | cons t terminals ih =>
      obtain ⟨hhead, htail⟩ := not_or.mp fun hmem => h (List.mem_cons.mpr hmem)
      obtain ⟨indices, rfl⟩ := ih htail
      cases t with
      | token index => exact ⟨index :: indices, rfl⟩
      | endMarker => exact absurd rfl hhead

theorem endMarker_not_mem_map_token (indices : List Nat) :
    Terminal.endMarker ∉ indices.map Terminal.token := by
  intro hmem
  obtain ⟨index, _, hindex⟩ := List.mem_map.mp hmem
  cases hindex

namespace Grammar

variable {g : Grammar}

theorem closingMarker_cases (g : Grammar) :
    g.closingMarker = [] ∨ g.closingMarker = [.endMarker] := by
  unfold closingMarker
  split
  · exact .inr rfl
  · exact .inl rfl

theorem rhs_zero_eq (hg : g.WellFormed) :
    ∃ symbols, (g.rule 0).rhs = symbols ++ g.closingMarker.map .terminal ∧
      .terminal .endMarker ∉ symbols := by
  have hmarker := hg.endMarker_not_mem hg.rules_pos
  rw [unmarkedPart, if_pos rfl] at hmarker
  unfold closingMarker
  split
  next hlast =>
    obtain ⟨symbols, hsymbols⟩ := List.getLast?_eq_some_iff.mp hlast
    rw [hsymbols, List.dropLast_concat] at hmarker
    exact ⟨symbols, hsymbols, hmarker⟩
  next hlast =>
    refine ⟨(g.rule 0).rhs, (List.append_nil _).symm, fun hmem => ?_⟩
    obtain ⟨symbols, last, hrhs⟩ :=
      (List.eq_nil_or_concat (g.rule 0).rhs).resolve_left (hg.rhs_ne_nil hg.rules_pos)
    rw [List.concat_eq_append] at hrhs
    rw [hrhs, List.dropLast_concat] at hmarker
    rw [hrhs, List.getLast?_concat] at hlast
    rw [hrhs] at hmem
    rcases List.mem_append.mp hmem with hmem | hmem
    · exact hmarker hmem
    · exact hlast (congrArg some (List.mem_singleton.mp hmem).symm)

/-- An end marker is the last symbol of its rule, so it stands in front of nothing. -/
theorem Context.endMarker_not_mem (hg : g.WellFormed) {before rest : List Symbol} {n : Nat}
    (h : g.Context before n rest) : .terminal .endMarker ∉ before := by
  induction h with
  | start => exact List.not_mem_nil
  | expand _ hid hrhs ih =>
      have hmarker := hg.endMarker_not_mem (mem_rulesOf.mp hid).1
      intro hmem
      rcases List.mem_append.mp hmem with hmem | hmem
      · exact ih hmem
      · unfold unmarkedPart at hmarker
        rw [hrhs] at hmarker
        split at hmarker
        next =>
          rw [List.dropLast_append_cons] at hmarker
          exact hmarker (List.mem_append_left _ hmem)
        next => exact hmarker (List.mem_append_left _ hmem)

theorem Context.eq_nil (hfree : g.StartFree) {before rest : List Symbol}
    (h : g.Context before g.start rest) : before = [] ∧ rest = [] := by
  cases h with
  | start => exact ⟨rfl, rfl⟩
  | expand _ hid hrhs =>
      apply absurd _ (hfree.not_mem (mem_rulesOf.mp hid).1)
      rw [hrhs]
      exact List.mem_append_right _ List.mem_cons_self

/-- The terminals, derived by these rules, are a context of the start symbol and
what the start rule derives in it, and `x` can follow it there. -/
inductive Closes (g : Grammar) (terminals : List Terminal) (rules : List Nat)
    (x : Terminal) : Prop
  | intro {before rest : List Symbol} (hcontext : g.Context before g.start rest)
      (hyields : g.Yields (before ++ (g.rule 0).rhs) terminals rules) (hzero : 0 ∉ rules)
      (hx : x ∈ g.followers rest)

variable {terminals : List Terminal} {rules : List Nat} {x : Terminal}

theorem Closes.eq_closingMarker (hg : g.WellFormed) (h : g.Closes terminals rules x) :
    ∃ indices : List Nat, terminals = indices.map .token ++ g.closingMarker := by
  obtain ⟨hcontext, hyields, hzero, _⟩ := h
  obtain ⟨symbols, hrhs, hmarker⟩ := rhs_zero_eq hg
  rw [hrhs, ← List.append_assoc] at hyields
  obtain ⟨forest, rfl, rfl⟩ := hyields
  obtain ⟨left, right, rfl⟩ := forest.exists_append
  rw [Forest.postorder_append] at hzero
  have hleft := left.endMarker_not_mem_frontier hg
    (fun hmem => hzero (List.mem_append_left _ hmem)) fun hmem =>
      (List.mem_append.mp hmem).elim (hcontext.endMarker_not_mem hg) hmarker
  obtain ⟨indices, hindices⟩ := eq_map_token hleft
  exact ⟨indices, by rw [Forest.frontier_append, hindices, right.frontier_map_terminal]⟩

theorem Closes.zero_not_mem (h : g.Closes terminals rules x) : 0 ∉ rules := by
  obtain ⟨_, _, hzero, _⟩ := h
  exact hzero

theorem Closes.rule_lt (h : g.Closes terminals rules x) :
    ∀ id ∈ rules, id < g.rules.length := by
  obtain ⟨_, hyields, _, _⟩ := h
  obtain ⟨forest, _, rfl⟩ := hyields
  exact forest.postorder_lt

/-- If no right-hand side mentions the start symbol, its rule derives it all. -/
theorem Closes.yields (hfree : g.StartFree) (h : g.Closes terminals rules x) :
    g.Yields (g.rule 0).rhs terminals rules ∧ x = .endMarker := by
  obtain ⟨hcontext, hyields, _, hx⟩ := h
  obtain ⟨rfl, rfl⟩ := hcontext.eq_nil hfree
  exact ⟨hyields, OrderedSet.mem_singleton.mp hx⟩

theorem Yields.closes (h : g.Yields (g.rule 0).rhs terminals rules) (hzero : 0 ∉ rules) :
    g.Closes terminals rules .endMarker :=
  .intro .start h hzero (OrderedSet.mem_singleton.mpr rfl)

end Grammar
end CanonicalLR
