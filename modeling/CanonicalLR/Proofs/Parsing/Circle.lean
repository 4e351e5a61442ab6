import CanonicalLR.Proofs.Parsing.Reduction
import Mathlib.Data.Fintype.Pigeonhole
import Mathlib.Data.Fintype.Prod

namespace CanonicalLR

/-! A long chain of reductions runs into a circle.  Reductions only take from a
trail and put one nonterminal in its place, so what they make of a trail is known
by how much of it is gone and by that nonterminal. -/

/-- Reductions from a configuration on a trail have taken `taken` entries off it
and put a nonterminal there. -/
structure Config.Reduct (a : Automaton) (c : Config) (trail : Trail) (taken n : Nat)
    (d : Config) : Prop where
  taken_pos : 0 < taken
  taken_le : taken ≤ trail.length
  nonterminal_lt : n < a.grammar.nonterminals.length
  exists_target : ∃ target,
    ⟨Trail.top (trail.drop taken), .nonterminal n, target⟩ ∈ a.transitions ∧
      d.stack = .ofTrail ((.nonterminal n, target) :: trail.drop taken)
  lookahead_eq : d.lookahead = c.lookahead
  scanner_eq : d.scanner = c.scanner

namespace Table

variable {a : Automaton} {c d next last : Config} {trail : Trail} {rule : Nat}

theorem reduce_cases (ha : a.Canonical) (h : c.On a trail)
    (hmove : (build a).move c = .reduce rule next) :
    0 < (a.grammar.rule rule).rhs.length ∧
      (a.grammar.rule rule).rhs.length ≤ trail.length ∧
      c.Reduct a trail (a.grammar.rule rule).rhs.length (a.grammar.rule rule).lhs next := by
  have hacts := acts ha h
  rw [hmove] at hacts
  cases hacts with
  | @reduce token item target _ hitem hend _ _ hstep =>
      have hrule := (ha.proper item hitem).rule_lt
      have hpos : 0 < (a.grammar.rule item.rule).rhs.length :=
        List.length_pos_iff.mpr (ha.wellFormed.rhs_ne_nil hrule)
      obtain ⟨hlength, _, _⟩ := h.traces.history_atEnd ha hitem hend
      exact ⟨hpos, hlength, hpos, hlength, ha.wellFormed.lhs_lt hrule,
        ⟨target, hstep, rfl⟩, rfl, rfl⟩

end Table

namespace Config.Reduct

variable {a : Automaton} {c d next last : Config} {trail : Trail} {taken n : Nat}

theorem exists_on (htrail : a.Traces trail) (h : c.Reduct a trail taken n d) :
    ∃ target, d.On a ((.nonterminal n, target) :: trail.drop taken) := by
  obtain ⟨target, hstep, hstack⟩ := h.exists_target
  exact ⟨target, hstack, .cons (htrail.drop taken) hstep⟩

/-- What is taken and the nonterminal decide all but the derivation. -/
theorem sameFront (ha : a.Canonical) (h : c.Reduct a trail taken n d) {other : Config}
    (hother : c.Reduct a trail taken n other) : d.SameFront other := by
  obtain ⟨target, hstep, hstack⟩ := h.exists_target
  obtain ⟨_, hstep', hstack'⟩ := hother.exists_target
  obtain rfl := ha.source_unique hstep hstep'
  exact ⟨hstack.trans hstack'.symm, h.lookahead_eq.trans hother.lookahead_eq.symm,
    h.scanner_eq.trans hother.scanner_eq.symm⟩

/-- A further reduction takes off all that it pops but the last nonterminal. -/
theorem reduce (ha : a.Canonical) (htrail : a.Traces trail)
    (h : c.Reduct a trail taken n d) {rule : Nat}
    (hmove : (Table.build a).move d = .reduce rule next) :
    c.Reduct a trail (taken + ((a.grammar.rule rule).rhs.length - 1))
      (a.grammar.rule rule).lhs next ∧ 0 < (a.grammar.rule rule).rhs.length := by
  obtain ⟨target, hon⟩ := h.exists_on htrail
  obtain ⟨hpos, hlength, hnext⟩ := Table.reduce_cases ha hon hmove
  obtain ⟨count, hcount⟩ := Nat.exists_eq_succ_of_ne_zero (Nat.ne_of_gt hpos)
  have hdrop : ((Symbol.nonterminal n, target) :: trail.drop taken).drop
      (a.grammar.rule rule).rhs.length = trail.drop (taken + count) := by
    rw [hcount, List.drop_succ_cons, List.drop_drop]
  have htaken : taken + ((a.grammar.rule rule).rhs.length - 1) = taken + count := by
    rw [hcount, Nat.succ_sub_one]
  have hle := h.taken_le
  rw [htaken]
  refine ⟨⟨?_, ?_, hnext.nonterminal_lt, ?_, ?_, ?_⟩, hpos⟩
  · exact Nat.lt_of_lt_of_le h.taken_pos (Nat.le_add_right taken count)
  · rw [List.length_cons, List.length_drop] at hlength
    omega
  · rw [← hdrop]
    exact hnext.exists_target
  · exact hnext.lookahead_eq.trans h.lookahead_eq
  · exact hnext.scanner_eq.trans h.scanner_eq

/-- More and more of the trail is taken, except by rules with a single symbol. -/
theorem reduces (ha : a.Canonical) (htrail : a.Traces trail) {rules : List Nat}
    (h : c.Reduct a trail taken n d) (hreduces : (Table.build a).Reduces rules d last) :
    ∃ more m, c.Reduct a trail (taken + more) m last ∧
      (more = 0 → ∀ id ∈ rules, (a.grammar.rule id).rhs.length = 1) := by
  induction hreduces generalizing taken n with
  | nil d => exact ⟨0, n, h, fun _ _ hid => absurd hid List.not_mem_nil⟩
  | @cons rule rules d next last hmove _ ih =>
      obtain ⟨hnext, hpos⟩ := h.reduce ha htrail hmove
      obtain ⟨more, m, hlast, hunit⟩ := ih hnext
      rw [Nat.add_assoc] at hlast
      refine ⟨_, m, hlast, fun hzero id hid => ?_⟩
      rcases List.mem_cons.mp hid with rfl | hid
      · omega
      · exact hunit (by omega) id hid

theorem taken_unique (h : c.Reduct a trail taken n d) {others m : Nat}
    (hother : c.Reduct a trail others m d) : taken = others := by
  obtain ⟨target, _, hstack⟩ := h.exists_target
  obtain ⟨target', _, hstack'⟩ := hother.exists_target
  have hentries := congrArg (fun stack => stack.entries.length) (hstack.symm.trans hstack')
  simp only [ParseStack.length_entries_ofTrail, List.length_cons, List.length_drop] at hentries
  have hle := h.taken_le
  have hle' := hother.taken_le
  omega

end Config.Reduct

namespace Table

variable {a : Automaton} {c last : Config} {trail : Trail} {rules : List Nat}

theorem Reduces.exists_reduct (ha : a.Canonical) (hon : c.On a trail) (hne : rules ≠ [])
    (h : (build a).Reduces rules c last) : ∃ taken n, c.Reduct a trail taken n last := by
  cases h with
  | nil => exact absurd rfl hne
  | cons hmove hrest =>
      obtain ⟨_, _, hnext⟩ := reduce_cases ha hon hmove
      obtain ⟨more, m, hlast, _⟩ := hnext.reduces ha hon.traces hrest
      exact ⟨_, m, hlast⟩

theorem Reduces.circles (ha : a.Canonical) (hon : c.On a trail) {i j : Nat} (hij : i < j)
    (hj : j ≤ rules.length) {d other : Config} (hd : (build a).Reduces (rules.take i) c d)
    (hother : (build a).Reduces (rules.take j) c other) {taken n : Nat}
    (hreduct : c.Reduct a trail taken n d) (hagain : c.Reduct a trail taken n other) :
    (build a).Circles d := by
  have hsplit : rules.take j = rules.take i ++ (rules.drop i).take (j - i) := by
    rw [← List.take_add, Nat.add_sub_cancel' (Nat.le_of_lt hij)]
  rw [hsplit] at hother
  obtain ⟨middle, hmiddle, hmore⟩ := hother.exists_append
  obtain rfl := hd.unique hmiddle
  obtain ⟨more, m, hlast, hunit⟩ := hreduct.reduces ha hon.traces hmore
  have hzero : more = 0 := by
    have htaken := hlast.taken_unique hagain
    omega
  refine ⟨_, ?_, hunit hzero, other, hmore, hreduct.sameFront ha hagain⟩
  apply List.ne_nil_of_length_pos
  rw [List.length_take, List.length_drop]
  omega

/-- A chain with more reductions than there are reducts comes to a circle. -/
theorem Reduces.exists_circle (ha : a.Canonical) (hon : c.On a trail)
    (h : (build a).Reduces rules c last)
    (hlong : trail.length * a.grammar.nonterminals.length < rules.length) :
    ∃ front d, (build a).Reduces front c d ∧ (build a).Circles d := by
  have hexists : ∀ i : Fin rules.length, ∃ d taken n,
      (build a).Reduces (rules.take (i + 1)) c d ∧ c.Reduct a trail taken n d := by
    intro i
    have hsplit := h
    rw [← List.take_append_drop (i + 1) rules] at hsplit
    obtain ⟨d, hfront, _⟩ := hsplit.exists_append
    have hne : rules.take (i + 1) ≠ [] := by
      apply List.ne_nil_of_length_pos
      rw [List.length_take]
      omega
    obtain ⟨taken, n, hreduct⟩ := hfront.exists_reduct ha hon hne
    exact ⟨d, taken, n, hfront, hreduct⟩
  choose config taken n hfront hreduct using hexists
  have htaken : ∀ i, taken i - 1 < trail.length := fun i => by
    have hpos := (hreduct i).taken_pos
    have hle := (hreduct i).taken_le
    omega
  obtain ⟨i, j, hne, hkey⟩ := Fintype.exists_ne_map_eq_of_card_lt
    (fun i => ((⟨taken i - 1, htaken i⟩, ⟨n i, (hreduct i).nonterminal_lt⟩) :
      Fin trail.length × Fin a.grammar.nonterminals.length)) (by simpa using hlong)
  have heq : taken i = taken j ∧ n i = n j := by
    have hposi := (hreduct i).taken_pos
    have hposj := (hreduct j).taken_pos
    simp only [Prod.mk.injEq, Fin.mk.injEq] at hkey
    omega
  rcases Nat.lt_or_gt_of_ne (Fin.val_ne_of_ne hne) with hlt | hlt
  · refine ⟨_, _, hfront i, circles ha hon (Nat.succ_lt_succ hlt) j.isLt (hfront i)
      (hfront j) (hreduct i) ?_⟩
    rw [heq.1, heq.2]
    exact hreduct j
  · refine ⟨_, _, hfront j, circles ha hon (Nat.succ_lt_succ hlt) i.isLt (hfront j)
      (hfront i) (hreduct j) ?_⟩
    rw [← heq.1, ← heq.2]
    exact hreduct i

end Table
end CanonicalLR
