import CanonicalLR.Proofs.Parsing.Run

namespace CanonicalLR

/-! Chains of reductions.  The derivation has no influence on the moves, so a
chain that comes back to its stack can be repeated for ever. -/

/-- Two configurations differ at most in what they have derived. -/
structure Config.SameFront (c d : Config) : Prop where
  stack_eq : c.stack = d.stack
  lookahead_eq : c.lookahead = d.lookahead
  scanner_eq : c.scanner = d.scanner

namespace Table

variable {t : Table}

/-- A reduction does not depend on the derivation so far. -/
theorem move_sameFront {c d next : Config} {rule : Nat} (hfront : c.SameFront d)
    (h : t.move c = .reduce rule next) :
    ∃ other, t.move d = .reduce rule other ∧ next.SameFront other := by
  have hmade := t.made c
  rw [h] at hmade
  cases hmade with
  | @reduce token _ stack hlookahead hentry hrule hreduce =>
      rw [hfront.lookahead_eq] at hlookahead
      rw [hfront.stack_eq] at hentry hreduce
      have hother : d.reduce t rule = .ok (d.reduced stack rule) := by
        rw [Config.reduce_eq, hreduce]
        rfl
      exact ⟨_, move_reduce hlookahead hentry hrule hother, rfl, hfront.lookahead_eq,
        hfront.scanner_eq⟩

inductive Reduces (t : Table) : List Nat → Config → Config → Prop
  | nil (c : Config) : t.Reduces [] c c
  | cons {rule : Nat} {rules : List Nat} {c next last : Config}
      (hmove : t.move c = .reduce rule next) (hrest : t.Reduces rules next last) :
      t.Reduces (rule :: rules) c last

theorem Reduces.append {first second : List Nat} {c middle last : Config}
    (hfirst : t.Reduces first c middle) (hsecond : t.Reduces second middle last) :
    t.Reduces (first ++ second) c last := by
  induction hfirst with
  | nil c => exact hsecond
  | cons hmove _ ih => exact .cons hmove (ih hsecond)

theorem Reduces.exists_append {first second : List Nat} {c last : Config}
    (h : t.Reduces (first ++ second) c last) :
    ∃ middle, t.Reduces first c middle ∧ t.Reduces second middle last := by
  induction first generalizing c with
  | nil => exact ⟨c, .nil c, h⟩
  | cons rule first ih =>
      cases h with
      | cons hmove hrest =>
          obtain ⟨middle, hfirst, hsecond⟩ := ih hrest
          exact ⟨middle, .cons hmove hfirst, hsecond⟩

theorem Reduces.unique {rules : List Nat} {c last other : Config}
    (h : t.Reduces rules c last) (hother : t.Reduces rules c other) : last = other := by
  induction h with
  | nil c =>
      cases hother
      rfl
  | cons hmove _ ih =>
      cases hother with
      | cons hmove' hrest =>
          rw [hmove] at hmove'
          cases hmove'
          exact ih hrest

theorem Reduces.runs {rules : List Nat} {c last : Config} (h : t.Reduces rules c last) :
    t.Runs rules.length c last := by
  induction h with
  | nil c => exact .refl c
  | cons hmove _ ih => exact .step (.reduce hmove) ih

/-- The rules that a chain of reductions repeats for ever: at least one, and each
with a single symbol on its right-hand side. -/
structure Repeats (t : Table) (c : Config) (rules : List Nat) : Prop where
  rules_ne_nil : rules ≠ []
  unit : ∀ id ∈ rules, (t.grammar.rule id).rhs.length = 1
  exists_return : ∃ last, t.Reduces rules c last ∧ c.SameFront last

def Circles (t : Table) (c : Config) : Prop :=
  ∃ rules, t.Repeats c rules

/-- A circle goes on with a rule that has a single symbol on its right-hand side. -/
theorem Circles.exists_reduce {c : Config} (h : t.Circles c) :
    ∃ rule next, t.move c = .reduce rule next ∧ (t.grammar.rule rule).rhs.length = 1 ∧
      t.Circles next := by
  obtain ⟨rules, hne, hunit, last, hreduces, hfront⟩ := h
  cases hreduces with
  | nil => exact absurd rfl hne
  | @cons rule rules _ next _ hmove hrest =>
      obtain ⟨other, hother, hnext⟩ := move_sameFront hfront hmove
      have hrule := hunit rule List.mem_cons_self
      refine ⟨rule, next, hmove, hrule, rules ++ [rule], by simp, fun id hid => ?_,
        other, hrest.append (.cons hother (.nil other)), hnext⟩
      rcases List.mem_append.mp hid with hid | hid
      · exact hunit id (List.mem_cons_of_mem rule hid)
      · rw [List.mem_singleton.mp hid]
        exact hrule

theorem Circles.run_eq {c : Config} (h : t.Circles c) (budget : Nat) :
    t.run budget c = .endless := by
  induction budget generalizing c with
  | zero => rfl
  | succ budget ih =>
      obtain ⟨_, next, hmove, _, hcircles⟩ := h.exists_reduce
      rw [run_of_next (.reduce hmove)]
      exact ih hcircles

theorem Runs.run_eq {count : Nat} {c last : Config} (h : t.Runs count c last)
    (hlast : t.Circles last) (budget : Nat) : t.run budget c = .endless := by
  induction h generalizing budget with
  | refl c => exact hlast.run_eq budget
  | step hnext _ ih =>
      cases budget with
      | zero => rfl
      | succ budget =>
          rw [run_of_next hnext]
          exact ih hlast budget

/-- A run shifts nothing, or reduces up to its first shift. -/
theorem Runs.cases {count : Nat} {c last : Config} (h : t.Runs count c last) :
    (∃ rules, rules.length = count ∧ t.Reduces rules c last) ∨
      ∃ rules middle symbol next rest, t.Reduces rules c middle ∧
        t.move middle = .shift symbol next ∧ t.Runs rest next last ∧
        count = rules.length + 1 + rest := by
  induction h with
  | refl c => exact .inl ⟨[], rfl, .nil c⟩
  | step hnext hruns ih =>
      cases hnext with
      | shift hmove => exact .inr ⟨[], _, _, _, _, .nil _, hmove, hruns, by simp [Nat.add_comm]⟩
      | @reduce rule hmove =>
          rcases ih with ⟨rules, hlength, hreduces⟩ |
            ⟨rules, middle, symbol, next, rest, hreduces, hshift, hrest, hcount⟩
          · exact .inl ⟨rule :: rules, congrArg Nat.succ hlength, .cons hmove hreduces⟩
          · refine .inr ⟨rule :: rules, middle, symbol, next, rest, .cons hmove hreduces,
              hshift, hrest, ?_⟩
            rw [hcount, List.length_cons]
            omega

end Table
end CanonicalLR
