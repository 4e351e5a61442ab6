import CanonicalLR.Proofs.Parsing.Move

namespace CanonicalLR

/-! Runs as sequences of configurations, and how the outcome of a run within a
budget is read off them. -/

namespace Table

variable {t : Table}

inductive Next (t : Table) (c next : Config) : Prop
  | shift {symbol : Symbol} (hmove : t.move c = .shift symbol next)
  | reduce {rule : Nat} (hmove : t.move c = .reduce rule next)

/-- So many moves lead from one configuration to another. -/
inductive Runs (t : Table) : Nat → Config → Config → Prop
  | refl (c : Config) : t.Runs 0 c c
  | step {count : Nat} {c next last : Config} (hnext : t.Next c next)
      (hruns : t.Runs count next last) : t.Runs (count + 1) c last

theorem Runs.single {c next : Config} (h : t.Next c next) : t.Runs 1 c next :=
  .step h (.refl next)

theorem Runs.trans {first second : Nat} {c middle last : Config}
    (hfirst : t.Runs first c middle) (hsecond : t.Runs second middle last) :
    t.Runs (first + second) c last := by
  induction hfirst with
  | refl c =>
      rw [Nat.zero_add]
      exact hsecond
  | step hnext _ ih =>
      rw [Nat.succ_add]
      exact .step hnext (ih hsecond)

theorem Runs.preserves {property : Config → Prop}
    (hnext : ∀ c next, property c → t.Next c next → property next) {count : Nat}
    {c last : Config} (h : t.Runs count c last) (hc : property c) : property last := by
  induction h with
  | refl c => exact hc
  | step hstep _ ih => exact ih (hnext _ _ hc hstep)

theorem Next.unique {c first second : Config} (hfirst : t.Next c first)
    (hsecond : t.Next c second) : first = second := by
  cases hfirst with
  | shift hmove =>
      cases hsecond with
      | shift hother =>
          rw [hmove] at hother
          cases hother
          rfl
      | reduce hother =>
          rw [hmove] at hother
          cases hother
  | reduce hmove =>
      cases hsecond with
      | shift hother =>
          rw [hmove] at hother
          cases hother
      | reduce hother =>
          rw [hmove] at hother
          cases hother
          rfl

/-- A run that comes to its end has been where any other run from its origin is. -/
theorem Runs.exists_rest {count others : Nat} {c middle last : Config}
    (h : t.Runs count c middle) (hlast : t.Runs others c last)
    (hend : ∀ next, ¬ t.Next last next) : ∃ rest, t.Runs rest middle last := by
  induction h generalizing others with
  | refl c => exact ⟨others, hlast⟩
  | step hnext _ ih =>
      cases hlast with
      | refl => exact absurd hnext (hend _)
      | step hother hrest =>
          rw [← hnext.unique hother] at hrest
          exact ih hrest

end Table

/-- How a run ends with a move, unless it goes on. -/
def Move.outcome? : Move → Option Outcome
  | .shift _ _ => none
  | .reduce _ _ => none
  | .accept derivation => some (.accepted derivation)
  | .reject rejection => some (.rejected rejection)

theorem Move.outcome?_eq_accepted_iff {move : Move} {derivation : Derivation} :
    move.outcome? = some (.accepted derivation) ↔ move = .accept derivation := by
  cases move <;> simp [outcome?]

theorem Move.outcome?_eq_rejected_iff {move : Move} {rejection : Rejection} :
    move.outcome? = some (.rejected rejection) ↔ move = .reject rejection := by
  cases move <;> simp [outcome?]

namespace Table

variable {t : Table}

theorem next_or_ends (t : Table) (c : Config) :
    (∃ next, t.Next c next) ∨ ∃ outcome, (t.move c).outcome? = some outcome := by
  cases hmove : t.move c with
  | shift symbol next => exact .inl ⟨next, .shift hmove⟩
  | reduce rule next => exact .inl ⟨next, .reduce hmove⟩
  | accept derivation => exact .inr ⟨.accepted derivation, rfl⟩
  | reject rejection => exact .inr ⟨.rejected rejection, rfl⟩

section

variable {c next : Config} {outcome : Outcome}

theorem run_of_next (h : t.Next c next) (budget : Nat) :
    t.run (budget + 1) c = t.run budget next := by
  cases h with
  | shift hmove => rw [run, hmove]
  | reduce hmove => rw [run, hmove]

theorem run_of_outcome (h : (t.move c).outcome? = some outcome) (budget : Nat) :
    t.run (budget + 1) c = outcome := by
  rw [run]
  cases hmove : t.move c with
  | accept derivation =>
      rw [hmove] at h
      exact Option.some.inj h
  | reject rejection =>
      rw [hmove] at h
      exact Option.some.inj h
  | _ =>
      rw [hmove] at h
      cases h

theorem ne_endless_of_outcome (h : (t.move c).outcome? = some outcome) :
    outcome ≠ .endless := by
  rintro rfl
  cases hmove : t.move c <;> simp [hmove, Move.outcome?] at h

theorem moves_of_next (h : t.Next c next) (budget : Nat) :
    t.moves (budget + 1) c = (c, t.move c) :: t.moves budget next := by
  cases h with
  | shift hmove => rw [moves, hmove]
  | reduce hmove => rw [moves, hmove]

theorem moves_of_outcome (h : (t.move c).outcome? = some outcome) (budget : Nat) :
    t.moves (budget + 1) c = [(c, t.move c)] := by
  rw [moves]
  cases hmove : t.move c with
  | accept derivation => rfl
  | reject rejection => rfl
  | _ =>
      rw [hmove] at h
      cases h

end

/-- A run goes on with the moves of the next configuration, or there is none. -/
theorem moves_succ (t : Table) (budget : Nat) (c : Config) :
    ∃ rest, t.moves (budget + 1) c = (c, t.move c) :: rest ∧
      (rest = [] ∨ ∃ next, t.Next c next ∧ rest = t.moves budget next) := by
  rcases t.next_or_ends c with ⟨next, hnext⟩ | ⟨outcome, houtcome⟩
  · exact ⟨_, moves_of_next hnext budget, .inr ⟨next, hnext, rfl⟩⟩
  · exact ⟨[], moves_of_outcome houtcome budget, .inl rfl⟩

theorem run_of_runs {count : Nat} {c last : Config} (h : t.Runs count c last)
    (budget : Nat) : t.run (count + budget) c = t.run budget last := by
  induction h with
  | refl c => rw [Nat.zero_add]
  | step hnext _ ih => rw [Nat.succ_add, run_of_next hnext, ih]

/-! The moves of a run are made on the way, and the last of them decides it. -/

theorem runs_of_mem_moves {budget : Nat} {c last : Config} {move : Move}
    (h : (last, move) ∈ t.moves budget c) :
    ∃ count, t.Runs count c last ∧ t.move last = move := by
  induction budget generalizing c with
  | zero => cases h
  | succ budget ih =>
      obtain ⟨rest, heq, hrest⟩ := t.moves_succ budget c
      rw [heq] at h
      cases h with
      | head => exact ⟨0, .refl last, rfl⟩
      | tail _ htail =>
          rcases hrest with rfl | ⟨next, hnext, rfl⟩
          · cases htail
          · obtain ⟨count, hruns, hlast⟩ := ih htail
            exact ⟨count + 1, .step hnext hruns, hlast⟩

section

variable {budget : Nat} {c : Config} {outcome : Outcome}

theorem exists_moves_of_run (h : t.run budget c = outcome) (hends : outcome ≠ .endless) :
    ∃ before last, t.moves budget c = before ++ [(last, t.move last)] ∧
      (t.move last).outcome? = some outcome := by
  induction budget generalizing c with
  | zero => exact absurd h.symm hends
  | succ budget ih =>
      rcases t.next_or_ends c with ⟨next, hnext⟩ | ⟨found, houtcome⟩
      · rw [run_of_next hnext] at h
        obtain ⟨before, last, hmoves, hlast⟩ := ih h
        rw [moves_of_next hnext, hmoves]
        exact ⟨(c, t.move c) :: before, last, rfl, hlast⟩
      · rw [run_of_outcome houtcome] at h
        rw [moves_of_outcome houtcome]
        exact ⟨[], c, rfl, h ▸ houtcome⟩

/-- A run ends when it comes within its budget to a move that ends it. -/
theorem run_eq_iff (hends : outcome ≠ .endless) :
    t.run budget c = outcome ↔ ∃ count last, count < budget ∧ t.Runs count c last ∧
      (t.move last).outcome? = some outcome := by
  constructor
  · intro h
    induction budget generalizing c with
    | zero => exact absurd h.symm hends
    | succ budget ih =>
        rcases t.next_or_ends c with ⟨next, hnext⟩ | ⟨found, houtcome⟩
        · rw [run_of_next hnext] at h
          obtain ⟨count, last, hlt, hruns, hlast⟩ := ih h
          exact ⟨count + 1, last, Nat.succ_lt_succ hlt, .step hnext hruns, hlast⟩
        · rw [run_of_outcome houtcome] at h
          exact ⟨0, c, Nat.succ_pos budget, .refl c, h ▸ houtcome⟩
  · rintro ⟨count, last, hlt, hruns, houtcome⟩
    obtain ⟨more, rfl⟩ := Nat.exists_eq_add_of_lt hlt
    rw [Nat.add_assoc, run_of_runs hruns, run_of_outcome houtcome]

theorem exists_mem_moves {derivation : Derivation}
    (h : t.run budget c = .accepted derivation) :
    ∃ last, (last, .accept derivation) ∈ t.moves budget c := by
  obtain ⟨before, last, hmoves, houtcome⟩ := exists_moves_of_run h nofun
  rw [hmoves, Move.outcome?_eq_accepted_iff.mp houtcome]
  exact ⟨last, List.mem_append_right before List.mem_cons_self⟩

theorem run_eq_rejected_iff {rejection : Rejection} :
    t.run budget c = .rejected rejection ↔
      ∃ count last, count < budget ∧ t.Runs count c last ∧ t.move last = .reject rejection := by
  have hends : Outcome.rejected rejection ≠ .endless := nofun
  simp only [run_eq_iff hends, Move.outcome?_eq_rejected_iff]

theorem exists_reject {rejection : Rejection} (h : t.run budget c = .rejected rejection) :
    ∃ count last, t.Runs count c last ∧ t.move last = .reject rejection := by
  obtain ⟨count, last, _, hruns, hmove⟩ := run_eq_rejected_iff.mp h
  exact ⟨count, last, hruns, hmove⟩

end

theorem run_eq_endless_iff {budget : Nat} {c : Config} :
    t.run budget c = .endless ↔ ∃ last, t.Runs budget c last := by
  constructor
  · intro h
    induction budget generalizing c with
    | zero => exact ⟨c, .refl c⟩
    | succ budget ih =>
        rcases t.next_or_ends c with ⟨next, hnext⟩ | ⟨found, houtcome⟩
        · rw [run_of_next hnext] at h
          obtain ⟨last, hruns⟩ := ih h
          exact ⟨last, .step hnext hruns⟩
        · rw [run_of_outcome houtcome] at h
          exact absurd h (ne_endless_of_outcome houtcome)
  · rintro ⟨last, hruns⟩
    have hrun := run_of_runs hruns 0
    rwa [Nat.add_zero] at hrun

/-- A larger budget does not change the outcome of a run that ends. -/
theorem run_add {budget : Nat} {c : Config} (h : t.run budget c ≠ .endless) (more : Nat) :
    t.run (budget + more) c = t.run budget c := by
  obtain ⟨count, last, hlt, hruns, houtcome⟩ := (run_eq_iff h).mp rfl
  exact (run_eq_iff h).mpr ⟨count, last, Nat.lt_add_right more hlt, hruns, houtcome⟩

/-! What a move does to a configuration on a trail. -/

variable {a : Automaton} {c next : Config} {trail : Trail}

theorem Next.cases (ha : a.Canonical) (hon : c.On a trail)
    (h : (build a).Next c next) :
    (∃ token target, c.lookahead = .ok token ∧
      ⟨trail.top, .terminal token.terminal, target⟩ ∈ a.transitions ∧
      next = c.shift a.grammar.toVocabulary token target) ∨
    (∃ token item target, c.lookahead = .ok token ∧ item ∈ a.itemsOf trail.top ∧
      item.atEnd a.grammar = true ∧ token.terminal ∈ item.lookahead ∧ item.rule ≠ 0 ∧
      ⟨Trail.top (trail.drop (item.rhs a.grammar).length),
        .nonterminal (a.grammar.rule item.rule).lhs, target⟩ ∈ a.transitions ∧
      next = c.reduced (.ofTrail ((.nonterminal (a.grammar.rule item.rule).lhs, target) ::
        trail.drop (item.rhs a.grammar).length)) item.rule) := by
  have hacts := acts ha hon
  cases h with
  | shift hmove =>
      rw [hmove] at hacts
      cases hacts with
      | shift hlookahead hstep => exact .inl ⟨_, _, hlookahead, hstep, rfl⟩
  | reduce hmove =>
      rw [hmove] at hacts
      cases hacts with
      | reduce hlookahead hitem hend htoken hrule hstep =>
          exact .inr ⟨_, _, _, hlookahead, hitem, hend, htoken, hrule, hstep, rfl⟩

theorem stack_shift (hstack : c.stack = .ofTrail trail) (v : Vocabulary) (token : Token)
    (target : Nat) :
    (c.shift v token target).stack =
      .ofTrail ((.terminal token.terminal, target) :: trail) := by
  rw [ParseStack.ofTrail_cons, ← hstack]
  unfold Config.shift
  dsimp only
  split <;> rfl

end Table
end CanonicalLR
