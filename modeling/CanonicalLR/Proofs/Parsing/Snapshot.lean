import CanonicalLR.Proofs.Parsing.Run
import CanonicalLR.Proofs.Parsing.Token
import Mathlib.Logic.Relation

namespace CanonicalLR

/-! The parser without its tokenizer: a trail, and the terminals to come as a
list.  Any list will do, also one that no input is tokenized into.  A
configuration that shows a snapshot goes along with it. -/

structure Snapshot where
  trail : Trail
  pending : List Terminal
  derivation : Derivation

/-- A derivation after further reductions and shifts. -/
def Derivation.extend (d : Derivation) (reductions : List Nat) (shifts : Nat) : Derivation :=
  ⟨reductions.reverse ++ d.rules, d.shifts + shifts⟩

@[simp] theorem Derivation.extend_nil (d : Derivation) : d.extend [] 0 = d := rfl

@[simp] theorem Derivation.extend_extend (d : Derivation) (first second : List Nat)
    (shifts others : Nat) :
    (d.extend first shifts).extend second others =
      d.extend (first ++ second) (shifts + others) := by
  simp [extend, Nat.add_assoc]

@[simp] theorem Derivation.reductions_extend (d : Derivation) (reductions : List Nat)
    (shifts : Nat) : (d.extend reductions shifts).reductions = d.reductions ++ reductions := by
  simp [extend, Derivation.reductions]

theorem Derivation.extend_empty (d : Derivation) :
    Derivation.extend ⟨[], 0⟩ d.reductions d.shifts = d := by
  cases d
  simp [extend, Derivation.reductions]

namespace Table

variable {t : Table}

inductive Advances (t : Table) : Snapshot → Snapshot → Prop
  | shift {trail : Trail} {x : Terminal} {pending : List Terminal} {d : Derivation}
      {state : Nat} (hentry : t.entry trail.top (.terminal x) = some (.shift state)) :
      t.Advances ⟨trail, x :: pending, d⟩
        ⟨(.terminal x, state) :: trail, pending, d.extend [] 1⟩
  | reduce {trail : Trail} {x : Terminal} {pending : List Terminal} {d : Derivation}
      {id state : Nat} (hid : id ≠ 0)
      (hentry : t.entry trail.top (.terminal x) = some (.reduce id))
      (hlength : (t.grammar.rule id).rhs.length ≤ trail.length)
      (hspelling : trail.spelling =
        Trail.spelling (trail.drop (t.grammar.rule id).rhs.length) ++ (t.grammar.rule id).rhs)
      (hgoto : t.entry (Trail.top (trail.drop (t.grammar.rule id).rhs.length))
        (.nonterminal (t.grammar.rule id).lhs) = some (.goto state)) :
      t.Advances ⟨trail, x :: pending, d⟩
        ⟨(.nonterminal (t.grammar.rule id).lhs, state) ::
          trail.drop (t.grammar.rule id).rhs.length, x :: pending, d.extend [id] 0⟩

def Accepting (t : Table) (s : Snapshot) : Prop :=
  ∃ x, s.pending.head? = some x ∧ t.entry s.trail.top (.terminal x) = some (.reduce 0)

/-- The parser gets to accept with a derivation. -/
def Completes (t : Table) (s : Snapshot) (d : Derivation) : Prop :=
  ∃ last, Relation.ReflTransGen t.Advances s last ∧ t.Accepting last ∧ last.derivation = d

theorem Advances.unique {s first second : Snapshot} (hfirst : t.Advances s first)
    (hsecond : t.Advances s second) : first = second := by
  cases hfirst with
  | shift hentry =>
      cases hsecond with
      | shift hother =>
          rw [hentry] at hother
          cases hother
          rfl
      | reduce _ hother =>
          rw [hentry] at hother
          cases hother
  | reduce _ hentry _ _ hgoto =>
      cases hsecond with
      | shift hother =>
          rw [hentry] at hother
          cases hother
      | reduce _ hother _ _ hgoto' =>
          rw [hentry] at hother
          cases hother
          rw [hgoto] at hgoto'
          cases hgoto'
          rfl

theorem Advances.not_accepting {s next : Snapshot} (h : t.Advances s next) :
    ¬ t.Accepting s := by
  intro ⟨x, hx, haccept⟩
  cases h with
  | shift hentry =>
      cases hx
      rw [hentry] at haccept
      cases haccept
  | reduce hid hentry =>
      cases hx
      rw [hentry] at haccept
      cases haccept
      exact hid rfl

/-- The terminals to come determine the derivation. -/
theorem Completes.unique {s : Snapshot} {first second : Derivation}
    (hfirst : t.Completes s first) (hsecond : t.Completes s second) : first = second := by
  obtain ⟨last, hruns, haccept, rfl⟩ := hfirst
  induction hruns using Relation.ReflTransGen.head_induction_on with
  | refl =>
      obtain ⟨other, hother, _, rfl⟩ := hsecond
      cases hother.cases_head with
      | inl heq => rw [heq]
      | inr hstep =>
          obtain ⟨next, hnext, _⟩ := hstep
          exact absurd haccept hnext.not_accepting
  | head hstep _ ih =>
      apply ih
      obtain ⟨other, hother, hotherAccept, hderivation⟩ := hsecond
      cases hother.cases_head with
      | inl heq =>
          subst heq
          exact absurd hotherAccept hstep.not_accepting
      | inr hnext =>
          obtain ⟨next, hnext, hrest⟩ := hnext
          rw [hstep.unique hnext]
          exact ⟨other, hrest, hotherAccept, hderivation⟩

end Table

/-! Configurations and snapshots. -/

/-- A configuration shows a snapshot of it. -/
structure Config.Shows (v : Vocabulary) (c : Config) (s : Snapshot) : Prop where
  stack_eq : c.stack = .ofTrail s.trail
  awaits : c.Awaits v s.pending
  derivation_eq : c.derivation = s.derivation

namespace Table

variable {t : Table} {c : Config} {s : Snapshot}

theorem exists_token (hshows : c.Shows t.grammar.toVocabulary s) {x : Terminal}
    (hx : s.pending.head? = some x) :
    ∃ token, c.lookahead = .ok token ∧ token.terminal = x := by
  have hawaits := hshows.awaits
  obtain ⟨pending, hpending⟩ := List.head?_eq_some_iff.mp hx
  rw [hpending] at hawaits
  obtain ⟨token, hlookahead, hterminal, _⟩ := hawaits
  exact ⟨token, hlookahead, hterminal⟩

theorem Advances.exists_next {next : Snapshot} (h : t.Advances s next)
    (hshows : c.Shows t.grammar.toVocabulary s) :
    ∃ after, t.Next c after ∧ after.Shows t.grammar.toVocabulary next := by
  have htop : c.stack.top = s.trail.top := by
    rw [hshows.stack_eq, ParseStack.top_ofTrail]
  cases h with
  | shift hentry =>
      obtain ⟨token, hlookahead, rfl⟩ := exists_token hshows rfl
      rw [← htop] at hentry
      refine ⟨_, .shift (move_shift hlookahead hentry), ?_, ?_, ?_⟩
      · exact stack_shift hshows.stack_eq ..
      · exact (Config.awaits_shift hlookahead _).mpr hshows.awaits
      · rw [Config.derivation_shift, hshows.derivation_eq]
        rfl
  | reduce hid hentry _ hspelling hgoto =>
      obtain ⟨token, hlookahead, rfl⟩ := exists_token hshows rfl
      rw [← htop] at hentry
      have hreduce := Config.reduce_eq_ok hshows.stack_eq ⟨_, hspelling.symm⟩ hgoto
      refine ⟨_, .reduce (move_reduce hlookahead hentry hid hreduce), rfl, ?_, ?_⟩
      · exact hshows.awaits
      · rw [Config.reduced, hshows.derivation_eq]
        rfl

theorem Accepting.move_eq (h : t.Accepting s) (hshows : c.Shows t.grammar.toVocabulary s) :
    t.move c = .accept s.derivation := by
  obtain ⟨x, hx, hentry⟩ := h
  obtain ⟨token, hlookahead, rfl⟩ := exists_token hshows hx
  rw [← hshows.derivation_eq]
  refine move_accept hlookahead ?_
  rw [hshows.stack_eq, ParseStack.top_ofTrail]
  exact hentry

theorem exists_runs_of_advances {final : Snapshot}
    (h : Relation.ReflTransGen t.Advances s final)
    (hshows : c.Shows t.grammar.toVocabulary s) :
    ∃ count last, t.Runs count c last ∧ last.Shows t.grammar.toVocabulary final := by
  induction h using Relation.ReflTransGen.head_induction_on generalizing c with
  | refl => exact ⟨0, c, .refl c, hshows⟩
  | head hstep _ ih =>
      obtain ⟨after, hnext, hafter⟩ := hstep.exists_next hshows
      obtain ⟨count, last, hruns, hlast⟩ := ih hafter
      exact ⟨count + 1, last, .step hnext hruns, hlast⟩

theorem Completes.exists_runs {d : Derivation} (h : t.Completes s d)
    (hshows : c.Shows t.grammar.toVocabulary s) :
    ∃ count last, t.Runs count c last ∧ t.move last = .accept d := by
  obtain ⟨final, hadvances, haccept, rfl⟩ := h
  obtain ⟨count, last, hruns, hlast⟩ := exists_runs_of_advances hadvances hshows
  exact ⟨count, last, hruns, haccept.move_eq hlast⟩

end Table
end CanonicalLR
