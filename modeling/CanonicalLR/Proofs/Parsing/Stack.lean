import CanonicalLR.Parsing.Stack
import CanonicalLR.Proofs.Automaton.Trail

namespace CanonicalLR

/-! Taking right-hand sides off a stack on which symbols and states take turns.  Only the
symbols are counted, so a right-hand side takes as many pairs with it as it has symbols. -/

theorem Trail.suffix_spelling_iff {trail : Trail} {symbols : List Symbol} :
    symbols <:+ trail.spelling ↔ Trail.spelling (trail.take symbols.length) = symbols := by
  rw [← List.reverse_prefix, spelling, List.reverse_reverse, List.prefix_iff_eq_take,
    List.length_reverse, spelling, ← List.map_take, List.reverse_eq_iff]
  exact eq_comm

theorem Trail.length_le_of_suffix {trail : Trail} {symbols : List Symbol}
    (h : symbols <:+ trail.spelling) : symbols.length ≤ trail.length :=
  trail.length_spelling ▸ h.length_le

namespace ParseStack

/-- The stack with the symbols and states of a trail above its entries. -/
def under (base : ParseStack) (trail : Trail) : ParseStack :=
  ⟨trail.flatMap (fun (symbol, state) => [.state state, .symbol symbol]) ++ base.entries⟩

@[simp] theorem under_nil (base : ParseStack) : base.under [] = base := rfl

@[simp] theorem under_cons (base : ParseStack) (symbol : Symbol) (state : Nat) (trail : Trail) :
    base.under ((symbol, state) :: trail) = (base.under trail).push symbol state := rfl

theorem under_append (base : ParseStack) (above below : Trail) :
    base.under (above ++ below) = (base.under below).under above := by
  simp [under]

@[simp] theorem unwind_zero (taken : List Symbol) (entries : List StackEntry) :
    unwind taken 0 entries = (some taken, entries) := by
  cases entries <;> rfl

theorem unwind_under (base : ParseStack) (taken : List Symbol) {count : Nat} {trail : Trail}
    (h : count ≤ trail.length) :
    unwind taken count (base.under trail).entries =
      (some (Trail.spelling (trail.take count) ++ taken),
        (base.under (trail.drop count)).entries) := by
  induction trail generalizing count taken with
  | nil =>
      rw [Nat.le_zero.mp h, unwind_zero]
      rfl
  | cons entry trail ih =>
      cases count with
      | zero => rfl
      | succ count =>
          show unwind (entry.1 :: taken) count (base.under trail).entries = _
          rw [ih (entry.1 :: taken) (Nat.le_of_succ_le_succ h)]
          simp [Trail.spelling]

variable {g : Grammar} {rule : Nat} {base : ParseStack} {trail : Trail}

theorem popRhs_under_of_not_suffix (hlength : (g.rule rule).rhs.length ≤ trail.length)
    (hother : ¬ (g.rule rule).rhs <:+ trail.spelling) :
    popRhs g rule (base.under trail) =
      (.error (.rhsMismatch rule (String.join
          ((Trail.spelling (trail.take (g.rule rule).rhs.length)).map g.name))),
        base.under (trail.drop (g.rule rule).rhs.length)) := by
  unfold popRhs
  dsimp only
  rw [unwind_under base [] hlength, List.append_nil]
  exact if_pos fun htaken => hother (Trail.suffix_spelling_iff.mpr htaken)

/-- What is below the right-hand side decides whether it can be taken off. -/
theorem popRhs_under_of_suffix (hsuffix : (g.rule rule).rhs <:+ trail.spelling) :
    popRhs g rule (base.under trail) =
      match (base.under (trail.drop (g.rule rule).rhs.length)).entries with
      | .state _ :: _ => (.ok (), base.under (trail.drop (g.rule rule).rhs.length))
      | _ => (.error (.reduceStackUnderflow rule (base.under trail).top),
          base.under (trail.drop (g.rule rule).rhs.length)) := by
  unfold popRhs
  dsimp only
  rw [unwind_under base [] (Trail.length_le_of_suffix hsuffix), List.append_nil,
    Trail.suffix_spelling_iff.mp hsuffix]
  exact if_neg (not_not_intro rfl)

theorem popRhs_under_of_state (hsuffix : (g.rule rule).rhs <:+ trail.spelling) {state : Nat}
    {below : List StackEntry}
    (hbelow : (base.under (trail.drop (g.rule rule).rhs.length)).entries =
      .state state :: below) :
    popRhs g rule (base.under trail) =
      (.ok (), base.under (trail.drop (g.rule rule).rhs.length)) := by
  rw [popRhs_under_of_suffix hsuffix, hbelow]

theorem popRhs_under_of_nil (hsuffix : (g.rule rule).rhs <:+ trail.spelling)
    (hbelow : (base.under (trail.drop (g.rule rule).rhs.length)).entries = []) :
    popRhs g rule (base.under trail) =
      (.error (.reduceStackUnderflow rule (base.under trail).top),
        base.under (trail.drop (g.rule rule).rhs.length)) := by
  rw [popRhs_under_of_suffix hsuffix, hbelow]

/-- A right-hand side comes off where it was pushed onto a state. -/
theorem popRhs_pushed (hspelling : trail.spelling = (g.rule rule).rhs) {state : Nat}
    {below : List StackEntry} (hbase : base.entries = .state state :: below) :
    popRhs g rule (base.under trail) = (.ok (), base) := by
  have hlength : (g.rule rule).rhs.length = trail.length := by
    rw [← hspelling, Trail.length_spelling]
  have hrest : base.under (trail.drop (g.rule rule).rhs.length) = base := by
    rw [hlength, List.drop_length, under_nil]
  have hpop := popRhs_under_of_state (hspelling ▸ List.suffix_rfl)
    ((congrArg entries hrest).trans hbase)
  rwa [hrest] at hpop

end ParseStack
end CanonicalLR
