import CanonicalLR.Proofs.Indexed.Parse

namespace CanonicalLR

/-! Stacks under any calls, also after calls that failed.  A right-hand side that is too
long takes state 0 off with all the rest, and what is pushed from then on has nothing below
it, so a right-hand side that is all of such a stack cannot be taken off either. -/

inductive StackCall where
  | push (symbol : Symbol) (state : Nat)
  | pop (g : Grammar) (rule : Nat)

namespace ParseStack

def empty : ParseStack := ⟨[]⟩

/-- The stack that a call leaves, whether it fails or not. -/
def call (stack : ParseStack) : StackCall → ParseStack
  | .push symbol state => stack.push symbol state
  | .pop g rule => (stack.popRhs g rule).2

def after (calls : List StackCall) : ParseStack :=
  calls.foldl call fresh

/-- What is below the first symbol: state 0, or nothing once it has been taken off. -/
inductive Bottom : ParseStack → Prop
  | kept : Bottom fresh
  | lost : Bottom empty

variable {g : Grammar} {rule : Nat} {base stack : ParseStack} {trail : Trail}

theorem Bottom.entries_cases (h : base.Bottom) (trail : Trail) :
    (base.under trail).entries = [] ∨
      ∃ below, (base.under trail).entries = .state trail.top :: below := by
  cases trail with
  | nil =>
      cases h with
      | kept => exact .inr ⟨[], rfl⟩
      | lost => exact .inl rfl
  | cons entry trail => exact .inr ⟨_, rfl⟩

theorem Bottom.topState?_under (h : base.Bottom) (trail : Trail) :
    (base.under trail).topState? =
      if (base.under trail).entries = [] then none else some trail.top := by
  rcases h.entries_cases trail with hentries | ⟨below, hentries⟩ <;>
    rw [topState?, hentries] <;> rfl

theorem Bottom.unwind_eq (h : base.Bottom) (taken : List Symbol) {count : Nat}
    (hlength : trail.length < count) :
    unwind taken count (base.under trail).entries = (none, []) := by
  induction trail generalizing count taken with
  | nil =>
      -- State 0 is passed over, and then the stack has come to its end.
      obtain ⟨count, rfl⟩ := Nat.exists_eq_add_of_lt hlength
      cases h <;> rfl
  | cons entry trail ih =>
      cases count with
      | zero => exact absurd hlength (Nat.not_lt_zero _)
      | succ count => exact ih (entry.1 :: taken) (Nat.lt_of_succ_lt_succ hlength)

theorem Bottom.popRhs_eq_underflow (h : base.Bottom)
    (hlength : trail.length < (g.rule rule).rhs.length) :
    popRhs g rule (base.under trail) =
      (.error (.reduceStackUnderflow rule (base.under trail).top), empty) := by
  unfold popRhs
  dsimp only
  rw [h.unwind_eq [] hlength]
  rfl

/-- The ways in which it can end to take a right-hand side off. -/
inductive Ends (g : Grammar) (rule : Nat) (base : ParseStack) (trail : Trail) :
    Except Rejection Unit × ParseStack → Prop
  | short (hlength : trail.length < (g.rule rule).rhs.length) :
      Ends g rule base trail
        (.error (.reduceStackUnderflow rule (base.under trail).top), empty)
  | other (hlength : (g.rule rule).rhs.length ≤ trail.length)
      (hother : ¬ (g.rule rule).rhs <:+ trail.spelling) :
      Ends g rule base trail
        (.error (.rhsMismatch rule (String.join
            ((Trail.spelling (trail.take (g.rule rule).rhs.length)).map g.name))),
          base.under (trail.drop (g.rule rule).rhs.length))
  | floating (hsuffix : (g.rule rule).rhs <:+ trail.spelling)
      (hbelow : (base.under (trail.drop (g.rule rule).rhs.length)).entries = []) :
      Ends g rule base trail
        (.error (.reduceStackUnderflow rule (base.under trail).top),
          base.under (trail.drop (g.rule rule).rhs.length))
  | taken (hsuffix : (g.rule rule).rhs <:+ trail.spelling)
      (hbelow : (base.under (trail.drop (g.rule rule).rhs.length)).entries ≠ []) :
      Ends g rule base trail (.ok (), base.under (trail.drop (g.rule rule).rhs.length))

theorem Bottom.ends (h : base.Bottom) (g : Grammar) (rule : Nat) (trail : Trail) :
    Ends g rule base trail (popRhs g rule (base.under trail)) := by
  by_cases hsuffix : (g.rule rule).rhs <:+ trail.spelling
  · rcases h.entries_cases (trail.drop (g.rule rule).rhs.length) with hnil | ⟨below, hbelow⟩
    · rw [popRhs_under_of_nil hsuffix hnil]
      exact .floating hsuffix hnil
    · rw [popRhs_under_of_state hsuffix hbelow]
      exact .taken hsuffix (hbelow ▸ List.cons_ne_nil _ _)
  · by_cases hlength : (g.rule rule).rhs.length ≤ trail.length
    · rw [popRhs_under_of_not_suffix hlength hsuffix]
      exact .other hlength hsuffix
    · rw [h.popRhs_eq_underflow (Nat.lt_of_not_le hlength)]
      exact .short (Nat.lt_of_not_le hlength)

/-! Symbols and states keep taking turns. -/

def Layered (stack : ParseStack) : Prop :=
  ∃ (base : ParseStack) (trail : Trail), base.Bottom ∧ stack = base.under trail

theorem Layered.call (h : stack.Layered) (c : StackCall) : (stack.call c).Layered := by
  obtain ⟨base, trail, hbase, rfl⟩ := h
  cases c with
  | push symbol state => exact ⟨base, (symbol, state) :: trail, hbase, rfl⟩
  | pop g rule =>
      have hends := hbase.ends g rule trail
      show Layered (popRhs g rule (base.under trail)).2
      generalize popRhs g rule (base.under trail) = result at hends
      cases hends with
      | short => exact ⟨empty, [], .lost, rfl⟩
      | other | floating | taken => exact ⟨base, _, hbase, rfl⟩

theorem Layered.foldl_call (h : stack.Layered) (calls : List StackCall) :
    (calls.foldl ParseStack.call stack).Layered := by
  induction calls generalizing stack with
  | nil => exact h
  | cons c calls ih => exact ih (h.call c)

theorem after_layered (calls : List StackCall) : (after calls).Layered :=
  Layered.foldl_call ⟨fresh, [], .kept, rfl⟩ calls

theorem foldl_push (stack : ParseStack) (pairs : List (Symbol × Nat)) :
    (pairs.map fun (symbol, state) => StackCall.push symbol state).foldl call stack =
      stack.under pairs.reverse := by
  induction pairs generalizing stack with
  | nil => rfl
  | cons pair pairs ih =>
      rw [List.reverse_cons, under_append, List.map_cons, List.foldl_cons, ih]
      rfl

theorem Bottom.popRhs?_eq_some (h : base.Bottom) (hid : rule < g.rules.length)
    (hsymbols : ∀ symbol ∈ trail.spelling, symbol ∈ g.symbols) :
    popRhs? g.catalog rule (base.under trail) = some (popRhs g rule (base.under trail)) := by
  refine popRhs?_of_names hid fun taken rest hunwind _ => ?_
  by_cases hlength : (g.rule rule).rhs.length ≤ trail.length
  · rw [unwind_under base [] hlength, List.append_nil] at hunwind
    cases hunwind
    refine Indexed.mapM_eq_some fun symbol hsymbol => Vocabulary.name?_eq (hsymbols symbol ?_)
    rw [← List.take_append_drop (g.rule rule).rhs.length trail, Trail.spelling_append]
    exact List.mem_append_right _ hsymbol
  · rw [h.unwind_eq [] (Nat.lt_of_not_le hlength)] at hunwind
    cases hunwind

/-- What taking the right-hand side of a rule off a stack comes to, if the symbols and
states of `trail` are all that is above `base`. -/
structure Pops (g : Grammar) (rule : Nat) (base : ParseStack) (trail : Trail) : Prop where
  ok_iff : (popRhs g rule (base.under trail)).1 = .ok () ↔
    (g.rule rule).rhs <:+ trail.spelling ∧
      (base.under (trail.drop (g.rule rule).rhs.length)).entries ≠ []
  /-- Each symbol comes off with its state, no matter which symbols are expected. -/
  rest_eq : (g.rule rule).rhs.length ≤ trail.length →
    (popRhs g rule (base.under trail)).2 =
      base.under (trail.drop (g.rule rule).rhs.length)
  underflow : trail.length < (g.rule rule).rhs.length →
    popRhs g rule (base.under trail) =
      (.error (.reduceStackUnderflow rule ((base.under trail).topState?.getD 0)), empty)
  mismatch : (g.rule rule).rhs.length ≤ trail.length →
    ¬ (g.rule rule).rhs <:+ trail.spelling →
    (popRhs g rule (base.under trail)).1 =
      .error (.rhsMismatch rule (String.join
        ((Trail.spelling (trail.take (g.rule rule).rhs.length)).map g.name)))
  /-- The right-hand side is there, but nothing below it. -/
  floating : (g.rule rule).rhs <:+ trail.spelling →
    (base.under (trail.drop (g.rule rule).rhs.length)).entries = [] →
    (popRhs g rule (base.under trail)).1 =
      .error (.reduceStackUnderflow rule ((base.under trail).topState?.getD 0))
  /-- The rule, and the names for the message, are found where they are looked up. -/
  found : rule < g.rules.length → (∀ symbol ∈ trail.spelling, symbol ∈ g.symbols) →
    popRhs? g.catalog rule (base.under trail) = some (popRhs g rule (base.under trail))

theorem Bottom.pops (h : base.Bottom) (g : Grammar) (rule : Nat) (trail : Trail) :
    Pops g rule base trail := by
  have hends := h.ends g rule trail
  constructor
  case ok_iff =>
    generalize popRhs g rule (base.under trail) = result at hends
    cases hends with
    | short hlength =>
        refine ⟨nofun, fun ⟨hsuffix, _⟩ => ?_⟩
        exact absurd (Trail.length_le_of_suffix hsuffix) (Nat.not_le_of_lt hlength)
    | other _ hother => exact ⟨nofun, fun ⟨hsuffix, _⟩ => absurd hsuffix hother⟩
    | floating _ hbelow => exact ⟨nofun, fun ⟨_, hne⟩ => absurd hbelow hne⟩
    | taken hsuffix hbelow => exact ⟨fun _ => ⟨hsuffix, hbelow⟩, fun _ => rfl⟩
  case rest_eq =>
    intro hle
    generalize popRhs g rule (base.under trail) = result at hends
    cases hends with
    | short hlength => exact absurd hle (Nat.not_le_of_lt hlength)
    | other | floating | taken => rfl
  case underflow => exact fun hlength => h.popRhs_eq_underflow hlength
  case mismatch =>
    intro hlength hother
    rw [popRhs_under_of_not_suffix hlength hother]
  case floating =>
    intro hsuffix hbelow
    rw [popRhs_under_of_nil hsuffix hbelow]
    rfl
  case found =>
    intro hid hsymbols
    exact h.popRhs?_eq_some hid hsymbols

/-- Whatever is called, symbols and states take turns above state 0 or above nothing, and
so it is settled what each further call comes to.  Above a state all that has been pushed
comes off again. -/
theorem calls_exact (calls : List StackCall) :
    ∃ (base : ParseStack) (trail : Trail), base.Bottom ∧ after calls = base.under trail ∧
      (after calls).topState? =
        (if (after calls).entries = [] then none else some trail.top) ∧
      (∀ g rule, Pops g rule base trail) ∧
      ∀ g rule (pairs : List (Symbol × Nat)), pairs.map Prod.fst = (g.rule rule).rhs →
        (after calls).topState? ≠ none →
        popRhs g rule (after (calls ++ pairs.map fun (symbol, state) => .push symbol state)) =
          (.ok (), after calls) := by
  obtain ⟨base, trail, hbase, hstack⟩ := after_layered calls
  have htop := hbase.topState?_under trail
  rw [← hstack] at htop
  refine ⟨base, trail, hbase, hstack, htop, fun g rule => hbase.pops g rule trail, ?_⟩
  intro g rule pairs hpairs hstate
  have hpushed : Trail.spelling pairs.reverse = (g.rule rule).rhs := by
    rw [← hpairs, Trail.spelling, List.map_reverse, List.reverse_reverse]
  rw [after, List.foldl_append, foldl_push]
  rcases hbase.entries_cases trail with hnil | ⟨below, hbelow⟩
  · rw [htop, hstack, if_pos hnil] at hstate
    exact absurd rfl hstate
  · exact popRhs_pushed hpushed ((congrArg entries hstack).trans hbelow)

/-- The right-hand side is there, but a reduction in vain has taken off state 0. -/
example :
    popRhs .circling 3 (after [.pop .circling 4, .push (.terminal (.token 0)) 5]) =
      (.error (.reduceStackUnderflow 3 5), empty) := rfl

end ParseStack
end CanonicalLR
