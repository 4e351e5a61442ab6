import CanonicalLR.Grammar.Basic
import CanonicalLR.Parsing.Rejection

namespace CanonicalLR

/-! The parse stack, on which symbols and states take turns above state 0. -/

inductive StackEntry where
  | state (state : Nat)
  | symbol (symbol : Symbol)
deriving DecidableEq

structure ParseStack where
  /-- The topmost entry comes first. -/
  entries : List StackEntry
deriving DecidableEq

namespace ParseStack

def fresh : ParseStack := ⟨[.state 0]⟩

def entryState? : StackEntry → Option Nat
  | .state state => some state
  | .symbol _ => none

def topState? (stack : ParseStack) : Option Nat :=
  stack.entries.findSome? entryState?

/-- The topmost state, or 0 on a stack without states. -/
def top (stack : ParseStack) : Nat :=
  stack.topState?.getD 0

def push (stack : ParseStack) (symbol : Symbol) (state : Nat) : ParseStack :=
  ⟨.state state :: .symbol symbol :: stack.entries⟩

@[simp] theorem top_fresh : fresh.top = 0 := rfl

@[simp] theorem topState?_push (stack : ParseStack) (symbol : Symbol) (state : Nat) :
    (stack.push symbol state).topState? = some state := rfl

@[simp] theorem top_push (stack : ParseStack) (symbol : Symbol) (state : Nat) :
    (stack.push symbol state).top = state := rfl

/-- Takes symbols off, and the states in between, until the given number of
symbols is found.  The symbols are gathered in front of `taken`, so they come
out in the order in which they were pushed. -/
def unwind (taken : List Symbol) : Nat → List StackEntry → Option (List Symbol) × List StackEntry
  | 0, entries => (some taken, entries)
  | _ + 1, [] => (none, [])
  | count + 1, .state _ :: entries => unwind taken (count + 1) entries
  | count + 1, .symbol symbol :: entries => unwind (symbol :: taken) count entries

theorem length_of_unwind {taken result : List Symbol} {count : Nat}
    {entries rest : List StackEntry} (h : unwind taken count entries = (some result, rest)) :
    result.length = count + taken.length := by
  induction entries generalizing taken count with
  | nil =>
      cases count with
      | zero =>
          cases h
          omega
      | succ count => cases h
  | cons entry entries ih =>
      cases count with
      | zero =>
          cases h
          omega
      | succ count =>
          cases entry with
          | state state => exact ih h
          | symbol symbol =>
              have hlength := ih h
              rw [List.length_cons] at hlength
              omega

/-- Takes the right-hand side of a rule off the stack.  A failure leaves the
stack as far as it was taken down. -/
def popRhs (g : Grammar) (rule : Nat) (stack : ParseStack) :
    Except Rejection Unit × ParseStack :=
  let rhs := (g.rule rule).rhs
  let underflow : Except Rejection Unit := .error (.reduceStackUnderflow rule stack.top)
  match unwind [] rhs.length stack.entries with
  | (none, entries) => (underflow, ⟨entries⟩)
  | (some taken, entries) =>
      if taken ≠ rhs then
        (.error (.rhsMismatch rule (String.join (taken.map g.name))), ⟨entries⟩)
      else
        match entries with
        | .state _ :: _ => (.ok (), ⟨entries⟩)
        | _ => (underflow, ⟨entries⟩)

def entryText (g : Grammar) : StackEntry → String
  | .state state => toString state
  | .symbol symbol => g.name symbol

def text (g : Grammar) (stack : ParseStack) : String :=
  " ".intercalate (stack.entries.reverse.map (entryText g))

end ParseStack
end CanonicalLR
