import CanonicalLR.OrderedSet

namespace CanonicalLR

/-! Grammar symbols.  Terminals and nonterminals are positions in the
vocabulary of a grammar; the end marker stands outside every alphabet. -/

inductive Terminal where
  | token (index : Nat)
  | endMarker
deriving DecidableEq

namespace Terminal

/-- Tokens come in alphabet order, the end marker after all of them. -/
def order : Terminal → Terminal → Ordering
  | token i, token j => compare i j
  | token _, endMarker => .lt
  | endMarker, token _ => .gt
  | endMarker, endMarker => .eq

instance : Ord Terminal := ⟨order⟩

@[simp] theorem compare_token (i j : Nat) :
    compare (token i) (token j) = compare i j := rfl

@[simp] theorem compare_token_endMarker (i : Nat) :
    compare (token i) endMarker = .lt := rfl

@[simp] theorem compare_endMarker_token (j : Nat) :
    compare endMarker (token j) = .gt := rfl

@[simp] theorem compare_endMarker :
    compare endMarker endMarker = .eq := rfl

instance : Std.TransOrd Terminal where
  eq_swap {first second} := by
    cases first with
    | token i =>
        cases second with
        | token j => exact Std.OrientedOrd.eq_swap (α := Nat)
        | endMarker => rfl
    | endMarker => cases second <;> rfl
  isLE_trans {first second third} hfirst hsecond := by
    cases third with
    | endMarker => cases first <;> rfl
    | token k =>
        cases second with
        | endMarker => cases hsecond
        | token j =>
            cases first with
            | endMarker => cases hfirst
            | token i => exact Std.TransOrd.isLE_trans (α := Nat) hfirst hsecond

instance : Std.LawfulEqOrd Terminal where
  compare_self {terminal} := by
    cases terminal <;> simp
  eq_of_compare {first second} h := by
    cases first <;> cases second <;> simp_all

end Terminal

inductive Symbol where
  | terminal (terminal : Terminal)
  | nonterminal (index : Nat)
deriving DecidableEq

namespace Symbol

def isTerminal : Symbol → Bool
  | terminal _ => true
  | nonterminal _ => false

@[simp] theorem isTerminal_terminal (t : Terminal) :
    (terminal t).isTerminal = true := rfl

@[simp] theorem isTerminal_nonterminal (n : Nat) :
    (nonterminal n).isTerminal = false := rfl

end Symbol

/-- Terminals that may begin or follow a phrase. -/
abbrev TerminalSet := OrderedSet Terminal

end CanonicalLR
