import CanonicalLR.Text.Blank
import CanonicalLR.Vocabulary

namespace CanonicalLR.Vocabulary

/-! Cutting a text into symbols from left to right, always taking the longest
name that the remaining text begins with. -/

def begins (v : Vocabulary) (text : List Char) (symbol : Symbol) : Bool :=
  (v.name symbol).toList.isPrefixOf text

/-- The longer of two names; the earlier one if they are equally long. -/
def longer (v : Vocabulary) (best : Option Symbol) (symbol : Symbol) :
    Option Symbol :=
  match best with
  | none => some symbol
  | some other =>
      if (v.name other).length < (v.name symbol).length then some symbol
      else some other

/-- The symbol with the longest name that the text begins with. -/
def longestMatch (v : Vocabulary) (text : List Char) : Option Symbol :=
  (v.symbols.filter (v.begins text)).foldl v.longer none

/-- Segments a text of which the first `covered` characters belong to a symbol
already found.  Fails with the offset at which no name fits. -/
def segmentFrom (v : Vocabulary) (offset covered : Nat) :
    List Char → Except Nat (List Symbol)
  | [] => .ok []
  | c :: text =>
      match covered with
      | covered + 1 => v.segmentFrom (offset + c.utf8Size) covered text
      | 0 =>
          match v.longestMatch (c :: text) with
          | none => .error offset
          | some symbol =>
              (v.segmentFrom (offset + c.utf8Size)
                ((v.name symbol).length - 1) text).map (symbol :: ·)

def segment (v : Vocabulary) (text : List Char) : Except Nat (List Symbol) :=
  v.segmentFrom 0 0 text

@[simp] theorem segmentFrom_nil (v : Vocabulary) (offset covered : Nat) :
    v.segmentFrom offset covered [] = .ok [] := rfl

theorem segmentFrom_eq_drop (v : Vocabulary) (offset covered : Nat)
    (text : List Char) :
    v.segmentFrom offset covered text =
      v.segmentFrom (offset + Text.byteLength (text.take covered)) 0
        (text.drop covered) := by
  induction text generalizing offset covered with
  | nil => simp
  | cons c text ih =>
      cases covered with
      | zero => simp
      | succ covered =>
          rw [List.take_succ_cons, List.drop_succ_cons, Text.byteLength_cons,
            ← Nat.add_assoc, ← ih]
          rfl

end CanonicalLR.Vocabulary
