import CanonicalLR.Proofs.Grammar.Building
import CanonicalLR.Proofs.Indexed.Slice
import CanonicalLR.Proofs.Parsing.Span

namespace CanonicalLR

/-! Where an error is reported.  By any table, the current token stands behind the text of
what the moves before have shifted, and a rejection names exactly this text. -/

def Move.shifted? : Move → Option Terminal
  | .shift (.terminal x) _ => some x
  | _ => none

@[simp] theorem Move.shifted?_reduce (rule : Nat) (next : Config) :
    (reduce rule next).shifted? = none := rfl

/-- The terminals that are shifted on the way. -/
def shiftedBy (moves : List (Config × Move)) : List Terminal :=
  moves.filterMap (·.2.shifted?)

@[simp] theorem shiftedBy_nil : shiftedBy [] = [] := rfl

theorem shiftedBy_cons (c : Config) (move : Move) (moves : List (Config × Move)) :
    shiftedBy ((c, move) :: moves) = move.shifted?.toList ++ shiftedBy moves := by
  rw [shiftedBy, List.filterMap_cons]
  dsimp only
  cases move.shifted? <;> rfl

namespace Config

variable {t : Table} {input : List Char} {c : Config} {shifted : List Terminal}

theorem Placed.next (h : c.Placed t.grammar.toVocabulary input shifted) {next : Config}
    (hnext : t.Next c next) :
    next.Placed t.grammar.toVocabulary input (shifted ++ (t.move c).shifted?.toList) := by
  have hmade := t.made c
  cases hnext with
  | shift hmove =>
      rw [hmove] at hmade ⊢
      cases hmade with
      | @shift token target hlookahead => exact h.shift hlookahead target
  | reduce hmove =>
      rw [hmove] at hmade ⊢
      cases hmade with
      | reduce =>
          rw [Move.shifted?_reduce, Option.toList_none, List.append_nil]
          exact h.reduced _ _

theorem exists_placed {input : String} {count : Nat}
    (h : t.Runs count (ofInput t.grammar.toVocabulary input) c) :
    ∃ shifted, c.Placed t.grammar.toVocabulary input.toList shifted := by
  have hpreserves : ∀ c next : Config,
      (∃ shifted, c.Placed t.grammar.toVocabulary input.toList shifted) → t.Next c next →
      ∃ shifted, next.Placed t.grammar.toVocabulary input.toList shifted :=
    fun _ _ ⟨_, hplaced⟩ hnext => ⟨_, hplaced.next hnext⟩
  exact h.preserves hpreserves ⟨[], ofInput_placed _ input⟩

/-- The induction is on the moves that are left to be made. -/
theorem Placed.of_moves (h : c.Placed t.grammar.toVocabulary input shifted) {budget : Nat}
    {before after : List (Config × Move)} {last : Config} {move : Move}
    (hmoves : t.moves budget c = before ++ (last, move) :: after) :
    last.Placed t.grammar.toVocabulary input (shifted ++ shiftedBy before) ∧
      t.move last = move := by
  induction budget generalizing c shifted before with
  | zero => exact absurd hmoves.symm (List.append_ne_nil_of_right_ne_nil _ (List.cons_ne_nil _ _))
  | succ budget ih =>
      obtain ⟨rest, heq, hrest⟩ := t.moves_succ budget c
      rw [heq] at hmoves
      cases before with
      | nil =>
          cases (List.cons.inj hmoves).1
          rw [shiftedBy_nil, List.append_nil]
          exact ⟨h, rfl⟩
      | cons first before =>
          obtain ⟨rfl, htail⟩ := List.cons.inj hmoves
          rcases hrest with rfl | ⟨next, hnext, rfl⟩
          · exact absurd htail.symm (List.append_ne_nil_of_right_ne_nil _ (List.cons_ne_nil _ _))
          · rw [shiftedBy_cons, ← List.append_assoc]
            exact ih (h.next hnext) htail

end Config

/-- A rejection that blames the input says that exactly so much of it was shifted: there the
missing token stands, or no token can be read. -/
def Rejection.Locates (input shifted : String) : Rejection → Prop
  | .missingTableEntry _ name consumed =>
      consumed = shifted ∧ (name = endMarkerName ↔ consumed = input) ∧
        (name ≠ endMarkerName → ∃ rest, input = consumed ++ name ++ rest)
  | .unrecognizedSymbol offset consumed =>
      consumed = shifted ∧ offset = Text.byteLength shifted.toList ∧
        ∃ rest, input = consumed ++ rest
  | _ => True

theorem Scanner.Placed.slice_eq {v : Vocabulary} {input before : List Char} {token : Token}
    {s : Scanner} (h : Placed v input before (.ok token) s) :
    Text.sliceTo? token.start input = some before := by
  cases h with
  | token hinput =>
      rw [hinput, List.append_assoc, Token.start, Text.byteLength_reverse]
      exact Text.sliceTo?_append _ _
  | endMarker hinput =>
      rw [hinput, Token.start, Text.byteLength_reverse]
      simpa using Text.sliceTo?_append before []

namespace Config

variable {t : Table} {input : String} {c : Config} {shifted : List Terminal}

theorem Placed.locates (h : c.Placed t.grammar.toVocabulary input.toList shifted)
    {rejection : Rejection} (hmove : t.move c = .reject rejection) :
    rejection.Locates input (t.grammar.written shifted) := by
  have hmade := t.made c
  rw [hmove] at hmade
  cases hmade with
  | unread hlookahead =>
      obtain ⟨rfl, rest, hrest⟩ := (h.error hlookahead).unread
      rw [String.ofList_toList]
      refine ⟨rfl, rfl, String.ofList rest, ?_⟩
      rw [← String.toList_inj, String.toList_append, String.toList_ofList, hrest]
  | stuck hlookahead =>
      have htoken := h.ok hlookahead
      rw [htoken.before_eq, String.ofList_toList]
      refine ⟨rfl, htoken.name_eq_endMarker_iff.trans String.toList_inj, fun hname => ?_⟩
      refine ⟨String.ofList c.scanner.rest, ?_⟩
      rw [← String.toList_inj, (htoken.input_eq hname).2]
      simp
  | contradicted _ hinternal =>
      cases rejection with
      | unrecognizedSymbol offset consumed => cases hinternal
      | missingTableEntry state name consumed => cases hinternal
      | _ => trivial

end Config

namespace Table

/-- In front of every move, the current token begins where the text of the terminals shifted
so far ends; so where an input is rejected, this text is what was read of it. -/
theorem errors_located (t : Table) (input : String) :
    (∀ (budget : Nat) (before after : List (Config × Move)) (c : Config) (move : Move),
      t.moves budget (.ofInput t.grammar.toVocabulary input) = before ++ (c, move) :: after →
      (∀ token, c.lookahead = .ok token →
        Text.sliceTo? token.start input.toList =
          some (t.grammar.written (shiftedBy before)).toList) ∧
      ∀ rejection, move = .reject rejection →
        rejection.Locates input (t.grammar.written (shiftedBy before))) ∧
    ∀ rejection, t.parse input = .rejected rejection →
      ∃ before c, t.history input = before ++ [(c, .reject rejection)] ∧
        rejection.Locates input (t.grammar.written (shiftedBy before)) := by
  have hlocates : ∀ {budget : Nat} {before after : List (Config × Move)} {c : Config}
      {move : Move},
      t.moves budget (.ofInput t.grammar.toVocabulary input) = before ++ (c, move) :: after →
      c.Placed t.grammar.toVocabulary input.toList (shiftedBy before) ∧ t.move c = move :=
    fun hmoves => (Config.ofInput_placed t.grammar.toVocabulary input).of_moves hmoves
  refine ⟨fun budget before after c move hmoves => ?_, fun rejection hparse => ?_⟩
  · obtain ⟨hplaced, hmove⟩ := hlocates hmoves
    refine ⟨fun token hlookahead => (hplaced.ok hlookahead).slice_eq, ?_⟩
    rintro rejection rfl
    exact hplaced.locates hmove
  · obtain ⟨before, c, hmoves, houtcome⟩ := exists_moves_of_run hparse nofun
    have hmove := Move.outcome?_eq_rejected_iff.mp houtcome
    rw [hmove] at hmoves
    exact ⟨before, c, hmoves, (hlocates hmoves).1.locates hmove⟩

/-- Arrows and accents are counted by their bytes. -/
theorem errors_located_accented :
    ∃ before c,
      (build (Automaton.build .accented .breadthFirst)).history "é→←é?" =
        before ++ [(c, .reject (.unrecognizedSymbol 10 "é→←é"))] ∧
      "é→←é" = Grammar.accented.written (shiftedBy before) ∧
      10 = Text.byteLength (Grammar.accented.written (shiftedBy before)).toList ∧
      ∃ rest, "é→←é?" = "é→←é" ++ rest := by
  have hparse : (build (Automaton.build .accented .breadthFirst)).parse "é→←é?" =
      .rejected (.unrecognizedSymbol 10 "é→←é") := by
    decide +kernel
  exact (errors_located _ "é→←é?").2 _ hparse

end Table
end CanonicalLR
