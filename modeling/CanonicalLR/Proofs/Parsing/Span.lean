import CanonicalLR.Proofs.Parsing.Soundness

namespace CanonicalLR

/-! Where the current token stands.  A token of the alphabet is found where its name is
written, and the end marker is not written at all; so in front of the current token is the
text of the terminals shifted before. -/

namespace Vocabulary

variable {v : Vocabulary}

def written (v : Vocabulary) (terminals : List Terminal) : String :=
  String.join ((terminals.filter (· ≠ .endMarker)).map v.terminalName)

@[simp] theorem written_nil (v : Vocabulary) : v.written [] = "" := rfl

@[simp] theorem written_append (v : Vocabulary) (first second : List Terminal) :
    v.written (first ++ second) = v.written first ++ v.written second := by
  simp [written]

@[simp] theorem written_endMarker (v : Vocabulary) : v.written [.endMarker] = "" := rfl

@[simp] theorem written_token (v : Vocabulary) (index : Nat) :
    v.written [.token index] = v.terminalName (.token index) := by
  simp [written]

end Vocabulary

namespace Scanner

/-- Behind some text of an input stands the current token, or an error in its place, and the
scanner behind the token. -/
inductive Placed (v : Vocabulary) (input before : List Char) :
    Except Rejection Token → Scanner → Prop
  | token {index : Nat} {text rest : List Char} (hinput : input = before ++ text ++ rest)
      (hname : v.terminalName (.token index) = String.ofList text) (htext : text ≠ [])
      (hmarker : String.ofList text ≠ endMarkerName) :
      Placed v input before (.ok ⟨.token index, before.reverse, text⟩)
        ⟨text.reverse ++ before.reverse, rest, false⟩
  | endMarker (hinput : input = before) :
      Placed v input before (.ok ⟨.endMarker, before.reverse, []⟩) ⟨before.reverse, [], true⟩
  | unrecognized {rest : List Char} (hinput : input = before ++ rest) :
      Placed v input before
        (.error (.unrecognizedSymbol (Text.byteLength before) (String.ofList before)))
        ⟨before.reverse, rest, true⟩

variable {v : Vocabulary} {input before : List Char} {token : Token} {s : Scanner}

theorem Placed.before_eq (h : Placed v input before (.ok token) s) : token.before = before := by
  cases h <;> exact List.reverse_reverse _

theorem Placed.unread {rejection : Rejection} (h : Placed v input before (.error rejection) s) :
    rejection = .unrecognizedSymbol (Text.byteLength before) (String.ofList before) ∧
      before <+: input := by
  cases h with
  | @unrecognized rest hinput => exact ⟨rfl, rest, hinput.symm⟩

/-- A token that is not the end marker is written where it is read, and the scanner stands
behind it. -/
theorem Placed.input_eq (h : Placed v input before (.ok token) s)
    (hname : v.terminalName token.terminal ≠ endMarkerName) :
    s.finished = false ∧
      input = before ++ (v.terminalName token.terminal).toList ++ s.rest := by
  cases h with
  | token hinput hwritten =>
      rw [hwritten, String.toList_ofList]
      exact ⟨rfl, hinput⟩
  | endMarker => exact absurd rfl hname

theorem Placed.name_eq_endMarker_iff (h : Placed v input before (.ok token) s) :
    v.terminalName token.terminal = endMarkerName ↔ before = input := by
  cases h with
  | token hinput hwritten htext hmarker =>
      refine iff_of_false (hwritten ▸ hmarker) fun heq => ?_
      rw [← heq, List.append_assoc, List.self_eq_append_right] at hinput
      exact htext (List.append_eq_nil_iff.mp hinput).1
  | endMarker hinput => exact iff_of_true rfl hinput.symm

/-- What is fetched stands where the scanner does. -/
theorem fetch_placed {rest : List Char} (hinput : input = before ++ rest) :
    Placed v input before (fetch v ⟨before.reverse, rest, false⟩).1
      (fetch v ⟨before.reverse, rest, false⟩).2 := by
  have hfetched := fetched v (s := ⟨before.reverse, rest, false⟩) rfl
  generalize (fetch v ⟨before.reverse, rest, false⟩).1 = lookahead at hfetched ⊢
  generalize (fetch v ⟨before.reverse, rest, false⟩).2 = after at hfetched ⊢
  cases hfetched with
  | endMarker hrest =>
      obtain rfl : rest = [] := hrest
      exact .endMarker (hinput.trans (List.append_nil before))
  | @token index found after hmatch =>
      obtain ⟨_, hne, rfl, rfl, _, hshorter⟩ := Vocabulary.front_of_shortestMatch hmatch
      have hname := (Vocabulary.eq_append_of_shortestMatch hmatch).2.2
      refine .token ?_ hname hne (hshorter found hne List.prefix_rfl).1
      rw [hinput, List.append_assoc]
  | error =>
      have hplaced := Placed.unrecognized (v := v) hinput
      simpa using hplaced

end Scanner

namespace Config

/-- The current token of a configuration stands behind the text of the terminals shifted
before. -/
def Placed (v : Vocabulary) (input : List Char) (shifted : List Terminal) (c : Config) : Prop :=
  Scanner.Placed v input (v.written shifted).toList c.lookahead c.scanner

variable {v : Vocabulary} {input : List Char} {c : Config} {shifted : List Terminal}

theorem ofInput_placed (v : Vocabulary) (input : String) :
    (ofInput v input).Placed v input.toList [] :=
  Scanner.fetch_placed rfl

theorem Placed.ok (h : c.Placed v input shifted) {token : Token}
    (hlookahead : c.lookahead = .ok token) :
    Scanner.Placed v input (v.written shifted).toList (.ok token) c.scanner :=
  hlookahead ▸ h

theorem Placed.error (h : c.Placed v input shifted) {rejection : Rejection}
    (hlookahead : c.lookahead = .error rejection) :
    Scanner.Placed v input (v.written shifted).toList (.error rejection) c.scanner :=
  hlookahead ▸ h

theorem Placed.shift (h : c.Placed v input shifted) {token : Token}
    (hlookahead : c.lookahead = .ok token) (target : Nat) :
    (c.shift v token target).Placed v input (shifted ++ [token.terminal]) := by
  have htoken := h.ok hlookahead
  unfold Placed
  generalize hscanner : c.scanner = s at htoken
  cases htoken with
  | @token index text rest hinput hname =>
      have hwritten : (v.written (shifted ++ [.token index])).toList =
          (v.written shifted).toList ++ text := by
        simp [hname]
      have hplaced := Scanner.fetch_placed (v := v) hinput
      rw [List.reverse_append] at hplaced
      rw [shift_token (by simp), hscanner, hwritten]
      exact hplaced
  | endMarker hinput =>
      have hwritten : v.written (shifted ++ [.endMarker]) = v.written shifted := by simp
      rw [shift_endMarker rfl, hscanner, hlookahead, hwritten]
      exact .endMarker hinput

theorem Placed.reduced (h : c.Placed v input shifted) (stack : ParseStack) (rule : Nat) :
    (c.reduced stack rule).Placed v input shifted :=
  h

/-- In every configuration of a run, the current token stands behind the text of what has
been shifted. -/
theorem exists_follows_placed {a : Automaton} (ha : a.Canonical) {input : String}
    {count : Nat} (h : (Table.build a).Runs count (ofInput a.grammar.toVocabulary input) c) :
    ∃ trail consumed, Follows a (ofInput a.grammar.toVocabulary input) c trail consumed ∧
      c.Placed a.grammar.toVocabulary input.toList consumed := by
  have hpreserves : ∀ c next : Config,
      (∃ trail consumed,
        Follows a (ofInput a.grammar.toVocabulary input) c trail consumed ∧
          c.Placed a.grammar.toVocabulary input.toList consumed) →
      (Table.build a).Next c next →
      ∃ trail consumed,
        Follows a (ofInput a.grammar.toVocabulary input) next trail consumed ∧
          next.Placed a.grammar.toVocabulary input.toList consumed := by
    intro c next ⟨trail, consumed, hfollows, hplaced⟩ hnext
    rcases hnext.cases ha hfollows.toOn with
      ⟨token, target, hlookahead, hstep, rfl⟩ |
      ⟨token, item, target, _, hitem, hend, _, hrule, hstep, rfl⟩
    · exact ⟨_, _, hfollows.shift hlookahead hstep, hplaced.shift hlookahead target⟩
    · exact ⟨_, _, hfollows.reduced ha hitem hend hrule hstep, hplaced.reduced _ _⟩
  exact h.preserves hpreserves ⟨[], [], .start a input, ofInput_placed _ input⟩

end Config
end CanonicalLR
