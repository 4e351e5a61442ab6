import CanonicalLR.Proofs.Indexed.Slice
import CanonicalLR.Proofs.Parsing.Token

namespace CanonicalLR

/-! The tokenizer keeps a byte position in the input and cuts what it compares out of it. -/

/-- A terminal between two byte positions of the input. -/
structure SpanToken where
  terminal : Terminal
  start : Nat
  stop : Nat

structure Tokens where
  position : Nat
  finished : Bool

namespace Tokens

/-- Compares longer and longer candidates, from one position on, with the alphabet. -/
def search? (v : Vocabulary) (input : List Char) (start : Nat) :
    Nat → List Char → Option (Option (Nat × Nat))
  | _, [] => some none
  | offset, c :: text => do
      let stop := start + offset + c.utf8Size
      let candidate ← Text.slice? start stop input
      if String.ofList candidate = endMarkerName then return none
      else
        match v.alphabet.idxOf? (String.ofList candidate) with
        | some index => return some (index, stop)
        | none => search? v input start (offset + c.utf8Size) text

def next? (v : Vocabulary) (input : List Char) (t : Tokens) :
    Option (Option (Except Rejection SpanToken) × Tokens) :=
  if t.finished then some (none, t)
  else if t.position = Text.byteLength input then
    some (some (.ok ⟨.endMarker, t.position, t.position⟩), { t with finished := true })
  else do
    let rest ← Text.sliceFrom? t.position input
    match ← search? v input t.position 0 rest with
    | some (index, stop) => return (some (.ok ⟨.token index, t.position, stop⟩), ⟨stop, false⟩)
    | none => do
        let consumed ← Text.sliceTo? t.position input
        return (some (.error (.unrecognizedSymbol t.position (String.ofList consumed))),
          { t with finished := true })

/-- The next token, or the end marker where there is none. -/
def fetch? (v : Vocabulary) (input : List Char) (t : Tokens) :
    Option (Except Rejection SpanToken × Tokens) := do
  match ← t.next? v input with
  | (some result, t) => return (result, t)
  | (none, t) => return (.ok ⟨.endMarker, Text.byteLength input, Text.byteLength input⟩, t)

end Tokens

def Token.spanned (token : Token) : SpanToken :=
  ⟨token.terminal, token.start, token.stop⟩

namespace Scanner

def tokens (s : Scanner) : Tokens :=
  ⟨Text.byteLength s.passed, s.finished⟩

/-- The scanner stands between two parts of the input. -/
def Splits (s : Scanner) (input : List Char) : Prop :=
  input = s.passed.reverse ++ s.rest

variable {v : Vocabulary} {s : Scanner} {input : List Char}

theorem search?_eq {passed read text : List Char} {start offset : Nat}
    (hinput : input = passed ++ (read ++ text)) (hstart : start = Text.byteLength passed)
    (hoffset : offset = Text.byteLength read) :
    Tokens.search? v input start offset text =
      some ((v.shortestMatch read text).map fun (index, found, _) =>
        (index, start + Text.byteLength found)) := by
  induction text generalizing read offset with
  | nil => rfl
  | cons c text ih =>
      have hstop : start + offset + c.utf8Size = Text.byteLength (passed ++ (read ++ [c])) := by
        simp [hstart, hoffset, Nat.add_assoc]
      have hslice : Text.slice? start (start + offset + c.utf8Size) input = some (read ++ [c]) := by
        have hcut := Text.slice?_append passed (read ++ [c]) text
        rw [hstop, hstart, hinput]
        simpa using hcut
      rw [Tokens.search?, hslice, Option.bind_eq_bind, Option.bind_some, Vocabulary.shortestMatch]
      dsimp only
      split
      · rfl
      · cases v.alphabet.idxOf? (String.ofList (read ++ [c])) with
        | some index => simp [hoffset, Nat.add_assoc]
        | none => exact ih (by simp [hinput]) (by simp [hoffset])

theorem Splits.position_eq_iff (h : s.Splits input) :
    s.tokens.position = Text.byteLength input ↔ s.rest = [] := by
  rw [h, Text.byteLength_append, Text.byteLength_reverse]
  dsimp only [tokens]
  cases s.rest with
  | nil => simp
  | cons c rest =>
      have hpos := c.utf8Size_pos
      rw [Text.byteLength_cons]
      exact ⟨fun heq => absurd heq (by omega), fun hnil => absurd hnil (List.cons_ne_nil c rest)⟩

/-- All that is cut out of the input begins and ends between two of its characters. -/
theorem Splits.next?_eq (h : s.Splits input) :
    s.tokens.next? v input =
      some ((s.next v).1.map (Except.map Token.spanned), (s.next v).2.tokens) := by
  have hposition : s.tokens.position = Text.byteLength s.passed.reverse :=
    (Text.byteLength_reverse s.passed).symm
  have hrest : Text.sliceFrom? s.tokens.position input = some s.rest := by
    rw [hposition, h, Text.sliceFrom?_append]
  have hconsumed : Text.sliceTo? s.tokens.position input = some s.passed.reverse := by
    rw [hposition, h, Text.sliceTo?_append]
  have hsearch : Tokens.search? v input s.tokens.position 0 s.rest =
      some ((v.shortestMatch [] s.rest).map fun (index, found, _) =>
        (index, s.tokens.position + Text.byteLength found)) :=
    search?_eq h hposition rfl
  rw [Tokens.next?, Scanner.next]
  by_cases hfinished : s.finished = true
  · have hsame : s.tokens.finished = true := hfinished
    rw [if_pos hfinished, if_pos hsame]
    rfl
  · have hsame : ¬s.tokens.finished = true := hfinished
    rw [if_neg hfinished, if_neg hsame]
    by_cases hend : s.rest = []
    · rw [if_pos (h.position_eq_iff.mpr hend), if_pos hend]
      rfl
    · rw [if_neg (mt h.position_eq_iff.mp hend), if_neg hend, hrest, Option.bind_eq_bind,
        Option.bind_some, hsearch]
      cases v.shortestMatch [] s.rest with
      | none =>
          rw [Option.map_none, Option.bind_eq_bind, Option.bind_some]
          dsimp only
          rw [hconsumed]
          rfl
      | some found =>
          obtain ⟨index, text, rest⟩ := found
          have hbehind : Text.byteLength (text.reverse ++ s.passed) =
              s.tokens.position + Text.byteLength text := by
            rw [Text.byteLength_append, Text.byteLength_reverse, Nat.add_comm]
            rfl
          simp only [Option.map_some, tokens, hbehind]
          rfl

theorem Splits.next (h : s.Splits input) : (s.next v).2.Splits input := by
  unfold Scanner.next
  split
  · exact h
  · split
    · exact h
    · split
      next index text rest hmatch =>
        have htext := (Vocabulary.eq_append_of_shortestMatch hmatch).1
        rw [List.nil_append] at htext
        show input = (text.reverse ++ s.passed).reverse ++ rest
        rw [h, htext]
        simp
      next => exact h

theorem Splits.fetch?_eq (h : s.Splits input) :
    s.tokens.fetch? v input =
      some ((s.fetch v).1.map Token.spanned, (s.fetch v).2.tokens) := by
  have hlength : Text.byteLength ((s.next v).2.rest.reverse ++ (s.next v).2.passed) =
      Text.byteLength input := by
    rw [h.next (v := v)]
    simp [Nat.add_comm]
  rw [Tokens.fetch?, h.next?_eq, Option.bind_eq_bind, Option.bind_some, fetch]
  cases hnext : s.next v with
  | mk result after =>
      rw [hnext] at hlength
      cases result with
      | some result => rfl
      | none =>
          dsimp only at hlength ⊢
          rw [← hlength]
          rfl

theorem Splits.fetch (h : s.Splits input) : (s.fetch v).2.Splits input := by
  have hnext := h.next (v := v)
  unfold Scanner.fetch
  split
  next heq => rwa [heq] at hnext
  next heq => rwa [heq] at hnext

/-- A token that is fetched has a name, and the text in front of it begins the input. -/
theorem Splits.fetch_token (h : s.Splits input) {token : Token}
    (htoken : (s.fetch v).1 = .ok token) :
    token.terminal ∈ v.terminals ∧ token.before <+: input := by
  have hpassed : s.passed.reverse <+: input := ⟨s.rest, h.symm⟩
  cases hfinished : s.finished with
  | false =>
      have hfetched := fetched v hfinished
      rw [htoken] at hfetched
      generalize (s.fetch v).2 = after at hfetched
      cases hfetched with
      | endMarker => exact ⟨v.endMarker_mem_terminals, hpassed⟩
      | token hmatch =>
          have hindex := (Vocabulary.eq_append_of_shortestMatch hmatch).2.1
          exact ⟨Vocabulary.token_mem_terminals.mpr hindex, hpassed⟩
  | true =>
      rw [Scanner.fetch, Scanner.next, if_pos hfinished] at htoken
      cases htoken
      refine ⟨v.endMarker_mem_terminals, [], ?_⟩
      rw [Token.before, List.reverse_append, List.reverse_reverse, List.append_nil]
      exact h.symm

end Scanner
end CanonicalLR
