import CanonicalLR.Proofs.Indexed.Slice
import CanonicalLR.Proofs.Parsing.Token

namespace CanonicalLR

/-! What the tokenizer finds in an input.  Its tokens stand side by side, each of them the
shortest name of the alphabet at its place, up to the end of the input or to a place where no
token can be read.  There it reports the end or an error, and nothing more afterwards. -/

namespace Vocabulary

/-- A text begins with a name of the alphabet, and with no shorter one. -/
structure Shortest (v : Vocabulary) (text name : List Char) : Prop where
  name_ne : name ≠ []
  name_mem : String.ofList name ∈ v.alphabet
  begins : name <+: text
  length_le : ∀ other, other ≠ [] → String.ofList other ∈ v.alphabet → other <+: text →
    name.length ≤ other.length

/-- No token can be read at the front of a text: it begins with no name of the alphabet, or
with the end marker. -/
def Blocked (v : Vocabulary) (text : List Char) : Prop :=
  (∀ name, name ≠ [] → String.ofList name ∈ v.alphabet → ¬ name <+: text) ∨
    endMarkerName.toList <+: text

variable {v : Vocabulary} {text found rest : List Char} {index : Nat}

theorem shortest_of_shortestMatch (h : v.shortestMatch [] text = some (index, found, rest)) :
    v.Shortest text found := by
  obtain ⟨_, hne, rfl, rfl, hindex, hshorter⟩ := front_of_shortestMatch h
  obtain ⟨hlt, hname, _⟩ := List.idxOf?_eq_some_iff.mp hindex
  refine ⟨hne, hname ▸ List.getElem_mem hlt, List.prefix_append found rest, ?_⟩
  intro other hother hmem hbegins
  refine Nat.le_of_not_lt fun hlt => ?_
  have hfront := List.prefix_of_prefix_length_le hbegins (List.prefix_append found rest)
    (Nat.le_of_lt hlt)
  refine (hshorter other hother hfront).2 ?_ hmem
  rintro rfl
  exact Nat.lt_irrefl _ hlt

theorem not_blocked_of_shortestMatch
    (h : v.shortestMatch [] text = some (index, found, rest)) : ¬ v.Blocked text := by
  have hshortest := shortest_of_shortestMatch h
  obtain ⟨_, hne, rfl, rfl, _, hshorter⟩ := front_of_shortestMatch h
  rintro (hnone | hmarker)
  · exact hnone _ hshortest.name_ne hshortest.name_mem hshortest.begins
  · have hlength : endMarkerName.toList.length ≤ found.length := List.length_pos_iff.mpr hne
    have hfront := List.prefix_of_prefix_length_le hmarker (List.prefix_append found rest) hlength
    exact (hshorter endMarkerName.toList (by decide) hfront).1 String.ofList_toList

/-- All candidates are compared in vain, unless one of them is the end marker. -/
theorem candidates_of_shortestMatch {read : List Char} (h : v.shortestMatch read text = none) :
    (∀ front, front ≠ [] → front <+: text → String.ofList (read ++ front) ∉ v.alphabet) ∨
      ∃ front, front ≠ [] ∧ front <+: text ∧ String.ofList (read ++ front) = endMarkerName := by
  induction text generalizing read with
  | nil => exact .inl fun front hne hbegins => absurd (List.prefix_nil.mp hbegins) hne
  | cons c text ih =>
      unfold shortestMatch at h
      dsimp only at h
      split at h
      next hmarker => exact .inr ⟨[c], List.cons_ne_nil c [], ⟨text, rfl⟩, hmarker⟩
      next =>
        split at h
        · cases h
        next hindex =>
          rcases ih h with hnone | ⟨front, _, hbegins, hmarker⟩
          · refine .inl fun front hne hbegins => ?_
            obtain ⟨more, rfl, hmore⟩ := (List.prefix_cons_iff.mp hbegins).resolve_left hne
            rw [List.append_cons]
            by_cases hnil : more = []
            · subst hnil
              rw [List.append_nil]
              exact List.idxOf?_eq_none_iff.mp hindex
            · exact hnone more hnil hmore
          · rw [← List.append_cons] at hmarker
            exact .inr ⟨c :: front, List.cons_ne_nil c front,
              List.cons_prefix_cons.mpr ⟨rfl, hbegins⟩, hmarker⟩

/-- A token is found exactly where one can be read. -/
theorem shortestMatch_eq_none_iff : v.shortestMatch [] text = none ↔ v.Blocked text := by
  constructor
  · intro h
    rcases candidates_of_shortestMatch h with hnone | ⟨front, _, hbegins, hmarker⟩
    · exact .inl fun name hne hmem hbegins => hnone name hne hbegins hmem
    · refine .inr ?_
      rw [← hmarker, List.nil_append, String.toList_ofList]
      exact hbegins
  · intro hblocked
    cases h : v.shortestMatch [] text with
    | none => rfl
    | some found => exact absurd hblocked (not_blocked_of_shortestMatch h)

end Vocabulary

/-! Where the results of the tokenizer stand, in bytes. -/

/-- Between its two ends a token has its name, and this is the shortest name there. -/
structure Token.Stands (v : Vocabulary) (input : List Char) (token : Token) : Prop where
  exists_index : ∃ index < v.alphabet.length, token.terminal = .token index
  start_lt_stop : token.start < token.stop
  slice_eq : Text.slice? token.start token.stop input =
    some (v.terminalName token.terminal).toList
  shortest : ∃ rest, Text.sliceFrom? token.start input = some rest ∧ ¬ v.Blocked rest ∧
    v.Shortest rest (v.terminalName token.terminal).toList

/-- What is reported behind the last token, when tokens cover so many bytes. -/
inductive Vocabulary.Reports (v : Vocabulary) (input : List Char) (covered : Nat) :
    Except Rejection Token → Prop
  | endMarker {token : Token} (hcovered : covered = Text.byteLength input)
      (hterminal : token.terminal = .endMarker) (hstart : token.start = covered)
      (hstop : token.stop = covered) : v.Reports input covered (.ok token)
  | unrecognized {consumed rest : List Char}
      (hconsumed : Text.sliceTo? covered input = some consumed)
      (hrest : Text.sliceFrom? covered input = some rest) (hne : rest ≠ [])
      (hblocked : v.Blocked rest) :
      v.Reports input covered (.error (.unrecognizedSymbol covered (String.ofList consumed)))

namespace Vocabulary

variable {v : Vocabulary} {input passed text found rest : List Char} {index : Nat}

theorem Reports.ok_iff {covered : Nat} {last : Except Rejection Token}
    (h : v.Reports input covered last) :
    (∃ token, last = .ok token) ↔ covered = Text.byteLength input := by
  cases h with
  | endMarker hcovered => exact iff_of_true ⟨_, rfl⟩ hcovered
  | unrecognized _ hrest hne =>
      refine iff_of_false nofun ?_
      rintro rfl
      have hnone := Text.sliceFrom?_append input []
      rw [List.append_nil, hrest] at hnone
      exact hne (Option.some.inj hnone)

/-- A token that is found at the front of what is left stands behind what is read. -/
theorem stands_of_shortestMatch
    (h : v.shortestMatch [] text = some (index, found, rest)) :
    Token.Stands v (passed.reverse ++ text) ⟨.token index, passed, found⟩ := by
  obtain ⟨htext, hindex, hname⟩ := eq_append_of_shortestMatch h
  obtain rfl : text = found ++ rest := htext
  have hshortest := shortest_of_shortestMatch h
  have hfound : (v.terminalName (.token index)).toList = found := by
    rw [hname, String.toList_ofList]
  have hstart : Token.start ⟨.token index, passed, found⟩ = Text.byteLength passed.reverse :=
    (Text.byteLength_reverse passed).symm
  constructor
  case exists_index => exact ⟨index, hindex, rfl⟩
  case start_lt_stop =>
    obtain ⟨c, more, rfl⟩ := List.exists_cons_of_ne_nil hshortest.name_ne
    have hpos := c.utf8Size_pos
    simp only [Token.stop, Text.byteLength_cons]
    omega
  case slice_eq =>
    rw [Token.stop, hstart, hfound, ← Text.byteLength_append, ← List.append_assoc]
    exact Text.slice?_append _ _ _
  case shortest =>
    rw [hstart, hfound]
    exact ⟨_, Text.sliceFrom?_append _ _, not_blocked_of_shortestMatch h, hshortest⟩

end Vocabulary

namespace Scanner

variable {v : Vocabulary}

theorem results_of_finished {s : Scanner} (hs : s.finished = true) (count : Nat) :
    s.results v count = List.replicate count none := by
  induction count with
  | zero => rfl
  | succ count ih =>
      have hnext : s.next v = (none, s) := if_pos hs
      rw [results, hnext, ih]
      rfl

theorem results_of_last {s after : Scanner} {last : Except Rejection Token}
    (hnext : s.next v = (some last, after)) (hafter : after.finished = true) (more : Nat) :
    s.results v (more + 1) = some last :: List.replicate more none := by
  rw [results, hnext, results_of_finished hafter]

/-- The induction is on what is left of the input; every token takes some of it. -/
theorem exists_results (v : Vocabulary) (passed text : List Char) :
    ∃ (tokens : List Token) (last : Except Rejection Token) (covered : Nat),
      (∀ more, results v (more + 1 + tokens.length) ⟨passed, text, false⟩ =
        tokens.map (some <| .ok ·) ++ some last :: List.replicate more none) ∧
      tokens.map Token.start ++ [covered] =
        Text.byteLength passed :: tokens.map Token.stop ∧
      (∀ token ∈ tokens, token.Stands v (passed.reverse ++ text)) ∧
      v.Reports (passed.reverse ++ text) covered last := by
  have hnext := next_eq v (s := ⟨passed, text, false⟩) rfl
  have hfetched := fetched v (s := ⟨passed, text, false⟩) rfl
  generalize (fetch v ⟨passed, text, false⟩).1 = result at hnext hfetched
  generalize (fetch v ⟨passed, text, false⟩).2 = after at hnext hfetched
  cases hfetched with
  | endMarker hrest =>
      obtain rfl : text = [] := hrest
      exact ⟨[], .ok ⟨.endMarker, passed, []⟩, Text.byteLength passed,
        results_of_last hnext rfl, rfl, by simp,
        .endMarker (by simp) rfl rfl rfl⟩
  | error hrest hmatch =>
      have hreports : v.Reports (passed.reverse ++ text) (Text.byteLength passed)
          (.error (.unrecognizedSymbol (Text.byteLength passed)
            (String.ofList passed.reverse))) := by
        rw [← Text.byteLength_reverse]
        exact .unrecognized (Text.sliceTo?_append _ _) (Text.sliceFrom?_append _ _) hrest
          (Vocabulary.shortestMatch_eq_none_iff.mp hmatch)
      exact ⟨[], _, _, results_of_last hnext rfl, rfl, by simp, hreports⟩
  | @token index found rest hmatch =>
      have hshort : rest.length < text.length := Vocabulary.shortestMatch_length hmatch
      have htext : text = found ++ rest := (Vocabulary.eq_append_of_shortestMatch hmatch).1
      have hsame : (found.reverse ++ passed).reverse ++ rest = passed.reverse ++ text := by
        simp [htext]
      obtain ⟨tokens, last, covered, hresults, hspans, hstands, hreports⟩ :=
        exists_results v (found.reverse ++ passed) rest
      rw [hsame] at hstands hreports
      refine ⟨⟨.token index, passed, found⟩ :: tokens, last, covered, fun more => ?_, ?_, ?_,
        hreports⟩
      · rw [List.length_cons, ← Nat.add_assoc, results, hnext]
        exact congrArg _ (hresults more)
      · have hstop : Token.stop ⟨.token index, passed, found⟩ =
            Text.byteLength (found.reverse ++ passed) := by
          rw [Text.byteLength_append, Text.byteLength_reverse, Nat.add_comm]
          rfl
        rw [List.map_cons, List.map_cons, List.cons_append, hspans, hstop]
        rfl
      · exact List.forall_mem_cons.mpr ⟨Vocabulary.stands_of_shortestMatch hmatch, hstands⟩
termination_by text.length

/-- The tokenizer finds tokens side by side from the beginning of an input on, then the end of
the input or the place where no further token can be read, and then nothing. -/
theorem results_exact (v : Vocabulary) (input : String) :
    ∃ (tokens : List Token) (last : Except Rejection Token) (covered : Nat),
      (∀ more, (ofInput input).results v (more + 1 + tokens.length) =
        tokens.map (some <| .ok ·) ++ some last :: List.replicate more none) ∧
      tokens.map Token.start ++ [covered] = 0 :: tokens.map Token.stop ∧
      (∀ token ∈ tokens, token.Stands v input.toList) ∧
      v.Reports input.toList covered last ∧
      ((∃ token, last = .ok token) ↔ covered = Text.byteLength input.toList) := by
  obtain ⟨tokens, last, covered, hresults, hspans, hstands, hreports⟩ :=
    exists_results v [] input.toList
  exact ⟨tokens, last, covered, hresults, hspans, hstands, hreports, hreports.ok_iff⟩

example : (ofInput "abé").results ⟨["ab", "a"], []⟩ 4 =
    [some (.ok ⟨.token 1, [], ['a']⟩), some (.error (.unrecognizedSymbol 1 "a")), none, none] :=
  rfl

end Scanner
end CanonicalLR
