import CanonicalLR.Parsing.Run

namespace CanonicalLR

/-! What is still to be read.  A configuration holds the current token and a
scanner, and these determine the terminals that a parser will see. -/

namespace Vocabulary

/-- A name of the alphabet is found where neither another one nor the end marker is read
before it. -/
theorem shortestMatch_append {v : Vocabulary} {read front : List Char} (rest : List Char)
    {index : Nat} (hfront : front ≠ []) (hmarker : String.ofList (read ++ front) ≠ endMarkerName)
    (hindex : v.alphabet.idxOf? (String.ofList (read ++ front)) = some index)
    (hshorter : ∀ shorter, shorter ≠ [] → shorter <+: front → shorter ≠ front →
      String.ofList (read ++ shorter) ≠ endMarkerName ∧
        String.ofList (read ++ shorter) ∉ v.alphabet) :
    v.shortestMatch read (front ++ rest) = some (index, read ++ front, rest) := by
  induction front generalizing read with
  | nil => exact absurd rfl hfront
  | cons c front ih =>
      rw [List.cons_append, shortestMatch]
      by_cases hnil : front = []
      · subst hnil
        rw [if_neg hmarker, hindex]
        rfl
      · obtain ⟨hmarker', hname⟩ := hshorter [c] (by simp) (by simp) (by simp [Ne.symm hnil])
        rw [if_neg hmarker', List.idxOf?_eq_none_iff.mpr hname]
        have hassoc : ∀ other, read ++ [c] ++ other = read ++ c :: other := by simp
        rw [← hassoc] at hmarker hindex
        have hfound := ih hnil hmarker hindex ?_
        · rw [hfound, hassoc]
        · intro shorter _ hbegins hproper
          rw [hassoc]
          exact hshorter (c :: shorter) (List.cons_ne_nil c shorter)
            (List.cons_prefix_cons.mpr ⟨rfl, hbegins⟩) (by simpa using hproper)

/-- What is found is the first candidate that is a name of the alphabet, and no candidate up
to it is the end marker. -/
theorem front_of_shortestMatch {v : Vocabulary} {read text found rest : List Char}
    {index : Nat} (h : v.shortestMatch read text = some (index, found, rest)) :
    ∃ front, front ≠ [] ∧ text = front ++ rest ∧ found = read ++ front ∧
      v.alphabet.idxOf? (String.ofList found) = some index ∧
      ∀ shorter, shorter ≠ [] → shorter <+: front →
        String.ofList (read ++ shorter) ≠ endMarkerName ∧
          (shorter ≠ front → String.ofList (read ++ shorter) ∉ v.alphabet) := by
  induction text generalizing read with
  | nil => cases h
  | cons c text ih =>
      unfold shortestMatch at h
      dsimp only at h
      split at h
      · cases h
      next hmarker =>
        split at h
        next hindex =>
          cases h
          refine ⟨[c], List.cons_ne_nil c [], rfl, rfl, hindex, fun shorter hne hbegins => ?_⟩
          obtain ⟨last, rfl, hlast⟩ := (List.prefix_cons_iff.mp hbegins).resolve_left hne
          obtain rfl := List.prefix_nil.mp hlast
          exact ⟨hmarker, fun hproper => absurd rfl hproper⟩
        next hindex =>
          obtain ⟨front, _, rfl, rfl, hname, hshorter⟩ := ih h
          refine ⟨c :: front, List.cons_ne_nil c front, rfl, by simp, hname,
            fun shorter hne hbegins => ?_⟩
          obtain ⟨more, rfl, hmore⟩ := (List.prefix_cons_iff.mp hbegins).resolve_left hne
          rw [List.append_cons]
          by_cases hnil : more = []
          · subst hnil
            rw [List.append_nil]
            exact ⟨hmarker, fun _ => List.idxOf?_eq_none_iff.mp hindex⟩
          · obtain ⟨hother, hnot⟩ := hshorter more hnil hmore
            exact ⟨hother, fun hproper => hnot fun heq => hproper (congrArg (c :: ·) heq)⟩

theorem shortestMatch_length {v : Vocabulary} {read text found rest : List Char}
    {index : Nat} (h : v.shortestMatch read text = some (index, found, rest)) :
    rest.length < text.length := by
  obtain ⟨front, hne, rfl, _⟩ := front_of_shortestMatch h
  have hpos := List.length_pos_iff.mpr hne
  rw [List.length_append]
  omega

/-- What is found continues what was read, up to a name of the alphabet. -/
theorem eq_append_of_shortestMatch {v : Vocabulary} {read text found rest : List Char}
    {index : Nat} (h : v.shortestMatch read text = some (index, found, rest)) :
    read ++ text = found ++ rest ∧ index < v.alphabet.length ∧
      v.terminalName (.token index) = String.ofList found := by
  obtain ⟨front, _, rfl, rfl, hindex, _⟩ := front_of_shortestMatch h
  obtain ⟨hlt, hname, _⟩ := List.idxOf?_eq_some_iff.mp hindex
  refine ⟨(List.append_assoc read front rest).symm, hlt, ?_⟩
  simp [terminalName, hlt, hname]

end Vocabulary

namespace Scanner

variable {v : Vocabulary} {s : Scanner}

/-- The next tokens are found without an error and stand for these terminals. -/
def Delivers (v : Vocabulary) (s : Scanner) (terminals : List Terminal) : Prop :=
  ∃ tokens : List Token, s.results v tokens.length = tokens.map (some <| .ok ·) ∧
    tokens.map Token.terminal = terminals

theorem delivers_nil (v : Vocabulary) (s : Scanner) : s.Delivers v [] :=
  ⟨[], rfl, rfl⟩

theorem delivers_cons {t : Terminal} {terminals : List Terminal} :
    s.Delivers v (t :: terminals) ↔
      ∃ token, (s.next v).1 = some (.ok token) ∧ token.terminal = t ∧
        (s.next v).2.Delivers v terminals := by
  constructor
  · rintro ⟨tokens, hresults, hterminals⟩
    cases tokens with
    | nil => cases hterminals
    | cons token tokens =>
        obtain ⟨hhead, htail⟩ := List.cons.inj hresults
        obtain ⟨hterminal, hrest⟩ := List.cons.inj hterminals
        exact ⟨token, hhead, hterminal, tokens, htail, hrest⟩
  · rintro ⟨token, hhead, rfl, tokens, htail, rfl⟩
    refine ⟨token :: tokens, ?_, rfl⟩
    rw [List.map_cons, ← htail, ← hhead]
    rfl

theorem next_eq (v : Vocabulary) (hs : s.finished = false) :
    s.next v = (some (s.fetch v).1, (s.fetch v).2) := by
  unfold fetch
  cases hnext : s.next v with
  | mk result rest =>
      cases result with
      | some result => rfl
      | none =>
          unfold next at hnext
          rw [hs] at hnext
          split at hnext
          · contradiction
          · split at hnext
            · cases hnext
            · split at hnext <;> cases hnext

theorem fetch_of_finished (v : Vocabulary) (hs : s.finished = true) :
    s.fetch v = (.ok ⟨.endMarker, s.rest.reverse ++ s.passed, []⟩, s) := by
  rw [fetch, next, if_pos hs]

/-- What a scanner that has not finished finds where it stands. -/
inductive Fetched (v : Vocabulary) (s : Scanner) : Except Rejection Token → Scanner → Prop
  | endMarker (hrest : s.rest = []) :
      Fetched v s (.ok ⟨.endMarker, s.passed, []⟩) { s with finished := true }
  | token {index : Nat} {text rest : List Char}
      (hmatch : v.shortestMatch [] s.rest = some (index, text, rest)) :
      Fetched v s (.ok ⟨.token index, s.passed, text⟩) ⟨text.reverse ++ s.passed, rest, false⟩
  | error (hrest : s.rest ≠ []) (hmatch : v.shortestMatch [] s.rest = none) :
      Fetched v s (.error (.unrecognizedSymbol (Text.byteLength s.passed)
        (String.ofList s.passed.reverse))) { s with finished := true }

theorem fetched (v : Vocabulary) (hs : s.finished = false) :
    s.Fetched v (s.fetch v).1 (s.fetch v).2 := by
  have hnext := next_eq v hs
  unfold next at hnext
  rw [hs] at hnext
  generalize (s.fetch v).1 = result at hnext ⊢
  generalize (s.fetch v).2 = after at hnext ⊢
  split at hnext
  · contradiction
  · split at hnext
    next hrest =>
      cases hnext
      exact .endMarker hrest
    next hrest =>
      split at hnext
      next hmatch =>
        cases hnext
        exact .token hmatch
      next hmatch =>
        cases hnext
        exact .error hrest hmatch

theorem fetch_of_shortestMatch (hs : s.finished = false) {index : Nat} {text rest : List Char}
    (h : v.shortestMatch [] s.rest = some (index, text, rest)) :
    s.fetch v = (.ok ⟨.token index, s.passed, text⟩, ⟨text.reverse ++ s.passed, rest, false⟩) := by
  have hrest : s.rest ≠ [] := by
    intro hnil
    rw [hnil] at h
    cases h
  unfold fetch next
  rw [if_neg (by simp [hs]), if_neg hrest, h]

/-- A token that is fetched is the end marker, or one of the alphabet that takes
some of the input with it. -/
theorem fetch_cases (hs : s.finished = false) {token : Token}
    (h : (s.fetch v).1 = .ok token) :
    (token.terminal = .endMarker ∧ (s.fetch v).2 = { s with finished := true }) ∨
      ∃ index, token.terminal = .token index ∧ (s.fetch v).2.finished = false ∧
        (s.fetch v).2.rest.length < s.rest.length := by
  have hfetched := fetched v hs
  rw [h] at hfetched
  generalize (s.fetch v).2 = after at hfetched ⊢
  cases hfetched with
  | endMarker => exact .inl ⟨rfl, rfl⟩
  | token hmatch => exact .inr ⟨_, rfl, rfl, Vocabulary.shortestMatch_length hmatch⟩

end Scanner

namespace Vocabulary

/-- The terminals that the tokenizer finds in an input, the end marker included
if it gets there. -/
def Tokenizes (v : Vocabulary) (input : String) (terminals : List Terminal) : Prop :=
  (Scanner.ofInput input).Delivers v terminals

/-- The terminals that come next.  The end marker comes again and again. -/
def Awaits (v : Vocabulary) : List Terminal → Except Rejection Token → Scanner → Prop
  | [], _, _ => True
  | t :: pending, lookahead, scanner =>
      ∃ token, lookahead = .ok token ∧ token.terminal = t ∧
        if t = .endMarker then v.Awaits pending lookahead scanner
        else v.Awaits pending (scanner.fetch v).1 (scanner.fetch v).2

theorem Awaits.of_append {v : Vocabulary} {first second : List Terminal}
    {lookahead : Except Rejection Token} {scanner : Scanner}
    (h : v.Awaits (first ++ second) lookahead scanner) : v.Awaits first lookahead scanner := by
  induction first generalizing lookahead scanner with
  | nil => trivial
  | cons t first ih =>
      obtain ⟨token, hlookahead, hterminal, hpending⟩ := h
      refine ⟨token, hlookahead, hterminal, ?_⟩
      split at hpending
      next ht =>
        rw [if_pos ht]
        exact ih hpending
      next ht =>
        rw [if_neg ht]
        exact ih hpending

theorem Awaits.repeat_endMarker {v : Vocabulary} {first : List Terminal}
    {lookahead : Except Rejection Token} {scanner : Scanner}
    (h : v.Awaits (first ++ [.endMarker]) lookahead scanner) :
    v.Awaits (first ++ [.endMarker, .endMarker]) lookahead scanner := by
  induction first generalizing lookahead scanner with
  | nil =>
      obtain ⟨token, hlookahead, hterminal, _⟩ := h
      exact ⟨token, hlookahead, hterminal, token, hlookahead, hterminal, trivial⟩
  | cons t first ih =>
      obtain ⟨token, hlookahead, hterminal, hpending⟩ := h
      refine ⟨token, hlookahead, hterminal, ?_⟩
      split at hpending
      next ht =>
        rw [if_pos ht]
        exact ih hpending
      next ht =>
        rw [if_neg ht]
        exact ih hpending

/-- Nothing but the end marker comes after the end marker. -/
theorem Awaits.eq_endMarker {v : Vocabulary} {first : List Terminal} {x : Terminal}
    {lookahead : Except Rejection Token} {scanner : Scanner}
    (h : v.Awaits (first ++ [.endMarker, x]) lookahead scanner) : x = .endMarker := by
  induction first generalizing lookahead scanner with
  | nil =>
      obtain ⟨token, hlookahead, hterminal, other, hother, hlast, _⟩ := h
      rw [hlookahead] at hother
      cases hother
      exact hlast.symm.trans hterminal
  | cons t first ih =>
      obtain ⟨_, _, _, hpending⟩ := h
      split at hpending
      · exact ih hpending
      · exact ih hpending

/-- What comes next is determined, as far as it is asked for. -/
theorem Awaits.unique {v : Vocabulary} {first second : List Terminal}
    {lookahead : Except Rejection Token} {scanner : Scanner}
    (hfirst : v.Awaits first lookahead scanner) (hsecond : v.Awaits second lookahead scanner)
    (hlength : first.length = second.length) : first = second := by
  induction first generalizing second lookahead scanner with
  | nil => exact (List.length_eq_zero_iff.mp hlength.symm).symm
  | cons t first ih =>
      cases second with
      | nil => cases hlength
      | cons u second =>
          obtain ⟨token, hlookahead, rfl, hpending⟩ := hfirst
          obtain ⟨other, hother, rfl, hrest⟩ := hsecond
          rw [hlookahead] at hother
          cases hother
          have hlength := Nat.succ.inj hlength
          split at hpending
          next hmarker =>
            rw [if_pos hmarker] at hrest
            rw [ih hpending hrest hlength]
          next hmarker =>
            rw [if_neg hmarker] at hrest
            rw [ih hpending hrest hlength]

end Vocabulary

namespace Scanner

variable {v : Vocabulary} {s : Scanner}

theorem Delivers.endMarker_not_mem (hs : s.finished = false) {terminals : List Terminal}
    (h : s.Delivers v terminals) : .endMarker ∉ terminals.dropLast := by
  induction terminals generalizing s with
  | nil => exact List.not_mem_nil
  | cons t rest ih =>
      obtain ⟨token, htoken, rfl, hrest⟩ := delivers_cons.mp h
      rw [next_eq v hs] at htoken hrest
      cases rest with
      | nil => exact List.not_mem_nil
      | cons u rest =>
          rcases fetch_cases hs (Option.some.inj htoken) with
            ⟨_, hfinished⟩ | ⟨index, hindex, hfinished, _⟩
          · obtain ⟨other, hother, _⟩ := delivers_cons.mp hrest
            rw [hfinished] at hother
            cases hother
          · rw [hindex]
            intro hmem
            cases hmem with
            | tail _ hmem => exact ih hfinished hrest hmem

/-- Delivering and fetching agree up to the first end marker. -/
theorem awaits_fetch_iff (hs : s.finished = false) {terminals : List Terminal}
    (hmarker : .endMarker ∉ terminals.dropLast) :
    v.Awaits terminals (s.fetch v).1 (s.fetch v).2 ↔ s.Delivers v terminals := by
  induction terminals generalizing s with
  | nil => exact ⟨fun _ => delivers_nil v s, fun _ => trivial⟩
  | cons t rest ih =>
      rw [delivers_cons, next_eq v hs]
      by_cases ht : t = .endMarker
      · have hrest : rest = [] := by
          cases rest with
          | nil => rfl
          | cons other rest => exact absurd (List.mem_cons.mpr (.inl ht.symm)) hmarker
        subst hrest
        constructor
        · intro ⟨token, htoken, hterminal, _⟩
          exact ⟨token, congrArg some htoken, hterminal, delivers_nil ..⟩
        · intro ⟨token, htoken, hterminal, _⟩
          exact ⟨token, Option.some.inj htoken, hterminal, by rw [if_pos ht]; trivial⟩
      · have hdrop : .endMarker ∉ rest.dropLast := by
          intro hmem
          apply hmarker
          cases rest with
          | nil => cases hmem
          | cons other rest => exact List.mem_cons_of_mem t hmem
        have hfinished : ∀ {token : Token}, (s.fetch v).1 = .ok token →
            token.terminal = t → (s.fetch v).2.finished = false := by
          intro token htoken hterminal
          rcases fetch_cases hs htoken with ⟨hend, _⟩ | ⟨_, _, hfinished, _⟩
          · exact absurd (hterminal ▸ hend) ht
          · exact hfinished
        constructor
        · intro ⟨token, htoken, hterminal, hpending⟩
          rw [if_neg ht, ih (hfinished htoken hterminal) hdrop] at hpending
          exact ⟨token, congrArg some htoken, hterminal, hpending⟩
        · intro ⟨token, htoken, hterminal, hpending⟩
          have htoken := Option.some.inj htoken
          rw [← ih (hfinished htoken hterminal) hdrop] at hpending
          exact ⟨token, htoken, hterminal, by rwa [if_neg ht]⟩

end Scanner

namespace Config

variable {v : Vocabulary} {c : Config} {token : Token} {pending : List Terminal}

/-- The terminals that a configuration is to see next. -/
def Awaits (c : Config) (v : Vocabulary) (pending : List Terminal) : Prop :=
  v.Awaits pending c.lookahead c.scanner

theorem Awaits.of_append {second : List Terminal} (h : c.Awaits v (pending ++ second)) :
    c.Awaits v pending :=
  Vocabulary.Awaits.of_append h

theorem awaits_current (hlookahead : c.lookahead = .ok token) :
    c.Awaits v [token.terminal] := by
  refine ⟨token, hlookahead, rfl, ?_⟩
  split <;> trivial

theorem shift_endMarker (htoken : token.terminal = .endMarker) (target : Nat) :
    c.shift v token target =
      ⟨c.stack.push (.terminal token.terminal) target, c.lookahead, c.scanner,
        { c.derivation with shifts := c.derivation.shifts + 1 }⟩ := by
  rw [shift, if_pos htoken]

theorem shift_token (htoken : token.terminal ≠ .endMarker) (target : Nat) :
    c.shift v token target =
      ⟨c.stack.push (.terminal token.terminal) target, (c.scanner.fetch v).1,
        (c.scanner.fetch v).2,
        { c.derivation with shifts := c.derivation.shifts + 1 }⟩ := by
  rw [shift, if_neg htoken]

theorem awaits_shift (hlookahead : c.lookahead = .ok token) (target : Nat) :
    (c.shift v token target).Awaits v pending ↔ c.Awaits v (token.terminal :: pending) := by
  have hcurrent : c.Awaits v (token.terminal :: pending) ↔
      if token.terminal = .endMarker then v.Awaits pending c.lookahead c.scanner
      else v.Awaits pending (c.scanner.fetch v).1 (c.scanner.fetch v).2 := by
    constructor
    · rintro ⟨other, hother, _, hpending⟩
      exact hpending
    · intro hpending
      exact ⟨token, hlookahead, rfl, hpending⟩
  rw [hcurrent]
  by_cases htoken : token.terminal = .endMarker
  · rw [shift_endMarker htoken, if_pos htoken]
    rfl
  · rw [shift_token htoken, if_neg htoken]
    rfl

@[simp] theorem derivation_shift (c : Config) (v : Vocabulary) (token : Token)
    (target : Nat) :
    (c.shift v token target).derivation =
      { c.derivation with shifts := c.derivation.shifts + 1 } := by
  unfold shift
  dsimp only
  split <;> rfl

theorem ofInput_awaits {input : String} {terminals : List Terminal}
    (hmarker : .endMarker ∉ terminals.dropLast) :
    (ofInput v input).Awaits v terminals ↔ v.Tokenizes input terminals :=
  Scanner.awaits_fetch_iff rfl hmarker

theorem awaits_of_tokenizes {input : String} {terminals : List Terminal}
    (h : v.Tokenizes input terminals) : (ofInput v input).Awaits v terminals :=
  (ofInput_awaits (Scanner.Delivers.endMarker_not_mem rfl h)).mpr h

end Config
end CanonicalLR
