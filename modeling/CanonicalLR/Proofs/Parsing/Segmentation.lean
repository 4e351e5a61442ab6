import CanonicalLR.Proofs.Grammar.Building
import CanonicalLR.Proofs.Parsing.Token

namespace CanonicalLR

/-! Segmentation takes the longest name at each place, and the tokenizer the shortest.  Where
no name is the beginning of another there is at most one name at each place, so both find the
names that a text was put together from. -/

/-- No name is a proper beginning of another. -/
def PrefixFree (known : String → Prop) : Prop :=
  ∀ first second, known first → known second → first.toList <+: second.toList → first = second

section

variable {known : String → Prop} {text : List Char} {names : List String}

/-- At most one name stands at each place. -/
theorem PrefixFree.eq_of_begins (hfree : PrefixFree known) {first second : String}
    (hfirst : known first) (hsecond : known second) (hbegins : first.toList <+: text)
    (hother : second.toList <+: text) : first = second := by
  rcases List.prefix_or_prefix_of_prefix hbegins hother with h | h
  · exact hfree first second hfirst hsecond h
  · exact (hfree second first hsecond hfirst h).symm

theorem PrefixFree.longest (hfree : PrefixFree known) {name : String} (hname : known name)
    (hbegins : name.toList <+: text) : Longest known text name := by
  refine ⟨hname, hbegins, fun other hother hfront => ?_⟩
  rw [hfree.eq_of_begins hother hname hfront hbegins]

theorem PrefixFree.cut_iff (hfree : PrefixFree known) :
    Cut known text names [] ↔
      (∀ name ∈ names, known name) ∧ text = names.flatMap String.toList := by
  constructor
  · intro hcut
    exact ⟨hcut.known_of_mem, hcut.text_eq.trans (List.append_nil _)⟩
  · rintro ⟨hnames, rfl⟩
    induction names with
    | nil => exact .nil []
    | cons name names ih =>
        obtain ⟨hname, hnames⟩ := List.forall_mem_cons.mp hnames
        rw [List.flatMap_cons]
        exact .cons (hfree.longest hname (List.prefix_append _ _)) rfl (ih hnames)

end

namespace Vocabulary

variable {v : Vocabulary}

theorem known_terminalName {index : Nat} (h : index < v.alphabet.length) :
    v.Known (v.terminalName (.token index)) :=
  ⟨.terminal (.token index), by simpa using h, rfl⟩

/-- Where no name begins another, a name of the alphabet is found wherever it stands. -/
theorem shortestMatch_of_prefixFree (hv : v.Disjoint) (hfree : PrefixFree v.Known)
    {index : Nat} (hindex : index < v.alphabet.length) (rest : List Char) :
    v.shortestMatch [] ((v.terminalName (.token index)).toList ++ rest) =
      some (index, (v.terminalName (.token index)).toList, rest) := by
  have hname : v.alphabet[index]? = some (v.terminalName (.token index)) :=
    alphabet_getElem? (by simpa using hindex)
  obtain ⟨hne, hmarker⟩ := hv.alphabet_ne _ (List.mem_of_getElem? hname)
  have hknown := known_terminalName hindex
  refine shortestMatch_append rest ?_ ?_ ?_ ?_
  · exact fun hnil => hne (String.toList_eq_nil_iff.mp hnil)
  · simpa using hmarker
  · simpa using idxOf?_of_getElem? hv.alphabet_nodup hname
  · intro shorter _ hbegins hproper
    have hnot : ¬ v.Known (String.ofList shorter) := by
      intro hother
      have heq := hfree _ _ hother hknown (by simpa using hbegins)
      exact hproper (by rw [← heq, String.toList_ofList])
    rw [known_iff] at hnot
    exact ⟨fun heq => hnot (.inr (.inr heq)), fun hmem => hnot (.inr (.inl hmem))⟩

end Vocabulary

namespace Scanner

variable {v : Vocabulary} {passed text : List Char} {terminals : List Terminal}

theorem delivers_endMarker_iff :
    (⟨passed, text, false⟩ : Scanner).Delivers v [.endMarker] ↔ text = [] := by
  rw [delivers_cons]
  constructor
  · rintro ⟨token, htoken, hterminal, _⟩
    rw [next_eq v rfl] at htoken
    have hfetched := fetched v (s := ⟨passed, text, false⟩) rfl
    rw [Option.some.inj htoken] at hfetched
    generalize (fetch v ⟨passed, text, false⟩).2 = after at hfetched
    cases hfetched with
    | endMarker hrest => exact hrest
    | token => cases hterminal
  · rintro rfl
    exact ⟨⟨.endMarker, passed, []⟩, rfl, rfl, delivers_nil ..⟩

theorem delivers_token_iff {index : Nat} :
    (⟨passed, text, false⟩ : Scanner).Delivers v (.token index :: terminals) ↔
      ∃ found rest, v.shortestMatch [] text = some (index, found, rest) ∧
        (⟨found.reverse ++ passed, rest, false⟩ : Scanner).Delivers v terminals := by
  rw [delivers_cons]
  constructor
  · rintro ⟨token, htoken, hterminal, hrest⟩
    rw [next_eq v rfl] at htoken hrest
    have hfetched := fetched v (s := ⟨passed, text, false⟩) rfl
    rw [Option.some.inj htoken] at hfetched
    generalize (fetch v ⟨passed, text, false⟩).2 = after at hfetched hrest
    cases hfetched with
    | endMarker => cases hterminal
    | token hmatch =>
        cases hterminal
        exact ⟨_, _, hmatch, hrest⟩
  · rintro ⟨found, rest, hmatch, hrest⟩
    have hnext : (⟨passed, text, false⟩ : Scanner).next v =
        (some (.ok ⟨.token index, passed, found⟩), ⟨found.reverse ++ passed, rest, false⟩) := by
      have htext : text ≠ [] := by
        rintro rfl
        cases hmatch
      simp [next, htext, hmatch]
    rw [hnext]
    exact ⟨_, rfl, rfl, hrest⟩

/-- The tokenizer finds the names that a text was put together from. -/
theorem delivers_iff (hv : v.Disjoint) (hfree : PrefixFree v.Known) {indices : List Nat} :
    (⟨passed, text, false⟩ : Scanner).Delivers v (indices.map .token ++ [.endMarker]) ↔
      (∀ index ∈ indices, index < v.alphabet.length) ∧
        text = (indices.map fun index => v.terminalName (.token index)).flatMap
          String.toList := by
  induction indices generalizing passed text with
  | nil => simp [delivers_endMarker_iff]
  | cons index indices ih =>
      rw [List.map_cons, List.cons_append, delivers_token_iff, List.forall_mem_cons,
        List.map_cons, List.flatMap_cons]
      constructor
      · rintro ⟨found, rest, hmatch, hrest⟩
        obtain ⟨htext, hindex, hname⟩ := Vocabulary.eq_append_of_shortestMatch hmatch
        obtain ⟨hindices, rfl⟩ := ih.mp hrest
        refine ⟨⟨hindex, hindices⟩, ?_⟩
        rw [hname, String.toList_ofList]
        exact htext
      · rintro ⟨⟨hindex, hindices⟩, rfl⟩
        exact ⟨_, _, Vocabulary.shortestMatch_of_prefixFree hv hfree hindex _,
          ih.mpr ⟨hindices, rfl⟩⟩

end Scanner

namespace Grammar

variable {alphabet productions : List String} {g : Grammar}

/-- Where no name begins another, segmentation finds nothing but terminals exactly where the
tokenizer finds them, and these are the terminals whose names were written. -/
theorem segment_iff_tokenizes (hbuild : build alphabet productions = .ok g)
    (hfree : PrefixFree g.Known) :
    (∀ (input : String) (indices : List Nat),
      g.segment input.toList = .ok (indices.map fun index => .terminal (.token index)) ↔
        g.Tokenizes input (indices.map .token ++ [.endMarker])) ∧
      ∀ indices : List Nat, (∀ index ∈ indices, index < g.alphabet.length) →
        g.Tokenizes (String.join (indices.map fun index => g.terminalName (.token index)))
          (indices.map .token ++ [.endMarker]) := by
  have hdisjoint := build_disjoint hbuild
  refine ⟨fun input indices => ?_, fun indices hindices => ?_⟩
  · rw [Vocabulary.segment_eq_ok_iff hdisjoint.distinct, hfree.cut_iff]
    refine Iff.trans ?_ (Scanner.delivers_iff hdisjoint hfree).symm
    have hsymbols : (∀ symbol ∈ indices.map fun index => Symbol.terminal (.token index),
        symbol ∈ g.symbols) ↔ ∀ index ∈ indices, index < g.alphabet.length := by
      simp
    rw [hsymbols, List.map_map]
    refine and_congr_right fun hindices => and_iff_right ?_
    rintro name hname
    obtain ⟨index, hindex, rfl⟩ := List.mem_map.mp hname
    exact Vocabulary.known_terminalName (hindices index hindex)
  · exact (Scanner.delivers_iff hdisjoint hfree).mpr ⟨hindices, String.toList_join⟩

theorem segment_iff_tokenizes_accented :
    accented.segment "é→←é".toList =
        .ok [.terminal (.token 0), .terminal (.token 1), .terminal (.token 0)] ∧
      accented.Tokenizes "é→←é" [.token 0, .token 1, .token 0, .endMarker] := by
  have hfree : PrefixFree accented.Known := by
    rintro _ _ ⟨first, hfirst, rfl⟩ ⟨second, hsecond, rfl⟩
    revert first second
    decide +kernel
  obtain ⟨hiff, hwritten⟩ := segment_iff_tokenizes build_accented hfree
  have htokenizes : accented.Tokenizes "é→←é" [.token 0, .token 1, .token 0, .endMarker] :=
    hwritten [0, 1, 0] (by decide +kernel)
  exact ⟨(hiff "é→←é" [0, 1, 0]).mpr htokenizes, htokenizes⟩

end Grammar
end CanonicalLR
